import JnetLib.Iocp.Tokens

/-!
# Every step is an effect

A step of the service that does not submit the operation is one of the effects on it
(`effect_of_step`). This is the one place where the branches of the service are gone through. The
ledger of such a step is compared by `elsewhere_exchange`, which cancels whatever the step does not
move; `Writes` and `Appends` do so for the two kinds of steps there are, those of a `do_one` thread,
and those of an initiating thread or the kernel.

A submission puts an operation at rest under way (`sound_submit`). Here, and only here, `Fresh` is
used: the flag is clear and nothing of the operation is anywhere. So an operation is sound in every
state of a run whose submissions are fresh (`sound_of_run`).
-/

namespace JnetLib.Iocp

namespace OpState

variable {S : OpState}

theorem initTokens_flag (h : S.pc ≠ .pending) :
    initTokens { S with mem := S.mem.flag } = S.initTokens := by
  rcases S with ⟨mem, pc, io, submitted, invoked⟩
  cases pc <;> first | rfl | exact absurd rfl h

theorem initTokens_drop (hr : S.mem.ready = false) :
    initTokens { S with mem := S.mem.flag } =
      S.initTokens + if S.pc = .pending then {.dropped} else 0 := by
  rcases S with ⟨mem, pc, io, submitted, invoked⟩
  cases pc <;> simp_all [initTokens]

end OpState

namespace Service

variable {ι τ : Type} [DecidableEq ι] [DecidableEq τ] [Fintype τ]
variable {s s' : Service ι τ} {i j : ι} {t : τ} {S : OpState} {pc : DoOne ι}

theorem queuedTokens_self : queuedTokens i i = {.posted} :=
  if_pos rfl

theorem queuedTokens_of_ne (h : j ≠ i) : queuedTokens i j = 0 :=
  if_neg h

theorem packetTokens_posted : packetTokens i (.posted j) = queuedTokens i j :=
  rfl

/-- **A thread's step on the ledger**: it suffices to compare what moves, the port, the list and the
thread's own hands. -/
theorem elsewhere_exchange {a b : Multiset Token}
    (ht : s'.threads = Function.update s.threads t pc)
    (h : (s'.port.map (packetTokens i)).sum + (s'.completedOps.map (queuedTokens i)).sum +
        threadTokens i pc + a =
      (s.port.map (packetTokens i)).sum + (s.completedOps.map (queuedTokens i)).sum +
        threadTokens i (s.threads t) + b) :
    s'.elsewhere i + a = s.elsewhere i + b := by
  have htally := tally_update (threadTokens i) s.threads t pc
  refine add_right_cancel (b := threadTokens i (s.threads t)) ?_
  rw [elsewhere, elsewhere, ht]
  calc _ = (s'.port.map (packetTokens i)).sum + (s'.completedOps.map (queuedTokens i)).sum + a +
        (tally (threadTokens i) (Function.update s.threads t pc) +
          threadTokens i (s.threads t)) := by ac_rfl
    _ = (s'.port.map (packetTokens i)).sum + (s'.completedOps.map (queuedTokens i)).sum +
        threadTokens i pc + a + tally (threadTokens i) s.threads := by
      rw [htally]
      ac_rfl
    _ = _ := by
      rw [h]
      ac_rfl

omit [DecidableEq τ] in
/-- A step that leaves the state of operation `i` and the rest of its ledger alone. -/
theorem effect_of_elsewhere (hops : s'.ops i = s.ops i) (h : s'.elsewhere i = s.elsewhere i) :
    Effect (s.ops i) (s'.ops i) (s.tokens i) (s'.tokens i) := by
  rw [tokens, tokens, hops, h]
  exact .quiet

/-- A thread's step that moves nothing of operation `i`, or moves it to a place of the same kind. -/
theorem elsewhere_of_thread (ht : s'.threads = Function.update s.threads t pc)
    (h : (s'.port.map (packetTokens i)).sum + (s'.completedOps.map (queuedTokens i)).sum +
        threadTokens i pc =
      (s.port.map (packetTokens i)).sum + (s.completedOps.map (queuedTokens i)).sum +
        threadTokens i (s.threads t)) :
    s'.elsewhere i = s.elsewhere i := by
  have := elsewhere_exchange (a := 0) (b := 0) ht (by rw [add_zero, add_zero, h])
  rwa [add_zero, add_zero] at this

/-- A thread's step that leaves the state of operation `i` alone, and moves nothing of it or moves
it to a place of the same kind. -/
theorem effect_of_thread (hops : s'.ops i = s.ops i)
    (ht : s'.threads = Function.update s.threads t pc)
    (h : (s'.port.map (packetTokens i)).sum + (s'.completedOps.map (queuedTokens i)).sum +
        threadTokens i pc =
      (s.port.map (packetTokens i)).sum + (s.completedOps.map (queuedTokens i)).sum +
        threadTokens i (s.threads t)) :
    Effect (s.ops i) (s'.ops i) (s.tokens i) (s'.tokens i) :=
  effect_of_elsewhere hops (elsewhere_of_thread ht h)

theorem effect_check (h : s.check t = some s') :
    Effect (s.ops i) (s'.ops i) (s.tokens i) (s'.tokens i) := by
  rw [check] at h
  split at h
  case h_1 ht =>
    split at h <;> obtain rfl := Option.some.inj h <;>
      exact effect_of_thread rfl rfl (by rw [ht]; rfl)
  case h_2 => cases h

theorem effect_retry (h : s.retry t = some s') :
    Effect (s.ops i) (s'.ops i) (s.tokens i) (s'.tokens i) := by
  rw [retry] at h
  split at h
  case h_1 ht =>
    obtain rfl := Option.some.inj h
    exact effect_of_thread rfl rfl (by rw [ht]; rfl)
  case h_2 => cases h

theorem effect_ret (h : s.ret t = some s') :
    Effect (s.ops i) (s'.ops i) (s.tokens i) (s'.tokens i) := by
  rw [ret] at h
  split at h
  case h_1 ht =>
    obtain rfl := Option.some.inj h
    exact effect_of_thread rfl rfl (by rw [ht]; rfl)
  case h_2 => cases h

/-- A thread takes over `completed_ops_`. -/
theorem effect_enter (h : s.enter t = some s') :
    Effect (s.ops i) (s'.ops i) (s.tokens i) (s'.tokens i) := by
  rw [enter] at h
  split at h
  case h_1 ht =>
    split at h
    · cases h
    obtain rfl := Option.some.inj h
    refine effect_of_thread rfl rfl ?_
    rw [ht]
    show (s.port.map (packetTokens i)).sum + 0 + (s.completedOps.map (queuedTokens i)).sum =
      (s.port.map (packetTokens i)).sum + (s.completedOps.map (queuedTokens i)).sum + 0
    rw [add_zero, add_zero]
  case h_2 => cases h

/-- A thread takes a packet out of the port. -/
theorem effect_dequeue {k : ℕ} (h : s.dequeue t k = some s') :
    Effect (s.ops i) (s'.ops i) (s.tokens i) (s'.tokens i) := by
  rw [dequeue] at h
  split at h
  case h_1 p ht hp =>
    obtain rfl := Option.some.inj h
    refine effect_of_thread rfl rfl ?_
    rw [ht, ← sum_eraseIdx (packetTokens i) hp]
    show _ + (s.completedOps.map (queuedTokens i)).sum + packetTokens i p =
      _ + packetTokens i p + (s.completedOps.map (queuedTokens i)).sum + 0
    rw [add_zero, add_right_comm]
  case h_2 => cases h

omit [DecidableEq τ] in
/-- The ledger of the operation a step is about, from its new state and the rest of the ledger. -/
theorem tokens_exchange {a b : Multiset Token} (hops : s'.ops i = S)
    (hio : S.ioTokens = (s.ops i).ioTokens) (hinit : S.initTokens = (s.ops i).initTokens)
    (h : s'.elsewhere i + a = s.elsewhere i + b) : s'.tokens i + a = s.tokens i + b := by
  rw [tokens, tokens, hops, hio, hinit, add_assoc, h, ← add_assoc]

theorem threadTokens_recorded_self (ec : ErrorCode) (n : ℕ) :
    threadTokens i (.recorded i ec n) = {.recorded ec n} :=
  if_pos rfl

theorem threadTokens_recorded_of_ne (h : j ≠ i) (ec : ErrorCode) (n : ℕ) :
    threadTokens i (.recorded j ec n) = 0 :=
  if_neg h

theorem threadTokens_posted (i j : ι) : threadTokens i (.got (.posted j)) = queuedTokens i j :=
  rfl

theorem threadTokens_kernel_self (e : ℤ) (n : ℕ) :
    threadTokens i (.got (.kernel i e n)) = {.kernel e n} :=
  if_pos rfl

theorem threadTokens_kernel_of_ne (h : j ≠ i) (e : ℤ) (n : ℕ) :
    threadTokens i (.got (.kernel j e n)) = 0 :=
  if_neg h

/-- A step in which thread `t` moves on to `pc` and operation `j` gets the state `S`. -/
structure Writes (s s' : Service ι τ) (j : ι) (S : OpState) (t : τ) (pc : DoOne ι) : Prop where
  self : s'.ops j = S
  other : ∀ i, j ≠ i → s'.ops i = s.ops i
  threads : s'.threads = Function.update s.threads t pc
  port : s'.port = s.port
  completedOps : s'.completedOps = s.completedOps

omit [Fintype τ] in
theorem writes_setThread (s : Service ι τ) (j : ι) (S : OpState) (t : τ) (pc : DoOne ι) :
    Writes s ((s.setOp j S).setThread t pc) j S t pc where
  self := Function.update_self ..
  other _ h := Function.update_of_ne h.symm ..
  threads := rfl
  port := rfl
  completedOps := rfl

/-- What the ledger of another operation sees. -/
theorem Writes.effect_of_ne (h : Writes s s' j S t pc) (hne : j ≠ i)
    (hpc : threadTokens i pc = threadTokens i (s.threads t)) :
    Effect (s.ops i) (s'.ops i) (s.tokens i) (s'.tokens i) :=
  effect_of_thread (h.other i hne) h.threads (by rw [h.port, h.completedOps, hpc])

/-- What the ledger of the operation itself sees. -/
theorem Writes.elsewhere {a b : Multiset Token} (h : Writes s s' j S t pc)
    (hpc : threadTokens j pc + a = threadTokens j (s.threads t) + b) :
    s'.elsewhere j + a = s.elsewhere j + b :=
  elsewhere_exchange h.threads (by rw [h.port, h.completedOps, add_assoc, hpc, ← add_assoc])

/-- A posted operation becomes a recorded one, or a packet's result is saved. -/
theorem effect_record (h : s.record t = some s') :
    Effect (s.ops i) (s'.ops i) (s.tokens i) (s'.tokens i) := by
  rw [record] at h
  split at h
  case h_1 j ht =>
    obtain rfl := Option.some.inj h
    rcases eq_or_ne j i with rfl | hne
    · refine .reload (tokens_exchange rfl rfl rfl (elsewhere_exchange rfl ?_))
      rw [ht, threadTokens_posted, queuedTokens_self, threadTokens_recorded_self, add_right_comm]
      rfl
    · refine effect_of_thread rfl rfl ?_
      rw [ht, threadTokens_posted, queuedTokens_of_ne hne, threadTokens_recorded_of_ne hne]
      rfl
  case h_2 j e n ht =>
    have hw : Writes s s' j { s.ops j with mem := (s.ops j).mem.store (.system e) n } t
        (.recorded j (.system e) n) := Option.some.inj h ▸ writes_setThread ..
    rcases eq_or_ne j i with rfl | hne
    · rw [hw.self]
      refine .record e n (tokens_exchange hw.self rfl rfl (hw.elsewhere ?_))
      rw [ht, threadTokens_kernel_self, threadTokens_recorded_self, add_comm]
    · refine hw.effect_of_ne hne ?_
      rw [ht, threadTokens_kernel_of_ne hne, threadTokens_recorded_of_ne hne]
  case h_3 => cases h

/-- The exchange on `ready_`. -/
theorem effect_exchange (h : s.exchange t = some s') :
    Effect (s.ops i) (s'.ops i) (s.tokens i) (s'.tokens i) := by
  rw [exchange] at h
  split at h
  case h_1 j ec n ht =>
    dsimp only at h
    split at h
    case isTrue hr =>
      have hw : Writes s s' j { s.ops j with invoked := (s.ops j).invoked ++ [(ec, n)] } t
          (.completing j ec n) := Option.some.inj h ▸ writes_setThread ..
      rcases eq_or_ne j i with rfl | hne
      · rw [hw.self]
        refine .invoke ec n hr ((tokens_exchange hw.self rfl rfl (hw.elsewhere ?_)).trans
          (add_zero _))
        rw [ht, threadTokens_recorded_self, add_zero]
        exact zero_add _
      · refine hw.effect_of_ne hne ?_
        rw [ht, threadTokens_recorded_of_ne hne]
        rfl
    case isFalse hr =>
      have hw : Writes s s' j { s.ops j with mem := (s.ops j).mem.flag } t .top :=
        Option.some.inj h ▸ writes_setThread ..
      rcases eq_or_ne j i with rfl | hne
      · have hclear : (s.ops j).mem.ready = false := by simpa using hr
        have helse : s'.elsewhere j + {.recorded ec n} = s.elsewhere j + 0 := by
          refine hw.elsewhere ?_
          rw [ht, threadTokens_recorded_self, add_zero]
          exact zero_add _
        rw [hw.self]
        refine .drop ec n hclear ?_
        rw [tokens, tokens, hw.self, OpState.initTokens_drop hclear, add_assoc, helse]
        show (s.ops j).ioTokens + _ + _ = _
        ac_rfl
      · refine hw.effect_of_ne hne ?_
        rw [ht, threadTokens_recorded_of_ne hne]
        rfl
  case h_2 => cases h

omit [DecidableEq τ] in
/-- A step that sets the flag of a posted operation and moves its token to a place of the same
kind. -/
theorem effect_reposted (hself : s'.ops j = { s.ops j with mem := (s.ops j).mem.flag })
    (hother : ∀ i, j ≠ i → s'.ops i = s.ops i) (helse : s'.elsewhere i = s.elsewhere i)
    (hmem : j = i → .posted ∈ s.tokens i) :
    Effect (s.ops i) (s'.ops i) (s.tokens i) (s'.tokens i) := by
  rcases eq_or_ne j i with rfl | hne
  · rw [hself]
    refine .repost (hmem rfl) fun hpc ↦ ?_
    rw [tokens, tokens, helse, hself, OpState.initTokens_flag (by rw [hpc]; simp)]
    rfl
  · exact effect_of_elsewhere (hother i hne) helse

omit [DecidableEq τ] in
theorem posted_mem_tokens {ops : List ι} (ht : s.threads t = .dispatching (i :: ops)) :
    .posted ∈ s.tokens i := by
  refine Multiset.mem_add.2 (.inr (Multiset.mem_add.2 (.inr ?_)))
  refine Multiset.mem_sum.2 ⟨t, Finset.mem_univ t, ?_⟩
  rw [ht]
  show _ ∈ ((i :: ops).map (queuedTokens i)).sum
  rw [List.map_cons, List.sum_cons, queuedTokens_self]
  exact Multiset.mem_add.2 (.inl (Multiset.mem_singleton_self _))

/-- `post_deferred_completions` posts the next operation of the list, or puts it back. -/
theorem effect_repost {ok : Bool} (h : s.repost t ok = some s') :
    Effect (s.ops i) (s'.ops i) (s.tokens i) (s'.tokens i) := by
  rw [repost] at h
  split at h
  case h_1 ht =>
    obtain rfl := Option.some.inj h
    exact effect_of_thread rfl rfl (by rw [ht]; rfl)
  case h_2 j ops ht =>
    dsimp only at h
    have hmem : j = i → .posted ∈ s.tokens i := fun hji ↦ posted_mem_tokens (hji ▸ ht)
    have hold : threadTokens i (s.threads t) =
        queuedTokens i j + (ops.map (queuedTokens i)).sum := by
      rw [ht]
      exact List.sum_cons
    split at h <;> obtain rfl := Option.some.inj h
    · refine effect_reposted (Function.update_self ..) (fun i hi ↦ Function.update_of_ne hi.symm ..)
        (elsewhere_of_thread
          (show _ = Function.update s.threads t (.dispatching ops) from rfl) ?_) hmem
      rw [hold]
      show ((s.port ++ [Packet.posted j]).map _).sum + _ + (ops.map (queuedTokens i)).sum = _
      rw [List.map_append, List.sum_append, List.map_singleton, List.sum_singleton,
        packetTokens_posted]
      ac_rfl
    · refine effect_reposted (Function.update_self ..) (fun i hi ↦ Function.update_of_ne hi.symm ..)
        (elsewhere_of_thread (show _ = Function.update s.threads t (.dispatching []) from rfl) ?_)
        hmem
      rw [hold]
      show _ + ((s.completedOps ++ j :: ops).map (queuedTokens i)).sum + 0 = _
      rw [List.map_append, List.sum_append, List.map_cons, List.sum_cons, add_zero, ← add_assoc]
      rfl
  case h_3 => cases h

/-- A step of an initiating thread or of the kernel: operation `j` gets the state `S`, and packets
and entries are appended. -/
structure Appends (s s' : Service ι τ) (j : ι) (S : OpState) (ps : List (Packet ι))
    (cs : List ι) : Prop where
  self : s'.ops j = S
  other : ∀ i, j ≠ i → s'.ops i = s.ops i
  threads : s'.threads = s.threads
  port : s'.port = s.port ++ ps
  completedOps : s'.completedOps = s.completedOps ++ cs

omit [DecidableEq τ] [Fintype τ] in
theorem appends_setOp (h : s.setOp j S = s') : Appends s s' j S [] [] := by
  rw [← h]
  exact ⟨Function.update_self .., fun i hi ↦ Function.update_of_ne hi.symm .., rfl,
    (List.append_nil _).symm, (List.append_nil _).symm⟩

section Appending

variable {ps : List (Packet ι)} {cs : List ι}

omit [DecidableEq τ] in
theorem Appends.elsewhere (h : Appends s s' j S ps cs) (i : ι) :
    s'.elsewhere i =
      s.elsewhere i + ((ps.map (packetTokens i)).sum + (cs.map (queuedTokens i)).sum) := by
  rw [Service.elsewhere, Service.elsewhere, h.threads, h.port, h.completedOps, List.map_append,
    List.sum_append, List.map_append, List.sum_append]
  ac_rfl

omit [DecidableEq τ] in
/-- What the ledger of another operation sees. -/
theorem Appends.effect_of_ne (h : Appends s s' j S ps cs) (hne : j ≠ i)
    (hps : (ps.map (packetTokens i)).sum = 0) (hcs : (cs.map (queuedTokens i)).sum = 0) :
    Effect (s.ops i) (s'.ops i) (s.tokens i) (s'.tokens i) :=
  effect_of_elsewhere (h.other i hne) (by rw [h.elsewhere, hps, hcs, add_zero, add_zero])

omit [DecidableEq τ] in
/-- What the ledger of the operation itself sees. -/
theorem Appends.tokens (h : Appends s s' j S ps cs) :
    s'.tokens j = S.ioTokens + S.initTokens + s.elsewhere j +
      ((ps.map (packetTokens j)).sum + (cs.map (queuedTokens j)).sum) := by
  rw [Service.tokens, h.self, h.elsewhere, ← add_assoc]

omit [DecidableEq τ] in
/-- A step that exchanges the token in the initiating thread's hands. -/
theorem Appends.exchange {a b : Multiset Token} (h : Appends s s' j S ps cs)
    (hio : S.ioTokens = (s.ops j).ioTokens)
    (hinit : S.initTokens + ((ps.map (packetTokens j)).sum + (cs.map (queuedTokens j)).sum) + a =
      (s.ops j).initTokens + b) : s'.tokens j + a = s.tokens j + b := by
  calc s'.tokens j + a = (s.ops j).ioTokens + s.elsewhere j + (S.initTokens +
        ((ps.map (packetTokens j)).sum + (cs.map (queuedTokens j)).sum) + a) := by
        rw [h.tokens, hio]
        ac_rfl
    _ = s.tokens j + b := by
      rw [hinit, Service.tokens]
      ac_rfl

omit [DecidableEq τ] in
/-- A step that leaves the initiating thread's hands as they were. -/
theorem Appends.tokens_eq (h : Appends s s' j S [] []) (hio : S.ioTokens = (s.ops j).ioTokens)
    (hinit : S.initTokens = (s.ops j).initTokens) : s'.tokens j = s.tokens j := by
  refine add_right_cancel (b := 0) (h.exchange hio ?_)
  simp only [hinit, List.map_nil, List.sum_nil, add_zero]

omit [DecidableEq τ] in
/-- The step is what it is to the operation itself, and nothing to the others. -/
theorem Appends.effect (h : Appends s s' j S ps cs)
    (hself : Effect (s.ops j) S (s.tokens j) (s'.tokens j))
    (hps : ∀ i, j ≠ i → (ps.map (packetTokens i)).sum = 0)
    (hcs : ∀ i, j ≠ i → (cs.map (queuedTokens i)).sum = 0) :
    Effect (s.ops i) (s'.ops i) (s.tokens i) (s'.tokens i) := by
  rcases eq_or_ne j i with rfl | hne
  · rw [h.self]
    exact hself
  · exact h.effect_of_ne hne (hps i hne) (hcs i hne)

end Appending

omit [DecidableEq τ] in
/-- The kernel queues a packet. -/
theorem effect_arrive {k : ℕ} (h : s.arrive j k = some s') :
    Effect (s.ops i) (s'.ops i) (s.tokens i) (s'.tokens i) := by
  rw [arrive] at h
  split at h
  case h_1 r hr =>
    have ha : Appends s s' j { s.ops j with io := (s.ops j).io.eraseIdx k }
        [.kernel j r.1 r.2] [] := by
      rw [← Option.some.inj h]
      exact ⟨Function.update_self .., fun i hi ↦ Function.update_of_ne hi.symm .., rfl, rfl,
        (List.append_nil _).symm⟩
    have hio := sum_eraseIdx (fun r : ℤ × ℕ ↦ ({Token.kernel r.1 r.2} : Multiset Token)) hr
    have hM : s'.tokens j = s.tokens j := by
      rw [ha.tokens, List.map_singleton, List.sum_singleton, packetTokens, if_pos rfl, tokens,
        ← show _ = (s.ops j).ioTokens from hio]
      show _ + _ + _ + (_ + 0) = _
      rw [add_zero]
      ac_rfl
    refine ha.effect ?_ (fun i hne ↦ ?_) fun _ _ ↦ rfl
    · rw [hM]
      exact .arrive _
    · rw [List.map_singleton, List.sum_singleton, packetTokens, if_neg hne]
  case h_2 => cases h

/-! #### The initiating thread -/

omit [DecidableEq τ] in
/-- The initiating thread posts the operation. -/
theorem effect_post (ha : Appends s s' j { s.ops j with pc := .idle } [.posted j] [])
    (hpc : (s.ops j).pc = .posting) :
    Effect (s.ops i) (s'.ops i) (s.tokens i) (s'.tokens i) := by
  refine ha.effect (.post (.inl hpc) (ha.exchange rfl ?_)) (fun i hne ↦ ?_) fun _ _ ↦ rfl
  · rw [OpState.initTokens.eq_def (s.ops j), hpc, List.map_singleton, List.sum_singleton,
      packetTokens_posted, queuedTokens_self]
    show (0 : Multiset Token) + ({Token.posted} + 0) + _ = _
    rw [zero_add, add_zero, add_comm]
  · rw [List.map_singleton, List.sum_singleton, packetTokens_posted, queuedTokens_of_ne hne]

omit [DecidableEq τ] in
/-- The initiating thread pushes the operation into `completed_ops_`, since the post has failed. -/
theorem effect_push (ha : Appends s s' j { s.ops j with pc := .idle } [] [j])
    (hpc : (s.ops j).pc = .pushing) :
    Effect (s.ops i) (s'.ops i) (s.tokens i) (s'.tokens i) := by
  refine ha.effect (.post (.inr hpc) (ha.exchange rfl ?_)) (fun _ _ ↦ rfl) fun i hne ↦ ?_
  · rw [OpState.initTokens.eq_def (s.ops j), hpc, List.map_singleton, List.sum_singleton,
      queuedTokens_self]
    show (0 : Multiset Token) + (0 + {Token.posted}) + _ = _
    rw [zero_add, zero_add, add_comm]
  · rw [List.map_singleton, List.sum_singleton, queuedTokens_of_ne hne]

omit [DecidableEq τ] in
/-- The initiating thread's next action. -/
theorem effect_initiate {ok : Bool} (h : s.initiate j ok = some s') :
    Effect (s.ops i) (s'.ops i) (s.tokens i) (s'.tokens i) := by
  rw [initiate] at h
  dsimp only at h
  split at h
  case h_1 => cases h
  case h_2 hpc =>
    split at h <;> have ha := appends_setOp (Option.some.inj h)
    case isTrue hr =>
      refine ha.effect (.second hpc hr (ha.exchange rfl ?_)) (fun _ _ ↦ rfl) fun _ _ ↦ rfl
      rw [OpState.initTokens.eq_def (s.ops j), hpc, if_pos hr]
      exact add_comm _ _
    case isFalse hr =>
      have hM : s'.tokens j = s.tokens j := by
        refine ha.tokens_eq rfl ?_
        rw [OpState.initTokens.eq_def (s.ops j), hpc, if_neg hr]
        rfl
      refine ha.effect ?_ (fun _ _ ↦ rfl) fun _ _ ↦ rfl
      rw [hM]
      exact .first hpc (Bool.eq_false_iff.2 hr)
  case h_3 ec n hpc =>
    have ha := appends_setOp (Option.some.inj h)
    refine ha.effect (.flag ec n hpc (ha.exchange rfl ?_)) (fun _ _ ↦ rfl) fun _ _ ↦ rfl
    rw [OpState.initTokens.eq_def (s.ops j), hpc]
    exact add_comm _ _
  case h_4 ec n hpc =>
    have ha := appends_setOp (Option.some.inj h)
    refine ha.effect (.store ec n hpc (ha.exchange rfl ?_)) (fun _ _ ↦ rfl) fun _ _ ↦ rfl
    rw [OpState.initTokens.eq_def (s.ops j), hpc]
    exact add_comm _ _
  case h_5 hpc =>
    split at h
    · refine effect_post ?_ hpc
      rw [← Option.some.inj h]
      exact ⟨Function.update_self .., fun i hi ↦ Function.update_of_ne hi.symm .., rfl, rfl,
        (List.append_nil _).symm⟩
    · have ha := appends_setOp (Option.some.inj h)
      have hM : s'.tokens j = s.tokens j := by
        refine ha.tokens_eq rfl ?_
        rw [OpState.initTokens.eq_def (s.ops j), hpc]
        rfl
      refine ha.effect ?_ (fun _ _ ↦ rfl) fun _ _ ↦ rfl
      rw [hM]
      exact .postFails hpc
  case h_6 hpc =>
    split at h
    · cases h
    · refine effect_push ?_ hpc
      rw [← Option.some.inj h]
      exact ⟨Function.update_self .., fun i hi ↦ Function.update_of_ne hi.symm .., rfl,
        (List.append_nil _).symm, rfl⟩

omit [DecidableEq τ] [Fintype τ] in
/-- A submission writes one operation only. -/
theorem appends_submit {rst : Bool} {ov : ErrorCode × ℕ} {o : Issued}
    (h : s.submit j rst ov o = some s') :
    ∃ S, Appends s s' j S [] [] := by
  rw [submit.eq_def] at h
  dsimp only at h
  split at h
  case isTrue => cases o <;> exact ⟨_, appends_setOp (Option.some.inj h)⟩
  case isFalse => cases h

omit [DecidableEq τ] in
/-- **A submission at rest with the flag clear** puts the operation under way. -/
theorem sound_submit {rst : Bool} {ov : ErrorCode × ℕ} {o : Issued}
    (h : s.submit i rst ov o = some s')
    (hs : Sound (s.ops i) (s.tokens i)) (hrest : (s.ops i).submitted = (s.ops i).invoked)
    (hclear : (if rst then .reset else (s.ops i).mem).ready = false) :
    Sound (s'.ops i) (s'.tokens i) := by
  -- the fields the call leaves behind do not touch the flag
  replace hclear : ((if rst then .reset else (s.ops i).mem).store ov.1 ov.2).ready = false := hclear
  cases hs with
  | flying r tok hr _ _ =>
    rw [hrest] at hr
    simp at hr
  | resting _ hpc hM _ =>
    have hzero : (s.ops i).ioTokens + s.elsewhere i = 0 := by
      rw [← hM, tokens, OpState.initTokens.eq_def (s.ops i), hpc, add_zero]
    rw [submit.eq_def] at h
    dsimp only at h
    rw [if_pos hpc] at h
    cases o with
    | pending e n =>
      have ha := appends_setOp (Option.some.inj h)
      have hM' : s'.tokens i = {.kernel e n} := by
        rw [ha.tokens, OpState.initTokens, hclear, OpState.ioTokens, List.map_append,
          List.sum_append]
        show (s.ops i).ioTokens + {Token.kernel e n} + 0 + s.elsewhere i + 0 = _
        rw [add_zero, add_zero, add_right_comm, hzero, zero_add]
      rw [ha.self]
      exact .flying _ _ (by rw [hrest]; rfl) hM' ⟨rfl, .inl ⟨rfl, hclear⟩⟩
    | failed ec n =>
      have ha := appends_setOp (Option.some.inj h)
      have hM' : s'.tokens i = {.failed ec n} := by
        rw [ha.tokens]
        show (s.ops i).ioTokens + {Token.failed ec n} + s.elsewhere i + 0 = _
        rw [add_zero, add_right_comm, hzero, zero_add]
      rw [ha.self]
      exact .flying _ _ (by rw [hrest]; rfl) hM' ⟨rfl, rfl⟩

/-- **Every other step is an effect.** -/
theorem effect_of_step {e : Event ι τ} (h : s.step e = some s')
    (he : ∀ rst ov o, e ≠ .submit i rst ov o) :
    Effect (s.ops i) (s'.ops i) (s.tokens i) (s'.tokens i) := by
  cases e with
  | submit j rst ov o =>
    obtain ⟨S, ha⟩ := appends_submit h
    exact ha.effect_of_ne (fun hji ↦ he rst ov o (hji ▸ rfl)) rfl rfl
  | initiate j ok => exact effect_initiate h
  | arrive j k => exact effect_arrive h
  | check t => exact effect_check h
  | enter t => exact effect_enter h
  | repost t ok => exact effect_repost h
  | retry t => exact effect_retry h
  | dequeue t k => exact effect_dequeue h
  | record t => exact effect_record h
  | exchange t => exact effect_exchange h
  | ret t => exact effect_ret h

/-- Operation `i` is submitted only when it is not under way, and with `ready_` clear. -/
def Fresh (i : ι) (s : Service ι τ) : Event ι τ → Prop
  | .submit j rst _ _ => j = i → (s.ops i).submitted = (s.ops i).invoked ∧
      (if rst then .reset else (s.ops i).mem).ready = false
  | _ => True

/-- **Every step keeps an operation sound.** -/
theorem sound_step {e : Event ι τ} (hs : Sound (s.ops i) (s.tokens i)) (he : s.Fresh i e)
    (h : s.step e = some s') : Sound (s'.ops i) (s'.tokens i) := by
  by_cases hsub : ∃ rst ov o, e = .submit i rst ov o
  · obtain ⟨rst, ov, o, rfl⟩ := hsub
    exact sound_submit h hs (he rfl).1 (he rfl).2
  · exact hs.effect (effect_of_step h fun rst ov o heq ↦ hsub ⟨rst, ov, o, heq⟩)

omit [DecidableEq τ] in
theorem sound_start (mem : ι → Operation) (d : Bool) (i : ι) :
    Sound ((start mem d : Service ι τ).ops i) ((start mem d : Service ι τ).tokens i) := by
  refine .resting rfl rfl ?_ fun h ↦ absurd rfl h
  have hthreads : tally (threadTokens i) (start mem d : Service ι τ).threads = 0 :=
    tally_of_forall fun _ ↦ rfl
  rw [tokens, elsewhere, hthreads]
  rfl

/-- Every run keeps it sound. -/
theorem sound_of_run {mem : ι → Operation} {d : Bool} {l : List (Event ι τ)}
    (hl : Transition.RunMeets step (Fresh i) (start mem d) l)
    (hrun : Transition.run step (start mem d) l = some s) : Sound (s.ops i) (s.tokens i) :=
  Transition.invariant_run (fun _ _ _ hs he h ↦ sound_step hs he h) (sound_start mem d i) hl hrun

end Service

end JnetLib.Iocp
