import JnetLib.Server.ConnectionContext

/-!
# The lifetime of a server connection

In the runs in which every compare-and-swap of `Shutdown` succeeds and `cbOnClosed` starts no
operation, the count is right and the context is deleted once, when nobody uses it any more
(`lifetime_of_run`). Two callbacks that shut down together start an operation that nobody has
counted (`deleted_under_shutdown`).

* `RefCounted` has three cases: the count is positive and is that of the operations, of the
  callbacks and of the methods about to start one; one thread has taken it to zero and nobody else
  uses the context; or the context is deleted. A thread's step moves at most one unit from one of
  them to another, which is what `RefCounted.move` compares.
* `RefCounted.release` is the decrement of `CheckAndDelete`: it sees zero exactly when its reference
  was the last.
* `Guarded` is used at one step of each kind. A `Shutdown` whose compare-and-swap fails starts an
  operation that is not counted, and an operation that `cbOnClosed` starts outlives the context.
-/

namespace JnetLib.Server

namespace Connection

variable {τ : Type} [DecidableEq τ]

/-- What a thread of `CheckAndDelete` has found out about the flags, and that no method starts an
operation without its reference. -/
def Told (s : Connection τ) : Pc → Prop
  | .testClose => s.type = .https
  | .testShutdown => s.type = .https ∧ s.closeFlag = false
  | .method m g .check => m = .shutdown ∧ s.type = .https ∧ s.closeFlag = false ∧
      match g with
      | .closeFlag | .shutdownFlag | .swap => s.shutdownFlag = false
      | .count => True
      | .start counted => counted = true
  | .method _ (.start counted) _ => counted = true
  | .closing .check => False
  | _ => True

/-- The accept is the first thing that happens to a context. -/
def Accepting (s : Connection τ) : Prop := .accept ∈ s.ops ∨ ∃ t, s.pcs t = .failed

/-- **The invariant.** Either there are operations outstanding or callbacks executing, and the count
is theirs and that of the methods about to start one; or one thread has taken the count to zero; or
the context is deleted. -/
structure RefCounted [Fintype τ] (s : Connection τ) : Prop where
  ref : s.deletes = 0 → s.ref = s.ops.length + tally executing s.pcs + tally starting s.pcs
  nonneg : 0 ≤ s.ref
  phase : s.ops.length + tally executing s.pcs = 0 ∧ tally final s.pcs + s.deletes = 1 ∨
    0 < s.ops.length + tally executing s.pcs ∧ tally final s.pcs = 0 ∧ s.deletes = 0
  told : ∀ t, s.Told (s.pcs t)
  accepting : s.Accepting → s.ops.length + tally executing s.pcs = 1

theorem executing_add_final (pc : Pc) : executing pc + final pc = if pc = .idle then 0 else 1 := by
  rcases pc with - | k | ⟨m, g, (k | - | - | -)⟩ | (k | - | - | -) | - | - | - | - | - | - <;> rfl

theorem starting_le (pc : Pc) : starting pc ≤ executing pc + final pc := by
  rcases pc with - | k | ⟨m, (- | - | - | - | b), (k | - | - | -)⟩ | c | - | - | - | - | - | - <;>
    simp [starting, executing, final]

section Invariant

variable [Fintype τ] {s s' : Connection τ} {t : τ} {pc : Pc}

omit [DecidableEq τ] in
theorem RefCounted.lifetime (h : RefCounted s) : s.Lifetime := by
  have hidle : s.deletes = 1 → ∀ t, s.pcs t = .idle := fun hd t ↦ by
    by_contra hne
    have hsum := executing_add_final (s.pcs t)
    rw [if_neg hne] at hsum
    have hexec := le_tally executing s.pcs t
    have hfinal := le_tally final s.pcs t
    have := h.phase
    omega
  refine ⟨fun hd hs ↦ ?_, h.nonneg, ?_, fun hd ↦ ⟨?_, hidle hd⟩, fun hops hall ↦ ?_⟩
  · have href := h.ref hd
    rwa [tally_of_forall hs, Int.natCast_zero, Int.add_zero] at href
  · have := h.phase
    omega
  · have := h.phase
    exact List.length_eq_zero_iff.1 (by omega)
  · have hexec : tally executing s.pcs = 0 := tally_of_forall fun t ↦ by rw [hall t]; rfl
    have hfinal : tally final s.pcs = 0 := tally_of_forall fun t ↦ by rw [hall t]; rfl
    have := h.phase
    rw [hops, List.length_nil] at this
    omega

omit [DecidableEq τ] in
/-- While a thread is busy with it, the context is there and the others are not in
`CheckAndDelete`. -/
theorem RefCounted.busy (h : RefCounted s) (ht : s.pcs t ≠ .idle) :
    s.deletes = 0 ∧ ∀ u, u ≠ t → final (s.pcs u) = 0 := by
  have hsum := executing_add_final (s.pcs t)
  rw [if_neg ht] at hsum
  have hexec := le_tally executing s.pcs t
  have hfinal := le_tally final s.pcs t
  have hphase := h.phase
  refine ⟨by omega, fun u hu ↦ ?_⟩
  classical
  have hboth := add_le_tally final s.pcs hu.symm
  omega

omit [DecidableEq τ] [Fintype τ] in
/-- Only threads of `CheckAndDelete` and methods about to start rely on anything. -/
theorem told_of_final (h : s.Told pc) (hpc : final pc = 0) : s'.Told pc := by
  rcases pc with - | k | ⟨m, (- | - | - | - | b), (k | - | - | -)⟩ | (k | - | - | -) | - | - | - |
    - |
    - | - <;> first | exact h | exact absurd hpc (Nat.succ_ne_zero 0)

/-- **A step of a busy thread**: it suffices to compare what it moves. -/
theorem RefCounted.move (h : RefCounted s) (ht : s.pcs t ≠ .idle) (hf : s.pcs t ≠ .failed)
    (hpcs : s'.pcs = Function.update s.pcs t pc) (hpc : pc ≠ .failed) (htold : s'.Told pc)
    (hops : ∀ k ∈ s'.ops, k ∈ s.ops ∨ k ≠ .accept)
    (href : s'.ref + s.ops.length + executing (s.pcs t) + starting (s.pcs t) =
      s.ref + s'.ops.length + executing pc + starting pc)
    (hphase : s'.ops.length + tally executing s.pcs + executing pc = executing (s.pcs t) ∧
        final pc + s'.deletes = 1 ∨
      executing (s.pcs t) < s'.ops.length + tally executing s.pcs + executing pc ∧
        final pc = 0 ∧ s'.deletes = 0) : RefCounted s' := by
  obtain ⟨hdel, hothers⟩ := h.busy ht
  have hexec := tally_update executing s.pcs t pc
  have hfinal := tally_update final s.pcs t pc
  have hstart := tally_update starting s.pcs t pc
  have hsum := executing_add_final (s.pcs t)
  have hle := le_tally executing s.pcs t
  have hle' := le_tally final s.pcs t
  rw [if_neg ht] at hsum
  have href' := h.ref hdel
  have hold := h.phase
  have hcount : s'.ref = s'.ops.length + tally executing s'.pcs + tally starting s'.pcs := by
    rw [hpcs]
    omega
  refine ⟨fun _ ↦ hcount, by omega, ?_, fun u ↦ ?_, fun hacc ↦ ?_⟩
  · rw [hpcs]
    omega
  · rw [hpcs]
    rcases eq_or_ne u t with rfl | hne
    · rwa [Function.update_self]
    · rw [Function.update_of_ne hne]
      exact told_of_final (h.told u) (hothers u hne)
  · -- the accept is out of the way when a thread is busy
    have hbefore : s.Accepting := by
      rcases hacc with hmem | ⟨u, hu⟩
      · exact .inl ((hops _ hmem).resolve_right fun hne ↦ hne rfl)
      · rw [hpcs] at hu
        rcases eq_or_ne u t with rfl | hne
        · rw [Function.update_self] at hu
          exact absurd hu hpc
        · rw [Function.update_of_ne hne] at hu
          exact .inr ⟨u, hu⟩
    have hone := h.accepting hbefore
    rcases hbefore with hmem | ⟨u, hu⟩
    · have := List.length_pos_of_mem hmem
      omega
    · have hne : u ≠ t := fun hut ↦ hf (hut ▸ hu)
      have hboth := add_le_tally executing s.pcs hne
      rw [hu, show executing .failed = 1 from rfl] at hboth
      omega

/-- A step that leaves the thread what it was, a callback or at the end of `CheckAndDelete`. -/
theorem RefCounted.stay (h : RefCounted s) (ht : s.pcs t ≠ .idle) (hf : s.pcs t ≠ .failed)
    (hpcs : s'.pcs = Function.update s.pcs t pc) (hpc : pc ≠ .failed) (htold : s'.Told pc)
    (hops : s'.ops = s.ops) (hdel : s'.deletes = s.deletes)
    (href : s'.ref + starting (s.pcs t) = s.ref + starting pc)
    (hexec : executing pc = executing (s.pcs t)) (hfinal : final pc = final (s.pcs t)) :
    RefCounted s' := by
  have hsum := executing_add_final (s.pcs t)
  have hle := le_tally executing s.pcs t
  have hle' := le_tally final s.pcs t
  have hphase := h.phase
  have hbusy := (h.busy ht).1
  rw [if_neg ht] at hsum
  refine h.move ht hf hpcs hpc htold (fun k hk ↦ .inl (hops ▸ hk)) ?_ ?_
  · rw [hops, hexec]
    omega
  · rw [hops, hexec, hfinal, hdel]
    omega

omit [DecidableEq τ] [Fintype τ] in
/-- The method returns to its caller, or goes on where it was called from. -/
theorem executing_back {m : Method} {g : Stage} {c : Caller} (hc : c ≠ .check) :
    executing c.back = executing (.method m g c) ∧ final c.back = final (.method m g c) ∧
      starting c.back = 0 ∧ s'.Told c.back ∧ c.back ≠ .failed := by
  cases c with
  | check => exact absurd rfl hc
  | callback k | behind | closed => exact ⟨rfl, rfl, rfl, trivial, by simp [Caller.back]⟩

omit [DecidableEq τ] [Fintype τ] in
theorem executing_method (m m' : Method) (g g' : Stage) (c : Caller) :
    executing (.method m g c) = executing (.method m' g' c) ∧
      final (.method m g c) = final (.method m' g' c) := by
  cases c <;> exact ⟨rfl, rfl⟩

/-- A method that is not started for the shutdown of `CheckAndDelete` returns. -/
theorem RefCounted.back {m : Method} {g : Stage} {c : Caller} (h : RefCounted s)
    (ht : s.pcs t = .method m g c) (hc : c ≠ .check) (hg : starting (s.pcs t) = 0) :
    RefCounted (s.setPc t c.back) := by
  obtain ⟨hexec, hfinal, hstart, htold, hne⟩ :
      executing c.back = executing (.method m g c) ∧ final c.back = final (.method m g c) ∧
        starting c.back = 0 ∧ (s.setPc t c.back).Told c.back ∧ c.back ≠ .failed :=
    executing_back hc
  refine h.stay (by simp [ht]) (by simp [ht]) rfl hne htold rfl rfl ?_ ?_ ?_
  · rw [hg, hstart]
    rfl
  · rw [hexec, ht]
  · rw [hfinal, ht]

/-- Once `check_closed` has said no. -/
theorem RefCounted.unlessClosed {m : Method} {g : Stage} {c : Caller} (h : RefCounted s)
    (ht : s.pcs t = .method m g c) (hg : starting (s.pcs t) = 0)
    (htold : c = .check → m = .shutdown ∧ s.type = .https ∧ s.closeFlag = false ∧
      s.shutdownFlag = false) : RefCounted (s.setPc t (m.unlessClosed s.type c)) := by
  have hgo : ∀ g', g' = .count ∨ g' = .swap → RefCounted (s.setPc t (.method m g' c)) :=
    fun g' hg' ↦ by
    obtain ⟨hexec, hfinal⟩ := executing_method m m g' g c
    refine h.stay (by simp [ht]) (by simp [ht]) rfl (by simp) ?_ rfl rfl ?_ (by rw [hexec, ht])
      (by rw [hfinal, ht])
    · rcases hg' with rfl | rfl <;> cases c with
      | check =>
        obtain ⟨hm, htype, hclose, hshut⟩ := htold rfl
        first
          | exact ⟨hm, htype, hclose, hshut⟩
          | exact ⟨hm, htype, hclose, trivial⟩
      | callback k | behind | closed => trivial
    · rw [hg]
      rcases hg' with rfl | rfl <;> rfl
  have hback : (s.type.isSsl = false) → RefCounted (s.setPc t c.back) := fun hssl ↦ by
    refine h.back ht (fun hc ↦ ?_) hg
    rw [(htold hc).2.1] at hssl
    cases hssl
  cases m with
  | recv | send => exact hgo _ (.inl rfl)
  | handshake =>
    rw [Method.unlessClosed]
    split
    case isTrue => exact hgo _ (.inl rfl)
    case isFalse hssl => exact hback (by simpa using hssl)
  | shutdown =>
    rw [Method.unlessClosed]
    split
    case isTrue => exact hgo _ (.inr rfl)
    case isFalse hssl => exact hback (by simpa using hssl)

/-- A method starts its operation. -/
theorem RefCounted.methodStart {m : Method} {counted : Bool} {c : Caller} (h : RefCounted s)
    (ht : s.pcs t = .method m (.start counted) c) (he : s.Allows (s.pcs t)) :
    RefCounted (s.methodStep t m c (.start counted)) := by
  have hops : ∀ k ∈ s.ops ++ [m.asyn], k ∈ s.ops ∨ k ≠ .accept := fun k hk ↦ by
    rcases List.mem_append.1 hk with hk | hk
    · exact .inl hk
    · rw [List.mem_singleton.1 hk]
      exact .inr (by cases m <;> simp [Method.asyn])
  have hphase := h.phase
  have hle := le_tally executing s.pcs t
  have hbusy := (h.busy (t := t) (by simp [ht])).1
  cases c with
  | closed =>
    rw [ht] at he
    exact he.elim
  | check =>
    refine h.move (by simp [ht]) (by simp [ht]) rfl ?_ trivial hops ?_ (.inr ⟨?_, rfl, hbusy⟩)
    · simp [Caller.back]
    · show s.ref + _ + _ + _ = s.ref + ((s.ops ++ [m.asyn]).length : ℕ) + _ + _
      rw [ht, List.length_append]
      simp only [executing, starting, Caller.back, List.length_singleton]
      omega
    · show _ < (s.ops ++ [m.asyn]).length + _ + _
      rw [ht, List.length_append]
      simp only [executing, Caller.back, List.length_singleton]
      omega
  | callback _ | behind =>
    rw [ht] at hle
    refine h.move (by simp [ht]) (by simp [ht]) rfl ?_ ?_ hops ?_ (.inr ⟨?_, rfl, hbusy⟩)
    · simp [Caller.back]
    · trivial
    · show s.ref + _ + _ + _ = s.ref + ((s.ops ++ [m.asyn]).length : ℕ) + _ + _
      rw [ht, List.length_append]
      simp only [executing, starting, Caller.back, List.length_singleton]
      omega
    · show _ < (s.ops ++ [m.asyn]).length + _ + _
      rw [ht, List.length_append]
      simp only [executing, Caller.back, List.length_singleton] at hle ⊢
      omega

/-- Every action of a method keeps the invariant. -/
theorem RefCounted.methodStep {m : Method} {g : Stage} {c : Caller} (h : RefCounted s)
    (ht : s.pcs t = .method m g c) (he : s.Allows (s.pcs t)) :
    RefCounted (s.methodStep t m c g) := by
  have htold := h.told t
  rw [ht] at htold
  have hgo : ∀ g', executing (.method m g' c) = executing (s.pcs t) ∧
      final (.method m g' c) = final (s.pcs t) := fun g' ↦ ht ▸ executing_method m m g' g c
  cases g with
  | closeFlag =>
    -- `CheckAndDelete` calls `Shutdown` only with both flags clear
    have hcheck : c = .check → m = .shutdown ∧ s.type = .https ∧ s.closeFlag = false ∧
        s.shutdownFlag = false := fun hc ↦ by subst hc; exact htold
    have hg : starting (s.pcs t) = 0 := by rw [ht]; rfl
    rw [Connection.methodStep]
    split
    case isTrue hclose =>
      refine h.back ht (fun hc ↦ ?_) hg
      rw [(hcheck hc).2.2.1] at hclose
      cases hclose
    case isFalse =>
      split
      · refine h.stay (by simp [ht]) (by simp [ht]) rfl (by simp) ?_ rfl rfl (by rw [hg]; rfl)
          (hgo _).1 (hgo _).2
        cases c with
        | check => exact hcheck rfl
        | callback k | behind | closed => trivial
      · exact h.unlessClosed ht hg hcheck
  | shutdownFlag =>
    have hcheck : c = .check → m = .shutdown ∧ s.type = .https ∧ s.closeFlag = false ∧
        s.shutdownFlag = false := fun hc ↦ by subst hc; exact htold
    have hg : starting (s.pcs t) = 0 := by rw [ht]; rfl
    rw [Connection.methodStep]
    split
    case isTrue hshut =>
      refine h.back ht (fun hc ↦ ?_) hg
      rw [(hcheck hc).2.2.2] at hshut
      cases hshut
    case isFalse => exact h.unlessClosed ht hg hcheck
  | swap =>
    rw [ht] at he
    rw [Connection.methodStep, show s.shutdownFlag = false from he, if_neg Bool.false_ne_true]
    refine h.stay (by simp [ht]) (by simp [ht]) rfl (by simp) ?_ rfl rfl (by rw [ht]; rfl)
      (hgo _).1 (hgo _).2
    cases c with
    | check => exact ⟨htold.1, htold.2.1, htold.2.2.1, trivial⟩
    | callback k | behind | closed => trivial
  | count =>
    refine h.stay (by simp [ht]) (by simp [ht]) rfl (by simp) ?_ rfl rfl ?_ (hgo _).1 (hgo _).2
    · cases c with
      | check => exact ⟨htold.1, htold.2.1, htold.2.2.1, rfl⟩
      | callback k | behind | closed => rfl
    · rw [ht]
      show s.ref + 1 + ((0 : ℕ) : ℤ) = s.ref + ((1 : ℕ) : ℤ)
      omega
  | start counted => exact h.methodStart ht he

theorem RefCounted.call {m : Method} (h : RefCounted s) (hstep : s.call t m = some s') :
    RefCounted s' := by
  rw [Connection.call] at hstep
  split at hstep
  case h_1 k ht =>
    obtain rfl := Option.some.inj hstep
    exact h.stay (by simp [ht]) (by simp [ht]) rfl (by simp) trivial rfl rfl (by rw [ht]; rfl)
      (by rw [ht]; rfl) (by rw [ht]; rfl)
  case h_2 ht =>
    obtain rfl := Option.some.inj hstep
    exact h.stay (by simp [ht]) (by simp [ht]) rfl (by simp) trivial rfl rfl (by rw [ht]; rfl)
      (by rw [ht]; rfl) (by rw [ht]; rfl)
  case h_3 => cases hstep

theorem RefCounted.close (h : RefCounted s) (hstep : s.close t = some s') : RefCounted s' := by
  rw [Connection.close] at hstep
  split at hstep
  case h_1 k ht =>
    obtain rfl := Option.some.inj hstep
    exact h.stay (by simp [ht]) (by simp [ht]) rfl (by simp) trivial rfl rfl (by rw [ht]; rfl)
      (by rw [ht]; rfl) (by rw [ht]; rfl)
  case h_2 ht =>
    obtain rfl := Option.some.inj hstep
    exact h.stay (by simp [ht]) (by simp [ht]) rfl (by simp) trivial rfl rfl (by rw [ht]; rfl)
      (by rw [ht]; rfl) (by rw [ht]; rfl)
  case h_3 => cases hstep

omit [DecidableEq τ] [Fintype τ] in
theorem behind_cases (type : StreamType) (k : Asyn) (r : Bool) :
    behind type k r = .closing .behind ∨ behind type k r = .release ∨
      behind type k r = .method .handshake .closeFlag .behind := by
  cases r <;> cases k <;> cases type <;> simp [behind]

theorem RefCounted.ret {r : Bool} (h : RefCounted s) (hstep : s.ret t r = some s') :
    RefCounted s' := by
  rw [Connection.ret] at hstep
  split at hstep
  case h_1 k ht =>
    obtain rfl := Option.some.inj hstep
    obtain hb | hb | hb := behind_cases s.type k r <;> rw [hb] <;>
      exact h.stay (by simp [ht]) (by simp [ht]) rfl (by simp) trivial rfl rfl (by rw [ht]; rfl)
        (by rw [ht]; rfl) (by rw [ht]; rfl)
  case h_2 ht =>
    obtain rfl := Option.some.inj hstep
    exact h.stay (by simp [ht]) (by simp [ht]) rfl (by simp) trivial rfl rfl (by rw [ht]; rfl)
      (by rw [ht]; rfl) (by rw [ht]; rfl)
  case h_3 => cases hstep

/-- A callback takes over the reference of its operation. -/
theorem RefCounted.complete {i : ℕ} {ok : Bool} (h : RefCounted s)
    (hstep : s.complete t i ok = some s') :
    RefCounted s' := by
  rw [Connection.complete] at hstep
  split at hstep
  case h_2 => cases hstep
  case h_1 k ht hk =>
    have hkind : ∃ pc, { s.setPc t pc with ops := s.ops.eraseIdx i } = s' ∧ executing pc = 1 ∧
        final pc = 0 ∧ starting pc = 0 ∧ s.Told pc ∧ (pc = .failed → k = .accept) := by
      cases k <;> cases ok <;>
        exact ⟨_, Option.some.inj hstep, rfl, rfl, rfl, trivial, by simp⟩
    -- one operation less in flight, one more thread executing: the sum stays what `ref` counts
    obtain ⟨pc, rfl, hexec, hfinal, hstart, htold, hacc⟩ := hkind
    have hlen := List.length_eraseIdx_add_one (List.getElem?_eq_some_iff.1 hk).1
    have hE := tally_update executing s.pcs t pc
    have hF := tally_update final s.pcs t pc
    have hS := tally_update starting s.pcs t pc
    rw [ht] at hE hF hS
    have href := h.ref
    have hphase := h.phase
    simp only [show executing .idle = 0 from rfl, show final .idle = 0 from rfl,
      show starting .idle = 0 from rfl, hexec, hfinal, hstart] at hE hF hS
    refine ⟨fun hd ↦ ?_, h.nonneg, ?_, fun u ↦ ?_, fun hbefore ↦ ?_⟩
    · have := href hd
      show s.ref = ((s.ops.eraseIdx i).length : ℕ) +
        (tally executing (Function.update s.pcs t pc) : ℕ)
        + (tally starting (Function.update s.pcs t pc) : ℕ)
      omega
    · show (s.ops.eraseIdx i).length + tally executing (Function.update s.pcs t pc) = 0 ∧
          tally final (Function.update s.pcs t pc) + s.deletes = 1 ∨
        0 < (s.ops.eraseIdx i).length + tally executing (Function.update s.pcs t pc) ∧
          tally final (Function.update s.pcs t pc) = 0 ∧ s.deletes = 0
      omega
    · show Told _ (Function.update s.pcs t pc u)
      rcases eq_or_ne u t with rfl | hne
      · rw [Function.update_self]
        exact told_of_final htold hfinal
      · rw [Function.update_of_ne hne]
        have := le_tally final s.pcs u
        exact told_of_final (h.told u) (by omega)
    · have hold : s.Accepting := by
        rcases hbefore with hmem | ⟨u, hu⟩
        · exact .inl (List.mem_of_mem_eraseIdx hmem)
        · replace hu : Function.update s.pcs t pc u = .failed := hu
          rcases eq_or_ne u t with rfl | hne
          · rw [Function.update_self] at hu
            exact .inl (hacc hu ▸ List.mem_of_getElem? hk)
          · rw [Function.update_of_ne hne] at hu
            exact .inr ⟨u, hu⟩
      have hone := h.accepting hold
      show (s.ops.eraseIdx i).length + tally executing (Function.update s.pcs t pc) = 1
      omega

/-- A failed accept deletes the context: it was its only user. -/
theorem RefCounted.drop (h : RefCounted s) (ht : s.pcs t = .failed) :
    RefCounted { s.setPc t .idle with deletes := s.deletes + 1 } := by
  have hone := h.accepting (.inr ⟨t, ht⟩)
  have hbusy := h.busy (t := t) (by simp [ht])
  have hle := le_tally executing s.pcs t
  have hphase := h.phase
  have hE := tally_update executing s.pcs t .idle
  have hF := tally_update final s.pcs t .idle
  rw [ht] at hE hF hle
  simp only [executing, final] at hE hF hle
  refine ⟨fun hd ↦ absurd hd (Nat.succ_ne_zero _), h.nonneg, .inl ⟨?_, ?_⟩, fun u ↦ ?_,
    fun hacc ↦ ?_⟩
  · show s.ops.length + tally executing (Function.update s.pcs t .idle) = 0
    omega
  · show tally final (Function.update s.pcs t .idle) + (s.deletes + 1) = 1
    omega
  · show Told _ (Function.update s.pcs t .idle u)
    rcases eq_or_ne u t with rfl | hne
    · rw [Function.update_self]
      trivial
    · rw [Function.update_of_ne hne]
      exact told_of_final (h.told u) (hbusy.2 u hne)
  · rcases hacc with hmem | ⟨u, hu⟩
    · have := List.length_pos_of_mem (show .accept ∈ s.ops from hmem)
      omega
    · replace hu : Function.update s.pcs t .idle u = .failed := hu
      rcases eq_or_ne u t with rfl | hne
      · rw [Function.update_self] at hu
        cases hu
      · rw [Function.update_of_ne hne] at hu
        have hboth := add_le_tally executing s.pcs hne
        rw [ht, hu, show executing .failed = 1 from rfl] at hboth
        omega

/-- **`CheckAndDelete` gives a reference back**, and sees zero exactly when it was the last. -/
theorem RefCounted.release (h : RefCounted s) (ht : s.pcs t = .release) :
    RefCounted { s.setPc t (if s.ref - 1 ≠ 0 then .idle else if s.type = .https then .testClose
      else .closed) with ref := s.ref - 1 } := by
  have hbusy := (h.busy (t := t) (by simp [ht])).1
  have href := h.ref hbusy
  have hle := le_tally executing s.pcs t
  have hphase := h.phase
  -- a method about to start belongs to another thread
  have hstart : tally starting (Function.update s.pcs t .idle) ≤
      tally executing (Function.update s.pcs t .idle) +
        tally final (Function.update s.pcs t .idle) :=
    (tally_le_tally starting_le _).trans_eq Finset.sum_add_distrib
  have hE := tally_update executing s.pcs t .idle
  have hF := tally_update final s.pcs t .idle
  have hS := tally_update starting s.pcs t .idle
  rw [ht] at hle hE hF hS
  simp only [executing, final, starting] at hle hE hF hS
  have hold : executing (s.pcs t) = 1 ∧ starting (s.pcs t) = 0 := by rw [ht]; exact ⟨rfl, rfl⟩
  have hmove : ∀ pc : Pc, executing pc = 0 → starting pc = 0 → pc ≠ .failed →
      Told { s.setPc t pc with ref := s.ref - 1 } pc →
      (s.ref - 1 = 0 ∧ final pc = 1 ∨ s.ref - 1 ≠ 0 ∧ final pc = 0) →
      RefCounted { s.setPc t pc with ref := s.ref - 1 } := fun pc hexec hs hpc htold hfinal ↦ by
    refine h.move (by simp [ht]) (by simp [ht]) rfl hpc htold (fun k hk ↦ .inl hk) ?_ ?_
    · show s.ref - 1 + _ + _ + _ = s.ref + _ + _ + _
      rw [hold.1, hold.2, hexec, hs]
      show s.ref - 1 + s.ops.length + _ + _ = s.ref + s.ops.length + _ + _
      omega
    · rw [hold.1, hexec]
      show s.ops.length + tally executing s.pcs + 0 = 1 ∧ final pc + s.deletes = 1 ∨
        1 < s.ops.length + tally executing s.pcs + 0 ∧ final pc = 0 ∧ s.deletes = 0
      omega
  split
  case isTrue hne => exact hmove _ rfl rfl (by simp) trivial (.inr ⟨hne, rfl⟩)
  case isFalse hzero =>
    have hzero' : s.ref - 1 = 0 := by omega
    split
    case isTrue htype => exact hmove _ rfl rfl (by simp) htype (.inl ⟨hzero', rfl⟩)
    case isFalse => exact hmove _ rfl rfl (by simp) trivial (.inl ⟨hzero', rfl⟩)

theorem RefCounted.act (h : RefCounted s) (he : s.Allows (s.pcs t)) (hstep : s.act t = some s') :
    RefCounted s' := by
  have htold := h.told t
  rw [Connection.act] at hstep
  rcases ht : s.pcs t with - | k | ⟨m, g, c⟩ | c | - | - | - | - | - | - <;>
    rw [ht] at hstep htold <;> try cases hstep
  case method => exact h.methodStep ht he
  case closing =>
    have hback : executing c.back = executing (.closing c) ∧ final c.back = final (.closing c) ∧
        starting c.back = 0 ∧ c.back ≠ .failed ∧ ∀ s' : Connection τ, s'.Told c.back := by
      cases c with
      | check => exact htold.elim
      | callback k | behind | closed =>
        exact ⟨rfl, rfl, rfl, by simp [Caller.back], fun _ ↦ trivial⟩
    refine h.stay (by simp [ht]) (by simp [ht]) rfl hback.2.2.2.1 (hback.2.2.2.2 _) rfl rfl ?_
      (by rw [ht, hback.1]) (by rw [ht, hback.2.1])
    rw [ht, hback.2.2.1]
    rfl
  case failed => exact h.drop ht
  case release => exact h.release ht
  case testClose =>
    split
    · exact h.stay (by simp [ht]) (by simp [ht]) rfl (by simp) trivial rfl rfl (by rw [ht]; rfl)
        (by rw [ht]; rfl) (by rw [ht]; rfl)
    case isFalse hclose =>
      exact h.stay (by simp [ht]) (by simp [ht]) rfl (by simp)
        ⟨htold, Bool.of_not_eq_true hclose⟩ rfl rfl (by rw [ht]; rfl) (by rw [ht]; rfl)
        (by rw [ht]; rfl)
  case testShutdown =>
    split
    · exact h.stay (by simp [ht]) (by simp [ht]) rfl (by simp) trivial rfl rfl (by rw [ht]; rfl)
        (by rw [ht]; rfl) (by rw [ht]; rfl)
    case isFalse hshut =>
      exact h.stay (by simp [ht]) (by simp [ht]) rfl (by simp)
        ⟨rfl, htold.1, htold.2, Bool.of_not_eq_true hshut⟩ rfl rfl (by rw [ht]; rfl)
        (by rw [ht]; rfl) (by rw [ht]; rfl)
  case deleting =>
    have hphase := h.phase
    have hle := le_tally final s.pcs t
    have hbusy := (h.busy (t := t) (by simp [ht])).1
    rw [ht] at hle
    simp only [final] at hle
    refine h.move (by simp [ht]) (by simp [ht]) rfl (by simp) trivial
      (fun k hk ↦ .inl hk) (by rw [ht]; rfl) (.inl ⟨?_, ?_⟩)
    · rw [ht]
      show s.ops.length + tally executing s.pcs + 0 = 0
      omega
    · show 0 + (s.deletes + 1) = 1
      omega

/-- **Every guarded step keeps the invariant.** -/
theorem refCounted_step {e : Event τ} (h : RefCounted s) (he : s.Guarded e)
    (hstep : s.step e = some s') :
    RefCounted s' := by
  cases e with
  | complete t i ok => exact h.complete hstep
  | call t m => exact h.call hstep
  | close t => exact h.close hstep
  | ret t r => exact h.ret hstep
  | step t => exact h.act he hstep

omit [DecidableEq τ] in
theorem refCounted_start (type : StreamType) : RefCounted (start type : Connection τ) := by
  have hE : tally executing (start type : Connection τ).pcs = 0 := tally_of_forall fun _ ↦ rfl
  have hF : tally final (start type : Connection τ).pcs = 0 := tally_of_forall fun _ ↦ rfl
  have hS : tally starting (start type : Connection τ).pcs = 0 := tally_of_forall fun _ ↦ rfl
  exact ⟨fun _ ↦ by rw [hE, hS]; rfl, Int.one_nonneg, .inr ⟨by rw [hE]; exact Nat.one_pos, hF, rfl⟩,
    fun _ ↦ trivial, fun _ ↦ by rw [hE]; rfl⟩

/-- **The lifetime of a connection.** In every run in which each compare-and-swap of `Shutdown`
succeeds and `cbOnClosed` starts no operation, the count is right, and the context is deleted once,
when nobody uses it any more. -/
theorem lifetime_of_run {type : StreamType} {l : List (Event τ)}
    (hl : Transition.RunMeets step Guarded (start type) l)
    (hrun : Transition.run step (start type) l = some s) : s.Lifetime :=
  (Transition.invariant_run (fun _ _ _ h he hstep ↦ refCounted_step h he hstep)
    (refCounted_start type) hl hrun).lifetime

end Invariant

/-- An HTTPS connection: the accept, the handshake, and the shutdown that `CheckAndDelete`
starts. -/
theorem lifetime_of_run_https :
    ∃ (l : List (Event Bool)) (s : Connection Bool),
      Transition.run step (start .https) l = some s ∧ s.deletes = 1 ∧ s.Lifetime :=
  have hrun : Transition.run step (start .https : Connection Bool)
      [.complete false 0 true, .ret false false, .step false, .step false, .step false,
        .step false, .step false, .complete true 0 true, .ret true false, .step true, .step true,
        .step true, .step true, .step true, .step true, .step true, .step true,
        .complete false 0 true, .step false, .step false, .step false, .ret false false,
        .step false] = some _ := rfl
  ⟨_, _, hrun, rfl, lifetime_of_run (by decide +kernel) hrun⟩

/-- Two callbacks shut the connection down together. The one that comes second starts an operation
without a reference, and the context is deleted while it is outstanding. -/
theorem deleted_under_shutdown :
    ∃ (l : List (Event Bool)) (s : Connection Bool),
      Transition.run step (start .https) l = some s ∧ s.deletes = 1 ∧ s.ops = [.shutdown] ∧
        ¬s.Lifetime :=
  ⟨[.complete false 0 true, .call false .recv, .step false, .step false, .step false, .step false,
    .ret false false, .step false, .step false, .step false, .step false, .step false,
    .complete false 0 true, .complete true 0 true, .call false .shutdown, .step false, .step false,
    .call true .shutdown, .step true, .step true, .step false, .step false, .step false, .step true,
    .step true, .ret false false, .step false, .ret true false, .step true, .complete false 0 true,
    .step false, .step false, .step false, .ret false false, .step false], _, rfl, rfl, rfl,
    fun h ↦ List.cons_ne_nil _ _ (h.last rfl).1⟩

end Connection

end JnetLib.Server
