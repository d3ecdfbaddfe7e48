import JnetLib.Iocp.Effects

/-!
# The handshake on `ready_`

`Service.handshake_of_run` says what the handshake guarantees an operation that is submitted with
`ready_` clear and not while it is under way: each submission is completed at most once, with its
own result, when its initiating thread is done, and until then the operation is at exactly one
place.

It reads this off the tokens. An operation is sound in every state (`sound_of_run`), which rests on
one fact about steps (`effect_of_step`) and one about effects (`Sound.effect`); and the number of
places an operation is at is the number of its tokens (`card_tokens`).

So only a submission with `ready_` set, or of an operation that is still under way, can put it out
of order. The first happens to the routine of `Iocp/ReadLine`.
-/

namespace JnetLib.Iocp

/-- The operation of a packet. -/
def Packet.op {ι : Type} : Packet ι → ι
  | .kernel i _ _ => i
  | .posted i => i

/-- Whether the operation waits for its initiating thread or is in its hands. -/
def OpState.held (S : OpState) : ℕ :=
  match S.pc with
  | .idle => 0
  | .pending => if S.mem.ready then 1 else 0
  | _ => 1

theorem OpState.card_initTokens (S : OpState) : S.initTokens.card = S.held := by
  rcases S with ⟨mem, pc, io, submitted, invoked⟩
  cases pc with
  | pending => rcases hr : mem.ready with - | - <;> simp [initTokens, held, hr]
  | idle | failed _ _ | storing _ _ | posting | pushing => rfl

namespace Service

variable {ι τ : Type} [DecidableEq ι]

/-- How often a `do_one` thread holds operation `i`. -/
def holds (i : ι) : DoOne ι → ℕ
  | .dispatching ops => ops.count i
  | .got p => if p.op = i then 1 else 0
  | .recorded j _ _ => if j = i then 1 else 0
  | .top | .locking | .waiting | .completing _ _ _ => 0

/-- The number of places operation `i` is at: with the kernel, waiting for its packet; with or
waiting for the initiating thread; in the completion port; in `completed_ops_`; held by a `do_one`
thread. -/
def places [Fintype τ] (i : ι) (s : Service ι τ) : ℕ :=
  (s.ops i).io.length + (s.ops i).held + s.port.countP (fun p ↦ p.op = i) +
    s.completedOps.count i + tally (holds i) s.threads

theorem card_packetTokens (i : ι) (p : Packet ι) :
    (packetTokens i p).card = if p.op = i then 1 else 0 := by
  cases p <;> rw [packetTokens, Packet.op] <;> split <;> rfl

theorem card_queued (i : ι) (l : List ι) : (l.map (queuedTokens i)).sum.card = l.count i := by
  induction l with
  | nil => rfl
  | cons j l ih =>
    rw [List.map_cons, List.sum_cons, Multiset.card_add, ih, queuedTokens, List.count_cons,
      Nat.add_comm]
    congr 1
    by_cases h : j = i <;> simp [h]

theorem card_port (i : ι) (l : List (Packet ι)) :
    (l.map (packetTokens i)).sum.card = l.countP fun p ↦ p.op = i := by
  induction l with
  | nil => rfl
  | cons p l ih =>
    rw [List.map_cons, List.sum_cons, Multiset.card_add, ih, card_packetTokens, List.countP_cons,
      Nat.add_comm]
    congr 1
    by_cases h : p.op = i <;> simp [h]

theorem card_threadTokens (i : ι) (pc : DoOne ι) : (threadTokens i pc).card = holds i pc := by
  cases pc with
  | dispatching ops => exact card_queued i ops
  | got p => exact card_packetTokens i p
  | recorded j ec n => rw [threadTokens, holds]; split <;> rfl
  | top | locking | waiting | completing _ _ _ => rfl

/-- The ledger has one token for each place. -/
theorem card_tokens [Fintype τ] (i : ι) (s : Service ι τ) : (s.tokens i).card = s.places i := by
  have hio : ∀ l : List (ℤ × ℕ),
      (l.map fun r ↦ ({Token.kernel r.1 r.2} : Multiset Token)).sum.card = l.length := by
    intro l
    induction l with
    | nil => rfl
    | cons r l ih => rw [List.map_cons, List.sum_cons, Multiset.card_add, ih, Nat.add_comm]; rfl
  have htally : (tally (threadTokens i) s.threads).card = tally (holds i) s.threads := by
    rw [tally, tally, Multiset.card_sum]
    exact Finset.sum_congr rfl fun t _ ↦ card_threadTokens i _
  rw [tokens, elsewhere, places, Multiset.card_add, Multiset.card_add, Multiset.card_add,
    Multiset.card_add, OpState.ioTokens, hio, OpState.card_initTokens, card_port, card_queued,
    htally]
  ac_rfl

/-- What the handshake guarantees an operation. -/
structure Handshake [Fintype τ] (i : ι) (s : Service ι τ) : Prop where
  /-- Submissions are completed in order, each at most once and with its own result. -/
  once : (s.ops i).submitted = (s.ops i).invoked ∨
    ∃ r, (s.ops i).submitted = (s.ops i).invoked ++ [r]
  /-- A submission that is completed is one whose initiating thread is through. -/
  initiated : (s.ops i).submitted = (s.ops i).invoked → (s.ops i).pc = .idle
  /-- A submission that is not yet completed is at exactly one place. -/
  place : (s.ops i).submitted ≠ (s.ops i).invoked → s.places i = 1
  /-- An operation whose submissions are all completed is nowhere. -/
  gone : (s.ops i).submitted = (s.ops i).invoked → s.places i = 0

theorem handshake_of_sound [Fintype τ] {i : ι} {s : Service ι τ}
    (h : Sound (s.ops i) (s.tokens i)) : s.Handshake i := by
  cases h with
  | resting h hpc hM _ =>
    refine ⟨.inl h, fun _ ↦ hpc, fun hne ↦ absurd h hne, fun _ ↦ ?_⟩
    rw [← card_tokens, hM, Multiset.card_zero]
  | flying r tok h hM hg =>
    have hne : (s.ops i).submitted ≠ (s.ops i).invoked := by
      rw [h]
      simp
    refine ⟨.inr ⟨r, h⟩, fun heq ↦ absurd heq hne, fun _ ↦ ?_, fun heq ↦ absurd heq hne⟩
    rw [← card_tokens, hM, Multiset.card_singleton]

/-- **The handshake.** However the initiating thread, the kernel and the `do_one` threads
interleave and whichever posts fail, an operation that is submitted with `ready_` clear is
completed at most once for each submission, with the result of that submission, after its
initiating thread has made its exchange or store; and until then it is at exactly one place. -/
theorem handshake_of_run [DecidableEq τ] [Fintype τ] {i : ι} {mem : ι → Operation} {d : Bool}
    {l : List (Event ι τ)} {s : Service ι τ}
    (hl : Transition.RunMeets step (Fresh i) (start mem d) l)
    (hrun : Transition.run step (start mem d) l = some s) : s.Handshake i :=
  handshake_of_sound (sound_of_run hl hrun)

/-- The `do_one` thread comes first and the initiating thread posts the operation again. -/
theorem handshake_of_run_second :
    ∃ s : Service Unit Unit, Transition.run step (start (fun _ ↦ .reset) false)
      [.submit () true (.noError, 0) (.pending 0 5), .arrive () 0, .check (), .dequeue () 0,
        .record (),
        .exchange (), .initiate () true, .initiate () true, .check (), .dequeue () 0, .record (),
        .exchange ()] = some s ∧ (s.ops ()).invoked = [(.system 0, 5)] ∧ s.Handshake () := by
  have hl : Transition.RunMeets step (Fresh ()) (start (fun _ ↦ .reset) false : Service Unit Unit)
      [.submit () true (.noError, 0) (.pending 0 5), .arrive () 0, .check (), .dequeue () 0,
        .record (),
        .exchange (), .initiate () true, .initiate () true, .check (), .dequeue () 0, .record (),
        .exchange ()] := by
    refine ⟨fun _ ↦ ⟨rfl, rfl⟩, fun t _ ↦ ?_⟩
    exact (Transition.runMeets_of_forall (P := fun e ↦ ∀ rst ov o, e ≠ .submit () rst ov o)
      (by simp)).mono fun s e he ↦ by cases e <;> first | trivial | exact absurd rfl (he _ _ _)
  exact ⟨_, rfl, rfl, handshake_of_run hl rfl⟩

end Service

end JnetLib.Iocp
