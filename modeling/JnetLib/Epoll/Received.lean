import JnetLib.Epoll.Recv

/-!
# The bytes a receive operation takes

Where the bytes go that the `::recv` calls of one operation take from the kernel. Each call is given
a destination, and the count that moves the destination on may reach `on_complete` much later, by
way of `on_completion`. At any time the caller's buffer holds what the kernel has given, from its
start and without gaps (`Conserves`), whatever the events say and whatever the operation reports.

The memory is a function of the address, counted from the start of the caller's buffer, and the
bytes of the stream are numbered in the order in which they are taken.

## What the theorem rests on

`Tracked` is about the calls alone: each goes on where the bytes taken before it end. `Receiving`
ties the buffer to them, but for `pending` bytes that a call has taken and no completion has counted
yet; `Accounted` says how many those are at each place the operation can be at. An answer is counted
once, in `accounted_onComplete`, also when the completion carries an error of the event.
-/

namespace JnetLib.Epoll

/-- What a call does to the memory, given how many bytes have been taken before. -/
def RecvCall.store (stream : ℕ → Byte) (c : RecvCall) (m : ℕ × (ℕ → Byte)) : ℕ × (ℕ → Byte) :=
  (m.1 + c.outcome.moved,
    fun i ↦ if c.offset ≤ i ∧ i < c.offset + c.outcome.moved then stream (m.1 + (i - c.offset))
      else m.2 i)

/-- The memory after some calls. -/
def stored (stream memory : ℕ → Byte) (calls : List RecvCall) : ℕ × (ℕ → Byte) :=
  calls.foldl (fun m c ↦ c.store stream m) (0, memory)

/-- The memory behind some calls when the bytes they took are at its start, in order. -/
def filled (stream memory : ℕ → Byte) (n : ℕ) : ℕ × (ℕ → Byte) :=
  (n, fun i ↦ if i < n then stream i else memory i)

/-- What a receive operation on `len` bytes owes its caller, however it ends. -/
structure Conserves (len : ℕ) (s : RecvState) : Prop where
  /-- No call is given room outside of the caller's buffer. -/
  inside : ∀ c ∈ s.calls, c.offset + c.requested ≤ len
  /-- The bytes taken from the kernel are at the start of the buffer, and nothing else is
  written. -/
  filled : ∀ stream memory, stored stream memory s.calls = filled stream memory s.received
  /-- The count reported is the number of bytes taken. -/
  count : ∀ ec n, s.place = .finished ec n → n = s.received

theorem stored_append (stream memory : ℕ → Byte) (calls : List RecvCall) (c : RecvCall) :
    stored stream memory (calls ++ [c]) = c.store stream (stored stream memory calls) := by
  simp [stored]

/-- A call that goes on where the calls before it have stopped. -/
theorem store_filled (stream memory : ℕ → Byte) (c : RecvCall) :
    c.store stream (filled stream memory c.offset) =
      filled stream memory (c.offset + c.outcome.moved) := by
  refine Prod.ext rfl (funext fun i ↦ ?_)
  by_cases hlow : i < c.offset
  · have hnot : ¬(c.offset ≤ i ∧ i < c.offset + c.outcome.moved) := by omega
    simp only [RecvCall.store, filled, if_neg hnot, if_pos hlow]
    rw [if_pos (by omega)]
  · by_cases hmid : i < c.offset + c.outcome.moved
    · have hin : c.offset ≤ i ∧ i < c.offset + c.outcome.moved := ⟨by omega, hmid⟩
      simp only [RecvCall.store, filled, if_pos hin, if_pos hmid]
      rw [show c.offset + (i - c.offset) = i by omega]
    · have hnot : ¬(c.offset ≤ i ∧ i < c.offset + c.outcome.moved) := fun h ↦ hmid h.2
      simp only [RecvCall.store, filled, if_neg hnot, if_neg hlow, if_neg hmid]

namespace RecvState

variable {len : ℕ} {s t : RecvState}

/-! ### The invariant -/

/-- What the calls have done so far, with `n` bytes taken. -/
structure Tracked (len n : ℕ) (calls : List RecvCall) : Prop where
  inside : ∀ c ∈ calls, c.offset + c.requested ≤ len
  filled : ∀ stream memory, stored stream memory calls = filled stream memory n
  moved : (calls.map fun c ↦ c.outcome.moved).sum = n

/-- The buffer of an operation, and the calls; `pending` bytes of those taken are not yet counted in
the buffer. -/
structure Receiving (len : ℕ) (op : RecvOp) (calls : List RecvCall) (pending : ℕ) : Prop where
  size : op.buffer.size = len
  position : op.buffer.buf = op.buffer.len
  fits : op.buffer.len + pending ≤ len
  tracked : Tracked len (op.buffer.len + pending) calls

/-- What holds of an operation: it waits, or was woken by an event, or the answer `a` to its first
call is posted; there was no room, or it has called back. -/
inductive Accounted (len : ℕ) (s : RecvState) : Prop
  | slot (hp : s.place = .inSlot) (h : Receiving len s.op s.calls 0)
      (hbytes : s.op.base.bytesTransferred = 0)
  | woken (hp : s.place = .completed) (h : Receiving len s.op s.calls 0)
      (hbytes : s.op.base.bytesTransferred = 0)
  | answered (a : Outcome) (hp : s.place = .completed) (h : Receiving len s.op s.calls a.moved)
      (hrecv : s.op.recv_ = true) (hflags : s.op.base.epollFlags = .clear) (n : ℕ)
      (hres : ((s.op.base.ec, s.op.base.bytesTransferred) : ErrorCode × ℕ) = serviceRecv n a)
      (ha : a.Legal n)
  | posted (hp : s.place = .posted) (h : Tracked len 0 s.calls)
  | done (ec : ErrorCode) (n : ℕ) (hp : s.place = .finished ec n) (h : Tracked len n s.calls)

theorem Tracked.conserves {n : ℕ} (h : Tracked len n s.calls)
    (hcount : ∀ ec k, s.place = .finished ec k → k = n) : Conserves len s := by
  have hreceived : s.received = n := h.moved
  exact ⟨h.inside, fun stream memory ↦ by rw [hreceived, h.filled],
    fun ec k hp ↦ by rw [hreceived, hcount ec k hp]⟩

/-- The invariant is stronger than the contract. -/
theorem Accounted.conserves (h : Accounted len s) : Conserves len s := by
  cases h with
  | slot hp h hbytes => exact h.tracked.conserves (by simp [hp])
  | woken hp h hbytes => exact h.tracked.conserves (by simp [hp])
  | answered a hp h hrecv hflags n hres ha => exact h.tracked.conserves (by simp [hp])
  | posted hp h => exact h.conserves (by simp [hp])
  | done ec n hp h =>
    refine h.conserves fun ec' k hp' ↦ ?_
    obtain ⟨-, rfl⟩ : ec = ec' ∧ n = k := by simpa [hp] using hp'
    rfl

/-! ### Calls -/

theorem tracked_nil (len : ℕ) : Tracked len 0 [] := by
  refine ⟨fun c hc ↦ absurd hc List.not_mem_nil, fun stream memory ↦ Prod.ext rfl ?_, rfl⟩
  funext i
  show memory i = if i < 0 then stream i else memory i
  rw [if_neg (Nat.not_lt_zero i)]

/-- A call that is offered the room behind the bytes taken before. -/
theorem tracked_append {n : ℕ} {calls : List RecvCall} {c : RecvCall} (h : Tracked len n calls)
    (hoffset : c.offset = n) (hroom : c.offset + c.requested ≤ len) :
    Tracked len (n + c.outcome.moved) (calls ++ [c]) := by
  subst hoffset
  refine ⟨fun c' hc' ↦ ?_, fun stream memory ↦ ?_, ?_⟩
  · rcases List.mem_append.1 hc' with hold | hnew
    · exact h.inside c' hold
    · rwa [List.mem_singleton.1 hnew]
  · rw [stored_append, h.filled, store_filled]
  · rw [List.map_append, List.sum_append, h.moved]
    simp

theorem moved_le {n : ℕ} {o : Outcome} (h : o.Legal n) : o.moved ≤ n := by
  cases o with
  | bytes k => exact h
  | fail e => exact Nat.zero_le _

/-- The call of an operation that has nothing pending. -/
theorem receiving_call {op : RecvOp} {calls : List RecvCall} {o : Outcome}
    (h : Receiving len op calls 0) (hl : o.Legal (toUInt32 op.buffer.remain)) :
    Receiving len op (calls ++ [⟨op.buffer.buf, toUInt32 op.buffer.remain, o⟩]) o.moved := by
  obtain ⟨hsize, hposition, hfits, htracked⟩ := h
  have hmoved := moved_le hl
  have hroom : op.buffer.buf + toUInt32 op.buffer.remain ≤ len := by
    have := toUInt32_le op.buffer.remain
    rw [MutableBuffer.remain] at this ⊢
    omega
  rw [Nat.add_zero] at htracked
  have hall := tracked_append (c := ⟨op.buffer.buf, toUInt32 op.buffer.remain, o⟩) htracked
    hposition hroom
  exact ⟨hsize, hposition, by omega, hall⟩

/-- On success the count is that of the bytes the call took, and a failure took none. -/
theorem serviceRecv_moved {n : ℕ} {a : Outcome} (ha : a.Legal n) :
    ((serviceRecv n a).1.isError = false → (serviceRecv n a).2 = a.moved) ∧
      ((serviceRecv n a).1.isError = true → a.moved = 0) := by
  cases a with
  | bytes k => exact ⟨fun _ ↦ rfl, fun h ↦ by cases h⟩
  | fail e =>
    have he : e ≠ 0 := ha
    exact ⟨fun h ↦ absurd h (by simpa [serviceRecv] using he), fun _ ↦ rfl⟩

/-! ### One step -/

/-- The end of a dispatch keeps the invariant when the count it works with is that of the bytes
taken and not yet counted, and a failure took none. -/
theorem accounted_onComplete {op : RecvOp} {o : Outcome} {calls : List RecvCall} {pending : ℕ}
    (h : Receiving len op calls pending)
    (hcount : (op.readResult o).1.isError = false → (op.readResult o).2 = pending)
    (hfail : (op.readResult o).1.isError = true → pending = 0) :
    Accounted len ⟨(op.onComplete o).1, (op.onComplete o).2, calls⟩ := by
  obtain ⟨hsize, hposition, hfits, htracked⟩ := h
  rcases hec : (op.readResult o).1.isError with - | -
  · have hpend := hcount hec
    rcases Nat.eq_zero_or_pos pending with rfl | hpos
    · by_cases hrem : 0 < op.buffer.remain
      · rw [op.onComplete_zero hec hpend hrem]
        exact .done _ _ rfl htracked
      · rw [op.onComplete_full hec hpend hrem]
        exact .done _ _ rfl htracked
    · rw [op.onComplete_pos hec (by omega), hpend]
      split
      · exact .slot rfl ⟨hsize, congrArg (· + pending) hposition, hfits, htracked⟩ rfl
      · exact .done _ _ rfl htracked
  · obtain rfl := hfail hec
    rcases hw : (op.readResult o).1.wouldBlock with - | -
    · rw [op.onComplete_error hec hw]
      exact .done _ _ rfl htracked
    · rw [op.onComplete_wouldBlock hw]
      exact .slot rfl ⟨hsize, hposition, hfits, htracked⟩ rfl

/-- **Every step keeps the invariant.** -/
theorem accounted_step {e : RecvEvent} (hs : Accounted len s) (hstep : step s e = some t) :
    Accounted len t := by
  cases e with
  | ready flags soError =>
    cases hs with
    | woken hp | answered _ hp | posted hp | done _ _ hp => simp [step, hp] at hstep
    | slot hp h hbytes =>
      simp only [step, hp, Option.some.injEq] at hstep
      subst hstep
      refine .woken rfl ⟨h.size, h.position, h.fits, h.tracked⟩ ?_
      show (s.op.base.onEvent flags soError).bytesTransferred = 0
      rw [Operation.onEvent_bytesTransferred, hbytes]
  | dispatch o =>
    cases hs with
    | slot hp | done _ _ hp => simp [step, hp] at hstep
    | posted hp h =>
      simp only [step, hp, Option.some.injEq] at hstep
      subst hstep
      exact .done _ _ rfl h
    | answered a hp h hrecv hflags n hres ha =>
      have hreads : s.op.reads = false := by simp [RecvOp.reads, hrecv]
      simp only [step, hp, hreads, Bool.false_eq_true, if_false, Option.some.injEq] at hstep
      subst hstep
      have hr : s.op.readResult o = serviceRecv n a := by
        rw [RecvOp.readResult_of_recv hrecv, Operation.readerError_of_clear hflags, hres]
      obtain ⟨hok, hfail⟩ := serviceRecv_moved ha
      exact accounted_onComplete h (by rwa [hr]) (by rwa [hr])
    | woken hp h hbytes =>
      rcases hreads : s.op.reads with - | -
      · -- an error, no room, or `recv_` still set: no call is made, and the count is zero
        simp only [step, hp, hreads, Bool.false_eq_true, if_false, Option.some.injEq] at hstep
        subst hstep
        have hr : (s.op.readResult o).2 = 0 := by
          rw [RecvOp.readResult, hreads]
          exact hbytes
        exact accounted_onComplete h (fun _ ↦ hr) (fun _ ↦ rfl)
      · simp only [step, hp, hreads, if_true] at hstep
        obtain ⟨hl, ht⟩ := Option.ite_none_right_eq_some.1 hstep
        obtain rfl := Option.some.inj ht
        have hr : s.op.readResult o = serviceRecv (toUInt32 s.op.buffer.remain) o := by
          rw [RecvOp.readResult, hreads]
          rfl
        obtain ⟨hok, hfail⟩ := serviceRecv_moved hl
        exact accounted_onComplete (receiving_call h hl) (by rwa [hr]) (by rwa [hr])

/-- The first call. -/
theorem accounted_start {some_ : Bool} {o : Outcome} (hl : 0 < len → o.Legal (toUInt32 len)) :
    Accounted len (start len some_ o) := by
  have hrem : (RecvOp.new len some_).buffer.remain = len := rfl
  have hnew : Receiving len (RecvOp.new len some_) [] 0 :=
    ⟨rfl, rfl, Nat.zero_le _, tracked_nil len⟩
  rw [start, RecvOp.beginRecv, hrem]
  split
  case isFalse => exact .posted rfl (tracked_nil len)
  case isTrue hpos =>
    have hlegal := hl hpos
    have hcall := receiving_call hnew (o := o) hlegal
    dsimp only
    split
    case isTrue hw =>
      obtain ⟨e, rfl⟩ := transfer_wouldBlock hw
      exact .slot rfl ⟨hcall.size, hcall.position, hcall.fits, hcall.tracked⟩ rfl
    case isFalse hw =>
      have hlt : (serviceRecv (toUInt32 len) o).2 < 2 ^ 32 :=
        Nat.lt_of_le_of_lt (transfer_snd_le hlegal) (toUInt32_lt len)
      exact .answered o rfl ⟨hcall.size, hcall.position, hcall.fits, hcall.tracked⟩ rfl rfl
        (toUInt32 len) (Prod.ext rfl (toUInt32_of_lt hlt)) hlegal

/-- **No byte is lost.** In every state of every run of `asyn_recv` and `asyn_recv_some` the bytes
taken from the kernel are at the start of the caller's buffer, in order, no call has been given
room outside of it, and the callback, with an error or without, reports how many they are. -/
theorem conserves_of_run {some_ : Bool} {o : Outcome} (hl : 0 < len → o.Legal (toUInt32 len))
    {l : List RecvEvent} (hrun : Transition.run step (start len some_ o) l = some s) :
    Conserves len s :=
  (Transition.invariant_run' (fun _ _ _ h hst ↦ accounted_step h hst)
    (accounted_start hl) hrun).conserves

/-- Two bytes of three, then a reset of the connection. -/
theorem conserves_of_run_three :
    ∃ s, Transition.run step (start 3 false (.fail EAGAIN))
        [.ready .clear 0, .dispatch (.bytes 2), .ready ⟨true, true, true⟩ 104,
          .dispatch (.bytes 1)] = some s ∧
      s.place = .finished (.system 104) 2 ∧ Conserves 3 s := by
  have hl : 0 < 3 → (Outcome.fail EAGAIN).Legal (toUInt32 3) := by decide
  refine ⟨_, rfl, rfl, ?_⟩
  exact @conserves_of_run 3 _ false _ hl [.ready .clear 0, .dispatch (.bytes 2),
    .ready ⟨true, true, true⟩ 104, .dispatch (.bytes 1)] rfl

end RecvState

end JnetLib.Epoll
