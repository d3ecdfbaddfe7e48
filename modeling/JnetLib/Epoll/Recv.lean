import JnetLib.Epoll.Operation
import JnetLib.Foundation.Transition

/-!
# Receiving on the epoll backend

`recv_op` reads in two ways. `begin_recv` first tries `::recv` at once and, unless that would
block, posts the operation with the result and `recv_` set; otherwise it clears `recv_` and waits
for `EPOLLIN`. `on_complete` then reads only when `recv_` is clear.

The module runs one operation against an arbitrary environment: a readiness event takes it out of
`in_op_`, a dispatch takes it out of `completed_ops_` and runs `on_complete`, with the answer of
the `::recv` call that `on_complete` may issue. Every `::recv` call is logged.

The continuation after a short read goes through `socket_ops::begin_recv`, which waits, and not
through `recv_op::begin_recv`, which would read again; and it leaves `recv_` as it is. So a first
`::recv` that delivers a part of the buffer makes the next readiness event complete the operation
with a stale count of zero.

The `epoll_ctl` in `wait_for_epollin` is taken to succeed, so an operation that waits is in its slot
and in no other place. Where it fails, `Endpoint.beginRecv` is the model of what happens.

## What the theorem rests on

* If the first `::recv` is not partial, every state is one of `Placed`: the first answer is posted,
  or the operation waits with `recv_` clear and a buffer that holds all it has received (`Waiting`),
  or it has called back and met its contract. `placed_step` keeps it. With the buffer full, the
  dispatch that comes next is the last one, whatever the kernel answers.
* If it is partial, one event is enough: `run_firstPartial` follows the operation from there to its
  callback.
-/

namespace JnetLib.Epoll

/-- `recv_op`. -/
structure RecvOp where
  base : Operation
  some_ : Bool
  buffer : MutableBuffer
  recv_ : Bool
  deriving DecidableEq, Repr

/-- Where the operation is: in `in_op_`, in `completed_ops_`, behind a `post_op` in
`completed_ops_`, or called back with an error code and a count. -/
inductive RecvPlace
  | inSlot
  | completed
  | posted
  | finished (ec : ErrorCode) (n : ℕ)
  deriving DecidableEq, Repr

/-- A `::recv` call: the offset of its destination, its size and its answer. -/
structure RecvCall where
  offset : ℕ
  requested : ℕ
  outcome : Outcome
  deriving DecidableEq, Repr

/-- One operation in its environment. -/
structure RecvState where
  op : RecvOp
  place : RecvPlace
  calls : List RecvCall
  deriving DecidableEq, Repr

/-- What the environment does: an `EPOLLIN` event with its error flags and the socket's pending
error, or a dispatch with the answer to the `::recv` call it may lead to. -/
inductive RecvEvent
  | ready (flags : EpollFlags) (soError : ℤ)
  | dispatch (o : Outcome)
  deriving DecidableEq, Repr

namespace RecvOp

/-- The constructor; `some_` is false for `asyn_recv` and true for `asyn_recv_some`. -/
def new (len : ℕ) (some_ : Bool) : RecvOp := ⟨.reset, some_, ⟨0, len, 0⟩, false⟩

/-- `recv_op::begin_recv`. The `::recv` call is issued only when there is room. -/
def beginRecv (op : RecvOp) (o : Outcome) : RecvState :=
  if 0 < op.buffer.remain then
    let len := toUInt32 op.buffer.remain
    let r := serviceRecv len o
    let calls := [⟨op.buffer.buf, len, o⟩]
    if r.1.wouldBlock then ⟨{ op with recv_ := false }, .inSlot, calls⟩
    else ⟨{ op with recv_ := true, base := op.base.onCompletion r.1 r.2 }, .completed, calls⟩
  else ⟨op, .posted, []⟩

/-- `on_complete` issues a `::recv` call of its own. -/
def reads (op : RecvOp) : Bool :=
  !op.base.readerError.isError && toUInt32 op.buffer.remain != 0 && !op.recv_

/-- The error code and the count `on_complete` works with after its `::recv` call, if any. -/
def readResult (op : RecvOp) (o : Outcome) : ErrorCode × ℕ :=
  if op.reads then serviceRecv (toUInt32 op.buffer.remain) o
  else (op.base.readerError, op.base.bytesTransferred)

/-- `recv_op::on_complete`. -/
def onComplete (op : RecvOp) (o : Outcome) : RecvOp × RecvPlace :=
  let r := op.readResult o
  let ec := if !r.1.isError && r.2 == 0 && decide (0 < op.buffer.remain) then .eof else r.1
  if !ec.isError then
    let op := { op with buffer := op.buffer.append r.2 }
    if !op.some_ && decide (0 < op.buffer.remain) then ({ op with base := .reset }, .inSlot)
    else (op, .finished ec op.buffer.len)
  else if ec.wouldBlock then ({ op with base := .reset }, .inSlot)
  else (op, .finished ec op.buffer.len)

end RecvOp

namespace RecvState

/-- The operation right after `asyn_recv` or `asyn_recv_some`, given the answer to its first
`::recv` call. -/
def start (len : ℕ) (some_ : Bool) (o : Outcome) : RecvState := (RecvOp.new len some_).beginRecv o

/-- The transitions of a receive; `none` where the environment cannot act so. A dispatch of the
posted form runs `recv_op::on_post`. -/
def step (s : RecvState) : RecvEvent → Option RecvState
  | .ready flags soError =>
    match s.place with
    | .inSlot =>
      some { s with
        op := { s.op with base := s.op.base.onEvent flags soError }
        place := .completed }
    | _ => none
  | .dispatch o =>
    match s.place with
    | .completed =>
      if s.op.reads then
        if o.Legal (toUInt32 s.op.buffer.remain) then
          some ⟨(s.op.onComplete o).1, (s.op.onComplete o).2,
            s.calls ++ [⟨s.op.buffer.buf, toUInt32 s.op.buffer.remain, o⟩]⟩
        else none
      else some ⟨(s.op.onComplete o).1, (s.op.onComplete o).2, s.calls⟩
    | .posted => some { s with place := .finished .noError 0 }
    | _ => none

/-- The bytes the `::recv` calls of the operation have taken from the kernel. -/
def received (s : RecvState) : ℕ := (s.calls.map fun c ↦ c.outcome.moved).sum

/-- The operation has called back without error and with the count `n`. -/
def Succeeded (n : ℕ) (s : RecvState) : Prop :=
  ∃ ec : ErrorCode, ec.isError = false ∧ s.place = .finished ec n

end RecvState

/-- The event carries no error flags. -/
def RecvEvent.NoFlags : RecvEvent → Prop
  | .ready flags _ => flags = .clear
  | .dispatch _ => True

/-! ### Exact-length receives -/

/-- What `asyn_recv` owes its caller in a state of the operation. -/
structure ExactReceive (len : ℕ) (s : RecvState) : Prop where
  /-- The operation completes without error exactly when all bytes have been received. -/
  noError_iff : ∀ ec n, s.place = .finished ec n → (ec.isError = false ↔ s.received = len)
  /-- Once they have, it has completed so, or the next dispatch, whatever the kernel answers, is
  possible and completes it so. -/
  completes : s.received = len → s.Succeeded len ∨ s.place = .completed ∧
    ∀ o, ∃ t, s.step (.dispatch o) = some t ∧ t.Succeeded len
  /-- The operation reports the end of the stream only if the stream has ended. -/
  eof_of_end : ∀ n, s.place = .finished .eof n →
    ∃ c ∈ s.calls, 0 < c.requested ∧ c.outcome = .bytes 0

/-- The first `::recv` delivers a part of the buffer only. -/
def FirstPartial (len : ℕ) : Outcome → Prop
  | .bytes k => 0 < k ∧ k < len
  | .fail _ => False

instance (len : ℕ) : DecidablePred (FirstPartial len)
  | .bytes k => inferInstanceAs (Decidable (0 < k ∧ k < len))
  | .fail _ => inferInstanceAs (Decidable False)

namespace RecvOp

/-! ### What one completion does -/

variable {op : RecvOp} {o : Outcome}

theorem reads_of_waiting (hb : op.base = .reset) (hr : op.recv_ = false) :
    op.reads = (toUInt32 op.buffer.remain != 0) := by
  rw [reads, Operation.readerError_of_clear (by rw [hb]; rfl), hr, hb]
  simp

/-- `on_complete` trusts the posted result when `recv_` is set. -/
theorem readResult_of_recv (hr : op.recv_ = true) (o : Outcome) :
    op.readResult o = (op.base.readerError, op.base.bytesTransferred) := by
  have h : op.reads = false := by simp [reads, hr]
  rw [readResult, h]
  rfl

/-- The end of the stream: a count of zero while there is room. -/
theorem onComplete_zero (hr : (op.readResult o).1.isError = false)
    (h0 : (op.readResult o).2 = 0) (hrem : 0 < op.buffer.remain) :
    op.onComplete o = (op, .finished .eof op.buffer.len) := by
  simp [onComplete, hr, h0, hrem]

/-- An empty count for a buffer that is full. -/
theorem onComplete_full (hr : (op.readResult o).1.isError = false)
    (h0 : (op.readResult o).2 = 0) (hrem : ¬0 < op.buffer.remain) :
    op.onComplete o = ({ op with buffer := op.buffer.append 0 },
      .finished (op.readResult o).1 op.buffer.len) := by
  have hrem' : ¬0 < (op.buffer.append 0).remain := hrem
  simp [onComplete, hr, h0, hrem, hrem']

/-- A positive count is appended; an exact-length receive then waits for the rest. -/
theorem onComplete_pos (hr : (op.readResult o).1.isError = false)
    (h0 : 0 < (op.readResult o).2) :
    op.onComplete o =
      if !op.some_ && decide (0 < (op.buffer.append (op.readResult o).2).remain) then
        ({ op with buffer := op.buffer.append (op.readResult o).2, base := .reset }, .inSlot)
      else
        ({ op with buffer := op.buffer.append (op.readResult o).2 },
          .finished (op.readResult o).1 (op.buffer.append (op.readResult o).2).len) := by
  have hne : ((op.readResult o).2 == 0) = false := beq_false_of_ne (by omega)
  simp only [onComplete, hr, hne, Bool.not_false, Bool.true_and, Bool.false_and,
    Bool.false_eq_true, if_false, if_true]

/-- A failed read that would block waits again. -/
theorem onComplete_wouldBlock (hw : (op.readResult o).1.wouldBlock = true) :
    op.onComplete o = ({ op with base := .reset }, .inSlot) := by
  have he := ErrorCode.isError_of_wouldBlock hw
  simp [onComplete, he, hw]

/-- A failure other than would-block is reported with the bytes held so far. -/
theorem onComplete_error (he : (op.readResult o).1.isError = true)
    (hw : (op.readResult o).1.wouldBlock = false) :
    op.onComplete o = (op, .finished (op.readResult o).1 op.buffer.len) := by
  simp [onComplete, he, hw]

end RecvOp

namespace RecvState

/-- A waiting operation of an exact-length receive: `recv_` is clear, so the next dispatch reads,
and the buffer holds all that was received. -/
structure Waiting (len : ℕ) (s : RecvState) : Prop where
  recv_ : s.op.recv_ = false
  some_ : s.op.some_ = false
  base : s.op.base = .reset
  size : s.op.buffer.size = len
  held : s.op.buffer.len = s.received
  short : s.received < len

/-- What holds of an exact-length receive whose first `::recv` was not a partial one: it is still
at its first posted result, or waiting, or it has called back and met its contract. -/
inductive Placed (len : ℕ) (o : Outcome) (s : RecvState) : Prop
  | first (hs : s = start len false o) (hp : s.place = .completed)
  | slot (h : Waiting len s) (hp : s.place = .inSlot)
  | queued (h : Waiting len s) (hp : s.place = .completed)
  | done (h : ExactReceive len s) (ec : ErrorCode) (n : ℕ) (hp : s.place = .finished ec n)

end RecvState

namespace RecvState

variable {len : ℕ} {o : Outcome} {s t : RecvState}

/-! ### The first call -/

/-- A first `::recv` that would block leaves the operation waiting. -/
theorem start_of_wouldBlock (h1 : 1 ≤ len) (h2 : len < 2 ^ 32)
    (hw : (serviceRecv len o).1.wouldBlock = true) :
    start len false o = ⟨RecvOp.new len false, .inSlot, [⟨0, len, o⟩]⟩ := by
  have hrem : (RecvOp.new len false).buffer.remain = len := rfl
  rw [start, RecvOp.beginRecv, hrem, if_pos (by omega), toUInt32_of_lt h2]
  simp only [hw, if_true]
  rfl

/-- The operation with the answer to its first `::recv` posted. -/
def firstPosted (len : ℕ) (o : Outcome) : RecvOp :=
  { RecvOp.new len false with
    recv_ := true
    base := Operation.reset.onCompletion (serviceRecv len o).1 (serviceRecv len o).2 }

/-- An answer other than would-block is posted, with `recv_` set. -/
theorem start_of_posted (h1 : 1 ≤ len) (h2 : len < 2 ^ 32)
    (hw : (serviceRecv len o).1.wouldBlock = false) :
    start len false o = ⟨firstPosted len o, .completed, [⟨0, len, o⟩]⟩ := by
  have hrem : (RecvOp.new len false).buffer.remain = len := rfl
  rw [start, RecvOp.beginRecv, hrem, if_pos (by omega), toUInt32_of_lt h2]
  simp only [hw, Bool.false_eq_true, if_false]
  rfl

/-- A first `::recv` that would block has filled the slot, and nothing is posted. -/
theorem wouldBlock_of_first (h1 : 1 ≤ len) (h2 : len < 2 ^ 32) (hs : s = start len false o)
    (hp : s.place = .completed) : (serviceRecv len o).1.wouldBlock = false := by
  rcases hw : (serviceRecv len o).1.wouldBlock with - | -
  · rfl
  · rw [hs, start_of_wouldBlock h1 h2 hw] at hp
    cases hp

/-- The dispatch of a receive that was posted at once works with the answer as the kernel gave it.
-/
theorem readResult_firstPosted (h2 : len < 2 ^ 32) (hl : o.Legal len) (o' : Outcome) :
    (firstPosted len o).readResult o' = serviceRecv len o := by
  have hle : (serviceRecv len o).2 ≤ len := transfer_snd_le hl
  rw [RecvOp.readResult_of_recv rfl, Operation.readerError_of_clear rfl]
  refine Prod.ext rfl ?_
  show toUInt32 (serviceRecv len o).2 = (serviceRecv len o).2
  exact toUInt32_of_lt (by omega)

theorem placed_start (h1 : 1 ≤ len) (h2 : len < 2 ^ 32) (hl : o.Legal len) :
    Placed len o (start len false o) := by
  rcases hw : (serviceRecv len o).1.wouldBlock with - | -
  · exact .first rfl (by rw [start_of_posted h1 h2 hw])
  · obtain ⟨e, rfl⟩ := transfer_wouldBlock hw
    rw [start_of_wouldBlock h1 h2 hw]
    exact .slot ⟨rfl, rfl, rfl, rfl, rfl, h1⟩ rfl

/-! ### One step -/

/-- A finished receive meets its contract when its error code tells whether all bytes arrived, its
count is right then, and an end of the stream is backed by a call that saw it. -/
theorem exactReceive_of_finished {ec : ErrorCode} {n : ℕ} (hp : t.place = .finished ec n)
    (hec : ec.isError = false ↔ t.received = len) (hn : t.received = len → n = len)
    (heof : ec = .eof → ∃ c ∈ t.calls, 0 < c.requested ∧ c.outcome = .bytes 0) :
    ExactReceive len t where
  noError_iff ec' n' hp' := by
    obtain ⟨rfl, rfl⟩ : ec = ec' ∧ n = n' := by simpa [hp] using hp'
    exact hec
  completes hr := .inl ⟨ec, hec.2 hr, hn hr ▸ hp⟩
  eof_of_end n' hp' := by
    obtain ⟨rfl, rfl⟩ : ec = .eof ∧ n = n' := by simpa [hp] using hp'
    exact heof rfl

/-- An operation that has not called back has nothing to answer for while bytes are missing. -/
theorem exactReceive_of_short (hp : ∀ ec n, t.place ≠ .finished ec n) (hw : t.received < len) :
    ExactReceive len t where
  noError_iff ec n h := absurd h (hp ec n)
  completes hr := absurd hr (Nat.ne_of_lt hw)
  eof_of_end n h := absurd h (hp .eof n)

/-- A first `::recv` that delivers everything is the result of the next dispatch. -/
theorem exactReceive_of_first (h1 : 1 ≤ len) (h2 : len < 2 ^ 32) (hl : o.Legal len)
    (hw : (serviceRecv len o).1.wouldBlock = false) :
    ExactReceive len ⟨firstPosted len o, .completed, [⟨0, len, o⟩]⟩ where
  noError_iff ec n h := nomatch h
  completes hr := by
    refine .inr ⟨rfl, fun o' ↦ ?_⟩
    have hmoved : o.moved = len := by simpa [received] using hr
    obtain ⟨k, rfl⟩ : ∃ k, o = .bytes k := by
      cases o with
      | bytes k => exact ⟨k, rfl⟩
      | fail e => exact absurd hmoved.symm (by rw [Outcome.moved_fail]; omega)
    obtain rfl : k = len := hmoved
    have hreads : (firstPosted k (.bytes k)).reads = false := by simp [RecvOp.reads, firstPosted]
    have hres := readResult_firstPosted h2 hl o'
    refine ⟨_, by simp only [step, hreads, Bool.false_eq_true, if_false]; rfl, .system 0, rfl, ?_⟩
    rw [RecvOp.onComplete_pos (by rw [hres]; rfl) (by rw [hres]; exact h1), hres]
    have hfull : ¬0 < ((firstPosted k (.bytes k)).buffer.append k).remain := by
      simp [MutableBuffer.remain, firstPosted, RecvOp.new]
    have hlen : ((firstPosted k (.bytes k)).buffer.append k).len = k := Nat.zero_add k
    have hsnd : (serviceRecv k (.bytes k)).2 = k := rfl
    rw [hsnd, decide_eq_false hfull, Bool.and_false, if_neg Bool.false_ne_true, hlen]
    rfl
  eof_of_end n h := nomatch h

/-- The invariant is stronger than the contract. -/
theorem Placed.exactReceive (h1 : 1 ≤ len) (h2 : len < 2 ^ 32) (hl : o.Legal len)
    (h : Placed len o t) : ExactReceive len t := by
  cases h with
  | done h _ _ _ => exact h
  | first hs hp =>
    have hw := wouldBlock_of_first h1 h2 hs hp
    rw [hs, start_of_posted h1 h2 hw]
    exact exactReceive_of_first h1 h2 hl hw
  | queued h hp => exact exactReceive_of_short (by simp [hp]) h.short
  | slot h hp => exact exactReceive_of_short (by simp [hp]) h.short

/-- A dispatch keeps the invariant when it works with the answer `a` to a request for exactly the
room left, and either `recv_` is clear or that answer settles the operation. -/
theorem placed_onComplete {op : RecvOp} {a o' : Outcome} {rem : ℕ} {l : List RecvCall}
    (hres : op.readResult o' = serviceRecv rem a) (hrem : op.buffer.remain = rem) (hpos : 0 < rem)
    (hl : a.Legal rem) (hsome : op.some_ = false) (hlen : op.buffer.len + rem = len)
    (hheld : (l.map fun c ↦ c.outcome.moved).sum = op.buffer.len + a.moved)
    (hcall : ∃ c ∈ l, c.requested = rem ∧ c.outcome = a)
    (hrecv : op.recv_ = true → ¬FirstPartial rem a ∧ (serviceRecv rem a).1.wouldBlock = false) :
    Placed len o ⟨(op.onComplete o').1, (op.onComplete o').2, l⟩ := by
  have hsize : op.buffer.size = len := by
    unfold MutableBuffer.remain at hrem
    omega
  have hreceived : ∀ p q, received ⟨p, q, l⟩ = op.buffer.len + a.moved := fun _ _ ↦ hheld
  match a with
  | .bytes 0 =>
    -- the end of the stream, reported by the answer of zero bytes
    rw [op.onComplete_zero (by rw [hres]; rfl) (by rw [hres]; rfl) (by omega)]
    obtain ⟨c, hc, hreq, hout⟩ := hcall
    refine .done (exactReceive_of_finished rfl ?_ ?_ ?_) .eof op.buffer.len rfl
    · rw [hreceived]
      simp
      omega
    · rw [hreceived]
      exact fun h ↦ h
    · exact fun _ ↦ ⟨c, hc, by omega, hout⟩
  | .bytes (k + 1) =>
    have hk : k + 1 ≤ rem := hl
    have hsnd : (op.readResult o').2 = k + 1 := by rw [hres]; rfl
    have hroom : (op.buffer.append (k + 1)).remain = rem - (k + 1) := by
      rw [MutableBuffer.remain, MutableBuffer.append_size, MutableBuffer.append_len, ← hrem,
        MutableBuffer.remain]
      omega
    rw [op.onComplete_pos (by rw [hres]; rfl) (by omega), hsnd, hroom, hsome, hres]
    by_cases hmore : k + 1 < rem
    · -- a part of the rest: only an operation with `recv_` clear may go on waiting
      have hclear : op.recv_ = false := by
        rcases hr : op.recv_ with - | -
        · rfl
        · exact absurd ⟨Nat.succ_pos k, hmore⟩ (hrecv hr).1
      have hroom' : 0 < rem - (k + 1) := by omega
      rw [decide_eq_true hroom', Bool.not_false, Bool.and_self, if_pos rfl]
      refine .slot ⟨hclear, rfl, rfl, hsize, ?_, ?_⟩ rfl
      · rw [hreceived]
        rfl
      · rw [hreceived]
        simp only [Outcome.moved_bytes]
        omega
    · -- all of the rest: the buffer is full
      have hroom' : ¬0 < rem - (k + 1) := by omega
      rw [decide_eq_false hroom', Bool.and_false, if_neg Bool.false_ne_true]
      refine .done (exactReceive_of_finished rfl ?_ ?_ fun h ↦
        absurd h (ErrorCode.system_ne_eof 0)) _ _ rfl
      · rw [hreceived]
        simp only [serviceRecv, transfer_bytes, ErrorCode.isError_system, bne_self_eq_false,
          Outcome.moved_bytes, true_iff]
        omega
      · rw [hreceived]
        exact fun h ↦ h
  | .fail e =>
    rcases hw : (serviceRecv rem (.fail e)).1.wouldBlock with - | -
    · have he : e ≠ 0 := hl
      rw [op.onComplete_error (by rw [hres]; simpa [serviceRecv] using he) (by rw [hres, hw]), hres]
      refine .done (exactReceive_of_finished rfl ?_ ?_ fun h ↦
        absurd h (ErrorCode.system_ne_eof e)) _ _ rfl
      · rw [hreceived]
        simp [serviceRecv, he]
        omega
      · rw [hreceived]
        exact fun h ↦ h
    · -- would block: again only an operation with `recv_` clear waits
      have hclear : op.recv_ = false := by
        rcases hr : op.recv_ with - | -
        · rfl
        · rw [(hrecv hr).2] at hw
          cases hw
      rw [op.onComplete_wouldBlock (by rw [hres, hw])]
      refine .slot ⟨hclear, hsome, rfl, hsize, ?_, ?_⟩ rfl
      · rw [hreceived]
        rfl
      · rw [hreceived]
        simp only [Outcome.moved_fail]
        omega

/-- **Every step keeps the invariant**, as long as the first `::recv` was not a partial one. -/
theorem placed_step (h1 : 1 ≤ len) (h2 : len < 2 ^ 32) (hl : o.Legal len)
    (hpart : ¬FirstPartial len o) {e : RecvEvent} (hs : Placed len o s) (he : e.NoFlags)
    (hstep : step s e = some t) : Placed len o t := by
  cases hs with
  | done _ _ _ hp => cases e <;> simp [step, hp] at hstep
  | slot h hp =>
    cases e with
    | dispatch o' => simp [step, hp] at hstep
    | ready flags err =>
      obtain rfl : flags = .clear := he
      simp only [step, hp, Option.some.injEq] at hstep
      subst hstep
      refine .queued ⟨h.recv_, h.some_, ?_, h.size, h.held, h.short⟩ rfl
      show s.op.base.onEvent .clear err = .reset
      rw [h.base, Operation.onEvent_clear_reset]
  | first hs hp =>
    have hw := wouldBlock_of_first h1 h2 hs hp
    rw [start_of_posted h1 h2 hw] at hs
    subst hs
    cases e with
    | ready _ _ => cases hstep
    | dispatch o' =>
      have hreads : (firstPosted len o).reads = false := by simp [RecvOp.reads, firstPosted]
      simp only [step, hreads, Bool.false_eq_true, if_false, Option.some.injEq] at hstep
      subst hstep
      refine placed_onComplete (readResult_firstPosted h2 hl o') rfl h1 hl rfl (Nat.zero_add _) ?_
        ⟨_, List.mem_singleton_self _, rfl, rfl⟩ fun _ ↦ ⟨hpart, hw⟩
      simp [firstPosted, RecvOp.new]
  | queued h hp =>
    cases e with
    | ready _ _ => simp [step, hp] at hstep
    | dispatch o' =>
      -- the worker asks for exactly the room left
      have hshort := h.short
      have hrem : s.op.buffer.remain = len - s.received := by
        rw [MutableBuffer.remain, h.size, h.held]
      have h32 : toUInt32 s.op.buffer.remain = len - s.received := by
        rw [hrem, toUInt32_of_lt (by omega)]
      have hreads : s.op.reads = true := by
        rw [RecvOp.reads_of_waiting h.base h.recv_, h32]
        simpa using (by omega : len - s.received ≠ 0)
      simp only [step, hp, hreads, if_true, h32] at hstep
      split at hstep
      case isFalse => cases hstep
      case isTrue hlegal =>
        obtain rfl := Option.some.inj hstep
        refine placed_onComplete (a := o') ?_ hrem (by omega) hlegal h.some_
          (by rw [h.held]; omega) ?_
          ⟨_, List.mem_append_right _ (List.mem_singleton_self _), rfl, rfl⟩
          fun hr ↦ absurd (h.recv_.symm.trans hr) Bool.false_ne_true
        · rw [RecvOp.readResult, hreads, h32]
          rfl
        · rw [List.map_append, List.sum_append, h.held]
          simp [received]

/-! ### The defect -/

/-- **A partial first `::recv` ends the operation at the next readiness event**, with `eof` and
without any call that saw the end of the stream: `recv_` still says that the posted count is the
result, and the reset count is zero. -/
theorem run_firstPartial (h2 : len < 2 ^ 32) {k : ℕ} (h0 : 0 < k) (hk : k < len) (a b : Outcome) :
    ∃ op, Transition.run step (start len false (.bytes k))
      [.dispatch a, .ready .clear 0, .dispatch b] =
        some ⟨op, .finished .eof k, [⟨0, len, .bytes k⟩]⟩ := by
  have hw : (serviceRecv len (.bytes k)).1.wouldBlock = false := rfl
  have hl : (Outcome.bytes k).Legal len := Nat.le_of_lt hk
  set op₀ := firstPosted len (.bytes k) with hop₀
  have hres₀ : op₀.readResult a = (.system 0, k) := readResult_firstPosted h2 hl a
  -- back in the slot the count is reset, but `recv_` is still set
  set op₁ : RecvOp := { op₀ with buffer := op₀.buffer.append k, base := .reset } with hop₁
  have hbuf : op₁.buffer.remain = len - k := by
    rw [MutableBuffer.remain]
    show len - (0 + k) = len - k
    rw [Nat.zero_add]
  have hc₀ : op₀.onComplete a = (op₁, .inSlot) := by
    have hmore : (!op₀.some_ && decide (0 < (op₀.buffer.append k).remain)) = true := by
      show decide (0 < op₁.buffer.remain) = true
      rw [hbuf]
      exact decide_eq_true (by omega)
    rw [op₀.onComplete_pos (by rw [hres₀]; rfl) (by rw [hres₀]; exact h0), hres₀]
    exact if_pos hmore
  have hres₁ : op₁.readResult b = (.noError, 0) := RecvOp.readResult_of_recv rfl b
  have hc₁ : op₁.onComplete b = (op₁, .finished .eof k) := by
    rw [op₁.onComplete_zero (by rw [hres₁]; rfl) (by rw [hres₁]) (by omega)]
    show (op₁, RecvPlace.finished .eof (0 + k)) = _
    rw [Nat.zero_add]
  have hr₀ : op₀.reads = false := by simp [RecvOp.reads, hop₀, firstPosted]
  have hr₁ : op₁.reads = false := by simp [RecvOp.reads, hop₁, hop₀, firstPosted]
  have hstep₀ : step ⟨op₀, .completed, [⟨0, len, .bytes k⟩]⟩ (.dispatch a) =
      some ⟨op₁, .inSlot, [⟨0, len, .bytes k⟩]⟩ := by
    simp only [step, hr₀, Bool.false_eq_true, if_false, hc₀]
  have hstep₁ : step ⟨op₁, .inSlot, [⟨0, len, .bytes k⟩]⟩ (.ready .clear 0) =
      some ⟨op₁, .completed, [⟨0, len, .bytes k⟩]⟩ := rfl
  have hstep₂ : step ⟨op₁, .completed, [⟨0, len, .bytes k⟩]⟩ (.dispatch b) =
      some ⟨op₁, .finished .eof k, [⟨0, len, .bytes k⟩]⟩ := by
    simp only [step, hr₁, Bool.false_eq_true, if_false, hc₁]
  refine ⟨op₁, ?_⟩
  rw [start_of_posted (by omega) h2 hw, Transition.run_cons, hstep₀, Option.bind_some,
    Transition.run_cons, hstep₁, Option.bind_some, Transition.run_cons, hstep₂]
  rfl

/-- **Exact-length receives.** `asyn_recv` meets its contract in every state of every run without
error flags if and only if its first `::recv` does not deliver a part of the buffer only. -/
theorem exactReceive_iff (h1 : 1 ≤ len) (h2 : len < 2 ^ 32) (hl : o.Legal len) :
    (∀ l : List RecvEvent, (∀ e ∈ l, e.NoFlags) → ∀ t,
        Transition.run step (start len false o) l = some t → ExactReceive len t) ↔
      ¬FirstPartial len o := by
  constructor
  · intro h hpart
    match o with
    | .bytes k =>
      obtain ⟨op, hrun⟩ := run_firstPartial h2 hpart.1 hpart.2 (.bytes 0) (.bytes 0)
      have hclean : ∀ e ∈ [RecvEvent.dispatch (.bytes 0), .ready .clear 0, .dispatch (.bytes 0)],
          e.NoFlags := by
        simp [RecvEvent.NoFlags]
      obtain ⟨c, hc, -, hout⟩ := (h _ hclean _ hrun).eof_of_end k rfl
      rw [List.mem_singleton.1 hc, Outcome.bytes.injEq] at hout
      exact absurd hpart.1 (by omega)
    | .fail e => exact hpart
  · intro hpart l hclean t hrun
    have hmeets : Transition.RunMeets step (fun _ e ↦ e.NoFlags) (start len false o) l :=
      Transition.runMeets_of_forall hclean
    exact (Transition.invariant_run (fun s e t hs he hst ↦ placed_step h1 h2 hl hpart hs he hst)
      (placed_start h1 h2 hl) hmeets hrun).exactReceive h1 h2 hl

/-- The contract at a receive whose first `::recv` delivers everything. -/
theorem exactReceive_iff_two :
    (∀ l : List RecvEvent, (∀ e ∈ l, e.NoFlags) → ∀ t,
        Transition.run step (start 2 false (.bytes 2)) l = some t → ExactReceive 2 t) ↔
      ¬FirstPartial 2 (.bytes 2) :=
  exactReceive_iff (by decide) (by decide) (by decide)

/-- Two bytes asked for, one delivered by the first `::recv`: the operation reports the end of the
stream although no call saw it. -/
theorem not_exactReceive_firstPartial :
    ∃ t, Transition.run step (start 2 false (.bytes 1))
      [.dispatch (.bytes 0), .ready .clear 0, .dispatch (.bytes 1)] = some t ∧
      t.place = .finished .eof 1 ∧ t.received = 1 ∧ (∀ c ∈ t.calls, c.outcome ≠ .bytes 0) ∧
      ¬ExactReceive 2 t := by
  refine ⟨_, rfl, rfl, rfl, by decide, fun h ↦ ?_⟩
  obtain ⟨c, hc, -, hout⟩ := h.eof_of_end 1 rfl
  rw [List.mem_singleton.1 hc] at hout
  cases hout

end RecvState

end JnetLib.Epoll
