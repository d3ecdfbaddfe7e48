import JnetLib.Epoll.Operation
import JnetLib.Foundation.Transition

/-!
# Sending on the epoll backend

`send_op` writes in two places. `begin_send` tries `::send` at once with at most 64 KiB; unless that
would block it posts the operation with the result and sets `sent_`, otherwise it clears `sent_` and
waits for `EPOLLOUT`. `on_complete` writes only when `sent_` is clear, takes the count of whichever
call was made off the buffer, and starts over with `begin_send` for the rest.

Unlike `recv_op`, the continuation goes through `begin_send` itself, so `sent_` always tells whose
count it is. What the `::send` calls were handed is kept as the list of buffer positions they took.

Unlike `recv_op` again, `on_complete` takes every error an event brings for one of the send, also
where the event only says that the peer will send nothing more (`blameless_iff`).

The `epoll_ctl` in `wait_for_epollout` is taken to succeed, so an operation that waits is in its
slot and in no other place. Where it fails, `Endpoint.beginSend` is the model of what happens: the
operation is posted with the error and stays in its slot besides.

## The two theorems, and what each rests on

* `delivers_of_run` rests on `Placed`, which holds whatever the events and the `::send`s bring. An
  operation that has not called back is `Sending`: what is left of its buffer is a suffix of the
  caller's, and the calls have taken what is before it and what is posted.
* `blameless_iff` rests on `Justified`, which also knows the operation's `epoll_flag`. Every error
  comes from a `::send` until an event with `EPOLLRDHUP` has woken the operation; the dispatch
  behind it reports the frame's `epoll_flag` without any call, which is the other direction
  (`not_blameless_of_warned`).
-/

namespace JnetLib.Epoll

/-- `max_send_buffer_size`. -/
def maxSendBufferSize : ℕ := 64 * 1024

/-- `send_op`. The buffer's position is `buffer_.raw() - buf_start_pos_`. -/
structure SendOp where
  base : Operation
  buffer : ConstBuffer
  sent_ : Bool
  deriving DecidableEq, Repr

/-- Where the operation is: in `out_op_`, in `completed_ops_`, or called back with an error code
and a count. -/
inductive SendPlace
  | inSlot
  | completed
  | finished (ec : ErrorCode) (n : ℕ)
  deriving DecidableEq, Repr

/-- A `::send` call: where the bytes it was offered start, how many there were and its answer. -/
structure SendCall where
  offset : ℕ
  requested : ℕ
  outcome : Outcome
  deriving DecidableEq, Repr

/-- The positions a call took. -/
def SendCall.taken (c : SendCall) : List ℕ := List.range' c.offset c.outcome.moved

/-- One operation in its environment, with the `::send` calls and the callbacks made so far. -/
structure SendState where
  op : SendOp
  place : SendPlace
  calls : List SendCall
  callbacks : ℕ
  deriving DecidableEq, Repr

/-- What the environment does: an `EPOLLOUT` event with its error flags and the socket's pending
error, or a dispatch with the answers to the `::send` calls of `on_complete` and of the `begin_send`
behind it. -/
inductive SendEvent
  | ready (flags : EpollFlags) (soError : ℤ)
  | dispatch (o o' : Outcome)
  deriving DecidableEq, Repr

namespace SendOp

/-- The constructor. -/
def new (len : ℕ) : SendOp := ⟨.reset, ⟨0, len⟩, false⟩

/-- The number of bytes a `::send` is offered. -/
def requested (op : SendOp) : ℕ :=
  if maxSendBufferSize < toUInt32 op.buffer.len then maxSendBufferSize
  else toUInt32 op.buffer.len

/-- A `::send` call with its answer. -/
def call (op : SendOp) (o : Outcome) : SendCall := ⟨op.buffer.buf, op.requested, o⟩

/-- `send_op::begin_send`. -/
def beginSend (op : SendOp) (o : Outcome) : SendOp × SendPlace :=
  let r := serviceSend op.requested o
  if r.1.wouldBlock then ({ op with sent_ := false }, .inSlot)
  else ({ op with sent_ := true, base := op.base.onCompletion r.1 r.2 }, .completed)

/-- `on_complete` issues a `::send` call of its own. -/
def sends (op : SendOp) : Bool :=
  !op.base.ec.isError && toUInt32 op.buffer.len != 0 && !op.sent_

/-- The error code and the count `on_complete` works with after its `::send` call, if any. -/
def sendResult (op : SendOp) (o : Outcome) : ErrorCode × ℕ :=
  if op.sends then serviceSend op.requested o else (op.base.ec, op.base.bytesTransferred)

/-- What `on_complete` does next: it starts over, or it calls back. -/
inductive Next
  | again (op : SendOp)
  | callback (op : SendOp) (ec : ErrorCode)

/-- `send_op::on_complete` up to the `begin_send` it may end in. -/
def onComplete (op : SendOp) (o : Outcome) : Next :=
  let r := op.sendResult o
  if !r.1.isError then
    let op := { op with buffer := op.buffer.consume r.2 }
    if op.buffer.len != 0 then .again { op with base := .reset } else .callback op r.1
  else if r.1.wouldBlock then .again { op with base := .reset }
  else .callback op r.1

end SendOp

namespace SendState

/-- `asyn_send`, given the answer to its first `::send` call. -/
def start (len : ℕ) (o : Outcome) : SendState :=
  let r := (SendOp.new len).beginSend o
  ⟨r.1, r.2, [(SendOp.new len).call o], 0⟩

/-- The calls after those of `on_complete` itself. -/
def callsOf (s : SendState) (o : Outcome) : List SendCall :=
  if s.op.sends then s.calls ++ [s.op.call o] else s.calls

/-- The transitions of a send; `none` where the environment cannot act so. -/
def step (s : SendState) : SendEvent → Option SendState
  | .ready flags soError =>
    match s.place with
    | .inSlot =>
      some { s with
        op := { s.op with base := s.op.base.onEvent flags soError }
        place := .completed }
    | _ => none
  | .dispatch o o' =>
    match s.place with
    | .completed =>
      if s.op.sends → o.Legal s.op.requested then
        match s.op.onComplete o with
        | .again op =>
          if o'.Legal op.requested then
            some ⟨(op.beginSend o').1, (op.beginSend o').2, s.callsOf o ++ [op.call o'],
              s.callbacks⟩
          else none
        | .callback op ec =>
          some ⟨op, .finished ec op.buffer.buf, s.callsOf o, s.callbacks + 1⟩
      else none
    | _ => none

/-- The positions of the caller's buffer the kernel has accepted, in order. -/
def accepted (s : SendState) : List ℕ := s.calls.flatMap SendCall.taken

end SendState

/-- What `asyn_send` owes its caller in a state of the operation. -/
structure Delivers (len : ℕ) (s : SendState) : Prop where
  /-- At any time a prefix of the buffer has been handed over, each byte of it once. -/
  accepted_prefix : ∃ n ≤ len, s.accepted = List.range' 0 n
  /-- The count reported is the length of that prefix. -/
  accepted_eq : ∀ ec n, s.place = .finished ec n → s.accepted = List.range' 0 n
  /-- An operation that completes without an error has sent the whole buffer. -/
  complete : ∀ ec n, s.place = .finished ec n → ec.isError = false → n = len
  /-- The callback runs at most once. -/
  once : s.callbacks ≤ 1

namespace SendOp

/-! ### What one completion does -/

variable {op : SendOp} {o : Outcome}

theorem requested_le (op : SendOp) : op.requested ≤ op.buffer.len := by
  have := toUInt32_le op.buffer.len
  rw [requested]
  split <;> omega

theorem requested_lt (op : SendOp) : op.requested < 2 ^ 32 := by
  have := toUInt32_lt op.buffer.len
  rw [requested]
  split
  · decide
  · exact this

/-- A count is taken off the buffer, and what is left is sent. -/
theorem onComplete_ok (h : (op.sendResult o).1.isError = false) :
    op.onComplete o =
      if op.buffer.len - (op.sendResult o).2 != 0 then
        .again { op with buffer := op.buffer.consume (op.sendResult o).2, base := .reset }
      else
        .callback { op with buffer := op.buffer.consume (op.sendResult o).2 }
          (op.sendResult o).1 := by
  simp only [onComplete, h, Bool.not_false, if_true]
  rfl

/-- A failure that would block starts over with the same bytes. -/
theorem onComplete_wouldBlock (h : (op.sendResult o).1.wouldBlock = true) :
    op.onComplete o = .again { op with base := .reset } := by
  simp [onComplete, ErrorCode.isError_of_wouldBlock h, h]

/-- A failure other than would-block is reported. -/
theorem onComplete_error (h : (op.sendResult o).1.isError = true)
    (hw : (op.sendResult o).1.wouldBlock = false) :
    op.onComplete o = .callback op (op.sendResult o).1 := by
  simp [onComplete, h, hw]

end SendOp

namespace SendState

variable {len : ℕ} {s t : SendState}

/-- An operation that has not called back: what is left of its buffer is a suffix of the caller's,
and the calls have taken all before it and `pending` bytes more, which are not yet taken off. -/
structure Sending (len : ℕ) (op : SendOp) (calls : List SendCall) (pending : ℕ) : Prop where
  total : op.buffer.buf + op.buffer.len = len
  taken : calls.flatMap SendCall.taken = List.range' 0 (op.buffer.buf + pending)
  pending_le : pending ≤ op.buffer.len

/-- What holds of an operation: it waits, or was woken by an event, or the answer `a` to its last
call is posted, or it has called back and met its contract. -/
inductive Placed (len : ℕ) (s : SendState) : Prop
  | slot (hp : s.place = .inSlot) (h : Sending len s.op s.calls 0) (hsent : s.op.sent_ = false)
      (hbytes : s.op.base.bytesTransferred = 0) (hcb : s.callbacks = 0)
  | woken (hp : s.place = .completed) (h : Sending len s.op s.calls 0) (hsent : s.op.sent_ = false)
      (hbytes : s.op.base.bytesTransferred = 0) (hcb : s.callbacks = 0)
  | posted (a : Outcome) (hp : s.place = .completed) (h : Sending len s.op s.calls a.moved)
      (hsent : s.op.sent_ = true)
      (hres : ((s.op.base.ec, s.op.base.bytesTransferred) : ErrorCode × ℕ) =
        serviceSend s.op.requested a)
      (ha : a.Legal s.op.requested) (hcb : s.callbacks = 0)
  | done (ec : ErrorCode) (n : ℕ) (hp : s.place = .finished ec n) (hn : n ≤ len)
      (htaken : s.accepted = List.range' 0 n) (hec : ec.isError = false → n = len)
      (hcb : s.callbacks = 1)

/-- The invariant is stronger than the contract. -/
theorem Placed.delivers (h : Placed len s) : Delivers len s := by
  have htaken' : ∀ {op calls k}, Sending len op calls k →
      ∃ n ≤ len, calls.flatMap SendCall.taken = List.range' 0 n := fun {op calls k} h ↦
    ⟨_, by have := h.total; have := h.pending_le; omega, h.taken⟩
  cases h with
  | slot hp h _ _ hcb | woken hp h _ _ hcb | posted _ hp h _ _ _ hcb =>
    exact ⟨htaken' h, by simp [hp], by simp [hp], by omega⟩
  | done ec n hp hn htaken hec hcb =>
    refine ⟨⟨n, hn, htaken⟩, fun ec' n' hp' ↦ ?_, fun ec' n' hp' hec' ↦ ?_, by omega⟩
    · obtain ⟨rfl, rfl⟩ : ec = ec' ∧ n = n' := by simpa [hp] using hp'
      exact htaken
    · obtain ⟨rfl, rfl⟩ : ec = ec' ∧ n = n' := by simpa [hp] using hp'
      exact hec hec'

/-- A call takes the bytes behind those taken before. -/
theorem taken_append {op : SendOp} {calls : List SendCall} (h : Sending len op calls 0)
    (o : Outcome) : (calls ++ [op.call o]).flatMap SendCall.taken =
      List.range' 0 (op.buffer.buf + o.moved) := by
  have hrange : List.range' 0 op.buffer.buf ++ List.range' (0 + 1 * op.buffer.buf) o.moved =
      List.range' 0 (op.buffer.buf + o.moved) := List.range'_append
  rw [List.flatMap_append, h.taken, ← hrange, Nat.add_zero, Nat.zero_add, Nat.one_mul]
  simp [SendCall.taken, SendOp.call]

theorem moved_le {op : SendOp} {o : Outcome} (h : o.Legal op.requested) :
    o.moved ≤ op.buffer.len := by
  have := op.requested_le
  cases o with
  | bytes k => exact Nat.le_trans h this
  | fail e => exact Nat.zero_le _

/-- `begin_send` on an operation whose result fields are reset. -/
theorem placed_beginSend {op : SendOp} {calls : List SendCall} {o : Outcome}
    (h : Sending len op calls 0) (hbase : op.base = .reset) (hl : o.Legal op.requested) :
    Placed len ⟨(op.beginSend o).1, (op.beginSend o).2, calls ++ [op.call o], 0⟩ := by
  rcases hw : (serviceSend op.requested o).1.wouldBlock with - | -
  · have hlt := Nat.lt_of_le_of_lt (transfer_snd_le hl) op.requested_lt
    have hbegin : op.beginSend o = ({ op with
        sent_ := true
        base := op.base.onCompletion (serviceSend op.requested o).1
          (serviceSend op.requested o).2 }, .completed) := by
      simp [SendOp.beginSend, hw]
    rw [hbegin]
    exact .posted o rfl ⟨h.total, taken_append h o, moved_le hl⟩ rfl
      (Prod.ext rfl (toUInt32_of_lt hlt)) hl rfl
  · obtain ⟨e, rfl⟩ := transfer_wouldBlock hw
    have hbegin : op.beginSend (.fail e) = ({ op with sent_ := false }, .inSlot) := by
      simp [SendOp.beginSend, hw]
    rw [hbegin]
    exact .slot rfl ⟨h.total, taken_append h _, Nat.zero_le _⟩ rfl (by rw [hbase]; rfl) rfl

theorem placed_start {o : Outcome} (hl : o.Legal (SendOp.new len).requested) :
    Placed len (start len o) := by
  have hnew : Sending len (SendOp.new len) [] 0 := ⟨Nat.zero_add _, rfl, Nat.zero_le _⟩
  exact placed_beginSend hnew rfl hl

/-- The state behind a dispatch. -/
def after (next : SendOp.Next) (calls : List SendCall) (o' : Outcome) : SendState :=
  match next with
  | .again op => ⟨(op.beginSend o').1, (op.beginSend o').2, calls ++ [op.call o'], 0⟩
  | .callback op ec => ⟨op, .finished ec op.buffer.buf, calls, 1⟩

/-- The answer to the `::send` call of a `begin_send` fits what it asks for. -/
def LegalNext (o' : Outcome) : SendOp.Next → Prop
  | .again op => o'.Legal op.requested
  | .callback _ _ => True

/-- A dispatch keeps the invariant when the count it works with is that of the bytes taken and not
yet taken off, and a failure took none. -/
theorem placed_onComplete {op : SendOp} {o o' : Outcome} {calls : List SendCall} {pending : ℕ}
    (h : Sending len op calls pending)
    (hcount : (op.sendResult o).1.isError = false → (op.sendResult o).2 = pending)
    (hfail : (op.sendResult o).1.isError = true → pending = 0)
    (hnext : LegalNext o' (op.onComplete o)) :
    Placed len (after (op.onComplete o) calls o') := by
  obtain ⟨htotal, htaken, hle⟩ := h
  rcases hec : (op.sendResult o).1.isError with - | -
  · have hpend := hcount hec
    rw [SendOp.onComplete_ok hec, hpend] at hnext ⊢
    split at hnext
    case isTrue hmore =>
      rw [if_pos hmore]
      refine placed_beginSend ⟨?_, ?_, Nat.zero_le _⟩ rfl hnext
      · show op.buffer.buf + pending + (op.buffer.len - pending) = len
        omega
      · exact htaken
    case isFalse hnone =>
      rw [if_neg hnone]
      have hzero : op.buffer.len - pending = 0 := by simpa using hnone
      exact .done _ _ rfl (by show op.buffer.buf + pending ≤ len; omega) htaken
        (fun _ ↦ by show op.buffer.buf + pending = len; omega) rfl
  · obtain rfl := hfail hec
    rcases hw : (op.sendResult o).1.wouldBlock with - | -
    · rw [SendOp.onComplete_error hec hw]
      exact .done _ _ rfl (by show op.buffer.buf ≤ len; omega) htaken
        (fun h ↦ by rw [hec] at h; cases h) rfl
    · rw [SendOp.onComplete_wouldBlock hw] at hnext ⊢
      exact placed_beginSend ⟨htotal, htaken, Nat.zero_le _⟩ rfl hnext

/-- What a dispatch can do. -/
theorem step_dispatch {o o' : Outcome} (hp : s.place = .completed) (hcb : s.callbacks = 0)
    (hstep : step s (.dispatch o o') = some t) :
    (s.op.sends → o.Legal s.op.requested) ∧ LegalNext o' (s.op.onComplete o) ∧
      t = after (s.op.onComplete o) (s.callsOf o) o' := by
  simp only [step, hp, hcb] at hstep
  split at hstep
  case isFalse => cases hstep
  case isTrue hl =>
    refine ⟨hl, ?_⟩
    cases hnext : s.op.onComplete o with
    | again op =>
      rw [hnext] at hstep
      dsimp only at hstep
      split at hstep
      case isFalse => cases hstep
      case isTrue hl' => exact ⟨hl', (Option.some.inj hstep).symm⟩
    | callback op ec =>
      rw [hnext] at hstep
      exact ⟨trivial, (Option.some.inj hstep).symm⟩

/-- **Every step keeps the invariant.** -/
theorem placed_step {e : SendEvent} (hs : Placed len s) (hstep : step s e = some t) :
    Placed len t := by
  cases e with
  | ready flags soError =>
    cases hs with
    | woken hp | posted _ hp | done _ _ hp => simp [step, hp] at hstep
    | slot hp h hsent hbytes hcb =>
      simp only [step, hp, Option.some.injEq] at hstep
      subst hstep
      refine .woken rfl ⟨h.total, h.taken, h.pending_le⟩ hsent ?_ hcb
      show (s.op.base.onEvent flags soError).bytesTransferred = 0
      rw [Operation.onEvent_bytesTransferred, hbytes]
  | dispatch o o' =>
    cases hs with
    | slot hp | done _ _ hp => simp [step, hp] at hstep
    | posted a hp h hsent hres ha hcb =>
      -- the first `::send` was made by the caller: its answer is delivered, no call is made
      obtain ⟨-, hnext, rfl⟩ := step_dispatch hp hcb hstep
      have hsends : s.op.sends = false := by simp [SendOp.sends, hsent]
      have hr : s.op.sendResult o = serviceSend s.op.requested a := by
        rw [SendOp.sendResult, hsends, ← hres]
        rfl
      rw [callsOf, hsends]
      refine placed_onComplete h (fun hok ↦ ?_) (fun herr ↦ ?_) hnext
      · rw [hr] at hok ⊢
        cases a with
        | bytes k => rfl
        | fail e =>
          have he : e ≠ 0 := ha
          exact absurd hok (by simpa [serviceSend] using he)
      · rw [hr] at herr
        cases a with
        | bytes k => cases herr
        | fail e => rfl
    | woken hp h hsent hbytes hcb =>
      obtain ⟨hl, hnext, rfl⟩ := step_dispatch hp hcb hstep
      rcases hsends : s.op.sends with - | -
      · -- an error of the event, or nothing to send: no call is made
        have hr : s.op.sendResult o = (s.op.base.ec, 0) := by
          rw [SendOp.sendResult, hsends, ← hbytes]
          rfl
        rw [callsOf, hsends]
        exact placed_onComplete h (fun _ ↦ by rw [hr]) (fun _ ↦ rfl) hnext
      · have hr : s.op.sendResult o = serviceSend s.op.requested o := by
          rw [SendOp.sendResult, hsends]
          rfl
        have hlegal := hl hsends
        rw [callsOf, hsends]
        have hsending : Sending len s.op (s.calls ++ [s.op.call o]) o.moved :=
          ⟨h.total, taken_append h o, moved_le hlegal⟩
        refine placed_onComplete hsending (fun hok ↦ ?_) (fun herr ↦ ?_) hnext
        · rw [hr] at hok ⊢
          cases o with
          | bytes k => rfl
          | fail e =>
            have he : e ≠ 0 := hlegal
            exact absurd hok (by simpa [serviceSend] using he)
        · rw [hr] at herr
          cases o with
          | bytes k => cases herr
          | fail e => rfl

/-- **Sending.** In every state of every run `asyn_send` has handed over a prefix of the buffer,
each byte once; the count its one callback reports is the length of that prefix, and without an
error the prefix is the whole buffer. -/
theorem delivers_of_run {o : Outcome} (hl : o.Legal (SendOp.new len).requested)
    {l : List SendEvent} (hrun : Transition.run step (start len o) l = some s) : Delivers len s :=
  (Transition.invariant_run' (fun _ _ _ h hst ↦ placed_step h hst) (placed_start hl) hrun).delivers

/-- Three bytes: one is accepted at once, the rest after a wait. -/
theorem delivers_of_run_three :
    ∃ s, Transition.run step (start 3 (.bytes 1))
        [.dispatch (.bytes 0) (.fail EAGAIN), .ready .clear 0,
          .dispatch (.bytes 2) (.bytes 0)] = some s ∧
      s.place = .finished (.system 0) 3 ∧ Delivers 3 s := by
  have hl : (Outcome.bytes 1).Legal (SendOp.new 3).requested := by decide
  refine ⟨_, rfl, rfl, delivers_of_run hl (l := [.dispatch (.bytes 0) (.fail EAGAIN),
    .ready .clear 0, .dispatch (.bytes 2) (.bytes 0)]) rfl⟩

/-! ### Errors -/

/-- The call failed, and not because it would block. -/
def Failed (c : SendCall) : Prop :=
  (serviceSend c.requested c.outcome).1.isError = true ∧
    (serviceSend c.requested c.outcome).1.wouldBlock = false

/-- An error is reported only if a `::send` of the operation has failed. -/
def Blameless (s : SendState) : Prop :=
  ∀ ec n, s.place = .finished ec n → ec.isError = true → ∃ c ∈ s.calls, Failed c

/-- The event carries neither `EPOLLERR` nor `EPOLLHUP`. -/
def Mild : SendEvent → Prop
  | .ready flags _ => flags.err = false ∧ flags.hup = false
  | .dispatch _ _ => True

instance : DecidablePred Mild
  | .ready flags _ => inferInstanceAs (Decidable (flags.err = false ∧ flags.hup = false))
  | .dispatch _ _ => inferInstanceAs (Decidable True)

/-- The operation that is dispatched has not been woken by an event with `EPOLLRDHUP`. -/
def Unwarned (s : SendState) : SendEvent → Prop
  | .ready _ _ => True
  | .dispatch _ _ => s.op.base.epollFlags.rdhup = false

instance (s : SendState) : DecidablePred s.Unwarned
  | .ready _ _ => inferInstanceAs (Decidable True)
  | .dispatch _ _ => inferInstanceAs (Decidable (s.op.base.epollFlags.rdhup = false))

/-- Where an operation can be, when no event carries `EPOLLERR` or `EPOLLHUP`: it waits, or was
woken, with the frame's `epoll_flag` if the event carried `EPOLLRDHUP`; the answer to its last call
is posted; or it has called back. -/
inductive Justified (s : SendState) : Prop
  | slot (hp : s.place = .inSlot) (hcb : s.callbacks = 0) (hbase : s.op.base = .reset)
      (hsent : s.op.sent_ = false) (hcalls : ∀ c ∈ s.calls, ¬Failed c)
  | woken (hp : s.place = .completed) (hcb : s.callbacks = 0)
      (hec : s.op.base.ec = if s.op.base.epollFlags.rdhup then .epollFlag else .noError)
      (hsent : s.op.sent_ = false) (hcalls : ∀ c ∈ s.calls, ¬Failed c)
  | posted (hp : s.place = .completed) (hcb : s.callbacks = 0)
      (hflags : s.op.base.epollFlags = .clear) (hsent : s.op.sent_ = true)
      (hw : s.op.base.ec.wouldBlock = false)
      (hok : s.op.base.ec.isError = false → ∀ c ∈ s.calls, ¬Failed c)
      (hfail : s.op.base.ec.isError = true → ∃ c ∈ s.calls, Failed c)
  | done (ec : ErrorCode) (n : ℕ) (hp : s.place = .finished ec n)
      (hfail : ec.isError = true → ∃ c ∈ s.calls, Failed c)

theorem Justified.blameless (h : Justified s) : Blameless s := by
  intro ec n hp
  cases h with
  | slot hp' | woken hp' | posted hp' => cases hp.symm.trans hp'
  | done ec' n' hp' hfail =>
    obtain ⟨rfl, rfl⟩ := SendPlace.finished.inj (hp.symm.trans hp')
    exact hfail

/-- A call that has not failed leaves none that has. -/
theorem not_failed_append {calls : List SendCall} {c : SendCall} (h : ∀ c ∈ calls, ¬Failed c)
    (hc : ¬Failed c) : ∀ c' ∈ calls ++ [c], ¬Failed c' := by
  intro c' hc'
  rcases List.mem_append.1 hc' with hold | hnew
  · exact h c' hold
  · rwa [List.mem_singleton.1 hnew]

theorem justified_beginSend {op : SendOp} {calls : List SendCall} (hbase : op.base = .reset)
    (hcalls : ∀ c ∈ calls, ¬Failed c) (o : Outcome) :
    Justified ⟨(op.beginSend o).1, (op.beginSend o).2, calls ++ [op.call o], 0⟩ := by
  rcases hw : (serviceSend op.requested o).1.wouldBlock with - | -
  · have hbegin : op.beginSend o = ({ op with
        sent_ := true
        base := op.base.onCompletion (serviceSend op.requested o).1
          (serviceSend op.requested o).2 }, .completed) := by
      simp [SendOp.beginSend, hw]
    rw [hbegin]
    refine .posted rfl rfl (congrArg Operation.epollFlags hbase) rfl hw (fun hok ↦ ?_)
      fun hfail ↦ ?_
    · exact not_failed_append hcalls fun hf ↦ absurd (hok.symm.trans hf.1) Bool.false_ne_true
    · exact ⟨op.call o, List.mem_append_right _ (List.mem_singleton_self _), hfail, hw⟩
  · have hbegin : op.beginSend o = ({ op with sent_ := false }, .inSlot) := by
      simp [SendOp.beginSend, hw]
    rw [hbegin]
    exact .slot rfl rfl hbase rfl
      (not_failed_append hcalls fun hf ↦ absurd (hf.2.symm.trans hw) Bool.false_ne_true)

/-- The end of a dispatch. -/
theorem justified_after {op : SendOp} {calls : List SendCall} {o : Outcome} (o' : Outcome)
    (hcalls : (op.sendResult o).1.isError = false ∨ (op.sendResult o).1.wouldBlock = true →
      ∀ c ∈ calls, ¬Failed c)
    (hfail : (op.sendResult o).1.isError = true → (op.sendResult o).1.wouldBlock = false →
      ∃ c ∈ calls, Failed c) :
    Justified (after (op.onComplete o) calls o') := by
  rcases hec : (op.sendResult o).1.isError with - | -
  · rw [SendOp.onComplete_ok hec]
    split
    · exact justified_beginSend rfl (hcalls (.inl hec)) o'
    · exact .done _ _ rfl fun h ↦ absurd (hec.symm.trans h) Bool.false_ne_true
  · rcases hw : (op.sendResult o).1.wouldBlock with - | -
    · rw [SendOp.onComplete_error hec hw]
      exact .done _ _ rfl fun _ ↦ hfail hec hw
    · rw [SendOp.onComplete_wouldBlock hw]
      exact justified_beginSend rfl (hcalls (.inr hw)) o'

theorem justified_step {e : SendEvent} (hs : Justified s) (hmild : Mild e) (hok : s.Unwarned e)
    (hstep : step s e = some t) : Justified t := by
  cases e with
  | ready flags soError =>
    cases hs with
    | woken hp | posted hp | done _ _ hp => simp [step, hp] at hstep
    | slot hp hcb hbase hsent hcalls =>
      simp only [step, hp, Option.some.injEq] at hstep
      subst hstep
      refine .woken rfl hcb ?_ hsent hcalls
      obtain ⟨err, hup, rdhup⟩ := flags
      obtain ⟨rfl, rfl⟩ : err = false ∧ hup = false := hmild
      show (s.op.base.onEvent ⟨false, false, rdhup⟩ soError).ec =
        if (s.op.base.onEvent ⟨false, false, rdhup⟩ soError).epollFlags.rdhup then _ else _
      rw [hbase]
      cases rdhup <;> rfl
  | dispatch o o' =>
    cases hs with
    | slot hp | done _ _ hp => simp [step, hp] at hstep
    | posted hp hcb hflags hsent hw hcalls hfail =>
      obtain ⟨-, -, rfl⟩ := step_dispatch hp hcb hstep
      have hsends : s.op.sends = false := by simp [SendOp.sends, hsent]
      have hr : s.op.sendResult o = (s.op.base.ec, s.op.base.bytesTransferred) := by
        rw [SendOp.sendResult, hsends]
        rfl
      rw [callsOf, hsends]
      refine justified_after o' (fun h ↦ ?_) fun herr _ ↦ ?_
      · rw [hr] at h
        exact hcalls (h.resolve_right fun hw' ↦ absurd (hw.symm.trans hw') Bool.false_ne_true)
      · rw [hr] at herr
        exact hfail herr
    | woken hp hcb hec hsent hcalls =>
      obtain ⟨-, -, rfl⟩ := step_dispatch hp hcb hstep
      have hec' : s.op.base.ec = .noError := by
        rw [hec, show s.op.base.epollFlags.rdhup = false from hok]
        rfl
      rcases hsends : s.op.sends with - | -
      · have hr : (s.op.sendResult o).1 = .noError := by
          rw [SendOp.sendResult, hsends]
          exact hec'
        rw [callsOf, hsends]
        refine justified_after o' (fun _ ↦ hcalls) fun herr _ ↦ ?_
        rw [hr] at herr
        cases herr
      · have hr : (s.op.sendResult o).1 = (serviceSend s.op.requested o).1 := by
          rw [SendOp.sendResult, hsends]
          rfl
        rw [callsOf, hsends]
        refine justified_after o' (fun h ↦ not_failed_append hcalls fun hf ↦ ?_) fun herr hw ↦ ?_
        · rw [hr] at h
          rcases h with h | h
          · exact absurd (h.symm.trans hf.1) Bool.false_ne_true
          · exact absurd (hf.2.symm.trans h) Bool.false_ne_true
        · rw [hr] at herr hw
          exact ⟨s.op.call o, List.mem_append_right _ (List.mem_singleton_self _), herr, hw⟩

/-- **A half-close ends the operation**: the completion takes the frame's `epoll_flag` for an error
of the send. -/
theorem not_blameless_of_warned {e : SendEvent} (hs : Justified s) (hbad : ¬s.Unwarned e)
    (hstep : step s e = some t) : ¬Blameless t := by
  cases e with
  | ready => exact absurd trivial hbad
  | dispatch o o' =>
    have hrdhup : s.op.base.epollFlags.rdhup = true := Bool.not_eq_false _ ▸ hbad
    cases hs with
    | slot hp | done _ _ hp => simp [step, hp] at hstep
    | posted hp hcb hflags =>
      rw [hflags] at hrdhup
      cases hrdhup
    | woken hp hcb hec hsent hcalls =>
      obtain ⟨-, -, rfl⟩ := step_dispatch hp hcb hstep
      have hec' : s.op.base.ec = .epollFlag := by
        rw [hec, hrdhup]
        rfl
      have hsends : s.op.sends = false := by simp [SendOp.sends, hec']
      have hr : (s.op.sendResult o).1 = .epollFlag := by
        rw [SendOp.sendResult, hsends]
        exact hec'
      have hcallback : s.op.onComplete o = .callback s.op .epollFlag := by
        rw [SendOp.onComplete_error (by rw [hr]; rfl) (by rw [hr]; rfl), hr]
      rw [hcallback, callsOf, hsends]
      intro h
      obtain ⟨c, hc, hfailed⟩ := h _ _ rfl rfl
      exact hcalls c hc hfailed

/-- **Sending to a half-closed peer.** In a run in which no event carries `EPOLLERR` or `EPOLLHUP`,
and every wait can be registered, `asyn_send` reports an error only for a `::send` that failed, if
and only if no completion runs after an event with `EPOLLRDHUP`. -/
theorem blameless_iff (o : Outcome) {l : List SendEvent} (hl : ∀ e ∈ l, Mild e)
    (hrun : Transition.run step (start len o) l = some t) :
    Transition.Throughout step Blameless (start len o) l ↔
      Transition.RunMeets step Unwarned (start len o) l :=
  Transition.throughout_iff_of_forall (fun _ h ↦ h.blameless)
    (fun _ _ _ h hmild hok hst ↦ justified_step h hmild hok hst)
    (fun _ _ _ h _ hbad hst ↦ not_blameless_of_warned h hbad hst)
    (justified_beginSend rfl (fun _ hc ↦ absurd hc List.not_mem_nil) o) hl hrun

/-- The theorem on a send that waits once. -/
theorem blameless_iff_one :
    Transition.Throughout step Blameless (start 1 (.fail EAGAIN))
        [.ready .clear 0, .dispatch (.bytes 1) (.bytes 0)] ↔
      Transition.RunMeets step Unwarned (start 1 (.fail EAGAIN))
        [.ready .clear 0, .dispatch (.bytes 1) (.bytes 0)] :=
  blameless_iff (.fail EAGAIN) (l := [.ready .clear 0, .dispatch (.bytes 1) (.bytes 0)])
    (by decide) rfl

/-- Full socket buffer, then the peer shuts down its sending side: the event that says there is room
again makes the send fail. -/
theorem not_blameless_halfClosed :
    ∃ t, Transition.run step (start 1 (.fail EAGAIN))
        [.ready .onlyRdhup 0, .dispatch (.bytes 1) (.bytes 0)] = some t ∧
      Mild (.ready .onlyRdhup 0) ∧ t.place = .finished .epollFlag 0 ∧
      t.calls = [⟨0, 1, .fail EAGAIN⟩] ∧ ¬Blameless t := by
  refine ⟨_, rfl, by decide, rfl, rfl, fun h ↦ ?_⟩
  obtain ⟨c, hc, -, hw⟩ := h .epollFlag 0 rfl rfl
  rw [List.mem_singleton.1 hc] at hw
  cases hw

end SendState

end JnetLib.Epoll
