import JnetLib.Base.Buffer
import JnetLib.Base.ErrorCode

/-!
# Operations of the epoll backend

The part of `iocp::operation` the event loop and the operations share: the result fields, `reset`,
and what the two producers of a completion store in them, `service::on_completion` and the event
branches of `service::do_one`. The branches for `EPOLLIN` and `EPOLLOUT` store the same things, so
one definition (`onEvent`) serves both.

`ready_` is not a field here: on this backend the only way into `completed_ops_` is
`post_deferred_completion`, which sets it, so a queued operation is always ready. The service
module keeps the flag and proves this.
-/

namespace JnetLib.Epoll

/-- `events & (EPOLLERR|EPOLLHUP|EPOLLRDHUP)`. -/
structure EpollFlags where
  err : Bool
  hup : Bool
  rdhup : Bool
  deriving DecidableEq, Repr

namespace EpollFlags

/-- No error flag set. -/
def clear : EpollFlags := ⟨false, false, false⟩

/-- Exactly `EPOLLRDHUP`. -/
def onlyRdhup : EpollFlags := ⟨false, false, true⟩

/-- Exactly `EPOLLHUP`. -/
def onlyHup : EpollFlags := ⟨false, true, false⟩

/-- The mask is non-zero. -/
def any (f : EpollFlags) : Bool := f.err || f.hup || f.rdhup

@[simp]
theorem any_clear : clear.any = false :=
  rfl

end EpollFlags

/-- The result fields of `iocp::operation`. -/
structure Operation where
  ec : ErrorCode
  bytesTransferred : ℕ
  epollFlags : EpollFlags
  deriving DecidableEq, Repr

namespace Operation

/-- `operation::reset`, also what the constructor leaves. -/
def reset : Operation := ⟨.noError, 0, .clear⟩

@[simp]
theorem reset_ec : reset.ec = .noError :=
  rfl

@[simp]
theorem reset_bytesTransferred : reset.bytesTransferred = 0 :=
  rfl

@[simp]
theorem reset_epollFlags : reset.epollFlags = .clear :=
  rfl

/-- `service::on_completion`: the count arrives through an `unsigned int` parameter. -/
def onCompletion (op : Operation) (ec : ErrorCode) (bytes : ℕ) : Operation :=
  { op with ec := ec, bytesTransferred := toUInt32 bytes }

/-- What an event with the given flags stores in the operation it takes from a slot: the socket's
pending error on `EPOLLERR`, the frame's `epoll_flag` on any other flag. -/
def onEvent (op : Operation) (flags : EpollFlags) (soError : ℤ) : Operation :=
  let op := if flags.err then { op with ec := .system soError } else op
  let op := { op with epollFlags := flags }
  if flags.any && !flags.err then { op with ec := .epollFlag } else op

/-- The error code a read completion starts from: a hang-up of the peer's sending side alone is not
an error for a reader. -/
def readerError (op : Operation) : ErrorCode :=
  if op.ec.value = ErrorCode.epollFlag.value ∧ op.epollFlags = .onlyRdhup then op.ec.setValue 0
  else op.ec

/-- Without an event the operation's own error code is taken as it is. -/
theorem readerError_of_clear {op : Operation} (h : op.epollFlags = .clear) :
    op.readerError = op.ec := by
  have hne : op.epollFlags ≠ .onlyRdhup := by rw [h]; decide
  exact if_neg fun h' ↦ hne h'.2

theorem readerError_onCompletion {op : Operation} (h : op.epollFlags = .clear) (ec : ErrorCode)
    (n : ℕ) : (op.onCompletion ec n).readerError = ec :=
  readerError_of_clear h

/-- An event leaves the count. -/
theorem onEvent_bytesTransferred (op : Operation) (flags : EpollFlags) (e : ℤ) :
    (op.onEvent flags e).bytesTransferred = op.bytesTransferred := by
  cases h : flags.err <;> cases h' : flags.any <;> simp [onEvent, h, h']

theorem onEvent_clear_reset (e : ℤ) : reset.onEvent .clear e = reset :=
  rfl

end Operation

/-- What a `::send` or `::recv` call answers: a count, or a failure with `errno`. -/
inductive Outcome
  | bytes (k : ℕ)
  | fail (errno : ℤ)
  deriving DecidableEq, Repr

namespace Outcome

/-- What the kernel may answer to a request for `len` bytes. -/
def Legal (len : ℕ) : Outcome → Prop
  | .bytes k => k ≤ len
  | .fail errno => errno ≠ 0

instance (len : ℕ) : DecidablePred (Legal len)
  | .bytes k => inferInstanceAs (Decidable (k ≤ len))
  | .fail errno => inferInstanceAs (Decidable (errno ≠ 0))

/-- The bytes the call moved. -/
def moved : Outcome → ℕ
  | .bytes k => k
  | .fail _ => 0

@[simp]
theorem moved_bytes (k : ℕ) : (bytes k).moved = k :=
  rfl

@[simp]
theorem moved_fail (e : ℤ) : (fail e).moved = 0 :=
  rfl

end Outcome

/-- The common body of `service::send` and `service::recv`: `len` is overwritten on success and
left alone on failure. -/
def transfer (len : ℕ) : Outcome → ErrorCode × ℕ
  | .bytes k => (.system 0, k)
  | .fail errno => (.system errno, len)

@[simp]
theorem transfer_bytes (len k : ℕ) : transfer len (.bytes k) = (.system 0, k) :=
  rfl

@[simp]
theorem transfer_fail (len : ℕ) (e : ℤ) : transfer len (.fail e) = (.system e, len) :=
  rfl

/-- The count a legal call leaves fits the request. -/
theorem transfer_snd_le {len : ℕ} {o : Outcome} (h : o.Legal len) : (transfer len o).2 ≤ len := by
  cases o with
  | bytes k => exact h
  | fail e => exact Nat.le_refl _

/-- A call that would block failed. -/
theorem transfer_wouldBlock {len : ℕ} {o : Outcome} (h : (transfer len o).1.wouldBlock = true) :
    ∃ e, o = .fail e := by
  cases o with
  | bytes k => simp [ErrorCode.wouldBlock, ErrorCode.system, EAGAIN, EINPROGRESS] at h
  | fail e => exact ⟨e, rfl⟩

/-- `service::send`. -/
def serviceSend (len : ℕ) (o : Outcome) : ErrorCode × ℕ := transfer len o

/-- `service::recv`. -/
def serviceRecv (len : ℕ) (o : Outcome) : ErrorCode × ℕ := transfer len o

end JnetLib.Epoll
