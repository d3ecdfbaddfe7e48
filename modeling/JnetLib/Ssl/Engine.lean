import JnetLib.Base.Buffer
import JnetLib.Base.ErrorCode

/-!
# The SSL engine

`ssl::engine` calls OpenSSL on a pair of memory buffers and says what has to happen next: input for
the engine, output from it, or nothing. What OpenSSL answers to a call is a parameter here
(`SslCall`); `perform` is what the engine makes of it.
-/

namespace JnetLib.Ssl

/-- `engine::want`. The value that asks for input and output is not returned by anything. -/
inductive Want
  | inputAndRetry
  | outputAndRetry
  | nothing
  | output
  deriving DecidableEq, Repr

/-- The functions `perform` is called with: `do_connect` and `do_accept`, `do_shutdown`, `do_read`
and `do_write`. -/
inductive EngineOp
  | handshake
  | shutdown
  | read
  | write
  deriving DecidableEq, Repr

/-- The values of `SSL_get_error` that `perform` tells apart. -/
def SSL_ERROR_NONE : ℤ := 0

@[inherit_doc SSL_ERROR_NONE]
def SSL_ERROR_SSL : ℤ := 1

@[inherit_doc SSL_ERROR_NONE]
def SSL_ERROR_WANT_READ : ℤ := 2

@[inherit_doc SSL_ERROR_NONE]
def SSL_ERROR_WANT_WRITE : ℤ := 3

@[inherit_doc SSL_ERROR_NONE]
def SSL_ERROR_SYSCALL : ℤ := 5

/-- `ERR_PACK(ERR_LIB_SSL, 0, SSL_R_SHORT_READ)`. -/
def shortRead : ℤ := 20 * 2 ^ 24 + 219

/-- What OpenSSL answers to one call: the value returned, `SSL_get_error` and `ERR_get_error` after
it, the bytes it has put into the output buffer, whether the peer's shutdown has been received, and
whether the input buffer still holds data. -/
structure SslCall where
  result : ℤ
  sslError : ℤ
  sysError : ℤ
  output : List Byte
  receivedShutdown : Bool
  unread : Bool
  deriving DecidableEq, Repr

/-- What an engine function returns, and what it leaves in its reference arguments. -/
structure Outcome where
  want : Want
  ec : ErrorCode
  bytesTransferred : ℕ
  deriving DecidableEq, Repr

/-- `SSL_ERROR_SYSCALL` with an empty error queue is no error of a shutdown. -/
def SslCall.error (c : SslCall) (op : EngineOp) : ℤ :=
  if c.sslError = SSL_ERROR_SYSCALL ∧ op = .shutdown ∧ c.sysError = 0 then SSL_ERROR_NONE
  else c.sslError

/-- `engine::perform`, with `pending` bytes in the output buffer before the call. The count stays as
it was when the call fails, and with the functions that have none. -/
def perform (op : EngineOp) (pending bytes : ℕ) (c : SslCall) : Outcome :=
  let bytes' := if op = .read ∨ op = .write then c.result.toNat else bytes
  if c.error op = SSL_ERROR_SSL ∨ c.error op = SSL_ERROR_SYSCALL then
    ⟨.nothing, ⟨c.sysError, .ssl⟩, bytes⟩
  else if c.error op = SSL_ERROR_WANT_WRITE then ⟨.outputAndRetry, ⟨0, .ssl⟩, bytes'⟩
  else if pending < pending + c.output.length ∧ op ≠ .read then
    ⟨if 0 < c.result then .output else .outputAndRetry, ⟨0, .ssl⟩, bytes'⟩
  else if c.error op = SSL_ERROR_WANT_READ then ⟨.inputAndRetry, ⟨0, .ssl⟩, bytes'⟩
  else if c.receivedShutdown then ⟨.nothing, .eof, bytes'⟩
  else ⟨.nothing, ⟨c.error op, .ssl⟩, bytes'⟩

/-- `engine::shutdown`: what the peer returns does not matter. -/
def shutdown (pending bytes : ℕ) (c : SslCall) : Outcome :=
  let o := perform .shutdown pending bytes c
  if o.want = .inputAndRetry then { o with want := .nothing } else o

/-- `engine::map_error_code`. -/
def mapErrorCode (ssl2 unread : Bool) (ec : ErrorCode) : ErrorCode :=
  if ec.value ≠ ErrorCode.eof.value then ec
  else if unread then ⟨shortRead, .ssl⟩
  else if ssl2 then ec
  else ⟨shortRead, .ssl⟩

@[simp]
theorem isError_mapErrorCode (ssl2 unread : Bool) (ec : ErrorCode) :
    (mapErrorCode ssl2 unread ec).isError = ec.isError := by
  rw [mapErrorCode]
  split
  case isTrue => rfl
  case isFalse h =>
    have hec : ec.isError = true := by
      rw [ErrorCode.isError, Decidable.not_not.1 h]
      rfl
    rw [hec]
    split
    · rfl
    · split
      · exact hec
      · rfl

/-- A call that asks for input or output reports no error. -/
theorem isError_perform {op : EngineOp} {pending bytes : ℕ} {c : SslCall}
    (h : (perform op pending bytes c).want ≠ .nothing) :
    (perform op pending bytes c).ec.isError = false := by
  unfold perform at h ⊢
  dsimp only at h ⊢
  split_ifs at h ⊢ <;> first | rfl | exact absurd rfl h

/-- The count of a write is what OpenSSL has returned, if that is positive. -/
theorem bytesTransferred_perform_write {pending bytes : ℕ} {c : SslCall}
    (h : (perform .write pending bytes c).want ≠ .nothing) :
    (perform .write pending bytes c).bytesTransferred = c.result.toNat := by
  unfold perform at h ⊢
  simp only [or_true, if_true] at h ⊢
  split_ifs at h ⊢ <;> first | rfl | exact absurd rfl h

end JnetLib.Ssl
