import JnetLib.Foundation.Transition
import JnetLib.Ssl.Engine

/-!
# One SSL operation

`ssl_base_op::io_operation` is a `switch` into the middle of a loop: the initiating call enters at
the top, a completed transport operation in the middle, and every path through it ends in a return
with one thing still to come, or with the completion of the operation. A machine state is an
operation together with what it uses of its socket; a step goes from one call of the engine, of
`put_input` or of a callback to the next.

Transport operations call back asynchronously, so nothing of the operation runs while one of them is
outstanding. Memory is left out: that the operation deletes itself shows only in that its callback
has run.

`Continues` is what should hold in every state, and `Lawful` what OpenSSL and its memory buffers are
relied on for.
-/

namespace JnetLib.Ssl

/-! ### The operation -/

/-- The four classes derived from `ssl_base_op`, with their own fields. The sending operation
carries the memory its buffer points into. -/
inductive Kind
  | handshake
  | shutdown
  | send (data : List Byte) (buffer : ConstBuffer)
  | receive (some_ : Bool) (buffer : MutableBuffer)
  deriving DecidableEq, Repr

/-- `INT_MAX`, the most `do_read` and `do_write` ask for. -/
def INT_MAX : ℕ := 2 ^ 31 - 1

/-- `ssl_buffer_size`. -/
def sslBufferSize : ℕ := 16 * 1024

/-- `length < INT_MAX ? static_cast<int>(length) : INT_MAX`. -/
def clampLength (length : ℕ) : ℕ := if length < INT_MAX then length else INT_MAX

/-- The engine function behind `op_`. -/
def Kind.callEngine (k : Kind) (pending bytes : ℕ) (c : SslCall) : Outcome :=
  match k with
  | .handshake => perform .handshake pending bytes c
  | .shutdown => Ssl.shutdown pending bytes c
  | .send _ _ => perform .write pending bytes c
  | .receive _ _ => perform .read pending bytes c

/-- `send_op` and `receive_op` behind the engine's function: the buffer moves on by what the engine
has transferred. -/
def Kind.advance (k : Kind) (ec : ErrorCode) (bytes : ℕ) : Kind :=
  if !ec.isError && 0 < bytes then
    match k with
    | .send data buffer => .send data (buffer.consume bytes)
    | .receive some_ buffer => .receive some_ (buffer.append bytes)
    | k => k
  else k

/-- The plaintext the engine takes in a call that returns `n`. -/
def Kind.taken (k : Kind) (n : ℕ) : List Byte :=
  match k with
  | .send data buffer => ((data.drop buffer.buf).take (clampLength buffer.len)).take n
  | _ => []

/-- Where `io_operation` is: returned, in front of the call of `op_`, or in front of a call of
`put_input`; in the loop with its parameters. -/
inductive Place
  | returned
  | loop (start : Bool) (ec : ErrorCode) (bytes : ℕ)
  | putting (start : Bool) (ec : ErrorCode) (bytes : ℕ)
  deriving DecidableEq, Repr

/-- An operation in progress: its own fields, those of the socket and the engine's buffer of output,
the transport operations and posted callbacks that refer to it, how often it has been completed
since it was last started, and what its callbacks were called with. Besides, whether an assertion
has failed, and three records: the plaintext the engine has taken, the output it has produced and
the bytes given to the transport. -/
structure SslOp where
  kind : Kind
  want : Want
  ec : ErrorCode
  bytesTransferred : ℕ
  inputFlag : Bool
  inputBuffer : List Byte
  outputFlag : Bool
  bio : List Byte
  ssl2 : Bool
  place : Place
  receives : ℕ
  sends : ℕ
  posts : ℕ
  completions : ℕ
  callbacks : List (ErrorCode × ℕ)
  asserted : Bool
  accepted : List Byte
  produced : List Byte
  sent : List Byte
  deriving DecidableEq, Repr

namespace SslOp

/-! ### The code -/

/-- `do_ssl_operation`: `io_operation(iocp::error_code(), 0, 1)`. -/
def doSslOperation (s : SslOp) : SslOp :=
  { s with place := .loop true .noError 0, completions := 0 }

/-- The call of `callback_`, and the end of the operation. -/
def callback (s : SslOp) (ec : ErrorCode) (bytes : ℕ) : SslOp :=
  { s with place := .returned, callbacks := s.callbacks ++ [(ec, bytes)] }

/-- The four functions `on_complete`. The callbacks of a handshake and of a shutdown have no
count. -/
def onComplete (s : SslOp) (ec : ErrorCode) : SslOp :=
  match s.kind with
  | .handshake => s.callback ec 0
  | .shutdown => s.callback (if ec.value = shortRead then ec.setValue SSL_ERROR_NONE else ec) 0
  | .send _ buffer =>
    if !ec.isError && buffer.len != 0 then s.doSslOperation else s.callback ec buffer.buf
  | .receive some_ buffer =>
    if !ec.isError && !some_ && buffer.remain != 0 then s.doSslOperation
    else s.callback ec buffer.len

/-- `operation::complete`. No `on_complete` reads the count it is given. -/
def complete (s : SslOp) (ec : ErrorCode) : SslOp :=
  { s with completions := s.completions + 1 }.onComplete ec

/-- `map_error_code` and the completion behind it. -/
def finish (s : SslOp) (unread : Bool) : SslOp :=
  { s with ec := mapErrorCode s.ssl2 unread s.ec }.complete (mapErrorCode s.ssl2 unread s.ec)

/-- `while (!ec_)`, and what follows the loop. -/
def test (s : SslOp) (start : Bool) (ec : ErrorCode) (bytes : ℕ) (unread : Bool) : SslOp :=
  if s.ec.isError then s.finish unread else { s with place := .loop start ec bytes }

/-- `get_output`, and `asyn_send` of what it yields, if that is anything. -/
def flush (s : SslOp) : SslOp :=
  if s.bio = [] then { s with outputFlag := false }
  else
    { s with
      bio := s.bio.drop sslBufferSize
      sends := s.sends + 1
      sent := s.sent ++ s.bio.take sslBufferSize }

/-- The second `switch`. Only a receive brings `data`, which the transport has put behind the bytes
already in the input buffer. -/
def answer (s : SslOp) (ec : ErrorCode) (bytes : ℕ) (data : List Byte) (unread : Bool) : SslOp :=
  match s.want with
  | .inputAndRetry =>
    { s with
      inputFlag := false
      inputBuffer := s.inputBuffer ++ data
      place := .putting false ec bytes }
  | .outputAndRetry =>
    if s.bio = [] then s.flush.test false ec bytes unread else { s.flush with place := .returned }
  | .output =>
    if s.bio = [] then s.flush.finish unread else { s.flush with place := .returned }
  | .nothing => s.finish unread

/-- From the label `default` on: the first error is kept. -/
def resume (s : SslOp) (ec : ErrorCode) (bytes : ℕ) (data : List Byte) (unread : Bool) : SslOp :=
  { s with ec := if bytes ≠ 2 ^ 64 - 1 ∧ s.ec.isError = false then ec else s.ec }.answer
    ec bytes data unread

/-- `sync_compare_and_swap(&socket_.input_flag_, 0, 1)` and `asyn_recv_some`. -/
def receive (s : SslOp) : SslOp :=
  { s with
    asserted := s.asserted || s.inputFlag
    inputFlag := true
    receives := s.receives + 1
    place := .returned }

/-- `sync_compare_and_swap(&socket_.output_flag_, 0, 1)` and the first `get_output`. -/
def send (s : SslOp) : SslOp :=
  { { s with asserted := s.asserted || s.outputFlag, outputFlag := true }.flush with
    place := .returned }

/-- The inner `switch`, on what the engine wants. -/
def dispatch (s : SslOp) (start : Bool) (ec : ErrorCode) (bytes : ℕ) (unread : Bool) : SslOp :=
  match s.want with
  | .inputAndRetry =>
    if s.inputBuffer ≠ [] then { s with place := .putting start ec bytes } else s.receive
  | .outputAndRetry | .output => s.send
  | .nothing =>
    if start then { s with posts := s.posts + 1, place := .returned }
    else s.resume ec bytes [] unread

/-- What the engine answers in a state. -/
def outcome (s : SslOp) (c : SslCall) : Outcome :=
  s.kind.callEngine s.bio.length s.bytesTransferred c

/-- `want_ = op_(this, socket_.engine_, ec_, bytes_transferred_)`. -/
def callOp (s : SslOp) (c : SslCall) : SslOp :=
  { s with
    kind := s.kind.advance (s.outcome c).ec (s.outcome c).bytesTransferred
    want := (s.outcome c).want
    ec := (s.outcome c).ec
    bytesTransferred := (s.outcome c).bytesTransferred
    bio := s.bio ++ c.output
    accepted := s.accepted ++ s.kind.taken c.result.toNat
    produced := s.produced ++ c.output }

end SslOp

/-- What happens next: the engine answers a call, `put_input` takes `n` bytes, or one of
`receive_callback`, `send_callback` and `post_callback` runs. `unread` says whether the engine still
holds input if `map_error_code` comes to ask. -/
inductive SslEvent
  | engine (c : SslCall)
  | put (n : ℕ) (unread : Bool)
  | received (ec : ErrorCode) (data : List Byte) (unread : Bool)
  | sent (ec : ErrorCode) (bytes : ℕ) (unread : Bool)
  | posted
  deriving DecidableEq, Repr

namespace SslOp

/-- The operation as it is started, on a socket with no other operation. The earlier ones may have
left bytes in either buffer. -/
def start (kind : Kind) (inputBuffer bio : List Byte) (ssl2 : Bool) : SslOp :=
  { kind := kind, want := .nothing, ec := .noError, bytesTransferred := 0, inputFlag := false,
    inputBuffer := inputBuffer, outputFlag := false, bio := bio, ssl2 := ssl2,
    place := .loop true .noError 0, receives := 0, sends := 0, posts := 0, completions := 0,
    callbacks := [], asserted := false, accepted := [], produced := [], sent := [] }

/-- The transitions of an operation and its environment; `none` where a step cannot be taken. -/
def step (s : SslOp) : SslEvent → Option SslOp
  | .engine c =>
    match s.place with
    | .loop start ec bytes => some ((s.callOp c).dispatch start ec bytes c.unread)
    | _ => none
  | .put n unread =>
    match s.place with
    | .putting start ec bytes =>
      some ({ s with inputBuffer := s.inputBuffer.drop n }.test start ec bytes unread)
    | _ => none
  | .received ec data unread =>
    if s.place = .returned ∧ 0 < s.receives then
      some ({ s with receives := s.receives - 1 }.resume ec data.length data unread)
    else none
  | .sent ec bytes unread =>
    if s.place = .returned ∧ 0 < s.sends then
      some ({ s with sends := s.sends - 1 }.resume ec bytes [] unread)
    else none
  | .posted =>
    if s.place = .returned ∧ 0 < s.posts then
      some ({ s with posts := s.posts - 1 }.complete s.ec)
    else none

/-- What OpenSSL and its memory buffers are relied on for: an engine that asks for output has some,
and `put_input` takes at least one byte of those it is offered, and no more than these. -/
def Lawful (s : SslOp) : SslEvent → Prop
  | .engine c =>
    (s.outcome c).want = .output ∨ (s.outcome c).want = .outputAndRetry → s.bio ++ c.output ≠ []
  | .put n _ => n ≤ s.inputBuffer.length ∧ (s.inputBuffer ≠ [] → 0 < n)
  | _ => True

instance (s : SslOp) (e : SslEvent) : Decidable (s.Lawful e) := by
  cases e <;> unfold Lawful <;> infer_instance

/-- The operation has one way to go on. -/
structure Continues (s : SslOp) : Prop where
  /-- When `io_operation` has returned, the operation has been completed, or one transport operation
  or posted callback refers to it: one of these, and once. -/
  one : s.place = .returned → s.completions + s.receives + s.sends + s.posts = 1
  /-- Until then there is nothing of the kind. -/
  running : s.place ≠ .returned → s.completions + s.receives + s.sends + s.posts = 0
  /-- The flags say which transport operation is outstanding. -/
  input : s.receives = if s.inputFlag then 1 else 0
  output : s.sends = if s.outputFlag then 1 else 0
  /-- No assertion fails. -/
  safe : s.asserted = false
  /-- The caller's callback runs with the completion that is not followed by a new start. -/
  once : s.callbacks.length = s.completions

end SslOp

end JnetLib.Ssl
