import JnetLib.Foundation.Transition
import JnetLib.Http.Parsing
import JnetLib.Http.Request

/-!
# Receiving requests, one result after the other

`receive_callback` gives the parser what the transport has brought, or what the previous result left
over: the leftover travels through the result to the caller and from there into the next call, whose
first receive then asks for no bytes at all. Here is an `http_socket` together with the operation on
it, the memory it works in, and what its transport does; a step is a call of `asyn_receive_request`
or a completion.

The parser is any that implements `HttpParser`. `NothingLost` is what is promised of the bytes.
-/

namespace JnetLib.Http

/-! ### Memory -/

/-- The `n` bytes at `a`. -/
def read (m : ℕ → Byte) (a n : ℕ) : List Byte := (List.range n).map fun i ↦ m (a + i)

/-- The memory with `data` at `a`. -/
def write (m : ℕ → Byte) (a : ℕ) (data : List Byte) : ℕ → Byte := fun x ↦
  if a ≤ x then data[x - a]?.getD (m x) else m x

@[simp]
theorem read_zero (m : ℕ → Byte) (a : ℕ) : read m a 0 = [] :=
  rfl

@[simp]
theorem length_read (m : ℕ → Byte) (a n : ℕ) : (read m a n).length = n := by
  simp [read]

@[simp]
theorem write_nil (m : ℕ → Byte) (a : ℕ) : write m a [] = m := by
  funext x
  simp [write]

/-- What has been written can be read. -/
theorem read_write (m : ℕ → Byte) (a : ℕ) (data : List Byte) :
    read (write m a data) a data.length = data := by
  refine List.ext_getElem (length_read _ _ _) fun i h₁ h₂ ↦ ?_
  simp [read, write, h₂]

/-- Reading on from where the first `n` bytes end. -/
theorem drop_read (m : ℕ → Byte) (a n k : ℕ) : (read m a n).drop k = read m (a + k) (n - k) := by
  refine List.ext_getElem (by simp) fun i h₁ h₂ ↦ ?_
  simp [read, Nat.add_assoc]

/-! ### The socket -/

/-- Where the socket is: no request has been received yet, a receive of at most `len` bytes into
`buffer` is outstanding, the callback has run with a result, or with an error. -/
inductive Phase
  | fresh
  | receiving (op : RequestOp) (buffer len : ℕ)
  | delivered
  | failed (ec : ErrorCode)

/-- The callback has run with a result. -/
def Phase.isDelivered : Phase → Bool
  | .delivered => true
  | _ => false

theorem Phase.eq_delivered {p : Phase} (h : p.isDelivered = true) : p = .delivered := by
  cases p with
  | delivered => rfl
  | _ => cases h

/-- An `http_socket` with its parser, the memory, and the last result. Besides, the bytes received
and the bytes the parser has consumed since the beginning, and where, among the latter, the messages
end that the parser has come to the end of in the last call. -/
structure Reception (P : Type*) where
  parser : P
  memory : ℕ → Byte
  phase : Phase
  result : Result
  received : List Byte
  consumed : List Byte
  ends : List ℕ

/-- A call of `asyn_receive_request` with the leftover of the last result, or the completion of the
outstanding receive. -/
inductive ReceptionEvent
  | call (continuous : Bool) (request : Request) (buf bufLen lastFieldOrValue : ℕ)
  | received (ec : ErrorCode) (data : List Byte)

namespace Reception

variable {P : Type*} [HttpParser P]

/-- `http_request_op::do_request_operation`. -/
def doRequestOperation (s : Reception P) (op : RequestOp) : Reception P :=
  if op.initBufLen ≠ 0 then { s with phase := .receiving op op.initBuf 0, ends := [] }
  else { s with phase := .receiving op op.buf op.bufLen, ends := [] }

/-- The request callback, after an error. -/
def fail (s : Reception P) (ec : ErrorCode) (buffer bytes : ℕ) : Reception P :=
  { s with phase := .failed ec, result := .new .dat none buffer bytes }

/-- The request callback, with what is left over behind the `nparsed` bytes the parser has
consumed. -/
def deliver (s : Reception P) (op : RequestOp) (buffer bytes nparsed : ℕ) : Reception P :=
  { s with
    phase := .delivered
    result := { op.result with
      remainLength := bytes - nparsed
      remainBuffer := if bytes - nparsed ≠ 0 then buffer + nparsed else 0 } }

/-- The positions of the ends of messages among the callbacks made. -/
def endsOf (base : ℕ) (l : List (Callback × ℕ)) : List ℕ :=
  l.filterMap fun c ↦ if c.1 = .messageComplete then some (base + c.2) else none

/-- `receive_callback` from `http_parser_execute` on. -/
def execute (s : Reception P) (op : RequestOp) (buffer bytes : ℕ) : Reception P :=
  let data := read s.memory buffer bytes
  let r := HttpParser.execute s.parser (op.answers buffer) data
  let op := op.handleAll buffer (r.2.2.map Prod.fst)
  let err := if upgrade r.1 then HttpErrno.unknown else errno r.1
  let s := { s with
    parser := r.1
    consumed := s.consumed ++ data.take r.2.1
    ends := s.ends ++ endsOf s.consumed.length r.2.2 }
  if err ≠ .ok ∧ err ≠ .paused then s.fail ⟨err.code, .http⟩ buffer bytes
  else if op.messageComplete ∨ err = .paused then s.deliver op buffer bytes r.2.1
  else { s with phase := .receiving op op.buf op.bufLen }

/-- `http_request_op::receive_callback`. -/
def receiveCallback (s : Reception P) (op : RequestOp) (ec : ErrorCode) (bytes buffer : ℕ) :
    Reception P :=
  let bytes := if op.initBufLen ≠ 0 then op.initBufLen else bytes
  let op := { op with initBufLen := 0 }
  if ec.isError then s.fail ec buffer bytes
  else
    { s with
      parser := if errno s.parser = HttpErrno.paused then unpause s.parser else s.parser }.execute
      op buffer bytes

/-- A socket whose parser is `parser`, with the result a caller starts with. -/
def start (parser : P) (memory : ℕ → Byte) : Reception P :=
  ⟨parser, memory, .fresh, .new .fin none 0 0, [], [], []⟩

/-- The transitions of a socket; `none` where a step cannot be taken. The next call comes after a
result, and the transport brings at most as many bytes as it has been asked for. -/
def step (s : Reception P) : ReceptionEvent → Option (Reception P)
  | .call continuous request buf bufLen lastFieldOrValue =>
    match s.phase with
    | .fresh | .delivered =>
      some (s.doRequestOperation (.new continuous request buf bufLen s.result.remainBuffer
        s.result.remainLength lastFieldOrValue))
    | _ => none
  | .received ec data =>
    match s.phase with
    | .receiving op buffer len =>
      if data.length ≤ len then
        some ({ s with
          memory := write s.memory buffer data
          received := s.received ++ data }.receiveCallback op ec data.length buffer)
      else none
    | _ => none

/-! ### One step at a time -/

/-- The parser as `receive_callback` hands it the bytes. -/
def ready (s : Reception P) : P :=
  if errno s.parser = HttpErrno.paused then unpause s.parser else s.parser

/-- What the parser is called with in a step: the buffer, the operation, and the bytes. -/
def input (s : Reception P) : ReceptionEvent → Option (ℕ × RequestOp × List Byte)
  | .call _ _ _ _ _ => none
  | .received ec data =>
    match s.phase with
    | .receiving op buffer _ =>
      if ec.isError then none
      else
        some (buffer, { op with initBufLen := 0 }, read (write s.memory buffer data) buffer
          (if op.initBufLen ≠ 0 then op.initBufLen else data.length))
    | _ => none

/-- The callbacks the parser makes in a step, with their marks. -/
def calls (s : Reception P) (e : ReceptionEvent) : List (Callback × ℕ) :=
  match s.input e with
  | none => []
  | some (buffer, op, data) => (HttpParser.execute s.ready (op.answers buffer) data).2.2

/-! ### What is promised -/

/-- No byte is lost and none is parsed twice. -/
structure NothingLost (s : Reception P) : Prop where
  /-- What has been consumed, followed by what the last result leaves over, is what has been
  received. -/
  delivered : s.phase = .delivered →
    s.consumed ++ read s.memory s.result.remainBuffer s.result.remainLength = s.received
  /-- While the leftover waits, the receive that is outstanding takes nothing. -/
  pending : ∀ op buffer len, s.phase = .receiving op buffer len → op.initBufLen ≠ 0 →
    len = 0 ∧ s.consumed ++ read s.memory op.initBuf op.initBufLen = s.received
  /-- A receive without leftover is started only when every earlier byte has been consumed. -/
  receiving : ∀ op buffer len, s.phase = .receiving op buffer len → op.initBufLen = 0 →
    s.consumed = s.received
  /-- The parser has not gone beyond the end of a message. -/
  ends : (∀ ec, s.phase ≠ .failed ec) → ∀ k ∈ s.ends, s.consumed.length ≤ k
  /-- Where the result is a `fin`, the parser has come to the end of a message, if nothing but a
  callback pauses it. -/
  fin : OnlyCallbacksPause P → s.phase = .delivered → s.result.type = .fin → s.ends ≠ []

end Reception

end JnetLib.Http
