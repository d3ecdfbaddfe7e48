import JnetLib.Epoll.ReadLine
import JnetLib.File.Write

/-!
# Reading and writing a file on the epoll backend

`write_op` and `read_op` go the same way: the file worker calls `do_write` or `do_read`, which moves
at most 64 KiB at the descriptor's offset, and the dispatched `on_complete` queues the operation
again for what is left, or calls back. `FileState.step` is that way, with the two functions as
parameters.

Each `::write` may accept, and each `::read` may return, less than it was asked for (`Short`). What
a whole operation comes to is the matter of `Written` and `ReadBack`.
-/

namespace JnetLib.Epoll

namespace OpenFile

/-- `::write` on a regular file: the bytes replace what is behind the offset, and a gap between the
end of the file and the offset is filled with zeros. -/
def write (f : OpenFile) (bytes : List Byte) : OpenFile :=
  if bytes = [] then f
  else
    ⟨f.content.take f.offset ++ List.replicate (f.offset - f.content.length) 0 ++ bytes ++
      f.content.drop (f.offset + bytes.length), f.offset + bytes.length⟩

/-- `file_ops::seek` with `from_beginning`; a position before the start is refused. -/
def seekBeginning (f : OpenFile) (distance : ℤ) : OpenFile :=
  if 0 ≤ distance then { f with offset := distance.toNat } else f

end OpenFile

/-- `service::write`. -/
def serviceWrite (bytes : ℕ) (o : Outcome) : ErrorCode × ℕ := transfer (min bytes SSIZE_MAX) o

/-- Where a file operation is: queued for the file worker or on it, in `completed_ops_`, or called
back with an error code and a count. -/
inductive FilePlace
  | queued
  | completed
  | finished (ec : ErrorCode) (n : ℕ)
  deriving DecidableEq, Repr

/-- One operation and its file. -/
structure FileState (ω : Type) where
  op : ω
  file : OpenFile
  place : FilePlace
  deriving DecidableEq, Repr

/-- The worker's turn, with the answer to the system call it may lead to, or a dispatch. -/
inductive FileEvent
  | worker (o : Outcome)
  | dispatch
  deriving DecidableEq, Repr

namespace FileState

variable {ω : Type}

/-- What an operation whose system call moves at most `room` bytes does in its worker function and
in its completion. -/
def step (room : ω → OpenFile → ℕ) (work : ω → OpenFile → Outcome → FileState ω)
    (complete : ω → OpenFile → FileState ω) (s : FileState ω) : FileEvent → Option (FileState ω)
  | .worker o =>
    if s.place = .queued ∧ o.Legal (room s.op s.file) then some (work s.op s.file o) else none
  | .dispatch => if s.place = .completed then some (complete s.op s.file) else none

/-- The system call moves at least a byte where it can move one. -/
def Short (room : ω → OpenFile → ℕ) (s : FileState ω) : FileEvent → Prop
  | .worker o => ∃ k, o = .bytes k ∧ (0 < room s.op s.file → 0 < k)
  | .dispatch => True

/-- The system call moves all it can. -/
def Full (room : ω → OpenFile → ℕ) (s : FileState ω) : FileEvent → Prop
  | .worker o => o = .bytes (room s.op s.file)
  | .dispatch => True

section Rules

variable {room : ω → OpenFile → ℕ} {work : ω → OpenFile → Outcome → FileState ω}
    {complete : ω → OpenFile → FileState ω} {ok : FileState ω → FileEvent → Prop}
    {P : FileState ω → Prop} {s t : FileState ω}

/-- An operation that can be dispatched goes on by that and by nothing else. -/
theorem inevitable_of_dispatch (hok : ok s .dispatch)
    (hs : step room work complete s .dispatch = some t)
    (h : Transition.Inevitable (step room work complete) ok P t) :
    Transition.Inevitable (step room work complete) ok P s := by
  refine .later .dispatch hok hs fun a u ha hu ↦ ?_
  cases a with
  | worker o =>
    obtain ⟨hp, -⟩ := Option.ite_none_right_eq_some.1 hs
    obtain ⟨⟨hq, -⟩, -⟩ := Option.ite_none_right_eq_some.1 hu
    cases hp.symm.trans hq
  | dispatch =>
    obtain rfl := Option.some.inj (hs.symm.trans hu)
    exact h

/-- A queued operation goes on by its system call, which moves some `k` bytes. -/
theorem inevitable_of_worker {n : ℕ} (hp : s.place = .queued) (hn : n ≤ room s.op s.file)
    (hok : ok s (.worker (.bytes n))) (hshort : ∀ e, ok s e → Short room s e)
    (h : ∀ k, k ≤ room s.op s.file → (0 < room s.op s.file → 0 < k) →
      ∃ t, step room work complete s (.worker (.bytes k)) = some t ∧
        Transition.Inevitable (step room work complete) ok P t) :
    Transition.Inevitable (step room work complete) ok P s := by
  obtain ⟨m, hm, hpos⟩ := hshort _ hok
  obtain rfl := Outcome.bytes.inj hm
  obtain ⟨t, ht, -⟩ := h n hn hpos
  refine .later _ hok ht fun a u ha hu ↦ ?_
  cases a with
  | dispatch =>
    obtain ⟨hq, -⟩ := Option.ite_none_right_eq_some.1 hu
    cases hp.symm.trans hq
  | worker o =>
    obtain ⟨k, rfl, hpos⟩ := hshort _ ha
    obtain ⟨⟨-, hk⟩, -⟩ := Option.ite_none_right_eq_some.1 hu
    obtain ⟨t, ht, hend⟩ := h k hk hpos
    obtain rfl := Option.some.inj (ht.symm.trans hu)
    exact hend

end Rules

end FileState

/-- `write_op`: the caller's bytes and what is left of them. -/
structure WriteOp where
  base : Operation
  start : List Byte
  buffer : ConstBuffer
  deriving DecidableEq, Repr

namespace WriteOp

/-- The constructor. -/
def new (buf : List Byte) : WriteOp := ⟨.reset, buf, ⟨0, buf.length⟩⟩

/-- The number of bytes `do_write` asks for. -/
def requested (op : WriteOp) : ℕ := min op.buffer.len File.maxWriteBufferSize

/-- `write_op::do_write` and the worker's `on_completion`. -/
def doWrite (op : WriteOp) (file : OpenFile) (o : Outcome) : FileState WriteOp :=
  if 0 < op.requested then
    let r := serviceWrite op.requested o
    ⟨{ op with base := op.base.onCompletion r.1 r.2 },
      file.write ((op.start.drop op.buffer.buf).take o.moved), .completed⟩
  else ⟨{ op with base := op.base.onCompletion .noError 0 }, file, .completed⟩

/-- `write_op::on_complete`. -/
def onComplete (op : WriteOp) (file : OpenFile) : FileState WriteOp :=
  let ec := op.base.ec
  if !ec.isError then
    let op := { op with buffer := op.buffer.consume op.base.bytesTransferred }
    if op.buffer.len != 0 then ⟨{ op with base := .reset }, file, .queued⟩
    else ⟨op, file, .finished ec op.buffer.buf⟩
  else ⟨op, file, .finished ec op.buffer.buf⟩

/-- The transitions of a write. -/
def step : FileState WriteOp → FileEvent → Option (FileState WriteOp) :=
  FileState.step (fun op _ ↦ op.requested) doWrite onComplete

/-- `asyn_write` on a file. -/
def asynWrite (file : OpenFile) (buf : List Byte) : FileState WriteOp := ⟨.new buf, file, .queued⟩

end WriteOp

/-- `read_op`. `memory` is the memory from `buf_start_pos_` on as far as it has been written. -/
structure ReadOp where
  base : Operation
  memory : List Byte
  buffer : MutableBuffer
  deriving DecidableEq, Repr

namespace ReadOp

/-- The constructor. -/
def new (len : ℕ) : ReadOp := ⟨.reset, [], ⟨0, len, 0⟩⟩

/-- The number of bytes `do_read` asks for. -/
def requested (op : ReadOp) : ℕ := min op.buffer.remain maxReadBufferSize

/-- `bytes` written at `raw_pos()`. -/
def store (op : ReadOp) (bytes : List Byte) : List Byte :=
  op.memory.take op.buffer.buf ++ bytes ++ op.memory.drop (op.buffer.buf + bytes.length)

/-- `read_op::do_read` and the worker's `on_completion`. -/
def doRead (op : ReadOp) (file : OpenFile) (o : Outcome) : FileState ReadOp :=
  if 0 < op.requested then
    let r := serviceRead op.requested o
    ⟨{ op with
        memory := op.store (file.rest.take o.moved)
        base := op.base.onCompletion r.1 r.2 },
      { file with offset := file.offset + o.moved }, .completed⟩
  else ⟨{ op with base := op.base.onCompletion .noError 0 }, file, .completed⟩

/-- `read_op::on_complete`. -/
def onComplete (op : ReadOp) (file : OpenFile) : FileState ReadOp :=
  let bytes := op.base.bytesTransferred
  let ec := op.base.readerError
  let ec := if !ec.isError && bytes == 0 && decide (0 < op.buffer.remain) then .eof else ec
  if !ec.isError then
    let op := { op with buffer := op.buffer.append bytes }
    if 0 < op.buffer.remain then ⟨{ op with base := .reset }, file, .queued⟩
    else ⟨op, file, .finished ec op.buffer.len⟩
  else ⟨op, file, .finished ec op.buffer.len⟩

/-- What one `::read` can return at most. -/
def room (op : ReadOp) (file : OpenFile) : ℕ := min op.requested file.rest.length

/-- The transitions of a read. -/
def step : FileState ReadOp → FileEvent → Option (FileState ReadOp) :=
  FileState.step room doRead onComplete

/-- `asyn_read` on a file. -/
def asynRead (file : OpenFile) (len : ℕ) : FileState ReadOp := ⟨.new len, file, .queued⟩

end ReadOp

end JnetLib.Epoll
