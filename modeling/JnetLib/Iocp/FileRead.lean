import JnetLib.Epoll.ReadLine
import JnetLib.Iocp.ReadLine

/-!
# Reading a file on the IOCP backend

`read_op` and `read_line_op` over a file: `file_ops::read` takes the file's pointer as the offset of
the overlapped `ReadFile`, and the completion moves the pointer over what was consumed. `read_op`
makes a single call for its whole length; `read_line_op` makes one for each chunk.

Who delivers a packet is left to `Iocp/Routine`; here each completion is delivered once, and the
next call is made by it.
-/

namespace JnetLib.Iocp

open JnetLib.File

open Epoll (OpenFile Outcome)

/-- Where a file operation is: handed to `service::read` for a number of bytes, completed by the
system, or called back. -/
inductive FilePlace
  | issued (bytes : ℕ)
  | completed (ec : ErrorCode) (n : ℕ)
  | finished (ec : ErrorCode) (n : ℕ)
  deriving DecidableEq, Repr

/-- One operation, the caller's memory as far as it has been written, and the file with its
pointer. -/
structure FileState (ω : Type) where
  op : ω
  memory : List Byte
  file : OpenFile
  place : FilePlace
  deriving DecidableEq, Repr

/-- The system's answer to a read, or the dispatch of its completion. -/
inductive FileEvent
  | kernel (o : Outcome)
  | dispatch
  deriving DecidableEq, Repr

/-- What `ReadFile` answers when it reads all it can: at the end of the file it fails. -/
def readFile (requested left : ℕ) : Outcome :=
  if left = 0 then .fail ERROR_HANDLE_EOF else .bytes (min requested left)

/-- The error code of a completed `ReadFile`. -/
def completionError : Outcome → ErrorCode
  | .bytes _ => .system 0
  | .fail e => .system e

namespace FileState

variable {ω : Type}

/-- `service::read` and the completion of its `ReadFile`, which writes at `pos`. The length is
passed as a `DWORD`. A read of no bytes is completed without a call. -/
def serviceRead (s : FileState ω) (pos bytes : ℕ) (o : Outcome) : FileState ω :=
  if bytes = 0 then { s with place := .completed .noError 0 }
  else
    let d := s.file.rest.take o.moved
    { s with
      memory := s.memory.take pos ++ d ++ s.memory.drop (pos + d.length)
      place := .completed (completionError o) o.moved }

/-- What an operation that reads at `pos` does with the answer of the system, and with its
completion. -/
def step (pos : ω → ℕ) (complete : FileState ω → ErrorCode → ℕ → Option (FileState ω))
    (s : FileState ω) : FileEvent → Option (FileState ω)
  | .kernel o =>
    match s.place with
    | .issued bytes =>
      if o.Legal (min (toUInt32 bytes) s.file.rest.length) then
        some (s.serviceRead (pos s.op) bytes o)
      else none
    | _ => none
  | .dispatch =>
    match s.place with
    | .completed ec n => complete s ec n
    | _ => none

/-- The system reads all it can. -/
def Full (s : FileState ω) : FileEvent → Prop
  | .kernel o => ∀ bytes, s.place = .issued bytes → o = readFile (toUInt32 bytes) s.file.rest.length
  | .dispatch => True

/-- `file_ops::seek` by what was consumed. -/
def moveBy (s : FileState ω) (n : ℕ) : FileState ω :=
  { s with file := { s.file with offset := s.file.offset + n } }

end FileState

/-- `read_op`. -/
structure ReadOp where
  length : ℕ
  deriving DecidableEq, Repr

namespace ReadOp

/-- `read_op::on_complete`. -/
def onComplete (s : FileState ReadOp) (ec : ErrorCode) (n : ℕ) : Option (FileState ReadOp) :=
  some { s.moveBy n with place := .finished (if ec.value = ERROR_HANDLE_EOF then .eof else ec) n }

/-- The transitions of a read. -/
def step : FileState ReadOp → FileEvent → Option (FileState ReadOp) :=
  FileState.step (fun _ ↦ 0) onComplete

/-- `asyn_read` on a file. -/
def asynRead (file : OpenFile) (len : ℕ) : FileState ReadOp := ⟨⟨len⟩, [], file, .issued len⟩

end ReadOp

namespace ReadLineOp

/-- The operation and the file's pointer moved on, and what was decided. -/
def decided (s : FileState ReadLineOp) (r : ReadLineOp × Verdict) : FileState ReadLineOp :=
  { s.moveBy (r.1.filePos - s.op.filePos) with
    op := r.1
    place := match r.2 with
      | .finish ec n => .finished ec n
      | .again requested => .issued requested }

/-- `read_line_op::on_complete` on what the caller's memory holds. -/
def onCompleteIn (s : FileState ReadLineOp) (ec : ErrorCode) (n : ℕ) :
    Option (FileState ReadLineOp) :=
  (s.op.onComplete ((s.memory.drop s.op.bufferPos).take n) ec n).map (decided s)

/-- The transitions of the reading of a line. -/
def step : FileState ReadLineOp → FileEvent → Option (FileState ReadLineOp) :=
  FileState.step ReadLineOp.bufferPos onCompleteIn

/-- `asyn_read_line` on a file. -/
def asynReadLine (file : OpenFile) (len : ℕ) (eol : List Byte) (incEol : Bool) :
    FileState ReadLineOp :=
  ⟨.new len eol incEol, [], file, .issued (ReadLineOp.new len eol incEol).requested⟩

end ReadLineOp

namespace ReadLineOp

variable {op : ReadLineOp} {ec : ErrorCode} {n found last : ℕ}

/-- The line ends in the chunk. -/
theorem afterSearch_found (h : found < n) (hl : 0 < op.eol.length) :
    op.afterSearch ec n found last =
      (op.advance (found + op.eol.length),
        .finish ec (op.bufferPos + (found + op.eol.length) -
          if op.incEol then 0 else op.eol.length)) := by
  have h' : found < found + op.eol.length := by omega
  simp only [afterSearch, h, h', if_true]
  rfl

/-- The line does not end in the chunk. -/
theorem afterSearch_missing (h : ¬found < n) :
    op.afterSearch ec n found last =
      if op.remainLength - (n - last) == 0 ||
          n - last != maxReadBufferSize && op.remainLength - (n - last) != 0 then
        (op.advance (n - last), .finish .eof (op.bufferPos + (n - last)))
      else (op.advance (n - last), .again (op.advance (n - last)).requested) := by
  have h' : ¬found < n - last := by omega
  simp only [afterSearch, h, h', if_false]
  rfl

/-- What is looked for stays. -/
theorem afterSearch_eol : (op.afterSearch ec n found last).1.eol = op.eol := by
  unfold afterSearch
  dsimp only
  generalize (if found < n then found + op.eol.length else n - last) = bytes
  split
  · rfl
  · split <;> rfl

/-- No bytes: the completion's error code is reported, the system's end of file as the frame's. -/
theorem onComplete_of_zero (op : ReadLineOp) (d : List Byte) (ec : ErrorCode) :
    op.onComplete d ec 0 =
      some (op, .finish (if ec.value = ERROR_HANDLE_EOF then .eof else ec) op.bufferPos) := by
  simp [onComplete]

/-- Bytes read without error are searched. -/
theorem onComplete_of_bytes {d : List Byte} (hec : ec.isError = false) (hn : 0 < n)
    (hd : d.length = n) :
    op.onComplete d ec n = (findEol d op.eol).map fun r ↦ op.afterSearch ec n r.1 r.2 := by
  have hne : (n == 0) = false := beq_false_of_ne (by omega)
  simp [onComplete, hec, hne, hd]

end ReadLineOp

namespace FileState

variable {ω : Type} {pos : ω → ℕ}
  {complete : FileState ω → ErrorCode → ℕ → Option (FileState ω)}

theorem Full.dispatch (s : FileState ω) : s.Full .dispatch :=
  trivial

/-- With full reads the state determines what is next. -/
theorem full_unique {s t u : FileState ω} {a b : FileEvent} (ha : s.Full a) (hb : s.Full b)
    (ht : step pos complete s a = some t) (hu : step pos complete s b = some u) : a = b := by
  rcases hp : s.place with bytes | ⟨ec, n⟩ | ⟨ec, n⟩
  · cases a with
    | dispatch => simp [step, hp] at ht
    | kernel o =>
      cases b with
      | dispatch => simp [step, hp] at hu
      | kernel o' => rw [ha bytes hp, hb bytes hp]
  · cases a with
    | kernel o => simp [step, hp] at ht
    | dispatch =>
      cases b with
      | kernel o' => simp [step, hp] at hu
      | dispatch => rfl
  · cases a <;> simp [step, hp] at ht

theorem step_of_finished {s : FileState ω} {ec : ErrorCode} {n : ℕ} (h : s.place = .finished ec n)
    (e : FileEvent) : step pos complete s e = none := by
  cases e <;> simp [step, h]

/-- A full read. -/
theorem step_kernel {s : FileState ω} {bytes : ℕ} (h : s.place = .issued bytes) :
    s.Full (.kernel (readFile (toUInt32 bytes) s.file.rest.length)) ∧
      step pos complete s (.kernel (readFile (toUInt32 bytes) s.file.rest.length)) =
        some (s.serviceRead (pos s.op) bytes (readFile (toUInt32 bytes) s.file.rest.length)) := by
  have hlegal : (readFile (toUInt32 bytes) s.file.rest.length).Legal
      (min (toUInt32 bytes) s.file.rest.length) := by
    rw [readFile]
    split
    · show ERROR_HANDLE_EOF ≠ 0
      decide
    · exact Nat.le_refl _
  refine ⟨fun b hb ↦ ?_, ?_⟩
  · obtain rfl : bytes = b := by simpa [h] using hb
    rfl
  · simp only [step, h, hlegal, if_true]

end FileState

end JnetLib.Iocp
