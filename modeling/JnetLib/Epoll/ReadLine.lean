import JnetLib.Epoll.Operation
import JnetLib.File.EndOfLine
import JnetLib.Foundation.Transition

/-!
# Reading a line on the epoll backend

`read_line_op` reads a file in chunks of at most 64 KiB. The file worker calls `do_read`, which
`::read`s behind what the buffer already holds; the dispatched `on_complete` searches the chunk for
the end of the line, gives back by seeking what it read too much, and calls back or queues the next
chunk. A chunk that ends in a part of the end-of-line string gives that part back.

The end-of-file test that follows compares the byte count with the chunk size **after** the part
given back was subtracted, so a full chunk that ends in a part of the end-of-line string is taken
for the end of the file.

Here is what becomes of one chunk, if every `::read` returns all it can: without a part of the end
of the line at its end it leads to the next chunk (`runsTo_atChunk_succ`), and with one it ends the
operation (`finished_of_part`). A state then leaves nothing open (`fullRead_unique`), so there is
one run only. What a whole operation comes to is the matter of `FirstLine`, if there is the end of a
line, and of `LastLine`, if there is none; where it leaves the file is that of `NextLine`. All of
them use of the search only its specification, `findEol_spec`.
-/

namespace JnetLib.Epoll

open JnetLib.File

/-- An open regular file: its content and the descriptor's offset. -/
structure OpenFile where
  content : List Byte
  offset : ℕ
  deriving DecidableEq, Repr

/-- Conversion of a `size_t` computation to `long long`. -/
def toInt64 (z : ℤ) : ℤ := Int.bmod z (2 ^ 64)

namespace OpenFile

/-- `file_ops::seek` with `from_current`; a position before the start is refused. -/
def seekCurrent (f : OpenFile) (distance : ℤ) : OpenFile :=
  if 0 ≤ f.offset + distance then { f with offset := (f.offset + distance).toNat } else f

/-- The bytes from the offset on. -/
def rest (f : OpenFile) : List Byte := f.content.drop f.offset

end OpenFile

/-- `SSIZE_MAX`. -/
def SSIZE_MAX : ℕ := 2 ^ 63 - 1

/-- `service::read`. -/
def serviceRead (bytes : ℕ) (o : Outcome) : ErrorCode × ℕ := transfer (min bytes SSIZE_MAX) o

/-- `max_read_buffer_size`. -/
def maxReadBufferSize : ℕ := 65536

/-- `read_line_op`. `buffer` is the memory from `buffer_` on as far as it has been written, and
`bufferPos` is `buffer_pos_ - buffer_`. -/
structure ReadLineOp where
  base : Operation
  buffer : List Byte
  bufferPos : ℕ
  remainLength : ℕ
  eol : List Byte
  incEol : Bool
  deriving DecidableEq, Repr

/-- Where the operation is: queued for the file worker or on it, in `completed_ops_`, or called
back with an error code and a count. -/
inductive ReadLinePlace
  | queued
  | completed
  | finished (ec : ErrorCode) (n : ℕ)
  deriving DecidableEq, Repr

/-- One operation and its file. -/
structure ReadLineState where
  op : ReadLineOp
  file : OpenFile
  place : ReadLinePlace
  deriving DecidableEq, Repr

/-- The worker's turn, with the answer to the `::read` call it may lead to, or a dispatch. -/
inductive ReadLineEvent
  | worker (o : Outcome)
  | dispatch
  deriving DecidableEq, Repr

namespace ReadLineOp

/-- The constructor. -/
def new (len : ℕ) (eol : List Byte) (incEol : Bool) : ReadLineOp :=
  ⟨.reset, [], 0, len, eol, incEol⟩

/-- The number of bytes `do_read` asks for. -/
def requested (op : ReadLineOp) : ℕ := min op.remainLength maxReadBufferSize

/-- `bytes` written at `buffer_pos_`. -/
def store (op : ReadLineOp) (bytes : List Byte) : List Byte :=
  op.buffer.take op.bufferPos ++ bytes ++ op.buffer.drop (op.bufferPos + bytes.length)

/-- The chunk of `n` bytes at `buffer_pos_`. -/
def chunk (op : ReadLineOp) (n : ℕ) : List Byte := (op.buffer.drop op.bufferPos).take n

/-- `read_line_op::do_read` and the worker's `on_completion`. -/
def doRead (op : ReadLineOp) (file : OpenFile) (o : Outcome) : ReadLineState :=
  if 0 < op.requested then
    let r := serviceRead op.requested o
    let op := { op with
      buffer := op.store (file.rest.take o.moved)
      base := op.base.onCompletion r.1 r.2 }
    ⟨op, { file with offset := file.offset + o.moved }, .completed⟩
  else ⟨{ op with base := op.base.onCompletion .noError 0 }, file, .completed⟩

/-- The part of `read_line_op::on_complete` behind the search, from its answer on. -/
def afterSearch (op : ReadLineOp) (file : OpenFile) (ec : ErrorCode) (bytes found last : ℕ) :
    ReadLineState :=
  let file :=
    if found < bytes then file.seekCurrent (toInt64 (found + op.eol.length - bytes))
    else file.seekCurrent (toInt64 (-last))
  let bytes := if found < bytes then found + op.eol.length else bytes - last
  let op := { op with
    bufferPos := op.bufferPos + bytes
    remainLength := op.remainLength - bytes }
  if found < bytes then
    ⟨op, file, .finished ec (op.bufferPos - if op.incEol then 0 else op.eol.length)⟩
  else if op.remainLength == 0 || bytes != maxReadBufferSize && op.remainLength != 0 then
    ⟨op, file, .finished .eof op.bufferPos⟩
  else ⟨{ op with base := .reset }, file, .queued⟩

/-- `read_line_op::on_complete`; no result when the search leaves its arrays. -/
def onComplete (op : ReadLineOp) (file : OpenFile) : Option ReadLineState :=
  let bytes := op.base.bytesTransferred
  let ec := op.base.readerError
  let ec := if !ec.isError && bytes == 0 && decide (0 < op.remainLength) then .eof else ec
  if ec.isError || bytes == 0 then some ⟨op, file, .finished ec op.bufferPos⟩
  else (findEol (op.chunk bytes) op.eol).map fun r ↦ op.afterSearch file ec bytes r.1 r.2

end ReadLineOp

namespace ReadLineState

/-- `asyn_read_line` on a file. -/
def start (file : OpenFile) (len : ℕ) (eol : List Byte) (incEol : Bool) : ReadLineState :=
  ⟨.new len eol incEol, file, .queued⟩

/-- A step of the file worker or the completion. A `::read` returns at most what it was asked for
and what is left. -/
def step (s : ReadLineState) : ReadLineEvent → Option ReadLineState
  | .worker o =>
    if s.place = .queued ∧ o.Legal (min s.op.requested s.file.rest.length) then
      some (s.op.doRead s.file o)
    else none
  | .dispatch => if s.place = .completed then s.op.onComplete s.file else none

/-- The operation has called back. -/
def Finished (s : ReadLineState) : Prop := ∃ ec n, s.place = .finished ec n

/-- Each `::read` returns as many bytes as it can. -/
def FullRead (s : ReadLineState) : ReadLineEvent → Prop
  | .worker o => o = .bytes (min s.op.requested s.file.rest.length)
  | .dispatch => True

/-- The operation has called back without error, delivered `line` and left the file's offset at
`offset`. -/
def Delivered (line : List Byte) (offset : ℕ) (s : ReadLineState) : Prop :=
  ∃ ec, s.place = .finished ec line.length ∧ ec.isError = false ∧
    s.op.buffer.take line.length = line ∧ s.file.offset = offset

/-- From `s` on the operation calls back, and whenever it has called back `D` holds. -/
def Completes (s : ReadLineState) (D : ReadLineState → Prop) : Prop :=
  (∃ t, Transition.RunsTo step FullRead s t ∧ t.Finished) ∧
    ∀ t, Transition.RunsTo step FullRead s t → t.Finished → D t

end ReadLineState

/-! ### The boundaries of the chunks -/

/-- No full chunk that ends before the end of the line ends in a part of the end-of-line string. -/
def NoPartAtBoundary (F : List Byte) (p : ℕ) (eol : List Byte) (q : ℕ) : Prop :=
  ∀ j k, p + 65536 * (j + 1) < q + eol.length → 0 < k → k < eol.length →
    ¬eol.take k <:+ (F.drop (p + 65536 * j)).take 65536

section Boundary

variable {F eol : List Byte} {p q j : ℕ}

/-- If no chunk in front of chunk `j` ends in part of the end-of-line string, chunk `j` does not
begin inside the first occurrence of that string. -/
theorem boundary_le (hq : IsFirstFrom eol F p q)
    (hpart : ∀ i < j, ∀ k, 0 < k → k < eol.length →
      ¬eol.take k <:+ (F.drop (p + 65536 * i)).take 65536)
    (hj : p + 65536 * j < q + eol.length) : p + 65536 * j ≤ q := by
  induction j with
  | zero => exact hq.1
  | succ j ih =>
    have hle := ih (fun i hi ↦ hpart i (Nat.lt_succ_of_lt hi)) (by omega)
    by_contra hlt
    -- the chunk before the boundary would end in a part of the occurrence
    have hcut : p + 65536 * j + 65536 < q + eol.length := by
      rwa [Nat.mul_succ, ← Nat.add_assoc] at hj
    have hover := hq.2.1.isOverlap_slice hle (by omega) hcut
    obtain ⟨hk, hsuf⟩ := isOverlap_iff_isSuffix.1 hover
    exact hpart j (Nat.lt_succ_self j) _ (by omega) hk hsuf

end Boundary

/-! ### One chunk -/

theorem toInt64_of_le {z : ℤ} (h : -(2 ^ 63) ≤ z) (h' : z < 2 ^ 63) : toInt64 z = z := by
  have h1 : -((2 ^ 64 : ℕ) : ℤ) ≤ z * 2 := by omega
  have h2 : z * 2 < ((2 ^ 64 : ℕ) : ℤ) := by omega
  exact Int.bmod_eq_of_le_mul_two h1 h2

/-- Giving back `n` bytes moves the offset back by `n`. -/
theorem OpenFile.seekCurrent_neg (F : List Byte) (off n : ℕ) (h : n ≤ off) (hn : n < 2 ^ 63) :
    OpenFile.seekCurrent ⟨F, off⟩ (toInt64 (-n)) = ⟨F, off - n⟩ := by
  have hz : (off : ℤ) + -(n : ℤ) = ((off - n : ℕ) : ℤ) := by omega
  rw [toInt64_of_le (by omega) (by omega), seekCurrent]
  show (if (0 : ℤ) ≤ (off : ℤ) + -(n : ℤ) then _ else _) = _
  rw [if_pos (by omega)]
  show OpenFile.mk F ((off : ℤ) + -(n : ℤ)).toNat = _
  rw [hz]
  rfl

namespace ReadLineOp

variable {op : ReadLineOp} {file : OpenFile} {ec : ErrorCode} {bytes found last : ℕ}

/-- Bytes read without error are searched. -/
theorem onComplete_of_bytes (hec : op.base.readerError.isError = false)
    (hb : 0 < op.base.bytesTransferred) :
    op.onComplete file = (findEol (op.chunk op.base.bytesTransferred) op.eol).map fun r ↦
      op.afterSearch file op.base.readerError op.base.bytesTransferred r.1 r.2 := by
  have hne : (op.base.bytesTransferred == 0) = false := beq_false_of_ne (by omega)
  simp [onComplete, hec, hne]

/-- The line ends in the chunk. -/
theorem afterSearch_found (h : found < bytes) (hl : 0 < op.eol.length) :
    op.afterSearch file ec bytes found last =
      ⟨{ op with
          bufferPos := op.bufferPos + (found + op.eol.length)
          remainLength := op.remainLength - (found + op.eol.length) },
        file.seekCurrent (toInt64 (found + op.eol.length - bytes)),
        .finished ec (op.bufferPos + (found + op.eol.length) -
          if op.incEol then 0 else op.eol.length)⟩ := by
  have h' : found < found + op.eol.length := by omega
  simp only [afterSearch, h, h', if_true]

/-- The line does not end in the chunk. -/
theorem afterSearch_missing (h : ¬found < bytes) :
    op.afterSearch file ec bytes found last =
      if op.remainLength - (bytes - last) == 0 ||
          bytes - last != maxReadBufferSize && op.remainLength - (bytes - last) != 0 then
        ⟨{ op with
            bufferPos := op.bufferPos + (bytes - last)
            remainLength := op.remainLength - (bytes - last) },
          file.seekCurrent (toInt64 (-last)), .finished .eof (op.bufferPos + (bytes - last))⟩
      else
        ⟨{ op with
            base := .reset
            bufferPos := op.bufferPos + (bytes - last)
            remainLength := op.remainLength - (bytes - last) },
          file.seekCurrent (toInt64 (-last)), .queued⟩ := by
  have h' : ¬found < bytes - last := by omega
  simp only [afterSearch, h, h', if_false]

/-- A full chunk without the end of the line and without a part of it at its end: more is read. -/
theorem afterSearch_more (hf : found = bytes) (hl : last = 0) (hb : bytes = maxReadBufferSize)
    (hr : 0 < op.remainLength - bytes) :
    op.afterSearch file ec bytes found last =
      ⟨{ op with
          base := .reset
          bufferPos := op.bufferPos + bytes
          remainLength := op.remainLength - bytes },
        file.seekCurrent (toInt64 (-last)), .queued⟩ := by
  have hne : (op.remainLength - bytes == 0) = false := beq_false_of_ne (by omega)
  rw [afterSearch_missing (by omega), hl, Nat.sub_zero, hne, hb]
  simp only [bne_self_eq_false, Bool.false_and, Bool.false_or, Bool.false_eq_true, if_false]

/-- A full chunk that ends in a part of the end-of-line string is taken for the end of the file. -/
theorem afterSearch_part (hf : found = bytes) (hl : 0 < last) (hlb : last ≤ bytes)
    (hb : bytes = maxReadBufferSize) (hr : bytes ≤ op.remainLength) :
    (op.afterSearch file ec bytes found last).place =
      .finished .eof (op.bufferPos + (bytes - last)) := by
  have hne : (bytes - last != maxReadBufferSize) = true := by
    rw [bne_iff_ne]
    omega
  have hne' : (op.remainLength - (bytes - last) != 0) = true := by
    rw [bne_iff_ne]
    omega
  rw [afterSearch_missing (by omega), hne, hne', Bool.and_self, Bool.or_true, if_pos rfl]

/-- Nothing read while there is room: the end of the file. -/
theorem onComplete_of_zero (hec : op.base.readerError.isError = false)
    (hb : op.base.bytesTransferred = 0) (hr : 0 < op.remainLength) :
    op.onComplete file = some ⟨op, file, .finished .eof op.bufferPos⟩ := by
  simp [onComplete, hec, hb, hr]

end ReadLineOp

namespace ReadLineState

variable {F eol : List Byte} {p len q j c : ℕ} {incEol : Bool}

/-- The operation queued for its chunk `j`, all chunks before it taken whole. -/
def atChunk (F : List Byte) (p len : ℕ) (eol : List Byte) (incEol : Bool) (j : ℕ) : ReadLineState :=
  ⟨⟨.reset, (F.drop p).take (65536 * j), 65536 * j, len - 65536 * j, eol, incEol⟩,
    ⟨F, p + 65536 * j⟩, .queued⟩

/-- The operation that has resubmitted itself `j` times, with `c` bytes of chunk `j` read. -/
def readChunk (F : List Byte) (p len : ℕ) (eol : List Byte) (incEol : Bool) (j c : ℕ) :
    ReadLineState :=
  ⟨⟨Operation.reset.onCompletion (.system 0) c, (F.drop p).take (65536 * j + c), 65536 * j,
      len - 65536 * j, eol, incEol⟩,
    ⟨F, p + 65536 * j + c⟩, .completed⟩

theorem atChunk_zero : atChunk F p len eol incEol 0 = start ⟨F, p⟩ len eol incEol := by
  simp [atChunk, start, ReadLineOp.new]

/-- The worker's step on chunk `j`. -/
theorem step_atChunk (hc : c = min (min (len - 65536 * j) 65536) (F.length - (p + 65536 * j)))
    (hpos : 0 < c) :
    step (atChunk F p len eol incEol j) (.worker (.bytes c)) =
      some (readChunk F p len eol incEol j c) := by
  have hreq : (atChunk F p len eol incEol j).op.requested = min (len - 65536 * j) 65536 := rfl
  have hrest : (atChunk F p len eol incEol j).file.rest = F.drop (p + 65536 * j) := rfl
  have hlegal : (Outcome.bytes c).Legal (min (atChunk F p len eol incEol j).op.requested
      (atChunk F p len eol incEol j).file.rest.length) := by
    rw [hreq, hrest, List.length_drop]
    exact hc.le
  have hbuf : ((F.drop p).take (65536 * j)).length = 65536 * j := length_slice (by omega)
  have hlen : ((F.drop (p + 65536 * j)).take c).length = c := length_slice (by omega)
  rw [step, if_pos ⟨rfl, hlegal⟩, ReadLineOp.doRead, if_pos (by rw [hreq]; omega), hrest]
  have hstore : (atChunk F p len eol incEol j).op.store ((F.drop (p + 65536 * j)).take c) =
      (F.drop p).take (65536 * j + c) := by
    show ((F.drop p).take (65536 * j)).take (65536 * j) ++ (F.drop (p + 65536 * j)).take c ++
      ((F.drop p).take (65536 * j)).drop (65536 * j + ((F.drop (p + 65536 * j)).take c).length) = _
    have hdrop : ((F.drop p).take (65536 * j)).drop (65536 * j + c) = [] :=
      List.drop_eq_nil_of_le (by omega)
    rw [hlen, List.take_of_length_le (by omega), hdrop, List.append_nil, slice_add]
  simp only [Outcome.moved_bytes, hstore]
  rfl

/-- The dispatch after it searches the chunk. -/
theorem step_readChunk (hpos : 0 < c) (hc : c ≤ 65536) :
    step (readChunk F p len eol incEol j c) .dispatch =
      (findEol ((F.drop (p + 65536 * j)).take c) eol).map fun r ↦
        (readChunk F p len eol incEol j c).op.afterSearch ⟨F, p + 65536 * j + c⟩ (.system 0) c
          r.1 r.2 := by
  have hbytes : (readChunk F p len eol incEol j c).op.base.bytesTransferred = c :=
    toUInt32_of_lt (by omega)
  have hec : (readChunk F p len eol incEol j c).op.base.readerError = .system 0 :=
    Operation.readerError_of_clear rfl
  have hchunk : (readChunk F p len eol incEol j c).op.chunk c =
      (F.drop (p + 65536 * j)).take c := by
    show (((F.drop p).take (65536 * j + c)).drop (65536 * j)).take c = _
    rw [List.drop_take, Nat.add_sub_cancel_left, List.take_take, Nat.min_self, List.drop_drop]
  have hplace : (readChunk F p len eol incEol j c).place = .completed := rfl
  rw [step, if_pos hplace, ReadLineOp.onComplete_of_bytes (by rw [hec]; rfl)
    (by rw [hbytes]; exact hpos), hbytes, hec, hchunk]
  rfl

theorem FullRead.dispatch (s : ReadLineState) : FullRead s .dispatch :=
  trivial

/-- The worker reads all it can. -/
theorem runsTo_of_readChunk {t : ReadLineState}
    (hc : c = min (min (len - 65536 * j) 65536) (F.length - (p + 65536 * j))) (hpos : 0 < c)
    (ht : Transition.RunsTo step FullRead (readChunk F p len eol incEol j c) t) :
    Transition.RunsTo step FullRead (atChunk F p len eol incEol j) t := by
  have hfull : FullRead (atChunk F p len eol incEol j) (.worker (.bytes c)) := by
    show Outcome.bytes c =
      .bytes (min (min (len - 65536 * j) 65536) (F.drop (p + 65536 * j)).length)
    rw [hc, List.length_drop]
  exact .head hfull (step_atChunk hc hpos) ht

/-- The line with or without its end, read off the file. -/
theorem line_eq (hq : IsFirstFrom eol F p q) :
    (F.drop p).take (q - p) ++ (if incEol then eol else []) =
      (F.drop p).take (q - p + if incEol then eol.length else 0) := by
  obtain ⟨hpq, hocc, -⟩ := hq
  cases incEol with
  | false => simp
  | true =>
    have heol : eol = (F.drop q).take eol.length :=
      List.prefix_iff_eq_take.1 ((occursAt_iff_isPrefix (by have := hocc.1; omega)).1 hocc)
    have hpos : p + (q - p) = q := by omega
    rw [if_pos rfl, if_pos rfl, slice_add, hpos, ← heol]

/-- The chunk that holds the end of the line delivers it. -/
theorem delivered_of_dispatch (len : ℕ) (incEol : Bool) (h2 : 2 ≤ eol.length)
    (hq : IsFirstFrom eol F p q) (haq : p + 65536 * j ≤ q)
    (hqc : q + eol.length ≤ p + 65536 * j + c)
    (hcF : p + 65536 * j + c ≤ F.length) (hc : c ≤ 65536) :
    ∃ t, step (readChunk F p len eol incEol j c) .dispatch = some t ∧
      t.Delivered ((F.drop p).take (q - p) ++ if incEol then eol else []) (q + eol.length) := by
  have hlen : ((F.drop (p + 65536 * j)).take c).length = c := length_slice hcF
  obtain ⟨r, hr, hsearch⟩ := findEol_spec ((F.drop (p + 65536 * j)).take c) h2 (by omega)
    (by omega)
  have hhere : OccursAt eol ((F.drop (p + 65536 * j)).take c) (q - (p + 65536 * j)) := by
    have hpos : p + 65536 * j + (q - (p + 65536 * j)) = q := by omega
    rw [occursAt_slice hcF, hpos]
    exact ⟨by omega, hq.2.1⟩
  have hfound : r.1 = q - (p + 65536 * j) := by
    cases hsearch with
    | missing _ none _ => exact absurd hhere (none _)
    | found h first =>
      rcases Nat.lt_trichotomy r.1 (q - (p + 65536 * j)) with hlt | heq | hgt
      · exact absurd ((occursAt_slice hcF).1 h).2 (hq.2.2 _ (by omega) (by omega))
      · exact heq
      · exact absurd hhere (first _ hgt)
  have hlength : ((F.drop p).take (q - p) ++ if incEol then eol else []).length =
      q - p + if incEol then eol.length else 0 := by
    rw [line_eq hq, length_slice]
    split <;> omega
  rw [step_readChunk (by omega) hc, hr, Option.map_some,
    ReadLineOp.afterSearch_found (by omega) (by show 0 < eol.length; omega)]
  refine ⟨_, rfl, .system 0, ?_, rfl, ?_, ?_⟩
  · rw [hlength, hfound]
    show ReadLinePlace.finished _ (65536 * j + (q - (p + 65536 * j) + eol.length) -
      if incEol then 0 else eol.length) = _
    congr 1
    split <;> omega
  · rw [hlength, line_eq hq]
    show ((F.drop p).take (65536 * j + c)).take _ = _
    rw [List.take_take, Nat.min_eq_left]
    split <;> omega
  · have hback : (r.1 : ℤ) + eol.length - c = -((c - (r.1 + eol.length) : ℕ) : ℤ) := by
      omega
    have hseek := OpenFile.seekCurrent_neg F (p + 65536 * j + c) (c - (r.1 + eol.length))
      (by omega) (by omega)
    show (OpenFile.seekCurrent ⟨F, p + 65536 * j + c⟩
      (toInt64 (((r.1 : ℕ) : ℤ) + (eol.length : ℤ) - (c : ℤ)))).offset = _
    rw [hback, hseek]
    show p + 65536 * j + c - (c - (r.1 + eol.length)) = q + eol.length
    omega

/-- A full chunk that ends before the end of the line: the search finds nothing and knows the
longest part of the end-of-line string the chunk ends in. -/
theorem findEol_of_short (h2 : 2 ≤ eol.length) (hw : eol.length < 2 ^ 31)
    (hq : IsFirstFrom eol F p q) (hcut : p + 65536 * (j + 1) < q + eol.length) :
    ∃ last, findEol ((F.drop (p + 65536 * j)).take 65536) eol = some (65536, last) ∧
      IsLongestOverlap eol ((F.drop (p + 65536 * j)).take 65536) last := by
  have hle := hq.2.1.1
  have hcF : p + 65536 * j + 65536 ≤ F.length := by omega
  have hlen : ((F.drop (p + 65536 * j)).take 65536).length = 65536 := length_slice hcF
  obtain ⟨r, hr, hsearch⟩ := findEol_spec ((F.drop (p + 65536 * j)).take 65536) h2 hw
    (by omega)
  cases hsearch with
  | found h _ =>
    obtain ⟨hin, hocc⟩ := (occursAt_slice hcF).1 h
    exact absurd hocc (hq.2.2 _ (by omega) (by omega))
  | missing h _ last => exact ⟨r.2, by rw [hr, ← hlen, ← h], last⟩

/-- A full chunk of which nothing is given back leaves the operation queued for the next one. -/
theorem afterSearch_readChunk (hroom : 65536 * (j + 1) < len) :
    (readChunk F p len eol incEol j 65536).op.afterSearch ⟨F, p + 65536 * j + 65536⟩ (.system 0)
      65536 65536 0 = atChunk F p len eol incEol (j + 1) := by
  have hback := OpenFile.seekCurrent_neg F (p + 65536 * j + 65536) 0 (Nat.zero_le _) (by omega)
  have hrem : 0 < (readChunk F p len eol incEol j 65536).op.remainLength - 65536 := by
    show 0 < len - 65536 * j - 65536
    omega
  have hsize : 65536 = maxReadBufferSize := rfl
  have hsucc : 65536 * (j + 1) = 65536 * j + 65536 := Nat.mul_succ _ _
  rw [ReadLineOp.afterSearch_more rfl rfl hsize hrem, hback]
  simp only [atChunk, readChunk, hsucc, Nat.sub_sub, Nat.add_assoc, Nat.sub_zero]

/-- **A chunk without a part at its end** leads to the next one. -/
theorem runsTo_atChunk_succ {t : ReadLineState} (h2 : 2 ≤ eol.length) (hw : eol.length < 2 ^ 31)
    (hq : IsFirstFrom eol F p q) (hlen : q + eol.length ≤ p + len)
    (hcut : p + 65536 * (j + 1) < q + eol.length)
    (hpart : ∀ k, 0 < k → k < eol.length →
      ¬eol.take k <:+ (F.drop (p + 65536 * j)).take 65536)
    (ht : Transition.RunsTo step FullRead (atChunk F p len eol incEol (j + 1)) t) :
    Transition.RunsTo step FullRead (atChunk F p len eol incEol j) t := by
  have hle := hq.2.1.1
  obtain ⟨last, hr, hover⟩ := findEol_of_short h2 hw hq hcut
  obtain rfl : last = 0 := by
    by_contra hne
    obtain ⟨hk, hsuf⟩ := isOverlap_iff_isSuffix.1 hover.1
    exact hpart last (by omega) hk hsuf
  have hnext : step (readChunk F p len eol incEol j 65536) .dispatch =
      some (atChunk F p len eol incEol (j + 1)) := by
    have hroom : 65536 * (j + 1) < len := Nat.lt_of_add_lt_add_left (hcut.trans_le hlen)
    rw [step_readChunk (by omega) (Nat.le_refl _), hr, Option.map_some, afterSearch_readChunk hroom]
  exact runsTo_of_readChunk (by omega) (by omega) (.head (FullRead.dispatch _) hnext ht)

/-- **A chunk with a part at its end** ends the operation. -/
theorem finished_of_part {k : ℕ} (len : ℕ) (incEol : Bool) (h2 : 2 ≤ eol.length)
    (hw : eol.length < 2 ^ 31) (hq : IsFirstFrom eol F p q) (hlen : q + eol.length ≤ p + len)
    (hcut : p + 65536 * (j + 1) < q + eol.length) (hk : 0 < k) (hk' : k < eol.length)
    (hpart : eol.take k <:+ (F.drop (p + 65536 * j)).take 65536) :
    ∃ t n, Transition.RunsTo step FullRead (atChunk F p len eol incEol j) t ∧
      t.place = .finished .eof n := by
  have hle := hq.2.1.1
  have htext : ((F.drop (p + 65536 * j)).take 65536).length = 65536 := length_slice (by omega)
  obtain ⟨last, hr, hover⟩ := findEol_of_short h2 hw hq hcut
  have hlast : 0 < last := Nat.lt_of_lt_of_le hk (hover.2 k (isOverlap_iff_isSuffix.2 ⟨hk', hpart⟩))
  have hlast' : last ≤ 65536 := htext ▸ hover.1.2.1
  have hsize : 65536 = maxReadBufferSize := rfl
  have hrem : 65536 ≤ (readChunk F p len eol incEol j 65536).op.remainLength := by
    show 65536 ≤ len - 65536 * j
    omega
  have hplace : ((readChunk F p len eol incEol j 65536).op.afterSearch ⟨F, p + 65536 * j + 65536⟩
      (.system 0) 65536 65536 last).place = .finished .eof _ :=
    ReadLineOp.afterSearch_part rfl hlast hlast' hsize hrem
  have hstep : step (readChunk F p len eol incEol j 65536) .dispatch =
      some ((readChunk F p len eol incEol j 65536).op.afterSearch ⟨F, p + 65536 * j + 65536⟩
        (.system 0) 65536 65536 last) := by
    rw [step_readChunk (by omega) (Nat.le_refl _), hr]
    rfl
  exact ⟨_, _, runsTo_of_readChunk (by omega) (by omega)
    (.head (FullRead.dispatch _) hstep (.refl _)), hplace⟩

/-- The chunk that holds the end of the line ends the operation with it. -/
theorem delivered_of_atChunk (incEol : Bool) (h2 : 2 ≤ eol.length) (hq : IsFirstFrom eol F p q)
    (hlen : q + eol.length ≤ p + len) (haq : p + 65536 * j ≤ q)
    (hend : q + eol.length ≤ p + 65536 * (j + 1)) :
    ∃ t, Transition.RunsTo step FullRead (atChunk F p len eol incEol j) t ∧
      t.Delivered ((F.drop p).take (q - p) ++ if incEol then eol else []) (q + eol.length) := by
  have hle := hq.2.1.1
  obtain ⟨c, hc⟩ : ∃ c, c = min (min (len - 65536 * j) 65536) (F.length - (p + 65536 * j)) :=
    ⟨_, rfl⟩
  obtain ⟨t, ht, hdel⟩ := delivered_of_dispatch (c := c) len incEol h2 hq haq (by omega)
    (by omega) (by omega)
  exact ⟨t, runsTo_of_readChunk hc (by omega) (.head (FullRead.dispatch _) ht (.refl _)), hdel⟩

/-- The operation gets to chunk `j` when no chunk before it ends in a part of the end-of-line
string. -/
theorem runsTo_atChunk {t : ReadLineState} (h2 : 2 ≤ eol.length) (hw : eol.length < 2 ^ 31)
    (hq : IsFirstFrom eol F p q) (hlen : q + eol.length ≤ p + len)
    (hj : p + 65536 * j < q + eol.length)
    (hpart : ∀ i < j, ∀ k, 0 < k → k < eol.length →
      ¬eol.take k <:+ (F.drop (p + 65536 * i)).take 65536)
    (ht : Transition.RunsTo step FullRead (atChunk F p len eol incEol j) t) :
    Transition.RunsTo step FullRead (start ⟨F, p⟩ len eol incEol) t := by
  rw [← atChunk_zero]
  induction j with
  | zero => exact ht
  | succ j ih =>
    exact ih (by omega) (fun i hi ↦ hpart i (Nat.lt_succ_of_lt hi))
      (runsTo_atChunk_succ h2 hw hq hlen hj (hpart j (Nat.lt_succ_self j)) ht)

/-! ### Determinism -/

theorem step_of_finished {s : ReadLineState} (h : s.Finished) (e : ReadLineEvent) :
    step s e = none := by
  obtain ⟨ec, n, hp⟩ := h
  cases e <;> simp [step, hp]

/-- With full reads the state determines what is next. -/
theorem fullRead_unique {s t u : ReadLineState} {a b : ReadLineEvent} (ha : FullRead s a)
    (hb : FullRead s b) (ht : step s a = some t) (hu : step s b = some u) : a = b := by
  cases a with
  | worker o =>
    cases b with
    | worker o' => rw [show o = _ from ha, show o' = _ from hb]
    | dispatch =>
      rcases hp : s.place with - | - | ⟨ec, n⟩ <;> simp [step, hp] at ht hu
  | dispatch =>
    cases b with
    | dispatch => rfl
    | worker o' =>
      rcases hp : s.place with - | - | ⟨ec, n⟩ <;> simp [step, hp] at ht hu

/-- With full reads there is one run. -/
theorem finished_unique {s t u : ReadLineState} (ht : Transition.RunsTo step FullRead s t)
    (hu : Transition.RunsTo step FullRead s u) (htf : t.Finished) (huf : u.Finished) : t = u := by
  refine Transition.RunsTo.eq_of_terminal (fun _ _ _ _ _ ha hb hst hsu ↦ ?_) ht hu
    (step_of_finished htf) (step_of_finished huf)
  exact fullRead_unique ha hb hst hsu

/-- A run that ends well is enough, as the operation has one run only. -/
theorem completes_of_runsTo {s t : ReadLineState} {D : ReadLineState → Prop}
    (h : Transition.RunsTo step FullRead s t) (htf : t.Finished) (ht : D t) : s.Completes D :=
  ⟨⟨t, h, htf⟩, fun _ hu huf ↦ finished_unique h hu htf huf ▸ ht⟩

end ReadLineState

end JnetLib.Epoll
