import JnetLib.Base.Buffer
import JnetLib.Foundation.Cut
import JnetLib.Foundation.Transition

/-!
# Writing to a file on epoll

`file::asyn_write` puts the operation into the queue of the file thread, which writes at most 64 KiB
of it and posts a completion; `on_complete` puts the operation into the queue again for what is
left, behind whatever was queued meanwhile, and calls back when nothing is.

The operations on one file are told apart by what they are called with, an arbitrary type. A write
takes all the bytes it is offered and moves the file offset behind them, so the file is what was
written, piece by piece (`Writes.out`). The queue is a list here, by `Links.Delimits.push` and
`Links.Delimits.pop`.

`InPieces` is what holds in every run, without any condition: of each operation, what it has
written, what it has posted and what it has left are its buffer, cut every 64 KiB, and it is in one
place. When the operation has called back nothing is left.
-/

namespace JnetLib.File

/-- `write_op::max_write_buffer_size`. -/
def maxWriteBufferSize : ℕ := 64 * 1024

/-- `write_op`: the caller's buffer, how much of it `buffer_` has consumed, and the count of the
completion that is posted, if one is. -/
structure WriteOp where
  start : List Byte
  consumed : ℕ
  posted : Option ℕ
  deriving DecidableEq, Repr

namespace WriteOp

/-- `buffer_`: what is left of the caller's buffer. -/
def buffer (op : WriteOp) : List Byte := op.start.drop op.consumed

/-- `write_op::do_write`: how much is written, which is what is posted. -/
def doWrite (op : WriteOp) : ℕ :=
  if maxWriteBufferSize < op.buffer.length then maxWriteBufferSize else op.buffer.length

/-- What is not written yet. -/
def rest (op : WriteOp) : List Byte := op.buffer.drop (op.posted.getD 0)

variable {op : WriteOp}

theorem doWrite_eq (op : WriteOp) : op.doWrite = min maxWriteBufferSize op.buffer.length := by
  rw [doWrite]
  split <;> omega

/-- With nothing left there is nothing to write. -/
theorem doWrite_eq_zero : op.doWrite = 0 ↔ op.buffer = [] := by
  have hm : maxWriteBufferSize = 65536 := rfl
  rw [doWrite_eq, ← List.length_eq_zero_iff]
  omega

/-- The pieces of what is left: what `do_write` writes now, and the pieces of what is left then. -/
theorem cut_buffer (h : op.buffer ≠ []) :
    Cut.cut maxWriteBufferSize op.buffer =
      op.buffer.take op.doWrite :: Cut.cut maxWriteBufferSize (op.buffer.drop op.doWrite) := by
  have hm : maxWriteBufferSize ≠ 0 := by decide
  rw [Cut.cut_of_ne_nil hm h, doWrite_eq]
  rcases Nat.le_total maxWriteBufferSize op.buffer.length with hle | hle
  · rw [Nat.min_eq_left hle]
  · rw [Nat.min_eq_right hle, List.take_of_length_le hle, List.drop_eq_nil_of_le hle,
      List.take_length, List.drop_length]

end WriteOp

/-- The operations in memory, the queue of the file thread and the entry it has taken, what was
written, by which operation, and with what the operations were called and called back. -/
structure Writes (ι : Type) where
  ops : ι → Option WriteOp
  queue : List ι
  worker : Option ι
  out : List (ι × List Byte)
  called : ι → Option (List Byte)
  reported : ι → Option ℕ

/-- A step: a call of `asyn_write`; the file thread takes an entry; it writes and posts; a service
thread dispatches the completion. -/
inductive WriteEvent (ι : Type)
  | call (i : ι) (buf : List Byte)
  | take
  | write
  | dispatch (i : ι)
  deriving DecidableEq, Repr

namespace Writes

variable {ι : Type} [DecidableEq ι]

/-- `write_op::begin_write`. -/
def beginWrite (s : Writes ι) (i : ι) : Writes ι := { s with queue := s.queue ++ [i] }

/-- `write_op::on_complete` of an operation whose write was all right. -/
def onComplete (s : Writes ι) (i : ι) (op : WriteOp) (bytesTransferred : ℕ) : Writes ι :=
  let op := { op with consumed := op.consumed + bytesTransferred, posted := none }
  if op.buffer ≠ [] then
    { s with ops := Function.update s.ops i (some op) }.beginWrite i
  else
    { s with
      ops := Function.update s.ops i none
      reported := Function.update s.reported i (some op.consumed) }

/-- A step of a caller, the file worker or a completion. -/
def step (s : Writes ι) : WriteEvent ι → Option (Writes ι)
  | .call i buf =>
    match s.called i with
    | none =>
      some ({ s with
        ops := Function.update s.ops i (some ⟨buf, 0, none⟩)
        called := Function.update s.called i (some buf) }.beginWrite i)
    | some _ => none
  | .take =>
    match s.worker, s.queue with
    | none, i :: queue => some { s with worker := some i, queue := queue }
    | _, _ => none
  | .write =>
    match s.worker with
    | none => none
    | some i =>
      (s.ops i).map fun op ↦
        { s with
          worker := none
          out := if op.doWrite = 0 then s.out else s.out ++ [(i, op.buffer.take op.doWrite)]
          ops := Function.update s.ops i (some { op with posted := some op.doWrite }) }
  | .dispatch i =>
    match s.ops i with
    | none => none
    | some op => op.posted.map (s.onComplete i op)

/-- A file on which nothing was called yet. -/
def start : Writes ι where
  ops := fun _ ↦ none
  queue := []
  worker := none
  out := []
  called := fun _ ↦ none
  reported := fun _ ↦ none

/-- The bytes written. -/
def bytes (s : Writes ι) : List Byte := s.out.flatMap Prod.snd

/-- The pieces written by one operation. -/
def pieces (s : Writes ι) (i : ι) : List (List Byte) := (s.out.filter (·.1 = i)).map Prod.snd

/-- The bytes written are the complete buffers one after the other. -/
def Unmixed (s : Writes ι) : Prop :=
  ∃ order : List ι, order.Nodup ∧ (∀ i, i ∈ order ↔ (s.called i).isSome) ∧
    s.bytes = order.flatMap fun i ↦ (s.called i).getD []

/-- A buffer longer than 64 KiB is passed only while no operation is outstanding, and no buffer
while such an operation is. -/
def Apart (s : Writes ι) : WriteEvent ι → Prop
  | .call _ buf =>
    (∀ j, s.ops j = none) ∨
      buf.length ≤ maxWriteBufferSize ∧ ∀ j, ∀ op ∈ s.ops j, op.start.length ≤ maxWriteBufferSize
  | _ => True

instance [Fintype ι] (s : Writes ι) : DecidablePred s.Apart
  | .call _ buf =>
    inferInstanceAs (Decidable ((∀ j, s.ops j = none) ∨ buf.length ≤ maxWriteBufferSize ∧
      ∀ j, ∀ op ∈ s.ops j, op.start.length ≤ maxWriteBufferSize))
  | .take | .write | .dispatch _ => inferInstanceAs (Decidable True)

section Invariant

variable {s s' : Writes ι} {i j : ι} {op op' : WriteOp} {buf p : List Byte}

/-- **The invariant.** What an operation has written and what it has not written yet make up its
buffer, cut into pieces; an operation is queued once, and not while a completion is posted. -/
structure InPieces (s : Writes ι) : Prop where
  known : ∀ i op, s.ops i = some op → s.called i = some op.start ∧
    s.pieces i ++ Cut.cut maxWriteBufferSize op.rest = Cut.cut maxWriteBufferSize op.start
  finished : ∀ i buf, s.called i = some buf → s.ops i = none →
    s.pieces i = Cut.cut maxWriteBufferSize buf
  unknown : ∀ i, s.called i = none → s.pieces i = []
  waiting : ∀ i ∈ s.worker.toList ++ s.queue, ∃ op, s.ops i = some op ∧ op.posted = none
  nodup : (s.worker.toList ++ s.queue).Nodup
  posted : ∀ i op n, s.ops i = some op → op.posted = some n → n = op.doWrite
  far : ∀ i op, s.ops i = some op → op.consumed = 0 ∨ maxWriteBufferSize ≤ op.consumed

theorem inPieces_start : InPieces (start : Writes ι) where
  known _ _ h := by cases h
  finished _ _ h := by cases h
  unknown _ _ := rfl
  waiting _ h := absurd h List.not_mem_nil
  nodup := List.nodup_nil
  posted _ _ _ h := by cases h
  far _ _ h := by cases h

/-- The operations after one of them changed: that one, or another. -/
theorem update_cases {ops : ι → Option WriteOp} {o : Option WriteOp}
    (h : Function.update ops i o j = some op) : j = i ∧ o = some op ∨ j ≠ i ∧ ops j = some op := by
  rcases eq_or_ne j i with rfl | hne
  · exact .inl ⟨rfl, by rwa [Function.update_self] at h⟩
  · exact .inr ⟨hne, by rwa [Function.update_of_ne hne] at h⟩

/-- What holds of the changed operation and of the others holds of all. -/
theorem forall_update {ops : ι → Option WriteOp} {o : Option WriteOp} {Q : ι → WriteOp → Prop}
    (hself : ∀ op, o = some op → Q i op) (h : ∀ j op, ops j = some op → Q j op) (j : ι)
    (op : WriteOp) (ho : Function.update ops i o j = some op) : Q j op := by
  rcases update_cases ho with ⟨rfl, ho'⟩ | ⟨-, ho'⟩
  · exact hself op ho'
  · exact h j op ho'

theorem InPieces.ops_of_called (h : s.InPieces) (hi : s.called i = none) : s.ops i = none := by
  cases ho : s.ops i with
  | none => rfl
  | some op => exact absurd (hi.symm.trans (h.known i op ho).1) (by simp)

/-- An operation that is not waiting can be queued. -/
theorem InPieces.notMem (h : s.InPieces) (hi : ∀ op, s.ops i = some op → op.posted ≠ none) :
    i ∉ s.worker.toList ++ s.queue := by
  intro hmem
  obtain ⟨op, ho, hp⟩ := h.waiting i hmem
  exact hi op ho hp

omit [DecidableEq ι] in
theorem nodup_concat {l : List ι} (h : l.Nodup) (hi : i ∉ l) : (l ++ [i]).Nodup :=
  List.nodup_append.2 ⟨h, List.nodup_singleton i, fun _ ha _ hb hab ↦
    hi (List.mem_singleton.1 hb ▸ hab ▸ ha)⟩

/-- A call. -/
theorem InPieces.call (h : s.InPieces) (hi : s.called i = none) :
    InPieces ({ s with
      ops := Function.update s.ops i (some ⟨buf, 0, none⟩)
      called := Function.update s.called i (some buf) }.beginWrite i) := by
  have hops := h.ops_of_called hi
  have hnot : i ∉ s.worker.toList ++ s.queue := h.notMem fun op ho ↦ by
    rw [hops] at ho
    cases ho
  refine ⟨fun j op ho ↦ ?_, fun j b hc ho ↦ ?_, fun j hc ↦ ?_, fun j hj ↦ ?_, ?_,
    fun j op n ↦ forall_update (fun op ho hn ↦ ?_) (fun j op ↦ h.posted j op n) j op,
    forall_update (fun op ho ↦ ?_) h.far⟩
  · show Function.update s.called i (some buf) j = _ ∧ s.pieces j ++ _ = _
    rcases update_cases ho with ⟨rfl, ho'⟩ | ⟨hne, ho'⟩
    · obtain rfl := Option.some.inj ho'
      rw [Function.update_self, h.unknown _ hi]
      exact ⟨rfl, rfl⟩
    · rw [Function.update_of_ne hne]
      exact h.known j op ho'
  · have hne : j ≠ i := by
      rintro rfl
      exact absurd ho (by simp [beginWrite])
    refine h.finished j b ?_ ?_
    · simpa [beginWrite, hne] using hc
    · simpa [beginWrite, hne] using ho
  · have hne : j ≠ i := by
      rintro rfl
      exact absurd hc (by simp [beginWrite])
    exact h.unknown j (by simpa [beginWrite, hne] using hc)
  · show ∃ op, Function.update s.ops i _ j = some op ∧ _
    have hj' : j ∈ s.worker.toList ++ s.queue ++ [i] := by rwa [List.append_assoc]
    rcases List.mem_append.1 hj' with hj' | hj'
    · have hne : j ≠ i := fun hb ↦ hnot (hb ▸ hj')
      rw [Function.update_of_ne hne]
      exact h.waiting j hj'
    · rw [List.mem_singleton.1 hj', Function.update_self]
      exact ⟨_, rfl, rfl⟩
  · show (s.worker.toList ++ (s.queue ++ [i])).Nodup
    rw [← List.append_assoc]
    exact nodup_concat h.nodup hnot
  · obtain rfl := Option.some.inj ho
    cases hn
  · obtain rfl := Option.some.inj ho
    exact .inl rfl

/-- What `do_write` adds to the pieces of its operation, and to no other's. -/
theorem pieces_append :
    ({ s with out := s.out ++ [(i, p)] } : Writes ι).pieces j =
      if j = i then s.pieces j ++ [p] else s.pieces j := by
  unfold pieces
  rw [List.filter_append, List.map_append]
  split
  case isTrue h => simp [h]
  case isFalse h => simp [Ne.symm h]

/-- A write: the piece goes from what is not written yet to what is. -/
theorem InPieces.write (h : s.InPieces) (hw : s.worker = some i) (ho : s.ops i = some op) :
    InPieces { s with
      worker := none
      out := if op.doWrite = 0 then s.out else s.out ++ [(i, op.buffer.take op.doWrite)]
      ops := Function.update s.ops i (some { op with posted := some op.doWrite }) } := by
  have hwait := h.waiting
  have hnd := h.nodup
  rw [hw, Option.toList_some, List.singleton_append] at hwait hnd
  obtain ⟨hi, hnd⟩ := List.nodup_cons.1 hnd
  have hp : op.posted = none := by
    obtain ⟨op', ho', hp⟩ := hwait i List.mem_cons_self
    obtain rfl := Option.some.inj (ho.symm.trans ho')
    exact hp
  have hrest : op.rest = op.buffer := by rw [WriteOp.rest, hp]; rfl
  have hpieces : ∀ j, j ≠ i → pieces { s with
      out := if op.doWrite = 0 then s.out else s.out ++ [(i, op.buffer.take op.doWrite)] } j =
        s.pieces j := by
    intro j hne
    split
    · rfl
    · rw [pieces_append, if_neg hne]
  obtain ⟨hcalled, hcut⟩ := h.known i op ho
  refine ⟨fun j op' ho' ↦ ?_, fun j b hc hn ↦ ?_, fun j hc ↦ ?_, fun j hj ↦ ?_, hnd,
    fun j op' n ↦ forall_update (fun op' ho' hn ↦ ?_) (fun j op' ↦ h.posted j op' n) j op',
    forall_update (fun op' ho' ↦ ?_) h.far⟩
  · rcases update_cases ho' with ⟨rfl, ho''⟩ | ⟨hne, ho''⟩
    · obtain rfl := Option.some.inj ho''
      refine ⟨hcalled, ?_⟩
      show pieces { s with
        out := if op.doWrite = 0 then s.out else s.out ++ [(j, op.buffer.take op.doWrite)] } j ++
          Cut.cut _ (op.buffer.drop op.doWrite) = _
      rw [← hcut, hrest]
      split
      case isTrue hz => rw [hz, List.drop_zero]
      case isFalse hz =>
        rw [pieces_append, if_pos rfl, List.append_assoc, List.singleton_append,
          ← WriteOp.cut_buffer (mt WriteOp.doWrite_eq_zero.2 hz)]
    · obtain ⟨hc, hj⟩ := h.known j op' ho''
      refine ⟨hc, ?_⟩
      rw [← hj]
      exact congrArg (· ++ _) (hpieces j hne)
  · have hne : j ≠ i := by
      rintro rfl
      exact absurd hn (by simp)
    have hn' : s.ops j = none := by simpa [hne] using hn
    exact (hpieces j hne).trans (h.finished j b hc hn')
  · have hne : j ≠ i := by
      rintro rfl
      exact absurd (hc.symm.trans hcalled) (by simp)
    exact (hpieces j hne).trans (h.unknown j hc)
  · have hj' : j ∈ s.queue := hj
    have hne : j ≠ i := fun hb ↦ hi (hb ▸ hj')
    obtain ⟨op', ho', hp'⟩ := hwait j (List.mem_cons_of_mem _ hj')
    exact ⟨op', by simp [hne, ho'], hp'⟩
  · obtain rfl := Option.some.inj ho'
    exact (Option.some.inj hn).symm
  · obtain rfl := Option.some.inj ho'
    exact h.far i op ho

/-- The operations that wait are not the one whose completion is posted. -/
theorem InPieces.waiting_update (h : s.InPieces) (hi : i ∉ s.worker.toList ++ s.queue)
    (o : Option WriteOp) (hj : j ∈ s.worker.toList ++ s.queue) :
    ∃ op, Function.update s.ops i o j = some op ∧ op.posted = none := by
  have hne : j ≠ i := fun hji ↦ hi (hji ▸ hj)
  rw [Function.update_of_ne hne]
  exact h.waiting j hj

omit [DecidableEq ι] in
theorem rest_of_posted {n : ℕ} (hn : op.posted = some n) :
    op.rest = op.start.drop (op.consumed + n) := by
  rw [WriteOp.rest, hn, WriteOp.buffer, List.drop_drop]
  rfl

/-- Something is left to write behind the first piece of 64 KiB only. -/
theorem InPieces.far_of_rest {n : ℕ} (h : s.InPieces) (ho : s.ops i = some op)
    (hn : op.posted = some n)
    (hb : op.start.drop (op.consumed + n) ≠ []) : maxWriteBufferSize ≤ op.consumed + n := by
  have hlen : 0 < (op.start.drop (op.consumed + n)).length := List.length_pos_iff.2 hb
  rw [h.posted i op n ho hn, WriteOp.doWrite_eq, WriteOp.buffer, List.length_drop] at hlen ⊢
  rw [List.length_drop] at hlen
  omega

/-- A completion with something left to write: the operation is queued again. -/
theorem InPieces.queueAgain {n : ℕ} (h : s.InPieces) (ho : s.ops i = some op)
    (hn : op.posted = some n)
    (hi : i ∉ s.worker.toList ++ s.queue) (hb : op.start.drop (op.consumed + n) ≠ []) :
    InPieces ({ s with
      ops := Function.update s.ops i (some ⟨op.start, op.consumed + n, none⟩) }.beginWrite i) := by
  obtain ⟨hcalled, hcut⟩ := h.known i op ho
  rw [rest_of_posted hn] at hcut
  refine ⟨forall_update (fun op' ho' ↦ ?_) h.known, fun j b hc hnone ↦ ?_, h.unknown,
    fun j hj ↦ ?_, ?_,
    fun j op' m ↦ forall_update (fun op' ho' hm ↦ ?_) (fun j op' ↦ h.posted j op' m) j op',
    forall_update (fun op' ho' ↦ ?_) h.far⟩
  · obtain rfl := Option.some.inj ho'
    exact ⟨hcalled, hcut⟩
  · have hne : j ≠ i := by
      rintro rfl
      exact absurd hnone (by simp [beginWrite])
    exact h.finished j b hc (by simpa [beginWrite, hne] using hnone)
  · have hj' : j ∈ s.worker.toList ++ s.queue ++ [i] := by rwa [List.append_assoc]
    rcases List.mem_append.1 hj' with hj' | hj'
    · exact h.waiting_update hi _ hj'
    · rw [List.mem_singleton.1 hj']
      exact ⟨_, Function.update_self .., rfl⟩
  · show (s.worker.toList ++ (s.queue ++ [i])).Nodup
    rw [← List.append_assoc]
    exact nodup_concat h.nodup hi
  · obtain rfl := Option.some.inj ho'
    cases hm
  · obtain rfl := Option.some.inj ho'
    exact .inr (h.far_of_rest ho hn hb)

/-- A completion with nothing left: the operation is finished. -/
theorem InPieces.finish {n : ℕ} (h : s.InPieces) (ho : s.ops i = some op) (hn : op.posted = some n)
    (hi : i ∉ s.worker.toList ++ s.queue) (hb : op.start.drop (op.consumed + n) = []) :
    InPieces { s with
      ops := Function.update s.ops i none
      reported := Function.update s.reported i (some (op.consumed + n)) } := by
  obtain ⟨hcalled, hcut⟩ := h.known i op ho
  rw [rest_of_posted hn, hb, Cut.cut_nil, List.append_nil] at hcut
  refine ⟨forall_update nofun h.known, fun j b hc hnone ↦ ?_, h.unknown,
    fun j hj ↦ h.waiting_update hi _ hj, h.nodup,
    fun j op' m ↦ forall_update nofun (fun j op' ↦ h.posted j op' m) j op',
    forall_update nofun h.far⟩
  rcases eq_or_ne j i with rfl | hne
  · obtain rfl := Option.some.inj (hcalled.symm.trans hc)
    exact hcut
  · exact h.finished j b hc (by simpa [hne] using hnone)

/-- A completion: the operation is queued again for the rest, or finished. -/
theorem InPieces.onComplete {n : ℕ} (h : s.InPieces) (ho : s.ops i = some op)
    (hn : op.posted = some n) :
    (s.onComplete i op n).InPieces := by
  have hi : i ∉ s.worker.toList ++ s.queue := h.notMem fun op' ho' ↦ by
    rw [← Option.some.inj (ho.symm.trans ho'), hn]
    simp
  rw [Writes.onComplete]
  split
  case isTrue hb => exact h.queueAgain ho hn hi hb
  case isFalse hb => exact h.finish ho hn hi (not_not.1 hb)

/-- **Every step keeps the invariant.** -/
theorem inPieces_step {ev : WriteEvent ι} (h : s.InPieces) (hst : s.step ev = some s') :
    s'.InPieces := by
  cases ev with
  | call i buf =>
    rw [step.eq_def] at hst
    dsimp only at hst
    split at hst
    case h_2 => cases hst
    case h_1 hi =>
      obtain rfl := Option.some.inj hst
      exact h.call hi
  | take =>
    rw [step.eq_def] at hst
    dsimp only at hst
    split at hst
    case h_2 => cases hst
    case h_1 i queue hw hq =>
      obtain rfl := Option.some.inj hst
      have hwait := h.waiting
      have hnd := h.nodup
      rw [hw, hq] at hwait hnd
      exact ⟨h.known, h.finished, h.unknown, hwait, hnd, h.posted, h.far⟩
  | write =>
    rw [step.eq_def] at hst
    dsimp only at hst
    split at hst
    case h_1 => cases hst
    case h_2 i hw =>
      obtain ⟨op, ho, rfl⟩ := Option.map_eq_some_iff.1 hst
      exact h.write hw ho
  | dispatch i =>
    rw [step.eq_def] at hst
    dsimp only at hst
    split at hst
    case h_1 => cases hst
    case h_2 op ho =>
      obtain ⟨n, hn, rfl⟩ := Option.map_eq_some_iff.1 hst
      exact h.onComplete ho hn

end Invariant

end Writes

end JnetLib.File
