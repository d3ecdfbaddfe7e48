import JnetLib.Epoll.Written

/-!
# Reading back what was written

Whatever the `::read`s answer short of an error, a read comes to its end with all there is up to its
length (`inevitable_read`), by the same induction as a write.

`writes_then_reads` puts the two together: a write at a position and a read of the same length from
there are inverse. It needs of `OpenFile.splice` only that the bytes are read back
(`take_drop_splice`) and that all others are where they were.
-/

namespace JnetLib.Epoll

/-! ### Reading -/

namespace ReadOp

variable {F : List Byte} {p len m k : ℕ}

/-- The operation queued with `m` bytes read. -/
def queuedAt (F : List Byte) (p len m : ℕ) : FileState ReadOp :=
  ⟨⟨.reset, (F.drop p).take m, ⟨m, len, m⟩⟩, ⟨F, p + m⟩, .queued⟩

/-- The operation behind `m` bytes, with `k` more bytes read. -/
def readAt (F : List Byte) (p len m k : ℕ) : FileState ReadOp :=
  ⟨⟨Operation.reset.onCompletion (.system 0) k, (F.drop p).take (m + k), ⟨m, len, m⟩⟩,
    ⟨F, p + m + k⟩, .completed⟩

theorem queuedAt_zero : queuedAt F p len 0 = asynRead ⟨F, p⟩ len :=
  rfl

theorem room_queuedAt (F : List Byte) (p len m : ℕ) :
    room (queuedAt F p len m).op (queuedAt F p len m).file =
      min (min (len - m) 65536) (F.length - (p + m)) := by
  show min (min (len - m) 65536) (F.drop (p + m)).length = _
  rw [List.length_drop]

/-- The worker's step. -/
theorem step_queuedAt (hm : m < len) (hmF : m ≤ (F.drop p).length)
    (hk : k ≤ room (queuedAt F p len m).op (queuedAt F p len m).file) :
    step (queuedAt F p len m) (.worker (.bytes k)) = some (readAt F p len m k) := by
  have hreq : 0 < (queuedAt F p len m).op.requested :=
    Nat.lt_min.2 ⟨by show 0 < len - m; omega, by decide⟩
  have hlen : ((F.drop p).take m).length = m := by
    rw [List.length_take]
    omega
  have hstore : (queuedAt F p len m).op.store ((F.drop (p + m)).take k) =
      (F.drop p).take (m + k) := by
    have hdrop : ((F.drop p).take m).drop (m + ((F.drop (p + m)).take k).length) = [] :=
      List.drop_eq_nil_of_le (by omega)
    show ((F.drop p).take m).take m ++ (F.drop (p + m)).take k ++
      ((F.drop p).take m).drop (m + ((F.drop (p + m)).take k).length) = _
    rw [List.take_of_length_le (by omega), hdrop, List.append_nil, slice_add]
  rw [step, FileState.step, if_pos ⟨rfl, hk⟩, doRead, if_pos hreq]
  show some (FileState.mk (ReadOp.mk _ ((queuedAt F p len m).op.store ((F.drop (p + m)).take k)) _)
    _ _) = _
  rw [hstore]
  rfl

/-- Nothing read while there is room: the end of the file. -/
theorem onComplete_of_zero {op : ReadOp} {file : OpenFile}
    (hec : op.base.readerError.isError = false) (hb : op.base.bytesTransferred = 0)
    (hr : 0 < op.buffer.remain) :
    op.onComplete file = ⟨op, file, .finished .eof op.buffer.len⟩ := by
  simp [onComplete, hec, hb, hr]

/-- Bytes read and room left: the operation is queued again. -/
theorem onComplete_of_more {op : ReadOp} {file : OpenFile}
    (hec : op.base.readerError.isError = false) (hb : 0 < op.base.bytesTransferred)
    (hr : op.base.bytesTransferred < op.buffer.remain) :
    op.onComplete file =
      ⟨{ op with base := .reset, buffer := op.buffer.append op.base.bytesTransferred }, file,
        .queued⟩ := by
  have hne : (op.base.bytesTransferred == 0) = false := beq_false_of_ne (by omega)
  have hroom : 0 < (op.buffer.append op.base.bytesTransferred).remain := by
    rw [MutableBuffer.remain] at hr ⊢
    show 0 < op.buffer.size - (op.buffer.len + op.base.bytesTransferred)
    omega
  simp [onComplete, hec, hne, hroom]

/-- The buffer is full: the operation calls back. -/
theorem onComplete_of_full {op : ReadOp} {file : OpenFile}
    (hec : op.base.readerError.isError = false)
    (hb : 0 < op.base.bytesTransferred ∨ op.buffer.remain = 0)
    (hr : op.buffer.remain ≤ op.base.bytesTransferred) :
    op.onComplete file =
      ⟨{ op with buffer := op.buffer.append op.base.bytesTransferred }, file,
        .finished op.base.readerError (op.buffer.len + op.base.bytesTransferred)⟩ := by
  have hzero : (op.base.bytesTransferred == 0 && decide (0 < op.buffer.remain)) = false := by
    rcases hb with hb | hb
    · rw [beq_false_of_ne (by omega), Bool.false_and]
    · simp [hb]
  have hroom : ¬0 < (op.buffer.append op.base.bytesTransferred).remain := by
    rw [MutableBuffer.remain] at hr ⊢
    show ¬0 < op.buffer.size - (op.buffer.len + op.base.bytesTransferred)
    omega
  simp only [onComplete, hec, Bool.not_false, Bool.true_and, hzero, hroom, Bool.false_eq_true,
    if_false, if_true]
  rfl

/-- The dispatch behind a read that returned something. -/
theorem step_readAt (F : List Byte) (p : ℕ) (hk : m + k ≤ len) (hpos : 0 < k) (hlt : k < 2 ^ 32) :
    step (readAt F p len m k) .dispatch = some (if m + k < len
      then queuedAt F p len (m + k)
      else { readAt F p len m k with
        op := { (readAt F p len m k).op with buffer := ⟨m + k, len, m + k⟩ }
        place := .finished (.system 0) (m + k) }) := by
  have hbytes : (readAt F p len m k).op.base.bytesTransferred = k := toUInt32_of_lt hlt
  have hec : (readAt F p len m k).op.base.readerError = .system 0 :=
    Operation.readerError_of_clear rfl
  have hremain : (readAt F p len m k).op.buffer.remain = len - m := rfl
  have hplace : (readAt F p len m k).place = .completed := rfl
  rw [step, FileState.step, if_pos hplace]
  rcases Nat.lt_or_ge (m + k) len with hmore | hend
  · rw [if_pos hmore, onComplete_of_more (by rw [hec]; rfl) (by rw [hbytes]; exact hpos)
      (by rw [hbytes, hremain]; omega), hbytes, queuedAt, ← Nat.add_assoc]
    rfl
  · rw [if_neg (by omega), onComplete_of_full (by rw [hec]; rfl) (.inl (by rw [hbytes]; exact hpos))
      (by rw [hbytes, hremain]; omega), hbytes, hec]
    rfl

/-- The dispatch behind a read at the end of the file. -/
theorem step_readAt_zero (hm : m < len) :
    step (readAt F p len m 0) .dispatch =
      some { readAt F p len m 0 with place := .finished .eof m } := by
  have hec : (readAt F p len m 0).op.base.readerError = .system 0 :=
    Operation.readerError_of_clear rfl
  have hremain : (readAt F p len m 0).op.buffer.remain = len - m := rfl
  have hplace : (readAt F p len m 0).place = .completed := rfl
  rw [step, FileState.step, if_pos hplace, onComplete_of_zero (by rw [hec]; rfl) rfl
    (by rw [hremain]; omega)]
  rfl

/-- The operation has called back with all there is up to its length: without error when that is
the length, else with the end of the file. -/
def ReadAll (F : List Byte) (p len : ℕ) (s : FileState ReadOp) : Prop :=
  (∃ ec, s.place = .finished ec ((F.drop p).take len).length ∧
    if len ≤ (F.drop p).length then ec.isError = false else ec = .eof) ∧
    s.op.memory = (F.drop p).take len ∧ s.file = ⟨F, p + ((F.drop p).take len).length⟩

/-- What the answers to the `::read`s meet: at least a byte while there is one, no error, and a
dispatch is never held back. -/
structure Answers (ok : FileState ReadOp → FileEvent → Prop) : Prop where
  short : ∀ s e, ok s e → FileState.Short room s e
  full : ∀ s, ok s (.worker (.bytes (room s.op s.file)))
  dispatch : ∀ s, ok s .dispatch

theorem answers_short : Answers (FileState.Short room) :=
  ⟨fun _ _ h ↦ h, fun _ ↦ ⟨_, rfl, id⟩, fun _ ↦ trivial⟩

theorem answers_full : Answers (FileState.Full room) where
  short s e h := by
    cases e with
    | worker o => exact ⟨_, h, id⟩
    | dispatch => trivial
  full _ := rfl
  dispatch _ := trivial

variable {ok : FileState ReadOp → FileEvent → Prop}

/-- The file has ended, and the operation calls back. -/
theorem readAll_of_end (hm : m < len) (hend : m = (F.drop p).length) :
    ReadAll F p len { readAt F p len m 0 with place := .finished .eof m } := by
  have hall : (F.drop p).take len = F.drop p := List.take_of_length_le (by omega)
  refine ⟨⟨.eof, ?_, ?_⟩, ?_, ?_⟩
  · rw [hall, ← hend]
  · rw [if_neg (by omega)]
  · show (F.drop p).take (m + 0) = _
    rw [hall, Nat.add_zero, hend, List.take_length]
  · show OpenFile.mk F (p + m + 0) = _
    rw [hall, ← hend, Nat.add_zero]

/-- The buffer is full, and the operation calls back. -/
theorem readAll_of_full {op : ReadOp} (hk : m + k = len) (hle : len ≤ (F.drop p).length)
    (hmemory : op.memory = (F.drop p).take (m + k)) :
    ReadAll F p len ⟨op, ⟨F, p + m + k⟩, .finished (.system 0) (m + k)⟩ := by
  have hlen : ((F.drop p).take len).length = len := by
    rw [List.length_take]
    omega
  refine ⟨⟨.system 0, ?_, ?_⟩, ?_, ?_⟩
  · rw [hlen, hk]
  · rw [if_pos hle]
    rfl
  · rw [← hk]
    exact hmemory
  · rw [hlen, Nat.add_assoc, hk]

/-- **A read comes to its end**, however its calls are cut short. The induction is on what is left
to read: each call returns at least a byte of it, until the file ends. -/
theorem inevitable_queuedAt (hok : Answers ok) (hm : m < len) (hmF : m ≤ (F.drop p).length) :
    Transition.Inevitable step ok (ReadAll F p len) (queuedAt F p len m) := by
  induction hn : len - m using Nat.strongRecOn generalizing m with
  | ind n ih =>
    have hroom := room_queuedAt F p len m
    have hrest : (F.drop p).length = F.length - p := List.length_drop
    refine FileState.inevitable_of_worker rfl (Nat.le_refl _) (hok.full _) (hok.short _)
      fun k hk hpos ↦ ⟨_, step_queuedAt hm hmF hk, ?_⟩
    rw [hroom] at hk hpos
    rcases Nat.eq_zero_or_pos k with rfl | hkpos
    · -- nothing was left to read
      have hend : m = (F.drop p).length := by
        by_contra hne
        exact absurd (hpos (by omega)) (Nat.lt_irrefl 0)
      exact FileState.inevitable_of_dispatch (hok.dispatch _) (step_readAt_zero hm)
        (.now (readAll_of_end hm hend))
    · refine FileState.inevitable_of_dispatch (hok.dispatch _)
        (step_readAt F p (by omega : m + k ≤ len) hkpos (by omega)) ?_
      rcases Nat.lt_or_ge (m + k) len with hmore | hfull
      · rw [if_pos hmore]
        exact ih _ (by omega) hmore (by omega) rfl
      · rw [if_neg (by omega)]
        exact .now (readAll_of_full (by omega) (by omega) rfl)

/-- Nothing to read: no `::read` is made, and the dispatch calls back. -/
theorem inevitable_zero (hok : Answers ok) :
    Transition.Inevitable step ok (ReadAll F p 0) (asynRead ⟨F, p⟩ 0) := by
  have hroom : room (asynRead ⟨F, p⟩ 0).op (asynRead ⟨F, p⟩ 0).file = 0 := Nat.zero_min _
  refine FileState.inevitable_of_worker rfl (Nat.le_refl _) (hok.full _) (hok.short _)
    fun k hk _ ↦ ?_
  obtain rfl : k = 0 := Nat.le_zero.1 (hroom ▸ hk)
  have hstart : step (asynRead ⟨F, p⟩ 0) (.worker (.bytes 0)) =
      some { asynRead ⟨F, p⟩ 0 with place := .completed } := by
    rw [step, FileState.step, if_pos ⟨rfl, Nat.zero_le _⟩]
    rfl
  refine ⟨_, hstart, FileState.inevitable_of_dispatch (hok.dispatch _) rfl (.now ?_)⟩
  exact ⟨⟨.noError, rfl, by rw [if_pos (Nat.zero_le _)]; rfl⟩, rfl, rfl⟩

/-- **A read of any length comes to its end** with all there is. -/
theorem inevitable_read (hok : Answers ok) (F : List Byte) (p len : ℕ) :
    Transition.Inevitable step ok (ReadAll F p len) (asynRead ⟨F, p⟩ len) := by
  rcases Nat.eq_zero_or_pos len with rfl | hpos
  · exact inevitable_zero hok
  · rw [← queuedAt_zero]
    exact inevitable_queuedAt hok hpos (Nat.zero_le _)

end ReadOp

/-! ### The round trip -/

/-- **Writing and reading are inverse.** However the `::write`s and the `::read`s are cut short, a
write at `p` reports its length, touches nothing outside its range and leaves the offset behind it,
and a read of that length from `p` on reports the length and delivers what was written. -/
theorem writes_then_reads (F data : List Byte) (p : ℕ) (hp : p ≤ F.length) :
    Transition.Inevitable WriteOp.step WriteOp.Short (fun s ↦
      (∃ ec, ec.isError = false ∧ s.place = .finished ec data.length) ∧
      s.file.offset = p + data.length ∧
      (∀ i, i < p ∨ p + data.length ≤ i → s.file.content[i]? = F[i]?) ∧
      Transition.Inevitable ReadOp.step (FileState.Short ReadOp.room) (fun t ↦
        (∃ ec, ec.isError = false ∧ t.place = .finished ec data.length) ∧
        t.op.memory.take data.length = data)
        (ReadOp.asynRead (s.file.seekBeginning p) data.length))
      (WriteOp.asynWrite ⟨F, p⟩ data) := by
  refine (WriteOp.inevitable_write data hp).mono ?_
  rintro s ⟨hdone, hfile⟩
  have hseek : s.file.seekBeginning p = ⟨OpenFile.splice F p data, p⟩ := by
    rw [hfile, OpenFile.seekBeginning, if_pos (Int.natCast_nonneg p)]
    rfl
  have hback := OpenFile.take_drop_splice data hp
  have hlen := OpenFile.length_drop_splice data hp
  rw [hseek]
  refine ⟨hdone, by rw [hfile], fun i hi ↦ ?_,
    (ReadOp.inevitable_read ReadOp.answers_short _ p data.length).mono ?_⟩
  · rw [hfile]
    exact hi.elim (OpenFile.getElem?_splice_before hp) (OpenFile.getElem?_splice_behind hp)
  · rintro t ⟨⟨ec, hplace, hec⟩, hmemory, -⟩
    rw [if_pos hlen] at hec
    rw [hback] at hplace hmemory
    exact ⟨⟨ec, hec, hplace⟩, by rw [hmemory, List.take_length]⟩

/-- Two bytes over the end of a file of one. -/
theorem writes_then_reads_short :
    1 ≤ [65].length ∧
    Transition.Inevitable WriteOp.step WriteOp.Short (fun s ↦
      (∃ ec, ec.isError = false ∧ s.place = .finished ec 2) ∧ s.file.offset = 1 + 2 ∧
      (∀ i, i < 1 ∨ 1 + 2 ≤ i → s.file.content[i]? = ([65] : List Byte)[i]?) ∧
      Transition.Inevitable ReadOp.step (FileState.Short ReadOp.room) (fun t ↦
        (∃ ec, ec.isError = false ∧ t.place = .finished ec 2) ∧
        t.op.memory.take 2 = [66, 67]) (ReadOp.asynRead (s.file.seekBeginning 1) 2))
      (WriteOp.asynWrite ⟨[65], 1⟩ [66, 67]) :=
  ⟨by decide, writes_then_reads [65] [66, 67] 1 (by decide)⟩

end JnetLib.Epoll
