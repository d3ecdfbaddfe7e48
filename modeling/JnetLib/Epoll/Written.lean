import JnetLib.Epoll.ReadWrite

/-!
# A write comes to its end

Whatever the `::write`s answer short of an error, a write comes to its end and leaves exactly its
bytes in the file (`inevitable_write`). What it leaves is `OpenFile.splice`, the file with the bytes
in the place of what was there.

The induction is on what is left (`inevitable_queuedAt`): the operation that is queued with `m`
bytes behind it comes, in two steps, to one with more of them, or to its callback. That the callback
is `Inevitable` also says that the operation cannot stop on the way.
-/

namespace JnetLib.Epoll

namespace OpenFile

/-- The file with `data` in the place of what was there from `p` on. -/
def splice (F : List Byte) (p : ℕ) (data : List Byte) : List Byte :=
  F.take p ++ data ++ F.drop (p + data.length)

variable {F data : List Byte} {p : ℕ}

theorem splice_nil : splice F p [] = F := by
  rw [splice, List.append_nil, List.length_nil, Nat.add_zero, List.take_append_drop]

/-- What is written behind a piece extends the piece. -/
theorem write_splice (data more : List Byte) (hp : p ≤ F.length) :
    write ⟨splice F p data, p + data.length⟩ more =
      ⟨splice F p (data ++ more), p + (data ++ more).length⟩ := by
  rcases eq_or_ne more [] with rfl | hne
  · rw [write, if_pos rfl, List.append_nil]
  · have hfront : (F.take p ++ data).length = p + data.length := by
      rw [List.length_append, List.length_take, Nat.min_eq_left hp]
    have htake : (splice F p data).take (p + data.length) = F.take p ++ data := by
      rw [splice, ← hfront, List.take_left]
    have hgap : p + data.length - (splice F p data).length = 0 := by
      rw [splice, List.length_append, hfront]
      omega
    have hback : (splice F p data).drop (p + data.length) = F.drop (p + data.length) := by
      rw [splice, ← hfront, List.drop_left]
    have hdrop : (splice F p data).drop (p + data.length + more.length) =
        F.drop (p + (data ++ more).length) := by
      rw [← List.drop_drop, hback, List.drop_drop, List.length_append, Nat.add_assoc]
    rw [write, if_neg hne]
    show OpenFile.mk ((splice F p data).take (p + data.length) ++
      List.replicate (p + data.length - (splice F p data).length) 0 ++ more ++
        (splice F p data).drop (p + data.length + more.length)) _ = _
    rw [htake, hgap, hdrop]
    simp only [splice, List.replicate_zero, List.append_nil, List.append_assoc,
      List.length_append, Nat.add_assoc]

theorem getElem?_splice_before {i : ℕ} (hp : p ≤ F.length) (hi : i < p) :
    (splice F p data)[i]? = F[i]? := by
  rw [splice, List.append_assoc, List.getElem?_append_left (by rw [List.length_take]; omega),
    List.getElem?_take_of_lt hi]

theorem getElem?_splice_behind {i : ℕ} (hp : p ≤ F.length) (hi : p + data.length ≤ i) :
    (splice F p data)[i]? = F[i]? := by
  have hfront : (F.take p ++ data).length = p + data.length := by
    rw [List.length_append, List.length_take, Nat.min_eq_left hp]
  rw [splice, List.getElem?_append_right (by omega), hfront, List.getElem?_drop]
  congr 1
  omega

/-- The bytes written, read back. -/
theorem take_drop_splice (data : List Byte) (hp : p ≤ F.length) :
    ((splice F p data).drop p).take data.length = data := by
  have hlen : (F.take p).length = p := by
    rw [List.length_take]
    omega
  have hdrop : (splice F p data).drop p = data ++ F.drop (p + data.length) := by
    rw [splice, List.append_assoc, List.drop_append_of_le_length (by omega),
      List.drop_of_length_le (by omega), List.nil_append]
  rw [hdrop, List.take_left]

theorem length_drop_splice (data : List Byte) (hp : p ≤ F.length) :
    data.length ≤ ((splice F p data).drop p).length := by
  have h := congrArg List.length (take_drop_splice data hp)
  rw [List.length_take] at h
  omega

end OpenFile

namespace WriteOp

variable {F data : List Byte} {p m k : ℕ}

/-- The operation queued with `m` bytes written. -/
def queuedAt (F : List Byte) (p : ℕ) (data : List Byte) (m : ℕ) : FileState WriteOp :=
  ⟨⟨.reset, data, ⟨m, data.length - m⟩⟩, ⟨OpenFile.splice F p (data.take m), p + m⟩, .queued⟩

/-- The operation behind `m` bytes, with `k` more bytes written. -/
def writtenAt (F : List Byte) (p : ℕ) (data : List Byte) (m k : ℕ) : FileState WriteOp :=
  ⟨⟨Operation.reset.onCompletion (.system 0) k, data, ⟨m, data.length - m⟩⟩,
    ⟨OpenFile.splice F p (data.take (m + k)), p + m + k⟩, .completed⟩

theorem queuedAt_zero : queuedAt F p data 0 = asynWrite ⟨F, p⟩ data := by
  rw [queuedAt, List.take_zero, OpenFile.splice_nil]
  rfl

/-- The worker's step. -/
theorem step_queuedAt (hp : p ≤ F.length) (hm : m < data.length)
    (hk : k ≤ (queuedAt F p data m).op.requested) :
    step (queuedAt F p data m) (.worker (.bytes k)) = some (writtenAt F p data m k) := by
  have hreq : (queuedAt F p data m).op.requested = min (data.length - m) 65536 := rfl
  have hlen : (data.take m).length = m := by
    rw [List.length_take]
    omega
  have hmore : (data.take m ++ (data.drop m).take k) = data.take (m + k) := by
    rw [List.take_add]
  have hwrite := OpenFile.write_splice (data.take m) ((data.drop m).take k) hp
  have hlen' : (data.take (m + k)).length = m + k := by
    rw [List.length_take]
    omega
  rw [hmore, hlen, hlen', ← Nat.add_assoc] at hwrite
  rw [step, FileState.step, if_pos ⟨rfl, hk⟩, doWrite, if_pos (by rw [hreq]; omega)]
  show some (FileState.mk _ (OpenFile.write ⟨OpenFile.splice F p (data.take m), p + m⟩
    ((data.drop m).take k)) _) = _
  rw [hwrite]
  rfl

/-- Bytes are left: the operation is queued again. -/
theorem onComplete_of_more {op : WriteOp} {file : OpenFile} (hec : op.base.ec.isError = false)
    (h : op.base.bytesTransferred < op.buffer.len) :
    op.onComplete file =
      ⟨{ op with base := .reset, buffer := op.buffer.consume op.base.bytesTransferred }, file,
        .queued⟩ := by
  have hne : (op.buffer.len - op.base.bytesTransferred != 0) = true := by
    rw [bne_iff_ne]
    omega
  simp only [onComplete, hec, ConstBuffer.consume_len, hne]
  rfl

/-- No bytes are left: the operation calls back. -/
theorem onComplete_of_done {op : WriteOp} {file : OpenFile} (hec : op.base.ec.isError = false)
    (h : op.buffer.len ≤ op.base.bytesTransferred) :
    op.onComplete file =
      ⟨{ op with buffer := op.buffer.consume op.base.bytesTransferred }, file,
        .finished op.base.ec (op.buffer.buf + op.base.bytesTransferred)⟩ := by
  have hne : (op.buffer.len - op.base.bytesTransferred != 0) = false := by
    rw [bne_eq_false_iff_eq]
    omega
  simp only [onComplete, hec, ConstBuffer.consume_len, hne]
  rfl

/-- The dispatch behind it. -/
theorem step_writtenAt (F : List Byte) (p : ℕ) (hk : m + k ≤ data.length) (hlt : k < 2 ^ 32) :
    step (writtenAt F p data m k) .dispatch = some (if m + k < data.length
      then queuedAt F p data (m + k)
      else { writtenAt F p data m k with
        op := { (writtenAt F p data m k).op with buffer := ⟨m + k, data.length - m - k⟩ }
        place := .finished (.system 0) (m + k) }) := by
  have hbytes : (writtenAt F p data m k).op.base.bytesTransferred = k := toUInt32_of_lt hlt
  have hec : (writtenAt F p data m k).op.base.ec = .system 0 := rfl
  have hlen : (writtenAt F p data m k).op.buffer.len = data.length - m := rfl
  have hplace : (writtenAt F p data m k).place = .completed := rfl
  rw [step, FileState.step, if_pos hplace]
  rcases Nat.lt_or_ge (m + k) data.length with hmore | hend
  · rw [if_pos hmore, onComplete_of_more (by rw [hec]; rfl) (by rw [hbytes, hlen]; omega), hbytes]
    show some (FileState.mk (WriteOp.mk .reset data ⟨m + k, data.length - m - k⟩)
      (OpenFile.mk _ (p + m + k)) .queued) = _
    rw [Nat.sub_sub, Nat.add_assoc]
    rfl
  · rw [if_neg (by omega), onComplete_of_done (by rw [hec]; rfl) (by rw [hbytes, hlen]; omega),
      hbytes]
    rfl

/-- The operation has called back without error, the whole buffer is in the file and the offset
behind it. -/
def Wrote (F : List Byte) (p : ℕ) (data : List Byte) (s : FileState WriteOp) : Prop :=
  (∃ ec, ec.isError = false ∧ s.place = .finished ec data.length) ∧
    s.file = ⟨OpenFile.splice F p data, p + data.length⟩

/-- The condition on the `::write`s: each accepts at least a byte. -/
abbrev Short : FileState WriteOp → FileEvent → Prop := FileState.Short fun op _ ↦ op.requested

/-- All is written, and the operation calls back. -/
theorem wrote_of_all (hk : m + k = data.length) :
    Wrote F p data { writtenAt F p data m k with place := .finished (.system 0) (m + k) } := by
  refine ⟨⟨.system 0, rfl, by rw [hk]⟩, ?_⟩
  show OpenFile.mk (OpenFile.splice F p (data.take (m + k))) (p + m + k) = _
  rw [Nat.add_assoc, hk, List.take_length]

/-- **A write comes to its end**, however its calls are cut short. The induction is on what is left:
each call takes at least a byte of it. -/
theorem inevitable_queuedAt (hp : p ≤ F.length) (hm : m < data.length) :
    Transition.Inevitable step Short (Wrote F p data) (queuedAt F p data m) := by
  induction hn : data.length - m using Nat.strongRecOn generalizing m with
  | ind n ih =>
    have hreq : (queuedAt F p data m).op.requested = min (data.length - m) 65536 := rfl
    refine FileState.inevitable_of_worker rfl (Nat.le_refl _) ⟨_, rfl, id⟩ (fun _ h ↦ h)
      fun k hk hpos ↦ ⟨_, step_queuedAt hp hm hk, ?_⟩
    have hkpos : 0 < k := hpos (by show 0 < min (data.length - m) 65536; omega)
    rw [hreq] at hk
    -- the count is posted; the dispatch queues the operation again or calls back
    refine FileState.inevitable_of_dispatch trivial
      (step_writtenAt F p (by omega : m + k ≤ data.length) (by omega)) ?_
    rcases Nat.lt_or_ge (m + k) data.length with hmore | hend
    · rw [if_pos hmore]
      exact ih _ (by omega) hmore rfl
    · rw [if_neg (by omega)]
      exact .now (wrote_of_all (by omega))

/-- Nothing to write: no `::write` is made, and the dispatch calls back. -/
theorem inevitable_nil : Transition.Inevitable step Short (Wrote F p []) (asynWrite ⟨F, p⟩ []) := by
  refine FileState.inevitable_of_worker rfl (Nat.zero_le _) ⟨0, rfl, fun h ↦ h⟩ (fun _ h ↦ h)
    fun k hk _ ↦ ?_
  obtain rfl : k = 0 := Nat.le_zero.1 hk
  refine ⟨_, rfl, FileState.inevitable_of_dispatch trivial rfl (.now ⟨⟨.noError, rfl, rfl⟩, ?_⟩)⟩
  rw [OpenFile.splice_nil]
  rfl

/-- **A write of any length comes to its end** with the whole buffer in the file. -/
theorem inevitable_write (data : List Byte) (hp : p ≤ F.length) :
    Transition.Inevitable step Short (Wrote F p data) (asynWrite ⟨F, p⟩ data) := by
  rcases Nat.eq_zero_or_pos data.length with hz | hpos
  · obtain rfl := List.length_eq_zero_iff.1 hz
    exact inevitable_nil
  · rw [← queuedAt_zero]
    exact inevitable_queuedAt hp hpos

end WriteOp

end JnetLib.Epoll
