import JnetLib.File.Write

/-!
# The order of what is written to a file

`pieces_of_run` says what is in the file when every write has called back: each buffer in pieces of
64 KiB, all of them and in order; and the buffers follow one another if none longer than 64 KiB is
outstanding together with another.

The first part is `InPieces`. The second is about the order of the operations, and needs that a
buffer of more than one piece is alone (`Apart`). `Whole` keeps a list of the operations in the
order in which they began, with the buffer that is not yet complete at its end; only an operation
that is alone has such a rest.

A buffer of 64 KiB and one byte with another behind it is not whole in the file (`mixed_long`): the
operation is behind its first piece when the other one is queued, and comes back behind it.
-/

namespace JnetLib.File

namespace Writes

variable {ι : Type} [DecidableEq ι]

section Invariant

variable {s s' : Writes ι} {i j : ι} {op op' : WriteOp} {buf p : List Byte}

/-- The operation has written its first piece, if it has one. -/
def Begun (s : Writes ι) (i : ι) : Prop :=
  (s.called i).isSome ∧ ∀ op, s.ops i = some op → op.consumed ≠ 0 ∨ op.posted ≠ none

/-- The operation is the only one outstanding. -/
def Alone (s : Writes ι) (i : ι) : Prop := ∀ j, j ≠ i → s.ops j = none

/-- The invariant for buffers that are kept apart: what was written is, but for the `rest` of an
operation that is the only one outstanding, the complete buffers in the order in which their
operations began. -/
structure Whole (s : Writes ι) (order : List ι) (rest : List Byte) : Prop where
  inPieces : s.InPieces
  small : (∀ i op, s.ops i = some op → op.start.length ≤ maxWriteBufferSize) ∨ ∃ i, s.Alone i
  nodup : order.Nodup
  begun : ∀ i, i ∈ order ↔ s.Begun i
  bytes : s.bytes ++ rest = order.flatMap fun i ↦ (s.called i).getD []
  alone : rest ≠ [] → ∃ i op, s.ops i = some op ∧ s.Begun i ∧ s.Alone i
  others : ∀ i op, s.ops i = some op → s.Begun i → op.rest = rest

omit [DecidableEq ι] in
theorem Alone.eq (h : s.Alone j) (ho : s.ops i = some op) : i = j := by
  by_contra hne
  rw [h i hne] at ho
  cases ho

/-- An operation in memory is the one that is alone, whatever becomes of it. -/
theorem Alone.update {o : Option WriteOp} (h : s.Alone j) (ho : s.ops i = some op)
    (hs' : s'.ops = Function.update s.ops i o) : s'.Alone j := by
  obtain rfl := h.eq ho
  intro k hk
  rw [hs', Function.update_of_ne hk, h k hk]

/-- A step of one operation, which keeps its buffer or ends, keeps long buffers alone. -/
theorem small_update {o : Option WriteOp}
    (h : (∀ i op, s.ops i = some op → op.start.length ≤ maxWriteBufferSize) ∨ ∃ i, s.Alone i)
    (ho : s.ops i = some op) (hop : ∀ op', o = some op' → op'.start = op.start)
    (hs' : s'.ops = Function.update s.ops i o) :
    (∀ i op, s'.ops i = some op → op.start.length ≤ maxWriteBufferSize) ∨ ∃ i, s'.Alone i := by
  refine h.imp (fun hs j op' ho' ↦ ?_) fun ⟨j, hj⟩ ↦ ⟨j, hj.update ho hs'⟩
  rw [hs'] at ho'
  rcases update_cases ho' with ⟨rfl, ho''⟩ | ⟨-, ho''⟩
  · rw [hop op' ho'']
    exact hs _ op ho
  · exact hs j op' ho''

/-- A short buffer that was begun is written. -/
theorem InPieces.rest_eq_nil (h : s.InPieces) (ho : s.ops i = some op) (hb : s.Begun i)
    (hlen : op.start.length ≤ maxWriteBufferSize) : op.rest = [] := by
  rcases h.far i op ho with hz | hfar
  · cases hp : op.posted with
    | none => exact absurd hp ((hb.2 op ho).resolve_left (not_not.2 hz))
    | some n =>
      rw [WriteOp.rest, hp, Option.getD_some, h.posted i op n ho hp, WriteOp.doWrite_eq]
      refine List.drop_eq_nil_of_le (le_min ?_ le_rfl)
      rw [WriteOp.buffer, List.length_drop]
      exact (Nat.sub_le ..).trans hlen
  · rw [WriteOp.rest, WriteOp.buffer, List.drop_eq_nil_of_le (hlen.trans hfar), List.drop_nil]

variable {order : List ι} {rest : List Byte}

theorem whole_start : Whole (start : Writes ι) [] [] where
  inPieces := inPieces_start
  small := .inl fun _ _ h ↦ by cases h
  nodup := List.nodup_nil
  begun i := ⟨fun h ↦ absurd h List.not_mem_nil, fun h ↦ absurd h.1 (by simp [start])⟩
  bytes := rfl
  alone h := absurd rfl h
  others _ _ h := by cases h

/-- Where a buffer may be passed, everything begun is written. -/
theorem Whole.rest_eq_nil (h : s.Whole order rest) (ha : s.Apart (.call i buf)) : rest = [] := by
  by_contra hne
  obtain ⟨j, op, ho, hb, -⟩ := h.alone hne
  rcases ha with hnone | ⟨-, hsmall⟩
  · rw [hnone j] at ho
    cases ho
  · exact hne ((h.others j op ho hb).symm.trans (h.inPieces.rest_eq_nil ho hb (hsmall j op ho)))

/-- A call. -/
theorem Whole.call (h : s.Whole order rest) (ha : s.Apart (.call i buf)) (hi : s.called i = none) :
    Whole ({ s with
      ops := Function.update s.ops i (some ⟨buf, 0, none⟩)
      called := Function.update s.called i (some buf) }.beginWrite i) order rest := by
  obtain rfl := h.rest_eq_nil ha
  have hmem : i ∉ order := fun hb ↦ by
    have hc := ((h.begun i).1 hb).1
    rw [hi] at hc
    cases hc
  refine ⟨h.inPieces.call hi, ?_, h.nodup, fun j ↦ ?_, ?_, fun hne ↦ absurd rfl hne,
    fun j op ho hb ↦ ?_⟩
  · rcases ha with hnone | ⟨hlen, hsmall⟩
    · exact .inr ⟨i, fun j hne ↦ by simp [beginWrite, hne, hnone j]⟩
    · refine .inl fun j op ho ↦ ?_
      rcases update_cases ho with ⟨rfl, ho'⟩ | ⟨-, ho'⟩
      · obtain rfl := Option.some.inj ho'
        exact hlen
      · exact hsmall j op ho'
  · rcases eq_or_ne j i with rfl | hne
    · refine iff_of_false hmem fun hb ↦ ?_
      rcases hb.2 _ (Function.update_self ..) with hc | hc <;> exact absurd rfl hc
    · rw [h.begun j]
      simp [Begun, beginWrite, hne]
  · show s.bytes ++ [] = order.flatMap fun j ↦ (Function.update s.called i (some buf) j).getD []
    rw [h.bytes]
    refine List.flatMap_congr fun j hj ↦ ?_
    rw [Function.update_of_ne fun hb : j = i ↦ hmem (hb ▸ hj)]
  · rcases update_cases ho with ⟨rfl, ho'⟩ | ⟨hne, ho'⟩
    · obtain rfl := Option.some.inj ho'
      rcases hb.2 _ (Function.update_self ..) with hc | hc <;> exact absurd rfl hc
    · refine h.others j op ho' ?_
      simpa [Begun, beginWrite, hne] using hb

omit [DecidableEq ι] in
/-- What `do_write` writes, and what is left then. -/
theorem bytes_write :
    bytes { s with
      out := if op.doWrite = 0 then s.out else s.out ++ [(i, op.buffer.take op.doWrite)] } ++
        op.buffer.drop op.doWrite = s.bytes ++ op.buffer := by
  unfold bytes
  split
  case isTrue hz => rw [hz, List.drop_zero]
  case isFalse hz =>
    rw [List.flatMap_append, List.flatMap_singleton, List.append_assoc, List.take_append_drop]

/-- An operation that writes has begun, and the others have or have not as before. -/
theorem begun_write {op' : WriteOp} (hi : (s.called i).isSome) (hp : op'.posted ≠ none) :
    Begun { s with ops := Function.update s.ops i (some op') } i := by
  refine ⟨hi, fun op ho ↦ ?_⟩
  rcases update_cases ho with ⟨-, ho'⟩ | ⟨hne, -⟩
  · obtain rfl := Option.some.inj ho'
    exact .inr hp
  · exact absurd rfl hne

theorem begun_write_of_ne {op' : WriteOp} (hji : j ≠ i) :
    Begun { s with ops := Function.update s.ops i (some op') } j ↔ s.Begun j := by
  simp [Begun, hji]

/-- The state behind `do_write`. -/
def wrote (s : Writes ι) (i : ι) (op : WriteOp) : Writes ι :=
  { s with
    worker := none
    out := if op.doWrite = 0 then s.out else s.out ++ [(i, op.buffer.take op.doWrite)]
    ops := Function.update s.ops i (some { op with posted := some op.doWrite }) }

/-- A later write of an operation goes on with its buffer. -/
theorem Whole.write_goesOn (h : s.Whole order op.buffer) (hkept : InPieces (s.wrote i op))
    (ho : s.ops i = some op) (hb : s.Begun i) :
    Whole (s.wrote i op) order (op.buffer.drop op.doWrite) := by
  have hnow : Begun (s.wrote i op) i := begun_write hb.1 (by simp)
  have hleft : op.buffer.drop op.doWrite ≠ [] → op.buffer ≠ [] := fun hd hnil ↦
    hd (by rw [hnil, List.drop_nil])
  refine ⟨hkept, small_update h.small ho (by simp) rfl, h.nodup, fun j ↦ ?_,
    bytes_write.trans h.bytes, fun hd ↦ ?_, fun j op' ho' hj ↦ ?_⟩
  · rcases eq_or_ne j i with rfl | hne
    · exact iff_of_true ((h.begun j).2 hb) hnow
    · exact (h.begun j).trans (begun_write_of_ne hne).symm
  · obtain ⟨j, op', ho', -, hj⟩ := h.alone (hleft hd)
    obtain rfl := hj.eq ho
    exact ⟨i, _, Function.update_self .., hnow, hj.update ho rfl⟩
  · rcases update_cases ho' with ⟨rfl, ho''⟩ | ⟨hne, ho''⟩
    · obtain rfl := Option.some.inj ho''
      rfl
    · -- the other operation has begun too, so it has nothing left, and neither has this one
      have hr := h.others j op' ho'' ((begun_write_of_ne hne).1 hj)
      by_contra hd
      have hbuf : op.buffer ≠ [] := fun hnil ↦ hd (by rw [hr, hnil, List.drop_nil])
      obtain ⟨k, -, -, -, hk⟩ := h.alone hbuf
      exact hne ((hk.eq ho'').trans (hk.eq ho).symm)

/-- The first write of an operation begins its buffer. -/
theorem Whole.write_begins (h : s.Whole order []) (hkept : InPieces (s.wrote i op))
    (ho : s.ops i = some op) (hcalled : s.called i = some op.start) (hbuf : op.buffer = op.start)
    (hb : ¬s.Begun i) : Whole (s.wrote i op) (order ++ [i]) (op.buffer.drop op.doWrite) := by
  have hnow : Begun (s.wrote i op) i := begun_write (by rw [hcalled]; rfl) (by simp)
  have hlone : op.buffer.drop op.doWrite ≠ [] → s.Alone i := by
    intro hd
    rcases h.small with hs | ⟨j, hj⟩
    · refine absurd (List.drop_eq_nil_of_le ?_) hd
      rw [WriteOp.doWrite_eq, hbuf, Nat.min_eq_right (hs i op ho)]
    · obtain rfl := hj.eq ho
      exact hj
  have hmem : i ∉ order := fun hi ↦ hb ((h.begun i).1 hi)
  refine ⟨hkept, small_update h.small ho (by simp) rfl, nodup_concat h.nodup hmem,
    fun j ↦ ?_, ?_, fun hd ↦ ?_, fun j op' ho' hj ↦ ?_⟩
  · rw [List.mem_append, List.mem_singleton]
    rcases eq_or_ne j i with rfl | hne
    · exact iff_of_true (.inr rfl) hnow
    · exact (or_iff_left hne).trans ((h.begun j).trans (begun_write_of_ne hne).symm)
  · have hbytes := h.bytes
    rw [List.append_nil] at hbytes
    show _ = (order ++ [i]).flatMap fun j ↦ (s.called j).getD []
    rw [List.flatMap_append, ← hbytes, List.flatMap_singleton, hcalled, Option.getD_some, ← hbuf]
    exact bytes_write
  · exact ⟨i, _, Function.update_self .., hnow, (hlone hd).update ho rfl⟩
  · rcases update_cases ho' with ⟨rfl, ho''⟩ | ⟨hne, ho''⟩
    · obtain rfl := Option.some.inj ho''
      rfl
    · rw [h.others j op' ho'' ((begun_write_of_ne hne).1 hj)]
      by_contra hd
      exact hne ((hlone (Ne.symm hd)).eq ho'')

/-- A write: the first one of an operation begins its buffer, a later one goes on with it. -/
theorem Whole.write (h : s.Whole order rest) (hw : s.worker = some i) (ho : s.ops i = some op) :
    ∃ order', Whole { s with
      worker := none
      out := if op.doWrite = 0 then s.out else s.out ++ [(i, op.buffer.take op.doWrite)]
      ops := Function.update s.ops i (some { op with posted := some op.doWrite }) }
      order' (op.buffer.drop op.doWrite) := by
  have hp : op.posted = none := by
    obtain ⟨op', ho', hp⟩ := h.inPieces.waiting i (by rw [hw]; simp)
    obtain rfl := Option.some.inj (ho.symm.trans ho')
    exact hp
  have hrest : op.rest = op.buffer := by rw [WriteOp.rest, hp]; rfl
  have hcalled := (h.inPieces.known i op ho).1
  by_cases hb : s.Begun i
  · obtain rfl : op.buffer = rest := hrest.symm.trans (h.others i op ho hb)
    exact ⟨order, h.write_goesOn (h.inPieces.write hw ho) ho hb⟩
  · have hzero : op.consumed = 0 := by
      by_contra hz
      refine hb ⟨by rw [hcalled]; rfl, fun op' ho' ↦ ?_⟩
      obtain rfl := Option.some.inj (ho.symm.trans ho')
      exact .inl hz
    have hbuf : op.buffer = op.start := by rw [WriteOp.buffer, hzero, List.drop_zero]
    -- everything begun before is written
    obtain rfl : rest = [] := by
      by_contra hne
      obtain ⟨j, op', ho', hj, hja⟩ := h.alone hne
      obtain rfl := hja.eq ho
      exact hb hj
    exact ⟨order ++ [i], h.write_begins (h.inPieces.write hw ho) ho hcalled hbuf hb⟩

/-- A completion. -/
theorem Whole.onComplete {n : ℕ} (h : s.Whole order rest) (ho : s.ops i = some op)
    (hn : op.posted = some n) : (s.onComplete i op n).Whole order rest := by
  have hkept := h.inPieces.onComplete ho hn
  obtain ⟨hcalled, -⟩ := h.inPieces.known i op ho
  have hbegun : s.Begun i := by
    refine ⟨by rw [hcalled]; rfl, fun op' ho' ↦ ?_⟩
    obtain rfl := Option.some.inj (ho.symm.trans ho')
    exact .inr (by rw [hn]; simp)
  have hrest := h.others i op ho hbegun
  have hdrop := rest_of_posted hn
  have hfar := hkept.far i
  rw [Writes.onComplete] at hkept hfar ⊢
  split
  case isTrue hb =>
    rw [if_pos hb] at hkept hfar
    -- a rest is left: something has been written, so the operation stays the one that has begun
    have hne : op.consumed + n ≠ 0 := by
      rcases Nat.eq_zero_or_pos n with rfl | hpos
      · have hd := h.inPieces.posted i op 0 ho hn
        have hnil : op.buffer = [] := WriteOp.doWrite_eq_zero.1 hd.symm
        exact absurd hnil hb
      · omega
    have hnow : Begun ({ s with
        ops := Function.update s.ops i (some ⟨op.start, op.consumed + n, none⟩)
      }.beginWrite i) i := by
      refine ⟨hbegun.1, fun op' ho' ↦ ?_⟩
      rcases update_cases ho' with ⟨-, ho''⟩ | ⟨hne', -⟩
      · obtain rfl := Option.some.inj ho''
        exact .inl hne
      · exact absurd rfl hne'
    refine ⟨hkept, small_update h.small ho (by simp) rfl, h.nodup, fun j ↦ (h.begun j).trans ?_,
      h.bytes, fun hr ↦ ?_, fun j op' ho' hj ↦ ?_⟩
    · rcases eq_or_ne j i with rfl | hji
      · exact iff_of_true hbegun hnow
      · simp [Begun, beginWrite, hji]
    · obtain ⟨j, op', ho', -, hj⟩ := h.alone hr
      obtain rfl := hj.eq ho
      exact ⟨i, _, Function.update_self .., hnow, hj.update ho rfl⟩
    · rcases update_cases ho' with ⟨rfl, ho''⟩ | ⟨hji, ho''⟩
      · obtain rfl := Option.some.inj ho''
        exact hdrop.symm.trans hrest
      · exact h.others j op' ho'' (by simpa [Begun, beginWrite, hji] using hj)
  case isFalse hb =>
    rw [if_neg hb] at hkept
    obtain rfl : rest = [] := hrest.symm.trans (hdrop.trans (not_not.1 hb))
    refine ⟨hkept, small_update h.small ho (by simp) rfl, h.nodup, fun j ↦ (h.begun j).trans ?_,
      h.bytes, fun hr ↦ absurd rfl hr, fun j op' ho' hj ↦ ?_⟩
    · rcases eq_or_ne j i with rfl | hji
      · refine iff_of_true hbegun ⟨hbegun.1, fun op' ho' ↦ ?_⟩
        exact absurd ho' (by simp)
      · simp [Begun, hji]
    · rcases update_cases ho' with ⟨rfl, ho''⟩ | ⟨hji, ho''⟩
      · cases ho''
      · exact h.others j op' ho'' (by simpa [Begun, hji] using hj)

/-- **Every step keeps the invariant** if it is no call that puts a long buffer beside another. -/
theorem whole_step {ev : WriteEvent ι} (h : s.Whole order rest) (ha : s.Apart ev)
    (hst : s.step ev = some s') : ∃ order' rest', s'.Whole order' rest' := by
  cases ev with
  | call i buf =>
    rw [step.eq_def] at hst
    dsimp only at hst
    split at hst
    case h_2 => cases hst
    case h_1 hi =>
      obtain rfl := Option.some.inj hst
      exact ⟨order, rest, h.call ha hi⟩
  | take =>
    have hk := inPieces_step h.inPieces hst
    rw [step.eq_def] at hst
    dsimp only at hst
    split at hst
    case h_2 => cases hst
    case h_1 i queue hw hq =>
      obtain rfl := Option.some.inj hst
      exact ⟨order, rest, hk, h.small, h.nodup, h.begun, h.bytes, h.alone, h.others⟩
  | write =>
    rw [step.eq_def] at hst
    dsimp only at hst
    split at hst
    case h_1 => cases hst
    case h_2 i hw =>
      obtain ⟨op, ho, rfl⟩ := Option.map_eq_some_iff.1 hst
      obtain ⟨order', hwhole⟩ := h.write hw ho
      exact ⟨order', _, hwhole⟩
  | dispatch i =>
    rw [step.eq_def] at hst
    dsimp only at hst
    split at hst
    case h_1 => cases hst
    case h_2 op ho =>
      obtain ⟨n, hn, rfl⟩ := Option.map_eq_some_iff.1 hst
      exact ⟨order, rest, h.onComplete ho hn⟩

/-- When every operation has called back, the buffers that were kept apart are complete. -/
theorem Whole.unmixed (h : s.Whole order rest) (hdone : ∀ i, s.ops i = none) : s.Unmixed := by
  obtain rfl : rest = [] := by
    by_contra hne
    obtain ⟨i, op, ho, -⟩ := h.alone hne
    rw [hdone i] at ho
    cases ho
  refine ⟨order, h.nodup, fun i ↦ (h.begun i).trans (and_iff_left fun op ho ↦ ?_), ?_⟩
  · rw [hdone i] at ho
    cases ho
  · rw [← h.bytes, List.append_nil]

/-- **What is in the file when every write has called back.** The pieces of each operation are those
of its buffer, complete and in order; and the buffers themselves follow one another if no buffer
longer than 64 KiB was outstanding together with another. -/
theorem pieces_of_run {l : List (WriteEvent ι)} (hrun : Transition.run step start l = some s)
    (hdone : ∀ i, s.ops i = none) :
    (∀ i buf, s.called i = some buf → s.pieces i = Cut.cut maxWriteBufferSize buf) ∧
      (Transition.RunMeets step Apart (start : Writes ι) l → s.Unmixed) := by
  refine ⟨fun i buf hc ↦ ?_, fun hl ↦ ?_⟩
  · have hk : s.InPieces :=
      Transition.invariant_run' (fun _ _ _ h hst ↦ inPieces_step h hst) inPieces_start hrun
    exact hk.finished i buf hc (hdone i)
  · obtain ⟨order, rest, hw⟩ := Transition.invariant_run
      (I := fun s ↦ ∃ order rest, Whole s order rest)
      (fun _ _ _ ⟨_, _, h⟩ ha hst ↦ whole_step h ha hst) ⟨[], [], whole_start⟩ hl hrun
    exact hw.unmixed hdone

end Invariant

/-- Two short buffers outstanding together. -/
theorem pieces_of_run_short :
    let l : List (WriteEvent Bool) :=
      [.call true [1, 2], .call false [3], .take, .write, .take, .write, .dispatch false,
        .dispatch true]
    ∃ s, Transition.run step start l = some s ∧
      (∀ i buf, s.called i = some buf → s.pieces i = Cut.cut maxWriteBufferSize buf) ∧
      s.Unmixed := by
  intro l
  have hrun : Transition.run step start l = some _ := rfl
  have hl : Transition.RunMeets step Apart start l := by decide
  obtain ⟨hpieces, hunmixed⟩ := pieces_of_run hrun (by decide)
  exact ⟨_, hrun, hpieces, hunmixed hl⟩

/-- **The pieces of a long buffer let another buffer in between**, whatever the bytes: after the
first 64 KiB the operation queues up behind the other one. -/
theorem run_long {a b c : List Byte} (ha : a.length = maxWriteBufferSize) (hb : b ≠ [])
    (hb' : b.length ≤ maxWriteBufferSize) (hc : c ≠ []) (hc' : c.length ≤ maxWriteBufferSize) :
    ∃ s, Transition.run step (start : Writes Bool)
        [.call true (a ++ b), .call false c, .take, .write, .dispatch true, .take, .write,
          .dispatch false, .take, .write, .dispatch true] = some s ∧
      (∀ i, s.ops i = none) ∧ s.called true = some (a ++ b) ∧ s.called false = some c ∧
      s.out = [(true, a), (false, c), (true, b)] := by
  have hm : maxWriteBufferSize ≠ 0 := by decide
  have hbuf : ∀ p, (⟨a ++ b, 0, p⟩ : WriteOp).buffer = a ++ b := fun p ↦ List.drop_zero
  have hbuf' : ∀ p, (⟨a ++ b, maxWriteBufferSize, p⟩ : WriteOp).buffer = b := fun p ↦ by
    rw [WriteOp.buffer, ← ha, List.drop_left]
  have hbuf'' : ∀ p, (⟨a ++ b, maxWriteBufferSize + b.length, p⟩ : WriteOp).buffer = [] := by
    intro p
    rw [WriteOp.buffer, ← ha, ← List.length_append, List.drop_length]
  have hcbuf : ∀ p, (⟨c, 0, p⟩ : WriteOp).buffer = c := fun p ↦ List.drop_zero
  have hcbuf' : ∀ p, (⟨c, c.length, p⟩ : WriteOp).buffer = [] := fun p ↦ List.drop_length
  have hfirst : (⟨a ++ b, 0, none⟩ : WriteOp).doWrite = maxWriteBufferSize := by
    rw [WriteOp.doWrite_eq, hbuf, List.length_append, ha]
    exact Nat.min_eq_left (Nat.le_add_right ..)
  have hother : (⟨c, 0, none⟩ : WriteOp).doWrite = c.length := by
    rw [WriteOp.doWrite_eq, hcbuf, Nat.min_eq_right hc']
  have hsecond : (⟨a ++ b, maxWriteBufferSize, none⟩ : WriteOp).doWrite = b.length := by
    rw [WriteOp.doWrite_eq, hbuf', Nat.min_eq_right hb']
  have htake : (a ++ b).take maxWriteBufferSize = a := by rw [← ha, List.take_left]
  simp [Transition.run_cons, step, start, beginWrite, onComplete, hfirst, hother, hsecond, hm,
    hbuf, hbuf', hbuf'', hcbuf, hcbuf', hb, hc, htake]

/-- The two orders there are for two operations. -/
theorem order_cases {order : List Bool} (hnd : order.Nodup) (hmem : ∀ i, i ∈ order) :
    order = [true, false] ∨ order = [false, true] := by
  rcases order with _ | ⟨x, _ | ⟨y, _ | ⟨z, l⟩⟩⟩
  · exact absurd (hmem true) List.not_mem_nil
  · exact absurd (List.mem_singleton.1 (hmem !x)) (by simp)
  · revert hnd
    clear hmem
    revert x y
    decide
  · cases x <;> cases y <;> cases z <;> simp at hnd

/-- A buffer of 64 KiB and one byte, all zero, and a buffer of the byte one behind it. -/
theorem mixed_long :
    ∃ s, Transition.run step (start : Writes Bool)
        [.call true (List.replicate 65536 0 ++ [0]), .call false [1], .take, .write,
          .dispatch true, .take, .write, .dispatch false, .take, .write, .dispatch true] = some s ∧
      (∀ i, s.ops i = none) ∧ ¬s.Unmixed := by
  obtain ⟨s, hrun, hdone, ht, hf, hout⟩ :=
    run_long (a := List.replicate 65536 0) (b := [0]) (c := [1]) List.length_replicate
      (by decide) (by decide) (by decide) (by decide)
  refine ⟨s, hrun, hdone, ?_⟩
  rintro ⟨order, hnd, hmem, hbytes⟩
  have hall : ∀ i, i ∈ order := by
    rw [Bool.forall_bool, hmem, hmem, ht, hf]
    exact ⟨rfl, rfl⟩
  rw [bytes, hout] at hbytes
  rcases order_cases hnd hall with rfl | rfl
  · -- behind the zeros there is a one on the left and a zero on the right
    simp only [List.flatMap_cons, List.flatMap_nil, List.append_nil, ht, hf, Option.getD_some,
      List.append_assoc, List.append_cancel_left_eq] at hbytes
    exact absurd hbytes (by decide)
  · -- the first byte is a zero on the left and a one on the right
    have hzero : List.replicate 65536 (0 : Byte) = 0 :: List.replicate 65535 0 := rfl
    simp only [List.flatMap_cons, hzero, hf, Option.getD_some, List.cons_append] at hbytes
    exact absurd (List.cons.inj hbytes).1 (by decide)

end Writes

end JnetLib.File
