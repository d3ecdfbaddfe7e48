import JnetLib.Epoll.ReadLine

/-!
# The last line of a file on the epoll backend

What `asyn_read_line` delivers when no end of a line is left: the end of the file ends the
operation, and what it reports should be all that is left.

The give-back of a part of the end-of-line string runs on every chunk, also on the last one, which
has no chunk behind it to complete the part. So the bytes of an unfinished end of line are never
delivered: `readsRest_iff` says that the rest of the file is delivered exactly when no chunk of it
ends in a part of the end-of-line string.

## What the theorem rests on

* With full reads every operation comes to its end, and reports no error but the end of the file
  (`inevitable_finished`, from `Progress`).
* A full chunk of which nothing is given back leads to the next one (`runsTo_next`); so where no
  chunk gives anything back, the last one is reached and the operation has the whole rest.
* The first chunk that gives something back ends the operation, and what it gives back is missing
  (`not_endsWith_of_part`). A search that leaves its table, which takes a string of `2 ^ 31`
  letters, has no result at all (`not_completes_of_stuck`).
-/

namespace JnetLib.Epoll

open JnetLib.File

/-- Chunk `j` of the file from `p` on, as full reads cut it. -/
def chunkAt (F : List Byte) (p j : ℕ) : List Byte := (F.drop (p + 65536 * j)).take 65536

/-- No chunk up to the end of the file ends in a part of the end-of-line string. For a string of
`2 ^ 31` characters or more, whose table is not filled to its end, the search moreover reads no
unwritten entry. -/
structure NothingGivenBack (F : List Byte) (p : ℕ) (eol : List Byte) : Prop where
  noPart : ∀ j k, p + 65536 * j < F.length → 0 < k → k < eol.length →
    ¬eol.take k <:+ chunkAt F p j
  searched : 2 ^ 31 ≤ eol.length → ∀ j, p + 65536 * j < F.length →
    (findEol (chunkAt F p j) eol).isSome

namespace ReadLineOp

variable {op : ReadLineOp} {file : OpenFile} {ec : ErrorCode} {bytes found last : ℕ}

/-- A chunk that is not full once its part is given back ends the operation. -/
theorem afterSearch_end (hf : found = bytes) (hne : bytes - last ≠ maxReadBufferSize)
    (hr : bytes - last < op.remainLength) :
    op.afterSearch file ec bytes found last =
      ⟨{ op with
          bufferPos := op.bufferPos + (bytes - last)
          remainLength := op.remainLength - (bytes - last) },
        file.seekCurrent (toInt64 (-last)), .finished .eof (op.bufferPos + (bytes - last))⟩ := by
  have hne' : (op.remainLength - (bytes - last) != 0) = true := by
    rw [bne_iff_ne]
    omega
  rw [afterSearch_missing (by omega), bne_iff_ne.2 hne, hne', Bool.and_self, Bool.or_true,
    if_pos rfl]

end ReadLineOp

namespace ReadLineState

variable {F eol : List Byte} {p len j : ℕ} {incEol : Bool}

/-- The operation has called back with the end of the file and delivered `rest`. -/
def EndsWith (rest : List Byte) (s : ReadLineState) : Prop :=
  s.place = .finished .eof rest.length ∧ s.op.buffer.take rest.length = rest

theorem EndsWith.finished {s : ReadLineState} {rest : List Byte} (h : s.EndsWith rest) :
    s.Finished :=
  ⟨_, _, h.1⟩

/-- What the search of a chunk answers when no end of a line is left. -/
theorem findEol_chunkAt (h2 : 2 ≤ eol.length) (hnone : ∀ q, p ≤ q → ¬OccursAt eol F q) (j : ℕ) :
    (∃ last, findEol (chunkAt F p j) eol = some ((chunkAt F p j).length, last) ∧
      IsLongestOverlap eol (chunkAt F p j) last) ∨
      2 ^ 31 ≤ eol.length ∧ findEol (chunkAt F p j) eol = none := by
  have hlen : (chunkAt F p j).length ≤ 65536 := by
    rw [chunkAt, List.length_take]
    exact Nat.min_le_left _ _
  refine (findEol_spec_or (chunkAt F p j) h2 (by omega)).imp_left ?_
  rintro ⟨⟨found, last⟩, hr, hs⟩
  cases hs with
  | missing h _ hlast => exact ⟨last, by rw [hr, ← h], hlast⟩
  | found h first =>
    -- an occurrence in the chunk is one in the file
    have hdrop : eol <+: F.drop (p + 65536 * j + found) := by
      have hpre := (occursAt_iff_isPrefix (by have := h.1; omega)).1 h
      rw [chunkAt, List.drop_take, List.drop_drop] at hpre
      exact hpre.trans (List.take_prefix _ _)
    have hle := hdrop.length_le
    rw [List.length_drop] at hle
    exact absurd ((occursAt_iff_isPrefix (by omega)).2 hdrop) (hnone _ (by omega))

/-- The worker's step when nothing is left to read. -/
theorem step_atChunk_end (hroom : 65536 * j < len) :
    step (atChunk F p len eol incEol j) (.worker (.bytes 0)) =
      some (readChunk F p len eol incEol j 0) := by
  have hreq : 0 < (atChunk F p len eol incEol j).op.requested :=
    Nat.lt_min.2 ⟨by show 0 < len - 65536 * j; omega, by decide⟩
  have hstore : (atChunk F p len eol incEol j).op.store [] = (F.drop p).take (65536 * j) := by
    rw [ReadLineOp.store, List.append_nil, List.length_nil, Nat.add_zero, List.take_append_drop]
    rfl
  rw [step, if_pos ⟨rfl, Nat.zero_le _⟩, ReadLineOp.doRead, if_pos hreq]
  simp only [Outcome.moved_bytes, List.take_zero, hstore]
  rfl

/-- Nothing left to read ends the operation with all it has. -/
theorem endsWith_of_end (len : ℕ) (eol : List Byte) (incEol : Bool) (hroom : 65536 * j < len)
    (hend : F.length ≤ p + 65536 * j)
    (hall : 65536 * j = (F.drop p).length) :
    ∃ t, Transition.RunsTo step FullRead (atChunk F p len eol incEol j) t ∧
      t.EndsWith (F.drop p) := by
  have hfull : FullRead (atChunk F p len eol incEol j) (.worker (.bytes 0)) := by
    have hrest : (atChunk F p len eol incEol j).file.rest.length = 0 := by
      show (F.drop (p + 65536 * j)).length = 0
      rw [List.length_drop]
      omega
    show Outcome.bytes 0 = .bytes (min _ _)
    rw [hrest, Nat.min_zero]
  have hec : (readChunk F p len eol incEol j 0).op.base.readerError.isError = false := rfl
  have hrem : 0 < (readChunk F p len eol incEol j 0).op.remainLength := by
    show 0 < len - 65536 * j
    omega
  have hplace : (readChunk F p len eol incEol j 0).place = .completed := rfl
  have hstep : step (readChunk F p len eol incEol j 0) .dispatch =
      some ⟨(readChunk F p len eol incEol j 0).op, (readChunk F p len eol incEol j 0).file,
        .finished .eof (65536 * j)⟩ := by
    rw [step, if_pos hplace, ReadLineOp.onComplete_of_zero hec rfl hrem]
    rfl
  refine ⟨_, .head hfull (step_atChunk_end hroom)
    (.head (FullRead.dispatch _) hstep (.refl _)), ?_, ?_⟩
  · rw [← hall]
  · show ((F.drop p).take (65536 * j + 0)).take (F.drop p).length = F.drop p
    rw [Nat.add_zero, hall, List.take_take, Nat.min_self, List.take_length]

section Chunk

variable {last : ℕ} (hlen : F.length - p < len) (hj : p + 65536 * j < F.length)

theorem length_chunkAt (F : List Byte) (p j : ℕ) :
    (chunkAt F p j).length = min 65536 (F.length - (p + 65536 * j)) := by
  rw [chunkAt, List.length_take, List.length_drop]

include hlen hj in
/-- The read of chunk `j` is full. -/
theorem length_chunkAt_eq : (chunkAt F p j).length =
    min (min (len - 65536 * j) 65536) (F.length - (p + 65536 * j)) := by
  rw [length_chunkAt]
  omega

include hlen hj in
/-- Chunk `j` read and searched. -/
theorem step_searched (eol : List Byte) (incEol : Bool) :
    Transition.RunsTo step FullRead (atChunk F p len eol incEol j)
      (readChunk F p len eol incEol j (chunkAt F p j).length) ∧
    step (readChunk F p len eol incEol j (chunkAt F p j).length) .dispatch =
      (findEol (chunkAt F p j) eol).map fun r ↦
        (readChunk F p len eol incEol j (chunkAt F p j).length).op.afterSearch
          ⟨F, p + 65536 * j + (chunkAt F p j).length⟩ (.system 0) (chunkAt F p j).length
          r.1 r.2 := by
  have hc := length_chunkAt_eq hlen hj
  have hpos : 0 < (chunkAt F p j).length := by omega
  have htake : (F.drop (p + 65536 * j)).take (chunkAt F p j).length = chunkAt F p j := by
    rw [chunkAt, List.length_take, List.take_eq_take_iff]
    omega
  refine ⟨runsTo_of_readChunk hc hpos (.refl _), ?_⟩
  rw [step_readChunk hpos (by omega), htake]

include hlen hj in
/-- **A full chunk of which nothing is given back** leads to the next one. -/
theorem runsTo_next (hr : findEol (chunkAt F p j) eol = some ((chunkAt F p j).length, 0))
    (hfull : p + 65536 * (j + 1) ≤ F.length) :
    Transition.RunsTo step FullRead (atChunk F p len eol incEol j)
      (atChunk F p len eol incEol (j + 1)) := by
  have hc : (chunkAt F p j).length = 65536 := by
    rw [length_chunkAt]
    omega
  obtain ⟨hread, hstep⟩ := step_searched hlen hj eol incEol
  rw [hr, hc, Option.map_some, afterSearch_readChunk (by omega)] at hstep
  rw [hc] at hread
  exact hread.trans (.head (FullRead.dispatch _) hstep (.refl _))

include hlen hj in
/-- **A chunk that is not full**, or of which something is given back, ends the operation. -/
theorem finished_of_chunk (incEol : Bool)
    (hr : findEol (chunkAt F p j) eol = some ((chunkAt F p j).length, last))
    (hle : last ≤ (chunkAt F p j).length) (hne : (chunkAt F p j).length - last ≠ 65536) :
    ∃ t, Transition.RunsTo step FullRead (atChunk F p len eol incEol j) t ∧
      t.place = .finished .eof (65536 * j + ((chunkAt F p j).length - last)) ∧
      t.op.buffer = (F.drop p).take (65536 * j + (chunkAt F p j).length) := by
  have hc := length_chunkAt_eq hlen hj
  obtain ⟨hread, hstep⟩ := step_searched hlen hj eol incEol
  have hrem : (chunkAt F p j).length - last <
      (readChunk F p len eol incEol j (chunkAt F p j).length).op.remainLength := by
    show _ < len - 65536 * j
    omega
  rw [hr, Option.map_some, ReadLineOp.afterSearch_end rfl hne hrem] at hstep
  exact ⟨_, hread.trans (.head (FullRead.dispatch _) hstep (.refl _)), rfl, rfl⟩

end Chunk

/-! ### Every read of a line comes to its end -/

/-- What holds along a run with full reads: nothing but the end of the file is reported. -/
inductive Progress (eol : List Byte) (s : ReadLineState) : Prop
  | queued (hp : s.place = .queued) (heol : s.op.eol = eol) (hflags : s.op.base.epollFlags = .clear)
  | completed (hp : s.place = .completed) (heol : s.op.eol = eol)
      (hec : s.op.base.readerError.isError = false) (hbytes : s.op.base.bytesTransferred ≤ 65536)
  | finished (ec : ErrorCode) (n : ℕ) (hp : s.place = .finished ec n)
      (hec : ec.isError = false ∨ ec = .eof)

/-- The chunks that are left, each of them read and then searched. -/
def chunksLeft (s : ReadLineState) : ℕ :=
  match s.place with
  | .queued => 2 * s.op.remainLength + 2
  | .completed => 2 * s.op.remainLength + 1
  | .finished _ _ => 0

theorem progress_doRead {op : ReadLineOp} (file : OpenFile) {k : ℕ} (heol : op.eol = eol)
    (hflags : op.base.epollFlags = .clear) (hk : k ≤ 65536) :
    Progress eol (op.doRead file (.bytes k)) ∧
      (op.doRead file (.bytes k)).chunksLeft = 2 * op.remainLength + 1 := by
  rw [ReadLineOp.doRead]
  split
  · refine ⟨.completed rfl heol ?_ ?_, rfl⟩
    · exact congrArg ErrorCode.isError (Operation.readerError_onCompletion hflags (.system 0) k)
    · exact (toUInt32_le k).trans hk
  · refine ⟨.completed rfl heol ?_ (Nat.zero_le _), rfl⟩
    exact congrArg ErrorCode.isError (Operation.readerError_onCompletion hflags .noError 0)

theorem progress_onComplete {op : ReadLineOp} (file : OpenFile) (h2 : 2 ≤ op.eol.length)
    (hw : op.eol.length < 2 ^ 31) (hec : op.base.readerError.isError = false)
    (hbytes : op.base.bytesTransferred ≤ 65536) :
    ∃ t, op.onComplete file = some t ∧ Progress op.eol t ∧
      t.chunksLeft < 2 * op.remainLength + 1 := by
  rcases Nat.eq_zero_or_pos op.base.bytesTransferred with hz | hpos
  · rcases Nat.eq_zero_or_pos op.remainLength with hr | hr
    · have hdone : op.onComplete file =
          some ⟨op, file, .finished op.base.readerError op.bufferPos⟩ := by
        simp [ReadLineOp.onComplete, hec, hz, hr]
      exact ⟨_, hdone, .finished _ _ rfl (.inl hec), Nat.succ_pos _⟩
    · exact ⟨_, ReadLineOp.onComplete_of_zero hec hz hr, .finished _ _ rfl (.inr rfl),
        Nat.succ_pos _⟩
  · have hlen : (op.chunk op.base.bytesTransferred).length < 2 ^ 31 := by
      rw [ReadLineOp.chunk, List.length_take]
      omega
    obtain ⟨r, hr, -⟩ := findEol_spec (op.chunk op.base.bytesTransferred) h2 hw hlen
    refine ⟨op.afterSearch file op.base.readerError op.base.bytesTransferred r.1 r.2, ?_, ?_⟩
    · rw [ReadLineOp.onComplete_of_bytes hec hpos, hr]
      rfl
    by_cases hf : r.1 < op.base.bytesTransferred
    · rw [ReadLineOp.afterSearch_found hf (by omega)]
      exact ⟨.finished _ _ rfl (.inl hec), Nat.succ_pos _⟩
    · rw [ReadLineOp.afterSearch_missing hf]
      split
      case isTrue => exact ⟨.finished _ _ rfl (.inr rfl), Nat.succ_pos _⟩
      case isFalse hmore =>
        -- only a full chunk goes on, and only with room left
        simp only [Bool.or_eq_true, Bool.and_eq_true, beq_iff_eq, bne_iff_ne, not_or, not_and,
          not_not] at hmore
        have hsize : maxReadBufferSize = 65536 := rfl
        refine ⟨.queued rfl rfl rfl, ?_⟩
        show 2 * (op.remainLength - (op.base.bytesTransferred - r.2)) + 2 < _
        omega

/-- **Every read of a line comes to its end**, without error or with the end of the file. -/
theorem inevitable_finished (file : OpenFile) (len : ℕ) (incEol : Bool) (h2 : 2 ≤ eol.length)
    (hw : eol.length < 2 ^ 31) :
    Transition.Inevitable step FullRead
      (fun s ↦ ∃ ec n, s.place = .finished ec n ∧ (ec.isError = false ∨ ec = .eof))
      (start file len eol incEol) := by
  refine .of_measure (I := Progress eol) chunksLeft (fun s hs hP ↦ ?_) (fun s a t hs ha ht ↦ ?_)
    (.queued rfl rfl rfl)
  · -- some step is possible until the end
    cases hs with
    | queued hp _ _ =>
      have hlegal : (Outcome.bytes (min s.op.requested s.file.rest.length)).Legal
          (min s.op.requested s.file.rest.length) := Nat.le_refl _
      exact ⟨.worker _, _, rfl, if_pos ⟨hp, hlegal⟩⟩
    | completed hp heol hec hbytes =>
      obtain ⟨t, ht, -⟩ := progress_onComplete s.file (heol ▸ h2) (heol ▸ hw) hec hbytes
      exact ⟨.dispatch, t, trivial, (if_pos hp).trans ht⟩
    | finished ec n hp hec => exact absurd ⟨ec, n, hp, hec⟩ hP
  · -- and every step brings the end nearer
    cases hs with
    | queued hp heol hflags =>
      cases a with
      | dispatch => simp [step, hp] at ht
      | worker o =>
        obtain rfl : o = _ := ha
        rw [step] at ht
        split at ht
        case isFalse => cases ht
        case isTrue =>
          obtain rfl := Option.some.inj ht
          have hreq : s.op.requested ≤ 65536 := Nat.min_le_right _ _
          obtain ⟨hprog, hleft⟩ := progress_doRead s.file heol hflags
            (by omega : min s.op.requested s.file.rest.length ≤ 65536)
          refine ⟨hprog, ?_⟩
          rw [hleft, chunksLeft, hp]
          exact Nat.lt_succ_self _
    | completed hp heol hec hbytes =>
      cases a with
      | worker o => simp [step, hp] at ht
      | dispatch =>
        obtain ⟨u, hu, hprog, hlt⟩ :=
          progress_onComplete s.file (heol ▸ h2) (heol ▸ hw) hec hbytes
        rw [step, if_pos hp] at ht
        obtain rfl := Option.some.inj (hu.symm.trans ht)
        refine ⟨heol ▸ hprog, ?_⟩
        rw [chunksLeft.eq_def s, hp]
        exact hlt
    | finished ec n hp _ =>
      rw [step_of_finished ⟨ec, n, hp⟩] at ht
      cases ht

/-! ### The rest of the file -/

/-- The operation gets to chunk `j` when nothing is given back before it. -/
theorem runsTo_chunk (incEol : Bool) (hlen : F.length - p < len)
    (hfull : ∀ i < j, p + 65536 * (i + 1) ≤ F.length)
    (hr : ∀ i < j, findEol (chunkAt F p i) eol = some ((chunkAt F p i).length, 0)) :
    Transition.RunsTo step FullRead (start ⟨F, p⟩ len eol incEol)
      (atChunk F p len eol incEol j) := by
  induction j with
  | zero => rw [← atChunk_zero]; exact .refl _
  | succ j ih =>
    have hlast := hfull j (Nat.lt_succ_self j)
    have hbefore := ih (fun i hi ↦ hfull i (Nat.lt_succ_of_lt hi))
      fun i hi ↦ hr i (Nat.lt_succ_of_lt hi)
    exact hbefore.trans (runsTo_next hlen (by omega) (hr j (Nat.lt_succ_self j)) hlast)

/-- In the terms of the search: it answers, and gives nothing back. -/
theorem nothingGivenBack_iff (h2 : 2 ≤ eol.length) (hnone : ∀ q, p ≤ q → ¬OccursAt eol F q) :
    NothingGivenBack F p eol ↔ ∀ j, p + 65536 * j < F.length →
      findEol (chunkAt F p j) eol = some ((chunkAt F p j).length, 0) := by
  refine ⟨fun h j hj ↦ ?_, fun h ↦ ⟨fun j k hj hk hk' hsuf ↦ ?_, fun _ j hj ↦ by rw [h j hj]; rfl⟩⟩
  · rcases findEol_chunkAt h2 hnone j with ⟨last, hr, hlast⟩ | ⟨hlong, hr⟩
    · obtain ⟨hlt, hsuf⟩ := isOverlap_iff_isSuffix.1 hlast.1
      rcases Nat.eq_zero_or_pos last with rfl | hpos
      · exact hr
      · exact absurd hsuf (h.noPart j last hj hpos hlt)
    · have := h.searched hlong j hj
      rw [hr] at this
      cases this
  · rcases findEol_chunkAt h2 hnone j with ⟨last, hr, hlast⟩ | ⟨-, hr⟩
    · have hzero : last = 0 := congrArg Prod.snd (Option.some.inj (hr.symm.trans (h j hj)))
      have := hlast.2 k (isOverlap_iff_isSuffix.2 ⟨hk', hsuf⟩)
      omega
    · cases hr.symm.trans (h j hj)

/-- Without anything given back the operation delivers the rest of the file. -/
theorem endsWith_of_nothingGivenBack (hlen : F.length - p < len)
    (hr : ∀ j, p + 65536 * j < F.length →
      findEol (chunkAt F p j) eol = some ((chunkAt F p j).length, 0)) :
    ∃ t, Transition.RunsTo step FullRead (start ⟨F, p⟩ len eol incEol) t ∧
      t.EndsWith (F.drop p) := by
  have hrest : (F.drop p).length = F.length - p := List.length_drop
  obtain ⟨J, hJ, hJ'⟩ : ∃ J, 65536 * J ≤ F.length - p ∧ F.length - p < 65536 * (J + 1) :=
    ⟨(F.length - p) / 65536, by omega, by omega⟩
  have hto := runsTo_chunk (j := J) incEol hlen (fun i hi ↦ by omega)
    fun i hi ↦ hr i (by omega)
  rcases hJ.eq_or_lt with heq | hlt
  · -- the file ends where a chunk does: the next read finds nothing
    obtain ⟨t, ht, hend⟩ := endsWith_of_end (F := F) (p := p) len eol incEol
      (by omega) (by omega) (heq.trans hrest.symm)
    exact ⟨t, hto.trans ht, hend⟩
  · have hc := length_chunkAt F p J
    obtain ⟨t, ht, hp, hbuf⟩ := finished_of_chunk (j := J) hlen (by omega) incEol
      (hr J (by omega)) (Nat.zero_le _) (by omega)
    have hall : 65536 * J + (chunkAt F p J).length = (F.drop p).length := by omega
    refine ⟨t, hto.trans ht, ?_, ?_⟩
    · rw [hp, Nat.sub_zero, hall]
    · rw [hbuf, hall, List.take_length, List.take_length]

/-- A part given back at chunk `j` is missing from what is delivered. -/
theorem not_endsWith_of_part {last : ℕ} (hlen : F.length - p < len) (hj : p + 65536 * j < F.length)
    (hto : Transition.RunsTo step FullRead (start ⟨F, p⟩ len eol incEol)
      (atChunk F p len eol incEol j))
    (hr : findEol (chunkAt F p j) eol = some ((chunkAt F p j).length, last)) (hpos : 0 < last)
    (hle : last ≤ (chunkAt F p j).length) :
    ¬(start ⟨F, p⟩ len eol incEol).Completes (EndsWith (F.drop p)) := by
  rintro ⟨-, hall⟩
  have hc := length_chunkAt F p j
  have hrest : (F.drop p).length = F.length - p := List.length_drop
  obtain ⟨t, ht, hp, -⟩ := finished_of_chunk hlen hj incEol hr hle (by omega)
  have hend := (hall t (hto.trans ht) ⟨_, _, hp⟩).1
  rw [hp, ReadLinePlace.finished.injEq] at hend
  omega

/-- A search that leaves the table has no result, and the operation never calls back. -/
theorem not_completes_of_stuck {D : ReadLineState → Prop} (hlen : F.length - p < len)
    (hj : p + 65536 * j < F.length)
    (hto : Transition.RunsTo step FullRead (start ⟨F, p⟩ len eol incEol)
      (atChunk F p len eol incEol j))
    (hr : findEol (chunkAt F p j) eol = none) :
    ¬(start ⟨F, p⟩ len eol incEol).Completes D := by
  rintro ⟨⟨t, ht, htf⟩, -⟩
  obtain ⟨hread, hstep⟩ := step_searched hlen hj eol incEol
  rw [hr, Option.map_none] at hstep
  have hstuck : ∀ a, step (readChunk F p len eol incEol j (chunkAt F p j).length) a = none := by
    intro a
    cases a with
    | worker o =>
      have hplace : (readChunk F p len eol incEol j (chunkAt F p j).length).place = .completed :=
        rfl
      simp [step, hplace]
    | dispatch => exact hstep
  have heq : readChunk F p len eol incEol j (chunkAt F p j).length = t := by
    refine Transition.RunsTo.eq_of_terminal (fun _ _ _ _ _ ha hb hst hsu ↦ ?_) (hto.trans hread) ht
      hstuck (step_of_finished htf)
    exact fullRead_unique ha hb hst hsu
  obtain ⟨ec, n, hp⟩ := heq ▸ htf
  cases hp

/-- **The rest of the file.** When no end of a line is left and the buffer is larger than the rest:
`asyn_read_line` reports the end of the file and delivers the rest if and only if no chunk of it
ends in a part of the end-of-line string. -/
theorem readsRest_iff (incEol : Bool) (h2 : 2 ≤ eol.length)
    (hnone : ∀ q, p ≤ q → ¬OccursAt eol F q) (hlen : F.length - p < len) :
    (start ⟨F, p⟩ len eol incEol).Completes (EndsWith (F.drop p)) ↔ NothingGivenBack F p eol := by
  rw [nothingGivenBack_iff h2 hnone]
  constructor
  · intro hcomp
    by_contra hbad
    -- the first chunk of which something is given back, or whose search fails
    have hex : ∃ j, p + 65536 * j < F.length ∧
        findEol (chunkAt F p j) eol ≠ some ((chunkAt F p j).length, 0) := by
      simpa only [not_forall, exists_prop] using hbad
    classical
    obtain ⟨j, ⟨hj, hne⟩, hfirst⟩ : ∃ j, (p + 65536 * j < F.length ∧
        findEol (chunkAt F p j) eol ≠ some ((chunkAt F p j).length, 0)) ∧
        ∀ i < j, ¬(p + 65536 * i < F.length ∧
          findEol (chunkAt F p i) eol ≠ some ((chunkAt F p i).length, 0)) :=
      ⟨Nat.find hex, Nat.find_spec hex, fun i hi ↦ Nat.find_min hex hi⟩
    have hbefore : ∀ i < j, findEol (chunkAt F p i) eol = some ((chunkAt F p i).length, 0) := by
      intro i hi
      by_contra hi'
      exact hfirst i hi ⟨by omega, hi'⟩
    have hto := runsTo_chunk incEol hlen (fun i hi ↦ by omega) hbefore
    rcases findEol_chunkAt h2 hnone j with ⟨last, hr, hlast⟩ | ⟨-, hr⟩
    · have hpos : 0 < last := Nat.pos_of_ne_zero fun h ↦ hne (h ▸ hr)
      exact not_endsWith_of_part hlen hj hto hr hpos hlast.1.2.1 hcomp
    · exact not_completes_of_stuck hlen hj hto hr hcomp
  · intro hr
    obtain ⟨t, ht, hend⟩ := endsWith_of_nothingGivenBack hlen hr
    exact completes_of_runsTo ht hend.finished hend

/-- An unfinished line of one letter. -/
theorem readsRest_iff_short :
    (start ⟨[97], 0⟩ 2 [13, 10] false).Completes (EndsWith [97]) ↔
      NothingGivenBack [97] 0 [13, 10] :=
  readsRest_iff (F := [97]) (p := 0) false (by decide)
    (fun q _ h ↦ absurd h.1 (by simp)) (by decide)

/-- A file that ends in the first letter of an end of line: the letter is not delivered. -/
theorem not_completes_cr :
    (∀ q, 0 ≤ q → ¬OccursAt [13, 10] ([97, 13] : List Byte) q) ∧ [97, 13].length - 0 < 3 ∧
      ¬(start ⟨[97, 13], 0⟩ 3 [13, 10] false).Completes (EndsWith [97, 13]) := by
  have hnone : ∀ q, 0 ≤ q → ¬OccursAt [13, 10] ([97, 13] : List Byte) q := by
    intro q _ h
    have hle : q + 2 ≤ 2 := h.1
    obtain rfl : q = 0 := by omega
    exact absurd (h.2 0 (by decide)) (by decide)
  refine ⟨hnone, by decide, fun h ↦ ?_⟩
  exact not_endsWith_of_part (F := [97, 13]) (p := 0) (j := 0) (by decide) (by decide)
    (by rw [← atChunk_zero]; exact .refl _) (by decide) (by decide : 0 < 1) (by decide) h

end ReadLineState

end JnetLib.Epoll
