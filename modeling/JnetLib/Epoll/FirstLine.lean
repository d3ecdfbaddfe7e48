import JnetLib.Epoll.ReadLine

/-!
# The first line on the epoll backend

What `asyn_read_line` delivers when the end of a line is left in the file and the line fits the
buffer. `readsLine_iff` says that a full chunk that ends in a part of the end-of-line string, before
the end of the line, is the only way to miss the line.

* One direction follows the operation to the chunk the line ends in; the run is the only one
  (`completes_of_runsTo`).
* The other takes the first chunk with such a part, where the operation reports the end of the file
  (`finished_of_part`).
* An end-of-line string longer than a chunk is a case of its own: no chunk can hold it, and the
  operation never finds a line (`TooLong`).
-/

namespace JnetLib.Epoll

open JnetLib.File

namespace ReadLineState

variable {F eol : List Byte} {p len q j c : ℕ} {incEol : Bool}

/-! ### End-of-line strings longer than a chunk -/

/-- What holds along a run of an operation whose end-of-line string no chunk can hold. -/
inductive TooLong (eol : List Byte) (s : ReadLineState) : Prop
  | queued (hp : s.place = .queued) (heol : s.op.eol = eol) (hrem : 0 < s.op.remainLength)
      (hflags : s.op.base.epollFlags = .clear) (hpos : s.op.bufferPos ≤ s.op.buffer.length)
  | completed (hp : s.place = .completed) (heol : s.op.eol = eol) (hrem : 0 < s.op.remainLength)
      (hec : s.op.base.readerError = .system 0) (hbytes : s.op.base.bytesTransferred ≤ 65536)
      (hpos : s.op.bufferPos + s.op.base.bytesTransferred ≤ s.op.buffer.length)
  | finished (ec : ErrorCode) (n : ℕ) (hp : s.place = .finished ec n) (hec : ec.isError = true)

theorem tooLong_step (hlong : 65536 < eol.length) {s t : ReadLineState} {e : ReadLineEvent}
    (h : TooLong eol s) (he : FullRead s e) (hstep : step s e = some t) : TooLong eol t := by
  cases h with
  | finished ec n hp _ =>
    rw [step_of_finished ⟨ec, n, hp⟩] at hstep
    cases hstep
  -- a read asks for at most 65536 bytes
  | queued hp heol hrem hflags hpos =>
    cases e with
    | dispatch => simp [step, hp] at hstep
    | worker o =>
      obtain rfl : o = _ := he
      rw [step] at hstep
      split at hstep
      case isFalse => cases hstep
      case isTrue =>
        obtain rfl := Option.some.inj hstep
        have hreq : 0 < s.op.requested := Nat.lt_min.2 ⟨hrem, by decide⟩
        have hreq' : s.op.requested ≤ 65536 := Nat.min_le_right _ _
        set c := min s.op.requested s.file.rest.length with hc
        have hbytes : toUInt32 c = c := toUInt32_of_lt (by omega)
        rw [ReadLineOp.doRead, if_pos hreq]
        refine .completed rfl heol hrem (Operation.readerError_of_clear hflags) ?_ ?_
        · show toUInt32 c ≤ 65536
          omega
        · show s.op.bufferPos + toUInt32 c ≤ (s.op.store (s.file.rest.take c)).length
          simp only [ReadLineOp.store, List.length_append, List.length_take]
          omega
  | completed hp heol hrem hec hbytes hpos =>
    cases e with
    | worker o => simp [step, hp] at hstep
    | dispatch =>
      rw [step, if_pos hp] at hstep
      rcases Nat.eq_zero_or_pos s.op.base.bytesTransferred with hz | hb
      · rw [ReadLineOp.onComplete_of_zero (by rw [hec]; rfl) hz hrem] at hstep
        obtain rfl := Option.some.inj hstep
        exact .finished .eof _ rfl rfl
      · rw [ReadLineOp.onComplete_of_bytes (by rw [hec]; rfl) hb, heol] at hstep
        obtain ⟨r, hr, rfl⟩ := Option.map_eq_some_iff.1 hstep
        have hchunk : (s.op.chunk s.op.base.bytesTransferred).length =
            s.op.base.bytesTransferred := by
          rw [ReadLineOp.chunk, List.length_take, List.length_drop]
          omega
        -- a chunk is shorter than the end-of-line string
        have hmiss : ¬r.1 < s.op.base.bytesTransferred := by
          intro hlt
          have := add_length_le_of_findEol (by omega) hr (by omega)
          omega
        rw [ReadLineOp.afterSearch_missing hmiss]
        split
        case isTrue => exact .finished .eof _ rfl rfl
        case isFalse hmore =>
          simp only [Bool.or_eq_true, beq_iff_eq, not_or] at hmore
          refine .queued rfl heol ?_ rfl ?_
          · show 0 < s.op.remainLength - (s.op.base.bytesTransferred - r.2)
            omega
          · show s.op.bufferPos + (s.op.base.bytesTransferred - r.2) ≤ s.op.buffer.length
            omega

/-- An end-of-line string longer than a chunk is never found. -/
theorem not_delivered_of_tooLong {t : ReadLineState} {file : OpenFile} {line : List Byte}
    {offset : ℕ} (hlong : 65536 < eol.length) (hlen : 0 < len)
    (h : Transition.RunsTo step FullRead (start file len eol incEol) t) :
    ¬t.Delivered line offset := by
  have hstart : TooLong eol (start file len eol incEol) :=
    .queued rfl rfl hlen rfl (Nat.zero_le _)
  rintro ⟨ec, hp, hec, -⟩
  cases h.invariant (fun s e t hs he hst ↦ tooLong_step hlong hs he hst) hstart with
  | queued hp' | completed hp' => simp [hp] at hp'
  | finished ec' n hp' hec' =>
    obtain ⟨rfl, -⟩ : ec = ec' ∧ _ := by simpa [hp] using hp'
    simp [hec] at hec'

/-! ### Reading a line -/

theorem Delivered.finished {s : ReadLineState} {line : List Byte} {offset : ℕ}
    (h : s.Delivered line offset) : s.Finished := by
  obtain ⟨ec, hp, -⟩ := h
  exact ⟨ec, _, hp⟩

/-- An operation that reports the end of the file delivers nothing. -/
theorem not_completes_of_eof {s t : ReadLineState} {n : ℕ} {line : List Byte} {offset : ℕ}
    (h : Transition.RunsTo step FullRead s t) (hp : t.place = .finished .eof n) :
    ¬s.Completes (Delivered line offset) := by
  rintro ⟨-, hD⟩
  obtain ⟨ec, hp', hec, -⟩ := hD t h ⟨_, _, hp⟩
  obtain ⟨rfl, -⟩ : ec = .eof ∧ line.length = n := by simpa [hp, eq_comm] using hp'
  cases hec

/-- **Reading a line.** For the first occurrence of the end-of-line string from `p` on, when the
line fits the buffer: `asyn_read_line` delivers it and leaves the offset behind it if and only if
no full chunk that ends before the end of the line ends in a part of the end-of-line string. -/
theorem readsLine_iff (incEol : Bool) (h2 : 2 ≤ eol.length) (hq : IsFirstFrom eol F p q)
    (hlen : q + eol.length ≤ p + len) :
    (start ⟨F, p⟩ len eol incEol).Completes
        (Delivered ((F.drop p).take (q - p) ++ if incEol then eol else []) (q + eol.length)) ↔
      NoPartAtBoundary F p eol q := by
  have hpq := hq.1
  constructor
  · rintro ⟨⟨t, ht, htf⟩, hD⟩
    by_contra hpart
    rcases Nat.lt_or_ge 65536 eol.length with hlong | hshort
    · exact not_delivered_of_tooLong hlong (by omega) ht (hD t ht htf)
    · -- the first chunk with a part at its end
      have hex : ∃ j k, p + 65536 * (j + 1) < q + eol.length ∧ 0 < k ∧ k < eol.length ∧
          eol.take k <:+ (F.drop (p + 65536 * j)).take 65536 := by
        simpa only [NoPartAtBoundary, not_forall, not_not, exists_prop] using hpart
      classical
      obtain ⟨k, hcut, hk, hk', hsuf⟩ := Nat.find_spec hex
      have hbefore : ∀ i < Nat.find hex, ∀ k, 0 < k → k < eol.length →
          ¬eol.take k <:+ (F.drop (p + 65536 * i)).take 65536 :=
        fun i hi k hk hk' hsuf ↦ Nat.find_min hex hi ⟨k, Nat.lt_of_le_of_lt (by omega) hcut, hk,
          hk', hsuf⟩
      obtain ⟨u, n, hu, hp⟩ := finished_of_part len incEol h2 (by omega) hq hlen hcut hk
        hk' hsuf
      exact not_completes_of_eof (runsTo_atChunk h2 (by omega) hq hlen (by omega) hbefore hu) hp
        ⟨⟨t, ht, htf⟩, hD⟩
  · intro hpart
    -- the chunk the line ends in
    obtain ⟨J, hJ, hJ'⟩ : ∃ J, p + 65536 * J < q + eol.length ∧
        q + eol.length ≤ p + 65536 * (J + 1) :=
      ⟨(q + eol.length - p - 1) / 65536, by omega, by omega⟩
    have hbefore : ∀ i < J, ∀ k, 0 < k → k < eol.length →
        ¬eol.take k <:+ (F.drop (p + 65536 * i)).take 65536 :=
      fun i hi k ↦ hpart i k (by omega)
    have hJq : p + 65536 * J ≤ q := boundary_le hq hbefore hJ
    obtain ⟨t, ht, hdel⟩ := delivered_of_atChunk incEol h2 hq hlen hJq hJ'
    exact completes_of_runsTo (runsTo_atChunk h2 (by omega) hq hlen hJ hbefore ht) hdel.finished
      hdel

/-- A line of one letter. -/
theorem readsLine_iff_short :
    (start ⟨[97, 13, 10], 0⟩ 3 [13, 10] false).Completes (Delivered [97] 3) ↔
      NoPartAtBoundary [97, 13, 10] 0 [13, 10] 1 :=
  readsLine_iff (F := [97, 13, 10]) (p := 0) (q := 1) false (by decide)
    ⟨by decide, ⟨by decide, by decide⟩, fun s _ hs h ↦ by
      obtain rfl : s = 0 := by omega
      exact absurd (h.2 0 (by decide)) (by decide)⟩
    (by decide)

/-- A line of `n` letters and its end. -/
def lineOf (n : ℕ) : List Byte := List.replicate n 97 ++ [13, 10]

theorem isFirstFrom_lineOf (n : ℕ) : IsFirstFrom [13, 10] (lineOf n) 0 n := by
  refine ⟨Nat.zero_le _, ⟨?_, fun m _ ↦ ?_⟩, fun s _ hs h ↦ ?_⟩
  · simp [lineOf]
  · rw [lineOf, List.getElem?_append_right (by simp), List.length_replicate,
      Nat.add_sub_cancel_left]
  · have h0 := h.2 0 Nat.two_pos
    rw [lineOf, List.getElem?_append_left (by simpa using hs), List.getElem?_replicate,
      if_pos (by omega)] at h0
    exact absurd h0 (by decide)

/-- Cut inside its end, a line ends in a part of it. -/
theorem suffix_lineOf (n : ℕ) : List.take 1 [13, 10] <:+ ((lineOf n).drop 0).take (n + 1) := by
  refine ⟨List.replicate n 97, ?_⟩
  simp [lineOf, List.take_append]

/-- A line whose end is cut in two by the boundary of the first chunk: the operation reports the end
of the file. -/
theorem not_completes_lineOf :
    IsFirstFrom [13, 10] (lineOf 65535) 0 65535 ∧
      ¬(start ⟨lineOf 65535, 0⟩ 65537 [13, 10] false).Completes
        (Delivered (List.replicate 65535 97) 65537) := by
  obtain ⟨t, n, ht, hp⟩ := finished_of_part (F := lineOf 65535) (p := 0) (j := 0) (k := 1)
    65537 false (by decide) (by decide) (isFirstFrom_lineOf 65535)
    (by decide) (by decide) (by decide) (by decide) (suffix_lineOf 65535)
  rw [atChunk_zero] at ht
  exact ⟨isFirstFrom_lineOf 65535, not_completes_of_eof ht hp⟩

end ReadLineState

end JnetLib.Epoll
