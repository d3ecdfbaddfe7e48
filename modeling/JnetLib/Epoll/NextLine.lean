import JnetLib.Epoll.ReadLine

/-!
# Where a line read stops

Whatever the `::read`s answer and however the operation ends, the descriptor is left behind the
bytes in the buffer (`resumes_of_run`), so the next operation goes on there.

There is no condition on the `::read`s here, so the chunks of `ReadLine` play no role. The invariant
is `Reading`: while the operation is queued nothing is unsearched, and the offset is behind what the
buffer holds; and behind a `::read` the bytes it brought are unsearched and the offset is behind
them. `reading_step` says what the search does to the position and the offset: it moves both to the
same place.
-/

namespace JnetLib.Epoll

open JnetLib.File

namespace ReadLineState

variable {F eol : List Byte} {p len q j c : ℕ} {incEol : Bool}

/-- The bytes a completion has consumed: those it reports and, where it found a line and leaves its
end out, those of the end. -/
def consumed (eol : List Byte) (incEol : Bool) (ec : ErrorCode) (n : ℕ) : ℕ :=
  n + if ec.isError || incEol then 0 else eol.length

/-- What `asyn_read_line` owes the call behind it, whatever the `::read`s answered. -/
structure Resumes (F : List Byte) (p len : ℕ) (eol : List Byte) (incEol : Bool)
    (s : ReadLineState) : Prop where
  /-- The next `::read` is offered room inside the buffer only. -/
  inside : s.place = .queued → s.op.bufferPos + s.op.requested ≤ len
  /-- Nothing has been written outside the buffer. -/
  written : s.op.buffer.length ≤ len
  /-- The offset is behind the bytes consumed, and these are in the buffer. -/
  offset : ∀ ec n, s.place = .finished ec n → s.file.offset = p + consumed eol incEol ec n
  bytes : ∀ ec n, s.place = .finished ec n → consumed eol incEol ec n ≤ s.op.buffer.length ∧
    s.op.buffer.take (consumed eol incEol ec n) = (F.drop p).take (consumed eol incEol ec n)
  /-- A completion without error has found the end of a line. -/
  found : ∀ ec n, s.place = .finished ec n → ec.isError = false →
    eol <:+ s.op.buffer.take (consumed eol incEol ec n)

/-- An operation with `k` bytes behind its position that are read and not yet searched. -/
structure Holds (F : List Byte) (p len : ℕ) (eol : List Byte) (incEol : Bool) (k : ℕ)
    (op : ReadLineOp) (file : OpenFile) : Prop where
  content : file.content = F
  offset : file.offset = p + op.bufferPos + k
  eol_eq : op.eol = eol
  incEol_eq : op.incEol = incEol
  room : op.bufferPos + op.remainLength = len
  rest : 0 < op.remainLength
  le_remain : k ≤ op.remainLength
  held : op.bufferPos + k ≤ op.buffer.length
  written : op.buffer.length ≤ len
  bytes : op.buffer.take (op.bufferPos + k) = (F.drop p).take (op.bufferPos + k)

/-- What holds along a run: the operation is queued with nothing unsearched, or the answer `a` of
its `::read` is posted, or it has called back and met its contract. -/
inductive Reading (F : List Byte) (p len : ℕ) (eol : List Byte) (incEol : Bool)
    (s : ReadLineState) : Prop
  | queued (hp : s.place = .queued) (h : Holds F p len eol incEol 0 s.op s.file)
      (hflags : s.op.base.epollFlags = .clear)
  | completed (a : Outcome) (hp : s.place = .completed)
      (h : Holds F p len eol incEol a.moved s.op s.file) (hec : s.op.base.readerError =
        (serviceRead s.op.requested a).1)
      (hbytes : a.moved ≤ 65536 ∧ ((serviceRead s.op.requested a).1.isError = false →
        s.op.base.bytesTransferred = a.moved))
      (ha : a.Legal s.op.requested)
  | done (ec : ErrorCode) (n : ℕ) (hp : s.place = .finished ec n)
      (h : Resumes F p len eol incEol s)

theorem Holds.le_bytes {k : ℕ} {op : ReadLineOp} {file : OpenFile}
    (h : Holds F p len eol incEol k op file) {m : ℕ} (hm : m ≤ op.bufferPos + k) :
    op.buffer.take m = (F.drop p).take m := by
  have hmin := congrArg (List.take m) h.bytes
  rwa [List.take_take, List.take_take, Nat.min_eq_left hm] at hmin

/-- The invariant is stronger than the contract. -/
theorem Reading.resumes {s : ReadLineState} (h : Reading F p len eol incEol s) :
    Resumes F p len eol incEol s := by
  cases h with
  | done _ _ _ h => exact h
  | queued hp h _ =>
    refine ⟨fun _ ↦ ?_, h.written, by simp [hp], by simp [hp], by simp [hp]⟩
    have hreq : s.op.requested ≤ s.op.remainLength := Nat.min_le_left _ _
    have hroom := h.room
    omega
  | completed _ hp h _ _ _ =>
    exact ⟨by simp [hp], h.written, by simp [hp], by simp [hp], by simp [hp]⟩

/-- A completion that reports `n` has met its contract when the operation's position is where it
consumed to. -/
theorem resumes_of_finished {op : ReadLineOp} {file : OpenFile} {ec : ErrorCode} {n c : ℕ}
    (hc : consumed eol incEol ec n = c) (hoff : file.offset = p + c) (hle : c ≤ op.buffer.length)
    (hwritten : op.buffer.length ≤ len) (hbytes : op.buffer.take c = (F.drop p).take c)
    (hfound : ec.isError = false → eol <:+ op.buffer.take c) :
    Reading F p len eol incEol ⟨op, file, .finished ec n⟩ := by
  refine .done ec n rfl ⟨by simp, hwritten, fun ec' n' hp ↦ ?_, fun ec' n' hp ↦ ?_,
    fun ec' n' hp hec ↦ ?_⟩ <;>
    obtain ⟨rfl, rfl⟩ : ec = ec' ∧ n = n' := by simpa using hp
  · rw [hc, hoff]
  · rw [hc]
    exact ⟨hle, hbytes⟩
  · rw [hc]
    exact hfound hec

theorem reading_start (hlen : 0 < len) :
    Reading F p len eol incEol (start ⟨F, p⟩ len eol incEol) :=
  .queued rfl ⟨rfl, rfl, rfl, rfl, Nat.zero_add _, hlen, Nat.zero_le _, Nat.zero_le _,
    Nat.zero_le _, by simp [start, ReadLineOp.new]⟩ rfl

/-- The worker's turn: what is read goes behind the position. -/
theorem reading_doRead {op : ReadLineOp} {file : OpenFile} {o : Outcome}
    (h : Holds F p len eol incEol 0 op file) (hflags : op.base.epollFlags = .clear)
    (ho : o.Legal (min op.requested file.rest.length)) :
    Reading F p len eol incEol (op.doRead file o) := by
  have hreq : 0 < op.requested := Nat.lt_min.2 ⟨h.rest, by decide⟩
  have hreq' : op.requested ≤ 65536 := Nat.min_le_right _ _
  have hrem : op.requested ≤ op.remainLength := Nat.min_le_left _ _
  have hmoved : o.moved ≤ op.requested ∧ o.moved ≤ file.rest.length ∧ o.Legal op.requested := by
    cases o with
    | bytes k => exact ⟨(Nat.le_min.1 ho).1, (Nat.le_min.1 ho).2, (Nat.le_min.1 ho).1⟩
    | fail e => exact ⟨Nat.zero_le _, Nat.zero_le _, ho⟩
  have hlen : (file.rest.take o.moved).length = o.moved := by
    rw [List.length_take]
    omega
  have hbuf : (op.buffer.take op.bufferPos).length = op.bufferPos := by
    have := h.held
    rw [List.length_take]
    omega
  have hstore : (op.store (file.rest.take o.moved)).length =
      max op.buffer.length (op.bufferPos + o.moved) := by
    rw [ReadLineOp.store, List.length_append, List.length_append, hbuf, hlen, List.length_drop]
    omega
  have htake : (op.store (file.rest.take o.moved)).take (op.bufferPos + o.moved) =
      (F.drop p).take (op.bufferPos + o.moved) := by
    have hfront : (op.buffer.take op.bufferPos ++ file.rest.take o.moved).length =
        op.bufferPos + o.moved := by
      rw [List.length_append, hbuf, hlen]
    have hpos : file.rest = F.drop (p + op.bufferPos) := by
      rw [OpenFile.rest, h.content, h.offset, Nat.add_zero]
    have hheld : op.buffer.take op.bufferPos = (F.drop p).take op.bufferPos := h.bytes
    rw [ReadLineOp.store, ← hfront, List.take_left, hfront, hheld, hpos, slice_add]
  have hroom := h.room
  have hwritten := h.written
  have hmoved' := hmoved.1
  rw [ReadLineOp.doRead, if_pos hreq]
  refine .completed o rfl ⟨h.content, ?_, h.eol_eq, h.incEol_eq, h.room, h.rest, ?_, ?_, ?_,
    htake⟩ (Operation.readerError_of_clear hflags) ⟨by omega, fun hok ↦ ?_⟩ hmoved.2.2
  · show file.offset + o.moved = p + op.bufferPos + o.moved
    rw [h.offset, Nat.add_zero]
  · show o.moved ≤ op.remainLength
    omega
  · show op.bufferPos + o.moved ≤ (op.store (file.rest.take o.moved)).length
    omega
  · show (op.store (file.rest.take o.moved)).length ≤ len
    omega
  · cases o with
    | bytes k =>
      have hk : k < 2 ^ 32 := by
        have : k ≤ op.requested := hmoved'
        omega
      exact toUInt32_of_lt hk
    | fail e =>
      have he : e ≠ 0 := hmoved.2.2
      exact absurd hok (by simpa [serviceRead] using he)

/-- The bytes up to the end of a line that is in the chunk end in it. -/
theorem suffix_of_occursAt {op : ReadLineOp} {k q : ℕ} (hq : q + eol.length ≤ k)
    (hchunk : (op.chunk k).length = k) (h : OccursAt eol (op.chunk k) q) :
    eol <:+ op.buffer.take (op.bufferPos + (q + eol.length)) := by
  have hpre : eol <+: (op.chunk k).drop q := (occursAt_iff_isPrefix (by omega)).1 h
  have heq : eol = ((op.chunk k).drop q).take eol.length := List.prefix_iff_eq_take.1 hpre
  have hslice : ((op.chunk k).drop q).take eol.length =
      (op.buffer.drop (op.bufferPos + q)).take eol.length := by
    rw [ReadLineOp.chunk, List.drop_take, List.take_take, List.drop_drop,
      Nat.min_eq_left (by omega)]
  have hcut : op.buffer.take (op.bufferPos + q + eol.length) =
      op.buffer.take (op.bufferPos + q) ++ (op.buffer.drop (op.bufferPos + q)).take eol.length :=
    List.take_add
  refine ⟨op.buffer.take (op.bufferPos + q), ?_⟩
  rw [← Nat.add_assoc, hcut, ← hslice, ← heq]

theorem Holds.chunk_length {op : ReadLineOp} {file : OpenFile} {k : ℕ}
    (h : Holds F p len eol incEol k op file) : (op.chunk k).length = k := by
  have hheld := h.held
  rw [ReadLineOp.chunk, List.length_take, List.length_drop]
  omega

/-- The end of the line is in the chunk: the bytes behind it are given back. -/
theorem reading_found {op : ReadLineOp} {file : OpenFile} {ec : ErrorCode} {k : ℕ}
    {r : ℕ × ℕ} (h2 : 2 ≤ eol.length) (h : Holds F p len eol incEol k op file) (hk : k ≤ 65536)
    (hec : ec.isError = false) (hr : findEol (op.chunk k) eol = some r) (hf : r.1 < k) :
    Reading F p len eol incEol (op.afterSearch file ec k r.1 r.2) := by
  have hheld := h.held
  have hroom := h.room
  have hle := h.le_remain
  have hfile : file = ⟨F, p + op.bufferPos + k⟩ := by
    rw [← h.content, ← h.offset]
  have hchunk := h.chunk_length
  have heol := h.eol_eq
  have hin : r.1 + eol.length ≤ k := by
    have := add_length_le_of_findEol (by omega) hr (by omega)
    omega
  have hoccurs : OccursAt eol (op.chunk k) r.1 := by
    obtain ⟨r', hr', hs⟩ := findEol_spec (op.chunk k) h2 (by omega) (by omega)
    obtain rfl := Option.some.inj (hr.symm.trans hr')
    cases hs with
    | found h _ => exact h
    | missing h _ _ => omega
  have hback : (r.1 : ℤ) + op.eol.length - k = -((k - (r.1 + eol.length) : ℕ) : ℤ) := by
    rw [heol]
    omega
  rw [ReadLineOp.afterSearch_found hf (by omega), hfile, hback,
    OpenFile.seekCurrent_neg _ _ _ (by omega) (by omega), heol, h.incEol_eq]
  have hc : consumed eol incEol ec (op.bufferPos + (r.1 + eol.length) -
      if incEol then 0 else eol.length) = op.bufferPos + (r.1 + eol.length) := by
    rw [consumed, hec]
    cases incEol
    · show op.bufferPos + (r.1 + eol.length) - eol.length + eol.length = _
      omega
    · rfl
  exact resumes_of_finished hc (by show _ - _ = p + _; omega)
    (by show _ ≤ op.buffer.length; omega) h.written (h.le_bytes (by omega))
    fun _ ↦ suffix_of_occursAt hin hchunk hoccurs

/-- The end of the line is not in the chunk: the part of it that may have begun is given back. -/
theorem reading_missing {op : ReadLineOp} {file : OpenFile} {ec : ErrorCode} {k : ℕ}
    {r : ℕ × ℕ} (h : Holds F p len eol incEol k op file) (hk : k ≤ 65536)
    (hr : findEol (op.chunk k) eol = some r) (hf : ¬r.1 < k) :
    Reading F p len eol incEol (op.afterSearch file ec k r.1 r.2) := by
  have hheld := h.held
  have hroom := h.room
  have hle := h.le_remain
  have hfile : file = ⟨F, p + op.bufferPos + k⟩ := by
    rw [← h.content, ← h.offset]
  have hchunk := h.chunk_length
  have hlast : r.2 ≤ k := hchunk ▸ snd_le_of_findEol (by omega) hr
  rw [ReadLineOp.afterSearch_missing hf, hfile,
    OpenFile.seekCurrent_neg _ _ _ (by omega) (by omega)]
  split
  case isTrue =>
    have hc : consumed eol incEol .eof (op.bufferPos + (k - r.2)) = op.bufferPos + (k - r.2) :=
      rfl
    exact resumes_of_finished hc (by show _ - _ = p + _; omega)
      (by show _ ≤ op.buffer.length; omega) h.written (h.le_bytes (by omega))
      fun hec ↦ absurd hec (by decide)
  case isFalse hmore =>
    simp only [Bool.or_eq_true, beq_iff_eq, not_or] at hmore
    refine .queued rfl ⟨rfl, ?_, h.eol_eq, h.incEol_eq, ?_, Nat.pos_of_ne_zero hmore.1,
      Nat.zero_le _, ?_, h.written, h.le_bytes ?_⟩ rfl
    · show p + op.bufferPos + k - r.2 = p + (op.bufferPos + (k - r.2)) + 0
      omega
    · show op.bufferPos + (k - r.2) + (op.remainLength - (k - r.2)) = len
      omega
    · show op.bufferPos + (k - r.2) + 0 ≤ op.buffer.length
      omega
    · show op.bufferPos + (k - r.2) + 0 ≤ op.bufferPos + k
      omega

/-- The search behind a read: the position and the offset move to the same place. -/
theorem reading_afterSearch {op : ReadLineOp} {file : OpenFile} {ec : ErrorCode} {k : ℕ}
    {r : ℕ × ℕ} (h2 : 2 ≤ eol.length) (h : Holds F p len eol incEol k op file) (hk : k ≤ 65536)
    (hec : ec.isError = false) (hr : findEol (op.chunk k) eol = some r) :
    Reading F p len eol incEol (op.afterSearch file ec k r.1 r.2) := by
  by_cases hf : r.1 < k
  · exact reading_found h2 h hk hec hr hf
  · exact reading_missing h hk hr hf

/-- **Every step keeps the invariant**, whatever the `::read`s answer. -/
theorem reading_step {s t : ReadLineState} {e : ReadLineEvent} (h2 : 2 ≤ eol.length)
    (h : Reading F p len eol incEol s) (hstep : step s e = some t) :
    Reading F p len eol incEol t := by
  cases e with
  | worker o =>
    rw [step] at hstep
    split at hstep
    case isFalse => cases hstep
    case isTrue hw =>
      obtain rfl := Option.some.inj hstep
      cases h with
      | queued _ h hflags => exact reading_doRead h hflags hw.2
      | completed _ hp | done _ _ hp => simp [hp] at hw
  | dispatch =>
    rw [step] at hstep
    split at hstep
    case isFalse => cases hstep
    case isTrue hw =>
      cases h with
      | queued hp | done _ _ hp => simp [hp] at hw
      | completed a hp h hec hbytes ha =>
        cases a with
        | fail e =>
          -- a read error: nothing was read
          have he : e ≠ 0 := ha
          have herr : s.op.base.readerError.isError = true := by
            rw [hec]
            simpa [serviceRead] using he
          have hdone : s.op.onComplete s.file =
              some ⟨s.op, s.file, .finished s.op.base.readerError s.op.bufferPos⟩ := by
            simp [ReadLineOp.onComplete, herr]
          obtain rfl := Option.some.inj (hdone.symm.trans hstep)
          have hc : consumed eol incEol s.op.base.readerError s.op.bufferPos = s.op.bufferPos := by
            simp [consumed, herr]
          exact resumes_of_finished hc h.offset h.held h.written h.bytes
            fun hok ↦ absurd (herr.symm.trans hok) (by decide)
        | bytes k =>
          have hok : s.op.base.readerError.isError = false := by
            rw [hec]
            rfl
          have hb : s.op.base.bytesTransferred = k := hbytes.2 rfl
          rcases Nat.eq_zero_or_pos k with rfl | hpos
          · rw [ReadLineOp.onComplete_of_zero hok hb h.rest] at hstep
            obtain rfl := Option.some.inj hstep
            exact resumes_of_finished rfl h.offset h.held h.written h.bytes
              fun hec ↦ absurd hec (by decide)
          · rw [ReadLineOp.onComplete_of_bytes hok (by omega), hb, h.eol_eq] at hstep
            obtain ⟨r, hr, rfl⟩ := Option.map_eq_some_iff.1 hstep
            exact reading_afterSearch h2 h hbytes.1 hok hr

/-- **A line read resumes where it stopped.** Whatever the `::read`s answer and however the
operation ends, the file's offset is behind the bytes it consumed, and these are the bytes in the
buffer. -/
theorem resumes_of_run {s : ReadLineState} (h2 : 2 ≤ eol.length) (hlen : 0 < len)
    {l : List ReadLineEvent}
    (hrun : Transition.run step (start ⟨F, p⟩ len eol incEol) l = some s) :
    Resumes F p len eol incEol s :=
  (Transition.invariant_run' (fun _ _ _ h hst ↦ reading_step h2 h hst) (reading_start hlen)
    hrun).resumes

/-- A line of one letter and a letter of the next, all read at once: the offset is behind the end
of the line. -/
theorem resumes_of_run_short :
    ∃ s, Transition.run step (start ⟨[97, 13, 10, 98], 0⟩ 4 [13, 10] false)
        [.worker (.bytes 4), .dispatch] = some s ∧
      s.place = .finished (.system 0) 1 ∧ s.file.offset = 3 ∧
        Resumes [97, 13, 10, 98] 0 4 [13, 10] false s :=
  ⟨_, rfl, rfl, rfl, resumes_of_run (F := [97, 13, 10, 98]) (p := 0) (by decide) (by decide)
    (l := [.worker (.bytes 4), .dispatch]) rfl⟩

end ReadLineState

end JnetLib.Epoll
