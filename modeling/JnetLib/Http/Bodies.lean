import JnetLib.Http.Reading

/-!
# Bodies

How a header section ends, and what follows it: nothing, a body of known length, or chunks and a
trailer. The last byte of a message pauses the parser.
-/

namespace JnetLib.Http

namespace Listener

variable {S : Type*} (L : Listener S)

/-- Fed with the bytes `l`, one by one, the parser comes to the end of the message with the last
one, where it is `q'`, paused. -/
def Finishes (q : Parser) (s : S) (l : List Byte) (q' : Parser) (s' : S) : Prop :=
  ∀ n, L.feed ⟨q, s, n⟩ (bytewise l) = ⟨{ q' with httpErrno := .paused }, s', n + l.length⟩

variable {L} {q q' q'' : Parser} {s s' s'' : S} {l m : List Byte}

theorem Reads.finishes (hl : L.Reads q s l q' s') (hm : L.Finishes q' s' m q'' s'') :
    L.Finishes q s (l ++ m) q'' s'' := by
  intro n
  rw [bytewise_append, L.feed_append, hl n, hm (n + l.length), List.length_append, Nat.add_assoc]

end Listener

/-- `NEW_MESSAGE`. -/
def Head.newMessage (h : Head) : State := (h.parser .startReq .general 0 0).newMessage

/-- The callback behind the header section. -/
def Head.complete (h : Head) : Callback :=
  .headersComplete h.method h.httpMajor h.httpMinor false

/-- A head that asks for no other protocol, before its body. -/
structure Head.KeepsProtocol (h : Head) : Prop where
  upgrade : h.flags.upgrade = false
  connect : h.method ≠ .connect
  trailing : h.flags.trailing = false
  skipbody : h.flags.skipbody = false

section Bodies

open Listener Numeral

variable {S : Type*} {L : Listener S} {h h' : Head} {st st' : State} {p p' : HeaderState}
  {i i' n n' : ℕ} {s : S} {ch : Byte} {calls : List (Callback × ℕ)}

/-- A byte that is taken and sets the count back. -/
theorem reads_reset (hst : parsingHeader st = true) (hn : n < HTTP_MAX_HEADER_SIZE)
    (hstep : Exec.step (L.answers s) [ch] ⟨h.parser st p i (n + 1), st.marks, []⟩ 0 ch =
      .next ⟨h'.parser st' p' i' n', noMarks, calls⟩ 1)
    (hspan : st'.span = none) (hidle : st'.idle = false) :
    L.Reads (h.parser st p i n) s [ch] (h'.parser st' p' i' n') (L.told s calls) := by
  intro k
  have hcount := parser_count h p i hst n
  have herrno : (h.parser st p i n).httpErrno = .ok := rfl
  have hroom : ¬(parsingHeader (Exec.count ⟨h.parser st p i n, (h.parser st p i n).initialMarks,
      []⟩).parser.state ∧ HTTP_MAX_HEADER_SIZE < (Exec.count ⟨h.parser st p i n,
        (h.parser st p i n).initialMarks, []⟩).parser.nread) := by
    rw [hcount]
    exact fun hover ↦ absurd hover.2 (Nat.not_lt.2 hn)
  rw [← hcount] at hstep
  exact L.next_of_heard herrno hroom hstep rfl (.clear rfl hspan hidle rfl)
    (fun h ↦ absurd (h.symm.trans hidle) nofun) k

/-- A callback that ends the call and returns zero pauses the parser. -/
theorem parser_stopped {reply : Answers} {x : Exec} {c : Callback} {e : HttpErrno} {er : ℕ}
    (hret : (reply (x.history c)).ret = 0) :
    (x.stopped reply c e er).parser = { x.parser with httpErrno := .paused } := by
  rw [Exec.stopped, if_pos hret]

/-- The last byte of a message. -/
theorem finishes_of_step (hend : ∀ s, (L.answer s .messageComplete).ret = 0)
    (hst : parsingHeader st = true) (hn : n < HTTP_MAX_HEADER_SIZE) {x : Exec} {k : Exec → Flow}
    (hstep : Exec.step (L.answers s) [ch] ⟨h.parser st p i (n + 1), st.marks, []⟩ 0 ch =
      x.complete (L.answers s) 0 k)
    (hx : x.parser = h'.parser st' p' i' n') :
    L.Finishes (h.parser st p i n) s [ch] (h'.parser h'.newMessage p' i' n')
      (L.tell (L.told s x.calls) .messageComplete) := by
  intro j
  have hcount := parser_count h p i hst n
  have herrno : (h.parser st p i n).httpErrno = .ok := rfl
  have hok : x.parser.httpErrno = .ok := by rw [hx]; rfl
  have hnew : x.parser.newMessage = h'.newMessage := by rw [hx]; rfl
  show L.next ⟨h.parser st p i n, s, j⟩ [ch] = _
  rw [L.next_of_ret herrno ?_ (by rw [hcount, hstep, Exec.complete_eq hok]), Exec.stopped,
    L.answers_history, hend, if_pos rfl, L.told_concat, hnew]
  · show Fed.mk { x.parser with state := h'.newMessage, httpErrno := .paused } _ _ = _
    rw [hx]
    rfl
  · rw [hcount]
    exact fun hover ↦ absurd hover.2 (Nat.not_lt.2 hn)

/-! ### The end of a header section -/

/-- An empty line begins. -/
theorem walks_emptyLine (hst : st.atLine) :
    L.Walks (h.parser st p i) s [CR] (h.parser .headersAlmostDone p i) s := by
  rcases hst with rfl | rfl <;> exact walks_silent rfl (fun _ ↦ rfl) rfl rfl

/-- `on_headers_complete` lets the parser go on. -/
theorem step_headersAlmostDone (hh : h.KeepsProtocol) (hanswer : L.answer s h.complete = ⟨0, false⟩)
    (n : ℕ) :
    Exec.step (L.answers s) [LF] ⟨h.parser .headersAlmostDone p i n, noMarks, []⟩ 0 LF =
      Exec.headersDone (L.answers s)
        ⟨h.parser .headersDone p i n, noMarks, [(h.complete, 0)]⟩ 0 LF := by
  obtain ⟨⟨chunked, connectionKeepAlive, connectionClose, trailing, upgrade, skipbody⟩,
    contentLength, httpMajor, httpMinor, method⟩ := h
  obtain ⟨rfl, hconnect, rfl, -⟩ := hh
  have hup : (method == .connect) = false := beq_eq_false_iff_ne.2 hconnect
  have hreply : L.answers s [Head.complete ⟨⟨chunked, connectionKeepAlive, connectionClose, false,
      false, skipbody⟩, contentLength, httpMajor, httpMinor, method⟩] = ⟨0, false⟩ := hanswer
  show Exec.headersAlmostDone _ _ 0 LF = _
  rw [Exec.headersAlmostDone, if_neg (not_not.2 rfl)]
  simp only [Head.parser, hup, Bool.false_or, Bool.false_eq_true, if_false, Exec.call,
    List.nil_append, List.map_cons, List.map_nil]
  have hcomplete : Callback.headersComplete method httpMajor httpMinor false =
      Head.complete ⟨⟨chunked, connectionKeepAlive, connectionClose, false, false, skipbody⟩,
        contentLength, httpMajor, httpMinor, method⟩ := rfl
  rw [hcomplete, hreply]
  rfl

section Outcomes

variable (hh : h.KeepsProtocol) (hanswer : L.answer s h.complete = ⟨0, false⟩)
  (hn : n < HTTP_MAX_HEADER_SIZE)

include hh hanswer hn

/-- **Chunks follow.** -/
theorem reads_chunked (hchunked : h.flags.chunked = true) :
    L.Reads (h.parser .headersAlmostDone p i n) s [LF] (h.parser .chunkSizeStart p i 0)
      (L.tell s h.complete) := by
  have hstep := step_headersAlmostDone (p := p) (i := i) hh hanswer (n + 1)
  have hdone : Exec.headersDone (L.answers s)
      ⟨h.parser .headersDone p i (n + 1), noMarks, [(h.complete, 0)]⟩ 0 LF =
        .next ⟨h.parser .chunkSizeStart p i 0, noMarks, [(h.complete, 0)]⟩ 1 := by
    rw [Exec.headersDone, if_neg (not_not.2 rfl)]
    refine (if_neg Bool.false_ne_true).trans ((if_neg ?_).trans (if_pos hchunked))
    rw [Bool.not_eq_true]
    exact hh.skipbody
  exact reads_reset rfl hn (hstep.trans hdone) rfl rfl

/-- **A body of known length follows.** -/
theorem reads_sized (hchunked : h.flags.chunked = false)
    (hlength : h.contentLength ≠ 0 ∧ h.contentLength ≠ ULLONG_MAX) :
    L.Reads (h.parser .headersAlmostDone p i n) s [LF] (h.parser .bodyIdentity p i 0)
      (L.tell s h.complete) := by
  have hstep := step_headersAlmostDone (p := p) (i := i) hh hanswer (n + 1)
  have hdone : Exec.headersDone (L.answers s)
      ⟨h.parser .headersDone p i (n + 1), noMarks, [(h.complete, 0)]⟩ 0 LF =
        .next ⟨h.parser .bodyIdentity p i 0, noMarks, [(h.complete, 0)]⟩ 1 := by
    rw [Exec.headersDone, if_neg (not_not.2 rfl)]
    refine (if_neg Bool.false_ne_true).trans ((if_neg ?_).trans ((if_neg ?_).trans
      ((if_neg hlength.1).trans (if_pos hlength.2))))
    · rw [Bool.not_eq_true]
      exact hh.skipbody
    · rw [Bool.not_eq_true]
      exact hchunked
  exact reads_reset rfl hn (hstep.trans hdone) rfl rfl

/-- **Nothing follows.** -/
theorem finishes_empty (hend : ∀ s, (L.answer s .messageComplete).ret = 0)
    (hchunked : h.flags.chunked = false)
    (hlength : h.contentLength = 0 ∨ h.contentLength = ULLONG_MAX) :
    L.Finishes (h.parser .headersAlmostDone p i n) s [LF] (h.parser h.newMessage p i 0)
      (L.tell (L.tell s h.complete) .messageComplete) := by
  have hstep := step_headersAlmostDone (p := p) (i := i) hh hanswer (n + 1)
  have hdone : ∃ k, Exec.headersDone (L.answers s)
      ⟨h.parser .headersDone p i (n + 1), noMarks, [(h.complete, 0)]⟩ 0 LF =
        Exec.complete (L.answers s) ⟨h.parser .headersDone p i 0, noMarks, [(h.complete, 0)]⟩ 0
          k := by
    rw [Exec.headersDone, if_neg (not_not.2 rfl)]
    have hskip : ¬h.flags.skipbody = true := by
      rw [Bool.not_eq_true]
      exact hh.skipbody
    have hchunk : ¬h.flags.chunked = true := by
      rw [Bool.not_eq_true]
      exact hchunked
    by_cases hzero : h.contentLength = 0
    · exact ⟨_, (if_neg Bool.false_ne_true).trans ((if_neg hskip).trans ((if_neg hchunk).trans
        (if_pos hzero)))⟩
    · exact ⟨_, (if_neg Bool.false_ne_true).trans ((if_neg hskip).trans ((if_neg hchunk).trans
        ((if_neg hzero).trans (if_neg (not_not.2 (hlength.resolve_left hzero))))))⟩
  obtain ⟨k, hdone⟩ := hdone
  exact finishes_of_step hend rfl hn (hstep.trans hdone) rfl

end Outcomes

/-! ### Bodies of known length -/

/-- **A body of known length**, with the end of the message. -/
theorem finishes_identity (hend : ∀ s, (L.answer s .messageComplete).ret = 0) {l : List Byte}
    (hpos : 0 < h.contentLength) (hl : l.length = h.contentLength) :
    L.Finishes (h.parser .bodyIdentity p i n) s l
      (Head.parser { h with contentLength := 0 } h.newMessage p i n)
      (L.tell (L.tell s (.data .body 0 l)) .messageComplete) := by
  intro j
  obtain ⟨ch, t, htell, hfeed⟩ := L.feed_body_concat (q := h.parser .bodyIdentity p i n) rfl
    (.inl rfl) hpos hl s j
  have hlast := L.next_bodyIdentity
    (q := Head.parser { h with contentLength := 1 } .bodyIdentity p i n) rfl rfl rfl t
    (j + h.contentLength - 1) ch
  have hsum : j + h.contentLength - 1 + 1 = j + l.length := by omega
  refine (hfeed.trans hlast).trans ?_
  rw [hsum]
  have hret : (L.answers t (Exec.history (Exec.goto ⟨Head.parser { h with contentLength := 0 }
      .messageDone p i n, noMarks, [(Exec.since [ch] .body 0 1, 0)]⟩ h.newMessage)
        .messageComplete)).ret = 0 := by
    rw [L.answers_history]
    exact hend _
  have hparser :
      (L.ended (Head.parser { h with contentLength := 1 } .bodyIdentity p i n) t ch).parser =
        { Head.parser { h with contentLength := 0 } h.newMessage p i n with
          httpErrno := .paused } := by
    rw [Listener.ended, parser_stopped (by exact hret)]
    rfl
  have htold : L.told t (L.ended (Head.parser { h with contentLength := 1 } .bodyIdentity p i n) t
      ch).calls = L.tell (L.tell s (.data .body 0 l)) .messageComplete := by
    rw [← htell]
    rfl
  rw [hparser, htold]

/-! ### Chunks -/

/-- A hexadecimal digit. -/
def hexByte (d : ℕ) : Byte := UInt8.ofNat (if d < 10 then 48 + d else 87 + d)

/-- A number in hexadecimal. -/
def hexadecimal (n : ℕ) : List Byte := (numeral 16 n).map hexByte

theorem hexByte_spec {d : ℕ} (hd : d < 16) : unhex (hexByte d) = some d ∧ hexByte d ≠ CR := by
  have hall : ∀ d < 16, unhex (hexByte d) = some d ∧ hexByte d ≠ CR := by decide
  exact hall d hd

/-- The digits of a size. -/
def SizeDigits (a : ℕ) (l : List ℕ) : Prop := (∀ d ∈ l, d < 16) ∧ value 16 a l < ULLONG_MAX

/-- **The size of a chunk.** -/
theorem walks_chunkSize {k : ℕ} (hk : k < ULLONG_MAX) :
    L.Walks (h.parser .chunkSizeStart p i) s (hexadecimal k ++ [CR])
      (Head.parser { h with contentLength := k } .chunkSizeAlmostDone p i) s := by
  obtain ⟨d, l, hl, -⟩ := exists_numeral_eq_cons 16 k
  have hlt : ∀ c ∈ d :: l, c < 16 := fun c hc ↦ lt_of_mem_numeral (by decide) (hl ▸ hc)
  have hvalue : value 16 d l = k := by
    rw [← value_numeral 16 k, hl, value_cons, Nat.zero_mul, Nat.zero_add]
  rw [hexadecimal, hl, List.map_cons]
  have hfirst : L.Walks (h.parser .chunkSizeStart p i) s [hexByte d]
      (Head.parser { h with contentLength := d } .chunkSize p i) s := by
    refine walks_silent rfl (fun n ↦ ?_) rfl rfl
    show Exec.chunkSizeStart _ 0 (hexByte d) = _
    rw [Exec.chunkSizeStart, (hexByte_spec (hlt d List.mem_cons_self)).1]
    rfl
  have hdigits : L.Walks (Head.parser { h with contentLength := d } .chunkSize p i) s
      (l.map hexByte) (Head.parser { h with contentLength := k } .chunkSize p i) s := by
    rw [← hvalue]
    refine walks_foldl (P := fun a ↦ Head.parser { h with contentLength := a } .chunkSize p i)
      (I := SizeDigits) (fun a d l hl ↦ ⟨fun e he ↦ hl.1 e (List.mem_cons_of_mem d he), hl.2⟩)
      (fun a e l hl ↦ ?_) ⟨fun c hc ↦ hlt c (List.mem_cons_of_mem d hc), hvalue ▸ hk⟩
    obtain ⟨hunhex, hcr⟩ := hexByte_spec (hl.1 e List.mem_cons_self)
    have hnext : ∀ n, (Head.parser { h with contentLength := a } .chunkSize p i n).nextDigit 16 e =
        .ok (Head.parser { h with contentLength := a * 16 + e } .chunkSize p i n) := fun n ↦
      nextDigit_of_lt (by decide) (Nat.lt_of_le_of_lt (le_value (by decide) _ l) hl.2)
    refine walks_silent rfl (fun n ↦ ?_) rfl rfl
    show Exec.chunkSize _ 0 (hexByte e) = _
    rw [Exec.chunkSize, if_neg hcr, hunhex]
    dsimp only
    rw [hnext]
    rfl
  exact .append (.cons hfirst hdigits) (walks_silent rfl (fun _ ↦ rfl) rfl rfl)

/-- The line end behind the size of a chunk. -/
theorem reads_chunkStart (hn : n < HTTP_MAX_HEADER_SIZE) (hne : h.contentLength ≠ 0) :
    L.Reads (h.parser .chunkSizeAlmostDone p i n) s [LF] (h.parser .chunkData p i 0) s := by
  have hstep : Exec.step (L.answers s) [LF]
      ⟨h.parser .chunkSizeAlmostDone p i (n + 1), noMarks, []⟩ 0 LF =
        .next ⟨h.parser .chunkData p i 0, noMarks, []⟩ 1 := by
    show Exec.chunkSizeAlmostDone _ 0 LF = _
    rw [Exec.chunkSizeAlmostDone, if_neg (not_not.2 rfl)]
    exact if_neg hne
  exact reads_reset rfl hn hstep rfl rfl

/-- The line end behind the size of the last chunk. -/
theorem reads_lastChunk (hn : n < HTTP_MAX_HEADER_SIZE) (hzero : h.contentLength = 0) :
    L.Reads (h.parser .chunkSizeAlmostDone p i n) s [LF]
      (Head.parser { h with flags := { h.flags with trailing := true } } .headerFieldStart p i 0)
      s := by
  have hstep : Exec.step (L.answers s) [LF]
      ⟨h.parser .chunkSizeAlmostDone p i (n + 1), noMarks, []⟩ 0 LF =
        .next ⟨Head.parser { h with flags := { h.flags with trailing := true } } .headerFieldStart
          p i 0, noMarks, []⟩ 1 := by
    show Exec.chunkSizeAlmostDone _ 0 LF = _
    rw [Exec.chunkSizeAlmostDone, if_neg (not_not.2 rfl)]
    exact if_pos hzero
  exact reads_reset rfl hn hstep rfl rfl

/-- The bytes of a chunk. -/
theorem reads_chunkData {l : List Byte} (hpos : 0 < h.contentLength)
    (hl : l.length = h.contentLength) :
    L.Reads (h.parser .chunkData p i n) s l
      (Head.parser { h with contentLength := 0 } .chunkDataAlmostDone p i n)
      (L.tell s (.data .body 0 l)) := by
  intro j
  obtain ⟨ch, t, htell, hfeed⟩ := L.feed_body_concat (q := h.parser .chunkData p i n) rfl (.inr rfl)
    hpos hl s j
  have hlast := L.next_chunkData (q := Head.parser { h with contentLength := 1 } .chunkData p i n)
    rfl rfl rfl t (j + h.contentLength - 1) ch
  have hsum : j + h.contentLength - 1 + 1 = j + l.length := by omega
  refine (hfeed.trans hlast).trans ?_
  rw [hsum, htell]
  rfl

/-- A byte that is not counted. -/
theorem reads_uncounted (hst : parsingHeader st = false) (hmarks : st.span = none)
    (hstep : Exec.step (L.answers s) [ch] ⟨h.parser st p i n, noMarks, []⟩ 0 ch =
      .next ⟨h'.parser st' p' i' n', noMarks, []⟩ 1)
    (hspan : st'.span = none) (hidle : st'.idle = false) :
    L.Reads (h.parser st p i n) s [ch] (h'.parser st' p' i' n') s := by
  intro k
  have herrno : (h.parser st p i n).httpErrno = .ok := rfl
  have hcount : Exec.count ⟨h.parser st p i n, (h.parser st p i n).initialMarks, []⟩ =
      ⟨h.parser st p i n, noMarks, []⟩ := by
    rw [initialMarks_of_none (by exact hmarks)]
    refine if_neg ?_
    rw [Bool.not_eq_true]
    exact hst
  have hroom : ¬(parsingHeader (Exec.count ⟨h.parser st p i n, (h.parser st p i n).initialMarks,
      []⟩).parser.state ∧ HTTP_MAX_HEADER_SIZE < (Exec.count ⟨h.parser st p i n,
        (h.parser st p i n).initialMarks, []⟩).parser.nread) := by
    rw [hcount]
    exact fun hover ↦ absurd (hst.symm.trans hover.1) nofun
  rw [← hcount] at hstep
  exact L.next_of_heard herrno hroom hstep rfl (.clear rfl hspan hidle rfl)
    (fun h ↦ absurd (h.symm.trans hidle) nofun) k

/-- A chunk. -/
def chunk (c : List Byte) : List Byte := hexadecimal c.length ++ [CR] ++ ([LF] ++ (c ++ [CR, LF]))

theorem length_hexadecimal_le {k : ℕ} (hk : k < ULLONG_MAX) : (hexadecimal k).length ≤ 16 := by
  rw [hexadecimal, List.length_map]
  exact length_numeral_le (by decide) (by decide) (Nat.lt_trans hk (by decide))

/-- **A chunk.** -/
theorem reads_chunk {c : List Byte} (hne : c ≠ []) (hc : c.length < ULLONG_MAX) :
    L.Reads (h.parser .chunkSizeStart p i 0) s (chunk c)
      (Head.parser { h with contentLength := 0 } .chunkSizeStart p i 0)
      (L.tell s (.data .body 0 c)) := by
  have hlength : (hexadecimal c.length ++ [CR]).length ≤ 17 := by
    rw [List.length_append]
    exact Nat.add_le_add_right (length_hexadecimal_le hc) 1
  have hmax : 17 < HTTP_MAX_HEADER_SIZE := by decide
  have hpos : 0 < c.length := List.length_pos_iff.2 hne
  have hsize := walks_chunkSize (L := L) (h := h) (p := p) (i := i) (s := s) hc 0 (by omega)
  have hstart := reads_chunkStart (L := L) (h := { h with contentLength := c.length }) (p := p)
    (i := i) (s := s) (n := 0 + (hexadecimal c.length ++ [CR]).length) (by omega)
    (Nat.ne_of_gt hpos)
  have hdata := reads_chunkData (L := L) (h := { h with contentLength := c.length }) (p := p)
    (i := i) (n := 0) (s := s) hpos rfl
  have hcr : L.Reads (Head.parser { h with contentLength := 0 } .chunkDataAlmostDone p i 0)
      (L.tell s (.data .body 0 c)) [CR]
      (Head.parser { h with contentLength := 0 } .chunkDataDone p i 0)
      (L.tell s (.data .body 0 c)) := reads_uncounted rfl rfl rfl rfl rfl
  have hlf : L.Reads (Head.parser { h with contentLength := 0 } .chunkDataDone p i 0)
      (L.tell s (.data .body 0 c)) [LF]
      (Head.parser { h with contentLength := 0 } .chunkSizeStart p i 0)
      (L.tell s (.data .body 0 c)) := reads_uncounted rfl rfl rfl rfl rfl
  exact hsize.append (hstart.append (hdata.append (hcr.append hlf)))

/-- **Chunks**, one after the other. -/
theorem reads_chunks {l : List (List Byte)} (hl : ∀ c ∈ l, c ≠ [] ∧ c.length < ULLONG_MAX) :
    ∃ k, L.Reads (h.parser .chunkSizeStart p i 0) s (l.flatMap chunk)
      (Head.parser { h with contentLength := k } .chunkSizeStart p i 0)
      (l.foldl (fun s c ↦ L.tell s (.data .body 0 c)) s) := by
  induction l generalizing h s with
  | nil => exact ⟨h.contentLength, fun _ ↦ rfl⟩
  | cons c l ih =>
    obtain ⟨hne, hc⟩ := hl c List.mem_cons_self
    obtain ⟨k, hrest⟩ := ih (h := { h with contentLength := 0 }) (s := L.tell s (.data .body 0 c))
      fun c' hc' ↦ hl c' (List.mem_cons_of_mem c hc')
    exact ⟨k, (reads_chunk hne hc).append hrest⟩

/-! ### Trailers -/

/-- **A trailer** ends the message. -/
theorem finishes_trailer (hend : ∀ s, (L.answer s .messageComplete).ret = 0)
    (htrailing : h.flags.trailing = true) (hn : n < HTTP_MAX_HEADER_SIZE) :
    L.Finishes (h.parser .headersAlmostDone p i n) s [LF] (h.parser h.newMessage p i (n + 1))
      (L.tell s .messageComplete) := by
  have hstep : ∃ k, Exec.step (L.answers s) [LF]
      ⟨h.parser .headersAlmostDone p i (n + 1), noMarks, []⟩ 0 LF =
        Exec.complete (L.answers s) ⟨h.parser .headersAlmostDone p i (n + 1), noMarks, []⟩ 0 k := by
    refine ⟨fun x ↦ .next x 1, ?_⟩
    show Exec.headersAlmostDone _ _ 0 LF = _
    rw [Exec.headersAlmostDone, if_neg (not_not.2 rfl)]
    exact if_pos htrailing
  obtain ⟨k, hstep⟩ := hstep
  exact finishes_of_step hend rfl hn hstep rfl

/-- The head behind the last chunk. -/
def Head.trailer (h : Head) : Head :=
  { h with contentLength := 0, flags := { h.flags with trailing := true } }

/-- The last chunk. -/
def lastChunk : List Byte := hexadecimal 0 ++ [CR] ++ [LF]

theorem reads_end :
    L.Reads (h.parser .chunkSizeStart p i 0) s lastChunk
      (h.trailer.parser .headerFieldStart p i 0) s :=
  (walks_chunkSize (L := L) (h := h) (k := 0) (by decide) 0 (by decide +kernel)).append
    (reads_lastChunk (h := { h with contentLength := 0 }) (by decide +kernel) rfl)

end Bodies

end JnetLib.Http
