import JnetLib.Http.FieldReader

/-!
# The parser beside the reader of a header section

`Section.Reads` relates the parser to the reader of the fields between two bytes of a header
section, with one constructor for each state the parser can be in; behind a field it comes to
`Agrees`. There is one lemma for each way a byte is taken. None of them asks whether the fields are
unmistakable; `Reads.last` is what they come to where the section ends, and there it counts.
-/

namespace JnetLib.Http

/-- What the parser is in the middle of, beside the reader of the fields. -/
inductive Section.Reads : Section → Parser → Prop
  | request {q : Parser} (hs : q.state.inLine = true) (hlength : q.contentLength = ULLONG_MAX)
      (hchunked : q.flags.chunked = false) : Reads .request q
  | fieldStart {done : List Field} {last : Option Field} {q : Parser}
      (hs : q.state = .headerFieldStart) (h : Agrees (done ++ last.toList) q) :
      Reads (.fresh done last) q
  | field {done : List Field} {w : List Byte} {q : Parser} (hs : q.state = .headerField)
      (hnamed : Named q.headerState q.index (w.map token)) (h : Agrees done q) :
      Reads (.text done ⟨w, false, [], false⟩) q
  | valueStart {done : List Field} {f : Field} {q : Parser} (hs : q.state = .headerValueStart)
      (hput : f.colon = true ∨ f.folded = true) (h : Awaiting done f q) : Reads (.text done f) q
  | value {done : List Field} {f : Field} {q : Parser} (hs : q.state = .headerValue)
      (hput : f.colon = true ∨ f.folded = true) (h : Following done f q) : Reads (.text done f) q
  | almostDone {done : List Field} {f : Field} {q : Parser} (hs : q.state = .headerAlmostDone)
      (hp : f.isFraming = false → q.headerState.isFraming = false)
      (h : Agrees (done ++ [f]) q.endValue) : Reads (.text done f) q
  | lws {done : List Field} {f : Field} {q : Parser} (hs : q.state = .headerValueLws)
      (hp : f.isFraming = false → q.headerState.isFraming = false) (h : Agrees (done ++ [f]) q) :
      Reads (.fresh done (some f)) q
  | ending {done : List Field} {q : Parser} (hs : q.state = .headersAlmostDone)
      (h : Agrees done q) : Reads (.ending done) q

namespace Section.Reads

variable {s : Section} {q q' : Parser} {ch : Byte}

/-- The fields that matter. -/
theorem congr (h : s.Reads q) (hs : q'.state = q.state) (hf : q'.flags = q.flags)
    (hl : q'.contentLength = q.contentLength) (hp : q'.headerState = q.headerState)
    (hi : q'.index = q.index) : s.Reads q' := by
  have hsame : q'.SameBody q := ⟨hl, congrArg Flags.chunked hf⟩
  cases h with
  | request h hlength hchunked =>
    exact .request (hs ▸ h) (hl.trans hlength) (hsame.chunked.trans hchunked)
  | fieldStart h hagrees => exact .fieldStart (hs.trans h) (hagrees.congr hsame)
  | field h hnamed hagrees =>
    exact .field (hs.trans h) (by rw [hp, hi]; exact hnamed) (hagrees.congr hsame)
  | valueStart h hput hawaiting =>
    refine .valueStart (hs.trans h) hput ?_
    cases hawaiting with
    | folded hf hfold => exact .folded hf hfold
    | other hf hother hagrees => exact .other hf (hp ▸ hother) (hagrees.congr hsame)
    | framing hf hcolon hbare hstate hagrees =>
      exact .framing hf hcolon hbare (hp ▸ hstate) (hagrees.congr hsame)
  | value h hput hfollowing =>
    refine .value (hs.trans h) hput ?_
    cases hfollowing with
    | folded hf hfold => exact .folded hf hfold
    | other hf hother hagrees => exact .other hf (hp ▸ hother) (hagrees.congr hsame)
    | length hk hcolon hbare hstate hdigits hlength n hagrees =>
      exact .length hk hcolon hbare (hp.trans hstate) hdigits (hl.trans hlength) n
        (hagrees.congr ⟨rfl, hsame.chunked⟩)
    | coding hk hcolon hbare hvalued hagrees =>
      exact .coding hk hcolon hbare (by rw [hp, hi]; exact hvalued) (hagrees.congr hsame)
  | almostDone h hother hagrees =>
    refine .almostDone (hs.trans h) (hp ▸ hother) (hagrees.congr ?_)
    rw [Parser.endValue, Parser.endValue, hp]
    split <;> first | exact ⟨hl, rfl⟩ | exact ⟨hl, hsame.chunked⟩
  | lws h hother hagrees => exact .lws (hs.trans h) (hp ▸ hother) (hagrees.congr hsame)
  | ending h hagrees => exact .ending (hs.trans h) (hagrees.congr hsame)

/-! ### One byte -/

/-- A byte of the request line. -/
theorem line (h : s.Reads q) (hs : q.state.inLine = true) (hch : ch ≠ LF)
    (hs' : q'.state.inLine = true) (hq : q'.SameBody q) : (s.next ch).Reads q' := by
  cases h with
  | request _ hlength hchunked =>
    rw [next, if_neg hch]
    exact .request hs' (hq.length.trans hlength) (hq.chunked.trans hchunked)
  | fieldStart h | field h | valueStart h | value h | almostDone h | lws h | ending h =>
    rw [h] at hs
    cases hs

/-- The last byte of the request line. -/
theorem lineEnd (h : s.Reads q) (hs : q.state.inLine = true) (hs' : q'.state = .headerFieldStart)
    (hq : q'.SameBody q) : (s.next LF).Reads q' := by
  cases h with
  | request _ hlength hchunked =>
    exact @Reads.fieldStart [] none _ hs' fun _ ↦
      ⟨hq.length.trans hlength, hq.chunked.trans hchunked⟩
  | fieldStart h | field h | valueStart h | value h | almostDone h | lws h | ending h =>
    rw [h] at hs
    cases hs

/-- The first byte of a name. -/
theorem startField (h : s.Reads q) (hs : q.state = .headerFieldStart) (hch : token ch ≠ 0) :
    (s.next ch).Reads (q.startField (token ch)) := by
  obtain ⟨hlf, hcr, hcolon⟩ := ne_of_token hch
  have hblank : isBlank ch = false := by
    rw [Bool.eq_false_iff, Ne, isBlank_iff]
    rintro (rfl | rfl) <;> exact absurd rfl hch
  obtain ⟨p', heq, hnamed⟩ := named_startField q.head q.state q.headerState q.index hch
  have hstate : (q.startField (token ch)).headerState = p' :=
    congrArg Parser.headerState (heq 0)
  have hput : Field.empty.put ch = ⟨[ch], false, [], false⟩ := Field.put_name hcr hcolon
  cases h with
  | @fieldStart done last _ _ hagrees =>
    have hnext : (fresh done last).next ch =
        .text (done ++ last.toList) ⟨[ch], false, [], false⟩ := by
      cases last with
      | none =>
        rw [next, if_neg hlf, if_neg hcr, hput, Option.toList_none, List.append_nil]
      | some f =>
        rw [next, if_neg hlf, if_neg hcr, if_neg (by rw [hblank]; decide), hput]
        rfl
    rw [hnext]
    refine .field rfl ?_ (hagrees.congr ⟨rfl, rfl⟩)
    rw [hstate]
    exact hnamed
  | request h => rw [hs] at h; cases h
  | field h | valueStart h | value h | almostDone h | lws h | ending h =>
    rw [hs] at h
    cases h

/-- Another byte of a name. -/
theorem nextField (h : s.Reads q) (hs : q.state = .headerField) (hok : q.httpErrno = .ok)
    (hup : q.upgrade = false) (hch : token ch ≠ 0) :
    (s.next ch).Reads (q.nextField ch (token ch)) := by
  obtain ⟨hlf, hcr, hcolon⟩ := ne_of_token hch
  have hspace : ch ≠ ' ' := by
    rintro rfl
    exact absurd rfl hch
  cases h with
  | @field done w _ _ hnamed hagrees =>
    obtain ⟨p', i', heq, hnamed'⟩ := named_nextField q.head q.state hnamed hch hspace
    have hq := heq q.nread
    rw [Parser.head_parser hok hup] at hq
    rw [next, if_neg hlf, Field.put_name hcr hcolon, hq]
    refine .field hs ?_ hagrees
    rw [List.map_append]
    exact hnamed'
  | request h => rw [hs] at h; cases h
  | fieldStart h | valueStart h | value h | almostDone h | lws h | ending h =>
    rw [hs] at h
    cases h

/-- The colon behind a name. -/
theorem colon (h : s.Reads q) (hs : q.state = .headerField) :
    (s.next ':').Reads { q with state := .headerValueStart } := by
  cases h with
  | field _ hnamed hagrees =>
    exact .valueStart rfl (.inl rfl) (hnamed.awaiting hagrees ⟨rfl, rfl⟩ rfl)
  | request h => rw [hs] at h; cases h
  | fieldStart h | valueStart h | value h | almostDone h | lws h | ending h =>
    rw [hs] at h
    cases h

/-- The end of a line without a colon. -/
theorem bareLine (h : s.Reads q) (hs : q.state = .headerField) :
    (s.next CR).Reads { q with state := .headerAlmostDone } ∧
      (s.next LF).Reads { q with state := .headerFieldStart } := by
  cases h with
  | @field done w _ _ hnamed hagrees =>
    have hsilent : ∀ q' : Parser, q'.SameBody q → Agrees (done ++ [⟨w, false, [], false⟩]) q' :=
      fun q' hq ↦ hagrees.concat_silent (Field.length_of_bare_line rfl)
        (Field.chunked_of_bare_line rfl) hq
    refine ⟨.almostDone rfl (fun hf ↦ ?_) (hsilent _ ?_), @Reads.fieldStart _ (some _) _ rfl
      (hsilent _ ⟨rfl, rfl⟩)⟩
    · have hother := hnamed.awaiting hagrees (show q.SameBody q from ⟨rfl, rfl⟩) rfl
      cases hother with
      | folded h => exact absurd (h.symm.trans hf) nofun
      | other _ hp => exact hp
      | framing h => exact absurd (h.symm.trans hf) nofun
    · have hsame := sameBody_endValue (q := { q with state := .headerAlmostDone }) hnamed.ne_chunked
      exact ⟨hsame.length, hsame.chunked⟩
  | request h => rw [hs] at h; cases h
  | fieldStart h | valueStart h | value h | almostDone h | lws h | ending h =>
    rw [hs] at h
    cases h

/-- A blank in front of a value. -/
theorem blank (h : s.Reads q) (hs : q.state = .headerValueStart) (hch : isBlank ch = true) :
    (s.next ch).Reads q := by
  cases h with
  | valueStart _ hput hawaiting =>
    have hne : ch ≠ LF ∧ ch ≠ CR := by
      rcases isBlank_iff.1 hch with rfl | rfl <;> decide
    rw [next, if_neg hne.1, Field.put_value hput hne.2]
    exact .valueStart hs hput (hawaiting.blank hch)
  | request h => rw [hs] at h; cases h
  | fieldStart h | field h | value h | almostDone h | lws h | ending h =>
    rw [hs] at h
    cases h

/-- The end of a line without a value. -/
theorem emptyValue (h : s.Reads q) (hs : q.state = .headerValueStart) :
    (s.next CR).Reads
        { q with state := .headerAlmostDone, index := 0, headerState := .general } ∧
      (s.next LF).Reads { q with state := .headerFieldStart, index := 0 } := by
  cases h with
  | @valueStart done f _ _ hput hawaiting =>
    refine ⟨?_, @Reads.fieldStart _ (some f) _ rfl (hawaiting.ended ⟨rfl, rfl⟩)⟩
    rw [show (text done f).next CR = text done f from congrArg (text done) f.put_CR]
    exact .almostDone rfl (fun _ ↦ rfl) (hawaiting.ended ⟨rfl, rfl⟩)
  | request h => rw [hs] at h; cases h
  | fieldStart h | field h | value h | almostDone h | lws h | ending h =>
    rw [hs] at h
    cases h

/-- The first byte of a value. -/
theorem startValue (h : s.Reads q) (hs : q.state = .headerValueStart) (hok : q.httpErrno = .ok)
    (hup : q.upgrade = false) (hlf : ch ≠ LF) (hcr : ch ≠ CR) (hblank : isBlank ch = false)
    (hq : ({ q with state := .headerValue, index := 0 } : Parser).startValue ch (lower ch) =
      .ok q') : (s.next ch).Reads q' := by
  cases h with
  | @valueStart done f _ _ hput hawaiting =>
    have hstate : q'.state = .headerValue := (alike_startValue hq).state
    have hawaiting' : Awaiting done f { q with state := .headerValue, index := 0 } := by
      cases hawaiting with
      | folded hf hfold => exact .folded hf hfold
      | other hf hp h => exact .other hf hp h
      | framing hf hcolon hbare hp h => exact .framing hf hcolon hbare hp h
    rw [next, if_neg hlf, Field.put_value hput hcr]
    exact .value hstate hput (hawaiting'.start hok hup rfl hblank hq)
  | request h => rw [hs] at h; cases h
  | fieldStart h | field h | value h | almostDone h | lws h | ending h =>
    rw [hs] at h
    cases h

/-- Another byte of a value. -/
theorem nextValue (h : s.Reads q) (hs : q.state = .headerValue) (hok : q.httpErrno = .ok)
    (hup : q.upgrade = false) (hlf : ch ≠ LF) (hcr : ch ≠ CR)
    (hq : q.nextValue ch (lower ch) = .ok q') : (s.next ch).Reads q' := by
  cases h with
  | value _ hput hfollowing =>
    rw [next, if_neg hlf, Field.put_value hput hcr]
    exact .value ((alike_nextValue hq).state.trans hs) hput (hfollowing.next hok hup hq)
  | request h => rw [hs] at h; cases h
  | fieldStart h | field h | valueStart h | almostDone h | lws h | ending h =>
    rw [hs] at h
    cases h

/-- A value is over, whichever line end it has. -/
theorem valueDone (h : s.Reads q) (hs : q.state = .headerValue) (hok : q.httpErrno = .ok)
    (hup : q.upgrade = false) :
    s.Reads { q with state := .headerAlmostDone } ∧ s.next CR = s := by
  cases h with
  | @value done f _ _ hput hfollowing =>
    refine ⟨.almostDone rfl (fun hf ↦ ?_) (hfollowing.ended hok hup _),
      congrArg (text done) f.put_CR⟩
    cases hfollowing with
    | folded hf' => exact absurd (hf'.symm.trans hf) nofun
    | other _ hp => exact hp
    | length hk => rw [Field.isFraming, hk] at hf; cases hf
    | coding hk => rw [Field.isFraming, hk] at hf; cases hf
  | request h => rw [hs] at h; cases h
  | fieldStart h | field h | valueStart h | almostDone h | lws h | ending h =>
    rw [hs] at h
    cases h

/-- The line feed behind a field. -/
theorem almostDone_LF (h : s.Reads q) (hs : q.state = .headerAlmostDone) :
    (s.next LF).Reads ({ q with state := .headerValueLws } : Parser).endValue := by
  cases h with
  | almostDone _ hp hagrees =>
    have hstate : ({ q with state := .headerValueLws } : Parser).endValue.state =
      .headerValueLws := (alike_endValue _).state
    refine .lws hstate (fun hf ↦ ?_) (hagrees.congr ?_)
    · rw [headerState_endValue]
      exact hp hf
    · rw [Parser.endValue, Parser.endValue]
      dsimp only
      split <;> exact ⟨rfl, rfl⟩
  | request h => rw [hs] at h; cases h
  | fieldStart h | field h | valueStart h | value h | lws h | ending h =>
    rw [hs] at h
    cases h

/-- A field goes on in another line. -/
theorem continued (h : s.Reads q) (hs : q.state = .headerValueLws) (hch : isBlank ch = true) :
    (s.next ch).Reads { q with state := .headerValueStart } := by
  cases h with
  | @lws done f _ _ hp hagrees =>
    have hne : ch ≠ LF ∧ ch ≠ CR := by
      rcases isBlank_iff.1 hch with rfl | rfl <;> decide
    rw [next, if_neg hne.1, if_neg hne.2, if_pos hch]
    refine .valueStart rfl (.inr rfl) ?_
    cases hf : f.isFraming with
    | true => exact .folded hf rfl
    | false => exact .other hf (hp hf) (hagrees.of_concat hf)
  | request h => rw [hs] at h; cases h
  | fieldStart h | field h | valueStart h | value h | almostDone h | ending h =>
    rw [hs] at h
    cases h

/-- A line that is not continued on the next one. -/
theorem notContinued (h : s.Reads q) (hs : q.state = .headerValueLws) :
    s.Reads { q with state := .headerFieldStart } := by
  cases h with
  | @lws done f _ _ hp hagrees => exact @Reads.fieldStart _ (some f) _ rfl hagrees
  | request h => rw [hs] at h; cases h
  | fieldStart h | field h | valueStart h | value h | almostDone h | ending h =>
    rw [hs] at h
    cases h

/-- The empty line begins. -/
theorem emptyLine (h : s.Reads q) (hs : q.state = .headerFieldStart) :
    (s.next CR).Reads { q with state := .headersAlmostDone } := by
  cases h with
  | @fieldStart done last _ _ hagrees =>
    cases last with
    | none => exact .ending rfl hagrees
    | some f => exact .ending rfl hagrees
  | request h => rw [hs] at h; cases h
  | field h | valueStart h | value h | almostDone h | lws h | ending h =>
    rw [hs] at h
    cases h

/-- **The last line feed.** The section has ended, and the parser agrees with its fields. -/
theorem last (h : s.Reads q)
    (hs : q.state = .headerFieldStart ∨ q.state = .headersAlmostDone) :
    ∃ fs, (s.next LF).fields = some fs ∧ Agrees fs q := by
  cases h with
  | @fieldStart done last _ _ hagrees => exact ⟨done ++ last.toList, by cases last <;> rfl, hagrees⟩
  | @ending done _ _ hagrees => exact ⟨done, rfl, hagrees⟩
  | request h => rcases hs with hs | hs <;> rw [hs] at h <;> cases h
  | field h | valueStart h | value h | almostDone h | lws h =>
    rcases hs with hs | hs <;> rw [hs] at h <;> cases h

end Section.Reads

end JnetLib.Http
