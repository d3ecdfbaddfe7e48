import JnetLib.Http.Rounds

/-!
# The states of the parser, one by one

`together_`*state* says of a state that a round of it on a piece and on the byte alone go together.
Each rests on the rules of `Http/Rounds` for what the state does to the marks and the callbacks, and
on nothing else; a state reads only the byte and the parser, which are the same on both sides.

The end of a message is the one place where the two may differ: the callback pauses the parser, so
the call returns, and there it has consumed what the byte alone has (`returns_complete`).
-/

namespace JnetLib.Http.Exec

variable {S : Type*} {L : Listener S} {s t : S} {data : List Byte} {ch : Byte} {x : Exec}
  {p k : ℕ} {marks : DataCallback → Option ℕ} {calls : List (Callback × ℕ)}

/-- Before a message, more line ends. -/
theorem Idle.next (h : Idle x marks calls) (hidle : x.parser.state.idle = true) :
    Together L s t data ch p (.next x (p + 1)) (.next ⟨x.parser, marks, calls⟩ 1) :=
  .idle rfl rfl rfl h hidle

theorem together_startReq (h : Idle x marks calls) (hs : x.parser.state.idle = true) :
    Together L s t data ch p (x.startReq (L.answers s) p ch)
      (Exec.startReq (L.answers t) ⟨x.parser, marks, calls⟩ 0 ch) := by
  have hgo (r : S) (y : Exec) : L.answers r (y.history .messageBegin) = ⟨0, false⟩ := by
    rw [L.answers_history]
    exact L.answer_begin _
  have htold : L.told s (x.calls ++ [(.messageBegin, p + 1)]) =
      L.told t (calls ++ [(.messageBegin, 1)]) := by
    rw [L.told_concat, L.told_concat]
    exact L.tell_begin _ _
  rw [startReq, startReq]
  dsimp only
  split_ifs
  · exact h.next hs
  · exact together_error (by decide) rfl
  · cases startMethod ch with
    | none => exact together_error (e := .invalidMethod) (by decide) rfl
    | some m =>
      dsimp only
      rw [notify_of_go, notify_of_go]
      · exact Level.next (x := x.passed .messageBegin (p + 1)) ⟨h.errno, h.here, h.there, htold⟩
          h.errno h.upgrade rfl
      · exact h.errno
      · exact hgo t _
      · exact h.errno
      · exact hgo s _

theorem together_reqMethod (h : Clear L s t x marks calls) (hs : x.parser.state.plain = true) :
    Together L s t data ch p (x.reqMethod p ch)
      (Exec.reqMethod ⟨x.parser, marks, calls⟩ 0 ch) := by
  rw [reqMethod, reqMethod]
  dsimp only
  split_ifs
  · exact together_error (by decide) rfl
  · exact h.next h.errno h.upgrade rfl
  · exact h.next h.errno h.upgrade hs
  · cases hm : switchMethod x.parser.method x.parser.index ch with
    | ok m => exact h.next h.errno h.upgrade hs
    | error e => exact together_error (e := e) (fatal_of_switchMethod hm) rfl

/-- In a URL, `parse_url_char` leads to another state of a URL, or to an error. -/
theorem span_parseUrlChar {u : State} (hu : u = .reqSpacesBeforeUrl ∨ u.span = some .url)
    {b : Bool} (hne : parseUrlChar u ch b ≠ .dead) :
    (parseUrlChar u ch b).span = some .url := by
  rcases hu with rfl | hu
  · rw [parseUrlChar] at hne ⊢
    split_ifs at hne ⊢ <;> first | rfl | exact absurd rfl hne
  · cases u <;> cases hu
    all_goals
      rw [parseUrlChar] at hne ⊢
      split_ifs at hne ⊢ <;> first | rfl | exact absurd rfl hne

theorem together_urlChar (h : Spanning L s t data ch .url x p marks calls 0)
    (hch : data[p]? = some ch)
    (hs : x.parser.state = .reqSpacesBeforeUrl ∨ x.parser.state.span = some .url) :
    Together L s t data ch p (x.urlChar p ch)
      (Exec.urlChar ⟨x.parser, marks, calls⟩ 0 ch) := by
  rw [urlChar, urlChar]
  dsimp only
  split_ifs with hdead
  · exact together_error (by decide) rfl
  · exact h.next hch h.errno h.upgrade (span_parseUrlChar hs hdead)

theorem together_reqSpacesBeforeUrl (h : Clear L s t x marks calls) (hch : data[p]? = some ch)
    (hs : x.parser.state = .reqSpacesBeforeUrl) :
    Together L s t data ch p (x.reqSpacesBeforeUrl p ch)
      (Exec.reqSpacesBeforeUrl ⟨x.parser, marks, calls⟩ 0 ch) := by
  rw [reqSpacesBeforeUrl, reqSpacesBeforeUrl]
  split_ifs
  · exact h.next h.errno h.upgrade (by rw [hs]; rfl)
  · rw [mark_of_noMarks h.here, mark_of_noMarks (x := ⟨x.parser, marks, calls⟩) h.there]
    exact together_urlChar (h.mark .url p) hch (.inl hs)

theorem together_reqSchema (h : Spanning L s t data ch .url x p marks calls 0)
    (hch : data[p]? = some ch) (hs : x.parser.state.span = some .url) :
    Together L s t data ch p (x.reqSchema p ch)
      (Exec.reqSchema ⟨x.parser, marks, calls⟩ 0 ch) := by
  rw [reqSchema, reqSchema]
  split_ifs
  · exact together_error (by decide) rfl
  · exact together_urlChar h hch (.inr hs)

theorem together_reqUrl (h : Spanning L s t data ch .url x p marks calls 0)
    (hch : data[p]? = some ch) (hs : x.parser.state.span = some .url) :
    Together L s t data ch p (x.reqUrl (L.answers s) data p ch)
      (Exec.reqUrl (L.answers t) [ch] ⟨x.parser, marks, calls⟩ 0 ch) := by
  rw [reqUrl, reqUrl]
  split
  · exact h.callbackData_next h.errno h.upgrade rfl
  · split
    · exact h.callbackData_next h.errno h.upgrade (by dsimp only; split <;> rfl)
    · exact together_urlChar h hch (.inr hs)

theorem together_reqHttpStart (h : Clear L s t x marks calls) (hs : x.parser.state.plain = true) :
    Together L s t data ch p (x.reqHttpStart p ch)
      (Exec.reqHttpStart ⟨x.parser, marks, calls⟩ 0 ch) := by
  rw [reqHttpStart, reqHttpStart]
  split_ifs
  · exact h.next h.errno h.upgrade rfl
  · exact h.next h.errno h.upgrade hs
  · exact together_error (by decide) rfl

theorem together_strict (h : Clear L s t x marks calls) {c : Byte} {u : State}
    (hu : u.plain = true) :
    Together L s t data ch p (x.strict p ch c u)
      (Exec.strict ⟨x.parser, marks, calls⟩ 0 ch c u) := by
  rw [strict, strict]
  split_ifs
  · exact together_error (by decide) rfl
  · exact h.next h.errno h.upgrade hu

theorem together_reqFirstHttpMajor (h : Clear L s t x marks calls) :
    Together L s t data ch p (x.reqFirstHttpMajor p ch)
      (Exec.reqFirstHttpMajor ⟨x.parser, marks, calls⟩ 0 ch) := by
  rw [reqFirstHttpMajor, reqFirstHttpMajor]
  split_ifs
  · exact together_error (by decide) rfl
  · exact h.next h.errno h.upgrade rfl

theorem together_reqHttpMajor (h : Clear L s t x marks calls) (hs : x.parser.state.plain = true) :
    Together L s t data ch p (x.reqHttpMajor p ch)
      (Exec.reqHttpMajor ⟨x.parser, marks, calls⟩ 0 ch) := by
  rw [reqHttpMajor, reqHttpMajor]
  dsimp only
  split_ifs
  · exact h.next h.errno h.upgrade rfl
  · exact together_error (by decide) rfl
  · exact together_error (by decide) rfl
  · exact h.next h.errno h.upgrade hs

theorem together_reqFirstHttpMinor (h : Clear L s t x marks calls) :
    Together L s t data ch p (x.reqFirstHttpMinor p ch)
      (Exec.reqFirstHttpMinor ⟨x.parser, marks, calls⟩ 0 ch) := by
  rw [reqFirstHttpMinor, reqFirstHttpMinor]
  split_ifs
  · exact together_error (by decide) rfl
  · exact h.next h.errno h.upgrade rfl

theorem together_reqHttpMinor (h : Clear L s t x marks calls) (hs : x.parser.state.plain = true) :
    Together L s t data ch p (x.reqHttpMinor p ch)
      (Exec.reqHttpMinor ⟨x.parser, marks, calls⟩ 0 ch) := by
  rw [reqHttpMinor, reqHttpMinor]
  dsimp only
  split_ifs
  · exact h.next h.errno h.upgrade rfl
  · exact h.next h.errno h.upgrade rfl
  · exact together_error (by decide) rfl
  · exact together_error (by decide) rfl
  · exact h.next h.errno h.upgrade hs

theorem together_reqLineAlmostDone (h : Clear L s t x marks calls) :
    Together L s t data ch p (x.reqLineAlmostDone p ch)
      (Exec.reqLineAlmostDone ⟨x.parser, marks, calls⟩ 0 ch) := by
  rw [reqLineAlmostDone, reqLineAlmostDone]
  split_ifs
  · exact together_error (by decide) rfl
  · exact h.next h.errno h.upgrade rfl

/-- The end of a message pauses the parser. -/
theorem complete_eq (hok : x.parser.httpErrno = .ok) (k : Exec → Flow) :
    x.complete (L.answers s) p k =
      .ret ((x.goto x.parser.newMessage).stopped (L.answers s) .messageComplete .cbMessageComplete
        (p + 1)) (p + 1) := by
  have hpause : ¬((L.answers s (history (x.goto x.parser.newMessage) .messageComplete)).ret = 0 ∧
      (L.answers s (history (x.goto x.parser.newMessage) .messageComplete)).pause = false) := by
    rw [L.answers_history, (L.pause_iff _ _).2 rfl]
    exact fun h ↦ absurd h.2 (by decide)
  have hne : ((x.goto x.parser.newMessage).stopped (L.answers s) .messageComplete .cbMessageComplete
      (p + 1)).parser.httpErrno ≠ .ok := stopped_errno_ne nofun
  rw [complete, notify, refuse_call (x := x.goto x.parser.newMessage) hok, if_neg hpause]
  exact if_neg hne

theorem idle_newMessage (q : Parser) : q.newMessage.idle = true := by
  rw [Parser.newMessage]
  split <;> rfl

/-- The end of a message ends both calls, as the callback pauses the parser. -/
theorem returns_complete (h : Level L s t x marks calls) {ek : ℕ} (hek : ek + 1 = 1) :
    Returns L s t p
      ((x.goto x.parser.newMessage).stopped (L.answers s) .messageComplete .cbMessageComplete
        (p + ek + 1)) (p + ek + 1)
      ((goto ⟨x.parser, marks, calls⟩ x.parser.newMessage).stopped (L.answers t) .messageComplete
        .cbMessageComplete (ek + 1)) (ek + 1) := by
  have hanswer : L.answers t (history (goto ⟨x.parser, marks, calls⟩ x.parser.newMessage)
      .messageComplete) =
        L.answers s (history (x.goto x.parser.newMessage) .messageComplete) := by
    rw [L.answers_history, L.answers_history]
    exact congrArg (L.answer · _) h.told.symm
  refine ⟨?_, rfl, stopped_errno_ne nofun, fun _ ↦ ⟨hek, idle_newMessage _⟩, fun _ ↦ ?_⟩
  · rw [stopped, stopped, hanswer]
    rfl
  · show L.told s (x.calls ++ [(_, _)]) = L.told t (calls ++ [(_, _)])
    rw [L.told_concat, L.told_concat, h.told]

theorem together_complete (h : Level L s t x marks calls) {kx ky : Exec → Flow} :
    Together L s t data ch p (x.complete (L.answers s) p kx)
      (Exec.complete (L.answers t) ⟨x.parser, marks, calls⟩ 0 ky) := by
  rw [complete_eq h.errno, complete_eq (x := ⟨x.parser, marks, calls⟩) h.errno]
  exact returns_complete h rfl

theorem together_headersDone (h : Level L s t x marks calls) :
    Together L s t data ch p (x.headersDone (L.answers s) p ch)
      (Exec.headersDone (L.answers t) ⟨x.parser, marks, calls⟩ 0 ch) := by
  rw [headersDone, headersDone]
  dsimp only
  split_ifs with _ hu _ _ hzero
  · exact together_error (by decide) rfl
  · exact together_complete (h.set (q := { x.parser with nread := 0 }) h.errno)
  · exact together_complete (h.set (q := { x.parser with nread := 0 }) h.errno)
  · exact h.next h.errno (Bool.eq_false_of_not_eq_true hu) rfl
  · exact together_complete (h.set (q := { x.parser with nread := 0 }) h.errno)
  · exact .clear rfl rfl rfl ⟨h.set h.errno, Bool.eq_false_of_not_eq_true hu⟩ rfl rfl
      fun _ ↦ Nat.pos_of_ne_zero hzero
  · exact together_complete (h.set (q := { x.parser with nread := 0 }) h.errno)

/-- The answer of `on_headers_complete` is followed by the same byte once more, unless it refuses
the message. -/
theorem together_answered {y z : Exec} (hparser : z.parser = y.parser)
    (hok : y.parser.httpErrno = .ok) (hy : y.marks = noMarks)
    (hz : z.marks = noMarks) (htold : L.told s y.calls = L.told t z.calls) (ret : ℕ) :
    let skip (x : Exec) : Exec := if ret = 1 then
        { x with parser := { x.parser with flags := { x.parser.flags with skipbody := true } } }
      else x
    Together L s t data ch p
      (if 1 < ret then y.error .cbHeadersComplete p
        else if (skip y).parser.httpErrno = .ok then (skip y).headersDone (L.answers s) p ch
        else .ret (skip y) p)
      (if 1 < ret then z.error .cbHeadersComplete 0
        else if (skip z).parser.httpErrno = .ok then (skip z).headersDone (L.answers t) 0 ch
        else .ret (skip z) 0) := by
  intro skip
  obtain ⟨q, marks, calls⟩ := z
  obtain rfl : q = y.parser := hparser
  have hskip : (skip ⟨y.parser, marks, calls⟩) = ⟨(skip y).parser, marks, calls⟩ := by
    simp only [skip]
    split <;> rfl
  have hmarks : (skip y).marks = noMarks := by
    simp only [skip]
    split <;> exact hy
  have hcalls : (skip y).calls = y.calls := by
    simp only [skip]
    split <;> rfl
  have hskipped : (skip y).parser.httpErrno = .ok := by
    simp only [skip]
    split <;> exact hok
  rw [hskip]
  dsimp only
  rw [if_pos hskipped]
  split
  · exact together_error (by decide) rfl
  · exact together_headersDone ⟨hskipped, hmarks, hz, hcalls ▸ htold⟩

theorem map_fst_call (reply : Answers) (x : Exec) (c : Callback) (er : ℕ) :
    (x.call reply c er).calls.map Prod.fst = x.history c :=
  List.map_append

theorem parser_call (reply : Answers) (x : Exec) (c : Callback) (er : ℕ) :
    (x.call reply c er).parser = { x.parser with
      httpErrno := if (reply (x.history c)).pause then .paused else x.parser.httpErrno } := by
  rw [← map_fst_call reply x c er]
  rfl

theorem together_headersAlmostDone (h : Clear L s t x marks calls) :
    Together L s t data ch p (x.headersAlmostDone (L.answers s) p ch)
      (Exec.headersAlmostDone (L.answers t) ⟨x.parser, marks, calls⟩ 0 ch) := by
  rw [headersAlmostDone, headersAlmostDone]
  dsimp only
  generalize hc : Callback.headersComplete _ _ _ _ = c
  split
  · exact together_error (by decide) rfl
  · split
    · exact together_complete h.toLevel
    · rw [map_fst_call, map_fst_call, L.answers_history, L.answers_history]
      have hanswer : L.answer (L.told t calls) c = L.answer (L.told s x.calls) c := by rw [h.told]
      dsimp only
      rw [hanswer]
      generalize hy : call (L.answers s) _ c p = y
      generalize hz : call (L.answers t) _ c 0 = z
      have hpause : (L.answer (L.told s x.calls) c).pause = false := by
        refine Bool.eq_false_of_not_eq_true fun h' ↦ ?_
        rw [(L.pause_iff _ _).1 h'] at hc
        cases hc
      refine together_answered ?_ ?_ ?_ ?_ ?_ (L.answer (L.told s x.calls) c).ret
      · rw [← hy, ← hz, parser_call, parser_call, L.answers_history, L.answers_history, hanswer]
      · rw [← hy, parser_call, L.answers_history]
        show (if (L.answer (L.told s x.calls) c).pause then HttpErrno.paused
          else x.parser.httpErrno) = .ok
        rw [hpause]
        exact h.errno
      · rw [← hy]
        exact h.here
      · rw [← hz]
        exact h.there
      · rw [← hy, ← hz]
        show L.told s (x.calls ++ [(c, p)]) = L.told t (calls ++ [(c, 0)])
        rw [L.told_concat, L.told_concat, h.told]

theorem together_headerFieldStart (h : Clear L s t x marks calls) (hch : data[p]? = some ch) :
    Together L s t data ch p (x.headerFieldStart (L.answers s) p ch)
      (Exec.headerFieldStart (L.answers t) ⟨x.parser, marks, calls⟩ 0 ch) := by
  rw [headerFieldStart, headerFieldStart, mark_of_noMarks h.here,
    mark_of_noMarks (x := ⟨x.parser, marks, calls⟩) h.there]
  dsimp only
  split_ifs
  · exact h.next h.errno h.upgrade rfl
  · exact together_headersAlmostDone
      (h.set (q := { x.parser with state := .headersAlmostDone }) h.errno h.upgrade)
  · exact together_error (by decide) rfl
  · exact (h.mark .headerField p).next hch h.errno h.upgrade rfl

theorem together_headerField (h : Spanning L s t data ch .headerField x p marks calls 0)
    (hch : data[p]? = some ch) (hs : x.parser.state = .headerField) :
    Together L s t data ch p (x.headerField (L.answers s) data p ch)
      (Exec.headerField (L.answers t) [ch] ⟨x.parser, marks, calls⟩ 0 ch) := by
  rw [headerField, headerField]
  dsimp only
  split
  · refine h.next hch ((alike_nextField _ _ _).errno.trans h.errno)
      ((alike_nextField _ _ _).upgrade.trans h.upgrade) ?_
    rw [(alike_nextField _ _ _).state, hs]
    rfl
  · split
    · refine h.callbackData_next h.errno h.upgrade ?_
      dsimp only
      split_ifs <;> rfl
    · exact together_error (by decide) rfl

theorem together_headerValueStart (h : Clear L s t x marks calls) (hch : data[p]? = some ch)
    (hs : x.parser.state.plain = true) :
    Together L s t data ch p (x.headerValueStart (L.answers s) data p ch)
      (Exec.headerValueStart (L.answers t) [ch] ⟨x.parser, marks, calls⟩ 0 ch) := by
  rw [headerValueStart, headerValueStart, mark_of_noMarks h.here,
    mark_of_noMarks (x := ⟨x.parser, marks, calls⟩) h.there]
  dsimp only
  have hmark : Spanning L s t data ch .headerValue _ p _ calls 0 := h.mark .headerValue p
  split
  · exact h.next h.errno h.upgrade hs
  · split
    · exact hmark.callbackData_next h.errno h.upgrade rfl
    · split
      · exact hmark.callbackData_next h.errno h.upgrade rfl
      · split
        · next q hq =>
          have hq' : q.Alike { x.parser with state := .headerValue, index := 0 } :=
            alike_startValue hq
          exact hmark.next hch (hq'.errno.trans h.errno) (hq'.upgrade.trans h.upgrade)
            (by rw [hq'.state]; rfl)
        · next e he => exact together_error (e := e) (fatal_of_startValue he) rfl

theorem together_headerAlmostDone (h : Clear L s t x marks calls) :
    Together L s t data ch p (x.headerAlmostDone p ch)
      (Exec.headerAlmostDone ⟨x.parser, marks, calls⟩ 0 ch) := by
  rw [headerAlmostDone, headerAlmostDone]
  split
  · exact together_error (by decide) rfl
  · refine h.next ((alike_endValue _).errno.trans h.errno)
      ((alike_endValue _).upgrade.trans h.upgrade) ?_
    rw [(alike_endValue _).state]
    rfl

theorem together_headerValue (h : Spanning L s t data ch .headerValue x p marks calls 0)
    (hch : data[p]? = some ch) (hs : x.parser.state = .headerValue) :
    Together L s t data ch p (x.headerValue (L.answers s) data p ch)
      (Exec.headerValue (L.answers t) [ch] ⟨x.parser, marks, calls⟩ 0 ch) := by
  rw [headerValue, headerValue]
  split
  · exact h.callbackData_next h.errno h.upgrade rfl
  · split
    · refine Spanning.callbackData (h.set ?_ ?_) p 0 fun x' calls' _ h' ↦ ?_
      · exact h.errno
      · exact h.upgrade
      · exact together_headerAlmostDone h'
    · dsimp only
      split
      · next q hq =>
        have hq' := alike_nextValue hq
        exact h.next hch (hq'.errno.trans h.errno) (hq'.upgrade.trans h.upgrade)
          (by rw [hq'.state, hs]; rfl)
      · next e he => exact together_error (e := e) (fatal_of_nextValue he) rfl

theorem together_headerValueLws (h : Clear L s t x marks calls) (hch : data[p]? = some ch) :
    Together L s t data ch p (x.headerValueLws (L.answers s) p ch)
      (Exec.headerValueLws (L.answers t) ⟨x.parser, marks, calls⟩ 0 ch) := by
  rw [headerValueLws, headerValueLws]
  split
  · exact h.next h.errno h.upgrade rfl
  · exact together_headerFieldStart
      (h.set (q := { x.parser with state := .headerFieldStart }) h.errno h.upgrade) hch

theorem together_chunkSizeStart (h : Clear L s t x marks calls) :
    Together L s t data ch p (x.chunkSizeStart p ch)
      (Exec.chunkSizeStart ⟨x.parser, marks, calls⟩ 0 ch) := by
  rw [chunkSizeStart, chunkSizeStart]
  cases unhex ch with
  | none => exact together_error (e := .invalidChunkSize) (by decide) rfl
  | some d => exact h.next h.errno h.upgrade rfl

theorem together_chunkSize (h : Clear L s t x marks calls) (hs : x.parser.state.plain = true) :
    Together L s t data ch p (x.chunkSize p ch)
      (Exec.chunkSize ⟨x.parser, marks, calls⟩ 0 ch) := by
  rw [chunkSize, chunkSize]
  split
  · exact h.next h.errno h.upgrade rfl
  · cases unhex ch with
    | none =>
      dsimp only
      split
      · exact h.next h.errno h.upgrade rfl
      · exact together_error (by decide) rfl
    | some d =>
      dsimp only
      cases hq : x.parser.nextDigit 16 d with
      | ok q =>
        have hq' := alike_nextDigit hq
        exact h.next (hq'.errno.trans h.errno) (hq'.upgrade.trans h.upgrade)
          (by rw [hq'.state]; exact hs)
      | error e => exact together_error (e := e) (fatal_of_nextDigit hq) rfl

theorem together_chunkParameters (h : Clear L s t x marks calls)
    (hs : x.parser.state.plain = true) :
    Together L s t data ch p (x.chunkParameters p ch)
      (Exec.chunkParameters ⟨x.parser, marks, calls⟩ 0 ch) := by
  rw [chunkParameters, chunkParameters]
  split
  · exact h.next h.errno h.upgrade rfl
  · exact h.next h.errno h.upgrade hs

theorem together_chunkSizeAlmostDone (h : Clear L s t x marks calls) :
    Together L s t data ch p (x.chunkSizeAlmostDone p ch)
      (Exec.chunkSizeAlmostDone ⟨x.parser, marks, calls⟩ 0 ch) := by
  rw [chunkSizeAlmostDone, chunkSizeAlmostDone]
  dsimp only
  split_ifs with _ hzero
  · exact together_error (by decide) rfl
  · exact h.next h.errno h.upgrade rfl
  · exact .clear rfl rfl rfl (h.set h.errno h.upgrade) rfl rfl fun _ ↦ Nat.pos_of_ne_zero hzero

theorem together_chunkDataDone (h : Clear L s t x marks calls) :
    Together L s t data ch p (x.chunkDataDone p ch)
      (Exec.chunkDataDone ⟨x.parser, marks, calls⟩ 0 ch) := by
  rw [chunkDataDone, chunkDataDone]
  split
  · exact together_error (by decide) rfl
  · exact h.next h.errno h.upgrade rfl

theorem together_dead (h : Idle x marks calls) (hs : x.parser.state.idle = true) :
    Together L s t data ch p (x.dead p ch) (Exec.dead ⟨x.parser, marks, calls⟩ 0 ch) := by
  rw [dead, dead]
  split
  · exact h.next hs
  · exact together_error (by decide) rfl

end JnetLib.Http.Exec
