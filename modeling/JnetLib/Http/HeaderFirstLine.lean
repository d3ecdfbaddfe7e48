import JnetLib.Http.HeaderPiece

/-!
# The request line in pieces

The states of the parser between the first byte of a request and its first header line. None of them
takes a line feed but the last byte of the line (`AtLine.next`, `AtLine.last`), and the only
callback they make is that for the URL, which leaves the headers alone (`AtLine.callbackData`).
`line_step` is one byte in any of them.
-/

namespace JnetLib.Http.Piece

variable {P : Piece} {x y : Exec} {p m : ℕ} {ch : Byte} {c : Callback} {er : ℕ}

/-- In the request line behind its first byte. -/
structure AtLine (P : Piece) (x : Exec) (p : ℕ) : Prop extends P.InHead x where
  line : x.parser.state.inLine = true
  unmarked : x.Unmarked
  begun : Begun (P.BegunBy x.calls) x.parser
  view : (P.now x).view = entries []
  scan : P.scan p = .request

theorem AtLine.begun_near (h : P.AtLine x p) (hy : y.Near x) :
    Begun (P.BegunBy y.calls) y.parser :=
  ⟨hy.calls.symm ▸ h.begun.begun, hy.trailing.trans h.begun.trailing⟩

theorem AtLine.view_near (h : P.AtLine x p) (hy : y.Near x) : (P.now y).view = entries [] := by
  rw [now, hy.calls]
  exact h.view

/-- A byte that does not end the line. -/
theorem AtLine.next (h : P.AtLine x p) (hch : P.data[p]? = some ch) (hne : ch ≠ LF) (hy : y.Near x)
    (hs : y.parser.state.inLine = true) :
    (Flow.next y (p + 1)).Meets P.Within P.Left := by
  refine (h.congr hy.errno hy.calls).within (.plain ?_ ?_ ?_ ?_)
  · intro which hwhich
    rw [hy.marks, h.unmarked which hwhich]
  · intro heq
    rw [heq] at hs
    cases hs
  · intro heq
    rw [heq] at hs
    cases hs
  · rw [scan_succ hch, h.scan, Scan.next, if_neg hne]
    exact .line hs (h.begun_near hy) (h.view_near hy)

/-- The byte that ends it. -/
theorem AtLine.last (h : P.AtLine x p) (hch : P.data[p]? = some ch) (hlf : ch = LF) (hy : y.Near x)
    (hs : y.parser.state = .headerFieldStart) :
    (Flow.next y (p + 1)).Meets P.Within P.Left := by
  refine (h.congr hy.errno hy.calls).within (.plain ?_ ?_ ?_ ?_)
  · intro which hwhich
    rw [hy.marks, h.unmarked which hwhich]
  · rw [hs]
    exact nofun
  · rw [hs]
    exact nofun
  · rw [scan_succ hch, h.scan, Scan.next, if_pos hlf]
    exact .fieldStart [] none hs (h.begun_near hy) (h.view_near hy)

/-- The mark of the URL does not matter. -/
theorem AtLine.mark (h : P.AtLine x p) : P.AtLine (x.mark .url p) p := by
  have hparser := Exec.parser_mark x .url p
  have hcalls := Exec.calls_mark x .url p
  refine ⟨h.congr (by rw [hparser]) hcalls, by rw [hparser]; exact h.line, fun which hwhich ↦ ?_,
    by rw [hparser, hcalls]; exact h.begun, by rw [now, hcalls]; exact h.view, h.scan⟩
  exact (Exec.marks_mark_of_ne x hwhich p).trans (h.unmarked which hwhich)

/-- The callback of the URL leaves the parser inside the request line. -/
theorem AtLine.passed (h : P.AtLine x p) (off : ℕ) (bytes : List Byte) (er : ℕ) :
    P.AtLine { x.passed (.data .url off bytes) er with
      marks := Function.update x.marks .url none } p := by
  have hin : P.InHead (x.passed (.data .url off bytes) er) := h.toInHead.passed rfl trivial
  refine ⟨hin.congr rfl rfl, h.line, fun which hwhich ↦ ?_,
    ⟨h.begun.begun.concat, h.begun.trailing⟩, ?_, h.scan⟩
  · exact (Function.update_of_ne hwhich _ _).trans (h.unmarked which hwhich)
  · show (P.after (x.calls ++ [(.data .url off bytes, er)])).view = _
    rw [after_concat]
    exact h.view

/-- The callback for the URL, and what comes behind it. -/
theorem AtLine.callbackData {k : Exec → Flow} (h : P.AtLine x p) (hy : y.Near x)
    (hk : ∀ x' y', P.AtLine x' p → y'.Near x' → y'.parser.state = y.parser.state →
      (k y').Meets P.Within P.Left) :
    (y.callbackData P.reply P.data .url p er k).Meets P.Within P.Left := by
  refine meets_data nofun (hy.errno.trans h.errno) (fun _ ↦ hk x y h hy rfl) fun m _ ↦ ?_
  refine hk _ _ (h.passed m ((P.data.drop m).take (p - m)) er) ⟨hy.errno, hy.trailing, ?_, ?_⟩ rfl
  · exact congrArg (· ++ _) hy.calls
  · exact congrArg (Function.update · _ _) hy.marks

section Line

variable (h : P.AtLine x p) (hch : P.data[p]? = some ch)
include h hch

theorem line_reqMethod : (x.reqMethod p ch).Meets P.Within P.Left := by
  rw [Exec.reqMethod]
  dsimp only
  split
  · exact h.error rfl (by decide)
  · next hzero =>
    split
    · next hsp => exact h.next hch (by rw [hsp.1]; decide) ⟨rfl, rfl, rfl, rfl⟩ rfl
    · split
      · next heq =>
        refine h.next hch ?_ ⟨rfl, rfl, rfl, rfl⟩ h.line
        rw [heq]
        exact charAt_ne_LF _ _
      · split
        · next m hm => exact h.next hch (ne_LF_of_switchMethod hm) ⟨rfl, rfl, rfl, rfl⟩ h.line
        · next e he => exact h.error rfl (fatal_of_switchMethod he)

theorem line_urlChar : (x.urlChar p ch).Meets P.Within P.Left := by
  rw [Exec.urlChar]
  split
  · exact h.error rfl (by decide)
  · next hne =>
    refine h.next hch ?_ ⟨rfl, rfl, rfl, rfl⟩ ((parseUrlChar_inLine h.line _ _).resolve_right hne)
    rintro rfl
    exact hne (parseUrlChar_LF _ _)

theorem line_reqSpacesBeforeUrl : (x.reqSpacesBeforeUrl p ch).Meets P.Within P.Left := by
  rw [Exec.reqSpacesBeforeUrl]
  split
  · next hsp => exact h.next hch (by rw [hsp]; decide) ⟨rfl, rfl, rfl, rfl⟩ h.line
  · exact line_urlChar h.mark hch

theorem line_reqSchema : (x.reqSchema p ch).Meets P.Within P.Left := by
  rw [Exec.reqSchema]
  split
  · exact h.error rfl (by decide)
  · exact line_urlChar h hch

theorem line_reqUrl : (x.reqUrl P.reply P.data p ch).Meets P.Within P.Left := by
  rw [Exec.reqUrl]
  split
  · next hsp =>
    refine h.callbackData ⟨rfl, rfl, rfl, rfl⟩ fun x' y' hx' hy' hs ↦ ?_
    refine hx'.next hch (by rw [hsp]; decide) hy' ?_
    rw [hs]
    rfl
  · split
    · next hend =>
      refine h.callbackData ⟨rfl, rfl, rfl, rfl⟩ fun x' y' hx' hy' hs ↦ ?_
      by_cases hcr : ch = CR
      · refine hx'.next hch (by rw [hcr]; decide) hy' ?_
        rw [hs]
        dsimp only
        rw [if_pos hcr]
        rfl
      · refine hx'.last hch (hend.resolve_left hcr) hy' ?_
        rw [hs]
        exact if_neg hcr
    · exact line_urlChar h hch

theorem line_reqHttpStart : (x.reqHttpStart p ch).Meets P.Within P.Left := by
  rw [Exec.reqHttpStart]
  split
  · next hh => exact h.next hch (by rw [hh]; decide) ⟨rfl, rfl, rfl, rfl⟩ rfl
  · split
    · next hsp => exact h.next hch (by rw [hsp]; decide) ⟨rfl, rfl, rfl, rfl⟩ h.line
    · exact h.error rfl (by decide)

theorem line_strict {c : Byte} {s : State} (hc : c ≠ LF) (hs : s.inLine = true) :
    (x.strict p ch c s).Meets P.Within P.Left := by
  rw [Exec.strict]
  split
  · exact h.error rfl (by decide)
  · next heq =>
    rw [not_not] at heq
    exact h.next hch (by rwa [heq]) ⟨rfl, rfl, rfl, rfl⟩ hs

theorem line_reqFirstHttpMajor : (x.reqFirstHttpMajor p ch).Meets P.Within P.Left := by
  rw [Exec.reqFirstHttpMajor]
  split
  · exact h.error rfl (by decide)
  · next hnum =>
    refine h.next hch ?_ ⟨rfl, rfl, rfl, rfl⟩ rfl
    rintro rfl
    exact hnum (.inl (by decide))

theorem line_reqHttpMajor : (x.reqHttpMajor p ch).Meets P.Within P.Left := by
  rw [Exec.reqHttpMajor]
  dsimp only
  split
  · next hdot => exact h.next hch (by rw [hdot]; decide) ⟨rfl, rfl, rfl, rfl⟩ rfl
  · split
    · exact h.error rfl (by decide)
    · next hnum =>
      split
      · exact h.error rfl (by decide)
      · exact h.next hch (ne_LF_of_isNum hnum) ⟨rfl, rfl, rfl, rfl⟩ h.line

theorem line_reqFirstHttpMinor : (x.reqFirstHttpMinor p ch).Meets P.Within P.Left := by
  rw [Exec.reqFirstHttpMinor]
  split
  · exact h.error rfl (by decide)
  · next hnum => exact h.next hch (ne_LF_of_isNum hnum) ⟨rfl, rfl, rfl, rfl⟩ rfl

theorem line_reqHttpMinor : (x.reqHttpMinor p ch).Meets P.Within P.Left := by
  rw [Exec.reqHttpMinor]
  dsimp only
  split
  · next hcr => exact h.next hch (by rw [hcr]; decide) ⟨rfl, rfl, rfl, rfl⟩ rfl
  · split
    · next hlf => exact h.last hch hlf ⟨rfl, rfl, rfl, rfl⟩ rfl
    · split
      · exact h.error rfl (by decide)
      · next hnum =>
        split
        · exact h.error rfl (by decide)
        · exact h.next hch (ne_LF_of_isNum hnum) ⟨rfl, rfl, rfl, rfl⟩ h.line

theorem line_reqLineAlmostDone : (x.reqLineAlmostDone p ch).Meets P.Within P.Left := by
  rw [Exec.reqLineAlmostDone]
  split
  · exact h.error rfl (by decide)
  · next hlf => exact h.last hch (not_not.1 hlf) ⟨rfl, rfl, rfl, rfl⟩ rfl

/-- **The request line.** -/
theorem line_step : (x.step P.reply P.data p ch).Meets P.Within P.Left := by
  have hline := h.line
  rw [Exec.step]
  cases hs : x.parser.state with
  | reqMethod => exact line_reqMethod h hch
  | reqSpacesBeforeUrl => exact line_reqSpacesBeforeUrl h hch
  | reqSchema | reqSchemaSlash | reqSchemaSlashSlash => exact line_reqSchema h hch
  | reqSchemaSlashSlashEnd | reqHost | reqPortStart | reqPort | reqPath | reqQueryStringStart
  | reqQueryString | reqFragmentStart | reqFragment => exact line_reqUrl h hch
  | reqHttpStart => exact line_reqHttpStart h hch
  | reqHttpH | reqHttpHT | reqHttpHTT | reqHttpHTTP => exact line_strict h hch (by decide) rfl
  | reqFirstHttpMajor => exact line_reqFirstHttpMajor h hch
  | reqHttpMajor => exact line_reqHttpMajor h hch
  | reqFirstHttpMinor => exact line_reqFirstHttpMinor h hch
  | reqHttpMinor => exact line_reqHttpMinor h hch
  | reqLineAlmostDone => exact line_reqLineAlmostDone h hch
  | _ =>
    -- not a state of the request line
    rw [hs] at hline
    exact absurd hline (by decide)

end Line

end JnetLib.Http.Piece
