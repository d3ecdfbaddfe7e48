import JnetLib.Http.HeaderEnd

/-!
# The header lines in pieces

The states between the first header line and the end of the section, with the place of each: at the
beginning of a line (`AtStart`), in a name (`AtName`), in a value (`AtValue`). `Scan` reads the same
byte in each. The first fragment of a name opens an entry only if a value was the last to be told;
any other is added to the last name, and so is the name in the line behind one without a value.
-/

namespace JnetLib.Http.Piece

variable {P : Piece} {x y : Exec} {p m : ℕ} {ch : Byte} {c : Callback} {er : ℕ}

/-- Where a place without a mark is reached. -/
theorem InHead.plain (h : P.InHead y) (hm : y.Unmarked) (hf : y.parser.state ≠ .headerField)
    (hv : y.parser.state ≠ .headerValue)
    (hb : Between (P.BegunBy y.calls) y.parser (P.now y).view (P.scan p)) :
    (Flow.next y p).Meets P.Within P.Left :=
  h.within (.plain hm hf hv hb)

/-- At the beginning of a line. -/
structure AtStart (P : Piece) (x : Exec) (p : ℕ) (done : List HeaderLine)
    (last : Option HeaderLine) : Prop extends P.InHead x where
  ongoing : Exec.Ongoing P.reply P.data x.calls x p
  unmarked : x.Unmarked
  begun : Begun (P.BegunBy x.calls) x.parser
  view : (P.now x).view = entries (done ++ last.toList)
  scan : P.scan p = .fresh done last

section Start

variable {done : List HeaderLine} {last : Option HeaderLine} {line : HeaderLine}

/-- The state does not matter. -/
theorem AtStart.goto (h : P.AtStart x p done last) (s : State) :
    P.AtStart (x.goto s) p done last :=
  ⟨h.congr rfl rfl, h.ongoing.congr rfl rfl, h.unmarked, ⟨h.begun.begun, h.begun.trailing⟩, h.view,
    h.scan⟩

theorem head_headerFieldStart (h : P.AtStart x p done last) (hch : P.data[p]? = some ch) :
    (x.headerFieldStart P.reply p ch).Meets P.Within P.Left := by
  obtain ⟨hp, -⟩ := List.getElem?_eq_some_iff.1 hch
  have hscan := scan_succ hch
  rw [h.scan] at hscan
  unfold Exec.headerFieldStart
  dsimp only
  split
  · -- perhaps the end of the section
    next hcr =>
    refine (h.congr (y := x.goto .headersAlmostDone) rfl rfl).plain h.unmarked nofun nofun ?_
    rw [hscan, Scan.next_fresh_end (.inl hcr)]
    exact .ending _ rfl ⟨h.begun.begun, h.begun.trailing⟩ h.view
  · next hcr =>
    split
    · have hgoto := h.goto .headersAlmostDone
      refine head_headersAlmostDone hgoto.ongoing hp hgoto.toInHead hgoto.begun ?_
      rw [hgoto.scan]
      exact hgoto.view
    · next hlf =>
      split
      · exact h.error rfl (by decide)
      · next htoken =>
        have hend : ¬(ch = CR ∨ ch = LF) := not_or.2 ⟨hcr, hlf⟩
        have hcont : ch = ' ' ∨ ch = 9 → last = none := by
          rintro (rfl | rfl) <;> exact absurd (by decide) htoken
        have hmarked : (x.mark .headerField p).MarkedAt .headerField p :=
          markedAt_mark h.unmarked (by decide) p
        have hparser := Exec.parser_mark x .headerField p
        have hcalls := Exec.calls_mark x .headerField p
        generalize x.mark .headerField p = z at hmarked hparser hcalls ⊢
        have hin : P.InHead z := h.congr (by rw [hparser]) hcalls
        refine InHead.within (hin.congr rfl rfl)
          (.field p ⟨hmarked.1, hmarked.2⟩ (Nat.le_succ p) rfl ?_ ?_)
        · show (P.after z.calls).Grounded
          rw [hcalls]
          exact RequestOp.grounded_of_view h.view
        · have htrailing : z.parser.flags.trailing = false := by
            rw [hparser]
            exact h.begun.trailing
          show Between (P.BegunBy z.calls) _ ((P.after z.calls).onHeaderField _).view _
          rw [hcalls, hscan, Scan.next_fresh_name hend hcont, RequestOp.view_onHeaderField, h.view,
            span_first hch, ← entries_concat]
          exact .field _ _ rfl ⟨h.begun.begun, htrailing⟩ rfl rfl

/-- In a name. -/
structure AtName (P : Piece) (x : Exec) (p m : ℕ) (done : List HeaderLine) (line : HeaderLine) :
    Prop extends P.InHead x where
  state : x.parser.state = .headerField
  marked : x.MarkedAt .headerField m
  le : m ≤ p
  begun : Begun (P.BegunBy x.calls) x.parser
  valued : line.valued = false
  grounded : (P.now x).Grounded
  view : ((P.now x).onHeaderField ((P.data.drop m).take (p - m))).view = entries (done ++ [line])
  scan : P.scan p = .text done line

/-- The callback for the name, and what comes behind it. -/
theorem AtName.callbackData {I : Exec → ℕ → Prop} {k : Exec → Flow}
    (h : P.AtName x p m done line) (hy : y.Near x)
    (hk : ∀ z, P.InHead z → z.Unmarked → z.parser = y.parser → P.BegunBy z.calls →
      (P.now z).view = entries (done ++ [line]) → (k z).Meets I P.Left) :
    (y.callbackData P.reply P.data .headerField p er k).Meets I P.Left := by
  have hmark : y.marks .headerField = some m := by rw [hy.marks, h.marked.eq_some]
  refine meets_data nofun (hy.errno.trans h.errno) (fun hnone ↦ ?_) fun m' hm' ↦ ?_
  · rw [hmark] at hnone
    cases hnone
  · obtain rfl := Option.some.inj (hmark.symm.trans hm')
    have hin : P.InHead (y.passed (Exec.since P.data .headerField m p) er) := by
      refine (h.congr hy.errno hy.calls).passed rfl ?_
      rw [hy.calls]
      exact ⟨h.begun.begun, h.grounded⟩
    refine hk _ (hin.congr rfl rfl) (unmarked_update h.marked ?_) rfl ?_ ?_
    · exact congrArg (Function.update · _ _) hy.marks
    · show P.BegunBy (y.calls ++ _)
      rw [hy.calls]
      exact h.begun.begun.concat
    · show (P.after (y.calls ++ _)).view = _
      rw [after_concat, hy.calls]
      exact h.view

theorem head_headerField (h : P.AtName x p m done line) (hch : P.data[p]? = some ch) :
    (x.headerField P.reply P.data p ch).Meets P.Within P.Left := by
  have hscan := scan_succ hch
  rw [h.scan] at hscan
  unfold Exec.headerField
  dsimp only
  split
  · -- the name grows
    next htoken =>
    have halike := alike_nextField x.parser ch (token ch)
    refine InHead.within (h.congr halike.errno rfl) (.field m ⟨h.marked.1, h.marked.2⟩
      (Nat.le_succ_of_le h.le) (halike.state.trans h.state) h.grounded ?_)
    have hview := h.view
    rw [RequestOp.view_onHeaderField] at hview
    obtain ⟨hlf, hcr, hcolon⟩ := ne_of_token htoken
    show Between (P.BegunBy x.calls) _ ((P.now x).onHeaderField _).view _
    rw [hscan, Scan.next_text_name hlf hcr hcolon h.valued, span_succ h.le hch,
      RequestOp.view_onHeaderField, ← add_add, hview, entries_grow done h.valued]
    exact .field _ _ (halike.state.trans h.state)
      ⟨h.begun.begun, halike.trailing.trans h.begun.trailing⟩ h.valued rfl
  · split
    · -- the name is over: its callback is made here
      next hend =>
      refine h.callbackData ⟨rfl, rfl, rfl, rfl⟩ fun z hin hm hparser hb hv ↦ ?_
      have htrailing : z.parser.flags.trailing = false := by
        rw [hparser]
        exact h.begun.trailing
      by_cases hcolon : ch = ':'
      · have hs : z.parser.state = .headerValueStart := by
          rw [hparser]
          exact if_pos hcolon
        refine hin.plain hm (by rw [hs]; exact nofun) (by rw [hs]; exact nofun) ?_
        rw [hscan, Scan.next_text_colon hcolon h.valued, hv]
        exact .valueStart _ _ hs ⟨hb, htrailing⟩ rfl (names_entries _ _ _)
      · by_cases hcr : ch = CR
        · have hs : z.parser.state = .headerAlmostDone := by
            rw [hparser]
            exact (if_neg hcolon).trans (if_pos hcr)
          refine hin.plain hm (by rw [hs]; exact nofun) (by rw [hs]; exact nofun) ?_
          rw [hscan, Scan.next_text_skip (by rw [hcr]; decide) (.inl hcr)]
          exact .almostDone _ _ hs ⟨hb, htrailing⟩ hv
        · have hs : z.parser.state = .headerFieldStart := by
            rw [hparser]
            exact (if_neg hcolon).trans (if_neg hcr)
          refine hin.plain hm (by rw [hs]; exact nofun) (by rw [hs]; exact nofun) ?_
          rw [hscan, Scan.next_text_last ((hend.resolve_left hcolon).resolve_left hcr)]
          exact .fieldStart _ (some line) hs ⟨hb, htrailing⟩ hv
    · exact h.error rfl (by decide)

/-- In a value, with a mark at its beginning or before its first byte. -/
structure AtValue (P : Piece) (x : Exec) (p : ℕ) (done : List HeaderLine) (line : HeaderLine) :
    Prop extends P.InHead x where
  begun : Begun (P.BegunBy x.calls) x.parser
  valued : line.valued = true
  names : (P.now x).view.names = (entries (done ++ [line])).names
  scan : P.scan p = .text done line

/-- The callback for the value, and what comes behind it. -/
theorem AtValue.callbackData {I : Exec → ℕ → Prop} {k : Exec → Flow}
    (h : P.AtValue x p done line) (he : y.parser.httpErrno = x.parser.httpErrno)
    (hc : y.calls = x.calls) (hm : y.MarkedAt .headerValue m)
    (hk : ∀ z, P.InHead z → z.Unmarked → z.parser = y.parser → P.BegunBy z.calls →
      (P.now z).view = entries (done ++ [line]) → (k z).Meets I P.Left) :
    (y.callbackData P.reply P.data .headerValue p er k).Meets I P.Left := by
  refine meets_data nofun (he.trans h.errno) (fun hnone ↦ ?_) fun m' _ ↦ ?_
  · rw [hm.eq_some] at hnone
    cases hnone
  · have hin : P.InHead (y.passed (Exec.since P.data .headerValue m' p) er) := by
      refine (h.congr he hc).passed rfl ?_
      rw [hc]
      refine ⟨h.begun.begun, fun hnil ↦ names_ne_nil done line ?_⟩
      rw [← h.names, RequestOp.view, hnil]
      rfl
    refine hk _ (hin.congr rfl rfl) (unmarked_update hm rfl) rfl ?_ ?_
    · show P.BegunBy (y.calls ++ _)
      rw [hc]
      exact h.begun.begun.concat
    · show (P.after (y.calls ++ _)).view = _
      rw [after_concat, hc]
      refine (RequestOp.view_onHeaderValue _ _).trans (Entries.ext h.names ?_)
      rw [isOpen_entries, h.valued]
      rfl

theorem head_headerAlmostDone (h : P.InHead x) (hm : x.Unmarked)
    (hb : Begun (P.BegunBy x.calls) x.parser) (hv : (P.now x).view = entries (done ++ [line]))
    (hscan : P.scan p = .text done line) (hch : P.data[p]? = some ch) :
    (x.headerAlmostDone p ch).Meets P.Within P.Left := by
  unfold Exec.headerAlmostDone
  split
  · exact h.error rfl (by decide)
  · next hlf =>
    rw [not_not] at hlf
    have halike := alike_endValue { x.parser with state := .headerValueLws }
    refine (h.congr (y := { x with parser := _ }) halike.errno rfl).plain hm ?_ ?_ ?_
    · exact fun hs ↦ absurd (halike.state.symm.trans hs) nofun
    · exact fun hs ↦ absurd (halike.state.symm.trans hs) nofun
    · rw [scan_succ hch, hscan, Scan.next_text_last hlf]
      exact .lws _ _ halike.state ⟨hb.begun, halike.trailing.trans hb.trailing⟩ hv

/-- A byte between two lines or inside a line break, with the parser and what has been read given.
-/
theorem InHead.plain_of_eq {q : Parser} {s : Scan} (hin : P.InHead y) (hm : y.Unmarked)
    (hparser : y.parser = q) (hf : q.state ≠ .headerField) (hv : q.state ≠ .headerValue)
    (hscan : P.scan p = s) (hb : Between (P.BegunBy y.calls) q (P.now y).view s) :
    (Flow.next y p).Meets P.Within P.Left := by
  subst hparser
  subst hscan
  exact hin.plain hm hf hv hb

theorem head_headerValueStart (h : P.AtValue x p done line) (hm : x.Unmarked)
    (hs : x.parser.state = .headerValueStart) (hch : P.data[p]? = some ch) :
    (x.headerValueStart P.reply P.data p ch).Meets P.Within P.Left := by
  have hscan := scan_succ hch
  rw [h.scan] at hscan
  unfold Exec.headerValueStart
  dsimp only
  split
  · next hsp =>
    have hlf : ch ≠ LF := by rcases hsp with rfl | rfl <;> decide
    refine h.plain hm (by rw [hs]; exact nofun) (by rw [hs]; exact nofun) ?_
    rw [hscan, Scan.next_text_skip hlf (.inr h.valued)]
    exact .valueStart _ _ hs h.begun h.valued h.names
  · have hmarked : (x.mark .headerValue p).MarkedAt .headerValue p :=
      markedAt_mark hm (by decide) p
    have hparser := Exec.parser_mark x .headerValue p
    have hcalls := Exec.calls_mark x .headerValue p
    generalize x.mark .headerValue p = z at hmarked hparser hcalls ⊢
    have herrno : z.parser.httpErrno = x.parser.httpErrno := by rw [hparser]
    have htrailing : z.parser.flags.trailing = false := by
      rw [hparser]
      exact h.begun.trailing
    split
    · -- an empty value has its callback too
      next hcr =>
      refine h.callbackData herrno hcalls ⟨hmarked.1, hmarked.2⟩ fun y hin hmy hy hb hv ↦ ?_
      refine hin.plain_of_eq hmy hy nofun nofun
        (hscan.trans (Scan.next_text_skip (by rw [hcr]; decide) (.inl hcr))) ?_
      exact .almostDone _ _ rfl ⟨hb, htrailing⟩ hv
    · split
      · next hlf =>
        refine h.callbackData herrno hcalls ⟨hmarked.1, hmarked.2⟩ fun y hin hmy hy hb hv ↦ ?_
        refine hin.plain_of_eq hmy hy nofun nofun
          (hscan.trans (Scan.next_text_last hlf)) ?_
        exact .fieldStart _ (some line) rfl ⟨hb, htrailing⟩ hv
      · next hlf =>
        split
        · next q hq =>
          have halike := alike_startValue hq
          refine InHead.within (h.congr (halike.errno.trans herrno) hcalls)
            (.value p ⟨hmarked.1, hmarked.2⟩ halike.state ?_)
          show Between (P.BegunBy z.calls) q (P.after z.calls).view _
          rw [hcalls, hscan, Scan.next_text_skip hlf (.inr h.valued)]
          exact .value _ _ halike.state ⟨h.begun.begun, halike.trailing.trans htrailing⟩ h.valued
            h.names
        · next e he => exact h.error hcalls (fatal_of_startValue he)

theorem head_headerValue (h : P.AtValue x p done line) (hm : x.MarkedAt .headerValue m)
    (hs : x.parser.state = .headerValue) (hch : P.data[p]? = some ch) :
    (x.headerValue P.reply P.data p ch).Meets P.Within P.Left := by
  have hscan := scan_succ hch
  rw [h.scan] at hscan
  unfold Exec.headerValue
  split
  · next hcr =>
    refine h.callbackData rfl rfl ⟨hm.1, hm.2⟩ fun y hin hmy hy hb hv ↦ ?_
    refine hin.plain_of_eq hmy hy nofun nofun
      (hscan.trans (Scan.next_text_skip (by rw [hcr]; decide) (.inl hcr))) ?_
    exact .almostDone _ _ rfl ⟨hb, h.begun.trailing⟩ hv
  · split
    · refine h.callbackData rfl rfl ⟨hm.1, hm.2⟩ fun y hin hmy hy hb hv ↦ ?_
      refine head_headerAlmostDone hin hmy ⟨hb, ?_⟩ hv h.scan hch
      rw [hy]
      exact h.begun.trailing
    · next hlf =>
      split
      · next q hq =>
        have halike := alike_nextValue hq
        refine InHead.within (h.congr halike.errno rfl)
          (.value m ⟨hm.1, hm.2⟩ (halike.state.trans hs) ?_)
        show Between (P.BegunBy x.calls) q (P.now x).view _
        rw [hscan, Scan.next_text_skip hlf (.inr h.valued)]
        exact .value _ _ (halike.state.trans hs)
          ⟨h.begun.begun, halike.trailing.trans h.begun.trailing⟩ h.valued h.names
      · next e he => exact h.error rfl (fatal_of_nextValue he)

theorem head_headerValueLws (h : P.AtStart x p done (some line)) (hch : P.data[p]? = some ch) :
    (x.headerValueLws P.reply p ch).Meets P.Within P.Left := by
  have hscan := scan_succ hch
  rw [h.scan] at hscan
  unfold Exec.headerValueLws
  split
  · next hsp =>
    refine (h.goto .headerValueStart).plain h.unmarked nofun nofun ?_
    rw [hscan, Scan.next_fresh_continue hsp]
    refine .valueStart _ _ rfl ⟨h.begun.begun, h.begun.trailing⟩ rfl ?_
    exact (congrArg Entries.names h.view).trans (names_entries _ _ _)
  · exact head_headerFieldStart (h.goto .headerFieldStart) hch

end Start

end JnetLib.Http.Piece
