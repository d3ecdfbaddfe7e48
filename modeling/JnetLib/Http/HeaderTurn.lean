import JnetLib.Http.Turn

/-!
# A header section, with the journal

The states of a header section and of a trailer. Each of them keeps `Section.Reads`, or the line of
the trailer. At the last line feed `on_headers_complete` accepts the URL, and the parser goes on
with what it holds of the body, which for an unambiguous section is what the bytes say
(`Unambiguous.delimiter_eq`); or it rejects the URL, and the parser takes the message to end there
(`left_refused`).

What is to be shown from the last line feed on depends on the section, so `WithinIf` and `LeftIf`
ask for it only if all sections are unambiguous.
-/

namespace JnetLib.Http

namespace Turn

variable {T : Turn} {x y z : Exec} {p n : ℕ} {ch : Byte} {c : Callback} {er : ℕ} {u : Bool}

/-! ### The end of a header section -/

theorem Ready.to_next (h : T.Ready x p) (he : y.parser.httpErrno = x.parser.httpErrno)
    (hc : y.calls = x.calls) (hm : y.marks .body = x.marks .body)
    (hu : y.parser.upgrade = x.parser.upgrade)
    (hplace : Place (T.stream n) (T.noted x.calls) y.parser) :
    (Flow.next y n).Meets T.Within T.Left :=
  (h.to he hc hm hu hplace).next

/-- The reader behind the last line feed of a header section. -/
theorem stream_headersDone (hch : T.data[p]? = some ch) (hlf : ch = LF) {sec : Section}
    {fs : List Field} (hstand : (T.stream p).stand = .head sec)
    (hend : (sec.next LF).fields = some fs) :
    T.stream (p + 1) = ⟨.ofFrame (.ofDelimiter (delimiter fs)), (T.stream p).heads + 1⟩ := by
  rw [stream_succ hch, hlf, Stream.next, hstand]
  dsimp only
  rw [hend]

/-- The last line feed of a header section. -/
theorem turn_headersDone (h : T.Ready x p) (hch : T.data[p]? = some ch)
    (hs : x.parser.state = .headersDone) :
    (x.headersDone T.reply p ch).Meets T.Within T.Left := by
  obtain ⟨sec, fs, hstand, hend, hdelimiter, hskip, hopen, hcount⟩ :
      ∃ sec fs, (T.stream p).stand = .head sec ∧ (sec.next LF).fields = some fs ∧
        x.parser.delimiter = delimiter fs ∧ x.parser.flags.skipbody = false ∧
          (T.noted x.calls).isOpen = true ∧
            (T.noted x.calls).requests = (T.stream p).heads + 1 := by
    cases h.good.place with
    | done sec fs _ hstand hend hdelimiter hskip hopen hcount =>
      exact ⟨sec, fs, hstand, hend, hdelimiter, hskip, hopen, hcount⟩
    | between h => rw [hs] at h; rcases h with h | h <;> cases h
    | head sec _ hreads =>
      have h := hreads.state
      rw [hs] at h
      rcases h with h | h
      · cases h
      · exact absurd rfl h
    | body f _ hframe =>
      unfold Parser.frame at hframe
      rw [hs] at hframe
      simp [State.line] at hframe
  unfold Exec.headersDone
  dsimp only
  split
  · exact h.error rfl (by decide)
  · next hlf =>
    have hstream := stream_headersDone hch (not_not.1 hlf) hstand hend
    rw [if_neg (by rw [h.good.upgrade]; exact Bool.false_ne_true),
      if_neg (by rw [hskip]; exact Bool.false_ne_true)]
    rw [← hdelimiter, Parser.delimiter] at hstream
    split
    · next hchunked =>
      rw [if_pos hchunked] at hstream
      exact h.to_next rfl rfl rfl rfl
        (.body .sizeStart (by rw [hstream]; rfl) rfl (by rintro ⟨⟩) hopen
        (by rw [hstream]; exact hcount))
    · next hchunked =>
      rw [if_neg hchunked] at hstream
      split
      · -- `Content-Length: 0`
        next hzero =>
        rw [hzero] at hstream
        exact h.complete rfl rfl rfl hopen (by rw [hstream]; rfl) (by rw [hstream]; exact hcount)
      · next hne =>
        split
        · -- a body of the length given
          next hmax =>
          rw [if_neg hmax] at hstream
          have hover : Frame.ofLength x.parser.contentLength ≠ .over := by
            rw [Frame.ofLength, if_neg hne]
            rintro ⟨⟩
          refine h.to_next rfl rfl rfl rfl (.body (.ofLength x.parser.contentLength) ?_ rfl
            (fun _ ↦ hne) hopen (by rw [hstream]; exact hcount))
          rw [hstream]
          exact if_neg hover
        · -- neither chunks nor a length: a request has no body
          next hmax =>
          rw [if_pos (not_not.1 hmax)] at hstream
          exact h.complete rfl rfl rfl hopen (by rw [hstream]; rfl) (by rw [hstream]; exact hcount)

/-- The last byte of a body. -/
theorem Ready.frame_complete {I : Exec → ℕ → Prop} {k : Exec → Flow} {f : Frame}
    (h : T.Ready x p) (hch : T.data[p]? = some ch) (hframe : x.parser.frame = some f)
    (hf : f.next ch = .over) (he : y.parser.httpErrno = x.parser.httpErrno)
    (hc : y.calls = x.calls) (hu : y.parser.upgrade = x.parser.upgrade) :
    (y.complete T.reply p k).Meets I T.Left := by
  obtain ⟨hstand, -, hopen, hcount⟩ := h.good.place.of_frame hframe
  have hstream : T.stream (p + 1) = { T.stream p with stand := .lead } := by
    rw [stream_succ hch, Stream.next_body hstand, hf]
    rfl
  exact h.complete he hc hu hopen (by rw [hstream]) (by rw [hstream]; exact hcount)

/-- A request that asks for another protocol ends the call behind `on_headers_complete`. -/
theorem left_upgraded {I : Exec → ℕ → Prop} (hok : x.parser.httpErrno = .ok)
    (hu : x.parser.upgrade = true) (hrefuses : T.refuses x.calls = false)
    (hsound : (T.noted x.calls).sound = true) : (x.headersDone T.reply p ch).Meets I T.Left := by
  unfold Exec.headersDone
  by_cases hlf : ch ≠ LF
  · rw [if_pos hlf]
    exact .failed hrefuses hsound (.inl ⟨nofun, nofun⟩)
  · rw [if_neg hlf]
    dsimp only
    rw [if_pos hu]
    refine meets_complete hok (.failed ?_ ?_ (.inr hu))
    · exact (refuses_complete _ _).trans hrefuses
    · show (T.noted (x.calls ++ [(.messageComplete, p + 1)])).sound = true
      rw [noted_complete]
      exact hsound

/-- A URL that is rejected ends the call behind `on_headers_complete`: the message is taken to end
here. -/
theorem left_refused {I : Exec → ℕ → Prop} (hok : x.parser.httpErrno = .ok)
    (hu : x.parser.upgrade = false) (hskip : x.parser.flags.skipbody = true) (hlf : ch = LF)
    (hrefuses : T.refuses x.calls = true) (hopen : (T.noted x.calls).isOpen = false) :
    (x.headersDone T.reply p ch).Meets I T.Left := by
  unfold Exec.headersDone
  dsimp only
  rw [if_neg (not_not.2 hlf), if_neg (by rw [hu]; exact nofun), if_pos hskip]
  refine meets_complete hok (.refused ?_ (errno_complete _ _) hu ?_ (type_complete _ _))
  · exact (refuses_complete _ _).trans hrefuses
  · show (T.noted (x.calls ++ [(.messageComplete, p + 1)])).isOpen = false
    rw [noted_complete]
    exact hopen

/-- What is known behind `on_headers_complete`, of whatever it answers. -/
structure Answered (T : Turn) (x z : Exec) (p : ℕ) (c : Callback) (u : Bool) : Prop where
  callback : c = .headersComplete x.parser.method x.parser.httpMajor x.parser.httpMinor u
  closed : (T.noted x.calls).isOpen = false
  skipbody : x.parser.flags.skipbody = false
  calls : z.calls = x.calls ++ [(c, p)]
  state : z.parser.state = .headersDone
  flags : z.parser.flags = x.parser.flags
  length : z.parser.contentLength = x.parser.contentLength
  upgrade : z.parser.upgrade = u
  mark : z.marks .body = x.marks .body
  errno : z.parser.httpErrno =
    if (T.reply (x.history c)).pause then .paused else x.parser.httpErrno

/-- The `req` of an accepted URL. -/
theorem Answered.accepted {sec : Section} {fs : List Field} (hz : T.Answered x z p c u)
    (h : T.Ready x p) (hch : T.data[p]? = some ch) (hstand : (T.stream p).stand = .head sec)
    (hend : (sec.next LF).fields = some fs)
    (hdelimiter : u = false → x.parser.delimiter = delimiter fs)
    (hcount : (T.noted x.calls).requests = (T.stream p).heads)
    (hacc : (T.after x.calls).urlCode x.parser.method = 0) :
    (T.reply (x.history c)).ret = 0 ∧
      (if z.parser.httpErrno = .ok then z.headersDone T.reply p ch else .ret z p).Meets
        T.Within T.Left := by
  obtain ⟨op', r, hcont, hr, hhandle⟩ := RequestOp.handle_of_accepted hacc T.buffer
    x.parser.httpMajor x.parser.httpMinor u
  rw [← hz.callback] at hhandle
  have hreply : T.reply (x.history c) = (op'.due r).reply := by rw [reply_history, hhandle]
  have herrno := hz.errno
  rw [hreply, RequestOp.pause_due] at herrno
  refine ⟨hreply ▸ RequestOp.ret_due _ _, ?_⟩
  have hrefuses : T.refuses z.calls = false := by
    rw [hz.calls, refuses_concat, h.refuses, hz.callback, RequestOp.refuses, hacc]
    exact Bool.and_false _
  set j : Journal := { T.noted x.calls with rejected := false } with hj
  have hnote : (T.noted x.calls).note T.before T.data (T.after x.calls) c p = j := by
    rw [hz.callback, Journal.note, hacc]
    rfl
  have hnoted : T.noted z.calls = if op'.continuous = true then j.deliver .req else j := by
    rw [hz.calls, noted_concat, Journal.see, hhandle, RequestOp.passed_due, hnote]
    split <;> split <;> simp_all
  have hsound : (j.deliver .req).sound = true := by
    show ((T.noted x.calls).sound && !(T.noted x.calls).isOpen) = true
    rw [h.good.sound, hz.closed]
    rfl
  have hgood : u = false → Good (T.stream p) (j.deliver .req) z.parser := fun hu ↦ by
    refine ⟨hsound, rfl, hz.upgrade.trans hu, .done sec fs hz.state hstand hend ?_ ?_ rfl ?_⟩
    · rw [← hdelimiter hu, Parser.delimiter, Parser.delimiter, hz.flags, hz.length]
    · rw [hz.flags, hz.skipbody]
    · exact congrArg (· + 1) hcount
  have hsound' : (T.noted z.calls).sound = true := by
    rw [hnoted]
    split
    · exact hsound
    · exact h.good.sound
  -- to `execute` an upgrade is an error, whatever follows
  cases u with
  | true =>
    split
    · next hok => exact left_upgraded hok hz.upgrade hrefuses hsound'
    · exact .failed hrefuses hsound' (.inr hz.upgrade)
  | false =>
    -- a continuous request goes on with its body, any other is delivered by a pause
    cases hmode : op'.continuous with
    | true =>
      rw [hmode, if_neg (by decide), h.errno] at herrno
      rw [hmode, if_pos rfl] at hnoted
      rw [if_pos herrno]
      refine turn_headersDone ⟨⟨hrefuses, ?_, fun _ ↦ ?_⟩, herrno⟩ hch hz.state
      · rw [hnoted]
        exact hgood rfl
      · rw [hnoted]
        rfl
    | false =>
      rw [hmode, if_pos (by decide)] at herrno
      rw [hmode, if_neg (by decide)] at hnoted
      rw [if_neg (by rw [herrno]; rintro ⟨⟩)]
      refine .paused hrefuses herrno ?_
      have htype : (T.after z.calls).result.type = .req := by
        rw [hz.calls, after_concat, hhandle, RequestOp.due_result, hr]
      rw [hnoted, htype]
      exact hgood rfl

/-- The parser `z` with `F_SKIPBODY`. -/
def skipping (z : Exec) : Exec :=
  { z with parser := { z.parser with flags := { z.parser.flags with skipbody := true } } }

/-- A rejected URL. -/
theorem Answered.rejected (hz : T.Answered x z p c u) (h : T.Ready x p) (hlf : ch = LF)
    (hrej : (T.after x.calls).urlCode x.parser.method ≠ 0) :
    (T.reply (x.history c)).ret = 1 ∧
      (if (skipping z).parser.httpErrno = .ok then (skipping z).headersDone T.reply p ch
        else .ret (skipping z) p).Meets T.Within T.Left := by
  obtain ⟨hreply, hpassed⟩ := RequestOp.handle_of_rejected hrej T.buffer x.parser.httpMajor
    x.parser.httpMinor u
  rw [← hz.callback] at hreply hpassed
  rw [← reply_history] at hreply
  have hok : (skipping z).parser.httpErrno = .ok := by
    have herrno := hz.errno
    rw [hreply, if_neg (by decide), h.errno] at herrno
    exact herrno
  refine ⟨by rw [hreply], ?_⟩
  rw [if_pos hok]
  have hrefuses : T.refuses z.calls = !u := by
    rw [hz.calls, refuses_concat, h.refuses, hz.callback, RequestOp.refuses,
      bne_iff_ne.2 hrej, Bool.and_true, Bool.false_or]
  have hnoted : T.noted z.calls =
      (T.noted x.calls).note T.before T.data (T.after x.calls) c p := by
    rw [hz.calls, noted_concat, Journal.see, hpassed]
  rw [hz.callback] at hnoted
  cases u with
  | true =>
    refine left_upgraded hok hz.upgrade hrefuses ?_
    show (T.noted z.calls).sound = true
    rw [hnoted]
    exact h.good.sound
  | false =>
    refine left_refused hok hz.upgrade rfl hlf hrefuses ?_
    show (T.noted z.calls).isOpen = false
    rw [hnoted]
    exact hz.closed

/-- Where the loop goes on, if all is legible so far. -/
def WithinIf (T : Turn) (x : Exec) (p : ℕ) : Prop := T.Legible x.calls → T.Within x p

/-- Where the function returns, if all is legible so far. -/
def LeftIf (T : Turn) (x : Exec) (n : ℕ) : Prop := T.Legible x.calls → T.Left x n

theorem Legible.mono {l m : List (Callback × ℕ)} (h : T.Legible m) (hl : l <+: m) : T.Legible l :=
  fun a ha ↦ h a (hl.subset ha)

theorem meets_if {f : Flow} (h : f.Meets T.Within T.Left) : f.Meets T.WithinIf T.LeftIf := by
  refine h.mono (fun y p hy ↦ ?_) fun y n hy ↦ ?_
  · exact fun _ ↦ hy
  · exact fun _ ↦ hy

/-- Nothing is claimed behind a header section that can be mistaken. -/
theorem meets_illegible (ho : Exec.Ongoing T.reply T.data x.calls x p) (hp : p < T.data.length)
    (hc : c ≠ .messageComplete) (hy : y.calls = x.calls ++ [(c, p)])
    (hl : ¬T.Legible (x.calls ++ [(c, p)])) :
    (if y.parser.httpErrno = .ok then y.headersDone T.reply p ch else .ret y p).Meets
      T.WithinIf T.LeftIf := by
  rw [← hy] at hl
  split
  · next hok =>
    have hnot := (ho.passed hc p).notMem (RequestOp.answers_pausesAtEnd _ _)
    have hdone :=
      @Exec.oneByte_headersDone T.reply T.data y.calls _ _ ch
        ⟨hok, ho.le, fun _ ↦ by rw [hy]; exact hnot, List.prefix_refl _⟩ hp
    exact hdone.mono (fun _ _ h hleg ↦ absurd (hleg.mono h.1.grows) hl)
      fun _ _ h hleg ↦ absurd (hleg.mono h.grows) hl
  · exact fun hleg ↦ absurd hleg hl

/-- The last line feed of a header section, or of a trailer. -/
theorem turn_headersAlmostDone (ho : Exec.Ongoing T.reply T.data x.calls x p) (h : T.Ready x p)
    (hch : T.data[p]? = some ch)
    (hs : x.parser.state = .headerFieldStart ∨ x.parser.state = .headersAlmostDone) :
    ((x.goto .headersAlmostDone).headersAlmostDone T.reply p ch).Meets T.WithinIf T.LeftIf := by
  obtain ⟨f, hline, hf⟩ : ∃ f, x.parser.state.line = some f ∧ f.next LF = .over := by
    rcases hs with hs | hs <;> rw [hs]
    · exact ⟨.lineStart, rfl, rfl⟩
    · exact ⟨.ending, rfl, rfl⟩
  rw [Exec.headersAlmostDone]
  by_cases hlf : ch ≠ LF
  · rw [if_pos hlf]
    exact meets_if (h.error rfl (by decide))
  · rw [if_neg hlf]
    rw [not_not] at hlf
    by_cases ht : (x.goto .headersAlmostDone).parser.flags.trailing = true
    · rw [if_pos ht]
      have hframe : x.parser.frame = some f := (Parser.frame_of_line hline).trans (if_pos ht)
      exact meets_if (h.frame_complete hch hframe (hlf ▸ hf) rfl rfl rfl)
    · rw [if_neg ht]
      obtain ⟨hp, -⟩ := List.getElem?_eq_some_iff.1 hch
      obtain ⟨sec, hstand, hreads, hskip, hopen, hcount⟩ :=
        h.good.place.of_head hline (Bool.eq_false_iff.2 ht)
      obtain ⟨fs, hend, hagrees⟩ := hreads.last hs
      have hfields : (T.stream p).fields = fs := by
        rw [Stream.fields, hstand]
        dsimp only
        rw [hend]
        rfl
      dsimp only
      generalize hu : (x.parser.flags.upgrade || x.parser.method == .connect) = u
      generalize hcb : Callback.headersComplete _ _ _ _ = c
      generalize hz : Exec.call T.reply _ c p = z
      have hans : T.Answered x z p c u := by
        refine ⟨?_, hopen, hskip, hz ▸ rfl, hz ▸ rfl, hz ▸ rfl, hz ▸ rfl, ?_, hz ▸ rfl,
          hz ▸ Exec.errno_call _ _ _⟩
        · rw [← hcb, ← hu]
          rfl
        · rw [← hz, ← hu]
          rfl
      have hmap : z.calls.map Prod.fst = x.history c := by
        rw [hans.calls, List.map_append]
        rfl
      rw [hmap]
      by_cases hcode : (T.after x.calls).urlCode x.parser.method = 0
      · by_cases hdelimiter : u = false → x.parser.delimiter = delimiter fs
        · obtain ⟨hret, hmeets⟩ := hans.accepted h hch hstand hend hdelimiter hcount hcode
          have hzero : ¬(0 : ℕ) = 1 := by decide
          rw [hret, if_neg (by decide)]
          simp only [if_neg hzero]
          exact meets_if hmeets
        · -- the parser has taken the section for something else
          obtain ⟨hkeeps, hne⟩ := Classical.not_imp.1 hdelimiter
          have hl : ¬T.Legible (x.calls ++ [(c, p)]) := fun hleg ↦ by
            have hun := hleg (c, p) (List.mem_append_right _ List.mem_cons_self)
            rw [hans.callback, hkeeps] at hun
            exact hne ((hfields ▸ hun rfl : Unambiguous fs).delimiter_eq hagrees)
          have hnot : c ≠ .messageComplete := by
            rw [← hcb]
            rintro ⟨⟩
          have hret : ¬1 < (T.reply (x.history c)).ret := by
            obtain ⟨op', r, -, -, hhandle⟩ := RequestOp.handle_of_accepted hcode T.buffer
              x.parser.httpMajor x.parser.httpMinor u
            rw [← hans.callback] at hhandle
            rw [reply_history, hhandle, RequestOp.ret_due]
            decide
          rw [if_neg hret]
          refine meets_illegible ho hp hnot ?_ hl
          split <;> exact hans.calls
      · obtain ⟨hret, hmeets⟩ := hans.rejected h hlf hcode
        rw [hret, if_neg (by decide)]
        simp only [if_true]
        exact meets_if hmeets

/-! ### The lines of a header section, or of a trailer -/

/-- A byte of a line leaves the parser ready. -/
theorem Ready.byte {f g : Frame} (h : T.Ready x p) (hch : T.data[p]? = some ch)
    (hs : x.parser.state.line = some f) (hy : y.Beside x) (hs' : y.parser.state.line = some g)
    (hf : f.next ch = g)
    (hreads : ∀ sec : Section, sec.Reads x.parser → (sec.next ch).Reads y.parser) :
    T.Ready y (p + 1) := by
  refine h.to hy.errno hy.calls hy.mark hy.upgrade ?_
  rw [stream_succ hch]
  exact h.good.place.of_line hs hy.trailing hy.skipbody hs' hf hreads

theorem Ready.byte_next {f g : Frame} (h : T.Ready x p) (hch : T.data[p]? = some ch)
    (hs : x.parser.state.line = some f) (hy : y.Beside x) (hs' : y.parser.state.line = some g)
    (hf : f.next ch = g)
    (hreads : ∀ sec : Section, sec.Reads x.parser → (sec.next ch).Reads y.parser) :
    (Flow.next y (p + 1)).Meets T.Within T.Left :=
  (h.byte hch hs hy hs' hf hreads).next

/-- A byte of a line with which a callback is made leaves the parser ready. -/
theorem Ready.byte_callback {f g : Frame} {which : DataCallback} {last : ℕ} (h : T.Ready x p)
    (hch : T.data[p]? = some ch) (hwhich : which ≠ .body) (hs : x.parser.state.line = some f)
    (hy : y.Beside x) (hs' : y.parser.state.line = some g) (hf : f.next ch = g)
    (hreads : ∀ sec : Section, sec.Reads x.parser → (sec.next ch).Reads y.parser) :
    (y.callbackData T.reply T.data which last er fun x ↦ .next x (p + 1)).Meets T.Within T.Left :=
  (h.byte hch hs hy hs' hf hreads).callbackHeader hwhich fun _ hz _ ↦ hz.next

/-- Another state of the parser that stands for the same part of the stream. -/
theorem Ready.relabel {f : Frame} {s : State} (h : T.Ready x p)
    (hs : x.parser.state.line = some f) (hs' : s.line = some f)
    (hreads : ∀ sec : Section, sec.Reads x.parser → sec.Reads { x.parser with state := s }) :
    T.Ready (x.goto s) p := by
  refine h.to rfl rfl rfl rfl ?_
  cases h.good.place with
  | between h => rcases h with h | h <;> rw [h] at hs <;> cases hs
  | head sec hstand hsec ht hskip hopen hcount =>
    exact .head sec hstand (hreads sec hsec) ht hskip hopen hcount
  | done _ _ h => rw [h] at hs; cases hs
  | body g hstand hframe hpos hopen hcount =>
    rw [Parser.frame_of_line hs] at hframe
    refine .body g hstand ((Parser.frame_of_line hs').trans hframe) (fun hstate ↦ ?_) hopen hcount
    have hstate : s = .bodyIdentity := hstate
    rw [hstate] at hs'
    cases hs'

section Lines

variable (h : T.Ready x p) (hch : T.data[p]? = some ch)
include h hch

theorem turn_headerField (hs : x.parser.state = .headerField) :
    (x.headerField T.reply T.data p ch).Meets T.Within T.Left := by
  have hline : x.parser.state.line = some .inLine := by rw [hs]; rfl
  unfold Exec.headerField
  dsimp only
  split
  · next htoken =>
    have halike := alike_nextField x.parser ch (token ch)
    refine h.byte_next hch hline
      ⟨halike.errno, rfl, rfl, halike.upgrade, halike.trailing, halike.skipbody⟩ (g := .inLine) ?_
      ?_ fun sec hsec ↦ hsec.nextField hs h.errno h.good.upgrade htoken
    · rw [halike.state]
      exact hline
    · exact if_neg (ne_of_token htoken).1
  · split
    · next hend =>
      rcases hend with rfl | rfl | rfl
      · exact h.byte_callback hch nofun hline ⟨rfl, rfl, rfl, rfl, rfl, rfl⟩ (g := .inLine) rfl rfl
          fun sec hsec ↦ hsec.colon hs
      · exact h.byte_callback hch nofun hline ⟨rfl, rfl, rfl, rfl, rfl, rfl⟩ (g := .inLine) rfl rfl
          fun sec hsec ↦ (hsec.bareLine hs).1
      · exact h.byte_callback hch nofun hline ⟨rfl, rfl, rfl, rfl, rfl, rfl⟩ (g := .lineStart) rfl
          rfl fun sec hsec ↦ (hsec.bareLine hs).2
    · exact h.error rfl (by decide)

theorem turn_headerValueStart (hs : x.parser.state = .headerValueStart) :
    (x.headerValueStart T.reply T.data p ch).Meets T.Within T.Left := by
  have hline : x.parser.state.line = some .inLine := by rw [hs]; rfl
  unfold Exec.headerValueStart
  dsimp only
  split
  · next hblank =>
    refine h.byte_next hch hline ⟨rfl, rfl, rfl, rfl, rfl, rfl⟩ hline (if_neg ?_)
      fun sec hsec ↦ hsec.blank hs (isBlank_iff.2 hblank)
    rcases hblank with rfl | rfl <;> decide
  · next hblank =>
    have hmark : T.Ready (x.mark .headerValue p) p := h.mark_ne .headerValue nofun p
    have hparser : (x.mark .headerValue p).parser = x.parser := Exec.parser_mark _ _ _
    generalize x.mark .headerValue p = z at hmark hparser
    have hline' : z.parser.state.line = some .inLine := by rw [hparser]; exact hline
    have hs' : z.parser.state = .headerValueStart := by rw [hparser]; exact hs
    split
    · next hcr =>
      subst hcr
      exact hmark.byte_callback hch nofun hline' ⟨rfl, rfl, rfl, rfl, rfl, rfl⟩ rfl rfl
        fun sec hsec ↦ (hsec.emptyValue hs').1
    · next hcr =>
      split
      · next hlf =>
        subst hlf
        exact hmark.byte_callback hch nofun hline' ⟨rfl, rfl, rfl, rfl, rfl, rfl⟩ rfl rfl
          fun sec hsec ↦ (hsec.emptyValue hs').2
      · next hlf =>
        split
        · next q hq =>
          have halike := alike_startValue hq
          refine hmark.byte_next hch hline' (g := .inLine)
            ⟨halike.errno, rfl, rfl, halike.upgrade, halike.trailing, halike.skipbody⟩ ?_
            (if_neg hlf) fun sec hsec ↦ hsec.startValue hs' hmark.errno hmark.good.upgrade hlf hcr
              (Bool.eq_false_iff.2 (mt isBlank_iff.1 hblank)) hq
          rw [halike.state]
          rfl
        · next e he => exact hmark.error rfl (fatal_of_startValue he)

theorem turn_headerAlmostDone (hs : x.parser.state = .headerAlmostDone) :
    (x.headerAlmostDone p ch).Meets T.Within T.Left := by
  have hline : x.parser.state.line = some .inLine := by rw [hs]; rfl
  rw [Exec.headerAlmostDone]
  split
  · exact h.error rfl (by decide)
  · next hlf =>
    obtain rfl := not_not.1 hlf
    have halike := alike_endValue { x.parser with state := .headerValueLws }
    refine h.byte_next hch hline (g := .lineStart)
      ⟨halike.errno, rfl, rfl, halike.upgrade, halike.trailing, halike.skipbody⟩ ?_ rfl
      fun sec hsec ↦ hsec.almostDone_LF hs
    rw [halike.state]
    rfl

theorem turn_headerValue (hs : x.parser.state = .headerValue) :
    (x.headerValue T.reply T.data p ch).Meets T.Within T.Left := by
  have hline : x.parser.state.line = some .inLine := by rw [hs]; rfl
  have hdone := fun (sec : Section) (hsec : sec.Reads x.parser) ↦
    hsec.valueDone hs h.errno h.good.upgrade
  unfold Exec.headerValue
  split
  · next hcr =>
    subst hcr
    exact h.byte_callback hch nofun hline ⟨rfl, rfl, rfl, rfl, rfl, rfl⟩ rfl rfl
      fun sec hsec ↦ by rw [(hdone sec hsec).2]; exact (hdone sec hsec).1
  · next hcr =>
    split
    · refine (h.relabel hline rfl fun sec hsec ↦ (hdone sec hsec).1).callbackHeader nofun
        fun z hz hparser ↦ ?_
      exact turn_headerAlmostDone hz hch (by rw [hparser]; rfl)
    · next hlf =>
      split
      · next q hq =>
        have halike := alike_nextValue hq
        refine h.byte_next hch hline (g := .inLine)
          ⟨halike.errno, rfl, rfl, halike.upgrade, halike.trailing, halike.skipbody⟩ ?_ (if_neg hlf)
          fun sec hsec ↦ hsec.nextValue hs h.errno h.good.upgrade hlf hcr hq
        rw [halike.state]
        exact hline
      · next e he => exact h.error rfl (fatal_of_nextValue he)

theorem turn_headerFieldStart (ho : Exec.Ongoing T.reply T.data x.calls x p)
    (hs : x.parser.state = .headerFieldStart) :
    (x.headerFieldStart T.reply p ch).Meets T.WithinIf T.LeftIf := by
  have hline : x.parser.state.line = some .lineStart := by rw [hs]; rfl
  unfold Exec.headerFieldStart
  dsimp only
  split
  · next hcr =>
    subst hcr
    exact meets_if (h.byte_next hch hline ⟨rfl, rfl, rfl, rfl, rfl, rfl⟩ rfl rfl
      fun sec hsec ↦ hsec.emptyLine hs)
  · next hcr =>
    split
    · exact turn_headersAlmostDone ho h hch (.inl hs)
    · next hlf =>
      split
      · exact meets_if (h.error rfl (by decide))
      · next htoken =>
        have hparser := Exec.parser_mark x .headerField p
        refine meets_if ((h.mark_ne .headerField nofun p).byte_next hch (f := .lineStart) ?_
          ⟨rfl, rfl, rfl, rfl, rfl, rfl⟩ rfl ?_ fun sec hsec ↦ hsec.startField ?_ htoken)
        · rw [hparser]
          exact hline
        · rw [Frame.next, if_neg hcr, if_neg hlf]
        · rw [hparser]
          exact hs

theorem turn_headerValueLws (ho : Exec.Ongoing T.reply T.data x.calls x p)
    (hs : x.parser.state = .headerValueLws) :
    (x.headerValueLws T.reply p ch).Meets T.WithinIf T.LeftIf := by
  have hline : x.parser.state.line = some .lineStart := by rw [hs]; rfl
  rw [Exec.headerValueLws]
  split
  · next hblank =>
    refine meets_if (h.byte_next hch hline (g := .inLine) ⟨rfl, rfl, rfl, rfl, rfl, rfl⟩ rfl ?_
      fun sec hsec ↦ hsec.continued hs (isBlank_iff.2 hblank))
    rcases hblank with rfl | rfl <;> rfl
  · exact turn_headerFieldStart (h.relabel hline rfl fun sec hsec ↦ hsec.notContinued hs) hch
      (ho.congr rfl rfl) rfl

end Lines

end Turn

end JnetLib.Http
