import JnetLib.Http.HeaderFieldLines
import JnetLib.Http.HeaderFirstLine

/-!
# A whole header section

`receiveHead` is an operation that is called with the pieces of a header section one after the
other. At `on_headers_complete` the entries of the request are those of `entries`
(`view_of_receiveHead`), and there is one for each line exactly if every line but the last has a
value (`onePerLine_receiveHead_iff`).

The first is an induction over the pieces. It rests on `left_execute`, one call, which rests on
`head_step`, one byte in any state; the second is a fact about `entries` alone.
-/

namespace JnetLib.Http

namespace Piece

variable {P : Piece} {x y : Exec} {p m : ℕ} {ch : Byte} {c : Callback} {er : ℕ}

/-! ### One byte -/

theorem head_startReq (h : P.InHead x) (hm : x.Unmarked) (hs : x.parser.state = .startReq)
    (hscan : P.scan p = .lead) (hch : P.data[p]? = some ch) :
    (x.startReq P.reply p ch).Meets P.Within P.Left := by
  have hnext := scan_succ hch
  rw [hscan, Scan.next] at hnext
  unfold Exec.startReq
  dsimp only
  split
  · next hend =>
    rw [if_pos hend] at hnext
    exact h.plain_of_eq hm rfl (by rw [hs]; decide) (by rw [hs]; decide) hnext (.lead hs)
  · next hend =>
    rw [if_neg hend] at hnext
    split
    · exact h.error rfl (by decide)
    · split
      · exact h.error rfl (by decide)
      · next m _ =>
        refine Exec.meets_notify h.errno (by decide) (fun hstop ↦ ?_) fun _ _ ↦ ?_
        · rw [reply_history] at hstop
          simp [RequestOp.handle, RequestOp.proceed] at hstop
        · generalize hz : Exec.passed _ .messageBegin (p + 1) = z
          have hcalls : z.calls = x.calls ++ [(.messageBegin, p + 1)] := hz ▸ rfl
          have hstate : z.parser.state = .reqMethod := hz ▸ rfl
          have hbegun : P.BegunBy z.calls := by
            rw [hcalls, BegunBy, List.map_append]
            exact .inr (List.mem_append_right _ List.mem_cons_self)
          have hin : P.InHead z := by
            refine ⟨hz ▸ h.errno, ?_, ?_⟩ <;> rw [hcalls]
            · exact h.proper.concat fun _ ↦ trivial
            · exact not_headed_concat h.notHeaded rfl
          refine hin.plain_of_eq (hz ▸ hm) rfl (by rw [hstate]; decide)
            (by rw [hstate]; decide) hnext
            (.line (by rw [hstate]; rfl) ⟨hbegun, hz ▸ rfl⟩ ?_)
          rw [now, hcalls, after_concat]
          rfl

/-- **A byte of a header section**: the parser stands for what has been read, or the call returns.
-/
theorem head_step (ho : Exec.Ongoing P.reply P.data x.calls x p) (h : P.InHead x)
    (hl : P.Located x p) (hch : P.data[p]? = some ch) :
    (x.step P.reply P.data p ch).Meets P.Within P.Left := by
  obtain ⟨hp, -⟩ := List.getElem?_eq_some_iff.1 hch
  rcases hl with ⟨hm, hf, hv, hb⟩ | ⟨m, hm, hmp, hs, hg, hb⟩ | ⟨m, hm, hs, hb⟩
  · generalize hscan : P.scan p = s at hb
    cases hb with
    | lead hs =>
      rw [Exec.step, hs]
      exact head_startReq h hm hs hscan hch
    | line hs hbegun hview => exact line_step ⟨h, hs, hm, hbegun, hview, hscan⟩ hch
    | fieldStart done last hs hbegun hview =>
      rw [Exec.step, hs]
      exact head_headerFieldStart ⟨h, ho, hm, hbegun, hview, hscan⟩ hch
    | field done line hs => exact absurd hs hf
    | valueStart done line hs hbegun hval hnames =>
      rw [Exec.step, hs]
      exact head_headerValueStart ⟨h, hbegun, hval, hnames, hscan⟩ hm hs hch
    | value done line hs => exact absurd hs hv
    | almostDone done line hs hbegun hview =>
      rw [Exec.step, hs]
      exact head_headerAlmostDone h hm hbegun hview hscan hch
    | lws done line hs hbegun hview =>
      rw [Exec.step, hs]
      exact head_headerValueLws ⟨h, ho, hm, hbegun, hview, hscan⟩ hch
    | ending done hs hbegun hview =>
      rw [Exec.step, hs]
      refine head_headersAlmostDone ho hp h hbegun ?_
      rw [hscan]
      exact hview
  · obtain ⟨done, line, hscan, hbegun, hval, hview⟩ := hb.of_headerField hs
    rw [Exec.step, hs]
    exact head_headerField ⟨h, hs, hm, hmp, hbegun, hval, hg, hview, hscan⟩ hch
  · obtain ⟨done, line, hscan, hbegun, hval, hnames⟩ := hb.of_headerValue hs
    rw [Exec.step, hs]
    exact head_headerValue ⟨h, hbegun, hval, hnames, hscan⟩ hm hs hch

/-! ### One call -/

/-- A call that has come behind the end of the section ends as it should. -/
theorem left_of_headed {n : ℕ} (hproper : P.Proper x.calls) (hhead : Headed x.calls)
    (hcont : P.op.continuous = true) (hgrows : x.calls <+: y.calls) : P.Left y n := by
  refine ⟨hproper.of_headed hhead hgrows, fun hno ↦ absurd (hhead.mono hgrows) hno,
    fun hno ↦ absurd (hhead.mono hgrows) hno, fun hfalse ↦ ?_⟩
  rw [hcont] at hfalse
  cases hfalse

/-- The last of the marks: that of the URL, if it is set. -/
theorem left_finish (h : P.InHead x) (hm : x.Unmarked)
    (hb : Between (P.BegunBy x.calls) x.parser (P.now x).view (P.scan P.data.length)) :
    (x.callbackData P.reply P.data .url P.data.length P.data.length fun x ↦
      x.callbackData P.reply P.data .body P.data.length P.data.length fun x ↦
        .ret x P.data.length).Meets (fun _ _ ↦ False) P.Left := by
  have hlast : ∀ {y}, P.InHead y → y.Unmarked →
      Between (P.BegunBy y.calls) y.parser (P.now y).view (P.scan P.data.length) →
      (y.callbackData P.reply P.data .body P.data.length P.data.length fun x ↦
        .ret x P.data.length).Meets (fun _ _ ↦ False) P.Left := fun {y} h hm hb ↦ by
    rw [Exec.callbackData, hm .body (by decide)]
    refine ⟨h.proper, fun _ hpaused ↦ ?_, fun _ _ ↦ hb, fun _ hhead ↦ absurd hhead h.notHeaded⟩
    rw [h.errno] at hpaused
    cases hpaused
  refine meets_data (by decide) h.errno (fun _ ↦ hlast h hm hb) fun m _ ↦ ?_
  have hin : P.InHead (x.passed (Exec.since P.data .url m P.data.length) P.data.length) :=
    h.passed rfl trivial
  refine hlast (hin.congr rfl rfl) (fun which hwhich ↦ ?_) ?_
  · exact (Function.update_of_ne hwhich _ _).trans (hm which hwhich)
  · show Between (P.BegunBy (x.calls ++ _)) _ (P.after (x.calls ++ _)).view _
    rw [after_concat]
    exact hb.mono BegunBy.concat rfl rfl

/-- The call ends behind the last byte of its piece. -/
theorem meets_finish (ho : Exec.Ongoing P.reply P.data x.calls x P.data.length)
    (hI : P.Within x P.data.length) :
    (x.finish P.reply P.data).Meets (fun _ _ ↦ False) P.Left := by
  obtain ⟨hproper, ⟨hno, hl⟩ | ⟨hcont, hhead⟩⟩ := hI
  · have h : P.InHead x := ⟨ho.errno, hproper, hno⟩
    have hvalue : ∀ {y}, P.InHead y → y.Unmarked →
        Between (P.BegunBy y.calls) y.parser (P.now y).view (P.scan P.data.length) →
        (y.callbackData P.reply P.data .headerValue P.data.length P.data.length fun x ↦
          x.callbackData P.reply P.data .url P.data.length P.data.length fun x ↦
            x.callbackData P.reply P.data .body P.data.length P.data.length fun x ↦
              .ret x P.data.length).Meets (fun _ _ ↦ False) P.Left := fun {y} h hm hb ↦ by
      rw [Exec.callbackData, hm .headerValue (by decide)]
      exact left_finish h hm hb
    unfold Exec.finish
    rcases hl with ⟨hm, hf, hv, hb⟩ | ⟨m, hm, hmp, hs, hg, hb⟩ | ⟨m, hm, hs, hb⟩
    · rw [Exec.callbackData, hm .headerField (by decide)]
      exact hvalue h hm hb
    · obtain ⟨done, line, hscan, hbegun, hval, hview⟩ := hb.of_headerField hs
      have hname : P.AtName x P.data.length m done line :=
        ⟨h, hs, hm, hmp, hbegun, hval, hg, hview, hscan⟩
      refine hname.callbackData ⟨rfl, rfl, rfl, rfl⟩ fun z hin hmz hparser hbz hvz ↦ ?_
      refine hvalue hin hmz ?_
      rw [hparser, hscan]
      exact .field _ _ hs ⟨hbz, hbegun.trailing⟩ hval hvz
    · obtain ⟨done, line, hscan, hbegun, hval, hnames⟩ := hb.of_headerValue hs
      have hat : P.AtValue x P.data.length done line := ⟨h, hbegun, hval, hnames, hscan⟩
      rw [Exec.callbackData, hm.eq_none .headerField (by decide) (by decide)]
      refine hat.callbackData rfl rfl hm fun z hin hmz hparser hbz hvz ↦ ?_
      refine left_finish hin hmz ?_
      rw [hparser, hscan]
      exact .value _ _ hs ⟨hbz, hbegun.trailing⟩ hval (congrArg Entries.names hvz)
  · exact (Exec.meets_finish ho).mono (fun _ _ h ↦ h) fun y n hy ↦
      left_of_headed hproper hhead hcont hy.grows

theorem within_count (hI : P.Within x p) : P.Within x.count p := by
  rw [Exec.count]
  split
  · obtain ⟨hproper, ⟨hno, hl⟩ | hplace⟩ := hI
    · refine ⟨hproper, .inl ⟨hno, ?_⟩⟩
      rcases hl with ⟨hm, hf, hv, hb⟩ | ⟨m, hm, hmp, hs, hg, hb⟩ | ⟨m, hm, hs, hb⟩
      · exact .plain hm hf hv (hb.mono (fun h ↦ h) rfl rfl)
      · exact .field m ⟨hm.1, hm.2⟩ hmp hs hg (hb.mono (fun h ↦ h) rfl rfl)
      · exact .value m ⟨hm.1, hm.2⟩ hs (hb.mono (fun h ↦ h) rfl rfl)
    · exact ⟨hproper, .inr hplace⟩
  · exact hI

/-- Nothing is marked at the beginning of a call, but for what goes on from the call before. -/
theorem initialMarks_eq_none {q : Parser} {which : DataCallback} (hwhich : which ≠ .url)
    (hf : which = .headerField → q.state ≠ .headerField)
    (hv : which = .headerValue → q.state ≠ .headerValue) : q.initialMarks which = none := by
  unfold Parser.initialMarks
  split
  · next hs => exact absurd hs (hf rfl)
  · next hs => exact absurd hs (hv rfl)
  all_goals first | exact absurd rfl hwhich | rfl

/-- The beginning of a call. -/
theorem within_start {q : Parser} (hb : Between P.begun q P.op.view (Scan.read P.past)) :
    P.Within ⟨q, q.initialMarks, []⟩ 0 := by
  have hscan : P.scan 0 = Scan.read P.past := by rw [scan, List.take_zero, List.append_nil]
  have hno : ¬Headed [] := by
    rintro ⟨_, hc, _⟩
    exact List.not_mem_nil hc
  refine ⟨proper_nil, .inl ⟨hno, ?_⟩⟩
  by_cases hf : q.state = .headerField
  · obtain ⟨done, line, hs, hbegun, hval, hview⟩ := hb.of_headerField hf
    have hopen : P.op.view.isOpen = true := by
      rw [hview, isOpen_entries, hval]
      rfl
    refine .field 0 ⟨?_, fun other hother hne ↦ ?_⟩ (Nat.le_refl 0) hf ?_ ?_
    · simp [Parser.initialMarks, hf]
    · exact initialMarks_eq_none hother (fun h ↦ absurd h hne) (fun _ ↦ by rw [hf]; decide)
    · exact RequestOp.grounded_of_view hview
    · show Between _ q (P.op.onHeaderField []).view _
      rw [RequestOp.view_onHeaderField, add_nil hopen, hscan]
      exact hb.mono .inl rfl rfl
  · by_cases hv : q.state = .headerValue
    · refine .value 0 ⟨?_, fun other hother hne ↦ ?_⟩ hv ?_
      · simp [Parser.initialMarks, hv]
      · exact initialMarks_eq_none hother (fun _ ↦ hf) (fun h ↦ absurd h hne)
      · rw [hscan]
        exact hb.mono .inl rfl rfl
    · refine .plain (fun which hwhich ↦ ?_) hf hv ?_
      · exact initialMarks_eq_none hwhich (fun _ ↦ hf) fun _ ↦ hv
      · rw [hscan]
        exact hb.mono .inl rfl rfl

/-- **A call over a piece of a header section** returns with what has been read. -/
theorem left_execute {q : Parser} (hok : q.httpErrno = .ok) (hdata : P.data ≠ [])
    (hb : Between P.begun q P.op.view (Scan.read P.past)) :
    P.Left (q.execute P.reply P.data).1 (q.execute P.reply P.data).2 := by
  rw [Parser.execute_eq P.reply hok hdata]
  refine Exec.loop_meets (I := P.Within) (fun _ _ ↦ within_count) (fun x p ho hI ↦ ?_)
    (fun x p ch ho hI hch ↦ ?_) (fun x ho ↦ meets_finish ho.self) (fun x p _ _ hend ↦ ?_) _
    (Parser.ongoing P.reply hok P.data) (within_start hb) fun _ ↦ q.ahead_lt P.data
  · obtain ⟨hproper, ⟨hno, -⟩ | ⟨hcont, hhead⟩⟩ := hI
    · exact InHead.error ⟨ho.errno, hproper, hno⟩ rfl (by decide)
    · exact left_of_headed hproper hhead hcont (List.prefix_refl _)
  · obtain ⟨hproper, ⟨hno, hl⟩ | ⟨hcont, hhead⟩⟩ := hI
    · exact head_step ho.self ⟨ho.errno, hproper, hno⟩ hl hch
    · obtain ⟨hp, -⟩ := List.getElem?_eq_some_iff.1 hch
      refine (Exec.meets_step ho.self hp).mono (fun y _ hy ↦ ?_) fun y n hy ↦ ?_
      · exact ⟨hproper.of_headed hhead hy.1.grows, .inr ⟨hcont, hhead.mono hy.1.grows⟩⟩
      · exact left_of_headed hproper hhead hcont hy.grows
  · exact absurd (RequestOp.answers_pausesAtEnd _ _) hend

end Piece

/-! ### A whole header section -/

/-- The callbacks made before `on_headers_complete`, and the bytes consumed there. -/
def upToHeaders : List (Callback × ℕ) → Option (List (Callback × ℕ) × ℕ)
  | [] => none
  | (c, er) :: l =>
    if c.isHeadersComplete then some ([], er)
    else (upToHeaders l).map fun r ↦ ((c, er) :: r.1, r.2)

theorem upToHeaders_eq_some {l m : List (Callback × ℕ)} {er : ℕ}
    (h : upToHeaders l = some (m, er)) :
    ∃ c r, l = m ++ (c, er) :: r ∧ c.isHeadersComplete = true ∧ ¬Headed m := by
  induction l generalizing m with
  | nil => cases h
  | cons a l ih =>
    obtain ⟨c, n⟩ := a
    rw [upToHeaders] at h
    split at h
    · next hc =>
      obtain ⟨rfl, rfl⟩ := Prod.mk.inj (Option.some.inj h)
      exact ⟨c, l, rfl, hc, fun ⟨_, hmem, _⟩ ↦ List.not_mem_nil hmem⟩
    · next hc =>
      obtain ⟨⟨m', n'⟩, htail, heq⟩ := Option.map_eq_some_iff.1 h
      obtain ⟨rfl, rfl⟩ := Prod.mk.inj heq
      obtain ⟨c', r, rfl, hc', hno⟩ := ih htail
      refine ⟨c', r, rfl, hc', fun ⟨a, hmem, ha⟩ ↦ ?_⟩
      rcases List.mem_cons.1 hmem with rfl | hmem
      · exact hc ha
      · exact hno ⟨a, hmem, ha⟩

theorem upToHeaders_eq_none {l : List (Callback × ℕ)} (h : upToHeaders l = none) :
    ¬Headed l := by
  induction l with
  | nil => exact fun ⟨_, hmem, _⟩ ↦ List.not_mem_nil hmem
  | cons a l ih =>
    obtain ⟨c, n⟩ := a
    rw [upToHeaders] at h
    split at h
    · cases h
    · next hc =>
      rintro ⟨a, hmem, ha⟩
      rcases List.mem_cons.1 hmem with rfl | hmem
      · exact hc ha
      · exact ih (Option.map_eq_none_iff.1 h) ⟨a, hmem, ha⟩

/-- The socket's parser is given pieces of a header section, each in a buffer of its own, until it
calls `on_headers_complete`: the operation then, and the bytes of the message up to there. An error
before ends it with nothing. -/
def receiveHead : Parser → RequestOp → List Byte → List (ℕ × List Byte) →
    Option (RequestOp × List Byte)
  | _, _, _, [] => none
  | q, op, past, (buffer, data) :: pieces =>
    let r := q.execute (op.answers buffer) data
    match upToHeaders r.1.calls with
    | some (l, er) => some (op.handleAll buffer (l.map Prod.fst), past ++ data.take er)
    | none =>
      if r.1.parser.httpErrno = .ok then
        receiveHead r.1.parser (op.handleAll buffer (r.1.calls.map Prod.fst)) (past ++ data) pieces
      else none

/-- At `on_headers_complete` the entries are those of the lines. -/
theorem view_of_receiveHead (pieces : List (ℕ × List Byte)) {begun : Prop} {q : Parser}
    {op op' : RequestOp} {past head : List Byte} (hok : q.httpErrno = .ok)
    (hb : Between begun q op.view (Scan.read past))
    (h : receiveHead q op past pieces = some (op', head)) :
    op'.view = entries (Scan.read head).lines := by
  induction pieces generalizing begun q op past with
  | nil => cases h
  | cons a pieces ih =>
    obtain ⟨buffer, data⟩ := a
    rw [receiveHead] at h
    split at h
    · -- the section ends in this piece
      next l er hl =>
      obtain ⟨rfl, rfl⟩ := Prod.mk.inj (Option.some.inj h)
      obtain ⟨c, r, hcalls, hc, hno⟩ := upToHeaders_eq_some hl
      by_cases hdata : data = []
      · have hidle := (Parser.execute_idle (op.answers buffer) (q := q) (.inr hdata)).1
        rw [hcalls] at hidle
        exact absurd hidle (List.append_ne_nil_of_right_ne_nil l (List.cons_ne_nil _ _))
      · have hleft := Piece.left_execute (P := ⟨buffer, op, begun, past, data⟩) hok hdata hb
        have hnoted := hleft.proper l c er r hcalls hno
        cases c with
        | headersComplete method httpMajor httpMinor upgrade => exact hnoted
        | messageBegin => cases hc
        | data which off bytes => cases hc
        | messageComplete => cases hc
    · -- it goes on: `Between` leads from this piece to the next
      next hl =>
      obtain ⟨hok', htail⟩ := Option.ite_none_right_eq_some.1 h
      by_cases hdata : data = []
      · obtain ⟨hcalls, ⟨-, hq⟩ | he⟩ :=
          Parser.execute_idle (op.answers buffer) (q := q) (.inr hdata)
        · rw [hq, hcalls, hdata, List.append_nil] at htail
          exact ih hok hb htail
        · rw [he] at hok'
          cases hok'
      · have hno := upToHeaders_eq_none hl
        have hleft := Piece.left_execute (P := ⟨buffer, op, begun, past, data⟩) hok hdata hb
        have hall := (Parser.over_execute (op.answers buffer) hok hdata).eq_of_ok
          (op.answers_pausesAtEnd buffer) hok'
        have hnext := hleft.between hno hok'
        rw [hall, Piece.scan, List.take_length] at hnext
        exact ih hok' hnext htail

/-- **One entry for each header line.** However a header section the parser accepts is cut into
pieces, there is one entry for each of its lines, with that line's name, exactly if every line but
the last has a colon or a continuation line. -/
theorem onePerLine_receiveHead_iff {q : Parser} {op op' : RequestOp}
    {pieces : List (ℕ × List Byte)} {head : List Byte} (hstate : q.state = .startReq)
    (hok : q.httpErrno = .ok) (h : receiveHead q op [] pieces = some (op', head)) :
    OnePerLine (Scan.read head).lines op'.request.headers ↔
      ∀ l ∈ (Scan.read head).lines.dropLast, l.valued = true := by
  have hb : Between True q op.view (Scan.read []) := .lead hstate
  have hview := view_of_receiveHead pieces hok hb h
  exact onePerLine_iff (congrArg Entries.names hview)

/-- An operation as `asyn_receive_request` creates it. -/
def RequestOp.fresh : RequestOp := .new false ⟨[], [], .zero, 0, 0, []⟩ 16 64 0 0 0

/-- `GET / HTTP/1.1` and a line feed. -/
def requestLine : List Byte :=
  ascii ['G', 'E', 'T', ' ', '/', ' ', 'H', 'T', 'T', 'P', '/', '1', '.', '1'] ++ [LF]

/-- The theorem on a request with two headers, cut inside the name of the second one. -/
theorem onePerLine_receiveHead_iff_two :
    ∃ op' head, receiveHead .init .fresh []
        [(16, requestLine ++ ascii ['A', ':', 'b'] ++ [CR, LF] ++ ascii ['B']),
          (16, ascii ['C', ':'] ++ [LF, LF])] = some (op', head) ∧
      (OnePerLine (Scan.read head).lines op'.request.headers ↔
        ∀ l ∈ (Scan.read head).lines.dropLast, l.valued = true) := by
  have hsome : (receiveHead .init .fresh []
      [(16, requestLine ++ ascii ['A', ':', 'b'] ++ [CR, LF] ++ ascii ['B']),
        (16, ascii ['C', ':'] ++ [LF, LF])]).isSome = true := by decide +kernel
  obtain ⟨⟨op', head⟩, h⟩ := Option.isSome_iff_exists.1 hsome
  exact ⟨op', head, h, onePerLine_receiveHead_iff rfl rfl h⟩

/-- The line `A` has neither colon nor continuation, and the line `B:c` follows: the request has the
one entry `AB`. -/
theorem not_onePerLine_of_bare_line :
    ∃ op' head, receiveHead .init .fresh []
        [(16, requestLine ++ ascii ['A'] ++ [CR, LF] ++ ascii ['B', ':', 'c'] ++
          [CR, LF, CR, LF])] = some (op', head) ∧
      (Scan.read head).lines.map HeaderLine.name = [ascii ['A'], ascii ['B']] ∧
      op'.request.headers.map Header.name = [ascii ['A', 'B']] ∧
      ¬OnePerLine (Scan.read head).lines op'.request.headers := by
  have hmap : (receiveHead .init .fresh []
      [(16, requestLine ++ ascii ['A'] ++ [CR, LF] ++ ascii ['B', ':', 'c'] ++
        [CR, LF, CR, LF])]).map (fun r ↦ ((Scan.read r.2).lines.map HeaderLine.name,
          r.1.request.headers.map Header.name)) =
      some ([ascii ['A'], ascii ['B']], [ascii ['A', 'B']]) := by decide +kernel
  obtain ⟨⟨op', head⟩, h, heq⟩ := Option.map_eq_some_iff.1 hmap
  obtain ⟨hlines, hnames⟩ := Prod.mk.inj heq
  refine ⟨op', head, h, hlines, hnames, fun hone ↦ ?_⟩
  have hsame := hone.2
  rw [hlines, hnames] at hsame
  exact absurd hsame (by decide)

end JnetLib.Http
