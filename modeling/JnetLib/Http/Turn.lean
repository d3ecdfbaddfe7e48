import JnetLib.Http.Framing

/-!
# One call of the parser, with the journal

`Turn` is a call of `http_parser_execute` by `http_request_op`: the bytes of the call, those
consumed before, and the journal of the results. `Within` is the invariant of its loop and `Left`
what holds where the function returns. Here are the rules for the ways a callback is made, and the
states of the request line; those of a header section are in `HeaderTurn`, and those of a body, with
the call as a whole, in `BodyTurn`.
-/

namespace JnetLib.Http

/-- `y` differs from `x` in nothing that matters but the state, the marks of the header section, and
what the parser holds of the fields. -/
structure Exec.Beside (y x : Exec) : Prop where
  errno : y.parser.httpErrno = x.parser.httpErrno
  calls : y.calls = x.calls
  mark : y.marks .body = x.marks .body
  upgrade : y.parser.upgrade = x.parser.upgrade
  trailing : y.parser.flags.trailing = x.parser.flags.trailing
  skipbody : y.parser.flags.skipbody = x.parser.flags.skipbody

/-- `on_headers_complete`, of a request that does not ask for another protocol. -/
def Callback.keepsProtocol : Callback → Bool
  | .headersComplete _ _ _ upgrade => !upgrade
  | _ => false

/-- A call of the parser: the buffer, the operation, the bytes consumed before, those of the call,
and the journal. -/
structure Turn where
  buffer : ℕ
  op : RequestOp
  before : List Byte
  data : List Byte
  journal : Journal

namespace Turn

variable (T : Turn)

/-- The answers of the operation's callbacks. -/
abbrev reply : Answers := T.op.answers T.buffer

/-- The operation behind the callbacks `l`. -/
def after (l : List (Callback × ℕ)) : RequestOp := T.op.handleAll T.buffer (l.map Prod.fst)

/-- The journal behind the callbacks `l`. -/
def noted (l : List (Callback × ℕ)) : Journal :=
  T.journal.after T.before T.data T.buffer T.op l

/-- What has been read up to the offset `p`. -/
def stream (p : ℕ) : Stream := .read (T.before ++ T.data.take p)

/-- A URL has been rejected in the callbacks `l`. -/
def refuses (l : List (Callback × ℕ)) : Bool := T.op.refusesAny T.buffer (l.map Prod.fst)

/-- Where `on_headers_complete` has been called, but for a request that asks for another protocol,
the header section is unambiguous. -/
def Legible (l : List (Callback × ℕ)) : Prop :=
  ∀ a ∈ l, a.1.keepsProtocol = true → Unambiguous (T.stream a.2).fields

/-- Where the loop goes on. A part of a body is marked only behind the `req`. -/
structure Within (x : Exec) (p : ℕ) : Prop where
  refuses : T.refuses x.calls = false
  good : Good (T.stream p) (T.noted x.calls) x.parser
  mark : x.marks .body ≠ none → (T.noted x.calls).isOpen = true

/-- Where the function returns: with an error, or for another protocol; behind the last byte; with a
result; or at the end of a message whose URL has been rejected. -/
inductive Left (x : Exec) (n : ℕ) : Prop
  | failed (hrefuses : T.refuses x.calls = false) (hsound : (T.noted x.calls).sound = true)
      (he : x.parser.httpErrno.Fatal ∨ x.parser.upgrade = true)
  | ok (hrefuses : T.refuses x.calls = false) (he : x.parser.httpErrno = .ok)
      (h : Good (T.stream n) (T.noted x.calls) x.parser)
  | paused (hrefuses : T.refuses x.calls = false) (he : x.parser.httpErrno = .paused)
      (h : Good (T.stream n) ((T.noted x.calls).deliver (T.after x.calls).result.type) x.parser)
  | refused (hrefuses : T.refuses x.calls = true) (he : x.parser.httpErrno = .paused)
      (hupgrade : x.parser.upgrade = false) (hopen : (T.noted x.calls).isOpen = false)
      (htype : (T.after x.calls).result.type = .fin)

/-- The loop goes on at `n` without an error. -/
structure Ready (x : Exec) (n : ℕ) : Prop extends T.Within x n where
  errno : x.parser.httpErrno = .ok

variable {T} {x y : Exec} {p n : ℕ} {ch : Byte} {c : Callback} {er : ℕ}

theorem after_concat (l : List (Callback × ℕ)) (c : Callback) (er : ℕ) :
    T.after (l ++ [(c, er)]) = (RequestOp.handle T.buffer (T.after l) c).op := by
  rw [after, List.map_append, RequestOp.handleAll_append]
  rfl

theorem noted_concat (l : List (Callback × ℕ)) (c : Callback) (er : ℕ) :
    T.noted (l ++ [(c, er)]) =
      (T.noted l).see T.before T.data T.buffer (T.after l) c er :=
  Journal.after_concat _ _ _ _ _ _ _ _

theorem refuses_concat (l : List (Callback × ℕ)) (c : Callback) (er : ℕ) :
    T.refuses (l ++ [(c, er)]) = (T.refuses l || (T.after l).refuses c) := by
  rw [refuses, List.map_append]
  exact RequestOp.refusesAny_concat _ _ _ _

theorem stream_add (p k : ℕ) : T.stream (p + k) =
    ((T.data.drop p).take k).foldl Stream.next (T.stream p) := by
  rw [stream, stream, List.take_add, ← List.append_assoc, Stream.read_append]

theorem stream_succ (hch : T.data[p]? = some ch) : T.stream (p + 1) = (T.stream p).next ch := by
  rw [stream_add, List.take_one, List.head?_drop, hch]
  rfl

theorem reply_history (x : Exec) (c : Callback) :
    T.reply (x.history c) = (RequestOp.handle T.buffer (T.after x.calls) c).reply :=
  RequestOp.answers_concat _ _ _ _

/-! ### Rules -/

theorem Ready.next (h : T.Ready y n) : (Flow.next y n).Meets T.Within T.Left :=
  h.toWithin

/-- An error ends the call. -/
theorem Ready.error {e : HttpErrno} (h : T.Ready x p) (hc : y.calls = x.calls) (he : e.Fatal) :
    (y.error e n).Meets T.Within T.Left := by
  refine .failed ?_ ?_ (.inl he)
  · exact hc.symm ▸ h.refuses
  · exact hc.symm ▸ h.good.sound

/-- Nothing but the place changes. -/
theorem Ready.to (h : T.Ready x p) (he : y.parser.httpErrno = x.parser.httpErrno)
    (hc : y.calls = x.calls) (hm : y.marks .body = x.marks .body)
    (hu : y.parser.upgrade = x.parser.upgrade)
    (hplace : Place (T.stream n) (T.noted x.calls) y.parser) : T.Ready y n where
  errno := he.trans h.errno
  refuses := hc.symm ▸ h.refuses
  good := by
    rw [hc]
    exact ⟨h.good.sound, h.good.accepted, hu.trans h.good.upgrade, hplace⟩
  mark := by
    rw [hc, hm]
    exact h.mark

/-- A callback for a part of the header section leaves the journal as it is. -/
theorem Ready.passed {which : DataCallback} {off : ℕ} {bytes : List Byte} (h : T.Ready x n)
    (hwhich : which ≠ .body) : T.Ready { x.passed (.data which off bytes) er with
      marks := Function.update x.marks which none } n := by
  have hnoted : T.noted (x.calls ++ [(.data which off bytes, er)]) = T.noted x.calls := by
    rw [noted_concat]
    cases which with
    | body => exact absurd rfl hwhich
    | _ => rfl
  have hrefuses : T.refuses (x.calls ++ [(.data which off bytes, er)]) = T.refuses x.calls := by
    rw [refuses_concat]
    exact Bool.or_false _
  refine ⟨⟨hrefuses.trans h.refuses, ?_, fun hm ↦ ?_⟩, h.errno⟩
  · show Good _ (T.noted (x.calls ++ [(.data which off bytes, er)])) x.parser
    rw [hnoted]
    exact h.good
  · have hmarks : Function.update x.marks which none .body = x.marks .body :=
      Function.update_of_ne hwhich.symm _ _
    show (T.noted (x.calls ++ [(.data which off bytes, er)])).isOpen = true
    rw [hnoted]
    exact h.mark (hmarks ▸ hm)

/-- The callback of a header field or of a URL lets the parser go on. -/
theorem Ready.callbackHeader {which : DataCallback} {last : ℕ} {k : Exec → Flow}
    {I R : Exec → ℕ → Prop} (h : T.Ready x n) (hwhich : which ≠ .body)
    (hk : ∀ z, T.Ready z n → z.parser = x.parser → (k z).Meets I R) :
    (x.callbackData T.reply T.data which last er k).Meets I R := by
  refine Exec.meets_callbackData h.errno (fun _ ↦ hk x h rfl) fun m _ ↦ ⟨fun hstop ↦ ?_, fun _ _ ↦
    hk _ (h.passed hwhich) rfl⟩
  have hreply : T.reply (x.history (Exec.since T.data which m last)) = ⟨0, false⟩ := by
    rw [reply_history]
    cases which with
    | body => exact absurd rfl hwhich
    | _ => rfl
  rw [hreply] at hstop
  simp at hstop

/-- A part of the body leaves the journal as it is, and is a result. -/
theorem Ready.callbackBody {last : ℕ} {k : Exec → Flow} {I : Exec → ℕ → Prop} (h : T.Ready x n)
    (hk : ∀ z, T.Ready z n → z.parser = x.parser → z.marks .body = none → (k z).Meets I T.Left) :
    (x.callbackData T.reply T.data .body last n k).Meets I T.Left := by
  refine Exec.meets_callbackData h.errno (fun hnone ↦ hk x h rfl hnone) fun m hm ↦ ?_
  have hopen : (T.noted x.calls).isOpen = true := h.mark (by rw [hm]; exact nofun)
  have hdat := Journal.deliver_dat h.good.sound hopen
  have hrefuses : T.refuses (x.calls ++ [(Exec.since T.data .body m last, n)]) = false := by
    rw [refuses_concat, h.refuses]
    rfl
  have hafter : (T.after (x.calls ++ [(Exec.since T.data .body m last, n)])).result.type =
      .dat := by
    rw [after_concat]
    show ((T.after x.calls).due _).op.result.type = _
    rw [RequestOp.due_result]
    rfl
  have hnoted : T.noted (x.calls ++ [(Exec.since T.data .body m last, n)]) = T.noted x.calls := by
    have hpassed : (RequestOp.handle T.buffer (T.after x.calls)
        (Exec.since T.data .body m last)).passed = _ := RequestOp.passed_due _ _
    rw [noted_concat, Journal.see, hpassed]
    by_cases hcont : (T.after x.calls).continuous = true
    · rw [if_pos hcont]
      exact hdat
    · rw [if_neg hcont]
      rfl
  have hret : (T.reply (x.history (Exec.since T.data .body m last))).ret = 0 := by
    rw [reply_history]
    exact RequestOp.ret_due _ _
  have hnone : Function.update x.marks .body none .body = none := Function.update_self _ _ _
  refine ⟨fun _ ↦ .paused hrefuses ?_ ?_, fun _ _ ↦
    hk _ ⟨⟨hrefuses, ?_, fun hm ↦ absurd hnone hm⟩, h.errno⟩ rfl hnone⟩
  · show (if _ = 0 then HttpErrno.paused else _) = .paused
    rw [hret]
    rfl
  · show Good _ ((T.noted (x.calls ++ [(Exec.since T.data .body m last, n)])).deliver
      (T.after (x.calls ++ [(Exec.since T.data .body m last, n)])).result.type) _
    rw [hnoted, hafter, hdat]
    exact h.good.congr rfl rfl rfl rfl rfl rfl
  · show Good _ (T.noted (x.calls ++ [(Exec.since T.data .body m last, n)])) x.parser
    rw [hnoted]
    exact h.good

/-- The end of a message pauses the parser. -/
theorem meets_complete {I R : Exec → ℕ → Prop} {k : Exec → Flow} (hok : y.parser.httpErrno = .ok)
    (hR : R
      ((y.goto y.parser.newMessage).stopped T.reply .messageComplete .cbMessageComplete (p + 1))
      (p + 1)) : (y.complete T.reply p k).Meets I R := by
  have hreply : T.reply ((y.goto y.parser.newMessage).history .messageComplete) = ⟨0, true⟩ :=
    reply_history _ _
  rw [Exec.complete]
  refine Exec.meets_notify hok (by decide) (fun _ ↦ hR) fun _ hpause ↦ ?_
  rw [hreply] at hpause
  cases hpause

theorem errno_complete (y : Exec) (n : ℕ) : ((y.goto y.parser.newMessage).stopped T.reply
    .messageComplete .cbMessageComplete n).parser.httpErrno = .paused := by
  have hreply : T.reply ((y.goto y.parser.newMessage).history .messageComplete) = ⟨0, true⟩ :=
    reply_history _ _
  show (if _ = 0 then HttpErrno.paused else _) = .paused
  rw [hreply]
  rfl

theorem noted_complete (l : List (Callback × ℕ)) (n : ℕ) :
    T.noted (l ++ [(.messageComplete, n)]) = T.noted l :=
  noted_concat _ _ _

theorem type_complete (l : List (Callback × ℕ)) (n : ℕ) :
    (T.after (l ++ [(.messageComplete, n)])).result.type = .fin := by
  rw [after_concat]
  rfl

theorem refuses_complete (l : List (Callback × ℕ)) (n : ℕ) :
    T.refuses (l ++ [(.messageComplete, n)]) = T.refuses l := by
  rw [refuses_concat]
  exact Bool.or_false _

/-- The end of a message is a result too. -/
theorem Ready.complete {I : Exec → ℕ → Prop} {k : Exec → Flow} (h : T.Ready x p)
    (he : y.parser.httpErrno = x.parser.httpErrno) (hc : y.calls = x.calls)
    (hu : y.parser.upgrade = x.parser.upgrade) (hopen : (T.noted x.calls).isOpen = true)
    (hstand : (T.stream (p + 1)).stand = .lead)
    (hcount : (T.noted x.calls).requests = (T.stream (p + 1)).heads) :
    (y.complete T.reply p k).Meets I T.Left := by
  refine meets_complete (he.trans h.errno) (.paused ?_ (errno_complete _ _) ?_)
  · show T.refuses (y.calls ++ [(.messageComplete, p + 1)]) = false
    rw [refuses_complete, hc]
    exact h.refuses
  · show Good _ ((T.noted (y.calls ++ [(.messageComplete, p + 1)])).deliver
      (T.after (y.calls ++ [(.messageComplete, p + 1)])).result.type) _
    rw [noted_complete, type_complete, hc]
    refine ⟨?_, h.good.accepted, hu.trans h.good.upgrade, .between ?_ hstand rfl hcount⟩
    · show ((T.noted x.calls).sound && (T.noted x.calls).isOpen) = true
      rw [h.good.sound, hopen]
      rfl
    · show y.parser.newMessage = _ ∨ y.parser.newMessage = _
      rw [Parser.newMessage]
      split
      · exact .inl rfl
      · exact .inr rfl

/-! ### The request line -/

/-- A mark for a part of the header section. -/
theorem Ready.mark_ne (h : T.Ready x p) (which : DataCallback) (hwhich : which ≠ .body) (m : ℕ) :
    T.Ready (x.mark which m) p := by
  have hparser := Exec.parser_mark x which m
  refine h.to (by rw [hparser]) (Exec.calls_mark _ _ _) (Exec.marks_mark_of_ne _ hwhich.symm _)
    (by rw [hparser]) ?_
  rw [hparser]
  exact h.good.place

section Line

variable (h : T.Ready x p) (hs : x.parser.state.inLine = true) (hch : T.data[p]? = some ch)
include h hs hch

/-- Another byte of the request line. -/
theorem Ready.line (hne : ch ≠ LF) (hy : y.Beside x) (hs' : y.parser.state.inLine = true)
    (hq : y.parser.SameBody x.parser) : T.Ready y (p + 1) := by
  obtain ⟨sec, hstand, hreads, ht, hskip, hopen, hcount⟩ := h.good.place.of_inLine hs
  have hreads' := hreads.line hs hne hs' hq
  have hnext : T.stream (p + 1) = { T.stream p with stand := .head (sec.next ch) } := by
    rw [stream_succ hch, Stream.next, hstand]
    dsimp only
    rw [hreads'.fields]
  refine h.to hy.errno hy.calls hy.mark hy.upgrade ?_
  rw [hnext]
  exact .head _ rfl hreads' (hy.trailing.trans ht) (hy.skipbody.trans hskip) hopen hcount

theorem Ready.line_next (hne : ch ≠ LF) (hy : y.Beside x) (hs' : y.parser.state.inLine = true)
    (hq : y.parser.SameBody x.parser) : (Flow.next y (p + 1)).Meets T.Within T.Left :=
  (h.line hs hch hne hy hs' hq).next

/-- The last byte of the request line. -/
theorem Ready.lineEnd (hlf : ch = LF) (hy : y.Beside x) (hs' : y.parser.state = .headerFieldStart)
    (hq : y.parser.SameBody x.parser) : T.Ready y (p + 1) := by
  obtain ⟨sec, hstand, hreads, ht, hskip, hopen, hcount⟩ := h.good.place.of_inLine hs
  have hreads' := hreads.lineEnd hs hs' hq
  have hnext : T.stream (p + 1) = { T.stream p with stand := .head (sec.next LF) } := by
    rw [stream_succ hch, hlf, Stream.next, hstand]
    dsimp only
    rw [hreads'.fields]
  refine h.to hy.errno hy.calls hy.mark hy.upgrade ?_
  rw [hnext]
  exact .head _ rfl hreads' (hy.trailing.trans ht) (hy.skipbody.trans hskip) hopen hcount

theorem Ready.lineEnd_next (hlf : ch = LF) (hy : y.Beside x)
    (hs' : y.parser.state = .headerFieldStart) (hq : y.parser.SameBody x.parser) :
    (Flow.next y (p + 1)).Meets T.Within T.Left :=
  (h.lineEnd hs hch hlf hy hs' hq).next

theorem turn_reqMethod : (x.reqMethod p ch).Meets T.Within T.Left := by
  rw [Exec.reqMethod]
  dsimp only
  split
  · exact h.error rfl (by decide)
  · split
    · next hend =>
      exact h.line_next hs hch (by rw [hend.1]; decide) ⟨rfl, rfl, rfl, rfl, rfl, rfl⟩ rfl
        ⟨rfl, rfl⟩
    · split
      · next hletter =>
        exact h.line_next hs hch (hletter ▸ charAt_ne_LF _ _) ⟨rfl, rfl, rfl, rfl, rfl, rfl⟩ hs
          ⟨rfl, rfl⟩
      · split
        · next hm =>
          exact h.line_next hs hch (ne_LF_of_switchMethod hm) ⟨rfl, rfl, rfl, rfl, rfl, rfl⟩ hs
            ⟨rfl, rfl⟩
        · next e he => exact h.error rfl (fatal_of_switchMethod he)

theorem turn_urlChar : (x.urlChar p ch).Meets T.Within T.Left := by
  rw [Exec.urlChar]
  split
  · exact h.error rfl (by decide)
  · next hne =>
    have hlf : ch ≠ LF := by
      rintro rfl
      exact hne (parseUrlChar_LF _ _)
    exact h.line_next hs hch hlf ⟨rfl, rfl, rfl, rfl, rfl, rfl⟩
      ((parseUrlChar_inLine hs _ _).resolve_right hne) ⟨rfl, rfl⟩

theorem turn_reqSpacesBeforeUrl : (x.reqSpacesBeforeUrl p ch).Meets T.Within T.Left := by
  unfold Exec.reqSpacesBeforeUrl
  split
  · next hspace =>
    exact h.line_next hs hch (by rw [hspace]; decide) ⟨rfl, rfl, rfl, rfl, rfl, rfl⟩ hs ⟨rfl, rfl⟩
  · refine turn_urlChar (h.mark_ne .url nofun p) ?_ hch
    rw [Exec.parser_mark]
    exact hs

theorem turn_reqSchema : (x.reqSchema p ch).Meets T.Within T.Left := by
  rw [Exec.reqSchema]
  split
  · exact h.error rfl (by decide)
  · exact turn_urlChar h hs hch

theorem turn_reqUrl : (x.reqUrl T.reply T.data p ch).Meets T.Within T.Left := by
  have hurl : ∀ y : Exec, T.Ready y (p + 1) →
      (y.callbackData T.reply T.data .url p (p + 1) fun x ↦ .next x (p + 1)).Meets T.Within
        T.Left :=
    fun y hy ↦ hy.callbackHeader nofun fun z hz _ ↦ hz.next
  unfold Exec.reqUrl
  split
  · next hspace =>
    exact hurl _ (h.line hs hch (by rw [hspace]; decide) ⟨rfl, rfl, rfl, rfl, rfl, rfl⟩ rfl
      ⟨rfl, rfl⟩)
  · split
    · next hend =>
      refine hurl _ ?_
      rcases hend with rfl | rfl
      · exact h.line hs hch (by decide) ⟨rfl, rfl, rfl, rfl, rfl, rfl⟩ rfl ⟨rfl, rfl⟩
      · exact h.lineEnd hs hch rfl ⟨rfl, rfl, rfl, rfl, rfl, rfl⟩ rfl ⟨rfl, rfl⟩
    · exact turn_urlChar h hs hch

theorem turn_reqHttpStart : (x.reqHttpStart p ch).Meets T.Within T.Left := by
  rw [Exec.reqHttpStart]
  split
  · next hletter =>
    exact h.line_next hs hch (by rw [hletter]; decide) ⟨rfl, rfl, rfl, rfl, rfl, rfl⟩ rfl ⟨rfl, rfl⟩
  · split
    · next hspace =>
      exact h.line_next hs hch (by rw [hspace]; decide) ⟨rfl, rfl, rfl, rfl, rfl, rfl⟩ hs ⟨rfl, rfl⟩
    · exact h.error rfl (by decide)

theorem turn_strict {c : Byte} {s : State} (hc : c ≠ LF) (hs' : s.inLine = true) :
    (x.strict p ch c s).Meets T.Within T.Left := by
  rw [Exec.strict]
  split
  · exact h.error rfl (by decide)
  · next heq =>
    exact h.line_next hs hch (not_not.1 heq ▸ hc) ⟨rfl, rfl, rfl, rfl, rfl, rfl⟩ hs' ⟨rfl, rfl⟩

theorem turn_reqFirstHttpMajor : (x.reqFirstHttpMajor p ch).Meets T.Within T.Left := by
  rw [Exec.reqFirstHttpMajor]
  split
  · exact h.error rfl (by decide)
  · next hnum =>
    have hlf : ch ≠ LF := by
      rintro rfl
      exact hnum (.inl (by decide))
    exact h.line_next hs hch hlf ⟨rfl, rfl, rfl, rfl, rfl, rfl⟩ rfl ⟨rfl, rfl⟩

theorem turn_reqHttpMajor : (x.reqHttpMajor p ch).Meets T.Within T.Left := by
  rw [Exec.reqHttpMajor]
  dsimp only
  split
  · next hdot =>
    exact h.line_next hs hch (by rw [hdot]; decide) ⟨rfl, rfl, rfl, rfl, rfl, rfl⟩ rfl ⟨rfl, rfl⟩
  · split
    · exact h.error rfl (by decide)
    · next hnum =>
      split
      · exact h.error rfl (by decide)
      · exact h.line_next hs hch (ne_LF_of_isNum hnum) ⟨rfl, rfl, rfl, rfl, rfl, rfl⟩ hs ⟨rfl, rfl⟩

theorem turn_reqFirstHttpMinor : (x.reqFirstHttpMinor p ch).Meets T.Within T.Left := by
  rw [Exec.reqFirstHttpMinor]
  split
  · exact h.error rfl (by decide)
  · next hnum =>
    exact h.line_next hs hch (ne_LF_of_isNum hnum) ⟨rfl, rfl, rfl, rfl, rfl, rfl⟩ rfl ⟨rfl, rfl⟩

theorem turn_reqHttpMinor : (x.reqHttpMinor p ch).Meets T.Within T.Left := by
  unfold Exec.reqHttpMinor
  dsimp only
  split
  · next hcr =>
    exact h.line_next hs hch (by rw [hcr]; decide) ⟨rfl, rfl, rfl, rfl, rfl, rfl⟩ rfl ⟨rfl, rfl⟩
  · split
    · next hlf =>
      exact h.lineEnd_next hs hch hlf ⟨rfl, rfl, rfl, rfl, rfl, rfl⟩ rfl ⟨rfl, rfl⟩
    · next hlf =>
      split
      · exact h.error rfl (by decide)
      · split
        · exact h.error rfl (by decide)
        · exact h.line_next hs hch hlf ⟨rfl, rfl, rfl, rfl, rfl, rfl⟩ hs ⟨rfl, rfl⟩

theorem turn_reqLineAlmostDone : (x.reqLineAlmostDone p ch).Meets T.Within T.Left := by
  unfold Exec.reqLineAlmostDone
  split
  · exact h.error rfl (by decide)
  · next hlf =>
    exact h.lineEnd_next hs hch (not_not.1 hlf) ⟨rfl, rfl, rfl, rfl, rfl, rfl⟩ rfl ⟨rfl, rfl⟩

/-- **The request line.** -/
theorem turn_line : (x.step T.reply T.data p ch).Meets T.Within T.Left := by
  have hline := hs
  rw [Exec.step]
  cases hstate : x.parser.state with
  | reqMethod => exact turn_reqMethod h hs hch
  | reqSpacesBeforeUrl => exact turn_reqSpacesBeforeUrl h hs hch
  | reqSchema | reqSchemaSlash | reqSchemaSlashSlash => exact turn_reqSchema h hs hch
  | reqSchemaSlashSlashEnd | reqHost | reqPortStart | reqPort | reqPath | reqQueryStringStart
  | reqQueryString | reqFragmentStart | reqFragment => exact turn_reqUrl h hs hch
  | reqHttpStart => exact turn_reqHttpStart h hs hch
  | reqHttpH | reqHttpHT | reqHttpHTT | reqHttpHTTP => exact turn_strict h hs hch (by decide) rfl
  | reqFirstHttpMajor => exact turn_reqFirstHttpMajor h hs hch
  | reqHttpMajor => exact turn_reqHttpMajor h hs hch
  | reqFirstHttpMinor => exact turn_reqFirstHttpMinor h hs hch
  | reqHttpMinor => exact turn_reqHttpMinor h hs hch
  | reqLineAlmostDone => exact turn_reqLineAlmostDone h hs hch
  | _ =>
    -- not a state of the request line
    rw [hstate] at hline
    exact absurd hline (by decide)

end Line

end Turn

end JnetLib.Http
