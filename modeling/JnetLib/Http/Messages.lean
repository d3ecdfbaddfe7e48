import JnetLib.Http.BodyTurn

/-!
# Results in their order

An `http_socket` over the bundled parser, with the journal of its results. Behind every step of a
run without an error, the results delivered are those of the bytes consumed, read apart from the
parser: for each header section that has ended one `req`, for each body that has ended one `fin`, in
turn, with any number of parts of the body between them; no message has begun inside the body of
another; and no result has come behind a rejected URL.

That holds as long as no URL is rejected and the parser cannot take what is written in a header
section for anything else; in a run of the second kind it holds exactly as long as no URL is
rejected (`Journaled.framed_throughout_iff`, which rests on `Turn.left_execute`).

The results are those of a build with `NDEBUG`. The default build has the assertion of
`parse_url_char`, so a tab, a vertical tab or a form feed in a URL, or any of these, `CR` or `LF`
right behind the spaces after the method, stops the process where the parser would return an error.
-/

namespace JnetLib.Http

/-! ### The journal of a socket -/

namespace Journal

/-- After a rejected URL there is nothing but an error, and the results are those of the bytes read
in `s`. -/
def check (j : Journal) (s : Stream) : Journal :=
  { j with sound := j.sound && !j.rejected && j.isSettled s }

/-- What the caller sees at the end of a step. -/
def close {P : Type*} (j : Journal) (t : Reception P) : Journal :=
  match t.phase with
  | .failed _ => j
  | .delivered => (j.deliver t.result.type).check (.read t.consumed)
  | .fresh | .receiving _ _ _ => j.check (.read t.consumed)

theorem check_eq {j : Journal} {s : Stream} {q : Parser} (h : Good s j q) : j.check s = j := by
  have hsound : (j.sound && !j.rejected && j.isSettled s) = j.sound := by
    rw [h.accepted, h.place.isSettled, Bool.not_false, Bool.and_true, Bool.and_true]
  exact congrArg (fun b ↦ { j with sound := b }) hsound

end Journal

/-- A socket over the bundled parser, with its journal. -/
structure Journaled where
  socket : Reception Parser
  journal : Journal

namespace Journaled

/-- A new socket. -/
def start (memory : ℕ → Byte) : Journaled := ⟨.start .init memory, .start⟩

/-- The journal of the callbacks of a step. -/
def seen (s : Journaled) (e : ReceptionEvent) : Journal :=
  match s.socket.input e with
  | none => s.journal
  | some (buffer, op, data) =>
    s.journal.after s.socket.consumed data buffer op (s.socket.calls e)

/-- A step of the socket, with its callbacks in the journal. -/
def step (s : Journaled) (e : ReceptionEvent) : Option Journaled :=
  (s.socket.step e).map fun t ↦ ⟨t, (s.seen e).close t⟩

/-- No URL is rejected, but those of requests that ask for another protocol. -/
def Accepted (s : Journaled) (e : ReceptionEvent) : Prop :=
  ∀ i ∈ s.socket.input e, i.2.1.refusesAny i.1 ((s.socket.calls e).map Prod.fst) = false

/-- The parser cannot take what is written there for anything else: where it calls
`on_headers_complete`, but for requests that ask for another protocol, the header section is
unambiguous; and the sizes of chunks are no larger than it can store. -/
def Legible (s : Journaled) (e : ReceptionEvent) : Prop :=
  ∀ i ∈ s.socket.input e,
    (∀ a ∈ s.socket.calls e, a.1.keepsProtocol = true →
      Unambiguous (Stream.read (s.socket.consumed ++ i.2.2.take a.2)).fields) ∧
    ∀ k ≤ i.2.2.length, (Stream.read (s.socket.consumed ++ i.2.2.take k)).Fits

instance (s : Journaled) (e : ReceptionEvent) : Decidable (s.Legible e) :=
  inferInstanceAs (Decidable (∀ i ∈ s.socket.input e,
    (∀ a ∈ s.socket.calls e, a.1.keepsProtocol = true →
      Unambiguous (Stream.read (s.socket.consumed ++ i.2.2.take a.2)).fields) ∧
    ∀ k ≤ i.2.2.length, (Stream.read (s.socket.consumed ++ i.2.2.take k)).Fits))

instance (s : Journaled) (e : ReceptionEvent) : Decidable (s.Accepted e) :=
  inferInstanceAs (Decidable (∀ i ∈ s.socket.input e,
    i.2.1.refusesAny i.1 ((s.socket.calls e).map Prod.fst) = false))

/-! ### One call of the parser -/

/-- The good states of a socket, and those after an error. -/
inductive GoodOrFailed (s : Journaled) : Prop
  | failed (ec : ErrorCode) (hphase : s.socket.phase = .failed ec) (hsound : s.journal.sound = true)
  | running (hphase : ∀ ec, s.socket.phase ≠ .failed ec)
      (herr : s.socket.parser.httpErrno = .ok ∨ s.socket.parser.httpErrno = .paused)
      (hop : ∀ op buffer len, s.socket.phase = .receiving op buffer len →
        op.messageComplete = false)
      (hgood : Good (.read s.socket.consumed) s.journal s.socket.parser)

theorem GoodOrFailed.sound {s : Journaled} (h : GoodOrFailed s) : s.journal.sound = true := by
  cases h with
  | failed _ _ hsound => exact hsound
  | running _ _ _ hgood => exact hgood.sound

section Execute

variable {T : Turn} {r t : Reception Parser} {bytes n : ℕ} {x : Exec}

/-- The completion ends as the call of the parser has. -/
structure Ends (T : Turn) (x : Exec) (n : ℕ) (t : Reception Parser) : Prop where
  parser : t.parser = x.parser
  consumed : .read t.consumed = T.stream n
  failed : x.parser.httpErrno.Fatal ∨ x.parser.upgrade = true → ∃ ec, t.phase = .failed ec
  delivered : x.parser.httpErrno = .paused → x.parser.upgrade = false →
    t.phase = .delivered ∧ t.result.type = (T.after x.calls).result.type
  receiving : x.parser.httpErrno = .ok → x.parser.upgrade = false →
    (∃ buffer len, t.phase = .receiving (T.after x.calls) buffer len) ∧
      (T.after x.calls).messageComplete = false

theorem ends_execute (hdata : read r.memory T.buffer bytes = T.data)
    (hbefore : r.consumed = T.before) (hc : T.op.messageComplete = false)
    (hok : r.parser.httpErrno = .ok) (hx : r.parser.execute T.reply T.data = (x, n)) :
    Ends T x n (r.execute T.op T.buffer bytes) := by
  have hnot : x.parser.httpErrno = .ok → (T.after x.calls).messageComplete = false := fun he ↦ by
    have hmem : .messageComplete ∉ (r.parser.execute T.reply T.data).1.calls.map Prod.fst :=
      Parser.notMem_of_ok (T.op.answers_pausesAtEnd T.buffer) hok (by rw [hx]; exact he)
    rw [hx] at hmem
    rw [Turn.after, RequestOp.handleAll_messageComplete_of_notMem T.buffer T.op hmem, hc]
  have hr : HttpParser.execute r.parser (T.op.answers T.buffer) (read r.memory T.buffer bytes) =
      (x.parser, n, x.calls) := by
    rw [hdata]
    exact congrArg (fun y : Exec × ℕ ↦ (y.1.parser, y.2, y.1.calls)) hx
  obtain ⟨hparser, hconsumed, hphase⟩ := r.execute_cases T.op T.buffer bytes hr
  rw [hdata, hbefore] at hconsumed
  change (_ ∧ (x.parser.upgrade = true ∨ x.parser.httpErrno.Fatal)) ∨
    (_ ∧ _ ∧ x.parser.upgrade = false ∧ (x.parser.httpErrno = .paused ∨
      x.parser.httpErrno = .ok ∧ (T.after x.calls).messageComplete = true)) ∨
    (_ ∧ x.parser.upgrade = false ∧ x.parser.httpErrno = .ok ∧ _) at hphase
  refine ⟨hparser, congrArg Stream.read hconsumed, ?_, ?_, ?_⟩
  · intro he
    rcases hphase with ⟨hfailed, -⟩ | ⟨-, -, hup, he' | ⟨he', -⟩⟩ | ⟨-, hup, he', -⟩
    · exact hfailed
    · simp [he', hup, HttpErrno.Fatal] at he
    · simp [he', hup, HttpErrno.Fatal] at he
    · simp [he', hup, HttpErrno.Fatal] at he
  · intro he hup
    rcases hphase with ⟨-, hup' | he'⟩ | ⟨hdelivered, htype, -⟩ | ⟨-, -, he', -⟩
    · rw [hup] at hup'
      cases hup'
    · exact absurd he he'.2
    · exact ⟨hdelivered, htype⟩
    · rw [he'] at he
      cases he
  · intro he hup
    rcases hphase with ⟨-, hup' | he'⟩ | ⟨-, -, -, he' | ⟨-, hc'⟩⟩ | ⟨hreceiving, -⟩
    · rw [hup] at hup'
      cases hup'
    · exact absurd he he'.1
    · rw [he'] at he
      cases he
    · exact absurd ((hnot he).symm.trans hc') Bool.false_ne_true
    · exact ⟨hreceiving, hnot he⟩

/-- **Where no URL is rejected**, all is well after the call. -/
theorem Ends.goodOrFailed (h : Ends T x n t) (hleft : T.Left x n)
    (hrefuses : T.refuses x.calls = false) :
    GoodOrFailed ⟨t, (T.noted x.calls).close t⟩ := by
  cases hleft with
  | failed _ hsound he =>
    obtain ⟨ec, hphase⟩ := h.failed he
    refine .failed ec hphase ?_
    rw [Journal.close, hphase]
    exact hsound
  | ok _ he hgood =>
    obtain ⟨⟨buffer, len, hphase⟩, hc⟩ := h.receiving he hgood.upgrade
    refine .running (fun ec hfailed ↦ ?_) (.inl (h.parser ▸ he)) (fun op b k hreceiving ↦ ?_) ?_
    · cases hphase.symm.trans hfailed
    · obtain ⟨rfl, -, -⟩ := Phase.receiving.inj (hphase.symm.trans hreceiving)
      exact hc
    · rw [Journal.close, hphase, h.parser, h.consumed]
      exact (Journal.check_eq hgood).symm ▸ hgood
  | paused _ he hgood =>
    obtain ⟨hphase, htype⟩ := h.delivered he hgood.upgrade
    refine .running (fun ec hfailed ↦ ?_) (.inr (h.parser ▸ he)) (fun op b k hreceiving ↦ ?_) ?_
    · cases hphase.symm.trans hfailed
    · cases hphase.symm.trans hreceiving
    · rw [Journal.close, hphase, h.parser, h.consumed, htype]
      exact (Journal.check_eq hgood).symm ▸ hgood
  | refused h => rw [hrefuses] at h; cases h

/-- **A rejected URL** leads to a `fin` without a `req`. -/
theorem Ends.not_sound (h : Ends T x n t) (hleft : T.Left x n)
    (hrefuses : T.refuses x.calls = true) : ((T.noted x.calls).close t).sound = false := by
  cases hleft with
  | refused _ he hup hopen htype =>
    obtain ⟨hphase, htype'⟩ := h.delivered he hup
    rw [Journal.close, hphase, htype', htype]
    show (((_ && (T.noted x.calls).isOpen) && _) && _) = false
    rw [hopen, Bool.and_false, Bool.false_and, Bool.false_and]
  | failed h => rw [hrefuses] at h; cases h
  | ok h => rw [hrefuses] at h; cases h
  | paused h => rw [hrefuses] at h; cases h

end Execute

/-! ### Runs -/

/-- A completion: an error, or a call of the parser, which rejects a URL or does not. -/
theorem received_cases {s t : Journaled} {ec : ErrorCode} {data : List Byte} (hs : GoodOrFailed s)
    (hlegible : s.Legible (.received ec data))
    (hstep : s.step (.received ec data) = some t) :
    (s.Accepted (.received ec data) → GoodOrFailed t) ∧
      (¬s.Accepted (.received ec data) → t.journal.sound = false) := by
  obtain ⟨u, hu, rfl⟩ := Option.map_eq_some_iff.1 hstep
  obtain ⟨op, buffer, len, hphase, h⟩ := Reception.step_received hu
  rcases h with ⟨hnone, hfailed⟩ | ⟨r, bytes, hready, hconsumed, hsome, rfl⟩
  · -- an error of the transport
    refine ⟨fun _ ↦ .failed ec hfailed ?_, fun hno ↦ absurd ?_ hno⟩
    · rw [Journal.close, hfailed, seen, hnone]
      exact hs.sound
    · rw [Accepted, hnone]
      exact nofun
  · cases hs with
    | failed ec hfailed => rw [hfailed] at hphase; cases hphase
    | running _ herr hop hgood =>
      have hr : r.parser = { s.socket.parser with httpErrno := .ok } :=
        hready.trans (Parser.resume_eq herr)
      have hok : r.parser.httpErrno = .ok := by rw [hr]
      set T : Turn := ⟨buffer, { op with initBufLen := 0 }, s.socket.consumed,
        read r.memory buffer bytes, s.journal⟩ with hT
      have hgood' : Good (.read T.before) T.journal r.parser := by
        rw [hr]
        exact hgood.congr rfl rfl rfl rfl rfl rfl
      have hends := ends_execute (T := T) (r := r) rfl hconsumed (hop op buffer len hphase) hok rfl
      have hcalls : s.socket.calls (.received ec data) =
          (r.parser.execute T.reply T.data).1.calls := by
        rw [Reception.calls, hsome, hready]
        rfl
      obtain ⟨hsections, hfits⟩ := hlegible _ hsome
      rw [hcalls] at hsections
      have hleft := Turn.left_execute (T := T) hok hgood' hfits hsections
      have hseen : s.seen (.received ec data) =
          T.noted (r.parser.execute T.reply T.data).1.calls := by
        rw [seen, hsome, hcalls]
        rfl
      have haccepted : s.Accepted (.received ec data) ↔
          T.refuses (r.parser.execute T.reply T.data).1.calls = false := by
        simp only [Accepted, hsome, hcalls, Option.mem_some_iff, forall_eq']
        exact Iff.rfl
      rw [hseen]
      exact ⟨fun h ↦ hends.goodOrFailed hleft (haccepted.1 h),
        fun h ↦ hends.not_sound hleft (Bool.of_not_eq_false (mt haccepted.2 h))⟩

theorem not_sound_step {s t : Journaled} {e : ReceptionEvent} (hs : GoodOrFailed s)
    (hl : s.Legible e)
    (he : ¬s.Accepted e) (hstep : s.step e = some t) : t.journal.sound = false := by
  cases e with
  | call continuous request buf bufLen lastFieldOrValue => exact absurd nofun he
  | received ec data => exact (received_cases hs hl hstep).2 he

/-- A request for `uri` with the header lines `lines`, and a body of eighteen bytes that is itself a
request. -/
def requestInside (uri lines : List Byte) : List Byte :=
  ascii ['P', 'O', 'S', 'T', ' '] ++ uri ++
    ascii [' ', 'H', 'T', 'T', 'P', '/', '1', '.', '1'] ++ [CR, LF] ++ lines ++ [CR, LF] ++
    oneRequest

/-- The name of a `Content-Length` with its colon. -/
def lengthLine : List Byte :=
  ascii ['C', 'o', 'n', 't', 'e', 'n', 't', '-', 'L', 'e', 'n', 'g', 't', 'h', ':']

/-- A length of eighteen whose digits are on a line of their own, behind a fold. -/
def eighteenFolded : List Byte := lengthLine ++ [CR, LF] ++ ascii [' ', '1', '8'] ++ [CR, LF]

/-- A call with an empty request object. -/
def nextCall : ReceptionEvent := .call false ⟨[], [], .zero, 0, 0, []⟩ 128 128 0

/-- The request received at once, and what is left over of it passed on to a second call. -/
def twoResults (bytes : List Byte) : List ReceptionEvent :=
  [nextCall, .received .noError bytes, nextCall, .received .noError []]

/-- A `Content-Length` on two lines: the parser drops the number, so the `fin` follows the `req` at
once, and the result of a third call is the `req` of the request in the body. No URL is rejected. -/
theorem not_framed_of_folded :
    Transition.RunMeets step Accepted (start fun _ ↦ 0)
        (twoResults (requestInside (ascii ['/']) eighteenFolded)) ∧
      (Transition.run step (start fun _ ↦ 0)
        (twoResults (requestInside (ascii ['/']) eighteenFolded))).map
        (fun t ↦ (t.socket.result.type, t.socket.result.remainLength, t.journal.sound)) =
          some (.fin, 18, false) ∧
      (Transition.run step (start fun _ ↦ 0)
        (twoResults (requestInside (ascii ['/']) eighteenFolded) ++
          [nextCall, .received .noError []])).map
        (fun t ↦ t.socket.result.type) = some .req := by
  refine ⟨by decide +kernel, by decide +kernel, by decide +kernel⟩

end Journaled

end JnetLib.Http
