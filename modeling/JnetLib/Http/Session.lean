import JnetLib.Http.Served

/-!
# What a caller in continuous mode is given

`Session` is a socket with what the caller has been given so far, message by message.
`messages_of_run` says that a session does with the bytes consumed just what serving them does,
however the transport has cut them, wherever the buffers are and whatever the request objects held.
Two sessions on the same bytes give their callers the same messages (`messages_agree`).

`AsServed` puts the calls of the parser together, each of which is `next_served`. A call that ends
in an error has consumed some bytes that are not told; the messages before it are
(`AsServed.messages`).

A session out of continuous mode is not covered: there a new operation, with a request object of its
own, takes over at every result.
-/

namespace JnetLib.Http

/-- A socket, what the caller has been given of the message being received, and of the messages that
have ended. -/
structure Session where
  socket : Reception Parser
  given : Given
  messages : List Given

namespace Session

/-- A new socket. -/
def start (memory : ℕ → Byte) : Session := ⟨.start .init memory, .nothing, []⟩

/-- What the caller has been given behind a step. -/
def hears (s : Session) (e : ReceptionEvent) : Given :=
  match s.socket.input e with
  | none => s.given
  | some (buffer, op, _) => s.given.hearAll buffer op ((s.socket.calls e).map Prod.fst)

/-- A result of `receive_callback` ends a message, one passed on from inside the parser does not. -/
def take (t : Reception Parser) (g : Given) (messages : List Given) : Session :=
  match t.phase with
  | .delivered => ⟨t, g, messages ++ [g]⟩
  | _ => ⟨t, g, messages⟩

/-- A step of the socket, with what the caller has been given behind it. -/
def step (s : Session) (e : ReceptionEvent) : Option Session :=
  (s.socket.step e).map fun t ↦ take t (s.hears e) s.messages

/-- Calls are made in continuous mode. -/
def Continuous : ReceptionEvent → Prop
  | .call continuous _ _ _ _ => continuous = true
  | .received _ _ => True

/-- The number of bytes the call under way has from the one before. -/
def left (s : Session) : ℕ :=
  match s.socket.phase with
  | .receiving op _ _ => op.initBufLen
  | _ => 0

/-- The transport reports no error, and brings bytes when it is asked for some. -/
def Supplies (s : Session) : ReceptionEvent → Prop
  | .call _ _ _ _ _ => True
  | .received ec data => ec.isError = false ∧ (data = [] → s.left ≠ 0)

instance : DecidablePred Continuous
  | .call continuous _ _ _ _ => inferInstanceAs (Decidable (continuous = true))
  | .received _ _ => isTrue trivial

instance (s : Session) : DecidablePred s.Supplies
  | .call _ _ _ _ _ => isTrue trivial
  | .received _ _ => inferInstanceAs (Decidable (_ ∧ (_ → _)))

/-- What a session has done with the bytes consumed. If the transport does nothing but supply bytes,
an error is that of a stream the parser does not go on with. -/
inductive AsServed (supplied : Prop) (s : Session) : Prop
  | between (hphase : s.socket.phase = .fresh ∨ s.socket.phase = .delivered)
      (hparser : s.socket.ready = (serve s.socket.consumed).parser)
      (hfit : (serve s.socket.consumed).parser.Fit)
      (hidle : (serve s.socket.consumed).parser.state.idle = true)
      (hmessages : s.messages = (serve s.socket.consumed).messages)
  | receiving (op : RequestOp) (buffer len : ℕ) (hphase : s.socket.phase = .receiving op buffer len)
      (hop : op.continuous = true) (hc : op.messageComplete = false)
      (hagrees : Fed.Agrees ⟨s.socket.ready, op.assembly s.given, 0⟩ (serve s.socket.consumed).fed)
      (hfits : Fed.Fits assembler ⟨s.socket.ready, op.assembly s.given, 0⟩)
      (hmessages : s.messages = (serve s.socket.consumed).messages)
  | failed (ec : ErrorCode) (hphase : s.socket.phase = .failed ec)
      (hmessages : ∃ l, l <+: s.socket.received ∧ s.messages = (serve l).messages)
      (hstuck : supplied → (serve s.socket.received).Stuck)

variable {supplied : Prop}

variable {s t : Session} {memory : ℕ → Byte}

theorem take_of_ne {t : Reception Parser} (h : t.phase ≠ .delivered) (g : Given)
    (messages : List Given) : take t g messages = ⟨t, g, messages⟩ := by
  rw [take]
  split
  · next hd => exact absurd hd h
  · rfl

theorem take_of_delivered {t : Reception Parser} (h : t.phase = .delivered) (g : Given)
    (messages : List Given) : take t g messages = ⟨t, g, messages ++ [g]⟩ := by
  rw [take, h]

theorem take_socket (t : Reception Parser) (g : Given) (messages : List Given) :
    (take t g messages).socket = t := by
  rw [take]
  split <;> rfl

theorem asServed_start (memory : ℕ → Byte) : AsServed supplied (start memory) :=
  .between (.inl rfl) rfl ⟨rfl, rfl, by rintro (h | h) <;> cases h⟩ rfl rfl

theorem received_execute (s : Reception Parser) (op : RequestOp) (buffer bytes : ℕ) :
    (s.execute op buffer bytes).received = s.received := by
  unfold Reception.execute
  extract_lets data r op' err s'
  have hs : s'.received = s.received := rfl
  split
  · exact hs
  · split <;> exact hs

/-- A call of the parser tells the caller's assembly what it tells the caller. -/
theorem next_execute {q : Parser} {op : RequestOp} {g : Given} {data : List Byte}
    (hok : q.httpErrno = .ok) (hop : op.continuous = true) (buffer : ℕ)
    {x : Parser × ℕ × List (Callback × ℕ)}
    (hx : HttpParser.execute q (op.answers buffer) data = x) :
    assembler.next ⟨q, op.assembly g, 0⟩ data =
      ⟨x.1, (op.handleAll buffer (x.2.2.map Prod.fst)).assembly
        (g.hearAll buffer op (x.2.2.map Prod.fst)), x.2.1⟩ := by
  obtain ⟨htold, -⟩ := handleAll_assembly buffer hop g (x.2.2.map Prod.fst)
  rw [assembler.next_of_ok hok, ← answers_assembly buffer hop g, htold, ← hx]
  exact congrArg (Fed.mk _ _) (Nat.zero_add _)

/-- A parser paused between messages is ready for the next one. -/
theorem fit_unpause {q : Parser} (hpaused : q.httpErrno = .paused) (hupgrade : q.upgrade = false)
    (hidle : q.state.idle = true) : q.unpause.Fit ∧ q.unpause.state.idle = true := by
  rw [Parser.unpause, if_pos (.inr hpaused)]
  refine ⟨⟨rfl, hupgrade, fun hs ↦ ?_⟩, hidle⟩
  rcases hs with hs | hs <;>
  · rw [show q.state = _ from hs] at hidle
    cases hidle

/-- What the bytes of one call do. -/
theorem asServed_execute {r : Reception Parser} {op : RequestOp} {g : Given} {messages : List Given}
    (hop : op.continuous = true) (hc : op.messageComplete = false)
    (hagrees : Fed.Agrees ⟨r.parser, op.assembly g, 0⟩ (serve r.consumed).fed)
    (hfits : Fed.Fits assembler ⟨r.parser, op.assembly g, 0⟩)
    (hmessages : messages = (serve r.consumed).messages) (buffer bytes : ℕ)
    (hreceived : r.consumed ++ read r.memory buffer bytes = r.received)
    (hbytes : supplied → bytes ≠ 0)
    {x : Parser × ℕ × List (Callback × ℕ)}
    (hx : HttpParser.execute r.parser (op.answers buffer) (read r.memory buffer bytes) = x) :
    AsServed supplied
      (take (r.execute op buffer bytes) (g.hearAll buffer op (x.2.2.map Prod.fst)) messages) := by
  obtain ⟨hparser, hconsumed, hcases⟩ := r.execute_cases op buffer bytes hx
  obtain ⟨-, hop'⟩ := handleAll_assembly buffer hop g (x.2.2.map Prod.fst)
  have hlength : (read r.memory buffer bytes).length = bytes := length_read _ _ _
  generalize hdata : read r.memory buffer bytes = data at hx hconsumed hreceived hlength
  obtain ⟨hgoes, hends, hstuck⟩ :=
    next_served hagrees hfits (next_execute hfits.errno hop buffer hx)
  rcases hcases with ⟨⟨ec, hphase⟩, herr⟩ | ⟨hphase, -, hup, herr⟩ |
    ⟨⟨buffer', len, hphase⟩, hup, herr, hc'⟩
  · rw [take_of_ne fun h ↦ by rw [hphase] at h; cases h]
    refine .failed ec hphase ⟨r.consumed, ?_, hmessages⟩ fun hsupplied ↦ ?_
    · rw [received_execute, ← hreceived]
      exact List.prefix_append _ _
    · have hne : data ≠ [] := fun hnil ↦ hbytes hsupplied (by rw [← hlength, hnil]; rfl)
      rw [received_execute, ← hreceived, serve_append]
      refine hstuck hne (fun hok ↦ ?_) fun hpaused ↦ ?_
      · refine herr.elim (fun hup ↦ ?_) fun h ↦ h.1 hok
        obtain ⟨-, -, -, -, hfits'⟩ := hgoes hok
        exact Bool.false_ne_true (hfits'.upgrade.symm.trans hup)
      · exact herr.resolve_right fun h ↦ h.2 hpaused
  · have hpaused : errno x.1 = .paused := herr.resolve_right fun h ↦ by
      obtain ⟨hok, hcomplete⟩ := h
      rw [← hx] at hok
      have hnot := Parser.notMem_of_ok (op.answers_pausesAtEnd buffer) hfits.errno hok
      rw [RequestOp.handleAll_messageComplete buffer _ hc, ← hx] at hcomplete
      exact hnot hcomplete
    obtain ⟨hidle, hserved⟩ := hends hpaused hup
    rw [take_of_delivered hphase]
    have hserve : serve (r.execute op buffer bytes).consumed = ⟨x.1.unpause,
        (op.handleAll buffer (x.2.2.map Prod.fst)).assembly
          (g.hearAll buffer op (x.2.2.map Prod.fst)),
        (serve r.consumed).messages ++ [g.hearAll buffer op (x.2.2.map Prod.fst)]⟩ := by
      rw [hconsumed, serve_append, hserved]
      rfl
    have hready : (r.execute op buffer bytes).ready = x.1.unpause := by
      rw [Reception.ready, hparser, if_pos hpaused]
      rfl
    obtain ⟨hfit, hidle'⟩ := fit_unpause hpaused hup hidle
    refine .between (.inr hphase) ?_ ?_ ?_ ?_
    · rw [hserve, hready]
    · rw [hserve]
      exact hfit
    · rw [hserve]
      exact hidle'
    · rw [hserve, hmessages]
  · obtain ⟨w, hserved, hw, hagrees', hfits'⟩ := hgoes herr
    have hserve : serve (r.execute op buffer bytes).consumed = w := by
      rw [hconsumed, serve_append, hserved]
    have hready : (r.execute op buffer bytes).ready = x.1 := by
      rw [Reception.ready, hparser, if_neg fun h ↦ by rw [herr] at h; cases h]
    rw [take_of_ne fun h ↦ by rw [hphase] at h; cases h]
    refine .receiving _ buffer' len hphase hop' hc' ?_ ?_ ?_
    · rw [hserve, hready]
      exact hagrees'
    · rw [hready]
      exact hfits'
    · rw [hserve, hw]
      exact hmessages

/-- Everything consumed has been received. -/
theorem consumed_prefix {s : Reception Parser} (h : s.Situation)
    (hne : ∀ ec, s.phase ≠ .failed ec) :
    s.consumed <+: s.received := by
  cases h with
  | fresh hphase hends h => exact ⟨_, h⟩
  | pending op hphase hinit hc hends h => exact ⟨_, h⟩
  | receiving op buffer len hphase hinit hc hends h => exact h ▸ List.prefix_refl _
  | delivered hphase hends hfin h => exact ⟨_, h⟩
  | failed ec hphase => exact absurd hphase (hne ec)

/-- A completion with bytes calls the parser with all that has not been consumed. -/
theorem step_supplied {s t : Reception Parser} (hs : s.Situation) {ec : ErrorCode}
    {data : List Byte}
    (hstep : s.step (.received ec data) = some t) {op : RequestOp} {buffer len : ℕ}
    (hphase : s.phase = .receiving op buffer len) :
    (ec.isError = true ∧ t.phase = .failed ec ∧ s.received <+: t.received) ∨
      ∃ (r : Reception Parser) (bytes : ℕ), r.parser = s.ready ∧ r.consumed = s.consumed ∧
        r.consumed ++ read r.memory buffer bytes = r.received ∧
          (bytes = 0 → data = [] ∧ op.initBufLen = 0) ∧
          s.input (.received ec data) =
            some (buffer, { op with initBufLen := 0 }, read r.memory buffer bytes) ∧
          t = r.execute { op with initBufLen := 0 } buffer bytes := by
  rw [Reception.step, hphase] at hstep
  obtain ⟨hle, ht⟩ := Option.ite_none_right_eq_some.1 hstep
  obtain rfl := Option.some.inj ht
  rw [Reception.input, hphase, Reception.receiveCallback]
  dsimp only
  by_cases herr : ec.isError = true
  · rw [if_pos herr]
    exact .inl ⟨herr, rfl, List.prefix_append _ _⟩
  · rw [if_neg herr, if_neg herr]
    refine .inr ⟨_, _, ?_, ?_, ?_, ?_, ?_, rfl⟩ <;> try rfl
    · -- what has not been consumed is the leftover, or what the transport has brought
      cases hs with
      | pending op' hphase' hinit hc hends h =>
        obtain ⟨rfl, rfl, rfl⟩ := Phase.receiving.inj (hphase.symm.trans hphase')
        obtain rfl := List.length_eq_zero_iff.1 (Nat.le_zero.1 hle)
        rw [if_pos hinit, write_nil, List.append_nil]
        exact h
      | receiving op' buffer' len' hphase' hinit hc hends h =>
        obtain ⟨rfl, rfl, rfl⟩ := Phase.receiving.inj (hphase.symm.trans hphase')
        rw [if_neg (not_not.2 hinit), read_write]
        exact congrArg (· ++ data) h
      | fresh hphase' | delivered hphase' | failed ec' hphase' =>
        rw [hphase] at hphase'
        cases hphase'
    · by_cases hinit : op.initBufLen = 0
      · rw [if_neg (not_not.2 hinit)]
        exact fun h ↦ ⟨List.length_eq_zero_iff.1 h, hinit⟩
      · rw [if_pos hinit]
        exact fun h ↦ absurd h hinit

/-- **Every step keeps the session as served**: it has done with the bytes consumed what serving
them does. -/
theorem asServed_step {e : ReceptionEvent} (hs : AsServed supplied s) (hsocket : s.socket.Situation)
    (he : Continuous e) (hsupplied : supplied → s.Supplies e) (hstep : s.step e = some t) :
    AsServed supplied t := by
  obtain ⟨t', ht', rfl⟩ := Option.map_eq_some_iff.1 hstep
  cases e with
  | call continuous request buf bufLen lastFieldOrValue =>
    obtain rfl : continuous = true := he
    obtain ⟨hphase, hparser, hconsumed, op, buffer, len, hphase', hop, hc⟩ :=
      Reception.step_call ht'
    have hready : t'.ready = s.socket.ready := by rw [Reception.ready, hparser, Reception.ready]
    cases hs with
    | between _ hready' hfit hidle hmessages =>
      rw [take_of_ne (by rw [hphase']; exact nofun)]
      refine .receiving op buffer len hphase' hop hc ?_ ?_ ?_
      · rw [hready, hconsumed, hready']
        exact agrees_of_idle hfit hidle _ _
      · rw [hready, hready']
        exact fits_of_idle hfit hidle _
      · rw [hconsumed]
        exact hmessages
    | receiving op buffer len h =>
      rw [h] at hphase
      exact absurd hphase (by simp)
    | failed ec h =>
      rw [h] at hphase
      exact absurd hphase (by simp)
  | received ec data =>
    obtain ⟨op, buffer, len, hphase, -⟩ := Reception.step_received ht'
    cases hs with
    | between h =>
      rw [hphase] at h
      exact absurd h (by simp)
    | receiving op' buffer' len' h hop hc hagrees hfits hmessages =>
      obtain ⟨rfl, rfl, rfl⟩ := Phase.receiving.inj (hphase.symm.trans h)
      have hprefix : s.socket.consumed <+: s.socket.received :=
        consumed_prefix hsocket (by rw [hphase]; exact nofun)
      rcases step_supplied hsocket ht' hphase with ⟨herr, hfailed, hreceived⟩ |
        ⟨r, bytes, hparser, hconsumed, hreceived, hbytes, hinput, rfl⟩
      · rw [take_of_ne (by rw [hfailed]; exact nofun)]
        exact .failed _ hfailed ⟨_, hprefix.trans hreceived, hmessages⟩
          fun h ↦ absurd (herr.symm.trans (hsupplied h).1) nofun
      · have hears : s.hears (.received ec data) =
            s.given.hearAll buffer { op with initBufLen := 0 }
              ((HttpParser.execute r.parser (RequestOp.answers buffer { op with initBufLen := 0 })
                (read r.memory buffer bytes)).2.2.map Prod.fst) := by
          rw [hears, Reception.calls, hinput, hparser]
        rw [hears]
        refine asServed_execute (by exact hop) (by exact hc) ?_ ?_ ?_ buffer bytes hreceived
          (fun h hzero ↦ ?_) rfl
        · rw [hparser, hconsumed]
          exact hagrees
        · rw [hparser]
          exact hfits
        · rw [hconsumed]
          exact hmessages
        · obtain ⟨hnil, hinit⟩ := hbytes hzero
          have hleft := (hsupplied h).2 hnil
          rw [left, hphase] at hleft
          exact hleft hinit
    | failed ec' h =>
      rw [hphase] at h
      cases h

/-- The invariant over runs. -/
theorem asServed_of_run {l : List ReceptionEvent}
    (hl : Transition.RunMeets step (fun s e ↦ Continuous e ∧ (supplied → s.Supplies e))
      (start memory) l)
    (hrun : Transition.run step (start memory) l = some t) :
    AsServed supplied t ∧ t.socket.Situation := by
  refine Transition.invariant_run (I := fun s ↦ AsServed supplied s ∧ s.socket.Situation)
    (fun s e u hs he hstep ↦ ⟨asServed_step hs.1 hs.2 he.1 he.2 hstep, ?_⟩)
    ⟨asServed_start memory, Reception.situation_start _ _⟩ hl hrun
  obtain ⟨u', hu', rfl⟩ := Option.map_eq_some_iff.1 hstep
  rw [take_socket]
  exact Reception.situation_step parser_lawful hs.2 hu'

/-- What a caller has been given comes of the bytes consumed. -/
theorem AsServed.messages (h : AsServed supplied t) (hsocket : t.socket.Situation) :
    ∃ served, served <+: t.socket.received ∧ t.messages = (serve served).messages ∧
      ((∀ ec, t.socket.phase ≠ .failed ec) → served = t.socket.consumed) := by
  cases h with
  | between hphase hparser hfit hidle hmessages =>
    refine ⟨_, consumed_prefix hsocket fun ec hec ↦ ?_, hmessages, fun _ ↦ rfl⟩
    rcases hphase with h | h <;>
    · rw [h] at hec
      cases hec
  | receiving op buffer len hphase hop hc hagrees hfits hmessages =>
    refine ⟨_, consumed_prefix hsocket fun ec hec ↦ ?_, hmessages, fun _ ↦ rfl⟩
    rw [hphase] at hec
    cases hec
  | failed ec hphase hmessages =>
    obtain ⟨served, hserved, heq⟩ := hmessages
    exact ⟨served, hserved, heq, fun hne ↦ absurd hphase (hne ec)⟩

/-- **Only the bytes count.** In every run of a socket with calls in continuous mode, the messages
the caller has been given are those that serving the bytes consumed gives, and after an error those
that serving the first bytes received gives. -/
theorem messages_of_run {l : List ReceptionEvent} (hl : ∀ e ∈ l, Continuous e)
    (hrun : Transition.run step (start memory) l = some t) :
    ∃ served, served <+: t.socket.received ∧ t.messages = (serve served).messages ∧
      ((∀ ec, t.socket.phase ≠ .failed ec) → served = t.socket.consumed) := by
  have hmeets : Transition.RunMeets step (fun s e ↦ Continuous e ∧ (False → s.Supplies e))
      (start memory) l :=
    (Transition.runMeets_of_forall hl).mono fun _ _ he ↦ ⟨he, False.elim⟩
  obtain ⟨hinv, hsocket⟩ := asServed_of_run hmeets hrun
  exact hinv.messages hsocket

/-- **The cuts do not show.** Two sockets that receive the same bytes, as far as both go, give their
callers the same messages, as far as both go, whatever pieces the transports bring and whatever
buffers, request objects and flags the calls pass on. -/
theorem messages_agree {t' : Session} {memory' : ℕ → Byte} {l l' : List ReceptionEvent}
    (hl : ∀ e ∈ l, Continuous e) (hl' : ∀ e ∈ l', Continuous e)
    (hrun : Transition.run step (start memory) l = some t)
    (hrun' : Transition.run step (start memory') l' = some t')
    (hreceived : t.socket.received <+: t'.socket.received) :
    t.messages <+: t'.messages ∨ t'.messages <+: t.messages := by
  obtain ⟨m, hm, hmessages, -⟩ := messages_of_run hl hrun
  obtain ⟨m', hm', hmessages', -⟩ := messages_of_run hl' hrun'
  rw [hmessages, hmessages']
  exact (List.prefix_or_prefix_of_prefix (hm.trans hreceived) hm').imp messages_serve_prefix
    messages_serve_prefix

/-- A request received at once, and the same request in two pieces by a socket whose memory and
request object are others. -/
theorem messages_agree_two :
    let call := ReceptionEvent.call true ⟨[], [], .zero, 0, 0, []⟩ 64 32 0
    let call' := ReceptionEvent.call true ⟨[71], [47], .zero, 1, 0, [⟨[90], [90]⟩]⟩ 16 20 7
    ∃ t t', Transition.run step (start fun _ ↦ 0) [call, .received .noError oneRequest] =
        some t ∧
      Transition.run step (start fun _ ↦ 9) [call', .received .noError (oneRequest.take 5),
        .received .noError (oneRequest.drop 5)] = some t' ∧
      t.messages.length = 1 ∧ t'.messages.length = 1 ∧
        (t.messages <+: t'.messages ∨ t'.messages <+: t.messages) := by
  intro call call'
  have h : (Transition.run step (start fun _ ↦ 0) [call, .received .noError oneRequest]).map
      (fun t ↦ (t.socket.received, t.messages.length)) = some (oneRequest, 1) := by
    decide +kernel
  have h' : (Transition.run step (start fun _ ↦ 9) [call',
      .received .noError (oneRequest.take 5),
      .received .noError (oneRequest.drop 5)]).map
      (fun t ↦ (t.socket.received, t.messages.length)) = some (oneRequest, 1) := by
    decide +kernel
  obtain ⟨t, ht, hone⟩ := Option.map_eq_some_iff.1 h
  obtain ⟨t', ht', hone'⟩ := Option.map_eq_some_iff.1 h'
  obtain ⟨hreceived, hlength⟩ := Prod.mk.inj hone
  obtain ⟨hreceived', hlength'⟩ := Prod.mk.inj hone'
  refine ⟨t, t', ht, ht', hlength, hlength',
    messages_agree (fun e he ↦ ?_) (fun e he ↦ ?_) ht ht' ?_⟩
  · simp only [List.mem_cons, List.not_mem_nil, or_false] at he
    rcases he with rfl | rfl
    · rfl
    · trivial
  · simp only [List.mem_cons, List.not_mem_nil, or_false] at he
    rcases he with rfl | rfl | rfl
    · rfl
    · trivial
    · trivial
  · rw [hreceived, hreceived']

end Session

end JnetLib.Http
