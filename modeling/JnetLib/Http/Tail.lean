import JnetLib.Http.HeaderSection

/-!
# Behind the header section

The states of a body and of a trailer, as far as the callbacks for headers are concerned. Out of
continuous mode a result ends the operation, so a call that begins behind the header section comes
to one callback at most before it returns, if no trailer begins: that of a part of the body, or that
of the end of the message (`OffTail`).

`tail_step` is one byte, put together from the states, which rest on `Uncalled`: as long as no
callback has been made, an error and a change of state leave the call as it is, and a part of the
body or the end of the message ends it. `offTail_execute` is the call; `dead_execute` is one behind
the last message of a connection, where the parser reads nothing.
-/

namespace JnetLib.Http

/-- The states of a body. -/
def State.inBody : State → Bool
  | .headersDone | .bodyIdentity | .messageDone | .chunkSizeStart | .chunkSize | .chunkParameters
  | .chunkSizeAlmostDone | .chunkData | .chunkDataAlmostDone | .chunkDataDone => true
  | _ => false

/-- In a body, or in its trailer before the end of a trailer field's name. -/
def InTail (q : Parser) : Prop :=
  q.state.inBody = true ∨ q.flags.trailing = true ∧
    (q.state = .headerFieldStart ∨ q.state = .headerField ∨ q.state = .headersAlmostDone)

/-- The first callback made is that for a trailer field's name. -/
def Exec.Trailed (x : Exec) : Prop :=
  ∃ off bytes er r, x.calls = (.data .headerField off bytes, er) :: r

theorem Exec.Trailed.mono {x y : Exec} (h : x.Trailed) (hg : x.calls <+: y.calls) : y.Trailed := by
  obtain ⟨off, bytes, er, r, h⟩ := h
  obtain ⟨m, hm⟩ := hg
  exact ⟨off, bytes, er, r ++ m, by rw [← hm, h, List.cons_append]⟩

/-- Where the loop goes on: no callback has been made, or one for a trailer field's name. -/
inductive OnTail (x : Exec) : Prop
  | quiet (hcalls : x.calls = []) (h : InTail x.parser) (hurl : x.marks .url = none)
    (hvalue : x.marks .headerValue = none)
    (hfield : x.marks .headerField = none ↔ x.parser.state ≠ .headerField)
  | trailed (h : x.Trailed)

/-- Where the function returns: with an error, behind the last byte, paused behind a part of the
body, paused at the end of the message, or with a trailer field. -/
inductive OffTail (x : Exec) : Prop
  | failed (hcalls : x.calls = []) (he : x.parser.httpErrno.Fatal)
  | quiet (hcalls : x.calls = []) (he : x.parser.httpErrno = .ok) (h : InTail x.parser)
  | body (off : ℕ) (bytes : List Byte) (er : ℕ) (hcalls : x.calls = [(.data .body off bytes, er)])
    (he : x.parser.httpErrno = .paused) (h : InTail x.parser)
  | message (er : ℕ) (hcalls : x.calls = [(.messageComplete, er)])
    (he : x.parser.httpErrno = .paused) (hs : x.parser.state = .startReq ∨ x.parser.state = .dead)
  | trailed (h : x.Trailed)

section Tail

variable {op : RequestOp} {buffer : ℕ} {data : List Byte} {x y : Exec} {p : ℕ} {ch : Byte}

/-- The answer to a callback. -/
theorem answers_history (x : Exec) (c : Callback) : op.answers buffer (x.history c) =
    (RequestOp.handle buffer (op.handleAll buffer (x.calls.map Prod.fst)) c).reply :=
  RequestOp.answers_concat _ _ _ _

/-- What holds of a byte. -/
abbrev TailByte (f : Flow) : Prop := f.Meets (fun x _ ↦ OnTail x) (fun x _ ↦ OffTail x)

/-- Where no callback has been made yet. -/
structure Uncalled (x : Exec) : Prop where
  errno : x.parser.httpErrno = .ok
  calls : x.calls = []
  url : x.marks .url = none
  value : x.marks .headerValue = none

theorem Uncalled.error {e : HttpErrno} {n : ℕ} (h : Uncalled x) (hc : y.calls = x.calls)
    (he : e.Fatal) :
    TailByte (y.error e n) :=
  .failed (hc.trans h.calls) he

/-- On to a state of the body. -/
theorem Uncalled.next (h : Uncalled x) (hc : y.calls = x.calls) (hm : y.marks = x.marks)
    (hfield : x.marks .headerField = none) (hs : y.parser.state.inBody = true) :
    TailByte (.next y p) := by
  refine .quiet (hc.trans h.calls) (.inl hs) (hm ▸ h.url) (hm ▸ h.value) ?_
  rw [hm]
  refine iff_of_true hfield fun heq ↦ ?_
  rw [heq] at hs
  cases hs

/-- The end of the message. -/
theorem Uncalled.complete {I : Exec → ℕ → Prop} {k : Exec → Flow} (h : Uncalled x)
    (he : y.parser.httpErrno = x.parser.httpErrno) (hc : y.calls = x.calls) :
    (y.complete (op.answers buffer) p k).Meets I (fun x _ ↦ OffTail x) := by
  have hreply : op.answers buffer ((y.goto y.parser.newMessage).history .messageComplete) =
      ⟨0, true⟩ := answers_history _ _
  rw [Exec.complete]
  refine Exec.meets_notify (he.trans h.errno) (by decide) (fun _ ↦ ?_) fun _ hpause ↦ ?_
  · refine .message (p + 1) ?_ ?_ ?_
    · show y.calls ++ _ = _
      rw [hc, h.calls, List.nil_append]
    · show (if _ = 0 then HttpErrno.paused else _) = .paused
      rw [hreply]
      rfl
    · show y.parser.newMessage = _ ∨ y.parser.newMessage = _
      rw [Parser.newMessage]
      split
      · exact .inl rfl
      · exact .inr rfl
  · rw [hreply] at hpause
    cases hpause

/-- A part of the body pauses the parser. -/
theorem Uncalled.callbackBody {I : Exec → ℕ → Prop} {k : Exec → Flow} {last er : ℕ}
    (hop : op.continuous = false) (h : Uncalled x) (he : y.parser.httpErrno = x.parser.httpErrno)
    (hc : y.calls = x.calls) (ht : InTail y.parser)
    (hnone : y.marks .body = none → (k y).Meets I (fun x _ ↦ OffTail x)) :
    (y.callbackData (op.answers buffer) data .body last er k).Meets I (fun x _ ↦ OffTail x) := by
  have hreply : ∀ m, op.answers buffer (y.history (Exec.since data .body m last)) = ⟨0, true⟩ :=
    fun m ↦ by
      rw [answers_history, hc, h.calls]
      show (op.due _).reply = _
      rw [RequestOp.due, hop]
      rfl
  refine Exec.meets_callbackData (he.trans h.errno) hnone fun m _ ↦
    ⟨fun _ ↦ .body m ((data.drop m).take (last - m)) er ?_ ?_ ht, fun _ hpause ↦ ?_⟩
  · show y.calls ++ _ = _
    rw [hc, h.calls, List.nil_append]
    rfl
  · show (if _ = 0 then HttpErrno.paused else _) = .paused
    rw [hreply]
    rfl
  · rw [hreply] at hpause
    cases hpause

/-! ### The states of a body -/

section Body

variable (hop : op.continuous = false) (h : Uncalled x) (hf : x.marks .headerField = none)

include h hf in
theorem tail_headersDone : TailByte (x.headersDone (op.answers buffer) p ch) := by
  rw [Exec.headersDone]
  dsimp only
  split
  · exact h.error rfl (by decide)
  · split
    · exact h.complete rfl rfl
    · split
      · exact h.complete rfl rfl
      · split
        · exact h.next rfl rfl hf rfl
        · split
          · exact h.complete rfl rfl
          · split
            · exact h.next rfl rfl hf rfl
            · exact h.complete rfl rfl

/-- The mark of the body does not matter. -/
theorem Uncalled.mark (h : Uncalled x) : Uncalled (x.mark .body p) :=
  ⟨(Exec.errno_mark _ _ _).trans h.errno, (Exec.calls_mark _ _ _).trans h.calls,
    (Exec.marks_mark_of_ne _ (by decide) _).trans h.url,
    (Exec.marks_mark_of_ne _ (by decide) _).trans h.value⟩

include hop h hf in
theorem tail_bodyIdentity (hs : x.parser.state = .bodyIdentity) :
    TailByte (x.bodyIdentity (op.answers buffer) data p) := by
  have hmarked : Uncalled (x.mark .body p) := h.mark
  have hfield : (x.mark .body p).marks .headerField = none :=
    (Exec.marks_mark_of_ne x (by decide) p).trans hf
  have hstate : (x.mark .body p).parser.state = .bodyIdentity := by rw [Exec.parser_mark, hs]
  rw [Exec.bodyIdentity]
  dsimp only
  generalize x.mark .body p = z at hmarked hfield hstate
  split
  · refine hmarked.callbackBody hop rfl rfl (.inl rfl) fun _ ↦ ?_
    exact hmarked.complete rfl rfl
  · refine hmarked.next rfl rfl hfield ?_
    show z.parser.state.inBody = true
    rw [hstate]
    rfl

include h hf in
theorem tail_chunkSizeStart : TailByte (x.chunkSizeStart p ch) := by
  rw [Exec.chunkSizeStart]
  split
  · exact h.error rfl (by decide)
  · exact h.next rfl rfl hf rfl

include h hf in
theorem tail_chunkSize (hs : x.parser.state = .chunkSize) : TailByte (x.chunkSize p ch) := by
  rw [Exec.chunkSize]
  split
  · exact h.next rfl rfl hf rfl
  · split
    · split
      · exact h.next rfl rfl hf rfl
      · exact h.error rfl (by decide)
    · split
      · next q hq =>
        refine h.next rfl rfl hf ?_
        rw [(alike_nextDigit hq).state, hs]
        rfl
      · next e he => exact h.error rfl (fatal_of_nextDigit he)

include h hf in
theorem tail_chunkParameters (hs : x.parser.state = .chunkParameters) :
    TailByte (x.chunkParameters p ch) := by
  rw [Exec.chunkParameters]
  split
  · exact h.next rfl rfl hf rfl
  · refine h.next rfl rfl hf ?_
    rw [hs]
    rfl

include h hf in
/-- A chunk of size zero begins the trailer. -/
theorem tail_chunkSizeAlmostDone : TailByte (x.chunkSizeAlmostDone p ch) := by
  unfold Exec.chunkSizeAlmostDone
  dsimp only
  split
  · exact h.error rfl (by decide)
  · split
    · exact .quiet h.calls (.inr ⟨rfl, .inl rfl⟩) h.url h.value (iff_of_true hf nofun)
    · exact h.next rfl rfl hf rfl

include h hf in
theorem tail_chunkData (hs : x.parser.state = .chunkData) : TailByte (x.chunkData data p) := by
  have hmarked : Uncalled (x.mark .body p) := h.mark
  have hfield : (x.mark .body p).marks .headerField = none :=
    (Exec.marks_mark_of_ne x (by decide) p).trans hf
  have hstate : (x.mark .body p).parser.state = .chunkData := by rw [Exec.parser_mark, hs]
  rw [Exec.chunkData]
  dsimp only
  generalize x.mark .body p = z at hmarked hfield hstate
  split
  · exact hmarked.next rfl rfl hfield rfl
  · refine hmarked.next rfl rfl hfield ?_
    show z.parser.state.inBody = true
    rw [hstate]
    rfl

include hop h hf in
theorem tail_chunkDataAlmostDone :
    TailByte (x.chunkDataAlmostDone (op.answers buffer) data p ch) := by
  rw [Exec.chunkDataAlmostDone]
  split
  · exact h.error rfl (by decide)
  · exact h.callbackBody hop rfl rfl (.inl rfl) fun _ ↦ h.next rfl rfl hf rfl

include h hf in
theorem tail_chunkDataDone : TailByte (x.chunkDataDone p ch) := by
  rw [Exec.chunkDataDone]
  split
  · exact h.error rfl (by decide)
  · exact h.next rfl rfl hf rfl

end Body

/-! ### The states of a trailer -/

theorem tail_headersAlmostDone (h : Uncalled x) (ht : x.parser.flags.trailing = true) :
    TailByte (x.headersAlmostDone (op.answers buffer) p ch) := by
  rw [Exec.headersAlmostDone]
  split
  · exact h.error rfl (by decide)
  · exact h.complete rfl rfl

theorem tail_headerFieldStart (h : Uncalled x) (hf : x.marks .headerField = none)
    (ht : x.parser.flags.trailing = true) :
    TailByte (x.headerFieldStart (op.answers buffer) p ch) := by
  unfold Exec.headerFieldStart
  dsimp only
  split
  · exact .quiet h.calls (.inr ⟨ht, .inr (.inr rfl)⟩) h.url h.value (iff_of_true hf nofun)
  · split
    · exact tail_headersAlmostDone ⟨h.errno, h.calls, h.url, h.value⟩ ht
    · split
      · exact h.error rfl (by decide)
      · have hparser := Exec.parser_mark x .headerField p
        have hmark : (x.mark .headerField p).marks .headerField ≠ none := by
          rw [Exec.marks_mark_self hf]
          exact nofun
        refine .quiet ((Exec.calls_mark _ _ _).trans h.calls) (.inr ⟨?_, .inr (.inl rfl)⟩)
          ((Exec.marks_mark_of_ne _ (by decide) _).trans h.url)
          ((Exec.marks_mark_of_ne _ (by decide) _).trans h.value)
          (iff_of_false hmark fun hne ↦ hne rfl)
        show (x.mark .headerField p).parser.flags.trailing = true
        rw [hparser, ht]

theorem tail_headerField (h : Uncalled x) (hs : x.parser.state = .headerField)
    (hf : x.marks .headerField ≠ none) (ht : x.parser.flags.trailing = true) :
    TailByte (x.headerField (op.answers buffer) data p ch) := by
  have halike := alike_nextField x.parser ch (token ch)
  rw [Exec.headerField]
  split
  · refine .quiet h.calls (.inr ⟨halike.trailing.trans ht, .inr (.inl (halike.state.trans hs))⟩)
      h.url h.value (iff_of_false hf fun hne ↦ hne (halike.state.trans hs))
  · split
    · refine Exec.meets_callbackData h.errno (fun hnone ↦ absurd hnone hf) fun m _ ↦
        ⟨fun hstop ↦ ?_,
          fun _ _ ↦ .trailed ⟨m, (data.drop m).take (p - m), p + 1, [], ?_⟩⟩
      · rw [answers_history] at hstop
        simp [Exec.since, RequestOp.handle, RequestOp.proceed] at hstop
      · show x.calls ++ _ = _
        rw [h.calls]
        rfl
    · exact h.error rfl (by decide)

/-! ### One call behind the header section -/

/-- **A byte behind the header section**: no header is told before a trailer begins. -/
theorem tail_step (hop : op.continuous = false)
    (ho : Exec.Ongoing (op.answers buffer) data x.calls x p) (hp : p < data.length)
    (h : OnTail x) : TailByte (x.step (op.answers buffer) data p ch) := by
  cases h with
  | trailed h =>
    exact (Exec.meets_step ho hp).mono (fun _ _ hy ↦ .trailed (h.mono hy.1.grows))
      fun _ _ hy ↦ .trailed (h.mono hy.grows)
  | quiet hcalls ht hurl hvalue hfield =>
    have hq : Uncalled x := ⟨ho.errno, hcalls, hurl, hvalue⟩
    rcases ht with hbody | ⟨ht, hs | hs | hs⟩
    · have hf : x.marks .headerField = none := hfield.2 fun hs ↦ by
        rw [hs] at hbody
        cases hbody
      unfold Exec.step
      cases hs : x.parser.state with
      | headersDone => exact tail_headersDone hq hf
      | bodyIdentity => exact tail_bodyIdentity hop hq hf hs
      | messageDone => exact hq.complete rfl rfl
      | chunkSizeStart => exact tail_chunkSizeStart hq hf
      | chunkSize => exact tail_chunkSize hq hf hs
      | chunkParameters => exact tail_chunkParameters hq hf hs
      | chunkSizeAlmostDone => exact tail_chunkSizeAlmostDone hq hf
      | chunkData => exact tail_chunkData hq hf hs
      | chunkDataAlmostDone => exact tail_chunkDataAlmostDone hop hq hf
      | chunkDataDone => exact tail_chunkDataDone hq hf
      | _ =>
        -- not a state of the body
        rw [hs] at hbody
        exact absurd hbody (by decide)
    · unfold Exec.step; rw [hs]
      exact tail_headerFieldStart hq (hfield.2 (by rw [hs]; exact nofun)) ht
    · unfold Exec.step; rw [hs]
      exact tail_headerField hq hs (fun hnone ↦ hfield.1 hnone hs) ht
    · unfold Exec.step; rw [hs]
      exact tail_headersAlmostDone hq ht

/-- Callbacks behind that for a trailer field's name. -/
theorem off_callbackData {I : Exec → ℕ → Prop} {which : DataCallback} {last er : ℕ}
    {k : Exec → Flow} (hok : x.parser.httpErrno = .ok) (h : x.Trailed)
    (hk : ∀ y : Exec, y.parser.httpErrno = .ok → y.Trailed →
      (k y).Meets I (fun x _ ↦ OffTail x)) :
    (x.callbackData (op.answers buffer) data which last er k).Meets I (fun x _ ↦ OffTail x) :=
  Exec.meets_callbackData hok (fun _ ↦ hk x hok h) fun _ _ ↦
    ⟨fun _ ↦ .trailed (h.mono (List.prefix_append _ _)),
      fun _ _ ↦ hk _ hok (h.mono (List.prefix_append _ _))⟩

theorem tail_finish (hop : op.continuous = false) (hok : x.parser.httpErrno = .ok)
    (h : OnTail x) :
    (x.finish (op.answers buffer) data).Meets (fun _ _ ↦ False) (fun x _ ↦ OffTail x) := by
  have htrailed : ∀ y : Exec, y.parser.httpErrno = .ok → y.Trailed →
      (y.callbackData (op.answers buffer) data .headerValue data.length data.length fun x ↦
        x.callbackData (op.answers buffer) data .url data.length data.length fun x ↦
          x.callbackData (op.answers buffer) data .body data.length data.length fun x ↦
            .ret x data.length).Meets (fun _ _ ↦ False) (fun x _ ↦ OffTail x) := fun y hy h ↦
    off_callbackData hy h fun _ hy h ↦ off_callbackData hy h fun _ hy h ↦
      off_callbackData hy h fun _ _ h ↦ .trailed h
  rw [Exec.finish]
  cases h with
  | trailed h => exact off_callbackData hok h htrailed
  | quiet hcalls ht hurl hvalue hfield =>
    have hq : Uncalled x := ⟨hok, hcalls, hurl, hvalue⟩
    refine Exec.meets_callbackData hok (fun hnone ↦ ?_) fun m _ ↦
      ⟨fun _ ↦ .trailed ⟨m, (data.drop m).take (data.length - m), data.length, [], ?_⟩,
        fun _ _ ↦ htrailed _ hok ⟨m, (data.drop m).take (data.length - m), data.length, [], ?_⟩⟩
    · rw [Exec.callbackData, hvalue]
      dsimp only
      rw [Exec.callbackData, hurl]
      exact hq.callbackBody hop rfl rfl ht fun _ ↦ .quiet hcalls hok ht
    · show x.calls ++ _ = _
      rw [hcalls]
      rfl
    · show x.calls ++ _ = _
      rw [hcalls]
      rfl

theorem tail_count (h : OnTail x) : OnTail x.count := by
  rw [Exec.count]
  split
  · cases h with
    | trailed h => exact .trailed h
    | quiet hcalls ht hurl hvalue hfield => exact .quiet hcalls ht hurl hvalue hfield
  · exact h

theorem initialMarks_url {q : Parser} (h : q.state.inLine = false) :
    q.initialMarks .url = none := by
  unfold Parser.initialMarks
  split <;> first
    | rfl
    | next hwhich _ => exact absurd hwhich (by decide)
    | next hs =>
      rw [hs] at h
      cases h

theorem initialMarks_headerField (q : Parser) :
    q.initialMarks .headerField = none ↔ q.state ≠ .headerField := by
  refine ⟨fun hnone hs ↦ ?_, fun hs ↦ Piece.initialMarks_eq_none nofun (fun _ ↦ hs) nofun⟩
  simp [Parser.initialMarks, hs] at hnone

theorem InTail.inLine {q : Parser} (h : InTail q) : q.state.inLine = false := by
  rcases h with hbody | ⟨-, hs | hs | hs⟩
  · cases hs : q.state <;> rw [hs] at hbody <;> first | rfl | cases hbody
  all_goals rw [hs]; rfl

/-- **A call behind the header section**: no header is told before a trailer begins. -/
theorem offTail_execute (hop : op.continuous = false) {q : Parser} (hok : q.httpErrno = .ok)
    (hdata : data ≠ []) (h : InTail q) : OffTail (q.execute (op.answers buffer) data).1 := by
  have hstate : q.state ≠ .headerValue := by
    rintro hs
    rcases h with hbody | ⟨-, hs' | hs' | hs'⟩
    · rw [hs] at hbody
      cases hbody
    all_goals
      rw [hs] at hs'
      cases hs'
  have hstart : OnTail ⟨q, q.initialMarks, []⟩ := by
    refine .quiet rfl h (initialMarks_url h.inLine) ?_ (initialMarks_headerField q)
    exact Piece.initialMarks_eq_none nofun nofun fun _ ↦ hstate
  rw [Parser.execute_eq _ hok hdata]
  refine Exec.loop_meets (I := fun x _ ↦ OnTail x) (R := fun x _ ↦ OffTail x)
    (fun _ _ ↦ tail_count) (fun x p _ hI ↦ ?_) (fun x p ch ho hI hch ↦ ?_)
    (fun x ho ↦ tail_finish hop ho.errno) (fun x p _ _ hend ↦ ?_) _
    (Parser.ongoing _ hok data) hstart fun _ ↦ q.ahead_lt data
  · cases hI with
    | quiet hcalls => exact .failed hcalls ⟨nofun, nofun⟩
    | trailed h => exact .trailed h
  · obtain ⟨hp, -⟩ := List.getElem?_eq_some_iff.1 hch
    exact tail_step hop ho.self hp hI
  · exact absurd (RequestOp.answers_pausesAtEnd _ _) hend

/-- A parser behind a message that closes the connection makes no callback any more. -/
theorem dead_execute {reply : Answers} (hend : reply.PausesAtEnd) {q : Parser}
    (hok : q.httpErrno = .ok) (hdata : data ≠ []) (h : q.state = .dead) :
    (q.execute reply data).1.calls = [] ∧ ((q.execute reply data).1.parser.httpErrno.Fatal ∨
      (q.execute reply data).1.parser.httpErrno = .ok ∧
        (q.execute reply data).1.parser.state = .dead) := by
  have hmarks : ∀ which, q.initialMarks which = none := fun which ↦ by
    by_cases hwhich : which = .url
    · rw [hwhich]
      exact initialMarks_url (by rw [h]; rfl)
    · exact Piece.initialMarks_eq_none hwhich (fun _ ↦ by rw [h]; exact nofun)
        fun _ ↦ by rw [h]; exact nofun
  rw [Parser.execute_eq _ hok hdata]
  refine Exec.loop_meets
    (I := fun x _ ↦ x.parser.state = .dead ∧ x.calls = [] ∧ ∀ which, x.marks which = none)
    (R := fun x _ ↦ x.calls = [] ∧
      (x.parser.httpErrno.Fatal ∨ x.parser.httpErrno = .ok ∧ x.parser.state = .dead))
    (fun x p hI ↦ ?_) (fun x p _ hI ↦ ⟨hI.2.1, .inl ⟨nofun, nofun⟩⟩) (fun x p ch _ hI _ ↦ ?_)
    (fun x ho hI ↦ ?_) (fun x p _ _ hno ↦ absurd hend hno) _ (Parser.ongoing _ hok data)
    ⟨h, rfl, hmarks⟩ fun _ ↦ q.ahead_lt data
  · refine ⟨(Exec.count_state x).trans hI.1, ?_⟩
    unfold Exec.count
    split <;> exact hI.2
  · unfold Exec.step; rw [hI.1]
    dsimp only
    unfold Exec.dead
    split
    · exact hI
    · exact ⟨hI.2.1, .inl ⟨nofun, nofun⟩⟩
  · simp only [Exec.finish, Exec.callbackData, hI.2.2]
    exact ⟨hI.2.1, .inr ⟨ho.errno, hI.1⟩⟩

end Tail

end JnetLib.Http
