import JnetLib.Http.Leftover
import JnetLib.Http.Tail

/-!
# Trailers

Behind the header section of a request in chunks the parser can call `on_header_field` and
`on_header_value` again, while the operation that received `on_message_begin` is gone: without
continuous mode it ends at `on_headers_complete`. Here is the socket over the bundled parser with a
watch over those callbacks, and in a run of calls that are not continuous they are sound exactly as
long as no trailer field comes (`Watched.sound_throughout_iff`).

One call of the parser is followed through a header section by `Piece.left_execute`, behind it by
`offTail_execute`, and behind the last message of a connection by `dead_execute`.

## What the theorem rests on

* Inside a header section the watch is sound whatever comes: the piece theorem `Piece.left_execute`
  says that each callback is one of a line that has begun (`watching_of_proper`).
* Behind `on_headers_complete` the parser is in the tail of the message, where it makes no callback
  for a header before a trailer begins (`offTail_execute`). This is an invariant of its loop, shown
  state by state (`tail_step`).
* So a call of the parser either makes no callback for a header, or makes a first one behind
  `on_headers_complete`; and that one reads a flag nobody has initialised. The two cases are
  `callSound_of_stage`.

A run is followed by `soundOrFailed_step`. Once the parser has failed there is no later call.
-/

namespace JnetLib.Http

/-! ### The watch -/

/-- `on_header_field` or `on_header_value`. -/
def Callback.isHeader : Callback → Bool
  | .data .headerField _ _ | .data .headerValue _ _ => true
  | _ => false

/-- What has been seen of the callbacks. -/
structure Watch where
  /-- The operation has a value in `last_field_or_value_`. -/
  initialised : Bool
  /-- The last callback for a header was one for its name. -/
  inField : Bool
  /-- The header section of the message is over. -/
  headed : Bool
  /-- No callback for a header has read what is not there, nor put a trailer field into the entry
  before. -/
  sound : Bool
  deriving DecidableEq, Repr

namespace Watch

/-- Before the first call. -/
def start : Watch := ⟨false, false, false, true⟩

/-- A new operation leaves its flag as the memory has it. -/
def renew (w : Watch) : Watch := { w with initialised := false }

/-- A callback of the operation `op`. `on_header_field` reads the flag, and the last entry unless it
opens one, which it must for a new trailer field; `on_header_value` reads the last entry. -/
def see (w : Watch) (op : RequestOp) : Callback → Watch
  | .messageBegin => { w with initialised := true, inField := false }
  | .data .headerField _ _ =>
    { w with
      initialised := true
      inField := true
      sound := w.sound && w.initialised &&
        (op.lastFieldOrValue == 1 || !op.request.headers.isEmpty) &&
        (!w.headed || w.inField || op.lastFieldOrValue == 1) }
  | .data .headerValue _ _ =>
    { w with
      initialised := true
      inField := false
      sound := w.sound && !op.request.headers.isEmpty }
  | .data _ _ _ => w
  | .headersComplete _ _ _ _ => { w with inField := false, headed := true }
  | .messageComplete => { w with headed := false }

/-- The callbacks of one call of the parser. -/
def after (buffer : ℕ) (w : Watch) (op : RequestOp) : List Callback → Watch
  | [] => w
  | c :: l => (w.see op c).after buffer (RequestOp.handle buffer op c).op l

theorem after_append (buffer : ℕ) (w : Watch) (op : RequestOp) (l m : List Callback) :
    w.after buffer op (l ++ m) = (w.after buffer op l).after buffer (op.handleAll buffer l) m := by
  induction l generalizing w op with
  | nil => rfl
  | cons c l ih => exact ih _ _

theorem after_concat (buffer : ℕ) (w : Watch) (op : RequestOp) (l : List Callback) (c : Callback) :
    w.after buffer op (l ++ [c]) = (w.after buffer op l).see (op.handleAll buffer l) c :=
  after_append buffer w op l [c]

/-- What has been read stays read. -/
theorem sound_see {w : Watch} (op : RequestOp) (c : Callback) (h : w.sound = false) :
    (w.see op c).sound = false := by
  cases c with
  | data which off bytes => cases which <;> simp [see, h]
  | _ => exact h

theorem sound_after (buffer : ℕ) {w : Watch} (op : RequestOp) (l : List Callback)
    (h : w.sound = false) : (w.after buffer op l).sound = false := by
  induction l generalizing w op with
  | nil => exact h
  | cons c l ih => exact ih _ (sound_see op c h)

end Watch

/-- The callbacks the parser makes in a step. -/
def Reception.callbacks {P : Type*} [HttpParser P] (s : Reception P) (e : ReceptionEvent) :
    List Callback :=
  (s.calls e).map Prod.fst

/-- A socket over the bundled parser, with the watch. -/
structure Watched where
  socket : Reception Parser
  watch : Watch

namespace Watched

/-- A new socket. -/
def start (memory : ℕ → Byte) : Watched := ⟨.start .init memory, .start⟩

/-- What the watch sees of a step. -/
def seen (s : Watched) (e : ReceptionEvent) : Watch :=
  match e, s.socket.phase with
  | .call _ _ _ _ _, _ => s.watch.renew
  | .received _ _, .receiving op buffer _ =>
    s.watch.after buffer { op with initBufLen := 0 } (s.socket.callbacks e)
  | .received _ _, _ => s.watch

/-- A step of the socket, under the watch. -/
def step (s : Watched) (e : ReceptionEvent) : Option Watched :=
  (s.socket.step e).map fun t ↦ ⟨t, s.seen e⟩

/-- No trailer field comes: behind `on_headers_complete` the parser makes no callback for a
header. -/
def TrailerFree (s : Watched) (e : ReceptionEvent) : Prop :=
  s.watch.headed = true → ∀ c ∈ s.socket.callbacks e, c.isHeader = false

instance (s : Watched) (e : ReceptionEvent) : Decidable (s.TrailerFree e) :=
  inferInstanceAs (Decidable (_ → _))

end Watched

/-- The request is received result by result. -/
def ReceptionEvent.stepwise : ReceptionEvent → Bool
  | .call continuous _ _ _ _ => !continuous
  | .received _ _ => true

/-! ### The watch over a header section -/

namespace Piece

variable {P : Piece} {l m : List (Callback × ℕ)}

theorem Proper.upTo (h : P.Proper l) (hm : m <+: l) : P.Proper m := by
  obtain ⟨r, rfl⟩ := hm
  intro k c er r' heq hno
  exact h k c er (r' ++ r) (by rw [heq, List.append_assoc, List.cons_append]) hno

/-- What the watch has seen of a header section. -/
structure Watching (P : Piece) (l : List (Callback × ℕ)) (w : Watch) : Prop where
  sound : w.sound = true
  headed : w.headed = false
  initialised : P.BegunBy l → w.initialised = true

/-- **The header section is sound.** -/
theorem watching_of_proper {w : Watch} (hw : P.Watching [] w) (h : P.Proper l) (hno : ¬Headed l) :
    P.Watching l (w.after P.buffer P.op (l.map Prod.fst)) := by
  induction l using List.reverseRecOn with
  | nil => exact hw
  | append_singleton l a ih =>
    obtain ⟨c, er⟩ := a
    have hno' : ¬Headed l := fun hl ↦ hno (hl.mono (List.prefix_append _ _))
    have hl : P.Watching l (w.after P.buffer P.op (l.map Prod.fst)) :=
      ih (h.upTo (List.prefix_append _ _)) hno'
    have hnoted : P.Noted l c er := h l c er [] rfl hno'
    have hmap : (l ++ [(c, er)]).map Prod.fst = l.map Prod.fst ++ [c] := by
      rw [List.map_append]
      rfl
    have hbegun : c ≠ .messageBegin → P.BegunBy (l ++ [(c, er)]) → P.BegunBy l := fun hc h ↦ by
      refine h.imp_right fun hmem ↦ ?_
      rw [hmap] at hmem
      exact (List.mem_append.1 hmem).resolve_right fun hlast ↦
        hc (List.mem_singleton.1 hlast).symm
    rw [hmap, Watch.after_concat]
    generalize w.after P.buffer P.op (l.map Prod.fst) = w' at hl ⊢
    -- only names and values read the flag
    cases c with
    | messageBegin => exact ⟨hl.sound, hl.headed, fun _ ↦ rfl⟩
    | data which off bytes =>
      cases which with
      | url => exact ⟨hl.sound, hl.headed, fun h ↦ hl.initialised (hbegun (by simp) h)⟩
      | headerField =>
        refine ⟨?_, hl.headed, fun _ ↦ rfl⟩
        have hinit := hl.initialised hnoted.1
        have hflag : (P.after l).lastFieldOrValue = 1 ∨ (P.after l).request.headers ≠ [] := hnoted.2
        simpa [Watch.see, after, hl.sound, hl.headed, hinit] using hflag
      | headerValue =>
        refine ⟨?_, hl.headed, fun _ ↦ rfl⟩
        have hne : (P.after l).request.headers ≠ [] := hnoted.2
        simpa [Watch.see, after, hl.sound] using hne
      | body => exact ⟨hl.sound, hl.headed, fun h ↦ hl.initialised (hbegun (by simp) h)⟩
    | headersComplete method httpMajor httpMinor upgrade =>
      exact absurd ⟨_, List.mem_append_right _ (List.mem_singleton_self _), rfl⟩ hno
    | messageComplete => exact ⟨hl.sound, rfl, fun h ↦ hl.initialised (hbegun (by simp) h)⟩

end Piece

/-! ### One call of the parser -/

namespace Watched

/-- Before a message, behind the header section of one, or behind the last one of a connection. -/
inductive Resting (headed : Bool) (q : Parser) : Prop
  | before (hs : q.state = .startReq) (hh : headed = false)
  | tail (h : InTail q) (hh : headed = true)
  | dead (hs : q.state = .dead) (hh : headed = false)

/-- An operation that receives is inside a header section, behind one with its flag not initialised,
or behind the last message. -/
inductive Stage (w : Watch) (q : Parser) (op : RequestOp) : Prop
  | head (past : List Byte) (h : Between (w.initialised = true) q op.view (Scan.read past))
    (hh : w.headed = false)
  | tail (h : InTail q) (hh : w.headed = true) (hi : w.initialised = false)
  | dead (hs : q.state = .dead) (hh : w.headed = false)

/-- How a call of the parser ends: with an error, with all bytes read, or paused. -/
inductive Called (w : Watch) (x : Exec) (op : RequestOp) : Prop
  | failed (he : x.parser.httpErrno.Fatal)
  | ok (he : x.parser.httpErrno = .ok) (h : Stage w x.parser op)
  | paused (he : x.parser.httpErrno = .paused) (h : Resting w.headed x.parser)

variable {w : Watch} {q : Parser} {op : RequestOp} {buffer : ℕ} {data : List Byte}

/-- The callbacks of a call. -/
abbrev made (q : Parser) (op : RequestOp) (buffer : ℕ) (data : List Byte) : List Callback :=
  (q.execute (op.answers buffer) data).1.calls.map Prod.fst

/-- What is to be shown of a call. -/
structure CallSound (w : Watch) (q : Parser) (op : RequestOp) (buffer : ℕ) (data : List Byte) :
    Prop where
  sound : (w.after buffer op (made q op buffer data)).sound = true
  called : Called (w.after buffer op (made q op buffer data)) (q.execute (op.answers buffer) data).1
    (op.handleAll buffer (made q op buffer data))

/-- Without bytes nothing happens. -/
theorem callSound_of_nil (hok : q.httpErrno = .ok) (hsound : w.sound = true) (h : Stage w q op) :
    CallSound w q op buffer [] := by
  have hidle : q.httpErrno ≠ .ok ∨ ([] : List Byte) = [] := .inr rfl
  obtain ⟨hcalls, hend⟩ := Parser.execute_idle (op.answers buffer) hidle
  have hmade : made q op buffer [] = [] := by rw [made, hcalls]; rfl
  refine ⟨by rw [hmade]; exact hsound, ?_⟩
  rw [hmade]
  rcases hend with ⟨-, hq⟩ | he
  · exact .ok (hq.symm ▸ hok) (hq.symm ▸ h)
  · exact .failed (by rw [he]; decide)

/-- The end of a header section. -/
theorem after_headersComplete {l : List Callback} {c : Callback} (hc : c.isHeadersComplete = true)
    (h : (w.after buffer op l).sound = true) : (w.after buffer op (l ++ [c])).sound = true ∧
      (w.after buffer op (l ++ [c])).headed = true := by
  rw [Watch.after_concat]
  cases c with
  | headersComplete method httpMajor httpMinor upgrade => exact ⟨h, rfl⟩
  | messageBegin => cases hc
  | data which off bytes => cases hc
  | messageComplete => cases hc

/-- The end of a message. -/
theorem after_messageComplete {l : List Callback} (h : (w.after buffer op l).sound = true) :
    (w.after buffer op (l ++ [.messageComplete])).sound = true ∧
      (w.after buffer op (l ++ [.messageComplete])).headed = false := by
  rw [Watch.after_concat]
  exact ⟨h, rfl⟩

/-- A header section, or a part of one. -/
theorem callSound_of_head (hop : op.continuous = false) (hok : q.httpErrno = .ok)
    (hdata : data ≠ [])
    (hsound : w.sound = true) {past : List Byte}
    (h : Between (w.initialised = true) q op.view (Scan.read past)) (hh : w.headed = false) :
    CallSound w q op buffer data := by
  set P : Piece := ⟨buffer, op, w.initialised = true, past, data⟩ with hP
  have hleft := Piece.left_execute (P := P) hok hdata h
  have hstart : P.Watching [] w := ⟨hsound, hh, fun hb ↦ hb.resolve_right List.not_mem_nil⟩
  have hwatch : ∀ l, ¬Headed l → P.Proper l → P.Watching l (w.after buffer op (l.map Prod.fst)) :=
    fun l hno hl ↦ Piece.watching_of_proper hstart hl hno
  have hmade : made q op buffer data = (q.execute (op.answers buffer) data).1.calls.map Prod.fst :=
    rfl
  by_cases hhead : Headed (q.execute (op.answers buffer) data).1.calls
  · -- what comes before `on_headers_complete` belongs to the header section
    obtain ⟨m, c, er, hno, hc, hlanded⟩ := hleft.landed hop hhead
    have hm : m <+: (q.execute (op.answers buffer) data).1.calls := by
      rcases hlanded with ⟨hcalls, -⟩ | ⟨hcalls, -, -⟩ | ⟨er', hcalls, -, -⟩ <;> rw [hcalls]
      · exact List.prefix_append _ _
      · exact List.prefix_append _ _
      · exact (List.prefix_append _ _).trans (List.prefix_append _ _)
    obtain ⟨hs, hheaded⟩ :=
      after_headersComplete hc (hwatch m hno (hleft.proper.upTo hm)).sound
    rcases hlanded with ⟨hcalls, he⟩ | ⟨hcalls, hstate, he⟩ | ⟨er', hcalls, hstate, he⟩
    · rw [hcalls, List.map_append] at hmade
      exact ⟨hmade ▸ hs, .failed he⟩
    · rw [hcalls, List.map_append] at hmade
      refine ⟨hmade ▸ hs, .paused he (.tail (.inl ?_) (hmade ▸ hheaded))⟩
      exact hstate.symm ▸ rfl
    · rw [hcalls, List.map_append, List.map_append] at hmade
      obtain ⟨hs, hheaded⟩ := after_messageComplete hs
      refine ⟨hmade ▸ hs, .paused he ?_⟩
      rw [hmade]
      rcases hstate with hstate | hstate
      · exact .before hstate hheaded
      · exact .dead hstate hheaded
  · -- the section goes on
    have hw := hwatch _ hhead hleft.proper
    refine ⟨hw.sound, ?_⟩
    by_cases hok' : (q.execute (op.answers buffer) data).1.parser.httpErrno = .ok
    · exact .ok hok' (.head _ ((hleft.between hhead hok').mono hw.initialised rfl rfl) hw.headed)
    · exact .failed ⟨hok', hleft.paused hhead⟩

/-- A body, or a trailer without fields. -/
theorem callSound_of_tail (hop : op.continuous = false) (hok : q.httpErrno = .ok)
    (hdata : data ≠ [])
    (hsound : w.sound = true) (h : InTail q) (hh : w.headed = true) (hi : w.initialised = false)
    (hfree : ∀ c ∈ made q op buffer data, c.isHeader = false) : CallSound w q op buffer data := by
  have hoff : OffTail (q.execute (op.answers buffer) data).1 := offTail_execute hop hok hdata h
  have hmade : made q op buffer data = (q.execute (op.answers buffer) data).1.calls.map Prod.fst :=
    rfl
  cases hoff with
  | failed hcalls he =>
    rw [hcalls] at hmade
    exact ⟨hmade ▸ hsound, .failed he⟩
  | quiet hcalls he h =>
    rw [hcalls] at hmade
    refine ⟨hmade ▸ hsound, ?_⟩
    rw [hmade]
    exact .ok he (.tail h hh hi)
  | body off bytes er hcalls he h =>
    rw [hcalls] at hmade
    refine ⟨hmade ▸ hsound, ?_⟩
    rw [hmade]
    exact .paused he (.tail h hh)
  | message er hcalls he hs =>
    rw [hcalls] at hmade
    refine ⟨hmade ▸ hsound, ?_⟩
    rw [hmade]
    rcases hs with hs | hs
    · exact .paused he (.before hs rfl)
    · exact .paused he (.dead hs rfl)
  | trailed h =>
    obtain ⟨off, bytes, er, r, hcalls⟩ := h
    -- the name of a trailer field
    have hfirst := hfree (.data .headerField off bytes) (by rw [hmade, hcalls]; exact .head _)
    cases hfirst

/-- A trailer field comes to an operation whose flag is not initialised. -/
theorem not_sound_of_tail (hop : op.continuous = false) (hok : q.httpErrno = .ok)
    (h : InTail q) (hi : w.initialised = false)
    (hbad : ∃ c ∈ made q op buffer data, c.isHeader = true) :
    (w.after buffer op (made q op buffer data)).sound = false := by
  obtain ⟨c, hmem, hc⟩ := hbad
  have hdata : data ≠ [] := by
    rintro rfl
    rw [made, (Parser.execute_idle (op.answers buffer) (.inr rfl)).1] at hmem
    exact List.not_mem_nil hmem
  have hmade : made q op buffer data = (q.execute (op.answers buffer) data).1.calls.map Prod.fst :=
    rfl
  have hoff : OffTail (q.execute (op.answers buffer) data).1 := offTail_execute hop hok hdata h
  cases hoff with
  | failed hcalls he => simp [hmade, hcalls] at hmem
  | quiet hcalls he h => simp [hmade, hcalls] at hmem
  | body off bytes er hcalls he h =>
    rw [hmade, hcalls] at hmem
    obtain rfl := List.mem_singleton.1 hmem
    cases hc
  | message er hcalls he hs =>
    rw [hmade, hcalls] at hmem
    obtain rfl := List.mem_singleton.1 hmem
    cases hc
  | trailed h =>
    obtain ⟨off, bytes, er, r, hcalls⟩ := h
    have hfirst : (w.see op (.data .headerField off bytes)).sound = false := by
      simp [Watch.see, hi]
    rw [hmade, hcalls, List.map_cons, Watch.after]
    exact Watch.sound_after _ _ _ hfirst

/-- A call behind the last message of a connection reads no trailer field. -/
theorem callSound_of_dead (hok : q.httpErrno = .ok) (hdata : data ≠ []) (hsound : w.sound = true)
    (hs : q.state = .dead) (hh : w.headed = false) : CallSound w q op buffer data := by
  obtain ⟨hcalls, hend⟩ := dead_execute (op.answers_pausesAtEnd buffer) hok hdata hs
  have hmade : made q op buffer data = [] := by rw [made, hcalls]; rfl
  refine ⟨hmade ▸ hsound, ?_⟩
  rw [hmade]
  rcases hend with he | ⟨he, hs⟩
  · exact .failed he
  · exact .ok he (.dead hs hh)

/-- **A call of the parser** for a result that is not continuous makes the calls that it should. -/
theorem callSound_of_stage (hop : op.continuous = false) (hok : q.httpErrno = .ok)
    (hsound : w.sound = true) (h : Stage w q op)
    (hfree : w.headed = true → ∀ c ∈ made q op buffer data, c.isHeader = false) :
    CallSound w q op buffer data := by
  by_cases hdata : data = []
  · subst hdata
    exact callSound_of_nil hok hsound h
  · cases h with
    | head past h hh => exact callSound_of_head hop hok hdata hsound h hh
    | tail h hh hi => exact callSound_of_tail hop hok hdata hsound h hh hi (hfree hh)
    | dead hs hh => exact callSound_of_dead hok hdata hsound hs hh

/-! ### Runs -/

/-- The sound states of a socket. -/
inductive SoundOrFailed (s : Watched) : Prop
  | resting (hphase : s.socket.phase = .fresh ∨ s.socket.phase = .delivered)
      (herr : s.socket.parser.httpErrno = .ok ∨ s.socket.parser.httpErrno = .paused)
      (hsound : s.watch.sound = true) (h : Resting s.watch.headed s.socket.parser)
  | receiving (op : RequestOp) (buffer len : ℕ) (hphase : s.socket.phase = .receiving op buffer len)
      (hop : op.continuous = false) (hc : op.messageComplete = false)
      (herr : s.socket.parser.httpErrno = .ok ∨ s.socket.parser.httpErrno = .paused)
      (hsound : s.watch.sound = true) (h : Stage s.watch s.socket.parser op)
  | failed (ec : ErrorCode) (hphase : s.socket.phase = .failed ec) (hsound : s.watch.sound = true)

theorem SoundOrFailed.sound {s : Watched} (h : SoundOrFailed s) : s.watch.sound = true := by
  cases h <;> assumption

theorem soundOrFailed_start (memory : ℕ → Byte) : SoundOrFailed (start memory) :=
  .resting (.inl rfl) (.inl rfl) rfl (.before rfl rfl)

/-- What `receive_callback` does with a call that is kept. -/
theorem soundOrFailed_execute {s : Reception Parser} {bytes : ℕ} (hop : op.continuous = false)
    (hc : op.messageComplete = false) (hok : s.parser.httpErrno = .ok)
    (h : CallSound w s.parser op buffer (read s.memory buffer bytes)) :
    SoundOrFailed ⟨s.execute op buffer bytes,
      w.after buffer op (made s.parser op buffer (read s.memory buffer bytes))⟩ := by
  obtain ⟨hsound, hcalled⟩ := h
  have hnot : (s.parser.execute (op.answers buffer)
      (read s.memory buffer bytes)).1.parser.httpErrno = .ok →
        (op.handleAll buffer (made s.parser op buffer (read s.memory buffer bytes))
          ).messageComplete = false := fun he ↦ by
    rw [RequestOp.handleAll_messageComplete_of_notMem buffer op
      (Parser.notMem_of_ok (op.answers_pausesAtEnd buffer) hok he), hc]
  obtain ⟨hparser, -, ⟨⟨ec, hphase⟩, -⟩ | ⟨hphase, -, -, he⟩ | ⟨⟨b, len, hphase⟩, -, he, hc'⟩⟩ :=
    s.execute_cases op buffer bytes rfl
  · exact .failed ec hphase hsound
  · have hpaused : (s.parser.execute (op.answers buffer)
        (read s.memory buffer bytes)).1.parser.httpErrno = .paused := by
      refine he.resolve_right fun hdone ↦ ?_
      exact Bool.false_ne_true ((hnot hdone.1).symm.trans hdone.2)
    cases hcalled with
    | failed he' => exact absurd hpaused he'.2
    | ok he' => rw [he'] at hpaused; cases hpaused
    | paused he' hresting =>
      exact .resting (.inr hphase) (.inr (hparser ▸ he')) hsound (hparser ▸ hresting)
  · cases hcalled with
    | failed he' => exact absurd he he'.1
    | ok he' hstage =>
      exact .receiving _ b len hphase ((op.handleAll_continuous buffer _).trans hop) hc'
        (.inl (hparser ▸ he')) hsound (hparser ▸ hstage)
    | paused he' =>
      have he : (s.parser.execute (op.answers buffer)
        (read s.memory buffer bytes)).1.parser.httpErrno = .ok := he
      rw [he'] at he
      cases he

theorem Stage.resumed (h : Stage w q op) :
    Stage w { q with httpErrno := .ok } { op with initBufLen := 0 } := by
  cases h with
  | head past h hh => exact .head past (h.mono (fun hi ↦ hi) rfl rfl) hh
  | tail h hh hi => exact .tail h hh hi
  | dead h hh => exact .dead h hh

/-- A completion: with an error, or with bytes the parser is called with. -/
theorem step_received {s t : Watched} {ec : ErrorCode}
    (hstep : s.step (.received ec data) = some t) :
    ∃ op buffer len, s.socket.phase = .receiving op buffer len ∧
      (s.socket.callbacks (.received ec data) = [] ∧ t.socket.phase = .failed ec ∧
          t.watch = s.watch ∨
        ∃ (r : Reception Parser) (bytes : ℕ), r.parser = s.socket.ready ∧
          s.socket.callbacks (.received ec data) =
            made r.parser { op with initBufLen := 0 } buffer (read r.memory buffer bytes) ∧
          t = ⟨r.execute { op with initBufLen := 0 } buffer bytes,
            s.watch.after buffer { op with initBufLen := 0 } (made r.parser
              { op with initBufLen := 0 } buffer (read r.memory buffer bytes))⟩) := by
  obtain ⟨u, hu, rfl⟩ := Option.map_eq_some_iff.1 hstep
  obtain ⟨op, buffer, len, hphase, h⟩ := Reception.step_received hu
  have hseen : s.seen (.received ec data) = s.watch.after buffer { op with initBufLen := 0 }
      (s.socket.callbacks (.received ec data)) := by
    simp only [seen, hphase]
  refine ⟨op, buffer, len, hphase, ?_⟩
  rw [hseen, Reception.callbacks, Reception.calls]
  rcases h with ⟨hnone, hfailed⟩ | ⟨r, bytes, hr, -, hsome, rfl⟩
  · rw [hnone]
    exact .inl ⟨rfl, hfailed, rfl⟩
  · rw [hsome]
    dsimp only
    rw [← hr]
    exact .inr ⟨r, bytes, rfl, rfl, rfl⟩

/-- Between results any operation may follow. -/
theorem Resting.stage (h : Resting w.headed q) (op : RequestOp) : Stage w.renew q op := by
  cases h with
  | before hs hh => exact .head [] (.lead hs) hh
  | tail h hh => exact .tail h hh rfl
  | dead hs hh => exact .dead hs hh

/-- **Every step without a trailer field is sound, or fails.** -/
theorem soundOrFailed_step {s t : Watched} {e : ReceptionEvent} (hs : SoundOrFailed s)
    (he : e.stepwise = true)
    (hfree : s.TrailerFree e) (hstep : s.step e = some t) : SoundOrFailed t := by
  cases e with
  | call continuous request buf bufLen lastFieldOrValue =>
    obtain ⟨u, hu, rfl⟩ := Option.map_eq_some_iff.1 hstep
    obtain ⟨hphase, hparser, -, op, buffer, len, hphase', hcont, hc⟩ := Reception.step_call hu
    obtain rfl : continuous = false := by simpa [ReceptionEvent.stepwise] using he
    cases hs with
    | resting _ herr hsound h =>
      exact .receiving op buffer len hphase' hcont hc (hparser ▸ herr) hsound
        (hparser ▸ h.stage op)
    | receiving _ _ _ h => rw [h] at hphase; exact hphase.elim nofun nofun
    | failed _ h => rw [h] at hphase; exact hphase.elim nofun nofun
  | received ec data =>
    obtain ⟨op, buffer, len, hphase, hreceived⟩ := step_received hstep
    cases hs with
    | resting h => rw [hphase] at h; exact h.elim nofun nofun
    | failed _ h => rw [hphase] at h; cases h
    | receiving op' buffer' len' hphase' hop hc herr hsound h =>
      obtain ⟨rfl, rfl, rfl⟩ := Phase.receiving.inj (hphase.symm.trans hphase')
      rcases hreceived with ⟨-, hfailed, hwatch⟩ | ⟨r, bytes, hr, hmade, rfl⟩
      · exact .failed ec hfailed (hwatch ▸ hsound)
      · have hr : r.parser = { s.socket.parser with httpErrno := .ok } :=
          hr.trans (Parser.resume_eq herr)
        have hok : r.parser.httpErrno = .ok := by rw [hr]
        refine soundOrFailed_execute hop hc hok
          (callSound_of_stage hop hok hsound (hr ▸ h.resumed) fun hh c hmem ↦ ?_)
        exact hfree hh c (hmade ▸ hmem)

/-- A step with a trailer field is not sound. -/
theorem not_sound_step {s t : Watched} {e : ReceptionEvent} (hs : SoundOrFailed s)
    (hfree : ¬s.TrailerFree e) (hstep : s.step e = some t) : t.watch.sound = false := by
  simp only [TrailerFree, not_forall, Bool.not_eq_false] at hfree
  obtain ⟨hh, c, hmem, hc⟩ := hfree
  cases e with
  | call continuous request buf bufLen lastFieldOrValue => exact absurd hmem List.not_mem_nil
  | received ec data =>
    obtain ⟨op, buffer, len, hphase, hreceived⟩ := step_received hstep
    cases hs with
    | resting h => rw [hphase] at h; exact h.elim nofun nofun
    | failed _ h => rw [hphase] at h; cases h
    | receiving op' buffer' len' hphase' hop _ herr hsound h =>
      obtain ⟨rfl, rfl, rfl⟩ := Phase.receiving.inj (hphase.symm.trans hphase')
      rcases hreceived with ⟨hnil, -, -⟩ | ⟨r, bytes, hr, hmade, rfl⟩
      · rw [hnil] at hmem
        exact absurd hmem List.not_mem_nil
      · have hr : r.parser = { s.socket.parser with httpErrno := .ok } :=
          hr.trans (Parser.resume_eq herr)
        have hok : r.parser.httpErrno = .ok := by rw [hr]
        have hstage : Stage s.watch r.parser { op with initBufLen := 0 } := hr ▸ h.resumed
        cases hstage with
        | tail htail _ hi => exact not_sound_of_tail hop hok htail hi ⟨c, hmade ▸ hmem, hc⟩
        | head past _ hhead => rw [hh] at hhead; cases hhead
        | dead _ hhead => rw [hh] at hhead; cases hhead

/-- **Sound without trailer fields.** A socket receives any bytes in any pieces, one result for each
call, with whatever request object and whatever the memory of the operation holds. Every
`on_header_field` and `on_header_value` reads an initialised flag and an entry that is there,
exactly as long as no trailer field comes. -/
theorem sound_throughout_iff {memory : ℕ → Byte} {l : List ReceptionEvent} {t : Watched}
    (hl : ∀ e ∈ l, e.stepwise = true) (hrun : Transition.run step (start memory) l = some t) :
    Transition.Throughout step (fun s ↦ s.watch.sound = true) (start memory) l ↔
      Transition.RunMeets step TrailerFree (start memory) l :=
  Transition.throughout_iff_of_forall (fun _ h ↦ SoundOrFailed.sound h)
    (fun _ _ _ hs he hfree hstep ↦ soundOrFailed_step hs he hfree hstep)
    (fun _ _ _ hs _ hfree hstep ↦ by
      rw [not_sound_step hs hfree hstep]
      exact Bool.false_ne_true)
    (soundOrFailed_start memory) hl hrun

/-- A request with the body `a` in one chunk, and the trailer `trailer`. -/
def chunkedRequest (trailer : List Byte) : List Byte :=
  ascii ['P', 'O', 'S', 'T', ' ', '/', ' ', 'H', 'T', 'T', 'P', '/', '1', '.', '1'] ++ [CR, LF] ++
    ascii ['T', 'r', 'a', 'n', 's', 'f', 'e', 'r', '-', 'E', 'n', 'c', 'o', 'd', 'i', 'n', 'g', ':',
      'c', 'h', 'u', 'n', 'k', 'e', 'd'] ++ [CR, LF, CR, LF] ++
    ascii ['1'] ++ [CR, LF] ++ ascii ['a'] ++ [CR, LF] ++ ascii ['0'] ++ [CR, LF] ++ trailer ++
    [CR, LF]

/-- A call with an empty request object, whose operation finds zeros in the memory. -/
def emptyCall : ReceptionEvent := .call false ⟨[], [], .zero, 0, 0, []⟩ 64 128 0

/-- The request received at once, with a call for each of its three results. -/
def threeResults (trailer : List Byte) : List ReceptionEvent :=
  [emptyCall, .received .noError (chunkedRequest trailer), emptyCall, .received .noError [],
    emptyCall, .received .noError []]

/-- The theorem on a request whose trailer has no field. -/
theorem sound_throughout_iff_three :
    ∃ t, Transition.run step (start fun _ ↦ 0) (threeResults []) = some t ∧
      (Transition.Throughout step (fun s ↦ s.watch.sound = true) (start fun _ ↦ 0)
          (threeResults []) ↔
        Transition.RunMeets step TrailerFree (start fun _ ↦ 0) (threeResults [])) := by
  have hsome : (Transition.run step (start fun _ ↦ 0) (threeResults [])).isSome = true := by
    decide +kernel
  obtain ⟨t, ht⟩ := Option.isSome_iff_exists.1 hsome
  exact ⟨t, ht, sound_throughout_iff (by decide) ht⟩

/-- The trailer field `A:b` comes to the third operation, whose flag nothing has written and whose
request has no header. -/
theorem not_sound_throughout :
    (∀ e ∈ threeResults (ascii ['A', ':', 'b'] ++ [CR, LF]), e.stepwise = true) ∧
      ¬Transition.Throughout step (fun s ↦ s.watch.sound = true) (start fun _ ↦ 0)
        (threeResults (ascii ['A', ':', 'b'] ++ [CR, LF])) := by
  have hmap : (Transition.run step (start fun _ ↦ 0)
      (threeResults (ascii ['A', ':', 'b'] ++ [CR, LF]))).map (fun t ↦ t.watch.sound) =
        some false := by decide +kernel
  obtain ⟨t, ht, hsound⟩ := Option.map_eq_some_iff.1 hmap
  refine ⟨by decide, fun h ↦ ?_⟩
  have htrue := Transition.throughout_iff_forall_append.1 h _ [] t (List.append_nil _).symm ht
  rw [hsound] at htrue
  cases htrue

end Watched

end JnetLib.Http
