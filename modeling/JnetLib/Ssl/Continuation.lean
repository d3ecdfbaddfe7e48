import JnetLib.Ssl.Operation

/-!
# An SSL operation has one continuation

`continues_of_run` says that an operation that has returned has one thing still to come, or has been
completed once; and that the steps `io_operation` takes by itself come to an end.

* `Located` lists the places an operation can be at, each with what is outstanding there. The parts
  of `io_operation` are followed one by one, from the label `default` on and from the top of the
  loop on; `located_step` puts them together.
* An operation that stalls is one whose engine asks for output and has none. `Lawful` excludes it,
  and is used for nothing else there.
* Each internal step lowers `budget`: an engine that wants more input is called again only behind a
  `put_input` that has taken some.
-/

namespace JnetLib.Ssl

namespace SslOp

/-! ### The invariant -/

/-- Nothing is outstanding, no flag is set and nothing has been completed. -/
structure Idle (receives sends posts completions : ℕ) (inputFlag outputFlag asserted : Bool)
    (callbacks : List (ErrorCode × ℕ)) : Prop where
  receives : receives = 0
  sends : sends = 0
  posts : posts = 0
  completions : completions = 0
  inputFlag : inputFlag = false
  outputFlag : outputFlag = false
  asserted : asserted = false
  callbacks : callbacks = []

/-- `Idle`, of the fields of a state. It does not depend on the others. -/
def NothingOutstanding (s : SslOp) : Prop :=
  Idle s.receives s.sends s.posts s.completions s.inputFlag s.outputFlag s.asserted s.callbacks

/-- Where an operation can be: inside `io_operation`, with one of the three kinds of callback to
come, or at its end. It has stalled, with nothing to come, only if `p` holds. -/
inductive Located (p : Prop) (s : SslOp) : Prop
  | loop (start : Bool) (ec : ErrorCode) (bytes : ℕ) (hplace : s.place = .loop start ec bytes)
      (h : NothingOutstanding s)
  | putting (start : Bool) (ec : ErrorCode) (bytes : ℕ) (hplace : s.place = .putting start ec bytes)
      (hstart : start = true → s.inputBuffer ≠ []) (h : NothingOutstanding s)
  | receiving (hplace : s.place = .returned) (hwant : s.want = .inputAndRetry)
      (hr : s.receives = 1) (hf : s.inputFlag = true)
      (h : NothingOutstanding { s with receives := 0, inputFlag := false })
  | sending (hplace : s.place = .returned) (hwant : s.want = .output ∨ s.want = .outputAndRetry)
      (hr : s.sends = 1) (hf : s.outputFlag = true)
      (h : NothingOutstanding { s with sends := 0, outputFlag := false })
  | posted (hplace : s.place = .returned) (hr : s.posts = 1)
    (h : NothingOutstanding { s with posts := 0 })
  | done (hplace : s.place = .returned) (hc : s.completions = 1) (hl : s.callbacks.length = 1)
      (h : NothingOutstanding { s with completions := 0, callbacks := [] })
  | stalled (hp : p) (hplace : s.place = .returned) (h : NothingOutstanding s)

variable {p : Prop} {s t : SslOp}

theorem Located.continues (h : Located False s) : s.Continues := by
  cases h with
  | loop start ec bytes hplace h =>
    obtain ⟨hr, hs, hp, hc, hi, ho, ha, hl⟩ := h
    constructor <;> simp [*]
  | putting start ec bytes hplace hstart h =>
    obtain ⟨hr, hs, hp, hc, hi, ho, ha, hl⟩ := h
    constructor <;> simp [*]
  | receiving hplace hwant hr hf h =>
    obtain ⟨_, _, _, _, _, _, _, _⟩ := h
    constructor <;> simp_all
  | sending hplace hwant hr hf h =>
    obtain ⟨_, _, _, _, _, _, _, _⟩ := h
    constructor <;> simp_all
  | posted hplace hr h =>
    obtain ⟨_, _, _, _, _, _, _, _⟩ := h
    constructor <;> simp_all
  | done hplace hc hl h =>
    obtain ⟨_, _, _, _, _, _, _, _⟩ := h
    constructor <;> simp_all
  | stalled hp hplace h => exact hp.elim

/-- Inside `io_operation` nothing is outstanding. -/
theorem Located.nothingOutstanding (h : Located p s) (hplace : s.place ≠ .returned) :
    NothingOutstanding s := by
  cases h with
  | loop _ _ _ _ h => exact h
  | putting _ _ _ _ _ h => exact h
  | receiving hr => exact absurd hr hplace
  | sending hr => exact absurd hr hplace
  | posted hr => exact absurd hr hplace
  | done hr => exact absurd hr hplace
  | stalled _ hr => exact absurd hr hplace

theorem Located.callbacks_le (h : Located p s) : s.callbacks.length ≤ 1 := by
  have hnil (hq : s.callbacks = []) : s.callbacks.length ≤ 1 := by
    rw [hq]
    exact Nat.zero_le 1
  cases h with
  | done _ _ hl => exact Nat.le_of_eq hl
  | loop _ _ _ _ h => exact hnil h.callbacks
  | putting _ _ _ _ _ h => exact hnil h.callbacks
  | receiving _ _ _ _ h => exact hnil h.callbacks
  | sending _ _ _ _ h => exact hnil h.callbacks
  | posted _ _ h => exact hnil h.callbacks
  | stalled _ _ h => exact hnil h.callbacks

/-- `put_input` is called in the initiating call only with bytes left over. -/
theorem Located.inputBuffer_ne_nil (h : Located p s) {ec : ErrorCode} {bytes : ℕ}
    (hplace : s.place = .putting true ec bytes) : s.inputBuffer ≠ [] := by
  cases h with
  | putting start _ _ hplace' hstart =>
    obtain ⟨rfl, -, -⟩ := Place.putting.inj (hplace.symm.trans hplace')
    exact hstart rfl
  | loop _ _ _ hplace' => cases hplace.symm.trans hplace'
  | receiving hplace' => cases hplace.symm.trans hplace'
  | sending hplace' => cases hplace.symm.trans hplace'
  | posted hplace' => cases hplace.symm.trans hplace'
  | done hplace' => cases hplace.symm.trans hplace'
  | stalled _ hplace' => cases hplace.symm.trans hplace'

theorem Located.receiving_of_pos (h : Located p s) (hr : 0 < s.receives) :
    s.want = .inputAndRetry ∧ s.receives = 1 ∧
      NothingOutstanding { s with receives := 0, inputFlag := false } := by
  cases h with
  | receiving _ hwant hr' _ h => exact ⟨hwant, hr', h⟩
  | loop _ _ _ _ h => exact absurd h.receives (Nat.ne_of_gt hr)
  | putting _ _ _ _ _ h => exact absurd h.receives (Nat.ne_of_gt hr)
  | sending _ _ _ _ h => exact absurd h.receives (Nat.ne_of_gt hr)
  | posted _ _ h => exact absurd h.receives (Nat.ne_of_gt hr)
  | done _ _ _ h => exact absurd h.receives (Nat.ne_of_gt hr)
  | stalled _ _ h => exact absurd h.receives (Nat.ne_of_gt hr)

theorem Located.sending_of_pos (h : Located p s) (hr : 0 < s.sends) :
    (s.want = .output ∨ s.want = .outputAndRetry) ∧ s.sends = 1 ∧ s.outputFlag = true ∧
      NothingOutstanding { s with sends := 0, outputFlag := false } := by
  cases h with
  | sending _ hwant hr' hf h => exact ⟨hwant, hr', hf, h⟩
  | loop _ _ _ _ h => exact absurd h.sends (Nat.ne_of_gt hr)
  | putting _ _ _ _ _ h => exact absurd h.sends (Nat.ne_of_gt hr)
  | receiving _ _ _ _ h => exact absurd h.sends (Nat.ne_of_gt hr)
  | posted _ _ h => exact absurd h.sends (Nat.ne_of_gt hr)
  | done _ _ _ h => exact absurd h.sends (Nat.ne_of_gt hr)
  | stalled _ _ h => exact absurd h.sends (Nat.ne_of_gt hr)

theorem Located.posted_of_pos (h : Located p s) (hr : 0 < s.posts) :
    s.posts = 1 ∧ NothingOutstanding { s with posts := 0 } := by
  cases h with
  | posted _ hr' h => exact ⟨hr', h⟩
  | loop _ _ _ _ h => exact absurd h.posts (Nat.ne_of_gt hr)
  | putting _ _ _ _ _ h => exact absurd h.posts (Nat.ne_of_gt hr)
  | receiving _ _ _ _ h => exact absurd h.posts (Nat.ne_of_gt hr)
  | sending _ _ _ _ h => exact absurd h.posts (Nat.ne_of_gt hr)
  | done _ _ _ h => exact absurd h.posts (Nat.ne_of_gt hr)
  | stalled _ _ h => exact absurd h.posts (Nat.ne_of_gt hr)

theorem located_start (kind : Kind) (inputBuffer bio : List Byte) (ssl2 : Bool) :
    Located p (start kind inputBuffer bio ssl2) :=
  .loop true .noError 0 rfl ⟨rfl, rfl, rfl, rfl, rfl, rfl, rfl, rfl⟩

/-- A completed operation is at its end, or has been started again. -/
theorem located_complete (h : NothingOutstanding s) (ec : ErrorCode) :
    Located p (s.complete ec) := by
  have hcallback : ∀ ec n, Located p ({ s with completions := s.completions + 1 }.callback ec n) :=
    fun ec n ↦ .done rfl (by simp [callback, h.completions]) (by simp [callback, h.callbacks])
      { h with completions := rfl, callbacks := rfl }
  have hagain : Located p { s with completions := s.completions + 1 }.doSslOperation :=
    .loop true .noError 0 rfl { h with completions := rfl }
  rw [complete, onComplete]
  split
  · exact hcallback _ _
  · exact hcallback _ _
  · split
    · exact hagain
    · exact hcallback _ _
  · split
    · exact hagain
    · exact hcallback _ _

theorem located_finish (h : NothingOutstanding s) (unread : Bool) : Located p (s.finish unread) :=
  located_complete (s := { s with ec := mapErrorCode s.ssl2 unread s.ec }) h _

theorem located_test (h : NothingOutstanding s) (start : Bool) (ec : ErrorCode) (bytes : ℕ)
    (unread : Bool) :
    Located p (s.test start ec bytes unread) := by
  rw [test]
  split
  · exact located_finish h unread
  · exact .loop start ec bytes rfl h

/-! ### From the label `default` on -/

variable {ec : ErrorCode} {bytes : ℕ} {data : List Byte} {unread first : Bool}

/-- After a receive its bytes are offered to the engine. -/
theorem located_answer_input (hwant : s.want = .inputAndRetry)
    (h : NothingOutstanding { s with inputFlag := false }) :
    Located p (s.answer ec bytes data unread) := by
  rw [answer, hwant]
  exact .putting false ec bytes rfl nofun h

theorem flush_of_nil (hb : s.bio = []) : s.flush = { s with outputFlag := false } :=
  if_pos hb

theorem flush_of_ne_nil (hb : s.bio ≠ []) :
    s.flush = { s with
      bio := s.bio.drop sslBufferSize
      sends := s.sends + 1
      sent := s.sent ++ s.bio.take sslBufferSize } :=
  if_neg hb

/-- What `get_output` yields is sent. -/
theorem located_flush (hwant : s.want = .output ∨ s.want = .outputAndRetry)
    (hf : s.outputFlag = true)
    (hb : s.bio ≠ []) (h : NothingOutstanding { s with outputFlag := false }) :
    Located p { s.flush with place := .returned } := by
  have hsends : s.sends = 0 := h.sends
  rw [flush_of_ne_nil hb]
  refine .sending rfl hwant ?_ hf { h with sends := rfl }
  rw [hsends]

/-- After a send more output is sent, or there is none. -/
theorem located_answer_output (hwant : s.want = .output ∨ s.want = .outputAndRetry)
    (hf : s.outputFlag = true) (h : NothingOutstanding { s with outputFlag := false }) :
    Located p (s.answer ec bytes data unread) := by
  by_cases hb : s.bio = []
  · have hq : NothingOutstanding s.flush := by
      rw [flush_of_nil hb]
      exact h
    rcases hwant with hw | hw
    · simp only [answer, hw, if_pos hb]
      exact located_finish hq unread
    · simp only [answer, hw, if_pos hb]
      exact located_test hq false ec bytes unread
  · have hi := located_flush (p := p) hwant hf hb h
    rcases hwant with hw | hw
    · simp only [answer, hw, if_neg hb]
      exact hi
    · simp only [answer, hw, if_neg hb]
      exact hi

theorem located_answer_nothing (hwant : s.want = .nothing) (h : NothingOutstanding s) :
    Located p (s.answer ec bytes data unread) := by
  rw [answer, hwant]
  exact located_finish h unread

/-! ### From the top of the loop on -/

/-- The inner `switch` returns with one thing to come. Only where output is asked for and there is
none, nothing comes. -/
theorem located_dispatch (h : NothingOutstanding s)
    (hp : s.want = .output ∨ s.want = .outputAndRetry → s.bio = [] → p) :
    Located p (s.dispatch first ec bytes unread) := by
  have hsend (hw : s.want = .output ∨ s.want = .outputAndRetry) : Located p s.send := by
    have hq : NothingOutstanding
      { s with asserted := s.asserted || s.outputFlag, outputFlag := false } :=
      { h with outputFlag := rfl, asserted := by simp [h.outputFlag, h.asserted] }
    by_cases hb : s.bio = []
    · rw [send, flush_of_nil (s := { s with
        asserted := s.asserted || s.outputFlag
        outputFlag := true }) hb]
      exact .stalled (hp hw hb) rfl hq
    · exact located_flush
        (s := { s with asserted := s.asserted || s.outputFlag, outputFlag := true })
        hw rfl hb hq
  rw [dispatch]
  split
  case h_1 hw =>
    split
    · next hb => exact .putting first ec bytes rfl (fun _ ↦ hb) h
    · exact .receiving rfl hw (by simp [receive, h.receives]) rfl
        { h with
          receives := rfl
          inputFlag := rfl
          asserted := by simp [receive, h.inputFlag, h.asserted] }
  case h_2 hw => exact hsend (.inr hw)
  case h_3 hw => exact hsend (.inl hw)
  case h_4 hw =>
    split
    · exact .posted rfl (by simp [h.posts]) { h with posts := rfl }
    · exact located_answer_nothing hw h

/-- **Every step keeps the operation where `Located` says.** It stalls only where the engine asks
for output and has none. -/
theorem located_step {e : SslEvent} (hs : Located p s) (hp : s.Lawful e ∨ p)
    (hstep : s.step e = some t) :
    Located p t := by
  cases e with
  | engine c =>
    rw [step] at hstep
    split at hstep
    case h_2 => cases hstep
    case h_1 start ec bytes hplace =>
      obtain rfl := Option.some.inj hstep
      have h : NothingOutstanding (s.callOp c) := hs.nothingOutstanding (by simp [hplace])
      exact located_dispatch h fun hw hb ↦ hp.elim (fun hl ↦ absurd hb (hl hw)) id
  | put n unread =>
    rw [step] at hstep
    split at hstep
    case h_2 => cases hstep
    case h_1 start ec bytes hplace =>
      obtain rfl := Option.some.inj hstep
      have h : NothingOutstanding { s with inputBuffer := s.inputBuffer.drop n } :=
        hs.nothingOutstanding (by simp [hplace])
      exact located_test h start ec bytes unread
  | received ec data unread =>
    obtain ⟨⟨-, hr⟩, ht⟩ := Option.ite_none_right_eq_some.1 hstep
    obtain rfl := Option.some.inj ht
    obtain ⟨hwant, hr', h⟩ := hs.receiving_of_pos hr
    exact located_answer_input hwant { h with receives := by simp [hr'] }
  | sent ec bytes unread =>
    obtain ⟨⟨-, hr⟩, ht⟩ := Option.ite_none_right_eq_some.1 hstep
    obtain rfl := Option.some.inj ht
    obtain ⟨hwant, hr', hf, h⟩ := hs.sending_of_pos hr
    exact located_answer_output hwant hf { h with sends := by simp [hr'] }
  | posted =>
    obtain ⟨⟨-, hr⟩, ht⟩ := Option.ite_none_right_eq_some.1 hstep
    obtain rfl := Option.some.inj ht
    obtain ⟨hr', h⟩ := hs.posted_of_pos hr
    exact located_complete (s := { s with posts := s.posts - 1 }) { h with posts := by simp [hr'] }
      s.ec

/-! ### The loop ends -/

/-- The steps `io_operation` takes by itself. -/
def internal : SslEvent → Bool
  | .engine _ => true
  | .put _ _ => true
  | _ => false

/-- How many of them are still possible. An engine that wants input is called again only after
`put_input` has taken some; a sending or receiving operation may be started again on the way. -/
def budget (s : SslOp) : ℕ :=
  match s.place with
  | .returned => 0
  | .loop true _ _ => 2 * s.inputBuffer.length + 1
  | .loop false _ _ => 2 * s.inputBuffer.length + 2
  | .putting true _ _ => 2 * s.inputBuffer.length
  | .putting false _ _ =>
    if s.inputBuffer = [] then 3 else 2 * s.inputBuffer.length + 1

theorem budget_le (s : SslOp) : s.budget ≤ 2 * s.inputBuffer.length + 3 := by
  unfold budget
  split
  case h_5 => split <;> omega
  all_goals omega

theorem budget_loop {ec : ErrorCode} {bytes : ℕ} (hplace : s.place = .loop first ec bytes) :
    s.budget = 2 * s.inputBuffer.length + if first then 1 else 2 := by
  rw [budget, hplace]
  cases first <;> rfl

theorem budget_putting {ec : ErrorCode} {bytes : ℕ} (hplace : s.place = .putting first ec bytes) :
    s.budget = if first then 2 * s.inputBuffer.length
      else if s.inputBuffer = [] then 3 else 2 * s.inputBuffer.length + 1 := by
  rw [budget, hplace]
  cases first <;> rfl

theorem budget_complete_le (s : SslOp) (ec : ErrorCode) :
    (s.complete ec).budget ≤ 2 * s.inputBuffer.length + 1 := by
  rw [complete, onComplete]
  split
  · exact Nat.zero_le _
  · exact Nat.zero_le _
  · split
    · exact Nat.le_refl _
    · exact Nat.zero_le _
  · split
    · exact Nat.le_refl _
    · exact Nat.zero_le _

/-- After an error nothing is started again. -/
theorem budget_complete_of_isError (s : SslOp) {ec : ErrorCode} (h : ec.isError = true) :
    (s.complete ec).budget = 0 := by
  rw [complete, onComplete]
  split
  · rfl
  · rfl
  · rw [if_neg (by simp [h])]
    rfl
  · rw [if_neg (by simp [h])]
    rfl

theorem budget_finish_le (s : SslOp) (unread : Bool) :
    (s.finish unread).budget ≤ 2 * s.inputBuffer.length + 1 :=
  budget_complete_le _ _

theorem budget_test_le (s : SslOp) (start : Bool) (ec : ErrorCode) (bytes : ℕ) (unread : Bool) :
    (s.test start ec bytes unread).budget ≤
      2 * s.inputBuffer.length + if start then 1 else 2 := by
  rw [test]
  split
  case isTrue h =>
    rw [finish, budget_complete_of_isError _ (by rw [isError_mapErrorCode, h])]
    exact Nat.zero_le _
  case isFalse => cases start <;> exact Nat.le_refl _

theorem budget_dispatch_lt (s : SslOp) (start : Bool) (ec : ErrorCode) (bytes : ℕ)
    (unread : Bool) :
    (s.dispatch start ec bytes unread).budget <
      2 * s.inputBuffer.length + if start then 1 else 2 := by
  have hpos : 0 < 2 * s.inputBuffer.length + if start then 1 else 2 := by
    cases start <;> simp
  rw [dispatch]
  split
  case h_1 hw =>
    split
    · next hb =>
      cases start
      · simp [budget, hb]
      · simp [budget]
    · exact hpos
  case h_2 => exact hpos
  case h_3 => exact hpos
  case h_4 hw =>
    split
    · exact Nat.succ_pos _
    · simp only [resume, answer, hw]
      exact Nat.lt_succ_of_le (budget_finish_le _ _)

theorem budget_lt {e : SslEvent} (hs : Located p s) (he : internal e = true) (hl : s.Lawful e)
    (hstep : s.step e = some t) : t.budget < s.budget := by
  cases e with
  | engine c =>
    rw [step] at hstep
    split at hstep
    case h_2 => cases hstep
    case h_1 first ec bytes hplace =>
      obtain rfl := Option.some.inj hstep
      rw [budget_loop hplace]
      exact budget_dispatch_lt (s.callOp c) first ec bytes c.unread
  | put n unread =>
    rw [step] at hstep
    split at hstep
    case h_2 => cases hstep
    case h_1 first ec bytes hplace =>
      obtain rfl := Option.some.inj hstep
      have h := budget_test_le { s with inputBuffer := s.inputBuffer.drop n } first ec bytes unread
      rw [List.length_drop] at h
      obtain ⟨hn, hpos⟩ := hl
      rw [budget_putting hplace]
      refine Nat.lt_of_le_of_lt h ?_
      by_cases hb : s.inputBuffer = []
      · cases first
        · simp [hb]
        · exact absurd hb (hs.inputBuffer_ne_nil hplace)
      · have := hpos hb
        cases first
        · rw [if_neg hb]
          simp only [Bool.false_eq_true, if_false]
          omega
        · simp only [if_true]
          omega
  | received => cases he
  | sent => cases he
  | posted => cases he

/-- **An SSL operation has exactly one continuation.** In every state of every run of one operation,
whatever the engine and the transport answer: whenever `io_operation` has returned, the operation
has been completed once since it was last started, or one transport operation or posted callback is
outstanding; the flags say which transport operation that is, and no assertion fails. And
`io_operation` does return: the steps it takes by itself are bounded by the input it has. -/
theorem continues_of_run {kind : Kind} {inputBuffer bio : List Byte} {ssl2 : Bool}
    {l : List SslEvent} (hl : Transition.RunMeets step Lawful (start kind inputBuffer bio ssl2) l)
    (hrun : Transition.run step (start kind inputBuffer bio ssl2) l = some t) :
    t.Continues ∧
      ∀ l' u, Transition.RunMeets step (fun s e ↦ internal e = true ∧ s.Lawful e) t l' →
        Transition.run step t l' = some u → l'.length ≤ 2 * t.inputBuffer.length + 3 := by
  have hstep : ∀ s e t, Located False s → s.Lawful e → s.step e = some t → Located False t :=
    fun s e t hs he h ↦ located_step hs (.inl he) h
  have ht : Located False t := Transition.invariant_run hstep (located_start _ _ _ _) hl hrun
  refine ⟨ht.continues, fun l' u hl' hrun' ↦ ?_⟩
  calc l'.length ≤ t.budget :=
        Transition.length_le_of_run (fun s e u hs he h ↦
          ⟨hstep s e u hs he.2 h, budget_lt hs he.1 he.2 h⟩) ht hl' hrun'
    _ ≤ 2 * t.inputBuffer.length + 3 := budget_le t

/-- The theorem on a handshake that sends, receives two bytes, hands them on one by one and is
done. -/
theorem continues_of_run_handshake :
    SslOp.Continues { start .handshake [] [] false with
      place := .returned
      completions := 1
      callbacks := [(.noError, 0)]
      produced := [1]
      sent := [1] } := by
  let wants : SslCall := ⟨-1, SSL_ERROR_WANT_READ, 0, [], false, false⟩
  have hl : Transition.RunMeets step Lawful (start .handshake [] [] false)
      [.engine { wants with output := [1] }, .sent .noError 1 false, .engine wants,
        .received .noError [7, 8] false, .put 1 false, .engine wants, .put 1 false,
        .engine { wants with result := 1, sslError := SSL_ERROR_NONE }] := by decide
  exact (continues_of_run hl (by decide)).1

end SslOp

end JnetLib.Ssl
