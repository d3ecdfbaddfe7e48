import JnetLib.Http.Reception

/-!
# No byte is lost between two results

`nothingLost_of_run` says that no byte is lost and none is parsed twice, whatever pieces the
transport brings, over any parser that keeps to `Lawful`.

`Situation` has a case for each phase: what has been consumed, and where the bytes are that have
not. A step is either a call, which takes the leftover over (`situation_doRequestOperation`), or a
completion, which hands the parser what has not been consumed (`situation_receiveCallback`); and
`situation_execute` says what comes back from there. Of the parser it uses `Lawful`: it consumes no
more than it is given, does not go beyond the end of a message, and leaves bytes over with an error
number only. `parser_lawful` shows this of the bundled one.

Only the `fin` of a result needs more, `OnlyCallbacksPause`: no parser that pauses of its own accord
could tell the operation what for.
-/

namespace JnetLib.Http

/-! ### What the callbacks leave alone -/

namespace RequestOp

variable {buffer : ℕ} {op : RequestOp}

theorem due_initBufLen (op : RequestOp) (result : Result) :
    (op.due result).op.initBufLen = op.initBufLen := by
  rw [due]
  split <;> rfl

theorem due_messageComplete (op : RequestOp) (result : Result) :
    (op.due result).op.messageComplete = op.messageComplete := by
  rw [due]
  split <;> rfl

theorem due_result (op : RequestOp) (result : Result) : (op.due result).op.result = result := by
  rw [due]
  split <;> rfl

theorem handle_initBufLen (buffer : ℕ) (op : RequestOp) (c : Callback) :
    (handle buffer op c).op.initBufLen = op.initBufLen := by
  cases c with
  | messageBegin => rfl
  | data which off bytes =>
    cases which with
    | url => rfl
    | headerField => rfl
    | headerValue => rfl
    | body => exact due_initBufLen _ _
  | headersComplete method httpMajor httpMinor upgrade =>
    rw [handle, onHeadersComplete]
    split
    · exact due_initBufLen _ _
    · rfl
  | messageComplete => rfl

theorem handleAll_initBufLen (buffer : ℕ) (op : RequestOp) (l : List Callback) :
    (op.handleAll buffer l).initBufLen = op.initBufLen := by
  induction l generalizing op with
  | nil => rfl
  | cons c l ih => rw [handleAll_cons, ih, handle_initBufLen]

/-- Only the end of a message completes the operation. -/
theorem handle_messageComplete (buffer : ℕ) (op : RequestOp) {c : Callback}
    (hc : c ≠ .messageComplete) :
    (handle buffer op c).op.messageComplete = op.messageComplete := by
  cases c with
  | messageBegin => rfl
  | data which off bytes =>
    cases which with
    | url => rfl
    | headerField => rfl
    | headerValue => rfl
    | body => exact due_messageComplete _ _
  | headersComplete method httpMajor httpMinor upgrade =>
    rw [handle, onHeadersComplete]
    split
    · exact due_messageComplete _ _
    · rfl
  | messageComplete => exact absurd rfl hc

theorem handleAll_messageComplete_of_notMem (buffer : ℕ) (op : RequestOp) {l : List Callback}
    (hl : .messageComplete ∉ l) :
    (op.handleAll buffer l).messageComplete = op.messageComplete := by
  induction l generalizing op with
  | nil => rfl
  | cons c l ih =>
    rw [List.mem_cons, not_or] at hl
    rw [handleAll_cons, ih _ hl.2, handle_messageComplete buffer op (Ne.symm hl.1)]

/-- An operation whose message is complete stays so. -/
theorem handleAll_messageComplete_of_true (buffer : ℕ) {op : RequestOp} (l : List Callback)
    (h : op.messageComplete = true) : (op.handleAll buffer l).messageComplete = true := by
  induction l generalizing op with
  | nil => exact h
  | cons c l ih =>
    rw [handleAll_cons]
    refine ih ?_
    by_cases hc : c = .messageComplete
    · subst hc
      rfl
    · rw [handle_messageComplete buffer op hc, h]

/-- The operation is completed exactly by the end of a message. -/
theorem handleAll_messageComplete (buffer : ℕ) {op : RequestOp} (l : List Callback)
    (h : op.messageComplete = false) :
    (op.handleAll buffer l).messageComplete = true ↔ .messageComplete ∈ l := by
  refine ⟨fun ht ↦ ?_, fun hmem ↦ ?_⟩
  · by_contra hmem
    rw [handleAll_messageComplete_of_notMem buffer op hmem, h] at ht
    cases ht
  · obtain ⟨l₁, l₂, rfl⟩ := List.append_of_mem hmem
    rw [handleAll_append, handleAll_cons]
    exact handleAll_messageComplete_of_true buffer l₂ rfl

/-- A result that is a `fin` was one before, or a message has ended. -/
theorem handle_type {c : Callback} (hc : c ≠ .messageComplete)
    (h : (handle buffer op c).op.result.type = .fin) : op.result.type = .fin := by
  cases c with
  | messageBegin => exact h
  | data which off bytes =>
    cases which with
    | url => exact h
    | headerField => exact h
    | headerValue => exact h
    | body =>
      rw [handle, onBody, due_result] at h
      cases h
  | headersComplete method httpMajor httpMinor upgrade =>
    rw [handle, onHeadersComplete] at h
    dsimp only at h
    split at h
    · rw [due_result] at h
      cases h
    · exact h
  | messageComplete => exact absurd rfl hc

theorem handleAll_type {l : List Callback} (hl : .messageComplete ∉ l) {op : RequestOp}
    (h : (op.handleAll buffer l).result.type = .fin) : op.result.type = .fin := by
  induction l generalizing op with
  | nil => exact h
  | cons c l ih =>
    rw [List.mem_cons, not_or] at hl
    exact handle_type (Ne.symm hl.1) (ih hl.2 h)

/-- A callback other than that of a message's end pauses the parser only with another result. -/
theorem handle_pause {c : Callback} (hc : c ≠ .messageComplete)
    (h : (handle buffer op c).reply.pause = true) : (handle buffer op c).op.result.type ≠ .fin := by
  cases c with
  | messageBegin => cases h
  | data which off bytes =>
    cases which with
    | url => cases h
    | headerField => cases h
    | headerValue => cases h
    | body =>
      rw [handle, onBody, due_result]
      intro h
      cases h
  | headersComplete method httpMajor httpMinor upgrade =>
    rw [handle, onHeadersComplete] at h ⊢
    dsimp only at h ⊢
    split at h
    · next hz =>
      rw [if_pos hz, due_result]
      intro h
      cases h
    · cases h
  | messageComplete => exact absurd rfl hc

/-- Where a callback has paused the parser, a `fin` comes from the end of a message. -/
theorem messageComplete_mem_of_type {l m : List Callback} {c : Callback} (hl : l ++ [c] <+: m)
    (hpause : (op.answers buffer (l ++ [c])).pause = true)
    (h : (op.handleAll buffer m).result.type = .fin) : .messageComplete ∈ m := by
  by_contra hmem
  obtain ⟨l₂, rfl⟩ := hl
  rw [answers_concat] at hpause
  simp only [List.mem_append, List.mem_singleton, not_or] at hmem
  rw [handleAll_append, handleAll_append] at h
  have htype := handleAll_type hmem.2 h
  exact handle_pause (Ne.symm hmem.1.2) hpause htype

end RequestOp

namespace Reception

variable {P : Type*} [HttpParser P] {s t : Reception P}

/-! ### The invariant -/

/-- The five situations of a socket. A receive is outstanding either with the leftover untouched or
with everything consumed, and before the end of any message. -/
inductive Situation (s : Reception P) : Prop
  | fresh (hphase : s.phase = .fresh) (hends : s.ends = [])
      (h : s.consumed ++ read s.memory s.result.remainBuffer s.result.remainLength = s.received)
  | pending (op : RequestOp) (hphase : s.phase = .receiving op op.initBuf 0)
      (hinit : op.initBufLen ≠ 0) (hc : op.messageComplete = false) (hends : s.ends = [])
      (h : s.consumed ++ read s.memory op.initBuf op.initBufLen = s.received)
  | receiving (op : RequestOp) (buffer len : ℕ) (hphase : s.phase = .receiving op buffer len)
      (hinit : op.initBufLen = 0) (hc : op.messageComplete = false) (hends : s.ends = [])
      (h : s.consumed = s.received)
  | delivered (hphase : s.phase = .delivered)
      (hends : ∀ k ∈ s.ends, s.consumed.length ≤ k)
      (hfin : OnlyCallbacksPause P → s.result.type = .fin → s.ends ≠ [])
      (h : s.consumed ++ read s.memory s.result.remainBuffer s.result.remainLength = s.received)
  | failed (ec : ErrorCode) (hphase : s.phase = .failed ec)

theorem Situation.nothingLost (h : Situation s) : s.NothingLost := by
  cases h with
  | fresh hphase hends h =>
    refine ⟨?_, ?_, ?_, fun _ k hk ↦ ?_, ?_⟩
    · simp [hphase]
    · simp [hphase]
    · simp [hphase]
    · simp [hends] at hk
    · simp [hphase]
  | pending op hphase hinit hc hends h =>
    refine ⟨?_, fun op' buffer len hphase' _ ↦ ?_, fun op' buffer len hphase' hinit' ↦ ?_,
      fun _ k hk ↦ ?_, ?_⟩
    · simp [hphase]
    · obtain ⟨rfl, -, rfl⟩ := Phase.receiving.inj (hphase.symm.trans hphase')
      exact ⟨rfl, h⟩
    · obtain ⟨rfl, -, -⟩ := Phase.receiving.inj (hphase.symm.trans hphase')
      exact absurd hinit' hinit
    · simp [hends] at hk
    · simp [hphase]
  | receiving op buffer len hphase hinit hc hends h =>
    refine ⟨?_, fun op' buffer len hphase' hinit' ↦ ?_, fun op' buffer len hphase' _ ↦ h,
      fun _ k hk ↦ ?_, ?_⟩
    · simp [hphase]
    · obtain ⟨rfl, -, -⟩ := Phase.receiving.inj (hphase.symm.trans hphase')
      exact absurd hinit hinit'
    · simp [hends] at hk
    · simp [hphase]
  | delivered hphase hends hfin h =>
    refine ⟨fun _ ↦ h, ?_, ?_, fun _ ↦ hends, fun hp _ ↦ hfin hp⟩
    · simp [hphase]
    · simp [hphase]
  | failed ec hphase =>
    refine ⟨?_, ?_, ?_, fun hne ↦ absurd hphase (hne ec), ?_⟩
    · simp [hphase]
    · simp [hphase]
    · simp [hphase]
    · simp [hphase]

/-! ### One call of the parser -/

theorem mem_endsOf {base k : ℕ} {l : List (Callback × ℕ)} (hk : k ∈ endsOf base l) :
    ∃ n, (Callback.messageComplete, n) ∈ l ∧ k = base + n := by
  obtain ⟨⟨c, n⟩, hmem, hsome⟩ := List.mem_filterMap.1 hk
  obtain ⟨rfl, hn⟩ := Option.ite_none_right_eq_some.1 hsome
  exact ⟨n, hmem, (Option.some.inj hn).symm⟩

theorem endsOf_eq_nil_iff {base : ℕ} {l : List (Callback × ℕ)} :
    endsOf base l = [] ↔ .messageComplete ∉ l.map Prod.fst := by
  rw [endsOf, List.filterMap_eq_nil_iff]
  refine ⟨fun h hmem ↦ ?_, fun h c hc ↦ if_neg fun heq ↦ h ?_⟩
  · obtain ⟨c, hc, heq⟩ := List.mem_map.1 hmem
    have hnone := h c hc
    rw [if_pos heq] at hnone
    cases hnone
  · exact List.mem_map.2 ⟨c, hc, heq⟩

/-- What the parser does with the bytes at `buffer`: it consumes all of them, or those it leaves
over are the ones the result points to. -/
theorem situation_execute (hP : Lawful P) {op : RequestOp} {buffer bytes : ℕ}
    (hinit : op.initBufLen = 0) (hc : op.messageComplete = false) (hends : s.ends = [])
    (herrno : OnlyCallbacksPause P → errno s.parser ≠ .paused)
    (h : s.consumed ++ read s.memory buffer bytes = s.received) :
    Situation (s.execute op buffer bytes) := by
  rw [execute]
  dsimp only
  set data := read s.memory buffer bytes with hdata
  set reply := op.answers buffer with hreply
  set r := HttpParser.execute s.parser reply data with hr
  set calls := r.2.2.map Prod.fst with hcalls
  have hpauses : reply.PausesAtEnd := op.answers_pausesAtEnd buffer
  have hlen : data.length = bytes := length_read _ _ _
  generalize hval : (if upgrade r.1 = true then HttpErrno.unknown else errno r.1) = err
  split
  · -- any error but a pause
    exact .failed _ rfl
  · next herr =>
    rw [not_and_or, not_not, not_not] at herr
    have hup : upgrade r.1 = false := by
      cases hup : upgrade r.1
      · rfl
      · simp [hup] at hval
        simp [← hval] at herr
    obtain rfl : errno r.1 = err := by simpa [hup] using hval
    have hle : r.2.1 ≤ bytes := hlen ▸ hP.le_length s.parser reply data hpauses herr
    have htake : (s.consumed ++ data.take r.2.1).length = s.consumed.length + r.2.1 := by
      rw [List.length_append, List.length_take, hlen, Nat.min_eq_left hle]
    split
    · next hdone =>
      -- complete, or paused by a callback: the result points to what is left over
      refine .delivered rfl (fun k hk ↦ ?_) (fun hpause htype ↦ ?_) ?_
      · have hk' : k ∈ s.ends ++ endsOf s.consumed.length r.2.2 := hk
        rw [hends, List.nil_append] at hk'
        obtain ⟨n, hmem, rfl⟩ := mem_endsOf hk'
        have hn : r.2.1 ≤ n := hP.le_of_complete s.parser reply data hpauses n hmem
        show (s.consumed ++ data.take r.2.1).length ≤ _
        omega
      · have hmem : .messageComplete ∈ calls := by
          rcases hdone with hdone | hdone
          · exact (op.handleAll_messageComplete buffer calls hc).1 hdone
          · obtain ⟨l, c, hl, hlc⟩ :=
              hpause.exists_pause s.parser reply data (herrno hpause) hdone
            exact RequestOp.messageComplete_mem_of_type hl hlc htype
        show s.ends ++ endsOf s.consumed.length r.2.2 ≠ []
        rw [hends, List.nil_append]
        exact fun hnil ↦ absurd hmem (endsOf_eq_nil_iff.1 hnil)
      · show s.consumed ++ data.take r.2.1 ++ read s.memory
          (if bytes - r.2.1 ≠ 0 then buffer + r.2.1 else 0) (bytes - r.2.1) = s.received
        rw [← h, List.append_assoc]
        congr 1
        by_cases hz : bytes - r.2.1 = 0
        · have hn : r.2.1 = data.length := by omega
          rw [hz, read_zero, List.append_nil, hn, List.take_length]
        · rw [if_pos hz, ← drop_read, List.take_append_drop]
    · next hgoes =>
      -- without a pause and without an error the parser has consumed everything
      rw [not_or] at hgoes
      have hok : errno r.1 = .ok := herr.resolve_right hgoes.2
      have hall : r.2.1 = data.length := by
        by_contra hne
        have hlt : r.2.1 < data.length := by omega
        exact hP.errno_of_lt s.parser reply data hpauses hlt hok
      have hnot : .messageComplete ∉ calls := fun hmem ↦
        hgoes.1 ((op.handleAll_messageComplete buffer calls hc).2 hmem)
      refine .receiving _ _ _ rfl ?_ ?_ ?_ ?_
      · exact (op.handleAll_initBufLen buffer calls).trans hinit
      · exact Bool.eq_false_iff.2 hgoes.1
      · show s.ends ++ endsOf s.consumed.length r.2.2 = []
        rw [hends, List.nil_append]
        exact endsOf_eq_nil_iff.2 hnot
      · show s.consumed ++ data.take r.2.1 = s.received
        rw [hall, List.take_length, h]

/-! ### What a step does -/

/-- A call comes only after a result, and leaves the parser alone. -/
theorem step_call {continuous : Bool} {request : Request} {buf bufLen lastFieldOrValue : ℕ}
    (hstep : s.step (.call continuous request buf bufLen lastFieldOrValue) = some t) :
    (s.phase = .fresh ∨ s.phase = .delivered) ∧ t.parser = s.parser ∧ t.consumed = s.consumed ∧
      ∃ op buffer len, t.phase = .receiving op buffer len ∧ op.continuous = continuous ∧
        op.messageComplete = false := by
  have hop : ∀ op : RequestOp, op.messageComplete = false →
      (s.doRequestOperation op).parser = s.parser ∧
        (s.doRequestOperation op).consumed = s.consumed ∧
          ∃ op' buffer len, (s.doRequestOperation op).phase = .receiving op' buffer len ∧
            op'.continuous = op.continuous ∧ op'.messageComplete = false := by
    intro op hc
    rw [doRequestOperation]
    split <;> exact ⟨rfl, rfl, _, _, _, rfl, rfl, hc⟩
  rw [step] at hstep
  cases hphase : s.phase with
  | fresh =>
    rw [hphase] at hstep
    obtain rfl := Option.some.inj hstep
    exact ⟨.inl rfl, hop _ rfl⟩
  | delivered =>
    rw [hphase] at hstep
    obtain rfl := Option.some.inj hstep
    exact ⟨.inr rfl, hop _ rfl⟩
  | receiving op buffer len => simp [hphase] at hstep
  | failed ec => simp [hphase] at hstep

/-- A completion comes only where a receive is outstanding: with an error, or with bytes the parser
is called with. -/
theorem step_received {ec : ErrorCode} {data : List Byte}
    (hstep : s.step (.received ec data) = some t) :
    ∃ op buffer len, s.phase = .receiving op buffer len ∧
      (s.input (.received ec data) = none ∧ t.phase = .failed ec ∨
        ∃ (r : Reception P) (bytes : ℕ), r.parser = s.ready ∧ r.consumed = s.consumed ∧
          s.input (.received ec data) =
            some (buffer, { op with initBufLen := 0 }, read r.memory buffer bytes) ∧
          t = r.execute { op with initBufLen := 0 } buffer bytes) := by
  rw [step] at hstep
  cases hphase : s.phase with
  | receiving op buffer len =>
    refine ⟨op, buffer, len, rfl, ?_⟩
    rw [hphase] at hstep
    obtain ⟨-, ht⟩ := Option.ite_none_right_eq_some.1 hstep
    obtain rfl := Option.some.inj ht
    rw [input, hphase, receiveCallback]
    dsimp only
    by_cases herr : ec.isError = true
    · rw [if_pos herr, if_pos herr]
      exact .inl ⟨rfl, rfl⟩
    · rw [if_neg herr, if_neg herr]
      refine .inr ⟨_, _, ?_, ?_, ?_, rfl⟩ <;> rfl
  | _ => simp [hphase] at hstep

/-- How a call of the parser ends a completion: in an error, with a result, or in another
receive. -/
theorem execute_cases (s : Reception P) (op : RequestOp) (buffer bytes : ℕ)
    {r : P × ℕ × List (Callback × ℕ)}
    (hr : HttpParser.execute s.parser (op.answers buffer) (read s.memory buffer bytes) = r) :
    (s.execute op buffer bytes).parser = r.1 ∧
      (s.execute op buffer bytes).consumed =
        s.consumed ++ (read s.memory buffer bytes).take r.2.1 ∧
      ((∃ ec, (s.execute op buffer bytes).phase = .failed ec) ∧
          (upgrade r.1 = true ∨ (errno r.1 ≠ .ok ∧ errno r.1 ≠ .paused)) ∨
        (s.execute op buffer bytes).phase = .delivered ∧
          (s.execute op buffer bytes).result.type =
            (op.handleAll buffer (r.2.2.map Prod.fst)).result.type ∧
          upgrade r.1 = false ∧ (errno r.1 = .paused ∨
            errno r.1 = .ok ∧
              (op.handleAll buffer (r.2.2.map Prod.fst)).messageComplete = true) ∨
        (∃ buffer' len, (s.execute op buffer bytes).phase =
            .receiving (op.handleAll buffer (r.2.2.map Prod.fst)) buffer' len) ∧
          upgrade r.1 = false ∧ errno r.1 = .ok ∧
          (op.handleAll buffer (r.2.2.map Prod.fst)).messageComplete = false) := by
  rw [execute]
  dsimp only
  rw [hr]
  cases hup : upgrade r.1 with
  | true =>
    rw [if_pos rfl, if_pos ⟨nofun, nofun⟩]
    exact ⟨rfl, rfl, .inl ⟨⟨_, rfl⟩, .inl rfl⟩⟩
  | false =>
    rw [if_neg Bool.false_ne_true]
    split
    · next he => exact ⟨rfl, rfl, .inl ⟨⟨_, rfl⟩, .inr he⟩⟩
    · next he =>
      rw [not_and_or, not_not, not_not] at he
      split
      · next hdone =>
        refine ⟨rfl, rfl, .inr (.inl ⟨rfl, rfl, rfl, ?_⟩)⟩
        exact he.symm.imp_right fun hok ↦ ⟨hok, hdone.resolve_right (by rw [hok]; exact nofun)⟩
      · next hno =>
        rw [not_or] at hno
        exact ⟨rfl, rfl, .inr (.inr ⟨⟨_, _, rfl⟩, rfl, he.resolve_right hno.2,
          Bool.eq_false_iff.2 hno.1⟩)⟩

/-! ### Runs -/

theorem situation_start (parser : P) (memory : ℕ → Byte) : Situation (start parser memory) :=
  .fresh rfl rfl rfl

/-- A new operation takes the leftover of the last result over. -/
theorem situation_doRequestOperation (continuous : Bool) (request : Request)
    (buf bufLen lastFieldOrValue : ℕ)
    (h : s.consumed ++ read s.memory s.result.remainBuffer s.result.remainLength = s.received) :
    Situation (s.doRequestOperation (.new continuous request buf bufLen s.result.remainBuffer
      s.result.remainLength lastFieldOrValue)) := by
  rw [doRequestOperation]
  split
  · next hinit => exact .pending _ rfl hinit rfl rfl h
  · next hinit =>
    rw [not_not] at hinit
    have hzero : s.result.remainLength = 0 := hinit
    rw [hzero, read_zero, List.append_nil] at h
    exact .receiving _ _ _ rfl hinit rfl rfl h

/-- The bytes `receive_callback` works on are those that have not been consumed. -/
theorem situation_receiveCallback (hP : Lawful P) {op : RequestOp} {ec : ErrorCode}
    {bytes buffer : ℕ}
    (hc : op.messageComplete = false) (hends : s.ends = [])
    (h : s.consumed ++
      read s.memory buffer (if op.initBufLen ≠ 0 then op.initBufLen else bytes) = s.received) :
    Situation (s.receiveCallback op ec bytes buffer) := by
  unfold receiveCallback
  extract_lets n op'
  split
  · exact .failed ec rfl
  · refine situation_execute hP rfl hc hends (fun hpause ↦ ?_) h
    split
    · exact hpause.errno_unpause _
    · next hne => exact hne

/-- **Every step comes to one of the situations** with nothing lost. -/
theorem situation_step (hP : Lawful P) {e : ReceptionEvent} (hs : Situation s)
    (hstep : s.step e = some t) :
    Situation t := by
  cases e with
  | call continuous request buf bufLen lastFieldOrValue =>
    rw [step] at hstep
    cases hs with
    | fresh hphase hends h =>
      rw [hphase] at hstep
      obtain rfl := Option.some.inj hstep
      exact situation_doRequestOperation _ _ _ _ _ h
    | delivered hphase hends hfin h =>
      rw [hphase] at hstep
      obtain rfl := Option.some.inj hstep
      exact situation_doRequestOperation _ _ _ _ _ h
    | pending op hphase => simp [hphase] at hstep
    | receiving op buffer len hphase => simp [hphase] at hstep
    | failed ec hphase => simp [hphase] at hstep
  | received ec data =>
    rw [step] at hstep
    cases hs with
    | pending op hphase hinit hc hends h =>
      rw [hphase] at hstep
      obtain ⟨hlen, ht⟩ := Option.ite_none_right_eq_some.1 hstep
      obtain rfl := Option.some.inj ht
      obtain rfl := List.length_eq_zero_iff.1 (Nat.le_zero.1 hlen)
      refine situation_receiveCallback hP hc hends ?_
      rw [if_pos hinit, write_nil, List.append_nil]
      exact h
    | receiving op buffer len hphase hinit hc hends h =>
      rw [hphase] at hstep
      obtain ⟨-, ht⟩ := Option.ite_none_right_eq_some.1 hstep
      obtain rfl := Option.some.inj ht
      refine situation_receiveCallback hP hc hends ?_
      rw [if_neg (not_not.2 hinit), read_write]
      exact congrArg (· ++ data) h
    | fresh hphase => simp [hphase] at hstep
    | delivered hphase => simp [hphase] at hstep
    | failed ec' hphase => simp [hphase] at hstep

/-- **No byte is lost and none is parsed twice.** Over any parser that keeps to `Lawful`, for every
sequence of receive completions and of calls that pass on the leftover of the last result, as long
as no error is reported: the bytes consumed followed by the leftover are the bytes received, a new
receive is started only when every byte has been consumed, and a call does not go beyond the end of
a message. -/
theorem nothingLost_of_run (hP : Lawful P) {parser : P} {memory : ℕ → Byte}
    {l : List ReceptionEvent} (hrun : Transition.run step (start parser memory) l = some t) :
    t.NothingLost :=
  (Transition.invariant_run' (fun _ _ _ hs h ↦ situation_step hP hs h)
    (situation_start parser memory) hrun).nothingLost

end Reception

/-- `GET / HTTP/1.1` without headers. -/
def oneRequest : List Byte :=
  [71, 69, 84, 32, 47, 32, 72, 84, 84, 80, 47, 49, 46, 49, 13, 10, 13, 10]

/-- The theorem on that request, received at once by the bundled parser: the header section ends in
a result that leaves its line feed over, which the second call hands to the parser. The second
result is the `fin`, at the end of the message. -/
theorem Reception.nothingLost_of_run_two :
    let call : ReceptionEvent := .call false ⟨[], [], .zero, 0, 0, []⟩ 64 32 0
    ∃ t, Transition.run step (start Parser.init fun _ ↦ 0)
      [call, .received .noError oneRequest, call, .received .noError []] = some t ∧
        t.NothingLost ∧ t.ends ≠ [] := by
  intro call
  have h : (Transition.run step (start Parser.init fun _ ↦ 0)
      [call, .received .noError oneRequest, call, .received .noError []]).map
      (fun t ↦ (t.phase.isDelivered, t.result.type)) = some (true, .fin) := by decide +kernel
  obtain ⟨t, ht, heq⟩ := Option.map_eq_some_iff.1 h
  obtain ⟨hphase, hfin⟩ := Prod.mk.inj heq
  have hlost := nothingLost_of_run parser_lawful ht
  exact ⟨t, ht, hlost, hlost.fin parser_onlyCallbacksPause (Phase.eq_delivered hphase) hfin⟩

end JnetLib.Http
