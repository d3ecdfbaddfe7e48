import JnetLib.Epoll.Send

/-!
# The sizes of sends on the epoll backend

What is left of a buffer is a `size_t`, which `send_op` holds in an `unsigned int` before it passes
it on. A count that is a multiple of `2 ^ 32` becomes zero on the way, and `::send` is then asked
for nothing again and again (`not_ends_of_large`). `SendState.keeps_iff` says that a send keeps its
contract, to ask for what fits and to come to the end it owes, exactly below `2 ^ 32`.

* Below `2 ^ 32` nothing is cut. A send has a distance to its end that every answer of a peer that
  keeps reading lowers (`distance`), so it ends, with all its bytes.
* From `2 ^ 32` on the requests take what exceeds the last multiple of `2 ^ 32`, and the next one
  asks for nothing. It is answered at once, and asks again (`Endless`).
-/

namespace JnetLib.Epoll

namespace Outcome

/-- The call moves at least a byte of what it was asked for, if that was anything. -/
def Takes (requested : ℕ) : Outcome → Prop
  | .bytes k => 0 < requested → 0 < k
  | .fail _ => False

theorem takes_all (requested : ℕ) : (Outcome.bytes requested).Takes requested :=
  id

theorem legal_all (requested : ℕ) : (Outcome.bytes requested).Legal requested :=
  Nat.le_refl requested

end Outcome


namespace SendOp

theorem requested_eq_min (op : SendOp) :
    op.requested = min (toUInt32 op.buffer.len) maxSendBufferSize := by
  rw [requested]
  split <;> omega

theorem requestFits_iff (op : SendOp) :
    RequestFits op.buffer.len op.requested ↔ op.buffer.len = 0 ∨ ¬2 ^ 32 ∣ op.buffer.len := by
  rw [requested_eq_min]
  exact requestFits_min_iff (by decide)

end SendOp

namespace SendState

/-- The operation has called back. -/
def Finished (s : SendState) : Prop := ∃ ec n, s.place = .finished ec n

/-- What `::send` answers a `begin_send`: it takes at least a byte, or it would block. -/
def TakesOrWaits (o' : Outcome) : SendOp.Next → Prop
  | .again op => o'.Takes op.requested ∨ o' = .fail EAGAIN
  | .callback _ _ => True

/-- The peer keeps reading: what is sent is taken, if only after a wait, and no event brings an
error. -/
def Accepting (s : SendState) : SendEvent → Prop
  | .ready flags _ => flags = .clear
  | .dispatch o o' => (s.op.sends → o.Takes s.op.requested) ∧ TakesOrWaits o' (s.op.onComplete o)

/-- What `asyn_send` owes a caller with `len` bytes. -/
structure Keeps (len : ℕ) : Prop where
  /-- Each `::send` is offered some of what is left, and something if anything is. -/
  asks : ∀ o, o.Legal (SendOp.new len).requested → ∀ s, Transition.Reachable step (start len o) s →
    ∀ c ∈ s.calls, RequestFits (len - c.offset) c.requested
  /-- If the peer keeps reading, the send comes to its end. -/
  ends : ∀ o, o.Legal (SendOp.new len).requested →
    o.Takes (SendOp.new len).requested ∨ o = .fail EAGAIN →
    Transition.Inevitable step Accepting Finished (start len o)

variable {len : ℕ} {s t : SendState}

/-! #### Lengths below `2 ^ 32` -/

/-- The calls made so far fit what was left at the time. -/
def Fitting (len : ℕ) (calls : List SendCall) : Prop :=
  ∀ c ∈ calls, RequestFits (len - c.offset) c.requested

theorem Fitting.append {op : SendOp} {calls : List SendCall} (h : Fitting len calls)
    (hlen : len < 2 ^ 32) (htotal : op.buffer.buf + op.buffer.len = len) (o : Outcome) :
    Fitting len (calls ++ [op.call o]) := by
  intro c hc
  rcases List.mem_append.1 hc with hold | hnew
  · exact h c hold
  · have hleft : len - op.buffer.buf = op.buffer.len := by omega
    rw [List.mem_singleton.1 hnew, SendOp.call, hleft]
    exact op.requestFits_iff.2 (eq_zero_or_not_dvd_of_lt (by omega))

theorem Placed.total (h : Placed len s) (hf : ¬s.Finished) :
    s.op.buffer.buf + s.op.buffer.len = len := by
  cases h with
  | slot _ h | woken _ h | posted _ _ h => exact h.total
  | done ec n hp => exact absurd ⟨ec, n, hp⟩ hf

theorem Placed.callbacks_eq (h : Placed len s) (hf : ¬s.Finished) : s.callbacks = 0 := by
  cases h with
  | slot _ _ _ _ hcb | woken _ _ _ _ hcb | posted _ _ _ _ _ _ hcb => exact hcb
  | done ec n hp => exact absurd ⟨ec, n, hp⟩ hf

theorem not_finished_of_completed (hp : s.place = .completed) : ¬s.Finished := by
  rintro ⟨ec, n, hp'⟩
  cases hp.symm.trans hp'

theorem not_finished_of_step {e : SendEvent} (hstep : step s e = some t) : ¬s.Finished := by
  rintro ⟨ec, n, hp⟩
  cases e <;> simp [step, hp] at hstep

/-- A dispatch goes on with a buffer that is still a suffix of the caller's. -/
theorem total_of_again {o : Outcome} {op : SendOp} (hs : Placed len s) (hp : s.place = .completed)
    (ho : s.op.sends → o.Legal s.op.requested) (h : s.op.onComplete o = .again op) :
    op.buffer.buf + op.buffer.len = len := by
  have hlegal : (Outcome.fail EAGAIN).Legal op.requested := by
    show EAGAIN ≠ 0
    decide
  have hstep : step s (.dispatch o (.fail EAGAIN)) =
      some ⟨(op.beginSend (.fail EAGAIN)).1, (op.beginSend (.fail EAGAIN)).2,
        s.callsOf o ++ [op.call (.fail EAGAIN)], s.callbacks⟩ := by
    simp only [step, hp, h, hlegal, if_true]
    rw [if_pos ho]
  have hwait : op.beginSend (.fail EAGAIN) = ({ op with sent_ := false }, .inSlot) := rfl
  have hinv := placed_step hs hstep
  cases hinv with
  | slot _ h => exact h.total
  | woken hp' | posted _ hp' | done _ _ hp' =>
    rw [hwait] at hp'
    cases hp'

theorem fitting_step {e : SendEvent} (hlen : len < 2 ^ 32) (hs : Placed len s)
    (h : Fitting len s.calls) (hstep : step s e = some t) : Fitting len t.calls := by
  cases e with
  | ready flags soError =>
    rcases hp : s.place with - | - | _ <;> simp only [step, hp] at hstep
    case inSlot =>
      obtain rfl := Option.some.inj hstep
      exact h
    all_goals cases hstep
  | dispatch o o' =>
    rcases hp : s.place with - | - | _
    case inSlot | finished => simp [step, hp] at hstep
    case completed =>
      have hf := not_finished_of_completed hp
      obtain ⟨ho, -, rfl⟩ := step_dispatch hp (hs.callbacks_eq hf) hstep
      have hcalls : Fitting len (s.callsOf o) := by
        rw [callsOf]
        split
        · exact h.append hlen (hs.total hf) o
        · exact h
      rcases hnext : s.op.onComplete o with op | ⟨op, ec⟩
      · exact hcalls.append hlen (total_of_again hs hp ho hnext) o'
      · exact hcalls

/-- **What is asked for fits.** -/
theorem fitting_of_reachable {o : Outcome} (hlen : len < 2 ^ 32)
    (hl : o.Legal (SendOp.new len).requested) (h : Transition.Reachable step (start len o) s) :
    Fitting len s.calls := by
  have hnew : Fitting len ([] ++ [(SendOp.new len).call o]) :=
    Fitting.append (fun _ hc ↦ absurd hc List.not_mem_nil) hlen (Nat.zero_add len) o
  have hinv : Placed len (start len o) ∧ Fitting len (start len o).calls := ⟨placed_start hl, hnew⟩
  exact (h.invariant (I := fun s ↦ Placed len s ∧ Fitting len s.calls)
    (fun _ _ _ h hst ↦ ⟨placed_step h.1 hst, fitting_step hlen h.1 h.2 hst⟩) hinv).2

/-- Where a send is whose peer keeps reading: it waits, or was woken, or the answer to its last call
is posted, or it has called back. -/
inductive Served (s : SendState) : Prop
  | slot (hp : s.place = .inSlot) (hbase : s.op.base = .reset) (hsent : s.op.sent_ = false)
  | woken (hp : s.place = .completed) (hbase : s.op.base = .reset) (hsent : s.op.sent_ = false)
  | posted (hp : s.place = .completed) (hsent : s.op.sent_ = true)
      (hec : s.op.base.ec = .system 0) (hle : s.op.base.bytesTransferred ≤ s.op.buffer.len)
  | done (h : s.Finished)

/-- How far a send is from its end: three for each byte not yet taken, and for a wait. -/
def distance (s : SendState) : ℕ :=
  match s.place with
  | .inSlot => 3 * s.op.buffer.len + 2
  | .completed =>
    if s.op.sent_ then 3 * (s.op.buffer.len - s.op.base.bytesTransferred) + 3
    else 3 * s.op.buffer.len + 1
  | .finished _ _ => 0

theorem served_beginSend {op : SendOp} {o : Outcome} (calls : List SendCall)
    (hbase : op.base = .reset) (hl : o.Legal op.requested)
    (ho : o.Takes op.requested ∨ o = .fail EAGAIN) (hfit : RequestFits op.buffer.len op.requested) :
    Served ⟨(op.beginSend o).1, (op.beginSend o).2, calls, 0⟩ ∧
      (0 < op.buffer.len →
        distance ⟨(op.beginSend o).1, (op.beginSend o).2, calls, 0⟩ ≤ 3 * op.buffer.len + 2) := by
  rcases ho with ho | rfl
  · cases o with
    | fail e => exact ho.elim
    | bytes k =>
      have hk : k ≤ op.requested := hl
      have hcount : toUInt32 k = k := toUInt32_of_lt (Nat.lt_of_le_of_lt hk op.requested_lt)
      have hbegin : op.beginSend (.bytes k) = ({ op with
          sent_ := true, base := op.base.onCompletion (.system 0) k }, .completed) := rfl
      rw [hbegin]
      refine ⟨.posted rfl rfl rfl ?_, fun hpos ↦ ?_⟩
      · show toUInt32 k ≤ op.buffer.len
        exact hcount.symm ▸ Nat.le_trans hk op.requested_le
      · have := ho (hfit hpos).1
        show 3 * (op.buffer.len - toUInt32 k) + 3 ≤ 3 * op.buffer.len + 2
        omega
  · exact ⟨.slot rfl hbase rfl, fun _ ↦ Nat.le_refl _⟩

/-- The end of a dispatch that works with a count of `k`. -/
theorem served_after {op : SendOp} {o o' : Outcome} {k : ℕ} (calls : List SendCall)
    (hres : op.sendResult o = (.system 0, k)) (hlen : op.buffer.len < 2 ^ 32)
    (hnext : LegalNext o' (op.onComplete o)) (ho' : TakesOrWaits o' (op.onComplete o)) :
    Served (after (op.onComplete o) calls o') ∧
      (k < op.buffer.len →
        distance (after (op.onComplete o) calls o') ≤ 3 * (op.buffer.len - k) + 2) ∧
      (op.buffer.len ≤ k → distance (after (op.onComplete o) calls o') = 0) := by
  have hok : (op.sendResult o).1.isError = false := by
    rw [hres]
    rfl
  rw [SendOp.onComplete_ok hok, hres] at hnext ho' ⊢
  rcases Nat.lt_or_ge k op.buffer.len with hmore | hend
  · have hne : (op.buffer.len - k != 0) = true := by
      rw [bne_iff_ne]
      omega
    rw [if_pos hne] at hnext ho' ⊢
    have hfit := { op with buffer := op.buffer.consume k, base := .reset }.requestFits_iff.2
      (eq_zero_or_not_dvd_of_lt (Nat.lt_of_le_of_lt (Nat.sub_le _ k) hlen))
    obtain ⟨hserved, hdist⟩ := served_beginSend (calls ++ [_]) rfl hnext ho' hfit
    exact ⟨hserved, fun _ ↦ hdist (by show 0 < op.buffer.len - k; omega), fun h ↦ by omega⟩
  · have hzero : ¬(op.buffer.len - k != 0) = true := by
      rw [bne_iff_ne]
      omega
    rw [if_neg hzero]
    exact ⟨.done ⟨_, _, rfl⟩, fun h ↦ by omega, fun _ ↦ rfl⟩

/-- Whatever is left over after a count of `k` is closer to the end. -/
theorem served_of_count {op : SendOp} {o o' : Outcome} {k n : ℕ} (calls : List SendCall)
    (hres : op.sendResult o = (.system 0, k)) (hlen : op.buffer.len < 2 ^ 32)
    (hnext : LegalNext o' (op.onComplete o)) (ho' : TakesOrWaits o' (op.onComplete o))
    (hk : 3 * (op.buffer.len - k) + 2 < n) :
    Served (after (op.onComplete o) calls o') ∧
      distance (after (op.onComplete o) calls o') < n := by
  obtain ⟨hserved, hmore, hend⟩ := served_after calls hres hlen hnext ho'
  refine ⟨hserved, ?_⟩
  rcases Nat.lt_or_ge k op.buffer.len with hlt | hge
  · have := hmore hlt
    omega
  · rw [hend hge]
    omega

/-- An event has come, and the completion sends. -/
theorem served_of_woken {o o' : Outcome} (hlen : s.op.buffer.len < 2 ^ 32) (hcb : s.callbacks = 0)
    (hp : s.place = .completed) (hbase : s.op.base = .reset) (hsent : s.op.sent_ = false)
    (he : Accepting s (.dispatch o o')) (hstep : step s (.dispatch o o') = some t) :
    Served t ∧ distance t < distance s := by
  obtain ⟨hl, hnext, rfl⟩ := step_dispatch hp hcb hstep
  obtain ⟨htakes, hnext'⟩ := he
  have hdist : distance s = 3 * s.op.buffer.len + 1 := by
    simp only [distance, hp, hsent, Bool.false_eq_true, if_false]
  have hsends : s.op.sends = (s.op.buffer.len != 0) := by
    rw [SendOp.sends, hbase, hsent, toUInt32_of_lt hlen]
    simp
  rw [hdist]
  rcases Nat.eq_zero_or_pos s.op.buffer.len with hzero | hpos
  · -- nothing to send: the completion calls back
    have hres : s.op.sendResult o = (.noError, 0) := by
      rw [SendOp.sendResult, hsends, hzero, hbase]
      rfl
    have hcallback : s.op.onComplete o =
        .callback { s.op with buffer := s.op.buffer.consume 0 } .noError := by
      rw [SendOp.onComplete_ok (by rw [hres]; rfl), hres, hzero]
      rfl
    rw [hcallback]
    exact ⟨.done ⟨_, _, rfl⟩, Nat.succ_pos _⟩
  · have hsends' : s.op.sends = true := by
      rw [hsends, bne_iff_ne]
      omega
    cases o with
    | fail e => exact (htakes hsends').elim
    | bytes k =>
      have hres : s.op.sendResult (.bytes k) = (.system 0, k) := by
        rw [SendOp.sendResult, hsends']
        rfl
      have hk : 0 < k := htakes hsends'
        (s.op.requestFits_iff.2 (eq_zero_or_not_dvd_of_lt hlen) hpos).1
      exact served_of_count (s.callsOf (.bytes k)) hres hlen hnext hnext' (by omega)

/-- The first call has sent something, and the completion goes on behind it. -/
theorem served_of_posted {o o' : Outcome} (hlen : s.op.buffer.len < 2 ^ 32) (hcb : s.callbacks = 0)
    (hp : s.place = .completed) (hsent : s.op.sent_ = true) (hec : s.op.base.ec = .system 0)
    (he : Accepting s (.dispatch o o')) (hstep : step s (.dispatch o o') = some t) :
    Served t ∧ distance t < distance s := by
  obtain ⟨-, hnext, rfl⟩ := step_dispatch hp hcb hstep
  have hdist : distance s = 3 * (s.op.buffer.len - s.op.base.bytesTransferred) + 3 := by
    simp only [distance, hp, hsent, if_true]
  have hres : s.op.sendResult o = (.system 0, s.op.base.bytesTransferred) := by
    have hsends : s.op.sends = false := by simp [SendOp.sends, hsent]
    rw [SendOp.sendResult, hsends, hec]
    rfl
  exact served_of_count (s.callsOf o) hres hlen hnext he.2 (by omega)

theorem served_step {e : SendEvent} (hlen : s.op.buffer.len < 2 ^ 32) (hcb : s.callbacks = 0)
    (hs : Served s) (he : Accepting s e) (hstep : step s e = some t) :
    Served t ∧ distance t < distance s := by
  cases hs with
  | done h => exact absurd h (not_finished_of_step hstep)
  | slot hp hbase hsent =>
    cases e with
    | dispatch o o' => simp [step, hp] at hstep
    | ready flags soError =>
      obtain rfl : flags = .clear := he
      simp only [step, hp, Option.some.injEq] at hstep
      subst hstep
      have hwoken : s.op.base.onEvent .clear soError = .reset := by
        rw [hbase]
        rfl
      refine ⟨.woken rfl hwoken hsent, ?_⟩
      simp only [distance, hp, hsent, Bool.false_eq_true, if_false]
      omega
  | woken hp hbase hsent =>
    cases e with
    | ready flags soError => simp [step, hp] at hstep
    | dispatch o o' => exact served_of_woken hlen hcb hp hbase hsent he hstep
  | posted hp hsent hec _ =>
    cases e with
    | ready flags soError => simp [step, hp] at hstep
    | dispatch o o' => exact served_of_posted hlen hcb hp hsent hec he hstep

/-- Until it calls back, something can happen to a send whose peer keeps reading. -/
theorem exists_step_of_served (hs : Served s) (hf : ¬s.Finished) :
    ∃ e t, Accepting s e ∧ step s e = some t := by
  have hdispatch : s.place = .completed → ∃ e t, Accepting s e ∧ step s e = some t := by
    intro hp
    have hnext : ∃ o', (∃ t, step s (.dispatch (.bytes s.op.requested) o') = some t) ∧
        TakesOrWaits o' (s.op.onComplete (.bytes s.op.requested)) := by
      simp only [step, hp, Outcome.legal_all, implies_true, if_true]
      cases s.op.onComplete (.bytes s.op.requested) with
      | again op =>
        refine ⟨.bytes op.requested, ?_, .inl (Outcome.takes_all _)⟩
        simp only [Outcome.legal_all, if_true]
        exact ⟨_, rfl⟩
      | callback op ec => exact ⟨.bytes 0, ⟨_, rfl⟩, trivial⟩
    obtain ⟨o', ⟨t, ht⟩, ho'⟩ := hnext
    exact ⟨.dispatch (.bytes s.op.requested) o', t, ⟨fun _ ↦ Outcome.takes_all _, ho'⟩, ht⟩
  cases hs with
  | done h => exact absurd h hf
  | woken hp | posted hp => exact hdispatch hp
  | slot hp =>
    have hready : ∃ t, step s (.ready .clear 0) = some t := by
      simp only [step, hp]
      exact ⟨_, rfl⟩
    exact hready.elim fun t ht ↦ ⟨.ready .clear 0, t, rfl, ht⟩

/-- **Below `2 ^ 32` a send keeps its contract.** -/
theorem keeps_of_lt (hlen : len < 2 ^ 32) : Keeps len where
  asks o hl s hs := fitting_of_reachable hlen hl hs
  ends o hl ho := by
    have hfit : RequestFits (SendOp.new len).buffer.len (SendOp.new len).requested :=
      (SendOp.new len).requestFits_iff.2 (eq_zero_or_not_dvd_of_lt hlen)
    have hserved : Served (start len o) := (served_beginSend _ rfl hl ho hfit).1
    refine Transition.Inevitable.of_measure (I := fun s ↦ Placed len s ∧ Served s) distance
      (fun s h hf ↦ exists_step_of_served h.2 hf) (fun s e t h he hstep ↦ ?_)
      ⟨placed_start hl, hserved⟩
    have hf := not_finished_of_step hstep
    have htotal := h.1.total hf
    obtain ⟨ht, hdist⟩ := served_step (by omega) (h.1.callbacks_eq hf) h.2 he hstep
    exact ⟨⟨placed_step h.1 hstep, ht⟩, hdist⟩

/-! #### Lengths from `2 ^ 32` on -/

/-- The answer to the last call is posted, and behind the bytes it took `2 ^ 32` more are left. -/
structure Endless (s : SendState) : Prop where
  place : s.place = .completed
  sent_ : s.op.sent_ = true
  ec : s.op.base.ec = .system 0
  left : 2 ^ 32 ≤ s.op.buffer.len - s.op.base.bytesTransferred

theorem endless_beginSend {op : SendOp} (hlen : 2 ^ 32 ≤ op.buffer.len) (calls : List SendCall)
    (callbacks : ℕ) : Endless ⟨(op.beginSend (.bytes op.requested)).1,
      (op.beginSend (.bytes op.requested)).2, calls, callbacks⟩ := by
  have hcount : toUInt32 op.requested = op.requested := toUInt32_of_lt op.requested_lt
  refine ⟨rfl, rfl, rfl, ?_⟩
  show 2 ^ 32 ≤ op.buffer.len - toUInt32 op.requested
  rw [hcount, SendOp.requested_eq_min]
  exact le_sub_of_le_toUInt32 hlen (Nat.min_le_left _ _)

/-- The kernel takes all it is offered, and the send goes on. -/
theorem endless_step (h : Endless s) :
    ∃ e t, Accepting s e ∧ step s e = some t ∧ Endless t := by
  have hsends : s.op.sends = false := by simp [SendOp.sends, h.sent_]
  have hres : s.op.sendResult (.bytes 0) = (.system 0, s.op.base.bytesTransferred) := by
    rw [SendOp.sendResult, hsends, h.ec]
    rfl
  obtain ⟨op, hop, hleft⟩ : ∃ op, s.op.onComplete (.bytes 0) = .again op ∧
      2 ^ 32 ≤ op.buffer.len := by
    refine ⟨{ s.op with buffer := s.op.buffer.consume s.op.base.bytesTransferred, base := .reset },
      ?_, h.left⟩
    have hne : (s.op.buffer.len - s.op.base.bytesTransferred != 0) = true :=
      bne_iff_ne.2 (Nat.ne_of_gt (Nat.lt_of_lt_of_le (by decide) h.left))
    rw [SendOp.onComplete_ok (by rw [hres]; rfl), hres, if_pos hne]
  refine ⟨.dispatch (.bytes 0) (.bytes op.requested), _, ⟨fun hs ↦ ?_, ?_⟩, ?_,
    endless_beginSend hleft (s.callsOf (.bytes 0) ++ [op.call (.bytes op.requested)]) s.callbacks⟩
  · rw [hsends] at hs
    cases hs
  · rw [hop]
    exact .inl (Outcome.takes_all _)
  · simp only [step, h.place, hsends, hop, Outcome.legal_all, Bool.false_eq_true, if_true,
      false_imp_iff]

/-- **From `2 ^ 32` on a send need not end**, though the kernel takes all it is offered. -/
theorem not_ends_of_large (hlen : 2 ^ 32 ≤ len) :
    ¬Transition.Inevitable step Accepting Finished
      (start len (.bytes (SendOp.new len).requested)) := by
  refine Transition.not_inevitable (S := Endless) (fun s h ↦ not_finished_of_completed h.place)
    (fun s h ↦ .inl (endless_step h)) ?_
  have hnew : 2 ^ 32 ≤ (SendOp.new len).buffer.len := hlen
  exact endless_beginSend hnew _ 0

theorem keeps_iff : Keeps len ↔ len < 2 ^ 32 := by
  refine ⟨fun h ↦ ?_, keeps_of_lt⟩
  by_contra hlen
  exact not_ends_of_large (Nat.le_of_not_lt hlen)
    (h.ends _ (Outcome.legal_all _) (.inl (Outcome.takes_all _)))

end SendState

end JnetLib.Epoll
