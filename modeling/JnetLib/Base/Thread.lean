import JnetLib.Base.Event

/-!
# Threads

`iocp::thread` on Linux: a thread that waits for `pre_event_` before it calls `runner_`, and sets
`pro_event_` behind it. `start` sets the first event, `join` waits for the second one. Any number of
threads use the object; what they and the new thread do inside the events is interleaved step by
step (`JnetLib.Event`).

`CallsKnown` is the invariant: which calls of the two events have been made, and by whom. The new
thread waits for `pre_event_` once and sets `pro_event_` once, a caller of `start` only sets the
first and a caller of `join` only waits for the second.

`pthread_create` is taken to have made the new thread. The constructor ignores its result; where it
fails, nobody ever sets `pro_event_`, and a `join` without a limit hangs.
-/

namespace JnetLib

open Monitor Event

/-! ### The code -/

/-- Where `runner_wrapper` is: in front of its wait, in it, in `runner_`, in `set`, at its end. -/
inductive Wrapper
  | created
  | waiting
  | running
  | setting
  | ended
  deriving DecidableEq, Repr

/-- Where a thread that uses the object is. -/
inductive ThreadCaller
  | outside
  | starting
  | joining
  deriving DecidableEq, Repr

/-- What `join` has returned, to whom, and whether it has waited. -/
structure Joined (τ : Type*) where
  caller : τ
  waited : Bool
  ret : Option ℤ
  deriving DecidableEq, Repr

/-- The object, the new thread and those that use the object; inside the events the new thread is
`none`. -/
structure Thread (τ : Type*) where
  preEvent : State (Option τ) Bool Call (Option ℤ)
  proEvent : State (Option τ) Bool Call (Option ℤ)
  started : Bool
  wrapper : Wrapper
  callers : τ → ThreadCaller
  joins : List (Joined τ)

/-- The steps: the new thread goes on outside the events; `start` and `join` are called; a caller
goes on behind an event; a thread goes on inside one. -/
inductive ThreadEvent (τ : Type*)
  | wrapper
  | start (t : τ)
  | join (t : τ) (timeout : ℤ)
  | go (t : τ)
  | pre (e : Monitor.Event (Option τ) Call)
  | pro (e : Monitor.Event (Option τ) Call)

/-- The runner has been called. -/
def Wrapper.called : Wrapper → Bool
  | .running | .setting | .ended => true
  | _ => false

/-- The runner has returned. -/
def Wrapper.returned : Wrapper → Bool
  | .setting | .ended => true
  | _ => false

/-- The waits of a caller that have not come to an end. -/
def ThreadCaller.waits : ThreadCaller → ℕ
  | .joining => 1
  | _ => 0

namespace Thread

variable {τ : Type*} [DecidableEq τ]

/-- The code of `pre_event_` and `pro_event_`: both are of the type an `event` gets without
arguments. -/
abbrev event : Code Bool Call (Option ℤ) := code .autoReset

/-- The constructor. Before there is the new thread, `set` wakes nobody. It does not look at what
`pthread_create` returns, which is taken to succeed here. -/
def create (run : Bool) : Thread τ :=
  ⟨.start run, .start false, run, .created, fun _ ↦ .outside, []⟩

/-- Where a caller goes. -/
def move (s : Thread τ) (t : τ) (c : ThreadCaller) : Thread τ :=
  { s with callers := Function.update s.callers t c }

/-- What a call of an event has returned. -/
def answer (s : State (Option τ) Bool Call (Option ℤ)) (t : Option τ) : Option ℤ :=
  (s.entries t).getLast?.bind Entry.answer

/-- `runner_wrapper`. It does not look at what its wait returns. Behind `running` the runner has
returned. -/
def runnerWrapper (s : Thread τ) : Option (Thread τ) :=
  match s.wrapper with
  | .created =>
    (s.preEvent.step event (.call none (.wait (-1)))).map fun e ↦
      { s with preEvent := e, wrapper := .waiting }
  | .waiting =>
    if s.preEvent.phases none = .outside then some { s with wrapper := .running } else none
  | .running =>
    (s.proEvent.step event (.call none .set)).map fun e ↦
      { s with proEvent := e, wrapper := .setting }
  | .setting =>
    if s.proEvent.phases none = .outside then some { s with wrapper := .ended } else none
  | .ended => none

/-- `start`; `started_` is set behind the event. -/
def callStart (s : Thread τ) (t : τ) : Option (Thread τ) :=
  if s.started then some s
  else (s.preEvent.step event (.call (some t) .set)).map fun e ↦
    { s with preEvent := e }.move t .starting

/-- `join`. -/
def callJoin (s : Thread τ) (t : τ) (timeout : ℤ) : Option (Thread τ) :=
  if s.started then
    (s.proEvent.step event (.call (some t) (.wait timeout))).map fun e ↦
      { s with proEvent := e }.move t .joining
  else
    let j : Joined τ := ⟨t, false, some 1⟩
    some { s with joins := s.joins ++ [j] }

/-- `start` and `join` behind `set` and `wait`: what the caller notes before it is outside. -/
def returns (s : Thread τ) (t : τ) : Option (Thread τ) :=
  match s.callers t with
  | .outside => none
  | .starting =>
    if s.preEvent.phases (some t) = .outside then
      some ({ s with started := true }.move t .outside)
    else none
  | .joining =>
    if s.proEvent.phases (some t) = .outside then
      let j : Joined τ := ⟨t, true, answer s.proEvent (some t)⟩
      some ({ s with joins := s.joins ++ [j] }.move t .outside)
    else none

/-- The step of an event makes no call. -/
def Inside (e : Monitor.Event (Option τ) Call) : Prop := ∀ t c, e ≠ .call t c

instance : (e : Monitor.Event (Option τ) Call) → Decidable (Inside e)
  | .call t c => isFalse fun h ↦ h t c rfl
  | .run _ | .wake _ _ => isTrue nofun

/-- A step of the new thread, of a caller of `start` or `join`, or inside one of the two events. -/
def step (s : Thread τ) : ThreadEvent τ → Option (Thread τ)
  | .wrapper => s.runnerWrapper
  | .start t => if s.callers t = .outside then s.callStart t else none
  | .join t timeout => if s.callers t = .outside then s.callJoin t timeout else none
  | .go t => s.returns t
  | .pre e =>
    if Inside e then (s.preEvent.step event e).map fun e ↦ { s with preEvent := e } else none
  | .pro e =>
    if Inside e then (s.proEvent.step event e).map fun e ↦ { s with proEvent := e } else none

/-! ### The invariant -/

/-- What holds in every state: which calls of the events have been made, and by whom. -/
structure CallsKnown (run : Bool) (s : Thread τ) : Prop where
  pre : Transition.Reachable (State.step event) (State.start run) s.preEvent
  pro : Transition.Reachable (State.step event) (State.start false) s.proEvent
  waits : s.preEvent.made none = if s.wrapper = .created then [] else [.wait (-1)]
  sets : s.proEvent.made none = if s.wrapper.returned then [.set] else []
  starts : ∀ t, ∀ c ∈ s.preEvent.made (some t), c = .set
  joins : ∀ t, ∀ c ∈ s.proEvent.made (some t), ∃ timeout, c = .wait timeout
  outside_pre : s.wrapper ≠ .waiting → s.preEvent.phases none = .outside
  outside_pro : s.wrapper ≠ .setting → s.proEvent.phases none = .outside

variable {run : Bool} {s s' : Thread τ} {t : τ}

theorem calls_of_inside {e : Monitor.Event (Option τ) Call} (he : Inside e) (t : Option τ) :
    e.calls t = [] := by
  cases e with
  | call u c => exact absurd rfl (he u c)
  | _ => rfl

theorem callsKnown_create (run : Bool) : CallsKnown run (create run : Thread τ) where
  pre := .refl _
  pro := .refl _
  waits := rfl
  sets := rfl
  starts := fun _ _ hc ↦ absurd hc List.not_mem_nil
  joins := fun _ _ hc ↦ absurd hc List.not_mem_nil
  outside_pre := fun _ ↦ rfl
  outside_pro := fun _ ↦ rfl

/-- A step of `pre_event_` that makes no call of the new thread's. -/
theorem CallsKnown.stepPre (h : CallsKnown run s) {e : Monitor.Event (Option τ) Call}
    {pre : State (Option τ) Bool Call (Option ℤ)}
    (hstep : s.preEvent.step event e = some pre) (hnone : e.calls none = [])
    (hsome : ∀ t, ∀ c ∈ e.calls (some t), c = .set) :
    CallsKnown run { s with preEvent := pre } where
  pre := h.pre.tail hstep
  pro := h.pro
  waits := by
    show pre.made none = _
    rw [State.made_step hstep, hnone, List.append_nil]
    exact h.waits
  sets := h.sets
  starts t := by
    show ∀ c ∈ pre.made (some t), c = .set
    rw [State.made_step hstep]
    exact List.forall_mem_append.2 ⟨h.starts t, hsome t⟩
  joins := h.joins
  outside_pre hw := State.outside_step hstep hnone (h.outside_pre hw)
  outside_pro := h.outside_pro

/-- A step of `pro_event_` that makes no call of the new thread's. -/
theorem CallsKnown.stepPro (h : CallsKnown run s) {e : Monitor.Event (Option τ) Call}
    {pro : State (Option τ) Bool Call (Option ℤ)}
    (hstep : s.proEvent.step event e = some pro) (hnone : e.calls none = [])
    (hsome : ∀ t, ∀ c ∈ e.calls (some t), ∃ timeout, c = .wait timeout) :
    CallsKnown run { s with proEvent := pro } where
  pre := h.pre
  pro := h.pro.tail hstep
  waits := h.waits
  sets := by
    show pro.made none = _
    rw [State.made_step hstep, hnone, List.append_nil]
    exact h.sets
  starts := h.starts
  joins t := by
    show ∀ c ∈ pro.made (some t), ∃ timeout, c = .wait timeout
    rw [State.made_step hstep]
    exact List.forall_mem_append.2 ⟨h.joins t, hsome t⟩
  outside_pre := h.outside_pre
  outside_pro hw := State.outside_step hstep hnone (h.outside_pro hw)

/-- What callers do outside the events. -/
theorem CallsKnown.callers (h : CallsKnown run s) (started : Bool) (cs : τ → ThreadCaller)
    (js : List (Joined τ)) :
    CallsKnown run { s with started := started, callers := cs, joins := js } :=
  ⟨h.pre, h.pro, h.waits, h.sets, h.starts, h.joins, h.outside_pre, h.outside_pro⟩

theorem callsKnown_runnerWrapper (h : CallsKnown run s) (hstep : s.runnerWrapper = some s') :
    CallsKnown run s' := by
  rw [runnerWrapper] at hstep
  split at hstep
  case h_1 hw =>
    obtain ⟨pre, hpre, rfl⟩ := Option.map_eq_some_iff.1 hstep
    refine ⟨h.pre.tail hpre, h.pro, ?_, ?_, fun t ↦ ?_, h.joins, (absurd rfl ·), fun _ ↦ ?_⟩
    · show pre.made none = _
      rw [State.made_step hpre, h.waits, if_pos hw]
      rfl
    · exact h.sets.trans (by rw [hw]; rfl)
    · show ∀ c ∈ pre.made (some t), c = .set
      rw [State.made_step hpre]
      exact List.forall_mem_append.2 ⟨h.starts t, fun _ hc ↦ absurd hc List.not_mem_nil⟩
    · exact h.outside_pro (by rw [hw]; decide)
  case h_2 hw =>
    obtain ⟨hout, hs'⟩ := Option.ite_none_right_eq_some.1 hstep
    obtain rfl := Option.some.inj hs'
    exact ⟨h.pre, h.pro, h.waits.trans (by rw [hw]; rfl), h.sets.trans (by rw [hw]; rfl), h.starts,
      h.joins, fun _ ↦ hout, fun _ ↦ h.outside_pro (by rw [hw]; decide)⟩
  case h_3 hw =>
    obtain ⟨pro, hpro, rfl⟩ := Option.map_eq_some_iff.1 hstep
    refine ⟨h.pre, h.pro.tail hpro, h.waits.trans (by rw [hw]; rfl), ?_, h.starts, fun t ↦ ?_,
      fun _ ↦ h.outside_pre (by rw [hw]; decide), (absurd rfl ·)⟩
    · show pro.made none = _
      rw [State.made_step hpro, h.sets, hw]
      rfl
    · show ∀ c ∈ pro.made (some t), ∃ timeout, c = .wait timeout
      rw [State.made_step hpro]
      exact List.forall_mem_append.2 ⟨h.joins t, fun _ hc ↦ absurd hc List.not_mem_nil⟩
  case h_4 hw =>
    obtain ⟨hout, hs'⟩ := Option.ite_none_right_eq_some.1 hstep
    obtain rfl := Option.some.inj hs'
    exact ⟨h.pre, h.pro, h.waits.trans (by rw [hw]; rfl), h.sets.trans (by rw [hw]; rfl), h.starts,
      h.joins, fun _ ↦ h.outside_pre (by rw [hw]; decide), fun _ ↦ hout⟩
  case h_5 => cases hstep

theorem callsKnown_returns (h : CallsKnown run s) (hstep : s.returns t = some s') :
    CallsKnown run s' := by
  rw [returns] at hstep
  split at hstep
  case h_1 => cases hstep
  case h_2 | h_3 =>
    obtain ⟨-, hs'⟩ := Option.ite_none_right_eq_some.1 hstep
    exact Option.some.inj hs' ▸ h.callers _ _ _

/-- **Every step keeps known which calls of the events have been made, and by whom.** -/
theorem callsKnown_step (h : CallsKnown run s) {e : ThreadEvent τ} (hstep : s.step e = some s') :
    CallsKnown run s' := by
  cases e with
  | wrapper => exact callsKnown_runnerWrapper h hstep
  | start t =>
    obtain ⟨-, hstep⟩ := Option.ite_none_right_eq_some.1 hstep
    rw [callStart] at hstep
    split at hstep
    · exact Option.some.inj hstep ▸ h
    · obtain ⟨pre, hpre, rfl⟩ := Option.map_eq_some_iff.1 hstep
      refine (h.stepPre hpre rfl fun u c hc ↦ ?_).callers _ _ _
      rw [Event.calls] at hc
      split at hc
      · exact List.mem_singleton.1 hc
      · cases hc
  | join t timeout =>
    obtain ⟨-, hstep⟩ := Option.ite_none_right_eq_some.1 hstep
    rw [callJoin] at hstep
    split at hstep
    · obtain ⟨pro, hpro, rfl⟩ := Option.map_eq_some_iff.1 hstep
      refine (h.stepPro hpro rfl fun u c hc ↦ ⟨timeout, ?_⟩).callers _ _ _
      rw [Event.calls] at hc
      split at hc
      · exact List.mem_singleton.1 hc
      · cases hc
    · exact Option.some.inj hstep ▸ h.callers _ _ _
  | go t => exact callsKnown_returns h hstep
  | pre e =>
    obtain ⟨he, hstep⟩ := Option.ite_none_right_eq_some.1 hstep
    obtain ⟨pre, hpre, rfl⟩ := Option.map_eq_some_iff.1 hstep
    refine h.stepPre hpre (calls_of_inside he none) fun t c hc ↦ ?_
    rw [calls_of_inside he] at hc
    cases hc
  | pro e =>
    obtain ⟨he, hstep⟩ := Option.ite_none_right_eq_some.1 hstep
    obtain ⟨pro, hpro, rfl⟩ := Option.map_eq_some_iff.1 hstep
    refine h.stepPro hpro (calls_of_inside he none) fun t c hc ↦ ?_
    rw [calls_of_inside he] at hc
    cases hc

end Thread

end JnetLib
