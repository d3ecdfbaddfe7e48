import JnetLib.Foundation.WakeUps

/-!
# Events

`iocp::event` on Linux: a flag under a mutex, with a condition variable. `set` raises the flag and
wakes the threads in `wait`; behind a `wait` that was not given up, an event of type `auto_reset` is
nonsignaled again.

* `atomic_of_run` says that `set`, `reset` and `wait` take effect one at a time, and that an event
  of type `auto_reset` lets no more threads through than it has been set times.
* `waits_of_run` says that no thread sleeps on while the event is signaled.

Both are what `Monitor` says of an event: `set`, `reset` and `wait` are its calls, and the flag is
the value. `atomic_of_run` rests on `serial_of_run`, with `Explains` to read the history as an event
without inner life sees it. `waits_of_run` rests on `notifier_of_run` and `enabled_or_waiting`, as
only `set` makes the condition of a `wait` hold (`quiet`).
-/

namespace JnetLib.Event

open Monitor

variable {τ : Type*}

/-! ### The code -/

/-- `event::type`. -/
inductive ResetType
  | autoReset
  | manualReset
  deriving DecidableEq, Repr

/-- The functions. -/
inductive Call
  | set
  | reset
  | wait (timeout : ℤ)
  deriving DecidableEq, Repr

/-- What `wait` makes of the end of its loop. -/
def ret : Wake → ℤ
  | .signalled => 1
  | .timedOut => 0
  | .failed => -1

/-- The functions as calls of a monitor; `true` is `signaled`. Only `wait` returns something. -/
def code (type : ResetType) : Code Bool Call (Option ℤ) where
  ready
    | .wait _, state => state
    | _, _ => true
  timed
    | .wait timeout => timeout ≠ -1
    | _ => false
  act
    | .set, _, _ => (true, none)
    | .reset, _, _ => (false, none)
    | .wait _, r, state =>
      (if type = .autoReset ∧ r = .signalled then false else state, some (ret r))
  notifies
    | .set => true
    | _ => false

/-! ### One at a time -/

/-- The thread has been let through. -/
def Passed (e : Entry τ Call (Option ℤ)) : Prop := e.answer = some 1

instance :
    DecidablePred (Passed (τ := τ)) := fun e ↦ inferInstanceAs (Decidable (e.answer = some 1))

/-- The flag behind a call. -/
def level (type : ResetType) (state : Bool) (e : Entry τ Call (Option ℤ)) : Bool :=
  match e.call with
  | .set => true
  | .reset => false
  | .wait _ => if type = .autoReset ∧ Passed e then false else state

/-- The calls `h` as an event without inner life sees them. -/
structure Explains (type : ResetType) (init : Bool) (h : List (Entry τ Call (Option ℤ)))
    (state : Bool) : Prop where
  atomic : h.foldl (level type) init = state
  passed : ∀ l e m, h = l ++ e :: m → Passed e → l.foldl (level type) init = true
  answered : ∀ e ∈ h, e.call = .wait (-1) → Passed e ∨ e.wake = .failed ∧ e.answer = some (-1)
  count : type = .autoReset → h.countP (Passed ·) + state.toNat ≤
    h.countP (·.call = .set) + init.toNat

variable {type : ResetType} {init state : Bool} {h : List (Entry τ Call (Option ℤ))}
  {e : Entry τ Call (Option ℤ)}

theorem passed_iff (he : (code type).Effective e state) :
    Passed e ↔ ∃ timeout, e.call = .wait timeout ∧ e.wake = .signalled := by
  have hanswer := he.answer
  cases hcall : e.call with
  | wait timeout =>
    rw [hcall] at hanswer
    have hret : e.answer = some (ret e.wake) := hanswer.symm
    rw [Passed, hret]
    cases e.wake <;> simp [ret]
  | _ =>
    rw [hcall] at hanswer
    have hret : e.answer = none := hanswer.symm
    rw [Passed, hret]
    simp

theorem level_eq (he : (code type).Effective e state) :
    level type state e = ((code type).act e.call e.wake state).1 := by
  have hpassed := passed_iff he
  cases hcall : e.call with
  | wait timeout =>
    rw [hcall] at hpassed
    have hiff : Passed e ↔ e.wake = .signalled := by simpa using hpassed
    simp only [level, hcall, hiff]
    rfl
  | _ => simp only [level, hcall]; rfl

/-- What a call adds to the count. -/
theorem count_level (he : (code .autoReset).Effective e state) :
    (if Passed e then 1 else 0) + (level .autoReset state e).toNat ≤
      (if e.call = .set then 1 else 0) + state.toNat := by
  have hpassed := passed_iff he
  cases hcall : e.call with
  | set =>
    have hnot : ¬Passed e := by simp [hpassed, hcall]
    rw [if_neg hnot, if_pos rfl, level, hcall, Nat.zero_add]
    exact Nat.le_add_right 1 _
  | reset =>
    have hnot : ¬Passed e := by simp [hpassed, hcall]
    rw [if_neg hnot, level, hcall]
    exact Nat.zero_le _
  | wait timeout =>
    simp only [level, hcall, true_and, reduceCtorEq, if_false]
    by_cases hp : Passed e
    · -- the flag was raised, and is not any more
      obtain ⟨-, -, hwake⟩ := hpassed.1 hp
      have hstate := he.ready hwake
      rw [hcall] at hstate
      obtain rfl : state = true := hstate
      simp [hp]
    · simp [hp]

/-- A call that takes effect at the end of a history that explains the state. -/
theorem Explains.concat (hh : Explains type init h state) (he : (code type).Effective e state) :
    Explains type init (h ++ [e]) ((code type).act e.call e.wake state).1 := by
  refine ⟨?_, fun l x m heq hx ↦ ?_, ?_, fun htype ↦ ?_⟩
  · rw [List.foldl_append, List.foldl_cons, List.foldl_nil, hh.atomic, level_eq he]
  · rcases List.eq_nil_or_concat' m with rfl | ⟨m, y, rfl⟩
    · obtain ⟨rfl, rfl⟩ := List.append_inj' heq rfl |>.imp id List.singleton_inj.1
      rw [hh.atomic]
      obtain ⟨timeout, hcall, hwake⟩ := (passed_iff he).1 hx
      have hready := he.ready hwake
      rw [hcall] at hready
      exact hready
    · rw [← List.cons_append, ← List.append_assoc] at heq
      exact hh.passed l x m (List.append_inj' heq rfl).1 hx
  · refine List.forall_mem_append.2 ⟨hh.answered, List.forall_mem_singleton.2 fun hcall ↦ ?_⟩
    have hanswer := he.answer
    have htimed := he.timed
    rw [hcall] at hanswer htimed
    have hret : e.answer = some (ret e.wake) := hanswer.symm
    cases hwake : e.wake with
    | signalled => exact .inl ((passed_iff he).2 ⟨-1, hcall, hwake⟩)
    | timedOut => exact absurd (htimed hwake) (by simp [code])
    | failed => exact .inr ⟨rfl, by rw [hret, hwake]; rfl⟩
  · subst htype
    have hcount := hh.count rfl
    have hadd := count_level he
    rw [← level_eq he]
    simp only [List.countP_append, List.countP_singleton, decide_eq_true_eq]
    omega

/-- The flag stays raised while nobody resets it and nobody is let through. -/
theorem level_of_raised
    (hh : ∀ e ∈ h, e.call = .set ∨ ∃ timeout, e.call = .wait timeout ∧ ¬Passed e)
    (hraised : init = true ∨ ∃ e ∈ h, e.call = .set) : h.foldl (level type) init = true := by
  induction h using List.reverseRecOn with
  | nil => exact hraised.resolve_right nofun
  | append_singleton l e ih =>
    obtain ⟨hl, he⟩ := List.forall_mem_append.1 hh
    rw [List.foldl_append, List.foldl_cons, List.foldl_nil]
    rcases List.forall_mem_singleton.1 he with hset | ⟨timeout, hwait, hnot⟩
    · rw [level, hset]
    · have hlevel : level type (l.foldl (level type) init) e = l.foldl (level type) init := by
        rw [level, hwait]
        exact if_neg fun hp ↦ hnot hp.2
      rw [hlevel]
      refine ih hl (hraised.imp_right fun ⟨x, hx, hset⟩ ↦ ⟨x, ?_, hset⟩)
      refine (List.mem_append.1 hx).resolve_right fun hlast ↦ ?_
      rw [List.mem_singleton.1 hlast, hwait] at hset
      cases hset

/-! ### Runs -/

section Runs

variable [DecidableEq τ] {s : State τ Bool Call (Option ℤ)} {events : List (Monitor.Event τ Call)}

theorem explains_of_run
    (hrun : Transition.run (State.step (code type)) (State.start init) events = some s) :
    Explains type init s.history s.value :=
  Code.Replays.induction (P := Explains type init)
    ⟨rfl, fun l e m heq ↦ absurd heq.symm (by simp), nofun, fun _ ↦ Nat.le_refl _⟩
    (fun _ _ _ hh he ↦ hh.concat he) (serial_of_run hrun).replays

/-- **One at a time.** In every run of any number of threads `set`, `reset` and `wait` do to the
flag what they do one at a time: whoever is let through found it raised, a `wait` without a limit
ends no other way unless the condition variable fails, and an event of type `auto_reset` has let no
more threads through than it has been set times. -/
theorem atomic_of_run
    (hrun : Transition.run (State.step (code type)) (State.start init) events = some s) :
    s.history.foldl (level type) init = s.value ∧
      (∀ l e m, s.history = l ++ e :: m → Passed e → l.foldl (level type) init = true) ∧
        (∀ e ∈ s.history, e.call = .wait (-1) →
          Passed e ∨ e.wake = .failed ∧ e.answer = some (-1)) ∧
          (type = .autoReset → s.history.countP (Passed ·) + s.value.toNat ≤
            s.history.countP (·.call = .set) + init.toNat) := by
  have hexplains := explains_of_run hrun
  exact ⟨hexplains.atomic, hexplains.passed, hexplains.answered, hexplains.count⟩

/-- Two threads wait, and the event is set once: both are woken, and one is let through. -/
def setOnce : List (Monitor.Event (Fin 3) Call) :=
  [.call 0 (.wait (-1)), .run 0, .run 0, .call 1 (.wait (-1)), .run 1, .run 1, .call 2 .set, .run 2,
    .run 2, .run 2, .run 2, .run 2, .run 1, .run 1, .run 1, .run 1, .run 0, .run 0]

theorem atomic_of_run_setOnce :
    ∃ s : State (Fin 3) Bool Call (Option ℤ),
      Transition.run (State.step (code .autoReset)) (State.start false) setOnce = some s ∧
        s.history.countP (Passed ·) = 1 ∧
    (s.history.foldl (level .autoReset) false = s.value ∧
      (∀ l e m, s.history = l ++ e :: m → Passed e → l.foldl (level .autoReset) false = true) ∧
        (∀ e ∈ s.history, e.call = .wait (-1) →
          Passed e ∨ e.wake = .failed ∧ e.answer = some (-1)) ∧
          (ResetType.autoReset = .autoReset → s.history.countP (Passed ·) + s.value.toNat ≤
            s.history.countP (·.call = .set) + false.toNat)) := by
  have h : (Transition.run (State.step (code .autoReset)) (State.start false) setOnce).map
      (fun s : State (Fin 3) Bool Call (Option ℤ) ↦ s.history.countP (Passed ·)) = some 1 := by
    decide +kernel
  obtain ⟨s, hs, hone⟩ := Option.map_eq_some_iff.1 h
  exact ⟨s, hs, hone, atomic_of_run hs⟩

/-- Only `set` makes a condition hold. -/
theorem quiet : (code type).OnlyNotifiersEnable := by
  intro c r state c' hnotifies hready hc'
  cases c' with
  | wait timeout' =>
    cases c with
    | set => cases hnotifies
    | reset => cases hc'
    | wait timeout =>
      change (if type = .autoReset ∧ r = .signalled then false else state) = true at hc'
      split_ifs at hc'
      exact hc'
  | _ => rfl

/-- Some thread can go on, or nobody has anything to wait for but the event. -/
theorem enabled_or_nonsignaled
    (hrun : Transition.run (State.step (code type)) (State.start init) events = some s) :
    (∃ t s', s.stepRun (code type) t = some s') ∨ ∀ t, s.phases t = .outside ∨
      ∃ timeout, s.phases t = .asleep (.wait timeout) ∧ s.value = false := by
  refine (enabled_or_waiting quiet hrun).imp_right fun hall t ↦ (hall t).imp_right ?_
  rintro ⟨c, hc, hready⟩
  cases c with
  | wait timeout => exact ⟨timeout, hc, hready⟩
  | _ => cases hready

/-- **No thread sleeps on.** A thread asleep in `wait` while the event is signaled is going to be
woken by a thread that has set it; and some thread can go on, unless every one is outside or asleep
and the event is nonsignaled. -/
theorem waits_of_run
    (hrun : Transition.run (State.step (code type)) (State.start init) events = some s) :
    (∀ t c, s.phases t = .asleep c → s.value = true →
      ∃ u x, s.phases u = .unlocking .set x ∨ s.phases u = .notifying .set x) ∧
    ((∃ t s', s.stepRun (code type) t = some s') ∨ ∀ t, s.phases t = .outside ∨
      ∃ timeout, s.phases t = .asleep (.wait timeout) ∧ s.value = false) := by
  refine ⟨fun t c ht hvalue ↦ ?_, enabled_or_nonsignaled hrun⟩
  have hready : (code type).ready c s.value = true := by
    cases c with
    | wait timeout => exact hvalue
    | _ => rfl
  obtain ⟨u, hu⟩ := notifier_of_run quiet hrun ht hready
  obtain ⟨c', x, hc', hu⟩ := hu.exists
  cases c' with
  | set => exact ⟨u, x, hu⟩
  | _ => cases hc'

/-- A thread has set the event and is in front of leaving the mutex; both waiting threads still
sleep. -/
theorem waits_of_run_setOnce :
    ∃ s : State (Fin 3) Bool Call (Option ℤ),
      Transition.run (State.step (code .autoReset)) (State.start false) (setOnce.take 10) = some s ∧
        s.phases 0 = .asleep (.wait (-1)) ∧ s.value = true ∧
    (∀ t c, s.phases t = .asleep c → s.value = true →
      ∃ u x, s.phases u = .unlocking .set x ∨ s.phases u = .notifying .set x) ∧
    ((∃ t s', s.stepRun (code .autoReset) t = some s') ∨ ∀ t, s.phases t = .outside ∨
      ∃ timeout, s.phases t = .asleep (.wait timeout) ∧ s.value = false) := by
  have h : (Transition.run (State.step (code .autoReset)) (State.start false) (setOnce.take 10)).map
      (fun s : State (Fin 3) Bool Call (Option ℤ) ↦ (s.phases 0, s.value)) =
        some (.asleep (.wait (-1)), true) := by
    decide +kernel
  obtain ⟨s, hs, heq⟩ := Option.map_eq_some_iff.1 h
  obtain ⟨hphase, hvalue⟩ := Prod.mk.inj heq
  exact ⟨s, hs, hphase, hvalue, waits_of_run hs⟩

end Runs

end JnetLib.Event
