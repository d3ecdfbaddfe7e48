import JnetLib.Base.Thread

/-!
# Joining a thread

* `joined_of_run` says that the runner is not called before the thread has been started, and that
  `join` lets nobody through before the runner has returned, and no more than one. It rests on
  `atomic_of_run` for the two events, on `CallsKnown` for who has called them, and on `Answers` for
  what the callers of `join` have been told.
* `ended_of_stuck` says that a thread that has been started gets to its end, and that nobody hangs
  in `join` then, unless another one has been let through. It rests on `waits_of_run`: a thread that
  sleeps in an event that is signaled is going to be woken.

Both rest on `pthread_create` having made the new thread.
-/

namespace JnetLib

open Monitor Event

namespace Thread

variable {τ : Type*} [DecidableEq τ]
variable {run : Bool} {s s' : Thread τ} {t : τ}

/-! ### What `join` has returned -/

/-- What the waits of one caller have come to. -/
def results (joins : List (Joined τ)) (t : τ) : List (Option ℤ) :=
  (joins.filter fun j ↦ j.caller = t ∧ j.waited = true).map Joined.ret

/-- Each wait of a caller's comes to what its call of `pro_event_` has returned. -/
structure Answers (pro : State (Option τ) Bool Call (Option ℤ)) (joins : List (Joined τ))
    (callers : τ → ThreadCaller) : Prop where
  answered : ∀ t, results joins t <+: (pro.entries (some t)).map Entry.answer
  calls : ∀ t, (pro.made (some t)).length = (results joins t).length + (callers t).waits

variable {pro pro' : State (Option τ) Bool Call (Option ℤ)} {joins : List (Joined τ)}
  {callers callers' : τ → ThreadCaller}

theorem Answers.step (h : Answers pro joins callers) {e : Monitor.Event (Option τ) Call}
    (hstep : pro.step event e = some pro')
    (hcalls : ∀ t, (callers t).waits + (e.calls (some t)).length = (callers' t).waits) :
    Answers pro' joins callers' where
  answered t := (h.answered t).trans (((State.history_step hstep).filter _).map _)
  calls t := by
    rw [State.made_step hstep, List.length_append, h.calls, Nat.add_assoc, hcalls]

/-- Callers that do not begin or end a wait. -/
theorem Answers.move (h : Answers pro joins callers) (hwaits : (callers t).waits = 0)
    {c : ThreadCaller} (hc : c.waits = 0) :
    Answers pro joins (Function.update callers t c) := by
  refine ⟨h.answered, fun u ↦ ?_⟩
  by_cases hu : u = t
  · subst hu
    rw [h.calls, hwaits, Function.update_self, hc]
  · rw [h.calls, Function.update_of_ne hu]

/-- `join` returns without a wait. -/
theorem Answers.skip (h : Answers pro joins callers) (t : τ) (ret : Option ℤ) :
    Answers pro (joins ++ [⟨t, false, ret⟩]) callers := by
  have hresults (u : τ) : results (joins ++ [⟨t, false, ret⟩]) u = results joins u := by
    simp [results]
  exact ⟨fun u ↦ hresults u ▸ h.answered u, fun u ↦ hresults u ▸ h.calls u⟩

/-- `join` returns behind a wait. -/
theorem Answers.join (h : Answers pro joins callers) (hjoining : callers t = .joining)
    (hout : pro.phases (some t) = .outside) :
    Answers pro (joins ++ [⟨t, true, answer pro (some t)⟩])
      (Function.update callers t .outside) := by
  have hself : results (joins ++ [⟨t, true, answer pro (some t)⟩]) t =
      results joins t ++ [answer pro (some t)] := by simp [results]
  have hother {u : τ} (hu : u ≠ t) : results (joins ++ [⟨t, true, answer pro (some t)⟩]) u =
      results joins u := by simp [results, Ne.symm hu]
  have hlength := h.calls t
  rw [hjoining] at hlength
  refine ⟨fun u ↦ ?_, fun u ↦ ?_⟩
  · by_cases hu : u = t
    · subst hu
      rw [hself]
      -- all but the last answer have been returned before
      rw [State.made, hout, List.length_append, List.length_map] at hlength
      have hne : pro.entries (some u) ≠ [] := fun hnil ↦ by
        rw [hnil] at hlength
        cases hlength
      obtain ⟨l, e, hl⟩ := (List.eq_nil_or_concat' _).resolve_left hne
      have hans := h.answered u
      rw [hl, List.length_append] at hlength
      rw [hl, List.map_append] at hans ⊢
      have heq : results joins u = l.map Entry.answer := by
        refine (List.prefix_of_prefix_length_le hans (List.prefix_append _ _) ?_).eq_of_length ?_
        all_goals
          rw [List.length_map]
          simp [Phase.pending, ThreadCaller.waits] at hlength
          omega
      rw [heq, answer, hl, List.getLast?_concat]
      exact List.prefix_refl _
    · rw [hother hu]
      exact h.answered u
  · by_cases hu : u = t
    · subst hu
      rw [hself, h.calls, hjoining, Function.update_self, List.length_append]
      rfl
    · rw [hother hu, h.calls, Function.update_of_ne hu]

/-- **Every step keeps the answers recorded for the callers of `join`.** -/
theorem answers_step (h : Answers s.proEvent s.joins s.callers) {e : ThreadEvent τ}
    (hstep : s.step e = some s') : Answers s'.proEvent s'.joins s'.callers := by
  cases e with
  | wrapper =>
    rw [Thread.step, runnerWrapper] at hstep
    split at hstep
    case h_1 =>
      obtain ⟨pre, -, rfl⟩ := Option.map_eq_some_iff.1 hstep
      exact h
    case h_3 =>
      obtain ⟨pro, hpro, rfl⟩ := Option.map_eq_some_iff.1 hstep
      exact h.step hpro fun _ ↦ rfl
    case h_2 | h_4 =>
      obtain ⟨-, hs'⟩ := Option.ite_none_right_eq_some.1 hstep
      exact Option.some.inj hs' ▸ h
    case h_5 => cases hstep
  | start t =>
    obtain ⟨hout, hstep⟩ := Option.ite_none_right_eq_some.1 hstep
    rw [callStart] at hstep
    split at hstep
    · exact Option.some.inj hstep ▸ h
    · obtain ⟨pre, -, rfl⟩ := Option.map_eq_some_iff.1 hstep
      exact h.move (by rw [hout]; rfl) rfl
  | join t timeout =>
    obtain ⟨hout, hstep⟩ := Option.ite_none_right_eq_some.1 hstep
    rw [callJoin] at hstep
    split at hstep
    · obtain ⟨pro, hpro, rfl⟩ := Option.map_eq_some_iff.1 hstep
      refine h.step hpro fun u ↦ ?_
      by_cases hu : u = t
      · subst hu
        simp [hout, Event.calls, Thread.move, ThreadCaller.waits]
      · simp [Event.calls, Thread.move, hu, Ne.symm hu]
    · exact Option.some.inj hstep ▸ h.skip t (some 1)
  | go t =>
    rw [Thread.step, returns] at hstep
    split at hstep
    case h_1 => cases hstep
    case h_2 hstarting =>
      obtain ⟨-, hs'⟩ := Option.ite_none_right_eq_some.1 hstep
      exact Option.some.inj hs' ▸ h.move (by rw [hstarting]; rfl) rfl
    case h_3 hjoining =>
      obtain ⟨hout, hs'⟩ := Option.ite_none_right_eq_some.1 hstep
      exact Option.some.inj hs' ▸ h.join hjoining hout
  | pre e =>
    obtain ⟨-, hstep⟩ := Option.ite_none_right_eq_some.1 hstep
    obtain ⟨pre, -, rfl⟩ := Option.map_eq_some_iff.1 hstep
    exact h
  | pro e =>
    obtain ⟨he, hstep⟩ := Option.ite_none_right_eq_some.1 hstep
    obtain ⟨pro, hpro, rfl⟩ := Option.map_eq_some_iff.1 hstep
    exact h.step hpro fun u ↦ by rw [calls_of_inside he]; rfl

/-- No more waits return 1 than are let through. -/
theorem Answers.countP_le (h : Answers pro joins callers) :
    joins.countP (fun j ↦ j.waited = true ∧ j.ret = some 1) ≤ pro.history.countP (Passed ·) := by
  have hsub : ((joins.filter fun j ↦ j.waited).map fun j ↦ (some j.caller, j.ret)).Subperm
      (pro.history.map fun e ↦ (e.thread, e.answer)) := by
    refine List.subperm_ext_iff.2 fun x hx ↦ ?_
    obtain ⟨j, -, rfl⟩ := List.mem_map.1 hx
    have hle := (h.answered j.caller).sublist.count_le j.ret
    simp only [results, State.entries, List.count_eq_countP, List.countP_map, List.countP_filter]
      at hle ⊢
    refine le_of_eq_of_le (List.countP_congr fun x _ ↦ ?_)
      (hle.trans_eq (List.countP_congr fun x _ ↦ ?_)) <;>
    · simp
      tauto
  have hcount := hsub.countP_le (fun x ↦ x.2 = some 1)
  rw [List.countP_map, List.countP_map, List.countP_filter] at hcount
  refine le_trans (le_of_eq (List.countP_congr fun j _ ↦ ?_)) hcount
  simp [and_comm]

/-! ### The events -/

/-- Only the new thread sets `pro_event_`, once, behind the runner. -/
theorem CallsKnown.count_set_le (h : CallsKnown run s) :
    s.proEvent.history.countP (·.call = .set) ≤ if s.wrapper.returned then 1 else 0 := by
  have hle : s.proEvent.history.countP (·.call = .set) ≤ (s.proEvent.entries none).length := by
    rw [State.entries, ← List.countP_eq_length_filter]
    refine List.countP_mono_left fun e he hset ↦ decide_eq_true ?_
    have hmade := State.call_mem_made he
    cases hthread : e.thread with
    | none => rfl
    | some t =>
      rw [hthread, of_decide_eq_true hset] at hmade
      obtain ⟨timeout, hwait⟩ := h.joins t _ hmade
      cases hwait
  have hlength := congrArg List.length h.sets
  rw [State.made, List.length_append, List.length_map] at hlength
  split at hlength
  · next hreturned =>
    rw [if_pos hreturned]
    rw [List.length_singleton] at hlength
    omega
  · next hreturned =>
    rw [if_neg hreturned]
    rw [List.length_nil] at hlength
    omega

/-- Whoever has been let through by `pro_event_`, it was set before. -/
theorem CallsKnown.count_passed_le (h : CallsKnown run s) :
    s.proEvent.history.countP (Passed ·) ≤ if s.wrapper.returned then 1 else 0 := by
  obtain ⟨l, hl⟩ := h.pro
  have hcount := (explains_of_run hl).count rfl
  have hset := h.count_set_le
  rw [Bool.toNat_false] at hcount
  omega

/-- The new thread has been let through by `pre_event_`, or its wait has failed. -/
theorem CallsKnown.started_of_called (h : CallsKnown run s) (hcalled : s.wrapper.called = true) :
    run = true ∨ (∃ t, ∃ e ∈ s.preEvent.history, e.thread = some t ∧ e.call = .set) ∨
      ∃ e ∈ s.preEvent.history, e.thread = none ∧ e.wake = .failed ∧ e.answer = some (-1) := by
  have hcreated : s.wrapper ≠ .created := fun hw ↦ by rw [hw] at hcalled; cases hcalled
  have hwaiting : s.wrapper ≠ .waiting := fun hw ↦ by rw [hw] at hcalled; cases hcalled
  have hmade : s.preEvent.made none = [.wait (-1)] := h.waits.trans (if_neg hcreated)
  obtain ⟨e, he, hthread, hcall⟩ := State.exists_entry (c := .wait (-1)) (s := s.preEvent)
    (t := none) (by rw [hmade]; exact List.mem_singleton_self _)
    (by rw [h.outside_pre hwaiting]; rfl)
  obtain ⟨l, hl⟩ := h.pre
  have hexplains := explains_of_run hl
  rcases hexplains.answered e he hcall with hpassed | hfailed
  · have hpos : 0 < s.preEvent.history.countP (Passed ·) :=
      List.countP_pos_iff.2 ⟨e, he, decide_eq_true hpassed⟩
    have hcount := hexplains.count rfl
    cases hr : run with
    | true => exact .inl rfl
    | false =>
      rw [hr, Bool.toNat_false] at hcount
      obtain ⟨x, hx, hset⟩ := List.countP_pos_iff.1
        (show 0 < s.preEvent.history.countP (·.call = .set) by omega)
      have hxmade := State.call_mem_made hx
      cases hxthread : x.thread with
      | some t => exact .inr (.inl ⟨t, x, hx, hxthread, of_decide_eq_true hset⟩)
      | none =>
        rw [hxthread, hmade, List.mem_singleton, of_decide_eq_true hset] at hxmade
        cases hxmade
  · exact .inr (.inr ⟨e, he, hthread, hfailed⟩)

/-! ### Runs -/

section Runs

variable {events : List (ThreadEvent τ)}

theorem callsKnown_of_run (hrun : Transition.run step (create run) events = some s) :
    CallsKnown run s :=
  Transition.invariant_run' (fun _ _ _ h hstep ↦ callsKnown_step h hstep)
    (callsKnown_create run) hrun

theorem answers_of_run (hrun : Transition.run step (create run) events = some s) :
    Answers s.proEvent s.joins s.callers :=
  Transition.invariant_run' (I := fun s ↦ Answers s.proEvent s.joins s.callers)
    (fun _ _ _ h hstep ↦ answers_step h hstep) ⟨fun _ ↦ List.prefix_refl _, fun _ ↦ rfl⟩ hrun

/-- **`join` lets through behind the end.** In every run, however many threads call `start` and
`join`: the runner has been called only if the thread was created running, or `start` has set
`pre_event_`, or the wait for it has failed; a `join` that waits returns 1 only if the runner has
returned; and no more than one of them does. -/
theorem joined_of_run (hrun : Transition.run step (create run) events = some s) :
    (s.wrapper.called = true → run = true ∨
      (∃ t, ∃ e ∈ s.preEvent.history, e.thread = some t ∧ e.call = .set) ∨
        ∃ e ∈ s.preEvent.history, e.thread = none ∧ e.wake = .failed ∧ e.answer = some (-1)) ∧
      (∀ j ∈ s.joins, j.waited = true → j.ret = some 1 → s.wrapper.returned = true) ∧
        s.joins.countP (fun j ↦ j.waited = true ∧ j.ret = some 1) ≤ 1 := by
  have h := callsKnown_of_run hrun
  have hcount := (answers_of_run hrun).countP_le.trans h.count_passed_le
  refine ⟨h.started_of_called, fun j hj hwaited hret ↦ ?_, hcount.trans (by split <;> decide)⟩
  have hpos : 0 < s.joins.countP (fun j ↦ j.waited = true ∧ j.ret = some 1) :=
    List.countP_pos_iff.2 ⟨j, hj, decide_eq_true ⟨hwaited, hret⟩⟩
  by_contra hreturned
  rw [if_neg hreturned] at hcount
  omega

/-- One caller joins a thread that was created running, and is let through behind its end. -/
def joinOnce : List (ThreadEvent Unit) :=
  [.wrapper, .pre (.run none), .pre (.run none), .pre (.run none), .pre (.run none), .wrapper,
    .join () (-1), .pro (.run (some ())), .pro (.run (some ())), .wrapper, .pro (.run none),
    .pro (.run none), .pro (.run none), .pro (.run none), .pro (.run none), .wrapper,
    .pro (.run (some ())), .pro (.run (some ())), .pro (.run (some ())), .pro (.run (some ())),
    .go ()]

theorem joined_of_run_joinOnce :
    ∃ s : Thread Unit, Transition.run step (create true) joinOnce = some s ∧
      s.joins = [⟨(), true, some 1⟩] ∧
    (s.wrapper.called = true → true = true ∨
      (∃ t, ∃ e ∈ s.preEvent.history, e.thread = some t ∧ e.call = .set) ∨
        ∃ e ∈ s.preEvent.history, e.thread = none ∧ e.wake = .failed ∧ e.answer = some (-1)) ∧
      (∀ j ∈ s.joins, j.waited = true → j.ret = some 1 → s.wrapper.returned = true) ∧
        s.joins.countP (fun j ↦ j.waited = true ∧ j.ret = some 1) ≤ 1 := by
  have h : (Transition.run step (create true) joinOnce).map Thread.joins =
      some [⟨(), true, some 1⟩] := by decide +kernel
  obtain ⟨s, hs, hjoins⟩ := Option.map_eq_some_iff.1 h
  exact ⟨s, hs, hjoins, joined_of_run hs⟩

/-- The steps a thread takes by itself. -/
def Internal : ThreadEvent τ → Prop
  | .wrapper | .go _ | .pre (.run _) | .pro (.run _) => True
  | _ => False

omit [DecidableEq τ] in
theorem inside_run (t : Option τ) : Inside (.run t : Monitor.Event (Option τ) Call) := by
  intro u c h
  cases h

/-- Inside an event that nobody can go on in, all wait for it to be set. -/
theorem nonsignaled_of_stuck {e : State (Option τ) Bool Call (Option ℤ)} {init : Bool}
    (he : Transition.Reachable (State.step event) (State.start init) e)
    (hstuck : ∀ t, e.stepRun event t = none) (t : Option τ) : e.phases t = .outside ∨
      ∃ timeout, e.phases t = .asleep (.wait timeout) ∧ e.value = false := by
  obtain ⟨l, hl⟩ := he
  refine (enabled_or_nonsignaled hl).resolve_left ?_ t
  rintro ⟨u, e', hstep⟩
  exact Option.some_ne_none _ (hstep.symm.trans (hstuck u))

/-- The flag of `pre_event_`, while the new thread waits and the event has been set. -/
theorem CallsKnown.value_of_waiting (h : CallsKnown run s) (hw : s.wrapper ≠ .created)
    (hpending : (s.preEvent.phases none).pending = some (.wait (-1)))
    (hstarted : run = true ∨ ∃ e ∈ s.preEvent.history, e.call = .set) :
    s.preEvent.value = true := by
  have hentries : s.preEvent.entries none = [] := by
    have hlength := congrArg List.length (h.waits.trans (if_neg hw))
    rw [State.made, hpending, List.length_append, List.length_map] at hlength
    exact List.length_eq_zero_iff.1 (Nat.succ_injective hlength)
  obtain ⟨l, hl⟩ := h.pre
  rw [← (explains_of_run hl).atomic]
  refine level_of_raised (fun e he ↦ .inl ?_) hstarted
  have hmade := State.call_mem_made he
  cases hthread : e.thread with
  | some t => exact h.starts t _ (hthread ▸ hmade)
  | none =>
    have hmem : e ∈ s.preEvent.entries none :=
      List.mem_filter.2 ⟨he, decide_eq_true hthread⟩
    rw [hentries] at hmem
    cases hmem

/-- The flag of `pro_event_`, while nobody has been let through. -/
theorem CallsKnown.value_of_ended (h : CallsKnown run s) (hended : s.wrapper = .ended)
    (hnone : ∀ e ∈ s.proEvent.history, ¬Passed e) : s.proEvent.value = true := by
  have hmade : s.proEvent.made none = [.set] := h.sets.trans (by rw [hended]; rfl)
  obtain ⟨e, he, -, hset⟩ := State.exists_entry (c := .set) (s := s.proEvent) (t := none)
    (by rw [hmade]; exact List.mem_singleton_self _)
    (by rw [h.outside_pro (by rw [hended]; decide)]; rfl)
  obtain ⟨l, hl⟩ := h.pro
  rw [← (explains_of_run hl).atomic]
  refine level_of_raised (fun x hx ↦ ?_) (.inr ⟨e, he, hset⟩)
  have hxmade := State.call_mem_made hx
  cases hthread : x.thread with
  | none =>
    rw [hthread, hmade] at hxmade
    exact .inl (List.mem_singleton.1 hxmade)
  | some t =>
    rw [hthread] at hxmade
    exact .inr ((h.joins t _ hxmade).imp fun _ hwait ↦ ⟨hwait, hnone x hx⟩)

/-- **A started thread gets to its end.** Where no thread can go on by itself, a thread that was
created running, or whose `pre_event_` has been set, has come to its end; and if somebody waits in
`join` then, another one has been let through. -/
theorem ended_of_stuck (hrun : Transition.run step (create run) events = some s)
    (hstuck : ∀ e, Internal e → s.step e = none) :
    ((run = true ∨ ∃ e ∈ s.preEvent.history, e.call = .set) → s.wrapper = .ended) ∧
      (s.wrapper = .ended → ∀ t, s.callers t = .joining →
        ∃ e ∈ s.proEvent.history, Passed e) := by
  have h := callsKnown_of_run hrun
  have hpre := nonsignaled_of_stuck h.pre fun t ↦ by
    have hrun := hstuck (.pre (.run t)) trivial
    rw [step, if_pos (inside_run t)] at hrun
    exact Option.map_eq_none_iff.1 hrun
  have hpro := nonsignaled_of_stuck h.pro fun t ↦ by
    have hrun := hstuck (.pro (.run t)) trivial
    rw [step, if_pos (inside_run t)] at hrun
    exact Option.map_eq_none_iff.1 hrun
  have hwrapper : s.runnerWrapper = none := hstuck .wrapper trivial
  refine ⟨fun hstarted ↦ ?_, fun hended t ht ↦ ?_⟩
  · rw [runnerWrapper] at hwrapper
    cases hw : s.wrapper with
    | created =>
      simp [hw, State.step, h.outside_pre (by rw [hw]; decide)] at hwrapper
    | waiting =>
      simp only [hw] at hwrapper
      rcases hpre none with hout | ⟨timeout, hasleep, hvalue⟩
      · rw [if_pos hout] at hwrapper
        cases hwrapper
      · have hmem : Call.wait timeout ∈ s.preEvent.made none :=
          State.mem_made_of_pending (by rw [hasleep]; rfl)
        rw [h.waits, if_neg (by rw [hw]; decide), List.mem_singleton] at hmem
        have hraised := h.value_of_waiting (by rw [hw]; decide)
          (by rw [hasleep, hmem]; rfl) hstarted
        exact absurd (hvalue.symm.trans hraised) Bool.false_ne_true
    | running =>
      simp [hw, State.step, h.outside_pro (by rw [hw]; decide)] at hwrapper
    | setting =>
      simp only [hw] at hwrapper
      rcases hpro none with hout | ⟨timeout, hasleep, -⟩
      · rw [if_pos hout] at hwrapper
        cases hwrapper
      · have hmem : Call.wait timeout ∈ s.proEvent.made none :=
          State.mem_made_of_pending (by rw [hasleep]; rfl)
        rw [h.sets, hw, if_pos (show Wrapper.setting.returned = true from rfl),
          List.mem_singleton] at hmem
        cases hmem
    | ended => rfl
  · by_contra hnone
    have hraised := h.value_of_ended hended fun e he hpassed ↦ hnone ⟨e, he, hpassed⟩
    have hgo : s.returns t = none := hstuck (.go t) trivial
    rw [returns] at hgo
    simp only [ht] at hgo
    rcases hpro (some t) with hout | ⟨timeout, -, hvalue⟩
    · rw [if_pos hout] at hgo
      cases hgo
    · exact absurd (hvalue.symm.trans hraised) Bool.false_ne_true

/-- A caller that joins a second time, behind the end of the thread, and hangs. -/
theorem ended_of_stuck_joinTwice :
    ∃ s : Thread Unit, Transition.run step (create true)
        (joinOnce ++ [.join () (-1), .pro (.run (some ())), .pro (.run (some ()))]) = some s ∧
      s.callers () = .joining ∧
    ((true = true ∨ ∃ e ∈ s.preEvent.history, e.call = .set) → s.wrapper = .ended) ∧
      (s.wrapper = .ended → ∀ t, s.callers t = .joining →
        ∃ e ∈ s.proEvent.history, Passed e) := by
  have h : (Transition.run step (create true)
      (joinOnce ++ [.join () (-1), .pro (.run (some ())), .pro (.run (some ()))])).map
        (fun s : Thread Unit ↦ (s.callers (),
          (s.step .wrapper).isNone && (s.step (.go ())).isNone &&
            (s.step (.pre (.run none))).isNone && (s.step (.pre (.run (some ())))).isNone &&
            (s.step (.pro (.run none))).isNone && (s.step (.pro (.run (some ())))).isNone)) =
          some (.joining, true) := by decide +kernel
  obtain ⟨s, hs, heq⟩ := Option.map_eq_some_iff.1 h
  obtain ⟨hcaller, hstuck⟩ := Prod.mk.inj heq
  simp only [Bool.and_eq_true, Option.isNone_iff_eq_none] at hstuck
  obtain ⟨⟨⟨⟨⟨hwrapper, hgo⟩, hpreNone⟩, hpreSome⟩, hproNone⟩, hproSome⟩ := hstuck
  refine ⟨s, hs, hcaller, ended_of_stuck hs fun e he ↦ ?_⟩
  match e, he with
  | .wrapper, _ => exact hwrapper
  | .go (), _ => exact hgo
  | .pre (.run none), _ => exact hpreNone
  | .pre (.run (some ())), _ => exact hpreSome
  | .pro (.run none), _ => exact hproNone
  | .pro (.run (some ())), _ => exact hproSome

end Runs

end Thread

end JnetLib
