import JnetLib.Foundation.Monitor

/-!
# Wake-ups

* `notifier_of_run` says that no wake-up is lost: a thread only waits for a condition that holds if
  another one is about to wake it. It asks of the code that whoever makes a condition hold wakes the
  others (`OnlyNotifiersEnable`). A condition that holds was then made to hold by a call that has
  not woken the others yet, or everybody who waited for it has been woken since (`Awake`).
* `enabled_or_waiting` says that the threads do not block each other: some thread can go on unless
  every one of them is outside, or waits for a condition that does not hold. A thread inside the
  mutex can go on, and without one the mutex is free; the rest is `notifier_of_run`.
-/

namespace Monitor

section Invariant

variable {τ σ κ ρ : Type*} [DecidableEq τ] {code : Code σ κ ρ} {v : σ} {s s' : State τ σ κ ρ}

/-- A call that does not wake the others makes no condition hold. -/
def Code.OnlyNotifiersEnable (code : Code σ κ ρ) : Prop :=
  ∀ c r v c', code.notifies c = false → (r = .signalled → code.ready c v = true) →
    code.ready c' (code.act c r v).1 = true → code.ready c' v = true

/-- Whoever waits for a condition that holds is going to be woken. -/
def Awake (code : Code σ κ ρ) (s : State τ σ κ ρ) : Prop :=
  ∀ t c, s.phases t = .asleep c → code.ready c s.value = true → ∃ u, (s.phases u).Notifies code

theorem Awake.update (h : Awake code s) {t : τ} {p : Phase κ ρ} {w : σ} {o : Option τ}
    {l : List (Entry τ κ ρ)} (hasleep : ∀ c, p = .asleep c → code.ready c w = false)
    (hready : ∀ c, code.ready c w = true → code.ready c s.value = true ∨ p.Notifies code)
    (hkeep : (s.phases t).Notifies code → p.Notifies code) :
    Awake code (State.go { s with value := w, owner := o, history := l } t p) := by
  intro u c hu hc
  have hself : p.Notifies code →
      ∃ x, ((State.go { s with value := w, owner := o, history := l } t p).phases x).Notifies
        code :=
    fun hp ↦ ⟨t, by rw [State.go_self]; exact hp⟩
  by_cases hut : u = t
  · subst hut
    rw [State.go_self] at hu
    exact absurd (hc.symm.trans (hasleep c hu)) nofun
  · rw [State.go_of_ne _ _ hut] at hu
    rcases hready c hc with hc | hp
    · obtain ⟨x, hx⟩ := h u c hu hc
      by_cases hxt : x = t
      · exact hself (hkeep (hxt ▸ hx))
      · exact ⟨x, by rw [State.go_of_ne _ _ hxt]; exact hx⟩
    · exact hself hp

/-- A thread that changes nothing and was not going to wake anybody. -/
theorem Awake.go (h : Awake code s) {t : τ} {p : Phase κ ρ} {o : Option τ}
    (hasleep : ∀ c, p = .asleep c → code.ready c s.value = false)
    (hkeep : (s.phases t).Notifies code → p.Notifies code) :
    Awake code (State.go { s with owner := o } t p) :=
  h.update hasleep (fun _ hc ↦ .inl hc) hkeep

theorem awake_stepRun (hquiet : code.OnlyNotifiersEnable) (hinv : Serial code v s)
    (h : Awake code s) {t : τ}
    (hstep : s.stepRun code t = some s') : Awake code s' := by
  cases State.runs_of_stepRun hstep with
  | lock c r hp howner => exact h.go nofun (by rw [hp]; exact False.elim)
  | leave c r hp hgo => exact h.go nofun (by rw [hp]; exact False.elim)
  | wait c r hp hready =>
    refine h.go (fun c' hc' ↦ ?_) (by rw [hp]; exact False.elim)
    obtain rfl := Phase.asleep.inj hc'
    exact hready
  | act c r hp =>
    refine h.update nofun (fun c' hc' ↦ ?_) (by rw [hp]; exact False.elim)
    cases hn : code.notifies c with
    | true => exact .inr hn
    | false =>
      have hfits := hinv.fits t
      rw [hp] at hfits
      exact .inl (hquiet c r s.value c' hn hfits.2 hc')
  | unlock c x hp =>
    refine h.go (fun c' hc' ↦ ?_) fun hn ↦ ?_
    · split at hc' <;> cases hc'
    · rw [hp] at hn
      rw [if_pos (by exact hn)]
      exact hn
  | wakeAll c x hp =>
    intro u c' hu
    -- nobody waits any more
    by_cases hut : u = t
    · subst hut
      rw [State.go_self] at hu
      cases hu
    · rw [State.go_of_ne _ _ hut] at hu
      exact absurd hu (Phase.woken_ne_asleep _ _)

theorem awake_step (hquiet : code.OnlyNotifiersEnable) (hinv : Serial code v s) (h : Awake code s)
    {e : Event τ κ}
    (hstep : s.step code e = some s') : Awake code s' := by
  cases e with
  | call t c =>
    rw [State.step] at hstep
    split at hstep
    · next hp =>
      obtain rfl := Option.some.inj hstep
      exact h.go (fun _ hc ↦ by cases hc) (by rw [hp]; exact False.elim)
    · cases hstep
  | run t => exact awake_stepRun hquiet hinv h hstep
  | wake t r =>
    rw [State.step] at hstep
    split at hstep
    · next c hp =>
      split_ifs at hstep
      obtain rfl := Option.some.inj hstep
      exact h.go (fun _ hc ↦ by cases hc) (by rw [hp]; exact False.elim)
    · cases hstep

/-- **No wake-up is lost.** Where every call that makes a condition hold wakes the others, a thread
only waits for a condition that holds when another thread is going to wake it. -/
theorem notifier_of_run (hquiet : code.OnlyNotifiersEnable) {l : List (Event τ κ)}
    (hrun : Transition.run (State.step code) (State.start v) l = some s) {t : τ} {c : κ}
    (ht : s.phases t = .asleep c) (hc : code.ready c s.value = true) :
    ∃ u, (s.phases u).Notifies code := by
  have hboth : Serial code v s ∧ Awake code s :=
    Transition.invariant_run' (I := fun s ↦ Serial code v s ∧ Awake code s)
      (fun _ _ _ h hstep ↦ ⟨serial_step h.1 hstep, awake_step hquiet h.1 h.2 hstep⟩)
      ⟨serial_start v, nofun⟩ hrun
  exact hboth.2 t c ht hc

/-- **No thread blocks the others.** Some thread can go on, unless every one is outside or waits for
a condition that does not hold. -/
theorem enabled_or_waiting (hquiet : code.OnlyNotifiersEnable) {l : List (Event τ κ)}
    (hrun : Transition.run (State.step code) (State.start v) l = some s) :
    (∃ t s', s.stepRun code t = some s') ∨
      ∀ t, s.phases t = .outside ∨ ∃ c, s.phases t = .asleep c ∧ code.ready c s.value = false := by
  by_cases hstuck : ∃ t s', s.stepRun code t = some s'
  · exact .inl hstuck
  have hnone : ∀ t, s.stepRun code t = none := fun t ↦
    Option.eq_none_iff_forall_ne_some.2 fun s' hs' ↦ hstuck ⟨t, s', hs'⟩
  have hinv := serial_of_run hrun
  have howner : s.owner = none := by
    refine Option.eq_none_iff_forall_ne_some.2 fun t ht ↦ ?_
    have hholds := (hinv.holds t).2 ht
    rcases State.phases_of_stepRun_eq_none (hnone t) with hp | ⟨c, hp⟩ | ⟨⟨c, r, hp⟩, -⟩ <;>
    · rw [hp] at hholds
      exact hholds
  have hplace : ∀ t, s.phases t = .outside ∨ ∃ c, s.phases t = .asleep c := fun t ↦
    (State.phases_of_stepRun_eq_none (hnone t)).imp_right fun h ↦
      h.resolve_right fun hlocking ↦ hlocking.2 howner
  refine .inr fun t ↦ (hplace t).imp_right fun ⟨c, hc⟩ ↦ ⟨c, hc, ?_⟩
  refine Bool.eq_false_of_not_eq_true fun hready ↦ ?_
  obtain ⟨u, hu⟩ := notifier_of_run hquiet hrun hc hready
  rcases hplace u with h | ⟨c', h⟩ <;>
  · rw [h] at hu
    exact hu

end Invariant

end Monitor
