import Mathlib

/-!
# Runs of a partial transition function

The execution substrate every state machine of this development shares. A machine is a partial
step function `σ → α → Option σ`: the label `α` carries all that is not determined by the state
(which thread moves, what a system call answers), and `none` means the label is not enabled.

Nothing here knows what the machine is. What the later modules consume is

* `run` and `run_append`, the composition of runs;
* `RunMeets`, a condition on every step of a run, and `RunsTo`, what runs meeting it reach;
* `invariant_run`, the one induction over runs: what each allowed step preserves holds at the end
  of every run whose steps are all allowed.
* `Throughout`, a property of every state of a run, and `throughout_iff`, when a condition on the
  steps is exactly what the property needs.
* `Inevitable`, what every run whose steps are all allowed comes to, with a measure as its rule and
  a set of states that can be stayed in as the rule against it.

Since `step` is a function, a run on concrete labels evaluates.
-/

namespace Transition

variable {σ α : Type*} {step : σ → α → Option σ} {ok ok' : σ → α → Prop}

/-! ### Runs -/

/-- Follow the labels from left to right; `none` as soon as one of them is not enabled. -/
def run (step : σ → α → Option σ) : σ → List α → Option σ
  | s, [] => some s
  | s, a :: l => (step s a).bind fun t ↦ run step t l

@[simp]
theorem run_nil (s : σ) : run step s [] = some s :=
  rfl

theorem run_cons (s : σ) (a : α) (l : List α) :
    run step s (a :: l) = (step s a).bind fun t ↦ run step t l :=
  rfl

theorem run_cons_eq_some {s t : σ} {a : α} {l : List α} :
    run step s (a :: l) = some t ↔ ∃ u, step s a = some u ∧ run step u l = some t := by
  rw [run_cons, Option.bind_eq_some_iff]

/-- A run over a concatenation is a run over the first part followed by one over the second. -/
theorem run_append (s : σ) (l m : List α) :
    run step s (l ++ m) = (run step s l).bind fun t ↦ run step t m := by
  induction l generalizing s with
  | nil => rfl
  | cons a l ih =>
    rw [List.cons_append, run_cons, run_cons, Option.bind_assoc]
    exact congrArg _ (funext ih)

/-! ### Conditions on the steps of a run -/

/-- Every step of the run along `l` is taken in a state where `ok` allows its label. -/
def RunMeets (step : σ → α → Option σ) (ok : σ → α → Prop) : σ → List α → Prop
  | _, [] => True
  | s, a :: l => ok s a ∧ ∀ t, step s a = some t → RunMeets step ok t l

@[simp]
theorem runMeets_nil (s : σ) : RunMeets step ok s [] :=
  trivial

/-- On a known step it suffices to go on from its result. -/
theorem runMeets_cons_of_eq_some {s t : σ} {a : α} {l : List α} (ht : step s a = some t) :
    RunMeets step ok s (a :: l) ↔ ok s a ∧ RunMeets step ok t l :=
  and_congr_right fun _ ↦ ⟨fun h ↦ h t ht, fun h _ ht' ↦ Option.some.inj (ht.symm.trans ht') ▸ h⟩

theorem runMeets_cons_of_eq_none {s : σ} {a : α} {l : List α} (ht : step s a = none) :
    RunMeets step ok s (a :: l) ↔ ok s a :=
  and_iff_left fun _ ht' ↦ by rw [ht] at ht'; cases ht'

/-- A decidable condition is decidable along a run. -/
instance decidableRunMeets [∀ s a, Decidable (ok s a)] :
    ∀ (s : σ) (l : List α), Decidable (RunMeets step ok s l)
  | _, [] => isTrue trivial
  | s, a :: l =>
    match ht : step s a with
    | none => decidable_of_iff _ (runMeets_cons_of_eq_none ht).symm
    | some t =>
      have := decidableRunMeets t l
      decidable_of_iff _ (runMeets_cons_of_eq_some ht).symm

/-- A weaker condition is met by the same runs. -/
theorem RunMeets.mono (h : ∀ s a, ok s a → ok' s a) {s : σ} {l : List α}
    (hl : RunMeets step ok s l) : RunMeets step ok' s l := by
  induction l generalizing s with
  | nil => trivial
  | cons a l ih => exact ⟨h s a hl.1, fun t ht ↦ ih (hl.2 t ht)⟩

/-- A condition on the labels alone holds along the run when it holds of every label. -/
theorem runMeets_of_forall {P : α → Prop} {s : σ} {l : List α} (h : ∀ a ∈ l, P a) :
    RunMeets step (fun _ a ↦ P a) s l := by
  induction l generalizing s with
  | nil => trivial
  | cons a l ih =>
    exact ⟨h a List.mem_cons_self, fun _ _ ↦ ih fun b hb ↦ h b (List.mem_cons_of_mem _ hb)⟩

/-- For a run that can be followed to its end, a condition on labels alone is one on the list of
labels. -/
theorem runMeets_iff_forall {P : α → Prop} {s t : σ} {l : List α} (hrun : run step s l = some t) :
    RunMeets step (fun _ a ↦ P a) s l ↔ ∀ a ∈ l, P a := by
  refine ⟨fun h ↦ ?_, runMeets_of_forall⟩
  induction l generalizing s with
  | nil => exact fun a ha ↦ absurd ha List.not_mem_nil
  | cons a l ih =>
    obtain ⟨u, hu, htail⟩ := run_cons_eq_some.1 hrun
    exact List.forall_mem_cons.2 ⟨h.1, ih htail (h.2 u hu)⟩

/-- A run over a concatenation whose first part is known. -/
theorem run_append_of_eq {s t : σ} {l : List α} (h : run step s l = some t) (m : List α) :
    run step s (l ++ m) = run step t m := by
  rw [run_append, h, Option.bind_some]

/-- A condition along a run, and along what follows it. -/
theorem runMeets_append {s t : σ} {l m : List α} (h : run step s l = some t) :
    RunMeets step ok s (l ++ m) ↔ RunMeets step ok s l ∧ RunMeets step ok t m := by
  induction l generalizing s with
  | nil =>
    obtain rfl := Option.some.inj h
    exact (and_iff_right trivial).symm
  | cons a l ih =>
    obtain ⟨u, hu, htail⟩ := run_cons_eq_some.1 h
    rw [List.cons_append, runMeets_cons_of_eq_some hu, runMeets_cons_of_eq_some hu, ih htail,
      and_assoc]

/-- A run whose first step is known. -/
theorem run_cons_of_eq {s t : σ} {a : α} (h : step s a = some t) (l : List α) :
    run step s (a :: l) = run step t l := by
  rw [run_cons, h, Option.bind_some]

/-! ### Invariants -/

/-- **The induction over runs.** A property that every allowed step preserves holds at the end of
every run whose steps are all allowed. -/
theorem invariant_run {I : σ → Prop}
    (hstep : ∀ s a t, I s → ok s a → step s a = some t → I t) {s t : σ} {l : List α}
    (hs : I s) (hl : RunMeets step ok s l) (hrun : run step s l = some t) : I t := by
  induction l generalizing s with
  | nil => exact Option.some.inj hrun ▸ hs
  | cons a l ih =>
    obtain ⟨u, hu, htail⟩ := run_cons_eq_some.1 hrun
    exact ih (hstep s a u hs hl.1 hu) (hl.2 u hu) htail

/-- What every step preserves holds at the end of every run. -/
theorem invariant_run' {I : σ → Prop} (hstep : ∀ s a t, I s → step s a = some t → I t)
    {s t : σ} {l : List α} (hs : I s) (hrun : run step s l = some t) : I t :=
  invariant_run (fun s a t h _ ↦ hstep s a t h) hs
    (runMeets_of_forall (P := fun _ ↦ True) fun _ _ ↦ trivial) hrun

/-- **Runs end.** Where every allowed step makes a measure smaller, the measure bounds the length of
a run whose steps are all allowed. -/
theorem length_le_of_run {I : σ → Prop} {μ : σ → ℕ}
    (hstep : ∀ s a t, I s → ok s a → step s a = some t → I t ∧ μ t < μ s) {s t : σ} {l : List α}
    (hs : I s) (hl : RunMeets step ok s l) (hrun : run step s l = some t) : l.length ≤ μ s := by
  induction l generalizing s with
  | nil => exact Nat.zero_le _
  | cons a l ih =>
    obtain ⟨u, hu, htail⟩ := run_cons_eq_some.1 hrun
    obtain ⟨hI, hlt⟩ := hstep s a u hs hl.1 hu
    have := ih hI (hl.2 u hu) htail
    rw [List.length_cons]
    omega

/-! ### Properties of every state of a run -/

/-- Every state the run along `l` passes through has the property, the first and the last
included. -/
def Throughout (step : σ → α → Option σ) (P : σ → Prop) : σ → List α → Prop
  | s, [] => P s
  | s, a :: l => P s ∧ ∀ t, step s a = some t → Throughout step P t l

theorem Throughout.head {P : σ → Prop} {s : σ} {l : List α} (h : Throughout step P s l) : P s := by
  cases l with
  | nil => exact h
  | cons a l => exact h.1

/-- A property holds throughout a run exactly if it holds at the end of all its beginnings. -/
theorem throughout_iff_forall_append {P : σ → Prop} {s : σ} {l : List α} :
    Throughout step P s l ↔ ∀ l₁ l₂ t, l = l₁ ++ l₂ → run step s l₁ = some t → P t := by
  induction l generalizing s with
  | nil =>
    refine ⟨fun h l₁ l₂ t hl hrun ↦ ?_, fun h ↦ h [] [] s rfl rfl⟩
    obtain ⟨rfl, rfl⟩ := List.append_eq_nil_iff.1 hl.symm
    exact Option.some.inj hrun ▸ h
  | cons a l ih =>
    refine ⟨fun h l₁ l₂ t hl hrun ↦ ?_, fun h ↦ ⟨h [] _ s rfl rfl, fun t ht ↦ ih.2 ?_⟩⟩
    · cases l₁ with
      | nil => exact Option.some.inj hrun ▸ h.1
      | cons b l₁ =>
        obtain ⟨rfl, rfl⟩ := List.cons.inj hl
        obtain ⟨u, hu, htail⟩ := run_cons_eq_some.1 hrun
        exact ih.1 (h.2 u hu) l₁ l₂ t rfl htail
    · intro l₁ l₂ u hl hrun
      exact h (a :: l₁) l₂ u (by rw [hl]; rfl) (run_cons_eq_some.2 ⟨t, ht, hrun⟩)

/-- What an invariant gives, throughout a run whose steps are all allowed. -/
theorem RunMeets.throughout {I P : σ → Prop} (hP : ∀ s, I s → P s)
    (hstep : ∀ s a t, I s → ok s a → step s a = some t → I t) {s : σ} {l : List α} (hs : I s)
    (hl : RunMeets step ok s l) : Throughout step P s l := by
  induction l generalizing s with
  | nil => exact hP s hs
  | cons a l ih => exact ⟨hP s hs, fun t ht ↦ ih (hstep s a t hs hl.1 ht) (hl.2 t ht)⟩

/-- **When a condition is exact**, on runs that meet another one, `side`. If allowed steps keep an
invariant that gives the property, and a step that is not allowed destroys the property, then the
property holds throughout exactly the runs whose steps are all allowed. -/
theorem throughout_iff_of_runMeets {I P : σ → Prop} {side : σ → α → Prop} (hP : ∀ s, I s → P s)
    (hstep : ∀ s a t, I s → side s a → ok s a → step s a = some t → I t)
    (hbad : ∀ s a t, I s → side s a → ¬ok s a → step s a = some t → ¬P t) {s t : σ} {l : List α}
    (hs : I s) (hl : RunMeets step side s l) (hrun : run step s l = some t) :
    Throughout step P s l ↔ RunMeets step ok s l := by
  induction l generalizing s with
  | nil => exact ⟨fun _ ↦ trivial, fun _ ↦ hP s hs⟩
  | cons a l ih =>
    obtain ⟨u, hu, htail⟩ := run_cons_eq_some.1 hrun
    obtain ⟨hQ, hl⟩ := (runMeets_cons_of_eq_some hu).1 hl
    by_cases ha : ok s a
    · have hiff := ih (hstep s a u hs hQ ha hu) hl htail
      refine ⟨fun h ↦ ⟨ha, fun v hv ↦ ?_⟩, fun h ↦ ⟨hP s hs, fun v hv ↦ ?_⟩⟩ <;>
        obtain rfl := Option.some.inj (hu.symm.trans hv)
      · exact hiff.1 (h.2 _ hu)
      · exact hiff.2 (h.2 _ hu)
    · exact ⟨fun h ↦ absurd (h.2 u hu).head (hbad s a u hs hQ ha hu), fun h ↦ absurd h.1 ha⟩

/-- `throughout_iff_of_runMeets` on runs over labels with the property `Q`. -/
theorem throughout_iff_of_forall {I P : σ → Prop} {Q : α → Prop} (hP : ∀ s, I s → P s)
    (hstep : ∀ s a t, I s → Q a → ok s a → step s a = some t → I t)
    (hbad : ∀ s a t, I s → Q a → ¬ok s a → step s a = some t → ¬P t) {s t : σ} {l : List α}
    (hs : I s) (hl : ∀ a ∈ l, Q a) (hrun : run step s l = some t) :
    Throughout step P s l ↔ RunMeets step ok s l :=
  throughout_iff_of_runMeets hP hstep hbad hs
    (runMeets_of_forall hl : RunMeets step (fun _ a ↦ Q a) s l) hrun

/-- A property of every state is a condition on the steps, if steps that meet the condition keep it
and others end it. -/
theorem throughout_iff {I P : σ → Prop} (hP : ∀ s, I s → P s)
    (hstep : ∀ s a t, I s → ok s a → step s a = some t → I t)
    (hbad : ∀ s a t, I s → ¬ok s a → step s a = some t → ¬P t) {s t : σ} {l : List α} (hs : I s)
    (hrun : run step s l = some t) : Throughout step P s l ↔ RunMeets step ok s l :=
  throughout_iff_of_forall (Q := fun _ ↦ True) hP (fun s a t h _ ↦ hstep s a t h)
    (fun s a t h _ ↦ hbad s a t h) hs (fun _ _ ↦ trivial) hrun

/-! ### Reachability -/

/-- Some run from `s` whose steps are all allowed ends in `t`. -/
def RunsTo (step : σ → α → Option σ) (ok : σ → α → Prop) (s t : σ) : Prop :=
  ∃ l, RunMeets step ok s l ∧ run step s l = some t

theorem RunsTo.refl (s : σ) : RunsTo step ok s s :=
  ⟨[], trivial, rfl⟩

/-- An allowed step in front of a run. -/
theorem RunsTo.head {s t u : σ} {a : α} (ha : ok s a) (ht : step s a = some t)
    (h : RunsTo step ok t u) : RunsTo step ok s u := by
  obtain ⟨l, hl, hrun⟩ := h
  refine ⟨a :: l, ⟨ha, fun t' ht' ↦ ?_⟩, run_cons_eq_some.2 ⟨t, ht, hrun⟩⟩
  rw [ht] at ht'
  exact Option.some.inj ht' ▸ hl

/-- Runs compose. -/
theorem RunsTo.trans {s t u : σ} (h : RunsTo step ok s t) (h' : RunsTo step ok t u) :
    RunsTo step ok s u := by
  obtain ⟨l, hl, hrun⟩ := h
  induction l generalizing s with
  | nil => exact Option.some.inj hrun ▸ h'
  | cons a l ih =>
    obtain ⟨v, hv, htail⟩ := run_cons_eq_some.1 hrun
    exact .head hl.1 hv (ih (hl.2 v hv) htail)

theorem RunsTo.invariant {I : σ → Prop} (hstep : ∀ s a t, I s → ok s a → step s a = some t → I t)
    {s t : σ} (hs : I s) (h : RunsTo step ok s t) : I t :=
  h.elim fun _ hl ↦ invariant_run hstep hs hl.1 hl.2

/-- **Where the allowed label is determined by the state, so is the end.** Two runs that both end
where no label is enabled end in the same state. -/
theorem RunsTo.eq_of_terminal
    (hdet : ∀ s a b t u, ok s a → ok s b → step s a = some t → step s b = some u → a = b)
    {s t u : σ} (ht : RunsTo step ok s t) (hu : RunsTo step ok s u)
    (htt : ∀ a, step t a = none) (huu : ∀ a, step u a = none) : t = u := by
  obtain ⟨l, hl, hrun⟩ := ht
  obtain ⟨m, hm, hrun'⟩ := hu
  induction l generalizing s m with
  | nil =>
    obtain rfl := Option.some.inj hrun
    cases m with
    | nil => exact Option.some.inj hrun'
    | cons b m =>
      obtain ⟨v, hv, -⟩ := run_cons_eq_some.1 hrun'
      rw [htt b] at hv
      cases hv
  | cons a l ih =>
    obtain ⟨v, hv, htail⟩ := run_cons_eq_some.1 hrun
    cases m with
    | nil =>
      obtain rfl := Option.some.inj hrun'
      rw [huu a] at hv
      cases hv
    | cons b m =>
      obtain ⟨w, hw, htail'⟩ := run_cons_eq_some.1 hrun'
      obtain rfl := hdet s a b v w hl.1 hm.1 hv hw
      obtain rfl := Option.some.inj (hv.symm.trans hw)
      exact ih (hl.2 v hv) htail m (hm.2 v hv) htail'

/-! ### What every run comes to -/

/-- Every run from `s` whose steps are all allowed comes to a state with `P`: where `P` does not
hold yet some step is allowed, and every allowed step leads on. -/
inductive Inevitable (step : σ → α → Option σ) (ok : σ → α → Prop) (P : σ → Prop) : σ → Prop
  | now {s : σ} (h : P s) : Inevitable step ok P s
  | later {s t : σ} (a : α) (ha : ok s a) (ht : step s a = some t)
      (h : ∀ a t, ok s a → step s a = some t → Inevitable step ok P t) : Inevitable step ok P s

section Inevitable

variable {P Q : σ → Prop} {s t : σ}

theorem Inevitable.mono (hPQ : ∀ t, P t → Q t) (h : Inevitable step ok P s) :
    Inevitable step ok Q s := by
  induction h with
  | now h => exact .now (hPQ _ h)
  | later a ha ht _ ih => exact .later a ha ht ih

/-- **The measure rule.** Where an allowed step is enabled and all of them make the measure smaller
until `P` holds, `P` is inevitable. -/
theorem Inevitable.of_measure {I : σ → Prop} (μ : σ → ℕ)
    (hen : ∀ s, I s → ¬P s → ∃ a t, ok s a ∧ step s a = some t)
    (hstep : ∀ s a t, I s → ok s a → step s a = some t → I t ∧ μ t < μ s) (hs : I s) :
    Inevitable step ok P s := by
  induction hn : μ s using Nat.strongRecOn generalizing s with
  | ind n ih =>
    by_cases hP : P s
    · exact .now hP
    · obtain ⟨a, t, ha, ht⟩ := hen s hs hP
      refine .later a ha ht fun a t ha ht ↦ ?_
      obtain ⟨hI, hlt⟩ := hstep s a t hs ha ht
      exact ih _ (hn ▸ hlt) hI rfl

/-- **The rule against it.** States without `P` that an allowed step can stay in, or where no
allowed step is left, never come to `P`. -/
theorem not_inevitable {S : σ → Prop} (hP : ∀ s, S s → ¬P s)
    (hstay : ∀ s, S s → (∃ a t, ok s a ∧ step s a = some t ∧ S t) ∨ ∀ a, ok s a → step s a = none)
    (hs : S s) : ¬Inevitable step ok P s := by
  intro h
  induction h with
  | now h => exact hP _ hs h
  | later a ha ht _ ih =>
    rcases hstay _ hs with ⟨b, u, hb, hu, hS⟩ | hstuck
    · exact ih b u hb hu hS
    · rw [hstuck a ha] at ht
      cases ht

/-- **With at most one allowed step in each state** one run is all there is. -/
theorem Inevitable.of_runsTo
    (hdet : ∀ s a b t u, ok s a → ok s b → step s a = some t → step s b = some u → a = b)
    (h : RunsTo step ok s t) (ht : P t) : Inevitable step ok P s := by
  obtain ⟨l, hl, hrun⟩ := h
  induction l generalizing s with
  | nil => exact .now (Option.some.inj hrun ▸ ht)
  | cons a l ih =>
    obtain ⟨v, hv, htail⟩ := run_cons_eq_some.1 hrun
    refine .later a hl.1 hv fun b w hb hw ↦ ?_
    obtain rfl := hdet s a b v w hl.1 hb hv hw
    obtain rfl := Option.some.inj (hv.symm.trans hw)
    exact ih (hl.2 v hv) htail

/-- What is inevitable can be reached. -/
theorem Inevitable.exists_runsTo (h : Inevitable step ok P s) : ∃ t, RunsTo step ok s t ∧ P t := by
  induction h with
  | now h => exact ⟨_, .refl _, h⟩
  | later a ha ht _ ih =>
    obtain ⟨u, hu, hP⟩ := ih a _ ha ht
    exact ⟨u, .head ha ht hu, hP⟩

/-- Of two things that are inevitable and stay, one and the same state has both. -/
theorem Inevitable.and (hP : ∀ s, P s → ∀ a, step s a = none)
    (hQ : ∀ s, Q s → ∀ a, step s a = none) (h : Inevitable step ok P s)
    (h' : Inevitable step ok Q s) : Inevitable step ok (fun t ↦ P t ∧ Q t) s := by
  induction h with
  | now hs =>
    cases h' with
    | now hs' => exact .now ⟨hs, hs'⟩
    | later a _ ht _ =>
      rw [hP _ hs a] at ht
      cases ht
  | later a ha ht _ ih =>
    cases h' with
    | now hs' =>
      rw [hQ _ hs' a] at ht
      cases ht
    | later _ _ _ hall => exact .later a ha ht fun b u hb hu ↦ ih b u hb hu (hall b u hb hu)

end Inevitable

/-! ### Bisimulation -/

section Bisimulation

variable {τ β : Type*} {step' : τ → β → Option τ} {okay : τ → β → Prop} {R : σ → τ → Prop}

/-- Two machines whose allowed steps answer one another. -/
structure Bisimulation (step : σ → α → Option σ) (ok : σ → α → Prop) (step' : τ → β → Option τ)
    (okay : τ → β → Prop) (R : σ → τ → Prop) : Prop where
  forth : ∀ s t a s', R s t → ok s a → step s a = some s' →
    ∃ b t', okay t b ∧ step' t b = some t' ∧ R s' t'
  back : ∀ s t b t', R s t → okay t b → step' t b = some t' →
    ∃ a s', ok s a ∧ step s a = some s' ∧ R s' t'

theorem Bisimulation.symm (h : Bisimulation step ok step' okay R) :
    Bisimulation step' okay step ok fun t s ↦ R s t :=
  ⟨fun t s => h.back s t, fun t s => h.forth s t⟩

/-- Where each machine has at most one allowed step, it suffices that both take one or both have
none. -/
theorem Bisimulation.of_unique
    (hdet : ∀ s a b t u, ok s a → ok s b → step s a = some t → step s b = some u → a = b)
    (hdet' : ∀ s a b t u, okay s a → okay s b → step' s a = some t → step' s b = some u → a = b)
    (h : ∀ s t, R s t →
      (∃ a b s' t', ok s a ∧ okay t b ∧ step s a = some s' ∧ step' t b = some t' ∧ R s' t') ∨
        (∀ a, ok s a → step s a = none) ∧ ∀ b, okay t b → step' t b = none) :
    Bisimulation step ok step' okay R where
  forth s t a s' hR ha hs := by
    rcases h s t hR with ⟨a', b, u, t', ha', hb, hs', ht, hR'⟩ | ⟨hstuck, -⟩
    · obtain rfl := hdet s a a' s' u ha ha' hs hs'
      exact ⟨b, t', hb, ht, Option.some.inj (hs'.symm.trans hs) ▸ hR'⟩
    · cases hs.symm.trans (hstuck a ha)
  back s t b t' hR hb ht := by
    rcases h s t hR with ⟨a, b', s', u, ha, hb', hs, ht', hR'⟩ | ⟨-, hstuck⟩
    · obtain rfl := hdet' t b b' t' u hb hb' ht ht'
      exact ⟨a, s', ha, hs, Option.some.inj (ht'.symm.trans ht) ▸ hR'⟩
    · cases ht.symm.trans (hstuck b hb)

theorem Bisimulation.inevitable {P : σ → Prop} {Q : τ → Prop}
    (hB : Bisimulation step ok step' okay R) (hPQ : ∀ s t, R s t → P s → Q t) {s : σ} {t : τ}
    (hR : R s t) (h : Inevitable step ok P s) : Inevitable step' okay Q t := by
  induction h generalizing t with
  | now hs => exact .now (hPQ _ _ hR hs)
  | later a ha hs _ ih =>
    obtain ⟨b, t', hb, ht, -⟩ := hB.forth _ _ a _ hR ha hs
    refine .later b hb ht fun b u hb hu ↦ ?_
    obtain ⟨a, s', ha, hs, hR'⟩ := hB.back _ _ b u hR hb hu
    exact ih a s' ha hs hR'

/-- **Bisimilar states come to the same.** -/
theorem Bisimulation.inevitable_iff {P : σ → Prop} {Q : τ → Prop}
    (hB : Bisimulation step ok step' okay R) (hPQ : ∀ s t, R s t → (P s ↔ Q t)) {s : σ} {t : τ}
    (hR : R s t) : Inevitable step ok P s ↔ Inevitable step' okay Q t :=
  ⟨hB.inevitable (fun s t h ↦ (hPQ s t h).1) hR,
    hB.symm.inevitable (fun t s h ↦ (hPQ s t h).2) hR⟩

end Bisimulation

/-- The states a machine can be in after some run from `s`. -/
def Reachable (step : σ → α → Option σ) (s t : σ) : Prop :=
  ∃ l, run step s l = some t

theorem Reachable.refl (s : σ) : Reachable step s s :=
  ⟨[], rfl⟩

theorem Reachable.tail {s t u : σ} {a : α} (h : Reachable step s t) (hu : step t a = some u) :
    Reachable step s u := by
  obtain ⟨l, hl⟩ := h
  exact ⟨l ++ [a], by rw [run_append, hl, Option.bind_some, run_cons, hu]; rfl⟩

/-- A step in front of a run. -/
theorem Reachable.head {s t u : σ} {a : α} (ht : step s a = some t) (h : Reachable step t u) :
    Reachable step s u :=
  h.elim fun l hl ↦ ⟨a :: l, run_cons_eq_some.2 ⟨t, ht, hl⟩⟩

theorem Reachable.trans {s t u : σ} (h : Reachable step s t) (h' : Reachable step t u) :
    Reachable step s u := by
  obtain ⟨l, hl⟩ := h
  obtain ⟨m, hm⟩ := h'
  exact ⟨l ++ m, by rw [run_append_of_eq hl, hm]⟩

theorem Reachable.invariant {I : σ → Prop} (hstep : ∀ s a t, I s → step s a = some t → I t)
    {s t : σ} (hs : I s) (h : Reachable step s t) : I t :=
  h.elim fun _ hl ↦ invariant_run' hstep hs hl

end Transition
