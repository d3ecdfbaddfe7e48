import JnetLib.Foundation.Transition

/-!
# Runs of several threads

A machine whose labels say which thread moves: `σ → τ × ε → Option σ`. What one thread is about to
do, it does after any number of steps of the others, if these leave alone what it relies on.

* `own`, the steps of one thread in a run.
* `exists_step_of_own`: what a thread relies on still holds when it takes its next step, wherever
  the steps of the others stand in between. It rests on `LeftAlone`, which is one step of another
  thread, and on an invariant of all steps.
* `of_own_eq_nil` is the same for a thread that takes no step any more.
-/

namespace Transition

variable {σ τ ε : Type*} {step : σ → τ × ε → Option σ} {I A : σ → Prop} {s s' : σ} {t : τ} {e : ε}
  {es : List ε} {l : List (τ × ε)}

/-- In states with `I`, no step of a thread other than `t` ends `A`. -/
def LeftAlone (step : σ → τ × ε → Option σ) (I : σ → Prop) (t : τ) (A : σ → Prop) : Prop :=
  ∀ s u e s', I s → A s → u ≠ t → step s (u, e) = some s' → A s'

variable [DecidableEq τ]

/-- The steps of thread `t` among those of all threads. -/
def own (t : τ) (l : List (τ × ε)) : List ε :=
  (l.filter fun x ↦ x.1 = t).map Prod.snd

theorem own_cons_self (t : τ) (e : ε) (l : List (τ × ε)) : own t ((t, e) :: l) = e :: own t l := by
  simp [own]

theorem own_cons_of_ne {u : τ} (h : u ≠ t) (e : ε) (l : List (τ × ε)) :
    own t ((u, e) :: l) = own t l := by
  simp [own, h]

/-- A thread that takes no step finds at the end what it relied on. -/
theorem of_own_eq_nil (hI : ∀ s x s', I s → step s x = some s' → I s')
    (hA : LeftAlone step I t A) (hs : I s) (h : A s) (hl : own t l = [])
    (hrun : run step s l = some s') : I s' ∧ A s' := by
  induction l generalizing s with
  | nil => exact Option.some.inj hrun ▸ ⟨hs, h⟩
  | cons x l ih =>
    obtain ⟨u, e⟩ := x
    obtain ⟨v, hv, htail⟩ := run_cons_eq_some.1 hrun
    rcases eq_or_ne u t with rfl | hne
    · rw [own_cons_self] at hl
      cases hl
    · rw [own_cons_of_ne hne] at hl
      exact ih (hI s _ v hs hv) (hA s u e v hs h hne hv) hl htail

/-- A thread finds in front of its next step what it relied on. -/
theorem exists_step_of_own (hI : ∀ s x s', I s → step s x = some s' → I s')
    (hA : LeftAlone step I t A) (hs : I s) (h : A s) (hl : own t l = e :: es)
    (hrun : run step s l = some s') :
    ∃ v w m, I v ∧ A v ∧ step v (t, e) = some w ∧ own t m = es ∧ run step w m = some s' := by
  induction l generalizing s with
  | nil => cases hl
  | cons x l ih =>
    obtain ⟨u, e'⟩ := x
    obtain ⟨v, hv, htail⟩ := run_cons_eq_some.1 hrun
    rcases eq_or_ne u t with rfl | hne
    · rw [own_cons_self] at hl
      obtain ⟨rfl, rfl⟩ := List.cons.inj hl
      exact ⟨s, v, l, hs, h, hv, rfl, htail⟩
    · rw [own_cons_of_ne hne] at hl
      exact ih (hI s _ v hs hv) (hA s u e' v hs h hne hv) hl htail

end Transition
