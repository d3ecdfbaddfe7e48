import Mathlib

/-!
# Ledgers

Conservation arguments count what is where: every place of a system (a queue, a register, the hands
of a thread) is given a value in a commutative monoid, and a step moves value between places. The
monoid is `ℕ` when only the amount matters and `Multiset` when it matters what the things are.

* `tally f g` is what all members of a finite family hold, and `tally_update` says what replacing
  one member's holding does to it.
* `mem_tally` and `nodup_tally` read a sum of multisets.
* `sum_eraseIdx` does the same for a list.
* `singleton_exchange` reads a ledger of exactly one thing: a step that takes `a` out and puts `b`
  in has either exchanged that thing or left it alone.
-/

open scoped BigOperators

variable {τ β M α : Type*}

section Tally

variable [Fintype τ] [DecidableEq τ] [AddCommMonoid M]

/-- What the members of a finite family hold together. -/
def tally (f : β → M) (g : τ → β) : M := ∑ t, f (g t)

/-- Replacing one member's holding replaces its part of the sum. -/
theorem tally_update (f : β → M) (g : τ → β) (t : τ) (v : β) :
    tally f (Function.update g t v) + f (g t) = tally f g + f v := by
  have hrest : ∑ u ∈ Finset.univ.erase t, f (Function.update g t v u) =
      ∑ u ∈ Finset.univ.erase t, f (g u) := by
    refine Finset.sum_congr rfl fun u hu ↦ ?_
    rw [Function.update_of_ne (Finset.ne_of_mem_erase hu)]
  rw [tally, tally, ← Finset.sum_erase_add Finset.univ _ (Finset.mem_univ t),
    ← Finset.sum_erase_add Finset.univ (fun u ↦ f (g u)) (Finset.mem_univ t), hrest,
    Function.update_self, add_right_comm]

/-- A replacement of equal value changes nothing. -/
theorem tally_update_of_eq (f : β → M) (g : τ → β) {t : τ} {v : β} (h : f v = f (g t)) :
    tally f (Function.update g t v) = tally f g := by
  refine Finset.sum_congr rfl fun u _ ↦ ?_
  rcases eq_or_ne u t with rfl | hu
  · rw [Function.update_self, h]
  · rw [Function.update_of_ne hu]

omit [DecidableEq τ] in
/-- A family that holds nothing. -/
theorem tally_of_forall {f : β → M} {g : τ → β} (h : ∀ t, f (g t) = 0) : tally f g = 0 :=
  Finset.sum_eq_zero fun t _ ↦ h t

omit [DecidableEq τ] [AddCommMonoid M] in
/-- What one member holds is part of the sum. -/
theorem le_tally (f : β → ℕ) (g : τ → β) (t : τ) : f (g t) ≤ tally f g :=
  Finset.single_le_sum (f := fun u ↦ f (g u)) (fun _ _ ↦ Nat.zero_le _) (Finset.mem_univ t)

omit [AddCommMonoid M] in
/-- What two members hold is part of the sum. -/
theorem add_le_tally (f : β → ℕ) (g : τ → β) {t u : τ} (h : t ≠ u) :
    f (g t) + f (g u) ≤ tally f g := by
  rw [← Finset.sum_pair (f := fun u ↦ f (g u)) h]
  exact Finset.sum_le_sum_of_subset (Finset.subset_univ _)

omit [DecidableEq τ] [AddCommMonoid M] in
/-- Holdings that are smaller one by one are smaller together. -/
theorem tally_le_tally {f f' : β → ℕ} (h : ∀ b, f b ≤ f' b) (g : τ → β) :
    tally f g ≤ tally f' g :=
  Finset.sum_le_sum fun _ _ ↦ h _

omit [DecidableEq τ] [AddCommMonoid M] in
/-- Where nothing is held, no member holds anything. -/
theorem eq_zero_of_tally_eq_zero {f : β → ℕ} {g : τ → β} (h : tally f g = 0) (t : τ) :
    f (g t) = 0 :=
  Nat.le_zero.1 (h ▸ le_tally f g t)

omit [AddCommMonoid M] in
/-- Where one thing is held, one member holds it. -/
theorem exists_of_tally_eq_one {f : β → ℕ} {g : τ → β} (h : tally f g = 1) :
    ∃ t, f (g t) = 1 ∧ ∀ u, 0 < f (g u) → u = t := by
  have hne : ∑ t, f (g t) ≠ 0 := by
    rw [← tally, h]
    exact Nat.one_ne_zero
  obtain ⟨t, -, ht⟩ := Finset.exists_ne_zero_of_sum_ne_zero hne
  have hle := le_tally f g t
  refine ⟨t, by omega, fun u hu ↦ ?_⟩
  by_contra hut
  have hboth := add_le_tally f g hut
  omega

end Tally

section Members

variable [Fintype τ] {f : β → Multiset α} {g : τ → β}

/-- What is in the sum is with one of the members. -/
theorem mem_tally {x : α} : x ∈ tally f g ↔ ∃ t, x ∈ f (g t) := by
  rw [tally, Multiset.mem_sum]
  exact ⟨fun ⟨t, _, ht⟩ ↦ ⟨t, ht⟩, fun ⟨t, ht⟩ ↦ ⟨t, Finset.mem_univ t, ht⟩⟩

/-- Nothing is in the sum twice if no member holds a thing twice and no two hold the same. -/
theorem nodup_tally (hone : ∀ t, (f (g t)).Nodup)
    (htwo : ∀ t u x, x ∈ f (g t) → x ∈ f (g u) → t = u) : (tally f g).Nodup := by
  classical
  refine Multiset.nodup_iff_count_le_one.2 fun x ↦ ?_
  rw [tally, Multiset.count_sum']
  by_cases hx : ∃ t, x ∈ f (g t)
  · obtain ⟨t, ht⟩ := hx
    rw [Finset.sum_eq_single t]
    · exact Multiset.nodup_iff_count_le_one.1 (hone t) x
    · exact fun u _ hu ↦ Multiset.count_eq_zero.2 fun hmem ↦ hu (htwo u t x hmem ht)
    · exact fun ht ↦ absurd (Finset.mem_univ t) ht
  · rw [Finset.sum_eq_zero fun t _ ↦ Multiset.count_eq_zero.2 fun hmem ↦ hx ⟨t, hmem⟩]
    exact Nat.zero_le _

/-- In a sum without duplicates, a thing tells who has it. -/
theorem eq_of_nodup_tally (h : (tally f g).Nodup) {t u : τ} {x : α} (ht : x ∈ f (g t))
    (hu : x ∈ f (g u)) : t = u := by
  classical
  by_contra hne
  have hcount := Multiset.nodup_iff_count_le_one.1 h x
  have hle := add_le_tally (fun b ↦ Multiset.count x (f b)) g hne
  have ht' := Multiset.one_le_count_iff_mem.2 ht
  have hu' := Multiset.one_le_count_iff_mem.2 hu
  rw [tally, Multiset.count_sum'] at hcount
  rw [tally] at hle
  omega

end Members

section Lists

variable [AddCommMonoid M]

/-- Taking one entry out of a list takes its value out of the sum. -/
theorem sum_eraseIdx (f : β → M) {l : List β} {k : ℕ} {b : β} (h : l[k]? = some b) :
    ((l.eraseIdx k).map f).sum + f b = (l.map f).sum := by
  induction l generalizing k with
  | nil => cases h
  | cons c l ih =>
    cases k with
    | zero =>
      obtain rfl := Option.some.inj h
      rw [List.eraseIdx_cons_zero, List.map_cons, List.sum_cons, add_comm]
    | succ k =>
      rw [List.eraseIdx_cons_succ, List.map_cons, List.sum_cons, List.map_cons, List.sum_cons,
        add_assoc, ih h]

end Lists

section Singletons

variable {M' : Multiset α} {a b tok : α}

/-- Nothing is taken from an empty ledger. -/
theorem not_add_singleton_eq_zero : ¬M' + {a} = 0 := by
  intro h
  have := congrArg Multiset.card h
  simp at this

/-- A ledger of one thing after a step that takes `a` out and puts `b` in. -/
theorem singleton_exchange (h : M' + {a} = {tok} + {b}) :
    tok = a ∧ M' = {b} ∨ a = b ∧ M' = {tok} := by
  have ha : a ∈ ({tok} : Multiset α) + {b} := by
    rw [← h]
    exact Multiset.mem_add.2 (.inr (Multiset.mem_singleton_self a))
  rcases Multiset.mem_add.1 ha with ha | ha
  · obtain rfl := Multiset.mem_singleton.1 ha
    exact .inl ⟨rfl, add_right_cancel (h.trans (add_comm _ _))⟩
  · obtain rfl := Multiset.mem_singleton.1 ha
    exact .inr ⟨rfl, add_right_cancel h⟩

/-- A ledger of one thing after a step that takes `a` out. -/
theorem singleton_remove (h : M' + {a} = {tok}) : tok = a ∧ M' = 0 := by
  have ha : a ∈ ({tok} : Multiset α) := by
    rw [← h]
    exact Multiset.mem_add.2 (.inr (Multiset.mem_singleton_self a))
  obtain rfl := Multiset.mem_singleton.1 ha
  exact ⟨rfl, add_right_cancel (h.trans (zero_add _).symm)⟩

end Singletons
