import Mathlib

/-!
# Cutting a list into pieces of a given length

`cut n l` is what a writer with a bound `n` on the length of one write makes of `l`: pieces of
length `n` and a last one that may be shorter.
-/

namespace Cut

variable {α : Type*} {n : ℕ} {l : List α}

/-- The pieces of `l` of length `n`, the last one possibly shorter; no piece is empty. -/
def cut (n : ℕ) (l : List α) : List (List α) :=
  if l = [] ∨ n = 0 then [] else l.take n :: cut n (l.drop n)
termination_by l.length
decreasing_by
  rename_i h
  obtain ⟨hl, hn⟩ := not_or.1 h
  have := List.length_pos_iff.2 hl
  rw [List.length_drop]
  omega

@[simp]
theorem cut_nil : cut n ([] : List α) = [] := by
  rw [cut, if_pos (.inl rfl)]

theorem cut_of_ne_nil (hn : n ≠ 0) (hl : l ≠ []) : cut n l = l.take n :: cut n (l.drop n) := by
  rw [cut, if_neg (not_or.2 ⟨hl, hn⟩)]

end Cut
