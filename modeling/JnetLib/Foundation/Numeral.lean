import Mathlib

/-!
# Numerals

A number is written with its most significant digit first, and read from the left: each digit is
added to what the digits before it make, times the base. What has been read never gets smaller, so a
reader that keeps to a bound on the whole number keeps to it on the way.
-/

namespace Numeral

variable {b acc n : ℕ} {l m : List ℕ}

/-- The digits of `n` in base `b`, the most significant one first. Zero has a digit, too. -/
def numeral (b n : ℕ) : List ℕ := if n = 0 then [0] else (b.digits n).reverse

/-- What the digits `l` make behind digits that make `acc`. -/
def value (b acc : ℕ) (l : List ℕ) : ℕ := l.foldl (fun a d ↦ a * b + d) acc

@[simp]
theorem value_nil : value b acc [] = acc :=
  rfl

@[simp]
theorem value_cons (d : ℕ) : value b acc (d :: l) = value b (acc * b + d) l :=
  rfl

theorem value_append : value b acc (l ++ m) = value b (value b acc l) m :=
  List.foldl_append

/-- **Reading undoes writing.** -/
theorem value_numeral (b n : ℕ) : value b 0 (numeral b n) = n := by
  have hdigits : value b 0 (b.digits n).reverse = n := by
    rw [value, List.foldl_reverse]
    conv_rhs => rw [← Nat.ofDigits_digits b n, Nat.ofDigits_eq_foldr]
    congr 1
    funext d a
    rw [Nat.mul_comm, Nat.add_comm]
    rfl
  rw [numeral]
  split
  · next hn => rw [hn, value_cons, Nat.zero_mul, value_nil]
  · exact hdigits

/-- The digits are digits. -/
theorem lt_of_mem_numeral (hb : 1 < b) {d : ℕ} (hd : d ∈ numeral b n) : d < b := by
  rw [numeral] at hd
  split at hd
  · rw [List.mem_singleton.1 hd]
    omega
  · exact Nat.digits_lt_base hb (List.mem_reverse.1 hd)

/-- A numeral has a first digit, which is 0 for 0 alone. -/
theorem exists_numeral_eq_cons (b n : ℕ) : ∃ d l, numeral b n = d :: l ∧ (n ≠ 0 → d ≠ 0) := by
  rw [numeral]
  split
  · next hn => exact ⟨0, [], rfl, fun h ↦ absurd hn h⟩
  · next hn =>
    have hne : b.digits n ≠ [] := Nat.digits_ne_nil_iff_ne_zero.2 hn
    refine ⟨(b.digits n).getLast hne, (b.digits n).dropLast.reverse, ?_, fun _ ↦
      Nat.getLast_digit_ne_zero b hn⟩
    conv_lhs => rw [← List.dropLast_append_getLast hne]
    rw [List.reverse_append, List.reverse_singleton, List.singleton_append]

/-- The number of digits. -/
theorem length_numeral_le (hb : 1 < b) {k : ℕ} (hk : 0 < k) (hn : n < b ^ k) :
    (numeral b n).length ≤ k := by
  rw [numeral]
  split
  · exact hk
  · rw [List.length_reverse]
    exact (Nat.digits_length_le_iff hb n).2 hn

/-- What has been read does not get smaller. -/
theorem le_value (hb : 0 < b) (acc : ℕ) (l : List ℕ) : acc ≤ value b acc l := by
  induction l generalizing acc with
  | nil => exact Nat.le_refl _
  | cons d l ih =>
    calc acc ≤ acc * b := Nat.le_mul_of_pos_right acc hb
      _ ≤ acc * b + d := Nat.le_add_right _ _
      _ ≤ value b (acc * b + d) l := ih _

/-- The first digits of a number make no more than the number. -/
theorem value_le_value_append (hb : 0 < b) (acc : ℕ) (l m : List ℕ) :
    value b acc l ≤ value b acc (l ++ m) := by
  rw [value_append]
  exact le_value hb _ _

end Numeral
