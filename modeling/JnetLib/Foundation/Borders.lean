import Mathlib

/-!
# Borders of a word and matches in a text

The combinatorics a failure-table search rests on, over lists of any type.

* A **border** of the first `n` letters of `w` is a proper prefix of them that is also a suffix
  (`IsBorder w n k`, by its length `k`). Borders compose (`IsBorder.trans`), nest
  (`IsBorder.of_lt`), and extend by one letter at a time (`isBorder_succ_iff`); the longest border
  is `IsLongestBorder`.
* A position of a text is **refuted** when a letter of `w` placed there disagrees with the text
  (`Refuted`). An occurrence of `w`, or a part of one running over the end of the text, is never
  refuted.

Everything is stated pointwise through `[·]?`, so that the arguments are about positions; the
list-level readings are `occursAt_iff_isPrefix` and `isOverlap_iff_isSuffix`. The two facts the
search consumes are `refuted_of_lt_shift` (after a mismatch every position before the shifted one is
refuted) and `isLongestOverlap_of_refuted` (at the end of the text the matched part is the longest
prefix of `w` the text ends with).
-/

variable {α : Type*}

/-! ### Borders -/

/-- The first `k` letters of `w` are a proper prefix and a suffix of its first `n` letters. -/
def IsBorder (w : List α) (n k : ℕ) : Prop :=
  k < n ∧ ∀ m < k, w[m]? = w[n - k + m]?

/-- The longest border of the first `n` letters. -/
def IsLongestBorder (w : List α) (n k : ℕ) : Prop :=
  IsBorder w n k ∧ ∀ j, IsBorder w n j → j ≤ k

section Borders

variable {w : List α} {n k j : ℕ}

theorem isBorder_zero (h : 0 < n) : IsBorder w n 0 :=
  ⟨h, fun m hm ↦ absurd hm (Nat.not_lt_zero m)⟩

/-- A border of a border is a border. -/
theorem IsBorder.trans (h : IsBorder w n k) (h' : IsBorder w k j) : IsBorder w n j := by
  refine ⟨Nat.lt_trans h'.1 h.1, fun m hm ↦ ?_⟩
  have hk := h.1
  have hj := h'.1
  rw [h'.2 m hm, h.2 (k - j + m) (by omega)]
  congr 1
  omega

/-- Of two borders the shorter one is a border of the longer one. -/
theorem IsBorder.of_lt (h : IsBorder w n k) (h' : IsBorder w n j) (hjk : j < k) :
    IsBorder w k j := by
  refine ⟨hjk, fun m hm ↦ ?_⟩
  have hk := h.1
  rw [h'.2 m hm, h.2 (k - j + m) (by omega)]
  congr 1
  omega

/-- A border of one more letter is a border followed by an equal letter. -/
theorem isBorder_succ_iff : IsBorder w (n + 1) (k + 1) ↔ IsBorder w n k ∧ w[k]? = w[n]? := by
  constructor
  · intro h
    have hk : k < n := Nat.lt_of_succ_lt_succ h.1
    refine ⟨⟨hk, fun m hm ↦ ?_⟩, ?_⟩
    · rw [h.2 m (by omega)]
      congr 1
      omega
    · rw [h.2 k (by omega)]
      congr 1
      omega
  · rintro ⟨h, heq⟩
    have hk := h.1
    refine ⟨by omega, fun m hm ↦ ?_⟩
    rcases Nat.lt_or_ge m k with hlt | hge
    · rw [h.2 m hlt]
      congr 1
      omega
    · obtain rfl : m = k := by omega
      rw [heq]
      congr 1
      omega

/-- The only border of one letter is the empty one. -/
theorem isLongestBorder_one : IsLongestBorder w 1 0 :=
  ⟨isBorder_zero Nat.one_pos, fun j hj ↦ by have := hj.1; omega⟩

end Borders

/-! ### Positions of a text -/

/-- A letter of `w` placed at position `s` of `t` disagrees with the text. -/
def Refuted (w t : List α) (s : ℕ) : Prop :=
  ∃ m, m < w.length ∧ s + m < t.length ∧ w[m]? ≠ t[s + m]?

/-- `w` occurs in `t` at position `s`. -/
def OccursAt (w t : List α) (s : ℕ) : Prop :=
  s + w.length ≤ t.length ∧ ∀ m < w.length, w[m]? = t[s + m]?

/-- The text ends with the first `k` letters of `w`, properly fewer than all of them. -/
def IsOverlap (w t : List α) (k : ℕ) : Prop :=
  k < w.length ∧ k ≤ t.length ∧ ∀ m < k, w[m]? = t[t.length - k + m]?

/-- The longest such part. -/
def IsLongestOverlap (w t : List α) (k : ℕ) : Prop :=
  IsOverlap w t k ∧ ∀ j, IsOverlap w t j → j ≤ k

section Positions

variable {w t : List α} {s k i : ℕ}

theorem occursAt_iff_isPrefix (hs : s ≤ t.length) : OccursAt w t s ↔ w <+: t.drop s := by
  constructor
  · rintro ⟨hle, h⟩
    rw [List.prefix_iff_eq_take]
    refine List.ext_getElem? fun m ↦ ?_
    rcases Nat.lt_or_ge m w.length with hm | hm
    · rw [h m hm, List.getElem?_take_of_lt hm, List.getElem?_drop]
    · rw [List.getElem?_eq_none hm, List.getElem?_eq_none (by rw [List.length_take]; omega)]
  · intro h
    have hle := h.length_le
    rw [List.length_drop] at hle
    refine ⟨by omega, fun m hm ↦ ?_⟩
    obtain ⟨r, hr⟩ := h
    rw [← List.getElem?_drop, ← hr, List.getElem?_append_left hm]

theorem isOverlap_iff_isSuffix :
    IsOverlap w t k ↔ k < w.length ∧ w.take k <:+ t := by
  constructor
  · rintro ⟨hk, hle, h⟩
    refine ⟨hk, ⟨t.take (t.length - k), ?_⟩⟩
    refine List.ext_getElem? fun m ↦ ?_
    have hlen : (t.take (t.length - k)).length = t.length - k := by
      rw [List.length_take]
      omega
    rcases Nat.lt_or_ge m (t.length - k) with hm | hm
    · rw [List.getElem?_append_left (by omega), List.getElem?_take_of_lt hm]
    · rw [List.getElem?_append_right (by omega), hlen]
      rcases Nat.lt_or_ge (m - (t.length - k)) k with hm' | hm'
      · rw [List.getElem?_take_of_lt hm', h _ hm']
        congr 1
        omega
      · rw [List.getElem?_eq_none (by rw [List.length_take]; omega),
          List.getElem?_eq_none (by omega)]
  · rintro ⟨hk, r, hr⟩
    have hlen := congrArg List.length hr
    rw [List.length_append, List.length_take] at hlen
    refine ⟨hk, by omega, fun m hm ↦ ?_⟩
    have hpos : t.length - k + m = r.length + m := by omega
    rw [hpos, ← hr, List.getElem?_append_right (Nat.le_add_right _ _), Nat.add_sub_cancel_left,
      List.getElem?_take_of_lt hm]

/-- A border of the first `n` letters is a part of the word that they end with. -/
theorem isBorder_iff_isSuffix {n : ℕ} (hn : n ≤ w.length) :
    IsBorder w n k ↔ k < n ∧ w.take k <:+ w.take n := by
  have hlen : (w.take n).length = n := by
    rw [List.length_take]
    omega
  have hoverlap : IsOverlap w (w.take n) k ↔ k < w.length ∧ w.take k <:+ w.take n :=
    isOverlap_iff_isSuffix
  constructor
  · rintro ⟨hk, h⟩
    refine ⟨hk, (hoverlap.1 ⟨by omega, by omega, fun m hm ↦ ?_⟩).2⟩
    rw [hlen, List.getElem?_take_of_lt (by omega), h m hm]
  · rintro ⟨hk, h⟩
    refine ⟨hk, fun m hm ↦ ?_⟩
    have := (hoverlap.2 ⟨by omega, h⟩).2.2 m hm
    rwa [hlen, List.getElem?_take_of_lt (by omega)] at this

/-- A word that occurs in a text occurs at some position of it. -/
theorem exists_occursAt_of_isInfix (h : w <:+: t) : ∃ s, OccursAt w t s := by
  obtain ⟨a, b, rfl⟩ := h
  refine ⟨a.length, (occursAt_iff_isPrefix (by simp)).2 ⟨b, ?_⟩⟩
  rw [List.append_assoc, List.drop_left]

theorem OccursAt.not_refuted (h : OccursAt w t s) : ¬Refuted w t s := by
  rintro ⟨m, hm, -, hne⟩
  exact hne (h.2 m hm)

theorem IsOverlap.not_refuted (h : IsOverlap w t k) : ¬Refuted w t (t.length - k) := by
  rintro ⟨m, -, hmt, hne⟩
  have hk := h.2.1
  exact hne (h.2.2 m (by omega))

/-- **The shift after a mismatch.** `w` agrees with the text from position `i - n` up to `i` and
disagrees there, and `b` is the longest border of its first `n` letters: then every position from
`i - n` up to the one that keeps the border aligned is refuted. -/
theorem refuted_of_lt_shift {n b : ℕ} (hn : n < w.length) (hi : i < t.length) (hni : n ≤ i)
    (hagree : ∀ m < n, w[m]? = t[i - n + m]?) (hne : w[n]? ≠ t[i]?)
    (hb : IsLongestBorder w n b) (hs : i - n ≤ s) (hs' : s < i - b) : Refuted w t s := by
  by_contra hnot
  have hbn := hb.1.1
  rcases Nat.eq_or_lt_of_le hs with rfl | hlt
  · exact hnot ⟨n, hn, by omega, by rwa [Nat.sub_add_cancel hni]⟩
  · -- the text from `s` to `i` would be a longer border
    have hborder : IsBorder w n (i - s) := by
      refine ⟨by omega, fun m hm ↦ ?_⟩
      have h₁ : w[m]? = t[s + m]? := by
        by_contra hm'
        exact hnot ⟨m, by omega, by omega, hm'⟩
      rw [h₁, hagree (n - (i - s) + m) (by omega)]
      congr 1
      omega
    have := hb.2 _ hborder
    omega

/-- **At the end of the text.** If `w` agrees with the last `k` letters of the text and every
earlier position is refuted, the text ends with no longer part of `w`. -/
theorem isLongestOverlap_of_refuted (hk : k < w.length) (hle : k ≤ t.length)
    (hagree : ∀ m < k, w[m]? = t[t.length - k + m]?)
    (href : ∀ s < t.length - k, Refuted w t s) : IsLongestOverlap w t k := by
  refine ⟨⟨hk, hle, hagree⟩, fun j hj ↦ ?_⟩
  by_contra hlt
  have hj' := hj.2.1
  exact hj.not_refuted (href _ (by omega))

end Positions

/-! ### Slices of a text -/

/-- `q` is the first position at or after `p` where `w` occurs in `t`. -/
def IsFirstFrom (w t : List α) (p q : ℕ) : Prop :=
  p ≤ q ∧ OccursAt w t q ∧ ∀ s, p ≤ s → s < q → ¬OccursAt w t s

section Slices

variable {w t : List α} {a c s q k : ℕ}

theorem getElem?_slice {m : ℕ} (hm : m < c) : ((t.drop a).take c)[m]? = t[a + m]? := by
  rw [List.getElem?_take_of_lt hm, List.getElem?_drop]

theorem length_slice (h : a + c ≤ t.length) : ((t.drop a).take c).length = c := by
  rw [List.length_take, List.length_drop]
  omega

/-- The occurrences in a slice are the occurrences in the text that lie inside it. -/
theorem occursAt_slice (h : a + c ≤ t.length) :
    OccursAt w ((t.drop a).take c) s ↔ s + w.length ≤ c ∧ OccursAt w t (a + s) := by
  rw [OccursAt, length_slice h]
  refine and_congr_right fun hs ↦ ⟨fun h' ↦ ⟨by omega, fun m hm ↦ ?_⟩, fun h' m hm ↦ ?_⟩
  · rw [h' m hm, getElem?_slice (by omega), Nat.add_assoc]
  · rw [h'.2 m hm, getElem?_slice (by omega), Nat.add_assoc]

/-- A slice that ends inside an occurrence ends in a part of the word. -/
theorem OccursAt.isOverlap_slice (h : OccursAt w t q) (haq : a ≤ q) (hq : q ≤ a + c)
    (hc : a + c < q + w.length) : IsOverlap w ((t.drop a).take c) (a + c - q) := by
  have hle := h.1
  have hlen : ((t.drop a).take c).length = c := length_slice (by omega)
  refine ⟨by omega, by omega, fun m hm ↦ ?_⟩
  rw [hlen, getElem?_slice (by omega), h.2 m (by omega)]
  congr 1
  omega

/-- The last letters of a longer slice. -/
theorem slice_add (a c d : ℕ) :
    (t.drop a).take (c + d) = (t.drop a).take c ++ (t.drop (a + c)).take d := by
  rw [List.take_add, List.drop_drop]

end Slices
