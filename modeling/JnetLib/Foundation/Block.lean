import Mathlib

/-!
# Blocks

The elements of a list have ranks. If the ranks never get smaller along the list, then the elements
of one rank stand next to each other: they are a block, which starts behind all elements of smaller
ranks. Whoever goes through the list once and notes where a rank first comes up and how often it
does, has noted where the block is (`rank_eq_iff`, `filter_zip`).
-/

namespace Block

variable {α β : Type*} {rank : α → ℕ} {r q : ℕ} {l : List α} {x : α}

/-- The ranks do not get smaller. -/
def Ordered (rank : α → ℕ) (l : List α) : Prop := l.Pairwise (rank · ≤ rank ·)

/-- The number of elements with a smaller rank than `r`. -/
def start (rank : α → ℕ) (r : ℕ) (l : List α) : ℕ := l.countP (rank · < r)

/-- The number of elements of the rank `r`. -/
def size (rank : α → ℕ) (r : ℕ) (l : List α) : ℕ := l.countP (rank · = r)

/-! ### One more element -/

theorem start_concat (l : List α) (x : α) :
    start rank r (l ++ [x]) = start rank r l + if rank x < r then 1 else 0 := by
  rw [start, List.countP_append, List.countP_singleton]
  simp only [decide_eq_true_eq]
  rfl

theorem size_concat (l : List α) (x : α) :
    size rank r (l ++ [x]) = size rank r l + if rank x = r then 1 else 0 := by
  rw [size, List.countP_append, List.countP_singleton]
  simp only [decide_eq_true_eq]
  rfl

theorem ordered_concat (hl : Ordered rank l) (hx : ∀ y ∈ l, rank y ≤ rank x) :
    Ordered rank (l ++ [x]) := by
  refine List.pairwise_append.2 ⟨hl, List.pairwise_singleton _ _, fun y hy z hz ↦ ?_⟩
  rw [List.mem_singleton.1 hz]
  exact hx y hy

/-! ### Where a block is -/

/-- All elements have smaller ranks. -/
theorem start_of_lt (h : ∀ y ∈ l, rank y < r) : start rank r l = l.length :=
  List.countP_eq_length.2 fun y hy ↦ decide_eq_true (h y hy)

theorem start_of_le (h : ∀ y ∈ l, r ≤ rank y) : start rank r l = 0 :=
  List.countP_eq_zero.2 fun y hy hlt ↦ absurd (of_decide_eq_true hlt) (Nat.not_lt.2 (h y hy))

theorem size_of_ne (h : ∀ y ∈ l, rank y ≠ r) : size rank r l = 0 :=
  List.countP_eq_zero.2 fun y hy heq ↦ h y hy (of_decide_eq_true heq)

theorem size_pos (hx : x ∈ l) : 0 < size rank (rank x) l :=
  List.countP_pos_iff.2 ⟨x, hx, decide_eq_true rfl⟩

/-- The next block starts behind a block. -/
theorem start_add_size (r : ℕ) (l : List α) :
    start rank r l + size rank r l = start rank (r + 1) l := by
  induction l with
  | nil => rfl
  | cons x l ih =>
    simp only [start, size, List.countP_cons, decide_eq_true_eq] at ih ⊢
    split_ifs <;> omega

theorem start_mono (h : r ≤ q) (l : List α) : start rank r l ≤ start rank q l :=
  List.countP_mono_left fun _ _ hlt ↦
    decide_eq_true (Nat.lt_of_lt_of_le (of_decide_eq_true hlt) h)

/-- Blocks do not overlap. -/
theorem start_add_size_le (h : r < q) (l : List α) :
    start rank r l + size rank r l ≤ start rank q l := by
  rw [start_add_size]
  exact start_mono h l

theorem start_add_size_le_length (r : ℕ) (l : List α) :
    start rank r l + size rank r l ≤ l.length := by
  rw [start_add_size]
  exact List.countP_le_length

/-- The elements of smaller ranks come first. -/
theorem rank_lt_iff (hl : Ordered rank l) {i : ℕ} (hx : l[i]? = some x) :
    rank x < r ↔ i < start rank r l := by
  induction l generalizing i with
  | nil => cases hx
  | cons y l ih =>
    obtain ⟨hy, hrest⟩ := List.pairwise_cons.1 hl
    cases i with
    | zero =>
      obtain rfl := Option.some.inj hx
      by_cases hlt : rank y < r
      · simp [start, hlt]
      · have hzero : start rank r (y :: l) = 0 := start_of_le fun z hz ↦ by
          rcases List.mem_cons.1 hz with rfl | hz
          · exact Nat.not_lt.1 hlt
          · exact Nat.le_trans (Nat.not_lt.1 hlt) (hy z hz)
        rw [hzero]
        exact iff_of_false hlt (Nat.lt_irrefl 0)
    | succ i =>
      have hx' : l[i]? = some x := hx
      rw [ih hrest hx']
      by_cases hlt : rank y < r
      · simp [start, hlt]
      · have hzero : start rank r l = 0 := start_of_le fun z hz ↦
          Nat.le_trans (Nat.not_lt.1 hlt) (hy z hz)
        simp only [start, List.countP_cons, hlt, decide_false] at hzero ⊢
        simp [hzero]

/-- **A block is an interval.** -/
theorem rank_eq_iff (hl : Ordered rank l) {i : ℕ} (hx : l[i]? = some x) :
    rank x = r ↔ start rank r l ≤ i ∧ i < start rank r l + size rank r l := by
  have hlt := rank_lt_iff (r := r) hl hx
  have hle := rank_lt_iff (r := r + 1) hl hx
  rw [start_add_size]
  omega

/-- **What stands next to a block.** Of another list, as long as this one, the elements beside those
of one rank are those at the positions of the block. -/
theorem filter_zip (hl : Ordered rank l) {m : List β} (hm : m.length = l.length) :
    ((m.zip l).filter (rank ·.2 = r)).map Prod.fst =
      (m.drop (start rank r l)).take (size rank r l) := by
  induction l generalizing m with
  | nil =>
    rw [List.zip_nil_right]
    rfl
  | cons y l ih =>
    obtain ⟨hy, hrest⟩ := List.pairwise_cons.1 hl
    obtain ⟨b, m, rfl⟩ := List.exists_cons_of_length_eq_add_one hm
    have ih := ih hrest (Nat.succ.inj hm)
    rcases Nat.lt_trichotomy (rank y) r with hlt | rfl | hgt
    · have hstart : start rank r (y :: l) = start rank r l + 1 :=
        List.countP_cons_of_pos (decide_eq_true hlt)
      have hsize : size rank r (y :: l) = size rank r l :=
        List.countP_cons_of_neg fun h ↦ absurd (of_decide_eq_true h) (Nat.ne_of_lt hlt)
      rw [hstart, hsize, List.zip_cons_cons, List.drop_succ_cons, ← ih, List.filter_cons_of_neg]
      exact fun h ↦ absurd (of_decide_eq_true h) (Nat.ne_of_lt hlt)
    · have hzero : start rank (rank y) l = 0 := start_of_le hy
      have hstart : start rank (rank y) (y :: l) = 0 := start_of_le fun z hz ↦ by
        rcases List.mem_cons.1 hz with rfl | hz
        · exact Nat.le_refl _
        · exact hy z hz
      have hsize : size rank (rank y) (y :: l) = size rank (rank y) l + 1 :=
        List.countP_cons_of_pos (decide_eq_true rfl)
      rw [hzero, List.drop_zero] at ih
      rw [hstart, hsize, List.drop_zero, List.take_succ_cons, List.zip_cons_cons,
        List.filter_cons_of_pos (by exact decide_eq_true rfl), List.map_cons, ih]
    · have hne : ∀ z ∈ y :: l, rank z ≠ r := fun z hz ↦ by
        rcases List.mem_cons.1 hz with rfl | hz
        · exact Nat.ne_of_gt hgt
        · exact Nat.ne_of_gt (Nat.lt_of_lt_of_le hgt (hy z hz))
      rw [size_of_ne hne, List.take_zero, List.map_eq_nil_iff, List.filter_eq_nil_iff]
      exact fun z hz h ↦ hne z.2 (List.of_mem_zip hz).2 (of_decide_eq_true h)

end Block
