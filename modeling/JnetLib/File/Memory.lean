import JnetLib.File.EndOfLine
import JnetLib.Foundation.Transition

/-!
# The memory of the end-of-line search

`read_line_op::build_kmp_table` and `read_line_op::find_eol` once more, now on the memory of the
machine: the table holds whatever `malloc` has found there until it is written, the variables are
`int`s that wrap, and nothing checks an index. A state stands in front of one round of a loop, and
`accesses` are the indices that round uses, in the order in which it uses them. The backends share
both functions letter by letter.

`StaysInside` says that every index is inside its array. Every round keeps `InBounds`
(`InBounds.next`), and with it the indices are inside, as long as no entry is read that has not been
written.
-/

namespace JnetLib.File

variable {α : Type} [DecidableEq α]

/-- A value after its conversion to `int`. -/
def int32 (z : ℤ) : ℤ := Int.bmod z (2 ^ 32)

/-- An `int` as a `size_t`. -/
def toSize (z : ℤ) : ℤ := z % 2 ^ 64

/-- `word_pos = T[word_pos]`, with zero for the marker. -/
def clamp (z : ℤ) : ℤ := if z < 0 then 0 else z

/-- The arrays the functions index. -/
inductive Block
  | table
  | word
  | text
  deriving DecidableEq, Repr

/-- An index into one of the arrays, read or written. -/
structure Access where
  block : Block
  index : ℤ
  deriving DecidableEq, Repr

/-- How many entries an array has; the table gets as many as the word has letters. -/
def Block.size (word text : List α) : Block → ℕ
  | .table | .word => word.length
  | .text => text.length

/-- The index is inside its array. -/
def Access.Inside (word text : List α) (a : Access) : Prop :=
  0 ≤ a.index ∧ a.index < a.block.size word text

/-- A letter of an array. A read outside yields no letter; what it would yield plays no role, since
its index is on record. -/
def letter (l : List α) (i : ℤ) : Option α := if 0 ≤ i then l[i.toNat]? else none

/-- Where the search is: the table has been allocated, in front of a round of `build_kmp_table`, in
front of a round of `find_eol`, or at its end with `found_pos` and `word_pos`. -/
inductive EolSearch
  | allocated (T : ℤ → ℤ)
  | building (T : ℤ → ℤ) (pos cnd : ℤ)
  | searching (T : ℤ → ℤ) (textPos wordPos : ℤ)
  | done (foundPos wordPos : ℤ)

namespace EolSearch

/-- The indices used up to the next state. -/
def accesses (word text : List α) : EolSearch → List Access
  | allocated _ => [⟨.table, 0⟩, ⟨.table, 1⟩]
  | building _ pos cnd =>
    if pos < toInt32 word.length then
      ⟨.word, int32 (pos - 1)⟩ :: ⟨.word, cnd⟩ ::
        if letter word (int32 (pos - 1)) = letter word cnd then [⟨.table, pos⟩]
        else if 0 < cnd then [⟨.table, cnd⟩]
        else [⟨.table, pos⟩]
    else []
  | searching _ textPos wordPos =>
    if int32 (textPos + wordPos) < toInt32 text.length then
      ⟨.word, wordPos⟩ :: ⟨.text, int32 (textPos + wordPos)⟩ ::
        if letter word wordPos = letter text (int32 (textPos + wordPos)) then []
        else [⟨.table, wordPos⟩]
    else []
  | done _ _ => []

/-- The next state. -/
def next (word text : List α) : EolSearch → Option EolSearch
  | allocated T => some (building (Function.update (Function.update T 0 (-1)) 1 0) 2 0)
  | building T pos cnd =>
    if pos < toInt32 word.length then
      if letter word (int32 (pos - 1)) = letter word cnd then
        some (building (Function.update T pos (int32 (cnd + 1))) (int32 (pos + 1))
          (int32 (cnd + 1)))
      else if 0 < cnd then some (building T pos (T cnd))
      else some (building (Function.update T pos 0) (int32 (pos + 1)) cnd)
    else some (searching T 0 0)
  | searching T textPos wordPos =>
    if int32 (textPos + wordPos) < toInt32 text.length then
      if letter word wordPos = letter text (int32 (textPos + wordPos)) then
        if toSize wordPos = word.length - 1 then some (done (toSize textPos) wordPos)
        else some (searching T textPos (int32 (wordPos + 1)))
      else
        some (searching T (int32 (int32 (textPos + wordPos) - T wordPos)) (clamp (T wordPos)))
    else some (done text.length wordPos)
  | done _ _ => none

/-- The machine takes its steps one after the other. -/
def step (word text : List α) (s : EolSearch) (_ : Unit) : Option EolSearch := s.next word text

end EolSearch

/-- **Every index is inside its array**: in every round the search comes to, whatever the memory of
the table held before. -/
def StaysInside (word text : List α) : Prop :=
  ∀ T : ℤ → ℤ, (∀ i, int32 (T i) = T i) → ∀ s,
    Transition.Reachable (EolSearch.step word text) (.allocated T) s →
      ∀ a ∈ s.accesses word text, a.Inside word text

/-! ### Inside the arrays -/

theorem int32_of_range {z : ℤ} (hlow : -2 ^ 31 ≤ z) (hhigh : z < 2 ^ 31) : int32 z = z := by
  have h1 : -((2 ^ 32 : ℕ) : ℤ) ≤ z * 2 := by omega
  have h2 : z * 2 < ((2 ^ 32 : ℕ) : ℤ) := by omega
  exact Int.bmod_eq_of_le_mul_two h1 h2

theorem int32_lt (z : ℤ) : int32 z < 2 ^ 31 := by
  have h : Int.bmod z (2 ^ 32) < (((2 ^ 32 : ℕ) : ℤ) + 1) / 2 := Int.bmod_lt (by decide)
  rw [int32]
  omega

theorem toInt32_lt (n : ℕ) : toInt32 n < 2 ^ 31 :=
  int32_lt n

/-- The entries of the table below `pos`: the marker at zero, and less than their index
elsewhere. -/
structure Entries (T : ℤ → ℤ) (pos : ℤ) : Prop where
  zero : T 0 = -1
  bound : ∀ i, 0 < i → i < pos → 0 ≤ T i ∧ T i < i

section Inside

variable {word text : List α} {T : ℤ → ℤ} {pos cnd n v : ℤ}

theorem Entries.write (h : Entries T pos) (hpos : 0 < pos) (hv : 0 ≤ v) (hlt : v < pos) :
    Entries (Function.update T pos v) (pos + 1) where
  zero := by rw [Function.update_of_ne (by omega), h.zero]
  bound i hi hlt' := by
    rcases eq_or_ne i pos with rfl | hne
    · rw [Function.update_self]
      exact ⟨hv, hlt⟩
    · rw [Function.update_of_ne hne]
      exact h.bound i hi (by omega)

theorem Entries.neg_one_le {i : ℤ} (h : Entries T pos) (h0 : 0 ≤ i) (hi : i < pos) : -1 ≤ T i := by
  rcases eq_or_ne i 0 with rfl | hne
  · have := h.zero
    omega
  · have := (h.bound i (by omega) hi).1
    omega

theorem entries_two (T : ℤ → ℤ) : Entries (Function.update (Function.update T 0 (-1)) 1 0) 2 where
  zero := by rw [Function.update_of_ne (by omega), Function.update_self]
  bound i hi hlt := by
    obtain rfl : i = 1 := by omega
    rw [Function.update_self]
    omega

namespace EolSearch

omit [DecidableEq α] in
theorem inside_table {i : ℤ} (h0 : 0 ≤ i) (h : i < word.length) :
    Access.Inside word text ⟨.table, i⟩ :=
  ⟨h0, h⟩

omit [DecidableEq α] in
theorem inside_word {i : ℤ} (h0 : 0 ≤ i) (h : i < word.length) :
    Access.Inside word text ⟨.word, i⟩ :=
  ⟨h0, h⟩

omit [DecidableEq α] in
theorem inside_text {i : ℤ} (h0 : 0 ≤ i) (h : i < text.length) :
    Access.Inside word text ⟨.text, i⟩ :=
  ⟨h0, h⟩

/-- **The invariant.** The variables of the first loop are below the entries it writes next, those
of the second are a position in the word and one in the text. -/
def InBounds (word : List α) : EolSearch → Prop
  | allocated _ | done _ _ => True
  | building T pos cnd =>
    2 ≤ pos ∧ pos ≤ filledLength word ∧ 0 ≤ cnd ∧ cnd < pos - 1 ∧ Entries T pos
  | searching T textPos wordPos =>
    0 ≤ textPos ∧ 0 ≤ wordPos ∧ wordPos < word.length ∧ textPos + wordPos < 2 ^ 31 ∧
      Entries T (filledLength word)

/-- A round of `build_kmp_table`. -/
theorem InBounds.next_of_building {s' : EolSearch} (h2 : 2 ≤ word.length)
    (h : InBounds word (.building T pos cnd))
    (hst : next word text (.building T pos cnd) = some s') :
    InBounds word s' := by
  obtain ⟨hpos, hle, hcnd, hlt, hT⟩ := h
  have hint := toInt32_lt word.length
  rw [next] at hst
  split at hst
  case isTrue hround =>
    have hle' : pos + 1 ≤ filledLength word := by
      rw [filledLength]
      omega
    have hposInt : int32 (pos + 1) = pos + 1 := int32_of_range (by omega) (by omega)
    have hcndInt : int32 (cnd + 1) = cnd + 1 := int32_of_range (by omega) (by omega)
    rw [hposInt, hcndInt] at hst
    split at hst
    case isTrue =>
      obtain rfl := Option.some.inj hst
      exact ⟨by omega, hle', by omega, by omega, hT.write (by omega) (by omega) (by omega)⟩
    case isFalse =>
      split at hst
      case isTrue hback =>
        obtain rfl := Option.some.inj hst
        obtain ⟨hlow, hhigh⟩ := hT.bound cnd hback (by omega)
        exact ⟨hpos, hle, hlow, by omega, hT⟩
      case isFalse =>
        obtain rfl := Option.some.inj hst
        exact ⟨by omega, hle', hcnd, by omega, hT.write (by omega) (by omega) (by omega)⟩
  case isFalse hround =>
    obtain rfl := Option.some.inj hst
    -- the loop ends when the table is filled
    obtain rfl : pos = filledLength word := by
      rw [filledLength] at hle ⊢
      omega
    exact ⟨by omega, by omega, by omega, by omega, hT⟩

/-- A round of `find_eol` that reads an entry of the table only where one was written. -/
theorem InBounds.next_of_searching {s' : EolSearch} {textPos wordPos : ℤ}
    (hread : textPos + wordPos < toInt32 text.length →
      letter word wordPos ≠ letter text (textPos + wordPos) → wordPos < filledLength word)
    (h : InBounds word (.searching T textPos wordPos))
    (hst : next word text (.searching T textPos wordPos) = some s') : InBounds word s' := by
  obtain ⟨htext, hword, hlt, hsum, hT⟩ := h
  have hint := toInt32_lt text.length
  have hsumInt : int32 (textPos + wordPos) = textPos + wordPos :=
    int32_of_range (by omega) hsum
  rw [next, hsumInt] at hst
  split at hst
  case isTrue hround =>
    split at hst
    case isTrue =>
      split at hst
      case isTrue => exact Option.some.inj hst ▸ trivial
      case isFalse hlast =>
        obtain rfl := Option.some.inj hst
        have hwordInt : int32 (wordPos + 1) = wordPos + 1 := int32_of_range (by omega) (by omega)
        have hsize : toSize wordPos = wordPos := Int.emod_eq_of_lt hword (by omega)
        rw [hsize] at hlast
        rw [hwordInt]
        exact ⟨htext, by omega, by omega, by omega, hT⟩
    case isFalse hne =>
      have hwritten := hread hround hne
      obtain rfl := Option.some.inj hst
      rcases eq_or_ne wordPos 0 with rfl | hne
      · -- the sentinel: one letter on in the text, from the beginning of the word
        have hshift : textPos + 0 - -1 = textPos + 1 := by omega
        have hclamp : clamp (-1) = 0 := rfl
        rw [hT.zero, hshift, hclamp, int32_of_range (by omega) (by omega)]
        exact ⟨by omega, hword, hlt, by omega, hT⟩
      · -- an entry lies below its position: the text position grows, and the sum stays
        obtain ⟨hlow, hhigh⟩ := hT.bound wordPos (by omega) hwritten
        have hshift : int32 (textPos + wordPos - T wordPos) = textPos + wordPos - T wordPos :=
          int32_of_range (by omega) (by omega)
        have hclamp : clamp (T wordPos) = T wordPos := if_neg (by omega)
        rw [hshift, hclamp]
        exact ⟨by omega, hlow, by omega, by omega, hT⟩
  case isFalse => exact Option.some.inj hst ▸ trivial

/-- The indices of a round are inside. -/
theorem InBounds.inside {s : EolSearch} (h2 : 2 ≤ word.length) (h : InBounds word s) :
    ∀ a ∈ s.accesses word text, a.Inside word text := by
  have hle := toInt32_le word.length
  have hint := toInt32_lt word.length
  have hle' := toInt32_le text.length
  cases s with
  | allocated T =>
    exact List.forall_mem_cons.2 ⟨inside_table (by omega) (by omega),
      List.forall_mem_singleton.2 (inside_table (by omega) (by omega))⟩
  | building T pos cnd =>
    obtain ⟨hpos, -, hcnd, hlt, -⟩ := h
    rw [accesses]
    split
    case isFalse => nofun
    case isTrue hround =>
      have hposInt : int32 (pos - 1) = pos - 1 := int32_of_range (by omega) (by omega)
      rw [hposInt]
      refine List.forall_mem_cons.2 ⟨inside_word (by omega) (by omega),
        List.forall_mem_cons.2 ⟨inside_word hcnd (by omega), ?_⟩⟩
      split
      case isTrue => exact List.forall_mem_singleton.2 (inside_table (by omega) (by omega))
      case isFalse =>
        split
        case isTrue => exact List.forall_mem_singleton.2 (inside_table hcnd (by omega))
        case isFalse => exact List.forall_mem_singleton.2 (inside_table (by omega) (by omega))
  | searching T textPos wordPos =>
    obtain ⟨htext, hword, hlt, hsum, -⟩ := h
    rw [accesses, int32_of_range (by omega) hsum]
    split
    case isFalse => nofun
    case isTrue hround =>
      refine List.forall_mem_cons.2 ⟨inside_word hword hlt,
        List.forall_mem_cons.2 ⟨inside_text (by omega) (by omega), ?_⟩⟩
      split
      case isTrue => nofun
      case isFalse => exact List.forall_mem_singleton.2 (inside_table hword hlt)
  | done foundPos wordPos => nofun

/-- **Every round keeps the invariant.** -/
theorem InBounds.next {s s' : EolSearch} (h2 : 2 ≤ word.length)
    (hfull : word.length ≤ filledLength word ∨ 2 ^ 31 - 1 ≤ filledLength word) (h : InBounds word s)
    (hst : s.next word text = some s') : InBounds word s' := by
  cases s with
  | allocated T =>
    obtain rfl := Option.some.inj hst
    have hle : 2 ≤ filledLength word := Nat.le_max_left _ _
    exact ⟨Int.le_refl _, by omega, Int.le_refl _, by omega, entries_two T⟩
  | building T pos cnd => exact h.next_of_building h2 hst
  | searching T textPos wordPos =>
    obtain ⟨htext, hword, hlt, hsum, -⟩ := id h
    refine h.next_of_searching (fun hround _ ↦ ?_) hst
    have hint := toInt32_lt text.length
    omega
  | done foundPos wordPos => cases hst

end EolSearch

end Inside

end JnetLib.File
