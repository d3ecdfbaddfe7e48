import JnetLib.File.Memory

/-!
# Which searches stay inside the memory

`staysInside_iff` says for which end-of-line strings every index is inside its array, whatever the
text. The two assignments before the loop of `build_kmp_table` ask for a table of two entries, which
a word of one letter does not have (`StaysInside.two_le`). With two letters `InBounds` holds, if no
entry is read that has not been written (`staysInside_of_full`); an entry that has not been is
whatever the memory held, and for the words whose table has one that can be read, a text and a
memory are given with which the search goes on in front of the text
(`not_staysInside_of_unwritten`).

`reaches_of_findEol` connects the machine with `findEol`: where that has an answer, the machine
comes to the same one. It follows the two loops of `EndOfLine` round by round, with `Images` between
the memory and the table.
-/

namespace JnetLib.File

variable {α : Type} [DecidableEq α]

/-! ### The same answers -/

section Answers

variable {word text : List α} {T₀ T : ℤ → ℤ} {K K' : KmpTable}

/-- The memory of a table: an entry that was written has its value, the others still hold what was
there before. -/
structure Images (word : List α) (T₀ : ℤ → ℤ) (K : KmpTable) (T : ℤ → ℤ) : Prop where
  length : K.length = word.length
  entry : ∀ i : ℕ, i < word.length → T i = (K.read i).getD (T₀ i)

omit [DecidableEq α] in
theorem Images.write {i : ℕ} {v : ℤ} (h : Images word T₀ K T) (hw : K.write i v = some K') :
    Images word T₀ K' (Function.update T i v) := by
  rw [KmpTable.write] at hw
  split at hw
  case isFalse => cases hw
  case isTrue hi =>
    obtain rfl := Option.some.inj hw
    refine ⟨List.length_set.trans h.length, fun j hj ↦ ?_⟩
    rcases eq_or_ne j i with rfl | hne
    · rw [Function.update_self, KmpTable.read_set_self hi, Option.getD_some]
    · have hne' : (j : ℤ) ≠ i := by exact_mod_cast hne
      rw [Function.update_of_ne hne', KmpTable.read_set_of_ne (Ne.symm hne), h.entry j hj]

omit [DecidableEq α] in
theorem Images.read {i : ℕ} {v : ℤ} (h : Images word T₀ K T) (hr : K.read i = some v) :
    T i = v := by
  have hi : i < word.length := by
    by_contra hi
    have hnone : K[i]? = none := List.getElem?_eq_none (by rw [h.length]; omega)
    rw [KmpTable.read, hnone] at hr
    cases hr
  rw [h.entry i hi, hr, Option.getD_some]

omit [DecidableEq α] in
theorem letter_natCast (l : List α) (i : ℕ) : letter l i = l[i]? :=
  if_pos (Int.natCast_nonneg i)

namespace EolSearch

/-- A round of `build_kmp_table` in natural numbers. -/
theorem next_building (text : List α) {pos cnd : ℕ} (h : InBounds word (.building T pos cnd)) :
    next word text (.building T pos cnd) = some (
      if (pos : ℤ) < toInt32 word.length then
        if word[pos - 1]? = word[cnd]? then
          .building (Function.update T pos (cnd + 1)) (pos + 1 : ℕ) (cnd + 1 : ℕ)
        else if 0 < cnd then .building T pos (T cnd)
        else .building (Function.update T pos 0) (pos + 1 : ℕ) cnd
      else .searching T 0 0) := by
  obtain ⟨hpos, -, -, hlt, -⟩ := h
  have hint := toInt32_lt word.length
  rw [next]
  split
  case isFalse => rfl
  case isTrue hround =>
    have hback : int32 ((pos : ℤ) - 1) = (pos - 1 : ℕ) := by
      rw [int32_of_range (by omega) (by omega)]
      omega
    rw [hback, int32_of_range (z := (pos : ℤ) + 1) (by omega) (by omega),
      int32_of_range (z := (cnd : ℤ) + 1) (by omega) (by omega), letter_natCast, letter_natCast]
    split
    case isTrue => rfl
    case isFalse =>
      simp only [Int.natCast_pos]
      split <;> rfl

/-- The loop of `build_kmp_table` fills the memory as it fills the table. -/
theorem reaches_of_buildKmpTableLoop (text : List α) (h2 : 2 ≤ word.length) :
    ∀ (fuel : ℕ) (K : KmpTable) (T : ℤ → ℤ) (pos cnd : ℕ), InBounds word (.building T pos cnd) →
      Images word T₀ K T → buildKmpTableLoop word fuel K pos cnd = some K' →
      ∃ T', Transition.Reachable (step word text) (.building T pos cnd) (.searching T' 0 0) ∧
        Images word T₀ K' T' ∧ InBounds word (.searching T' 0 0) := by
  intro fuel
  induction fuel with
  | zero => intro _ _ _ _ _ _ h; cases h
  | succ fuel ih =>
    intro K T pos cnd hk hT h
    have hnext := next_building text hk
    have hk' : ∀ s', next word text (.building T pos cnd) = some s' → InBounds word s' :=
      fun s' hs' ↦ hk.next_of_building h2 hs'
    -- after a round that goes on, the rest of the loop does what is claimed
    have hgo : ∀ K₁ T₁ (p c : ℕ), next word text (.building T pos cnd) = some (.building T₁ p c) →
        Images word T₀ K₁ T₁ → buildKmpTableLoop word fuel K₁ p c = some K' →
        ∃ T', Transition.Reachable (step word text) (.building T pos cnd) (.searching T' 0 0) ∧
          Images word T₀ K' T' ∧ InBounds word (.searching T' 0 0) := by
      intro K₁ T₁ p c hs hT₁ hloop
      obtain ⟨T', hreach, hT', hk''⟩ := ih K₁ T₁ p c (hk' _ hs) hT₁ hloop
      exact ⟨T', .head (a := ()) hs hreach, hT', hk''⟩
    rw [buildKmpTableLoop] at h
    split at h
    case isFalse hround =>
      obtain rfl := Option.some.inj h
      rw [if_neg hround] at hnext
      exact ⟨T, .head (a := ()) hnext (.refl _), hT, hk' _ hnext⟩
    case isTrue hround =>
      rw [if_pos hround] at hnext
      simp only [Option.bind_eq_bind, Option.bind_eq_some_iff] at h
      obtain ⟨a, ha, b, hb, h⟩ := h
      rw [ha, hb] at hnext
      split at h
      case isTrue heq =>
        rw [if_pos (congrArg some heq)] at hnext
        obtain ⟨K₁, hw, h⟩ := Option.bind_eq_some_iff.1 h
        exact hgo K₁ _ _ _ hnext (hT.write hw) h
      case isFalse hne =>
        rw [if_neg fun heq ↦ hne (Option.some.inj heq)] at hnext
        split at h
        case isTrue hback =>
          obtain ⟨c, hc, h⟩ := Option.bind_eq_some_iff.1 h
          obtain ⟨c', hc', h⟩ := Option.bind_eq_some_iff.1 h
          rw [if_pos hback, hT.read hc, Int.mem_toNat?.1 hc'] at hnext
          exact hgo K _ _ _ hnext hT h
        case isFalse hback =>
          rw [if_neg hback] at hnext
          obtain ⟨K₁, hw, h⟩ := Option.bind_eq_some_iff.1 h
          exact hgo K₁ _ _ _ hnext (hT.write hw) h

/-- Whatever the memory held, `build_kmp_table` comes to its end, with the table that is filled. -/
theorem reaches_of_buildKmpTable (text : List α) (h2 : 2 ≤ word.length)
    (h : buildKmpTable word = some K') (T₀ : ℤ → ℤ) :
    ∃ T', Transition.Reachable (step word text) (.allocated T₀) (.searching T' 0 0) ∧
      Images word T₀ K' T' ∧ InBounds word (.searching T' 0 0) := by
  rw [buildKmpTable_eq] at h
  obtain ⟨K₁, hw₁, h⟩ := Option.bind_eq_some_iff.1 h
  obtain ⟨K₂, hw₂, h⟩ := Option.bind_eq_some_iff.1 h
  have hread : ∀ i, KmpTable.read (List.replicate word.length none) i = none := by
    intro i
    rw [KmpTable.read, List.getElem?_replicate]
    split <;> rfl
  have hT₀ : Images word T₀ (List.replicate word.length none) T₀ :=
    ⟨List.length_replicate, fun i _ ↦ by rw [hread, Option.getD_none]⟩
  have hstart : next word text (.allocated T₀) = some
      (.building (Function.update (Function.update T₀ (0 : ℕ) (-1)) (1 : ℕ) 0) (2 : ℕ) (0 : ℕ)) :=
    rfl
  have hle : 2 ≤ filledLength word := Nat.le_max_left _ _
  have hk : InBounds word
      (.building (Function.update (Function.update T₀ (0 : ℕ) (-1)) (1 : ℕ) 0) (2 : ℕ) (0 : ℕ)) :=
    ⟨Int.le_refl _, by omega, Int.le_refl _, by omega, entries_two T₀⟩
  obtain ⟨T', hreach, hT', hk'⟩ :=
    reaches_of_buildKmpTableLoop text h2 _ _ _ _ _ hk ((hT₀.write hw₁).write hw₂) h
  exact ⟨T', .head (a := ()) hstart hreach, hT', hk'⟩

/-- A round of `find_eol` in natural numbers. -/
theorem next_searching (text : List α) {textPos wordPos : ℕ}
    (h : InBounds word (.searching T textPos wordPos)) :
    next word text (.searching T textPos wordPos) = some (
      if ((textPos + wordPos : ℕ) : ℤ) < toInt32 text.length then
        if word[wordPos]? = text[textPos + wordPos]? then
          if wordPos = word.length - 1 then .done textPos wordPos
          else .searching T textPos (wordPos + 1 : ℕ)
        else .searching T (int32 ((textPos + wordPos : ℕ) - T wordPos)) (clamp (T wordPos))
      else .done text.length wordPos) := by
  obtain ⟨-, -, hlt, hsum, -⟩ := h
  have hint := toInt32_lt text.length
  have hsumInt : int32 ((textPos : ℤ) + wordPos) = (textPos + wordPos : ℕ) := by
    rw [int32_of_range (by omega) hsum]
    omega
  have htext : toSize (textPos : ℤ) = textPos := Int.emod_eq_of_lt (by omega) (by omega)
  have hword : toSize (wordPos : ℤ) = wordPos := Int.emod_eq_of_lt (by omega) (by omega)
  rw [next, hsumInt, htext, hword, letter_natCast, letter_natCast]
  split
  case isFalse => rfl
  case isTrue hround =>
    split
    case isFalse => rfl
    case isTrue =>
      have hlast : (wordPos : ℤ) = word.length - 1 ↔ wordPos = word.length - 1 := by omega
      rw [int32_of_range (z := (wordPos : ℤ) + 1) (by omega) (by omega)]
      simp only [hlast]
      split <;> rfl

/-- The loop of `find_eol` comes to the answer it has on the table. -/
theorem reaches_of_findEolLoop (hT : Images word T₀ K T)
    (hK : ∀ i, filledLength word ≤ i → K.read i = none) :
    ∀ (fuel textPos wordPos : ℕ) (r : ℕ × ℕ), InBounds word (.searching T textPos wordPos) →
      findEolLoop text word K fuel textPos wordPos = some r →
      Transition.Reachable (step word text) (.searching T textPos wordPos) (.done r.1 r.2) := by
  intro fuel
  induction fuel with
  | zero => intro _ _ _ _ h; cases h
  | succ fuel ih =>
    intro textPos wordPos r hk h
    have hnext := next_searching text hk
    rw [findEolLoop] at h
    split at h
    case isFalse hround =>
      obtain rfl := Option.some.inj h
      rw [if_neg hround] at hnext
      exact .head (a := ()) hnext (.refl _)
    case isTrue hround =>
      rw [if_pos hround] at hnext
      simp only [Option.bind_eq_bind, Option.bind_eq_some_iff] at h
      obtain ⟨a, ha, b, hb, h⟩ := h
      rw [ha, hb] at hnext
      split at h
      case isTrue heq =>
        rw [if_pos (congrArg some heq)] at hnext
        split at h
        case isTrue hlast =>
          obtain rfl := Option.some.inj h
          rw [if_pos hlast] at hnext
          exact .head (a := ()) hnext (.refl _)
        case isFalse hlast =>
          rw [if_neg hlast] at hnext
          have hab : letter word wordPos = letter text (textPos + wordPos : ℕ) := by
            rw [letter_natCast, letter_natCast, ha, hb, heq]
          have hk' : InBounds word (.searching T textPos (wordPos + 1 : ℕ)) :=
            hk.next_of_searching (fun _ hne ↦ absurd hab hne) hnext
          exact .head (a := ()) hnext (ih _ _ _ hk' h)
      case isFalse hne =>
        rw [if_neg fun heq ↦ hne (Option.some.inj heq)] at hnext
        obtain ⟨c, hc, h⟩ := Option.bind_eq_some_iff.1 h
        obtain ⟨p, hp, h⟩ := Option.bind_eq_some_iff.1 h
        -- the entry read is one that was written
        have hwritten : wordPos < filledLength word := by
          by_contra hn
          rw [hK wordPos (by omega)] at hc
          cases hc
        have hk' := hk.next_of_searching (fun _ _ ↦ by exact_mod_cast hwritten) hnext
        rw [hT.read hc] at hnext hk'
        have hclamp : clamp c = c.toNat := by
          rw [clamp]
          split <;> omega
        have hlow : -1 ≤ c := by
          obtain ⟨-, -, -, -, hentries⟩ := hk
          exact hT.read hc ▸ hentries.neg_one_le (by omega) (by exact_mod_cast hwritten)
        have hint := toInt32_lt text.length
        have hp' : ((textPos + wordPos : ℕ) : ℤ) - c = p := Int.mem_toNat?.1 hp
        have hshift : int32 (((textPos + wordPos : ℕ) : ℤ) - c) = p := by
          rw [hp', int32_of_range (by omega) (by omega)]
        rw [hclamp, hshift] at hnext hk'
        exact .head (a := ()) hnext (ih _ _ _ hk' h)

/-- **The machine answers what `findEol` answers**, whatever the memory of the table held before.
The second part of the answer is `last_match_count`, which `find_eol` writes when it has found
nothing. -/
theorem reaches_of_findEol {r : ℕ × ℕ} (h2 : 2 ≤ word.length) (h : findEol text word = some r)
    (T₀ : ℤ → ℤ) :
    ∃ wordPos : ℕ, Transition.Reachable (step word text) (.allocated T₀) (.done r.1 wordPos) ∧
      r.2 = if r.1 = text.length then wordPos else 0 := by
  obtain ⟨K, hK, hF⟩ := buildKmpTable_filledUpTo h2
  rw [findEol_eq, hK, Option.bind_some] at h
  obtain ⟨r', hr', h⟩ := Option.bind_eq_some_iff.1 h
  obtain rfl := Option.some.inj h
  obtain ⟨T, hreach, hT, hk⟩ := reaches_of_buildKmpTable text h2 hK T₀
  exact ⟨r'.2, hreach.trans (reaches_of_findEolLoop hT hF.unwritten _ 0 0 _ hk hr'), rfl⟩

end EolSearch

end Answers

/-! ### Which words stay inside -/

section StaysInside

variable {word text : List α} {T : ℤ → ℤ}

open EolSearch

/-- The assignments in front of the loop of `build_kmp_table` need two entries. -/
theorem StaysInside.two_le (h : StaysInside word text) : 2 ≤ word.length := by
  have hone : (⟨.table, 1⟩ : Access).Inside word text :=
    h (fun _ ↦ 0) (fun _ ↦ rfl) _ (.refl _) _ (List.mem_cons_of_mem _ List.mem_cons_self)
  have hlt : (1 : ℤ) < word.length := hone.2
  omega

/-- Two letters suffice if no entry is read that is not written. -/
theorem staysInside_of_full (h2 : 2 ≤ word.length)
    (hfull : word.length ≤ filledLength word ∨ 2 ^ 31 - 1 ≤ filledLength word) :
    StaysInside word text := by
  intro T _ s hs
  have hstart : InBounds word (.allocated T) := trivial
  have hk : InBounds word s := hs.invariant (fun _ _ _ h hst ↦ h.next h2 hfull hst) hstart
  exact hk.inside h2

omit [DecidableEq α] in
theorem exists_text_of_lt [Nontrivial α] {n : ℕ} (hn : n < word.length) :
    ∃ text : List α, text.length = n + 1 ∧ (∀ j < n, word[j]? = text[j]?) ∧
      word[n]? ≠ text[n]? := by
  obtain ⟨c, hc⟩ := exists_ne word[n]
  have hlen : (word.take n).length = n := by
    rw [List.length_take]
    omega
  refine ⟨word.take n ++ [c], by simp [hlen], fun j hj ↦ ?_, ?_⟩
  · rw [List.getElem?_append_left (by omega), List.getElem?_take_of_lt hj]
  · rw [List.getElem?_append_right (by omega), hlen, Nat.sub_self, List.getElem?_eq_getElem hn]
    exact fun h ↦ hc (Option.some.inj h).symm

/-- What follows from an entry that was not written and holds the smallest `int`: the sum of
positions overflows, and the search goes on in front of the text. -/
theorem not_staysInside_of_unwritten [Nontrivial α] (h2 : 2 ≤ word.length)
    (hlong : filledLength word < word.length) (hshort : filledLength word < 2 ^ 31 - 1) :
    ∃ text, ¬StaysInside word text := by
  obtain ⟨n, hn⟩ : ∃ n, filledLength word = n := ⟨_, rfl⟩
  rw [hn] at hlong hshort
  obtain ⟨text, htext, hmatch, hdiffer⟩ := exists_text_of_lt hlong
  obtain ⟨K, hK, hF⟩ := buildKmpTable_filledUpTo h2
  obtain ⟨T, hreach, hT, hk⟩ := reaches_of_buildKmpTable text h2 hK fun _ ↦ -2 ^ 31
  have hTn : T n = -2 ^ 31 := by
    rw [hT.entry n hlong, hF.unwritten n (by omega), Option.getD_none]
  obtain ⟨-, -, -, -, hentries⟩ := hk
  have hint : toInt32 text.length = (n : ℤ) + 1 := by
    rw [htext, toInt32_of_lt (by omega)]
    omega
  have hk : ∀ j : ℕ, j ≤ n → InBounds word (.searching T (0 : ℕ) j) := fun j hj ↦
    ⟨Int.le_refl _, by omega, by omega, by omega, hentries⟩
  -- the letters before `n` match, so the search comes to the first entry not written
  have hsteps : ∀ j : ℕ, j ≤ n →
      Transition.Reachable (step word text) (.searching T 0 0) (.searching T (0 : ℕ) j) := by
    intro j
    induction j with
    | zero => exact fun _ ↦ .refl _
    | succ j ih =>
      intro hj
      have hnext := next_searching text (hk j (by omega))
      rw [if_pos (by omega), Nat.zero_add, if_pos (hmatch j (by omega)), if_neg (by omega)] at hnext
      exact (ih (by omega)).tail (a := ()) hnext
  have hnext := next_searching text (hk n (Nat.le_refl n))
  -- `textPos + wordPos - T[wordPos]` does not fit an `int`
  have hwrap : int32 ((n : ℤ) - -2 ^ 31) = n - 2 ^ 31 := by
    have hsum : (n : ℤ) - -2 ^ 31 = n - 2 ^ 31 + (2 ^ 32 : ℕ) := by omega
    rw [int32, hsum, Int.add_bmod_right]
    exact int32_of_range (by omega) (by omega)
  have hclamp : clamp (-2 ^ 31) = 0 := rfl
  rw [if_pos (by omega), Nat.zero_add, if_neg hdiffer, hTn, hwrap, hclamp] at hnext
  refine ⟨text, fun hinside ↦ ?_⟩
  have hreached := (hreach.trans (hsteps n (Nat.le_refl n))).tail (a := ()) hnext
  have hout : (⟨.text, n - 2 ^ 31⟩ : Access).Inside word text := by
    refine hinside _ (fun _ ↦ rfl) _ hreached _ ?_
    rw [accesses, Int.add_zero, int32_of_range (by omega) (by omega), if_pos (by omega)]
    exact List.mem_cons_of_mem _ List.mem_cons_self
  have hlow : (0 : ℤ) ≤ n - 2 ^ 31 := hout.1
  omega

/-- **Which end-of-line strings stay inside the memory.** A string that fits an `int` does so if it
has two letters or more, and if it has one, no text makes up for that. Among the longer ones, whose
table is not filled to its end, only those whose length reads as the largest `int` do so for every
text. -/
theorem staysInside_iff [Nontrivial α] (word : List α) :
    (word.length < 2 ^ 31 → ∀ text, StaysInside word text ↔ 2 ≤ word.length) ∧
      ((∀ text, StaysInside word text) ↔
        2 ≤ word.length ∧ (word.length < 2 ^ 31 ∨ toInt32 word.length = 2 ^ 31 - 1)) := by
  have hfilled : 2 ≤ word.length → word.length < 2 ^ 31 → word.length ≤ filledLength word :=
    fun h2 hlen ↦ (filledLength_of_lt h2 hlen).ge
  refine ⟨fun hlen text ↦ ⟨StaysInside.two_le, fun h2 ↦ staysInside_of_full h2 ?_⟩,
    fun h ↦ ?_, fun ⟨h2, h⟩ text ↦ staysInside_of_full h2 ?_⟩
  · exact .inl (by exact_mod_cast hfilled h2 hlen)
  · have h2 := (h []).two_le
    refine ⟨h2, ?_⟩
    by_contra hnot
    obtain ⟨hlen, hint⟩ := not_or.1 hnot
    have hle := toInt32_le word.length
    have hlt := toInt32_lt word.length
    have hn : filledLength word = max 2 (toInt32 word.length).toNat := rfl
    obtain ⟨text, htext⟩ := not_staysInside_of_unwritten h2 (by omega) (by omega)
    exact htext (h text)
  · rcases h with hlen | hint
    · exact .inl (by exact_mod_cast hfilled h2 hlen)
    · have hn : filledLength word = max 2 (toInt32 word.length).toNat := rfl
      exact .inr (by omega)

/-- A word of one letter, the usual end of a line, and one of two. -/
theorem staysInside_iff_newline :
    [10].length < 2 ^ 31 ∧ (∀ text, ¬StaysInside [10] text) ∧
      ∀ text, StaysInside [13, 10] text := by
  refine ⟨by decide, fun text h ↦ ?_, fun text ↦ ?_⟩
  · exact absurd (((staysInside_iff [10]).1 (by decide) text).1 h) (by decide)
  · exact ((staysInside_iff [13, 10]).1 (by decide) text).2 (by decide)

/-- `"\n"` as the end of a line: `T[1] = 0` is behind the end of a table of one entry. -/
theorem not_staysInside_newline :
    ¬∀ word text : List ℕ, word ≠ [] → StaysInside word text := by
  intro h
  have hone : (⟨.table, 1⟩ : Access).Inside [10] [97, 10] :=
    h [10] [97, 10] (List.cons_ne_nil _ _) (fun _ ↦ 0) (fun _ ↦ rfl) _ (.refl _) _
      (List.mem_cons_of_mem _ List.mem_cons_self)
  exact absurd hone.2 (by decide)

end StaysInside

end JnetLib.File
