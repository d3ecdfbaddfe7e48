import JnetLib.Foundation.Numeral
import JnetLib.Http.FieldNames

/-!
# The header fields the parser looks at

While the value of a header goes by, `header_state` and `index` follow the values that are looked
for behind its name, or `content_length` takes its digits. Here is what they stand for after each
letter (`Valued`), and what a header of a given name and value has done to the parser in the end
(`Header.meaning`, `Head.add`).

It goes the same way as for names: one lemma for the first letter (`inValue_startValue`), one for
the next letter (`inValue_nextValue`), and one for the whole value (`inValue_endValue`). Spaces at
the end of a value count for nothing (`plainValue`).
-/

namespace JnetLib.Http

open Numeral (value value_append)

/-- The values the parser looks for. -/
inductive FieldValue
  | chunked
  | keepAlive
  | close
  deriving DecidableEq, Repr

namespace FieldValue

/-- The value in lower case. -/
def bytes : FieldValue → List Byte
  | chunked => chunkedValue
  | keepAlive => keepAliveValue
  | close => closeValue

/-- The state in which it is being matched. -/
def matching : FieldValue → HeaderState
  | chunked => .matchingTransferEncodingChunked
  | keepAlive => .matchingConnectionKeepAlive
  | close => .matchingConnectionClose

/-- The state in which it has been matched. -/
def matched : FieldValue → HeaderState
  | chunked => .transferEncodingChunked
  | keepAlive => .connectionKeepAlive
  | close => .connectionClose

end FieldValue

/-- The values that are looked for behind a name. -/
def FieldName.values : Option FieldName → List FieldValue
  | some .transferEncoding => [.chunked]
  | some .connection | some .proxyConnection => [.keepAlive, .close]
  | _ => []

/-- A value in lower case, without the spaces behind it. -/
def plainValue (v : List Byte) : List Byte := (v.rdropWhile (· = (' ' : Byte))).map lower

/-- The value `x` can be, or is, the beginning `v` of a value. -/
def FieldValue.Begins (x : FieldValue) (v : List Byte) : Prop :=
  v.map lower <+: x.bytes ∨ plainValue v = x.bytes

/-- What `header_state` and `index` say of the beginning `v` of a value, where the values `l` are
looked for. -/
inductive Valued (l : List FieldValue) (p : HeaderState) (i : ℕ) (v : List Byte) : Prop
  | matching (x : FieldValue) (hx : x ∈ l) (hstate : p = x.matching) (hv : v.map lower <+: x.bytes)
      (hlt : v.length < x.bytes.length) (hi : i + 1 = v.length)
  | matched (x : FieldValue) (hx : x ∈ l) (hstate : p = x.matched) (hv : plainValue v = x.bytes)
  | other (hstate : p = .general) (hv : ∀ x ∈ l, ¬x.Begins v)

section Values

variable {h : Head} {st : State} {p : HeaderState} {i n : ℕ} {v : List Byte} {ch : Byte}
  {l : List FieldValue} {x y : FieldValue}

theorem plainValue_space (v : List Byte) : plainValue (v ++ [(' ' : Byte)]) = plainValue v := by
  rw [plainValue, List.rdropWhile_concat_pos]
  · rfl
  · decide

theorem plainValue_concat (hch : ch ≠ ' ') (v : List Byte) :
    plainValue (v ++ [ch]) = v.map lower ++ [lower ch] := by
  rw [plainValue, List.rdropWhile_concat_neg, List.map_append]
  · rfl
  · simpa using hch

theorem length_plainValue_le (v : List Byte) : (plainValue v).length ≤ v.length := by
  rw [plainValue, List.length_map]
  exact (List.rdropWhile_prefix _ _).length_le

theorem lower_ne_zero (ch : Byte) : lower ch ≠ 0 := by
  intro h
  rw [lower] at h
  simp at h

/-- What begins a value has begun it before. -/
theorem FieldValue.Begins.of_concat (hx : x.Begins (v ++ [ch])) : x.Begins v := by
  rcases hx with hx | hx
  · rw [List.map_append] at hx
    exact .inl ((List.prefix_append _ _).trans hx)
  · by_cases hch : ch = ' '
    · subst hch
      exact .inr (plainValue_space v ▸ hx)
    · rw [plainValue_concat hch] at hx
      exact .inl (hx ▸ List.prefix_append _ _)

theorem FieldValue.Begins.head (hx : x.Begins (ch :: v)) : x.bytes.head? = some (lower ch) := by
  have hpre : x.Begins [ch] := by
    induction v using List.reverseRecOn with
    | nil => exact hx
    | append_singleton v c ih => exact ih (FieldValue.Begins.of_concat (v := ch :: v) hx)
  rcases hpre with hpre | hpre
  · obtain ⟨r, hr⟩ := hpre
    rw [← hr]
    rfl
  · by_cases hch : ch = ' '
    · subst hch
      rw [show plainValue [(' ' : Byte)] = [] from plainValue_space []] at hpre
      cases x <;> cases hpre
    · rw [← hpre, show plainValue [ch] = _ from plainValue_concat hch []]
      rfl

/-- The first letter tells the values behind a name from each other. -/
theorem eq_of_begins {k : Option FieldName} (hx : x ∈ FieldName.values k)
    (hy : y ∈ FieldName.values k) (hv : v ≠ []) (hxv : x.Begins v) (hyv : y.Begins v) : x = y := by
  obtain ⟨ch, v, rfl⟩ := List.exists_cons_of_ne_nil hv
  have heq := hxv.head.trans hyv.head.symm
  cases k with
  | none => cases hx
  | some f =>
    revert hx hy heq
    cases f <;> cases x <;> cases y <;> decide

/-- The first letter of a value. -/
theorem Valued.singleton (hx : x ∈ l) (hletter : x.bytes.head? = some (lower ch)) :
    Valued l x.matching 0 [ch] := by
  obtain ⟨r, hr⟩ := List.head?_eq_some_iff.1 hletter
  have hlt : 1 < x.bytes.length := by cases x <;> decide
  exact .matching x hx rfl (hr ▸ List.prefix_append [lower ch] r) hlt rfl

/-- The last letter of a value is no space. -/
theorem lower_ne_space {w : List Byte} (hw : w ++ [lower ch] = x.bytes) : ch ≠ ' ' := by
  rintro rfl
  have hlast : x.bytes.getLast? = some (lower ' ') := by
    rw [← hw, List.getLast?_concat]
  revert hlast
  cases x <;> decide

/-- The beginning of a value goes on with the letters of the value. -/
theorem FieldValue.Begins.concat_prefix (hx : x.Begins (v ++ [ch]))
    (hlt : v.length < x.bytes.length) : v.map lower ++ [lower ch] <+: x.bytes := by
  rcases hx with hx | hx
  · rw [List.map_append] at hx
    exact hx
  · by_cases hch : ch = ' '
    · subst hch
      rw [plainValue_space] at hx
      have hle := length_plainValue_le v
      rw [hx] at hle
      exact absurd hlt (Nat.not_lt.2 hle)
    · rw [plainValue_concat hch] at hx
      exact hx ▸ List.prefix_refl _

/-- Behind a value only spaces go on with it. -/
theorem not_begins_concat (hplain : plainValue v = x.bytes) (hch : ch ≠ ' ') :
    ¬x.Begins (v ++ [ch]) := by
  have hle := length_plainValue_le v
  rw [hplain] at hle
  rintro (hx | hx)
  · have := hx.length_le
    rw [List.length_map, List.length_append, List.length_singleton] at this
    omega
  · rw [plainValue_concat hch] at hx
    have := congrArg List.length hx
    rw [List.length_append, List.length_map, List.length_singleton] at this
    omega

/-- **`header_state` stands for the value** with its next letter. -/
theorem valued_nextValue (h : Head) (st : State) (ch : Byte) {k : Option FieldName}
    (hv : v ≠ []) (hvalued : Valued (FieldName.values k) p i v) :
    ∃ p' i', (∀ n, (h.parser st p i n).nextValue ch (lower ch) = .ok (h.parser st p' i' n)) ∧
      Valued (FieldName.values k) p' i' (v ++ [ch]) := by
  have hlength : (v ++ [ch]).length = v.length + 1 := by simp
  cases hvalued with
  | matching x hx hstate hpre hlt hi =>
    have hnext : ∀ n, (h.parser st p i n).nextValue ch (lower ch) =
        .ok ((h.parser st p i n).matchNext x.bytes x.matched (lower ch)) := by
      subst hstate
      cases x <;> exact fun _ ↦ rfl
    obtain ⟨p', i', heq, hcases⟩ := matchNext_cases h st p x.matched hpre
      (by rw [List.length_map]; exact hlt) (by rw [List.length_map]; exact hi) (lower_ne_zero ch)
    refine ⟨p', i', fun n ↦ (hnext n).trans (congrArg Except.ok (heq n)), ?_⟩
    rcases hcases with ⟨p', hw⟩ | ⟨p', hw, hlt', hi'⟩ | ⟨p', hw⟩
    · exact .matched x hx p' (by rw [plainValue_concat (lower_ne_space hw), hw])
    · rw [List.length_append, List.length_map, List.length_singleton] at hlt' hi'
      exact .matching x hx (p'.trans hstate) (by rw [List.map_append]; exact hw)
        (by rw [hlength]; exact hlt') (by rw [hlength]; exact hi')
    · refine .other p' fun y hy hbegins ↦ ?_
      obtain rfl := eq_of_begins hx hy hv (.inl hpre) hbegins.of_concat
      exact hw (hbegins.concat_prefix hlt)
  | matched x hx hstate hplain =>
    have hnext : ∀ n, (h.parser st p i n).nextValue ch (lower ch) =
        .ok (if ch ≠ ' ' then h.parser st .general i n else h.parser st p i n) := by
      subst hstate
      cases x <;> exact fun _ ↦ rfl
    by_cases hch : ch = ' '
    · subst hch
      exact ⟨p, i, hnext, .matched x hx hstate (by rw [plainValue_space, hplain])⟩
    · refine ⟨.general, i, fun n ↦ by rw [hnext, if_pos hch], .other rfl fun y hy hbegins ↦ ?_⟩
      obtain rfl := eq_of_begins hx hy hv (.inr hplain) hbegins.of_concat
      exact not_begins_concat hplain hch hbegins
  | other hstate hno =>
    subst hstate
    exact ⟨.general, i, fun _ ↦ rfl, .other rfl fun y hy hbegins ↦ hno y hy hbegins.of_concat⟩

/-- A digit. -/
def digit (ch : Byte) : ℕ := (ch - '0').toNat

/-- The number a `Content-Length` gives; spaces do not count. -/
def lengthOf (v : List Byte) : ℕ := value 10 0 ((v.filter (· ≠ (' ' : Byte))).map digit)

/-- A value of a `Content-Length` that the parser takes. -/
def isLength (v : List Byte) : Bool :=
  v.head?.any isNum && v.all (fun ch ↦ isNum ch || ch == ' ') && lengthOf v < ULLONG_MAX

/-- What a header says to the parser. -/
inductive Meaning
  | plain
  | upgrade
  | value (x : FieldValue)
  | length (n : ℕ)
  | refused
  deriving DecidableEq, Repr

/-- The one of the values `l` that `v` is. -/
def said (l : List FieldValue) (v : List Byte) : Option FieldValue :=
  l.find? fun x ↦ plainValue v = x.bytes

/-- What a value says behind a name. -/
def meaning (k : Option FieldName) (v : List Byte) : Meaning :=
  if v = [] then .plain
  else
    match k with
    | some .upgrade => .upgrade
    | some .contentLength => if isLength v then .length (lengthOf v) else .refused
    | k =>
      match said (FieldName.values k) v with
      | some x => .value x
      | none => .plain

/-- A length that is not refused consists of digits and spaces, and is not too large. -/
theorem isLength_of_ne_refused {k : Option FieldName} {v : List Byte} {ch : Byte}
    (hm : meaning k (ch :: v) ≠ .refused) (hk : k = some .contentLength) :
    isNum ch = true ∧ (∀ c ∈ ch :: v, isNum c = true ∨ c = ' ') ∧
      lengthOf (ch :: v) < ULLONG_MAX := by
  have hlength : isLength (ch :: v) = true := by
    by_contra hno
    subst hk
    exact hm ((if_neg (List.cons_ne_nil ch v)).trans (if_neg hno))
  rw [isLength, Bool.and_eq_true, Bool.and_eq_true, decide_eq_true_eq] at hlength
  exact ⟨hlength.1.1, by simpa using hlength.1.2, hlength.2⟩

/-- The head with what a header says. -/
def Head.add (h : Head) : Meaning → Head
  | .plain | .refused => h
  | .upgrade => { h with flags := { h.flags with upgrade := true } }
  | .value .chunked => { h with flags := { h.flags with chunked := true } }
  | .value .keepAlive => { h with flags := { h.flags with connectionKeepAlive := true } }
  | .value .close => { h with flags := { h.flags with connectionClose := true } }
  | .length n => { h with contentLength := n }

/-- What the beginning `v` of a value has done to the head `h`. -/
inductive InValue (k : Option FieldName) (h : Head) (v : List Byte) (h' : Head) (p : HeaderState)
    (i : ℕ) : Prop
  | length (hk : k = some .contentLength) (hhead : h' = { h with contentLength := lengthOf v })
      (hstate : p = .contentLength)
  | other (hk : k ≠ some .contentLength)
      (hhead : h' = if k = some .upgrade then h.add .upgrade else h)
      (hvalued : Valued (FieldName.values k) p i v)

theorem lengthOf_concat (hch : ch ≠ ' ') (v : List Byte) :
    lengthOf (v ++ [ch]) = lengthOf v * 10 + digit ch := by
  rw [lengthOf, List.filter_append, List.map_append, value_append]
  rw [List.filter_cons_of_pos (by simpa using hch)]
  rfl

theorem lengthOf_space (v : List Byte) : lengthOf (v ++ [(' ' : Byte)]) = lengthOf v := by
  rw [lengthOf, List.filter_append, List.filter_cons_of_neg (by decide), List.filter_nil,
    List.append_nil, lengthOf]

/-- The number does not get smaller. -/
theorem lengthOf_le (v w : List Byte) : lengthOf v ≤ lengthOf (v ++ w) := by
  rw [lengthOf, lengthOf, List.filter_append, List.map_append]
  exact Numeral.value_le_value_append (by decide) _ _ _

theorem ne_space_of_isNum (hch : isNum ch = true) : ch ≠ ' ' := by
  rintro rfl
  exact absurd hch (by decide)

/-- A digit more of a number that stays below the bound. -/
theorem nextDigit_of_lt {q : Parser} {base d : ℕ} (hbase : 0 < base)
    (hlt : q.contentLength * base + d < ULLONG_MAX) :
    q.nextDigit base d = .ok { q with contentLength := q.contentLength * base + d } := by
  have hbound : ULLONG_MAX < 2 ^ 64 := by decide
  have hle : q.contentLength ≤ q.contentLength * base := Nat.le_mul_of_pos_right _ hbase
  have ht : toUInt64 (toUInt64 (q.contentLength * base) + d) = q.contentLength * base + d := by
    rw [toUInt64, toUInt64, Nat.mod_eq_of_lt (by omega), Nat.mod_eq_of_lt (by omega)]
  rw [Parser.nextDigit, ht]
  exact if_neg (by omega)

theorem not_begins_singleton (hx : x.bytes.head? ≠ some (lower ch)) : ¬x.Begins [ch] :=
  fun hbegins ↦ hx hbegins.head

/-- The first letter of a value. -/
theorem inValue_startValue (h : Head) (st : State) {k : Option FieldName} (hbehind : Behind k p)
    (hnum : k = some .contentLength → isNum ch = true) :
    ∃ h' p', (∀ n, (h.parser st p 0 n).startValue ch (lower ch) = .ok (h'.parser st p' 0 n)) ∧
      InValue k h [ch] h' p' 0 := by
  have hconnection : Valued [.keepAlive, .close]
    (if lower ch = 'k' then .matchingConnectionKeepAlive
      else if lower ch = 'c' then .matchingConnectionClose else .general) 0 [ch] := by
    split_ifs with hk hc
    · exact .singleton (x := .keepAlive) (by decide) (by rw [hk]; rfl)
    · exact .singleton (x := .close) (by decide) (by rw [hc]; rfl)
    · refine .other rfl fun y hy ↦ not_begins_singleton fun heq ↦ ?_
      rcases List.mem_pair.1 hy with rfl | rfl
      · exact hk (Option.some.inj heq).symm
      · exact hc (Option.some.inj heq).symm
  cases k with
  | none =>
    refine ⟨h, .general, fun _ ↦ ?_, .other nofun rfl (.other rfl nofun)⟩
    cases p <;> first | rfl | cases hbehind
  | some f =>
    obtain rfl : p = f.matched := hbehind
    cases f with
    | connection => exact ⟨h, _, fun _ ↦ rfl, .other nofun rfl hconnection⟩
    | proxyConnection => exact ⟨h, _, fun _ ↦ rfl, .other nofun rfl hconnection⟩
    | contentLength =>
      refine ⟨{ h with contentLength := digit ch }, .contentLength, fun _ ↦ if_pos (hnum rfl),
        .length rfl ?_ rfl⟩
      rw [show lengthOf [ch] = _ from lengthOf_concat (ne_space_of_isNum (hnum rfl)) []]
      exact congrArg (fun n ↦ { h with contentLength := n }) (Nat.zero_add _).symm
    | transferEncoding =>
      refine ⟨h, if lower ch = 'c' then .matchingTransferEncodingChunked else .general, fun _ ↦ rfl,
        .other nofun rfl ?_⟩
      split_ifs with hc
      · exact .singleton (x := .chunked) (by decide) (by rw [hc]; rfl)
      · refine .other rfl fun y hy ↦ not_begins_singleton fun heq ↦ ?_
        rw [List.mem_singleton.1 hy] at heq
        exact hc (Option.some.inj heq).symm
    | upgrade => exact ⟨_, _, fun _ ↦ rfl, .other nofun rfl (.other rfl nofun)⟩

/-- **A letter more.** -/
theorem inValue_nextValue (st : State) {k : Option FieldName} {h' : Head} (hv : v ≠ [])
    (hin : InValue k h v h' p i) (hnum : k = some .contentLength → isNum ch = true ∨ ch = ' ')
    (hlt : k = some .contentLength → lengthOf (v ++ [ch]) < ULLONG_MAX) :
    ∃ h'' p' i',
      (∀ n, (h'.parser st p i n).nextValue ch (lower ch) = .ok (h''.parser st p' i' n)) ∧
      InValue k h (v ++ [ch]) h'' p' i' := by
  cases hin with
  | length hk hhead hstate =>
    subst hhead hstate
    rcases hnum hk with hch | rfl
    · refine ⟨_, .contentLength, i, fun n ↦ ?_, .length hk rfl rfl⟩
      have hlt' := hlt hk
      rw [lengthOf_concat (ne_space_of_isNum hch)] at hlt' ⊢
      show (if ch = ' ' then _ else if isNum ch then _ else _) = _
      rw [if_neg (ne_space_of_isNum hch), if_pos hch]
      exact nextDigit_of_lt (by decide) hlt'
    · exact ⟨_, .contentLength, i, fun _ ↦ rfl, .length hk (by rw [lengthOf_space]) rfl⟩
  | other hk hhead hvalued =>
    obtain ⟨p', i', heq, hvalued'⟩ := valued_nextValue h' st ch hv hvalued
    exact ⟨h', p', i', heq, .other hk hhead hvalued'⟩

/-- What the values that are looked for come to. -/
theorem valued_endValue (h : Head) (st : State) (n : ℕ) {k : Option FieldName} (hv : v ≠ [])
    (hvalued : Valued (FieldName.values k) p i v) :
    (h.parser st p i n).endValue =
      (match said (FieldName.values k) v with
        | some x => h.add (.value x)
        | none => h).parser st p i n := by
  have hnone : (∀ y ∈ FieldName.values k, plainValue v ≠ y.bytes) →
      said (FieldName.values k) v = none := by
    intro hall
    rw [said, List.find?_eq_none]
    exact fun y hy ↦ by simpa using hall y hy
  cases hvalued with
  | matching x hx hstate hpre hlt hi =>
    rw [hnone fun y hy hplain ↦ ?_]
    · subst hstate
      cases x <;> rfl
    · obtain rfl := eq_of_begins hx hy hv (.inl hpre) (.inr hplain)
      have hle := length_plainValue_le v
      rw [hplain] at hle
      omega
  | matched x hx hstate hplain =>
    have hfind : said (FieldName.values k) v = some x := by
      rw [said]
      cases hf : (FieldName.values k).find? fun x : FieldValue ↦ plainValue v = x.bytes with
      | none => exact absurd hplain (by simpa using List.find?_eq_none.1 hf x hx)
      | some y =>
        have hy := List.find?_some hf
        rw [eq_of_begins hx (List.mem_of_find?_eq_some hf) hv (.inr hplain)
          (.inr (by simpa using hy))]
    rw [hfind]
    subst hstate
    cases x <;> rfl
  | other hstate hno =>
    subst hstate
    rw [hnone fun y hy hplain ↦ hno y hy (.inr hplain)]
    rfl

/-- **A whole value.** -/
theorem inValue_endValue {k : Option FieldName} {h' : Head} (hv : v ≠ [])
    (hin : InValue k h v h' p i) (hm : meaning k v ≠ .refused) :
    (h'.parser st p i n).endValue = (h.add (meaning k v)).parser st p i n := by
  unfold meaning at hm ⊢
  rw [if_neg hv] at hm ⊢
  cases hin with
  | length hk hhead hstate =>
    subst hk hhead hstate
    dsimp only at hm ⊢
    split_ifs at hm ⊢
    · rfl
    · exact absurd rfl hm
  | other hk hhead hvalued =>
    have hend := valued_endValue h' st n hv hvalued
    rw [hend, hhead]
    cases k with
    | none => rfl
    | some f =>
      cases f with
      | contentLength => exact absurd rfl hk
      | upgrade => rfl
      | connection | proxyConnection | transferEncoding =>
        rw [if_neg (by decide)]
        dsimp only
        cases said _ v <;> rfl

end Values

end JnetLib.Http
