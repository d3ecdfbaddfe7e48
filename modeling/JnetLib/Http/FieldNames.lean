import JnetLib.Http.Parser
import JnetLib.Http.Request

/-!
# The header names the parser looks at

While the name of a header goes by, `header_state` and `index` follow five names, letter by letter
and without regard to case. `Named` says what they stand for after each letter, with one lemma for
the first letter (`named_startField`), one for the next letter (`named_nextField`) and one for the
whole name (`Named.behind`).

The parser looks at one letter. A word goes on with it, is complete, or is ruled out
(`matchNext_cases`); and as the first letters tell the names from each other, no other name has to
be kept in mind.
-/

namespace JnetLib.Http

/-- The names the parser looks for. -/
inductive FieldName
  | connection
  | proxyConnection
  | contentLength
  | transferEncoding
  | upgrade
  deriving DecidableEq, Repr

namespace FieldName

/-- The name in lower case. -/
def bytes : FieldName → List Byte
  | connection => connectionName
  | proxyConnection => proxyConnectionName
  | contentLength => contentLengthName
  | transferEncoding => transferEncodingName
  | upgrade => upgradeName

/-- The state in which it is being matched. -/
def matching : FieldName → HeaderState
  | connection => .matchingConnection
  | proxyConnection => .matchingProxyConnection
  | contentLength => .matchingContentLength
  | transferEncoding => .matchingTransferEncoding
  | upgrade => .matchingUpgrade

/-- The state in which it has been matched. -/
def matched : FieldName → HeaderState
  | connection => .connection
  | proxyConnection => .connection
  | contentLength => .contentLength
  | transferEncoding => .transferEncoding
  | upgrade => .upgrade

/-- How many letters tell it from the others. -/
def fixed : FieldName → ℕ
  | connection => 4
  | proxyConnection => 1
  | contentLength => 4
  | transferEncoding => 1
  | upgrade => 1

/-- The name that is spelled `w`. -/
def find (w : List Byte) : Option FieldName :=
  if w = connection.bytes then some connection
  else if w = proxyConnection.bytes then some proxyConnection
  else if w = contentLength.bytes then some contentLength
  else if w = transferEncoding.bytes then some transferEncoding
  else if w = upgrade.bytes then some upgrade
  else none

theorem find_bytes (f : FieldName) : find f.bytes = some f := by
  cases f <;> decide

theorem find_eq_none {w : List Byte} (h : ∀ f : FieldName, w ≠ f.bytes) : find w = none := by
  rw [find, if_neg (h connection), if_neg (h proxyConnection), if_neg (h contentLength),
    if_neg (h transferEncoding), if_neg (h upgrade)]

/-- The first letters tell. -/
theorem eq_of_prefix {f g : FieldName} {w : List Byte} (hf : w <+: f.bytes) (hg : w <+: g.bytes)
    (hfixed : f.fixed ≤ w.length) : g = f := by
  have htake : f.bytes.take f.fixed <+: g.bytes := by
    obtain ⟨r, hr⟩ := hf
    rw [← hr, List.take_append_of_le_length hfixed]
    exact (List.take_prefix _ w).trans hg
  revert htake
  cases f <;> cases g <;> decide

end FieldName

/-- What `header_state` and `index` say of the letters `w` of a name, in lower case. -/
inductive Named (p : HeaderState) (i : ℕ) (w : List Byte) : Prop
  | c (hstate : p = .c) (hw : w = ascii ['c']) (hi : i = 0)
  | co (hstate : p = .co) (hw : w = ascii ['c', 'o']) (hi : i = 1)
  | con (hstate : p = .con) (hw : w = ascii ['c', 'o', 'n']) (hi : i = 2)
  | matching (f : FieldName) (hstate : p = f.matching) (hw : w <+: f.bytes)
      (hfixed : f.fixed ≤ w.length) (hlt : w.length < f.bytes.length) (hi : i + 1 = w.length)
  | matched (f : FieldName) (hstate : p = f.matched) (hw : w = f.bytes)
  | other (hstate : p = .general) (hw : ∀ f : FieldName, ¬w <+: f.bytes)

/-- What a parser has read of a message, apart from where it is. -/
structure Head where
  flags : Flags
  contentLength : ℕ
  httpMajor : ℕ
  httpMinor : ℕ
  method : Method

/-- The parser there. -/
def Head.parser (h : Head) (state : State) (headerState : HeaderState) (index nread : ℕ) : Parser :=
  ⟨h.flags, state, headerState, index, nread, h.contentLength, h.httpMajor, h.httpMinor, h.method,
    .ok, false⟩

section Names

variable {h : Head} {st : State} {p : HeaderState} {i n : ℕ} {w word : List Byte} {c ch : Byte}

/-- A word and what is left of it behind a beginning. -/
theorem concat_prefix_iff (hw : w <+: word) (c : Byte) (hc : c ≠ 0) :
    w ++ [c] <+: word ↔ c = charAt word w.length := by
  obtain ⟨r, rfl⟩ := hw
  rw [List.prefix_append_right_inj, charAt, List.getElem?_append_right (Nat.le_refl _),
    Nat.sub_self]
  cases r with
  | nil => exact ⟨fun h ↦ absurd h (by simp), fun h ↦ absurd h hc⟩
  | cons d r => simp

/-- A letter with which no name goes on. -/
theorem not_prefix_concat (hc : c ≠ 0)
    (hnext : ∀ f : FieldName, w <+: f.bytes → c ≠ charAt f.bytes w.length) (f : FieldName) :
    ¬w ++ [c] <+: f.bytes := by
  intro hf
  have hpre := (List.prefix_append w [c]).trans hf
  exact hnext f hpre ((concat_prefix_iff hpre c hc).1 hf)

/-- What becomes of a word that is being matched with the next letter: it is matched, it goes on, or
it is another one. -/
theorem matchNext_cases (h : Head) (st : State) (p : HeaderState) (matched : HeaderState)
    (hw : w <+: word) (hlt : w.length < word.length) (hi : i + 1 = w.length) (hc : c ≠ 0) :
    ∃ p' i', (∀ n, (h.parser st p i n).matchNext word matched c = h.parser st p' i' n) ∧
      (p' = matched ∧ w ++ [c] = word ∨
        p' = p ∧ w ++ [c] <+: word ∧ (w ++ [c]).length < word.length ∧
          i' + 1 = (w ++ [c]).length ∨
        p' = .general ∧ ¬w ++ [c] <+: word) := by
  have hconcat := concat_prefix_iff hw c hc
  have hlength : (w ++ [c]).length = w.length + 1 := by simp
  rw [← hi] at hconcat
  by_cases hne : c = charAt word (i + 1)
  · have hpre := hconcat.2 hne
    have hgo : ¬(word.length < i + 1 ∨ c ≠ charAt word (i + 1)) := by
      rw [not_or, not_not]
      exact ⟨by omega, hne⟩
    by_cases hlast : i + 1 = word.length - 1
    · refine ⟨matched, i + 1, fun n ↦ ?_, .inl ⟨rfl, hpre.eq_of_length (by omega)⟩⟩
      rw [Parser.matchNext]
      exact (if_neg hgo).trans (if_pos hlast)
    · refine ⟨p, i + 1, fun n ↦ ?_, .inr (.inl ⟨rfl, hpre, by omega, by omega⟩)⟩
      rw [Parser.matchNext]
      exact (if_neg hgo).trans (if_neg hlast)
  · refine ⟨.general, i + 1, fun n ↦ ?_, .inr (.inr ⟨rfl, fun hpre ↦ hne (hconcat.1 hpre)⟩)⟩
    rw [Parser.matchNext]
    exact if_pos (.inr hne)

/-- The first letter. -/
theorem named_startField (h : Head) (st : State) (p : HeaderState) (i : ℕ) (hc : c ≠ 0) :
    ∃ p', (∀ n, (h.parser st p i n).startField c = h.parser .headerField p' 0 n) ∧
      Named p' 0 [c] := by
  refine ⟨_, fun _ ↦ rfl, ?_⟩
  split_ifs with h₁ h₂ h₃ h₄
  · subst h₁
    exact .c rfl rfl rfl
  · subst h₂
    exact .matching .proxyConnection rfl (by decide) (by decide) (by decide) rfl
  · subst h₃
    exact .matching .transferEncoding rfl (by decide) (by decide) (by decide) rfl
  · subst h₄
    exact .matching .upgrade rfl (by decide) (by decide) (by decide) rfl
  · refine .other rfl fun f hf ↦ ?_
    cases f <;> obtain ⟨rfl, -⟩ := List.cons_prefix_cons.1 hf
    · exact h₁ rfl
    · exact h₂ rfl
    · exact h₁ rfl
    · exact h₃ rfl
    · exact h₄ rfl

/-- **`header_state` stands for the name** with its next letter. -/
theorem named_nextField (h : Head) (st : State) (hnamed : Named p i w) (hc : c ≠ 0)
    (hch : ch ≠ ' ') :
    ∃ p' i', (∀ n, (h.parser st p i n).nextField ch c = h.parser st p' i' n) ∧
      Named p' i' (w ++ [c]) := by
  cases hnamed with
  | c hstate hw hi =>
    subst hstate hw hi
    refine ⟨if c = 'o' then .co else .general, 1, fun _ ↦ rfl, ?_⟩
    split_ifs with ho
    · subst ho
      exact .co rfl rfl rfl
    · refine .other rfl (not_prefix_concat hc fun f hpre ↦ ?_)
      cases f with
      | connection | contentLength => exact ho
      | _ => exact absurd hpre (by decide)
  | co hstate hw hi =>
    subst hstate hw hi
    refine ⟨if c = 'n' then .con else .general, 2, fun _ ↦ rfl, ?_⟩
    split_ifs with hn
    · subst hn
      exact .con rfl rfl rfl
    · refine .other rfl (not_prefix_concat hc fun f hpre ↦ ?_)
      cases f with
      | connection | contentLength => exact hn
      | _ => exact absurd hpre (by decide)
  | con hstate hw hi =>
    subst hstate hw hi
    refine ⟨if c = 'n' then .matchingConnection else if c = 't' then .matchingContentLength
      else .general, 3, fun _ ↦ rfl, ?_⟩
    split_ifs with hn ht
    · subst hn
      exact .matching .connection rfl (by decide) (by decide) (by decide) rfl
    · subst ht
      exact .matching .contentLength rfl (by decide) (by decide) (by decide) rfl
    · refine .other rfl (not_prefix_concat hc fun f hpre ↦ ?_)
      cases f with
      | connection => exact hn
      | contentLength => exact ht
      | _ => exact absurd hpre (by decide)
  | matching f hstate hw hfixed hlt hi =>
    have hnext : ∀ n, (h.parser st p i n).nextField ch c =
        (h.parser st p i n).matchNext f.bytes f.matched c := by
      subst hstate
      cases f <;> exact fun _ ↦ rfl
    obtain ⟨p', i', heq, hcases⟩ := matchNext_cases h st p f.matched hw hlt hi hc
    refine ⟨p', i', fun n ↦ (hnext n).trans (heq n), ?_⟩
    rcases hcases with ⟨p', hw'⟩ | ⟨p', hw', hlt', hi'⟩ | ⟨p', hw'⟩
    · exact .matched f p' hw'
    · exact .matching f (p'.trans hstate) hw' (by simp; omega) hlt' hi'
    · refine .other p' fun g hg ↦ ?_
      obtain rfl := FieldName.eq_of_prefix hw ((List.prefix_append _ _).trans hg) hfixed
      exact hw' hg
  | matched f hstate hw =>
    subst hstate hw
    refine ⟨.general, i, fun n ↦ ?_, .other rfl fun g hg ↦ ?_⟩
    · cases f <;> exact if_pos hch
    · obtain rfl := FieldName.eq_of_prefix (List.prefix_refl _) ((List.prefix_append _ _).trans hg)
        (by cases f <;> decide)
      have := hg.length_le
      simp at this
  | other hstate hw =>
    subst hstate
    exact ⟨.general, i, fun _ ↦ rfl,
      .other rfl fun f hf ↦ hw f ((List.prefix_append _ _).trans hf)⟩

/-- A name has been matched. -/
def HeaderState.isMatched : HeaderState → Bool
  | .connection | .contentLength | .transferEncoding | .upgrade => true
  | _ => false

/-- The state behind a name. -/
def Behind (k : Option FieldName) (p : HeaderState) : Prop :=
  match k with
  | some f => p = f.matched
  | none => p.isMatched = false

/-- **A whole name.** -/
theorem Named.behind (hnamed : Named p i w) : Behind (FieldName.find w) p := by
  cases hnamed with
  | c hstate hw | co hstate hw | con hstate hw =>
    subst hstate hw
    rw [show FieldName.find _ = none from by decide]
    rfl
  | matching f hstate hw hfixed hlt hi =>
    rw [FieldName.find_eq_none fun g hg ↦ ?_]
    · subst hstate
      cases f <;> rfl
    · obtain rfl := FieldName.eq_of_prefix hw (g := g) (by rw [hg]) hfixed
      exact absurd (congrArg List.length hg) (Nat.ne_of_lt hlt)
  | matched f hstate hw =>
    subst hw
    rw [FieldName.find_bytes]
    exact hstate
  | other hstate hw =>
    subst hstate
    rw [FieldName.find_eq_none fun g hg ↦ hw g (hg ▸ List.prefix_refl _)]
    rfl

end Names

end JnetLib.Http
