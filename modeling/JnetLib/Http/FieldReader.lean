import JnetLib.Http.Delimiting

/-!
# The parser beside the reader, in a field

In front of a value the parser is `Awaiting` it and in the value it is `Following` it, and each says
what `header_state` and `content_length` stand for: `Valued` for the letters, `lengthOf` for the
digits. Behind the value the two agree on the field (`Awaiting.ended`, `Following.ended`).

Of a field that delimits the body and is continued on another line both say nothing, as the parser
may hold something else than what such a field says; it is not `Unmistakable`
(`not_unmistakable_of_folded`).
-/

namespace JnetLib.Http

/-- The field `f`, behind the fields `done`, before the first byte of its value. -/
inductive Awaiting (done : List Field) (f : Field) (q : Parser) : Prop
  | folded (hf : f.isFraming = true) (hfold : f.folded = true)
  | other (hf : f.isFraming = false) (hp : q.headerState.isFraming = false) (h : Agrees done q)
  | framing (hf : f.isFraming = true) (hcolon : f.colon = true) (hbare : f.bare = [])
      (hp : Awaits f.kind q.headerState) (h : Agrees done q)

/-- The field `f`, behind the fields `done`, inside its value. A length is stored digit by digit;
that a coding is `chunked` is stored at the end. -/
inductive Following (done : List Field) (f : Field) (q : Parser) : Prop
  | folded (hf : f.isFraming = true) (hfold : f.folded = true)
  | other (hf : f.isFraming = false) (hp : q.headerState.isFraming = false) (h : Agrees done q)
  | length (hk : f.kind = some .contentLength) (hcolon : f.colon = true) (hbare : f.bare ≠ [])
      (hp : q.headerState = .contentLength) (hdigits : ∀ c ∈ f.bare, isNum c = true ∨ c = ' ')
      (hlength : q.contentLength = toUInt64 (lengthOf f.bare)) (n : ℕ)
      (h : Agrees done { q with contentLength := n })
  | coding (hk : f.kind = some .transferEncoding) (hcolon : f.colon = true) (hbare : f.bare ≠ [])
      (hvalued : Valued [.chunked] q.headerState q.index f.bare) (h : Agrees done q)

section Follow

variable {done : List Field} {f : Field} {q q' : Parser} {ch : Byte}

theorem not_unmistakable_of_folded (hf : f.isFraming = true) (hfold : f.folded = true) :
    ¬f.Unmistakable :=
  fun h ↦ absurd (hfold.symm.trans (h.folded hf)) nofun

/-- The parser behind the colon of a name. -/
theorem Named.awaiting {w : List Byte} (h : Named q.headerState q.index (w.map token))
    (hagrees : Agrees done q) (hq : q'.SameBody q) (hp : q'.headerState = q.headerState) :
    Awaiting done ⟨w, true, [], false⟩ q' := by
  have hawaits : Awaits (Field.kind ⟨w, true, [], false⟩) q'.headerState := hp ▸ h.awaits
  cases hf : Field.isFraming ⟨w, true, [], false⟩ with
  | true => exact .framing hf rfl rfl hawaits (hagrees.congr hq)
  | false =>
    refine .other hf ?_ (hagrees.congr hq)
    rw [Field.isFraming, Bool.or_eq_false_iff, beq_eq_false_iff_ne, beq_eq_false_iff_ne] at hf
    revert hawaits
    generalize Field.kind ⟨w, true, [], false⟩ = k at hf
    intro hawaits
    cases k with
    | none => exact hawaits
    | some k =>
      cases k with
      | contentLength => exact absurd rfl hf.1
      | transferEncoding => exact absurd rfl hf.2
      | connection | proxyConnection | upgrade => exact hawaits

/-- A blank in front of the value. -/
theorem Awaiting.blank (h : Awaiting done f q) (hch : isBlank ch = true) :
    Awaiting done { f with value := f.value ++ [ch] } q := by
  cases h with
  | folded hf hfold => exact .folded hf hfold
  | other hf hp h => exact .other hf hp h
  | framing hf hcolon hbare hp h => exact .framing hf hcolon (Field.bare_blank hch hbare) hp h

/-- A line without a value. -/
theorem Awaiting.ended (h : Awaiting done f q) (hq : q'.SameBody q) : Agrees (done ++ [f]) q' := by
  cases h with
  | folded hf hfold => exact agrees_of_not_unmistakable (not_unmistakable_of_folded hf hfold)
  | other hf hp h =>
    exact h.concat_silent (Field.length_of_not_framing hf) (Field.chunked_of_not_framing hf) hq
  | framing hf hcolon hbare hp h =>
    rcases Field.kind_of_framing hf with hk | hk
    · refine agrees_of_not_unmistakable fun hplain ↦ ?_
      obtain ⟨n, hn, -⟩ := hplain.length hcolon hk
      rw [number_of_blank hbare] at hn
      cases hn
    · have hlength : f.length = none := if_neg fun hc ↦ by
        rw [hk] at hc
        exact absurd hc.2 nofun
      refine .concat (q := q) (fun _ ↦ ?_) (fun n hn ↦ ?_) fun _ ↦ ?_
      · rw [if_pos hlength, hq.length]
        exact h
      · rw [hlength] at hn
        cases hn
      · rw [Field.chunked, if_pos ⟨hcolon, hk⟩, lastCoding_of_blank hbare, hq.chunked]
        exact (Bool.or_false _).symm

/-- The first byte of the value. -/
theorem Awaiting.start (h : Awaiting done f q) (hok : q.httpErrno = .ok) (hup : q.upgrade = false)
    (hindex : q.index = 0) (hch : isBlank ch = false) (hq : q.startValue ch (lower ch) = .ok q') :
    Following done { f with value := f.value ++ [ch] } q' := by
  cases h with
  | folded hf hfold => exact .folded hf hfold
  | other hf hp h =>
    obtain ⟨hp', hsame⟩ := sameBody_startValue hp hq
    exact .other hf hp' (h.congr hsame)
  | framing hf hcolon hbare hp h =>
    have hfirst := Field.bare_first hch hbare
    have hne : Field.bare { f with value := f.value ++ [ch] } ≠ [] := by
      rw [hfirst]
      exact List.cons_ne_nil _ _
    have hbehind : Behind f.kind q.headerState := by
      rcases Field.kind_of_framing hf with hk | hk <;>
      · rw [hk] at hp ⊢
        exact hp
    have hnum : f.kind = some .contentLength → isNum ch = true := fun hk ↦ by
      rw [hk] at hp
      have hp : q.headerState = .contentLength := hp
      rw [Parser.startValue, hp] at hq
      by_contra hno
      rw [if_neg hno] at hq
      cases hq
    obtain ⟨h', p', heq, hin⟩ := inValue_startValue q.head q.state hbehind hnum
    have hq' := heq q.nread
    rw [← hindex, Parser.head_parser hok hup, hq] at hq'
    obtain rfl := Except.ok.inj hq'
    cases hin with
    | length hk hhead hstate =>
      subst hhead
      refine .length hk hcolon hne hstate ?_ ?_ q.contentLength h
      · rw [hfirst]
        exact fun c hc ↦ .inl (List.mem_singleton.1 hc ▸ hnum hk)
      · rw [hfirst]
        have hdigit : lengthOf [ch] = digit ch :=
          (lengthOf_concat (ne_space_of_isNum (hnum hk)) []).trans (Nat.zero_add _)
        have hlt : digit ch < 256 := UInt8.toNat_lt _
        refine (Nat.mod_eq_of_lt ?_).symm
        show lengthOf [ch] < 2 ^ 64
        omega
    | other hk hhead hvalued =>
      have hk' := (Field.kind_of_framing hf).resolve_left hk
      rw [hk'] at hvalued hhead
      rw [if_neg (by decide)] at hhead
      subst hhead
      refine .coding hk' hcolon hne ?_ h
      rw [hfirst]
      show Valued _ p' q.index [ch]
      rw [hindex]
      exact hvalued

/-- A byte more of the value. -/
theorem Following.next (h : Following done f q) (hok : q.httpErrno = .ok) (hup : q.upgrade = false)
    (hq : q.nextValue ch (lower ch) = .ok q') :
    Following done { f with value := f.value ++ [ch] } q' := by
  cases h with
  | folded hf hfold => exact .folded hf hfold
  | other hf hp h =>
    obtain ⟨hp', hsame⟩ := sameBody_nextValue hp hq
    exact .other hf hp' (h.congr hsame)
  | length hk hcolon hbare hp hdigits hlength n h =>
    have hconcat := Field.bare_concat hbare ch
    have hne : Field.bare { f with value := f.value ++ [ch] } ≠ [] := by
      rw [hconcat]
      exact List.append_ne_nil_of_left_ne_nil hbare _
    have hall : (isNum ch = true ∨ ch = ' ') → ∀ c ∈ f.bare ++ [ch], isNum c = true ∨ c = ' ' :=
      fun hch c hc ↦ by
        rcases List.mem_append.1 hc with hc | hc
        · exact hdigits c hc
        · rw [List.mem_singleton.1 hc]
          exact hch
    rw [Parser.nextValue, hp] at hq
    dsimp only at hq
    by_cases hspace : ch = ' '
    · rw [if_pos hspace] at hq
      obtain rfl := Except.ok.inj hq
      refine .length hk hcolon hne hp (hconcat ▸ hall (.inr hspace)) ?_ n h
      rw [hconcat, hspace, lengthOf_space]
      exact hlength
    · rw [if_neg hspace] at hq
      split at hq
      · next hnum =>
        have hlen := contentLength_nextDigit hq
        obtain ⟨q'', hq'', hn⟩ : ∃ m, q' = { q with contentLength := m } ∧
            Agrees done { q' with contentLength := n } := by
          rw [Parser.nextDigit] at hq
          split at hq <;> cases hq
          exact ⟨_, rfl, h⟩
        refine .length hk hcolon hne (by rw [hq'']; exact hp) (hconcat ▸ hall (.inl hnum)) ?_ n hn
        rw [hconcat, lengthOf_concat hspace, hlen, hlength]
        simp only [toUInt64, digit]
        omega
      · cases hq
  | coding hk hcolon hbare hvalued h =>
    have hconcat := Field.bare_concat hbare ch
    have hne : Field.bare { f with value := f.value ++ [ch] } ≠ [] := by
      rw [hconcat]
      exact List.append_ne_nil_of_left_ne_nil hbare _
    obtain ⟨p', i', heq, hvalued'⟩ :=
      valued_nextValue q.head q.state ch (k := some .transferEncoding) hbare hvalued
    have hq' := heq q.nread
    rw [Parser.head_parser hok hup, hq] at hq'
    obtain rfl := Except.ok.inj hq'
    exact .coding hk hcolon hne (hconcat ▸ hvalued') h

/-- **The end of the value.** -/
theorem Following.ended (h : Following done f q) (hok : q.httpErrno = .ok)
    (hup : q.upgrade = false) (s : State) :
    Agrees (done ++ [f]) { q with state := s }.endValue := by
  cases h with
  | folded hf hfold => exact agrees_of_not_unmistakable (not_unmistakable_of_folded hf hfold)
  | other hf hp h =>
    have hsame := sameBody_endValue (q := { q with state := s }) (ne_chunked_of_not_framing hp)
    exact h.concat_silent (Field.length_of_not_framing hf) (Field.chunked_of_not_framing hf)
      ⟨hsame.length, hsame.chunked⟩
  | length hk hcolon hbare hp hdigits hlength n h =>
    have hsame := sameBody_endValue (q := { q with state := s }) (by rw [hp]; exact nofun)
    have hchunked : f.chunked = none := if_neg fun hc ↦ by
      rw [hk] at hc
      exact absurd hc.2 nofun
    have hnumber : f.length = number f.value := if_pos ⟨hcolon, hk⟩
    intro hplain
    have hf := hplain f (List.mem_append_right _ List.mem_cons_self)
    obtain ⟨-, hany⟩ := h fun g hg ↦ hplain g (List.mem_append_left _ hg)
    obtain ⟨m, hm, hlt⟩ := hf.length hcolon hk
    have hm : number f.value = some m := hm
    have hbound : ULLONG_MAX < 2 ^ 64 := by decide
    rw [List.filterMap_append, List.filterMap_append, List.any_append, hsame.length, hsame.chunked,
      show List.filterMap Field.length [f] = [m] by simp [hnumber, hm],
      show List.filterMap Field.chunked [f] = [] by simp [hchunked], List.getLast?_concat]
    refine ⟨?_, ?_⟩
    · show q.contentLength = m
      rw [hlength, show lengthOf f.bare = m from lengthOf_of_number hdigits hm]
      exact Nat.mod_eq_of_lt (Nat.lt_trans hlt hbound)
    · exact hany.trans (Bool.or_false _).symm
  | coding hk hcolon hbare hvalued h =>
    have hend := valued_endValue (n := q.nread) q.head s (k := some .transferEncoding) hbare hvalued
    have hq : ({ q with state := s } : Parser) =
        q.head.parser s q.headerState q.index q.nread := by
      conv_lhs => rw [← Parser.head_parser hok hup]
      rfl
    rw [← hq] at hend
    have hlength : f.length = none := if_neg fun hc ↦ by
      rw [hk] at hc
      exact absurd hc.2 nofun
    have hchunked : f.chunked = some (lastCoding f.value == chunkedValue) := if_pos ⟨hcolon, hk⟩
    have hsaid : said (FieldName.values (some .transferEncoding)) f.bare =
        if plainValue f.bare = chunkedValue then some .chunked else none := by
      rw [said, FieldName.values, List.find?_singleton]
      exact if_congr decide_eq_true_iff rfl rfl
    rw [hsaid] at hend
    refine .concat (q := q) (fun _ ↦ ?_) (fun n hn ↦ ?_) fun hf ↦ ?_
    · rw [if_pos hlength, hend]
      by_cases hword : plainValue f.bare = chunkedValue
      · rw [if_pos hword]
        exact h
      · rw [if_neg hword]
        exact h
    · rw [hlength] at hn
      cases hn
    · rw [hchunked, hend, Option.getD_some]
      by_cases hword : plainValue f.bare = chunkedValue
      · rw [if_pos hword, lastCoding_of_plainValue hword, beq_self_eq_true, Bool.or_true]
        rfl
      · have hother : lastCoding f.value ≠ chunkedValue := mt (hf.coding hcolon hk) hword
        rw [if_neg hword, beq_eq_false_iff_ne.2 hother, Bool.or_false]
        rfl

end Follow

end JnetLib.Http
