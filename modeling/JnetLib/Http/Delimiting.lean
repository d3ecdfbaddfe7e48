import JnetLib.Http.Delimiter
import JnetLib.Http.HeaderSection

/-!
# Fields that delimit a body

What the proofs about the reader of a header section and the parser share. The `header_state`s of a
field that delimits the body are those of `HeaderState.isFraming`, and outside of these a byte
leaves alone what the parser holds of the body (`Parser.SameBody`). A byte adds to the text of a
field (`Field.put_value`, `Field.put_name`), a field adds to what the section says
(`Agrees.concat`), and the values that count are read as the parser reads them: digits up to a blank
(`lengthOf_of_number`) and the last coding of a list (`lastCoding_of_plainValue`).
-/

namespace JnetLib.Http

/-! ### Header states -/

/-- The states of a field that delimits the body. -/
def HeaderState.isFraming : HeaderState → Bool
  | .contentLength | .transferEncoding | .matchingTransferEncodingChunked
  | .transferEncodingChunked => true
  | _ => false

/-- The state behind the name `k`. -/
def Awaits (k : Option FieldName) (p : HeaderState) : Prop :=
  match k with
  | some .contentLength => p = .contentLength
  | some .transferEncoding => p = .transferEncoding
  | _ => p.isFraming = false

/-- The two parsers hold the same of the body. -/
structure Parser.SameBody (q' q : Parser) : Prop where
  length : q'.contentLength = q.contentLength
  chunked : q'.flags.chunked = q.flags.chunked

/-- What has been read of the header section before this field. -/
def Parser.head (q : Parser) : Head :=
  ⟨q.flags, q.contentLength, q.httpMajor, q.httpMinor, q.method⟩

theorem Parser.head_parser {q : Parser} (hok : q.httpErrno = .ok) (hup : q.upgrade = false) :
    q.head.parser q.state q.headerState q.index q.nread = q := by
  obtain ⟨flags, state, headerState, index, nread, contentLength, httpMajor, httpMinor, method,
    httpErrno, upgrade⟩ := q
  obtain rfl : httpErrno = .ok := hok
  obtain rfl : upgrade = false := hup
  rfl

theorem Named.awaits {p : HeaderState} {i : ℕ} {w : List Byte} (h : Named p i w) :
    Awaits (FieldName.find w) p := by
  cases h with
  | c hstate hw | co hstate hw | con hstate hw =>
    subst hstate hw
    rw [show FieldName.find _ = none from by decide]
    rfl
  | matching f hstate hw hfixed hlt hi =>
    rw [FieldName.find_eq_none fun g hg ↦ ?_]
    · subst hstate
      cases f <;> rfl
    · obtain rfl := FieldName.eq_of_prefix hw (g := g) (by rw [hg]) hfixed
      exact absurd (congrArg List.length hg) (Nat.ne_of_lt hlt)
  | matched f hstate hw =>
    subst hw hstate
    rw [FieldName.find_bytes]
    cases f <;> rfl
  | other hstate hw =>
    subst hstate
    rw [FieldName.find_eq_none fun g hg ↦ hw g (hg ▸ List.prefix_refl _)]
    rfl

/-- No value has been matched while a name is read. -/
theorem Named.ne_chunked {p : HeaderState} {i : ℕ} {w : List Byte} (h : Named p i w) :
    p ≠ .transferEncodingChunked := by
  cases h with
  | c hstate | co hstate | con hstate | other hstate => rw [hstate]; exact nofun
  | matching f hstate | matched f hstate => rw [hstate]; cases f <;> exact nofun

section States

variable {q q' : Parser} {ch c : Byte}

/-- A value of another field says nothing of the body. -/
theorem sameBody_startValue (hp : q.headerState.isFraming = false)
    (h : q.startValue ch c = .ok q') :
    q'.headerState.isFraming = false ∧ q'.SameBody q := by
  rw [Parser.startValue] at h
  cases hs : q.headerState <;> rw [hs] at h hp <;> first
    | exact absurd hp (by decide)
    | cases h
      refine ⟨?_, ⟨rfl, rfl⟩⟩
      first
        | rfl
        | dsimp only; split_ifs <;> rfl

theorem sameBody_matchNext (word : List Byte) {matched : HeaderState}
    (hm : matched.isFraming = false) (hp : q.headerState.isFraming = false) :
    (q.matchNext word matched c).headerState.isFraming = false ∧
      (q.matchNext word matched c).SameBody q := by
  rw [Parser.matchNext]
  dsimp only
  split_ifs
  · exact ⟨rfl, rfl, rfl⟩
  · exact ⟨hm, rfl, rfl⟩
  · exact ⟨hp, rfl, rfl⟩

theorem sameBody_nextValue (hp : q.headerState.isFraming = false)
    (h : q.nextValue ch c = .ok q') :
    q'.headerState.isFraming = false ∧ q'.SameBody q := by
  rw [Parser.nextValue] at h
  cases hs : q.headerState <;> rw [hs] at h <;> first
    | (rw [hs] at hp; exact absurd hp (by decide))
    | (cases h; first
        | exact ⟨hp, rfl, rfl⟩
        | exact ⟨rfl, rfl, rfl⟩
        | exact sameBody_matchNext _ rfl hp
        | split_ifs <;> first | exact ⟨rfl, rfl, rfl⟩ | exact ⟨hp, rfl, rfl⟩)

theorem sameBody_endValue (hp : q.headerState ≠ .transferEncodingChunked) :
    q.endValue.SameBody q := by
  rw [Parser.endValue]
  split <;> first | exact ⟨rfl, rfl⟩ | (next h => exact absurd h hp)

theorem headerState_endValue (q : Parser) : q.endValue.headerState = q.headerState := by
  rw [Parser.endValue]
  split <;> rfl

theorem ne_chunked_of_not_framing {p : HeaderState} (h : p.isFraming = false) :
    p ≠ .transferEncodingChunked := by
  rintro rfl
  cases h

theorem contentLength_nextDigit {base d : ℕ} (h : q.nextDigit base d = .ok q') :
    q'.contentLength = toUInt64 (toUInt64 (q.contentLength * base) + d) := by
  rw [Parser.nextDigit] at h
  split at h <;> cases h
  rfl

end States

/-! ### A field more -/

namespace Field

/-- The value without the blanks in front. -/
def bare (f : Field) : List Byte := f.value.dropWhile isBlank

variable {f : Field} {b : Byte}

theorem length_of_not_framing (hf : f.isFraming = false) : f.length = none := by
  rw [length, if_neg]
  rintro ⟨-, hkind⟩
  rw [isFraming, hkind] at hf
  cases hf

theorem chunked_of_not_framing (hf : f.isFraming = false) : f.chunked = none := by
  rw [chunked, if_neg]
  rintro ⟨-, hkind⟩
  rw [isFraming, hkind] at hf
  cases hf

/-- A field that does not delimit the body is plain. -/
theorem unmistakable_of_not_framing (hf : f.isFraming = false) : f.Unmistakable where
  folded h := by
    rw [hf] at h
    cases h
  length _ hkind := by
    rw [isFraming, hkind] at hf
    cases hf
  coding _ hkind := by
    rw [isFraming, hkind] at hf
    cases hf

/-- A line without a colon says nothing. -/
theorem length_of_bare_line (h : f.colon = false) : f.length = none :=
  if_neg fun hc ↦ absurd (hc.1.symm.trans h) nofun

theorem chunked_of_bare_line (h : f.colon = false) : f.chunked = none :=
  if_neg fun hc ↦ absurd (hc.1.symm.trans h) nofun

theorem kind_of_framing (hf : f.isFraming = true) :
    f.kind = some .contentLength ∨ f.kind = some .transferEncoding := by
  rw [isFraming, Bool.or_eq_true, beq_iff_eq, beq_iff_eq] at hf
  exact hf

theorem put_CR (f : Field) : f.put CR = f :=
  if_pos rfl

/-- A byte of a value. -/
theorem put_value (hput : f.colon = true ∨ f.folded = true) (hb : b ≠ CR) :
    f.put b = { f with value := f.value ++ [b] } :=
  (if_neg hb).trans (if_pos hput)

/-- A byte of a name. -/
theorem put_name {w : List Byte} (hcr : b ≠ CR) (hcolon : b ≠ ':') :
    put ⟨w, false, [], false⟩ b = ⟨w ++ [b], false, [], false⟩ :=
  (if_neg hcr).trans ((if_neg (not_or.2 ⟨nofun, nofun⟩)).trans (if_neg hcolon))

/-- A blank in front of a value. -/
theorem bare_blank (hb : isBlank b = true) (hf : f.bare = []) :
    bare { f with value := f.value ++ [b] } = [] := by
  rw [bare, List.dropWhile_eq_nil_iff] at hf ⊢
  intro c hc
  rcases List.mem_append.1 hc with hc | hc
  · exact hf c hc
  · rw [List.mem_singleton.1 hc]
    exact hb

/-- The first byte of a value. -/
theorem bare_first (hb : isBlank b = false) (hf : f.bare = []) :
    bare { f with value := f.value ++ [b] } = [b] := by
  rw [bare, List.dropWhile_eq_nil_iff] at hf
  rw [bare, List.dropWhile_append_of_pos hf, List.dropWhile_cons_of_neg (by rw [hb]; decide)]

/-- A byte of a value behind its first one. -/
theorem bare_concat (hf : f.bare ≠ []) (b : Byte) :
    bare { f with value := f.value ++ [b] } = f.bare ++ [b] := by
  rw [bare, List.dropWhile_append, if_neg]
  · rfl
  · rw [List.isEmpty_iff]
    exact hf

end Field

section Agrees

variable {fs done : List Field} {f : Field} {q q' : Parser}

theorem Agrees.congr (h : Agrees fs q) (hq : q'.SameBody q) : Agrees fs q' := by
  rw [Agrees, hq.length, hq.chunked]
  exact h

/-- Nothing is said of a section with a field that can be mistaken. -/
theorem agrees_of_not_unmistakable (hf : ¬f.Unmistakable) : Agrees (done ++ [f]) q :=
  fun h ↦ absurd (h f (List.mem_append_right _ List.mem_cons_self)) hf

/-- What has to be said of one field more. -/
theorem Agrees.concat (hlength : f.Unmistakable → Agrees done { q with contentLength :=
    if f.length = none then q'.contentLength else q.contentLength })
    (hnumber : ∀ n ∈ f.length, f.Unmistakable → q'.contentLength = n)
    (hchunked : f.Unmistakable → q'.flags.chunked = (q.flags.chunked || f.chunked.getD false)) :
    Agrees (done ++ [f]) q' := by
  intro hplain
  have hf := hplain f (List.mem_append_right _ List.mem_cons_self)
  obtain ⟨hlast, hany⟩ := hlength hf fun g hg ↦ hplain g (List.mem_append_left _ hg)
  refine ⟨?_, ?_⟩
  · rw [List.filterMap_append]
    cases hn : f.length with
    | none =>
      rw [show List.filterMap Field.length [f] = [] by simp [hn], List.append_nil, ← hlast,
        if_pos hn]
    | some n =>
      rw [show List.filterMap Field.length [f] = [n] by simp [hn], List.getLast?_concat]
      exact hnumber n hn hf
  · rw [hchunked hf, List.filterMap_append, List.any_append, ← hany]
    cases hc : f.chunked with
    | none => simp [hc]
    | some a => simp [hc]

/-- A field that says nothing. -/
theorem Agrees.concat_silent (h : Agrees done q) (hlength : f.length = none)
    (hchunked : f.chunked = none) (hq : q'.SameBody q) : Agrees (done ++ [f]) q' := by
  refine .concat (q := q) (fun _ ↦ ?_) (fun n hn ↦ ?_) fun _ ↦ ?_
  · rw [if_pos hlength, hq.length]
    exact h
  · rw [hlength] at hn
    cases hn
  · rw [hchunked, hq.chunked]
    exact (Bool.or_false _).symm

/-- What the parser holds behind a field that does not delimit the body it held in front of it. -/
theorem Agrees.of_concat (hf : f.isFraming = false) (h : Agrees (done ++ [f]) q) :
    Agrees done q := by
  intro hplain
  have hall : ∀ g ∈ done ++ [f], g.Unmistakable := fun g hg ↦ by
    rcases List.mem_append.1 hg with hg | hg
    · exact hplain g hg
    · rw [List.mem_singleton.1 hg]
      exact Field.unmistakable_of_not_framing hf
  have hsilent : ∀ {α : Type} {k : Field → Option α}, k f = none →
      (done ++ [f]).filterMap k = done.filterMap k := fun hk ↦ by
    rw [List.filterMap_append, List.filterMap_cons_none hk, List.filterMap_nil, List.append_nil]
  obtain ⟨hlast, hany⟩ := h hall
  rw [hsilent (Field.length_of_not_framing hf)] at hlast
  rw [hsilent (Field.chunked_of_not_framing hf)] at hany
  exact ⟨hlast, hany⟩

end Agrees

/-! ### Numbers and codings -/

section Values

variable {v : List Byte} {n : ℕ}

theorem isBlank_iff {b : Byte} : isBlank b = true ↔ b = ' ' ∨ b = 9 := by
  rw [isBlank, Bool.or_eq_true, beq_iff_eq, beq_iff_eq]

theorem isBlank_of_isNum {b : Byte} (h : isNum b = true) : isBlank b = false := by
  rw [Bool.eq_false_iff, Ne, isBlank_iff]
  rintro (rfl | rfl) <;> exact absurd h (by decide)

/-- Digits and the spaces behind them. -/
theorem filter_of_digits (hv : ∀ c ∈ v, isNum c = true ∨ c = ' ')
    (ht : ∀ c ∈ v.rdropWhile isBlank, isNum c = true) :
    v.filter (· ≠ (' ' : Byte)) = v.rdropWhile isBlank := by
  induction v using List.reverseRecOn with
  | nil => rfl
  | append_singleton v c ih =>
    by_cases hc : isBlank c = true
    · rw [List.rdropWhile_concat_pos _ _ _ hc] at ht ⊢
      have hspace : c = ' ' := (hv c (List.mem_append_right _ List.mem_cons_self)).resolve_left
        fun hnum ↦ by
          rw [isBlank_of_isNum hnum] at hc
          cases hc
      rw [List.filter_append, ih (fun d hd ↦ hv d (List.mem_append_left _ hd)) ht, hspace]
      exact List.append_nil _
    · rw [List.rdropWhile_concat_neg _ _ _ hc] at ht ⊢
      exact List.filter_eq_self.2 fun d hd ↦ decide_eq_true (ne_space_of_isNum (ht d hd))

/-- **The number of a `Content-Length`** is what the digits come to one after the other. -/
theorem lengthOf_of_number {w : List Byte}
    (hv : ∀ c ∈ w.dropWhile isBlank, isNum c = true ∨ c = ' ')
    (hn : number w = some n) : lengthOf (w.dropWhile isBlank) = n := by
  rw [number] at hn
  obtain ⟨⟨-, hall⟩, hn⟩ := Option.ite_none_right_eq_some.1 hn
  rw [lengthOf, filter_of_digits hv (List.all_eq_true.1 hall)]
  exact Option.some.inj hn

/-- Blanks are no number. -/
theorem number_of_blank (h : v.dropWhile isBlank = []) : number v = none := by
  rw [number, trim, h]
  rfl

theorem lastCoding_of_blank (h : v.dropWhile isBlank = []) : lastCoding v = [] := by
  have hblank := List.dropWhile_eq_nil_iff.1 h
  have htrim : trim (v.rtakeWhile (· ≠ (',' : Byte))) = [] := by
    have hnil : (v.rtakeWhile (· ≠ (',' : Byte))).dropWhile isBlank = [] :=
      List.dropWhile_eq_nil_iff.2 fun c hc ↦
        hblank c ((List.rtakeWhile_suffix (· ≠ (',' : Byte)) v).subset hc)
    rw [trim, hnil]
    rfl
  rw [lastCoding, htrim]
  rfl

/-- Blanks behind spaces are blanks. -/
theorem rdropWhile_isBlank (v : List Byte) :
    (v.rdropWhile (· = (' ' : Byte))).rdropWhile isBlank = v.rdropWhile isBlank := by
  induction v using List.reverseRecOn with
  | nil => rfl
  | append_singleton v c ih =>
    by_cases hc : c = ' '
    · have hblank : isBlank c = true := isBlank_iff.2 (.inl hc)
      rw [List.rdropWhile_concat_pos _ _ _ (by simpa using hc), ih,
        List.rdropWhile_concat_pos _ _ _ hblank]
    · rw [List.rdropWhile_concat_neg _ _ _ (by simpa using hc)]

/-- A value that is `chunked` and nothing else ends with it. -/
theorem lastCoding_of_plainValue (h : plainValue (v.dropWhile isBlank) = chunkedValue) :
    lastCoding v = chunkedValue := by
  set t := (v.dropWhile isBlank).rdropWhile (· = (' ' : Byte)) with ht
  have hword : t.map lower = chunkedValue := h
  have hletter : ∀ c ∈ t, lower c ∈ chunkedValue := fun c hc ↦ hword ▸ List.mem_map_of_mem hc
  -- no byte of the word is a blank, and none in the value a comma
  have hblank : ∀ c ∈ t, ¬isBlank c = true := fun c hc hb ↦ by
    have hmem := hletter c hc
    rcases isBlank_iff.1 hb with rfl | rfl <;> exact absurd hmem (by decide)
  have hcomma : ∀ c ∈ v, decide (c ≠ (',' : Byte)) = true := fun c hc ↦ by
    rw [decide_eq_true_iff]
    rintro rfl
    rw [← List.takeWhile_append_dropWhile (p := isBlank) (l := v)] at hc
    rcases List.mem_append.1 hc with hc | hc
    · exact absurd (List.mem_takeWhile_imp hc) (by decide)
    · rw [← List.rdropWhile_append_rtakeWhile (p := (· = (' ' : Byte))) (l := v.dropWhile isBlank)]
        at hc
      rcases List.mem_append.1 hc with hc | hc
      · exact absurd (hletter _ hc) (by decide)
      · exact absurd (List.mem_rtakeWhile_imp hc) (by decide)
  have htrim : trim v = t := by
    rw [trim, ← rdropWhile_isBlank]
    exact List.rdropWhile_eq_self_iff.2 fun hne ↦ hblank _ (List.getLast_mem hne)
  rw [lastCoding, List.rtakeWhile_eq_self_iff.2 hcomma, htrim, hword]

end Values

end JnetLib.Http
