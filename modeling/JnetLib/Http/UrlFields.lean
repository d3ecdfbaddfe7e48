import JnetLib.Foundation.Block
import JnetLib.Foundation.Numeral
import JnetLib.Http.Url

/-!
# The fields of a URL

`http_parser_parse_url` runs `parse_url_char` over a URL and notes, for each field, where the state
of the field comes up first and how often the loop finds itself in it. The states have an order in
which the automaton never goes back, so these two numbers are the place of the field.

`fields_of_accepted` says so for every URL that is accepted: a character is in a field if and only
if the automaton is in its state behind the character, the fields do not overlap, and the port is
the number its digits make.

* The states of a URL have a rank, and a character never leads to a lower one
  (`rank_le_parseUrlChar`). So the states behind the characters are sorted, and each field is a
  block of `Block`: it begins where its state comes up first, and is as long as its state is
  counted. `recorded_loop` carries this along the loop of `http_parser_parse_url`.
* The port is what `strtoul` reads at its field, and that is the number its digits make
  (`Recorded.strtoul_port`), as no digit stands behind them.
-/

namespace JnetLib.Http

variable {b : Bool} {s : State} {ch : Byte} {f : UrlField} {uri : List Byte}

/-! ### The states of a URL -/

/-- Where `parse_url_char` is behind the characters `u`. -/
def urlState (isConnect : Bool) (st : State) (u : List Byte) : State :=
  u.foldl (fun st ch ↦ parseUrlChar st ch isConnect) st

theorem urlState_dead (b : Bool) (u : List Byte) : urlState b .dead u = .dead := by
  induction u with
  | nil => rfl
  | cons _ _ ih => exact ih

/-- The state behind each character. -/
def urlStates (isConnect : Bool) : State → List Byte → List State
  | _, [] => []
  | s, ch :: l =>
    parseUrlChar s ch isConnect :: urlStates isConnect (parseUrlChar s ch isConnect) l

@[simp]
theorem length_urlStates (b : Bool) (s : State) (l : List Byte) :
    (urlStates b s l).length = l.length := by
  induction l generalizing s with
  | nil => rfl
  | cons ch l ih => rw [urlStates, List.length_cons, ih, List.length_cons]

theorem urlStates_append (b : Bool) (s : State) (l m : List Byte) :
    urlStates b s (l ++ m) = urlStates b s l ++ urlStates b (urlState b s l) m := by
  induction l generalizing s with
  | nil => rfl
  | cons ch l ih => exact congrArg (_ :: ·) (ih _)

theorem getElem?_urlStates (b : Bool) (s : State) {l : List Byte} {p : ℕ} (hp : p < l.length) :
    (urlStates b s l)[p]? = some (urlState b s (l.take (p + 1))) := by
  induction l generalizing s p with
  | nil => exact absurd hp (Nat.not_lt_zero p)
  | cons ch l ih =>
    cases p with
    | zero => rfl
    | succ p => exact ih _ (Nat.lt_of_succ_lt_succ hp)

/-- The state behind one more character of a URL. -/
theorem urlState_take_succ (b : Bool) (s : State) {l : List Byte} {p : ℕ} (hp : l[p]? = some ch) :
    urlState b s (l.take (p + 1)) = parseUrlChar (urlState b s (l.take p)) ch b := by
  rw [List.take_add_one, hp, urlState, List.foldl_append]
  rfl

/-! ### Their order -/

/-- The order in which the states of a URL come up. -/
def State.rank : State → ℕ
  | .reqSpacesBeforeUrl => 0
  | .reqSchema => 1
  | .reqSchemaSlash | .reqSchemaSlashSlash | .reqSchemaSlashSlashEnd => 2
  | .reqHost => 3
  | .reqPortStart => 4
  | .reqPort => 5
  | .reqPath => 6
  | .reqQueryStringStart => 7
  | .reqQueryString => 8
  | .reqFragmentStart => 9
  | .reqFragment => 10
  | _ => 11

/-- The state of a field. -/
def UrlField.state : UrlField → State
  | .schema => .reqSchema
  | .host => .reqHost
  | .port => .reqPort
  | .path => .reqPath
  | .query => .reqQueryString
  | .fragment => .reqFragment

/-- The place of a field among the states. -/
def UrlField.rank (f : UrlField) : ℕ := f.state.rank

theorem urlPart_eq_field : urlPart s = .field f ↔ s = f.state := by
  cases s <;> cases f <;> simp [urlPart, UrlField.state]

/-- A field has a rank of its own. -/
theorem rank_eq_iff : s.rank = f.rank ↔ s = f.state := by
  cases s <;> cases f <;> simp [State.rank, UrlField.rank, UrlField.state]

theorem state_injective : Function.Injective UrlField.state := by
  intro f g h
  cases f <;> cases g <;> first | rfl | cases h

/-- **The automaton never goes back.** -/
theorem rank_le_parseUrlChar (h : parseUrlChar s ch b ≠ .dead) :
    s.rank ≤ (parseUrlChar s ch b).rank := by
  cases s <;> first
    | exact absurd rfl h
    | simp only [parseUrlChar] at h ⊢
      split_ifs at h ⊢ <;> first | exact absurd rfl h | decide

/-- Only the failure of `parse_url_char` ends the loop early. -/
theorem urlPart_parseUrlChar :
    urlPart (parseUrlChar s ch b) = .bad ↔ parseUrlChar s ch b = .dead := by
  cases s <;> first
    | exact iff_of_true rfl rfl
    | simp only [parseUrlChar]
      split_ifs <;> simp [urlPart]

/-! ### The loop -/

/-- What the loop has noted about the states `l`: which fields come up, where they start and how
long they are. -/
structure Recorded (l : List State) (u : HttpParserUrl) : Prop where
  fieldSet : ∀ f, u.fieldSet f = true ↔ f.state ∈ l
  off : ∀ f, f.state ∈ l → u.off f = toUInt16 (Block.start State.rank f.rank l)
  len : ∀ f, f.state ∈ l → u.len f = toUInt16 (Block.size State.rank f.rank l)

/-- Moreover, between two characters: the last state is `s`, and `old_uf` is the field it is the
state of, if it is one. -/
structure Scanned (l : List State) (s : State) (oldUf : Option UrlField) (u : HttpParserUrl) : Prop
    extends Recorded l u where
  ordered : Block.Ordered State.rank l
  le : ∀ x ∈ l, x.rank ≤ s.rank
  last : ∀ f, s = f.state → oldUf = some f
  old : ∀ f, oldUf = some f → f.state ∈ l

variable {l : List State} {s' : State} {oldUf : Option UrlField} {u u' : HttpParserUrl}

theorem mem_concat_of_ne {x y : State} (h : y ≠ x) : x ∈ l ++ [y] ↔ x ∈ l := by
  rw [List.mem_append, List.mem_singleton]
  exact or_iff_left h.symm

/-- A later state leaves the start of a field that has come up where it is. -/
theorem start_concat_of_mem (hle : ∀ x ∈ l, x.rank ≤ s'.rank) (hf : f.state ∈ l) :
    Block.start State.rank f.rank (l ++ [s']) = Block.start State.rank f.rank l := by
  have hnot : ¬s'.rank < f.rank := Nat.not_lt.2 (hle _ hf)
  rw [Block.start_concat, if_neg hnot, Nat.add_zero]

theorem size_concat_of_ne (hne : s' ≠ f.state) :
    Block.size State.rank f.rank (l ++ [s']) = Block.size State.rank f.rank l := by
  rw [Block.size_concat, if_neg fun h ↦ hne (rank_eq_iff.1 h), Nat.add_zero]

/-- A delimiter changes nothing. -/
theorem Scanned.delimiter (h : Scanned l s oldUf u) (hle : s.rank ≤ s'.rank)
    (hs : ∀ f : UrlField, s' ≠ f.state) : Scanned (l ++ [s']) s' oldUf u := by
  have hall : ∀ x ∈ l, x.rank ≤ s'.rank := fun x hx ↦ Nat.le_trans (h.le x hx) hle
  refine ⟨⟨fun f ↦ ?_, fun f hf ↦ ?_, fun f hf ↦ ?_⟩, Block.ordered_concat h.ordered hall,
    fun x hx ↦ ?_, fun f hf ↦ absurd hf (hs f), fun f hf ↦ ?_⟩
  · rw [mem_concat_of_ne (hs f)]
    exact h.fieldSet f
  · rw [mem_concat_of_ne (hs f)] at hf
    rw [start_concat_of_mem hall hf]
    exact h.off f hf
  · rw [mem_concat_of_ne (hs f)] at hf
    rw [size_concat_of_ne (hs f)]
    exact h.len f hf
  · rcases List.mem_append.1 hx with hx | hx
    · exact hall x hx
    · rw [List.mem_singleton.1 hx]
  · exact List.mem_append_left _ (h.old f hf)

/-- The field of the last character goes on. -/
theorem Scanned.extend (h : Scanned l s (some f) u) (hle : s.rank ≤ f.rank) :
    Scanned (l ++ [f.state]) f.state (some f)
      { u with len := Function.update u.len f (toUInt16 (u.len f + 1)) } := by
  have hall : ∀ x ∈ l, x.rank ≤ f.state.rank := fun x hx ↦ Nat.le_trans (h.le x hx) hle
  have hmem : f.state ∈ l := h.old f rfl
  have hiff : ∀ g : UrlField, g.state ∈ l ++ [f.state] ↔ g.state ∈ l := fun g ↦ by
    by_cases hg : f = g
    · subst hg
      exact iff_of_true (List.mem_append_left _ hmem) hmem
    · exact mem_concat_of_ne (fun heq ↦ hg (state_injective heq))
  refine ⟨⟨fun g ↦ (h.fieldSet g).trans (hiff g).symm, fun g hg ↦ ?_, fun g hg ↦ ?_⟩,
    Block.ordered_concat h.ordered hall, fun x hx ↦ ?_,
    fun g hg ↦ congrArg some (state_injective hg), fun g hg ↦ ?_⟩
  · rw [hiff] at hg
    rw [start_concat_of_mem hall hg]
    exact h.off g hg
  · rw [hiff] at hg
    by_cases heq : f = g
    · subst heq
      have hone : Block.size State.rank f.rank (l ++ [f.state]) =
          Block.size State.rank f.rank l + 1 := by
        rw [Block.size_concat]
        exact congrArg _ (if_pos rfl)
      rw [hone]
      show Function.update u.len f (toUInt16 (u.len f + 1)) f = _
      rw [Function.update_self, h.len f hg]
      exact Nat.mod_add_mod _ _ _
    · rw [size_concat_of_ne fun h ↦ heq (state_injective h)]
      exact (Function.update_of_ne (Ne.symm heq) _ _).trans (h.len g hg)
  · rcases List.mem_append.1 hx with hx | hx
    · exact hall x hx
    · rw [List.mem_singleton.1 hx]
  · obtain rfl := Option.some.inj hg
    exact List.mem_append_right _ (List.mem_singleton_self _)

/-- A field starts: it has not come up before. -/
theorem Scanned.begin (h : Scanned l s oldUf u) (hle : s.rank ≤ f.rank) (hne : oldUf ≠ some f) :
    Scanned (l ++ [f.state]) f.state (some f)
      { u with
        off := Function.update u.off f (toUInt16 l.length)
        len := Function.update u.len f 1
        fieldSet := Function.update u.fieldSet f true } := by
  have hall : ∀ x ∈ l, x.rank ≤ f.state.rank := fun x hx ↦ Nat.le_trans (h.le x hx) hle
  -- had it come up, it would be the field of the last character
  have hnew : ∀ x ∈ l, x.rank < f.rank := fun x hx ↦ by
    refine Nat.lt_of_le_of_ne (hall x hx) fun heq ↦ hne (h.last f ?_)
    exact rank_eq_iff.1 (Nat.le_antisymm hle (heq ▸ h.le x hx))
  refine ⟨⟨fun g ↦ ?_, fun g hg ↦ ?_, fun g hg ↦ ?_⟩, Block.ordered_concat h.ordered hall,
    fun x hx ↦ ?_, fun g hg ↦ congrArg some (state_injective hg), fun g hg ↦ ?_⟩
  · by_cases heq : f = g
    · subst heq
      exact iff_of_true (Function.update_self _ _ _)
        (List.mem_append_right _ (List.mem_singleton_self _))
    · rw [mem_concat_of_ne fun h ↦ heq (state_injective h)]
      exact (Eq.congr_left (Function.update_of_ne (Ne.symm heq) _ _)).trans (h.fieldSet g)
  · by_cases heq : f = g
    · subst heq
      have hnot : ¬f.state.rank < f.rank := Nat.lt_irrefl _
      rw [Block.start_concat, Block.start_of_lt hnew, if_neg hnot]
      exact Function.update_self _ _ _
    · rw [mem_concat_of_ne fun h ↦ heq (state_injective h)] at hg
      rw [start_concat_of_mem hall hg]
      exact (Function.update_of_ne (Ne.symm heq) _ _).trans (h.off g hg)
  · by_cases heq : f = g
    · subst heq
      have hrank : f.state.rank = f.rank := rfl
      rw [Block.size_concat, Block.size_of_ne fun x hx ↦ Nat.ne_of_lt (hnew x hx), if_pos hrank]
      exact Function.update_self _ _ _
    · rw [mem_concat_of_ne fun h ↦ heq (state_injective h)] at hg
      rw [size_concat_of_ne fun h ↦ heq (state_injective h)]
      exact (Function.update_of_ne (Ne.symm heq) _ _).trans (h.len g hg)
  · rcases List.mem_append.1 hx with hx | hx
    · exact hall x hx
    · rw [List.mem_singleton.1 hx]
  · obtain rfl := Option.some.inj hg
    exact List.mem_append_right _ (List.mem_singleton_self _)

/-- **The loop.** It goes through the whole URL unless the automaton fails, and notes its fields. -/
theorem recorded_loop (h : Scanned l s oldUf u) (hs : s ≠ .dead) (rest : List Byte) {ok : Bool}
    (hloop : parseUrlLoop b rest l.length s oldUf u = (ok, u')) :
    (ok = true ↔ urlState b s rest ≠ .dead) ∧
      (ok = true → Recorded (l ++ urlStates b s rest) u' ∧
        Block.Ordered State.rank (l ++ urlStates b s rest)) := by
  induction rest generalizing l s oldUf u with
  | nil =>
    obtain ⟨rfl, rfl⟩ := Prod.mk.inj hloop
    rw [urlStates, List.append_nil]
    exact ⟨iff_of_true rfl hs, fun _ ↦ ⟨h.toRecorded, h.ordered⟩⟩
  | cons ch rest ih =>
    have hstates : l ++ urlStates b s (ch :: rest) =
        (l ++ [parseUrlChar s ch b]) ++ urlStates b (parseUrlChar s ch b) rest := by
      rw [urlStates, List.append_assoc, List.singleton_append]
    have hlength : (l ++ [parseUrlChar s ch b]).length = l.length + 1 := List.length_append
    rw [hstates, show urlState b s (ch :: rest) = urlState b (parseUrlChar s ch b) rest from rfl]
    by_cases hdead : parseUrlChar s ch b = .dead
    · simp only [parseUrlLoop, urlPart_parseUrlChar.2 hdead] at hloop
      obtain ⟨rfl, rfl⟩ := Prod.mk.inj hloop
      rw [hdead, urlState_dead]
      exact ⟨iff_of_false Bool.false_ne_true fun h ↦ h rfl, fun h ↦ absurd h Bool.false_ne_true⟩
    have hle := rank_le_parseUrlChar hdead
    cases hpart : urlPart (parseUrlChar s ch b) with
    | bad => exact absurd (urlPart_parseUrlChar.1 hpart) hdead
    | delimiter =>
      simp only [parseUrlLoop, hpart, ← hlength] at hloop
      refine ih (h.delimiter hle fun f hf ↦ ?_) hdead hloop
      rw [urlPart_eq_field.2 hf] at hpart
      cases hpart
    | field f =>
      have hstate := urlPart_eq_field.1 hpart
      rw [hstate] at hle hdead hlength hpart ⊢
      simp only [parseUrlLoop, hstate, hpart, ← hlength] at hloop
      split_ifs at hloop with hold
      · subst hold
        exact ih (h.extend hle) hdead hloop
      · exact ih (h.begin hle hold) hdead hloop

theorem port_parseUrlLoop (rest : List Byte) (p : ℕ) (s : State) (oldUf : Option UrlField)
    (u : HttpParserUrl) : (parseUrlLoop b rest p s oldUf u).2.port = u.port := by
  induction rest generalizing p s oldUf u with
  | nil => rfl
  | cons ch rest ih =>
    rw [parseUrlLoop]
    split
    · rfl
    · exact ih _ _ _ _
    · split_ifs
      · exact ih _ _ _ _
      · exact ih _ _ _ _

/-! ### The port -/

/-- The number that digits make. -/
def portNumber (l : List Byte) : ℕ := Numeral.value 10 0 (l.map fun c : Byte ↦ c.toNat - 48)

/-- `strtoul` reads the digits up to the first character that is none. -/
theorem strtoul_append {l m : List Byte} (hl : l ≠ []) (hdigits : ∀ c ∈ l, isNum c = true)
    (hm : ∀ c, m.head? = some c → isNum c = false) :
    strtoul (l ++ m) = min (portNumber l) (2 ^ 64 - 1) := by
  obtain ⟨c, l, rfl⟩ := List.exists_cons_of_ne_nil hl
  have hc := hdigits c List.mem_cons_self
  have hspace : (c == ' ' || 9 ≤ c && c ≤ 13) = false := by
    by_contra h
    rw [Bool.not_eq_false, Bool.or_eq_true, Bool.and_eq_true, beq_iff_eq, decide_eq_true_eq,
      decide_eq_true_eq] at h
    rw [isNum, Bool.and_eq_true, decide_eq_true_eq, decide_eq_true_eq] at hc
    rcases h with rfl | h
    · exact absurd hc (by decide)
    · exact absurd (UInt8.le_trans hc.1 h.2) (by decide)
  have hsign : ∀ d : Byte, isNum d = false → (c :: (l ++ m)).head? ≠ some d := fun d hd h ↦ by
    obtain rfl := Option.some.inj h
    rw [hd] at hc
    cases hc
  have hminus : (c :: (l ++ m)).head? ≠ some ('-' : Byte) := hsign _ (by decide)
  have hplus : (c :: (l ++ m)).head? ≠ some ('+' : Byte) := hsign _ (by decide)
  have htake : (c :: (l ++ m)).takeWhile isNum = c :: l := by
    rw [← List.cons_append, List.takeWhile_append_of_pos hdigits]
    cases m with
    | nil => rw [List.takeWhile_nil, List.append_nil]
    | cons d m =>
      rw [List.takeWhile_cons_of_neg, List.append_nil]
      rw [hm d rfl]
      exact Bool.false_ne_true
  have hvalue : (c :: l).foldl (fun v (c : Byte) ↦ v * 10 + (c.toNat - 48)) 0 =
      portNumber (c :: l) := by
    rw [portNumber, Numeral.value, List.foldl_map]
  simp only [strtoul, List.cons_append, List.dropWhile_cons, hspace, Option.bind_eq_bind,
    Option.bind_some, Option.pure_def, hminus, hplus, or_self, Bool.false_eq_true, if_false, htake,
    hvalue]
  split_ifs <;> omega

/-- The state of a port is that behind a digit. -/
theorem isNum_of_port (h : parseUrlChar s ch b = .reqPort) : isNum ch = true := by
  cases s <;> first
    | cases h
    | simp only [parseUrlChar] at h
      split_ifs at h <;> assumption

/-- Behind a digit of a port, a digit is one of the port. -/
theorem port_of_isNum (h : isNum ch = true) : parseUrlChar .reqPort ch b = .reqPort :=
  if_pos h

/-! ### The fields -/

/-- The characters of a field: those behind which the automaton is in its state. -/
def fieldText (isConnect : Bool) (uri : List Byte) (f : UrlField) : List Byte :=
  ((uri.zip (urlStates isConnect .reqSpacesBeforeUrl uri)).filter (·.2.rank = f.rank)).map Prod.fst

/-- What a result says the characters of a field are. -/
def HttpParserUrl.text (u : HttpParserUrl) (uri : List Byte) (f : UrlField) : List Byte :=
  if u.fieldSet f then (uri.drop (u.off f)).take (u.len f) else []

/-- A result describes the fields of a URL. -/
structure Located (isConnect : Bool) (uri : List Byte) (u : HttpParserUrl) : Prop where
  /-- A character is in a field if the automaton is in its state behind the character. -/
  mem : ∀ f p, p < uri.length →
    (urlState isConnect .reqSpacesBeforeUrl (uri.take (p + 1)) = f.state ↔
      u.fieldSet f = true ∧ u.off f ≤ p ∧ p < u.off f + u.len f)
  text : ∀ f, u.text uri f = fieldText isConnect uri f
  /-- No field is empty, and none goes beyond the end. -/
  bounds : ∀ f, u.fieldSet f = true → 0 < u.len f ∧ u.off f + u.len f ≤ uri.length
  /-- They come in the order of `enum http_parser_url_fields` and do not overlap. -/
  apart : ∀ f g, u.fieldSet f = true → u.fieldSet g = true → f.rank < g.rank →
    u.off f + u.len f ≤ u.off g
  /-- The port is the number of its digits. -/
  port : u.port = portNumber (u.text uri .port) ∧ u.port ≤ 0xffff

section Fields

variable (h : Recorded (urlStates b .reqSpacesBeforeUrl uri) u)
  (hordered : Block.Ordered State.rank (urlStates b .reqSpacesBeforeUrl uri))
  (hlen : uri.length < 2 ^ 16)

include h hlen

/-- Nothing is cut off the offset and the length of a URL that is short enough. -/
theorem Recorded.place (hf : u.fieldSet f = true) :
    u.off f = Block.start State.rank f.rank (urlStates b .reqSpacesBeforeUrl uri) ∧
      u.len f = Block.size State.rank f.rank (urlStates b .reqSpacesBeforeUrl uri) := by
  have hmem := (h.fieldSet f).1 hf
  have hle : Block.start State.rank f.rank (urlStates b .reqSpacesBeforeUrl uri) +
      Block.size State.rank f.rank (urlStates b .reqSpacesBeforeUrl uri) ≤ uri.length :=
    (Block.start_add_size_le_length _ _).trans_eq (length_urlStates _ _ _)
  rw [h.off f hmem, h.len f hmem]
  exact ⟨Nat.mod_eq_of_lt (by omega), Nat.mod_eq_of_lt (by omega)⟩

theorem Recorded.bounds (hf : u.fieldSet f = true) :
    0 < u.len f ∧ u.off f + u.len f ≤ uri.length := by
  obtain ⟨hoff, hsize⟩ := h.place hlen hf
  rw [hoff, hsize]
  refine ⟨Block.size_pos ((h.fieldSet f).1 hf), ?_⟩
  exact (Block.start_add_size_le_length _ _).trans_eq (length_urlStates _ _ _)

theorem Recorded.apart {g : UrlField} (hf : u.fieldSet f = true) (hg : u.fieldSet g = true)
    (hlt : f.rank < g.rank) : u.off f + u.len f ≤ u.off g := by
  obtain ⟨hoff, hsize⟩ := h.place hlen hf
  rw [hoff, hsize, (h.place hlen hg).1]
  exact Block.start_add_size_le hlt _

include hordered

theorem Recorded.mem {p : ℕ} (hp : p < uri.length) :
    urlState b .reqSpacesBeforeUrl (uri.take (p + 1)) = f.state ↔
      u.fieldSet f = true ∧ u.off f ≤ p ∧ p < u.off f + u.len f := by
  have hget := getElem?_urlStates b .reqSpacesBeforeUrl hp
  rw [← rank_eq_iff, Block.rank_eq_iff hordered hget]
  refine ⟨fun hin ↦ ?_, fun hin ↦ ?_⟩
  · have hmem := rank_eq_iff.1 ((Block.rank_eq_iff hordered hget).2 hin)
    have hf : u.fieldSet f = true := (h.fieldSet f).2 (hmem ▸ List.mem_of_getElem? hget)
    obtain ⟨hoff, hsize⟩ := h.place hlen hf
    rw [hoff, hsize]
    exact ⟨hf, hin⟩
  · obtain ⟨hf, hin⟩ := hin
    obtain ⟨hoff, hsize⟩ := h.place hlen hf
    rwa [hoff, hsize] at hin

theorem Recorded.text_eq (f : UrlField) : u.text uri f = fieldText b uri f := by
  rw [fieldText, Block.filter_zip hordered (length_urlStates b .reqSpacesBeforeUrl uri).symm,
    HttpParserUrl.text]
  split_ifs with hf
  · obtain ⟨hoff, hsize⟩ := h.place hlen hf
    rw [hoff, hsize]
  · rw [Block.size_of_ne fun x hx heq ↦ hf ((h.fieldSet f).2 (rank_eq_iff.1 heq ▸ hx)),
      List.take_zero]

/-- `strtoul` stops where the port does. -/
theorem Recorded.strtoul_port (hf : u.fieldSet .port = true) :
    strtoul (uri.drop (u.off .port)) = min (portNumber (u.text uri .port)) (2 ^ 64 - 1) := by
  obtain ⟨hpos, hle⟩ := h.bounds hlen hf
  have hsplit : uri.drop (u.off .port) =
      u.text uri .port ++ uri.drop (u.off .port + u.len .port) := by
    rw [HttpParserUrl.text, if_pos hf, ← List.drop_drop, List.take_append_drop]
  -- the state behind a character of the port
  have hstate : ∀ p, u.off .port ≤ p → p < u.off .port + u.len .port →
      urlState b .reqSpacesBeforeUrl (uri.take (p + 1)) = .reqPort := fun p hge hlt ↦
    (h.mem hordered hlen (f := .port) (Nat.lt_of_lt_of_le hlt hle)).2 ⟨hf, hge, hlt⟩
  rw [hsplit]
  refine strtoul_append ?_ (fun c hc ↦ ?_) fun c hc ↦ ?_
  · rw [HttpParserUrl.text, if_pos hf, ← List.length_pos_iff, List.length_take, List.length_drop]
    omega
  · rw [HttpParserUrl.text, if_pos hf] at hc
    obtain ⟨i, hi⟩ := List.mem_iff_getElem?.1 hc
    rw [List.getElem?_take] at hi
    split_ifs at hi with hlt
    rw [List.getElem?_drop] at hi
    have hport := hstate (u.off .port + i) (Nat.le_add_right _ _) (Nat.add_lt_add_left hlt _)
    rw [urlState_take_succ b _ hi] at hport
    exact isNum_of_port hport
  · -- a digit behind the port would be one of the port
    rw [List.head?_drop] at hc
    by_contra hnum
    have hport := hstate (u.off .port + u.len .port - 1) (by omega) (by omega)
    rw [Nat.sub_add_cancel (by omega)] at hport
    have hnext := urlState_take_succ b .reqSpacesBeforeUrl hc
    rw [hport, port_of_isNum (Bool.of_not_eq_false hnum)] at hnext
    obtain ⟨hlt, -⟩ := List.getElem?_eq_some_iff.1 hc
    have hin := (h.mem hordered hlen (f := .port) hlt).1 hnext
    omega

end Fields

theorem scanned_nil (u : HttpParserUrl) :
    Scanned [] .reqSpacesBeforeUrl none { u with port := 0, fieldSet := fun _ ↦ false } where
  fieldSet := fun _ ↦ iff_of_false Bool.false_ne_true List.not_mem_nil
  off := fun _ h ↦ absurd h List.not_mem_nil
  len := fun _ h ↦ absurd h List.not_mem_nil
  ordered := List.Pairwise.nil
  le := fun _ h ↦ absurd h List.not_mem_nil
  last := fun f h ↦ by cases f <;> cases h
  old := fun _ h ↦ by cases h

theorem Recorded.located (h : Recorded (urlStates b .reqSpacesBeforeUrl uri) u)
    (hordered : Block.Ordered State.rank (urlStates b .reqSpacesBeforeUrl uri))
    (hlen : uri.length < 2 ^ 16)
    (hport : u.port = portNumber (u.text uri .port) ∧ u.port ≤ 0xffff) : Located b uri u where
  mem := fun _ _ hp ↦ h.mem hordered hlen hp
  text := h.text_eq hordered hlen
  bounds := fun _ hf ↦ h.bounds hlen hf
  apart := fun _ _ hf hg hlt ↦ h.apart hlen hf hg hlt
  port := hport

/-- The port does not matter for the fields. -/
theorem Recorded.setPort (h : Recorded l u) (v : ℕ) : Recorded l { u with port := v } :=
  ⟨h.fieldSet, h.off, h.len⟩

/-- **Where the fields are.** A URL of less than `2 ^ 16` bytes is accepted if the automaton gets
through it and the number of its port is at most `0xffff`, and then the result describes its
fields, whatever the structure held before. -/
theorem fields_of_accepted (hlen : uri.length < 2 ^ 16) (isConnect : Bool) (u : HttpParserUrl) :
    ((httpParserParseUrl uri isConnect u).1 = 0 ↔
      urlState isConnect .reqSpacesBeforeUrl uri ≠ .dead ∧
        portNumber (fieldText isConnect uri .port) ≤ 0xffff) ∧
    ((httpParserParseUrl uri isConnect u).1 = 0 →
      Located isConnect uri (httpParserParseUrl uri isConnect u).2) := by
  cases hloop : parseUrlLoop isConnect uri 0 .reqSpacesBeforeUrl none
      { u with port := 0, fieldSet := fun _ ↦ false } with
  | mk ok u₁ =>
  obtain ⟨hok, hrecorded⟩ := recorded_loop (scanned_nil u) (by decide) uri hloop
  rw [← hok]
  cases ok with
  | false =>
    have hone : httpParserParseUrl uri isConnect u = (1, u₁) := by
      rw [httpParserParseUrl, hloop]
      rfl
    rw [hone]
    exact ⟨iff_of_false Nat.one_ne_zero fun h ↦ Bool.false_ne_true h.1,
      fun h ↦ absurd h Nat.one_ne_zero⟩
  | true =>
    obtain ⟨hrecorded, hordered⟩ := hrecorded rfl
    rw [List.nil_append] at hrecorded hordered
    rw [← hrecorded.text_eq hordered hlen]
    by_cases hport : u₁.fieldSet .port = true
    · have hv := hrecorded.strtoul_port hordered hlen hport
      have heq : httpParserParseUrl uri isConnect u =
          if 0xffff < strtoul (uri.drop (u₁.off .port)) then (1, u₁)
          else (0, { u₁ with port := toUInt16 (strtoul (uri.drop (u₁.off .port))) }) := by
        rw [httpParserParseUrl, hloop]
        exact if_pos hport
      rw [heq, hv]
      by_cases hlt : 0xffff < min (portNumber (u₁.text uri .port)) (2 ^ 64 - 1)
      · rw [if_pos hlt]
        exact ⟨iff_of_false Nat.one_ne_zero fun h ↦ by omega, fun h ↦ absurd h Nat.one_ne_zero⟩
      · rw [if_neg hlt]
        refine ⟨iff_of_true rfl ⟨rfl, by omega⟩, fun _ ↦ ?_⟩
        refine (hrecorded.setPort _).located hordered hlen ?_
        show toUInt16 _ = portNumber (u₁.text uri .port) ∧ toUInt16 _ ≤ _
        rw [toUInt16]
        omega
    · have heq : httpParserParseUrl uri isConnect u = (0, u₁) := by
        rw [httpParserParseUrl, hloop]
        exact if_neg hport
      have htext : u₁.text uri .port = [] := if_neg hport
      rw [heq, htext]
      refine ⟨iff_of_true rfl ⟨rfl, Nat.zero_le _⟩, fun _ ↦ hrecorded.located hordered hlen ?_⟩
      have hzero : u₁.port = 0 := by
        have hframe := port_parseUrlLoop uri 0 .reqSpacesBeforeUrl none
          { u with port := 0, fieldSet := fun _ ↦ false } (b := isConnect)
        rwa [hloop] at hframe
      rw [hzero, htext]
      exact ⟨rfl, Nat.zero_le _⟩

theorem fields_of_accepted_all :
    let uri := ascii
      ['h', 't', 't', 'p', ':', '/', '/', 'a', ':', '8', '0', '/', '?', 'q', '#', 'f']
    Located false uri (httpParserParseUrl uri false .zero).2 := by
  intro uri
  exact (fields_of_accepted (by decide) false .zero).2 (by decide)

theorem Located.fieldSet_iff (h : Located b uri u) : u.fieldSet f = true ↔ u.text uri f ≠ [] := by
  rw [HttpParserUrl.text]
  split_ifs with hf
  · refine iff_of_true hf ?_
    obtain ⟨hpos, hle⟩ := h.bounds f hf
    rw [← List.length_pos_iff, List.length_take, List.length_drop]
    omega
  · exact iff_of_false hf fun hne ↦ hne rfl

end JnetLib.Http
