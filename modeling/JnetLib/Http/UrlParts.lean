import JnetLib.Http.UrlFields

/-!
# URLs put together

A URL that has been put together of its parts (`Url.encode`) is accepted, and its parts are found
again (`text_of_encode`). `Legal` says what the parts may consist of, and which of them have to be
there.

Each part leads the automaton from one state to the next and spells its field (`Spells`), and parts
that follow one another are put together by `Spells.append`. What the fields of the result are
follows from there by `fields_of_accepted`; nothing more is needed of the loop.
-/

namespace JnetLib.Http

variable {b : Bool} {s : State} {ch : Byte} {f : UrlField} {uri : List Byte}
variable {l : List State} {s' : State} {oldUf : Option UrlField} {u u' : HttpParserUrl}

/-- The parts of a URL. -/
structure Url where
  schema : List Byte
  host : List Byte
  port : List Byte
  path : List Byte
  query : List Byte
  fragment : List Byte
  deriving DecidableEq, Repr

namespace Url

/-- The part that is a field. -/
def part (x : Url) : UrlField → List Byte
  | .schema => x.schema
  | .host => x.host
  | .port => x.port
  | .path => x.path
  | .query => x.query
  | .fragment => x.fragment

/-- A part behind its delimiter, if there is one. -/
def behind (ch : Byte) (l : List Byte) : List Byte := if l = [] then [] else ch :: l

/-- The URL. -/
def encode (x : Url) : List Byte :=
  (if x.schema = [] then [] else x.schema ++ ascii [':', '/', '/']) ++ (x.host ++
    (behind ':' x.port ++ (x.path ++ (behind '?' x.query ++ behind '#' x.fragment))))

/-- The parts consist of what they may consist of, and those are there that have to be: a path,
unless there is a schema or a host, and a path or a query in front of a fragment. Only `CONNECT` has
a host without a schema, and it has no schema. -/
structure Legal (isConnect : Bool) (x : Url) : Prop where
  schema : ∀ c ∈ x.schema, isAlpha c = true
  host : ∀ c ∈ x.host, isHostChar c = true
  port : ∀ c ∈ x.port, isNum c = true
  number : portNumber x.port ≤ 0xffff
  path : ∀ c ∈ x.path, isUrlChar c = true
  query : ∀ c ∈ x.query, isUrlChar c = true ∨ c = '?'
  fragment : ∀ c ∈ x.fragment, isUrlChar c = true ∨ c = '?' ∨ c = '#'
  queryStart : ∀ c ∈ x.query.head?, c ≠ '?'
  fragmentStart : ∀ c ∈ x.fragment.head?, c ≠ '#'
  connect : if isConnect then x.schema = [] ∧ ∀ c ∈ x.host.head?, isAlpha c = true ∨ isNum c = true
    else x.schema = [] → x.host = []
  absolute : x.schema ≠ [] ∨ x.host ≠ [] → ∀ c ∈ x.path.head?, c = '/'
  origin : x.schema = [] → x.host = [] →
    x.port = [] ∧ ∃ c ∈ x.path.head?, c = '/' ∨ c = '*'
  last : x.path = [] → x.query = [] → x.fragment = []

end Url

/-- The characters of the fields among `l`, which the automaton reads in the state `s`. -/
def fieldsFrom (b : Bool) (s : State) (l : List Byte) (f : UrlField) : List Byte :=
  ((l.zip (urlStates b s l)).filter (·.2.rank = f.rank)).map Prod.fst

/-- The automaton goes from `s` to `s'` with `l`, in which it finds the characters `t` of the
fields. -/
structure Spells (b : Bool) (s : State) (l : List Byte) (s' : State) (t : UrlField → List Byte) :
    Prop where
  state : urlState b s l = s'
  fields : fieldsFrom b s l = t

/-- A part alone. -/
def only (g : UrlField) (l : List Byte) : UrlField → List Byte := fun f ↦ if f = g then l else []

section Spells

variable {m : List Byte} {t t' : UrlField → List Byte} {s'' : State} {g : UrlField}

theorem Spells.nil : Spells b s [] s fun _ ↦ [] :=
  ⟨rfl, rfl⟩

theorem Spells.append {l : List Byte} (hl : Spells b s l s' t) (hm : Spells b s' m s'' t') :
    Spells b s (l ++ m) s'' fun f ↦ t f ++ t' f := by
  obtain ⟨rfl, rfl⟩ := hl
  obtain ⟨rfl, rfl⟩ := hm
  refine ⟨List.foldl_append, funext fun f ↦ ?_⟩
  simp only [fieldsFrom]
  rw [urlStates_append, List.zip_append (length_urlStates b s l).symm, List.filter_append,
    List.map_append]

/-- A delimiter belongs to no field. -/
theorem Spells.delimiter (h : parseUrlChar s ch b = s') (hs : ∀ f : UrlField, s' ≠ f.state) :
    Spells b s [ch] s' fun _ ↦ [] := by
  subst h
  refine ⟨rfl, funext fun f ↦ ?_⟩
  rw [fieldsFrom, urlStates, urlStates, List.zip_cons_cons, List.filter_cons_of_neg]
  · rfl
  · exact fun h ↦ hs f (rank_eq_iff.1 (of_decide_eq_true h))

/-- The characters of one field. -/
theorem Spells.part {l : List Byte} (hfirst : ∀ c ∈ l.head?, parseUrlChar s c b = g.state)
    (hrest : ∀ c ∈ l, parseUrlChar g.state c b = g.state) :
    Spells b s l (if l = [] then s else g.state) (only g l) := by
  induction l generalizing s with
  | nil =>
    refine ⟨rfl, funext fun f ↦ ?_⟩
    rw [only, ite_self]
    rfl
  | cons c l ih =>
    have hc : parseUrlChar s c b = g.state := hfirst c rfl
    obtain ⟨hstate, hfields⟩ := ih (s := g.state)
      (fun c hc ↦ hrest c (List.mem_cons_of_mem _ (List.mem_of_mem_head? hc)))
      fun c hc ↦ hrest c (List.mem_cons_of_mem _ hc)
    rw [ite_self] at hstate
    rw [if_neg (List.cons_ne_nil c l)]
    refine ⟨(congrArg (urlState b · l) hc).trans hstate, funext fun f ↦ ?_⟩
    have hf := congrFun hfields f
    rw [only, fieldsFrom] at hf
    rw [only, fieldsFrom, urlStates, hc, List.zip_cons_cons]
    by_cases heq : f = g
    · subst heq
      rw [List.filter_cons_of_pos (by exact decide_eq_true rfl), List.map_cons, hf, if_pos rfl,
        if_pos rfl]
    · rw [List.filter_cons_of_neg, hf, if_neg heq, if_neg heq]
      exact fun h ↦ heq (state_injective (rank_eq_iff.1 (of_decide_eq_true h))).symm

/-- A part behind its delimiter. -/
theorem Spells.behind {d : State} {l : List Byte} (hd : l ≠ [] → parseUrlChar s ch b = d)
    (hdelimiter : ∀ f : UrlField, d ≠ f.state)
    (hfirst : ∀ c ∈ l.head?, parseUrlChar d c b = g.state)
    (hrest : ∀ c ∈ l, parseUrlChar g.state c b = g.state) :
    Spells b s (Url.behind ch l) (if l = [] then s else g.state) (only g l) := by
  by_cases hl : l = []
  · subst hl
    rw [if_pos rfl]
    exact .part (fun c hc ↦ by cases hc) fun c hc ↦ absurd hc List.not_mem_nil
  · have hpart := (Spells.delimiter (hd hl) hdelimiter).append (.part hfirst hrest)
    rw [if_neg hl] at hpart
    rw [Url.behind, if_neg hl, if_neg hl]
    exact hpart

end Spells

/-! ### Each part of a URL -/

theorem ne_of_isAlpha (h : isAlpha ch = true ∨ isNum ch = true) : ¬(ch = '/' ∨ ch = '*') := by
  rintro (rfl | rfl) <;> exact absurd h (by decide)

section Legal

variable {x : Url} (hx : x.Legal b)

include hx

theorem spells_schema : ∃ s₁, (x.schema = [] ∧ s₁ = .reqSpacesBeforeUrl ∨
      x.schema ≠ [] ∧ s₁ = .reqSchemaSlashSlashEnd) ∧
    Spells b .reqSpacesBeforeUrl
      (if x.schema = [] then [] else x.schema ++ ascii [':', '/', '/']) s₁
      (only .schema x.schema) := by
  by_cases hs : x.schema = []
  · refine ⟨_, .inl ⟨hs, rfl⟩, ?_⟩
    have hnil : only .schema x.schema = fun _ ↦ [] := funext fun f ↦ by rw [only, hs, ite_self]
    rw [if_pos hs, hnil]
    exact .nil
  · refine ⟨_, .inr ⟨hs, rfl⟩, ?_⟩
    have hb : b = false := by
      have hconnect := hx.connect
      cases b with
      | false => rfl
      | true => exact absurd hconnect.1 hs
    subst hb
    have hpart : Spells false .reqSpacesBeforeUrl x.schema .reqSchema (only .schema x.schema) := by
      have h := Spells.part (b := false) (s := .reqSpacesBeforeUrl) (g := .schema) (l := x.schema)
        (fun c hc ↦ by
          have hc := hx.schema c (List.mem_of_mem_head? hc)
          exact (if_neg (ne_of_isAlpha (.inl hc))).trans (if_pos (.inl hc)))
        fun c hc ↦ if_pos (hx.schema c hc)
      rwa [if_neg hs] at h
    have hcolon : Spells false .reqSchema [(':' : Byte)] .reqSchemaSlash fun _ ↦ [] :=
      .delimiter (by decide) fun f ↦ by cases f <;> decide
    have hslash : Spells false .reqSchemaSlash [('/' : Byte)] .reqSchemaSlashSlash fun _ ↦ [] :=
      .delimiter (by decide) fun f ↦ by cases f <;> decide
    have hend : Spells false .reqSchemaSlashSlash [('/' : Byte)] .reqSchemaSlashSlashEnd
        fun _ ↦ [] :=
      .delimiter (by decide) fun f ↦ by cases f <;> decide
    have hall := hpart.append (hcolon.append (hslash.append hend))
    simp only [List.append_nil] at hall
    rw [if_neg hs]
    exact hall

theorem spells_host {s₁ : State} (hs : x.schema = [] ∧ s₁ = .reqSpacesBeforeUrl ∨
      x.schema ≠ [] ∧ s₁ = .reqSchemaSlashSlashEnd) :
    ∃ s₂, ((x.schema = [] ∧ x.host = []) ∧ s₂ = .reqSpacesBeforeUrl ∨
      (x.schema ≠ [] ∨ x.host ≠ []) ∧ (s₂ = .reqSchemaSlashSlashEnd ∨ s₂ = .reqHost)) ∧
    Spells b s₁ x.host s₂ (only .host x.host) := by
  have hrest : ∀ c ∈ x.host, parseUrlChar .reqHost c b = .reqHost := fun c hc ↦
    if_pos (hx.host c hc)
  refine ⟨_, ?_, .part (fun c hc ↦ ?_) hrest⟩
  · by_cases hh : x.host = []
    · rw [if_pos hh]
      exact hs.imp (fun h ↦ ⟨⟨h.1, hh⟩, h.2⟩) fun h ↦ ⟨.inl h.1, .inl h.2⟩
    · rw [if_neg hh]
      exact .inr ⟨.inr hh, .inr rfl⟩
  · rcases hs with ⟨hs, rfl⟩ | ⟨hs, rfl⟩
    · have hconnect := hx.connect
      cases b with
      | false =>
        have hnil : x.host = [] := hconnect hs
        rw [hnil] at hc
        cases hc
      | true =>
        have hc := hconnect.2 c hc
        refine (if_neg (ne_of_isAlpha hc)).trans ((if_pos (hc.imp_right fun h ↦ ?_)).trans rfl)
        exact ⟨rfl, h⟩
    · exact if_pos (hx.host c (List.mem_of_mem_head? hc))

theorem spells_port {s₂ : State} (hs : (x.schema = [] ∧ x.host = []) ∧ s₂ = .reqSpacesBeforeUrl ∨
      (x.schema ≠ [] ∨ x.host ≠ []) ∧ (s₂ = .reqSchemaSlashSlashEnd ∨ s₂ = .reqHost)) :
    ∃ s₃, ((x.schema = [] ∧ x.host = []) ∧ s₃ = .reqSpacesBeforeUrl ∨
      (x.schema ≠ [] ∨ x.host ≠ []) ∧
        (s₃ = .reqSchemaSlashSlashEnd ∨ s₃ = .reqHost ∨ s₃ = .reqPort)) ∧
    Spells b s₂ (Url.behind ':' x.port) s₃ (only .port x.port) := by
  refine ⟨_, ?_, .behind (d := .reqPortStart) (fun hne ↦ ?_) (fun f ↦ by cases f <;> decide)
    (fun c hc ↦ if_pos (hx.port c (List.mem_of_mem_head? hc))) fun c hc ↦ if_pos (hx.port c hc)⟩
  · by_cases hp : x.port = []
    · rw [if_pos hp]
      exact hs.imp_right fun h ↦ ⟨h.1, h.2.imp_right .inl⟩
    · rw [if_neg hp]
      refine .inr ⟨?_, .inr (.inr rfl)⟩
      by_contra hnone
      rw [not_or, not_not, not_not] at hnone
      exact hp (hx.origin hnone.1 hnone.2).1
  · rcases hs with ⟨hs, -⟩ | ⟨-, rfl | rfl⟩
    · exact absurd (hx.origin hs.1 hs.2).1 hne
    · cases b <;> decide
    · cases b <;> decide

theorem spells_path {s₃ : State} (hs : (x.schema = [] ∧ x.host = []) ∧ s₃ = .reqSpacesBeforeUrl ∨
      (x.schema ≠ [] ∨ x.host ≠ []) ∧
        (s₃ = .reqSchemaSlashSlashEnd ∨ s₃ = .reqHost ∨ s₃ = .reqPort)) :
    ∃ s₄, (s₄ = .reqPath ∨
      x.path = [] ∧ (s₄ = .reqSchemaSlashSlashEnd ∨ s₄ = .reqHost ∨ s₄ = .reqPort)) ∧
    Spells b s₃ x.path s₄ (only .path x.path) := by
  refine ⟨_, ?_, .part (fun c hc ↦ ?_) fun c hc ↦ if_pos (hx.path c hc)⟩
  · by_cases hp : x.path = []
    · rw [if_pos hp]
      rcases hs with ⟨hs, -⟩ | ⟨-, hs⟩
      · obtain ⟨-, c, hc, -⟩ := hx.origin hs.1 hs.2
        rw [hp] at hc
        cases hc
      · exact .inr ⟨hp, hs⟩
    · rw [if_neg hp]
      exact .inl rfl
  · rcases hs with ⟨hs, rfl⟩ | ⟨hs, hs₃⟩
    · obtain ⟨-, d, hd, hd'⟩ := hx.origin hs.1 hs.2
      obtain rfl := Option.some.inj (hd.symm.trans hc)
      exact if_pos hd'
    · obtain rfl := hx.absolute hs c hc
      rcases hs₃ with rfl | rfl | rfl <;> cases b <;> decide

theorem spells_query {s₄ : State} (hs : s₄ = .reqPath ∨
      x.path = [] ∧ (s₄ = .reqSchemaSlashSlashEnd ∨ s₄ = .reqHost ∨ s₄ = .reqPort)) :
    ∃ s₅, (s₅ = .reqPath ∨ s₅ = .reqQueryString ∨
      x.fragment = [] ∧ (s₅ = .reqSchemaSlashSlashEnd ∨ s₅ = .reqHost ∨ s₅ = .reqPort)) ∧
    Spells b s₄ (Url.behind '?' x.query) s₅ (only .query x.query) := by
  refine ⟨_, ?_, .behind (d := .reqQueryStringStart) (fun _ ↦ ?_) (fun f ↦ by cases f <;> decide)
    (fun c hc ↦ ?_) fun c hc ↦ ?_⟩
  · by_cases hq : x.query = []
    · rw [if_pos hq]
      exact hs.imp_right fun h ↦ .inr ⟨hx.last h.1 hq, h.2⟩
    · rw [if_neg hq]
      exact .inr (.inl rfl)
  · rcases hs with rfl | ⟨-, rfl | rfl | rfl⟩ <;> cases b <;> decide
  · exact if_pos ((hx.query c (List.mem_of_mem_head? hc)).resolve_right (hx.queryStart c hc))
  · rcases hx.query c hc with h | rfl
    · exact if_pos h
    · cases b <;> decide

theorem spells_fragment {s₅ : State} (hs : s₅ = .reqPath ∨ s₅ = .reqQueryString ∨
      x.fragment = [] ∧ (s₅ = .reqSchemaSlashSlashEnd ∨ s₅ = .reqHost ∨ s₅ = .reqPort)) :
    ∃ s₆, s₆ ≠ .dead ∧ Spells b s₅ (Url.behind '#' x.fragment) s₆ (only .fragment x.fragment) := by
  refine ⟨_, ?_, .behind (d := .reqFragmentStart) (fun hne ↦ ?_) (fun f ↦ by cases f <;> decide)
    (fun c hc ↦ ?_) fun c hc ↦ if_pos (hx.fragment c hc)⟩
  · by_cases hf : x.fragment = []
    · rw [if_pos hf]
      rcases hs with rfl | rfl | ⟨-, rfl | rfl | rfl⟩ <;> decide
    · rw [if_neg hf]
      decide
  · rcases hs with rfl | rfl | ⟨hnil, -⟩
    · cases b <;> decide
    · cases b <;> decide
    · exact absurd hnil hne
  · rcases hx.fragment c (List.mem_of_mem_head? hc) with h | rfl | rfl
    · exact if_pos h
    · cases b <;> decide
    · exact absurd rfl (hx.fragmentStart _ hc)

/-- The whole URL. -/
theorem spells_encode : ∃ s', s' ≠ .dead ∧ Spells b .reqSpacesBeforeUrl x.encode s' x.part := by
  obtain ⟨s₁, hs₁, h₁⟩ := spells_schema hx
  obtain ⟨s₂, hs₂, h₂⟩ := spells_host hx hs₁
  obtain ⟨s₃, hs₃, h₃⟩ := spells_port hx hs₂
  obtain ⟨s₄, hs₄, h₄⟩ := spells_path hx hs₃
  obtain ⟨s₅, hs₅, h₅⟩ := spells_query hx hs₄
  obtain ⟨s₆, hs₆, h₆⟩ := spells_fragment hx hs₅
  have hall := h₁.append (h₂.append (h₃.append (h₄.append (h₅.append h₆))))
  refine ⟨s₆, hs₆, hall.state, hall.fields.trans (funext fun f ↦ ?_)⟩
  cases f <;> simp [only, Url.part]

end Legal

/-- **The parts are found again.** A URL of less than `2 ^ 16` bytes that has been put together of
legal parts is accepted, and the fields of the result are the parts, with the number of the port. -/
theorem text_of_encode {x : Url} (hx : x.Legal b) (hlen : x.encode.length < 2 ^ 16)
    (u : HttpParserUrl) :
    (httpParserParseUrl x.encode b u).1 = 0 ∧
      (∀ f, (httpParserParseUrl x.encode b u).2.text x.encode f = x.part f) ∧
      (∀ f, (httpParserParseUrl x.encode b u).2.fieldSet f = true ↔ x.part f ≠ []) ∧
      (httpParserParseUrl x.encode b u).2.port = portNumber x.port := by
  obtain ⟨s', hs', hstate, hfields⟩ := spells_encode hx
  have htext : ∀ f, fieldText b x.encode f = x.part f := congrFun hfields
  obtain ⟨hiff, hlocated⟩ := fields_of_accepted hlen b u
  have haccepted : (httpParserParseUrl x.encode b u).1 = 0 := by
    refine hiff.2 ⟨by rwa [hstate], ?_⟩
    rw [htext]
    exact hx.number
  have hlocated := hlocated haccepted
  refine ⟨haccepted, fun f ↦ (hlocated.text f).trans (htext f), fun f ↦ ?_, ?_⟩
  · rw [hlocated.fieldSet_iff, hlocated.text, htext]
  · rw [hlocated.port.1, hlocated.text, htext]
    rfl

/-- A URL with all of its parts. -/
theorem text_of_encode_all :
    let x : Url := ⟨ascii ['h'], ascii ['a'], ascii ['8', '0'], ascii ['/'], ascii ['q'],
      ascii ['f']⟩
    (httpParserParseUrl x.encode false .zero).1 = 0 ∧
      (∀ f, (httpParserParseUrl x.encode false .zero).2.text x.encode f = x.part f) ∧
      (∀ f, (httpParserParseUrl x.encode false .zero).2.fieldSet f = true ↔ x.part f ≠ []) ∧
      (httpParserParseUrl x.encode false .zero).2.port = portNumber x.port := by
  intro x
  have hx : x.Legal false := {
    schema := List.all_eq_true.1 (by decide)
    host := List.all_eq_true.1 (by decide)
    port := List.all_eq_true.1 (by decide)
    number := by decide
    path := List.all_eq_true.1 (by decide)
    query := fun c hc ↦ .inl (List.all_eq_true.1 (by decide : x.query.all isUrlChar) c hc)
    fragment := fun c hc ↦ .inl (List.all_eq_true.1 (by decide : x.fragment.all isUrlChar) c hc)
    queryStart := fun c hc ↦ by obtain rfl := Option.some.inj hc; decide
    fragmentStart := fun c hc ↦ by obtain rfl := Option.some.inj hc; decide
    connect := by decide
    absolute := fun _ c hc ↦ (Option.some.inj hc).symm
    origin := by decide
    last := by decide }
  exact text_of_encode hx (by decide) .zero

end JnetLib.Http
