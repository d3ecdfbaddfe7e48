import JnetLib.Http.Bytewise
import JnetLib.Http.Fields
import JnetLib.Http.UrlFields

/-!
# Reading a message

What the parser does with the bytes of a well-formed message, one by one: the rules follow the
message from its first letter to its last byte. A rule says what becomes of the head, which state
the parser is in, and what a listener is told; `Walks` composes the rules for the bytes of a header
section, which the parser counts.

The rules rest on `Exec.step` alone, a byte at a time: `walks_clear`, `walks_span` and `walks_end`
take what the step does to the marks and make of it what the listener is told. Each of the bytes is
given to a call of its own; that this is no loss is the matter of `Bytewise`.
-/

namespace JnetLib.Http

namespace Listener

variable {S : Type*} (L : Listener S)

/-- Fed with the bytes `l`, one by one, the parser `q` becomes `q'`, and what it tells a listener
makes `s'` of `s`. -/
def Reads (q : Parser) (s : S) (l : List Byte) (q' : Parser) (s' : S) : Prop :=
  ∀ n, L.feed ⟨q, s, n⟩ (bytewise l) = ⟨q', s', n + l.length⟩

/-- Fed with the bytes `l`, a parser that has counted `n` bytes of a header section reads them, as
long as there are not too many; the bytes it has counted are the parameter of `P` and `P'`. -/
def Walks (P : ℕ → Parser) (s : S) (l : List Byte) (P' : ℕ → Parser) (s' : S) : Prop :=
  ∀ n, n + l.length ≤ HTTP_MAX_HEADER_SIZE → L.Reads (P n) s l (P' (n + l.length)) s'

variable {L} {q q' q'' : Parser} {P P' P'' : ℕ → Parser} {s s' s'' : S} {l m : List Byte}

theorem Reads.append (hl : L.Reads q s l q' s') (hm : L.Reads q' s' m q'' s'') :
    L.Reads q s (l ++ m) q'' s'' := by
  intro n
  rw [bytewise_append, L.feed_append, hl n, hm (n + l.length), List.length_append, Nat.add_assoc]

theorem Walks.nil : L.Walks P s [] P s := fun _ _ _ ↦ rfl

theorem Walks.append (hl : L.Walks P s l P' s') (hm : L.Walks P' s' m P'' s'') :
    L.Walks P s (l ++ m) P'' s'' := by
  intro n hn
  rw [List.length_append] at hn ⊢
  rw [← Nat.add_assoc] at hn ⊢
  exact (hl n (Nat.le_of_add_right_le hn)).append (hm _ hn)

theorem Walks.cons {ch : Byte} (hl : L.Walks P s [ch] P' s') (hm : L.Walks P' s' m P'' s'') :
    L.Walks P s (ch :: m) P'' s'' :=
  Walks.append hl hm

/-- A span is told byte by byte, and that comes to telling it at once. -/
theorem tell_append (which : DataCallback) (a b : List Byte) :
    L.tell (L.tell s (.data which 0 a)) (.data which 0 b) = L.tell s (.data which 0 (a ++ b)) :=
  L.tell_tell s which a b

/-- **Bytes that are read one like the other.** -/
theorem walks_foldl {α β : Type*} {P : α → ℕ → Parser} {f : α → β → α} {b : β → Byte}
    {I : α → List β → Prop} (hI : ∀ a x l, I a (x :: l) → I (f a x) l)
    (hbyte : ∀ a x l, I a (x :: l) → L.Walks (P a) s [b x] (P (f a x)) s) {a : α} {l : List β}
    (hl : I a l) : L.Walks (P a) s (l.map b) (P (l.foldl f a)) s := by
  induction l generalizing a with
  | nil => exact .nil
  | cons x l ih => exact .cons (hbyte a x l hl) (ih (hI a x l hl))

end Listener

/-! ### One byte -/

section Bytes

open Listener Numeral

variable {S : Type*} {L : Listener S} {h h' : Head} {st st' : State} {p p' : HeaderState}
  {i i' : ℕ} {s : S} {ch : Byte} {calls : List (Callback × ℕ)}

/-- The marks a call begins with. -/
def State.marks (st : State) : DataCallback → Option ℕ :=
  match st.span with
  | none => noMarks
  | some which => onlyMark which 0

theorem parser_count (h : Head) (p : HeaderState) (i : ℕ) (hst : parsingHeader st = true) (n : ℕ) :
    Exec.count ⟨h.parser st p i n, (h.parser st p i n).initialMarks, []⟩ =
      ⟨h.parser st p i (n + 1), st.marks, []⟩ := by
  have hmarks : (h.parser st p i n).initialMarks = st.marks := by
    rw [State.marks]
    cases hspan : st.span with
    | none => exact initialMarks_of_none hspan
    | some which => exact initialMarks_of_some hspan
  rw [hmarks]
  exact if_pos hst

/-- A byte of a header section that is taken. -/
theorem walks_of_step {Y : ℕ → Exec} {s' : S} (hst : parsingHeader st = true)
    (hstep : ∀ n, Exec.step (L.answers s) [ch] ⟨h.parser st p i n, st.marks, []⟩ 0 ch =
      .next (Y n) 1)
    (hok : ∀ n, (Y n).parser.httpErrno = .ok) (hheard : ∀ n, Exec.Heard L s [ch] (Y n) 1 s')
    (hidle : ∀ n, (Y n).parser.state.idle = false) :
    L.Walks (h.parser st p i) s [ch] (fun n ↦ (Y n).parser) s' := by
  intro n hn k
  have hcount := parser_count h p i hst n
  have herrno : (h.parser st p i n).httpErrno = .ok := rfl
  refine L.next_of_heard herrno ?_ ?_ (hok _) (hheard _)
    (fun h ↦ absurd (h.symm.trans (hidle _)) nofun) k
  · rw [hcount]
    exact fun hover ↦ absurd hover.2 (Nat.not_lt.2 hn)
  · rw [hcount]
    exact hstep _

/-- A byte behind which there is no span. -/
theorem walks_clear (hst : parsingHeader st = true)
    (hstep : ∀ n, Exec.step (L.answers s) [ch] ⟨h.parser st p i n, st.marks, []⟩ 0 ch =
      .next ⟨h'.parser st' p' i' n, noMarks, calls⟩ 1)
    (hspan : st'.span = none) (hidle : st'.idle = false) :
    L.Walks (h.parser st p i) s [ch] (h'.parser st' p' i') (L.told s calls) :=
  walks_of_step hst hstep (fun _ ↦ rfl) (fun _ ↦ .clear rfl hspan hidle rfl) fun _ ↦ hidle

/-- A byte that tells the listener nothing. -/
theorem walks_silent (hst : parsingHeader st = true)
    (hstep : ∀ n, Exec.step (L.answers s) [ch] ⟨h.parser st p i n, st.marks, []⟩ 0 ch =
      .next ⟨h'.parser st' p' i' n, noMarks, []⟩ 1)
    (hspan : st'.span = none) (hidle : st'.idle = false) :
    L.Walks (h.parser st p i) s [ch] (h'.parser st' p' i') s :=
  walks_clear hst hstep hspan hidle

/-- A byte that belongs to a span. -/
theorem walks_span {which : DataCallback} (hst : parsingHeader st = true)
    (hstep : ∀ n, Exec.step (L.answers s) [ch] ⟨h.parser st p i n, st.marks, []⟩ 0 ch =
      .next ⟨h'.parser st' p' i' n, onlyMark which 0, []⟩ 1)
    (hspan : st'.span = some which) :
    L.Walks (h.parser st p i) s [ch] (h'.parser st' p' i') (L.tell s (.data which 0 [ch])) :=
  walks_of_step hst hstep (fun _ ↦ rfl) (fun _ ↦ .span which 0 (Nat.zero_le 1) rfl hspan rfl)
    fun _ ↦ Bool.eq_false_of_not_eq_true fun hidle ↦ by
      rw [State.span_of_idle (by exact hidle)] at hspan
      cases hspan

/-- A byte that stands behind a span. -/
theorem walks_end {which : DataCallback} {m : DataCallback → Option ℕ}
    (hst : parsingHeader st = true)
    (hstep : ∀ n, Exec.step (L.answers s) [ch] ⟨h.parser st p i n, st.marks, []⟩ 0 ch =
      Exec.callbackData (L.answers s) [ch] ⟨h'.parser st' p' i' n, m, []⟩ which 0 1
        fun x ↦ .next x 1)
    (hm : m = onlyMark which 0) (hspan : st'.span = none) (hidle : st'.idle = false) :
    L.Walks (h.parser st p i) s [ch] (h'.parser st' p' i') (L.tell s (.data which 0 [])) := by
  have hstep' : ∀ n, Exec.step (L.answers s) [ch] ⟨h.parser st p i n, st.marks, []⟩ 0 ch =
      .next ⟨h'.parser st' p' i' n, noMarks, [(.data which 0 [], 1)]⟩ 1 := fun n ↦
    (hstep n).trans (Exec.callbackData_of_onlyMark (x := ⟨h'.parser st' p' i' n, m, []⟩) rfl hm)
  exact walks_clear hst hstep' hspan hidle

/-- The end of a span tells a listener nothing once its bytes have been told. -/
theorem tell_nil (which : DataCallback) (a : List Byte) :
    L.tell (L.tell s (.data which 0 a)) (.data which 0 []) = L.tell s (.data which 0 a) := by
  rw [tell_append, List.append_nil]

/-! ### The request line -/

/-- The next letter of a method. -/
def nextMethod (m : Method) (i : ℕ) (ch : Byte) : Option Method :=
  if ch = 0 then none
  else if ch = charAt (httpMethodStr m) i then some m
  else (switchMethod m i ch).toOption

theorem walks_startReq {m : Method} (halpha : isAlpha ch = true) (hm : startMethod ch = some m) :
    L.Walks (h.parser .startReq p i) s [ch]
      (Head.parser ⟨.clear, ULLONG_MAX, h.httpMajor, h.httpMinor, m⟩ .reqMethod p 1)
      (L.tell s .messageBegin) := by
  have hend : ¬(ch = CR ∨ ch = LF) := by
    rintro (rfl | rfl) <;> exact absurd halpha (by decide)
  have hstep : ∀ n, Exec.step (L.answers s) [ch] ⟨h.parser .startReq p i n, noMarks, []⟩ 0 ch =
      .next ⟨Head.parser ⟨.clear, ULLONG_MAX, h.httpMajor, h.httpMinor, m⟩ .reqMethod p 1 n,
        noMarks, [(.messageBegin, 1)]⟩ 1 := by
    intro n
    show Exec.startReq _ _ 0 ch = _
    rw [Exec.startReq, if_neg hend]
    dsimp only
    rw [if_neg (by rw [halpha]; decide)]
    simp only [hm]
    exact Exec.notify_of_go rfl (L.answer_begin _)
  exact walks_clear rfl hstep rfl rfl

theorem walks_reqMethod {m : Method} (hm : nextMethod h.method i ch = some m)
    (hsp : ¬(ch = ' ' ∧ charAt (httpMethodStr h.method) i = 0)) :
    L.Walks (h.parser .reqMethod p i) s [ch]
      (Head.parser { h with method := m } .reqMethod p (i + 1)) s := by
  refine walks_silent rfl (fun n ↦ ?_) rfl rfl
  show Exec.reqMethod _ 0 ch = _
  rw [nextMethod] at hm
  split_ifs at hm with hzero heq
  · obtain rfl := Option.some.inj hm
    exact (if_neg hzero).trans ((if_neg hsp).trans (if_pos heq))
  · refine (if_neg hzero).trans ((if_neg hsp).trans ((if_neg heq).trans ?_))
    cases hswitch : switchMethod h.method i ch with
    | error e =>
      rw [hswitch] at hm
      cases hm
    | ok m' =>
      rw [hswitch] at hm
      obtain rfl := Option.some.inj hm
      dsimp only [Head.parser]
      rw [hswitch]
      rfl

/-- The letters of a method behind the first one. -/
def readMethod : Method → ℕ → List Byte → Option Method
  | m, _, [] => some m
  | m, i, ch :: l => if ch = ' ' then none else (nextMethod m i ch).bind (readMethod · (i + 1) l)

theorem walks_letters {l : List Byte} {m : Method} (hl : readMethod h.method i l = some m) :
    L.Walks (h.parser .reqMethod p i) s l
      (Head.parser { h with method := m } .reqMethod p (i + l.length)) s := by
  induction l generalizing h i with
  | nil =>
    obtain rfl := Option.some.inj hl
    exact .nil
  | cons ch l ih =>
    rw [readMethod] at hl
    split_ifs at hl with hsp
    obtain ⟨m', hm', hl'⟩ := Option.bind_eq_some_iff.1 hl
    have hrest := ih (h := { h with method := m' }) hl'
    rw [Nat.add_assoc, Nat.add_comm 1] at hrest
    exact .cons (walks_reqMethod hm' fun h ↦ hsp h.1) hrest

/-- The letters lead from the first guess to the method. -/
theorem exists_letters (m : Method) : ∃ ch l m', httpMethodStr m = ch :: l ∧ isAlpha ch = true ∧
    startMethod ch = some m' ∧ readMethod m' 1 l = some m := by
  cases m <;> exact ⟨_, _, _, rfl, by decide, rfl, by decide⟩

/-- **A method.** -/
theorem walks_method (m : Method) :
    L.Walks (h.parser .startReq p i) s (httpMethodStr m ++ [(' ' : Byte)])
      (Head.parser ⟨.clear, ULLONG_MAX, h.httpMajor, h.httpMinor, m⟩ .reqSpacesBeforeUrl p
        ((httpMethodStr m).length + 1))
      (L.tell s .messageBegin) := by
  obtain ⟨ch, l, m', hstr, halpha, hfirst, hletters⟩ := exists_letters m
  have hall : L.Walks (h.parser .startReq p i) s (httpMethodStr m)
      (Head.parser ⟨.clear, ULLONG_MAX, h.httpMajor, h.httpMinor, m⟩ .reqMethod p
        (httpMethodStr m).length) (L.tell s .messageBegin) := by
    rw [hstr, List.length_cons, Nat.add_comm l.length]
    exact .cons (walks_startReq halpha hfirst)
      (walks_letters (h := ⟨.clear, ULLONG_MAX, h.httpMajor, h.httpMinor, m'⟩) hletters)
  refine hall.append ?_
  · refine walks_silent rfl (fun n ↦ ?_) rfl rfl
    have hend : charAt (httpMethodStr m) (httpMethodStr m).length = 0 := by
      rw [charAt, List.getElem?_eq_none (Nat.le_refl _), Option.getD_none]
    show Exec.reqMethod _ 0 ' ' = _
    rw [Exec.reqMethod, if_neg (by decide), if_pos (by exact ⟨rfl, hend⟩)]
    rfl

/-- The states in which a URL can end. -/
def State.endsUrl : State → Bool
  | .reqSchemaSlashSlashEnd | .reqHost | .reqPortStart | .reqPort | .reqPath
  | .reqQueryStringStart | .reqQueryString | .reqFragmentStart | .reqFragment => true
  | _ => false

theorem parseUrlChar_of_end (st : State) (b : Bool) (hch : ch = ' ' ∨ ch = CR ∨ ch = LF) :
    parseUrlChar st ch b = .dead := by
  rcases hch with rfl | rfl | rfl <;> cases st <;> cases b <;> decide

/-- One character of a URL. -/
theorem walks_urlChar (hst : st.span = some .url)
    (hne : parseUrlChar st ch (h.method == .connect) ≠ .dead) :
    L.Walks (h.parser st p i) s [ch]
      (h.parser (parseUrlChar st ch (h.method == .connect)) p i)
      (L.tell s (.data .url 0 [ch])) := by
  have hend : ¬(ch = ' ' ∨ ch = CR ∨ ch = LF) := fun hch ↦ hne (parseUrlChar_of_end st _ hch)
  have hmarks : st.marks = onlyMark .url 0 := by rw [State.marks, hst]
  refine walks_span ?_ (fun n ↦ ?_) (Exec.span_parseUrlChar (.inr hst) hne)
  · cases st <;> first | rfl | cases hst
  · have hchar : Exec.urlChar ⟨h.parser st p i n, st.marks, []⟩ 0 ch =
        .next ⟨h.parser (parseUrlChar st ch (h.method == .connect)) p i n, st.marks, []⟩ 1 :=
      if_neg hne
    rw [← hmarks, ← hchar]
    have hschema := hend
    rw [not_or] at hend
    cases st <;> first
      | exact if_neg hschema
      | exact (if_neg hend.1).trans (if_neg hend.2)
      | cases hst

theorem walks_urlChars {u : List Byte} (hst : st.span = some .url)
    (hne : urlState (h.method == .connect) st u ≠ .dead) (a : List Byte) :
    L.Walks (h.parser st p i) (L.tell s (.data .url 0 a)) u
      (h.parser (urlState (h.method == .connect) st u) p i)
      (L.tell s (.data .url 0 (a ++ u))) := by
  induction u generalizing st a with
  | nil =>
    rw [List.append_nil]
    exact .nil
  | cons ch u ih =>
    rw [urlState, List.foldl_cons] at hne ⊢
    have hfirst : parseUrlChar st ch (h.method == .connect) ≠ .dead := fun hd ↦
      hne (by rw [hd]; exact urlState_dead _ u)
    have hrest := ih (Exec.span_parseUrlChar (.inr hst) hfirst) hne (a ++ [ch])
    rw [List.append_assoc, List.singleton_append, ← tell_append] at hrest
    exact .cons (walks_urlChar hst hfirst) hrest

/-- **A URL**, with the space behind it. -/
theorem walks_url {u : List Byte} (hu : u ≠ [])
    (hend : (urlState (h.method == .connect) .reqSpacesBeforeUrl u).endsUrl = true) :
    L.Walks (h.parser .reqSpacesBeforeUrl p i) s (u ++ [(' ' : Byte)])
      (h.parser .reqHttpStart p i) (L.tell s (.data .url 0 u)) := by
  have hdead : urlState (h.method == .connect) .reqSpacesBeforeUrl u ≠ .dead := fun hd ↦ by
    rw [hd] at hend
    cases hend
  have hall : L.Walks (h.parser .reqSpacesBeforeUrl p i) s u
      (h.parser (urlState (h.method == .connect) .reqSpacesBeforeUrl u) p i)
      (L.tell s (.data .url 0 u)) := by
    obtain ⟨ch, u, rfl⟩ := List.exists_cons_of_ne_nil hu
    have hfirst : parseUrlChar .reqSpacesBeforeUrl ch (h.method == .connect) ≠ .dead := fun hd ↦
      hdead (by rw [urlState, List.foldl_cons, hd]; exact urlState_dead _ u)
    have hsp : ch ≠ ' ' := fun hsp ↦ hfirst (parseUrlChar_of_end _ _ (.inl hsp))
    have hspan := Exec.span_parseUrlChar (.inl rfl) hfirst
    refine .cons (walks_span rfl (fun n ↦ ?_) hspan) (walks_urlChars hspan hdead [ch])
    show Exec.reqSpacesBeforeUrl _ 0 ch = _
    rw [Exec.reqSpacesBeforeUrl, if_neg hsp]
    exact if_neg hfirst
  refine hall.append ?_
  · generalize urlState (h.method == .connect) .reqSpacesBeforeUrl u = st at hend
    have hspan : st.span = some .url := by
      cases st <;> first | rfl | cases hend
    have hstep : ∀ (reply : Answers) (x : Exec), x.parser.state.endsUrl = true →
        x.step reply [(' ' : Byte)] 0 ' ' = x.reqUrl reply [(' ' : Byte)] 0 ' ' := by
      intro reply x hx
      rw [Exec.step]
      cases hst : x.parser.state <;> first | rfl | (rw [hst] at hx; cases hx)
    have hwalk : L.Walks (h.parser st p i) (L.tell s (.data .url 0 u)) [(' ' : Byte)]
        (h.parser .reqHttpStart p i) (L.tell (L.tell s (.data .url 0 u)) (.data .url 0 [])) := by
      have hmarks : st.marks = onlyMark .url 0 := by rw [State.marks, hspan]
      refine walks_end ?_ (fun n ↦ ?_) hmarks rfl rfl
      · cases st <;> first | rfl | cases hend
      · rw [hstep _ _ hend, Exec.reqUrl, if_pos rfl]
        rfl
    rw [tell_nil] at hwalk
    exact hwalk

/-- `HTTP/`. -/
theorem walks_http : L.Walks (h.parser .reqHttpStart p i) s (ascii ['H', 'T', 'T', 'P', '/'])
    (h.parser .reqFirstHttpMajor p i) s := by
  have hletter : ∀ (st st' : State) (c : Byte), st.span = none → st'.span = none →
      st'.idle = false → parsingHeader st = true →
      (∀ n, Exec.step (L.answers s) [c] ⟨h.parser st p i n, st.marks, []⟩ 0 c =
        .next ⟨h.parser st' p i n, st.marks, []⟩ 1) →
      L.Walks (h.parser st p i) s [c] (h.parser st' p i) s := by
    intro st st' c hspan hspan' hidle hst hstep
    refine walks_silent hst (fun n ↦ ?_) hspan' hidle
    rw [hstep, State.marks, hspan]
  refine .cons (hletter .reqHttpStart .reqHttpH _ rfl rfl rfl rfl fun _ ↦ rfl) ?_
  refine .cons (hletter .reqHttpH .reqHttpHT _ rfl rfl rfl rfl fun _ ↦ rfl) ?_
  refine .cons (hletter .reqHttpHT .reqHttpHTT _ rfl rfl rfl rfl fun _ ↦ rfl) ?_
  refine .cons (hletter .reqHttpHTT .reqHttpHTTP _ rfl rfl rfl rfl fun _ ↦ rfl) ?_
  exact hletter .reqHttpHTTP .reqFirstHttpMajor _ rfl rfl rfl rfl fun _ ↦ rfl

/-- A decimal digit. -/
def decimalByte (d : ℕ) : Byte := UInt8.ofNat (48 + d)

/-- A number in decimal. -/
def decimal (n : ℕ) : List Byte := (numeral 10 n).map decimalByte

theorem decimalByte_spec {d : ℕ} (hd : d < 10) : isNum (decimalByte d) = true ∧
    (decimalByte d - '0').toNat = d ∧ decimalByte d ≠ '.' ∧ decimalByte d ≠ CR ∧
      decimalByte d ≠ LF ∧ (d ≠ 0 → ¬(decimalByte d < '1' ∨ '9' < decimalByte d)) := by
  have hall : ∀ d < 10, isNum (decimalByte d) = true ∧ (decimalByte d - '0').toNat = d ∧
      decimalByte d ≠ '.' ∧ decimalByte d ≠ CR ∧ decimalByte d ≠ LF ∧
        (d ≠ 0 → ¬(decimalByte d < '1' ∨ '9' < decimalByte d)) := by
    decide
  exact hall d hd

/-- The digits of a version number. -/
def VersionDigits (a : ℕ) (l : List ℕ) : Prop := (∀ d ∈ l, d < 10) ∧ value 10 a l ≤ 999

theorem VersionDigits.tail {a d : ℕ} {l : List ℕ} (hl : VersionDigits a (d :: l)) :
    VersionDigits (a * 10 + d) l :=
  ⟨fun e he ↦ hl.1 e (List.mem_cons_of_mem d he), hl.2⟩

theorem VersionDigits.head {a d : ℕ} {l : List ℕ} (hl : VersionDigits a (d :: l)) :
    d < 10 ∧ ¬999 < a * 10 + d :=
  ⟨hl.1 d List.mem_cons_self, Nat.not_lt.2 (Nat.le_trans (le_value (by decide) _ l) hl.2)⟩

/-- The digits of a version number, the first of which is the number so far. -/
theorem exists_versionDigits {n : ℕ} (hn : n ≤ 999) : ∃ d l, d < 10 ∧ (n ≠ 0 → d ≠ 0) ∧
    decimal n = decimalByte d :: l.map decimalByte ∧ VersionDigits d l ∧ value 10 d l = n := by
  obtain ⟨d, l, hl, hd⟩ := exists_numeral_eq_cons 10 n
  have hlt : ∀ c ∈ d :: l, c < 10 := fun c hc ↦ lt_of_mem_numeral (by decide) (hl ▸ hc)
  have hvalue : value 10 d l = n := by
    rw [← value_numeral 10 n, hl, value_cons, Nat.zero_mul, Nat.zero_add]
  refine ⟨d, l, hlt d List.mem_cons_self, hd, ?_,
    ⟨fun c hc ↦ hlt c (List.mem_cons_of_mem d hc), ?_⟩, hvalue⟩
  · rw [decimal, hl, List.map_cons]
  · rw [hvalue]
    exact hn

/-- **The number before the point.** -/
theorem walks_major {n : ℕ} (hn : 1 ≤ n ∧ n ≤ 999) :
    L.Walks (h.parser .reqFirstHttpMajor p i) s (decimal n ++ [('.' : Byte)])
      (Head.parser { h with httpMajor := n } .reqFirstHttpMinor p i) s := by
  obtain ⟨d, l, hd, hzero, hdecimal, hl, hvalue⟩ := exists_versionDigits hn.2
  obtain ⟨-, hdigit, -, -, -, hrange⟩ := decimalByte_spec hd
  rw [hdecimal]
  have hfirst : L.Walks (h.parser .reqFirstHttpMajor p i) s [decimalByte d]
      (Head.parser { h with httpMajor := d } .reqHttpMajor p i) s := by
    refine walks_silent rfl (fun n ↦ ?_) rfl rfl
    show Exec.reqFirstHttpMajor _ 0 (decimalByte d) = _
    rw [Exec.reqFirstHttpMajor, if_neg (hrange (hzero (Nat.ne_of_gt hn.1))), hdigit]
    rfl
  have hdigits : L.Walks (Head.parser { h with httpMajor := d } .reqHttpMajor p i) s
      (l.map decimalByte) (Head.parser { h with httpMajor := n } .reqHttpMajor p i) s := by
    rw [← hvalue]
    refine walks_foldl (P := fun a ↦ Head.parser { h with httpMajor := a } .reqHttpMajor p i)
      (I := VersionDigits) (fun a d l hl ↦ hl.tail) (fun a e l hl ↦ ?_) hl
    obtain ⟨he, hle⟩ := hl.head
    obtain ⟨hnum, hdigit, hdot, -⟩ := decimalByte_spec he
    refine walks_silent rfl (fun n ↦ ?_) rfl rfl
    show Exec.reqHttpMajor _ 0 (decimalByte e) = _
    rw [Exec.reqHttpMajor, if_neg hdot, if_neg (by rw [hnum]; decide), hdigit]
    exact if_neg hle
  exact .append (.cons hfirst hdigits) (walks_silent rfl (fun _ ↦ rfl) rfl rfl)

/-- **The number behind the point**, with the end of the request line. -/
theorem walks_minor {n : ℕ} (hn : n ≤ 999) :
    L.Walks (h.parser .reqFirstHttpMinor p i) s (decimal n ++ [CR, LF])
      (Head.parser { h with httpMinor := n } .headerFieldStart p i) s := by
  obtain ⟨d, l, hd, -, hdecimal, hl, hvalue⟩ := exists_versionDigits hn
  obtain ⟨hnum, hdigit, -⟩ := decimalByte_spec hd
  rw [hdecimal]
  have hfirst : L.Walks (h.parser .reqFirstHttpMinor p i) s [decimalByte d]
      (Head.parser { h with httpMinor := d } .reqHttpMinor p i) s := by
    refine walks_silent rfl (fun n ↦ ?_) rfl rfl
    show Exec.reqFirstHttpMinor _ 0 (decimalByte d) = _
    rw [Exec.reqFirstHttpMinor, if_neg (by rw [hnum]; decide), hdigit]
    rfl
  have hdigits : L.Walks (Head.parser { h with httpMinor := d } .reqHttpMinor p i) s
      (l.map decimalByte) (Head.parser { h with httpMinor := n } .reqHttpMinor p i) s := by
    rw [← hvalue]
    refine walks_foldl (P := fun a ↦ Head.parser { h with httpMinor := a } .reqHttpMinor p i)
      (I := VersionDigits) (fun a d l hl ↦ hl.tail) (fun a e l hl ↦ ?_) hl
    obtain ⟨he, hle⟩ := hl.head
    obtain ⟨hnum, hdigit, -, hcr, hlf, -⟩ := decimalByte_spec he
    refine walks_silent rfl (fun n ↦ ?_) rfl rfl
    show Exec.reqHttpMinor _ 0 (decimalByte e) = _
    rw [Exec.reqHttpMinor, if_neg hcr, if_neg hlf, if_neg (by rw [hnum]; decide), hdigit]
    exact if_neg hle
  have hcr : L.Walks (Head.parser { h with httpMinor := n } .reqHttpMinor p i) s [CR]
      (Head.parser { h with httpMinor := n } .reqLineAlmostDone p i) s :=
    walks_silent rfl (fun _ ↦ rfl) rfl rfl
  exact .append (.cons hfirst hdigits) (.cons hcr (walks_silent rfl (fun _ ↦ rfl) rfl rfl))

/-! ### Header lines -/

/-- The name the parser takes a header's for. -/
def Header.kind (x : Header) : Option FieldName := FieldName.find (x.name.map token)

/-- What it says to the parser. -/
def Header.meaning (x : Header) : Meaning := Http.meaning x.kind x.value

/-- A header as a line. -/
def Header.line (x : Header) : List Byte := x.name ++ (ascii [':', ' '] ++ (x.value ++ [CR, LF]))

/-- A header that can be written as a line: the name consists of tokens, and the value neither
begins with a space or a tab nor contains the end of a line. -/
structure Header.Legal (x : Header) : Prop where
  name_ne : x.name ≠ []
  token : ∀ ch ∈ x.name, token ch ≠ 0
  value : ∀ ch ∈ x.value, ch ≠ CR ∧ ch ≠ LF
  first : ∀ ch ∈ x.value.head?, ch ≠ ' ' ∧ ch ≠ 9
  meaning : x.meaning ≠ .refused

instance (x : Header) : Decidable x.Legal :=
  decidable_of_iff (x.name ≠ [] ∧ (∀ ch ∈ x.name, Http.token ch ≠ 0) ∧
      (∀ ch ∈ x.value, ch ≠ CR ∧ ch ≠ LF) ∧ (∀ ch ∈ x.value.head?, ch ≠ ' ' ∧ ch ≠ 9) ∧
        x.meaning ≠ .refused)
    ⟨fun h ↦ ⟨h.1, h.2.1, h.2.2.1, h.2.2.2.1, h.2.2.2.2⟩,
      fun h ↦ ⟨h.name_ne, h.token, h.value, h.first, h.meaning⟩⟩

/-- A line can begin here. -/
def State.atLine (st : State) : Prop := st = .headerFieldStart ∨ st = .headerValueLws

theorem token_ends (hch : token ch ≠ 0) :
    ch ≠ CR ∧ ch ≠ LF ∧ ch ≠ ' ' ∧ ch ≠ 9 := by
  refine ⟨?_, ?_, ?_, ?_⟩ <;>
  · rintro rfl
    exact hch (by decide)

/-- The first letter of a line. -/
theorem walks_nameStart (h : Head) (p : HeaderState) (i : ℕ) (s : S) (hst : st.atLine)
    (hch : token ch ≠ 0) :
    ∃ p', Named p' 0 [token ch] ∧ L.Walks (h.parser st p i) s [ch]
      (h.parser .headerField p' 0) (L.tell s (.data .headerField 0 [ch])) := by
  obtain ⟨hcr, hlf, hsp, htab⟩ := token_ends hch
  obtain ⟨p', heq, hnamed⟩ := named_startField h .headerFieldStart p i hch
  refine ⟨p', hnamed, walks_span ?_ (fun n ↦ ?_) rfl⟩
  · rcases hst with rfl | rfl <;> rfl
  · have hstart : Exec.headerFieldStart (L.answers s)
      ⟨h.parser .headerFieldStart p i n, noMarks, []⟩
        0 ch = .next ⟨h.parser .headerField p' 0 n, onlyMark .headerField 0, []⟩ 1 := by
      rw [← heq n, Exec.headerFieldStart, if_neg hcr, if_neg hlf]
      exact if_neg hch
    rcases hst with rfl | rfl
    · exact hstart
    · show Exec.headerValueLws _ _ 0 ch = _
      rw [Exec.headerValueLws, if_neg (not_or.2 ⟨hsp, htab⟩)]
      exact hstart

/-- The letters behind it. -/
theorem walks_nameLetters {l w : List Byte} (hl : ∀ ch ∈ l, token ch ≠ 0) (hw : Named p i w)
    (a : List Byte) :
    ∃ p' i', Named p' i' (w ++ l.map token) ∧
      L.Walks (h.parser .headerField p i) (L.tell s (.data .headerField 0 a)) l
        (h.parser .headerField p' i') (L.tell s (.data .headerField 0 (a ++ l))) := by
  induction l generalizing p i w a with
  | nil =>
    refine ⟨p, i, by rw [List.map_nil, List.append_nil]; exact hw, ?_⟩
    rw [List.append_nil]
    exact .nil
  | cons ch l ih =>
    have hch := hl ch List.mem_cons_self
    obtain ⟨hcr, hlf, hsp, -⟩ := token_ends hch
    obtain ⟨p', i', heq, hw'⟩ := named_nextField h .headerField hw hch hsp
    obtain ⟨p'', i'', hw'', hrest⟩ :=
      ih (fun c hc ↦ hl c (List.mem_cons_of_mem ch hc)) hw' (a ++ [ch])
    rw [List.append_assoc, List.singleton_append] at hw'' hrest
    refine ⟨p'', i'', hw'', .cons ?_ hrest⟩
    rw [← tell_append]
    refine walks_span rfl (fun n ↦ ?_) rfl
    show Exec.headerField _ _ _ 0 ch = _
    rw [← heq n, Exec.headerField]
    exact if_pos hch

/-- **A name**, with the colon and a space behind it. -/
theorem walks_name (h : Head) (p : HeaderState) (i : ℕ) (s : S) {x : Header} (hx : x.Legal)
    (hst : st.atLine) :
    ∃ p' i', Behind x.kind p' ∧
      L.Walks (h.parser st p i) s (x.name ++ ascii [':', ' ']) (h.parser .headerValueStart p' i')
        (L.tell s (.data .headerField 0 x.name)) := by
  obtain ⟨name, value⟩ := x
  obtain ⟨ch, l, rfl⟩ := List.exists_cons_of_ne_nil hx.name_ne
  obtain ⟨p₁, hw, hfirst⟩ := walks_nameStart (L := L) h p i s hst
    (hx.token ch List.mem_cons_self)
  obtain ⟨p', i', hw', hrest⟩ := walks_nameLetters (L := L) (h := h) (s := s) (l := l)
    (fun c hc ↦ hx.token c (List.mem_cons_of_mem ch hc)) hw [ch]
  refine ⟨p', i', hw'.behind, .append (.cons hfirst hrest) ?_⟩
  have hcolon : L.Walks (h.parser .headerField p' i') (L.tell s (.data .headerField 0 (ch :: l)))
      [(':' : Byte)] (h.parser .headerValueStart p' i')
      (L.tell (L.tell s (.data .headerField 0 (ch :: l))) (.data .headerField 0 [])) := by
    refine walks_end rfl (fun n ↦ ?_) rfl rfl rfl
    rfl
  rw [tell_nil] at hcolon
  exact .cons hcolon (walks_silent rfl (fun _ ↦ rfl) rfl rfl)

/-- The first letter of a value. -/
theorem walks_valueStart {k : Option FieldName} (hk : Behind k p)
    (hnum : k = some .contentLength → isNum ch = true) (hend : ch ≠ CR ∧ ch ≠ LF)
    (hsp : ch ≠ ' ' ∧ ch ≠ 9) :
    ∃ h' p', InValue k h [ch] h' p' 0 ∧ L.Walks (h.parser .headerValueStart p i) s [ch]
      (h'.parser .headerValue p' 0) (L.tell s (.data .headerValue 0 [ch])) := by
  obtain ⟨h', p', heq, hin⟩ := inValue_startValue h .headerValue hk hnum
  refine ⟨h', p', hin, walks_span rfl (fun n ↦ ?_) rfl⟩
  show Exec.headerValueStart _ _ _ 0 ch = _
  rw [Exec.headerValueStart, if_neg (not_or.2 hsp)]
  dsimp only
  rw [if_neg hend.1, if_neg hend.2]
  split
  · next q hq =>
    obtain rfl := Except.ok.inj (hq.symm.trans (heq n))
    rfl
  · next e he => cases he.symm.trans (heq n)

/-- The letters behind it. -/
theorem walks_valueLetters {k : Option FieldName} {l v : List Byte} (hv : v ≠ [])
    (hin : InValue k h v h' p i)
    (hnum : k = some .contentLength → ∀ ch ∈ l, isNum ch = true ∨ ch = ' ')
    (hlt : k = some .contentLength → lengthOf (v ++ l) < ULLONG_MAX)
    (hend : ∀ ch ∈ l, ch ≠ CR ∧ ch ≠ LF) :
    ∃ h'' p' i', InValue k h (v ++ l) h'' p' i' ∧
      L.Walks (h'.parser .headerValue p i) (L.tell s (.data .headerValue 0 v)) l
        (h''.parser .headerValue p' i') (L.tell s (.data .headerValue 0 (v ++ l))) := by
  induction l generalizing h' p i v with
  | nil =>
    refine ⟨h', p, i, by rw [List.append_nil]; exact hin, ?_⟩
    rw [List.append_nil]
    exact .nil
  | cons ch l ih =>
    have hsplit : v ++ ch :: l = v ++ [ch] ++ l := by
      rw [List.append_assoc, List.singleton_append]
    obtain ⟨h₁, p₁, i₁, heq, hin₁⟩ := inValue_nextValue .headerValue hv hin
      (fun hk ↦ hnum hk ch List.mem_cons_self)
      (fun hk ↦ Nat.lt_of_le_of_lt (lengthOf_le _ l) (hsplit ▸ hlt hk))
    obtain ⟨h'', p', i', hin', hrest⟩ := ih (List.append_ne_nil_of_right_ne_nil v (by simp)) hin₁
      (fun hk c hc ↦ hnum hk c (List.mem_cons_of_mem ch hc)) (fun hk ↦ hsplit ▸ hlt hk)
      (fun c hc ↦ hend c (List.mem_cons_of_mem ch hc))
    rw [← hsplit] at hin' hrest
    refine ⟨h'', p', i', hin', .cons ?_ hrest⟩
    rw [← tell_append]
    obtain ⟨hcr, hlf⟩ := hend ch List.mem_cons_self
    refine walks_span rfl (fun n ↦ ?_) rfl
    show Exec.headerValue _ _ _ 0 ch = _
    rw [Exec.headerValue, if_neg hcr, if_neg hlf]
    split
    · next q hq =>
      obtain rfl := Except.ok.inj (hq.symm.trans (heq n))
      rfl
    · next e he => cases he.symm.trans (heq n)

/-- **A value**, with the end of the line. -/
theorem walks_value {x : Header} (hx : x.Legal) (hk : Behind x.kind p) :
    ∃ p' i', L.Walks (h.parser .headerValueStart p i) s (x.value ++ [CR, LF])
      ((h.add x.meaning).parser .headerValueLws p' i')
      (L.tell s (.data .headerValue 0 x.value)) := by
  have hm := hx.meaning
  obtain ⟨name, value⟩ := x
  dsimp only at hm ⊢
  rw [Header.meaning] at hm ⊢
  cases value with
  | nil =>
    -- the end of the line in the place of the first letter
    have hplain : meaning (Header.kind ⟨name, []⟩) [] = .plain := if_pos rfl
    rw [hplain]
    have hcr : L.Walks (h.parser .headerValueStart p i) s [CR]
        (h.parser .headerAlmostDone .general 0) (L.tell s (.data .headerValue 0 [])) :=
      walks_end rfl (fun _ ↦ rfl) rfl rfl rfl
    exact ⟨.general, 0, .cons hcr (walks_silent rfl (fun _ ↦ rfl) rfl rfl)⟩
  | cons ch l =>
    have hlength := fun hkind ↦ isLength_of_ne_refused hm hkind
    obtain ⟨h₁, p₁, hin, hfirst⟩ := walks_valueStart (L := L) (h := h) (i := i) (s := s) hk
      (fun hkind ↦ (hlength hkind).1) (hx.value ch List.mem_cons_self) (hx.first ch rfl)
    obtain ⟨h', p', i', hin', hrest⟩ := walks_valueLetters (L := L) (s := s) (l := l)
      (List.cons_ne_nil ch []) hin
      (fun hkind c hc ↦ (hlength hkind).2.1 c (List.mem_cons_of_mem ch hc))
      (fun hkind ↦ (hlength hkind).2.2) (fun c hc ↦ hx.value c (List.mem_cons_of_mem ch hc))
    have hcr : L.Walks (h'.parser .headerValue p' i') (L.tell s (.data .headerValue 0 (ch :: l)))
        [CR] (h'.parser .headerAlmostDone p' i')
        (L.tell (L.tell s (.data .headerValue 0 (ch :: l))) (.data .headerValue 0 [])) :=
      walks_end rfl (fun _ ↦ rfl) rfl rfl rfl
    rw [tell_nil] at hcr
    refine ⟨p', i',
      .append (.cons hfirst hrest) (.cons hcr (walks_silent rfl (fun n ↦ ?_) rfl rfl))⟩
    rw [← inValue_endValue (List.cons_ne_nil ch l) hin' hm]
    rfl

/-- **A header.** -/
theorem walks_header (h : Head) (p : HeaderState) (i : ℕ) (s : S) {x : Header} (hx : x.Legal)
    (hst : st.atLine) :
    ∃ p' i', L.Walks (h.parser st p i) s x.line
      ((h.add x.meaning).parser .headerValueLws p' i')
      (L.tell (L.tell s (.data .headerField 0 x.name)) (.data .headerValue 0 x.value)) := by
  obtain ⟨p₁, i₁, hk, hname⟩ := walks_name (L := L) h p i s hx hst
  obtain ⟨p', i', hvalue⟩ := walks_value (L := L) (h := h) (i := i₁)
    (s := L.tell s (.data .headerField 0 x.name)) hx hk
  refine ⟨p', i', ?_⟩
  rw [Header.line, ← List.append_assoc]
  exact hname.append hvalue

/-- **The headers**, one after the other. -/
theorem walks_headers (h : Head) (p : HeaderState) (i : ℕ) (s : S) {l : List Header}
    (hl : ∀ x ∈ l, x.Legal) (hst : st.atLine) :
    ∃ st' p' i', st'.atLine ∧ L.Walks (h.parser st p i) s (l.flatMap Header.line)
      ((l.foldl (fun h x ↦ h.add x.meaning) h).parser st' p' i')
      (l.foldl (fun s x ↦
        L.tell (L.tell s (.data .headerField 0 x.name)) (.data .headerValue 0 x.value)) s) := by
  induction l generalizing h st p i s with
  | nil => exact ⟨st, p, i, hst, .nil⟩
  | cons x l ih =>
    obtain ⟨p₁, i₁, hfirst⟩ := walks_header (L := L) h p i s
      (hl x List.mem_cons_self) hst
    obtain ⟨st', p', i', hst', hrest⟩ := ih (h.add x.meaning) p₁ i₁ _
      (fun y hy ↦ hl y (List.mem_cons_of_mem x hy)) (.inr rfl)
    exact ⟨st', p', i', hst', .append hfirst hrest⟩

end Bytes

end JnetLib.Http
