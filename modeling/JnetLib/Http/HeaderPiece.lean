import JnetLib.Http.HeaderLines

/-!
# A header section in pieces

The parser is given a header section piece by piece. After each byte its state, its mark and the
operation behind the callbacks made so far stand for what `Scan` has read: `Between` says so of two
pieces, `Piece.Located` inside a call, where the callback for a name may still be to be made.
`Within` is where the loop of a call goes on, `Left` where the call returns; a call that comes to
`on_headers_complete` has landed there (`Exec.Landed`).

The rules at the end are for the places that the next modules distinguish (`InHead`): what a
callback for a part of the section does (`InHead.passed`), and where an error ends the call
(`InHead.error`).
-/

namespace JnetLib.Http

/-! ### Between two pieces -/

/-- The states of a request line behind its first byte. -/
def State.inLine : State → Bool
  | .reqMethod | .reqSpacesBeforeUrl | .reqSchema | .reqSchemaSlash | .reqSchemaSlashSlash
  | .reqSchemaSlashSlashEnd | .reqHost | .reqPortStart | .reqPort | .reqPath
  | .reqQueryStringStart | .reqQueryString | .reqFragmentStart | .reqFragment | .reqHttpStart
  | .reqHttpH | .reqHttpHT | .reqHttpHTT | .reqHttpHTTP | .reqFirstHttpMajor | .reqHttpMajor
  | .reqFirstHttpMinor | .reqHttpMinor | .reqLineAlmostDone => true
  | _ => false

/-- The name of a method has no line feed. -/
theorem charAt_ne_LF (m : Method) (i : ℕ) : charAt (httpMethodStr m) i ≠ LF := by
  have hmem : LF ∉ httpMethodStr m := by cases m <;> decide +kernel
  rw [charAt]
  cases hi : (httpMethodStr m)[i]? with
  | none => decide
  | some b =>
    rintro rfl
    exact hmem (List.mem_of_getElem? hi)

theorem ne_LF_of_switchMethod {m m' : Method} {index : ℕ} {ch : Byte}
    (h : switchMethod m index ch = .ok m') : ch ≠ LF := by
  rintro rfl
  rw [switchMethod] at h
  split_ifs at h <;> simp_all +decide

theorem ne_LF_of_isNum {ch : Byte} (h : ¬(!isNum ch) = true) : ch ≠ LF := by
  rintro rfl
  exact h (by decide)

/-- What can be in a name. -/
theorem ne_of_token {ch : Byte} (h : token ch ≠ 0) : ch ≠ LF ∧ ch ≠ CR ∧ ch ≠ ':' := by
  refine ⟨?_, ?_, ?_⟩ <;>
  · rintro rfl
    exact h (by decide)

/-- The scanner stays in the request line, or gives up. -/
theorem parseUrlChar_inLine {s : State} (hs : s.inLine = true) (ch : Byte) (isConnect : Bool) :
    (parseUrlChar s ch isConnect).inLine = true ∨ parseUrlChar s ch isConnect = .dead := by
  cases s <;> first
    | exact absurd hs (by decide)
    | exact .inr rfl
    | simp only [parseUrlChar]
      split_ifs <;> decide

/-- At a line feed it gives up. -/
theorem parseUrlChar_LF (s : State) (isConnect : Bool) : parseUrlChar s LF isConnect = .dead := by
  cases s <;> cases isConnect <;> decide

/-- `on_message_begin` has been called, and the header section is not that of a trailer. -/
structure Begun (begun : Prop) (q : Parser) : Prop where
  begun : begun
  trailing : q.flags.trailing = false

/-- What the state of the parser and the entries of the request say of the bytes read. While a value
is read, only the names are settled. -/
inductive Between (begun : Prop) (q : Parser) (v : Entries) : Scan → Prop
  | lead (hs : q.state = .startReq) : Between begun q v .lead
  | line (hs : q.state.inLine = true) (hb : Begun begun q) (hv : v = entries []) :
    Between begun q v .request
  | fieldStart (done : List HeaderLine) (last : Option HeaderLine)
    (hs : q.state = .headerFieldStart) (hb : Begun begun q)
    (hv : v = entries (done ++ last.toList)) : Between begun q v (.fresh done last)
  | field (done : List HeaderLine) (line : HeaderLine) (hs : q.state = .headerField)
    (hb : Begun begun q) (hl : line.valued = false) (hv : v = entries (done ++ [line])) :
    Between begun q v (.text done line)
  | valueStart (done : List HeaderLine) (line : HeaderLine) (hs : q.state = .headerValueStart)
    (hb : Begun begun q) (hl : line.valued = true)
    (hv : v.names = (entries (done ++ [line])).names) : Between begun q v (.text done line)
  | value (done : List HeaderLine) (line : HeaderLine) (hs : q.state = .headerValue)
    (hb : Begun begun q) (hl : line.valued = true)
    (hv : v.names = (entries (done ++ [line])).names) : Between begun q v (.text done line)
  | almostDone (done : List HeaderLine) (line : HeaderLine) (hs : q.state = .headerAlmostDone)
    (hb : Begun begun q) (hv : v = entries (done ++ [line])) : Between begun q v (.text done line)
  | lws (done : List HeaderLine) (line : HeaderLine) (hs : q.state = .headerValueLws)
    (hb : Begun begun q) (hv : v = entries (done ++ [line])) :
    Between begun q v (.fresh done (some line))
  | ending (done : List HeaderLine) (hs : q.state = .headersAlmostDone) (hb : Begun begun q)
    (hv : v = entries done) : Between begun q v (.ending done)

namespace Between

variable {begun begun' : Prop} {q q' : Parser} {v : Entries} {s : Scan}

theorem mono (h : Between begun q v s) (hb : begun → begun') (hs : q'.state = q.state)
    (ht : q'.flags.trailing = q.flags.trailing) : Between begun' q' v s := by
  have hbegun : Begun begun q → Begun begun' q' := fun h ↦ ⟨hb h.begun, ht.trans h.trailing⟩
  cases h with
  | lead h => exact .lead (hs.trans h)
  | line h hb hv => exact .line (hs.symm ▸ h) (hbegun hb) hv
  | fieldStart done last h hb hv => exact .fieldStart done last (hs.trans h) (hbegun hb) hv
  | field done line h hb hl hv => exact .field done line (hs.trans h) (hbegun hb) hl hv
  | valueStart done line h hb hl hv => exact .valueStart done line (hs.trans h) (hbegun hb) hl hv
  | value done line h hb hl hv => exact .value done line (hs.trans h) (hbegun hb) hl hv
  | almostDone done line h hb hv => exact .almostDone done line (hs.trans h) (hbegun hb) hv
  | lws done line h hb hv => exact .lws done line (hs.trans h) (hbegun hb) hv
  | ending done h hb hv => exact .ending done (hs.trans h) (hbegun hb) hv

/-- In a name. -/
theorem of_headerField (h : Between begun q v s) (hs : q.state = .headerField) :
    ∃ done line, s = .text done line ∧ Begun begun q ∧ line.valued = false ∧
      v = entries (done ++ [line]) := by
  cases h with
  | field done line _ hb hl hv => exact ⟨done, line, rfl, hb, hl, hv⟩
  | line h => rw [hs] at h; cases h
  | _ => simp_all

/-- In a value. -/
theorem of_headerValue (h : Between begun q v s) (hs : q.state = .headerValue) :
    ∃ done line, s = .text done line ∧ Begun begun q ∧ line.valued = true ∧
      v.names = (entries (done ++ [line])).names := by
  cases h with
  | value done line _ hb hl hv => exact ⟨done, line, rfl, hb, hl, hv⟩
  | line h => rw [hs] at h; cases h
  | _ => simp_all

end Between

/-! ### Callbacks -/

/-- `on_headers_complete`. -/
def Callback.isHeadersComplete : Callback → Bool
  | .headersComplete _ _ _ _ => true
  | _ => false

/-- `on_headers_complete` is among the callbacks made. -/
def Headed (l : List (Callback × ℕ)) : Prop := ∃ c ∈ l, c.1.isHeadersComplete = true

theorem Headed.mono {l m : List (Callback × ℕ)} (h : Headed l) (hm : l <+: m) : Headed m :=
  h.imp fun _ hc ↦ ⟨hm.subset hc.1, hc.2⟩

theorem not_headed_concat {l : List (Callback × ℕ)} {c : Callback} {er : ℕ} (h : ¬Headed l)
    (hc : c.isHeadersComplete = false) : ¬Headed (l ++ [(c, er)]) := by
  rintro ⟨a, ha, htrue⟩
  rcases List.mem_append.1 ha with ha | ha
  · exact h ⟨a, ha, htrue⟩
  · rw [List.mem_singleton.1 ha, hc] at htrue
    cases htrue

/-! ### One piece -/

/-- A piece of the input, the operation that receives it, the bytes of the message before, and
whether `on_message_begin` has been called for them. -/
structure Piece where
  buffer : ℕ
  op : RequestOp
  begun : Prop
  past : List Byte
  data : List Byte

namespace Piece

variable (P : Piece)

/-- The answers of the operation's callbacks. -/
abbrev reply : Answers := P.op.answers P.buffer

/-- The operation behind the callbacks `l`. -/
def after (l : List (Callback × ℕ)) : RequestOp := P.op.handleAll P.buffer (l.map Prod.fst)

/-- What has been read up to the offset `p`. -/
def scan (p : ℕ) : Scan := Scan.read (P.past ++ P.data.take p)

/-- `on_message_begin` has been called. -/
def BegunBy (l : List (Callback × ℕ)) : Prop := P.begun ∨ .messageBegin ∈ l.map Prod.fst

/-- What holds where a callback is made in a header section: the flag is initialised and there is an
entry to go to, and at the end the entries are those of the lines. -/
def Noted (l : List (Callback × ℕ)) : Callback → ℕ → Prop
  | .data .headerField _ _, _ => P.BegunBy l ∧ (P.after l).Grounded
  | .data .headerValue _ _, _ => P.BegunBy l ∧ (P.after l).request.headers ≠ []
  | .headersComplete _ _ _ _, er => (P.after l).view = entries (P.scan er).lines
  | _, _ => True

/-- Every callback up to the end of the header section is noted as it should be. -/
def Proper (l : List (Callback × ℕ)) : Prop :=
  ∀ m c er r, l = m ++ (c, er) :: r → ¬Headed m → P.Noted m c er

variable {P} {l : List (Callback × ℕ)} {c : Callback} {er : ℕ}

theorem proper_nil : P.Proper [] :=
  fun m _ _ _ h _ ↦ absurd h.symm (List.append_ne_nil_of_right_ne_nil m (List.cons_ne_nil _ _))

/-- The callbacks stay proper with the next one. -/
theorem Proper.concat (h : P.Proper l) (hc : ¬Headed l → P.Noted l c er) :
    P.Proper (l ++ [(c, er)]) := by
  intro m c' er' r heq hm
  rcases List.eq_nil_or_concat r with rfl | ⟨r, a, rfl⟩
  · obtain ⟨rfl, hlast⟩ := List.append_inj' heq rfl
    obtain ⟨rfl, rfl⟩ := Prod.mk.inj (List.cons.inj hlast).1
    exact hc hm
  · rw [List.concat_eq_append, ← List.cons_append, ← List.append_assoc] at heq
    exact h m c' er' r (List.append_inj' heq rfl).1 hm

/-- Behind the end of the section any callback may follow. -/
theorem Proper.of_headed (h : P.Proper l) (hl : Headed l) {m : List (Callback × ℕ)}
    (hm : l <+: m) : P.Proper m := by
  obtain ⟨r, rfl⟩ := hm
  induction r using List.reverseRecOn with
  | nil => rwa [List.append_nil]
  | append_singleton r a ih =>
    rw [← List.append_assoc]
    exact ih.concat fun hno ↦ absurd (hl.mono (List.prefix_append l r)) hno

/-! ### Inside a call -/

end Piece

/-- No mark is set, but for the URL's. -/
def Exec.Unmarked (x : Exec) : Prop := ∀ which, which ≠ .url → x.marks which = none

/-- How a call ends that comes to the end of the section: with an error, paused there, or paused at
the end of a message without body. The callbacks made before are `m`. -/
inductive Exec.Landed (x : Exec) (m : List (Callback × ℕ)) (c : Callback) (er : ℕ) : Prop
  | failed (hcalls : x.calls = m ++ [(c, er)]) (he : x.parser.httpErrno.Fatal)
  | head (hcalls : x.calls = m ++ [(c, er)]) (hs : x.parser.state = .headersDone)
    (he : x.parser.httpErrno = .paused)
  | message (er' : ℕ) (hcalls : x.calls = m ++ [(c, er)] ++ [(.messageComplete, er')])
    (hs : x.parser.state = .startReq ∨ x.parser.state = .dead) (he : x.parser.httpErrno = .paused)

/-- `y` differs from `x` in nothing the places depend on, but for the state. -/
structure Exec.Near (y x : Exec) : Prop where
  errno : y.parser.httpErrno = x.parser.httpErrno
  trailing : y.parser.flags.trailing = x.parser.flags.trailing
  calls : y.calls = x.calls
  marks : y.marks = x.marks

/-- One mark is set, and perhaps the URL's. -/
structure Exec.MarkedAt (x : Exec) (which : DataCallback) (m : ℕ) : Prop where
  eq_some : x.marks which = some m
  eq_none : ∀ other, other ≠ .url → other ≠ which → x.marks other = none

namespace Piece

variable (P : Piece)

/-- The operation behind the callbacks made. -/
abbrev now (x : Exec) : RequestOp := P.after x.calls

/-- The relation of `Between` with what is marked taken into account: the callback for a name is
still to be made. -/
inductive Located (x : Exec) (p : ℕ) : Prop
  | plain (hm : x.Unmarked) (hf : x.parser.state ≠ .headerField)
    (hv : x.parser.state ≠ .headerValue)
    (h : Between (P.BegunBy x.calls) x.parser (P.now x).view (P.scan p))
  | field (m : ℕ) (hm : x.MarkedAt .headerField m) (hmp : m ≤ p)
    (hs : x.parser.state = .headerField) (hg : (P.now x).Grounded)
    (h : Between (P.BegunBy x.calls) x.parser
      ((P.now x).onHeaderField ((P.data.drop m).take (p - m))).view (P.scan p))
  | value (m : ℕ) (hm : x.MarkedAt .headerValue m) (hs : x.parser.state = .headerValue)
    (h : Between (P.BegunBy x.calls) x.parser (P.now x).view (P.scan p))

/-- Where the loop goes on. In continuous mode it can do so behind the end of the section. -/
structure Within (x : Exec) (p : ℕ) : Prop where
  proper : P.Proper x.calls
  place : ¬Headed x.calls ∧ P.Located x p ∨ P.op.continuous = true ∧ Headed x.calls

/-- Where the function returns. How a call ends that comes to the end of the section is said for an
operation that is not in continuous mode. -/
structure Left (x : Exec) (n : ℕ) : Prop where
  proper : P.Proper x.calls
  paused : ¬Headed x.calls → x.parser.httpErrno ≠ .paused
  between : ¬Headed x.calls → x.parser.httpErrno = .ok →
    Between (P.BegunBy x.calls) x.parser (P.now x).view (P.scan n)
  landed : P.op.continuous = false → Headed x.calls → ∃ m c er,
    ¬Headed m ∧ c.isHeadersComplete = true ∧ x.Landed m c er

variable {P} {x y : Exec} {p m : ℕ} {ch : Byte} {c : Callback} {er : ℕ}

/-! ### Bytes and callbacks -/

theorem scan_succ (hch : P.data[p]? = some ch) : P.scan (p + 1) = (P.scan p).next ch := by
  rw [scan, List.take_add_one, hch, Option.toList_some, ← List.append_assoc, Scan.read_concat]
  rfl

theorem span_succ (hmp : m ≤ p) (hch : P.data[p]? = some ch) :
    (P.data.drop m).take (p + 1 - m) = (P.data.drop m).take (p - m) ++ [ch] := by
  have hlast : (P.data.drop m)[p - m]? = some ch := by
    rw [List.getElem?_drop, Nat.add_sub_cancel' hmp, hch]
  rw [Nat.sub_add_comm hmp, List.take_add_one, hlast, Option.toList_some]

theorem span_first (hch : P.data[p]? = some ch) : (P.data.drop p).take (p + 1 - p) = [ch] := by
  rw [span_succ (Nat.le_refl p) hch, Nat.sub_self, List.take_zero, List.nil_append]

theorem after_concat (l : List (Callback × ℕ)) (c : Callback) (er : ℕ) :
    P.after (l ++ [(c, er)]) = (RequestOp.handle P.buffer (P.after l) c).op := by
  rw [after, List.map_append, RequestOp.handleAll_append]
  rfl

theorem reply_history (x : Exec) (c : Callback) :
    P.reply (x.history c) = (RequestOp.handle P.buffer (P.now x) c).reply :=
  RequestOp.answers_concat _ _ _ _

theorem BegunBy.concat {l : List (Callback × ℕ)} (h : P.BegunBy l) :
    P.BegunBy (l ++ [(c, er)]) := by
  refine h.imp_right fun hmem ↦ ?_
  rw [List.map_append]
  exact List.mem_append_left _ hmem

/-- A callback for a part of the header section lets the parser go on. -/
theorem meets_data {I R : Exec → ℕ → Prop} {which : DataCallback} {last : ℕ} {k : Exec → Flow}
    (hwhich : which ≠ .body) (hok : x.parser.httpErrno = .ok)
    (hnone : x.marks which = none → (k x).Meets I R)
    (hsome : ∀ m, x.marks which = some m →
      (k { x.passed (Exec.since P.data which m last) er with
        marks := Function.update x.marks which none }).Meets I R) :
    (x.callbackData P.reply P.data which last er k).Meets I R := by
  refine Exec.meets_callbackData hok hnone fun m hm ↦ ⟨fun hstop ↦ ?_, fun _ _ ↦ hsome m hm⟩
  have hreply : P.reply (x.history (Exec.since P.data which m last)) = ⟨0, false⟩ := by
    rw [reply_history]
    cases which with
    | url => rfl
    | headerField => rfl
    | headerValue => rfl
    | body => exact absurd rfl hwhich
  rw [hreply] at hstop
  simp at hstop

/-! ### Places -/

theorem unmarked_update {which : DataCallback} (h : x.MarkedAt which m) (hy : y.marks =
    Function.update x.marks which none) : y.Unmarked := by
  intro other hother
  rw [hy]
  by_cases heq : other = which
  · rw [heq, Function.update_self]
  · rw [Function.update_of_ne heq, h.eq_none other hother heq]

theorem markedAt_mark (h : x.Unmarked) {which : DataCallback} (hwhich : which ≠ .url) (p : ℕ) :
    (x.mark which p).MarkedAt which p :=
  ⟨Exec.marks_mark_self (h which hwhich) p,
    fun other hother hne ↦ (Exec.marks_mark_of_ne x hne p).trans (h other hother)⟩

/-- In the header section: no error, and no `on_headers_complete` yet. -/
structure InHead (P : Piece) (x : Exec) : Prop where
  errno : x.parser.httpErrno = .ok
  proper : P.Proper x.calls
  notHeaded : ¬Headed x.calls

theorem InHead.congr (h : P.InHead x) (he : y.parser.httpErrno = x.parser.httpErrno)
    (hc : y.calls = x.calls) : P.InHead y :=
  ⟨he.trans h.errno, hc.symm ▸ h.proper, hc.symm ▸ h.notHeaded⟩

theorem InHead.within (h : P.InHead x) (hl : P.Located x p) : P.Within x p :=
  ⟨h.proper, .inl ⟨h.notHeaded, hl⟩⟩

/-- An error ends the call. -/
theorem InHead.error {e : HttpErrno} {n : ℕ} (h : P.InHead x) (hc : y.calls = x.calls)
    (he : e.Fatal) : (y.error e n).Meets P.Within P.Left where
  proper := hc.symm ▸ h.proper
  paused _ := he.2
  between _ hok := absurd hok he.1
  landed _ hhead := absurd (hc ▸ hhead) h.notHeaded

/-- A callback for a part of the section. -/
theorem InHead.passed (h : P.InHead x) (hc : c.isHeadersComplete = false)
    (hnoted : P.Noted x.calls c er) : P.InHead (x.passed c er) :=
  ⟨h.errno, h.proper.concat fun _ ↦ hnoted, not_headed_concat h.notHeaded hc⟩

end Piece

end JnetLib.Http
