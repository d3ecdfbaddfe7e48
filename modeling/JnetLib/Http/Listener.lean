import JnetLib.Http.Parsing

/-!
# Listeners

A stream reaches the parser in pieces, and where one piece ends and the next begins shows in the
callbacks: a span is reported in as many fragments as there are pieces with a part of it. A
`Listener` is someone to whom this makes no difference: two fragments of a span tell it what the two
in one tell it. `feed` is what a listener and a parser come to that are fed with pieces, and
`Fed.Agrees` compares two of them.

Below are the spans of the states (`State.span`), the marks that the parser has made at the
beginning of a call (`initialMarks_of_some`), and the bytes between two places in a piece (`slice`).
-/

namespace JnetLib.Http

/-! ### Listeners -/

/-- Someone who is told a parser's callbacks and answers them. A fragment may come from anywhere,
and two fragments of a span are one. A message begins afresh. Only its end pauses the parser. -/
structure Listener (S : Type*) where
  tell : S → Callback → S
  answer : S → Callback → Reply
  tell_off : ∀ s which off bytes, tell s (.data which off bytes) = tell s (.data which 0 bytes)
  tell_tell : ∀ s which a b,
    tell (tell s (.data which 0 a)) (.data which 0 b) = tell s (.data which 0 (a ++ b))
  tell_begin : ∀ s s', tell s .messageBegin = tell s' .messageBegin
  answer_data : ∀ s which off bytes, answer s (.data which off bytes) = ⟨0, false⟩
  answer_begin : ∀ s, answer s .messageBegin = ⟨0, false⟩
  pause_iff : ∀ s c, (answer s c).pause = true ↔ c = .messageComplete

namespace Listener

variable {S : Type*} (L : Listener S)

/-- What the callbacks of a call make of the state. -/
def told (s : S) (calls : List (Callback × ℕ)) : S := (calls.map Prod.fst).foldl L.tell s

/-- The answers in a call that begins in the state `s`. -/
def answers (s : S) : Answers := fun l ↦
  match l.getLast? with
  | none => ⟨0, false⟩
  | some c => L.answer (l.dropLast.foldl L.tell s) c

@[simp]
theorem told_nil (s : S) : L.told s [] = s :=
  rfl

theorem told_concat (s : S) (calls : List (Callback × ℕ)) (c : Callback) (er : ℕ) :
    L.told s (calls ++ [(c, er)]) = L.tell (L.told s calls) c := by
  simp [told]

/-- The answer to a callback is that of the state the callbacks before it have left. -/
theorem answers_concat (s : S) (l : List Callback) (c : Callback) :
    L.answers s (l ++ [c]) = L.answer (l.foldl L.tell s) c := by
  simp [answers]

theorem answers_history (s : S) (x : Exec) (c : Callback) :
    L.answers s (x.history c) = L.answer (L.told s x.calls) c :=
  L.answers_concat s _ c

theorem pausesAtEnd (s : S) : (L.answers s).PausesAtEnd := fun l ↦ by
  rw [answers_concat]
  exact (L.pause_iff _ _).2 rfl

end Listener

/-- Between two messages. -/
def State.idle : State → Bool
  | .startReq | .dead => true
  | _ => false

/-- In the middle of a message, or at its end. -/
def Parser.Tells (q : Parser) : Prop :=
  ¬q.httpErrno.Fatal ∧ (q.httpErrno = .ok → q.state.idle = false)

/-- How far a stream has been read: the parser, the listener, and how many bytes are consumed. -/
structure Fed (S : Type*) where
  parser : Parser
  state : S
  consumed : ℕ

namespace Fed

variable {S : Type*}

/-- Two readings of a stream agree, but for what a listener has been told before a message, and of
spans that an error cuts short. -/
structure Agrees (f g : Fed S) : Prop where
  parser : f.parser = g.parser
  consumed : f.consumed = g.consumed
  state : f.parser.Tells → f.state = g.state

theorem Agrees.refl (f : Fed S) : Agrees f f :=
  ⟨rfl, rfl, fun _ ↦ rfl⟩

theorem Agrees.symm {f g : Fed S} (h : f.Agrees g) : g.Agrees f :=
  ⟨h.parser.symm, h.consumed.symm, fun hg ↦ (h.state (h.parser ▸ hg)).symm⟩

theorem Agrees.trans {f g h : Fed S} (hfg : f.Agrees g) (hgh : g.Agrees h) : f.Agrees h :=
  ⟨hfg.parser.trans hgh.parser, hfg.consumed.trans hgh.consumed,
    fun hf ↦ (hfg.state hf).trans (hgh.state (hfg.parser ▸ hf))⟩

end Fed

namespace Listener

variable {S : Type*} (L : Listener S)

/-- A call with one more piece, unless there is an error number. -/
def next (f : Fed S) (piece : List Byte) : Fed S :=
  if f.parser.httpErrno = .ok then
    let r := f.parser.execute (L.answers f.state) piece
    ⟨r.1.parser, L.told f.state r.1.calls, f.consumed + r.2⟩
  else f

/-- The pieces of a stream, one after the other. -/
def feed (f : Fed S) (pieces : List (List Byte)) : Fed S := pieces.foldl L.next f

/-- The bytes of a piece, as pieces of their own. -/
def bytewise (l : List Byte) : List (List Byte) := l.map fun ch ↦ [ch]

@[simp]
theorem feed_nil (f : Fed S) : L.feed f [] = f :=
  rfl

@[simp]
theorem feed_cons (f : Fed S) (piece : List Byte) (pieces : List (List Byte)) :
    L.feed f (piece :: pieces) = L.feed (L.next f piece) pieces :=
  rfl

@[simp]
theorem feed_append (f : Fed S) (l m : List (List Byte)) :
    L.feed f (l ++ m) = L.feed (L.feed f l) m :=
  List.foldl_append

@[simp]
theorem bytewise_append (l m : List Byte) : bytewise (l ++ m) = bytewise l ++ bytewise m :=
  List.map_append

theorem next_of_ok {f : Fed S} (hok : f.parser.httpErrno = .ok) (piece : List Byte) :
    L.next f piece = ⟨(f.parser.execute (L.answers f.state) piece).1.parser,
      L.told f.state (f.parser.execute (L.answers f.state) piece).1.calls,
      f.consumed + (f.parser.execute (L.answers f.state) piece).2⟩ :=
  if_pos hok

/-- Behind an error number nothing is read. -/
theorem feed_of_ne_ok {f : Fed S} (h : f.parser.httpErrno ≠ .ok) (l : List (List Byte)) :
    L.feed f l = f := by
  induction l with
  | nil => rfl
  | cons piece l ih => rw [feed_cons, next, if_neg h, ih]

end Listener

/-! ### Spans -/

/-- The span a state is in the middle of, but for a body. -/
def State.span : State → Option DataCallback
  | .headerField => some .headerField
  | .headerValue => some .headerValue
  | .reqPath | .reqSchema | .reqSchemaSlash | .reqSchemaSlashSlash | .reqSchemaSlashSlashEnd
  | .reqPortStart | .reqPort | .reqQueryStringStart | .reqQueryString | .reqHost
  | .reqFragmentStart | .reqFragment => some .url
  | _ => none

/-- In a message, but in the middle neither of a span nor of the bytes of a body. -/
def State.plain (s : State) : Bool :=
  s.span.isNone && s != .bodyIdentity && s != .chunkData && !s.idle

/-- No mark. -/
def noMarks : DataCallback → Option ℕ := fun _ ↦ none

/-- One mark is set, and no other. -/
def onlyMark (which : DataCallback) (m : ℕ) : DataCallback → Option ℕ :=
  Function.update noMarks which (some m)

theorem initialMarks_of_none {q : Parser} (h : q.state.span = none) : q.initialMarks = noMarks := by
  funext which
  cases hs : q.state <;> rw [hs] at h <;> cases h <;> cases which <;>
    simp only [Parser.initialMarks, hs] <;> rfl

theorem initialMarks_of_some {q : Parser} {which : DataCallback} (h : q.state.span = some which) :
    q.initialMarks = onlyMark which 0 := by
  funext other
  cases hs : q.state <;> rw [hs] at h <;> cases h <;> cases other <;>
    simp only [Parser.initialMarks, hs] <;> rfl

/-- The bytes from `m` up to `p`. -/
def slice (data : List Byte) (m p : ℕ) : List Byte := (data.drop m).take (p - m)

@[simp]
theorem slice_self (data : List Byte) (m : ℕ) : slice data m m = [] := by
  simp [slice]

theorem slice_succ {data : List Byte} {m p : ℕ} {ch : Byte} (hm : m ≤ p)
    (hch : data[p]? = some ch) : slice data m (p + 1) = slice data m p ++ [ch] := by
  have hget : (data.drop m)[p - m]? = some ch := by
    rw [List.getElem?_drop, Nat.add_sub_cancel' hm]
    exact hch
  rw [slice, slice, Nat.sub_add_comm hm, List.take_add_one, hget, Option.toList_some]

theorem slice_append (data : List Byte) {m p k : ℕ} (hm : m ≤ p) (hk : p ≤ k) :
    slice data m k = slice data m p ++ slice data p k := by
  have hlength : k - m = (p - m) + (k - p) := by omega
  rw [slice, slice, slice, hlength, List.take_add, List.drop_drop, Nat.add_sub_cancel' hm]

theorem slice_length (data : List Byte) (p : ℕ) : slice data p data.length = data.drop p := by
  rw [slice, List.take_of_length_le]
  rw [List.length_drop]

end JnetLib.Http
