import JnetLib.Http.SectionReader
import JnetLib.Http.Leftover

/-!
# Where a message ends

`Stream` reads a connection byte by byte, apart from the parser: the header sections with their
fields, and behind each the body its fields announce, of a number of bytes or in chunks up to the
empty line behind the last chunk and its trailer (`Frame`). It counts the header sections that have
ended.

`Journal` follows the results an `http_socket` delivers, and compares them with what has been read:
every message has one `req`, delivered with its header section; parts of its body and one `fin` come
behind it; and the `fin` has been delivered when the bytes of the message have been consumed. `Good`
is the invariant of one call of the parser, with `Place` for its state. It rests on
`Section.Reads` in a header section and on `Parser.frame` in a body.
-/

namespace JnetLib.Http

/-! ### Bodies -/

/-- What is still to come of a body: a number of bytes; or, in chunks, the line with the size of
the next chunk, read up to its first digit, behind a digit, in its extension, or up to its line
feed; the bytes of a chunk and its line end; a line of the trailer from its beginning, or from
inside; the line feed of the empty line. -/
inductive Frame
  | bytes (n : ℕ)
  | sizeStart
  | size (n : ℕ)
  | extension (n : ℕ)
  | sizeEnd (n : ℕ)
  | data (n : ℕ)
  | dataEnd
  | dataFeed
  | lineStart
  | inLine
  | ending
  | over
  | malformed
  deriving DecidableEq, Repr

namespace Frame

/-- `n` bytes to come. -/
def ofLength (n : ℕ) : Frame := if n = 0 then .over else .bytes n

/-- `n` bytes of a chunk to come. -/
def ofData (n : ℕ) : Frame := if n = 0 then .dataEnd else .data n

/-- A body with the delimiter `d`. -/
def ofDelimiter : Delimiter → Frame
  | .chunked => .sizeStart
  | .length n => ofLength n

/-- What has been read of a body with a byte more. -/
def next : Frame → Byte → Frame
  | .bytes n, _ => ofLength (n - 1)
  | .sizeStart, b =>
    match unhex b with
    | some d => .size d
    | none => .malformed
  | .size n, b =>
    if b = CR then .sizeEnd n
    else
      match unhex b with
      | some d => .size (n * 16 + d)
      | none => if b = ';' ∨ b = ' ' then .extension n else .malformed
  | .extension n, b => if b = CR then .sizeEnd n else .extension n
  | .sizeEnd n, b =>
    if b ≠ LF then .malformed else if n = 0 then .lineStart else .data n
  | .data n, _ => ofData (n - 1)
  | .dataEnd, b => if b = CR then .dataFeed else .malformed
  | .dataFeed, b => if b = LF then .sizeStart else .malformed
  | .lineStart, b => if b = CR then .ending else if b = LF then .over else .inLine
  | .inLine, b => if b = LF then .lineStart else .inLine
  | .ending, b => if b = LF then .over else .malformed
  | .over, _ => .over
  | .malformed, _ => .malformed

end Frame

/-! ### Connections -/

/-- Where the reader of a connection is: between two messages, in a header section, or in a body. -/
inductive Stand
  | lead
  | head (s : Section)
  | body (f : Frame)
  deriving DecidableEq, Repr

/-- A body that may have ended. -/
def Stand.ofFrame (f : Frame) : Stand := if f = .over then .lead else .body f

/-- The reader of a connection, and how many header sections have ended. -/
structure Stream where
  stand : Stand
  heads : ℕ
  deriving DecidableEq, Repr

namespace Stream

/-- Before the first byte. -/
def start : Stream := ⟨.lead, 0⟩

/-- What has been read of a stream with a byte more. Line ends in front of a message do not count.
-/
def next (s : Stream) (b : Byte) : Stream :=
  match s.stand with
  | .lead => if b = CR ∨ b = LF then s else { s with stand := .head .request }
  | .head sec =>
    match (sec.next b).fields with
    | some fs => ⟨.ofFrame (.ofDelimiter (delimiter fs)), s.heads + 1⟩
    | none => { s with stand := .head (sec.next b) }
  | .body f => { s with stand := .ofFrame (f.next b) }

/-- The bytes of a connection so far. -/
def read (bytes : List Byte) : Stream := bytes.foldl next start

theorem read_append (l m : List Byte) : read (l ++ m) = m.foldl next (read l) :=
  List.foldl_append

/-- The fields of the header section that a line feed would end. -/
def fields (s : Stream) : List Field :=
  match s.stand with
  | .head sec => ((sec.next LF).fields).getD []
  | _ => []

/-- A chunk whose size is being read is no larger than the parser can store. -/
def Fits (s : Stream) : Prop :=
  match s.stand with
  | .body (.size n) => n < 2 ^ 64
  | _ => True

instance (s : Stream) : Decidable s.Fits := by
  unfold Fits
  split <;> infer_instance

variable {s : Stream} {f : Frame}

theorem next_lead {b : Byte} (h : s.stand = .lead) (hb : b = CR ∨ b = LF) : s.next b = s := by
  rw [next, h]
  exact if_pos hb

theorem next_body (h : s.stand = .body f) (b : Byte) :
    s.next b = { s with stand := .ofFrame (f.next b) } := by
  rw [next, h]

/-- Bytes of a body of a given length, but for the last one. -/
theorem foldl_ofLength {n : ℕ} (h : s.stand = .body (.ofLength n)) (l : List Byte)
    (hl : l.length < n) :
    l.foldl next s = { s with stand := .body (.ofLength (n - l.length)) } := by
  induction l generalizing s n with
  | nil =>
    rw [List.length_nil, Nat.sub_zero, ← h]
    rfl
  | cons b l ih =>
    rw [List.length_cons] at hl ⊢
    have hn : n ≠ 0 := by omega
    have hpred : n - 1 ≠ 0 := by omega
    have hstep : s.next b = { s with stand := .body (.ofLength (n - 1)) } := by
      rw [next_body h, Frame.ofLength, if_neg hn, Frame.next, Stand.ofFrame, if_neg]
      rw [Frame.ofLength, if_neg hpred]
      exact nofun
    rw [List.foldl_cons, hstep, ih rfl (by omega), Nat.sub_sub, Nat.add_comm 1]

/-- Bytes of a chunk. -/
theorem foldl_ofData {n : ℕ} (h : s.stand = .body (.ofData n)) (l : List Byte)
    (hl : l.length ≤ n) : l.foldl next s = { s with stand := .body (.ofData (n - l.length)) } := by
  induction l generalizing s n with
  | nil =>
    rw [List.length_nil, Nat.sub_zero, ← h]
    rfl
  | cons b l ih =>
    rw [List.length_cons] at hl ⊢
    have hn : n ≠ 0 := by omega
    have hstep : s.next b = { s with stand := .body (.ofData (n - 1)) } := by
      rw [next_body h, Frame.ofData, if_neg hn, Frame.next, Stand.ofFrame, if_neg]
      rw [Frame.ofData]
      split <;> exact nofun
    rw [List.foldl_cons, hstep, ih rfl (by omega), Nat.sub_sub, Nat.add_comm 1]

end Stream

/-! ### The callbacks of the operation -/

theorem RequestOp.passed_due (op : RequestOp) (result : Result) :
    (op.due result).passed = if op.continuous then some result else none := by
  rw [due]
  split <;> rfl

theorem RequestOp.pause_due (op : RequestOp) (result : Result) :
    (op.due result).reply.pause = !op.continuous := by
  rw [due]
  split
  · next h => rw [h]; rfl
  · next h => rw [Bool.not_eq_true _ |>.mp h]; rfl

theorem RequestOp.ret_due (op : RequestOp) (result : Result) : (op.due result).reply.ret = 0 := by
  rw [due]
  split <;> rfl

/-- `http_parser_parse_url` returns zero or one. -/
theorem httpParserParseUrl_le_one (uri : List Byte) (isConnect : Bool) (u : HttpParserUrl) :
    (httpParserParseUrl uri isConnect u).1 ≤ 1 := by
  rw [httpParserParseUrl]
  dsimp only
  split_ifs <;> simp

/-- What `http_parser_parse_url` returns in `on_headers_complete`. -/
def RequestOp.urlCode (op : RequestOp) (method : Method) : ℕ :=
  (httpParserParseUrl op.request.uri (method == .connect) op.request.uriOffset).1

theorem RequestOp.handle_of_accepted {op : RequestOp} {method : Method} (h : op.urlCode method = 0)
    (buffer httpMajor httpMinor : ℕ) (upgrade : Bool) :
    ∃ (op' : RequestOp) (r : Result), op'.continuous = op.continuous ∧ r.type = .req ∧
      handle buffer op (.headersComplete method httpMajor httpMinor upgrade) = op'.due r := by
  have hzero : (httpParserParseUrl op.request.uri (method == .connect)
      op.request.uriOffset).1 = 0 := h
  rw [handle, onHeadersComplete]
  dsimp only
  rw [if_pos hzero]
  refine ⟨_, _, ?_, ?_, rfl⟩ <;> rfl

theorem RequestOp.handle_of_rejected {op : RequestOp} {method : Method}
    (h : op.urlCode method ≠ 0) (buffer httpMajor httpMinor : ℕ) (upgrade : Bool) :
    (handle buffer op (.headersComplete method httpMajor httpMinor upgrade)).reply =
        ⟨1, false⟩ ∧
      (handle buffer op (.headersComplete method httpMajor httpMinor upgrade)).passed = none := by
  have hone : (httpParserParseUrl op.request.uri (method == .connect)
      op.request.uriOffset).1 = 1 :=
    Nat.le_antisymm (httpParserParseUrl_le_one _ _ _) (Nat.pos_of_ne_zero h)
  rw [handle, onHeadersComplete]
  dsimp only
  rw [if_neg (by rw [hone]; decide), hone]
  exact ⟨rfl, rfl⟩

/-! ### URLs -/

/-- `on_headers_complete` is called with a URL that `http_parser_parse_url` rejects, of a request
that does not ask for another protocol. -/
def RequestOp.refuses (op : RequestOp) : Callback → Bool
  | .headersComplete method _ _ upgrade =>
    !upgrade && op.urlCode method != 0
  | _ => false

/-- The operation refuses the URL in one of the callbacks. -/
def RequestOp.refusesAny (buffer : ℕ) : RequestOp → List Callback → Bool
  | _, [] => false
  | op, c :: l => op.refuses c || (handle buffer op c).op.refusesAny buffer l

theorem RequestOp.refusesAny_concat (buffer : ℕ) (op : RequestOp) (l : List Callback)
    (c : Callback) : op.refusesAny buffer (l ++ [c]) =
      (op.refusesAny buffer l || (op.handleAll buffer l).refuses c) := by
  induction l generalizing op with
  | nil => exact Bool.or_false _
  | cons a l ih =>
    rw [List.cons_append, refusesAny, refusesAny, ih, handleAll_cons, Bool.or_assoc]

/-! ### The journal -/

/-- What has been seen of the results. -/
structure Journal where
  /-- The `req` of a message has been delivered, and its `fin` has not. -/
  isOpen : Bool
  /-- How many times a `req` has been delivered. -/
  requests : ℕ
  /-- The last URL has been rejected. -/
  rejected : Bool
  /-- The results have come in their order, and with the bytes of their messages. -/
  sound : Bool
  deriving DecidableEq, Repr

namespace Journal

/-- Before the first message. -/
def start : Journal := ⟨false, 0, false, true⟩

/-- A result without an error. -/
def deliver (j : Journal) : ResultType → Journal
  | .req => { j with isOpen := true, requests := j.requests + 1, sound := j.sound && !j.isOpen }
  | .dat => { j with sound := j.sound && j.isOpen }
  | .fin => { j with isOpen := false, sound := j.sound && j.isOpen }

/-- A callback, of a call that is given `data` behind the bytes `before`. The byte that begins a
message is the last of those its mark counts: it must come between two messages. -/
def note (before data : List Byte) (j : Journal) (op : RequestOp) (c : Callback) (er : ℕ) :
    Journal :=
  match c with
  | .messageBegin =>
    { j with sound := j.sound && !j.isOpen &&
        (Stream.read (before ++ data.take (er - 1))).stand == .lead }
  | .headersComplete method _ _ _ => { j with rejected := op.urlCode method != 0 }
  | _ => j

/-- What the journal notes of a callback, and of the result that is passed on from inside it. -/
def see (before data : List Byte) (buffer : ℕ) (j : Journal) (op : RequestOp) (c : Callback)
    (er : ℕ) : Journal :=
  match (RequestOp.handle buffer op c).passed with
  | none => j.note before data op c er
  | some r => (j.note before data op c er).deliver r.type

/-- The callbacks of one call. -/
def after (before data : List Byte) (buffer : ℕ) :
    Journal → RequestOp → List (Callback × ℕ) → Journal
  | j, _, [] => j
  | j, op, a :: l =>
    (j.see before data buffer op a.1 a.2).after before data buffer
      (RequestOp.handle buffer op a.1).op l

/-- The results delivered are those of the bytes consumed. Between two messages there has been a
`req` and a `fin` for every header section; in a body, a `req` for every header section, and the
last `fin` is still to come; and in a header section there is no new `req` before its last line
feed. -/
def isSettled (j : Journal) (s : Stream) : Bool :=
  match s.stand with
  | .lead => !j.isOpen && j.requests == s.heads
  | .head sec =>
    if j.isOpen then j.requests == s.heads + 1 && (sec.next LF).fields.isSome
    else j.requests == s.heads
  | .body _ => j.isOpen && j.requests == s.heads

theorem after_concat (before data : List Byte) (buffer : ℕ) (j : Journal) (op : RequestOp)
    (l : List (Callback × ℕ)) (c : Callback) (er : ℕ) :
    j.after before data buffer op (l ++ [(c, er)]) =
      (j.after before data buffer op l).see before data buffer
        (op.handleAll buffer (l.map Prod.fst)) c er := by
  induction l generalizing j op with
  | nil => rfl
  | cons a l ih => exact ih _ _

/-- A part of a body comes behind the `req`. -/
theorem deliver_dat {j : Journal} (hsound : j.sound = true) (hopen : j.isOpen = true) :
    j.deliver .dat = j := by
  obtain ⟨isOpen, requests, rejected, sound⟩ := j
  obtain rfl : isOpen = true := hopen
  obtain rfl : sound = true := hsound
  rfl

end Journal

/-! ### Between two bytes -/

/-- Where a line of a header section or a trailer stands in the states of the parser. -/
def State.line : State → Option Frame
  | .headerFieldStart | .headerValueLws => some .lineStart
  | .headerField | .headerValueStart | .headerValue | .headerAlmostDone => some .inLine
  | .headersAlmostDone => some .ending
  | _ => none

theorem State.line_ne_over {s : State} {f : Frame} (h : s.line = some f) : f ≠ .over := by
  cases s <;> cases h <;> exact nofun

/-- What the parser takes to be still to come of a body. -/
def Parser.frame (q : Parser) : Option Frame :=
  match q.state with
  | .bodyIdentity => some (.ofLength q.contentLength)
  | .messageDone => some (.ofLength 1)
  | .chunkSizeStart => some .sizeStart
  | .chunkSize => some (.size q.contentLength)
  | .chunkParameters => some (.extension q.contentLength)
  | .chunkSizeAlmostDone => some (.sizeEnd q.contentLength)
  | .chunkData => some (.ofData q.contentLength)
  | .chunkDataAlmostDone => some .dataEnd
  | .chunkDataDone => some .dataFeed
  | s => if q.flags.trailing then s.line else none

/-- What the state of the parser and the journal say of the bytes read: they end between two
messages, in a header section, in front of its last line feed, or in a body. -/
inductive Place (s : Stream) (j : Journal) (q : Parser) : Prop
  | between (hs : q.state = .startReq ∨ q.state = .dead) (hstand : s.stand = .lead)
      (hopen : j.isOpen = false) (hcount : j.requests = s.heads)
  | head (sec : Section) (hstand : s.stand = .head sec) (hreads : sec.Reads q)
      (ht : q.flags.trailing = false) (hskip : q.flags.skipbody = false) (hopen : j.isOpen = false)
      (hcount : j.requests = s.heads)
  | done (sec : Section) (fs : List Field) (hs : q.state = .headersDone)
      (hstand : s.stand = .head sec) (hend : (sec.next LF).fields = some fs)
      (hdelimiter : q.delimiter = delimiter fs) (hskip : q.flags.skipbody = false)
      (hopen : j.isOpen = true) (hcount : j.requests = s.heads + 1)
  | body (f : Frame) (hstand : s.stand = .body f) (hframe : q.frame = some f)
      (hpos : q.state = .bodyIdentity → q.contentLength ≠ 0) (hopen : j.isOpen = true)
      (hcount : j.requests = s.heads)

/-- All is well. -/
structure Good (s : Stream) (j : Journal) (q : Parser) : Prop where
  sound : j.sound = true
  accepted : j.rejected = false
  upgrade : q.upgrade = false
  place : Place s j q

/-- Where all is well the results are those of the bytes. -/
theorem Place.isSettled {s : Stream} {j : Journal} {q : Parser} (h : Place s j q) :
    j.isSettled s = true := by
  cases h with
  | between _ hstand hopen hcount =>
    rw [Journal.isSettled, hstand]
    dsimp only
    rw [hopen, hcount, beq_self_eq_true]
    rfl
  | head sec hstand _ _ _ hopen hcount =>
    rw [Journal.isSettled, hstand]
    dsimp only
    rw [hopen, hcount, if_neg Bool.false_ne_true, beq_self_eq_true]
  | done sec fs _ hstand hend _ _ hopen hcount =>
    rw [Journal.isSettled, hstand]
    dsimp only
    rw [hopen, hcount, if_pos rfl, hend, beq_self_eq_true]
    rfl
  | body f hstand _ _ hopen hcount =>
    rw [Journal.isSettled, hstand]
    dsimp only
    rw [hopen, hcount, beq_self_eq_true]
    rfl

section Places

variable {s : Stream} {j : Journal} {q q' : Parser} {f : Frame}

/-- The fields that matter. -/
theorem Good.congr (h : Good s j q) (hs : q'.state = q.state) (hf : q'.flags = q.flags)
    (hl : q'.contentLength = q.contentLength) (hp : q'.headerState = q.headerState)
    (hi : q'.index = q.index) (hu : q'.upgrade = q.upgrade) : Good s j q' := by
  refine ⟨h.sound, h.accepted, hu.trans h.upgrade, ?_⟩
  have hframe : q'.frame = q.frame := by rw [Parser.frame, Parser.frame, hs, hf, hl]
  have hdelimiter : q'.delimiter = q.delimiter := by
    rw [Parser.delimiter, Parser.delimiter, hf, hl]
  cases h.place with
  | between h hstand hopen hcount => exact .between (hs ▸ h) hstand hopen hcount
  | head sec hstand hreads ht hskip hopen hcount =>
    exact .head sec hstand (hreads.congr hs hf hl hp hi) (hf ▸ ht) (hf ▸ hskip) hopen hcount
  | done sec fs h hstand hend hdelim hskip hopen hcount =>
    exact .done sec fs (hs.trans h) hstand hend (hdelimiter.trans hdelim) (hf ▸ hskip) hopen hcount
  | body f hstand hread hpos hopen hcount =>
    exact .body f hstand (hframe.trans hread) (hs ▸ hl ▸ hpos) hopen hcount

theorem Parser.frame_of_line (h : q.state.line = some f) :
    q.frame = if q.flags.trailing then some f else none := by
  unfold Parser.frame
  split <;> first
    | (next hs => rw [hs] at h; cases h)
    | rw [h]

theorem Parser.frame_of_inLine (h : q.state.inLine = true) : q.frame = none := by
  have hline : q.state.line = none := by
    cases hs : q.state <;> rw [hs] at h <;> first | rfl | cases h
  unfold Parser.frame
  split <;> first
    | (next hs => rw [hs] at h; cases h)
    | rw [hline, ite_self]

/-- The states of a header section. -/
theorem Section.Reads.state {sec : Section} (h : sec.Reads q) :
    q.state.inLine = true ∨ q.state.line ≠ none := by
  cases h with
  | request h => exact .inl h
  | fieldStart h | field h | valueStart h | value h | almostDone h | lws h | ending h =>
    rw [h]
    exact .inr (Option.some_ne_none _)

/-- While the parser reads it, a section has not ended. -/
theorem Section.Reads.fields {sec : Section} (h : sec.Reads q) : sec.fields = none := by
  cases h <;> rfl

/-- Between two messages. -/
theorem Place.of_between (h : Place s j q) (hs : q.state = .startReq ∨ q.state = .dead) :
    s.stand = .lead ∧ j.isOpen = false ∧ j.requests = s.heads := by
  cases h with
  | between _ hstand hopen hcount => exact ⟨hstand, hopen, hcount⟩
  | head sec _ hreads =>
    have h := hreads.state
    rcases hs with hs | hs <;> rw [hs] at h <;> exact h.elim nofun fun h ↦ absurd rfl h
  | done _ _ h => rcases hs with hs | hs <;> rw [hs] at h <;> cases h
  | body f hstand hframe =>
    rcases hs with hs | hs <;>
    · rw [Parser.frame, hs] at hframe
      simp [State.line] at hframe

/-- In a body. -/
theorem Place.of_frame (h : Place s j q) (hf : q.frame = some f) : s.stand = .body f ∧
    (q.state = .bodyIdentity → q.contentLength ≠ 0) ∧ j.isOpen = true ∧ j.requests = s.heads := by
  cases h with
  | body f' hstand hframe hpos hopen hcount =>
    obtain rfl := Option.some.inj (hframe.symm.trans hf)
    exact ⟨hstand, hpos, hopen, hcount⟩
  | between h =>
    rcases h with h | h <;>
    · rw [Parser.frame, h] at hf
      simp [State.line] at hf
  | head sec _ hreads ht =>
    rcases hreads.state with h | h
    · rw [Parser.frame_of_inLine h] at hf
      cases hf
    · obtain ⟨f', h⟩ := Option.ne_none_iff_exists'.1 h
      rw [Parser.frame_of_line h, ht] at hf
      cases hf
  | done _ _ h =>
    rw [Parser.frame, h] at hf
    simp [State.line] at hf

/-- In the request line. -/
theorem Place.of_inLine (h : Place s j q) (hs : q.state.inLine = true) :
    ∃ sec, s.stand = .head sec ∧ sec.Reads q ∧ q.flags.trailing = false ∧
      q.flags.skipbody = false ∧ j.isOpen = false ∧ j.requests = s.heads := by
  cases h with
  | between h => rcases h with h | h <;> rw [h] at hs <;> cases hs
  | head sec hstand hreads ht hskip hopen hcount =>
    exact ⟨sec, hstand, hreads, ht, hskip, hopen, hcount⟩
  | done _ _ h => rw [h] at hs; cases hs
  | body f hstand hframe =>
    rw [Parser.frame_of_inLine hs] at hframe
    cases hframe

/-- In a header section. -/
theorem Place.of_head (h : Place s j q) (hs : q.state.line = some f)
    (ht : q.flags.trailing = false) : ∃ sec, s.stand = .head sec ∧ sec.Reads q ∧
      q.flags.skipbody = false ∧ j.isOpen = false ∧ j.requests = s.heads := by
  cases h with
  | between h => rcases h with h | h <;> rw [h] at hs <;> cases hs
  | head sec hstand hreads _ hskip hopen hcount =>
    exact ⟨sec, hstand, hreads, hskip, hopen, hcount⟩
  | done _ _ h => rw [h] at hs; cases hs
  | body f hstand hframe =>
    rw [Parser.frame_of_line hs, ht] at hframe
    cases hframe

/-- A byte of a line of a header section or of a trailer keeps the place. -/
theorem Place.of_line {f' : Frame} {ch : Byte} (h : Place s j q) (hs : q.state.line = some f)
    (ht : q'.flags.trailing = q.flags.trailing) (hskip : q'.flags.skipbody = q.flags.skipbody)
    (hs' : q'.state.line = some f') (hf : f.next ch = f')
    (hreads : ∀ sec : Section, sec.Reads q → (sec.next ch).Reads q') : Place (s.next ch) j q' := by
  cases h with
  | between h => rcases h with h | h <;> rw [h] at hs <;> cases hs
  | head sec hstand hsec ht' hskip' hopen hcount =>
    have hnext : s.next ch = { s with stand := .head (sec.next ch) } := by
      rw [Stream.next, hstand]
      dsimp only
      rw [(hreads sec hsec).fields]
    rw [hnext]
    exact .head _ rfl (hreads sec hsec) (ht.trans ht') (hskip.trans hskip') hopen hcount
  | done _ _ h => rw [h] at hs; cases hs
  | body g hstand hframe hpos hopen hcount =>
    rw [Parser.frame_of_line hs] at hframe
    obtain ⟨htrailing, hg⟩ := Option.ite_none_right_eq_some.1 hframe
    obtain rfl := Option.some.inj hg
    rw [Stream.next_body hstand, hf, Stand.ofFrame, if_neg (State.line_ne_over hs')]
    refine .body f' rfl ?_ (fun hstate ↦ ?_) hopen hcount
    · rw [Parser.frame_of_line hs', ht, if_pos htrailing]
    · rw [hstate] at hs'
      cases hs'

end Places

end JnetLib.Http
