import JnetLib.Base.ErrorCode
import JnetLib.Http.Callback

/-!
# The request operation

`http_request_op` is both the receiver of a stream's completions (`receive_callback`) and the
context of the parser's callbacks, which assemble the `http::request` and decide when a result is
due. A result without an error is passed on from inside the parser in continuous mode; otherwise the
callback pauses the parser and `receive_callback` passes it on.

Which header a fragment belongs to rests on `last_field_or_value_` alone. `request_of_cut` says that
the request does not depend on how the parser cuts a header section into fragments, nor on what the
operation and the request object held before.

A `char *` is an address, and `0` the null pointer; a result's request is the object the pointer
leads to.

## What the theorem rests on

The fragments of a field or of a value are put together as long as the flag stays where it is
(`handleAll_field`, `handleAll_value`). A header begins with the flag at 1 and leaves it there
(`handleAll_header`), so headers come one behind the other (`handleAll_headers`); the flag of a new
operation is 1 and its request is cleared by `on_message_begin`, so nothing of the operation or of
the request object is left at the end.

Every name has a value here, if an empty one, as the callbacks have it; what becomes of a line
without one is the matter of `HeaderLines`.
-/

namespace JnetLib.Http

/-- `http::header`. -/
structure Header where
  name : List Byte
  value : List Byte
  deriving DecidableEq, Repr

/-- `http::request`. -/
structure Request where
  method : List Byte
  uri : List Byte
  uriOffset : HttpParserUrl
  httpVersionMajor : ℕ
  httpVersionMinor : ℕ
  headers : List Header

/-- `http_socket::type`; nothing produces a `res`. -/
inductive ResultType
  | req
  | dat
  | fin
  deriving DecidableEq, Repr

/-- `http_socket::result`. -/
structure Result where
  type : ResultType
  request : Option Request
  dataBuffer : ℕ
  dataLength : ℕ
  remainBuffer : ℕ
  remainLength : ℕ

/-- The constructor of `http_socket::result`. -/
def Result.new (type : ResultType) (request : Option Request) (buffer length : ℕ) : Result :=
  ⟨type, request, buffer, length, 0, 0⟩

/-- `http_request_op`. -/
structure RequestOp where
  continuous : Bool
  /-- 0 for field, 1 for value. -/
  lastFieldOrValue : ℕ
  messageComplete : Bool
  result : Result
  request : Request
  buf : ℕ
  bufLen : ℕ
  initBuf : ℕ
  initBufLen : ℕ

namespace RequestOp

/-- The constructor. It leaves `last_field_or_value_` as the memory has it. -/
def new (continuous : Bool) (request : Request) (buf bufLen initBuf initBufLen : ℕ)
    (lastFieldOrValue : ℕ) : RequestOp :=
  ⟨continuous, lastFieldOrValue, false, .new .fin none 0 0, request, buf, bufLen, initBuf,
    initBufLen⟩

/-! ### The parser's callbacks -/

/-- `on_message_begin`. -/
def onMessageBegin (op : RequestOp) : RequestOp :=
  { op with
    request := ⟨[], [], .zero, 0, 0, []⟩
    lastFieldOrValue := 1 }

/-- `on_url`. -/
def onUrl (op : RequestOp) (bytes : List Byte) : RequestOp :=
  { op with request := { op.request with uri := op.request.uri ++ bytes } }

/-- `on_header_field`. The last element of an empty vector is undefined in the source; here it is
left alone. -/
def onHeaderField (op : RequestOp) (bytes : List Byte) : RequestOp :=
  let headers :=
    if op.lastFieldOrValue = 1 then op.request.headers ++ [⟨[], []⟩] else op.request.headers
  { op with
    request := { op.request with
      headers := headers.modifyLast fun h ↦ { h with name := h.name ++ bytes } }
    lastFieldOrValue := 0 }

/-- `on_header_value`. -/
def onHeaderValue (op : RequestOp) (bytes : List Byte) : RequestOp :=
  { op with
    request := { op.request with
      headers := op.request.headers.modifyLast fun h ↦ { h with value := h.value ++ bytes } }
    lastFieldOrValue := 1 }

/-- What a callback leaves behind: the operation, the answer to the parser, and the result passed on
from inside. -/
structure Handled where
  op : RequestOp
  reply : Reply
  passed : Option Result

/-- A callback that returns zero and does nothing else. -/
def proceed (op : RequestOp) : Handled := ⟨op, ⟨0, false⟩, none⟩

/-- A result is passed on at once in continuous mode, and pauses the parser otherwise. -/
def due (op : RequestOp) (result : Result) : Handled :=
  if op.continuous then ⟨{ op with result := result }, ⟨0, false⟩, some result⟩
  else ⟨{ op with result := result }, ⟨0, true⟩, none⟩

/-- `on_headers_complete`. -/
def onHeadersComplete (op : RequestOp) (method : Method) (httpMajor httpMinor : ℕ) : Handled :=
  let r := httpParserParseUrl op.request.uri (method == .connect) op.request.uriOffset
  let request := { op.request with
    method := httpMethodStr method
    httpVersionMajor := httpMajor
    httpVersionMinor := httpMinor
    uriOffset := r.2 }
  let op := { op with request := request }
  if r.1 = 0 then op.due (.new .req request 0 0) else ⟨op, ⟨r.1, false⟩, none⟩

/-- `on_body`. -/
def onBody (op : RequestOp) (buffer length : ℕ) : Handled :=
  op.due (.new .dat op.request buffer length)

/-- `on_message_complete`. -/
def onMessageComplete (op : RequestOp) : Handled :=
  ⟨{ op with result := .new .fin none 0 0, messageComplete := true }, ⟨0, true⟩, none⟩

/-- The callbacks of `settings_`, for a parser that works on the bytes at `buffer`. -/
def handle (buffer : ℕ) (op : RequestOp) : Callback → Handled
  | .messageBegin => op.onMessageBegin.proceed
  | .data .url _ bytes => (op.onUrl bytes).proceed
  | .data .headerField _ bytes => (op.onHeaderField bytes).proceed
  | .data .headerValue _ bytes => (op.onHeaderValue bytes).proceed
  | .data .body off bytes => op.onBody (buffer + off) bytes.length
  | .headersComplete method httpMajor httpMinor _ => op.onHeadersComplete method httpMajor httpMinor
  | .messageComplete => op.onMessageComplete

/-- The operation behind a sequence of callbacks. -/
def handleAll (buffer : ℕ) (op : RequestOp) (l : List Callback) : RequestOp :=
  l.foldl (fun op c ↦ (handle buffer op c).op) op

/-- What the parser is told, callback by callback. -/
def answers (buffer : ℕ) (op : RequestOp) : Answers := fun l ↦
  match l.getLast? with
  | none => ⟨0, false⟩
  | some c => (handle buffer (op.handleAll buffer l.dropLast) c).reply

/-- The results passed on from inside the parser. -/
def passed (buffer : ℕ) (op : RequestOp) : List Callback → List Result
  | [] => []
  | c :: l => (handle buffer op c).passed.toList ++ passed buffer (handle buffer op c).op l

@[simp]
theorem handleAll_nil (buffer : ℕ) (op : RequestOp) : op.handleAll buffer [] = op :=
  rfl

@[simp]
theorem handleAll_cons (buffer : ℕ) (op : RequestOp) (c : Callback) (l : List Callback) :
    op.handleAll buffer (c :: l) = (handle buffer op c).op.handleAll buffer l :=
  rfl

@[simp]
theorem handleAll_append (buffer : ℕ) (op : RequestOp) (l m : List Callback) :
    op.handleAll buffer (l ++ m) = (op.handleAll buffer l).handleAll buffer m :=
  List.foldl_append

theorem due_request (op : RequestOp) (result : Result) :
    (op.due result).op.request = op.request := by
  rw [due]
  split <;> rfl

/-- What `on_headers_complete` adds to the request. -/
theorem onHeadersComplete_request (op : RequestOp) (method : Method) (httpMajor httpMinor : ℕ) :
    (op.onHeadersComplete method httpMajor httpMinor).op.request =
      { op.request with
        method := httpMethodStr method
        httpVersionMajor := httpMajor
        httpVersionMinor := httpMinor
        uriOffset := (httpParserParseUrl op.request.uri (method == .connect)
          op.request.uriOffset).2 } := by
  rw [onHeadersComplete]
  split
  · exact due_request _ _
  · rfl

/-- The answer to a callback is that of the operation the callbacks before it left. -/
@[simp]
theorem answers_concat (buffer : ℕ) (op : RequestOp) (l : List Callback) (c : Callback) :
    op.answers buffer (l ++ [c]) = (handle buffer (op.handleAll buffer l) c).reply := by
  simp [answers]

/-- The end of a message pauses the parser in either mode. -/
theorem answers_pausesAtEnd (buffer : ℕ) (op : RequestOp) : (op.answers buffer).PausesAtEnd :=
  fun l ↦ by rw [answers_concat]; rfl

end RequestOp

/-! ### A header section in fragments -/

/-- What a header section says. -/
structure HeaderSection where
  method : Method
  httpMajor : ℕ
  httpMinor : ℕ
  uri : List Byte
  headers : List Header

/-- The request a header section stands for. -/
def HeaderSection.request (sec : HeaderSection) : Request where
  method := httpMethodStr sec.method
  uri := sec.uri
  uriOffset := (httpParserParseUrl sec.uri (sec.method == .connect) .zero).2
  httpVersionMajor := sec.httpMajor
  httpVersionMinor := sec.httpMinor
  headers := sec.headers

/-- A span of the input as the parser reports it: fragments and where they are. -/
abbrev Fragments := List (ℕ × List Byte)

/-- The bytes of a span. -/
def Fragments.bytes (f : Fragments) : List Byte := (f.map Prod.snd).flatten

/-- The callbacks that report a span. -/
def Fragments.callbacks (which : DataCallback) (f : Fragments) : List Callback :=
  f.map fun x ↦ .data which x.1 x.2

/-- A header cut into fragments: at least one for the field and at least one for the value. -/
structure HeaderCut where
  field : Fragments
  value : Fragments
  field_ne_nil : field ≠ []
  value_ne_nil : value ≠ []

/-- The header in one piece. -/
def HeaderCut.header (c : HeaderCut) : Header := ⟨c.field.bytes, c.value.bytes⟩

/-- The callbacks that report a header. -/
def HeaderCut.callbacks (c : HeaderCut) : List Callback :=
  c.field.callbacks .headerField ++ c.value.callbacks .headerValue

/-- A header section as the parser reports it. -/
structure SectionCut where
  uri : Fragments
  headers : List HeaderCut

/-- The fragments are those of the section. -/
def SectionCut.Cuts (c : SectionCut) (sec : HeaderSection) : Prop :=
  c.uri.bytes = sec.uri ∧ c.headers.map HeaderCut.header = sec.headers

instance (c : SectionCut) (sec : HeaderSection) : Decidable (c.Cuts sec) :=
  inferInstanceAs (Decidable (_ ∧ _))

/-- The callbacks from the first byte of a message to the end of its header section. -/
def SectionCut.callbacks (c : SectionCut) (sec : HeaderSection) (upgrade : Bool) :
    List Callback :=
  .messageBegin :: (c.uri.callbacks .url ++ (c.headers.flatMap HeaderCut.callbacks ++
    [.headersComplete sec.method sec.httpMajor sec.httpMinor upgrade]))

namespace RequestOp

variable {buffer : ℕ} {op : RequestOp}

/-- What the callbacks of a span do to the operation, one fragment after the other. -/
theorem handleAll_callbacks (which : DataCallback) (x : ℕ × List Byte) (f : Fragments) :
    op.handleAll buffer (Fragments.callbacks which (x :: f)) =
      (handle buffer op (.data which x.1 x.2)).op.handleAll buffer (f.callbacks which) :=
  rfl

theorem bytes_cons (x : ℕ × List Byte) (f : Fragments) :
    Fragments.bytes (x :: f) = x.2 ++ f.bytes := by
  simp [Fragments.bytes]

/-- The URL's fragments are put together, and nothing else changes. -/
theorem handleAll_url (f : Fragments) (op : RequestOp) :
    op.handleAll buffer (f.callbacks .url) =
      { op with request := { op.request with uri := op.request.uri ++ f.bytes } } := by
  induction f generalizing op with
  | nil => simp [Fragments.callbacks, Fragments.bytes]
  | cons x f ih =>
    rw [handleAll_callbacks, ih, bytes_cons, ← List.append_assoc]
    rfl

/-- The operation with other headers in its request. -/
def setHeaders (op : RequestOp) (l : List Header) : RequestOp :=
  { op with request := { op.request with headers := l } }

@[simp]
theorem setHeaders_headers (op : RequestOp) (l : List Header) :
    (op.setHeaders l).request.headers = l :=
  rfl

@[simp]
theorem setHeaders_lastFieldOrValue (op : RequestOp) (l : List Header) :
    (op.setHeaders l).lastFieldOrValue = op.lastFieldOrValue :=
  rfl

@[simp]
theorem setHeaders_setHeaders (op : RequestOp) (l m : List Header) :
    (op.setHeaders l).setHeaders m = op.setHeaders m :=
  rfl

/-- After a value a field fragment opens a header. -/
theorem onHeaderField_of_value (hflag : op.lastFieldOrValue = 1) (bytes : List Byte) :
    op.onHeaderField bytes =
      { op.setHeaders (op.request.headers ++ [⟨bytes, []⟩]) with lastFieldOrValue := 0 } := by
  simp only [onHeaderField, hflag, if_true, List.modifyLast_concat, List.nil_append, setHeaders]

/-- After a field fragment another one extends the last header. -/
theorem onHeaderField_of_field {l : List Header} {h : Header}
    (hl : op.request.headers = l ++ [h]) (hflag : op.lastFieldOrValue = 0) (bytes : List Byte) :
    op.onHeaderField bytes = op.setHeaders (l ++ [⟨h.name ++ bytes, h.value⟩]) := by
  have hne : ¬op.lastFieldOrValue = 1 := by omega
  rw [onHeaderField, if_neg hne, hl, List.modifyLast_concat, ← hflag]
  rfl

/-- A value fragment extends the last header. -/
theorem onHeaderValue_eq {l : List Header} {h : Header} (hl : op.request.headers = l ++ [h])
    (bytes : List Byte) : op.onHeaderValue bytes =
      { op.setHeaders (l ++ [⟨h.name, h.value ++ bytes⟩]) with lastFieldOrValue := 1 } := by
  rw [onHeaderValue, hl, List.modifyLast_concat]
  rfl

/-- With the flag at 0, the fragments of a field extend the last header. -/
theorem handleAll_field (f : Fragments) {op : RequestOp} {l : List Header} {h : Header}
    (hl : op.request.headers = l ++ [h]) (hflag : op.lastFieldOrValue = 0) :
    op.handleAll buffer (f.callbacks .headerField) =
      op.setHeaders (l ++ [⟨h.name ++ f.bytes, h.value⟩]) := by
  induction f generalizing op h with
  | nil =>
    have hbytes : h.name ++ Fragments.bytes [] = h.name := List.append_nil _
    rw [hbytes, ← hl]
    rfl
  | cons x f ih =>
    have hfield : (handle buffer op (.data .headerField x.1 x.2)).op =
        op.setHeaders (l ++ [⟨h.name ++ x.2, h.value⟩]) :=
      onHeaderField_of_field hl hflag x.2
    rw [handleAll_callbacks, hfield, ih (setHeaders_headers _ _) hflag, setHeaders_setHeaders,
      bytes_cons, ← List.append_assoc]

/-- With the flag at 1, the fragments of a value extend the last header. -/
theorem handleAll_value (f : Fragments) {op : RequestOp} {l : List Header} {h : Header}
    (hl : op.request.headers = l ++ [h]) (hflag : op.lastFieldOrValue = 1) :
    op.handleAll buffer (f.callbacks .headerValue) =
      op.setHeaders (l ++ [⟨h.name, h.value ++ f.bytes⟩]) := by
  induction f generalizing op h with
  | nil =>
    have hbytes : h.value ++ Fragments.bytes [] = h.value := List.append_nil _
    rw [hbytes, ← hl]
    rfl
  | cons x f ih =>
    have hvalue : (handle buffer op (.data .headerValue x.1 x.2)).op =
        op.setHeaders (l ++ [⟨h.name, h.value ++ x.2⟩]) := by
      show op.onHeaderValue x.2 = _
      rw [onHeaderValue_eq hl, ← hflag]
      rfl
    rw [handleAll_callbacks, hvalue, ih (setHeaders_headers _ _) hflag, setHeaders_setHeaders,
      bytes_cons, ← List.append_assoc]

/-- **One header.** After a value, the fragments of a header add exactly that header, and the flag
is where it was. -/
theorem handleAll_header (c : HeaderCut) (hflag : op.lastFieldOrValue = 1) :
    op.handleAll buffer c.callbacks = op.setHeaders (op.request.headers ++ [c.header]) := by
  obtain ⟨field, value, hfield, hvalue⟩ := c
  obtain ⟨x, (field : Fragments), rfl⟩ := List.exists_cons_of_ne_nil hfield
  obtain ⟨y, (value : Fragments), rfl⟩ := List.exists_cons_of_ne_nil hvalue
  -- the first fragment of the field opens the header, the first one of the value closes the field
  set opened : RequestOp :=
    { op.setHeaders (op.request.headers ++ [⟨x.2, []⟩]) with lastFieldOrValue := 0 } with hopened
  have h₁ : (handle buffer op (.data .headerField x.1 x.2)).op = opened :=
    onHeaderField_of_value hflag x.2
  have h₂ : opened.handleAll buffer (field.callbacks .headerField) =
      opened.setHeaders (op.request.headers ++ [⟨x.2 ++ field.bytes, []⟩]) :=
    handleAll_field field (l := op.request.headers) (h := ⟨x.2, []⟩) rfl rfl
  have h₃ : (handle buffer (opened.setHeaders (op.request.headers ++ [⟨x.2 ++ field.bytes, []⟩]))
      (.data .headerValue y.1 y.2)).op =
        op.setHeaders (op.request.headers ++ [⟨x.2 ++ field.bytes, y.2⟩]) := by
    show onHeaderValue _ y.2 = _
    rw [onHeaderValue_eq (setHeaders_headers _ _), ← hflag]
    rfl
  have h₄ : (op.setHeaders (op.request.headers ++ [⟨x.2 ++ field.bytes, y.2⟩])).handleAll buffer
      (value.callbacks .headerValue) =
        op.setHeaders (op.request.headers ++ [⟨x.2 ++ field.bytes, y.2 ++ value.bytes⟩]) :=
    handleAll_value value (setHeaders_headers _ _) hflag
  have hsplit : op.handleAll buffer (HeaderCut.callbacks ⟨x :: field, y :: value, hfield, hvalue⟩) =
      (handle buffer ((handle buffer op (.data .headerField x.1 x.2)).op.handleAll buffer
        (field.callbacks .headerField)) (.data .headerValue y.1 y.2)).op.handleAll buffer
          (value.callbacks .headerValue) := by
    rw [HeaderCut.callbacks, handleAll_append]
    rfl
  rw [hsplit, h₁, h₂, h₃, h₄, HeaderCut.header, bytes_cons, bytes_cons]

/-- **The headers**, in their order. -/
theorem handleAll_headers (cs : List HeaderCut) {op : RequestOp}
    (hflag : op.lastFieldOrValue = 1) :
    op.handleAll buffer (cs.flatMap HeaderCut.callbacks) =
      op.setHeaders (op.request.headers ++ cs.map HeaderCut.header) := by
  induction cs generalizing op with
  | nil =>
    rw [List.map_nil, List.append_nil]
    rfl
  | cons c cs ih =>
    rw [List.flatMap_cons, handleAll_append, handleAll_header c hflag, ih (by exact hflag),
      setHeaders_headers, setHeaders_setHeaders, List.map_cons, List.append_assoc,
      List.singleton_append]

/-- The request at the end of a header section is the one the section stands for. -/
theorem request_eq {c : SectionCut} {sec : HeaderSection} (hc : c.Cuts sec) (buffer : ℕ)
    (op : RequestOp) (upgrade : Bool) :
    (op.handleAll buffer (c.callbacks sec upgrade)).request = sec.request := by
  rw [SectionCut.callbacks, handleAll_cons, handleAll_append, handleAll_url, handleAll_append,
    handleAll_headers _ (by rfl), hc.1, hc.2]
  exact onHeadersComplete_request _ _ _ _

/-- **Requests do not depend on fragmentation.** However a header section is cut, whatever operation
receives it and whatever it held before, the request at the end of the section has the section's
method, version and URL, and its headers in their order, each with its own name and value. -/
theorem request_of_cut {sec : HeaderSection} {c d : SectionCut} (hc : c.Cuts sec)
    (hd : d.Cuts sec) (buffer buffer' : ℕ) (op op' : RequestOp) (upgrade : Bool) :
    (op.handleAll buffer (c.callbacks sec upgrade)).request = sec.request ∧
      (op'.handleAll buffer' (d.callbacks sec upgrade)).request =
        (op.handleAll buffer (c.callbacks sec upgrade)).request := by
  have h := request_eq hc buffer op upgrade
  exact ⟨h, (request_eq hd buffer' op' upgrade).trans h.symm⟩

/-- A header section with an empty value, in whole spans and cut up, received by a new operation
and by one whose request holds the header of an earlier message. -/
theorem request_of_cut_two :
    let sec : HeaderSection := ⟨.get, 1, 1, [47, 97], [⟨[65], []⟩, ⟨[66, 67], [68]⟩]⟩
    let c : SectionCut := ⟨[(4, [47, 97])],
      [⟨[(0, [65])], [(2, [])], by simp, by simp⟩,
        ⟨[(5, [66, 67])], [(9, [68])], by simp, by simp⟩]⟩
    let d : SectionCut := ⟨[(4, [47]), (0, []), (0, [97])],
      [⟨[(0, [65])], [(0, []), (0, [])], by simp, by simp⟩,
        ⟨[(3, [66]), (0, [67])], [(0, []), (1, [68])], by simp, by simp⟩]⟩
    let op := new false ⟨[], [], .zero, 0, 0, []⟩ 16 32 0 0 7
    let op' := new true ⟨[71], [47], .zero, 1, 0, [⟨[90], [90]⟩]⟩ 16 32 0 0 0
    (op.handleAll 16 (c.callbacks sec false)).request = sec.request ∧
      (op'.handleAll 48 (d.callbacks sec false)).request =
        (op.handleAll 16 (c.callbacks sec false)).request := by
  intro sec c d op op'
  have hc : c.Cuts sec := by decide
  have hd : d.Cuts sec := by decide
  exact request_of_cut hc hd 16 48 op op' false

end RequestOp

end JnetLib.Http
