import JnetLib.Http.HeaderLines
import JnetLib.Http.Listener

/-!
# An operation in continuous mode as a listener

In continuous mode a caller is given the request of a message and the parts of its body from inside
the parser, and then a `fin`. `Given` is what it has been given of a message so far.

The callbacks of such an operation put fragments together, and it makes no difference to what comes
out where a span has been cut; so the operation is a `Listener` (`assembler`). It does with every
callback what the assembler does (`handle_assembly`), and gives the parser the same answers
(`answers_assembly`).
-/

namespace JnetLib.Http

/-! ### Callers -/

/-- What the caller has been given of a message: the request, unless its URL has been rejected, and
the parts of the body, put together. -/
structure Given where
  request : Option Request
  body : List Byte

namespace Given

/-- Nothing of a message yet. -/
def nothing : Given := ⟨none, []⟩

/-- What a callback of the operation `op` adds. -/
def hear (buffer : ℕ) (op : RequestOp) (g : Given) : Callback → Given
  | .messageBegin => nothing
  | .headersComplete method httpMajor httpMinor upgrade =>
    { g with
      request := (RequestOp.handle buffer op
        (.headersComplete method httpMajor httpMinor upgrade)).passed.bind
          Result.request }
  | .data .body _ bytes => { g with body := g.body ++ bytes }
  | _ => g

/-- What the callbacks of a call add. -/
def hearAll (buffer : ℕ) : RequestOp → Given → List Callback → Given
  | _, g, [] => g
  | op, g, c :: l => hearAll buffer (RequestOp.handle buffer op c).op (g.hear buffer op c) l

end Given

/-! ### The operation as a listener -/

/-- What an operation has put together of a message, and what the caller has been given. -/
structure Assembly where
  request : Request
  lastFieldOrValue : ℕ
  given : Given

/-- The state of an operation as a listener. -/
def RequestOp.assembly (op : RequestOp) (g : Given) : Assembly :=
  ⟨op.request, op.lastFieldOrValue, g⟩

namespace Assembly

/-- An operation in continuous mode with these fields. -/
def op (a : Assembly) : RequestOp := .new true a.request 0 0 0 0 a.lastFieldOrValue

/-- A callback of that operation. -/
def tell (a : Assembly) (c : Callback) : Assembly :=
  (RequestOp.handle 0 a.op c).op.assembly (a.given.hear 0 a.op c)

/-- What it answers. -/
def answer (a : Assembly) (c : Callback) : Reply := (RequestOp.handle 0 a.op c).reply

end Assembly

/-- Two fragments of a field are one: the first decides whether there is another header. -/
theorem RequestOp.onHeaderField_onHeaderField (op : RequestOp) (a b : List Byte) :
    (op.onHeaderField a).onHeaderField b = op.onHeaderField (a ++ b) := by
  have hfun : (fun h : Header ↦ { h with name := h.name ++ b }) ∘
      (fun h : Header ↦ { h with name := h.name ++ a }) =
        fun h : Header ↦ { h with name := h.name ++ (a ++ b) } := by
    funext h
    simp only [Function.comp, List.append_assoc]
  simp only [onHeaderField, Nat.zero_ne_one, if_false, modifyLast_modifyLast, hfun]

/-- Two callbacks with parts of a value add what one with both parts adds. -/
theorem RequestOp.onHeaderValue_onHeaderValue (op : RequestOp) (a b : List Byte) :
    (op.onHeaderValue a).onHeaderValue b = op.onHeaderValue (a ++ b) := by
  have hfun : (fun h : Header ↦ { h with value := h.value ++ b }) ∘
      (fun h : Header ↦ { h with value := h.value ++ a }) =
        fun h : Header ↦ { h with value := h.value ++ (a ++ b) } := by
    funext h
    simp only [Function.comp, List.append_assoc]
  simp only [onHeaderValue, modifyLast_modifyLast, hfun]

/-- **The operation does not look at the cuts.** -/
def assembler : Listener Assembly where
  tell := Assembly.tell
  answer := Assembly.answer
  tell_off a which off bytes := by cases which <;> rfl
  tell_tell a which b c := by
    cases which with
    | url =>
      simp only [Assembly.tell, RequestOp.handle, RequestOp.proceed, RequestOp.onUrl,
        RequestOp.assembly, Assembly.op, RequestOp.new, Given.hear, List.append_assoc]
    | headerField =>
      exact congrArg (RequestOp.assembly · a.given) (RequestOp.onHeaderField_onHeaderField a.op b c)
    | headerValue =>
      exact congrArg (RequestOp.assembly · a.given) (RequestOp.onHeaderValue_onHeaderValue a.op b c)
    | body =>
      simp only [Assembly.tell, RequestOp.handle, RequestOp.onBody, RequestOp.due,
        RequestOp.assembly, Assembly.op, RequestOp.new, Given.hear, List.append_assoc, if_true]
  tell_begin a a' := rfl
  answer_data a which off bytes := by cases which <;> rfl
  answer_begin a := rfl
  pause_iff a c := by
    cases c with
    | messageBegin => exact ⟨nofun, nofun⟩
    | data which off bytes => cases which <;> exact ⟨nofun, nofun⟩
    | headersComplete method httpMajor httpMinor upgrade =>
      refine ⟨fun h ↦ ?_, nofun⟩
      rw [Assembly.answer, RequestOp.handle, RequestOp.onHeadersComplete] at h
      dsimp only at h
      split at h <;> cases h
    | messageComplete => exact ⟨fun _ ↦ rfl, fun _ ↦ rfl⟩

/-! ### Operations in continuous mode -/

/-- The request at the end of the header section. -/
def RequestOp.withHead (op : RequestOp) (method : Method) (httpMajor httpMinor : ℕ) : RequestOp :=
  { op with request := { op.request with
      method := httpMethodStr method
      httpVersionMajor := httpMajor
      httpVersionMinor := httpMinor
      uriOffset := (httpParserParseUrl op.request.uri (method == .connect)
        op.request.uriOffset).2 } }

theorem RequestOp.onHeadersComplete_of_accepted {op : RequestOp} {method : Method}
    (h : (httpParserParseUrl op.request.uri (method == .connect) op.request.uriOffset).1 = 0)
    (httpMajor httpMinor : ℕ) : op.onHeadersComplete method httpMajor httpMinor =
      (op.withHead method httpMajor httpMinor).due
        (.new .req (op.withHead method httpMajor httpMinor).request 0 0) :=
  if_pos h

theorem RequestOp.onHeadersComplete_of_rejected {op : RequestOp} {method : Method}
    (h : (httpParserParseUrl op.request.uri (method == .connect) op.request.uriOffset).1 ≠ 0)
    (httpMajor httpMinor : ℕ) : op.onHeadersComplete method httpMajor httpMinor =
      ⟨op.withHead method httpMajor httpMinor,
        ⟨(httpParserParseUrl op.request.uri (method == .connect) op.request.uriOffset).1, false⟩,
        none⟩ :=
  if_neg h

section Operations

variable (buffer : ℕ) {op : RequestOp}

/-- What `on_headers_complete` does depends on the request only. -/
theorem handle_headersComplete (hop : op.continuous = true) (method : Method)
    (httpMajor httpMinor : ℕ) (upgrade : Bool) (g : Given) :
    let c := Callback.headersComplete method httpMajor httpMinor upgrade
    let h := RequestOp.handle buffer op c
    let h' := RequestOp.handle 0 (op.assembly g).op c
    h.op.request = h'.op.request ∧ h.op.lastFieldOrValue = h'.op.lastFieldOrValue ∧
      h.passed.bind Result.request = h'.passed.bind Result.request ∧ h.reply = h'.reply ∧
        h.op.continuous = true := by
  obtain ⟨continuous, flag, complete, result, request, buf, bufLen, initBuf, initBufLen⟩ := op
  obtain rfl : continuous = true := hop
  dsimp only [RequestOp.handle]
  by_cases hr : (httpParserParseUrl request.uri (method == .connect) request.uriOffset).1 = 0
  · rw [RequestOp.onHeadersComplete_of_accepted (by exact hr),
      RequestOp.onHeadersComplete_of_accepted (by exact hr)]
    exact ⟨rfl, rfl, rfl, rfl, rfl⟩
  · rw [RequestOp.onHeadersComplete_of_rejected (by exact hr),
      RequestOp.onHeadersComplete_of_rejected (by exact hr)]
    exact ⟨rfl, rfl, rfl, rfl, rfl⟩

/-- What a callback does to an operation in continuous mode is what it does to the listener. -/
theorem handle_assembly (hop : op.continuous = true) (g : Given) (c : Callback) :
    (RequestOp.handle buffer op c).op.assembly (g.hear buffer op c) =
        assembler.tell (op.assembly g) c ∧
      (RequestOp.handle buffer op c).reply = assembler.answer (op.assembly g) c ∧
      (RequestOp.handle buffer op c).op.continuous = true := by
  cases c with
  | messageBegin => exact ⟨rfl, rfl, hop⟩
  | data which off bytes =>
    cases which with
    | url => exact ⟨rfl, rfl, hop⟩
    | headerField => exact ⟨rfl, rfl, hop⟩
    | headerValue => exact ⟨rfl, rfl, hop⟩
    | body =>
      simp only [RequestOp.handle, RequestOp.onBody, RequestOp.due, hop, if_true]
      exact ⟨rfl, rfl, trivial⟩
  | headersComplete method httpMajor httpMinor upgrade =>
    obtain ⟨hrequest, hflag, hpassed, hreply, hop'⟩ :=
      handle_headersComplete buffer hop method httpMajor httpMinor upgrade g
    refine ⟨?_, hreply, hop'⟩
    simp only [assembler, Assembly.tell, RequestOp.assembly, Given.hear, hrequest, hflag, hpassed]
  | messageComplete => exact ⟨rfl, rfl, hop⟩

/-- The callbacks of a call do to the operation what they tell the assembler. -/
theorem handleAll_assembly (hop : op.continuous = true) (g : Given) (l : List Callback) :
    (op.handleAll buffer l).assembly (g.hearAll buffer op l) =
        l.foldl assembler.tell (op.assembly g) ∧
      (op.handleAll buffer l).continuous = true := by
  induction l generalizing op g with
  | nil => exact ⟨rfl, hop⟩
  | cons c l ih =>
    obtain ⟨htell, -, hop'⟩ := handle_assembly buffer hop g c
    have h := ih hop' (g.hear buffer op c)
    rw [htell] at h
    exact h

/-- The operation answers the parser as the assembler does. -/
theorem answers_assembly (hop : op.continuous = true) (g : Given) :
    op.answers buffer = assembler.answers (op.assembly g) := by
  funext l
  rcases List.eq_nil_or_concat l with rfl | ⟨l, c, rfl⟩
  · rfl
  · rw [List.concat_eq_append, RequestOp.answers_concat, Listener.answers_concat]
    obtain ⟨hall, hop'⟩ := handleAll_assembly buffer hop g l
    rw [(handle_assembly buffer hop' (g.hearAll buffer op l) c).2.1, hall]

end Operations

end JnetLib.Http
