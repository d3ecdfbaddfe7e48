import JnetLib.Http.Callback

/-!
# `http_parser_execute`

The request half of `http_parser.c`: a state machine over the bytes, with marks for what a callback
is still to be told and one label to look at a byte again. What jumps there are is acyclic, so the
states that are reached by `goto reexecute_byte` are functions of their own, and the jump is a call.

A callback answers through a function of the callbacks made so far. One that returns something else
than zero, or pauses the parser, ends the call.
-/

namespace JnetLib.Http

/-! ### The parser -/

/-- `enum header_states`. -/
inductive HeaderState
  | general
  | c
  | co
  | con
  | matchingConnection
  | matchingProxyConnection
  | matchingContentLength
  | matchingTransferEncoding
  | matchingUpgrade
  | connection
  | contentLength
  | transferEncoding
  | upgrade
  | matchingTransferEncodingChunked
  | matchingConnectionKeepAlive
  | matchingConnectionClose
  | transferEncodingChunked
  | connectionKeepAlive
  | connectionClose
  deriving DecidableEq, Repr

/-- `enum flags`. -/
structure Flags where
  chunked : Bool
  connectionKeepAlive : Bool
  connectionClose : Bool
  trailing : Bool
  upgrade : Bool
  skipbody : Bool
  deriving DecidableEq, Repr

/-- No flag set. -/
def Flags.clear : Flags := ⟨false, false, false, false, false, false⟩

/-- `struct http_parser`, of a request. -/
structure Parser where
  flags : Flags
  state : State
  headerState : HeaderState
  index : ℕ
  nread : ℕ
  contentLength : ℕ
  httpMajor : ℕ
  httpMinor : ℕ
  method : Method
  httpErrno : HttpErrno
  upgrade : Bool
  deriving DecidableEq, Repr

/-- `ULLONG_MAX`. -/
def ULLONG_MAX : ℕ := 2 ^ 64 - 1

/-- `HTTP_MAX_HEADER_SIZE`. -/
def HTTP_MAX_HEADER_SIZE : ℕ := 80 * 1024

/-- A value stored in a `uint64_t`. -/
def toUInt64 (n : ℕ) : ℕ := n % 2 ^ 64

namespace Parser

/-- `http_parser_init`. -/
def init : Parser := ⟨.clear, .startReq, .general, 0, 0, 0, 0, 0, .delete, .ok, false⟩

/-- `http_parser_pause(parser, 0)`. -/
def unpause (q : Parser) : Parser :=
  if q.httpErrno = .ok ∨ q.httpErrno = .paused then { q with httpErrno := .ok } else q

/-- `http_should_keep_alive`. A request never needs an end of file. -/
def shouldKeepAlive (q : Parser) : Bool :=
  if 0 < q.httpMajor ∧ 0 < q.httpMinor then !q.flags.connectionClose
  else q.flags.connectionKeepAlive

/-- `NEW_MESSAGE`. -/
def newMessage (q : Parser) : State := if q.shouldKeepAlive then .startReq else .dead

end Parser

/-- `PARSING_HEADER`: the states up to `s_headers_done` in the order of the enumeration. -/
def parsingHeader : State → Bool
  | .chunkData | .chunkDataAlmostDone | .chunkDataDone | .bodyIdentity | .messageDone => false
  | _ => true

/-! ### Calls -/

/-- What a call of `http_parser_execute` works with: the parser, the marks (as offsets), and the
callbacks made. -/
structure Exec where
  parser : Parser
  marks : DataCallback → Option ℕ
  calls : List (Callback × ℕ)

/-- Where the loop goes: on to the byte at `p`, or out of the function with the value `n`. -/
inductive Flow
  | next (x : Exec) (p : ℕ)
  | ret (x : Exec) (n : ℕ)

namespace Exec

/-- `parser->state = s`. -/
def goto (x : Exec) (s : State) : Exec := { x with parser := { x.parser with state := s } }

/-- `MARK`. -/
def mark (x : Exec) (which : DataCallback) (p : ℕ) : Exec :=
  match x.marks which with
  | none => { x with marks := Function.update x.marks which (some p) }
  | some _ => x

/-- `SET_ERRNO(e); goto error`, at offset `p`. -/
def error (x : Exec) (e : HttpErrno) (p : ℕ) : Flow :=
  .ret { x with parser := { x.parser with httpErrno := e } } p

/-- A callback is made, at a place where the parser would have consumed `er` bytes. -/
def call (reply : Answers) (x : Exec) (c : Callback) (er : ℕ) : Exec :=
  let calls := x.calls ++ [(c, er)]
  { x with
    calls := calls
    parser := { x.parser with
      httpErrno :=
        if (reply (calls.map Prod.fst)).pause then .paused else x.parser.httpErrno } }

/-- `SET_ERRNO` where the callback made last has not returned zero. -/
def refuse (reply : Answers) (x : Exec) (e : HttpErrno) : Exec :=
  if (reply (x.calls.map Prod.fst)).ret = 0 then x
  else { x with parser := { x.parser with httpErrno := e } }

/-- `CALLBACK_NOTIFY_`, with what follows. -/
def notify (reply : Answers) (x : Exec) (c : Callback) (e : HttpErrno) (er : ℕ)
    (k : Exec → Flow) : Flow :=
  let x := (x.call reply c er).refuse reply e
  if x.parser.httpErrno = .ok then k x else .ret x er

end Exec

/-- `HPE_CB_##FOR` for a data callback. -/
def DataCallback.errno : DataCallback → HttpErrno
  | .url => .cbUrl
  | .headerField => .cbHeaderField
  | .headerValue => .cbHeaderValue
  | .body => .cbBody

/-- `strlen` and what is behind: the character of a string constant at an offset. -/
def charAt (s : List Byte) (i : ℕ) : Byte := s[i]?.getD 0

/-- The `switch` over the first letter of a method. -/
def startMethod (ch : Byte) : Option Method :=
  if ch = 'C' then some .connect
  else if ch = 'D' then some .delete
  else if ch = 'G' then some .get
  else if ch = 'H' then some .head
  else if ch = 'L' then some .lock
  else if ch = 'M' then some .mkcol
  else if ch = 'N' then some .notify
  else if ch = 'O' then some .options
  else if ch = 'P' then some .post
  else if ch = 'R' then some .report
  else if ch = 'S' then some .subscribe
  else if ch = 'T' then some .trace
  else if ch = 'U' then some .unlock
  else none

/-- The other methods a letter at `index` can turn a method into; the error is the one the parser
ends with. -/
def switchMethod (m : Method) (index : ℕ) (ch : Byte) : Except HttpErrno Method :=
  if m = .connect then
    if index = 1 ∧ ch = 'H' then .ok .checkout
    else if index = 2 ∧ ch = 'P' then .ok .copy
    else .error .unknown
  else if m = .mkcol then
    if index = 1 ∧ ch = 'O' then .ok .move
    else if index = 1 ∧ ch = 'E' then .ok .merge
    else if index = 1 ∧ ch = '-' then .ok .msearch
    else if index = 2 ∧ ch = 'A' then .ok .mkactivity
    else .error .unknown
  else if index = 1 ∧ m = .post then
    if ch = 'R' then .ok .propfind
    else if ch = 'U' then .ok .put
    else if ch = 'A' then .ok .patch
    else .error .unknown
  else if index = 2 ∧ m = .unlock ∧ ch = 'S' then .ok .unsubscribe
  else if index = 4 ∧ m = .propfind ∧ ch = 'P' then .ok .proppatch
  else .error .invalidMethod

/-- `CONNECTION`. -/
def connectionName : List Byte := ascii ['c', 'o', 'n', 'n', 'e', 'c', 't', 'i', 'o', 'n']

/-- `PROXY_CONNECTION`. -/
def proxyConnectionName : List Byte := ascii ['p', 'r', 'o', 'x', 'y', '-'] ++ connectionName

/-- `CONTENT_LENGTH`. -/
def contentLengthName : List Byte :=
  ascii ['c', 'o', 'n', 't', 'e', 'n', 't', '-', 'l', 'e', 'n', 'g', 't', 'h']

/-- `TRANSFER_ENCODING`. -/
def transferEncodingName : List Byte :=
  ascii ['t', 'r', 'a', 'n', 's', 'f', 'e', 'r', '-', 'e', 'n', 'c', 'o', 'd', 'i', 'n', 'g']

/-- `UPGRADE`. -/
def upgradeName : List Byte := ascii ['u', 'p', 'g', 'r', 'a', 'd', 'e']

/-- `CHUNKED`. -/
def chunkedValue : List Byte := ascii ['c', 'h', 'u', 'n', 'k', 'e', 'd']

/-- `KEEP_ALIVE`. -/
def keepAliveValue : List Byte := ascii ['k', 'e', 'e', 'p', '-', 'a', 'l', 'i', 'v', 'e']

/-- `CLOSE`. -/
def closeValue : List Byte := ascii ['c', 'l', 'o', 's', 'e']

namespace Parser

/-- One more letter of a name or a value that is being matched. -/
def matchNext (q : Parser) (word : List Byte) (matched : HeaderState) (c : Byte) : Parser :=
  let q := { q with index := q.index + 1 }
  if word.length < q.index ∨ c ≠ charAt word q.index then { q with headerState := .general }
  else if q.index = word.length - 1 then { q with headerState := matched }
  else q

/-- The `switch` of `s_header_field_start`. -/
def startField (q : Parser) (c : Byte) : Parser :=
  { q with
    index := 0
    state := .headerField
    headerState :=
      if c = 'c' then .c
      else if c = 'p' then .matchingProxyConnection
      else if c = 't' then .matchingTransferEncoding
      else if c = 'u' then .matchingUpgrade
      else .general }

/-- The `switch` of `s_header_field`, with the token `c` of the character `ch`. -/
def nextField (q : Parser) (ch c : Byte) : Parser :=
  match q.headerState with
  | .c => { q with index := q.index + 1, headerState := if c = 'o' then .co else .general }
  | .co => { q with index := q.index + 1, headerState := if c = 'n' then .con else .general }
  | .con => { q with
      index := q.index + 1
      headerState :=
        if c = 'n' then .matchingConnection
        else if c = 't' then .matchingContentLength
        else .general }
  | .matchingConnection => q.matchNext connectionName .connection c
  | .matchingProxyConnection => q.matchNext proxyConnectionName .connection c
  | .matchingContentLength => q.matchNext contentLengthName .contentLength c
  | .matchingTransferEncoding => q.matchNext transferEncodingName .transferEncoding c
  | .matchingUpgrade => q.matchNext upgradeName .upgrade c
  | .connection | .contentLength | .transferEncoding | .upgrade =>
    if ch ≠ ' ' then { q with headerState := .general } else q
  | _ => q

/-- The `switch` of `s_header_value_start`, over the character `ch` and its lower case `c`. -/
def startValue (q : Parser) (ch c : Byte) : Except HttpErrno Parser :=
  match q.headerState with
  | .upgrade => .ok { q with flags := { q.flags with upgrade := true }, headerState := .general }
  | .transferEncoding => .ok { q with
      headerState := if c = 'c' then .matchingTransferEncodingChunked else .general }
  | .contentLength =>
    if isNum ch then .ok { q with contentLength := (ch - '0').toNat }
    else .error .invalidContentLength
  | .connection => .ok { q with
      headerState :=
        if c = 'k' then .matchingConnectionKeepAlive
        else if c = 'c' then .matchingConnectionClose
        else .general }
  | _ => .ok { q with headerState := .general }

/-- One more digit of a number that must stay below `ULLONG_MAX`. -/
def nextDigit (q : Parser) (base d : ℕ) : Except HttpErrno Parser :=
  let t := toUInt64 (toUInt64 (q.contentLength * base) + d)
  if t < q.contentLength ∨ t = ULLONG_MAX then .error .invalidContentLength
  else .ok { q with contentLength := t }

/-- The `switch` of `s_header_value`. -/
def nextValue (q : Parser) (ch c : Byte) : Except HttpErrno Parser :=
  match q.headerState with
  | .general | .connection | .transferEncoding => .ok q
  | .contentLength =>
    if ch = ' ' then .ok q
    else if isNum ch then q.nextDigit 10 (ch - '0').toNat
    else .error .invalidContentLength
  | .matchingTransferEncodingChunked => .ok (q.matchNext chunkedValue .transferEncodingChunked c)
  | .matchingConnectionKeepAlive => .ok (q.matchNext keepAliveValue .connectionKeepAlive c)
  | .matchingConnectionClose => .ok (q.matchNext closeValue .connectionClose c)
  | .transferEncodingChunked | .connectionKeepAlive | .connectionClose =>
    .ok (if ch ≠ ' ' then { q with headerState := .general } else q)
  | _ => .ok { q with headerState := .general }

/-- The `switch` of `s_header_almost_done`. -/
def endValue (q : Parser) : Parser :=
  match q.headerState with
  | .connectionKeepAlive => { q with flags := { q.flags with connectionKeepAlive := true } }
  | .connectionClose => { q with flags := { q.flags with connectionClose := true } }
  | .transferEncodingChunked => { q with flags := { q.flags with chunked := true } }
  | _ => q

end Parser

/-! ### The loop -/

namespace Exec

variable (reply : Answers) (data : List Byte)

/-- `CALLBACK_DATA_`, with what follows: the bytes from the mark up to `last`. -/
def callbackData (x : Exec) (which : DataCallback) (last er : ℕ) (k : Exec → Flow) : Flow :=
  match x.marks which with
  | none => k x
  | some m =>
    x.notify reply (.data which m ((data.drop m).take (last - m))) which.errno er fun x ↦
      k { x with marks := Function.update x.marks which none }

/-- `s_start_req`. -/
def startReq (x : Exec) (p : ℕ) (ch : Byte) : Flow :=
  if ch = CR ∨ ch = LF then .next x (p + 1)
  else
    let x := { x with parser := { x.parser with flags := .clear, contentLength := ULLONG_MAX } }
    if !isAlpha ch then x.error .invalidMethod p
    else
      let x := { x with parser := { x.parser with method := .delete, index := 1 } }
      match startMethod ch with
      | none => x.error .invalidMethod p
      | some m =>
        { x with parser := { x.parser with method := m, state := .reqMethod } }.notify reply
          .messageBegin .cbMessageBegin (p + 1) fun x ↦ .next x (p + 1)

/-- `s_req_method`. -/
def reqMethod (x : Exec) (p : ℕ) (ch : Byte) : Flow :=
  let word := httpMethodStr x.parser.method
  let index := x.parser.index
  let x' := { x with parser := { x.parser with index := index + 1 } }
  if ch = 0 then x.error .invalidMethod p
  else if ch = ' ' ∧ charAt word index = 0 then .next (x'.goto .reqSpacesBeforeUrl) (p + 1)
  else if ch = charAt word index then .next x' (p + 1)
  else
    match switchMethod x.parser.method index ch with
    | .ok m => .next { x' with parser := { x'.parser with method := m } } (p + 1)
    | .error e => x.error e p

/-- `parse_url_char` in a state of the URL. -/
def urlChar (x : Exec) (p : ℕ) (ch : Byte) : Flow :=
  let s := parseUrlChar x.parser.state ch (x.parser.method == .connect)
  if s = .dead then (x.goto s).error .invalidUrl p else .next (x.goto s) (p + 1)

/-- `s_req_spaces_before_url`. -/
def reqSpacesBeforeUrl (x : Exec) (p : ℕ) (ch : Byte) : Flow :=
  if ch = ' ' then .next x (p + 1) else (x.mark .url p).urlChar p ch

/-- `s_req_schema` and the two states behind it. -/
def reqSchema (x : Exec) (p : ℕ) (ch : Byte) : Flow :=
  if ch = ' ' ∨ ch = CR ∨ ch = LF then x.error .invalidUrl p else x.urlChar p ch

/-- `s_req_path` and the other states in which the URL can end. -/
def reqUrl (x : Exec) (p : ℕ) (ch : Byte) : Flow :=
  if ch = ' ' then
    (x.goto .reqHttpStart).callbackData reply data .url p (p + 1) fun x ↦ .next x (p + 1)
  else if ch = CR ∨ ch = LF then
    { x with parser := { x.parser with
      httpMajor := 0
      httpMinor := 9
      state := if ch = CR then .reqLineAlmostDone else .headerFieldStart } }.callbackData
        reply data .url p (p + 1) fun x ↦ .next x (p + 1)
  else x.urlChar p ch

/-- `s_req_http_start`. -/
def reqHttpStart (x : Exec) (p : ℕ) (ch : Byte) : Flow :=
  if ch = 'H' then .next (x.goto .reqHttpH) (p + 1)
  else if ch = ' ' then .next x (p + 1)
  else x.error .invalidConstant p

/-- `STRICT_CHECK(ch != c)` and a change of state: the letters of `HTTP/`, and others. -/
def strict (x : Exec) (p : ℕ) (ch c : Byte) (s : State) : Flow :=
  if ch ≠ c then x.error .strict p else .next (x.goto s) (p + 1)

/-- `s_req_first_http_major`. -/
def reqFirstHttpMajor (x : Exec) (p : ℕ) (ch : Byte) : Flow :=
  if ch < '1' ∨ '9' < ch then x.error .invalidVersion p
  else
    .next { x with parser := { x.parser with
      httpMajor := (ch - '0').toNat, state := .reqHttpMajor } } (p + 1)

/-- `s_req_http_major`. -/
def reqHttpMajor (x : Exec) (p : ℕ) (ch : Byte) : Flow :=
  if ch = '.' then .next (x.goto .reqFirstHttpMinor) (p + 1)
  else if !isNum ch then x.error .invalidVersion p
  else
    let x := { x with parser := { x.parser with
      httpMajor := x.parser.httpMajor * 10 + (ch - '0').toNat } }
    if 999 < x.parser.httpMajor then x.error .invalidVersion p else .next x (p + 1)

/-- `s_req_first_http_minor`. -/
def reqFirstHttpMinor (x : Exec) (p : ℕ) (ch : Byte) : Flow :=
  if !isNum ch then x.error .invalidVersion p
  else
    .next { x with parser := { x.parser with
      httpMinor := (ch - '0').toNat, state := .reqHttpMinor } } (p + 1)

/-- `s_req_http_minor`. -/
def reqHttpMinor (x : Exec) (p : ℕ) (ch : Byte) : Flow :=
  if ch = CR then .next (x.goto .reqLineAlmostDone) (p + 1)
  else if ch = LF then .next (x.goto .headerFieldStart) (p + 1)
  else if !isNum ch then x.error .invalidVersion p
  else
    let x := { x with parser := { x.parser with
      httpMinor := x.parser.httpMinor * 10 + (ch - '0').toNat } }
    if 999 < x.parser.httpMinor then x.error .invalidVersion p else .next x (p + 1)

/-- `s_req_line_almost_done`. -/
def reqLineAlmostDone (x : Exec) (p : ℕ) (ch : Byte) : Flow :=
  if ch ≠ LF then x.error .lfExpected p else .next (x.goto .headerFieldStart) (p + 1)

/-- The end of a message: `parser->state = NEW_MESSAGE(); CALLBACK_NOTIFY(message_complete);`. -/
def complete (x : Exec) (p : ℕ) (k : Exec → Flow) : Flow :=
  (x.goto x.parser.newMessage).notify reply .messageComplete .cbMessageComplete (p + 1) k

/-- `s_headers_done`. -/
def headersDone (x : Exec) (p : ℕ) (ch : Byte) : Flow :=
  if ch ≠ LF then x.error .strict p
  else
    let x := { x with parser := { x.parser with nread := 0 } }
    if x.parser.upgrade then x.complete reply p fun x ↦ .ret x (p + 1)
    else if x.parser.flags.skipbody then x.complete reply p fun x ↦ .next x (p + 1)
    else if x.parser.flags.chunked then .next (x.goto .chunkSizeStart) (p + 1)
    else if x.parser.contentLength = 0 then x.complete reply p fun x ↦ .next x (p + 1)
    else if x.parser.contentLength ≠ ULLONG_MAX then .next (x.goto .bodyIdentity) (p + 1)
    else x.complete reply p fun x ↦ .next x (p + 1)

/-- `s_headers_almost_done`. The value one that `on_headers_complete` returns says that there is no
body. -/
def headersAlmostDone (x : Exec) (p : ℕ) (ch : Byte) : Flow :=
  if ch ≠ LF then x.error .strict p
  else if x.parser.flags.trailing then x.complete reply p fun x ↦ .next x (p + 1)
  else
    let q := { x.parser with
      state := .headersDone
      upgrade := x.parser.flags.upgrade || x.parser.method == .connect }
    let x := { x with parser := q }.call reply
      (.headersComplete q.method q.httpMajor q.httpMinor q.upgrade) p
    let ret := (reply (x.calls.map Prod.fst)).ret
    if 1 < ret then x.error .cbHeadersComplete p
    else
      let x := if ret = 1 then
          { x with parser := { x.parser with flags := { x.parser.flags with skipbody := true } } }
        else x
      if x.parser.httpErrno = .ok then x.headersDone reply p ch else .ret x p

/-- `s_header_field_start`. -/
def headerFieldStart (x : Exec) (p : ℕ) (ch : Byte) : Flow :=
  if ch = CR then .next (x.goto .headersAlmostDone) (p + 1)
  else if ch = LF then (x.goto .headersAlmostDone).headersAlmostDone reply p ch
  else
    let c := token ch
    if c = 0 then x.error .invalidHeaderToken p
    else
      let x := x.mark .headerField p
      .next { x with parser := x.parser.startField c } (p + 1)

/-- `s_header_field`. -/
def headerField (x : Exec) (p : ℕ) (ch : Byte) : Flow :=
  let c := token ch
  if c ≠ 0 then .next { x with parser := x.parser.nextField ch c } (p + 1)
  else if ch = ':' ∨ ch = CR ∨ ch = LF then
    (x.goto (if ch = ':' then .headerValueStart else if ch = CR then .headerAlmostDone
      else .headerFieldStart)).callbackData reply data .headerField p (p + 1) fun x ↦
        .next x (p + 1)
  else x.error .invalidHeaderToken p

/-- `s_header_value_start`. -/
def headerValueStart (x : Exec) (p : ℕ) (ch : Byte) : Flow :=
  if ch = ' ' ∨ ch = 9 then .next x (p + 1)
  else
    let x := x.mark .headerValue p
    let x := { x with parser := { x.parser with state := .headerValue, index := 0 } }
    if ch = CR then
      { x with parser := { x.parser with
        headerState := .general, state := .headerAlmostDone } }.callbackData
          reply data .headerValue p (p + 1) fun x ↦ .next x (p + 1)
    else if ch = LF then
      (x.goto .headerFieldStart).callbackData reply data .headerValue p (p + 1) fun x ↦
        .next x (p + 1)
    else
      match x.parser.startValue ch (lower ch) with
      | .ok q => .next { x with parser := q } (p + 1)
      | .error e => x.error e p

/-- `s_header_almost_done`. -/
def headerAlmostDone (x : Exec) (p : ℕ) (ch : Byte) : Flow :=
  if ch ≠ LF then x.error .strict p
  else .next { x with parser := { x.parser with state := .headerValueLws }.endValue } (p + 1)

/-- `s_header_value`. -/
def headerValue (x : Exec) (p : ℕ) (ch : Byte) : Flow :=
  if ch = CR then
    (x.goto .headerAlmostDone).callbackData reply data .headerValue p (p + 1) fun x ↦
      .next x (p + 1)
  else if ch = LF then
    (x.goto .headerAlmostDone).callbackData reply data .headerValue p p fun x ↦
      x.headerAlmostDone p ch
  else
    match x.parser.nextValue ch (lower ch) with
    | .ok q => .next { x with parser := q } (p + 1)
    | .error e => x.error e p

/-- `s_header_value_lws`. -/
def headerValueLws (x : Exec) (p : ℕ) (ch : Byte) : Flow :=
  if ch = ' ' ∨ ch = 9 then .next (x.goto .headerValueStart) (p + 1)
  else (x.goto .headerFieldStart).headerFieldStart reply p ch

/-- `s_message_done`. -/
def messageDone (x : Exec) (p : ℕ) : Flow := x.complete reply p fun x ↦ .next x (p + 1)

/-- `s_body_identity`. The last byte of the body is looked at again. -/
def bodyIdentity (x : Exec) (p : ℕ) : Flow :=
  let toRead := min x.parser.contentLength (data.length - p)
  let x := x.mark .body p
  let x := { x with parser := { x.parser with
    contentLength := x.parser.contentLength - toRead } }
  let p := p + toRead - 1
  if x.parser.contentLength = 0 then
    (x.goto .messageDone).callbackData reply data .body (p + 1) p fun x ↦ x.messageDone reply p
  else .next x (p + 1)

/-- `s_chunk_size_start`. -/
def chunkSizeStart (x : Exec) (p : ℕ) (ch : Byte) : Flow :=
  match unhex ch with
  | none => x.error .invalidChunkSize p
  | some d =>
    .next { x with parser := { x.parser with contentLength := d, state := .chunkSize } } (p + 1)

/-- `s_chunk_size`. -/
def chunkSize (x : Exec) (p : ℕ) (ch : Byte) : Flow :=
  if ch = CR then .next (x.goto .chunkSizeAlmostDone) (p + 1)
  else
    match unhex ch with
    | none =>
      if ch = ';' ∨ ch = ' ' then .next (x.goto .chunkParameters) (p + 1)
      else x.error .invalidChunkSize p
    | some d =>
      match x.parser.nextDigit 16 d with
      | .ok q => .next { x with parser := q } (p + 1)
      | .error e => x.error e p

/-- `s_chunk_parameters`. -/
def chunkParameters (x : Exec) (p : ℕ) (ch : Byte) : Flow :=
  if ch = CR then .next (x.goto .chunkSizeAlmostDone) (p + 1) else .next x (p + 1)

/-- `s_chunk_size_almost_done`. -/
def chunkSizeAlmostDone (x : Exec) (p : ℕ) (ch : Byte) : Flow :=
  if ch ≠ LF then x.error .strict p
  else
    let x := { x with parser := { x.parser with nread := 0 } }
    if x.parser.contentLength = 0 then
      .next { x with parser := { x.parser with
        flags := { x.parser.flags with trailing := true }, state := .headerFieldStart } } (p + 1)
    else .next (x.goto .chunkData) (p + 1)

/-- `s_chunk_data`. -/
def chunkData (x : Exec) (p : ℕ) : Flow :=
  let toRead := min x.parser.contentLength (data.length - p)
  let x := x.mark .body p
  let x := { x with parser := { x.parser with
    contentLength := x.parser.contentLength - toRead } }
  .next (if x.parser.contentLength = 0 then x.goto .chunkDataAlmostDone else x) (p + toRead)

/-- `s_chunk_data_almost_done`. -/
def chunkDataAlmostDone (x : Exec) (p : ℕ) (ch : Byte) : Flow :=
  if ch ≠ CR then x.error .strict p
  else (x.goto .chunkDataDone).callbackData reply data .body p (p + 1) fun x ↦ .next x (p + 1)

/-- `s_chunk_data_done`. -/
def chunkDataDone (x : Exec) (p : ℕ) (ch : Byte) : Flow :=
  if ch ≠ LF then x.error .strict p
  else
    .next { x with parser := { x.parser with nread := 0, state := .chunkSizeStart } } (p + 1)

/-- `s_dead`. -/
def dead (x : Exec) (p : ℕ) (ch : Byte) : Flow :=
  if ch = CR ∨ ch = LF then .next x (p + 1) else x.error .closedConnection p

/-- The `switch` over the state, for the byte `ch` at `p`. -/
def step (x : Exec) (p : ℕ) (ch : Byte) : Flow :=
  match x.parser.state with
  | .dead => x.dead p ch
  | .startReq => x.startReq reply p ch
  | .reqMethod => x.reqMethod p ch
  | .reqSpacesBeforeUrl => x.reqSpacesBeforeUrl p ch
  | .reqSchema | .reqSchemaSlash | .reqSchemaSlashSlash => x.reqSchema p ch
  | .reqSchemaSlashSlashEnd | .reqHost | .reqPortStart | .reqPort | .reqPath
  | .reqQueryStringStart | .reqQueryString | .reqFragmentStart | .reqFragment =>
    x.reqUrl reply data p ch
  | .reqHttpStart => x.reqHttpStart p ch
  | .reqHttpH => x.strict p ch 'T' .reqHttpHT
  | .reqHttpHT => x.strict p ch 'T' .reqHttpHTT
  | .reqHttpHTT => x.strict p ch 'P' .reqHttpHTTP
  | .reqHttpHTTP => x.strict p ch '/' .reqFirstHttpMajor
  | .reqFirstHttpMajor => x.reqFirstHttpMajor p ch
  | .reqHttpMajor => x.reqHttpMajor p ch
  | .reqFirstHttpMinor => x.reqFirstHttpMinor p ch
  | .reqHttpMinor => x.reqHttpMinor p ch
  | .reqLineAlmostDone => x.reqLineAlmostDone p ch
  | .headerFieldStart => x.headerFieldStart reply p ch
  | .headerField => x.headerField reply data p ch
  | .headerValueStart => x.headerValueStart reply data p ch
  | .headerValue => x.headerValue reply data p ch
  | .headerAlmostDone => x.headerAlmostDone p ch
  | .headerValueLws => x.headerValueLws reply p ch
  | .headersAlmostDone => x.headersAlmostDone reply p ch
  | .headersDone => x.headersDone reply p ch
  | .bodyIdentity => x.bodyIdentity reply data p
  | .messageDone => x.messageDone reply p
  | .chunkSizeStart => x.chunkSizeStart p ch
  | .chunkSize => x.chunkSize p ch
  | .chunkParameters => x.chunkParameters p ch
  | .chunkSizeAlmostDone => x.chunkSizeAlmostDone p ch
  | .chunkData => x.chunkData data p
  | .chunkDataAlmostDone => x.chunkDataAlmostDone reply data p ch
  | .chunkDataDone => x.chunkDataDone p ch

/-- The callbacks for the marks that are left over behind the last byte. -/
def finish (x : Exec) : Flow :=
  let n := data.length
  x.callbackData reply data .headerField n n fun x ↦
    x.callbackData reply data .headerValue n n fun x ↦
      x.callbackData reply data .url n n fun x ↦
        x.callbackData reply data .body n n fun x ↦ .ret x n

/-- The loop over the bytes from `p` on. Every round takes at least one byte or leaves the state of
a chunk without bytes, so `fuel` is enough when it is larger than twice the number of bytes. -/
def loop : ℕ → Exec → ℕ → Exec × ℕ
  | 0, x, _ => (x, 0)
  | fuel + 1, x, p =>
    match data[p]? with
    | none =>
      match x.finish reply data with
      | .next x p => (x, p)
      | .ret x n => (x, n)
    | some ch =>
      let x := if parsingHeader x.parser.state then
          { x with parser := { x.parser with nread := x.parser.nread + 1 } }
        else x
      if parsingHeader x.parser.state ∧ HTTP_MAX_HEADER_SIZE < x.parser.nread then
        ({ x with parser := { x.parser with httpErrno := .headerOverflow } }, p)
      else
        match x.step reply data p ch with
        | .next x p => loop fuel x p
        | .ret x n => (x, n)

end Exec

namespace Parser

/-- The marks a call begins with: what is in the middle of a name, a value or a URL goes on. -/
def initialMarks (q : Parser) : DataCallback → Option ℕ := fun which ↦
  match which, q.state with
  | .headerField, .headerField => some 0
  | .headerValue, .headerValue => some 0
  | .url, .reqPath | .url, .reqSchema | .url, .reqSchemaSlash | .url, .reqSchemaSlashSlash
  | .url, .reqSchemaSlashSlashEnd | .url, .reqPortStart | .url, .reqPort
  | .url, .reqQueryStringStart | .url, .reqQueryString | .url, .reqHost
  | .url, .reqFragmentStart | .url, .reqFragment => some 0
  | _, _ => none

/-- `http_parser_execute`. -/
def execute (q : Parser) (reply : Answers) (data : List Byte) : Exec × ℕ :=
  let x : Exec := ⟨q, q.initialMarks, []⟩
  if q.httpErrno ≠ .ok then (x, 0)
  else if data = [] then
    if q.state = .dead ∨ q.state = .startReq then (x, 0)
    else ({ x with parser := { q with httpErrno := .invalidEofState } }, 1)
  else x.loop reply data (2 * data.length + 2) 0

end Parser

/-- The bundled parser. -/
instance : HttpParser Parser where
  errno := Parser.httpErrno
  upgrade := Parser.upgrade
  unpause := Parser.unpause
  execute q reply data :=
    let r := q.execute reply data
    (r.1.parser, r.2, r.1.calls)

end JnetLib.Http
