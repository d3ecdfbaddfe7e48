import JnetLib.Http.Url

/-!
# What `http_parser_execute` and its callbacks tell each other

`http_request_op` sees the parser through `http_parser_execute`, `http_parser_pause`, the error
number and the `upgrade` bit. In turn the parser sees the seven functions of
`http_parser_settings`: what they return, and whether they pause it.

`HttpParser` is that interface. One call of `execute` is a function of the parser, of the bytes and
of the answers to its callbacks, where an answer may depend on all the callbacks made before in the
same call. It lists the callbacks it makes, each with its *mark*: the number of bytes of this call
that count as consumed if the parser stops there. `Lawful` is what the operation relies on.
-/

namespace JnetLib.Http

/-- `enum http_errno`, without the values nothing sets. -/
inductive HttpErrno
  | ok
  | cbMessageBegin
  | cbUrl
  | cbHeaderField
  | cbHeaderValue
  | cbHeadersComplete
  | cbBody
  | cbMessageComplete
  | invalidEofState
  | headerOverflow
  | closedConnection
  | invalidVersion
  | invalidMethod
  | invalidUrl
  | lfExpected
  | invalidHeaderToken
  | invalidContentLength
  | invalidChunkSize
  | invalidConstant
  | strict
  | paused
  | unknown
  deriving DecidableEq, Repr

/-- The number an error has in the enumeration. -/
def HttpErrno.code : HttpErrno → ℕ
  | .ok => 0
  | .cbMessageBegin => 1
  | .cbUrl => 4
  | .cbHeaderField => 6
  | .cbHeaderValue => 7
  | .cbHeadersComplete => 8
  | .cbBody => 9
  | .cbMessageComplete => 10
  | .invalidEofState => 11
  | .headerOverflow => 12
  | .closedConnection => 13
  | .invalidVersion => 14
  | .invalidMethod => 16
  | .invalidUrl => 17
  | .lfExpected => 23
  | .invalidHeaderToken => 24
  | .invalidContentLength => 25
  | .invalidChunkSize => 26
  | .invalidConstant => 27
  | .strict => 29
  | .paused => 30
  | .unknown => 31

/-- `enum http_method`. -/
inductive Method
  | delete
  | get
  | head
  | post
  | put
  | connect
  | options
  | trace
  | copy
  | lock
  | mkcol
  | move
  | propfind
  | proppatch
  | unlock
  | report
  | mkactivity
  | checkout
  | merge
  | msearch
  | notify
  | subscribe
  | unsubscribe
  | patch
  deriving DecidableEq, Repr

/-- `http_method_str`: the table `method_strings`. -/
def httpMethodStr : Method → List Byte
  | .delete => ascii ['D', 'E', 'L', 'E', 'T', 'E']
  | .get => ascii ['G', 'E', 'T']
  | .head => ascii ['H', 'E', 'A', 'D']
  | .post => ascii ['P', 'O', 'S', 'T']
  | .put => ascii ['P', 'U', 'T']
  | .connect => ascii ['C', 'O', 'N', 'N', 'E', 'C', 'T']
  | .options => ascii ['O', 'P', 'T', 'I', 'O', 'N', 'S']
  | .trace => ascii ['T', 'R', 'A', 'C', 'E']
  | .copy => ascii ['C', 'O', 'P', 'Y']
  | .lock => ascii ['L', 'O', 'C', 'K']
  | .mkcol => ascii ['M', 'K', 'C', 'O', 'L']
  | .move => ascii ['M', 'O', 'V', 'E']
  | .propfind => ascii ['P', 'R', 'O', 'P', 'F', 'I', 'N', 'D']
  | .proppatch => ascii ['P', 'R', 'O', 'P', 'P', 'A', 'T', 'C', 'H']
  | .unlock => ascii ['U', 'N', 'L', 'O', 'C', 'K']
  | .report => ascii ['R', 'E', 'P', 'O', 'R', 'T']
  | .mkactivity => ascii ['M', 'K', 'A', 'C', 'T', 'I', 'V', 'I', 'T', 'Y']
  | .checkout => ascii ['C', 'H', 'E', 'C', 'K', 'O', 'U', 'T']
  | .merge => ascii ['M', 'E', 'R', 'G', 'E']
  | .msearch => ascii ['M', '-', 'S', 'E', 'A', 'R', 'C', 'H']
  | .notify => ascii ['N', 'O', 'T', 'I', 'F', 'Y']
  | .subscribe => ascii ['S', 'U', 'B', 'S', 'C', 'R', 'I', 'B', 'E']
  | .unsubscribe => ascii ['U', 'N', 'S', 'U', 'B', 'S', 'C', 'R', 'I', 'B', 'E']
  | .patch => ascii ['P', 'A', 'T', 'C', 'H']

/-- The callbacks of type `http_data_cb`. -/
inductive DataCallback
  | url
  | headerField
  | headerValue
  | body
  deriving DecidableEq, Repr

/-- A callback, with what the function called can read: `at` (as an offset) and the bytes there, or
the fields of the parser. -/
inductive Callback
  | messageBegin
  | data (which : DataCallback) (off : ℕ) (bytes : List Byte)
  | headersComplete (method : Method) (httpMajor httpMinor : ℕ) (upgrade : Bool)
  | messageComplete
  deriving DecidableEq, Repr

/-- What a callback answers: the value it returns, and whether it calls `http_parser_pause`. -/
structure Reply where
  ret : ℕ
  pause : Bool
  deriving DecidableEq, Repr

/-- The answers of the callbacks, each given the callbacks of the call so far, the one to answer
last. -/
abbrev Answers := List Callback → Reply

/-- `http_parser` as `http_request_op` uses it. -/
class HttpParser (P : Type*) where
  /-- `HTTP_PARSER_ERRNO`. -/
  errno : P → HttpErrno
  /-- The `upgrade` bit. -/
  upgrade : P → Bool
  /-- `http_parser_pause(parser, 0)`. -/
  unpause : P → P
  /-- `http_parser_execute`: the parser afterwards, the value returned, and the callbacks made. -/
  execute : P → Answers → List Byte → P × ℕ × List (Callback × ℕ)

export HttpParser (errno upgrade unpause execute)

/-- The end of a message always pauses the parser. -/
def Answers.PausesAtEnd (reply : Answers) : Prop :=
  ∀ l, (reply (l ++ [.messageComplete])).pause = true

/-- What `http_request_op` relies on, as its callbacks always pause the parser at the end of a
message. A call that ends without an error has consumed no more than it was given. What it leaves
over it leaves over with an error number set, be it the one of the pause. And it does not go beyond
the end of a message. -/
structure Lawful (P : Type*) [HttpParser P] : Prop where
  le_length : ∀ (p : P) (reply : Answers) (data : List Byte), reply.PausesAtEnd →
    errno (execute p reply data).1 = .ok ∨ errno (execute p reply data).1 = .paused →
      (execute p reply data).2.1 ≤ data.length
  errno_of_lt : ∀ (p : P) (reply : Answers) (data : List Byte), reply.PausesAtEnd →
    (execute p reply data).2.1 < data.length → errno (execute p reply data).1 ≠ .ok
  le_of_complete : ∀ (p : P) (reply : Answers) (data : List Byte), reply.PausesAtEnd →
    ∀ k, (.messageComplete, k) ∈ (execute p reply data).2.2 → (execute p reply data).2.1 ≤ k

/-- The error number says that the parser is paused only where one of the callbacks made has paused
it. -/
structure OnlyCallbacksPause (P : Type*) [HttpParser P] : Prop where
  errno_unpause : ∀ p : P, errno (unpause p) ≠ .paused
  exists_pause : ∀ (p : P) (reply : Answers) (data : List Byte), errno p ≠ .paused →
    errno (execute p reply data).1 = .paused → ∃ (l : List Callback) (c : Callback),
      l ++ [c] <+: (execute p reply data).2.2.map Prod.fst ∧ (reply (l ++ [c])).pause = true

end JnetLib.Http
