import JnetLib.Base.Buffer

/-!
# The URL scanner of `http_parser.c`

`parse_url_char` is the transition function both `http_parser_execute` and `http_parser_parse_url`
run over a request's URL. The second one cuts the URL into its fields and makes one check the first
does not: the digits of a port, taken together, must not exceed `0xffff`.

The parser is compiled with `HTTP_PARSER_STRICT`, its default. Its assertions are not part of the
model, which goes on as a build with `NDEBUG` does. The repository's Makefiles do not define
`NDEBUG`, so its default build has the `assert(!isspace(ch))` of `parse_url_char` and is aborted by
a tab, a vertical tab or a form feed in a URL, and by any of these, `CR` or `LF` right behind the
spaces after the method, as in `GET`, a space and `CR LF`. `http_parser_parse_url` is aborted by
white space anywhere in its argument. The model returns `s_dead` there (`parseUrlChar_of_isSpace`).

The states that only a response can be in are left out, as the frame parses requests only.
-/

namespace JnetLib.Http

/-- A character constant of the source, compared with a `char`. -/
instance : Coe Char Byte := ⟨Char.toUInt8⟩

/-- The bytes of a string constant of the source. -/
def ascii (s : List Char) : List Byte := s.map Char.toUInt8

/-! ### Character classes -/

/-- `CR`. -/
def CR : Byte := 13

/-- `LF`. -/
def LF : Byte := 10

/-- `LOWER`. -/
def lower (c : Byte) : Byte := c ||| 0x20

/-- `IS_ALPHA`. -/
def isAlpha (c : Byte) : Bool := 'a' ≤ lower c && lower c ≤ 'z'

/-- `IS_NUM`. -/
def isNum (c : Byte) : Bool := '0' ≤ c && c ≤ '9'

/-- `IS_ALPHANUM`. -/
def isAlphanum (c : Byte) : Bool := isAlpha c || isNum c

/-- `IS_HOST_CHAR`. -/
def isHostChar (c : Byte) : Bool := isAlphanum c || c == '.' || c == '-'

/-- `IS_URL_CHAR`: the table `normal_url_char` has a one for every printable character but the
space, `#` and `?`. -/
def isUrlChar (c : Byte) : Bool := '!' ≤ c && c ≤ '~' && c != '#' && c != '?'

/-- `TOKEN`: the table `tokens` lowers the letters, keeps the digits and these marks (39 is the
apostrophe, 96 the grave accent), and has a zero for everything else. -/
def token (c : Byte) : Byte :=
  if isAlpha c then lower c
  else if isNum c ∨ c ∈ ascii ['!', '#', '$', '%', '&', '*', '+', '-', '.', '^', '_', '|', '~'] ∨
      c = 39 ∨ c = 96 then c
  else 0

/-- The table `unhex`, with `none` for its `-1`. Only 128 of its 256 entries are written down, so
the bytes from 128 on find the zeros behind them. -/
def unhex (c : Byte) : Option ℕ :=
  if isNum c then some (c.toNat - 48)
  else if 'a' ≤ lower c ∧ lower c ≤ 'f' then some (lower c - 'a' + 10).toNat
  else if 128 ≤ c then some 0
  else none

/-! ### The scanner -/

/-- `enum state`, the part a request parser can be in. -/
inductive State
  | dead
  | startReq
  | reqMethod
  | reqSpacesBeforeUrl
  | reqSchema
  | reqSchemaSlash
  | reqSchemaSlashSlash
  | reqSchemaSlashSlashEnd
  | reqHost
  | reqPortStart
  | reqPort
  | reqPath
  | reqQueryStringStart
  | reqQueryString
  | reqFragmentStart
  | reqFragment
  | reqHttpStart
  | reqHttpH
  | reqHttpHT
  | reqHttpHTT
  | reqHttpHTTP
  | reqFirstHttpMajor
  | reqHttpMajor
  | reqFirstHttpMinor
  | reqHttpMinor
  | reqLineAlmostDone
  | headerFieldStart
  | headerField
  | headerValueStart
  | headerValue
  | headerValueLws
  | headerAlmostDone
  | chunkSizeStart
  | chunkSize
  | chunkParameters
  | chunkSizeAlmostDone
  | headersAlmostDone
  | headersDone
  | chunkData
  | chunkDataAlmostDone
  | chunkDataDone
  | bodyIdentity
  | messageDone
  deriving DecidableEq, Repr

/-- `parse_url_char` behind its assertion. -/
def parseUrlChar (s : State) (ch : Byte) (isConnect : Bool) : State :=
  match s with
  | .reqSpacesBeforeUrl =>
    if ch = '/' ∨ ch = '*' then .reqPath
    else if isAlpha ch ∨ isConnect ∧ isNum ch then if isConnect then .reqHost else .reqSchema
    else .dead
  | .reqSchema => if isAlpha ch then s else if ch = ':' then .reqSchemaSlash else .dead
  | .reqSchemaSlash => if ch = '/' then .reqSchemaSlashSlash else .dead
  | .reqSchemaSlashSlash => if ch = '/' then .reqSchemaSlashSlashEnd else .dead
  | .reqSchemaSlashSlashEnd | .reqHost =>
    if isHostChar ch then .reqHost
    else if ch = ':' then .reqPortStart
    else if ch = '/' then .reqPath
    else if ch = '?' then .reqQueryStringStart
    else .dead
  | .reqPortStart | .reqPort =>
    if isNum ch then .reqPort
    else if ch = '/' then .reqPath
    else if ch = '?' then .reqQueryStringStart
    else .dead
  | .reqPath =>
    if isUrlChar ch then s
    else if ch = '?' then .reqQueryStringStart
    else if ch = '#' then .reqFragmentStart
    else .dead
  | .reqQueryStringStart | .reqQueryString =>
    if isUrlChar ch then .reqQueryString
    else if ch = '?' then s
    else if ch = '#' then .reqFragmentStart
    else .dead
  | .reqFragmentStart =>
    if isUrlChar ch then .reqFragment
    else if ch = '?' then .reqFragment
    else if ch = '#' then s
    else .dead
  | .reqFragment => if isUrlChar ch ∨ ch = '?' ∨ ch = '#' then s else .dead
  | _ => .dead

/-- `isspace`, in the C locale. -/
def isSpace (c : Byte) : Bool := c == ' ' || (9 ≤ c && c ≤ 13)

/-- Where the assertion of `parse_url_char` fails, what is behind it returns `s_dead`. -/
theorem parseUrlChar_of_isSpace {ch : Byte} (h : isSpace ch = true) (s : State) (isConnect : Bool) :
    parseUrlChar s ch isConnect = .dead := by
  have hch : ch = 9 ∨ ch = 10 ∨ ch = 11 ∨ ch = 12 ∨ ch = 13 ∨ ch = 32 := by
    rw [isSpace, Bool.or_eq_true, beq_iff_eq, Bool.and_eq_true, decide_eq_true_eq,
      decide_eq_true_eq] at h
    rcases h with h | ⟨hlow, hhigh⟩
    · exact .inr (.inr (.inr (.inr (.inr h))))
    · have hlow' := UInt8.le_iff_toNat_le.1 hlow
      have hhigh' := UInt8.le_iff_toNat_le.1 hhigh
      simp only [← UInt8.toNat_inj]
      simp at *
      omega
  rcases hch with rfl | rfl | rfl | rfl | rfl | rfl <;> cases s <;> cases isConnect <;> rfl

/-! ### The fields of a URL -/

/-- `enum http_parser_url_fields`. -/
inductive UrlField
  | schema
  | host
  | port
  | path
  | query
  | fragment
  deriving DecidableEq, Repr

/-- `struct http_parser_url`. The offsets and lengths are `uint16_t`. -/
structure HttpParserUrl where
  fieldSet : UrlField → Bool
  port : ℕ
  off : UrlField → ℕ
  len : UrlField → ℕ

/-- All zeros, as `memset` leaves it. -/
def HttpParserUrl.zero : HttpParserUrl := ⟨fun _ ↦ false, 0, fun _ ↦ 0, fun _ ↦ 0⟩

/-- A value stored in a `uint16_t`. -/
def toUInt16 (n : ℕ) : ℕ := n % 2 ^ 16

/-- What a character means for the field it is in. -/
inductive UrlPart
  | delimiter
  | field (uf : UrlField)
  | bad

/-- The `switch` of `http_parser_parse_url` over the state behind a character. -/
def urlPart : State → UrlPart
  | .reqSchemaSlash | .reqSchemaSlashSlash | .reqSchemaSlashSlashEnd | .reqPortStart
  | .reqQueryStringStart | .reqFragmentStart => .delimiter
  | .reqSchema => .field .schema
  | .reqHost => .field .host
  | .reqPort => .field .port
  | .reqPath => .field .path
  | .reqQueryString => .field .query
  | .reqFragment => .field .fragment
  | _ => .bad

/-- The loop of `http_parser_parse_url` from offset `p` on; `false` when it returns `1`. -/
def parseUrlLoop (isConnect : Bool) :
    List Byte → ℕ → State → Option UrlField → HttpParserUrl → Bool × HttpParserUrl
  | [], _, _, _, u => (true, u)
  | ch :: rest, p, s, oldUf, u =>
    let s := parseUrlChar s ch isConnect
    match urlPart s with
    | .bad => (false, u)
    | .delimiter => parseUrlLoop isConnect rest (p + 1) s oldUf u
    | .field uf =>
      if oldUf = some uf then
        parseUrlLoop isConnect rest (p + 1) s oldUf
          { u with len := Function.update u.len uf (toUInt16 (u.len uf + 1)) }
      else
        parseUrlLoop isConnect rest (p + 1) s (some uf)
          { u with
            off := Function.update u.off uf (toUInt16 p)
            len := Function.update u.len uf 1
            fieldSet := Function.update u.fieldSet uf true }

/-- `strtoul(s, NULL, 10)` on a 64-bit `unsigned long`: the sign negates, an overflow saturates. -/
def strtoul (s : List Byte) : ℕ :=
  let s := s.dropWhile fun c : Byte ↦ c == ' ' || 9 ≤ c && c ≤ 13
  let digits := if s.head? = some '-' ∨ s.head? = some '+' then s.tail else s
  let v := (digits.takeWhile isNum).foldl (fun v c ↦ v * 10 + (c.toNat - 48)) 0
  if 2 ^ 64 ≤ v then 2 ^ 64 - 1
  else if s.head? = some '-' then (2 ^ 64 - v) % 2 ^ 64
  else v

/-- `http_parser_parse_url` on the characters of a string: the value returned, and what has become
of `u`. -/
def httpParserParseUrl (uri : List Byte) (isConnect : Bool) (u : HttpParserUrl) :
    ℕ × HttpParserUrl :=
  let (ok, u) := parseUrlLoop isConnect uri 0 .reqSpacesBeforeUrl none
    { u with port := 0, fieldSet := fun _ ↦ false }
  if !ok then (1, u)
  else if u.fieldSet .port then
    let v := strtoul (uri.drop (u.off .port))
    if 0xffff < v then (1, u) else (0, { u with port := toUInt16 v })
  else (0, u)

end JnetLib.Http
