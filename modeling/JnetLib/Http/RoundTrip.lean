import JnetLib.Http.Bodies
import JnetLib.Http.Session

/-!
# Requests as bytes

How a request is written down, and what becomes of requests written down one behind the other, as a
client writes them that does not wait for the answers: `Session.messages_of_encoded` says that a
socket gives its caller these requests, whatever pieces the transport brings.

The bytes of a header section are counted together with those of the trailer before it:
`on_message_complete` follows a trailer with the count left as it is, and the next header section
has that much less room.

## What the theorem rests on

* A message is read by the rules of `Reading` and `Bodies`, one part after the other (`walks_front`,
  `finishes_body`), whatever listens.
* What the assembler is told is put together again (`tell_section`, `tell_body`), whatever it held
  before. So serving the bytes of a message gives the message (`finishes_message`), and behind it
  the next one can follow if `Pipelined` says so.
* `messages_of_run` brings this to a socket: its messages are those of serving the bytes consumed,
  and these are a beginning of what has been sent.
-/

namespace JnetLib.Http

open Listener Numeral

/-! ### Header sections -/

/-- Headers as lines, and the empty line behind them without its last byte. -/
def headerLines (l : List Header) : List Byte := l.flatMap Header.line ++ [CR]

/-- The head behind headers. -/
def Head.addAll (h : Head) (l : List Header) : Head := l.foldl (fun h x ↦ h.add x.meaning) h

namespace HeaderSection

/-- The first line. -/
def requestLine (sec : HeaderSection) : List Byte :=
  httpMethodStr sec.method ++ [(' ' : Byte)] ++ (sec.uri ++ [(' ' : Byte)] ++
    (ascii ['H', 'T', 'T', 'P', '/'] ++ (decimal sec.httpMajor ++ [('.' : Byte)] ++
      (decimal sec.httpMinor ++ [CR, LF]))))

/-- A header section without its last byte. -/
def front (sec : HeaderSection) : List Byte := sec.requestLine ++ headerLines sec.headers

/-- The head before the headers. -/
def firstHead (sec : HeaderSection) : Head :=
  ⟨.clear, ULLONG_MAX, sec.httpMajor, sec.httpMinor, sec.method⟩

/-- The head behind them. -/
def head (sec : HeaderSection) : Head := sec.firstHead.addAll sec.headers

/-- A header section that can be written down, and asks for no other protocol. -/
structure Legal (sec : HeaderSection) : Prop where
  uri : (urlState false .reqSpacesBeforeUrl sec.uri).endsUrl = true
  accepted : (httpParserParseUrl sec.uri false .zero).1 = 0
  connect : sec.method ≠ .connect
  httpMajor : 1 ≤ sec.httpMajor ∧ sec.httpMajor ≤ 999
  httpMinor : sec.httpMinor ≤ 999
  headers : ∀ x ∈ sec.headers, x.Legal
  upgrade : sec.head.flags.upgrade = false

instance (sec : HeaderSection) : Decidable sec.Legal :=
  decidable_of_iff ((urlState false .reqSpacesBeforeUrl sec.uri).endsUrl = true ∧
      (httpParserParseUrl sec.uri false .zero).1 = 0 ∧ sec.method ≠ .connect ∧
        (1 ≤ sec.httpMajor ∧ sec.httpMajor ≤ 999) ∧ sec.httpMinor ≤ 999 ∧
          (∀ x ∈ sec.headers, x.Legal) ∧ sec.head.flags.upgrade = false)
    ⟨fun h ↦ ⟨h.1, h.2.1, h.2.2.1, h.2.2.2.1, h.2.2.2.2.1, h.2.2.2.2.2.1, h.2.2.2.2.2.2⟩,
      fun h ↦ ⟨h.uri, h.accepted, h.connect, h.httpMajor, h.httpMinor, h.headers, h.upgrade⟩⟩

end HeaderSection

/-- What no header changes. -/
theorem Head.add_frame (h : Head) (m : Meaning) :
    (h.add m).flags.trailing = h.flags.trailing ∧ (h.add m).flags.skipbody = h.flags.skipbody ∧
      (h.add m).method = h.method ∧ (h.add m).httpMajor = h.httpMajor ∧
        (h.add m).httpMinor = h.httpMinor := by
  cases m with
  | value x => cases x <;> exact ⟨rfl, rfl, rfl, rfl, rfl⟩
  | _ => exact ⟨rfl, rfl, rfl, rfl, rfl⟩

theorem Head.addAll_frame (h : Head) (l : List Header) :
    (h.addAll l).flags.trailing = h.flags.trailing ∧
      (h.addAll l).flags.skipbody = h.flags.skipbody ∧ (h.addAll l).method = h.method ∧
        (h.addAll l).httpMajor = h.httpMajor ∧ (h.addAll l).httpMinor = h.httpMinor := by
  induction l generalizing h with
  | nil => exact ⟨rfl, rfl, rfl, rfl, rfl⟩
  | cons x l ih =>
    obtain ⟨htrailing, hskipbody, hmethod, hmajor, hminor⟩ := h.add_frame x.meaning
    obtain ⟨htrailing', hskipbody', hmethod', hmajor', hminor'⟩ := ih (h.add x.meaning)
    exact ⟨htrailing'.trans htrailing, hskipbody'.trans hskipbody, hmethod'.trans hmethod,
      hmajor'.trans hmajor, hminor'.trans hminor⟩

theorem HeaderSection.Legal.keepsProtocol {sec : HeaderSection} (hsec : sec.Legal) :
    sec.head.KeepsProtocol := by
  obtain ⟨htrailing, hskipbody, hmethod, -⟩ := sec.firstHead.addAll_frame sec.headers
  refine ⟨hsec.upgrade, ?_, htrailing, hskipbody⟩
  rw [HeaderSection.head, hmethod]
  exact hsec.connect

section Sections

variable {S : Type*} {L : Listener S} {h : Head} {st : State} {p : HeaderState} {i : ℕ} {s : S}

/-- A listener that is told headers. -/
def Listener.tellHeaders (L : Listener S) (s : S) (l : List Header) : S :=
  l.foldl (fun s x ↦
    L.tell (L.tell s (.data .headerField 0 x.name)) (.data .headerValue 0 x.value)) s

/-- **Headers**, with the empty line behind them up to its last byte. -/
theorem walks_headerLines (h : Head) (p : HeaderState) (i : ℕ) (s : S) {l : List Header}
    (hl : ∀ x ∈ l, x.Legal) :
    ∃ p' i', L.Walks (h.parser .headerFieldStart p i) s (headerLines l)
      ((h.addAll l).parser .headersAlmostDone p' i') (L.tellHeaders s l) := by
  obtain ⟨st', p', i', hst', hlines⟩ := walks_headers (L := L) h p i s hl (.inl rfl)
  exact ⟨p', i', hlines.append (walks_emptyLine hst')⟩

/-- **A header section** up to its last byte. -/
theorem walks_front (h : Head) (p : HeaderState) (i : ℕ) (s : S) {sec : HeaderSection}
    (hsec : sec.Legal) :
    ∃ p' i', L.Walks (h.parser .startReq p i) s sec.front
      (sec.head.parser .headersAlmostDone p' i')
      (L.tellHeaders (L.tell (L.tell s .messageBegin) (.data .url 0 sec.uri)) sec.headers) := by
  have hmethod := walks_method (L := L) (h := h) (p := p) (i := i) (s := s) sec.method
  have hconnect : (sec.method == .connect) = false := beq_eq_false_iff_ne.2 hsec.connect
  have hne : sec.uri ≠ [] := fun hnil ↦ by
    have huri := hsec.uri
    rw [hnil] at huri
    cases huri
  have hurl := walks_url (L := L) (h := ⟨.clear, ULLONG_MAX, h.httpMajor, h.httpMinor, sec.method⟩)
    (p := p) (i := (httpMethodStr sec.method).length + 1) (s := L.tell s .messageBegin) hne
    (by rw [hconnect]; exact hsec.uri)
  obtain ⟨p', i', hlines⟩ := walks_headerLines (L := L) sec.firstHead p
    ((httpMethodStr sec.method).length + 1) (L.tell (L.tell s .messageBegin) (.data .url 0 sec.uri))
    hsec.headers
  exact ⟨p', i', .append (.append hmethod (.append hurl (.append walks_http
    (.append (walks_major hsec.httpMajor) (walks_minor hsec.httpMinor))))) hlines⟩

end Sections

/-! ### Bodies -/

/-- What follows a header section. -/
inductive Body
  | none
  | sized (bytes : List Byte)
  | chunked (chunks : List (List Byte)) (trailer : List Header)

namespace Body

/-- A body as bytes. -/
def encode : Body → List Byte
  | .none => []
  | .sized l => l
  | .chunked chunks trailer => chunks.flatMap chunk ++ (lastChunk ++ (headerLines trailer ++ [LF]))

/-- The contents of a body. -/
def bytes : Body → List Byte
  | .none => []
  | .sized l => l
  | .chunked chunks _ => chunks.flatten

/-- The headers in it. -/
def trailer : Body → List Header
  | .chunked _ trailer => trailer
  | _ => []

/-- The number of bytes counted when it ends. -/
def counted : Body → ℕ
  | .chunked _ trailer => (headerLines trailer).length + 1
  | _ => 0

/-- A body that the header section announces. -/
def Follows (h : Head) : Body → Prop
  | .none => h.flags.chunked = false ∧ h.contentLength = ULLONG_MAX
  | .sized l => h.flags.chunked = false ∧ h.contentLength = l.length ∧ l.length ≠ ULLONG_MAX
  | .chunked chunks trailer => h.flags.chunked = true ∧
    (∀ c ∈ chunks, c ≠ [] ∧ c.length < ULLONG_MAX) ∧ (∀ x ∈ trailer, x.Legal) ∧
      (headerLines trailer).length < HTTP_MAX_HEADER_SIZE

instance (h : Head) : DecidablePred (Follows h)
  | .none => inferInstanceAs (Decidable (_ ∧ _))
  | .sized _ => inferInstanceAs (Decidable (_ ∧ _))
  | .chunked _ _ => inferInstanceAs (Decidable (_ ∧ _))

end Body

/-- Whether another message can follow. -/
def Head.keepsAlive (h : Head) : Bool := (h.parser .startReq .general 0 0).shouldKeepAlive

/-- What decides about it. -/
def Head.ending (h : Head) : Bool × Bool × ℕ × ℕ :=
  (h.flags.connectionClose, h.flags.connectionKeepAlive, h.httpMajor, h.httpMinor)

theorem Head.keepsAlive_congr {h h' : Head} (heq : h.ending = h'.ending) :
    h.keepsAlive = h'.keepsAlive := by
  obtain ⟨⟨_, _, _, _, _, _⟩, _, _, _, _⟩ := h
  obtain ⟨⟨_, _, _, _, _, _⟩, _, _, _, _⟩ := h'
  obtain ⟨rfl, rfl, rfl, rfl⟩ := by simpa only [Head.ending, Prod.mk.injEq] using heq
  rfl

theorem Head.ending_add {h h' : Head} (heq : h.ending = h'.ending) (m : Meaning) :
    (h.add m).ending = (h'.add m).ending := by
  obtain ⟨⟨_, _, _, _, _, _⟩, _, _, _, _⟩ := h
  obtain ⟨⟨_, _, _, _, _, _⟩, _, _, _, _⟩ := h'
  obtain ⟨rfl, rfl, rfl, rfl⟩ := by simpa only [Head.ending, Prod.mk.injEq] using heq
  cases m with
  | value x => cases x <;> rfl
  | _ => rfl

theorem Head.ending_addAll {h h' : Head} (heq : h.ending = h'.ending) (l : List Header) :
    (h.addAll l).ending = (h'.addAll l).ending := by
  induction l generalizing h h' with
  | nil => exact heq
  | cons x l ih => exact ih (ending_add heq x.meaning)

section Bodies

variable {S : Type*} {L : Listener S} {h : Head} {p : HeaderState} {i n : ℕ} {s : S}

/-- A listener that is told a body. -/
def Listener.tellBody (L : Listener S) (s : S) : Body → S
  | .none => s
  | .sized l => if l = [] then s else L.tell s (.data .body 0 l)
  | .chunked chunks trailer =>
    L.tellHeaders (chunks.foldl (fun s c ↦ L.tell s (.data .body 0 c)) s) trailer

/-- **A chunked body**, with the end of the message. -/
theorem finishes_chunked (hend : ∀ s, (L.answer s .messageComplete).ret = 0)
    {chunks : List (List Byte)} {trailer : List Header}
    (hchunks : ∀ c ∈ chunks, c ≠ [] ∧ c.length < ULLONG_MAX) (htrailer : ∀ x ∈ trailer, x.Legal)
    (hroom : (headerLines trailer).length < HTTP_MAX_HEADER_SIZE) :
    ∃ (h' : Head) (p' : HeaderState) (i' : ℕ), h'.ending = (h.addAll trailer).ending ∧
      L.Finishes (h.parser .chunkSizeStart p i 0) s (Body.chunked chunks trailer).encode
        (h'.parser h'.newMessage p' i' (Body.chunked chunks trailer).counted)
        (L.tell (L.tellBody s (.chunked chunks trailer)) .messageComplete) := by
  obtain ⟨k, hdata⟩ := reads_chunks (L := L) (h := h) (p := p) (i := i) (s := s) hchunks
  have hlast := reads_end (L := L) (h := { h with contentLength := k }) (p := p) (i := i)
    (s := chunks.foldl (fun s c ↦ L.tell s (.data .body 0 c)) s)
  obtain ⟨p', i', hlines⟩ := walks_headerLines (L := L)
    (Head.trailer { h with contentLength := k }) p i
    (chunks.foldl (fun s c ↦ L.tell s (.data .body 0 c)) s) htrailer
  have htrailing : (Head.addAll (Head.trailer { h with contentLength := k })
      trailer).flags.trailing = true :=
    (Head.addAll_frame _ trailer).1
  have hfinish := finishes_trailer (L := L) (p := p') (i := i')
    (s := L.tellBody s (.chunked chunks trailer)) hend htrailing hroom
  have hread := hlines 0 (by omega)
  rw [Nat.zero_add] at hread
  exact ⟨Head.addAll (Head.trailer { h with contentLength := k }) trailer, p', i',
    Head.ending_addAll (h := Head.trailer { h with contentLength := k }) (by rfl) trailer,
    hdata.finishes (hlast.finishes (hread.finishes hfinish))⟩

/-- **A body** behind the header section, with the end of the message. -/
theorem finishes_body (hend : ∀ s, (L.answer s .messageComplete).ret = 0) (hh : h.KeepsProtocol)
    (hanswer : L.answer s h.complete = ⟨0, false⟩) (hn : n < HTTP_MAX_HEADER_SIZE) {b : Body}
    (hb : b.Follows h) :
    ∃ (h' : Head) (p' : HeaderState) (i' : ℕ), h'.ending = (h.addAll b.trailer).ending ∧
      L.Finishes (h.parser .headersAlmostDone p i n) s (LF :: b.encode)
        (h'.parser h'.newMessage p' i' b.counted)
        (L.tell (L.tellBody (L.tell s h.complete) b) .messageComplete) := by
  cases b with
  | none =>
    exact ⟨h, p, i, rfl, finishes_empty hh hanswer hn hend hb.1 (.inr hb.2)⟩
  | sized l =>
    obtain ⟨hchunked, hlength, hmax⟩ := hb
    by_cases hl : l = []
    · subst hl
      refine ⟨h, p, i, rfl, ?_⟩
      rw [Listener.tellBody, if_pos rfl]
      exact finishes_empty hh hanswer hn hend hchunked (.inl hlength)
    · have hpos : 0 < l.length := List.length_pos_iff.2 hl
      refine ⟨{ h with contentLength := 0 }, p, i, rfl, ?_⟩
      rw [Listener.tellBody, if_neg hl]
      exact (reads_sized (p := p) (i := i) hh hanswer hn hchunked
        (by omega)).finishes (finishes_identity hend (by omega) hlength.symm)
  | chunked chunks trailer =>
    obtain ⟨hchunked, hchunks, htrailer, hroom⟩ := hb
    obtain ⟨h', p', i', hending, hfinish⟩ := finishes_chunked (L := L) (h := h) (p := p) (i := i)
      (s := L.tell s h.complete) hend hchunks htrailer hroom
    exact ⟨h', p', i', hending,
      (reads_chunked (p := p) (i := i) hh hanswer hn hchunked).finishes hfinish⟩

end Bodies

/-! ### Messages -/

/-- A request with its body. -/
structure Message extends HeaderSection where
  body : Body

namespace Message

/-- A message as bytes. -/
def encode (m : Message) : List Byte := m.front ++ (LF :: m.body.encode)

/-- What the caller is given of it. -/
def given (m : Message) : Given := ⟨some m.request, m.body.bytes⟩

/-- Whether another message can follow. -/
def keepsAlive (m : Message) : Bool := (m.head.addAll m.body.trailer).keepsAlive

/-- A message behind `n` bytes that count with its header section. -/
structure Legal (n : ℕ) (m : Message) : Prop extends m.toHeaderSection.Legal where
  follows : m.body.Follows m.head
  room : n + m.front.length < HTTP_MAX_HEADER_SIZE

instance (n : ℕ) (m : Message) : Decidable (m.Legal n) :=
  decidable_of_iff (m.toHeaderSection.Legal ∧ m.body.Follows m.head ∧
      n + m.front.length < HTTP_MAX_HEADER_SIZE)
    ⟨fun h ↦ ⟨h.1, h.2.1, h.2.2⟩, fun h ↦ ⟨h.toLegal, h.follows, h.room⟩⟩

end Message

namespace Assembly

/-- A header is put behind the others. -/
theorem tell_header {a : Assembly} (hflag : a.lastFieldOrValue = 1) (x : Header) :
    (a.tell (.data .headerField 0 x.name)).tell (.data .headerValue 0 x.value) =
      ⟨{ a.request with headers := a.request.headers ++ [x] }, 1, a.given⟩ := by
  have hfield : a.tell (.data .headerField 0 x.name) =
      ⟨{ a.request with headers := a.request.headers ++ [⟨x.name, []⟩] }, 0, a.given⟩ :=
    congrArg (RequestOp.assembly · a.given)
      (RequestOp.onHeaderField_of_value (show a.op.lastFieldOrValue = 1 from hflag) x.name)
  rw [hfield]
  exact congrArg (RequestOp.assembly · a.given) (RequestOp.onHeaderValue_eq
    (show (Assembly.op ⟨{ a.request with headers := a.request.headers ++ [⟨x.name, []⟩] }, 0,
      a.given⟩).request.headers = a.request.headers ++ [⟨x.name, []⟩] from rfl) x.value)

theorem tellHeaders_eq {a : Assembly} (hflag : a.lastFieldOrValue = 1) (l : List Header) :
    assembler.tellHeaders a l =
      ⟨{ a.request with headers := a.request.headers ++ l }, 1, a.given⟩ := by
  induction l generalizing a with
  | nil =>
    obtain ⟨request, lastFieldOrValue, given⟩ := a
    obtain rfl : lastFieldOrValue = 1 := hflag
    rw [List.append_nil]
    rfl
  | cons x l ih =>
    have hfirst : assembler.tellHeaders a (x :: l) =
        assembler.tellHeaders ((a.tell (.data .headerField 0 x.name)).tell
          (.data .headerValue 0 x.value)) l :=
      rfl
    rw [hfirst, tell_header hflag, ih rfl, List.append_assoc]
    rfl

theorem tell_chunks (a : Assembly) (l : List (List Byte)) :
    l.foldl (fun s c ↦ assembler.tell s (.data .body 0 c)) a =
      ⟨a.request, a.lastFieldOrValue, ⟨a.given.request, a.given.body ++ l.flatten⟩⟩ := by
  induction l generalizing a with
  | nil =>
    rw [List.flatten_nil, List.append_nil]
    rfl
  | cons c l ih =>
    rw [List.foldl_cons, ih, List.flatten_cons, ← List.append_assoc]
    rfl

/-- **A header section** is put together, whatever the operation held before. -/
theorem tell_section (a : Assembly) {sec : HeaderSection} (hsec : sec.Legal) :
    assembler.answer (assembler.tellHeaders (assembler.tell (assembler.tell a .messageBegin)
        (.data .url 0 sec.uri)) sec.headers)
        (.headersComplete sec.method sec.httpMajor sec.httpMinor false) = ⟨0, false⟩ ∧
      assembler.tell (assembler.tellHeaders (assembler.tell (assembler.tell a .messageBegin)
        (.data .url 0 sec.uri)) sec.headers)
        (.headersComplete sec.method sec.httpMajor sec.httpMinor false) =
      ⟨sec.request, 1, ⟨some sec.request, []⟩⟩ := by
  have hconnect : (sec.method == .connect) = false := beq_eq_false_iff_ne.2 hsec.connect
  have hheaders : assembler.tellHeaders (assembler.tell (assembler.tell a .messageBegin)
      (.data .url 0 sec.uri)) sec.headers =
        ⟨⟨[], sec.uri, .zero, 0, 0, sec.headers⟩, 1, .nothing⟩ :=
    tellHeaders_eq rfl sec.headers
  have hurl : (httpParserParseUrl
      (Assembly.op ⟨⟨[], sec.uri, .zero, 0, 0, sec.headers⟩, 1, .nothing⟩).request.uri
      (sec.method == .connect) .zero).1 = 0 := by
    rw [hconnect]
    exact hsec.accepted
  have hcomplete := RequestOp.onHeadersComplete_of_accepted hurl sec.httpMajor sec.httpMinor
  rw [hheaders]
  refine ⟨congrArg RequestOp.Handled.reply hcomplete, ?_⟩
  show RequestOp.assembly (RequestOp.onHeadersComplete _ _ _ _).op
    ⟨(RequestOp.onHeadersComplete _ _ _ _).passed.bind Result.request, []⟩ = _
  rw [hcomplete]
  rfl

/-- **A body** is put together. -/
theorem tell_body (r : Request) (sec : Option Request) (b : Body) :
    (assembler.tell (assembler.tellBody ⟨r, 1, ⟨sec, []⟩⟩ b) .messageComplete).given =
      ⟨sec, b.bytes⟩ := by
  cases b with
  | none => rfl
  | sized l =>
    by_cases hl : l = []
    · subst hl
      rw [Listener.tellBody, if_pos rfl]
      rfl
    · rw [Listener.tellBody, if_neg hl]
      rfl
  | chunked chunks trailer =>
    rw [Listener.tellBody, tell_chunks, tellHeaders_eq rfl]
    rfl

end Assembly

/-- **A message** read by an operation, whatever it held before. -/
theorem finishes_message {n : ℕ} {m : Message} (hm : m.Legal n) (h : Head) (p : HeaderState)
    (i : ℕ) (a : Assembly) :
    ∃ (h' : Head) (p' : HeaderState) (i' : ℕ) (a' : Assembly),
      h'.keepsAlive = m.keepsAlive ∧ a'.given = m.given ∧
        assembler.Finishes (h.parser .startReq p i n) a m.encode
          (h'.parser h'.newMessage p' i' m.body.counted) a' := by
  obtain ⟨p₁, i₁, hfront⟩ := walks_front (L := assembler) h p i a hm.toLegal
  have hread := hfront n (Nat.le_of_lt hm.room)
  obtain ⟨-, -, hmethod, hmajor, hminor⟩ := m.firstHead.addAll_frame m.headers
  have hcomplete : m.head.complete = .headersComplete m.method m.httpMajor m.httpMinor
      false := by
    rw [Head.complete, HeaderSection.head, hmethod, hmajor, hminor]
    rfl
  obtain ⟨hanswer, htell⟩ := Assembly.tell_section a hm.toLegal
  rw [← hcomplete] at hanswer htell
  obtain ⟨h', p', i', hending, hfinish⟩ := finishes_body (L := assembler) (p := p₁) (i := i₁)
    (fun _ ↦ rfl) hm.toLegal.keepsProtocol hanswer hm.room hm.follows
  rw [htell] at hfinish
  exact ⟨h', p', i', _, Head.keepsAlive_congr hending, Assembly.tell_body _ _ _,
    hread.finishes hfinish⟩

/-! ### Messages one behind the other -/

/-- Messages that can be sent one behind the other: each but the last one keeps the connection
alive, and has room for its header section behind what has been counted. -/
def Pipelined : ℕ → List Message → Prop
  | _, [] => True
  | n, m :: l => m.Legal n ∧ (l ≠ [] → m.keepsAlive = true) ∧ Pipelined m.body.counted l

instance decidablePipelined : ∀ (n : ℕ) (l : List Message), Decidable (Pipelined n l)
  | _, [] => isTrue trivial
  | n, m :: l =>
    have := decidablePipelined m.body.counted l
    inferInstanceAs (Decidable (m.Legal n ∧ (l ≠ [] → m.keepsAlive = true) ∧
      Pipelined m.body.counted l))

/-- The messages as bytes. -/
def encodeAll (l : List Message) : List Byte := l.flatMap Message.encode

/-- Serving a message. -/
theorem foldl_encode {n : ℕ} {m : Message} (hm : m.Legal n) (h : Head) (p : HeaderState) (i : ℕ)
    (a : Assembly) (messages : List Given) :
    ∃ (h' : Head) (p' : HeaderState) (i' : ℕ) (a' : Assembly), h'.keepsAlive = m.keepsAlive ∧
      m.encode.foldl Served.byte ⟨h.parser .startReq p i n, a, messages⟩ =
        ⟨h'.parser h'.newMessage p' i' m.body.counted, a', messages ++ [m.given]⟩ := by
  obtain ⟨h', p', i', a', halive, hgiven, hfinish⟩ := finishes_message hm h p i a
  have hfit : (h.parser .startReq p i n).Fit := ⟨rfl, rfl, by rintro (h | h) <;> cases h⟩
  obtain ⟨-, hpaused, -⟩ := feed_served m.encode (v := ⟨h.parser .startReq p i n, a, messages⟩)
    (fits_of_idle hfit rfl a) 0 (hfinish 0)
  obtain ⟨k, -, hk, -, hserved⟩ := hpaused rfl rfl
  have hall : k = m.encode.length := by
    rw [Nat.zero_add, Nat.zero_add] at hk
    exact hk.symm
  rw [hall, List.take_length] at hserved
  refine ⟨h', p', i', a', halive, hserved.trans ?_⟩
  rw [← hgiven]
  rfl

theorem foldl_encodeAll {n : ℕ} {l : List Message} (hl : Pipelined n l) (h : Head) (p : HeaderState)
    (i : ℕ) (a : Assembly) (messages : List Given) :
    ((encodeAll l).foldl Served.byte ⟨h.parser .startReq p i n, a, messages⟩).parser.httpErrno =
        .ok ∧
      ((encodeAll l).foldl Served.byte ⟨h.parser .startReq p i n, a, messages⟩).messages =
        messages ++ l.map Message.given := by
  induction l generalizing n h p i a messages with
  | nil => exact ⟨rfl, (List.append_nil _).symm⟩
  | cons m l ih =>
    obtain ⟨hm, halive, hrest⟩ := hl
    obtain ⟨h', p', i', a', hkeeps, hfirst⟩ := foldl_encode hm h p i a messages
    have hsplit : encodeAll (m :: l) = m.encode ++ encodeAll l := List.flatMap_cons
    rw [hsplit, List.foldl_append, hfirst]
    cases l with
    | nil => exact ⟨rfl, rfl⟩
    | cons m' l =>
      have hnew : h'.newMessage = .startReq :=
        if_pos (hkeeps.trans (halive (List.cons_ne_nil m' l)))
      rw [hnew, List.map_cons,
        List.append_cons messages m.given (List.map Message.given (m' :: l))]
      exact ih hrest h' p' i' a' (messages ++ [m.given])

theorem Pipelined.of_prefix {n : ℕ} {l m : List Message} (hm : Pipelined n m) (hl : l <+: m) :
    Pipelined n l := by
  induction l generalizing n m with
  | nil => trivial
  | cons x l ih =>
    obtain ⟨rest, rfl⟩ := hl
    obtain ⟨hx, halive, hrest⟩ := hm
    exact ⟨hx, fun hne ↦ halive (List.append_ne_nil_of_left_ne_nil hne rest),
      ih hrest (List.prefix_append l rest)⟩

/-- **The round trip** for a stream served byte by byte. -/
theorem serve_encodeAll {l : List Message} (hl : Pipelined 0 l) :
    (serve (encodeAll l)).parser.httpErrno = .ok ∧
      (serve (encodeAll l)).messages = l.map Message.given := by
  have hstart : Served.start = ⟨Head.parser ⟨.clear, 0, 0, 0, .delete⟩ .startReq .general 0 0,
      Served.start.assembly, []⟩ :=
    rfl
  rw [serve, hstart]
  exact foldl_encodeAll hl _ _ _ _ _

namespace Session

/-- **The round trip.** A socket that receives messages written down one behind the other never
fails, gives its caller first of all the messages whose bytes have been consumed, and nothing that
has not been sent, whatever pieces the transport brings and whatever buffers, request objects and
flags the calls pass on. -/
theorem messages_of_encoded {t : Session} {memory : ℕ → Byte} {l : List Message}
    {events : List ReceptionEvent} (hl : Pipelined 0 l)
    (hevents : Transition.RunMeets step (fun s e ↦ Continuous e ∧ s.Supplies e)
      (start memory) events)
    (hrun : Transition.run step (start memory) events = some t)
    (hreceived : t.socket.received <+: encodeAll l) :
    (∀ ec, t.socket.phase ≠ .failed ec) ∧ t.messages <+: l.map Message.given ∧
      ∀ sent, sent <+: l → encodeAll sent <+: t.socket.consumed →
        sent.map Message.given <+: t.messages := by
  obtain ⟨hok, hgiven⟩ := serve_encodeAll hl
  obtain ⟨hinv, hsocket⟩ : AsServed True t ∧ t.socket.Situation :=
    asServed_of_run (hevents.mono fun _ _ he ↦ ⟨he.1, fun _ ↦ he.2⟩) hrun
  have hphase : ∀ ec, t.socket.phase ≠ .failed ec := by
    intro ec hfailed
    have hstuck : (serve t.socket.received).Stuck := by
      cases hinv with
      | between hphase => rcases hphase with h | h <;> exact absurd (h.symm.trans hfailed) nofun
      | receiving op buffer len hphase => exact absurd (hphase.symm.trans hfailed) nofun
      | failed ec hphase hmessages hstuck => exact hstuck trivial
    obtain ⟨rest, hrest⟩ := hreceived
    have hend : serve (encodeAll l) = serve t.socket.received := by
      rw [← hrest, serve_append, Served.foldl_of_stuck hstuck]
    rw [hend] at hok
    exact hstuck.1 hok
  obtain ⟨served, hserved, hmessages, hconsumed⟩ := hinv.messages hsocket
  refine ⟨hphase, ?_, fun sent hsent hbytes ↦ ?_⟩
  · rw [hmessages, ← hgiven]
    exact messages_serve_prefix (hserved.trans hreceived)
  · rw [← (serve_encodeAll (hl.of_prefix hsent)).2, hmessages, hconsumed hphase]
    exact messages_serve_prefix hbytes

/-- A message in chunks, with a trailer, and another one behind it, in two pieces. -/
def pair : List Message :=
  [⟨⟨.post, 1, 1, ascii ['/', 'a'], [⟨ascii ['T', 'r', 'a', 'n', 's', 'f', 'e', 'r', '-', 'E', 'n',
      'c', 'o', 'd', 'i', 'n', 'g'], ascii ['c', 'h', 'u', 'n', 'k', 'e', 'd']⟩]⟩,
    .chunked [ascii ['h', 'i'], ascii ['!']] [⟨ascii ['X'], ascii ['y']⟩]⟩,
    ⟨⟨.get, 1, 0, ascii ['/'], []⟩, .none⟩]

theorem messages_of_encoded_pair :
    let call := ReceptionEvent.call true ⟨[], [], .zero, 0, 0, []⟩ 64 90 0
    let events := [call, .received .noError ((encodeAll pair).take 60),
      .received .noError ((encodeAll pair).drop 60), call, .received .noError []]
    ∃ t, Transition.run step (start fun _ ↦ 0) events = some t ∧ t.messages.length = 2 ∧
      (∀ ec, t.socket.phase ≠ .failed ec) ∧ t.messages <+: pair.map Message.given ∧
        ∀ sent, sent <+: pair → encodeAll sent <+: t.socket.consumed →
          sent.map Message.given <+: t.messages := by
  intro call events
  have h : (Transition.run step (start fun _ ↦ 0) events).map
      (fun t ↦ (t.socket.received, t.messages.length)) = some (encodeAll pair, 2) := by
    decide +kernel
  obtain ⟨t, ht, htwo⟩ := Option.map_eq_some_iff.1 h
  obtain ⟨hreceived, hlength⟩ := Prod.mk.inj htwo
  exact ⟨t, ht, hlength, messages_of_encoded (by decide +kernel) (by decide +kernel) ht
    (by rw [hreceived])⟩

end Session

end JnetLib.Http
