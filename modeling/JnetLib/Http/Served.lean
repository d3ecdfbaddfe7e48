import JnetLib.Http.Assembly
import JnetLib.Http.Bytewise
import JnetLib.Http.Leftover

/-!
# Serving a stream byte by byte

`serve` feeds a stream to the assembler byte by byte, and begins anew behind the end of a message.
What comes of it is a function of the bytes alone.

`next_served` compares it with a call of the parser on a piece: behind the call the assembler is
where serving the consumed bytes has brought it, and a call that ends with an error has read as far
as serving gets. It rests on `feed_agrees`, by which all ways of cutting a stream agree, and on
`Fed.Fits`, which says where a listener can take over.
-/

namespace JnetLib.Http

/-- A parser and its listener between two bytes of a stream, and the messages that have ended. -/
structure Served where
  parser : Parser
  assembly : Assembly
  messages : List Given

namespace Served

/-- Before the first byte. -/
def start : Served := ⟨.init, ⟨⟨[], [], .zero, 0, 0, []⟩, 1, .nothing⟩, []⟩

/-- The next byte. Behind the end of a message the parser goes on, unless the message asks for
another protocol. -/
def byte (v : Served) (ch : Byte) : Served :=
  let f := assembler.next ⟨v.parser, v.assembly, 0⟩ [ch]
  if f.parser.httpErrno = .paused ∧ f.parser.upgrade = false then
    ⟨f.parser.unpause, f.state, v.messages ++ [f.state.given]⟩
  else ⟨f.parser, f.state, v.messages⟩

/-- The parser and its listener as a reading of the stream. -/
def fed (v : Served) : Fed Assembly := ⟨v.parser, v.assembly, 0⟩

end Served

/-- A stream. -/
def serve (l : List Byte) : Served := l.foldl Served.byte .start

theorem serve_append (l m : List Byte) : serve (l ++ m) = m.foldl Served.byte (serve l) :=
  List.foldl_append

/-- What has been served stays served. -/
theorem messages_foldl (v : Served) (l : List Byte) :
    v.messages <+: (l.foldl Served.byte v).messages := by
  induction l generalizing v with
  | nil => exact List.prefix_refl _
  | cons ch l ih =>
    refine List.IsPrefix.trans ?_ (ih (v.byte ch))
    dsimp only [Served.byte]
    split
    · exact List.prefix_append _ _
    · exact List.prefix_refl _

theorem messages_serve_prefix {l m : List Byte} (h : l <+: m) :
    (serve l).messages <+: (serve m).messages := by
  obtain ⟨k, rfl⟩ := h
  rw [serve_append]
  exact messages_foldl _ _

/-- The number of bytes consumed before makes no difference. -/
theorem next_consumed (q : Parser) (a : Assembly) (n : ℕ) (piece : List Byte) :
    (assembler.next ⟨q, a, n⟩ piece).parser = (assembler.next ⟨q, a, 0⟩ piece).parser ∧
      (assembler.next ⟨q, a, n⟩ piece).state = (assembler.next ⟨q, a, 0⟩ piece).state := by
  dsimp only [Listener.next]
  split <;> exact ⟨rfl, rfl⟩

theorem Served.byte_eq {v : Served} {n : ℕ} {ch : Byte} {g : Fed Assembly}
    (hg : assembler.next ⟨v.parser, v.assembly, n⟩ [ch] = g) :
    v.byte ch = if g.parser.httpErrno = .paused ∧ g.parser.upgrade = false then
      ⟨g.parser.unpause, g.state, v.messages ++ [g.state.given]⟩
    else ⟨g.parser, g.state, v.messages⟩ := by
  obtain ⟨hparser, hstate⟩ := next_consumed v.parser v.assembly n [ch]
  rw [Served.byte, ← hg, hparser, hstate]

/-- The parser does not go on. -/
def Served.Stuck (v : Served) : Prop :=
  v.parser.httpErrno ≠ .ok ∧ (v.parser.httpErrno = .paused → v.parser.upgrade = true)

/-- Where the parser does not go on, nothing changes any more. -/
theorem Served.foldl_of_stuck {v : Served} (h : v.Stuck) (l : List Byte) :
    l.foldl Served.byte v = v := by
  have hbyte : ∀ ch, v.byte ch = v := by
    intro ch
    have hnext : assembler.next ⟨v.parser, v.assembly, 0⟩ [ch] = ⟨v.parser, v.assembly, 0⟩ :=
      assembler.feed_of_ne_ok (f := ⟨v.parser, v.assembly, 0⟩) h.1 [[ch]]
    rw [Served.byte, hnext]
    refine if_neg fun hgo ↦ ?_
    exact absurd (hgo.2.symm.trans (h.2 hgo.1)) nofun
  induction l with
  | nil => rfl
  | cons ch l ih => rw [List.foldl_cons, hbyte, ih]

/-- Where feeding the bytes `l` to the listener ends, and where serving them does: behind the last
byte, behind the last byte of the message, or where the parser does not go on. -/
theorem feed_served (l : List Byte) {v : Served} (hfits : v.fed.Fits assembler) (n : ℕ)
    {f : Fed Assembly} (hf : assembler.feed ⟨v.parser, v.assembly, n⟩ (Listener.bytewise l) = f) :
    (f.parser.httpErrno = .ok → f.consumed = n + l.length ∧
      l.foldl Served.byte v = ⟨f.parser, f.state, v.messages⟩) ∧
    (f.parser.httpErrno = .paused → f.parser.upgrade = false → ∃ k ≤ l.length,
      f.consumed = n + k ∧ f.parser.state.idle = true ∧ (l.take k).foldl Served.byte v =
        ⟨f.parser.unpause, f.state, v.messages ++ [f.state.given]⟩) ∧
    (f.parser.httpErrno ≠ .ok → (f.parser.httpErrno = .paused → f.parser.upgrade = true) →
      (l.foldl Served.byte v).Stuck) := by
  induction l generalizing v n f with
  | nil =>
    obtain rfl := hf
    exact ⟨fun _ ↦ ⟨rfl, rfl⟩, fun hp ↦ absurd (hfits.errno.symm.trans hp) nofun,
      fun hne ↦ absurd hfits.errno hne⟩
  | cons ch l ih =>
    have hfits' : Fed.Fits assembler ⟨v.parser, v.assembly, n⟩ := ⟨hfits.toFit, hfits.goesOn⟩
    generalize hg : assembler.next ⟨v.parser, v.assembly, n⟩ [ch] = g
    have hbyte := Served.byte_eq hg
    obtain ⟨q, a, c⟩ := g
    have hfeed : assembler.feed ⟨q, a, c⟩ (Listener.bytewise l) = f := hg ▸ hf
    by_cases hok : q.httpErrno = .ok
    · have hgo : ¬(q.httpErrno = .paused ∧ q.upgrade = false) := fun hp ↦
        absurd (hok.symm.trans hp.1) nofun
      rw [if_neg (by exact hgo)] at hbyte
      have hok' : (assembler.next ⟨v.parser, v.assembly, n⟩ [ch]).parser.httpErrno = .ok := by
        rw [hg]
        exact hok
      have hconsumed := assembler.next_of_ok_singleton hfits' hok'
      have hfits'' := (assembler.next_agrees (.refl _) hfits' (List.cons_ne_nil ch [])).2 hok'
      rw [hg] at hconsumed hfits''
      obtain rfl : c = n + 1 := hconsumed
      obtain ⟨hall, hpaused, hstuck⟩ :=
        ih (v := ⟨q, a, v.messages⟩) ⟨hfits''.toFit, hfits''.goesOn⟩ _ hfeed
      rw [List.foldl_cons, hbyte, List.length_cons]
      refine ⟨fun he ↦ ⟨by rw [(hall he).1]; omega, (hall he).2⟩, fun he hu ↦ ?_, hstuck⟩
      obtain ⟨k, hk, hfk, hidle, hserved⟩ := hpaused he hu
      refine ⟨k + 1, by omega, by omega, hidle, ?_⟩
      rw [List.take_succ_cons, List.foldl_cons, hbyte]
      exact hserved
    · rw [assembler.feed_of_ne_ok (f := ⟨q, a, c⟩) hok] at hfeed
      subst hfeed
      refine ⟨fun he ↦ absurd he hok, fun he hu ↦ ⟨1, Nat.le_add_left 1 _, ?_⟩, fun hne hpu ↦ ?_⟩
      swap
      · have hstuck : Served.Stuck ⟨q, a, v.messages⟩ := ⟨hne, hpu⟩
        rw [if_neg fun hgo ↦ absurd (hgo.2.symm.trans (hpu hgo.1)) nofun] at hbyte
        rw [List.foldl_cons, hbyte, Served.foldl_of_stuck hstuck]
        exact hstuck
      have he' : (assembler.next ⟨v.parser, v.assembly, n⟩ [ch]).parser.httpErrno = .paused := by
        rw [hg]
        exact he
      obtain ⟨hconsumed, hidle⟩ := assembler.next_of_paused hfits' he'
      rw [hg] at hconsumed hidle
      rw [if_pos (by exact ⟨he, hu⟩)] at hbyte
      exact ⟨hconsumed, hidle, hbyte⟩

/-- A listener takes over where the other one has got to. -/
theorem fits_of_agrees {f g : Fed Assembly} (hf : f.Fits assembler) (h : f.Agrees g) :
    g.Fits assembler := by
  refine ⟨h.parser ▸ hf.toFit, fun which hspan ↦ ?_⟩
  have hspan' : f.parser.state.span = some which := h.parser ▸ hspan
  have htells : f.parser.Tells :=
    ⟨fun hfatal ↦ hfatal.1 hf.errno, fun _ ↦ Bool.eq_false_of_not_eq_true fun hidle ↦ by
      rw [State.span_of_idle hidle] at hspan'
      cases hspan'⟩
  rw [← h.state htells]
  exact hf.goesOn which hspan'

/-- Before a message it can take over anywhere. -/
theorem fits_of_idle {q : Parser} (hq : q.Fit) (hidle : q.state.idle = true) (a : Assembly) :
    Fed.Fits assembler ⟨q, a, 0⟩ :=
  ⟨hq, fun which hspan ↦ by
    rw [State.span_of_idle (s := q.state) hidle] at hspan
    cases hspan⟩

theorem agrees_of_idle {q : Parser} (hq : q.Fit) (hidle : q.state.idle = true) (a b : Assembly) :
    Fed.Agrees ⟨q, a, 0⟩ ⟨q, b, 0⟩ :=
  ⟨rfl, rfl, fun h ↦ absurd (hidle.symm.trans (h.2 hq.errno)) nofun⟩

/-- A call of the parser serves the bytes it consumes, and with an error serving ends too. -/
theorem next_served {q : Parser} {a : Assembly} {v : Served}
    (hagrees : Fed.Agrees ⟨q, a, 0⟩ v.fed) (hfits : Fed.Fits assembler ⟨q, a, 0⟩)
    {data : List Byte} {n : Fed Assembly} (hn : assembler.next ⟨q, a, 0⟩ data = n) :
    (n.parser.httpErrno = .ok → ∃ w, (data.take n.consumed).foldl Served.byte v = w ∧
      w.messages = v.messages ∧ Fed.Agrees ⟨n.parser, n.state, 0⟩ w.fed ∧
        Fed.Fits assembler ⟨n.parser, n.state, 0⟩) ∧
    (n.parser.httpErrno = .paused → n.parser.upgrade = false → n.parser.state.idle = true ∧
      (data.take n.consumed).foldl Served.byte v =
        ⟨n.parser.unpause, n.state, v.messages ++ [n.state.given]⟩) ∧
    (data ≠ [] → n.parser.httpErrno ≠ .ok →
      (n.parser.httpErrno = .paused → n.parser.upgrade = true) →
        (data.foldl Served.byte v).Stuck) := by
  have hok : q.httpErrno = .ok := hfits.errno
  by_cases hdata : data = []
  · subst hdata
    obtain ⟨hcalls, hidle⟩ := Parser.execute_idle (assembler.answers a) (q := q) (.inr rfl)
    rw [assembler.next_of_ok (f := ⟨q, a, 0⟩) hok] at hn
    subst hn
    dsimp only
    rw [hcalls]
    rcases hidle with ⟨-, hq⟩ | he
    · rw [hq]
      exact ⟨fun _ ↦ ⟨v, by rw [List.take_nil]; rfl, rfl, hagrees, hfits⟩,
        fun he ↦ absurd (hok.symm.trans he) nofun, fun hne ↦ absurd rfl hne⟩
    · rw [he]
      exact ⟨nofun, nofun, fun hne ↦ absurd rfl hne⟩
  · obtain ⟨hnext, hgoes⟩ := assembler.next_agrees hagrees hfits hdata
    rw [hn] at hnext hgoes
    obtain ⟨hall, hpaused, hstuck⟩ := feed_served data (fits_of_agrees hfits hagrees) 0
      (f := assembler.feed v.fed (Listener.bytewise data)) rfl
    rw [← hnext.parser, ← hnext.consumed] at hall hpaused
    rw [← hnext.parser] at hstuck
    refine ⟨fun he ↦ ?_, fun he hu ↦ ?_, fun _ ↦ hstuck⟩
    · obtain ⟨hconsumed, hserved⟩ := hall he
      rw [hconsumed, Nat.zero_add, List.take_length, hserved]
      exact ⟨_, rfl, rfl, ⟨rfl, rfl, hnext.state⟩, ⟨(hgoes he).toFit, (hgoes he).goesOn⟩⟩
    · obtain ⟨k, -, hconsumed, hidle, hserved⟩ := hpaused he hu
      have htells : n.parser.Tells :=
        ⟨fun hfatal ↦ hfatal.2 he, fun hok ↦ absurd (he.symm.trans hok) nofun⟩
      rw [hconsumed, Nat.zero_add, hserved, hnext.state htells]
      exact ⟨hidle, rfl⟩

end JnetLib.Http
