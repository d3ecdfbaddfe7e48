import JnetLib.Ssl.Continuation

/-!
# The input buffer of an SSL socket

What the transport has received waits in `input_buffer_`, 16 KiB of memory with a count, until the
engine takes it. `put_input` makes a `size_t` of what `::BIO_write` returns, and the two places that
call it take that off the count and move the rest to the front. `-1`, the answer of a full BIO, is a
count of `2 ^ 64 - 1` there.

The operation of `Ssl.Operation` has a list in the place of this memory. Here the memory itself is
put under it, with the answers of `::BIO_write` as they are; as long as none of them is `-1` the two
do the same (`run_op_of_run`).

## What the theorem rests on

`InputBuffer.view` is the list that the memory holds. A delivery goes behind it (`view_receive`),
and a count the engine takes goes off its front (`put_of_nonneg`). With `-1` the count goes up by
one and the `memmove` starts in front of the buffer (`put_of_full`): that alone puts the books out
of order, whatever the memory holds (`not_accounted_of_full`).
-/

namespace JnetLib.Ssl

/-- Conversion to `size_t`. -/
def toSize (n : ℤ) : ℕ := (n % 2 ^ 64).toNat

theorem toSize_of_lt {n : ℕ} (h : n < 2 ^ 64) : toSize n = n := by
  rw [toSize]
  omega

/-- The memory around `input_buffer_`, by offsets from it modulo `2 ^ 64`, and
`input_buffer_len_`. -/
structure InputBuffer where
  memory : ℕ → Byte
  len : ℕ

namespace InputBuffer

/-! ### The code -/

/-- `input_buffer_[0..input_buffer_len_)`. -/
def view (b : InputBuffer) : List Byte := (List.range b.len).map b.memory

/-- The bytes a transport receive has put behind those already there, and the new count. -/
def receive (b : InputBuffer) (data : List Byte) : InputBuffer :=
  ⟨fun i ↦ if b.len ≤ i ∧ i < b.len + data.length then data.getD (i - b.len) 0 else b.memory i,
    toSize (b.len + data.length)⟩

/-- `memmove(input_buffer_, input_buffer_ + src, n)`. -/
def memmove (memory : ℕ → Byte) (src n : ℕ) : ℕ → Byte :=
  fun i ↦ if i < n then memory ((src + i) % 2 ^ 64) else memory i

/-- `put_input` and what follows it, where `::BIO_write` returns `r`; the source and the size of the
`memmove`, if there is one. -/
def put (b : InputBuffer) (r : ℤ) : InputBuffer × Option (ℕ × ℕ) :=
  if 0 < toSize r then
    (⟨memmove b.memory (toSize r) (toSize (b.len - toSize r)), toSize (b.len - toSize r)⟩,
      some (toSize r, toSize (b.len - toSize r)))
  else (b, none)

/-! ### What the view does -/

variable {b : InputBuffer}

@[simp]
theorem length_view (b : InputBuffer) : b.view.length = b.len := by
  simp [view]

/-- What is received is behind what was there. -/
theorem view_receive {data : List Byte} (h : b.len + data.length < 2 ^ 64) :
    (b.receive data).view = b.view ++ data := by
  have hlen : (b.receive data).len = b.len + data.length := toSize_of_lt h
  refine List.ext_getElem (by simp [hlen]) fun i hi hi' ↦ ?_
  rw [length_view, hlen] at hi
  simp only [view, List.getElem_map, List.getElem_range, receive]
  by_cases hlow : i < b.len
  · rw [List.getElem_append_left (by simpa using hlow), if_neg (by omega)]
    simp
  · rw [List.getElem_append_right (by simpa using Nat.le_of_not_lt hlow), if_pos (by omega),
      List.getD_eq_getElem?_getD, List.getElem?_eq_getElem (by omega)]
    simp

/-- A count the engine takes is taken off the front. -/
theorem put_of_nonneg {r : ℕ} (h : r ≤ b.len) (hlen : b.len ≤ sslBufferSize) :
    (b.put r).1.view = b.view.drop r ∧ (b.put r).1.len = b.len - r ∧
      ∀ m, (b.put r).2 = some m → m.1 + m.2 = b.len := by
  have hsize : sslBufferSize < 2 ^ 64 := by decide
  have hr : toSize r = r := toSize_of_lt (by omega)
  rcases Nat.eq_zero_or_pos r with rfl | hpos
  · rw [put, hr, if_neg (Nat.lt_irrefl 0)]
    exact ⟨rfl, rfl, nofun⟩
  · have hsub : toSize ((b.len : ℤ) - (r : ℕ)) = b.len - r := by
      rw [toSize]
      omega
    rw [put, hr, if_pos hpos, hsub]
    refine ⟨List.ext_getElem (by simp) fun i hi hi' ↦ ?_, rfl, fun m hm ↦ ?_⟩
    · have hi : i < b.len - r := by simpa using hi
      simp only [view, List.getElem_map, List.getElem_range, List.getElem_drop, memmove, if_pos hi]
      rw [Nat.mod_eq_of_lt (by omega)]
    · obtain rfl := Option.some.inj hm
      show r + (b.len - r) = b.len
      omega

/-- **A full BIO** counts one byte more, and the `memmove` starts in front of the buffer. -/
theorem put_of_full (hlen : b.len ≤ sslBufferSize) :
    (b.put (-1)).2 = some (2 ^ 64 - 1, b.len + 1) := by
  have hsize : sslBufferSize < 2 ^ 62 := by decide
  have hr : toSize (-1) = 2 ^ 64 - 1 := by decide
  have hsub : toSize ((b.len : ℤ) - (2 ^ 64 - 1 : ℕ)) = b.len + 1 := by
    rw [toSize]
    omega
  rw [put, hr, if_pos (by decide), hsub]

end InputBuffer

/-! ### The operation over the memory -/

/-- The events of an operation over the memory of its socket; for a `put_input` with the answer of
`::BIO_write`. -/
inductive InputEvent
  | put (r : ℤ) (unread : Bool)
  | event (e : SslEvent)
  deriving DecidableEq, Repr

/-- An operation, the input buffer of its socket, and three records: what the transport has
delivered, what the engine has taken, and the source and size of every `memmove`. -/
structure Backed where
  op : SslOp
  buffer : InputBuffer
  received : List Byte
  given : List Byte
  moves : List (ℕ × ℕ)

namespace Backed

/-- The operation with the bytes of its input buffer read from memory. -/
def load (op : SslOp) (b : InputBuffer) : SslOp := { op with inputBuffer := b.view }

/-- The operation as it is started, on a socket with this input buffer. -/
def start (kind : Kind) (buffer : InputBuffer) (bio : List Byte) (ssl2 : Bool) : Backed :=
  ⟨.start kind buffer.view bio ssl2, buffer, [], [], []⟩

/-- The transitions over the memory of the socket. `::BIO_write` takes a part of what it is offered,
or answers `-1`; the transport delivers no more than it was offered room for. -/
def step (s : Backed) : InputEvent → Option Backed
  | .put r unread =>
    if r = -1 ∨ 0 ≤ r ∧ r ≤ s.buffer.len then
      (s.op.step (.put r.toNat unread)).map fun op ↦
        { op := load op (s.buffer.put r).1
          buffer := (s.buffer.put r).1
          received := s.received
          given := s.given ++ s.buffer.view.take r.toNat
          moves := s.moves ++ (s.buffer.put r).2.toList }
    else none
  | .event (.put _ _) => none
  | .event (.received ec data unread) =>
    if data.length ≤ toSize (sslBufferSize - s.buffer.len) then
      (s.op.step (.received ec data unread)).map fun op ↦
        { s with
          op := load op (s.buffer.receive data)
          buffer := s.buffer.receive data
          received := s.received ++ data }
    else none
  | .event e => (s.op.step e).map fun op ↦ { s with op := op }

/-- The books of the input buffer in a state of an operation that was started with `input` in it. -/
structure Accounted (input : List Byte) (s : Backed) : Prop where
  /-- The count never exceeds the size of the memory. -/
  bounded : s.buffer.len ≤ sslBufferSize
  /-- Every `memmove` reads and writes inside of it. -/
  inside : ∀ m ∈ s.moves, m.1 + m.2 ≤ sslBufferSize
  /-- What the engine has taken and what is in the buffer is what the transport has delivered. -/
  conserved : input ++ s.received = s.given ++ s.buffer.view

/-- The BIO is not full. -/
def Taken : InputEvent → Prop
  | .put r _ => r ≠ -1
  | .event _ => True

instance : DecidablePred Taken
  | .put r _ => inferInstanceAs (Decidable (r ≠ -1))
  | .event _ => inferInstanceAs (Decidable True)

variable {input : List Byte} {s t : Backed} {e : InputEvent}

/-- What a delivery leaves. -/
theorem accounted_receive {data : List Byte} (h : Accounted input s)
    (hroom : data.length ≤ toSize (sslBufferSize - s.buffer.len)) :
    (s.buffer.receive data).len ≤ sslBufferSize ∧
      (s.buffer.receive data).view = s.buffer.view ++ data := by
  have hsize : sslBufferSize < 2 ^ 64 := by decide
  have hbounded := h.bounded
  have hle : data.length ≤ sslBufferSize - s.buffer.len := by
    have hroom' : toSize (sslBufferSize - s.buffer.len) = sslBufferSize - s.buffer.len := by
      rw [toSize]
      omega
    omega
  refine ⟨?_, InputBuffer.view_receive (by omega)⟩
  show toSize (s.buffer.len + data.length) ≤ sslBufferSize
  rw [toSize]
  omega

/-- **Every step keeps the books** of the input, unless the BIO is full. -/
theorem accounted_step (h : Accounted input s) (he : Taken e) (hstep : s.step e = some t) :
    Accounted input t := by
  cases e with
  | put r unread =>
    obtain ⟨hr, ht⟩ := Option.ite_none_right_eq_some.1 hstep
    obtain ⟨op, -, rfl⟩ := Option.map_eq_some_iff.1 ht
    obtain ⟨hnonneg, hle⟩ := hr.resolve_left he
    lift r to ℕ using hnonneg
    obtain ⟨hview, hlen, hmove⟩ := InputBuffer.put_of_nonneg (Int.ofNat_le.1 hle) h.bounded
    have hbounded := h.bounded
    refine ⟨?_, fun m hm ↦ ?_, ?_⟩
    · show (s.buffer.put r).1.len ≤ sslBufferSize
      omega
    · rcases List.mem_append.1 hm with hold | hnew
      · exact h.inside m hold
      · have := hmove m (Option.mem_toList.1 hnew)
        omega
    · show input ++ s.received =
        s.given ++ s.buffer.view.take (r : ℤ).toNat ++ (s.buffer.put r).1.view
      rw [hview, Int.toNat_natCast, List.append_assoc, List.take_append_drop]
      exact h.conserved
  | event e =>
    cases e with
    | put => cases hstep
    | received ec data unread =>
      obtain ⟨hroom, ht⟩ := Option.ite_none_right_eq_some.1 hstep
      obtain ⟨op, -, rfl⟩ := Option.map_eq_some_iff.1 ht
      obtain ⟨hbounded, hview⟩ := accounted_receive h hroom
      refine ⟨hbounded, h.inside, ?_⟩
      show input ++ (s.received ++ data) = s.given ++ (s.buffer.receive data).view
      rw [hview, ← List.append_assoc, h.conserved, List.append_assoc]
    | engine | sent | posted =>
      obtain ⟨op, -, rfl⟩ := Option.map_eq_some_iff.1 hstep
      exact ⟨h.bounded, h.inside, h.conserved⟩

/-- A full BIO spoils them. -/
theorem not_accounted_of_full (h : Accounted input s) (he : ¬Taken e) (hstep : s.step e = some t) :
    ¬Accounted input t := by
  cases e with
  | event => exact absurd trivial he
  | put r unread =>
    obtain ⟨-, ht⟩ := Option.ite_none_right_eq_some.1 hstep
    obtain ⟨op, -, rfl⟩ := Option.map_eq_some_iff.1 ht
    obtain rfl : r = -1 := Decidable.not_not.1 he
    intro h'
    have hsize : sslBufferSize < 2 ^ 62 := by decide
    have hmove := h'.inside (2 ^ 64 - 1, s.buffer.len + 1) (by
      rw [InputBuffer.put_of_full h.bounded]
      exact List.mem_append_right _ (List.mem_singleton_self _))
    omega

/-- **The books of the input buffer.** In a run of any SSL operation, with any answers of the
engine, the transport and `::BIO_write`: the count stays within the memory, every `memmove` stays
inside of it, and no byte is lost, doubled or moved out of order, if and only if `::BIO_write` never
answers `-1`. -/
theorem accounted_iff {kind : Kind} {buffer : InputBuffer} {bio : List Byte} {ssl2 : Bool}
    {l : List InputEvent} (hbuffer : buffer.len ≤ sslBufferSize)
    (hrun : Transition.run step (start kind buffer bio ssl2) l = some t) :
    Transition.Throughout step (Accounted buffer.view) (start kind buffer bio ssl2) l ↔
      Transition.RunMeets step (fun _ e ↦ Taken e) (start kind buffer bio ssl2) l :=
  Transition.throughout_iff (I := Accounted buffer.view) (fun _ h ↦ h)
    (fun _ _ _ h he hst ↦ accounted_step h he hst)
    (fun _ _ _ h he hst ↦ not_accounted_of_full h he hst)
    ⟨hbuffer, fun _ hm ↦ absurd hm List.not_mem_nil, List.append_nil _⟩ hrun

/-- A buffer with nothing in it. -/
def empty : InputBuffer := ⟨fun _ ↦ 0, 0⟩

/-- The theorem on three bytes, of which the engine takes two and then one. -/
theorem accounted_iff_three :
    Transition.Throughout step (Accounted empty.view) (start .handshake empty [] false)
        [.event (.engine ⟨-1, SSL_ERROR_WANT_READ, 0, [], false, false⟩),
          .event (.received .noError [7, 8, 9] false), .put 2 false,
          .event (.engine ⟨-1, SSL_ERROR_WANT_READ, 0, [], false, false⟩), .put 1 false] ↔
      Transition.RunMeets step (fun _ e ↦ Taken e) (start .handshake empty [] false)
        [.event (.engine ⟨-1, SSL_ERROR_WANT_READ, 0, [], false, false⟩),
          .event (.received .noError [7, 8, 9] false), .put 2 false,
          .event (.engine ⟨-1, SSL_ERROR_WANT_READ, 0, [], false, false⟩), .put 1 false] :=
  accounted_iff (by decide) rfl

/-- Two bytes are received, and the BIO is full: the buffer now counts three, and has been moved
from in front of its start. -/
theorem not_accounted_full :
    ∃ t, Transition.run step (start .handshake empty [] false)
        [.event (.engine ⟨-1, SSL_ERROR_WANT_READ, 0, [], false, false⟩),
          .event (.received .noError [7, 8] false), .put (-1) false] = some t ∧
      t.buffer.len = 3 ∧ t.moves = [(2 ^ 64 - 1, 3)] ∧ ¬Accounted empty.view t := by
  refine ⟨_, rfl, by decide, by decide, fun h ↦ ?_⟩
  exact absurd (h.inside (2 ^ 64 - 1, 3) (by decide)) (by decide)

end Backed

/-! ### The list in the place of the memory -/

namespace SslOp

variable {s t : SslOp} {e : SslEvent}

theorem inputBuffer_complete (s : SslOp) (ec : ErrorCode) :
    (s.complete ec).inputBuffer = s.inputBuffer := by
  rw [complete, onComplete]
  split
  · rfl
  · rfl
  · split <;> rfl
  · split <;> rfl

theorem inputBuffer_finish (s : SslOp) (unread : Bool) :
    (s.finish unread).inputBuffer = s.inputBuffer :=
  inputBuffer_complete _ _

theorem inputBuffer_test (s : SslOp) (first : Bool) (ec : ErrorCode) (bytes : ℕ) (unread : Bool) :
    (s.test first ec bytes unread).inputBuffer = s.inputBuffer := by
  rw [test]
  split
  · exact inputBuffer_finish s unread
  · rfl

theorem inputBuffer_flush (s : SslOp) : s.flush.inputBuffer = s.inputBuffer := by
  rw [flush]
  split <;> rfl

/-- Only what has been received is added. -/
theorem inputBuffer_answer (s : SslOp) (ec : ErrorCode) (bytes : ℕ) (data : List Byte)
    (unread : Bool) : (s.answer ec bytes data unread).inputBuffer =
      if s.want = .inputAndRetry then s.inputBuffer ++ data else s.inputBuffer := by
  cases hw : s.want with
  | inputAndRetry =>
    simp only [answer, hw]
    exact (if_pos trivial).symm
  | outputAndRetry =>
    rw [if_neg (by decide)]
    simp only [answer, hw]
    split
    · rw [inputBuffer_test, inputBuffer_flush]
    · exact inputBuffer_flush s
  | output =>
    rw [if_neg (by decide)]
    simp only [answer, hw]
    split
    · rw [inputBuffer_finish, inputBuffer_flush]
    · exact inputBuffer_flush s
  | nothing =>
    rw [if_neg (by decide)]
    simp only [answer, hw]
    exact inputBuffer_finish s unread

theorem inputBuffer_resume (s : SslOp) (ec : ErrorCode) (bytes : ℕ) (data : List Byte)
    (unread : Bool) : (s.resume ec bytes data unread).inputBuffer =
      if s.want = .inputAndRetry then s.inputBuffer ++ data else s.inputBuffer :=
  inputBuffer_answer _ _ _ _ _

theorem inputBuffer_dispatch (s : SslOp) (first : Bool) (ec : ErrorCode) (bytes : ℕ)
    (unread : Bool) : (s.dispatch first ec bytes unread).inputBuffer = s.inputBuffer := by
  rw [dispatch]
  split
  case h_1 => split <;> rfl
  case h_2 => exact inputBuffer_flush _
  case h_3 => exact inputBuffer_flush _
  case h_4 =>
    split
    · rfl
    · rw [inputBuffer_resume, List.append_nil, ite_self]

/-- What an event does to the input buffer. -/
def inputAfter : SslEvent → List Byte → List Byte
  | .put n _, b => b.drop n
  | .received _ data _, b => b ++ data
  | _, b => b

/-- **What a step does to the input buffer**: it takes what the engine takes, adds what is received,
and leaves it alone otherwise. -/
theorem inputBuffer_step (hi : Located True s) (hstep : s.step e = some t) :
    t.inputBuffer = inputAfter e s.inputBuffer := by
  cases e with
  | engine c =>
    rw [step] at hstep
    split at hstep
    case h_2 => cases hstep
    case h_1 => exact Option.some.inj hstep ▸ inputBuffer_dispatch _ _ _ _ _
  | put n unread =>
    rw [step] at hstep
    split at hstep
    case h_2 => cases hstep
    case h_1 => exact Option.some.inj hstep ▸ inputBuffer_test _ _ _ _ _
  | received ec data unread =>
    obtain ⟨⟨-, hr⟩, ht⟩ := Option.ite_none_right_eq_some.1 hstep
    obtain rfl := Option.some.inj ht
    rw [inputBuffer_resume, if_pos (hi.receiving_of_pos hr).1]
    rfl
  | sent ec bytes unread =>
    obtain ⟨-, ht⟩ := Option.ite_none_right_eq_some.1 hstep
    obtain rfl := Option.some.inj ht
    rw [inputBuffer_resume, List.append_nil, ite_self]
    rfl
  | posted =>
    obtain ⟨-, ht⟩ := Option.ite_none_right_eq_some.1 hstep
    obtain rfl := Option.some.inj ht
    exact inputBuffer_complete _ _

end SslOp

namespace Backed

variable {input : List Byte} {s t : Backed} {e : InputEvent}

/-- The event of the operation with a list. -/
def plain : InputEvent → SslEvent
  | .put r unread => .put r.toNat unread
  | .event e => e

/-- An operation whose list is what the memory holds. -/
theorem load_of_eq {op : SslOp} {b : InputBuffer} (h : op.inputBuffer = b.view) :
    load op b = op := by
  rw [load, ← h]

/-- **A step over the memory** is a step over the list, unless the BIO is full. -/
theorem step_op (h : Accounted input s) (hi : SslOp.Located True s.op)
    (hview : s.op.inputBuffer = s.buffer.view) (he : Taken e) (hstep : s.step e = some t) :
    s.op.step (plain e) = some t.op ∧ t.op.inputBuffer = t.buffer.view := by
  cases e with
  | put r unread =>
    obtain ⟨hr, ht⟩ := Option.ite_none_right_eq_some.1 hstep
    obtain ⟨op, hop, rfl⟩ := Option.map_eq_some_iff.1 ht
    obtain ⟨hnonneg, hle⟩ := hr.resolve_left he
    lift r to ℕ using hnonneg
    have hput := (InputBuffer.put_of_nonneg (Int.ofNat_le.1 hle) h.bounded).1
    have hlist : op.inputBuffer = (s.buffer.put r).1.view := by
      rw [SslOp.inputBuffer_step hi hop, hput, ← hview]
      rfl
    exact ⟨hop.trans (congrArg some (load_of_eq hlist).symm), rfl⟩
  | event e =>
    have hother {op : SslOp} (hop : s.op.step e = some op)
        (hsame : SslOp.inputAfter e s.op.inputBuffer = s.op.inputBuffer) :
        op.inputBuffer = s.buffer.view :=
      (SslOp.inputBuffer_step hi hop).trans (hsame.trans hview)
    cases e with
    | put => cases hstep
    | received ec data unread =>
      obtain ⟨hroom, ht⟩ := Option.ite_none_right_eq_some.1 hstep
      obtain ⟨op, hop, rfl⟩ := Option.map_eq_some_iff.1 ht
      have hlist : op.inputBuffer = (s.buffer.receive data).view := by
        rw [SslOp.inputBuffer_step hi hop, (accounted_receive h hroom).2, ← hview]
        rfl
      exact ⟨hop.trans (congrArg some (load_of_eq hlist).symm), rfl⟩
    | engine | sent | posted =>
      obtain ⟨op, hop, rfl⟩ := Option.map_eq_some_iff.1 hstep
      exact ⟨hop, hother hop rfl⟩

/-- **The list stands for the memory.** As long as the BIO is not full, a run over the memory is one
of the operation with a list. -/
theorem run_op_of_run {kind : Kind} {buffer : InputBuffer} {bio : List Byte} {ssl2 : Bool}
    {l : List InputEvent} (hbuffer : buffer.len ≤ sslBufferSize) (hl : ∀ e ∈ l, Taken e)
    (hrun : Transition.run step (start kind buffer bio ssl2) l = some t) :
    Transition.run SslOp.step (.start kind buffer.view bio ssl2) (l.map plain) = some t.op := by
  suffices hgen : ∀ s : Backed, Accounted buffer.view s → SslOp.Located True s.op →
      s.op.inputBuffer = s.buffer.view → Transition.run step s l = some t →
      Transition.run SslOp.step s.op (l.map plain) = some t.op by
    exact hgen _ ⟨hbuffer, fun _ hm ↦ absurd hm List.not_mem_nil, List.append_nil _⟩
      (SslOp.located_start _ _ _ _) rfl hrun
  clear hrun hbuffer
  induction l with
  | nil => exact fun s _ _ _ hrun ↦ congrArg some (congrArg op (Option.some.inj hrun))
  | cons e l ih =>
    intro s h hi hview hrun
    obtain ⟨u, hu, htail⟩ := Transition.run_cons_eq_some.1 hrun
    obtain ⟨he, hl'⟩ := List.forall_mem_cons.1 hl
    obtain ⟨hop, hview'⟩ := step_op h hi hview he hu
    exact Transition.run_cons_eq_some.2 ⟨u.op, hop, ih hl' u (accounted_step h he hu)
      (SslOp.located_step hi (.inr trivial) hop) hview' htail⟩

end Backed

end JnetLib.Ssl
