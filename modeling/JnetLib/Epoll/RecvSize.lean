import JnetLib.Epoll.Recv
import JnetLib.Epoll.SendSize

/-!
# The sizes of receives on the epoll backend

The room of a receive is a `size_t`, which `recv_op` holds in an `unsigned int` before it passes it
on. Where it is a multiple of `2 ^ 32`, `::recv` is asked for nothing, and the receive takes the
empty answer for the end of the stream (`FalseEnd`). `RecvState.keeps_iff` says for which lengths a
receive keeps its contract: an exact one below `2 ^ 32`, one of some bytes unless the length is a
multiple of `2 ^ 32`, as it looks at its length once only.

* Where nothing is cut, a receive keeps its buffer and what it was asked for (`Sized`, `Meets`).
* From `2 ^ 32` on an exact receive comes to a false end when its requests have taken what exceeds
  the last multiple (`exists_falseEnd_of_large`).
-/

namespace JnetLib.Epoll

namespace RecvOp

/-- What a completion can do: report an error, or what it has, or wait again. -/
theorem onComplete_cases (op : RecvOp) (o : Outcome) :
    (∃ ec, ec.isError = true ∧ op.onComplete o = (op, .finished ec op.buffer.len)) ∨
    op.onComplete o = ({ op with base := .reset }, .inSlot) ∨
    (∃ n ec, ec.isError = false ∧ op.onComplete o =
      ({ op with buffer := op.buffer.append n }, .finished ec (op.buffer.append n).len)) ∨
    (∃ n, op.some_ = false ∧ op.onComplete o =
      ({ op with buffer := op.buffer.append n, base := .reset }, .inSlot)) := by
  rcases hec : (op.readResult o).1.isError with - | -
  · rcases Nat.eq_zero_or_pos (op.readResult o).2 with hzero | hpos
    · by_cases hrem : 0 < op.buffer.remain
      · exact .inl ⟨.eof, rfl, onComplete_zero hec hzero hrem⟩
      · exact .inr (.inr (.inl ⟨0, _, hec, onComplete_full hec hzero hrem⟩))
    · rw [onComplete_pos hec hpos]
      split
      case isTrue h =>
        have hsome : op.some_ = false := by simpa using (Bool.and_eq_true_iff.1 h).1
        exact .inr (.inr (.inr ⟨_, hsome, rfl⟩))
      case isFalse => exact .inr (.inr (.inl ⟨_, _, hec, rfl⟩))
  · rcases hw : (op.readResult o).1.wouldBlock with - | -
    · exact .inl ⟨_, hec, onComplete_error hec hw⟩
    · exact .inr (.inl (onComplete_wouldBlock hw))

end RecvOp

namespace RecvState

/-- The receive has reported the end of the stream, and what it had asked for was nothing, though
there was room. -/
def FalseEnd (s : RecvState) : Prop :=
  (∃ n, s.place = .finished .eof n) ∧ 0 < s.op.buffer.remain ∧ toUInt32 s.op.buffer.remain = 0

/-- What `asyn_recv` (`some_` false) and `asyn_recv_some` (`some_` true) owe a caller with room for
`len` bytes. -/
structure Keeps (some_ : Bool) (len : ℕ) : Prop where
  /-- Each `::recv` is offered some of the room that is left, and something if there is any. -/
  asks : ∀ o, o.Legal (toUInt32 len) → ∀ s, Transition.Reachable step (start len some_ o) s →
    ∀ c ∈ s.calls, RequestFits (len - c.offset) c.requested
  /-- The end of the stream is never reported for an empty request. -/
  eof : ∀ o, o.Legal (toUInt32 len) → ∀ s, Transition.Reachable step (start len some_ o) s →
    ¬s.FalseEnd

variable {some_ : Bool} {len : ℕ} {s t : RecvState}

/-- The operation is still about the caller's buffer. -/
structure Sized (some_ : Bool) (len : ℕ) (op : RecvOp) : Prop where
  some_eq : op.some_ = some_
  buffer : op.buffer.Sized some_ len

/-- What holds of a receive in every state. -/
structure Meets (some_ : Bool) (len : ℕ) (s : RecvState) : Prop where
  sized : (∀ ec n, s.place ≠ .finished ec n) → Sized some_ len s.op
  calls : ∀ c ∈ s.calls, RequestFits (len - c.offset) c.requested
  eof : ¬s.FalseEnd

theorem meets_of_unfinished {op : RecvOp} {place : RecvPlace} {calls : List RecvCall}
    (hp : ∀ ec n, place ≠ .finished ec n) (h : Sized some_ len op)
    (hcalls : ∀ c ∈ calls, RequestFits (len - c.offset) c.requested) :
    Meets some_ len ⟨op, place, calls⟩ :=
  ⟨fun _ ↦ h, hcalls, fun ⟨⟨n, hn⟩, _⟩ ↦ hp _ n hn⟩

theorem meets_onComplete {op : RecvOp} {calls : List RecvCall} (hlen : Narrowable some_ len)
    (h : Sized some_ len op) (hcalls : ∀ c ∈ calls, RequestFits (len - c.offset) c.requested)
    (o : Outcome) : Meets some_ len ⟨(op.onComplete o).1, (op.onComplete o).2, calls⟩ := by
  rcases op.onComplete_cases o with ⟨ec, hec, hdo⟩ | hdo | ⟨n, ec, hec, hdo⟩ | ⟨n, hsome, hdo⟩ <;>
    rw [hdo]
  · refine ⟨fun hf ↦ absurd rfl (hf ec op.buffer.len), hcalls, fun hend ↦ ?_⟩
    obtain ⟨-, hpos, hzero⟩ := hend
    rcases h.buffer.narrowable hlen with hnone | hdvd
    · exact absurd hnone (Nat.ne_of_gt hpos)
    · exact hdvd (toUInt32_eq_zero_iff.1 hzero)
  · exact meets_of_unfinished (by simp) ⟨h.some_eq, h.buffer⟩ hcalls
  · refine ⟨fun hf ↦ absurd rfl (hf ec _), hcalls, fun hend ↦ ?_⟩
    obtain ⟨⟨m, hm⟩, -⟩ := hend
    obtain ⟨rfl, -⟩ := RecvPlace.finished.inj hm
    cases hec
  · obtain rfl : some_ = false := h.some_eq.symm.trans hsome
    exact meets_of_unfinished (by simp) ⟨hsome, h.buffer.append n⟩ hcalls

theorem meets_step {e : RecvEvent} (hlen : Narrowable some_ len) (hs : Meets some_ len s)
    (hstep : step s e = some t) : Meets some_ len t := by
  have hcall : ∀ o', Sized some_ len s.op →
      RequestFits (len - (RecvCall.mk s.op.buffer.buf (toUInt32 s.op.buffer.remain) o').offset)
        (toUInt32 s.op.buffer.remain) := by
    intro o' h
    show RequestFits (len - s.op.buffer.buf) _
    rw [← h.buffer.remain]
    exact requestFits_toUInt32_iff.2 (h.buffer.narrowable hlen)
  rcases hp : s.place with - | - | - | ⟨ec, n⟩
  case finished => cases e <;> simp [step, hp] at hstep
  case inSlot =>
    cases e with
    | dispatch o => simp [step, hp] at hstep
    | ready flags soError =>
      simp only [step, hp, Option.some.injEq] at hstep
      subst hstep
      have h := hs.sized (by simp [hp])
      exact meets_of_unfinished (by simp) ⟨h.some_eq, h.buffer⟩ hs.calls
  case posted =>
    cases e with
    | ready flags soError => simp [step, hp] at hstep
    | dispatch o =>
      simp only [step, hp, Option.some.injEq] at hstep
      subst hstep
      refine ⟨fun hf ↦ absurd rfl (hf .noError 0), hs.calls, fun hend ↦ ?_⟩
      obtain ⟨⟨m, hm⟩, -⟩ := hend
      cases hm
  case completed =>
    have h := hs.sized (by simp [hp])
    cases e with
    | ready flags soError => simp [step, hp] at hstep
    | dispatch o =>
      simp only [step, hp] at hstep
      split at hstep
      · split at hstep
        case isFalse => cases hstep
        case isTrue =>
          obtain rfl := Option.some.inj hstep
          refine meets_onComplete hlen h (fun c hc ↦ ?_) o
          rcases List.mem_append.1 hc with hold | hnew
          · exact hs.calls c hold
          · rw [List.mem_singleton.1 hnew]
            exact hcall o h
      · obtain rfl := Option.some.inj hstep
        exact meets_onComplete hlen h hs.calls o

theorem meets_start (hlen : Narrowable some_ len) (o : Outcome) :
    Meets some_ len (start len some_ o) := by
  have hnew : Sized some_ len (RecvOp.new len some_) := ⟨rfl, MutableBuffer.sized_new some_ len⟩
  have hfits : RequestFits len (toUInt32 len) :=
    requestFits_toUInt32_iff.2 (hnew.buffer.narrowable hlen)
  rw [start, RecvOp.beginRecv]
  split
  · dsimp only
    split <;> exact meets_of_unfinished (by simp) ⟨rfl, hnew.buffer⟩
      fun c hc ↦ by rw [List.mem_singleton.1 hc]; exact hfits
  · exact meets_of_unfinished (by simp) hnew fun c hc ↦ absurd hc List.not_mem_nil

theorem keeps_of_narrowable (hlen : Narrowable some_ len) : Keeps some_ len := by
  have hmeets : ∀ o s, Transition.Reachable step (start len some_ o) s → Meets some_ len s :=
    fun o s hs ↦ hs.invariant (fun _ _ _ h hst ↦ meets_step hlen h hst) (meets_start hlen o)
  exact ⟨fun o _ s hs ↦ (hmeets o s hs).calls, fun o _ s hs ↦ (hmeets o s hs).eof⟩

/-- A completion that has nothing to go by but an empty request. -/
theorem falseEnd_of_empty (hp : s.place = .completed) (hreads : s.op.reads = false)
    (hec : s.op.base.readerError.isError = false) (hbytes : s.op.base.bytesTransferred = 0)
    (hrem : 0 < s.op.buffer.remain) (hzero : toUInt32 s.op.buffer.remain = 0) :
    ∃ t, Transition.Reachable step s t ∧ t.FalseEnd := by
  have hres : s.op.readResult (.bytes 0) = (s.op.base.readerError, 0) := by
    rw [RecvOp.readResult, hreads, hbytes]
    rfl
  have hdo : s.op.onComplete (.bytes 0) = (s.op, .finished .eof s.op.buffer.len) :=
    RecvOp.onComplete_zero (by rw [hres]; exact hec) (by rw [hres]) hrem
  have hstep : step s (.dispatch (.bytes 0)) =
      some ⟨s.op, .finished .eof s.op.buffer.len, s.calls⟩ := by
    simp only [step, hp, hreads, hdo, Bool.false_eq_true, if_false]
  exact ⟨_, (Transition.Reachable.refl s).tail hstep, ⟨s.op.buffer.len, rfl⟩, hrem, hzero⟩

/-- A buffer of a multiple of `2 ^ 32` bytes: the first `::recv` asks for none. -/
theorem exists_falseEnd_of_dvd (some_ : Bool) (hpos : 0 < len) (hdvd : 2 ^ 32 ∣ len) :
    ∃ s, Transition.Reachable step (start len some_ (.bytes 0)) s ∧ s.FalseEnd := by
  have hzero : toUInt32 len = 0 := toUInt32_eq_zero_iff.2 hdvd
  have hrem : (RecvOp.new len some_).buffer.remain = len := rfl
  have hstart : start len some_ (.bytes 0) =
      ⟨{ RecvOp.new len some_ with
        recv_ := true, base := Operation.reset.onCompletion (.system 0) 0 },
        .completed, [⟨0, 0, .bytes 0⟩]⟩ := by
    rw [start, RecvOp.beginRecv, hrem, if_pos hpos, hzero]
    rfl
  rw [hstart]
  refine falseEnd_of_empty rfl (by simp [RecvOp.reads]) ?_ rfl hpos hzero
  rw [Operation.readerError_onCompletion rfl]
  rfl

/-- A larger buffer: what exceeds the last multiple is received, after a wait, and then a multiple
is left. -/
theorem exists_falseEnd_of_large (hlen : 2 ^ 32 ≤ len) (hdvd : ¬2 ^ 32 ∣ len) :
    ∃ s, Transition.Reachable step (start len false (.fail EAGAIN)) s ∧ s.FalseEnd := by
  obtain ⟨k, hk⟩ : ∃ k, toUInt32 len = k := ⟨_, rfl⟩
  have hkpos : 0 < k := by
    rw [← hk]
    exact Nat.pos_of_ne_zero fun h ↦ hdvd (toUInt32_eq_zero_iff.1 h)
  have hleft : 2 ^ 32 ≤ len - k := le_sub_of_le_toUInt32 hlen hk.ge
  have hposition : 0 < len - k := Nat.lt_of_lt_of_le (by decide) hleft
  have hzero : toUInt32 (len - k) = 0 := by
    rw [← hk, toUInt32, toUInt32]
    omega
  -- the first call would block, and the event wakes the operation
  have hrem : (RecvOp.new len false).buffer.remain = len := rfl
  have hstart : start len false (.fail EAGAIN) =
      ⟨RecvOp.new len false, .inSlot, [⟨0, k, .fail EAGAIN⟩]⟩ := by
    rw [start, RecvOp.beginRecv, hrem, if_pos (by omega), hk]
    rfl
  have hready : ∀ op calls, op.base = .reset → step ⟨op, .inSlot, calls⟩ (.ready .clear 0) =
      some ⟨op, .completed, calls⟩ := by
    rintro ⟨base, some_, buffer, recv_⟩ calls rfl
    rfl
  -- it receives all that its request, cut to 32 bits, asks for
  have hreads : (RecvOp.new len false).reads = true := by
    rw [RecvOp.reads_of_waiting rfl rfl, hrem, hk, bne_iff_ne]
    omega
  have hres : (RecvOp.new len false).readResult (.bytes k) = (.system 0, k) := by
    rw [RecvOp.readResult, hreads]
    rfl
  have hdo : (RecvOp.new len false).onComplete (.bytes k) =
      ({ RecvOp.new len false with buffer := ⟨0 + k, len, 0 + k⟩ }, .inSlot) := by
    have hroom : decide (0 < ((RecvOp.new len false).buffer.append k).remain) = true := by
      rw [decide_eq_true_iff]
      show 0 < len - (0 + k)
      omega
    have hok : ((RecvOp.new len false).readResult (.bytes k)).1.isError = false := by
      rw [hres]
      rfl
    rw [RecvOp.onComplete_pos hok (by rw [hres]; exact hkpos), hres, hroom]
    rfl
  have hdispatch : step ⟨RecvOp.new len false, .completed, [⟨0, k, .fail EAGAIN⟩]⟩
      (.dispatch (.bytes k)) =
        some ⟨{ RecvOp.new len false with buffer := ⟨0 + k, len, 0 + k⟩ }, .inSlot,
          [⟨0, k, .fail EAGAIN⟩, ⟨0, k, .bytes k⟩]⟩ := by
    have hlegal : (Outcome.bytes k).Legal k := Nat.le_refl k
    simp only [step, hreads, hdo, hrem, hk, hlegal, if_true]
    rfl
  -- the next event finds a request for nothing
  obtain ⟨t, ht, hend⟩ := falseEnd_of_empty
    (s := ⟨{ RecvOp.new len false with buffer := ⟨0 + k, len, 0 + k⟩ }, .completed,
      [⟨0, k, .fail EAGAIN⟩, ⟨0, k, .bytes k⟩]⟩) rfl
    (by
      rw [RecvOp.reads_of_waiting rfl rfl]
      show (toUInt32 (len - (0 + k)) != 0) = false
      rw [Nat.zero_add, hzero]
      rfl)
    rfl rfl
    (by show 0 < len - (0 + k); omega)
    (by show toUInt32 (len - (0 + k)) = 0; rw [Nat.zero_add, hzero])
  refine ⟨t, ?_, hend⟩
  rw [hstart]
  obtain ⟨l, hl⟩ := ht
  refine ⟨.ready .clear 0 :: .dispatch (.bytes k) :: .ready .clear 0 :: l, ?_⟩
  rw [Transition.run_cons, hready _ _ rfl, Option.bind_some, Transition.run_cons, hdispatch,
    Option.bind_some, Transition.run_cons, hready _ _ rfl, Option.bind_some]
  exact hl

/-- **Receiving, on every length.** -/
theorem keeps_iff : Keeps some_ len ↔ Narrowable some_ len := by
  refine ⟨fun hkeeps ↦ ?_, keeps_of_narrowable⟩
  by_contra h
  rcases cases_of_not_narrowable h with ⟨hpos, hdvd⟩ | ⟨rfl, hlarge, hdvd⟩
  · obtain ⟨s, hs, hend⟩ := exists_falseEnd_of_dvd some_ hpos hdvd
    exact hkeeps.eof _ (Nat.zero_le _) s hs hend
  · obtain ⟨s, hs, hend⟩ := exists_falseEnd_of_large hlarge hdvd
    exact hkeeps.eof _ (by show EAGAIN ≠ 0; decide) s hs hend

end RecvState

end JnetLib.Epoll
