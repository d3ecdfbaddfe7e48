import JnetLib.Epoll.RecvSize
import JnetLib.Iocp.SendSize

/-!
# The sizes of receives on the IOCP backend

A receive with room for a multiple of `2 ^ 32` bytes submits an empty `WSABUF`, and takes the empty
answer for the end of the stream. `RecvState.keeps_iff` has the same lengths as on the epoll
backend, for the same reasons: where nothing is cut, `Meets` holds in every state, and an exact
receive of more comes to a false end (`exists_falseEnd_of_large`).
-/

namespace JnetLib.Iocp

open Epoll (OpenFile Outcome)

/-- `recv_op::max_recv_buffer_size`. -/
def maxRecvBufferSize : ℕ := 64 * 1024

/-- `wsabuf_wrapper::shrink_to`. -/
def shrinkTo (len size : ℕ) : ℕ := if size < len then toUInt32 size else len

/-- The length of `wsa_buffer_` with `remain` bytes of room. -/
def wsaRecvLen (remain : ℕ) : ℕ :=
  shrinkTo (toUInt32 remain) (if maxRecvBufferSize < remain then maxRecvBufferSize else remain)

theorem wsaRecvLen_eq_min (remain : ℕ) :
    wsaRecvLen remain = min (toUInt32 remain) maxRecvBufferSize := by
  have hle := toUInt32_le remain
  have hmax : toUInt32 maxRecvBufferSize = maxRecvBufferSize := by decide
  rw [wsaRecvLen, shrinkTo]
  rcases Nat.lt_or_ge maxRecvBufferSize remain with hlarge | hsmall
  · rw [if_pos hlarge, hmax]
    split <;> omega
  · rw [if_neg (Nat.not_lt_of_ge hsmall), if_neg (Nat.not_lt_of_ge hle)]
    omega

theorem requestFits_wsaRecvLen_iff {remain : ℕ} :
    RequestFits remain (wsaRecvLen remain) ↔ remain = 0 ∨ ¬2 ^ 32 ∣ remain := by
  rw [wsaRecvLen_eq_min]
  exact requestFits_min_iff (by decide)

theorem wsaRecvLen_eq_zero_iff {remain : ℕ} : wsaRecvLen remain = 0 ↔ 2 ^ 32 ∣ remain := by
  have hmax : 0 < maxRecvBufferSize := by decide
  rw [wsaRecvLen_eq_min, ← toUInt32_eq_zero_iff]
  omega

/-- `recv_op`. The buffer starts at offset zero. -/
structure RecvOp where
  some_ : Bool
  buffer : MutableBuffer
  deriving DecidableEq, Repr

/-- `recv_op::on_complete`. -/
def recvOp : Routine RecvOp Unit where
  requested op := wsaRecvLen op.buffer.remain
  complete op _ ec n :=
    let ec := if !ec.isError && n == 0 && decide (0 < op.buffer.remain) then .eof else ec
    if !ec.isError then
      let op := { op with buffer := op.buffer.append n }
      some (op, if !op.some_ && decide (0 < op.buffer.remain) then
        .again (wsaRecvLen op.buffer.remain) else .finish ec op.buffer.len)
    else some (op, .finish ec op.buffer.len)
  resets := true
  recheck _ _ := none

/-- No bytes while there is room: the end of the stream. -/
theorem recvOp_complete_zero {op : RecvOp} {d : Unit} {ec : ErrorCode} (hec : ec.isError = false)
    (hrem : 0 < op.buffer.remain) :
    recvOp.complete op d ec 0 = some (op, .finish .eof op.buffer.len) := by
  simp [recvOp, hec, hrem]

/-- Room is left behind the bytes: a receive of an exact length goes on. -/
theorem recvOp_complete_again {op : RecvOp} {d : Unit} {ec : ErrorCode} {n : ℕ}
    (hec : ec.isError = false) (hn : 0 < n) (hsome : op.some_ = false)
    (hrem : 0 < (op.buffer.append n).remain) :
    recvOp.complete op d ec n = some ({ op with buffer := op.buffer.append n },
      .again (wsaRecvLen (op.buffer.append n).remain)) := by
  have hne : (n == 0) = false := beq_false_of_ne (Nat.ne_of_gt hn)
  simp only [recvOp, hec, hne, hsome, hrem, Bool.not_false, Bool.and_false, Bool.false_and,
    Bool.false_eq_true, if_false, if_true, decide_true, Bool.and_self]

/-- What a completion can do: report an error, or what it has, or ask for more. -/
theorem recvOp_complete_cases {op : RecvOp} {d : Unit} {ec : ErrorCode} {n : ℕ}
    {r : RecvOp × Verdict} (h : recvOp.complete op d ec n = some r) :
    (∃ ec', ec'.isError = true ∧ r = (op, .finish ec' op.buffer.len)) ∨
    (∃ ec', ec'.isError = false ∧ r = ({ op with buffer := op.buffer.append n },
      .finish ec' (op.buffer.append n).len)) ∨
    (op.some_ = false ∧ r = ({ op with buffer := op.buffer.append n },
      .again (wsaRecvLen (op.buffer.append n).remain))) := by
  obtain ⟨ec', hec'⟩ : ∃ ec', ec' =
      if !ec.isError && n == 0 && decide (0 < op.buffer.remain) then ErrorCode.eof else ec :=
    ⟨_, rfl⟩
  simp only [recvOp, ← hec'] at h
  rcases herr : ec'.isError with - | -
  · rw [herr, Bool.not_false, if_pos rfl] at h
    obtain rfl := Option.some.inj h
    split
    case isTrue hmore =>
      exact .inr (.inr ⟨by simpa using (Bool.and_eq_true_iff.1 hmore).1, rfl⟩)
    case isFalse => exact .inr (.inl ⟨ec', herr, rfl⟩)
  · rw [herr, Bool.not_true, if_neg Bool.false_ne_true] at h
    exact .inl ⟨ec', herr, (Option.some.inj h).symm⟩

namespace RecvState

/-- The transitions of a receive. -/
def step : SocketState RecvOp → SocketEvent Unit → Option (SocketState RecvOp) :=
  SocketState.step recvOp

/-- `asyn_recv` (`some_` false) and `asyn_recv_some` (`some_` true). -/
def asynRecv (some_ : Bool) (len : ℕ) : SocketState RecvOp := .start recvOp ⟨some_, ⟨0, len, 0⟩⟩

/-- The receive has reported the end of the stream, and what it had asked for was nothing, though
there was room. -/
def FalseEnd (s : SocketState RecvOp) : Prop :=
  (∃ n, s.place = .finished .eof n) ∧ 0 < s.op.buffer.remain ∧ wsaRecvLen s.op.buffer.remain = 0

/-- What the two owe a caller with room for `len` bytes. -/
structure Keeps (some_ : Bool) (len : ℕ) : Prop where
  /-- Each `WSARecv` is offered some of the room that is left, and something if there is any. -/
  asks : ∀ s, Transition.Reachable step (asynRecv some_ len) s →
    ∀ bytes, s.place = .issued bytes → RequestFits s.op.buffer.remain bytes
  /-- The end of the stream is never reported for an empty request. -/
  eof : ∀ s, Transition.Reachable step (asynRecv some_ len) s → ¬FalseEnd s

variable {some_ : Bool} {len : ℕ} {s t : SocketState RecvOp}

/-- What holds of a receive in every state. -/
structure Meets (some_ : Bool) (len : ℕ) (s : SocketState RecvOp) : Prop where
  some_eq : s.op.some_ = some_
  sized : (∀ ec n, s.place ≠ .finished ec n) → s.op.buffer.Sized some_ len
  issued : ∀ bytes, s.place = .issued bytes → bytes = wsaRecvLen s.op.buffer.remain
  eof : ¬FalseEnd s

theorem meets_step {e : SocketEvent Unit} (hlen : Narrowable some_ len) (hs : Meets some_ len s)
    (hstep : step s e = some t) : Meets some_ len t := by
  obtain ⟨bytes, o, -, hp, -, rfl⟩ | ⟨ec, n, d, r, -, hp, hr, rfl⟩ := SocketState.step_cases hstep
  · refine ⟨hs.some_eq, fun _ ↦ hs.sized (by simp [hp]), fun m hm ↦ ?_, fun hend ↦ ?_⟩
    · cases hm
    · obtain ⟨⟨m, hm⟩, -⟩ := hend
      cases hm
  · have hsized := hs.sized (by simp [hp])
    rcases recvOp_complete_cases hr with ⟨ec', hec, rfl⟩ | ⟨ec', hec, rfl⟩ | ⟨hsome, rfl⟩
    · refine ⟨hs.some_eq, fun hf ↦ absurd rfl (hf ec' _), fun m hm ↦ (by cases hm), fun hend ↦ ?_⟩
      obtain ⟨-, hpos, hzero⟩ := hend
      rcases hsized.narrowable hlen with hnone | hdvd
      · exact absurd hnone (Nat.ne_of_gt hpos)
      · exact hdvd (wsaRecvLen_eq_zero_iff.1 hzero)
    · refine ⟨hs.some_eq, fun hf ↦ absurd rfl (hf ec' _), fun m hm ↦ (by cases hm), fun hend ↦ ?_⟩
      obtain ⟨⟨m, hm⟩, -⟩ := hend
      obtain ⟨rfl, -⟩ := FilePlace.finished.inj hm
      cases hec
    · obtain rfl : some_ = false := hs.some_eq.symm.trans hsome
      refine ⟨hsome, fun _ ↦ hsized.append n, fun m hm ↦ (FilePlace.issued.inj hm).symm,
        fun hend ↦ ?_⟩
      obtain ⟨⟨m, hm⟩, -⟩ := hend
      cases hm

theorem keeps_of_narrowable (hlen : Narrowable some_ len) : Keeps some_ len := by
  have hstart : Meets some_ len (asynRecv some_ len) :=
    ⟨rfl, fun _ ↦ MutableBuffer.sized_new some_ len, fun _ h ↦ (FilePlace.issued.inj h).symm,
      fun ⟨⟨_, h⟩, _⟩ ↦ by cases h⟩
  have hmeets : ∀ s, Transition.Reachable step (asynRecv some_ len) s → Meets some_ len s :=
    fun s hs ↦ hs.invariant (fun _ _ _ h hst ↦ meets_step hlen h hst) hstart
  refine ⟨fun s hs bytes hp ↦ ?_, fun s hs ↦ (hmeets s hs).eof⟩
  have h := hmeets s hs
  rw [h.issued bytes hp]
  exact requestFits_wsaRecvLen_iff.2 ((h.sized (by simp [hp])).narrowable hlen)

/-- A request is answered with all it asks for, and the completion decides. -/
theorem reachable_answer {op : RecvOp} {bytes : ℕ} {r : RecvOp × Verdict}
    (hr : recvOp.complete op () (SocketState.answer bytes).result.1 bytes = some r) :
    Transition.Reachable step ⟨op, .issued bytes⟩ (SocketState.decided r) := by
  have hkernel : step ⟨op, .issued bytes⟩ (.kernel (SocketState.answer bytes)) =
      some ⟨op, .completed (SocketState.answer bytes).result.1
        (SocketState.answer bytes).result.2⟩ :=
    SocketState.step_kernel rfl (SocketState.legal_answer bytes)
  rw [(SocketState.result_answer bytes).2] at hkernel
  have hdispatch : step ⟨op, .completed (SocketState.answer bytes).result.1 bytes⟩ (.dispatch ()) =
      some (SocketState.decided r) := SocketState.step_dispatch rfl hr
  exact ((Transition.Reachable.refl _).tail hkernel).tail hdispatch

/-- A multiple of `2 ^ 32` is left: the request is empty, and the end of the stream is reported. -/
theorem exists_falseEnd_of_dvd {op : RecvOp} (hpos : 0 < op.buffer.remain)
    (hdvd : 2 ^ 32 ∣ op.buffer.remain) :
    ∃ t, Transition.Reachable step (.start recvOp op) t ∧ FalseEnd t := by
  have hzero : wsaRecvLen op.buffer.remain = 0 := wsaRecvLen_eq_zero_iff.2 hdvd
  have hstart : SocketState.start recvOp op = ⟨op, .issued 0⟩ := by
    rw [SocketState.start, show recvOp.requested op = wsaRecvLen op.buffer.remain from rfl, hzero]
  rw [hstart]
  exact ⟨_, reachable_answer (recvOp_complete_zero rfl hpos), ⟨_, rfl⟩, hpos, hzero⟩

/-- **An exact receive of `2 ^ 32` bytes or more comes to a false end.** The induction is on what
exceeds the last multiple: the requests take it, chunk by chunk, and stop there. -/
theorem exists_falseEnd_of_large {op : RecvOp} (hsome : op.some_ = false)
    (hlen : 2 ^ 32 ≤ op.buffer.remain) :
    ∃ t, Transition.Reachable step (.start recvOp op) t ∧ FalseEnd t := by
  induction hk : toUInt32 op.buffer.remain using Nat.strongRecOn generalizing op with
  | ind k ih =>
    rcases Nat.eq_zero_or_pos k with rfl | hkpos
    · exact exists_falseEnd_of_dvd (Nat.lt_of_lt_of_le (by decide) hlen)
        (toUInt32_eq_zero_iff.1 hk)
    · obtain ⟨m, hm⟩ : ∃ m, wsaRecvLen op.buffer.remain = m := ⟨_, rfl⟩
      have hmk : m ≤ k ∧ 0 < m := by
        have hmax : 0 < maxRecvBufferSize := by decide
        rw [wsaRecvLen_eq_min, hk] at hm
        omega
      have hrem : (op.buffer.append m).remain = op.buffer.remain - m := Nat.sub_add_eq _ _ _
      have hleft : 2 ^ 32 ≤ op.buffer.remain - m := le_sub_of_le_toUInt32 hlen (hk ▸ hmk.1)
      -- a chunk is taken from what exceeds the last multiple
      have hless : toUInt32 (op.buffer.remain - m) < k := by
        rw [toUInt32] at hk ⊢
        omega
      have hagain : recvOp.complete op () (SocketState.answer m).result.1 m =
          some ({ op with buffer := op.buffer.append m },
            .again (wsaRecvLen (op.buffer.append m).remain)) :=
        recvOp_complete_again (SocketState.result_answer m).1 hmk.2 hsome
          (by rw [hrem]; exact Nat.lt_of_lt_of_le (by decide) hleft)
      have hsome' : (RecvOp.mk op.some_ (op.buffer.append m)).some_ = false := hsome
      have hless' : toUInt32 (op.buffer.append m).remain < k := by
        rw [hrem]
        exact hless
      have hleft' : 2 ^ 32 ≤ (op.buffer.append m).remain := by
        rw [hrem]
        exact hleft
      obtain ⟨t, ⟨l, hl⟩, hend⟩ := ih _ hless' hsome' hleft' rfl
      have hstart : SocketState.start recvOp op = ⟨op, .issued m⟩ := by
        rw [SocketState.start, show recvOp.requested op = wsaRecvLen op.buffer.remain from rfl, hm]
      obtain ⟨l', hl'⟩ := reachable_answer hagain
      refine ⟨t, ⟨l' ++ l, ?_⟩, hend⟩
      rw [hstart, Transition.run_append, hl', Option.bind_some]
      exact hl

theorem keeps_iff : Keeps some_ len ↔ Narrowable some_ len := by
  refine ⟨fun hkeeps ↦ ?_, keeps_of_narrowable⟩
  by_contra h
  rcases cases_of_not_narrowable h with ⟨hpos, hdvd⟩ | ⟨rfl, hlarge, -⟩
  · have hrem : 0 < (RecvOp.mk some_ ⟨0, len, 0⟩).buffer.remain := hpos
    obtain ⟨t, ht, hend⟩ := exists_falseEnd_of_dvd hrem hdvd
    exact hkeeps.eof t ht hend
  · have hrem : 2 ^ 32 ≤ (RecvOp.mk false ⟨0, len, 0⟩).buffer.remain := hlarge
    obtain ⟨t, ht, hend⟩ := exists_falseEnd_of_large rfl hrem
    exact hkeeps.eof t ht hend

end RecvState

end JnetLib.Iocp
