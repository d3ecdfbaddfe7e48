import JnetLib.Epoll.SendSize
import JnetLib.Iocp.FileRead
import JnetLib.Iocp.Send

/-!
# The sizes of sends on the IOCP backend

`send_op` and `recv_op` put what is left of their buffer into a `WSABUF`, whose length is a `ULONG`,
and cap it there. A send with a multiple of `2 ^ 32` bytes left submits an empty `WSABUF`, which is
completed at once with nothing, as on the epoll backend (`not_ends_of_large`); below `2 ^ 32` it
comes nearer to its end with every answer of a peer that keeps reading (`distance`).

`SocketState` is an operation on a socket that is handed to the service, completed and called back.
Each completion is delivered once here, and behind a resubmission the routine finds the operation as
it left it; what happens otherwise is in `Iocp/Routine` and `Iocp/Send`.
-/

namespace JnetLib.Iocp

open Epoll (OpenFile Outcome)

/-- An operation on a socket: handed to `service::send` or `service::recv` for a number of bytes,
completed, or called back. -/
structure SocketState (σ : Type) where
  op : σ
  place : FilePlace
  deriving DecidableEq, Repr

/-- The system's answer, or the dispatch of the completion. -/
inductive SocketEvent (δ : Type)
  | kernel (o : Issued)
  | dispatch (d : δ)
  deriving DecidableEq, Repr

namespace SocketState

variable {σ δ : Type}

/-- What the routine has decided. -/
def decided (r : σ × Verdict) : SocketState σ :=
  ⟨r.1, match r.2 with
    | .finish ec n => .finished ec n
    | .again requested => .issued requested⟩

/-- What an operation does with the answer of the system, and its routine with the completion. -/
def step (R : Routine σ δ) (s : SocketState σ) : SocketEvent δ → Option (SocketState σ)
  | .kernel o =>
    match s.place with
    | .issued bytes =>
      if o.Legal bytes then some { s with place := .completed o.result.1 o.result.2 } else none
    | _ => none
  | .dispatch d =>
    match s.place with
    | .completed ec n => (R.complete s.op d ec n).map decided
    | _ => none

/-- The asynchronous call. -/
def start (R : Routine σ δ) (op : σ) : SocketState σ := ⟨op, .issued (R.requested op)⟩

/-- The operation has called back. -/
def Finished (s : SocketState σ) : Prop := ∃ ec n, s.place = .finished ec n

/-- The system moves at least a byte of what it is asked for, and completes an empty request. -/
def Accepting (s : SocketState σ) : SocketEvent δ → Prop
  | .kernel o => ∀ bytes, s.place = .issued bytes → 0 < bytes → ∃ n, 0 < n ∧ o = .pending 0 n
  | .dispatch _ => True

variable {R : Routine σ δ} {s t : SocketState σ}

/-- The two steps there are. -/
theorem step_cases {e : SocketEvent δ} (h : step R s e = some t) :
    (∃ bytes o, e = .kernel o ∧ s.place = .issued bytes ∧ o.Legal bytes ∧
      t = { s with place := .completed o.result.1 o.result.2 }) ∨
    (∃ ec n d r, e = .dispatch d ∧ s.place = .completed ec n ∧ R.complete s.op d ec n = some r ∧
      t = decided r) := by
  cases e with
  | kernel o =>
    rcases hp : s.place with bytes | _ | _ <;> simp only [step, hp] at h
    case issued =>
      split at h
      case isFalse => cases h
      case isTrue hl => exact .inl ⟨bytes, o, rfl, rfl, hl, (Option.some.inj h).symm⟩
    all_goals cases h
  | dispatch d =>
    rcases hp : s.place with _ | ⟨ec, n⟩ | _ <;> simp only [step, hp] at h
    case completed =>
      obtain ⟨r, hr, ht⟩ := Option.map_eq_some_iff.1 h
      exact .inr ⟨ec, n, d, r, rfl, rfl, hr, ht.symm⟩
    all_goals cases h

theorem step_kernel {bytes : ℕ} {o : Issued} (hp : s.place = .issued bytes) (hl : o.Legal bytes) :
    step R s (.kernel o) = some { s with place := .completed o.result.1 o.result.2 } := by
  simp only [step, hp, hl, if_true]

theorem step_dispatch {ec : ErrorCode} {n : ℕ} {d : δ} {r : σ × Verdict}
    (hp : s.place = .completed ec n) (hr : R.complete s.op d ec n = some r) :
    step R s (.dispatch d) = some (decided r) := by
  simp only [step, hp, hr, Option.map_some]

/-- The system's answer when it moves all it is asked for. -/
def answer (bytes : ℕ) : Issued := if bytes = 0 then .failed .noError 0 else .pending 0 bytes

theorem legal_answer (bytes : ℕ) : (answer bytes).Legal bytes := by
  rw [answer]
  split
  case isTrue h =>
    rw [Issued.Legal, if_pos h]
    exact ⟨rfl, rfl⟩
  case isFalse h => exact ⟨Nat.pos_of_ne_zero h, Nat.le_refl _⟩

theorem result_answer (bytes : ℕ) :
    (answer bytes).result.1.isError = false ∧ (answer bytes).result.2 = bytes := by
  rw [answer]
  split
  case isTrue h => exact ⟨rfl, h.symm⟩
  case isFalse => exact ⟨rfl, rfl⟩

theorem accepting_answer {bytes : ℕ} (hp : s.place = .issued bytes) :
    s.Accepting (.kernel (answer bytes) : SocketEvent δ) := by
  intro bytes' hp' hpos
  obtain rfl := FilePlace.issued.inj (hp.symm.trans hp')
  exact ⟨bytes, hpos, if_neg (Nat.ne_of_gt hpos)⟩

end SocketState


theorem wsaLen_eq_min (b : ConstBuffer) : wsaLen b = min (toUInt32 b.len) maxSendBufferSize := by
  rw [wsaLen]
  split <;> omega

theorem requestFits_wsaLen_iff {b : ConstBuffer} :
    RequestFits b.len (wsaLen b) ↔ b.len = 0 ∨ ¬2 ^ 32 ∣ b.len := by
  rw [wsaLen_eq_min]
  exact requestFits_min_iff (by decide)

theorem wsaLen_le (b : ConstBuffer) : wsaLen b ≤ b.len := by
  rw [wsaLen_eq_min]
  exact Nat.le_trans (Nat.min_le_left _ _) (toUInt32_le _)

/-- Nothing is left, or an error: the routine calls back. -/
theorem sendOp_complete_finish {b : ConstBuffer} {ec : ErrorCode} {n : ℕ} (d : Unit)
    (h : ec.isError = true ∨ (b.consume n).len = 0) :
    ∃ b' m, sendOp.complete b d ec n = some (b', .finish ec m) := by
  rcases hec : ec.isError with - | -
  · have hlen : (b.consume n).len = 0 :=
      h.resolve_left fun h' ↦ absurd (hec.symm.trans h') (by decide)
    refine ⟨b.consume n, (b.consume n).buf, ?_⟩
    simp only [sendOp, hec, hlen, Bool.false_or, Bool.false_eq_true, if_false, beq_self_eq_true,
      if_true]
  · exact ⟨b, b.buf, by simp only [sendOp, hec, Bool.true_or, if_true]⟩

namespace SendState

/-- The transitions of a send. -/
def step : SocketState ConstBuffer → SocketEvent Unit → Option (SocketState ConstBuffer) :=
  SocketState.step sendOp

/-- `asyn_send`. -/
def asynSend (len : ℕ) : SocketState ConstBuffer := .start sendOp ⟨0, len⟩

/-- What `asyn_send` owes a caller with `len` bytes. -/
structure Keeps (len : ℕ) : Prop where
  /-- Each `WSASend` is offered some of what is left, and something if anything is. -/
  asks : ∀ s, Transition.Reachable step (asynSend len) s → ∀ bytes, s.place = .issued bytes →
    RequestFits s.op.len bytes
  /-- If the peer keeps reading, the send comes to its end. -/
  ends : Transition.Inevitable step SocketState.Accepting SocketState.Finished (asynSend len)

variable {len : ℕ} {s t : SocketState ConstBuffer}

/-- What is asked for is what is left, cut and capped, and what is left is below `2 ^ 32`. -/
structure Small (s : SocketState ConstBuffer) : Prop where
  lt : s.op.len < 2 ^ 32
  issued : ∀ bytes, s.place = .issued bytes → bytes = wsaLen s.op

theorem small_step {e : SocketEvent Unit} (hs : Small s) (hstep : step s e = some t) : Small t := by
  obtain ⟨bytes, o, -, -, -, rfl⟩ | ⟨ec, n, d, r, -, -, hr, rfl⟩ := SocketState.step_cases hstep
  · exact ⟨hs.lt, fun m hm ↦ by cases hm⟩
  · obtain ⟨b, v⟩ := r
    cases v with
    | again m =>
      obtain ⟨-, rfl, -, rfl⟩ := sendOp_again hr
      refine ⟨Nat.lt_of_le_of_lt (Nat.sub_le _ n) hs.lt, fun m hm ↦ ?_⟩
      exact (FilePlace.issued.inj hm).symm
    | finish ec' m =>
      have hb : b.len ≤ s.op.len := by
        have hr' := (Prod.mk.inj (Option.some.inj hr)).1
        rw [← hr']
        split
        · exact Nat.le_refl _
        · exact Nat.sub_le _ n
      exact ⟨Nat.lt_of_le_of_lt hb hs.lt, fun m hm ↦ by cases hm⟩

/-- Where a send is whose peer keeps reading. -/
inductive Served (s : SocketState ConstBuffer) : Prop
  | issued (hp : s.place = .issued (wsaLen s.op))
  | completed (ec : ErrorCode) (n : ℕ) (hp : s.place = .completed ec n) (hec : ec.isError = false)
  | done (h : s.Finished)

/-- How far a send is from its end. -/
def distance (s : SocketState ConstBuffer) : ℕ :=
  match s.place with
  | .issued _ => 3 * s.op.len + 2
  | .completed _ n => if s.op.len - n = 0 then 1 else 3 * (s.op.len - n) + 3
  | .finished _ _ => 0

theorem not_finished_of_step {e : SocketEvent Unit} (h : step s e = some t) : ¬s.Finished := by
  rintro ⟨ec, n, hp⟩
  obtain ⟨_, _, -, hp', -⟩ | ⟨_, _, _, _, -, hp', -⟩ := SocketState.step_cases h <;>
    cases hp.symm.trans hp'

theorem served_step {e : SocketEvent Unit} (hsmall : Small s) (hs : Served s)
    (he : s.Accepting e) (hstep : step s e = some t) : Served t ∧ distance t < distance s := by
  obtain ⟨bytes, o, rfl, hp, hl, rfl⟩ | ⟨ec, n, d, r, rfl, hp, hr, rfl⟩ :=
    SocketState.step_cases hstep
  · obtain rfl := hsmall.issued bytes hp
    have hdist : distance s = 3 * s.op.len + 2 := by rw [distance, hp]
    rcases Nat.eq_zero_or_pos (wsaLen s.op) with hzero | hpos
    · have hresult := Issued.result_of_legal_zero (hzero ▸ hl)
      have hnone : s.op.len = 0 := by
        by_contra hne
        have := (requestFits_wsaLen_iff.2 (eq_zero_or_not_dvd_of_lt hsmall.lt)
          (Nat.pos_of_ne_zero hne)).1
        omega
      rw [hresult, hdist]
      refine ⟨.completed .noError 0 rfl rfl, ?_⟩
      show (if s.op.len - 0 = 0 then 1 else 3 * (s.op.len - 0) + 3) < 3 * s.op.len + 2
      rw [if_pos (by omega)]
      omega
    · obtain ⟨n, hn, rfl⟩ := he _ hp hpos
      refine ⟨.completed (.system 0) n rfl rfl, ?_⟩
      rw [hdist]
      show (if s.op.len - n = 0 then 1 else 3 * (s.op.len - n) + 3) < 3 * s.op.len + 2
      have hle : n ≤ s.op.len := Nat.le_trans hl.2 (wsaLen_le s.op)
      split <;> omega
  · have hec : ec.isError = false := by
      cases hs with
      | issued hp' => cases hp.symm.trans hp'
      | done h => exact absurd h (not_finished_of_step hstep)
      | completed ec' n' hp' hec =>
        obtain ⟨rfl, rfl⟩ := FilePlace.completed.inj (hp.symm.trans hp')
        exact hec
    have hdist : distance s = if s.op.len - n = 0 then 1 else 3 * (s.op.len - n) + 3 := by
      rw [distance, hp]
    by_cases hlen : (s.op.consume n).len = 0
    · obtain ⟨b, m, hr'⟩ := sendOp_complete_finish d (.inr hlen)
      obtain rfl := Option.some.inj (hr'.symm.trans hr)
      refine ⟨.done ⟨ec, m, rfl⟩, ?_⟩
      have hnone : s.op.len - n = 0 := hlen
      rw [hdist, if_pos hnone]
      exact Nat.one_pos
    · obtain rfl := Option.some.inj ((sendOp_complete_again hec hlen).symm.trans hr)
      refine ⟨.issued rfl, ?_⟩
      have hsome : s.op.len - n ≠ 0 := hlen
      rw [hdist, if_neg hsome]
      exact Nat.lt_succ_self _

theorem exists_step_of_served (hs : Served s) (hf : ¬s.Finished) :
    ∃ e t, s.Accepting e ∧ step s e = some t := by
  cases hs with
  | done h => exact absurd h hf
  | issued hp => exact ⟨_, _, SocketState.accepting_answer hp,
      SocketState.step_kernel hp (SocketState.legal_answer _)⟩
  | completed ec n hp hec =>
    by_cases hlen : (s.op.consume n).len = 0
    · obtain ⟨b, m, hr⟩ := sendOp_complete_finish () (.inr hlen)
      exact ⟨.dispatch (), _, trivial, SocketState.step_dispatch hp hr⟩
    · exact ⟨.dispatch (), _, trivial,
        SocketState.step_dispatch hp (sendOp_complete_again hec hlen)⟩

theorem keeps_of_lt (hlen : len < 2 ^ 32) : Keeps len := by
  have hsmall : Small (asynSend len) := ⟨hlen, fun _ h ↦ (FilePlace.issued.inj h).symm⟩
  refine ⟨fun s hs bytes hp ↦ ?_, ?_⟩
  · have h := hs.invariant (fun _ _ _ h hst ↦ small_step h hst) hsmall
    rw [h.issued bytes hp]
    exact requestFits_wsaLen_iff.2 (eq_zero_or_not_dvd_of_lt h.lt)
  · refine Transition.Inevitable.of_measure (I := fun s ↦ Small s ∧ Served s) distance
      (fun s h hf ↦ exists_step_of_served h.2 hf) (fun s e t h he hstep ↦ ?_) ⟨hsmall, .issued rfl⟩
    obtain ⟨ht, hdist⟩ := served_step h.1 h.2 he hstep
    exact ⟨⟨small_step h.1 hstep, ht⟩, hdist⟩

/-- At least `2 ^ 32` bytes are left, or will be after the completion. -/
inductive Endless (s : SocketState ConstBuffer) : Prop
  | issued (hp : s.place = .issued (wsaLen s.op)) (hlen : 2 ^ 32 ≤ s.op.len)
  | completed (ec : ErrorCode) (n : ℕ) (hp : s.place = .completed ec n) (hec : ec.isError = false)
      (hlen : 2 ^ 32 ≤ s.op.len - n)

theorem endless_step (h : Endless s) :
    ∃ e t, s.Accepting e ∧ step s e = some t ∧ Endless t := by
  cases h with
  | issued hp hlen =>
    refine ⟨_, _, SocketState.accepting_answer hp,
      SocketState.step_kernel hp (SocketState.legal_answer _), ?_⟩
    obtain ⟨hec, hn⟩ := SocketState.result_answer (wsaLen s.op)
    refine .completed _ _ rfl hec ?_
    rw [hn, wsaLen_eq_min]
    exact le_sub_of_le_toUInt32 hlen (Nat.min_le_left _ _)
  | completed ec n hp hec hlen =>
    have hne : (s.op.consume n).len ≠ 0 := by
      show s.op.len - n ≠ 0
      exact Nat.ne_of_gt (Nat.lt_of_lt_of_le (by decide) hlen)
    exact ⟨.dispatch (), _, trivial,
      SocketState.step_dispatch hp (sendOp_complete_again hec hne), .issued rfl hlen⟩

/-- **From `2 ^ 32` on a send need not end**, though the system takes all it is offered. -/
theorem not_ends_of_large (hlen : 2 ^ 32 ≤ len) :
    ¬Transition.Inevitable step SocketState.Accepting SocketState.Finished (asynSend len) := by
  refine Transition.not_inevitable (S := Endless) (fun s h ↦ ?_) (fun s h ↦ .inl (endless_step h))
    (.issued rfl hlen)
  rintro ⟨ec, n, hp⟩
  cases h with
  | issued hp' | completed _ _ hp' => cases hp.symm.trans hp'

theorem keeps_iff : Keeps len ↔ len < 2 ^ 32 := by
  refine ⟨fun h ↦ ?_, keeps_of_lt⟩
  by_contra hlen
  exact not_ends_of_large (Nat.le_of_not_lt hlen) h.ends

end SendState

end JnetLib.Iocp
