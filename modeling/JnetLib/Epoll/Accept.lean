import JnetLib.Epoll.Recv
import JnetLib.Epoll.Send

/-!
# Accepting, and operations that would block

`accept_op`, `send_op` and `recv_op` each try their system call at once, and where it would block,
wait for an event and try again. `send_op` and `recv_op` then look once more whether it would block,
and wait again if so; `accept_op` reports whatever comes of the second try.

Each kind of operation is a machine of its own; `Counted` adds the work counter of the service to
any of them. `work_started` is called in `begin_accept`, `begin_recv`, `begin_send` and `post` on
the way to each wait, and in `post_operation` on the way to the queue (`SendState.started` and the
others), and `do_one` calls `work_finished` behind every completion. That a completion either begins
anew or calls back is proved from that (`SendState.started_add` and the others), and `Patient.work`
rests on it.

The `epoll_ctl` behind each wait is taken to succeed, as in the machines below;
`Endpoint.beginRecv`, `Endpoint.beginSend` and `Endpoint.beginAccept` are the models with an
`epoll_ctl` that may fail.

## What the theorem rests on

`patient_of_run` is about any machine whose completions begin anew or call back. For sends and
receives it applies always, as `on_complete` looks for would-block before it calls back; for accepts
every completion calls back, so the operation is patient exactly as long as the second `::accept4`
does not say that it would block (`patient_accept`).

That a send or a receive waits again is a matter of one step: `place_of_blocked` says so of either.
-/

namespace JnetLib.Epoll

open Transition

/-! ### Accepting -/

/-- What `::accept4` answers, and for a new socket what the `epoll_ctl` of `register_event` does. -/
inductive AcceptOutcome
  | accepted (errnoRegister : ℤ)
  | fail (errno : ℤ)
  deriving DecidableEq, Repr

/-- `socket_ops::accept`. -/
def socketOpsAccept : AcceptOutcome → ErrorCode
  | .accepted errnoRegister => .system errnoRegister
  | .fail errno => .system errno

/-- `accept_op`. -/
structure AcceptOp where
  base : Operation
  accepted_ : Bool
  deriving DecidableEq, Repr

/-- Where the operation is: in `in_op_`, in `completed_ops_`, or called back. -/
inductive AcceptPlace
  | inSlot
  | completed
  | finished (ec : ErrorCode)
  deriving DecidableEq, Repr

/-- One operation in its environment, with the answers to its calls. -/
structure AcceptState where
  op : AcceptOp
  place : AcceptPlace
  calls : List AcceptOutcome
  deriving DecidableEq, Repr

/-- What the environment does: an `EPOLLIN` event, or a dispatch with the answer to the call
`on_complete` may make. -/
inductive AcceptEvent
  | ready (flags : EpollFlags) (soError : ℤ)
  | dispatch (o : AcceptOutcome)
  deriving DecidableEq, Repr

namespace AcceptState

/-- `accept_op::begin_accept`. -/
def start (o : AcceptOutcome) : AcceptState :=
  if (socketOpsAccept o).wouldBlock then ⟨⟨.reset, false⟩, .inSlot, [o]⟩
  else ⟨⟨Operation.reset.onCompletion (socketOpsAccept o) 0, true⟩, .completed, [o]⟩

/-- `on_complete` makes a call of its own. -/
def accepts (s : AcceptState) : Bool := !s.op.base.ec.isError && !s.op.accepted_

/-- The error code `accept_op::on_complete` reports. -/
def result (s : AcceptState) (o : AcceptOutcome) : ErrorCode :=
  if s.accepts then socketOpsAccept o else s.op.base.ec

/-- The transitions of an accept; `none` where the environment cannot act so. -/
def step (s : AcceptState) : AcceptEvent → Option AcceptState
  | .ready flags soError =>
    match s.place with
    | .inSlot =>
      some { s with
        op := { s.op with base := s.op.base.onEvent flags soError }
        place := .completed }
    | _ => none
  | .dispatch o =>
    match s.place with
    | .completed =>
      some ⟨{ s.op with base := { s.op.base with ec := s.result o } }, .finished (s.result o),
        if s.accepts then s.calls ++ [o] else s.calls⟩
    | _ => none

/-- The error code the callback was called with, if it was. -/
def reported (s : AcceptState) : Option ErrorCode :=
  match s.place with
  | .finished ec => some ec
  | _ => none

end AcceptState

/-- The error code the callback was called with, if it was. -/
def SendState.reported (s : SendState) : Option ErrorCode :=
  match s.place with
  | .finished ec _ => some ec
  | _ => none

@[inherit_doc SendState.reported]
def RecvState.reported (s : RecvState) : Option ErrorCode :=
  match s.place with
  | .finished ec _ => some ec
  | _ => none

/-- The event is a completion. -/
def AcceptEvent.completes : AcceptEvent → Bool
  | .ready _ _ => false
  | .dispatch _ => true

@[inherit_doc AcceptEvent.completes]
def SendEvent.completes : SendEvent → Bool
  | .ready _ _ => false
  | .dispatch _ _ => true

@[inherit_doc AcceptEvent.completes]
def RecvEvent.completes : RecvEvent → Bool
  | .ready _ _ => false
  | .dispatch _ => true

/-! ### The work counter -/

/-- How often `work_started` is called on the way to a place: once in `socket_ops::begin_send`, and
once in `post_operation`. -/
def SendPlace.started : SendPlace → ℕ
  | .inSlot | .completed => 1
  | .finished _ _ => 0

/-- How often a step of a receive that comes to this place has called `work_started`: once in
`socket_ops::begin_recv`, in `post_operation`, and in `service::post`. -/
def RecvPlace.started : RecvPlace → ℕ
  | .inSlot | .completed | .posted => 1
  | .finished _ _ => 0

/-- How often a step of an accept that comes to this place has called `work_started`: once in
`socket_ops::begin_accept`, and once in `post_operation`. -/
def AcceptPlace.started : AcceptPlace → ℕ
  | .inSlot | .completed => 1
  | .finished _ => 0

/-- How often a step of a send calls `work_started`: in the `begin_send` that `on_complete` may end
in. -/
def SendState.started (s : SendState) : SendEvent → ℕ
  | .ready _ _ => 0
  | .dispatch o o' =>
    match s.op.onComplete o with
    | .again op => (op.beginSend o').2.started
    | .callback _ _ => 0

/-- How often a completion of a receive calls `work_started`. `on_complete` may end in
`socket_ops::begin_recv`, and `on_post` calls back. -/
def RecvState.started (s : RecvState) : RecvEvent → ℕ
  | .ready _ _ => 0
  | .dispatch o =>
    match s.place with
    | .completed => (s.op.onComplete o).2.started
    | _ => 0

/-- A completion of an accept never calls `work_started`: `on_complete` does not begin anew. -/
def AcceptState.started (_ : AcceptState) (_ : AcceptEvent) : ℕ := 0

/-- An operation, and `outstanding_work_` of its service. -/
structure Counted (σ : Type*) where
  op : σ
  outstandingWork : ℤ
  deriving DecidableEq

namespace Counted

variable {σ α : Type*}

/-- What a step does to the counter: `started` is how often it calls `work_started`, and behind a
completion `do_one` calls `work_finished`. -/
def step (step : σ → α → Option σ) (completes : α → Bool) (started : σ → α → ℕ) (s : Counted σ)
    (e : α) : Option (Counted σ) :=
  (step s.op e).map fun t ↦
    ⟨t, s.outstandingWork + started s.op e - if completes e then 1 else 0⟩

/-- What an operation owes its caller and its service: it never reports that it would block, and it
is one unit of outstanding work until it has called back. -/
structure Patient (reported : σ → Option ErrorCode) (w : ℤ) (s : Counted σ) : Prop where
  definite : ∀ ec, reported s.op = some ec → ec.wouldBlock = false
  work : s.outstandingWork = w + if (reported s.op).isSome then 0 else 1

variable {f : σ → α → Option σ} {completes : α → Bool} {started : σ → α → ℕ}
  {reported : σ → Option ErrorCode} {w : ℤ}

/-- The count of an operation that has not called back is kept by a step that either begins anew or
calls back, if it is a completion, and does neither otherwise. -/
theorem work_step {s t : Counted σ} {e : α} (hs : reported s.op = none)
    (hcount : ∀ t, f s.op e = some t → started s.op e + (if (reported t).isSome then 1 else 0) =
      if completes e then 1 else 0)
    (hwork : s.outstandingWork = w + if (reported s.op).isSome then 0 else 1)
    (hstep : step f completes started s e = some t) :
    t.outstandingWork = w + if (reported t.op).isSome then 0 else 1 := by
  obtain ⟨u, hu, rfl⟩ := Option.map_eq_some_iff.1 hstep
  have hw : s.outstandingWork = w + 1 := by simpa [hs] using hwork
  have hc := hcount u hu
  show s.outstandingWork + started s.op e - (if completes e then 1 else 0) =
    w + if (reported u).isSome then 0 else 1
  rw [hw]
  split at hc <;> split at hc <;> simp_all

/-- The machine below a step of the counted one. -/
theorem step_op {s t : Counted σ} {e : α} (hstep : step f completes started s e = some t) :
    f s.op e = some t.op := by
  obtain ⟨u, hu, rfl⟩ := Option.map_eq_some_iff.1 hstep
  exact hu

/-- An operation that has been counted once and has not called back. -/
theorem patient_of_counted {s : Counted σ} (hs : reported s.op = none)
    (hw : s.outstandingWork = w + 1) : Patient reported w s := by
  refine ⟨fun ec h ↦ ?_, ?_⟩
  · rw [hs] at h
    cases h
  · rw [hs]
    exact hw

/-- **Operations are patient** in every run, if they do nothing after their callback, either begin
anew or call back in each completion, and never call back with would-block. -/
theorem patient_of_run (hend : ∀ s e t, f s e = some t → reported s = none)
    (hcount : ∀ s e t, f s e = some t →
      started s e + (if (reported t).isSome then 1 else 0) = if completes e then 1 else 0)
    (hdef : ∀ s e t ec, f s e = some t → reported t = some ec → ec.wouldBlock = false)
    {s t : Counted σ} (hs : Patient reported w s) {l : List α}
    (hrun : run (step f completes started) s l = some t) : Patient reported w t := by
  refine invariant_run' (I := Patient reported w) (fun s e t h hstep ↦ ?_) hs hrun
  have hop := step_op hstep
  exact ⟨fun ec ↦ hdef s.op e t.op ec hop,
    work_step (hend _ _ _ hop) (fun t ↦ hcount s.op e t) h.work hstep⟩

end Counted

open Counted

/-! ### What each kind of operation reports -/

theorem wouldBlock_of_not_isError {ec : ErrorCode} (h : ec.isError = false) :
    ec.wouldBlock = false := by
  rcases hw : ec.wouldBlock with - | -
  · rfl
  · rw [ErrorCode.isError_of_wouldBlock hw] at h
    cases h

namespace RecvState

variable {s t : RecvState} {e : RecvEvent}

/-- A receive that has called back does nothing more. -/
theorem reported_of_step (hstep : step s e = some t) : s.reported = none := by
  rw [reported]
  split
  case h_1 hp => cases e <;> simp [step, hp] at hstep
  case h_2 => rfl

/-- An event calls nothing back. -/
theorem reported_of_ready (he : e.completes = false) (hstep : step s e = some t) :
    t.reported = none := by
  cases e with
  | dispatch => cases he
  | ready flags soError =>
    rw [step] at hstep
    split at hstep
    · exact Option.some.inj hstep ▸ rfl
    · cases hstep

/-- `on_complete` looks for would-block before it calls back. -/
theorem wouldBlock_onComplete {op : RecvOp} {o : Outcome} {ec : ErrorCode} {n : ℕ}
    (h : (op.onComplete o).2 = .finished ec n) : ec.wouldBlock = false := by
  rcases hec : (op.readResult o).1.isError with - | -
  · have hnot := wouldBlock_of_not_isError hec
    rcases Nat.eq_zero_or_pos (op.readResult o).2 with h0 | h0
    · by_cases hrem : 0 < op.buffer.remain
      · rw [op.onComplete_zero hec h0 hrem] at h
        obtain ⟨rfl, -⟩ := RecvPlace.finished.inj h
        rfl
      · rw [op.onComplete_full hec h0 hrem] at h
        obtain ⟨rfl, -⟩ := RecvPlace.finished.inj h
        exact hnot
    · rw [op.onComplete_pos hec h0] at h
      split at h
      · cases h
      · obtain ⟨rfl, -⟩ := RecvPlace.finished.inj h
        exact hnot
  · rcases hw : (op.readResult o).1.wouldBlock with - | -
    · rw [op.onComplete_error hec hw] at h
      obtain ⟨rfl, -⟩ := RecvPlace.finished.inj h
      exact hw
    · rw [op.onComplete_wouldBlock hw] at h
      cases h

/-- `on_complete` begins anew, or calls back. -/
theorem started_onComplete (op : RecvOp) (o : Outcome) (calls : List RecvCall) :
    (op.onComplete o).2.started +
      (if (reported ⟨(op.onComplete o).1, (op.onComplete o).2, calls⟩).isSome then 1 else 0) =
        1 := by
  cases h : (op.onComplete o).2 with
  | inSlot => rfl
  | finished ec n => rfl
  | completed | posted =>
    unfold RecvOp.onComplete at h
    dsimp only at h
    split_ifs at h

/-- A completion begins anew or calls back, and an event does neither. -/
theorem started_add (hstep : step s e = some t) :
    s.started e + (if t.reported.isSome then 1 else 0) = if e.completes then 1 else 0 := by
  cases e with
  | ready flags soError =>
    rw [reported_of_ready rfl hstep]
    rfl
  | dispatch o =>
    rw [step] at hstep
    split at hstep
    case h_1 hp =>
      have hstarted : s.started (.dispatch o) = (s.op.onComplete o).2.started := by
        rw [started, hp]
      rw [hstarted]
      split at hstep
      · obtain rfl := Option.some.inj (Option.ite_none_right_eq_some.1 hstep).2
        exact started_onComplete _ _ _
      · obtain rfl := Option.some.inj hstep
        exact started_onComplete _ _ _
    case h_2 hp =>
      obtain rfl := Option.some.inj hstep
      rw [started, hp]
      rfl
    case h_3 => cases hstep

theorem wouldBlock_of_step {ec : ErrorCode} (hstep : step s e = some t)
    (hec : t.reported = some ec) : ec.wouldBlock = false := by
  cases e with
  | ready flags soError =>
    rw [reported_of_ready rfl hstep] at hec
    cases hec
  | dispatch o =>
    have hfin (calls : List RecvCall)
        (h : reported ⟨(s.op.onComplete o).1, (s.op.onComplete o).2, calls⟩ = some ec) :
        ec.wouldBlock = false := by
      rw [reported] at h
      split at h
      case h_1 hp => exact Option.some.inj h ▸ wouldBlock_onComplete hp
      case h_2 => cases h
    rw [step] at hstep
    split at hstep
    case h_1 =>
      split at hstep
      · obtain rfl := Option.some.inj (Option.ite_none_right_eq_some.1 hstep).2
        exact hfin _ hec
      · obtain rfl := Option.some.inj hstep
        exact hfin _ hec
    case h_2 =>
      obtain rfl := Option.some.inj hstep
      obtain rfl := Option.some.inj hec
      rfl
    case h_3 => cases hstep

/-- A read that would block leaves the operation in its slot. -/
theorem place_of_blocked {o : Outcome} (hreads : s.op.reads = true)
    (ho : (serviceRecv (toUInt32 s.op.buffer.remain) o).1.wouldBlock = true)
    (hp : s.place = .completed) (hstep : step s (.dispatch o) = some t) : t.place = .inSlot := by
  have hr : s.op.readResult o = serviceRecv (toUInt32 s.op.buffer.remain) o := by
    rw [RecvOp.readResult, hreads]
    rfl
  simp only [step, hp, hreads, if_true] at hstep
  obtain rfl := Option.some.inj (Option.ite_none_right_eq_some.1 hstep).2
  rw [s.op.onComplete_wouldBlock (by rw [hr, ho])]

end RecvState

namespace SendState

variable {s t : SendState} {e : SendEvent}

/-- A send that has called back does nothing more. -/
theorem reported_of_step (hstep : step s e = some t) : s.reported = none := by
  rw [reported]
  split
  case h_1 hp => cases e <;> simp [step, hp] at hstep
  case h_2 => rfl

@[inherit_doc RecvState.reported_of_ready]
theorem reported_of_ready (he : e.completes = false) (hstep : step s e = some t) :
    t.reported = none := by
  cases e with
  | dispatch => cases he
  | ready flags soError =>
    rw [step] at hstep
    split at hstep
    · exact Option.some.inj hstep ▸ rfl
    · cases hstep

/-- Starting over never calls back. -/
theorem reported_beginSend (op : SendOp) (o : Outcome) (calls : List SendCall) (n : ℕ) :
    reported ⟨(op.beginSend o).1, (op.beginSend o).2, calls, n⟩ = none := by
  rcases hw : (serviceSend op.requested o).1.wouldBlock with - | -
  · simp [SendOp.beginSend, hw, reported]
  · simp [SendOp.beginSend, hw, reported]

/-- Starting over is counted once, whether the operation waits or is posted. -/
theorem started_beginSend (op : SendOp) (o : Outcome) : (op.beginSend o).2.started = 1 := by
  rw [SendOp.beginSend]
  split <;> rfl

@[inherit_doc RecvState.started_add]
theorem started_add (hstep : step s e = some t) :
    s.started e + (if t.reported.isSome then 1 else 0) = if e.completes then 1 else 0 := by
  cases e with
  | ready flags soError =>
    rw [reported_of_ready rfl hstep]
    rfl
  | dispatch o o' =>
    rw [step] at hstep
    split at hstep
    case h_2 => cases hstep
    case h_1 =>
      have hnext := (Option.ite_none_right_eq_some.1 hstep).2
      split at hnext
      case h_1 op hop =>
        obtain rfl := Option.some.inj (Option.ite_none_right_eq_some.1 hnext).2
        simp only [started, hop]
        rw [reported_beginSend, started_beginSend]
        rfl
      case h_2 op ec hop =>
        obtain rfl := Option.some.inj hnext
        simp only [started, hop]
        rfl

/-- `on_complete` looks for would-block before it calls back. -/
theorem wouldBlock_onComplete {op op' : SendOp} {o : Outcome} {ec : ErrorCode}
    (h : op.onComplete o = .callback op' ec) : ec.wouldBlock = false := by
  rcases hec : (op.sendResult o).1.isError with - | -
  · rw [SendOp.onComplete_ok hec] at h
    split at h
    · cases h
    · obtain ⟨-, rfl⟩ := SendOp.Next.callback.inj h
      exact wouldBlock_of_not_isError hec
  · rcases hw : (op.sendResult o).1.wouldBlock with - | -
    · rw [SendOp.onComplete_error hec hw] at h
      obtain ⟨-, rfl⟩ := SendOp.Next.callback.inj h
      exact hw
    · rw [SendOp.onComplete_wouldBlock hw] at h
      cases h

theorem wouldBlock_of_step {ec : ErrorCode} (hstep : step s e = some t)
    (hec : t.reported = some ec) : ec.wouldBlock = false := by
  cases e with
  | ready flags soError =>
    rw [reported_of_ready rfl hstep] at hec
    cases hec
  | dispatch o o' =>
    rw [step] at hstep
    split at hstep
    case h_2 => cases hstep
    case h_1 =>
      have hnext := (Option.ite_none_right_eq_some.1 hstep).2
      split at hnext
      case h_1 op hop =>
        obtain rfl := Option.some.inj (Option.ite_none_right_eq_some.1 hnext).2
        rw [reported_beginSend] at hec
        cases hec
      case h_2 op ec' hop =>
        obtain rfl := Option.some.inj hnext
        obtain rfl := Option.some.inj hec
        exact wouldBlock_onComplete hop

/-- A write that would block, now and when it is tried again at once, leaves the operation in its
slot. -/
theorem place_of_blocked {o o' : Outcome} (hsends : s.op.sends = true)
    (ho : (serviceSend s.op.requested o).1.wouldBlock = true)
    (ho' : (serviceSend s.op.requested o').1.wouldBlock = true) (hp : s.place = .completed)
    (hstep : step s (.dispatch o o') = some t) : t.place = .inSlot := by
  have hr : s.op.sendResult o = serviceSend s.op.requested o := by
    rw [SendOp.sendResult, hsends]
    rfl
  have hagain : s.op.onComplete o = .again { s.op with base := .reset } :=
    SendOp.onComplete_wouldBlock (by rw [hr, ho])
  simp only [step, hp, hagain] at hstep
  obtain rfl := Option.some.inj
    (Option.ite_none_right_eq_some.1 (Option.ite_none_right_eq_some.1 hstep).2).2
  have ho'' : (serviceSend ({ s.op with base := .reset } : SendOp).requested o').1.wouldBlock =
      true := ho'
  simp [SendOp.beginSend, ho'']

end SendState

namespace AcceptState

variable {s t : AcceptState} {e : AcceptEvent}

/-- An accept that has called back does nothing more. -/
theorem reported_of_step (hstep : step s e = some t) : s.reported = none := by
  rw [reported]
  split
  case h_1 hp => cases e <;> simp [step, hp] at hstep
  case h_2 => rfl

@[inherit_doc RecvState.reported_of_ready]
theorem reported_of_ready (he : e.completes = false) (hstep : step s e = some t) :
    t.reported = none := by
  cases e with
  | dispatch => cases he
  | ready flags soError =>
    rw [step] at hstep
    split at hstep
    · exact Option.some.inj hstep ▸ rfl
    · cases hstep

/-- Every completion of an accept calls back. -/
theorem reported_of_dispatch {o : AcceptOutcome} (hstep : step s (.dispatch o) = some t) :
    t.reported = some (s.result o) := by
  rw [step] at hstep
  split at hstep
  · exact Option.some.inj hstep ▸ rfl
  · cases hstep

theorem reported_start (o : AcceptOutcome) : (start o).reported = none := by
  rw [start]
  split
  · rfl
  · rfl

theorem started_start (o : AcceptOutcome) : (start o).place.started = 1 := by
  rw [start]
  split <;> rfl

@[inherit_doc RecvState.started_add]
theorem started_add (hstep : step s e = some t) :
    s.started e + (if t.reported.isSome then 1 else 0) = if e.completes then 1 else 0 := by
  cases e with
  | ready flags soError =>
    rw [reported_of_ready rfl hstep]
    rfl
  | dispatch o =>
    rw [reported_of_dispatch hstep]
    rfl

/-- The call a completion makes does not answer that it would block; and where it makes none,
because the event brought an error, that is not one of these two either. -/
def Definite (s : AcceptState) : AcceptEvent → Prop
  | .ready _ _ => True
  | .dispatch o =>
    (s.accepts = true → (socketOpsAccept o).wouldBlock = false) ∧
      (s.accepts = false → s.op.base.ec.wouldBlock = false)

instance (s : AcceptState) : DecidablePred s.Definite
  | .ready _ _ => inferInstanceAs (Decidable True)
  | .dispatch _ => inferInstanceAs (Decidable (_ ∧ _))

theorem definite_iff {o : AcceptOutcome} :
    s.Definite (.dispatch o) ↔ (s.result o).wouldBlock = false := by
  rcases ha : s.accepts with - | -
  · simp [Definite, result, ha]
  · simp [Definite, result, ha]

end AcceptState

/-! ### Would-block -/

/-- A counted `asyn_accept`. -/
def countedAccept : Counted AcceptState → AcceptEvent → Option (Counted AcceptState) :=
  Counted.step AcceptState.step AcceptEvent.completes AcceptState.started

/-- A counted `asyn_send`. -/
def countedSend : Counted SendState → SendEvent → Option (Counted SendState) :=
  Counted.step SendState.step SendEvent.completes SendState.started

/-- A counted `asyn_recv` or `asyn_recv_some`. -/
def countedRecv : Counted RecvState → RecvEvent → Option (Counted RecvState) :=
  Counted.step RecvState.step RecvEvent.completes RecvState.started

/-- The operation right after `asyn_accept`, on a service with `w` others. -/
def Counted.accept (o : AcceptOutcome) (w : ℤ) : Counted AcceptState :=
  ⟨.start o, w + (AcceptState.start o).place.started⟩

/-- The operation right after `asyn_send`, on a service with `w` others. -/
def Counted.send (len : ℕ) (o : Outcome) (w : ℤ) : Counted SendState :=
  ⟨.start len o, w + (SendState.start len o).place.started⟩

/-- The operation right after `asyn_recv` or `asyn_recv_some`, on a service with `w` others. -/
def Counted.recv (len : ℕ) (some_ : Bool) (o : Outcome) (w : ℤ) : Counted RecvState :=
  ⟨.start len some_ o, w + (RecvState.start len some_ o).place.started⟩

variable {w : ℤ}

/-- A send never reports that it would block. -/
theorem patient_send {len : ℕ} {o : Outcome} {l : List SendEvent} {t : Counted SendState}
    (hrun : run countedSend (.send len o w) l = some t) : Patient SendState.reported w t := by
  have hstart : Patient SendState.reported w (Counted.send len o w) :=
    patient_of_counted (SendState.reported_beginSend _ _ _ _)
      (congrArg (fun n : ℕ ↦ w + n) (SendState.started_beginSend _ _))
  exact @patient_of_run _ _ SendState.step _ SendState.started _ w
    (fun _ _ _ ↦ SendState.reported_of_step) (fun _ _ _ ↦ SendState.started_add)
    (fun _ _ _ _ ↦ SendState.wouldBlock_of_step) _ _ hstart _ hrun

/-- A receive never reports that it would block. -/
theorem patient_recv {len : ℕ} {some_ : Bool} {o : Outcome} {l : List RecvEvent}
    {t : Counted RecvState}
    (hrun : run countedRecv (.recv len some_ o w) l = some t) :
    Patient RecvState.reported w t := by
  have hbegun : (RecvState.start len some_ o).reported = none ∧
      (RecvState.start len some_ o).place.started = 1 := by
    rw [RecvState.start, RecvOp.beginRecv]
    dsimp only
    split
    · split <;> exact ⟨rfl, rfl⟩
    · exact ⟨rfl, rfl⟩
  have hstart : Patient RecvState.reported w (Counted.recv len some_ o w) :=
    patient_of_counted hbegun.1 (congrArg (fun n : ℕ ↦ w + n) hbegun.2)
  exact @patient_of_run _ _ RecvState.step _ RecvState.started _ w
    (fun _ _ _ ↦ RecvState.reported_of_step) (fun _ _ _ ↦ RecvState.started_add)
    (fun _ _ _ _ ↦ RecvState.wouldBlock_of_step) _ _ hstart _ hrun

/-- An accept never reports that it would block exactly as long as its second try does not. -/
theorem patient_accept {o : AcceptOutcome} {l : List AcceptEvent} {t : Counted AcceptState}
    (hrun : run countedAccept (.accept o w) l = some t) :
    Throughout countedAccept (Patient AcceptState.reported w) (.accept o w) l ↔
      RunMeets countedAccept (fun s e ↦ s.op.Definite e) (.accept o w) l := by
  refine throughout_iff (I := Patient AcceptState.reported w) (fun _ h ↦ h)
    (fun s e t h hok hstep ↦ ?_) (fun s e t h hbad hstep hP ↦ ?_)
    (patient_of_counted (AcceptState.reported_start o)
      (congrArg (fun n : ℕ ↦ w + n) (AcceptState.started_start o))) hrun
  · have hop := step_op hstep
    refine ⟨fun ec hec ↦ ?_, work_step (AcceptState.reported_of_step hop)
      (fun _ ↦ AcceptState.started_add) h.work hstep⟩
    cases e with
    | ready flags soError =>
      rw [AcceptState.reported_of_ready rfl hop] at hec
      cases hec
    | dispatch o =>
      rw [AcceptState.reported_of_dispatch hop] at hec
      exact Option.some.inj hec ▸ AcceptState.definite_iff.1 hok
  · cases e with
    | ready => exact hbad trivial
    | dispatch o =>
      exact hbad (AcceptState.definite_iff.2
        (hP.definite _ (AcceptState.reported_of_dispatch (step_op hstep))))

/-- **Would-block is for the backend to deal with.** In every run, with any answers and any events:
sends and receives never report it, wait again whenever the call made after an event would block,
and are one unit of outstanding work until they have called back. For accepts this is so exactly as
long as no call made after an event would block. -/
theorem patient_iff (w : ℤ) :
    (∀ len o l t, run countedSend (.send len o w) l = some t →
      Patient SendState.reported w t ∧ ∀ o o' u, t.op.op.sends = true → t.op.place = .completed →
        (serviceSend t.op.op.requested o).1.wouldBlock = true →
        (serviceSend t.op.op.requested o').1.wouldBlock = true →
        t.op.step (.dispatch o o') = some u → u.place = .inSlot) ∧
    (∀ len some_ o l t, run countedRecv (.recv len some_ o w) l = some t →
      Patient RecvState.reported w t ∧ ∀ o u, t.op.op.reads = true → t.op.place = .completed →
        (serviceRecv (toUInt32 t.op.op.buffer.remain) o).1.wouldBlock = true →
        t.op.step (.dispatch o) = some u → u.place = .inSlot) ∧
    ∀ o l t, run countedAccept (.accept o w) l = some t →
      (Throughout countedAccept (Patient AcceptState.reported w) (.accept o w) l ↔
        RunMeets countedAccept (fun s e ↦ s.op.Definite e) (.accept o w) l) :=
  ⟨fun _ _ _ _ hrun ↦ ⟨patient_send hrun, fun _ _ _ hsends hp ho ho' ↦
      SendState.place_of_blocked hsends ho ho' hp⟩,
    fun _ _ _ _ _ hrun ↦ ⟨patient_recv hrun, fun _ _ hreads hp ho ↦
      RecvState.place_of_blocked hreads ho hp⟩,
    fun _ _ _ hrun ↦ patient_accept hrun⟩

/-- The last part on an accept that waits and then takes a connection. -/
theorem patient_iff_accepted :
    Throughout countedAccept (Patient AcceptState.reported 0) (.accept (.fail EAGAIN) 0)
        [.ready .clear 0, .dispatch (.accepted 0)] ↔
      RunMeets countedAccept (fun s e ↦ s.op.Definite e) (.accept (.fail EAGAIN) 0)
        [.ready .clear 0, .dispatch (.accepted 0)] :=
  (patient_iff 0).2.2 _ _ _ rfl

/-- The connection is gone when the accept is woken for it. -/
theorem not_patient_aborted :
    ∃ t, run countedAccept (.accept (.fail EAGAIN) 0)
        [.ready .clear 0, .dispatch (.fail EAGAIN)] = some t ∧
      t.op.place = .finished (.system EAGAIN) ∧ ¬Patient AcceptState.reported 0 t := by
  refine ⟨_, rfl, rfl, fun h ↦ ?_⟩
  cases h.definite _ rfl

end JnetLib.Epoll
