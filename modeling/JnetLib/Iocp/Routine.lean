import JnetLib.Iocp.Handshake

/-!
# Completion routines that resubmit

An asynchronous call on the IOCP backend allocates an operation and submits it. The operation's
completion routine either calls back and deletes the operation, or resubmits it for the rest. The
routines of the backend differ in what they compute, in whether they `reset` the operation before
they resubmit it, and in what they do after that; a `Routine` collects these three.

The machine runs one operation with its routine on top of the service, which is `Iocp/Service` as it
is. The thread that resubmits goes through the initiating functions as any other initiating thread
does, while the service may already complete the operation on another thread. Once deleted, the
operation's memory holds anything (`garbage`).

`OneCallback` is what the caller may expect.
-/

namespace JnetLib.Iocp

/-- What a completion routine decides: to call back with a result and delete the operation, or to
resubmit it for a number of bytes. -/
inductive Verdict
  | finish (ec : ErrorCode) (n : ℕ)
  | again (requested : ℕ)
  deriving DecidableEq, Repr

/-- A completion routine of operations `σ`, whose I/O leaves data `δ` in memory. -/
structure Routine (σ δ : Type) where
  /-- The number of bytes the first submission asks for. -/
  requested : σ → ℕ
  /-- The routine up to its callback or its resubmission; no result when it leaves its memory. -/
  complete : σ → δ → ErrorCode → ℕ → Option (σ × Verdict)
  /-- The routine calls `reset` before it resubmits. -/
  resets : Bool
  /-- What it does behind a resubmission with the operation it then finds: return, or call back
  with a result and delete. -/
  recheck : σ → ErrorCode → Option (ErrorCode × ℕ)

/-- What a system call for `requested` bytes may answer. One for no bytes is not made. -/
def Issued.Legal (requested : ℕ) : Issued → Prop
  | .pending _ n => 0 < requested ∧ n ≤ requested
  | .failed ec n => if requested = 0 then ec = .noError ∧ n = 0 else ec.isError = true

instance (requested : ℕ) : DecidablePred (Issued.Legal requested)
  | .pending _ n => inferInstanceAs (Decidable (0 < requested ∧ n ≤ requested))
  | .failed ec n =>
    inferInstanceAs (Decidable (if requested = 0 then ec = .noError ∧ n = 0 else ec.isError = true))

/-- Where a thread is in the routine: outside; at its start; about to make the system call again;
in the initiating functions of that call; behind it; about to call back; about to delete. The last
two know whether this invocation has resubmitted the operation. -/
inductive RoutinePc
  | out
  | entered (ec : ErrorCode) (n : ℕ)
  | retrying (ec : ErrorCode) (requested : ℕ)
  | resubmitting (ec : ErrorCode)
  | rechecking (ec : ErrorCode)
  | finishing (resubmitted : Bool) (ec : ErrorCode) (n : ℕ)
  | deleting (resubmitted : Bool)
  deriving DecidableEq, Repr

/-- One operation with its routine on the service. `initiator` is who is in the initiating
functions for it, the asynchronous call (`some none`) or a thread; `stale` counts the resubmissions
made with `ready_` set. -/
structure Lifecycle (ι τ σ : Type) where
  svc : Service ι τ
  op : σ
  calls : List (ErrorCode × ℕ)
  deletes : ℕ
  pcs : τ → RoutinePc
  initiator : Option (Option τ)
  stale : ℕ

/-- A step: one of the service or of other operations; the asynchronous call; the next action of
the initiating functions; the parts of the routine. -/
inductive LifecycleEvent (ι τ σ δ : Type)
  | service (e : Event ι τ)
  | asyn (ov : ErrorCode × ℕ) (o : Issued)
  | initiate (ok : Bool)
  | complete (t : τ) (d : δ)
  | resubmit (t : τ) (ov : ErrorCode × ℕ) (o : Issued)
  | recheck (t : τ) (garbage : σ)
  | callback (t : τ)
  | delete (t : τ)

namespace Lifecycle

variable {ι τ σ δ : Type} [DecidableEq ι] [DecidableEq τ]

/-- Steps of the service that are not parts of the routine. -/
def Foreign (me : ι) (s : Lifecycle ι τ σ) : Event ι τ → Prop
  | .submit i _ _ _ => i ≠ me
  | .initiate i _ => i ≠ me
  | .ret t => s.pcs t = .out
  | _ => True

instance (me : ι) (s : Lifecycle ι τ σ) : DecidablePred (Foreign me s)
  | .submit i _ _ _ => inferInstanceAs (Decidable (i ≠ me))
  | .initiate i _ => inferInstanceAs (Decidable (i ≠ me))
  | .ret t => inferInstanceAs (Decidable (s.pcs t = .out))
  | .arrive _ _ | .check _ | .enter _ | .repost _ _ | .retry _ | .dequeue _ _ | .record _
  | .exchange _ => inferInstanceAs (Decidable True)

/-- Move one thread. -/
def setPc (s : Lifecycle ι τ σ) (t : τ) (pc : RoutinePc) : Lifecycle ι τ σ :=
  { s with pcs := Function.update s.pcs t pc }

/-- A step of the service. A thread that finds `ready_` set enters the routine. -/
def service (me : ι) (s : Lifecycle ι τ σ) (e : Event ι τ) : Option (Lifecycle ι τ σ) :=
  if s.Foreign me e then
    (s.svc.step e).map fun svc ↦
      match e with
      | .exchange t =>
        match svc.threads t with
        | .completing i ec n =>
          if i = me then { s.setPc t (.entered ec n) with svc := svc } else { s with svc := svc }
        | _ => { s with svc := svc }
      | _ => { s with svc := svc }
  else none

/-- The asynchronous call: the constructor's `reset` and the first system call. -/
def asyn (R : Routine σ δ) (me : ι) (s : Lifecycle ι τ σ) (ov : ErrorCode × ℕ) (o : Issued) :
    Option (Lifecycle ι τ σ) :=
  if (s.svc.ops me).submitted = [] ∧ o.Legal (R.requested s.op) then
    (s.svc.submit me true ov o).map fun svc ↦ { s with svc := svc, initiator := some none }
  else none

/-- Leave the initiating functions. -/
def leave (s : Lifecycle ι τ σ) : Option τ → Lifecycle ι τ σ
  | none => { s with initiator := none }
  | some t =>
    match s.pcs t with
    | .resubmitting ec => { s.setPc t (.rechecking ec) with initiator := none }
    | _ => { s with initiator := none }

/-- The next action of the initiating functions. -/
def initiate (me : ι) (s : Lifecycle ι τ σ) (ok : Bool) : Option (Lifecycle ι τ σ) :=
  match s.initiator with
  | none => none
  | some w => (s.svc.initiate me ok).map fun svc ↦
    if (svc.ops me).pc = .idle then { s with svc := svc }.leave w else { s with svc := svc }

/-- The routine up to its callback or its resubmission. -/
def complete (R : Routine σ δ) (s : Lifecycle ι τ σ) (t : τ) (d : δ) :
    Option (Lifecycle ι τ σ) :=
  match s.pcs t with
  | .entered ec n => (R.complete s.op d ec n).map fun r ↦
    match r.2 with
    | .finish ec' n' => { s.setPc t (.finishing false ec' n') with op := r.1 }
    | .again requested => { s.setPc t (.retrying ec requested) with op := r.1 }
  | _ => none

/-- The system call of a resubmission. -/
def resubmit (R : Routine σ δ) (me : ι) (s : Lifecycle ι τ σ) (t : τ) (ov : ErrorCode × ℕ)
    (o : Issued) : Option (Lifecycle ι τ σ) :=
  match s.pcs t with
  | .retrying ec requested =>
    if o.Legal requested then
      (s.svc.submit me R.resets ov o).map fun svc ↦
        { s.setPc t (.resubmitting ec) with
          svc := svc
          initiator := some (some t)
          stale := s.stale + if (svc.ops me).mem.ready then 1 else 0 }
    else none
  | _ => none

/-- The code behind a resubmission. -/
def recheck (R : Routine σ δ) (s : Lifecycle ι τ σ) (t : τ) (garbage : σ) :
    Option (Lifecycle ι τ σ) :=
  match s.pcs t with
  | .rechecking ec =>
    match R.recheck (if s.deletes = 0 then s.op else garbage) ec with
    | none => some (s.setPc t .out)
    | some r => some (s.setPc t (.finishing true r.1 r.2))
  | _ => none

/-- The user's callback. -/
def callback (s : Lifecycle ι τ σ) (t : τ) : Option (Lifecycle ι τ σ) :=
  match s.pcs t with
  | .finishing b ec n => some { s.setPc t (.deleting b) with calls := s.calls ++ [(ec, n)] }
  | _ => none

/-- `delete op`. -/
def delete (s : Lifecycle ι τ σ) (t : τ) : Option (Lifecycle ι τ σ) :=
  match s.pcs t with
  | .deleting _ => some { s.setPc t .out with deletes := s.deletes + 1 }
  | _ => none

/-- The transitions of the operation with its routine on the service; `none` where a step cannot be
taken. -/
def step (R : Routine σ δ) (me : ι) (s : Lifecycle ι τ σ) :
    LifecycleEvent ι τ σ δ → Option (Lifecycle ι τ σ)
  | .service e => s.service me e
  | .asyn ov o => s.asyn R me ov o
  | .initiate ok => s.initiate me ok
  | .complete t d => s.complete R t d
  | .resubmit t ov o => s.resubmit R me t ov o
  | .recheck t garbage => s.recheck R t garbage
  | .callback t => s.callback t
  | .delete t => s.delete t

/-- Before the asynchronous call. -/
def start (mem : ι → Operation) (d : Bool) (op : σ) : Lifecycle ι τ σ where
  svc := .start mem d
  op := op
  calls := []
  deletes := 0
  pcs _ := .out
  initiator := none
  stale := 0

/-- The operation is submitted and not completed. -/
def flights (me : ι) (s : Lifecycle ι τ σ) : ℕ :=
  if (s.svc.ops me).submitted = (s.svc.ops me).invoked then 0 else 1

/-- A thread that is to call back, to delete, or to decide about it. -/
def owns : RoutinePc → ℕ
  | .out | .resubmitting _ | .rechecking _ => 0
  | .entered _ _ | .retrying _ _ | .finishing _ _ _ | .deleting _ => 1

/-- A thread that has called back and not yet deleted. -/
def deletes_ : RoutinePc → ℕ
  | .deleting _ => 1
  | _ => 0

/-- What the caller of an asynchronous function may expect. -/
structure OneCallback [Fintype τ] (me : ι) (s : Lifecycle ι τ σ) : Prop where
  calls_le : s.calls.length ≤ 1
  deletes_le : s.deletes ≤ 1
  /-- When the operation is not under way and no thread has it, both have happened. -/
  done : (s.svc.ops me).submitted ≠ [] → (s.svc.ops me).submitted = (s.svc.ops me).invoked →
    (∀ t, owns (s.pcs t) = 0) → s.calls.length = 1 ∧ s.deletes = 1
  /-- An invocation that has resubmitted the operation neither calls back nor deletes it. -/
  resubmitted : ∀ t, (∀ ec n, s.pcs t ≠ .finishing true ec n) ∧ s.pcs t ≠ .deleting true

/-- The operation is resubmitted with `ready_` clear, and the code behind a resubmission does not
take the operation for finished. -/
def ResubmitsClear (R : Routine σ δ) (me : ι) (s : Lifecycle ι τ σ) : LifecycleEvent ι τ σ δ → Prop
  | .resubmit _ _ _ => R.resets = true ∨ (s.svc.ops me).mem.ready = false
  | .recheck t garbage => ∀ ec, s.pcs t = .rechecking ec →
      R.recheck (if s.deletes = 0 then s.op else garbage) ec = none
  | _ => True

end Lifecycle

end JnetLib.Iocp
