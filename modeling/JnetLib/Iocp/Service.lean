import JnetLib.Base.ErrorCode
import JnetLib.Foundation.Ledger
import JnetLib.Foundation.Transition

/-!
# The completion port service

The part of the IOCP backend that hands a completion from the kernel to the operation's completion
routine: the initiating functions with `on_pending` and `on_completion`, and `do_one` with
`post_deferred_completions`.

An operation's `ready_` flag is a handshake between two parties, the thread that initiates the
system call and the `do_one` thread that dequeues the kernel's packet. The first one to come sets
the flag and leaves; the second one finds it set and goes on, the initiating thread by posting the
operation once more, the `do_one` thread by running `complete`. A post that fails puts the
operation into `completed_ops_`, from where a later `do_one` posts it again.

A state holds any number of operations `ι` and of `do_one` threads `τ`. Every step is one action of
one thread or of the kernel; what runs under `completed_ops_cs_` in the initiating functions is one
step, and a `do_one` thread that holds the lock while it posts again is told by `locked`. The
outstanding-work count, timeouts and the packets without an operation play no role here: a thread
may always go back to the top of its loop (`retry`).
-/

namespace JnetLib.Iocp

/-- The fields of `iocp::operation` the service reads and writes. `Offset` holds an `int`; its way
through a `DWORD` and back does not change it. -/
structure Operation where
  internal : Describer
  offset : ℤ
  offsetHigh : ℕ
  ready : Bool
  deriving DecidableEq, Repr

namespace Operation

/-- `operation::reset`. -/
def reset : Operation := ⟨.null, 0, 0, false⟩

/-- A result saved into the `OVERLAPPED` fields. -/
def store (op : Operation) (ec : ErrorCode) (bytes : ℕ) : Operation :=
  { op with internal := ec.describer, offset := ec.value, offsetHigh := bytes }

/-- The result the `OVERLAPPED` fields hold. -/
def result (op : Operation) : ErrorCode × ℕ := (⟨op.offset, op.internal⟩, op.offsetHigh)

/-- `op->ready_ = 1`. -/
def flag (op : Operation) : Operation := { op with ready := true }

@[simp]
theorem reset_ready : reset.ready = false :=
  rfl

@[simp]
theorem store_ready (op : Operation) (ec : ErrorCode) (n : ℕ) : (op.store ec n).ready = op.ready :=
  rfl

@[simp]
theorem result_store (op : Operation) (ec : ErrorCode) (n : ℕ) :
    (op.store ec n).result = (ec, n) :=
  rfl

@[simp]
theorem flag_ready (op : Operation) : op.flag.ready = true :=
  rfl

@[simp]
theorem result_flag (op : Operation) : op.flag.result = op.result :=
  rfl

end Operation

/-- How far the initiating thread is: outside the initiating functions, before the exchange of
`on_pending`, before the store of `on_completion` to `ready_`, before its store of the result,
before a post, or before the push that follows a failed post. -/
inductive Initiator
  | idle
  | pending
  | failed (ec : ErrorCode) (n : ℕ)
  | storing (ec : ErrorCode) (n : ℕ)
  | posting
  | pushing
  deriving DecidableEq, Repr

/-- What the system call answers: the I/O is done or under way and will be reported by a packet
with this error and count, or it has failed and `on_completion` gets this result. -/
inductive Issued
  | pending (lastError : ℤ) (n : ℕ)
  | failed (ec : ErrorCode) (n : ℕ)
  deriving DecidableEq, Repr

/-- The result the submission is to be completed with. -/
def Issued.result : Issued → ErrorCode × ℕ
  | .pending e n => (.system e, n)
  | .failed ec n => (ec, n)

/-- One operation: its memory, its initiating thread, the I/O the kernel still has to report, and a
record of the results it was submitted for and completed with. -/
structure OpState where
  mem : Operation
  pc : Initiator
  io : List (ℤ × ℕ)
  submitted : List (ErrorCode × ℕ)
  invoked : List (ErrorCode × ℕ)
  deriving DecidableEq, Repr

/-- A packet of the completion port that carries an operation: one the kernel queued, or one posted
with the key `overlapped_contains_result`. -/
inductive Packet (ι : Type)
  | kernel (op : ι) (lastError : ℤ) (n : ℕ)
  | posted (op : ι)
  deriving DecidableEq, Repr

/-- Where a thread is in `do_one`: at the top of the loop, about to lock `completed_ops_cs_`,
posting a list again with the lock held, in `GetQueuedCompletionStatus`, with a packet, with its
result recorded and the exchange on `ready_` ahead, or inside `complete`. -/
inductive DoOne (ι : Type)
  | top
  | locking
  | dispatching (ops : List ι)
  | waiting
  | got (p : Packet ι)
  | recorded (op : ι) (ec : ErrorCode) (n : ℕ)
  | completing (op : ι) (ec : ErrorCode) (n : ℕ)
  deriving DecidableEq, Repr

/-- The service with its operations and threads. -/
structure Service (ι τ : Type) where
  ops : ι → OpState
  port : List (Packet ι)
  completedOps : List ι
  dispatchRequired : Bool
  locked : Bool
  threads : τ → DoOne ι

/-- A step: the system call of a submission, with or without `reset` before it, where `ov` is what
the file position and the call leave in the `OVERLAPPED` fields; the initiating thread's next
action; the kernel's packet for one of the outstanding I/Os; an action of a `do_one` thread. `ok` is
the answer of `PostQueuedCompletionStatus`. -/
inductive Event (ι τ : Type)
  | submit (i : ι) (rst : Bool) (ov : ErrorCode × ℕ) (o : Issued)
  | initiate (i : ι) (ok : Bool)
  | arrive (i : ι) (k : ℕ)
  | check (t : τ)
  | enter (t : τ)
  | repost (t : τ) (ok : Bool)
  | retry (t : τ)
  | dequeue (t : τ) (k : ℕ)
  | record (t : τ)
  | exchange (t : τ)
  | ret (t : τ)
  deriving DecidableEq, Repr

namespace Service

variable {ι τ : Type} [DecidableEq ι] [DecidableEq τ]

/-- Write one operation. -/
def setOp (s : Service ι τ) (i : ι) (S : OpState) : Service ι τ :=
  { s with ops := Function.update s.ops i S }

/-- Move one thread. -/
def setThread (s : Service ι τ) (t : τ) (pc : DoOne ι) : Service ι τ :=
  { s with threads := Function.update s.threads t pc }

/-- The system call of a submission. -/
def submit (s : Service ι τ) (i : ι) (rst : Bool) (ov : ErrorCode × ℕ) (o : Issued) :
    Option (Service ι τ) :=
  let S := s.ops i
  let mem := (if rst then .reset else S.mem).store ov.1 ov.2
  if S.pc = .idle then
    match o with
    | .pending e n => some (s.setOp i { S with
        mem := mem
        pc := .pending
        io := S.io ++ [(e, n)]
        submitted := S.submitted ++ [o.result] })
    | .failed ec n => some (s.setOp i { S with
        mem := mem
        pc := .failed ec n
        submitted := S.submitted ++ [o.result] })
  else none

/-- `on_pending` and `on_completion`, one action at a time. -/
def initiate (s : Service ι τ) (i : ι) (ok : Bool) : Option (Service ι τ) :=
  let S := s.ops i
  match S.pc with
  | .idle => none
  | .pending =>
    -- `InterlockedCompareExchange(&op->ready_, 1, 0)`
    if S.mem.ready then some (s.setOp i { S with pc := .posting })
    else some (s.setOp i { S with pc := .idle, mem := S.mem.flag })
  | .failed ec n => some (s.setOp i { S with pc := .storing ec n, mem := S.mem.flag })
  | .storing ec n => some (s.setOp i { S with pc := .posting, mem := S.mem.store ec n })
  | .posting =>
    if ok then some { s.setOp i { S with pc := .idle } with port := s.port ++ [.posted i] }
    else some (s.setOp i { S with pc := .pushing })
  | .pushing =>
    if s.locked then none
    else some { s.setOp i { S with pc := .idle } with
      completedOps := s.completedOps ++ [i]
      dispatchRequired := true }

/-- The kernel queues the packet of an outstanding I/O. -/
def arrive (s : Service ι τ) (i : ι) (k : ℕ) : Option (Service ι τ) :=
  let S := s.ops i
  match S.io[k]? with
  | some r => some { s.setOp i { S with io := S.io.eraseIdx k } with
      port := s.port ++ [.kernel i r.1 r.2] }
  | none => none

/-- The exchange on `dispatch_required_`. -/
def check (s : Service ι τ) (t : τ) : Option (Service ι τ) :=
  match s.threads t with
  | .top =>
    if s.dispatchRequired then some { s.setThread t .locking with dispatchRequired := false }
    else some (s.setThread t .waiting)
  | _ => none

/-- Lock `completed_ops_cs_` and take what is in `completed_ops_`. -/
def enter (s : Service ι τ) (t : τ) : Option (Service ι τ) :=
  match s.threads t with
  | .locking =>
    if s.locked then none
    else
      some { s.setThread t (.dispatching s.completedOps) with completedOps := [], locked := true }
  | _ => none

/-- `post_deferred_completions` posts the next operation of the list; a failed post puts all that is
left back. When the list is empty the lock is released. -/
def repost (s : Service ι τ) (t : τ) (ok : Bool) : Option (Service ι τ) :=
  match s.threads t with
  | .dispatching [] => some { s.setThread t .waiting with locked := false }
  | .dispatching (i :: ops) =>
    let s' := s.setOp i { s.ops i with mem := (s.ops i).mem.flag }
    if ok then some { s'.setThread t (.dispatching ops) with port := s.port ++ [.posted i] }
    else some { s'.setThread t (.dispatching []) with
      completedOps := s.completedOps ++ i :: ops
      dispatchRequired := true }
  | _ => none

/-- `GetQueuedCompletionStatus` returns without an operation. -/
def retry (s : Service ι τ) (t : τ) : Option (Service ι τ) :=
  match s.threads t with
  | .waiting => some (s.setThread t .top)
  | _ => none

/-- `GetQueuedCompletionStatus` returns a packet. -/
def dequeue (s : Service ι τ) (t : τ) (k : ℕ) : Option (Service ι τ) :=
  match s.threads t, s.port[k]? with
  | .waiting, some p => some { s.setThread t (.got p) with port := s.port.eraseIdx k }
  | _, _ => none

/-- Take the result of a posted operation from its memory, or save that of a packet there. -/
def record (s : Service ι τ) (t : τ) : Option (Service ι τ) :=
  match s.threads t with
  | .got (.posted i) =>
    let r := (s.ops i).mem.result
    some (s.setThread t (.recorded i r.1 r.2))
  | .got (.kernel i e n) =>
    let s' := s.setOp i { s.ops i with mem := (s.ops i).mem.store (.system e) n }
    some (s'.setThread t (.recorded i (.system e) n))
  | _ => none

/-- The exchange on `ready_`; a thread that finds it set runs `complete`. -/
def exchange (s : Service ι τ) (t : τ) : Option (Service ι τ) :=
  match s.threads t with
  | .recorded i ec n =>
    let S := s.ops i
    if S.mem.ready then
      let s' := s.setOp i { S with invoked := S.invoked ++ [(ec, n)] }
      some (s'.setThread t (.completing i ec n))
    else
      let s' := s.setOp i { S with mem := S.mem.flag }
      some (s'.setThread t .top)
  | _ => none

/-- `complete` returns. -/
def ret (s : Service ι τ) (t : τ) : Option (Service ι τ) :=
  match s.threads t with
  | .completing _ _ _ => some (s.setThread t .top)
  | _ => none

/-- The transitions of the service; `none` where a step cannot be taken. -/
def step (s : Service ι τ) : Event ι τ → Option (Service ι τ)
  | .submit i rst ov o => s.submit i rst ov o
  | .initiate i ok => s.initiate i ok
  | .arrive i k => s.arrive i k
  | .check t => s.check t
  | .enter t => s.enter t
  | .repost t ok => s.repost t ok
  | .retry t => s.retry t
  | .dequeue t k => s.dequeue t k
  | .record t => s.record t
  | .exchange t => s.exchange t
  | .ret t => s.ret t

/-- A service before any submission. The constructor leaves `dispatch_required_` as it is in
memory. -/
def start (mem : ι → Operation) (dispatchRequired : Bool) : Service ι τ where
  ops i := ⟨mem i, .idle, [], [], []⟩
  port := []
  completedOps := []
  dispatchRequired := dispatchRequired
  locked := false
  threads _ := .top

/-! ### What a step leaves alone -/

section Frames

variable {s s' : Service ι τ} {i j : ι} {t u : τ} {S : OpState} {e : Event ι τ}

/-- The record of an operation: what it was submitted for and completed with. -/
def record_ (s : Service ι τ) (i : ι) : List (ErrorCode × ℕ) × List (ErrorCode × ℕ) :=
  ((s.ops i).submitted, (s.ops i).invoked)

omit [DecidableEq τ] in
theorem record_of_ops (hops : s'.ops = Function.update s.ops j S)
    (h : (S.submitted, S.invoked) = s.record_ j) (i : ι) : s'.record_ i = s.record_ i := by
  rw [record_, hops]
  rcases eq_or_ne i j with rfl | hne
  · rw [Function.update_self, h]
  · rw [Function.update_of_ne hne]
    rfl

omit [DecidableEq τ] in
/-- A submission is put on record, with the flag as the call finds it or as `reset` leaves it. -/
theorem submit_cases {rst : Bool} {ov : ErrorCode × ℕ} {o : Issued}
    (h : s.submit i rst ov o = some s') :
    s'.record_ i = ((s.ops i).submitted ++ [o.result], (s.ops i).invoked) ∧
      (s'.ops i).mem.ready = (if rst then .reset else (s.ops i).mem).ready ∧
      s'.threads = s.threads := by
  rw [submit.eq_def] at h
  dsimp only at h
  split at h
  · have hops : ∀ S, s'.ops = Function.update s.ops i S → s'.ops i = S := fun S hS ↦ by
      rw [hS, Function.update_self]
    cases o <;>
      (have hs := (Option.some.inj h).symm
       have hself := hops _ (by rw [hs]; rfl)
       rw [record_, hself]
       exact ⟨rfl, rfl, by rw [hs]; rfl⟩)
  · cases h

/-- Only submissions and exchanges change a record. -/
theorem record_of_step (h : s.step e = some s') (hsub : ∀ rst ov o, e ≠ .submit i rst ov o)
    (hex : ∀ t, e ≠ .exchange t) : s'.record_ i = s.record_ i := by
  cases e with
  | submit j rst ov o =>
    have hne : i ≠ j := fun hij ↦ hsub rst ov o (hij ▸ rfl)
    have hops : ∀ S, s.setOp j S = s' → s'.record_ i = s.record_ i := fun S hS ↦ by
      rw [← hS]
      show ((Function.update s.ops j S i).submitted, (Function.update s.ops j S i).invoked) = _
      rw [Function.update_of_ne hne]
      rfl
    rw [step, submit.eq_def] at h
    dsimp only at h
    split at h
    · cases o <;> exact hops _ (Option.some.inj h)
    · cases h
  | initiate j ok =>
    rw [step, initiate] at h
    dsimp only at h
    repeat' split at h
    all_goals first
      | (obtain rfl := Option.some.inj h; exact record_of_ops rfl (by rfl) i)
      | cases h
  | arrive j k =>
    rw [step, arrive] at h
    split at h
    · obtain rfl := Option.some.inj h
      exact record_of_ops rfl (by rfl) i
    · cases h
  | check t =>
    rw [step, check] at h
    repeat' split at h
    all_goals first
      | (obtain rfl := Option.some.inj h; rfl)
      | cases h
  | enter t =>
    rw [step, enter] at h
    repeat' split at h
    all_goals first
      | (obtain rfl := Option.some.inj h; rfl)
      | cases h
  | repost t ok =>
    rw [step, repost] at h
    dsimp only at h
    repeat' split at h
    all_goals first
      | (obtain rfl := Option.some.inj h; first | rfl | exact record_of_ops rfl (by rfl) i)
      | cases h
  | retry t =>
    rw [step, retry] at h
    split at h
    · obtain rfl := Option.some.inj h
      rfl
    · cases h
  | dequeue t k =>
    rw [step, dequeue] at h
    split at h
    · obtain rfl := Option.some.inj h
      rfl
    · cases h
  | record t =>
    rw [step, record] at h
    dsimp only at h
    split at h
    · obtain rfl := Option.some.inj h
      rfl
    · obtain rfl := Option.some.inj h
      exact record_of_ops rfl (by rfl) i
    · cases h
  | exchange t => exact absurd rfl (hex t)
  | ret t =>
    rw [step, ret] at h
    split at h
    · obtain rfl := Option.some.inj h
      rfl
    · cases h

/-- An exchange completes the operation it finds ready, or only sets the flag. -/
theorem exchange_cases (h : s.exchange t = some s') :
    ∃ j ec n, s.threads t = .recorded j ec n ∧
      (s'.threads t = .completing j ec n ∧
          s'.ops = Function.update s.ops j
            { s.ops j with invoked := (s.ops j).invoked ++ [(ec, n)] } ∨
        s'.threads t = .top ∧ ∀ i, s'.record_ i = s.record_ i) := by
  rw [exchange] at h
  split at h
  case h_1 j ec n ht =>
    dsimp only at h
    refine ⟨j, ec, n, ht, ?_⟩
    split at h <;> obtain rfl := Option.some.inj h
    · exact .inl ⟨Function.update_self .., rfl⟩
    · exact .inr ⟨Function.update_self .., fun i ↦ record_of_ops rfl (by rfl) i⟩
  case h_2 => cases h

/-- A thread stays inside `complete` until it returns. -/
theorem threads_of_completing {ec : ErrorCode} {n : ℕ} (h : s.step e = some s')
    (ht : s.threads t = .completing i ec n) (he : e ≠ .ret t) :
    s'.threads t = .completing i ec n := by
  have hmove : ∀ {u pc}, s.threads u ≠ .completing i ec n →
      Function.update s.threads u pc t = .completing i ec n := fun {u pc} hu ↦ by
    rw [Function.update_of_ne fun htu : t = u ↦ hu (htu ▸ ht), ht]
  cases e with
  | submit j rst ov o =>
    rw [step, submit.eq_def] at h
    dsimp only at h
    split at h
    · cases o <;> (obtain rfl := Option.some.inj h; exact ht)
    · cases h
  | initiate j ok =>
    rw [step, initiate] at h
    dsimp only at h
    repeat' split at h
    all_goals first
      | (obtain rfl := Option.some.inj h; exact ht)
      | cases h
  | arrive j k =>
    rw [step, arrive] at h
    split at h
    · obtain rfl := Option.some.inj h
      exact ht
    · cases h
  | check u | enter u | repost u _ | retry u | record u | exchange u =>
    simp only [step, check, enter, repost, retry, record, exchange] at h
    repeat' split at h
    all_goals first
      | (obtain rfl := Option.some.inj h; exact hmove (by simp [*]))
      | cases h
  | dequeue u k =>
    rw [step, dequeue] at h
    split at h
    case h_1 hu _ =>
      obtain rfl := Option.some.inj h
      exact hmove (by simp [hu])
    case h_2 => cases h
  | ret u =>
    have hne : t ≠ u := fun htu ↦ he (htu ▸ rfl)
    rw [step, ret] at h
    split at h
    · obtain rfl := Option.some.inj h
      show Function.update s.threads u .top t = _
      rw [Function.update_of_ne hne, ht]
    · cases h

end Frames

end Service

end JnetLib.Iocp
