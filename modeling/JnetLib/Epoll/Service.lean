import Mathlib

/-!
# The work of an epoll service

Threads inside `service::run`, threads that start operations, and the workers for files and names,
over the slots `in_op_` and `out_op_` of the sockets, the interest masks and the list
`completed_ops_`. Every operation on its way is counted in `outstanding_work_`, and the service
stops when the count comes down to zero.

A step is one access to what the threads share: an atomic instruction, a critical section, or a
system call. An operation may be submitted again and again, and each submission has a number here.
What a submission does when opening, `epoll_ctl` or `connect` fails is left out, and so is what the
results of an operation are: only where it is.
-/

namespace JnetLib.Epoll

/-! ### Submissions -/

/-- `EPOLLIN` and `EPOLLOUT`, and the two slots of a socket. -/
inductive Dir
  | input
  | output
  deriving DecidableEq, Repr

instance : Fintype Dir := ⟨{.input, .output}, fun d ↦ by cases d <;> decide⟩

/-- The threads with a queue of their own: `file_ops` and `resolver`. -/
inductive Worker
  | file
  | resolver
  deriving DecidableEq, Repr

instance : Fintype Worker := ⟨{.file, .resolver}, fun w ↦ by cases w <;> decide⟩

/-- Where a submission goes first: into `completed_ops_` (`post` and the two functions
`post_operation`), to a worker (`asyn_read`, `asyn_write`, `asyn_read_line`, `asyn_resolve`), or
into a slot (`begin_accept`, `begin_recv`, `begin_send`, `begin_connect` and `connect`). -/
inductive Target (ι : Type*)
  | posted
  | queued (w : Worker)
  | slot (p : ι × Dir)
  deriving DecidableEq, Repr

/-- A submission of an operation. -/
structure Submission (ι : Type*) where
  id : ℕ
  target : Target ι
  deriving DecidableEq, Repr

/-- Where a thread is in submitting an operation: in front of `work_started` with the operation in
its slot already; behind it; and in front of `modify_event`. -/
inductive Call (ι : Type*)
  | idle
  | stored (x : Submission ι)
  | counted (x : Submission ι)
  | marked (i : ι)
  deriving DecidableEq, Repr

/-- Where a thread is in `run`: outside, at the head of the loop of `do_one`, in front of
`epoll_wait`, with the events still to be looked at, and for one of these with the operation taken
out of its slot, with the interest cleared, and in front of `post_deferred_completion`; in front of
`completed_ops_.wait` it has no events left. Then with an operation being completed, and in front of
`stop`. A thread that got a null pointer looks at `stopped_`, wakes the next thread and leaves. -/
inductive Place (ι : Type*)
  | outside
  | top
  | polling
  | events (l : List (ι × Dir))
  | taken (p : ι × Dir) (x : Option (Submission ι)) (l : List (ι × Dir))
  | cleared (p : ι × Dir) (x : Option (Submission ι)) (l : List (ι × Dir))
  | posting (x : Option (Submission ι)) (l : List (ι × Dir))
  | executing (x : Submission ι)
  | stopping
  | woken
  | waking
  | leaving
  deriving DecidableEq, Repr

/-- The service, its sockets and workers, and where each thread is. `interest` is what the kernel
has been told, `event.events` is `mask`. A null pointer in `completed_ops_` only wakes a thread. -/
structure Service (ι τ : Type*) where
  outstandingWork : ℤ
  stopped : Bool
  isOpen : ι → Bool
  mask : ι × Dir → Bool
  interest : ι × Dir → Bool
  slots : ι × Dir → Option (Submission ι)
  queues : Worker → List (Submission ι)
  hands : Worker → Option (Submission ι)
  completedOps : List (Option (Submission ι))
  ready : ℕ → Bool
  demultiplexingThread : Option τ
  places : τ → Place ι
  calls : τ → Call ι
  nextId : ℕ

/-- The steps: a thread enters `run`, leaves `do_one` because a wait failed, gets events, or takes
an operation off `completed_ops_` if there is one; the completion it executes returns; it starts a
submission, or goes on with what it is doing. A worker takes an operation, or is done with it. A
socket is opened or closed. -/
inductive Event (ι τ : Type*)
  | enter (t : τ)
  | leave (t : τ)
  | wait (t : τ) (l : List (ι × Dir))
  | dispatch (t : τ)
  | finish (t : τ)
  | submit (t : τ) (target : Target ι)
  | call (t : τ)
  | run (t : τ)
  | pop (w : Worker)
  | complete (w : Worker)
  | opened (i : ι)
  | closed (i : ι)
  deriving DecidableEq, Repr

namespace Service

variable {ι τ : Type*} [DecidableEq ι] [DecidableEq τ]

/-- A fresh service, its sockets and threads. -/
def start : Service ι τ where
  outstandingWork := 0
  stopped := false
  isOpen _ := false
  mask _ := false
  interest _ := false
  slots _ := none
  queues _ := []
  hands _ := none
  completedOps := []
  ready _ := false
  demultiplexingThread := none
  places _ := .outside
  calls _ := .idle
  nextId := 0

/-! ### The code -/

/-- Where a thread goes in `run`. -/
def go (s : Service ι τ) (t : τ) (place : Place ι) : Service ι τ :=
  { s with places := Function.update s.places t place }

/-- Where a thread goes in a submission. -/
def goCall (s : Service ι τ) (t : τ) (c : Call ι) : Service ι τ :=
  { s with calls := Function.update s.calls t c }

/-- `service::post_deferred_completion`. -/
def postDeferredCompletion (s : Service ι τ) (x : Option (Submission ι)) : Service ι τ :=
  { s with
    ready := match x with
      | some x => Function.update s.ready x.id true
      | none => s.ready
    completedOps := s.completedOps ++ [x] }

/-- `service::work_started`. -/
def workStarted (s : Service ι τ) : Service ι τ :=
  { s with outstandingWork := s.outstandingWork + 1 }

/-- `service::stop`. -/
def stop (s : Service ι τ) : Service ι τ :=
  if s.stopped then s else { s with stopped := true }.postDeferredCompletion none

/-- `service::modify_event`. Of a socket that is not open the kernel knows nothing. -/
def modifyEvent (s : Service ι τ) (i : ι) : Service ι τ :=
  { s with interest := fun p ↦ if p.1 = i then s.isOpen i && s.mask p else s.interest p }

/-- `socket_ops::socket`, which registers the new descriptor for what the mask says. -/
def open_ (s : Service ι τ) (i : ι) : Service ι τ :=
  { s with isOpen := Function.update s.isOpen i true }.modifyEvent i

/-- `socket_ops::close`. The slots and the mask stay as they are. -/
def close (s : Service ι τ) (i : ι) : Service ι τ :=
  { s with
    isOpen := Function.update s.isOpen i false
    interest := fun p ↦ if p.1 = i then false else s.interest p }

/-- The first step of a submission. The functions that use a slot fill it before they call
`work_started`. -/
def submit (s : Service ι τ) (t : τ) (target : Target ι) : Service ι τ :=
  let x : Submission ι := ⟨s.nextId, target⟩
  let s := { s with nextId := s.nextId + 1 }
  match target with
  | .slot p => { s with slots := Function.update s.slots p (some x) }.goCall t (.stored x)
  | _ => s.workStarted.goCall t (.counted x)

/-- The step behind `work_started`: `wait_for_epollin` and `wait_for_epollout` set a bit of the
mask, and if it was not set go on to `modify_event`. -/
def submitCounted (s : Service ι τ) (t : τ) (x : Submission ι) : Service ι τ :=
  match x.target with
  | .slot p =>
    if s.mask p then s.goCall t .idle
    else { s with mask := Function.update s.mask p true }.goCall t (.marked p.1)
  | .queued w => { s with queues := Function.update s.queues w (s.queues w ++ [x]) }.goCall t .idle
  | .posted => (s.postDeferredCompletion (some x)).goCall t .idle

/-- What a thread does next in a submission. -/
def stepCall (s : Service ι τ) (t : τ) : Option (Service ι τ) :=
  match s.calls t with
  | .idle => none
  | .stored x => some (s.workStarted.goCall t (.counted x))
  | .counted x => some (s.submitCounted t x)
  | .marked i => if s.isOpen i then some ((s.modifyEvent i).goCall t .idle) else none

/-- The end of `service::run` for a thread. -/
def exit (s : Service ι τ) (t : τ) : Service ι τ :=
  { s with demultiplexingThread :=
      if s.demultiplexingThread = some t then none else s.demultiplexingThread }.go t .outside

/-- What a thread does next in `run`. One thread at a time goes to `epoll_wait`. For one event after
the other it empties the slot, clears the bit of the mask, tells the kernel, and posts the operation
if there was one. -/
def stepRun (s : Service ι τ) (t : τ) : Option (Service ι τ) :=
  match s.places t with
  | .top =>
    some (if s.demultiplexingThread = none ∨ s.demultiplexingThread = some t then
      { s with demultiplexingThread := some t }.go t .polling
    else s.go t (.events []))
  | .events (p :: l) =>
    some ({ s with slots := Function.update s.slots p none }.go t (.taken p (s.slots p) l))
  | .taken p x l =>
    some (if s.mask p then { s with mask := Function.update s.mask p false }.go t (.cleared p x l)
      else s.go t (.posting x l))
  | .cleared p x l => some ((s.modifyEvent p.1).go t (.posting x l))
  | .posting (some x) l => some ((s.postDeferredCompletion (some x)).go t (.events l))
  | .posting none l => some (s.go t (.events l))
  | .stopping => some (s.stop.go t .top)
  | .woken => some (s.go t (if s.stopped then .waking else .top))
  | .waking => some ((s.postDeferredCompletion none).go t .leaving)
  | .leaving => some (s.exit t)
  | _ => none

/-- `completed_ops_.wait` and what `do_one` makes of its answer. An operation whose `ready_` is not
set is dropped. -/
def dispatch (s : Service ι τ) (t : τ) : Service ι τ :=
  match s.completedOps with
  | [] => s.go t .top
  | some x :: q =>
    if s.ready x.id then { s with completedOps := q }.go t (.executing x)
    else { s with completedOps := q, ready := Function.update s.ready x.id true }.go t .top
  | none :: q => { s with completedOps := q }.go t .woken

/-- `service::work_finished`, at the end of a completion. -/
def workFinished (s : Service ι τ) (t : τ) : Service ι τ :=
  { s with outstandingWork := s.outstandingWork - 1 }.go t
    (if s.outstandingWork - 1 = 0 then .stopping else .top)

/-- The transitions of the service; `none` where a step cannot be taken. The kernel reports what it
has been asked for, each thing once. A thread submits operations when it is outside `run` or inside
a completion. -/
def step (s : Service ι τ) : Event ι τ → Option (Service ι τ)
  | .enter t =>
    if s.places t = .outside ∧ s.calls t = .idle then
      some (s.go t (if s.outstandingWork = 0 then .stopping else .top))
    else none
  | .leave t =>
    if s.places t = .polling ∨ s.places t = .events [] then some (s.go t .leaving) else none
  | .wait t l =>
    if s.places t = .polling ∧ l.Nodup ∧ ∀ p ∈ l, s.isOpen p.1 = true ∧ s.interest p = true then
      some (s.go t (.events l))
    else none
  | .dispatch t => if s.places t = .events [] then some (s.dispatch t) else none
  | .finish t =>
    match s.places t with
    | .executing _ => if s.calls t = .idle then some (s.workFinished t) else none
    | _ => none
  | .submit t target =>
    match s.calls t, s.places t with
    | .idle, .outside => some (s.submit t target)
    | .idle, .executing _ => some (s.submit t target)
    | _, _ => none
  | .call t => s.stepCall t
  | .run t => s.stepRun t
  | .pop w =>
    match s.hands w, s.queues w with
    | none, x :: q => some { s with
        queues := Function.update s.queues w q, hands := Function.update s.hands w (some x) }
    | _, _ => none
  | .complete w =>
    match s.hands w with
    | some x =>
      some ({ s with hands := Function.update s.hands w none }.postDeferredCompletion (some x))
    | none => none
  | .opened i => if s.isOpen i then none else some (s.open_ i)
  | .closed i => if s.isOpen i then some (s.close i) else none

end Service

end JnetLib.Epoll
