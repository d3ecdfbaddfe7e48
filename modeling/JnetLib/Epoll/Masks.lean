import JnetLib.Epoll.Service
import JnetLib.Foundation.Transition

/-!
# The mask of a socket

A thread that starts a receive or a send sets a bit of the mask of the socket, and the
demultiplexing thread clears one for every event it handles. Each changes the mask by an atomic
instruction and tells the kernel in a separate call, `epoll_ctl`, which first copies the mask and
then installs the copy. No lock is held meanwhile, so that a copy can be old when it is installed.

Any number of threads start operations here, again and again, but none for a direction that has one
already. `epoll_ctl` succeeds, and counting and completing the operations are left out.

`InStep` is what should hold of the slots and the masks, and `InstallsCarefully` the condition on a
step under which an old copy does no harm: another one follows in time. That the second is what the
first needs is shown in `Duplex`.
-/

namespace JnetLib.Epoll

/-- Where a thread is in starting an operation (`begin_recv`, `begin_send`): behind filling the
slot; behind setting the bit, in front of `epoll_ctl`; and in it, with its copy of the mask. -/
inductive Arming
  | idle
  | stored (d : Dir)
  | marked (d : Dir)
  | copied (d : Dir) (m : Dir → Bool)

/-- Where the demultiplexing thread is in `do_one`: in `epoll_wait`; with the events still to be
looked at; and for one of them with what was in the slot, behind clearing the bit, in `epoll_ctl`
with its copy of the mask, and in front of `post_deferred_completion`. -/
inductive Demux (ω : Type*)
  | waiting
  | events (l : List Dir)
  | taken (d : Dir) (x : Option ω) (l : List Dir)
  | cleared (d : Dir) (x : Option ω) (l : List Dir)
  | copied (d : Dir) (m : Dir → Bool) (x : Option ω) (l : List Dir)
  | posting (d : Dir) (x : Option ω) (l : List Dir)

/-- An open socket and the threads at work on it. `interest` is the mask the kernel has
installed. -/
structure Duplex (α ω : Type*) where
  slots : Dir → Option ω
  mask : Dir → Bool
  interest : Dir → Bool
  calls : α → Arming
  demux : Demux ω

/-- The steps: a thread starts an operation, or goes on with it; `epoll_wait` returns with events;
the demultiplexing thread goes on. -/
inductive DuplexEvent (α ω : Type*)
  | start (a : α) (d : Dir) (x : ω)
  | call (a : α)
  | deliver (l : List Dir)
  | demux
  deriving DecidableEq, Repr

namespace Demux

variable {ω : Type*}

/-- The direction whose event is being handled. -/
def handling : Demux ω → Option Dir
  | .waiting | .events _ => none
  | .taken d _ _ | .cleared d _ _ | .copied d _ _ _ | .posting d _ _ => some d

/-- The events to be looked at afterwards. -/
def pending : Demux ω → List Dir
  | .waiting => []
  | .events l | .taken _ _ l | .cleared _ _ l | .copied _ _ _ l | .posting _ _ l => l

/-- The operation has been taken out of its slot, and the bit has not been cleared. -/
def Takes (d : Dir) : Demux ω → Prop
  | .taken e _ _ => e = d
  | _ => False

/-- The thread is inside `clear_epollin` or `clear_epollout`, or will be next. -/
def Clearing : Demux ω → Prop
  | .taken _ _ _ | .cleared _ _ _ | .copied _ _ _ _ => True
  | .waiting | .events _ | .posting _ _ _ => False

/-- The thread will install a mask that has the bit, if nobody clears it before the thread copies
the mask. -/
def Brings (d : Dir) : Demux ω → Prop
  | .taken _ _ _ | .cleared _ _ _ => True
  | .copied _ m _ _ => m d
  | .waiting | .events _ | .posting _ _ _ => False

/-- The thread will install a mask before it waits for events again. -/
def Installs (p : Demux ω) : Prop := p.Clearing ∨ p.pending ≠ []

instance (d : Dir) : DecidablePred (Brings d : Demux ω → Prop)
  | .taken _ _ _ | .cleared _ _ _ => inferInstanceAs (Decidable True)
  | .copied _ m _ _ => inferInstanceAs (Decidable (m d))
  | .waiting | .events _ | .posting _ _ _ => inferInstanceAs (Decidable False)

instance : DecidablePred (Clearing : Demux ω → Prop)
  | .taken _ _ _ | .cleared _ _ _ | .copied _ _ _ _ => inferInstanceAs (Decidable True)
  | .waiting | .events _ | .posting _ _ _ => inferInstanceAs (Decidable False)

instance (p : Demux ω) : Decidable p.Installs :=
  inferInstanceAs (Decidable (p.Clearing ∨ p.pending ≠ []))

end Demux

/-- The call will install a mask that has the bit, if nobody clears it before the call copies the
mask. -/
def Arming.Brings (d : Dir) : Arming → Prop
  | .idle => False
  | .stored _ | .marked _ => True
  | .copied _ m => m d

instance (d : Dir) : DecidablePred (Arming.Brings d)
  | .idle => inferInstanceAs (Decidable False)
  | .stored _ | .marked _ => inferInstanceAs (Decidable True)
  | .copied _ m => inferInstanceAs (Decidable (m d))

namespace Duplex

variable {α ω : Type*} [DecidableEq α]

/-! ### The code -/

/-- A socket that has just been opened. -/
def start : Duplex α ω where
  slots _ := none
  mask _ := false
  interest _ := false
  calls _ := .idle
  demux := .waiting

/-- Where a thread goes. -/
def goCall (s : Duplex α ω) (a : α) (c : Arming) : Duplex α ω :=
  { s with calls := Function.update s.calls a c }

/-- Where the demultiplexing thread goes. -/
def goDemux (s : Duplex α ω) (p : Demux ω) : Duplex α ω := { s with demux := p }

/-- `set_in_op` and `set_out_op`, and what taking an operation out of its slot leaves. -/
def setOp (s : Duplex α ω) (d : Dir) (x : Option ω) : Duplex α ω :=
  { s with slots := Function.update s.slots d x }

/-- The atomic change of `event_.events`. -/
def setMask (s : Duplex α ω) (d : Dir) (b : Bool) : Duplex α ω :=
  { s with mask := Function.update s.mask d b }

/-- The second half of `epoll_ctl`. -/
def install (s : Duplex α ω) (m : Dir → Bool) : Duplex α ω := { s with interest := m }

/-- A thread goes on with `wait_for_epollin` or `wait_for_epollout`. -/
def stepCall (s : Duplex α ω) (a : α) : Option (Duplex α ω) :=
  match s.calls a with
  | .idle => none
  | .stored d =>
    -- the bit may stand already, and then the kernel is not told
    some (if s.mask d then s.goCall a .idle else (s.setMask d true).goCall a (.marked d))
  | .marked d => some (s.goCall a (.copied d s.mask))
  | .copied _ m => some ((s.install m).goCall a .idle)

/-- The demultiplexing thread goes on: it takes the operation out of the slot, whatever is there,
and clears the bit with `clear_epollin` or `clear_epollout`. -/
def stepDemux (s : Duplex α ω) : Option (Duplex α ω) :=
  match s.demux with
  | .waiting => none
  | .events [] => some (s.goDemux .waiting)
  | .events (d :: l) => some ((s.setOp d none).goDemux (.taken d (s.slots d) l))
  | .taken d x l =>
    some (if s.mask d then (s.setMask d false).goDemux (.cleared d x l)
      else s.goDemux (.posting d x l))
  | .cleared d x l => some (s.goDemux (.copied d s.mask x l))
  | .copied d m x l => some ((s.install m).goDemux (.posting d x l))
  | .posting _ _ l => some (s.goDemux (.events l))

/-- The transitions of the socket; `none` where a step cannot be taken. An operation is started when
the one before it has been posted. The kernel reports a direction it has been told about, and
`do_one` looks at `EPOLLIN` first. -/
def step (s : Duplex α ω) : DuplexEvent α ω → Option (Duplex α ω)
  | .start a d x =>
    match s.calls a, s.slots d with
    | .idle, none =>
      if s.demux.handling = some d then none else some ((s.setOp d (some x)).goCall a (.stored d))
    | _, _ => none
  | .call a => s.stepCall a
  | .deliver l =>
    match s.demux with
    | .waiting =>
      if l.Sublist [.input, .output] ∧ ∀ d ∈ l, s.interest d then some (s.goDemux (.events l))
      else none
    | _ => none
  | .demux => s.stepDemux

/-! ### In step -/

/-- What should hold of the slots and the masks. -/
structure InStep (s : Duplex α ω) : Prop where
  /-- Once all calls have returned, an operation in a slot is waited for. -/
  armed : (∀ a, s.calls a = .idle) → ¬s.demux.Clearing →
    ∀ d, s.slots d ≠ none → s.mask d ∧ s.interest d
  /-- An event that can be delivered has its operation. -/
  delivered : s.demux = .waiting → ∀ d, s.interest d → s.slots d ≠ none
  /-- What is taken out of a slot is an operation. -/
  taken : ∀ d x l, s.demux = .taken d x l → x ≠ none

/-- The copy `m` of a call does no harm. A bit that has been set since may be missing as long as
another call still brings it, and a bit that has been cleared since may stand as long as the
demultiplexing thread installs another mask before it waits. -/
def CallMayInstall (s : Duplex α ω) (a : α) (m : Dir → Bool) : Prop :=
  (∀ d, s.mask d → ¬m d → (∃ b, b ≠ a ∧ (s.calls b).Brings d) ∨ s.demux.Brings d) ∧
    ∀ d, m d → ¬s.mask d → s.demux.Installs

/-- The copy `m` of the demultiplexing thread does no harm. Nobody else clears a bit. -/
def DemuxMayInstall (s : Duplex α ω) (m : Dir → Bool) : Prop :=
  ∀ d, s.mask d → ¬m d → ∃ b, (s.calls b).Brings d

/-- **An old copy is installed where it does no harm only.** -/
def InstallsCarefully (s : Duplex α ω) : DuplexEvent α ω → Prop
  | .call a =>
    match s.calls a with
    | .copied _ m => s.CallMayInstall a m
    | _ => True
  | .demux =>
    match s.demux with
    | .copied _ m _ _ => s.DemuxMayInstall m
    | _ => True
  | .start _ _ _ | .deliver _ => True

instance [Fintype α] (s : Duplex α ω) (a : α) (m : Dir → Bool) : Decidable (s.CallMayInstall a m) :=
  inferInstanceAs (Decidable (_ ∧ _))

instance [Fintype α] (s : Duplex α ω) (m : Dir → Bool) : Decidable (s.DemuxMayInstall m) :=
  inferInstanceAs (Decidable (∀ _, _))

instance [Fintype α] (s : Duplex α ω) : DecidablePred (InstallsCarefully s)
  | .call a =>
    show Decidable (match s.calls a with | .copied _ m => s.CallMayInstall a m | _ => True) from
    match s.calls a with
    | .copied _ m => inferInstanceAs (Decidable (s.CallMayInstall a m))
    | .idle | .stored _ | .marked _ => inferInstanceAs (Decidable True)
  | .demux =>
    show Decidable (match s.demux with | .copied _ m _ _ => s.DemuxMayInstall m | _ => True) from
    match s.demux with
    | .copied _ m _ _ => inferInstanceAs (Decidable (s.DemuxMayInstall m))
    | .waiting | .events _ | .taken _ _ _ | .cleared _ _ _ | .posting _ _ _ =>
      inferInstanceAs (Decidable True)
  | .start _ _ _ | .deliver _ => inferInstanceAs (Decidable True)

end Duplex

end JnetLib.Epoll
