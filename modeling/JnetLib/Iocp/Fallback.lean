import JnetLib.Iocp.Service

/-!
# The fallback list

`PostQueuedCompletionStatus` fails when the system is out of resources. The operation then goes to
`completed_ops_`, and `dispatch_required_` tells the next `do_one` to post it again. Here every
access to what the threads share is a step of its own: each exchange, each post, entering and
leaving `completed_ops_cs_`, and each change of `completed_ops_` made under it. Any thread may run
any of the functions. A thread that runs `complete` is `idle`: it is free to call what it likes, and
nothing of `do_one` that matters here is left to do.

`completed_ops_cs_` is a critical section, which its owner may enter again; so
`post_deferred_completions`, which runs under it, does where a post fails. The constructor leaves
`dispatch_required_` as it is in memory.

`Lossless` is what the list promises. An operation is *handed over* when `post_deferred_completion`
or `on_completion` is called with it, and when `on_pending` finds its flag set, which means that its
packet has been dequeued and it is to be posted.
-/

namespace JnetLib.Iocp

/-- Which code posts an operation: a function that has nothing else to post, or
`post_deferred_completions` with the rest of its list. -/
inductive Poster (ι : Type)
  | single
  | drain (rest : List ι)
  deriving DecidableEq, Repr

/-- Where a thread is.

* `flagging`, `failing`, `storing`: before a store to `ready_`, before the one in `on_completion`,
  and before the store of the result that follows there.
* `pending`: before the exchange of `on_pending`.
* `posting`, `locking`, `pushing`, `restoring`, `setting`, `unlocking`: before a post and, after one
  that failed, before entering the critical section, before the push of the operation, with more of
  the list to push, before the exchange on `dispatch_required_`, and before leaving. The flag tells
  that the code is that of `post_deferred_completions`.
* `top`, `claimed`, `copying`, `clearing`, `dispatching`: in `do_one` before the exchange on
  `dispatch_required_`, after it was changed from 1 to 0, before the copy and before the clearing of
  `completed_ops_`, and at the head of the loop of `post_deferred_completions`.
* `waiting`, `got`, `recorded`: in `GetQueuedCompletionStatus`, with a packet, and before the
  exchange on `ready_`. -/
inductive FallbackPc (ι : Type)
  | idle
  | flagging (op : ι) (poster : Poster ι)
  | failing (op : ι) (ec : ErrorCode) (n : ℕ)
  | storing (op : ι) (ec : ErrorCode) (n : ℕ)
  | pending (op : ι)
  | posting (op : ι) (poster : Poster ι)
  | locking (op : ι) (poster : Poster ι)
  | pushing (op : ι) (poster : Poster ι)
  | restoring (ops : List ι)
  | setting (nested : Bool)
  | unlocking (nested : Bool)
  | top
  | claimed
  | copying
  | clearing (ops : List ι)
  | dispatching (ops : List ι)
  | waiting
  | got (p : Packet ι)
  | recorded (op : ι)
  deriving DecidableEq, Repr

namespace Poster

variable {ι : Type}

/-- What the thread still has of the list. -/
def rest : Poster ι → List ι
  | single => []
  | drain ops => ops

/-- Where the thread goes on after a post that worked. -/
def posted : Poster ι → FallbackPc ι
  | single => .idle
  | drain ops => .dispatching ops

/-- Where it goes on after pushing the operation: `post_deferred_completions` pushes the rest of its
list as well. -/
def pushed : Poster ι → FallbackPc ι
  | single => .setting false
  | drain ops => .restoring ops

/-- How often the code has entered the critical section. -/
def depth : Poster ι → ℕ
  | single => 0
  | drain _ => 1

end Poster

namespace FallbackPc

variable {ι : Type}

/-- The operations in the thread's hands. A copy of `completed_ops_` counts once the list is
cleared. -/
def hands : FallbackPc ι → List ι
  | flagging op poster | posting op poster | locking op poster | pushing op poster =>
    op :: poster.rest
  | failing op _ _ | storing op _ _ => [op]
  | restoring ops | dispatching ops => ops
  | idle | pending _ | setting _ | unlocking _ | top | claimed | copying | clearing _ | waiting
  | got _ | recorded _ => []

/-- How often the thread has entered the critical section. -/
def depth : FallbackPc ι → ℕ
  | flagging _ poster | posting _ poster | locking _ poster => poster.depth
  | pushing _ poster => poster.depth + 1
  | setting nested | unlocking nested => nested.toNat + 1
  | restoring _ => 2
  | copying | clearing _ | dispatching _ => 1
  | idle | failing _ _ _ | storing _ _ _ | pending _ | top | claimed | waiting | got _
  | recorded _ => 0

/-- The thread has claimed `dispatch_required_` and not cleared `completed_ops_` yet, or has pushed
an operation and not set `dispatch_required_` yet. -/
def Covers : FallbackPc ι → Prop
  | claimed | copying | clearing _ | restoring _ | setting _ => True
  | _ => False

end FallbackPc

/-- The operations, the port with its packets that carry an operation, what `service` keeps beside
it, the threads, and which operations were handed over and which were dequeued so far. -/
structure Fallback (ι τ : Type) where
  ops : ι → Operation
  port : List (Packet ι)
  completedOps : List ι
  dispatchRequired : ℤ
  lock : Option (τ × ℕ)
  threads : τ → FallbackPc ι
  handed : List ι
  dequeued : List ι

/-- A step: a call of one of the functions; the kernel queues a packet; a thread's next action,
where `ok` is the answer of `PostQueuedCompletionStatus`; `GetQueuedCompletionStatus` returns a
packet, or none of an operation, with which `do_one` goes back to its top or returns. -/
inductive FallbackEvent (ι τ : Type)
  | postDeferredCompletion (t : τ) (op : ι)
  | onCompletion (t : τ) (op : ι) (ec : ErrorCode) (n : ℕ)
  | onPending (t : τ) (op : ι)
  | doOne (t : τ)
  | arrive (op : ι) (lastError : ℤ) (n : ℕ)
  | go (t : τ) (ok : Bool)
  | dequeue (t : τ) (k : ℕ)
  | retry (t : τ)
  | leave (t : τ)
  deriving DecidableEq, Repr

namespace Fallback

variable {ι τ : Type} [DecidableEq ι] [DecidableEq τ]

/-- Move one thread. -/
def setThread (s : Fallback ι τ) (t : τ) (pc : FallbackPc ι) : Fallback ι τ :=
  { s with threads := Function.update s.threads t pc }

/-- Write one operation. -/
def setOp (s : Fallback ι τ) (i : ι) (op : Operation) : Fallback ι τ :=
  { s with ops := Function.update s.ops i op }

/-- `EnterCriticalSection`, when the section is free or the thread's own. -/
def enter (lock : Option (τ × ℕ)) (t : τ) : Option (τ × ℕ) :=
  match lock with
  | none => some (t, 1)
  | some (u, d) => if u = t then some (u, d + 1) else none

/-- `LeaveCriticalSection`. -/
def release : Option (τ × ℕ) → Option (τ × ℕ)
  | some (t, d + 2) => some (t, d + 1)
  | _ => none

/-- The call of a function by a thread that is free. -/
def call (s : Fallback ι τ) (t : τ) (pc : FallbackPc ι) : Option (Fallback ι τ) :=
  if s.threads t = .idle then some { s.setThread t pc with handed := s.handed ++ pc.hands }
  else none

/-- The next action of a thread. -/
def go (s : Fallback ι τ) (t : τ) (ok : Bool) : Option (Fallback ι τ) :=
  match s.threads t with
  | .idle | .waiting => none
  | .flagging i poster => some ((s.setOp i (s.ops i).flag).setThread t (.posting i poster))
  | .failing i ec n => some ((s.setOp i (s.ops i).flag).setThread t (.storing i ec n))
  | .storing i ec n => some ((s.setOp i ((s.ops i).store ec n)).setThread t (.posting i .single))
  | .pending i =>
    -- `InterlockedCompareExchange(&op->ready_, 1, 0)`
    if (s.ops i).ready then
      some { s.setThread t (.posting i .single) with handed := s.handed ++ [i] }
    else some ((s.setOp i (s.ops i).flag).setThread t .idle)
  | .posting i poster =>
    if ok then some { s.setThread t poster.posted with port := s.port ++ [.posted i] }
    else some (s.setThread t (.locking i poster))
  | .locking i poster =>
    (enter s.lock t).map fun lock ↦ { s.setThread t (.pushing i poster) with lock := some lock }
  | .pushing i poster =>
    some { s.setThread t poster.pushed with completedOps := s.completedOps ++ [i] }
  | .restoring (i :: ops) =>
    some { s.setThread t (.restoring ops) with completedOps := s.completedOps ++ [i] }
  | .restoring [] => some (s.setThread t (.setting true))
  | .setting nested => some { s.setThread t (.unlocking nested) with dispatchRequired := 1 }
  | .unlocking nested =>
    some { s.setThread t (if nested then .dispatching [] else .idle) with lock := release s.lock }
  | .top =>
    -- `InterlockedCompareExchange(&dispatch_required_, 0, 1)`
    if s.dispatchRequired = 1 then some { s.setThread t .claimed with dispatchRequired := 0 }
    else some (s.setThread t .waiting)
  | .claimed => (enter s.lock t).map fun lock ↦ { s.setThread t .copying with lock := some lock }
  | .copying => some (s.setThread t (.clearing s.completedOps))
  | .clearing ops => some { s.setThread t (.dispatching ops) with completedOps := [] }
  | .dispatching (i :: ops) => some (s.setThread t (.flagging i (.drain ops)))
  | .dispatching [] => some { s.setThread t .waiting with lock := release s.lock }
  | .got (.posted i) => some (s.setThread t (.recorded i))
  | .got (.kernel i e n) =>
    some ((s.setOp i ((s.ops i).store (.system e) n)).setThread t (.recorded i))
  | .recorded i =>
    -- `InterlockedCompareExchange(&op->ready_, 1, 0)`; an operation that is ready is completed
    if (s.ops i).ready then some (s.setThread t .idle)
    else some ((s.setOp i (s.ops i).flag).setThread t .top)

/-- `GetQueuedCompletionStatus` returns a packet. -/
def dequeue (s : Fallback ι τ) (t : τ) (k : ℕ) : Option (Fallback ι τ) :=
  match s.threads t, s.port[k]? with
  | .waiting, some p => some { s.setThread t (.got p) with
      port := s.port.eraseIdx k
      dequeued := match p with
        | .posted i => s.dequeued ++ [i]
        | .kernel _ _ _ => s.dequeued }
  | _, _ => none

/-- `GetQueuedCompletionStatus` returns no operation. -/
def wake (s : Fallback ι τ) (t : τ) (pc : FallbackPc ι) : Option (Fallback ι τ) :=
  if s.threads t = .waiting then some (s.setThread t pc) else none

/-- The transitions of the fallback path; `none` where a step cannot be taken. -/
def step (s : Fallback ι τ) : FallbackEvent ι τ → Option (Fallback ι τ)
  | .postDeferredCompletion t i => s.call t (.flagging i .single)
  | .onCompletion t i ec n => s.call t (.failing i ec n)
  | .onPending t i => s.call t (.pending i)
  | .doOne t => s.call t .top
  | .arrive i e n => some { s with port := s.port ++ [.kernel i e n] }
  | .go t ok => s.go t ok
  | .dequeue t k => s.dequeue t k
  | .retry t => s.wake t .top
  | .leave t => s.wake t .idle

/-- A new service. -/
def start (ops : ι → Operation) (dispatchRequired : ℤ) : Fallback ι τ where
  ops := ops
  port := []
  completedOps := []
  dispatchRequired := dispatchRequired
  lock := none
  threads := fun _ ↦ .idle
  handed := []
  dequeued := []

/-- The operation is at one place and there once: in the port, in `completed_ops_` or in the hands
of one thread. -/
def AtOnePlace (s : Fallback ι τ) (i : ι) : Prop :=
  (s.port.count (.posted i) = 1 ∧ i ∉ s.completedOps ∧ ∀ t, i ∉ (s.threads t).hands) ∨
    (.posted i ∉ s.port ∧ s.completedOps.count i = 1 ∧ ∀ t, i ∉ (s.threads t).hands) ∨
    (.posted i ∉ s.port ∧ i ∉ s.completedOps ∧
      ∃ t, (s.threads t).hands.count i = 1 ∧ ∀ u, i ∈ (s.threads u).hands → u = t)

/-- How often the operation is not in a thread's hands: dequeued, in the port, in
`completed_ops_`. -/
def elsewhere (s : Fallback ι τ) (i : ι) : ℕ :=
  s.dequeued.count i + s.port.count (.posted i) + s.completedOps.count i

/-- **What the list promises.** As often as an operation was handed over and not dequeued, it is in
the port, in `completed_ops_` or in a thread's hands; once means at one place; and when
`completed_ops_` has entries and its lock is free, `dispatch_required_` is set or a thread has
claimed it and is about to drain the list. -/
structure Lossless [Fintype τ] (s : Fallback ι τ) : Prop where
  accounted : ∀ i, s.handed.count i =
    s.dequeued.count i + s.port.count (.posted i) + s.completedOps.count i +
      tally (fun pc ↦ pc.hands.count i) s.threads
  onePlace : ∀ i, s.handed.count i = s.dequeued.count i + 1 → s.AtOnePlace i
  woken : s.completedOps ≠ [] → s.lock = none →
    s.dispatchRequired = 1 ∨ ∃ t, s.threads t = .claimed

end Fallback

end JnetLib.Iocp
