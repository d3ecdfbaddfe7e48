import JnetLib.Foundation.Transition
import JnetLib.Worker.Links

/-!
# The loop of a worker thread

Files on epoll and the resolver hand their work to one worker thread each, through a chain of
entries, a mutex and an auto-reset event. `file_ops` and `resolver` have the same `push`, the same
`pop` and the same loop around them; what the loop does with an entry between taking and deleting it
is where they differ, and stands here as one step.

Each step is one a thread can be interrupted after: taking the mutex, the assignments made under it,
setting the event, releasing the mutex, and the worker's wait, its look at the `next` field of the
entry it took and the rest of its loop. The threads that push are arbitrary; the run has no `stop`.

`Sound` is what the queue promises. That it keeps this is shown in `Queue`.
-/

namespace JnetLib.Worker

/-- Where a thread is in `push`; in front of the assignments it still has an entry of its own. -/
inductive PushPc (ε : Type)
  | idle
  | locking (entry : ε)
  | linking (entry : ε)
  | signalling
  | unlocking
  deriving DecidableEq, Repr

/-- Where the worker is in its loop. `unlocking` is the end of `pop`, with what it returns. -/
inductive WorkerPc (ε : Type)
  | waiting
  | locking
  | popping
  | unlocking (entry : Option ε)
  | testing (entry : ε)
  | signalling (entry : ε)
  | handling (entry : ε)
  | deleting (entry : ε)
  deriving DecidableEq, Repr

/-- Who holds the mutex. -/
inductive Owner (τ : Type)
  | pusher (t : τ)
  | worker
  deriving DecidableEq, Repr

/-- The entry a thread has not put into the chain yet. -/
def PushPc.own {ε : Type} : PushPc ε → Option ε
  | .locking entry | .linking entry => some entry
  | _ => none

/-- The thread is inside the lock. -/
def PushPc.Holds {ε : Type} : PushPc ε → Prop
  | .linking _ | .signalling | .unlocking => True
  | _ => False

namespace WorkerPc

variable {ε : Type}

/-- The worker is inside the lock. -/
def Holds : WorkerPc ε → Prop
  | .popping | .unlocking _ => True
  | _ => False

/-- The entry the worker took and has not deleted yet. -/
def held : WorkerPc ε → List ε
  | .unlocking (some entry) | .testing entry | .signalling entry | .handling entry
  | .deleting entry => [entry]
  | _ => []

/-- The entry the worker took and has not handled yet. -/
def hand : WorkerPc ε → List ε
  | .unlocking (some entry) | .testing entry | .signalling entry | .handling entry => [entry]
  | _ => []

/-- The worker goes to the wait without setting the event itself. -/
def Returns (next : ε → Option ε) : WorkerPc ε → Prop
  | .waiting | .unlocking none | .handling _ | .deleting _ => True
  | .unlocking (some entry) | .testing entry => next entry = none
  | _ => False

/-- How many steps the worker is away from having handled the entries `l` behind the one it has. -/
def distance (l : List ε) : WorkerPc ε → ℕ
  | .popping => 10 * l.length + 1
  | .locking => 10 * l.length + 2
  | .waiting => 10 * l.length + 3
  | .unlocking none | .deleting _ => 10 * l.length + 4
  | .handling _ => 10 * l.length + 5
  | .signalling _ => 10 * l.length + 6
  | .testing _ => 10 * l.length + 7
  | .unlocking (some _) => 10 * l.length + 8

/-- Whether the worker goes to the wait depends on the entry it holds only. -/
theorem Returns.congr {next next' : ε → Option ε} {w : WorkerPc ε} (h : w.Returns next)
    (hnext : ∀ e ∈ w.held, next e = next' e) : w.Returns next' := by
  rcases w with _ | _ | _ | (_ | e) | e | e | e | e
  case unlocking.some => exact (hnext e (List.mem_singleton_self e)).symm.trans h
  case testing => exact (hnext e (List.mem_singleton_self e)).symm.trans h
  all_goals exact h

end WorkerPc

/-- The chain, the mutex, the event, the threads, the entries in memory, and which entries were put
into the chain and which were handled so far. -/
structure Queue (τ ε : Type) where
  links : Links ε
  lock : Option (Owner τ)
  signaled : Bool
  pushers : τ → PushPc ε
  worker : WorkerPc ε
  allocated : Finset ε
  pushed : List ε
  handled : List ε

/-- A step: a thread makes an entry and calls `push`; a thread goes on in `push`; the worker goes on
in its loop. -/
inductive QueueEvent (τ ε : Type)
  | call (t : τ) (entry : ε)
  | push (t : τ)
  | work
  deriving DecidableEq, Repr

namespace Queue

variable {τ ε : Type} [DecidableEq τ] [DecidableEq ε]

/-- Move one of the threads that push. -/
def setPusher (s : Queue τ ε) (t : τ) (pc : PushPc ε) : Queue τ ε :=
  { s with pushers := Function.update s.pushers t pc }

/-- The next step of a thread in `push`. -/
def pushStep (s : Queue τ ε) (t : τ) : Option (Queue τ ε) :=
  match s.pushers t with
  | .idle => none
  | .locking entry =>
    match s.lock with
    | none => some { s.setPusher t (.linking entry) with lock := some (.pusher t) }
    | some _ => none
  | .linking entry =>
    some { s.setPusher t .signalling with
      links := s.links.push entry, pushed := s.pushed ++ [entry] }
  | .signalling => some { s.setPusher t .unlocking with signaled := true }
  | .unlocking => some { s.setPusher t .idle with lock := none }

/-- The next step of the worker. The auto-reset event is reset as the wait returns. -/
def workStep (s : Queue τ ε) : Option (Queue τ ε) :=
  match s.worker with
  | .waiting => if s.signaled then some { s with worker := .locking, signaled := false } else none
  | .locking =>
    match s.lock with
    | none => some { s with worker := .popping, lock := some .worker }
    | some _ => none
  | .popping => some { s with worker := .unlocking s.links.pop.1, links := s.links.pop.2 }
  | .unlocking none => some { s with worker := .waiting, lock := none }
  | .unlocking (some entry) => some { s with worker := .testing entry, lock := none }
  | .testing entry =>
    match s.links.next entry with
    | some _ => some { s with worker := .signalling entry }
    | none => some { s with worker := .handling entry }
  | .signalling entry => some { s with worker := .handling entry, signaled := true }
  | .handling entry => some { s with worker := .deleting entry, handled := s.handled ++ [entry] }
  | .deleting entry => some { s with worker := .waiting, allocated := s.allocated.erase entry }

/-- The transitions of the queue; `none` where a step cannot be taken. A new entry is one that is
not in memory, and its `next` is null. -/
def step (s : Queue τ ε) : QueueEvent τ ε → Option (Queue τ ε)
  | .call t entry =>
    match s.pushers t with
    | .idle =>
      if entry ∈ s.allocated then none
      else
        some { s.setPusher t (.locking entry) with
          allocated := insert entry s.allocated
          links := { s.links with next := Function.update s.links.next entry none } }
    | _ => none
  | .push t => s.pushStep t
  | .work => s.workStep

/-- The empty queue, with the worker at the wait. -/
def start (next : ε → Option ε) : Queue τ ε where
  links := ⟨none, none, next⟩
  lock := none
  signaled := false
  pushers := fun _ ↦ .idle
  worker := .waiting
  allocated := ∅
  pushed := []
  handled := []

/-- **What the queue promises.** `head_` and `tail_` delimit the chain of the entries still queued,
and what was pushed is what was handled, what the worker has in hand and that chain, in this order;
at the wait, with no `push` in progress, the event is set if the queue is not empty; and the worker
alone then handles all that was pushed. -/
structure Sound (s : Queue τ ε) : Prop where
  chain : ∃ l, s.links.Delimits l ∧ s.pushed = s.handled ++ s.worker.hand ++ l
  woken : s.worker = .waiting → (∀ t, s.pushers t = .idle) → s.links.head ≠ none →
    s.signaled = true
  drains : (∀ t, s.pushers t = .idle) →
    ∃ n s', Transition.run step s (List.replicate n .work) = some s' ∧ s'.handled = s.pushed

end Queue

end JnetLib.Worker
