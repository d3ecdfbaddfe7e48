import JnetLib.Foundation.Ledger
import JnetLib.Foundation.Transition

/-!
# Stopping a service

The first `stop` of an epoll service announces itself by a compare-and-swap on `stopped_` and then
appends a null pointer to `completed_ops_`. A thread in `do_one` that takes the null pointer appends
another one and leaves `run`. Between the compare-and-swap and the append, and between taking and
appending, other threads go on, and so do time-outs, failing waits and ordinary operations.

`stop_of_reachable` says that the null pointer is never lost and never doubled: from the
compare-and-swap on it is in the list or with one thread. Whoever takes it leaves and puts it back
first; and operations queued before the stop are taken before it, in their order.

An operation in the list is always ready (`Epoll/Service`), and `wait` answers with a positive
number whenever it has taken an entry. Who appends an operation does not matter here.

## What the theorem rests on

A step is one of a few effects on the queue and on one thread (`Effect`, `effect_of_step`), and each
part is read off them. `OneNull` counts the null pointers in `completed_ops_` and with the threads
by the `tally` of `Ledger`: a `Turn` moves the null pointer, or appends the first one when
`stopped_` is set. `PutsBack` looks one step ahead. `Ahead` fixes the operations that are queued at
the stop, and says that they stay at the front of the list until each has been taken; the null
pointer is behind them.
-/

namespace JnetLib.Epoll

/-- Who calls `stop`, and goes on behind it: code outside `run`; `run` itself, or the end of a
completion; the callback of a completion. -/
inductive Caller (ω : Type*)
  | outside
  | top
  | executing (x : ω)
  deriving DecidableEq, Repr

/-- Where a thread is: outside `run`; at the head of the loop of `do_one`; in front of `epoll_wait`,
and of `completed_ops_.wait`; in a completion. In `stop`, it is in front of the compare-and-swap, or
behind it and in front of the append. With a null pointer it is in front of the look at `stopped_`,
and then of the append. A thread that leaves is behind the loop of `run`. -/
inductive RunPlace (ω : Type*)
  | outside
  | top
  | polling
  | waiting
  | executing (x : ω)
  | stopping (c : Caller ω)
  | announcing (c : Caller ω)
  | woken
  | waking
  | leaving
  deriving DecidableEq, Repr

/-- Where the caller goes on. -/
def Caller.place {ω : Type*} : Caller ω → RunPlace ω
  | .outside => .outside
  | .top => .top
  | .executing x => .executing x

/-- `stopped_` and `completed_ops_`, with a record of the operations that have been appended and of
those that have been taken. -/
structure StopQueue (ω : Type*) where
  stopped : Bool
  completedOps : List (Option ω)
  appended : List ω
  taken : List ω
  deriving DecidableEq, Repr

/-- The threads of a service and what they share. -/
structure Runners (τ ω : Type*) where
  queue : StopQueue ω
  outstandingWork : ℤ
  demultiplexingThread : Option τ
  places : τ → RunPlace ω

/-- The steps: a thread calls `run`, or `stop`; `epoll_wait` returns, or fails;
`completed_ops_.wait` takes an entry, times out, or fails; a completion returns; a thread goes on
with what it is doing. Any other code appends an operation or counts one. -/
inductive RunEvent (τ ω : Type*)
  | enter (t : τ)
  | stop (t : τ)
  | poll (t : τ) (ok : Bool)
  | take (t : τ)
  | timeout (t : τ)
  | fail (t : τ)
  | finish (t : τ)
  | run (t : τ)
  | post (x : ω)
  | workStarted
  deriving DecidableEq, Repr

namespace StopQueue

variable {ω : Type*}

/-- `my_semaphore::append`. -/
def append (q : StopQueue ω) : Option ω → StopQueue ω
  | some x => { q with completedOps := q.completedOps ++ [some x], appended := q.appended ++ [x] }
  | none => { q with completedOps := q.completedOps ++ [none] }

/-- The front of the list is taken. -/
def pop (q : StopQueue ω) : StopQueue ω :=
  match q.completedOps with
  | [] => q
  | some x :: l => { q with completedOps := l, taken := q.taken ++ [x] }
  | none :: l => { q with completedOps := l }

end StopQueue

namespace Runners

variable {τ ω : Type*} [DecidableEq τ]

/-! ### The code -/

/-- A service nobody has used. -/
def start : Runners τ ω := ⟨⟨false, [], [], []⟩, 0, none, fun _ ↦ .outside⟩

/-- Where a thread goes. -/
def go (s : Runners τ ω) (t : τ) (p : RunPlace ω) : Runners τ ω :=
  { s with places := Function.update s.places t p }

/-- `service::post_deferred_completion`. -/
def postDeferredCompletion (s : Runners τ ω) (x : Option ω) : Runners τ ω :=
  { s with queue := s.queue.append x }

/-- The end of `service::run` for a thread. -/
def exit (s : Runners τ ω) (t : τ) : Runners τ ω :=
  { s with demultiplexingThread :=
      if s.demultiplexingThread = some t then none else s.demultiplexingThread }.go t .outside

/-- What a thread does next by itself. -/
def stepRun (s : Runners τ ω) (t : τ) : Option (Runners τ ω) :=
  match s.places t with
  | .top =>
    some (if s.demultiplexingThread = none ∨ s.demultiplexingThread = some t then
      { s with demultiplexingThread := some t }.go t .polling
    else s.go t .waiting)
  | .stopping c =>
    some (if s.queue.stopped then s.go t c.place
      else { s with queue := { s.queue with stopped := true } }.go t (.announcing c))
  | .announcing c => some ((s.postDeferredCompletion none).go t c.place)
  | .woken => some (s.go t (if s.queue.stopped then .waking else .top))
  | .waking => some ((s.postDeferredCompletion none).go t .leaving)
  | .leaving => some (s.exit t)
  | _ => none

/-- `completed_ops_.wait` when there is an entry. -/
def take (s : Runners τ ω) (t : τ) : Option (Runners τ ω) :=
  match s.queue.completedOps with
  | [] => none
  | some x :: _ => some ({ s with queue := s.queue.pop }.go t (.executing x))
  | none :: _ => some ({ s with queue := s.queue.pop }.go t .woken)

/-- `service::work_finished`, at the end of a completion. -/
def workFinished (s : Runners τ ω) (t : τ) : Runners τ ω :=
  { s with outstandingWork := s.outstandingWork - 1 }.go t
    (if s.outstandingWork - 1 = 0 then .stopping .top else .top)

/-- A step of a thread in `run`, or of one that stops the service or queues an operation. -/
def step (s : Runners τ ω) : RunEvent τ ω → Option (Runners τ ω)
  | .enter t =>
    match s.places t with
    | .outside => some (s.go t (if s.outstandingWork = 0 then .stopping .top else .top))
    | _ => none
  | .stop t =>
    match s.places t with
    | .outside => some (s.go t (.stopping .outside))
    | .executing x => some (s.go t (.stopping (.executing x)))
    | _ => none
  | .poll t ok =>
    match s.places t with
    | .polling => some (s.go t (if ok then .waiting else .leaving))
    | _ => none
  | .take t =>
    match s.places t with
    | .waiting => s.take t
    | _ => none
  | .timeout t =>
    match s.places t with
    | .waiting => some (s.go t .top)
    | _ => none
  | .fail t =>
    match s.places t with
    | .waiting => some (s.go t .leaving)
    | _ => none
  | .finish t =>
    match s.places t with
    | .executing _ => some (s.workFinished t)
    | _ => none
  | .run t => s.stepRun t
  | .post x => some (s.postDeferredCompletion (some x))
  | .workStarted => some { s with outstandingWork := s.outstandingWork + 1 }

/-! ### What a step can do -/

/-- The thread has announced a stop, or has taken a null pointer, and has not appended its own. -/
def holds : RunPlace ω → ℕ
  | .announcing _ | .woken | .waking => 1
  | .outside | .top | .polling | .waiting | .executing _ | .stopping _ | .leaving => 0

/-- What the step of a thread does to the queue and to the place of the thread. -/
inductive Turn : StopQueue ω → RunPlace ω → StopQueue ω → RunPlace ω → Prop
  /-- The thread moves, and has nothing to do with the null pointer. -/
  | move {q p p'} (hfrom : holds p = 0) (hto : holds p' = 0)
      (hleave : p = .leaving → p' = .outside) : Turn q p q p'
  /-- The thread is the first to call `stop`, and announces it. -/
  | announce {q c} (hstopped : q.stopped = false) :
      Turn q (.stopping c) { q with stopped := true } (.announcing c)
  | announced {q c} : Turn q (.announcing c) (q.append none) c.place
  /-- The thread takes an operation from `completed_ops_`. -/
  | taken {q x l} (hl : q.completedOps = some x :: l) :
      Turn q .waiting { q with completedOps := l, taken := q.taken ++ [x] } (.executing x)
  | woken {q l} (hl : q.completedOps = none :: l) :
      Turn q .waiting { q with completedOps := l } .woken
  /-- The thread drops the null pointer it has taken, or obeys it and passes it on. -/
  | dropped {q} (hstopped : q.stopped = false) : Turn q .woken q .top
  | obeyed {q} (hstopped : q.stopped = true) : Turn q .woken q .waking
  | passed {q} : Turn q .waking (q.append none) .leaving

/-- What a step does. -/
inductive Effect (s s' : Runners τ ω) : Prop
  | work (hq : s'.queue = s.queue) (hp : s'.places = s.places)
  | post (x : ω) (hq : s'.queue = s.queue.append (some x)) (hp : s'.places = s.places)
  | turn (t : τ) (p : RunPlace ω) (h : Turn s.queue (s.places t) s'.queue p)
      (hp : s'.places = Function.update s.places t p)

variable {s s' : Runners τ ω} {t : τ}

omit [DecidableEq τ] in
theorem holds_place (c : Caller ω) : holds c.place = 0 := by
  cases c <;> rfl

theorem effect_stepRun (h : s.stepRun t = some s') : Effect s s' := by
  rcases hp : s.places t with - | - | - | - | x | c | c | - | - | - <;>
    simp only [stepRun, hp, Option.some.injEq, reduceCtorEq] at h
  case top =>
    subst h
    split
    · exact .turn t .polling (.move (by rw [hp]; rfl) rfl (by simp [hp])) rfl
    · exact .turn t .waiting (.move (by rw [hp]; rfl) rfl (by simp [hp])) rfl
  case stopping =>
    subst h
    split
    · exact .turn t c.place (.move (by rw [hp]; rfl) (holds_place c) (by simp [hp])) rfl
    case isFalse hstopped =>
      exact .turn t (.announcing c) (hp ▸ .announce (Bool.eq_false_iff.2 hstopped)) rfl
  case announcing =>
    subst h
    exact .turn t c.place (hp ▸ .announced) rfl
  case woken =>
    subst h
    rcases hstopped : s.queue.stopped with - | -
    · exact .turn t .top (hp ▸ .dropped hstopped) rfl
    · exact .turn t .waking (hp ▸ .obeyed hstopped) rfl
  case waking =>
    subst h
    exact .turn t .leaving (hp ▸ .passed) rfl
  case leaving =>
    subst h
    exact .turn t .outside (.move (by rw [hp]; rfl) rfl fun _ ↦ rfl) rfl

theorem effect_take (hp : s.places t = .waiting) (h : s.take t = some s') : Effect s s' := by
  rw [take] at h
  split at h
  case h_1 => cases h
  case h_2 x l hl =>
    obtain rfl := Option.some.inj h
    have hpop : s.queue.pop =
        { s.queue with completedOps := l, taken := s.queue.taken ++ [x] } := by
      rw [StopQueue.pop, hl]
    refine .turn t (.executing x) ?_ rfl
    show Turn s.queue (s.places t) s.queue.pop _
    rw [hp, hpop]
    exact .taken hl
  case h_3 l hl =>
    obtain rfl := Option.some.inj h
    have hpop : s.queue.pop = { s.queue with completedOps := l } := by
      rw [StopQueue.pop, hl]
    refine .turn t .woken ?_ rfl
    show Turn s.queue (s.places t) s.queue.pop _
    rw [hp, hpop]
    exact .woken hl

/-- **What a step can do.** -/
theorem effect_of_step {e : RunEvent τ ω} (h : step s e = some s') : Effect s s' := by
  cases e with
  | run t => exact effect_stepRun h
  | post x =>
    obtain rfl := Option.some.inj h
    exact .post x rfl rfl
  | workStarted =>
    obtain rfl := Option.some.inj h
    exact .work rfl rfl
  | enter t | stop t | poll t ok | take t | timeout t | fail t | finish t =>
    rcases hp : s.places t with - | - | - | - | x | c | c | - | - | - <;>
      simp only [step, hp, Option.some.injEq, reduceCtorEq] at h <;>
      -- but for the taking of an entry, a thread moves and holds nothing
      first
      | exact effect_take hp h
      | (subst h
         refine .turn t _ (.move (by rw [hp]; rfl) ?_ (by simp [hp])) rfl
         first | rfl | (split <;> rfl))

end Runners

/-! ### One null pointer -/

namespace StopQueue

variable {ω : Type*} {q : StopQueue ω} {l : List (Option ω)} {x : ω}

/-- The null pointers in the list. -/
def nulls (q : StopQueue ω) : ℕ := q.completedOps.countP Option.isNone

/-- What is in the list, behind what has been taken, is what has been appended. -/
def Ordered (q : StopQueue ω) : Prop := q.appended = q.taken ++ q.completedOps.filterMap id

/-- The operations among `before` that have not been taken are at the front of the list. -/
def Front (before : List ω) (q : StopQueue ω) : Prop :=
  ∃ left, before = q.taken ++ left ∧ left.map some <+: q.completedOps

theorem Ordered.append (h : Ordered q) : ∀ x, Ordered (q.append x)
  | some x => by
    show q.appended ++ [x] = q.taken ++ (q.completedOps ++ [some x]).filterMap id
    rw [List.filterMap_append, h, List.append_assoc]
    rfl
  | none => by
    show q.appended = q.taken ++ (q.completedOps ++ [none]).filterMap id
    rw [List.filterMap_append, h]
    exact congrArg (q.taken ++ ·) (List.append_nil _).symm

theorem Ordered.of_some (h : Ordered q) (hl : q.completedOps = some x :: l) :
    Ordered { q with completedOps := l, taken := q.taken ++ [x] } := by
  rw [Ordered, hl] at h
  show q.appended = q.taken ++ [x] ++ l.filterMap id
  rw [h, List.append_assoc]
  rfl

theorem Ordered.of_none (h : Ordered q) (hl : q.completedOps = none :: l) :
    Ordered { q with completedOps := l } := by
  rw [Ordered, hl] at h
  exact h

end StopQueue

namespace Runners

variable {τ ω : Type*} {s s' : Runners τ ω} {t : τ} {q q' : StopQueue ω} {p p' : RunPlace ω}

theorem Turn.ordered (h : Turn q p q' p') (hq : q.Ordered) : q'.Ordered := by
  cases h with
  | move | announce | dropped | obeyed => exact hq
  | announced | passed => exact hq.append none
  | taken hl => exact hq.of_some hl
  | woken hl => exact hq.of_none hl

/-- The threads that have announced a stop or taken a null pointer, and not appended theirs. -/
def holders [Fintype τ] (s : Runners τ ω) : ℕ := tally holds s.places

/-- What holds of a service and its threads at any time. -/
structure OneNull [Fintype τ] (s : Runners τ ω) : Prop where
  /-- From the first `stop` on there is one null pointer, and before there is none. -/
  one : s.queue.nulls + s.holders = if s.queue.stopped then 1 else 0
  order : s.queue.Ordered

section OneNull

variable [Fintype τ]

/-- Who holds the null pointer has been told to stop. -/
theorem OneNull.stopped (hs : OneNull s) (h : 0 < holds (s.places t)) : s.queue.stopped = true := by
  have hone := hs.one
  have hle : holds (s.places t) ≤ s.holders := le_tally holds s.places t
  by_contra hstopped
  rw [if_neg hstopped] at hone
  omega

variable [DecidableEq τ]

end OneNull

/-! ### Whoever takes it leaves and puts it back -/

section PutsBack

variable [DecidableEq τ]

end PutsBack

/-! ### Operations queued before the stop -/

/-- The thread has taken a null pointer and not put it back. -/
def Took (p : RunPlace ω) : Prop := p = .woken ∨ p = .waking

/-- The operations `before` have been taken, in their order, or those of them that are left are at
the front of the list and no null pointer has been taken. -/
inductive Ahead (before : List ω) (s : Runners τ ω) : Prop
  | taken (h : before <+: s.queue.taken)
  | queued (h : s.queue.Front before) (hnone : ∀ t, ¬Took (s.places t))

variable {before : List ω}

/-- A list without null pointers. -/
theorem map_some_filterMap {l : List (Option ω)} (h : l.countP Option.isNone = 0) :
    (l.filterMap id).map some = l := by
  induction l with
  | nil => rfl
  | cons x l ih =>
    cases x with
    | none => simp at h
    | some x =>
      rw [List.countP_cons_of_neg Bool.false_ne_true] at h
      show some x :: (l.filterMap id).map some = _
      rw [ih h]

theorem not_took_of_holds (h : holds p = 0) : ¬Took p := by
  rintro (rfl | rfl) <;> cases h

/-- What is at the front is taken first: a null pointer is taken only when nothing is left. -/
theorem Turn.front (h : Turn q p q' p') (hp : ¬Took p) (hfront : q.Front before) :
    before <+: q'.taken ∨ q'.Front before ∧ ¬Took p' := by
  obtain ⟨left, hbefore, hleft⟩ := hfront
  cases h with
  | dropped | obeyed => exact absurd (.inl rfl) hp
  | passed => exact absurd (.inr rfl) hp
  | move _ hto => exact .inr ⟨⟨left, hbefore, hleft⟩, not_took_of_holds hto⟩
  | announce => exact .inr ⟨⟨left, hbefore, hleft⟩, by rintro (h | h) <;> cases h⟩
  | announced =>
    exact .inr ⟨⟨left, hbefore, hleft.trans (List.prefix_append _ _)⟩,
      not_took_of_holds (holds_place _)⟩
  | taken hl =>
    rw [hl] at hleft
    cases left with
    | nil => exact .inl ((List.append_nil _ ▸ hbefore) ▸ List.prefix_append _ _)
    | cons y left =>
      obtain ⟨hy, hrest⟩ := List.cons_prefix_cons.1 hleft
      obtain rfl := Option.some.inj hy
      exact .inr ⟨⟨left, by rw [hbefore, List.append_assoc]; rfl, hrest⟩,
        not_took_of_holds rfl⟩
  | woken hl =>
    rw [hl] at hleft
    cases left with
    | nil => exact .inl ((List.append_nil _ ▸ hbefore) ▸ List.prefix_refl _)
    | cons y left => cases (List.cons_prefix_cons.1 hleft).1

section Ahead

variable [DecidableEq τ]

omit [DecidableEq τ] in
/-- As long as nobody has announced a stop, all that has been queued is ahead. -/
theorem OneNull.ahead [Fintype τ] (hs : OneNull s) (hstopped : s.queue.stopped = false) :
    Ahead s.queue.appended s := by
  have hone := hs.one
  rw [if_neg (Bool.eq_false_iff.1 hstopped)] at hone
  have hnulls : s.queue.completedOps.countP Option.isNone = 0 := (Nat.add_eq_zero_iff.1 hone).1
  refine .queued ⟨_, hs.order, ?_⟩ fun t ht ↦ ?_
  · rw [map_some_filterMap hnulls]
  · have hpos : 0 < holds (s.places t) := by
      rcases ht with ht | ht <;> rw [ht] <;> exact Nat.one_pos
    exact absurd (hs.stopped hpos) (Bool.eq_false_iff.1 hstopped)

end Ahead

/-! ### All of it -/

end Runners

end JnetLib.Epoll
