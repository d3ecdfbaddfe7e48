import JnetLib.Foundation.Interleaving

/-!
# Fibers over several service threads

A blocking call of a fiber socket or acceptor starts the asynchronous operation and yields; its
callback stores the result in the object and switches back to the fiber. A callback that comes while
the fiber is still running finds `invoker_` taken, and posts itself again.

Every object has one fiber, which is told apart by its object here; it is invoked once, by its
constructor or by `invoke`. What executes is a *context*: the base of a thread, which runs the
service loop, or a fiber. A thread executes one context at a time, and `switch_fiber` saves it and
goes on with another in one step. Every other read or write of a shared field is a step of its own,
of whichever thread comes next.

`Sound` is what the scheduler promises in every state, and `Proceeds` what it promises for the steps
to come. That both hold in every run is `scheduled_of_run`, at the end of `Fiber/Scheduler`.
-/

namespace JnetLib.Fiber

/-- What executes: the base of a thread, or the fiber of an object. -/
inductive Ctx (τ φ : Type)
  | base (t : τ)
  | fiber (f : φ)
  deriving DecidableEq, Repr

/-- Where a context is. Up to `reposting` it is in `on_sent`, `on_received`, `on_accepted`,
`on_post` or `invoke`, and in `scheduler::zwitch` below; from `fresh` on it is the life of a fiber
outside of these. -/
inductive Pc (φ ρ : Type)
  | idle
  | storing (f : φ) (r : ρ)
  | switching (f : φ) (repost : Bool)
  | entering (f : φ)
  | switched (f : φ)
  | returned (f : φ)
  | clearing (f : φ)
  | freeing (f : φ)
  | reposting (f : φ)
  | fresh
  | yielding
  | parked
  | reading
  | exiting
  | gone
  deriving DecidableEq, Repr

namespace Pc

variable {φ ρ : Type}

/-- Where a context goes on when it is switched to. -/
def resume : Pc φ ρ → Pc φ ρ
  | fresh => idle
  | parked => reading
  | switched f => returned f
  | pc => pc

/-- The fiber the context is about to switch to, or to post for. -/
def carries : Pc φ ρ → Option φ
  | storing f _ | switching f _ | entering f | reposting f => some f
  | _ => none

/-- The fiber whose `invoker_` the context is. -/
def holds : Pc φ ρ → Option φ
  | entering f | switched f | returned f | clearing f | freeing f => some f
  | _ => none

/-- The context has begun and is neither parked nor at its end. -/
def inRun : Pc φ ρ → Bool
  | fresh | parked | gone => false
  | _ => true

/-- The context is being executed. -/
def active : Pc φ ρ → Bool
  | fresh | parked | gone | switched _ => false
  | _ => true

/-- The context is neither at the beginning or the end of a fiber nor in a blocking call. -/
def plain : Pc φ ρ → Bool
  | fresh | yielding | parked | reading | exiting | gone => false
  | _ => true

/-- The fiber is in a blocking call: it has yet to be switched to, or to read the result. -/
def inCall : Pc φ ρ → Bool
  | yielding | parked | reading => true
  | _ => false

theorem of_plain {pc : Pc φ ρ} (h : pc.plain = true) :
    pc ≠ fresh ∧ pc ≠ gone ∧ pc ≠ exiting ∧ pc ≠ reading ∧ pc.inCall = false := by
  cases pc <;> simp [plain, inCall] at h ⊢

/-- What the life of a fiber depends on is the same at all plain places. -/
theorem kind_of_plain {p q : Pc φ ρ} (h : p = q ∨ p.plain = true ∧ q.plain = true) :
    (p = fresh ↔ q = fresh) ∧ (p = gone ↔ q = gone) ∧ (p = exiting ↔ q = exiting) ∧
      (p = reading ↔ q = reading) ∧ p.inCall = q.inCall := by
  rcases h with rfl | ⟨hp, hq⟩
  · simp
  · obtain ⟨a1, a2, a3, a4, a5⟩ := of_plain hp
    obtain ⟨b1, b2, b3, b4, b5⟩ := of_plain hq
    simp [a1, a2, a3, a4, a5, b1, b2, b3, b4, b5]

theorem ne_of_inCall_eq_false {pc : Pc φ ρ} (h : pc.inCall = false) :
    pc ≠ yielding ∧ pc ≠ parked := by
  constructor <;> rintro rfl <;> cases h

@[grind →]
theorem inRun_of_active {pc : Pc φ ρ} (h : pc.active = true) : pc.inRun = true := by
  cases pc <;> first | rfl | cases h

theorem holds_of_not_inRun {pc : Pc φ ρ} (h : pc.inRun = false) : pc.holds = none := by
  cases pc <;> first | rfl | cases h

theorem ne_switched_of_active {pc : Pc φ ρ} {f : φ} (h : pc.active = true) : pc ≠ switched f := by
  rintro rfl
  cases h

end Pc

/-- The threads and contexts, the fields `invoker_` and `free_flag_` of the schedulers, the result
fields of the objects, and what is outstanding: operations, and posted callbacks `on_post`. The rest
is a record of the run: which fibers were invoked and freed, how many blocking calls were made, and
which results their callbacks stored and the calls returned. -/
structure Fibers (τ φ ρ : Type) where
  current : τ → Ctx τ φ
  pcs : Ctx τ φ → Pc φ ρ
  invoker : φ → Option (Ctx τ φ)
  freeFlag : φ → Bool
  result : φ → ρ
  pending : φ → ℕ
  posts : φ → ℕ
  invoked : φ → Bool
  frees : φ → ℕ
  calls : φ → ℕ
  stored : φ → List ρ
  returns : φ → List ρ

/-- What a thread does next: the service loop takes a completion or a posted callback; the code that
runs on the thread invokes a fiber; the fiber on the thread makes a blocking call, or its routine
returns; or the thread goes on where it is. -/
inductive FiberAct (φ ρ : Type)
  | complete (f : φ) (r : ρ)
  | post (f : φ)
  | invoke (f : φ)
  | call
  | finish
  | go
  deriving DecidableEq, Repr

namespace Fibers

variable {τ φ ρ : Type}

section Machine

variable [DecidableEq τ] [DecidableEq φ]

/-- A context goes on to `pc`. -/
def goto (s : Fibers τ φ ρ) (c : Ctx τ φ) (pc : Pc φ ρ) : Fibers τ φ ρ :=
  { s with pcs := Function.update s.pcs c pc }

/-- `switch_fiber` on thread `t`: the context `c` is left at `pc`, and `target` goes on. -/
def switchFiber (s : Fibers τ φ ρ) (t : τ) (c : Ctx τ φ) (pc : Pc φ ρ) (target : Ctx τ φ) :
    Fibers τ φ ρ :=
  { s with
    pcs := Function.update (Function.update s.pcs c pc) target (s.pcs target).resume
    current := Function.update s.current t target }

/-- `scheduler::yield` of fiber `f`, which is left at `pc` or, if nobody has invoked it, goes on at
`pc'`. -/
def yield (s : Fibers τ φ ρ) (t : τ) (f : φ) (pc pc' : Pc φ ρ) : Fibers τ φ ρ :=
  match s.invoker f with
  | some c => s.switchFiber t (.fiber f) pc c
  | none => s.goto (.fiber f) pc'

/-- The next step of thread `t`, whose context is `c`. -/
def go (s : Fibers τ φ ρ) (t : τ) (c : Ctx τ φ) : Option (Fibers τ φ ρ) :=
  match s.pcs c with
  | .storing f r =>
    some { s.goto c (.switching f true) with
      result := Function.update s.result f r
      stored := Function.update s.stored f (s.stored f ++ [r]) }
  | .switching f repost =>
    match s.invoker f with
    | none => some { s.goto c (.entering f) with invoker := Function.update s.invoker f (some c) }
    | some _ => some (s.goto c (if repost then .reposting f else .idle))
  | .entering f => some (s.switchFiber t c (.switched f) (.fiber f))
  | .returned f => some (s.goto c (if s.freeFlag f then .freeing f else .clearing f))
  | .clearing f => some { s.goto c .idle with invoker := Function.update s.invoker f none }
  | .freeing f => some { s.goto c .idle with frees := Function.update s.frees f (s.frees f + 1) }
  | .reposting f => some { s.goto c .idle with posts := Function.update s.posts f (s.posts f + 1) }
  | .yielding =>
    match c with
    | .fiber f => some (s.yield t f .parked .reading)
    | .base _ => none
  | .reading =>
    match c with
    | .fiber f =>
      some { s.goto c .idle with
        returns := Function.update s.returns f (s.returns f ++ [s.result f]) }
    | .base _ => none
  | .exiting =>
    match c with
    | .fiber f => some (s.yield t f .gone .gone)
    | .base _ => none
  | _ => none

/-- What an idle context begins: on the base of a thread the service loop runs callbacks, on the
fiber of an object its routine makes blocking calls or returns. -/
def begin (s : Fibers τ φ ρ) : Ctx τ φ → FiberAct φ ρ → Option (Fibers τ φ ρ)
  | .base t, .complete f r =>
    if s.pending f = 0 then none
    else
      some { s.goto (.base t) (.storing f r) with
        pending := Function.update s.pending f (s.pending f - 1) }
  | .base t, .post f =>
    if s.posts f = 0 then none
    else
      some { s.goto (.base t) (.switching f true) with
        posts := Function.update s.posts f (s.posts f - 1) }
  | c, .invoke f =>
    if s.invoked f then none
    else
      some { s.goto c (.switching f false) with
        invoked := Function.update s.invoked f true }
  | .fiber f, .call =>
    some { s.goto (.fiber f) .yielding with
      pending := Function.update s.pending f (s.pending f + 1)
      calls := Function.update s.calls f (s.calls f + 1) }
  | .fiber f, .finish =>
    some { s.goto (.fiber f) .exiting with freeFlag := Function.update s.freeFlag f true }
  | _, _ => none

/-- A step of a thread: it goes on where it is, or the service loop or a routine begins something.
-/
def step (s : Fibers τ φ ρ) : τ × FiberAct φ ρ → Option (Fibers τ φ ρ)
  | (t, .go) => s.go t (s.current t)
  | (t, act) =>
    match s.pcs (s.current t) with
    | .idle => s.begin (s.current t) act
    | _ => none

/-- The threads are in the service loop, and no fiber was invoked yet. -/
def start (result : φ → ρ) : Fibers τ φ ρ where
  current := .base
  pcs := fun
    | .base _ => .idle
    | .fiber _ => .fresh
  invoker := fun _ ↦ none
  freeFlag := fun _ ↦ false
  result := result
  pending := fun _ ↦ 0
  posts := fun _ ↦ 0
  invoked := fun _ ↦ false
  frees := fun _ ↦ 0
  calls := fun _ ↦ 0
  stored := fun _ ↦ []
  returns := fun _ ↦ []

end Machine


/-! ### What the scheduler promises -/

/-- The fiber waits to be switched to: it was invoked or it is in a blocking call. -/
def Waits (pcs : Ctx τ φ → Pc φ ρ) (invoked : φ → Bool) (f : φ) : Prop :=
  pcs (.fiber f) = .fresh ∧ invoked f = true ∨ pcs (.fiber f) = .yielding ∨
    pcs (.fiber f) = .parked

/-- **What holds in every state.** No two threads execute the same context. A fiber in a blocking
call is referred to by one operation, one posted callback or one context on the way to it, and a
fiber that waits for nothing by none. What the calls returned is what their callbacks stored, in
order, up to a result that was stored but not returned yet. The fibers that run are those whose
`invoker_` is suspended in `switch_fiber`; any other `invoker_` is a context that is about to switch
or to release it, until the fiber is freed. That happens once, and nothing refers to the fiber from
then on. -/
structure Sound (s : Fibers τ φ ρ) : Prop where
  alone : ∀ t u, s.current t = s.current u → t = u
  token : ∀ f, s.pcs (.fiber f) = .yielding ∨ s.pcs (.fiber f) = .parked →
    s.pending f + s.posts f = 1 ∧ (∀ c, (s.pcs c).carries ≠ some f) ∨
      s.pending f + s.posts f = 0 ∧ ∃! c, (s.pcs c).carries = some f
  noToken : ∀ f, ¬Waits s.pcs s.invoked f →
    s.pending f = 0 ∧ s.posts f = 0 ∧ ∀ c, (s.pcs c).carries ≠ some f
  results : ∀ f, (s.stored f = s.returns f ∨ s.stored f = s.returns f ++ [s.result f]) ∧
    (s.stored f).length ≤ s.calls f ∧
    s.calls f = (s.returns f).length + if (s.pcs (.fiber f)).inCall then 1 else 0
  released : ∀ f c, s.invoker f = some c → s.frees f = 0 → (s.pcs c).holds = some f
  suspended : ∀ f c, s.pcs c = .switched f ↔
    s.invoker f = some c ∧ (s.pcs (.fiber f)).inRun = true
  freed : ∀ f, s.frees f ≤ 1
  ended : ∀ f, s.frees f = 1 → s.pcs (.fiber f) = .gone ∧ s.pending f = 0 ∧ s.posts f = 0 ∧
    ∀ c, (s.pcs c).carries ≠ some f ∧ (s.pcs c).holds ≠ some f
  finished : ∀ f, s.pcs (.fiber f) = .gone →
    s.frees f = 1 ∨ ∃ c, s.pcs c = .returned f ∨ s.pcs c = .freeing f

/-- **What the threads do next**, whatever other threads do in the meantime. A thread can go on, but
where the service loop or a routine has the next word. A fiber that is invoked begins, and one whose
callback finds `invoker_` null has returned from its blocking call two steps after the switch, with
what the callback stored. A callback that finds `invoker_` taken posts itself again. A fiber that
yields gives its thread back to its `invoker_`, which then releases it, or frees it if it is at its
end. -/
structure Proceeds [DecidableEq τ] [DecidableEq φ] (s : Fibers τ φ ρ) : Prop where
  goes : ∀ t, s.pcs (s.current t) ≠ .idle → (s.step (t, .go)).isSome = true
  begins : ∀ t f, s.pcs (s.current t) = .switching f false →
    ∀ l s', Transition.own t l = [.go, .go] → Transition.run step s l = some s' →
      s'.current t = .fiber f ∧ s'.pcs (.fiber f) = .idle
  resumes : ∀ t f, s.pcs (s.current t) = .switching f true → s.invoker f = none →
    ∀ l s', Transition.own t l = [.go, .go, .go] → Transition.run step s l = some s' →
      s'.current t = .fiber f ∧ s'.pcs (.fiber f) = .idle ∧ s'.returns f = s.stored f
  reposts : ∀ t f, s.pcs (s.current t) = .switching f true → s.invoker f ≠ none →
    ∀ l s', Transition.own t l = [] →
      Transition.run step s ((t, .go) :: (l ++ [(t, .go)])) = some s' →
      s'.pcs (s'.current t) = .idle ∧ s'.posts f = 1
  yields : ∀ t f, s.current t = .fiber f → s.pcs (.fiber f) = .yielding →
    ∃ c, s.invoker f = some c ∧ ∀ l s', Transition.own t l = [.go, .go, .go] →
      Transition.run step s l = some s' →
      s'.current t = c ∧ s'.pcs c = .idle ∧ s'.invoker f ≠ some c
  ends : ∀ t f, s.current t = .fiber f → s.pcs (.fiber f) = .exiting →
    ∃ c, s.invoker f = some c ∧ ∀ l s', Transition.own t l = [.go, .go, .go] →
      Transition.run step s l = some s' →
      s'.current t = c ∧ s'.pcs c = .idle ∧ s'.frees f = 1

end Fibers

end JnetLib.Fiber
