import JnetLib.Foundation.Transition

/-!
# Monitors

A value that threads share under a mutex, with a condition variable. A call takes the mutex, waits
in a loop for its condition, changes the value and gives an answer; some calls wake the waiting
threads when they have left the mutex. Threads can be interrupted between any two of these. A wait
can end without having been woken, or because its time is up, or fail.

`serial_of_run` says that the calls take effect one at a time: the history of the changes, each made
where its condition held, explains the value and every answer. It rests on an invariant, `Serial`:
one thread at most is where the mutex is needed, and the value is what the calls that have taken
effect have made of the first one, each with its answer.

`Runs` lists what a thread can do by where it is. The invariants go through that list and not
through the code.
-/

namespace Monitor

/-- How a wait ends: the thread was woken, or not even that; the time is up; an error. -/
inductive Wake
  | signalled
  | timedOut
  | failed
  deriving DecidableEq, Repr

/-- What the calls `κ` do with a value `σ`, and the answers `ρ` they give. -/
structure Code (σ κ ρ : Type*) where
  /-- The condition the call waits for. -/
  ready : κ → σ → Bool
  /-- The call waits for a limited time. -/
  timed : κ → Bool
  /-- What it does behind the loop. -/
  act : κ → Wake → σ → σ × ρ
  /-- In the end it wakes the threads that wait. -/
  notifies : κ → Bool

/-- Where a thread is: outside; in front of taking the mutex, for the first time or behind a wait;
in front of the loop's condition; in the wait; behind the loop; in front of leaving the mutex; in
front of waking the others. -/
inductive Phase (κ ρ : Type*)
  | outside
  | locking (c : κ) (r : Wake)
  | testing (c : κ) (r : Wake)
  | asleep (c : κ)
  | acting (c : κ) (r : Wake)
  | unlocking (c : κ) (x : ρ)
  | notifying (c : κ) (x : ρ)
  deriving DecidableEq, Repr

/-- A call that has taken effect. -/
structure Entry (τ κ ρ : Type*) where
  thread : τ
  call : κ
  wake : Wake
  answer : ρ
  deriving DecidableEq, Repr

/-- The value, who has the mutex, where each thread is, and the calls that have taken effect. -/
structure State (τ σ κ ρ : Type*) where
  value : σ
  owner : Option τ
  phases : τ → Phase κ ρ
  history : List (Entry τ κ ρ)

/-- The steps: a thread makes a call, or goes on, or its wait ends. -/
inductive Event (τ κ : Type*)
  | call (t : τ) (c : κ)
  | run (t : τ)
  | wake (t : τ) (r : Wake)
  deriving DecidableEq, Repr

namespace Phase

variable {σ κ ρ : Type*}

/-- The thread has the mutex. -/
def Holds : Phase κ ρ → Prop
  | .testing _ _ | .acting _ _ | .unlocking _ _ => True
  | _ => False

/-- The thread is going to wake the others. -/
def Notifies (code : Code σ κ ρ) : Phase κ ρ → Prop
  | .unlocking c _ | .notifying c _ => code.notifies c = true
  | _ => False

theorem Notifies.exists {code : Code σ κ ρ} {p : Phase κ ρ} (h : p.Notifies code) :
    ∃ c x, code.notifies c = true ∧ (p = .unlocking c x ∨ p = .notifying c x) := by
  cases p with
  | unlocking c x => exact ⟨c, x, h, .inl rfl⟩
  | notifying c x => exact ⟨c, x, h, .inr rfl⟩
  | _ => exact h.elim

/-- Only a wait for a limited time ends because the time is up, and behind a loop that has not been
given up the condition holds. -/
def Fits (code : Code σ κ ρ) (v : σ) : Phase κ ρ → Prop
  | .locking c r | .testing c r => r = .timedOut → code.timed c = true
  | .acting c r => (r = .timedOut → code.timed c = true) ∧ (r = .signalled → code.ready c v = true)
  | _ => True

/-- A thread that waits goes on when it is woken. -/
def woken : Phase κ ρ → Phase κ ρ
  | .asleep c => .locking c .signalled
  | p => p

theorem woken_holds (p : Phase κ ρ) : p.woken.Holds ↔ p.Holds := by
  cases p <;> exact Iff.rfl

theorem Fits.woken {code : Code σ κ ρ} {v : σ} {p : Phase κ ρ} (h : p.Fits code v) :
    p.woken.Fits code v := by
  cases p with
  | asleep _ => exact nofun
  | _ => exact h

/-- What others do to the value matters to the thread that has the mutex only. -/
theorem Fits.of_not_holds {code : Code σ κ ρ} {v w : σ} {p : Phase κ ρ} (h : p.Fits code v)
    (hp : ¬p.Holds) : p.Fits code w := by
  cases p with
  | acting _ _ => exact absurd trivial hp
  | _ => exact h

theorem woken_ne_asleep (p : Phase κ ρ) (c : κ) : p.woken ≠ .asleep c := by
  cases p <;> nofun

end Phase

namespace State

variable {τ σ κ ρ : Type*} [DecidableEq τ] (code : Code σ κ ρ)

/-- Nobody has made a call. -/
def start (v : σ) : State τ σ κ ρ := ⟨v, none, fun _ ↦ .outside, []⟩

/-- Where a thread goes. -/
def go (s : State τ σ κ ρ) (t : τ) (p : Phase κ ρ) : State τ σ κ ρ :=
  { s with phases := Function.update s.phases t p }

@[simp]
theorem go_self (s : State τ σ κ ρ) (t : τ) (p : Phase κ ρ) : (s.go t p).phases t = p := by
  simp [go]

theorem go_of_ne (s : State τ σ κ ρ) {t u : τ} (p : Phase κ ρ) (h : u ≠ t) :
    (s.go t p).phases u = s.phases u := by
  simp [go, h]

/-- What a call does behind the loop. -/
def perform (s : State τ σ κ ρ) (t : τ) (c : κ) (r : Wake) : State τ σ κ ρ :=
  { s with
    value := (code.act c r s.value).1
    history := s.history ++ [⟨t, c, r, (code.act c r s.value).2⟩] }

/-- What a thread does next. -/
def stepRun (s : State τ σ κ ρ) (t : τ) : Option (State τ σ κ ρ) :=
  match s.phases t with
  | .outside | .asleep _ => none
  | .locking c r =>
    if s.owner = none then some ({ s with owner := some t }.go t (.testing c r)) else none
  | .testing c r =>
    if code.ready c s.value = true ∨ r ≠ .signalled then some (s.go t (.acting c r))
    else some ({ s with owner := none }.go t (.asleep c))
  | .acting c r =>
    some ((s.perform code t c r).go t (.unlocking c (code.act c r s.value).2))
  | .unlocking c x =>
    some ({ s with owner := none }.go t (if code.notifies c then .notifying c x else .outside))
  | .notifying _ _ => some ({ s with phases := fun u ↦ (s.phases u).woken }.go t .outside)

/-- A step of a thread: it calls, goes on, or is woken or times out. -/
def step (s : State τ σ κ ρ) : Event τ κ → Option (State τ σ κ ρ)
  | .call t c =>
    match s.phases t with
    | .outside => some (s.go t (.locking c .signalled))
    | _ => none
  | .run t => s.stepRun code t
  | .wake t r =>
    match s.phases t with
    | .asleep c =>
      if r = .timedOut ∧ code.timed c = false then none else some (s.go t (.locking c r))
    | _ => none

variable {code} {s s' : State τ σ κ ρ} {t : τ}

/-- Everything a thread can do, by where it is. -/
inductive Runs (code : Code σ κ ρ) (s : State τ σ κ ρ) (t : τ) : State τ σ κ ρ → Prop
  | lock (c : κ) (r : Wake) (hp : s.phases t = .locking c r) (howner : s.owner = none) :
    Runs code s t ({ s with owner := some t }.go t (.testing c r))
  | leave (c : κ) (r : Wake) (hp : s.phases t = .testing c r)
    (hgo : code.ready c s.value = true ∨ r ≠ .signalled) : Runs code s t (s.go t (.acting c r))
  | wait (c : κ) (r : Wake) (hp : s.phases t = .testing c r)
    (hready : code.ready c s.value = false) :
    Runs code s t ({ s with owner := none }.go t (.asleep c))
  | act (c : κ) (r : Wake) (hp : s.phases t = .acting c r) :
    Runs code s t ((s.perform code t c r).go t (.unlocking c (code.act c r s.value).2))
  | unlock (c : κ) (x : ρ) (hp : s.phases t = .unlocking c x) :
    Runs code s t
      ({ s with owner := none }.go t (if code.notifies c then .notifying c x else .outside))
  | wakeAll (c : κ) (x : ρ) (hp : s.phases t = .notifying c x) :
    Runs code s t ({ s with phases := fun u ↦ (s.phases u).woken }.go t .outside)

theorem runs_of_stepRun (hstep : s.stepRun code t = some s') : Runs code s t s' := by
  rw [stepRun] at hstep
  split at hstep
  case h_1 | h_2 => cases hstep
  case h_3 c r hp =>
    split_ifs at hstep with howner
    exact Option.some.inj hstep ▸ .lock c r hp howner
  case h_4 c r hp =>
    split_ifs at hstep with hgo
    · exact Option.some.inj hstep ▸ .leave c r hp hgo
    · have hready := Bool.eq_false_of_not_eq_true fun h ↦ hgo (.inl h)
      exact Option.some.inj hstep ▸ .wait c r hp hready
  case h_5 c r hp => exact Option.some.inj hstep ▸ .act c r hp
  case h_6 c x hp => exact Option.some.inj hstep ▸ .unlock c x hp
  case h_7 c x hp => exact Option.some.inj hstep ▸ .wakeAll c x hp

/-- Where a thread cannot go on by itself. -/
theorem phases_of_stepRun_eq_none (hnone : s.stepRun code t = none) :
    s.phases t = .outside ∨ (∃ c, s.phases t = .asleep c) ∨
      (∃ c r, s.phases t = .locking c r) ∧ s.owner ≠ none := by
  rw [stepRun] at hnone
  split at hnone
  case h_1 hp => exact .inl hp
  case h_2 c hp => exact .inr (.inl ⟨c, hp⟩)
  case h_3 c r hp =>
    split_ifs at hnone with howner
    exact .inr (.inr ⟨⟨c, r, hp⟩, howner⟩)
  case h_4 => split_ifs at hnone
  all_goals cases hnone

end State

/-! ### Whose calls they are -/

/-- The call a thread has made that has not taken effect. -/
def Phase.pending {κ ρ : Type*} : Phase κ ρ → Option κ
  | .locking c _ | .testing c _ | .asleep c | .acting c _ => some c
  | _ => none

/-- The calls an event makes for a thread. -/
def Event.calls {τ κ : Type*} [DecidableEq τ] (t : τ) : Event τ κ → List κ
  | .call u c => if u = t then [c] else []
  | _ => []

namespace State

variable {τ σ κ ρ : Type*} [DecidableEq τ] {code : Code σ κ ρ} {s s' : State τ σ κ ρ} {t u : τ}

/-- The thread's calls that have taken effect. -/
def entries (s : State τ σ κ ρ) (t : τ) : List (Entry τ κ ρ) := s.history.filter (·.thread = t)

/-- The calls the thread has made. -/
def made (s : State τ σ κ ρ) (t : τ) : List κ :=
  (s.entries t).map Entry.call ++ (s.phases t).pending.toList

theorem call_mem_made {e : Entry τ κ ρ} (he : e ∈ s.history) : e.call ∈ s.made e.thread :=
  List.mem_append_left _ (List.mem_map_of_mem (List.mem_filter.2 ⟨he, decide_eq_true rfl⟩))

theorem mem_made_of_pending {c : κ} (hp : (s.phases t).pending = some c) : c ∈ s.made t := by
  rw [made, hp]
  exact List.mem_append_right _ (List.mem_singleton_self c)

/-- A call that is not under way has taken effect. -/
theorem exists_entry {c : κ} (hc : c ∈ s.made t) (hp : (s.phases t).pending = none) :
    ∃ e ∈ s.history, e.thread = t ∧ e.call = c := by
  rw [made, hp, Option.toList_none, List.append_nil] at hc
  obtain ⟨e, he, rfl⟩ := List.mem_map.1 hc
  obtain ⟨he, hthread⟩ := List.mem_filter.1 he
  exact ⟨e, he, of_decide_eq_true hthread, rfl⟩

/-- A thread that goes on with the same call. -/
theorem made_go (s : State τ σ κ ρ) {p : Phase κ ρ} (o : Option τ)
    (hp : p.pending = (s.phases u).pending) (t : τ) :
    (State.go { s with owner := o } u p).made t = s.made t := by
  have hpending : ((State.go { s with owner := o } u p).phases t).pending =
      (s.phases t).pending := by
    by_cases ht : t = u
    · rw [ht, go_self, hp]
    · rw [go_of_ne _ _ ht]
  exact congrArg (_ ++ Option.toList ·) hpending

theorem made_stepRun (hstep : s.stepRun code u = some s') (t : τ) : s'.made t = s.made t := by
  cases runs_of_stepRun hstep with
  | lock c r hp howner => exact made_go s _ (by rw [hp]; rfl) t
  | leave c r hp hgo => exact made_go s s.owner (by rw [hp]; rfl) t
  | wait c r hp hready => exact made_go s _ (by rw [hp]; rfl) t
  | act c r hp =>
    rw [made, made, entries]
    simp only [go, perform, List.filter_append]
    by_cases ht : t = u
    · -- the call takes effect
      subst ht
      simp [hp, Phase.pending, entries]
    · simp [ht, Ne.symm ht, entries]
  | unlock c x hp =>
    refine made_go s _ ?_ t
    rw [hp]
    split <;> rfl
  | wakeAll c x hp =>
    have hpending : ((State.go { s with phases := fun u ↦ (s.phases u).woken } u .outside).phases
        t).pending = (s.phases t).pending := by
      by_cases ht : t = u
      · rw [ht, go_self, hp]
        rfl
      · rw [go_of_ne _ _ ht]
        cases hp' : s.phases t <;> simp [hp', Phase.woken, Phase.pending]
    exact congrArg (_ ++ Option.toList ·) hpending

/-- **What a step adds to the calls of a thread.** -/
theorem made_step {e : Event τ κ} (hstep : s.step code e = some s') (t : τ) :
    s'.made t = s.made t ++ e.calls t := by
  cases e with
  | call u c =>
    rw [step] at hstep
    split at hstep
    case h_2 => cases hstep
    case h_1 hp =>
      obtain rfl := Option.some.inj hstep
      rw [made, made]
      by_cases ht : u = t
      · subst ht
        simp [hp, Phase.pending, Event.calls, go, entries]
      · simp [Event.calls, ht, Ne.symm ht, go, entries]
  | run u => simpa [Event.calls] using made_stepRun hstep t
  | wake u r =>
    rw [step] at hstep
    split at hstep
    case h_2 => cases hstep
    case h_1 c hp =>
      split_ifs at hstep
      obtain rfl := Option.some.inj hstep
      have hmade : (s.go u (.locking c r)).made t = s.made t :=
        made_go s s.owner (by rw [hp]; rfl) t
      exact hmade.trans (List.append_nil _).symm

/-- A thread is outside until it makes a call. -/
theorem outside_step {e : Event τ κ} (hstep : s.step code e = some s')
    (hcalls : e.calls t = []) (hp : s.phases t = .outside) : s'.phases t = .outside := by
  have hother {u : τ} {p : Phase κ ρ} (hu : s.phases u = p) (hne : p ≠ .outside) : t ≠ u := by
    rintro rfl
    exact hne (hu.symm.trans hp)
  cases e with
  | call u c =>
    have ht : t ≠ u := by
      rintro rfl
      simp [Event.calls] at hcalls
    rw [step] at hstep
    split at hstep
    case h_2 => cases hstep
    case h_1 =>
      obtain rfl := Option.some.inj hstep
      rw [go_of_ne _ _ ht, hp]
  | run u =>
    cases runs_of_stepRun hstep with
    | lock c r hu | leave c r hu | wait c r hu | act c r hu | unlock c x hu =>
      rw [go_of_ne _ _ (hother hu nofun)]
      exact hp
    | wakeAll c x hu =>
      rw [go_of_ne _ _ (hother hu nofun)]
      exact congrArg Phase.woken hp
  | wake u r =>
    rw [step] at hstep
    split at hstep
    case h_2 => cases hstep
    case h_1 c hu =>
      split_ifs at hstep
      obtain rfl := Option.some.inj hstep
      rw [go_of_ne _ _ (hother hu nofun), hp]

/-- What has taken effect is not forgotten. -/
theorem history_step {e : Event τ κ} (hstep : s.step code e = some s') :
    s.history <+: s'.history := by
  cases e with
  | call u c | wake u r =>
    rw [step] at hstep
    split at hstep <;> try split_ifs at hstep
    all_goals cases hstep
    exact List.prefix_refl _
  | run u =>
    cases runs_of_stepRun hstep with
    | act c r hu => exact List.prefix_append _ _
    | _ => exact List.prefix_refl _

end State

/-- A call takes effect on a value: it has not given up a wait without a limit, it finds its
condition unless it has given up, and it gives the answer the code says. -/
structure Code.Effective {τ σ κ ρ : Type*} (code : Code σ κ ρ) (e : Entry τ κ ρ)
    (v : σ) : Prop where
  timed : e.wake = .timedOut → code.timed e.call = true
  ready : e.wake = .signalled → code.ready e.call v = true
  answer : (code.act e.call e.wake v).2 = e.answer

/-- The calls `l`, one after the other, make `w` of the value `v`. -/
def Code.Replays {τ σ κ ρ : Type*} (code : Code σ κ ρ) : σ → List (Entry τ κ ρ) → σ → Prop
  | v, [], w => v = w
  | v, e :: l, w => code.Effective e v ∧ code.Replays (code.act e.call e.wake v).1 l w

section Replays

variable {τ σ κ ρ : Type*} {code : Code σ κ ρ} {v w : σ} {l : List (Entry τ κ ρ)}

theorem Code.Replays.concat (h : code.Replays v l w) {e : Entry τ κ ρ} (he : code.Effective e w) :
    code.Replays v (l ++ [e]) (code.act e.call e.wake w).1 := by
  induction l generalizing v with
  | nil =>
    obtain rfl : v = w := h
    exact ⟨he, rfl⟩
  | cons x l ih => exact ⟨h.1, ih h.2⟩

/-- The calls up to any moment. -/
theorem Code.Replays.of_append {m : List (Entry τ κ ρ)} (h : code.Replays v (l ++ m) w) :
    ∃ u, code.Replays v l u ∧ code.Replays u m w := by
  induction l generalizing v with
  | nil => exact ⟨v, rfl, h⟩
  | cons x l ih =>
    obtain ⟨u, hl, hm⟩ := ih h.2
    exact ⟨u, ⟨h.1, hl⟩, hm⟩

/-- What every call keeps holds behind all of them. -/
theorem Code.Replays.induction {P : List (Entry τ κ ρ) → σ → Prop} (hnil : P [] v)
    (hconcat : ∀ (l : List (Entry τ κ ρ)) (u : σ) (e : Entry τ κ ρ), P l u → code.Effective e u →
      P (l ++ [e]) (code.act e.call e.wake u).1)
    (h : code.Replays v l w) : P l w := by
  induction l using List.reverseRecOn generalizing w with
  | nil =>
    obtain rfl : v = w := h
    exact hnil
  | append_singleton l e ih =>
    obtain ⟨u, hl, he, heq⟩ := h.of_append
    obtain rfl : (code.act e.call e.wake u).1 = w := heq
    exact hconcat l u e (ih hl) he

end Replays

/-! ### The invariant -/

section Invariant

variable {τ σ κ ρ : Type*} [DecidableEq τ] {code : Code σ κ ρ} {v : σ} {s s' : State τ σ κ ρ}

/-- What holds in every state. -/
structure Serial (code : Code σ κ ρ) (v : σ) (s : State τ σ κ ρ) : Prop where
  holds : ∀ t, (s.phases t).Holds ↔ s.owner = some t
  fits : ∀ t, (s.phases t).Fits code s.value
  replays : code.Replays v s.history s.value

omit [DecidableEq τ] in
theorem serial_start (v : σ) : Serial code v (State.start v : State τ σ κ ρ) :=
  ⟨fun _ ↦ ⟨False.elim, nofun⟩, fun _ ↦ trivial, rfl⟩

omit [DecidableEq τ] in
/-- Nobody else has the mutex. -/
theorem Serial.not_holds (h : Serial code v s) {t u : τ} (ht : (s.phases t).Holds) (hut : u ≠ t) :
    ¬(s.phases u).Holds := fun hu ↦
  hut (Option.some.inj (((h.holds u).1 hu).symm.trans ((h.holds t).1 ht)))

/-- A step that moves one thread, and may change the value, the owner and the history. -/
theorem Serial.update (h : Serial code v s) {t : τ} {p : Phase κ ρ} {w : σ} {o : Option τ}
    {l : List (Entry τ κ ρ)} (hself : p.Holds ↔ o = some t)
    (hothers : ∀ u, u ≠ t → ((s.phases u).Holds ↔ o = some u))
    (hfits : p.Fits code w) (hvalue : ∀ u, u ≠ t → (s.phases u).Holds → w = s.value)
    (hreplays : code.Replays v l w) :
    Serial code v (State.go { s with value := w, owner := o, history := l } t p) := by
  refine ⟨fun u ↦ ?_, fun u ↦ ?_, hreplays⟩
  · by_cases hut : u = t
    · subst hut
      rw [State.go_self]
      exact hself
    · rw [State.go_of_ne _ _ hut]
      exact hothers u hut
  · by_cases hut : u = t
    · subst hut
      rw [State.go_self]
      exact hfits
    · rw [State.go_of_ne _ _ hut]
      by_cases hu : (s.phases u).Holds
      · rw [hvalue u hut hu]
        exact h.fits u
      · exact (h.fits u).of_not_holds hu

/-- A thread that neither has the mutex nor gets it can go anywhere. -/
theorem Serial.go (h : Serial code v s) {t : τ} {p : Phase κ ρ} (ht : ¬(s.phases t).Holds)
    (hp : ¬p.Holds) (hfits : p.Fits code s.value) : Serial code v (s.go t p) :=
  h.update (iff_of_false hp fun ho ↦ ht ((h.holds t).2 ho)) (fun u _ ↦ h.holds u) hfits
    (fun _ _ _ ↦ rfl) h.replays

/-- With the mutex free, a thread takes it. -/
theorem Serial.lock (h : Serial code v s) {t : τ} {c : κ} {r : Wake} (howner : s.owner = none)
    (hp : s.phases t = .locking c r) :
    Serial code v (State.go { s with owner := some t } t (.testing c r)) := by
  have hfree : ∀ u, ¬(s.phases u).Holds := fun u hu ↦
    absurd (howner.symm.trans ((h.holds u).1 hu)) nofun
  exact h.update (iff_of_true trivial rfl)
    (fun u hut ↦ iff_of_false (hfree u) fun ho ↦ hut (Option.some.inj ho).symm)
    (by have hfits := h.fits t; rw [hp] at hfits; exact hfits) (fun _ _ _ ↦ rfl) h.replays

/-- The thread that has the mutex goes on, and keeps it. -/
theorem Serial.keep (h : Serial code v s) {t : τ} {p : Phase κ ρ} {w : σ} {l : List (Entry τ κ ρ)}
    (ht : (s.phases t).Holds) (hp : p.Holds) (hfits : p.Fits code w)
    (hreplays : code.Replays v l w) :
    Serial code v (State.go { s with value := w, history := l } t p) :=
  h.update (iff_of_true hp ((h.holds t).1 ht)) (fun u _ ↦ h.holds u) hfits
    (fun _ hut hu ↦ absurd hu (h.not_holds ht hut)) hreplays

/-- The thread that has the mutex leaves it. -/
theorem Serial.unlock (h : Serial code v s) {t : τ} {p : Phase κ ρ} (ht : (s.phases t).Holds)
    (hp : ¬p.Holds) (hfits : p.Fits code s.value) :
    Serial code v (State.go { s with owner := none } t p) :=
  h.update (iff_of_false hp nofun) (fun _ hut ↦ iff_of_false (h.not_holds ht hut) nofun) hfits
    (fun _ _ _ ↦ rfl) h.replays

omit [DecidableEq τ] in
/-- A notification wakes the threads that are asleep. -/
theorem Serial.wake (h : Serial code v s) :
    Serial code v { s with phases := fun u ↦ (s.phases u).woken } :=
  ⟨fun u ↦ (Phase.woken_holds _).trans (h.holds u),
    fun u ↦ (h.fits u).woken, h.replays⟩

theorem serial_stepRun (h : Serial code v s) {t : τ} (hstep : s.stepRun code t = some s') :
    Serial code v s' := by
  cases State.runs_of_stepRun hstep with
  | lock c r hp howner => exact h.lock howner hp
  | leave c r hp hgo =>
    have hfits := h.fits t
    rw [hp] at hfits
    exact h.keep (by rw [hp]; trivial) trivial
      ⟨hfits, fun hr ↦ hgo.resolve_right (not_not.2 hr)⟩ h.replays
  | wait c r hp hready => exact h.unlock (by rw [hp]; trivial) not_false trivial
  | act c r hp =>
    have hfits := h.fits t
    rw [hp] at hfits
    exact h.keep (by rw [hp]; trivial) trivial trivial
      (h.replays.concat ⟨hfits.1, hfits.2, rfl⟩)
  | unlock c x hp =>
    have ht : (s.phases t).Holds := by rw [hp]; trivial
    split
    · exact h.unlock ht not_false trivial
    · exact h.unlock ht not_false trivial
  | wakeAll c x hp =>
    refine h.wake.go ?_ not_false trivial
    show ¬(s.phases t).woken.Holds
    rw [hp]
    exact not_false

theorem serial_step (h : Serial code v s) {e : Event τ κ} (hstep : s.step code e = some s') :
    Serial code v s' := by
  cases e with
  | call t c =>
    rw [State.step] at hstep
    split at hstep
    · next hp =>
      obtain rfl := Option.some.inj hstep
      exact h.go (by rw [hp]; exact not_false) not_false nofun
    · cases hstep
  | run t => exact serial_stepRun h hstep
  | wake t r =>
    rw [State.step] at hstep
    split at hstep
    · next c hp =>
      split_ifs at hstep with htimed
      obtain rfl := Option.some.inj hstep
      refine h.go (by rw [hp]; exact not_false) not_false fun hr ↦ ?_
      rw [← Bool.not_eq_false]
      exact fun hc ↦ htimed ⟨hr, hc⟩
    · cases hstep

/-- **One at a time.** In every run of any number of threads the calls that have taken effect, one
after the other, explain the value and the answers. -/
theorem serial_of_run {l : List (Event τ κ)}
    (hrun : Transition.run (State.step code) (State.start v) l = some s) : Serial code v s :=
  Transition.invariant_run' (fun _ _ _ h ↦ serial_step h) (serial_start v) hrun

end Invariant

end Monitor
