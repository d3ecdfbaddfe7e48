import JnetLib.Epoll.Stop
import JnetLib.Foundation.WakeUps

/-!
# The list of completed operations

`my_semaphore` guards `completed_ops_` with a mutex and a condition variable. The rest of the
development takes `append` and `wait` for one step each (`StopQueue`, `Epoll/Service`); here they
are what the source has, between whose parts other threads go on.

* `fifo_of_run` says that this makes no difference: the list is what `append` and `wait` make of it
  one at a time, every entry appended is taken once, in its order, and the front of an empty list is
  never asked for.
* `taken_or_waiting` says that no thread sleeps on while there is an entry, and that the threads do
  not block each other.

Both are what `Monitor` says of a list: `append` and `wait` are the calls, and `completed_ops_` is
the value. `fifo_of_run` rests on `serial_of_run`; the number of entries is an `int` in the source,
so the calls explain the list only while there are fewer than `2 ^ 31` (`Explains.effective`).
`taken_or_waiting` rests on `notifier_of_run` and `enabled_or_waiting`, as only `append` makes the
condition of a `wait` hold (`quiet`).
-/

namespace JnetLib.Epoll.MySemaphore

open Monitor

variable {τ ω : Type*}

/-! ### The code -/

/-- The functions. An entry can be a null pointer. -/
inductive Call (ω : Type*)
  | test
  | wait (timeout : ℤ)
  | append (op : Option ω)
  deriving DecidableEq, Repr

/-- What they return, and what `wait` leaves in its argument `op`. -/
structure Answer (ω : Type*) where
  ret : ℤ
  op : Option ω
  deriving DecidableEq, Repr

/-- A `size_t` as an `int`. -/
def toInt (n : ℕ) : ℤ := (n : ℤ).bmod (2 ^ 32)

/-- `front` and `pop_front`. The front of an empty list is undefined in the source; here it is a
null pointer. -/
def popFront : List (Option ω) → List (Option ω) × Option ω
  | [] => ([], none)
  | x :: l => (l, x)

/-- What `wait` does behind the loop. With a `timeout` of zero there is none. -/
def wait (timeout : ℤ) (r : Monitor.Wake) (l : List (Option ω)) : List (Option ω) × Answer ω :=
  if timeout = 0 then
    if toInt l.length ≠ 0 then ((popFront l).1, ⟨toInt l.length, (popFront l).2⟩)
    else (l, ⟨toInt l.length, none⟩)
  else
    match r with
    | .signalled => ((popFront l).1, ⟨toInt ((popFront l).1.length + 1), (popFront l).2⟩)
    | .timedOut => (l, ⟨0, none⟩)
    | .failed => (l, ⟨-1, none⟩)

/-- The functions as calls of a monitor. -/
def code : Monitor.Code (List (Option ω)) (Call ω) (Answer ω) where
  ready
    | .wait timeout, l => timeout = 0 || !l.isEmpty
    | _, _ => true
  timed
    | .wait timeout => timeout ≠ -1
    | _ => false
  act
    | .test, _, l => (l, ⟨toInt l.length, none⟩)
    | .wait timeout, r, l => wait timeout r l
    | .append op, _, l => (l ++ [op], ⟨0, none⟩)
  notifies
    | .append _ => true
    | _ => false

/-! ### One at a time -/

/-- The entry a call has appended. -/
def appended (e : Monitor.Entry τ (Call ω) (Answer ω)) : Option (Option ω) :=
  match e.call with
  | .append op => some op
  | _ => none

/-- The entry a call has taken. -/
def taken (e : Monitor.Entry τ (Call ω) (Answer ω)) : Option (Option ω) :=
  match e.call with
  | .wait _ => if 0 < e.answer.ret then some e.answer.op else none
  | _ => none

/-- A call as one step. -/
def perform (q : StopQueue ω) (e : Monitor.Entry τ (Call ω) (Answer ω)) : StopQueue ω :=
  match appended e, taken e with
  | some op, _ => q.append op
  | none, some _ => q.pop
  | none, none => q

/-- A wait without a limit has taken an entry, or the condition variable has failed. -/
def Answered (e : Monitor.Entry τ (Call ω) (Answer ω)) : Prop :=
  e.call = .wait (-1) → 0 < e.answer.ret ∨ e.wake = .failed ∧ e.answer.ret = -1

/-- The list behind the calls `h`. -/
structure Explains (h : List (Monitor.Entry τ (Call ω) (Answer ω)))
    (l : List (Option ω)) : Prop where
  order : h.filterMap appended = h.filterMap taken ++ l
  atomic : (h.foldl perform ⟨false, [], [], []⟩).completedOps = l
  answered : ∀ e ∈ h, Answered e

theorem toInt_of_lt {n : ℕ} (h : n < 2 ^ 31) : toInt n = n := by
  refine Int.bmod_eq_of_le_mul_two ?_ ?_ <;> norm_num at h ⊢ <;> omega

theorem completedOps_append (q : StopQueue ω) (op : Option ω) :
    (q.append op).completedOps = q.completedOps ++ [op] := by
  cases op <;> rfl

theorem completedOps_pop {q : StopQueue ω} {x : Option ω} {l : List (Option ω)}
    (h : q.completedOps = x :: l) : q.pop.completedOps = l := by
  rw [StopQueue.pop, h]
  cases x <;> rfl

variable {h : List (Monitor.Entry τ (Call ω) (Answer ω))} {l : List (Option ω)}
  {e : Monitor.Entry τ (Call ω) (Answer ω)}

/-- A call that leaves the list alone. -/
theorem Explains.idle (hh : Explains h l) (happended : appended e = none) (htaken : taken e = none)
    (hanswered : Answered e) : Explains (h ++ [e]) l := by
  refine ⟨?_, ?_, ?_⟩
  · rw [List.filterMap_append, List.filterMap_append, List.filterMap_cons_none happended,
      List.filterMap_cons_none htaken, List.filterMap_nil, List.append_nil, List.filterMap_nil,
      List.append_nil]
    exact hh.order
  · rw [List.foldl_append, List.foldl_cons, List.foldl_nil, perform, happended, htaken]
    exact hh.atomic
  · simpa only [List.forall_mem_append, List.forall_mem_singleton] using ⟨hh.answered, hanswered⟩

/-- A call that appends an entry. -/
theorem Explains.append (hh : Explains h l) {op : Option ω} (hcall : e.call = .append op) :
    Explains (h ++ [e]) (l ++ [op]) := by
  have happended : appended e = some op := by rw [appended, hcall]
  have htaken : taken e = none := by rw [taken, hcall]
  refine ⟨?_, ?_, ?_⟩
  · rw [List.filterMap_append, List.filterMap_append, List.filterMap_cons_some happended,
      List.filterMap_cons_none htaken, List.filterMap_nil, List.filterMap_nil, List.append_nil,
      hh.order, List.append_assoc]
  · rw [List.foldl_append, List.foldl_cons, List.foldl_nil, perform, happended]
    dsimp only
    rw [completedOps_append, hh.atomic]
  · refine List.forall_mem_append.2 ⟨hh.answered, fun x hx hwait ↦ ?_⟩
    rw [List.mem_singleton.1 hx, hcall] at hwait
    cases hwait

/-- A call that takes one. -/
theorem Explains.take {x : Option ω} (hh : Explains h (x :: l)) {timeout : ℤ}
    (hcall : e.call = .wait timeout) (hret : 0 < e.answer.ret) (hop : e.answer.op = x) :
    Explains (h ++ [e]) l := by
  have happended : appended e = none := by rw [appended, hcall]
  have htaken : taken e = some x := by rw [taken, hcall, ← hop]; exact if_pos hret
  refine ⟨?_, ?_, ?_⟩
  · rw [List.filterMap_append, List.filterMap_append, List.filterMap_cons_none happended,
      List.filterMap_cons_some htaken, List.filterMap_nil, List.filterMap_nil, List.append_nil,
      hh.order, List.append_assoc]
    rfl
  · rw [List.foldl_append, List.foldl_cons, List.foldl_nil, perform, happended, htaken]
    exact completedOps_pop hh.atomic
  · exact List.forall_mem_append.2 ⟨hh.answered, fun x hx _ ↦ .inl (List.mem_singleton.1 hx ▸ hret)⟩

/-- `wait` takes an entry or leaves the list alone; without a limit it takes one, or the condition
variable fails. -/
theorem Explains.waited (hh : Explains h l) (hl : l.length < 2 ^ 31) {timeout : ℤ}
    (hcall : e.call = .wait timeout) (he : code.Effective e l) :
    Explains (h ++ [e]) (code.act e.call e.wake l).1 := by
  have happended : appended e = none := by rw [appended, hcall]
  obtain ⟨htimed, hready, hanswer⟩ := he
  rw [hcall] at htimed hready hanswer ⊢
  have hact : code.act (.wait timeout) e.wake l = wait timeout e.wake l := rfl
  rw [hact] at hanswer ⊢
  have hidle : ∀ r : ℤ, ¬0 < r → e.answer.ret = r → (timeout = -1 → e.wake = .failed ∧ r = -1) →
      Explains (h ++ [e]) l := by
    intro r hr hret hlimit
    refine hh.idle happended ?_ fun hwait ↦ ?_
    · rw [taken, hcall]
      exact if_neg (by rw [hret]; exact hr)
    · obtain rfl := Call.wait.inj (hcall.symm.trans hwait)
      exact .inr ((hlimit rfl).imp_right hret.trans)
  have htake : ∀ x l', l = x :: l' → e.answer = ⟨toInt l.length, x⟩ →
      Explains (h ++ [e]) l' := by
    rintro x l' rfl hx
    refine hh.take hcall ?_ (by rw [hx])
    rw [hx, toInt_of_lt hl, List.length_cons]
    exact Int.natCast_pos.2 (Nat.succ_pos _)
  by_cases hzero : timeout = 0
  · simp only [MySemaphore.wait, if_pos hzero] at hanswer ⊢
    cases l with
    | nil =>
      have hnone : toInt ([] : List (Option ω)).length = 0 := toInt_of_lt hl
      rw [hnone, if_neg (not_not.2 rfl)] at hanswer ⊢
      exact hidle 0 (by decide) (by rw [← hanswer]) fun h ↦ by omega
    | cons x l =>
      have hne : toInt (x :: l).length ≠ 0 := by
        rw [toInt_of_lt hl, List.length_cons]
        omega
      rw [if_pos hne] at hanswer ⊢
      exact htake x l rfl hanswer.symm
  · simp only [MySemaphore.wait, if_neg hzero] at hanswer ⊢
    cases hwake : e.wake with
    | signalled =>
      have hne : l ≠ [] := by
        have hsome := hready hwake
        rintro rfl
        simp [code, hzero] at hsome
      obtain ⟨x, l, rfl⟩ := List.exists_cons_of_ne_nil hne
      rw [hwake] at hanswer
      exact htake x l rfl hanswer.symm
    | timedOut =>
      have hlimit : timeout ≠ -1 := by simpa [code] using htimed hwake
      rw [hwake] at hanswer
      exact hidle 0 (by decide) (by rw [← hanswer]) fun h ↦ absurd h hlimit
    | failed =>
      rw [hwake] at hanswer
      exact hidle (-1) (by decide) (by rw [← hanswer]) fun _ ↦ ⟨hwake, rfl⟩

/-- Every call keeps to the list, while there are not too many entries. -/
theorem Explains.effective (hh : Explains h l) (hfew : (h.filterMap appended).length < 2 ^ 31)
    (he : code.Effective e l) : Explains (h ++ [e]) (code.act e.call e.wake l).1 := by
  have hl : l.length < 2 ^ 31 := by
    rw [hh.order, List.length_append] at hfew
    omega
  cases hcall : e.call with
  | test =>
    refine hh.idle (by rw [appended, hcall]) (by rw [taken, hcall]) fun hwait ↦ ?_
    rw [hcall] at hwait
    cases hwait
  | wait timeout =>
    rw [← hcall]
    exact hh.waited hl hcall he
  | append op => exact hh.append hcall

/-! ### Runs -/

section Runs

variable [DecidableEq τ] {s : Monitor.State τ (List (Option ω)) (Call ω) (Answer ω)}
  {events : List (Monitor.Event τ (Call ω))}

/-- **One at a time.** In every run of any number of threads in which fewer than `2 ^ 31` entries
are appended, the list is what `append` and `wait` make of it one at a time; the entries are taken
in the order in which they were appended, each of them once; and a `wait` without a limit takes one,
unless the condition variable fails. -/
theorem fifo_of_run
    (hrun : Transition.run (Monitor.State.step code) (Monitor.State.start []) events = some s)
    (hfew : (s.history.filterMap appended).length < 2 ^ 31) :
    s.history.filterMap appended = s.history.filterMap taken ++ s.value ∧
      (s.history.foldl perform ⟨false, [], [], []⟩).completedOps = s.value ∧
        ∀ e ∈ s.history, Answered e := by
  have hreplays := (serial_of_run hrun).replays
  have hexplains : (s.history.filterMap appended).length < 2 ^ 31 → Explains s.history s.value := by
    refine Monitor.Code.Replays.induction (P := fun h l ↦ (h.filterMap appended).length < 2 ^ 31 →
      Explains h l) (fun _ ↦ ⟨rfl, rfl, nofun⟩) (fun h l e ih he hfew ↦ ?_) hreplays
    have hle : (h.filterMap appended).length < 2 ^ 31 := by
      rw [List.filterMap_append, List.length_append] at hfew
      omega
    exact (ih hle).effective hle he
  obtain ⟨horder, hatomic, hanswered⟩ := hexplains hfew
  exact ⟨horder, hatomic, hanswered⟩

/-- One thread waits, and another one appends an entry; the first one is woken and takes it. -/
def handOver : List (Monitor.Event Bool (Call ℕ)) :=
  [.call true (.wait (-1)), .run true, .run true, .call false (.append (some 7)), .run false,
    .run false, .run false, .run false, .run false, .run true, .run true, .run true]

theorem fifo_of_run_handOver :
    ∃ s : Monitor.State Bool (List (Option ℕ)) (Call ℕ) (Answer ℕ),
      Transition.run (Monitor.State.step code) (Monitor.State.start []) handOver = some s ∧
        s.history.filterMap taken = [some 7] ∧
          s.history.filterMap appended = s.history.filterMap taken ++ s.value ∧
            (s.history.foldl perform ⟨false, [], [], []⟩).completedOps = s.value ∧
              ∀ e ∈ s.history, Answered e := by
  have h : (Transition.run (Monitor.State.step code) (Monitor.State.start []) handOver).map
      (fun s : Monitor.State Bool (List (Option ℕ)) (Call ℕ) (Answer ℕ) ↦
        (s.history.filterMap taken, s.history.filterMap appended)) = some ([some 7], [some 7]) := by
    decide +kernel
  obtain ⟨s, hs, heq⟩ := Option.map_eq_some_iff.1 h
  obtain ⟨htaken, happended⟩ := Prod.mk.inj heq
  exact ⟨s, hs, htaken, fifo_of_run hs (by rw [happended]; decide)⟩

theorem ready_of_ne_nil (c : Call ω) {l : List (Option ω)} (hl : l ≠ []) :
    code.ready c l = true := by
  cases c with
  | wait timeout => simp [code, hl]
  | _ => rfl

/-- Only `append` makes a condition hold. -/
theorem quiet :
    (code : Monitor.Code (List (Option ω)) (Call ω) (Answer ω)).OnlyNotifiersEnable := by
  intro c r l c' hnotifies hready hc'
  by_cases hl : l = []
  · subst hl
    -- what leaves an empty list behind leaves it as it is
    cases c with
    | test => exact hc'
    | wait timeout =>
      have hempty : (wait timeout r ([] : List (Option ω))).1 = [] := by
        unfold wait
        split_ifs <;> cases r <;> rfl
      change code.ready c' (wait timeout r []).1 = true at hc'
      rwa [hempty] at hc'
    | append op => cases hnotifies
  · exact ready_of_ne_nil c' hl

/-- **No thread sleeps on.** A thread asleep in `wait` while there is an entry is going to be woken
by a thread that has appended one; and some thread can go on, unless every one is outside or asleep
and the list is empty. -/
theorem taken_or_waiting
    (hrun : Transition.run (Monitor.State.step code) (Monitor.State.start []) events = some s) :
    (∀ t c, s.phases t = .asleep c → s.value ≠ [] →
      ∃ u op x, s.phases u = .unlocking (.append op) x ∨ s.phases u = .notifying (.append op) x) ∧
    ((∃ t s', s.stepRun code t = some s') ∨ ∀ t, s.phases t = .outside ∨
      ∃ timeout, s.phases t = .asleep (.wait timeout) ∧ s.value = []) := by
  constructor
  · intro t c ht hne
    obtain ⟨u, hu⟩ := notifier_of_run quiet hrun ht (ready_of_ne_nil c hne)
    obtain ⟨c', x, hc', hu⟩ := hu.exists
    cases c' with
    | append op => exact ⟨u, op, x, hu⟩
    | _ => cases hc'
  · refine (enabled_or_waiting quiet hrun).imp_right fun hall t ↦ (hall t).imp_right ?_
    rintro ⟨c, hc, hready⟩
    have hnil : s.value = [] := by
      by_contra hne
      exact absurd ((ready_of_ne_nil c hne).symm.trans hready) nofun
    cases c with
    | wait timeout => exact ⟨timeout, hc, hnil⟩
    | _ => cases hready

/-- A thread has appended an entry and is in front of leaving the mutex; the waiting thread still
sleeps. -/
theorem taken_or_waiting_handOver :
    ∃ s : Monitor.State Bool (List (Option ℕ)) (Call ℕ) (Answer ℕ),
      Transition.run (Monitor.State.step code) (Monitor.State.start []) (handOver.take 7) = some s ∧
        s.phases true = .asleep (.wait (-1)) ∧ s.value = [some 7] ∧
    (∀ t c, s.phases t = .asleep c → s.value ≠ [] →
      ∃ u op x, s.phases u = .unlocking (.append op) x ∨ s.phases u = .notifying (.append op) x) ∧
    ((∃ t s', s.stepRun code t = some s') ∨ ∀ t, s.phases t = .outside ∨
      ∃ timeout, s.phases t = .asleep (.wait timeout) ∧ s.value = []) := by
  have h : (Transition.run (Monitor.State.step code) (Monitor.State.start []) (handOver.take 7)).map
      (fun s : Monitor.State Bool (List (Option ℕ)) (Call ℕ) (Answer ℕ) ↦
        (s.phases true, s.value)) =
        some (.asleep (.wait (-1)), [some 7]) := by
    decide +kernel
  obtain ⟨s, hs, heq⟩ := Option.map_eq_some_iff.1 h
  obtain ⟨hphase, hvalue⟩ := Prod.mk.inj heq
  exact ⟨s, hs, hphase, hvalue, taken_or_waiting hs⟩

end Runs

end JnetLib.Epoll.MySemaphore
