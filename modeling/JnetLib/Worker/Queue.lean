import JnetLib.Worker.Loop

/-!
# The queue of a worker thread

`handles_of_run` says that the entries are handled in the order in which they were pushed, that
`head_` and `tail_` delimit the chain of those still queued, and that no entry waits for an event
that nobody will set.

`WellLinked` has a part for each thing that can go wrong. `head_` and `tail_` delimit the chain,
whoever is inside the mutex; an entry belongs to one thread, to the chain or to the worker; and
where something is queued, the event is set, or somebody is about to set it, or the worker is awake
and will set it itself (`Returns`). The steps of a thread that pushes and those of the worker keep
it, one lemma for each assignment.

The worker's own steps suffice to handle all that is queued (`WellLinked.drains`): while nobody
pushes it can always take one, and each brings it nearer to the end (`distance`).
-/

namespace JnetLib.Worker

namespace Queue

variable {τ ε : Type} [DecidableEq τ] [DecidableEq ε]

section Invariant

variable {s s' : Queue τ ε} {t u : τ} {e entry : ε} {l : List ε} {pc pc' : PushPc ε}

/-- The event is set, or a thread that has pushed is about to set it, unless the queue is empty. -/
def Covered (s : Queue τ ε) (l : List ε) : Prop :=
  l = [] ∨ s.signaled = true ∨ ∃ t, s.pushers t = .signalling

/-- **The invariant**, for the queued entries `l`. Entries in different places differ, a thread's
own entry points to nothing, and a worker on its way to the wait finds the event covered. -/
structure WellLinked (s : Queue τ ε) (l : List ε) : Prop where
  pushed : s.pushed = s.handled ++ s.worker.hand ++ l
  delimits : s.links.Delimits l
  nodup : (s.worker.held ++ l).Nodup
  allocated : ∀ e ∈ s.worker.held ++ l, e ∈ s.allocated
  fresh : ∀ t e, (s.pushers t).own = some e →
    e ∈ s.allocated ∧ e ∉ s.worker.held ++ l ∧ s.links.next e = none
  fresh_inj : ∀ t u e, (s.pushers t).own = some e → (s.pushers u).own = some e → t = u
  lock_pusher : ∀ t, s.lock = some (.pusher t) → (s.pushers t).Holds
  lock_worker : s.lock = some .worker → s.worker.Holds
  covered : s.worker.Returns s.links.next → s.Covered l

omit [DecidableEq τ] [DecidableEq ε] in
theorem wellLinked_start (next : ε → Option ε) : WellLinked (start next : Queue τ ε) [] where
  pushed := rfl
  delimits := ⟨rfl, rfl, trivial⟩
  nodup := List.nodup_nil
  allocated _ he := absurd he List.not_mem_nil
  fresh _ _ he := by cases he
  fresh_inj _ _ _ he := by cases he
  lock_pusher _ ht := by cases ht
  lock_worker hw := by cases hw
  covered _ := .inl rfl

section Moves

omit [DecidableEq ε]

@[simp]
theorem setPusher_self : (s.setPusher t pc).pushers t = pc := by
  simp [setPusher]

theorem setPusher_of_ne (h : u ≠ t) : (s.setPusher t pc).pushers u = s.pushers u := by
  simp [setPusher, h]

/-- The own entries after a move: the one of the thread that moved, or another's. -/
theorem own_setPusher_cases (h : ((s.setPusher t pc).pushers u).own = some e) :
    u = t ∧ pc.own = some e ∨ u ≠ t ∧ (s.pushers u).own = some e := by
  rcases eq_or_ne u t with rfl | hne
  · rw [setPusher_self] at h
    exact .inl ⟨rfl, h⟩
  · rw [setPusher_of_ne hne] at h
    exact .inr ⟨hne, h⟩

/-- The event stays covered when a thread moves that was not about to set it. -/
theorem Covered.setPusher (h : s.Covered l) (ht : s.pushers t ≠ .signalling) :
    (s.setPusher t pc).Covered l := by
  refine h.imp_right (Or.imp_right ?_)
  rintro ⟨u, hu⟩
  have hne : u ≠ t := by
    rintro rfl
    exact ht hu
  exact ⟨u, by rw [setPusher_of_ne hne, hu]⟩

end Moves

/-! #### The steps of a thread that pushes -/

/-- A new entry. -/
theorem WellLinked.call (h : s.WellLinked l) (ht : s.pushers t = .idle) (he : entry ∉ s.allocated) :
    WellLinked { s.setPusher t (.locking entry) with
      allocated := insert entry s.allocated
      links := { s.links with next := Function.update s.links.next entry none } } l where
  pushed := h.pushed
  delimits :=
    ⟨h.delimits.head, h.delimits.tail, (Chain.linked_update_of_notMem fun hl ↦
      he (h.allocated _ (List.mem_append_right _ hl))).2 h.delimits.linked⟩
  nodup := h.nodup
  allocated e' he' := Finset.mem_insert_of_mem (h.allocated e' he')
  fresh u e' hu := by
    show _ ∧ _ ∧ Function.update s.links.next entry none e' = none
    rcases own_setPusher_cases hu with ⟨-, hpc⟩ | ⟨-, hu'⟩
    · obtain rfl : entry = e' := Option.some.inj hpc
      exact ⟨Finset.mem_insert_self .., fun hl ↦ he (h.allocated _ hl), Function.update_self ..⟩
    · obtain ⟨halloc, hmem, hnext⟩ := h.fresh u e' hu'
      have hee : e' ≠ entry := fun hb ↦ he (hb ▸ halloc)
      exact ⟨Finset.mem_insert_of_mem halloc, hmem, by rw [Function.update_of_ne hee, hnext]⟩
  fresh_inj u v e' hu hv := by
    rcases own_setPusher_cases hu with ⟨rfl, hpc⟩ | ⟨-, hu'⟩ <;>
      rcases own_setPusher_cases hv with ⟨rfl, hpc'⟩ | ⟨-, hv'⟩
    · rfl
    · obtain rfl : entry = e' := Option.some.inj hpc
      exact absurd (h.fresh v _ hv').1 he
    · obtain rfl : entry = e' := Option.some.inj hpc'
      exact absurd (h.fresh u _ hu').1 he
    · exact h.fresh_inj u v e' hu' hv'
  lock_pusher u hu := by
    have hh := h.lock_pusher u hu
    have hne : u ≠ t := by
      rintro rfl
      rw [ht] at hh
      exact hh
    show ((s.setPusher t _).pushers u).Holds
    rwa [setPusher_of_ne hne]
  lock_worker := h.lock_worker
  covered hw := by
    refine (h.covered ?_).setPusher (by rw [ht]; simp)
    refine hw.congr fun e' he' ↦ ?_
    have hee : e' ≠ entry := fun hb ↦ he (hb ▸ h.allocated e' (List.mem_append_left _ he'))
    exact Function.update_of_ne hee ..

omit [DecidableEq ε] in
/-- A thread that moves on without touching the chain. -/
theorem WellLinked.move {lock : Option (Owner τ)} {signaled : Bool} (h : s.WellLinked l)
    (hentry : ∀ e, pc.own = some e → (s.pushers t).own = some e)
    (hpusher : ∀ u, lock = some (.pusher u) → ((s.setPusher t pc).pushers u).Holds)
    (hworker : lock = some .worker → s.worker.Holds)
    (hcovered : s.Covered l → Covered { s.setPusher t pc with signaled := signaled } l) :
    WellLinked { s.setPusher t pc with lock := lock, signaled := signaled } l where
  pushed := h.pushed
  delimits := h.delimits
  nodup := h.nodup
  allocated := h.allocated
  fresh u e' hu := by
    rcases own_setPusher_cases hu with ⟨rfl, hpc⟩ | ⟨-, hu'⟩
    · exact h.fresh u e' (hentry e' hpc)
    · exact h.fresh u e' hu'
  fresh_inj u v e' hu hv := by
    rcases own_setPusher_cases hu with ⟨rfl, hpc⟩ | ⟨-, hu'⟩ <;>
      rcases own_setPusher_cases hv with ⟨rfl, hpc'⟩ | ⟨-, hv'⟩
    · rfl
    · exact h.fresh_inj u v e' (hentry e' hpc) hv'
    · exact h.fresh_inj u v e' hu' (hentry e' hpc')
    · exact h.fresh_inj u v e' hu' hv'
  lock_pusher := hpusher
  lock_worker := hworker
  covered hw := hcovered (h.covered hw)

/-- The assignments of `push`. The worker that does not see the new entry behind its own is covered
by the thread itself, which sets the event next. -/
theorem WellLinked.link (h : s.WellLinked l) (ht : s.pushers t = .linking entry) :
    WellLinked { s.setPusher t .signalling with
      links := s.links.push entry, pushed := s.pushed ++ [entry] } (l ++ [entry]) := by
  obtain ⟨halloc, hmem, hnext⟩ := h.fresh t entry (by rw [ht]; rfl)
  have hl : entry ∉ l := fun hb ↦ hmem (List.mem_append_right _ hb)
  have hnd : l.Nodup := h.nodup.of_append_right
  refine ⟨?_, h.delimits.push hnd hl hnext, ?_, fun e' he' ↦ ?_, fun u e' hu ↦ ?_,
    fun u v e' hu hv ↦ ?_, fun u hu ↦ ?_, h.lock_worker, fun _ ↦ .inr (.inr ⟨t, setPusher_self⟩)⟩
  · show s.pushed ++ [entry] = s.handled ++ s.worker.hand ++ (l ++ [entry])
    rw [h.pushed, List.append_assoc _ l]
  · show (s.worker.held ++ (l ++ [entry])).Nodup
    rw [← List.append_assoc]
    exact List.nodup_append.2 ⟨h.nodup, List.nodup_singleton _, fun a ha b hb hab ↦
      hmem (List.mem_singleton.1 hb ▸ hab ▸ ha)⟩
  · rw [← List.append_assoc] at he'
    rcases List.mem_append.1 he' with he' | he'
    · exact h.allocated e' he'
    · exact List.mem_singleton.1 he' ▸ halloc
  · -- what another thread is about to push stays outside of the chain
    rcases own_setPusher_cases hu with ⟨-, hpc⟩ | ⟨hne, hu'⟩
    · cases hpc
    · obtain ⟨halloc', hmem', hnext'⟩ := h.fresh u e' hu'
      have hee : e' ≠ entry := by
        rintro rfl
        exact hne (h.fresh_inj u t e' hu' (by rw [ht]; rfl))
      refine ⟨halloc', fun hb ↦ ?_, ?_⟩
      · rw [← List.append_assoc] at hb
        exact (List.mem_append.1 hb).elim hmem' fun hb ↦ hee (List.mem_singleton.1 hb)
      · show (s.links.push entry).next e' = none
        rw [h.delimits.push_next fun hb ↦ hmem' (List.mem_append_right _ hb), hnext']
  · rcases own_setPusher_cases hu with ⟨-, hpc⟩ | ⟨-, hu'⟩
    · cases hpc
    · rcases own_setPusher_cases hv with ⟨-, hpc⟩ | ⟨-, hv'⟩
      · cases hpc
      · exact h.fresh_inj u v e' hu' hv'
  · show ((s.setPusher t _).pushers u).Holds
    rcases eq_or_ne u t with rfl | hne
    · rw [setPusher_self]
      trivial
    · rw [setPusher_of_ne hne]
      exact h.lock_pusher u hu

/-- A thread in `push` goes on. -/
theorem WellLinked.pushStep (h : s.WellLinked l) (hst : s.pushStep t = some s') :
    ∃ l', s'.WellLinked l' := by
  rw [Queue.pushStep.eq_def] at hst
  split at hst
  case h_1 => cases hst
  case h_2 entry ht =>
    split at hst
    case h_2 => cases hst
    case h_1 hlock =>
      obtain rfl := Option.some.inj hst
      refine ⟨l, h.move (fun e' he' ↦ by rw [ht]; exact he') (fun u hu ↦ ?_) (by simp)
        fun hc ↦ hc.setPusher (by rw [ht]; simp)⟩
      obtain rfl : t = u := by simpa using hu
      rw [setPusher_self]
      trivial
  case h_3 entry ht =>
    obtain rfl := Option.some.inj hst
    exact ⟨_, h.link ht⟩
  case h_4 ht =>
    obtain rfl := Option.some.inj hst
    refine ⟨l, h.move (fun e' he' ↦ by cases he') (fun u hu ↦ ?_) h.lock_worker
      fun _ ↦ .inr (.inl rfl)⟩
    rcases eq_or_ne u t with rfl | hne
    · rw [setPusher_self]
      trivial
    · rw [setPusher_of_ne hne]
      exact h.lock_pusher u hu
  case h_5 ht =>
    obtain rfl := Option.some.inj hst
    exact ⟨l, h.move (fun e' he' ↦ by cases he') (by simp) (by simp)
      fun hc ↦ hc.setPusher (by rw [ht]; simp)⟩

/-! #### The steps of the worker -/

omit [DecidableEq τ] [DecidableEq ε] in
/-- The worker moves on without touching the chain, with the same entry in hand. -/
theorem WellLinked.work {w : WorkerPc ε} {lock : Option (Owner τ)} {signaled : Bool}
    (h : s.WellLinked l)
    (hhand : w.hand = s.worker.hand) (hheld : w.held = s.worker.held)
    (hpusher : ∀ u, lock = some (.pusher u) → (s.pushers u).Holds)
    (hworker : lock = some .worker → w.Holds)
    (hcovered : w.Returns s.links.next → Covered { s with signaled := signaled } l) :
    WellLinked { s with worker := w, lock := lock, signaled := signaled } l where
  pushed := by
    show s.pushed = s.handled ++ w.hand ++ l
    rw [hhand, h.pushed]
  delimits := h.delimits
  nodup := by
    show (w.held ++ l).Nodup
    exact hheld ▸ h.nodup
  allocated e' he' := h.allocated e' (hheld ▸ he')
  fresh u e' hu := by
    show _ ∧ e' ∉ w.held ++ l ∧ _
    exact hheld ▸ h.fresh u e' hu
  fresh_inj := h.fresh_inj
  lock_pusher := hpusher
  lock_worker := hworker
  covered := hcovered

omit [DecidableEq τ] [DecidableEq ε] in
/-- The worker goes on outside the critical section. -/
theorem WellLinked.workOutside {w pc : WorkerPc ε} {signaled : Bool} (h : s.WellLinked l)
    (hw : s.worker = pc)
    (hpc : ¬pc.Holds) (hhand : w.hand = pc.hand) (hheld : w.held = pc.held)
    (hcovered : w.Returns s.links.next → Covered { s with signaled := signaled } l) :
    WellLinked { s with worker := w, signaled := signaled } l := by
  subst hw
  exact h.work hhand hheld h.lock_pusher (fun hl ↦ absurd (h.lock_worker hl) hpc) hcovered

omit [DecidableEq τ] [DecidableEq ε] in
/-- The worker leaves the critical section. -/
theorem WellLinked.workUnlock {w pc : WorkerPc ε} (h : s.WellLinked l) (hw : s.worker = pc)
    (hhand : w.hand = pc.hand) (hheld : w.held = pc.held)
    (hreturns : w.Returns s.links.next → pc.Returns s.links.next) :
    WellLinked { s with worker := w, lock := none } l := by
  subst hw
  exact h.work hhand hheld nofun nofun fun hr ↦ h.covered (hreturns hr)

omit [DecidableEq τ] in
/-- `pop` on a queue with entries: if the one taken does not point to another, it was the last. -/
theorem WellLinked.pop (h : s.WellLinked (e :: l)) (hw : s.worker = .popping) :
    WellLinked { s with worker := .unlocking s.links.pop.1, links := s.links.pop.2 } l := by
  have hnd : (e :: l).Nodup := h.nodup.of_append_right
  obtain ⟨hfst, hdelimits⟩ := h.delimits.pop hnd
  have hhand : s.worker.hand = [] := by rw [hw]; rfl
  have hheld : s.worker.held = [] := by rw [hw]; rfl
  have hnext : s.links.next e = l.head? := h.delimits.linked.1
  have hpushed := h.pushed
  have hall := h.allocated
  have hfresh := h.fresh
  rw [hhand, List.append_nil] at hpushed
  rw [hheld, List.nil_append] at hall hfresh
  rw [hfst]
  refine ⟨?_, hdelimits, hnd, hall, hfresh, h.fresh_inj, h.lock_pusher, fun _ ↦ trivial,
    fun hr ↦ .inl ?_⟩
  · show s.pushed = s.handled ++ [e] ++ l
    rw [hpushed, List.append_assoc, List.singleton_append]
  · have hr' : s.links.next e = none := hr
    rwa [hnext, List.head?_eq_none_iff] at hr'

omit [DecidableEq τ] in
/-- `pop` on the empty queue. -/
theorem WellLinked.pop_nil (h : s.WellLinked []) (hw : s.worker = .popping) :
    WellLinked { s with worker := .unlocking s.links.pop.1, links := s.links.pop.2 } [] := by
  obtain ⟨hfst, hdelimits⟩ := h.delimits.pop_nil
  have hhand : s.worker.hand = [] := by rw [hw]; rfl
  have hheld : s.worker.held = [] := by rw [hw]; rfl
  have hpushed := h.pushed
  have hfresh := h.fresh
  rw [hhand] at hpushed
  rw [hheld] at hfresh
  rw [hfst]
  exact ⟨hpushed, hdelimits, List.nodup_nil, fun e' he' ↦ absurd he' List.not_mem_nil, hfresh,
    h.fresh_inj, h.lock_pusher, fun _ ↦ trivial, fun _ ↦ .inl rfl⟩

omit [DecidableEq τ] [DecidableEq ε] in
/-- The entry in hand is handled. -/
theorem WellLinked.handle (h : s.WellLinked l) (hw : s.worker = .handling e) :
    WellLinked { s with worker := .deleting e, handled := s.handled ++ [e] } l := by
  have hheld : s.worker.held = [e] := by rw [hw]; rfl
  have hhand : s.worker.hand = [e] := by rw [hw]; rfl
  have hpushed := h.pushed
  have hnd := h.nodup
  have hall := h.allocated
  have hfresh := h.fresh
  rw [hhand] at hpushed
  rw [hheld] at hnd hall hfresh
  refine ⟨?_, h.delimits, hnd, hall, hfresh, h.fresh_inj, h.lock_pusher, fun hl ↦ ?_,
    fun _ ↦ h.covered (by rw [hw]; trivial)⟩
  · show s.pushed = s.handled ++ [e] ++ [] ++ l
    rw [hpushed, List.append_nil]
  · have hh := h.lock_worker hl
    rw [hw] at hh
    exact hh.elim

omit [DecidableEq τ] in
/-- The entry that was handled is deleted. -/
theorem WellLinked.delete (h : s.WellLinked l) (hw : s.worker = .deleting e) :
    WellLinked { s with worker := .waiting, allocated := s.allocated.erase e } l := by
  have hheld : s.worker.held = [e] := by rw [hw]; rfl
  have hhand : s.worker.hand = [] := by rw [hw]; rfl
  have hpushed := h.pushed
  have hnd := h.nodup
  have hall := h.allocated
  have hfresh := h.fresh
  rw [hhand] at hpushed
  rw [hheld, List.singleton_append] at hnd hall hfresh
  obtain ⟨hel, hnd⟩ := List.nodup_cons.1 hnd
  refine ⟨hpushed, h.delimits, hnd, fun e' he' ↦ ?_, fun u e' hu ↦ ?_, h.fresh_inj, h.lock_pusher,
    fun hl ↦ ?_, fun _ ↦ h.covered (by rw [hw]; trivial)⟩
  · have hne : e' ≠ e := by
      rintro rfl
      exact hel he'
    exact Finset.mem_erase.2 ⟨hne, hall e' (List.mem_cons_of_mem _ he')⟩
  · obtain ⟨halloc, hmem, hnext⟩ := hfresh u e' hu
    obtain ⟨hne, hl⟩ := not_or.1 (mt List.mem_cons.2 hmem)
    exact ⟨Finset.mem_erase.2 ⟨hne, halloc⟩, hl, hnext⟩
  · have hh := h.lock_worker hl
    rw [hw] at hh
    exact hh.elim

omit [DecidableEq τ] in
/-- **The worker goes on**, and gets closer to the end of what is queued. -/
theorem WellLinked.workStep (h : s.WellLinked l) (hst : s.workStep = some s') :
    ∃ l', s'.WellLinked l' ∧
      (s.worker.hand ++ l ≠ [] → s'.worker.distance l' < s.worker.distance l) := by
  rw [Queue.workStep.eq_def] at hst
  split at hst
  case h_1 hw =>
    split at hst
    case isFalse => cases hst
    case isTrue =>
      obtain rfl := Option.some.inj hst
      refine ⟨l, h.workOutside hw id rfl rfl fun hr ↦ hr.elim, fun _ ↦ ?_⟩
      rw [hw]
      exact Nat.lt_succ_self _
  case h_2 hw =>
    split at hst
    case h_2 => cases hst
    case h_1 hlock =>
      obtain rfl := Option.some.inj hst
      refine ⟨l, h.work (by rw [hw]; rfl) (by rw [hw]; rfl) (by simp) (fun _ ↦ trivial)
        fun hr ↦ hr.elim, fun _ ↦ ?_⟩
      rw [hw]
      exact Nat.lt_succ_self _
  case h_3 hw =>
    obtain rfl := Option.some.inj hst
    cases l with
    | nil =>
      refine ⟨[], h.pop_nil hw, fun hne ↦ absurd ?_ hne⟩
      rw [hw]
      rfl
    | cons e l =>
      have hfst : s.links.pop.1 = some e := h.delimits.head
      refine ⟨l, h.pop hw, fun _ ↦ ?_⟩
      show WorkerPc.distance l (.unlocking s.links.pop.1) < _
      rw [hfst, hw]
      simp only [WorkerPc.distance, List.length_cons]
      omega
  case h_4 hw =>
    obtain rfl := Option.some.inj hst
    refine ⟨l, h.workUnlock hw rfl rfl fun _ ↦ trivial, fun _ ↦ ?_⟩
    rw [hw]
    exact Nat.lt_succ_self _
  case h_5 entry hw =>
    obtain rfl := Option.some.inj hst
    refine ⟨l, h.workUnlock hw rfl rfl id, fun _ ↦ ?_⟩
    rw [hw]
    exact Nat.lt_succ_self _
  case h_6 entry hw =>
    split at hst
    case h_1 =>
      obtain rfl := Option.some.inj hst
      refine ⟨l, h.workOutside hw id rfl rfl fun hr ↦ hr.elim, fun _ ↦ ?_⟩
      rw [hw]
      exact Nat.lt_succ_self _
    case h_2 hnext =>
      obtain rfl := Option.some.inj hst
      -- the entry is the last one: the worker returns to its wait behind it
      refine ⟨l, h.workOutside hw id rfl rfl fun _ ↦ h.covered (by rw [hw]; exact hnext),
        fun _ ↦ ?_⟩
      rw [hw]
      simp [WorkerPc.distance]
  case h_7 entry hw =>
    obtain rfl := Option.some.inj hst
    refine ⟨l, h.workOutside hw id rfl rfl fun _ ↦ .inr (.inl rfl), fun _ ↦ ?_⟩
    rw [hw]
    exact Nat.lt_succ_self _
  case h_8 entry hw =>
    obtain rfl := Option.some.inj hst
    refine ⟨l, h.handle hw, fun _ ↦ ?_⟩
    rw [hw]
    exact Nat.lt_succ_self _
  case h_9 entry hw =>
    obtain rfl := Option.some.inj hst
    refine ⟨l, h.delete hw, fun _ ↦ ?_⟩
    rw [hw]
    exact Nat.lt_succ_self _

omit [DecidableEq τ] in
/-- The worker takes no part in pushing. -/
theorem frame_of_workStep (hst : s.workStep = some s') :
    s'.pushers = s.pushers ∧ s'.pushed = s.pushed := by
  rw [Queue.workStep.eq_def] at hst
  repeat' split at hst
  all_goals cases hst
  all_goals exact ⟨rfl, rfl⟩

omit [DecidableEq τ] in
/-- With no `push` in progress, the worker stops only where nothing is queued. -/
theorem WellLinked.exists_workStep (h : s.WellLinked l) (hidle : ∀ t, s.pushers t = .idle)
    (hne : s.worker.hand ++ l ≠ []) : ∃ s', s.workStep = some s' := by
  rw [Queue.workStep.eq_def]
  split
  -- waiting: the event is set if something is queued
  case h_1 hw =>
    rcases h.covered (by rw [hw]; trivial) with hl | hsig | ⟨t, ht⟩
    · rw [hw, hl] at hne
      exact absurd rfl hne
    · rw [if_pos hsig]
      exact ⟨_, rfl⟩
    · rw [hidle t] at ht
      cases ht
  -- about to lock: nobody is in the critical section
  case h_2 hw =>
    cases hlock : s.lock with
    | none => exact ⟨_, rfl⟩
    | some o =>
      cases o with
      | pusher t =>
        have hh := h.lock_pusher t hlock
        rw [hidle t] at hh
        exact hh.elim
      | worker =>
        have hh := h.lock_worker hlock
        rw [hw] at hh
        exact hh.elim
  case h_6 entry hw =>
    cases s.links.next entry with
    | none => exact ⟨_, rfl⟩
    | some e => exact ⟨_, rfl⟩
  all_goals exact ⟨_, rfl⟩

/-- With no `push` in progress, the worker alone handles all that was pushed. -/
theorem WellLinked.drains (h : s.WellLinked l) (hidle : ∀ t, s.pushers t = .idle) :
    ∃ n s', Transition.run step s (List.replicate n .work) = some s' ∧ s'.handled = s.pushed := by
  -- the induction is on the worker's distance from the end of the queue
  induction hd : s.worker.distance l using Nat.strong_induction_on generalizing s l with
  | _ d ih =>
    by_cases hne : s.worker.hand ++ l = []
    · refine ⟨0, s, rfl, ?_⟩
      rw [h.pushed, List.append_assoc, hne, List.append_nil]
    · obtain ⟨u, hu⟩ := h.exists_workStep hidle hne
      obtain ⟨l', hk, hlt⟩ := h.workStep hu
      obtain ⟨hpushers, hpushed⟩ := frame_of_workStep hu
      obtain ⟨n, s', hrun, hhandled⟩ :=
        ih _ (hd ▸ hlt hne) hk (fun t ↦ by rw [hpushers, hidle t]) rfl
      refine ⟨n + 1, s', ?_, hhandled.trans hpushed⟩
      rw [List.replicate_succ]
      exact (Transition.run_cons_of_eq (a := QueueEvent.work) hu _).trans hrun

/-! #### Runs -/

/-- **Every step keeps the invariant.** -/
theorem wellLinked_step {ev : QueueEvent τ ε} (h : s.WellLinked l) (hst : s.step ev = some s') :
    ∃ l', s'.WellLinked l' := by
  cases ev with
  | call t entry =>
    rw [step.eq_def] at hst
    dsimp only at hst
    split at hst
    case h_2 => cases hst
    case h_1 ht =>
      split at hst
      case isTrue => cases hst
      case isFalse he =>
        obtain rfl := Option.some.inj hst
        exact ⟨l, h.call ht he⟩
  | push t => exact h.pushStep hst
  | work =>
    obtain ⟨l', hk, -⟩ := h.workStep hst
    exact ⟨l', hk⟩

theorem WellLinked.sound (h : s.WellLinked l) : s.Sound where
  chain := ⟨l, h.delimits, h.pushed⟩
  woken hw hidle hhead := by
    rcases h.covered (by rw [hw]; trivial) with hl | hsig | ⟨t, ht⟩
    · rw [h.delimits.head, hl] at hhead
      exact absurd rfl hhead
    · exact hsig
    · rw [hidle t] at ht
      cases ht
  drains := h.drains

/-- **The queue loses nothing**, whatever the threads do and however they are interleaved. -/
theorem handles_of_run {next : ε → Option ε} {evs : List (QueueEvent τ ε)}
    (hrun : Transition.run step (start next) evs = some s) : s.Sound := by
  obtain ⟨l, hl⟩ := Transition.invariant_run' (I := fun s ↦ ∃ l, WellLinked s l)
    (fun _ _ _ ⟨_, h⟩ hst ↦ wellLinked_step h hst) ⟨[], wellLinked_start next⟩ hrun
  exact hl.sound

end Invariant

/-- Two threads push while the worker is at the wait, which one signal ends; it takes the first
entry. -/
theorem handles_of_run_two :
    ∃ s, Transition.run step (start fun _ ↦ none : Queue Bool Bool)
        [.call true true, .call false false, .push true, .push true, .push true, .push true,
          .push false, .push false, .push false, .push false, .work, .work, .work] = some s ∧
      s.pushed = [true, false] ∧ s.worker = .unlocking (some true) ∧ s.signaled = false ∧
      s.Sound := by
  have hrun : Transition.run step (start fun _ ↦ none : Queue Bool Bool)
      [.call true true, .call false false, .push true, .push true, .push true, .push true,
        .push false, .push false, .push false, .push false, .work, .work, .work] = some _ := rfl
  exact ⟨_, hrun, rfl, rfl, rfl, handles_of_run hrun⟩

end Queue

end JnetLib.Worker
