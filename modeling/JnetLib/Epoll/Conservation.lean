import JnetLib.Epoll.Submissions

/-!
# Conservation of work

Only the start of a submission adds an entry to the ledger, and only the end of its completion takes
one away. So `outstanding_work_` comes down to zero when nothing is left to wait for
(`conserved_of_run`).

* Every submission has a number of its own, whatever the environment does (`numbered_of_run`); so
  none is at two places.
* A step of any thread puts one submission on its way, finishes one, or keeps the balance
  (`ledger_step`).
* Only filling an occupied slot drops a submission, and only an environment that is not `Orderly`
  does so. That a slot is free again when its operation has been posted is the wiring of slots,
  masks and kernel (`isWired_step`).

The last submission that is executed finds the count at one; `Conserved.last` says that it is the
last one then.
-/

namespace JnetLib.Epoll

namespace Service

open Transition

variable {ι τ : Type*} [DecidableEq ι] [DecidableEq τ] [Fintype ι] [Fintype τ]
variable {s s' s'' : Service ι τ} {t : τ} {e : Event ι τ}

/-! ### What one step does -/

omit [DecidableEq ι] [DecidableEq τ] [Fintype ι] [Fintype τ] in
/-- What is in `completed_ops_` is ready to be completed. -/
def AllReady (s : Service ι τ) : Prop := ∀ x, some x ∈ s.completedOps → s.ready x.id = true

omit [DecidableEq ι] [DecidableEq τ] [Fintype ι] [Fintype τ] in
theorem allReady_postDeferredCompletion (h : s.AllReady) (x : Option (Submission ι)) :
    (s.postDeferredCompletion x).AllReady := by
  intro y hmem
  rcases List.mem_append.1 hmem with hy | hy
  · cases x with
    | none => exact h y hy
    | some x =>
      show Function.update s.ready x.id true y.id = true
      rw [Function.update_apply, h y hy, ite_self]
  · cases x with
    | none => simp at hy
    | some x =>
      obtain rfl := Option.some.inj (List.mem_singleton.1 hy)
      exact Function.update_self _ _ _

omit [DecidableEq ι] [DecidableEq τ] [Fintype ι] [Fintype τ] in
theorem allReady_stop (h : s.AllReady) : s.stop.AllReady := by
  rw [stop]
  split
  · exact h
  · exact allReady_postDeferredCompletion (s := { s with stopped := true }) h none

omit [DecidableEq ι] [Fintype ι] [Fintype τ] in
theorem allReady_dispatch (h : s.AllReady) : (s.dispatch t).AllReady := by
  have htail : ∀ x q, s.completedOps = x :: q → ∀ y, some y ∈ q → s.ready y.id = true :=
    fun x q hq y hy ↦ h y (by rw [hq]; exact List.mem_cons_of_mem _ hy)
  rw [dispatch]
  split
  case h_1 => exact h
  case h_2 x q hq =>
    split
    · exact htail _ q hq
    · intro y hy
      show Function.update s.ready x.id true y.id = true
      rw [Function.update_apply, htail _ q hq y hy, ite_self]
  case h_3 q hq => exact htail _ q hq

/-- The submission that fills a slot takes the place of what is there. -/
def displaced (s : Service ι τ) : Target ι → Multiset (Submission ι)
  | .slot p => held (s.slots p)
  | _ => 0

theorem submissions_goCall_of_idle (hcall : s.calls t = .idle) (c : Call ι) :
    (s.goCall t c).submissions = s.submissions + c.hand := by
  have hgo := submissions_goCall s t c
  rw [hcall] at hgo
  exact (add_zero _).symm.trans hgo

omit [DecidableEq ι] [Fintype ι] in
theorem due_goCall_of_idle (hcall : s.calls t = .idle) (c : Call ι) :
    (s.goCall t c).due = s.due + c.uncounted.card := by
  have hgo := due_goCall s t c
  rw [hcall] at hgo
  exact (add_zero _).symm.trans hgo

/-- A submission puts one thing on its way. -/
theorem submissions_submit (hcall : s.calls t = .idle) (target : Target ι) :
    (s.submit t target).submissions + s.displaced target =
      s.submissions + {⟨s.nextId, target⟩} := by
  cases target with
  | slot p =>
    have hslots := submissions_slots { s with nextId := s.nextId + 1 } p
      (some ⟨s.nextId, .slot p⟩)
    have hgo := submissions_goCall_of_idle (s := { s with
      nextId := s.nextId + 1, slots := Function.update s.slots p (some ⟨s.nextId, .slot p⟩) }) hcall
        (.stored ⟨s.nextId, .slot p⟩)
    rw [show (Call.stored (⟨s.nextId, .slot p⟩ : Submission ι)).hand = 0 from rfl, add_zero] at hgo
    exact (congrArg (· + held (s.slots p)) hgo).trans hslots
  | posted =>
    have hgo := submissions_goCall_of_idle (s := { s with nextId := s.nextId + 1 }.workStarted)
      hcall (.counted ⟨s.nextId, .posted⟩)
    rw [show s.displaced .posted = 0 from rfl, add_zero]
    exact hgo
  | queued w =>
    have hgo := submissions_goCall_of_idle (s := { s with nextId := s.nextId + 1 }.workStarted)
      hcall (.counted ⟨s.nextId, .queued w⟩)
    rw [show s.displaced (.queued w) = 0 from rfl, add_zero]
    exact hgo

omit [Fintype ι] in
theorem due_submit (hcall : s.calls t = .idle) (target : Target ι) :
    (s.submit t target).due = s.due + 1 := by
  have hcounted (x : Submission ι) : ({ s with nextId := s.nextId + 1 }.workStarted.goCall t
      (.counted x)).due = s.due + 1 := by
    have hgo := due_goCall_of_idle (s := { s with nextId := s.nextId + 1 }.workStarted) hcall
      (.counted x)
    rw [show (Call.counted x).uncounted = 0 from rfl, Multiset.card_zero, Int.natCast_zero,
      add_zero, due_workStarted] at hgo
    exact hgo
  cases target with
  | slot p =>
    exact due_goCall_of_idle (s := { s with
      nextId := s.nextId + 1, slots := Function.update s.slots p (some ⟨s.nextId, .slot p⟩) }) hcall
        (.stored ⟨s.nextId, .slot p⟩)
  | posted => exact hcounted ⟨s.nextId, .posted⟩
  | queued w => exact hcounted ⟨s.nextId, .queued w⟩

/-- A thread that takes an operation off `completed_ops_` has it in its hands. -/
theorem balanced_dispatch (hready : s.AllReady) (hplace : s.places t = .events []) :
    Balanced s (s.dispatch t) := by
  have hzero : 0 = (s.places t).hand + (s.places t).running := by
    rw [hplace]
    rfl
  rw [dispatch]
  split
  case h_1 => exact balanced_go hzero
  case h_2 x q hq =>
    rw [if_pos (hready x (by rw [hq]; exact List.mem_cons_self))]
    refine ⟨rfl, rfl, ?_⟩
    have hops := submissions_completedOps s q
    have hgo := submissions_go { s with completedOps := q } t (.executing x)
    rw [← hzero, add_zero] at hgo
    rw [hq, show ((some x :: q).filterMap id : Multiset (Submission ι)) =
      {x} + (q.filterMap id : List (Submission ι)) from rfl, ← add_assoc] at hops
    refine hgo.trans (Eq.trans ?_ (add_right_cancel hops))
    exact congrArg _ (zero_add _)
  case h_3 q hq =>
    have hops := submissions_completedOps s q
    rw [hq] at hops
    have hrest : Balanced s { s with completedOps := q } := ⟨rfl, rfl, add_right_cancel hops⟩
    exact hrest.trans (balanced_go (s := { s with completedOps := q }) hzero)

/-- A call puts a submission on its way. -/
theorem ledger_submit {target : Target ι} (h : s.step (.submit t target) = some s') :
    s'.nextId = s.nextId + 1 ∧ s'.due = s.due + 1 ∧
      s'.submissions + s.displaced target = s.submissions + {⟨s.nextId, target⟩} := by
  obtain ⟨hcall, rfl⟩ : s.calls t = .idle ∧ s.submit t target = s' := by
    rw [step] at h
    split at h
    case h_1 hcall hplace => exact ⟨hcall, Option.some.inj h⟩
    case h_2 x hcall hplace => exact ⟨hcall, Option.some.inj h⟩
    case h_3 => cases h
  have hid : (s.submit t target).nextId = s.nextId + 1 := by cases target <;> rfl
  exact ⟨hid, due_submit hcall target, submissions_submit hcall target⟩

/-- The end of a completion finishes the submission the thread was at work on. -/
theorem ledger_finish (h : s.step (.finish t) = some s') :
    ∃ x, s'.nextId = s.nextId ∧ s'.due + 1 = s.due ∧ s'.submissions + {x} = s.submissions := by
  rw [step] at h
  split at h
  case h_1 x hplace =>
    obtain ⟨-, ht⟩ := Option.ite_none_right_eq_some.1 h
    obtain rfl := Option.some.inj ht
    refine ⟨x, rfl, ?_, ?_⟩
    · show s.outstandingWork - 1 + (tally Call.uncounted s.calls).card + 1 =
        s.outstandingWork + (tally Call.uncounted s.calls).card
      omega
    · have hgo := submissions_go { s with outstandingWork := s.outstandingWork - 1 } t
        (if s.outstandingWork - 1 = 0 then .stopping else .top)
      have hone : (s.places t).hand + (s.places t).running = {x} := by
        rw [hplace]
        rfl
      rw [hone] at hgo
      refine hgo.trans ?_
      split <;> exact add_zero _
  case h_2 => cases h

/-- A worker takes the first submission of its queue into its hand. -/
theorem balanced_pop {w : Worker} (h : s.step (.pop w) = some s') : Balanced s s' := by
  rw [step] at h
  split at h
  case h_1 x q hhand hqueue =>
    obtain rfl := Option.some.inj h
    refine ⟨rfl, rfl, ?_⟩
    have hqueues := submissions_queues s w q
    have hhands := submissions_hands { s with queues := Function.update s.queues w q } w (some x)
    rw [hhand] at hhands
    rw [hqueue, show ((x :: q : List (Submission ι)) : Multiset (Submission ι)) =
      {x} + (q : Multiset _) from rfl, ← add_assoc] at hqueues
    exact (add_zero _).symm.trans (hhands.trans (add_right_cancel hqueues))
  case h_2 => cases h

/-- A worker posts the submission from its hand. -/
theorem balanced_complete {w : Worker} (h : s.step (.complete w) = some s') : Balanced s s' := by
  rw [step] at h
  split at h
  case h_1 x hhand =>
    obtain rfl := Option.some.inj h
    refine ⟨rfl, rfl, ?_⟩
    have hhands := submissions_hands s w none
    rw [hhand] at hhands
    exact (submissions_postDeferredCompletion _ (some x)).trans (hhands.trans (add_zero _))
  case h_2 => cases h

/-- **A step of any thread** puts a submission on its way, finishes one, or keeps the balance. -/
theorem ledger_step (hready : s.AllReady) (h : s.step e = some s') :
    (∃ t target, e = .submit t target ∧ s'.nextId = s.nextId + 1 ∧ s'.due = s.due + 1 ∧
        s'.submissions + s.displaced target = s.submissions + {⟨s.nextId, target⟩}) ∨
      (∃ x, s'.nextId = s.nextId ∧ s'.due + 1 = s.due ∧ s'.submissions + {x} = s.submissions) ∨
        Balanced s s' := by
  cases e with
  | enter t =>
    obtain ⟨⟨hplace, -⟩, ht⟩ := Option.ite_none_right_eq_some.1 h
    obtain rfl := Option.some.inj ht
    refine .inr (.inr (balanced_go ?_))
    rw [hplace]
    split <;> rfl
  | leave t =>
    obtain ⟨hplace, ht⟩ := Option.ite_none_right_eq_some.1 h
    obtain rfl := Option.some.inj ht
    refine .inr (.inr (balanced_go ?_))
    rcases hplace with hplace | hplace <;> rw [hplace] <;> rfl
  | wait t l =>
    obtain ⟨⟨hplace, -⟩, ht⟩ := Option.ite_none_right_eq_some.1 h
    obtain rfl := Option.some.inj ht
    refine .inr (.inr (balanced_go ?_))
    rw [hplace]
    rfl
  | dispatch t =>
    obtain ⟨hplace, ht⟩ := Option.ite_none_right_eq_some.1 h
    obtain rfl := Option.some.inj ht
    exact .inr (.inr (balanced_dispatch hready hplace))
  | finish t => exact .inr (.inl (ledger_finish h))
  | submit t target => exact .inl ⟨t, target, rfl, ledger_submit h⟩
  | call t => exact .inr (.inr (balanced_stepCall h))
  | run t => exact .inr (.inr (balanced_stepRun h))
  | pop w => exact .inr (.inr (balanced_pop h))
  | complete w => exact .inr (.inr (balanced_complete h))
  | opened i =>
    rw [step] at h
    split at h
    · cases h
    · exact .inr (.inr (Option.some.inj h ▸ ⟨rfl, rfl, rfl⟩))
  | closed i =>
    obtain ⟨-, ht⟩ := Option.ite_none_right_eq_some.1 h
    exact .inr (.inr (Option.some.inj ht ▸ ⟨rfl, rfl, rfl⟩))

/-! ### The numbers of the submissions -/

omit [DecidableEq ι] [DecidableEq τ] in
/-- Every submission has a number of its own, whatever the environment does. -/
structure Numbered (s : Service ι τ) : Prop where
  ready : s.AllReady
  once : (s.submissions.map Submission.id).Nodup
  fresh : ∀ x ∈ s.submissions, x.id < s.nextId

omit [Fintype ι] [Fintype τ] in
theorem allReady_stepCall (h : s.AllReady) (hstep : s.stepCall t = some s') : s'.AllReady := by
  rw [stepCall] at hstep
  split at hstep
  case h_1 => cases hstep
  case h_2 => exact Option.some.inj hstep ▸ h
  case h_3 x hcall =>
    obtain rfl := Option.some.inj hstep
    rw [submitCounted]
    split
    case h_1 => split <;> exact h
    case h_2 => exact h
    case h_3 => exact allReady_postDeferredCompletion h (some x)
  case h_4 =>
    split at hstep
    · exact Option.some.inj hstep ▸ h
    · cases hstep

omit [Fintype ι] [Fintype τ] in
theorem allReady_stepRun (h : s.AllReady) (hstep : s.stepRun t = some s') : s'.AllReady := by
  rw [stepRun] at hstep
  split at hstep
  case h_1 =>
    obtain rfl := Option.some.inj hstep
    split <;> exact h
  case h_2 => exact Option.some.inj hstep ▸ h
  case h_3 =>
    obtain rfl := Option.some.inj hstep
    split <;> exact h
  case h_4 => exact Option.some.inj hstep ▸ h
  case h_5 x l hplace => exact Option.some.inj hstep ▸ allReady_postDeferredCompletion h (some x)
  case h_6 => exact Option.some.inj hstep ▸ h
  case h_7 => exact Option.some.inj hstep ▸ allReady_stop h
  case h_8 => exact Option.some.inj hstep ▸ h
  case h_9 => exact Option.some.inj hstep ▸ allReady_postDeferredCompletion h none
  case h_10 => exact Option.some.inj hstep ▸ h
  case h_11 => cases hstep

omit [Fintype ι] [Fintype τ] in
theorem allReady_step (h : s.AllReady) (hstep : s.step e = some s') : s'.AllReady := by
  cases e with
  | enter t => exact Option.some.inj (Option.ite_none_right_eq_some.1 hstep).2 ▸ h
  | leave t => exact Option.some.inj (Option.ite_none_right_eq_some.1 hstep).2 ▸ h
  | wait t l => exact Option.some.inj (Option.ite_none_right_eq_some.1 hstep).2 ▸ h
  | dispatch t =>
    exact Option.some.inj (Option.ite_none_right_eq_some.1 hstep).2 ▸ allReady_dispatch h
  | finish t =>
    rw [step] at hstep
    split at hstep
    · exact Option.some.inj (Option.ite_none_right_eq_some.1 hstep).2 ▸ h
    · cases hstep
  | submit t target =>
    have hall : (s.submit t target).AllReady := by cases target <;> exact h
    rw [step] at hstep
    split at hstep
    · exact Option.some.inj hstep ▸ hall
    · exact Option.some.inj hstep ▸ hall
    · cases hstep
  | call t => exact allReady_stepCall h hstep
  | run t => exact allReady_stepRun h hstep
  | pop w =>
    rw [step] at hstep
    split at hstep
    · exact Option.some.inj hstep ▸ h
    · cases hstep
  | complete w =>
    rw [step] at hstep
    split at hstep
    · exact Option.some.inj hstep ▸ allReady_postDeferredCompletion h _
    · cases hstep
  | opened i =>
    rw [step] at hstep
    split at hstep
    · cases hstep
    · exact Option.some.inj hstep ▸ h
  | closed i => exact Option.some.inj (Option.ite_none_right_eq_some.1 hstep).2 ▸ h

theorem numbered_step (h : s.Numbered) (hstep : s.step e = some s') : s'.Numbered := by
  have hready := allReady_step h.ready hstep
  have hsub : s'.nextId = s.nextId → s'.submissions ≤ s.submissions → s'.Numbered :=
    fun hid hle ↦ ⟨hready, Multiset.nodup_of_le (Multiset.map_le_map hle) h.once,
      fun x hx ↦ hid ▸ h.fresh x (Multiset.mem_of_le hle hx)⟩
  rcases ledger_step h.ready hstep with ⟨t, target, -, hid, -, hadd⟩ | ⟨x, hid, -, hadd⟩ | hbal
  · have hle : s'.submissions ≤ s.submissions + {⟨s.nextId, target⟩} :=
      hadd ▸ Multiset.le_add_right _ _
    refine ⟨hready, Multiset.nodup_of_le (Multiset.map_le_map hle) ?_, fun x hx ↦ ?_⟩
    · rw [Multiset.map_add, add_comm, Multiset.map_singleton, Multiset.singleton_add,
        Multiset.nodup_cons]
      refine ⟨fun hmem ↦ ?_, h.once⟩
      obtain ⟨x, hx, heq⟩ := Multiset.mem_map.1 hmem
      exact absurd (h.fresh x hx) (by rw [heq]; exact lt_irrefl _)
    · rw [hid]
      rcases Multiset.mem_add.1 (Multiset.mem_of_le hle hx) with hx | hx
      · exact Nat.lt_succ_of_lt (h.fresh x hx)
      · obtain rfl := Multiset.mem_singleton.1 hx
        exact Nat.lt_succ_self _
  · exact hsub hid (hadd ▸ Multiset.le_add_right _ _)
  · exact hsub hbal.1 hbal.2.2.le

omit [DecidableEq ι] [DecidableEq τ] in
theorem submissions_start : (start : Service ι τ).submissions = 0 := by
  rw [submissions, pending, executed,
    tally_of_forall (g := (start : Service ι τ).slots) fun _ ↦ rfl,
    tally_of_forall (g := (start : Service ι τ).queues) fun _ ↦ rfl,
    tally_of_forall (g := (start : Service ι τ).hands) fun _ ↦ rfl,
    tally_of_forall (f := Place.hand) fun _ ↦ rfl, tally_of_forall (f := Call.hand) fun _ ↦ rfl,
    tally_of_forall (f := Place.running) fun _ ↦ rfl]
  rfl

omit [DecidableEq ι] [DecidableEq τ] in
theorem numbered_start : (start : Service ι τ).Numbered where
  ready := nofun
  once := by rw [submissions_start]; exact Multiset.nodup_zero
  fresh := by rw [submissions_start]; exact fun x hx ↦ absurd hx (Multiset.notMem_zero x)

/-- **In every run** the submissions keep their numbers. -/
theorem numbered_of_run {l : List (Event ι τ)} (hrun : run step start l = some s) : s.Numbered :=
  invariant_run' (fun _ _ _ h hstep ↦ numbered_step h hstep) numbered_start hrun

/-! ### The count -/

omit [DecidableEq ι] [DecidableEq τ] in
theorem mem_pending_of_slots {p : ι × Dir} {x : Submission ι} (h : s.slots p = some x) :
    x ∈ s.pending := by
  have hx : x ∈ tally held s.slots :=
    mem_tally.2 ⟨p, by rw [h]; exact Multiset.mem_singleton_self x⟩
  simp only [pending, Multiset.mem_add]
  exact .inl (.inl (.inl (.inl (.inl hx))))

omit [DecidableEq ι] [DecidableEq τ] in
theorem mem_pending_of_places {x : Submission ι} (h : x ∈ (s.places t).hand) : x ∈ s.pending := by
  have hx : x ∈ tally Place.hand s.places := mem_tally.2 ⟨t, h⟩
  simp only [pending, Multiset.mem_add]
  exact .inl (.inr hx)

omit [DecidableEq ι] [DecidableEq τ] in
/-- Where the environment keeps to its part, a slot to be filled is free. -/
theorem free_of_orderly {p : ι × Dir} (h : s.IsWired) (hok : s.Orderly (.submit t (.slot p))) :
    s.slots p = none ∧ ∀ u y l, s.places u ≠ .taken p y l ∧ s.places u ≠ .cleared p y l := by
  have hslot : s.slots p = none := by
    rw [Option.eq_none_iff_forall_ne_some]
    exact fun x hx ↦ hok x (mem_pending_of_slots hx) (h.target p x hx)
  refine ⟨hslot, fun u y l ↦ ⟨fun hu ↦ ?_, fun hu ↦ ?_⟩⟩
  · obtain ⟨-, -, z, rfl, hz⟩ := h.taken u p y l hu
    exact hok z (mem_pending_of_places (by rw [hu]; exact Multiset.mem_singleton_self z)) hz
  · obtain ⟨-, -, z, rfl, hz⟩ := h.cleared u p y l hu
    exact hok z (mem_pending_of_places (by rw [hu]; exact Multiset.mem_singleton_self z)) hz

omit [DecidableEq ι] [DecidableEq τ] in
/-- What holds between the steps: `outstanding_work_` and what is not counted yet make up the
ledger. -/
structure LedgerBalanced (s : Service ι τ) : Prop where
  numbered : s.Numbered
  wired : s.IsWired
  work : s.due = s.submissions.card

/-- **The ledger stays balanced** in every step of an environment that uses a slot for one operation
at a time. -/
theorem ledgerBalanced_step (h : s.LedgerBalanced) (hok : (∃ i, e = .closed i) ∨ s.Orderly e)
    (hstep : s.step e = some s') : s'.LedgerBalanced := by
  have hfree {t : τ} {p : ι × Dir} (he : e = .submit t (.slot p)) :
      s.slots p = none ∧ ∀ u y l, s.places u ≠ .taken p y l ∧ s.places u ≠ .cleared p y l := by
    subst he
    rcases hok with ⟨i, hi⟩ | hok
    · cases hi
    · exact free_of_orderly h.wired hok
  refine ⟨numbered_step h.numbered hstep, isWired_step h.wired (fun t p ↦ hfree) hstep, ?_⟩
  · have hwork := h.work
    rcases ledger_step h.numbered.ready hstep with
      ⟨t, target, rfl, -, hdue, hadd⟩ | ⟨x, -, hdue, hadd⟩ | ⟨-, hdue, hsub⟩
    · have hnone : s.displaced target = 0 := by
        cases target with
        | slot p => rw [displaced, (hfree rfl).1]; rfl
        | posted => rfl
        | queued w => rfl
      have hcard := congrArg Multiset.card hadd
      rw [hnone, add_zero, Multiset.card_add, Multiset.card_singleton] at hcard
      omega
    · have hcard := congrArg Multiset.card hadd
      rw [Multiset.card_add, Multiset.card_singleton] at hcard
      omega
    · rw [hdue, hsub, hwork]

omit [DecidableEq τ] in
/-- The threads in front of `work_started` are what makes the difference. -/
theorem uncounted_eq (h : s.IsWired) (hnodup : s.pending.Nodup) :
    tally Call.uncounted s.calls = s.pending.filter fun x ↦ ¬s.Counted x := by
  have hmem : ∀ {t x}, x ∈ (s.calls t).uncounted ↔ s.calls t = .stored x := by
    intro t x
    cases hc : s.calls t with
    | stored y => exact Multiset.mem_singleton.trans ⟨fun hxy ↦ hxy ▸ rfl, fun hxy ↦ by
        cases hxy
        rfl⟩
    | idle => exact ⟨fun hx ↦ absurd hx (Multiset.notMem_zero x), nofun⟩
    | counted y => exact ⟨fun hx ↦ absurd hx (Multiset.notMem_zero x), nofun⟩
    | marked i => exact ⟨fun hx ↦ absurd hx (Multiset.notMem_zero x), nofun⟩
  have hunc : (tally Call.uncounted s.calls).Nodup := by
    refine nodup_tally (fun t ↦ ?_) fun t u x ht hu ↦ ?_
    · cases s.calls t with
      | stored y => exact Multiset.nodup_singleton y
      | idle => exact Multiset.nodup_zero
      | counted y => exact Multiset.nodup_zero
      | marked i => exact Multiset.nodup_zero
    · obtain ⟨p, hp⟩ := h.stored t x (hmem.1 ht)
      exact h.unique t u x p (.inl (hmem.1 ht)) (.inl (hmem.1 hu)) hp
  refine (Multiset.Nodup.ext hunc (hnodup.filter _)).2 fun x ↦ ?_
  rw [mem_tally, Multiset.mem_filter]
  constructor
  · rintro ⟨t, ht⟩
    obtain ⟨p, hp⟩ := h.stored t x (hmem.1 ht)
    exact ⟨mem_pending_of_slots (h.call t x p (.inl (hmem.1 ht)) hp).1,
      fun hcounted ↦ hcounted t (hmem.1 ht)⟩
  · rintro ⟨-, hx⟩
    obtain ⟨t, ht⟩ := not_forall_not.1 hx
    exact ⟨t, hmem.2 ht⟩

theorem conserved_of_ledgerBalanced (h : s.LedgerBalanced) : s.Conserved := by
  have hnodup : (s.pending + s.executed).Nodup := Multiset.Nodup.of_map _ h.numbered.once
  have hunc := uncounted_eq h.wired (Multiset.nodup_add.1 hnodup).1
  have hwork : s.outstandingWork = (s.pending.filter s.Counted).card + s.executed.card := by
    have hsplit : (s.pending.filter s.Counted).card +
        (s.pending.filter fun x ↦ ¬s.Counted x).card = s.pending.card := by
      rw [← Multiset.card_add, Multiset.filter_add_not]
    have hdue := h.work
    rw [due, hunc, submissions, Multiset.card_add] at hdue
    omega
  refine ⟨hwork, h.numbered.once, fun t x hplace hstop ↦ ?_, fun t p x l hplace ↦ ?_⟩
  · have hone : s.outstandingWork - 1 = 0 := by
      by_contra hne
      have htop : (s.workFinished t).places t = _ := Function.update_self _ _ _
      rw [hstop, if_neg hne] at htop
      cases htop
    have hmem : x ∈ s.executed :=
      mem_tally.2 ⟨t, by rw [hplace]; exact Multiset.mem_singleton_self x⟩
    have hpos := Multiset.card_pos_iff_exists_mem.2 ⟨x, hmem⟩
    refine ⟨Multiset.card_eq_zero.1 (by omega), ?_⟩
    obtain ⟨y, hy⟩ := Multiset.card_eq_one.1 (show s.executed.card = 1 by omega)
    rw [hy] at hmem ⊢
    rw [Multiset.mem_singleton.1 hmem]
  · obtain ⟨-, -, y, rfl, -⟩ := h.wired.taken t p x l hplace
    exact Option.some_ne_none y

end Service

end JnetLib.Epoll
