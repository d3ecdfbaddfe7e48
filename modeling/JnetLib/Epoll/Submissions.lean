import JnetLib.Epoll.Wiring
import JnetLib.Foundation.Ledger
import JnetLib.Foundation.Transition

/-!
# The submissions of a service

`outstanding_work_` against what it is to count. Every submission is followed from place to place as
an entry of a ledger (`submissions`): the places it can be at are listed once, in `pending` and
`executed`. `Conserved` says what is to hold of the two, and `Orderly` what the environment keeps
to.

Most steps move a submission from hand to hand, or none at all; `Balanced` says that such a step
adds nothing to the ledger, takes nothing from it, and leaves the count in agreement. Here is one
lemma for each way of doing so. The steps themselves are put together in `Conservation`.
-/

namespace JnetLib.Epoll

/-! ### Where the submissions are -/

/-- What a slot or a worker's hand holds. -/
def held {ι : Type*} : Option (Submission ι) → Multiset (Submission ι)
  | some x => {x}
  | none => 0

/-- What a thread in `do_one` has taken out of a slot and not yet posted. -/
def Place.hand {ι : Type*} : Place ι → Multiset (Submission ι)
  | .taken _ x _ => held x
  | .cleared _ x _ => held x
  | .posting x _ => held x
  | _ => 0

/-- The completion a thread is executing. -/
def Place.running {ι : Type*} : Place ι → Multiset (Submission ι)
  | .executing x => {x}
  | _ => 0

/-- A submission on its way to a slot is there from the first step on. Others are with the thread
that submits them. -/
def Submission.carried {ι : Type*} : Submission ι → Multiset (Submission ι)
  | ⟨_, .slot _⟩ => 0
  | x => {x}

/-- What a thread is about to post or to give to a worker. -/
def Call.hand {ι : Type*} : Call ι → Multiset (Submission ι)
  | .stored x => x.carried
  | .counted x => x.carried
  | _ => 0

/-- A submission a thread has put into its slot and not counted yet. -/
def Call.uncounted {ι : Type*} : Call ι → Multiset (Submission ι)
  | .stored x => {x}
  | _ => 0

namespace Service

open Transition

variable {ι τ : Type*} [DecidableEq ι] [DecidableEq τ] [Fintype ι] [Fintype τ]

omit [DecidableEq ι] [DecidableEq τ] in
/-- The submissions on their way: in a slot, in a queue or with its worker, in `completed_ops_`, in
the hands of a thread that moves them. -/
def pending (s : Service ι τ) : Multiset (Submission ι) :=
  tally held s.slots +
    tally (fun l : List (Submission ι) ↦ (l : Multiset (Submission ι))) s.queues +
    tally held s.hands + (s.completedOps.filterMap id : List (Submission ι)) +
    tally Place.hand s.places + tally Call.hand s.calls

omit [DecidableEq ι] [DecidableEq τ] [Fintype ι] in
/-- The completions that `do_one` executes. -/
def executed (s : Service ι τ) : Multiset (Submission ι) := tally Place.running s.places

omit [DecidableEq ι] [DecidableEq τ] [Fintype ι] [Fintype τ] in
/-- `work_started` has run for a submission. -/
def Counted (s : Service ι τ) (x : Submission ι) : Prop := ∀ t, s.calls t ≠ .stored x

instance (s : Service ι τ) : DecidablePred s.Counted := fun x ↦
  inferInstanceAs (Decidable (∀ t, s.calls t ≠ .stored x))

/-- The work is conserved. -/
structure Conserved (s : Service ι τ) : Prop where
  /-- `outstanding_work_` is the number of submissions on their way, each counted from its
  `work_started` on, and of completions being executed. -/
  work : s.outstandingWork = (s.pending.filter s.Counted).card + s.executed.card
  /-- No submission is in two places. -/
  once : ((s.pending + s.executed).map Submission.id).Nodup
  /-- A completion that goes on to stop the service is the last one, with nothing left on its
  way. -/
  last : ∀ t x, s.places t = .executing x → (s.workFinished t).places t = .stopping →
    s.pending.filter s.Counted = 0 ∧ s.executed = {x}
  /-- No event finds its slot empty. This rests on `modify_event` being one step here; where copying
  the mask and installing it are two, an event can find its slot empty (`Duplex`). -/
  found : ∀ t p x l, s.places t = .taken p x l → x ≠ none

/-- What the environment keeps to: a direction of a socket has one pending operation at most, and a
socket is not closed while it has one. -/
def Orderly (s : Service ι τ) : Event ι τ → Prop
  | .submit _ (.slot p) => ∀ x ∈ s.pending, x.target ≠ .slot p
  | .closed i => ∀ x ∈ s.pending, ∀ d, x.target ≠ .slot (i, d)
  | _ => True

instance (s : Service ι τ) : DecidablePred s.Orderly := fun e ↦
  match e with
  | .submit _ (.slot p) => inferInstanceAs (Decidable (∀ x ∈ s.pending, x.target ≠ .slot p))
  | .closed i => inferInstanceAs (Decidable (∀ x ∈ s.pending, ∀ d, x.target ≠ .slot (i, d)))
  | .submit _ .posted => isTrue trivial
  | .submit _ (.queued _) => isTrue trivial
  | .enter _ => isTrue trivial
  | .leave _ => isTrue trivial
  | .wait _ _ => isTrue trivial
  | .dispatch _ => isTrue trivial
  | .finish _ => isTrue trivial
  | .call _ => isTrue trivial
  | .run _ => isTrue trivial
  | .pop _ => isTrue trivial
  | .complete _ => isTrue trivial
  | .opened _ => isTrue trivial

/-! ### The ledger -/

variable {s s' s'' : Service ι τ} {t : τ} {e : Event ι τ}

omit [DecidableEq ι] [DecidableEq τ] in
/-- All submissions there are. -/
def submissions (s : Service ι τ) : Multiset (Submission ι) := s.pending + s.executed

omit [DecidableEq ι] [DecidableEq τ] [Fintype ι] in
/-- What `outstanding_work_` will be when the submissions under way are counted. -/
def due (s : Service ι τ) : ℤ := s.outstandingWork + (tally Call.uncounted s.calls).card

omit [DecidableEq τ] in
theorem submissions_slots (s : Service ι τ) (p : ι × Dir) (x : Option (Submission ι)) :
    submissions { s with slots := Function.update s.slots p x } + held (s.slots p) =
      s.submissions + held x := by
  have h := tally_update held s.slots p x
  refine Multiset.ext.2 fun y ↦ ?_
  have hy := congrArg (Multiset.count y) h
  simp only [submissions, pending, executed, Multiset.count_add] at hy ⊢
  omega

omit [DecidableEq τ] in
theorem submissions_queues (s : Service ι τ) (w : Worker) (q : List (Submission ι)) :
    submissions { s with queues := Function.update s.queues w q } + (s.queues w : Multiset _) =
      s.submissions + (q : Multiset _) := by
  have h := tally_update (fun l : List (Submission ι) ↦ (l : Multiset (Submission ι))) s.queues w q
  refine Multiset.ext.2 fun y ↦ ?_
  have hy := congrArg (Multiset.count y) h
  simp only [submissions, pending, executed, Multiset.count_add] at hy ⊢
  omega

omit [DecidableEq τ] in
theorem submissions_hands (s : Service ι τ) (w : Worker) (x : Option (Submission ι)) :
    submissions { s with hands := Function.update s.hands w x } + held (s.hands w) =
      s.submissions + held x := by
  have h := tally_update held s.hands w x
  refine Multiset.ext.2 fun y ↦ ?_
  have hy := congrArg (Multiset.count y) h
  simp only [submissions, pending, executed, Multiset.count_add] at hy ⊢
  omega

omit [DecidableEq τ] in
theorem submissions_completedOps (s : Service ι τ) (q : List (Option (Submission ι))) :
    submissions { s with completedOps := q } +
        (s.completedOps.filterMap id : List (Submission ι)) =
      s.submissions + (q.filterMap id : List (Submission ι)) := by
  refine Multiset.ext.2 fun y ↦ ?_
  simp only [submissions, pending, executed, Multiset.count_add]
  omega

theorem submissions_go (s : Service ι τ) (t : τ) (place : Place ι) :
    (s.go t place).submissions + ((s.places t).hand + (s.places t).running) =
      s.submissions + (place.hand + place.running) := by
  have hhand := tally_update Place.hand s.places t place
  have hrunning := tally_update Place.running s.places t place
  refine Multiset.ext.2 fun y ↦ ?_
  have hy := congrArg (Multiset.count y) hhand
  have hy' := congrArg (Multiset.count y) hrunning
  simp only [go, submissions, pending, executed, Multiset.count_add] at hy hy' ⊢
  omega

theorem submissions_goCall (s : Service ι τ) (t : τ) (c : Call ι) :
    (s.goCall t c).submissions + (s.calls t).hand = s.submissions + c.hand := by
  have h := tally_update Call.hand s.calls t c
  refine Multiset.ext.2 fun y ↦ ?_
  have hy := congrArg (Multiset.count y) h
  simp only [goCall, submissions, pending, executed, Multiset.count_add] at hy ⊢
  omega

omit [DecidableEq ι] [Fintype ι] in
theorem due_goCall (s : Service ι τ) (t : τ) (c : Call ι) :
    (s.goCall t c).due + (s.calls t).uncounted.card = s.due + c.uncounted.card := by
  have h := congrArg Multiset.card (tally_update Call.uncounted s.calls t c)
  simp only [Multiset.card_add] at h
  simp only [goCall, due]
  omega

omit [DecidableEq ι] [DecidableEq τ] [Fintype ι] in
theorem due_workStarted (s : Service ι τ) : s.workStarted.due = s.due + 1 :=
  add_right_comm _ _ _

omit [DecidableEq τ] in
/-- Posting puts an operation on its way, and a null pointer nothing. -/
theorem submissions_postDeferredCompletion (s : Service ι τ) (x : Option (Submission ι)) :
    (s.postDeferredCompletion x).submissions = s.submissions + held x := by
  have h := submissions_completedOps s (s.completedOps ++ [x])
  have hx : (([x] : List (Option (Submission ι))).filterMap id : Multiset (Submission ι)) =
      held x := by
    cases x <;> rfl
  rw [List.filterMap_append, ← Multiset.coe_add, hx, ← add_assoc, add_right_comm] at h
  exact add_right_cancel h

/-! ### Steps that keep the balance -/

omit [DecidableEq ι] [DecidableEq τ] in
/-- Nothing has been added to the ledger or taken from it, and the count agrees. -/
def Balanced (s s' : Service ι τ) : Prop :=
  s'.nextId = s.nextId ∧ s'.due = s.due ∧ s'.submissions = s.submissions

omit [DecidableEq ι] [DecidableEq τ] in
theorem Balanced.trans (h : Balanced s s') (h' : Balanced s' s'') : Balanced s s'' :=
  ⟨h'.1.trans h.1, h'.2.1.trans h.2.1, h'.2.2.trans h.2.2⟩

/-- A move that neither takes something up nor puts it down. -/
theorem balanced_go {place : Place ι}
    (h : place.hand + place.running = (s.places t).hand + (s.places t).running) :
    Balanced s (s.go t place) := by
  refine ⟨rfl, rfl, ?_⟩
  have hgo := submissions_go s t place
  rw [h] at hgo
  exact add_right_cancel hgo

theorem balanced_goCall {c : Call ι} (hhand : c.hand = (s.calls t).hand)
    (huncounted : c.uncounted = (s.calls t).uncounted) : Balanced s (s.goCall t c) := by
  refine ⟨rfl, ?_, ?_⟩
  · have hgo := due_goCall s t c
    rw [huncounted] at hgo
    exact add_right_cancel hgo
  · have hgo := submissions_goCall s t c
    rw [hhand] at hgo
    exact add_right_cancel hgo

/-- A thread has given away what it submits, and goes on with nothing. -/
theorem balanced_goCall_of_add {x : Submission ι} {r : Service ι τ}
    (hhand : (r.calls t).hand = {x}) (huncounted : 0 = (r.calls t).uncounted)
    (hid : r.nextId = s.nextId) (hdue : r.due = s.due)
    (h : r.submissions = s.submissions + {x}) : Balanced s (r.goCall t .idle) := by
  refine ⟨hid, ?_, ?_⟩
  · have hgo := due_goCall r t .idle
    rw [← huncounted, hdue] at hgo
    exact add_right_cancel hgo
  · have hgo := submissions_goCall r t .idle
    rw [hhand, h] at hgo
    exact add_right_cancel (hgo.trans (add_zero _))

omit [DecidableEq τ] in
theorem balanced_postDeferredCompletion_none (s : Service ι τ) :
    Balanced s (s.postDeferredCompletion none) :=
  ⟨rfl, rfl, (submissions_postDeferredCompletion s none).trans (add_zero _)⟩

omit [DecidableEq τ] in
theorem balanced_stop (s : Service ι τ) : Balanced s s.stop := by
  rw [stop]
  split
  · exact ⟨rfl, rfl, rfl⟩
  · exact balanced_postDeferredCompletion_none { s with stopped := true }

/-- What a thread has in its hands goes to `completed_ops_`. -/
theorem balanced_postDeferredCompletion_go {x : Submission ι} {place : Place ι}
    (h : (s.places t).hand + (s.places t).running = {x})
    (hplace : place.hand + place.running = 0) :
    Balanced s ((s.postDeferredCompletion (some x)).go t place) := by
  refine ⟨rfl, rfl, ?_⟩
  have hgo := submissions_go (s.postDeferredCompletion (some x)) t place
  rw [hplace, add_zero, submissions_postDeferredCompletion] at hgo
  refine add_right_cancel (b := held (some x)) (Eq.trans ?_ hgo)
  exact congrArg _ h.symm

/-- Looking at the events keeps the balance. -/
theorem balanced_stepRun (h : s.stepRun t = some s') : Balanced s s' := by
  rw [stepRun] at h
  split at h
  case h_1 hplace =>
    obtain rfl := Option.some.inj h
    have hzero : 0 = (s.places t).hand + (s.places t).running := by
      rw [hplace]
      rfl
    split
    · exact balanced_go (s := { s with demultiplexingThread := some t }) hzero
    · exact balanced_go hzero
  case h_2 p l hplace =>
    obtain rfl := Option.some.inj h
    refine ⟨rfl, rfl, ?_⟩
    have hslots := submissions_slots s p none
    have hgo := submissions_go { s with slots := Function.update s.slots p none } t
      (.taken p (s.slots p) l)
    have hzero : (s.places t).hand + (s.places t).running = 0 := by
      rw [hplace]
      rfl
    rw [hzero, add_zero] at hgo
    rw [show held (none : Option (Submission ι)) = 0 from rfl, add_zero] at hslots
    exact hgo.trans (by rw [← hslots]; exact congrArg _ (add_zero _))
  case h_3 p x l hplace =>
    obtain rfl := Option.some.inj h
    have hhand : (Place.cleared p x l).hand + (Place.cleared p x l).running =
        (s.places t).hand + (s.places t).running := by
      rw [hplace]
      rfl
    split
    · exact balanced_go (s := { s with mask := Function.update s.mask p false }) hhand
    · exact balanced_go hhand
  case h_4 p x l hplace =>
    obtain rfl := Option.some.inj h
    exact balanced_go (s := s.modifyEvent p.1)
      (show _ = (s.places t).hand + (s.places t).running by rw [hplace]; rfl)
  case h_5 x l hplace =>
    obtain rfl := Option.some.inj h
    exact balanced_postDeferredCompletion_go (by rw [hplace]; rfl) rfl
  case h_6 l hplace =>
    obtain rfl := Option.some.inj h
    exact balanced_go (by rw [hplace]; rfl)
  case h_7 hplace =>
    obtain rfl := Option.some.inj h
    exact (balanced_stop s).trans (balanced_go (by rw [stop_places, hplace]; rfl))
  case h_8 hplace =>
    obtain rfl := Option.some.inj h
    refine balanced_go ?_
    rw [hplace]
    split <;> rfl
  case h_9 hplace =>
    obtain rfl := Option.some.inj h
    have hzero : (s.places t).hand + (s.places t).running = 0 := by
      rw [hplace]
      rfl
    exact (balanced_postDeferredCompletion_none s).trans (balanced_go hzero.symm)
  case h_10 hplace =>
    obtain rfl := Option.some.inj h
    exact balanced_go (s := { s with demultiplexingThread := _ })
      (show _ = (s.places t).hand + (s.places t).running by rw [hplace]; rfl)
  case h_11 => cases h

/-- A submission that has begun keeps the balance: `work_started` counts what is due. -/
theorem balanced_stepCall (h : s.stepCall t = some s') : Balanced s s' := by
  rw [stepCall] at h
  split at h
  case h_1 => cases h
  case h_2 x hcall =>
    obtain rfl := Option.some.inj h
    refine ⟨rfl, ?_, ?_⟩
    · have hgo := due_goCall s.workStarted t (.counted x)
      have hone : (s.workStarted.calls t).uncounted = {x} := by
        show (s.calls t).uncounted = {x}
        rw [hcall]
        rfl
      rw [hone, due_workStarted] at hgo
      exact add_right_cancel (hgo.trans (add_zero _))
    · have hgo := submissions_goCall s.workStarted t (.counted x)
      have hhand : (s.workStarted.calls t).hand = x.carried := by
        show (s.calls t).hand = x.carried
        rw [hcall]
        rfl
      rw [hhand] at hgo
      exact add_right_cancel hgo
  case h_3 x hcall =>
    obtain rfl := Option.some.inj h
    have huncounted : (0 : Multiset (Submission ι)) = (s.calls t).uncounted := by
      rw [hcall]
      rfl
    obtain ⟨id, target⟩ := x
    cases target with
    | slot p =>
      have hhand : (0 : Multiset (Submission ι)) = (s.calls t).hand := by
        rw [hcall]
        rfl
      -- the submission has filled the slot: the caller has nothing left in its hands
      show Balanced s (if s.mask p then s.goCall t .idle
        else { s with mask := Function.update s.mask p true }.goCall t (.marked p.1))
      split
      · exact balanced_goCall hhand huncounted
      · exact balanced_goCall (s := { s with mask := Function.update s.mask p true }) hhand
          huncounted
    | queued w =>
      have hhand : (s.calls t).hand = {⟨id, .queued w⟩} := by
        rw [hcall]
        rfl
      have hqueue := submissions_queues s w (s.queues w ++ [⟨id, .queued w⟩])
      rw [← Multiset.coe_add, ← add_assoc, add_right_comm] at hqueue
      exact balanced_goCall_of_add hhand huncounted rfl rfl (add_right_cancel hqueue)
    | posted =>
      have hhand : (s.calls t).hand = {⟨id, .posted⟩} := by
        rw [hcall]
        rfl
      exact balanced_goCall_of_add hhand huncounted rfl rfl
        (submissions_postDeferredCompletion s (some ⟨id, .posted⟩))
  case h_4 i hcall =>
    split at h
    · obtain rfl := Option.some.inj h
      have hzero : (s.calls t).hand = 0 ∧ (s.calls t).uncounted = 0 := by
        rw [hcall]
        exact ⟨rfl, rfl⟩
      exact balanced_goCall (s := s.modifyEvent i) hzero.1.symm hzero.2.symm
    · cases h

end Service

end JnetLib.Epoll
