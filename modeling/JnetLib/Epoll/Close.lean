import JnetLib.Epoll.Conservation

/-!
# Closing a socket of an epoll service

`socket_ops::close` takes the descriptor from the kernel and closes it. It touches neither the slots
nor the mask, so an operation that waits for an event keeps waiting. It is neither completed nor
registered any more (`not_released_and_not_renewed_of_run`); while the socket stays closed nothing
brings it to `completed_ops_`, and it keeps the service from ever stopping (`stranded_of_run`); and
when the socket is opened again the operation and the interest are there as before.

## What the theorems rest on

An operation in a slot is not at any other place, by the numbers of the submissions
(`Numbered.alone`), whatever was done to the socket before. So it is neither among the completed
operations nor in a slot of a socket that is open. `stranded_of_run` goes on from there: nobody
takes an operation out of a slot without an event (`stranded_step`), and the kernel reports none for
a socket that is closed.
-/

namespace JnetLib.Epoll

namespace Service

open Transition

variable {ι τ : Type*} [DecidableEq ι] [DecidableEq τ] {s s' : Service ι τ} {t : τ}
  {e : Event ι τ} {p : ι × Dir} {x : Submission ι}

/-! ### What closing should do -/

/-- Every operation in a slot of a socket that is closed is in `completed_ops_` or still in a slot
of a descriptor that is registered. -/
def Released (s : Service ι τ) (i : ι) : Prop :=
  ∀ d x, s.slots (i, d) = some x → some x ∈ (s.close i).completedOps ∨
    ∃ p, (s.close i).slots p = some x ∧ (s.close i).isOpen p.1 = true

/-- A socket that is opened again has empty slots, and no interest from before. -/
def Renewed (s : Service ι τ) (i : ι) : Prop :=
  ∀ d, ((s.close i).open_ i).slots (i, d) = none ∧ ((s.close i).open_ i).interest (i, d) = false

/-! ### What it does -/

section Numbers

variable [Fintype ι] [Fintype τ]

omit [DecidableEq τ] in
/-- What is in a slot is not in `completed_ops_`, and not in another slot. -/
theorem Numbered.alone (h : s.Numbered) (hslot : s.slots p = some x) :
    some x ∉ s.completedOps ∧ ∀ q, s.slots q = some x → q = p := by
  have hle : tally held s.slots + (s.completedOps.filterMap id : List (Submission ι)) ≤
      s.submissions := by
    refine Multiset.le_iff_count.2 fun y ↦ ?_
    simp only [submissions, pending, Multiset.count_add]
    omega
  obtain ⟨hslots, -, hdisjoint⟩ :=
    Multiset.nodup_add.1 (Multiset.nodup_of_le hle (Multiset.Nodup.of_map _ h.once))
  have hheld : ∀ {q}, s.slots q = some x → x ∈ held (s.slots q) := fun hq ↦ by
    rw [hq]
    exact Multiset.mem_singleton_self x
  refine ⟨fun hmem ↦ ?_, fun q hq ↦ eq_of_nodup_tally hslots (hheld hq) (hheld hslot)⟩
  exact Multiset.disjoint_left.1 hdisjoint (mem_tally.2 ⟨p, hheld hslot⟩)
    (List.mem_filterMap.2 ⟨_, hmem, rfl⟩)

/-- **Closing does neither**, whenever an operation waits in a slot of the socket. -/
theorem not_released_and_not_renewed_of_run {l : List (Event ι τ)} {i : ι} {d : Dir}
    (hrun : run step start l = some s) (hslot : s.slots (i, d) = some x) :
    ¬s.Released i ∧ ¬s.Renewed i := by
  obtain ⟨hops, halone⟩ := (numbered_of_run hrun).alone hslot
  refine ⟨fun h ↦ ?_, fun h ↦ ?_⟩
  · rcases h d x hslot with hmem | ⟨p, hp, hopen⟩
    · exact hops hmem
    · obtain rfl := halone p hp
      rw [show (s.close i).isOpen i = false from Function.update_self _ _ _] at hopen
      cases hopen
  · exact absurd ((h d).1.symm.trans hslot) nofun

end Numbers

/-- A socket with a receive operation. -/
theorem not_released_and_not_renewed_of_run_recv : ∃ s : Service Unit Bool,
    s.slots ((), .input) = some ⟨0, .slot ((), .input)⟩ ∧ ¬s.Released () ∧ ¬s.Renewed () :=
  ⟨_, rfl, not_released_and_not_renewed_of_run (l := [.opened (),
    .submit false (.slot ((), .input)), .call false, .call false, .call false]) (d := .input)
    rfl rfl⟩

/-- A socket with a receive outstanding is closed and opened again, and the first event of the new
connection completes the receive operation of the old one. -/
theorem not_renewed_recv : ∃ s s' : Service Unit Bool,
    run step start [.opened (), .submit false (.slot ((), .input)), .call false, .call false,
      .call false] = some s ∧ ¬s.Released () ∧ ¬s.Renewed () ∧
    run step s [.closed (), .opened (), .enter true, .run true, .wait true [((), .input)],
      .run true, .run true, .run true, .run true, .dispatch true] = some s' ∧
    s'.places true = .executing ⟨0, .slot ((), .input)⟩ := by
  refine ⟨_, _, rfl, fun h ↦ ?_, fun h ↦ ?_, rfl, rfl⟩
  · rcases h .input _ rfl with hmem | ⟨p, -, hopen⟩
    · exact List.not_mem_nil hmem
    · exact Bool.false_ne_true hopen
  · exact absurd (h .input).1 nofun

/-! ### What becomes of the operation -/

/-- The operation waits in a slot for an event that cannot come. -/
structure Stranded (s : Service ι τ) (p : ι × Dir) (x : Submission ι) : Prop where
  slot : s.slots p = some x
  closed : s.isOpen p.1 = false
  silent : s.interest p = false
  unseen : ∀ t, p ∉ (s.places t).todo

/-- The socket is not opened again, and its slot not used. -/
def Undisturbed (p : ι × Dir) (e : Event ι τ) : Prop :=
  e ≠ .opened p.1 ∧ ∀ t, e ≠ .submit t (.slot p)

omit [DecidableEq ι] in
theorem stranded_go (h : s.Stranded p x) {place : Place ι} (hplace : p ∉ place.todo) :
    (s.go t place).Stranded p x := by
  refine ⟨h.slot, h.closed, h.silent, fun u ↦ ?_⟩
  rcases eq_or_ne u t with rfl | hu
  · rwa [show (s.go u place).places u = place from Function.update_self _ _ _]
  · rw [show (s.go t place).places u = s.places u from Function.update_of_ne hu _ _]
    exact h.unseen u

omit [DecidableEq τ] in
theorem stranded_modifyEvent (h : s.Stranded p x) (i : ι) : (s.modifyEvent i).Stranded p x := by
  refine ⟨h.slot, h.closed, ?_, h.unseen⟩
  show (if p.1 = i then s.isOpen i && s.mask p else s.interest p) = false
  split
  case isTrue hp => rw [← hp, h.closed, Bool.false_and]
  case isFalse => exact h.silent

omit [DecidableEq ι] [DecidableEq τ] in
theorem stranded_stop (h : s.Stranded p x) : s.stop.Stranded p x := by
  rw [stop]
  split
  · exact h
  · exact ⟨h.slot, h.closed, h.silent, h.unseen⟩

omit [DecidableEq ι] in
theorem stranded_exit (h : s.Stranded p x) : (s.exit t).Stranded p x := by
  have houtside : p ∉ (Place.outside : Place ι).todo := List.not_mem_nil
  rw [exit]
  refine stranded_go ?_ houtside
  exact ⟨h.slot, h.closed, h.silent, h.unseen⟩

theorem stranded_stepRun (h : s.Stranded p x) (hstep : s.stepRun t = some s') :
    s'.Stranded p x := by
  have hseen := h.unseen t
  rw [stepRun] at hstep
  split at hstep
  case h_1 hplace =>
    obtain rfl := Option.some.inj hstep
    split
    · exact stranded_go (s := { s with demultiplexingThread := some t })
        ⟨h.slot, h.closed, h.silent, h.unseen⟩ List.not_mem_nil
    · exact stranded_go h List.not_mem_nil
  case h_2 q l hplace =>
    obtain rfl := Option.some.inj hstep
    rw [hplace] at hseen
    obtain ⟨hne, hl⟩ := not_or.1 (mt List.mem_cons.2 hseen)
    exact stranded_go (s := { s with slots := Function.update s.slots q none })
      ⟨(Function.update_of_ne hne _ _).trans h.slot, h.closed, h.silent, h.unseen⟩ hl
  case h_3 q y l hplace =>
    obtain rfl := Option.some.inj hstep
    rw [hplace] at hseen
    split
    · exact stranded_go (s := { s with mask := Function.update s.mask q false })
        ⟨h.slot, h.closed, h.silent, h.unseen⟩ hseen
    · exact stranded_go h hseen
  case h_4 q y l hplace =>
    obtain rfl := Option.some.inj hstep
    rw [hplace] at hseen
    exact stranded_go (stranded_modifyEvent h q.1) hseen
  case h_5 y l hplace =>
    obtain rfl := Option.some.inj hstep
    rw [hplace] at hseen
    exact stranded_go (s := s.postDeferredCompletion (some y))
      ⟨h.slot, h.closed, h.silent, h.unseen⟩ hseen
  case h_6 l hplace =>
    obtain rfl := Option.some.inj hstep
    rw [hplace] at hseen
    exact stranded_go h hseen
  case h_7 =>
    obtain rfl := Option.some.inj hstep
    exact stranded_go (stranded_stop h) List.not_mem_nil
  case h_8 =>
    obtain rfl := Option.some.inj hstep
    refine stranded_go h ?_
    split <;> exact List.not_mem_nil
  case h_9 =>
    obtain rfl := Option.some.inj hstep
    exact stranded_go (s := s.postDeferredCompletion none)
      ⟨h.slot, h.closed, h.silent, h.unseen⟩ List.not_mem_nil
  case h_10 =>
    obtain rfl := Option.some.inj hstep
    exact stranded_exit h
  case h_11 => cases hstep

theorem stranded_stepCall (h : s.Stranded p x) (hstep : s.stepCall t = some s') :
    s'.Stranded p x := by
  have hfields : ∀ {c}, (s.goCall t c).Stranded p x := ⟨h.slot, h.closed, h.silent, h.unseen⟩
  rw [stepCall] at hstep
  split at hstep
  case h_1 => cases hstep
  case h_2 => exact Option.some.inj hstep ▸ ⟨h.slot, h.closed, h.silent, h.unseen⟩
  case h_3 y hcall =>
    obtain rfl := Option.some.inj hstep
    rw [submitCounted]
    split
    case h_1 =>
      split
      · exact hfields
      · exact ⟨h.slot, h.closed, h.silent, h.unseen⟩
    case h_2 => exact ⟨h.slot, h.closed, h.silent, h.unseen⟩
    case h_3 => exact ⟨h.slot, h.closed, h.silent, h.unseen⟩
  case h_4 i hcall =>
    split at hstep
    · have hmod := stranded_modifyEvent h i
      exact Option.some.inj hstep ▸ ⟨hmod.slot, hmod.closed, hmod.silent, hmod.unseen⟩
    · cases hstep

omit [DecidableEq ι] in
theorem stranded_dispatch (h : s.Stranded p x) : (s.dispatch t).Stranded p x := by
  rw [dispatch]
  split
  case h_1 => exact stranded_go h List.not_mem_nil
  case h_2 y q hq =>
    split
    · exact stranded_go (s := { s with completedOps := q })
        ⟨h.slot, h.closed, h.silent, h.unseen⟩ List.not_mem_nil
    · exact stranded_go (s := { s with
        completedOps := q, ready := Function.update s.ready y.id true })
        ⟨h.slot, h.closed, h.silent, h.unseen⟩ List.not_mem_nil
  case h_3 q hq =>
    exact stranded_go (s := { s with completedOps := q })
      ⟨h.slot, h.closed, h.silent, h.unseen⟩ List.not_mem_nil

theorem stranded_submit (h : s.Stranded p x) {target : Target ι} (hne : target ≠ .slot p) :
    (s.submit t target).Stranded p x := by
  cases target with
  | slot q =>
    have hpq : p ≠ q := fun hpq ↦ hne (congrArg Target.slot hpq.symm)
    exact ⟨(Function.update_of_ne hpq _ _).trans h.slot, h.closed, h.silent, h.unseen⟩
  | posted => exact ⟨h.slot, h.closed, h.silent, h.unseen⟩
  | queued w => exact ⟨h.slot, h.closed, h.silent, h.unseen⟩

/-- **A stranded operation stays where it is** in every step that leaves its slot alone. -/
theorem stranded_step (h : s.Stranded p x) (hquiet : Undisturbed p e)
    (hstep : s.step e = some s') : s'.Stranded p x := by
  cases e with
  | enter t =>
    obtain rfl := Option.some.inj (Option.ite_none_right_eq_some.1 hstep).2
    refine stranded_go h ?_
    split <;> exact List.not_mem_nil
  | leave t =>
    obtain rfl := Option.some.inj (Option.ite_none_right_eq_some.1 hstep).2
    exact stranded_go h List.not_mem_nil
  | wait t l =>
    obtain ⟨⟨-, -, hl⟩, ht⟩ := Option.ite_none_right_eq_some.1 hstep
    obtain rfl := Option.some.inj ht
    -- epoll reports nothing for a descriptor that is closed
    exact stranded_go h fun hp ↦ absurd ((hl p hp).1.symm.trans h.closed) nofun
  | dispatch t =>
    obtain rfl := Option.some.inj (Option.ite_none_right_eq_some.1 hstep).2
    exact stranded_dispatch h
  | finish t =>
    rw [step] at hstep
    split at hstep
    · obtain rfl := Option.some.inj (Option.ite_none_right_eq_some.1 hstep).2
      refine stranded_go (s := { s with outstandingWork := s.outstandingWork - 1 })
        ⟨h.slot, h.closed, h.silent, h.unseen⟩ ?_
      split <;> exact List.not_mem_nil
    · cases hstep
  | submit t target =>
    have hall : (s.submit t target).Stranded p x :=
      stranded_submit h fun ht ↦ hquiet.2 t (by rw [ht])
    rw [step] at hstep
    split at hstep
    · exact Option.some.inj hstep ▸ hall
    · exact Option.some.inj hstep ▸ hall
    · cases hstep
  | call t => exact stranded_stepCall h hstep
  | run t => exact stranded_stepRun h hstep
  | pop w =>
    rw [step] at hstep
    split at hstep
    · exact Option.some.inj hstep ▸ ⟨h.slot, h.closed, h.silent, h.unseen⟩
    · cases hstep
  | complete w =>
    rw [step] at hstep
    split at hstep
    · exact Option.some.inj hstep ▸ ⟨h.slot, h.closed, h.silent, h.unseen⟩
    · cases hstep
  | opened i =>
    have hne : p.1 ≠ i := fun hi ↦ hquiet.1 (congrArg Event.opened hi.symm)
    rw [step] at hstep
    split at hstep
    · cases hstep
    · obtain rfl := Option.some.inj hstep
      exact stranded_modifyEvent (s := { s with isOpen := Function.update s.isOpen i true })
        ⟨h.slot, (Function.update_of_ne hne _ _).trans h.closed, h.silent, h.unseen⟩ i
  | closed i =>
    obtain rfl := Option.some.inj (Option.ite_none_right_eq_some.1 hstep).2
    refine ⟨h.slot, ?_, ?_, h.unseen⟩
    · show Function.update s.isOpen i false p.1 = false
      rw [Function.update_apply, h.closed, ite_self]
    · show (if p.1 = i then false else s.interest p) = false
      rw [h.silent, ite_self]

omit [DecidableEq τ] in
/-- Closing strands what no thread has seen an event for. -/
theorem stranded_close (hslot : s.slots p = some x) (hseen : ∀ t, p ∉ (s.places t).todo) :
    (s.close p.1).Stranded p x :=
  ⟨hslot, Function.update_self _ _ _, if_pos rfl, hseen⟩

/-- **The operation waits for ever**, and keeps the count above zero, in every run in which the
socket is not opened again. -/
theorem stranded_of_run [Fintype ι] [Fintype τ] {l : List (Event ι τ)} (hs : s.LedgerBalanced)
    (h : s.Stranded p x)
    (hl : RunMeets step (fun s e ↦ Undisturbed p e ∧ ((∃ i, e = .closed i) ∨ s.Orderly e)) s l)
    (hrun : run step s l = some s') :
    s'.Stranded p x ∧ (s'.Counted x → 0 < s'.outstandingWork) := by
  obtain ⟨hinv, hend⟩ : s'.LedgerBalanced ∧ s'.Stranded p x :=
    invariant_run (I := fun s ↦ s.LedgerBalanced ∧ s.Stranded p x) (fun _ _ _ h hok hstep ↦
      ⟨ledgerBalanced_step h.1 hok.2 hstep, stranded_step h.2 hok.1 hstep⟩) ⟨hs, h⟩ hl hrun
  refine ⟨hend, fun hcounted ↦ ?_⟩
  have hmem : x ∈ s'.pending.filter s'.Counted :=
    Multiset.mem_filter.2 ⟨mem_pending_of_slots hend.slot, hcounted⟩
  have hpos := Multiset.card_pos_iff_exists_mem.2 ⟨x, hmem⟩
  rw [(conserved_of_ledgerBalanced hinv).work]
  omega

end Service

end JnetLib.Epoll
