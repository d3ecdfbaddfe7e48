import JnetLib.Epoll.Slots

/-!
# The wiring of an epoll service

Every step keeps the slots, the masks and the interest in line with the threads, if a slot that is
filled is free (`isWired_step`). So the kernel reports an event only where a counted operation waits
for it.

There is one case for each access, with the lemma for it in `Slots`. No lock is held, but
`modify_event` is one step; where it is two, `Duplex` has the runs in which the masks get out of
step.
-/

namespace JnetLib.Epoll

variable {ι τ : Type*}

namespace Service

variable [DecidableEq ι] [DecidableEq τ] {s s' : Service ι τ}

/-- `Wired`, of the fields of a state. -/
def IsWired (s : Service ι τ) : Prop :=
  Wired s.mask s.interest s.slots s.places s.calls s.demultiplexingThread

omit [DecidableEq ι] [DecidableEq τ] in
/-- The mask is clear where nothing waits. -/
theorem IsWired.mask_eq_false {p : ι × Dir} (h : s.IsWired) (hslot : s.slots p = none)
    (hfree : ∀ u y l, s.places u ≠ .taken p y l ∧ s.places u ≠ .cleared p y l) :
    s.mask p = false := by
  rw [Bool.eq_false_iff]
  intro hm
  rcases h.marked p hm with ⟨x, hx⟩ | ⟨u, y, l, hu⟩
  · rw [hslot] at hx
    cases hx
  · exact (hfree u y l).1 hu

theorem isWired_submit {t : τ} {target : Target ι} (h : s.IsWired)
    (hfree : ∀ p, target = .slot p →
      s.slots p = none ∧ ∀ u y l, s.places u ≠ .taken p y l ∧ s.places u ≠ .cleared p y l) :
    (s.submit t target).IsWired := by
  cases target with
  | slot p =>
    obtain ⟨hslot, hp⟩ := hfree p rfl
    exact wired_submit h hslot (h.mask_eq_false hslot hp) rfl hp
  | posted => exact wired_count h nofun
  | queued w => exact wired_count h nofun

theorem isWired_stepCall {t : τ} (h : s.IsWired) (hstep : s.stepCall t = some s') :
    s'.IsWired := by
  rw [stepCall] at hstep
  split at hstep
  case h_1 => cases hstep
  case h_2 x hcall =>
    obtain rfl := Option.some.inj hstep
    exact wired_counted h hcall
  case h_3 x hcall =>
    obtain rfl := Option.some.inj hstep
    rw [submitCounted]
    split
    case h_1 p hp =>
      split
      · exact wired_idle h
      · exact wired_mark h hcall hp p.1
    case h_2 => exact wired_idle h
    case h_3 => exact wired_idle h
  case h_4 i hcall =>
    split at hstep
    · obtain rfl := Option.some.inj hstep
      exact wired_idle (wired_modify h i _)
    · cases hstep

omit [DecidableEq ι] [DecidableEq τ] in
theorem stop_places (s : Service ι τ) : s.stop.places = s.places := by
  rw [stop]
  split <;> rfl

omit [DecidableEq ι] [DecidableEq τ] in
theorem isWired_stop (h : s.IsWired) : s.stop.IsWired := by
  rw [stop]
  split
  · exact h
  · exact h

omit [DecidableEq ι] in
theorem isWired_exit {t : τ} (h : s.IsWired) (hplace : (s.places t).busy = false) :
    (s.exit t).IsWired :=
  wired_go (wired_exit h hplace) hplace rfl

theorem isWired_stepRun {t : τ} (h : s.IsWired) (hstep : s.stepRun t = some s') :
    s'.IsWired := by
  rw [stepRun] at hstep
  split at hstep
  case h_1 hplace =>
    obtain rfl := Option.some.inj hstep
    split
    case isTrue hdemux => exact wired_poll h (by rw [hplace]; rfl) hdemux
    case isFalse => exact wired_go h (by rw [hplace]; rfl) rfl
  case h_2 p l hplace =>
    obtain rfl := Option.some.inj hstep
    exact wired_take h hplace
  case h_3 p x l hplace =>
    obtain rfl := Option.some.inj hstep
    rw [if_pos (h.taken t p x l hplace).2.1]
    exact wired_clear h hplace
  case h_4 p x l hplace =>
    obtain rfl := Option.some.inj hstep
    exact wired_cleared h hplace _
  case h_5 x l hplace =>
    obtain rfl := Option.some.inj hstep
    exact wired_posted h hplace
  case h_6 l hplace => exact absurd rfl (h.posting t none l hplace)
  case h_7 hplace =>
    obtain rfl := Option.some.inj hstep
    exact wired_go (isWired_stop h) (by rw [stop_places, hplace]; rfl) rfl
  case h_8 hplace =>
    obtain rfl := Option.some.inj hstep
    refine wired_go h (by rw [hplace]; rfl) ?_
    split <;> rfl
  case h_9 hplace =>
    obtain rfl := Option.some.inj hstep
    have hbusy : (s.places t).busy = false := by rw [hplace]; rfl
    exact wired_go h hbusy rfl
  case h_10 hplace =>
    obtain rfl := Option.some.inj hstep
    exact isWired_exit h (by rw [hplace]; rfl)
  case h_11 => cases hstep

omit [DecidableEq ι] in
theorem isWired_dispatch {t : τ} (h : s.IsWired) (hplace : (s.places t).busy = false) :
    (s.dispatch t).IsWired := by
  rw [dispatch]
  split
  · exact wired_go h hplace rfl
  · split
    · exact wired_go h hplace rfl
    · exact wired_go h hplace rfl
  · exact wired_go h hplace rfl

/-- **Every step keeps the slots, the mask and the kernel in line**, if a slot that is filled is
free. -/
theorem isWired_step {e : Event ι τ} (h : s.IsWired)
    (hfree : ∀ t p, e = .submit t (.slot p) →
      s.slots p = none ∧ ∀ u y l, s.places u ≠ .taken p y l ∧ s.places u ≠ .cleared p y l)
    (hstep : s.step e = some s') : s'.IsWired := by
  cases e with
  | enter t =>
    obtain ⟨⟨hplace, -⟩, ht⟩ := Option.ite_none_right_eq_some.1 hstep
    obtain rfl := Option.some.inj ht
    refine wired_go h (by rw [hplace]; rfl) ?_
    split <;> rfl
  | leave t =>
    obtain ⟨hplace, ht⟩ := Option.ite_none_right_eq_some.1 hstep
    obtain rfl := Option.some.inj ht
    rcases hplace with hplace | hplace
    · exact wired_fail h hplace
    · exact wired_go h (by rw [hplace]; rfl) rfl
  | wait t l =>
    obtain ⟨⟨hplace, hnodup, hl⟩, ht⟩ := Option.ite_none_right_eq_some.1 hstep
    obtain rfl := Option.some.inj ht
    exact wired_wait h hplace hnodup fun p hp ↦ (hl p hp).2
  | dispatch t =>
    obtain ⟨hplace, ht⟩ := Option.ite_none_right_eq_some.1 hstep
    obtain rfl := Option.some.inj ht
    exact isWired_dispatch h (by rw [hplace]; rfl)
  | finish t =>
    rw [step] at hstep
    split at hstep
    case h_1 x hplace =>
      obtain ⟨-, ht⟩ := Option.ite_none_right_eq_some.1 hstep
      obtain rfl := Option.some.inj ht
      refine wired_go h (by rw [hplace]; rfl) ?_
      split <;> rfl
    case h_2 => cases hstep
  | submit t target =>
    have hall : (s.submit t target).IsWired :=
      isWired_submit h fun p hp ↦ hfree t p (by rw [hp])
    rw [step] at hstep
    split at hstep
    · exact Option.some.inj hstep ▸ hall
    · exact Option.some.inj hstep ▸ hall
    · cases hstep
  | call t => exact isWired_stepCall h hstep
  | run t => exact isWired_stepRun h hstep
  | pop w =>
    rw [step] at hstep
    split at hstep
    · exact Option.some.inj hstep ▸ h
    · cases hstep
  | complete w =>
    rw [step] at hstep
    split at hstep
    · exact Option.some.inj hstep ▸ h
    · cases hstep
  | opened i =>
    rw [step] at hstep
    split at hstep
    · cases hstep
    · exact Option.some.inj hstep ▸ wired_modify h i _
  | closed i =>
    obtain ⟨-, ht⟩ := Option.ite_none_right_eq_some.1 hstep
    obtain rfl := Option.some.inj ht
    exact wired_close h i

end Service

end JnetLib.Epoll
