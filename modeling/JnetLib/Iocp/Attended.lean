import JnetLib.Iocp.Fallback

/-!
# The fallback list loses nothing

`lossless_of_run` says that the list loses nothing, whatever the threads do, however they are
interleaved and whichever posts fail.

`Attended` has four parts, and each step keeps them (`attended_step`). What was handed over and not
dequeued is counted at the places an operation can be at. The critical section is held as often as
the place of a thread says, which can be more than once. A copy of `completed_ops_` that a thread
works through is the list itself until it clears it. And a list with entries is covered:
`dispatch_required_` is set, or a thread has claimed it and not cleared the list, or a thread has
pushed and not yet set it.

`Attended.go` does the counting once, for a thread that moves with what it has in its hands.
-/

namespace JnetLib.Iocp

namespace Fallback

variable {ι τ : Type} [DecidableEq ι] [DecidableEq τ]

/-! ### The critical section -/

section Lock

variable {lock lock' : Option (τ × ℕ)} {l : τ × ℕ} {t u : τ}

/-- How often a thread has entered the critical section. -/
def held (lock : Option (τ × ℕ)) (t : τ) : ℕ :=
  match lock with
  | none => 0
  | some (u, d) => if u = t then d else 0

theorem held_enter (h : enter lock t = some l) (u : τ) :
    held (some l) u = if u = t then held lock t + 1 else held lock u := by
  rcases lock with - | ⟨v, d⟩
  · obtain rfl := Option.some.inj h
    rcases eq_or_ne u t with rfl | hne
    · simp [held]
    · simp [held, hne, Ne.symm hne]
  · rw [enter] at h
    split at h
    case isFalse => cases h
    case isTrue hv =>
      obtain rfl := Option.some.inj h
      subst hv
      rcases eq_or_ne u v with rfl | hne
      · simp [held]
      · simp [held, hne, Ne.symm hne]

theorem eq_of_held (ht : 0 < held lock t) (hu : 0 < held lock u) : t = u := by
  rcases lock with - | ⟨v, d⟩
  · cases ht
  · rw [held] at ht hu
    split at ht
    case isFalse => cases ht
    case isTrue hvt =>
      split at hu
      case isFalse => cases hu
      case isTrue hvu => exact hvt.symm.trans hvu

theorem held_release (ht : 0 < held lock t) (u : τ) :
    held (release lock) u = if u = t then held lock t - 1 else held lock u := by
  rcases lock with - | ⟨v, d⟩
  · cases ht
  · have hvt : v = t := by
      by_contra hne
      rw [held, if_neg hne] at ht
      cases ht
    subst hvt
    rcases eq_or_ne u v with rfl | hne
    · rcases d with - | - | d <;> simp [held, release]
    · rcases d with - | - | d <;> simp [held, release, hne, Ne.symm hne]

end Lock

/-! ### The invariant -/

/-- Entries of `completed_ops_` are taken care of. -/
def Covered (s : Fallback ι τ) : Prop :=
  s.completedOps = [] ∨ s.dispatchRequired = 1 ∨ ∃ t, (s.threads t).Covers

/-- **The invariant.** Nothing is lost; the threads' places agree with who is in the critical
section; a copy of `completed_ops_` is still true; and its entries are taken care of. -/
structure Attended [Fintype τ] (s : Fallback ι τ) : Prop where
  accounted : ∀ i, s.handed.count i = s.elsewhere i + tally (fun pc ↦ pc.hands.count i) s.threads
  locked : ∀ t, (s.threads t).depth = held s.lock t
  copied : ∀ t ops, s.threads t = .clearing ops → ops = s.completedOps
  covered : s.Covered

section Invariant

variable [Fintype τ] {s s' : Fallback ι τ} {t u : τ} {pc pc' : FallbackPc ι} {i : ι}

theorem attended_start (ops : ι → Operation) (d : ℤ) : (start ops d : Fallback ι τ).Attended where
  accounted i := by
    rw [tally_of_forall (f := fun pc : FallbackPc ι ↦ pc.hands.count i) fun _ ↦ rfl]
    rfl
  locked _ := rfl
  copied _ _ h := by cases h
  covered := .inl rfl

/-- What is known after a step of a thread: `completed_ops_` is as before, or the thread is in the
critical section. -/
theorem Attended.move (h : s.Attended) (ht : s.threads t = pc)
    (hthreads : s'.threads = Function.update s.threads t pc')
    (hcount : ∀ i, s'.handed.count i + s.elsewhere i + pc.hands.count i =
      s.handed.count i + s'.elsewhere i + pc'.hands.count i)
    (hlock : ∀ u, held s'.lock u = if u = t then pc'.depth else held s.lock u)
    (hlist : s'.completedOps = s.completedOps ∨ 0 < pc.depth)
    (hcopy : ∀ ops, pc' = .clearing ops → ops = s'.completedOps) (hcovered : s'.Covered) :
    s'.Attended where
  accounted i := by
    have hupdate := tally_update (fun pc : FallbackPc ι ↦ pc.hands.count i) s.threads t pc'
    have hold := h.accounted i
    have hmoved := hcount i
    rw [← hthreads, ht] at hupdate
    omega
  locked u := by
    rw [hthreads, hlock u]
    rcases eq_or_ne u t with rfl | hne
    · rw [Function.update_self, if_pos rfl]
    · rw [Function.update_of_ne hne, if_neg hne, h.locked u]
  copied u ops hu := by
    rw [hthreads] at hu
    rcases eq_or_ne u t with rfl | hne
    · rw [Function.update_self] at hu
      exact hcopy ops hu
    · rw [Function.update_of_ne hne] at hu
      rw [h.copied u ops hu]
      rcases hlist with hlist | hin
      · exact hlist.symm
      · -- no other thread is in the critical section
        have hheld : 0 < held s.lock t := by rw [← h.locked t, ht]; exact hin
        have hheld' : 0 < held s.lock u := by rw [← h.locked u, hu]; exact Nat.one_pos
        exact absurd (eq_of_held hheld' hheld) hne
  covered := hcovered

omit [DecidableEq ι] [Fintype τ] in
/-- The lists stay taken care of when a thread goes on that did not take care of them. -/
theorem Covered.move (h : s.Covered) (ht : s.threads t = pc)
    (hthreads : s'.threads = Function.update s.threads t pc')
    (hlist : s'.completedOps = s.completedOps) (hflag : s'.dispatchRequired = s.dispatchRequired)
    (hpc : pc.Covers → pc'.Covers) : s'.Covered := by
  rcases h with h | h | ⟨u, hu⟩
  · exact .inl (hlist.trans h)
  · exact .inr (.inl (hflag.trans h))
  · refine .inr (.inr ⟨u, ?_⟩)
    rw [hthreads]
    rcases eq_or_ne u t with rfl | hne
    · rw [Function.update_self]
      exact hpc (ht ▸ hu)
    · rwa [Function.update_of_ne hne]

/-- Who is in the critical section, when a thread has stayed in it as often as it was. -/
theorem Attended.held_eq (h : s.Attended) (ht : s.threads t = pc) (hdepth : pc'.depth = pc.depth)
    (u : τ) :
    held s.lock u = if u = t then pc'.depth else held s.lock u := by
  rcases eq_or_ne u t with rfl | hne
  · rw [if_pos rfl, hdepth, ← ht, h.locked u]
  · rw [if_neg hne]

/-- A step of a thread that stays as often in the critical section as it was, and touches neither
`completed_ops_` nor `dispatch_required_`. -/
theorem Attended.quiet (h : s.Attended) (ht : s.threads t = pc)
    (hthreads : s'.threads = Function.update s.threads t pc')
    (hcount : ∀ i, s'.handed.count i + s.elsewhere i + pc.hands.count i =
      s.handed.count i + s'.elsewhere i + pc'.hands.count i)
    (hlock : s'.lock = s.lock) (hlist : s'.completedOps = s.completedOps)
    (hflag : s'.dispatchRequired = s.dispatchRequired) (hdepth : pc'.depth = pc.depth)
    (hcopy : ∀ ops, pc' = .clearing ops → ops = s.completedOps) (hpc : pc.Covers → pc'.Covers) :
    s'.Attended := by
  refine h.move ht hthreads hcount (fun u ↦ ?_) (.inl hlist) (fun ops hops ↦ ?_)
    (h.covered.move ht hthreads hlist hflag hpc)
  · rw [hlock]
    exact h.held_eq ht hdepth u
  · rw [hlist]
    exact hcopy ops hops

/-- A thread enters the critical section. -/
theorem Attended.enters {l : τ × ℕ} (h : s.Attended) (ht : s.threads t = pc)
    (hl : enter s.lock t = some l)
    (hhands : pc'.hands = pc.hands) (hdepth : pc'.depth = pc.depth + 1)
    (hcopy : ∀ ops, pc' ≠ .clearing ops) (hpc : pc.Covers → pc'.Covers) :
    Attended { s.setThread t pc' with lock := some l } := by
  refine h.move ht rfl (fun i ↦ by rw [hhands]; rfl) (fun u ↦ ?_) (.inl rfl)
    (fun ops hops ↦ absurd hops (hcopy ops)) (h.covered.move ht rfl rfl rfl hpc)
  rw [held_enter hl u, hdepth, ← ht, h.locked t]

/-- A thread leaves the critical section. -/
theorem Attended.leaves (h : s.Attended) (ht : s.threads t = pc) (hhands : pc'.hands = pc.hands)
    (hdepth : pc.depth = pc'.depth + 1) (hcopy : ∀ ops, pc' ≠ .clearing ops)
    (hpc : pc.Covers → pc'.Covers) :
    Attended { s.setThread t pc' with lock := release s.lock } := by
  have hheld : held s.lock t = pc'.depth + 1 := by rw [← h.locked t, ht, hdepth]
  refine h.move ht rfl (fun i ↦ by rw [hhands]; rfl) (fun u ↦ ?_) (.inl rfl)
    (fun ops hops ↦ absurd hops (hcopy ops)) (h.covered.move ht rfl rfl rfl hpc)
  have hpos : 0 < held s.lock t := by omega
  show held (release s.lock) u = _
  rw [held_release hpos u, hheld, Nat.add_sub_cancel]

/-- An operation goes from a thread's hands into `completed_ops_`. -/
theorem Attended.push {l : List ι} (h : s.Attended) (ht : s.threads t = pc) (hin : 0 < pc.depth)
    (hhands : pc.hands = i :: l) (hhands' : pc'.hands = l) (hdepth : pc'.depth = pc.depth)
    (hcopy : ∀ ops, pc' ≠ .clearing ops) (hpc : pc'.Covers) :
    Attended { s.setThread t pc' with completedOps := s.completedOps ++ [i] } := by
  refine h.move ht rfl (fun j ↦ ?_) (h.held_eq ht hdepth) (.inr hin)
    (fun ops hops ↦ absurd hops (hcopy ops)) (.inr (.inr ⟨t, ?_⟩))
  · show s.handed.count j + s.elsewhere j + _ = s.handed.count j +
      (s.dequeued.count j + s.port.count (.posted j) + (s.completedOps ++ [i]).count j) + _
    rw [hhands, hhands', elsewhere, List.count_append, List.count_cons, List.count_singleton]
    omega
  · show (Function.update s.threads t pc' t).Covers
    rwa [Function.update_self]

omit [Fintype τ] [DecidableEq τ] in
theorem posted_beq (i j : ι) : (Packet.posted i == Packet.posted j) = (i == j) := by
  rw [Bool.eq_iff_iff, beq_iff_eq, beq_iff_eq, Packet.posted.injEq]

omit [Fintype τ] [DecidableEq τ] in
theorem kernel_beq (i j : ι) (e : ℤ) (n : ℕ) : (Packet.kernel i e n == Packet.posted j) = false :=
  rfl

/-- An operation goes from a thread's hands into the port. -/
theorem Attended.post (h : s.Attended) {poster : Poster ι} (ht : s.threads t = .posting i poster) :
    Attended { s.setThread t poster.posted with port := s.port ++ [.posted i] } := by
  refine h.quiet ht rfl (fun j ↦ ?_) rfl rfl rfl ?_ (fun ops hops ↦ ?_) fun hc ↦ hc.elim
  · show s.handed.count j + s.elsewhere j + (i :: poster.rest).count j = s.handed.count j +
      (s.dequeued.count j + (s.port ++ [Packet.posted i]).count (.posted j) +
        s.completedOps.count j) +
        poster.posted.hands.count j
    have hhands : poster.posted.hands = poster.rest := by cases poster <;> rfl
    rw [hhands, elsewhere, List.count_append, List.count_cons, List.count_singleton, posted_beq]
    omega
  · cases poster <;> rfl
  · cases poster <;> cases hops

/-- A thread goes on with what it has, and nothing else changes but the operations' own fields. -/
theorem Attended.goes {ops : ι → Operation} (h : s.Attended) (ht : s.threads t = pc)
    (hhands : pc'.hands = pc.hands) (hdepth : pc'.depth = pc.depth)
    (hcopy : ∀ ops, pc' = .clearing ops → ops = s.completedOps) (hpc : pc.Covers → pc'.Covers) :
    Attended { s.setThread t pc' with ops := ops } :=
  h.quiet ht rfl (fun _ ↦ by rw [hhands]; rfl) rfl rfl rfl hdepth hcopy hpc

/-- `on_pending` finds that the operation has completed. -/
theorem Attended.handsOver (h : s.Attended) (ht : s.threads t = .pending i) :
    Attended { s.setThread t (.posting i .single) with handed := s.handed ++ [i] } := by
  refine h.quiet ht rfl (fun j ↦ ?_) rfl rfl rfl rfl nofun fun hc ↦ hc.elim
  show (s.handed ++ [i]).count j + s.elsewhere j + 0 =
    s.handed.count j + s.elsewhere j + [i].count j
  rw [List.count_append]
  omega

/-- The thread that clears `dispatch_required_` takes care of the list from here on. -/
theorem Attended.claims (h : s.Attended) (ht : s.threads t = .top) :
    Attended { s.setThread t .claimed with dispatchRequired := 0 } := by
  have hcovered : Covered { s.setThread t .claimed with dispatchRequired := 0 } :=
    .inr (.inr ⟨t, by simp [setThread, FallbackPc.Covers]⟩)
  exact h.move ht rfl (fun _ ↦ rfl) (h.held_eq ht rfl) (.inl rfl) nofun hcovered

/-- The entries of `completed_ops_` go into the hands of the thread that has copied the list. -/
theorem Attended.clears {ops : List ι} (h : s.Attended) (ht : s.threads t = .clearing ops) :
    Attended { s.setThread t (.dispatching ops) with completedOps := [] } := by
  obtain rfl := h.copied t ops ht
  refine h.move ht rfl (fun j ↦ ?_) (h.held_eq ht rfl) (.inr Nat.one_pos) nofun (.inl rfl)
  show s.handed.count j + (s.dequeued.count j + s.port.count (.posted j) +
    s.completedOps.count j) + 0 = s.handed.count j + (s.dequeued.count j +
    s.port.count (.posted j) + 0) + s.completedOps.count j
  omega

/-- **A thread goes on.** -/
theorem Attended.go {ok : Bool} (h : s.Attended) (hst : s.go t ok = some s') : s'.Attended := by
  cases ht : s.threads t <;> simp only [Fallback.go, ht, reduceCtorEq] at hst
  -- these steps move no operation
  case flagging | failing | storing =>
    obtain rfl := Option.some.inj hst
    exact h.goes ht rfl rfl nofun fun hc ↦ hc.elim
  case pending =>
    split at hst
    case isTrue =>
      obtain rfl := Option.some.inj hst
      exact h.handsOver ht
    case isFalse =>
      obtain rfl := Option.some.inj hst
      exact h.goes ht rfl rfl nofun fun hc ↦ hc.elim
  case posting =>
    split at hst
    case isTrue =>
      obtain rfl := Option.some.inj hst
      exact h.post ht
    case isFalse =>
      obtain rfl := Option.some.inj hst
      exact h.goes ht rfl rfl nofun fun hc ↦ hc.elim
  case locking =>
    obtain ⟨l, hl, rfl⟩ := Option.map_eq_some_iff.1 hst
    exact h.enters ht hl rfl rfl nofun fun hc ↦ hc.elim
  -- the list is not empty any more, but its thread is about to set `dispatch_required_`
  case pushing i poster =>
    obtain rfl := Option.some.inj hst
    cases poster with
    | single => exact h.push ht (Nat.succ_pos _) rfl rfl rfl nofun trivial
    | drain ops => exact h.push ht (Nat.succ_pos _) rfl rfl rfl nofun trivial
  -- a drain that fails halfway puts back what it has not posted, one at a time
  case restoring ops =>
    cases ops with
    | nil =>
      obtain rfl := Option.some.inj hst
      exact h.goes ht rfl rfl nofun fun _ ↦ trivial
    | cons i ops =>
      obtain rfl := Option.some.inj hst
      exact h.push ht (Nat.succ_pos _) rfl rfl rfl nofun trivial
  case setting =>
    obtain rfl := Option.some.inj hst
    exact h.move ht rfl (fun _ ↦ rfl) (h.held_eq ht rfl) (.inl rfl) nofun (.inr (.inl rfl))
  case unlocking nested =>
    obtain rfl := Option.some.inj hst
    cases nested with
    | true => exact h.leaves ht rfl rfl nofun fun hc ↦ hc.elim
    | false => exact h.leaves ht rfl rfl nofun fun hc ↦ hc.elim
  -- the exchange on `dispatch_required_`: only the thread that finds 1 goes on to the list
  case top =>
    split at hst
    case isTrue =>
      obtain rfl := Option.some.inj hst
      exact h.claims ht
    case isFalse =>
      obtain rfl := Option.some.inj hst
      exact h.goes ht rfl rfl nofun fun hc ↦ hc.elim
  case claimed =>
    obtain ⟨l, hl, rfl⟩ := Option.map_eq_some_iff.1 hst
    exact h.enters ht hl rfl rfl nofun fun _ ↦ trivial
  case copying =>
    obtain rfl := Option.some.inj hst
    exact h.goes ht rfl rfl (fun _ hops ↦ (FallbackPc.clearing.inj hops).symm) fun _ ↦ trivial
  case clearing =>
    obtain rfl := Option.some.inj hst
    exact h.clears ht
  case dispatching ops =>
    cases ops with
    | nil =>
      obtain rfl := Option.some.inj hst
      exact h.leaves ht rfl rfl nofun fun hc ↦ hc.elim
    | cons i ops =>
      obtain rfl := Option.some.inj hst
      exact h.goes ht rfl rfl nofun fun hc ↦ hc.elim
  case got p =>
    cases p with
    | posted i =>
      obtain rfl := Option.some.inj hst
      exact h.goes ht rfl rfl nofun fun hc ↦ hc.elim
    | kernel i e n =>
      obtain rfl := Option.some.inj hst
      exact h.goes ht rfl rfl nofun fun hc ↦ hc.elim
  case recorded =>
    split at hst
    case isTrue =>
      obtain rfl := Option.some.inj hst
      exact h.goes ht rfl rfl nofun fun hc ↦ hc.elim
    case isFalse =>
      obtain rfl := Option.some.inj hst
      exact h.goes ht rfl rfl nofun fun hc ↦ hc.elim

/-- A function is called. -/
theorem Attended.call (h : s.Attended) (hst : s.call t pc = some s') (hdepth : pc.depth = 0)
    (hcopy : ∀ ops, pc ≠ .clearing ops) : s'.Attended := by
  rw [Fallback.call] at hst
  split at hst
  case isFalse => cases hst
  case isTrue ht =>
    obtain rfl := Option.some.inj hst
    refine h.quiet ht rfl (fun j ↦ ?_) rfl rfl rfl hdepth (fun ops hops ↦ absurd hops (hcopy ops))
      fun hc ↦ hc.elim
    show (s.handed ++ pc.hands).count j + s.elsewhere j + 0 =
      s.handed.count j + s.elsewhere j + pc.hands.count j
    rw [List.count_append]
    omega

/-- A packet is dequeued. -/
theorem Attended.dequeue {k : ℕ} (h : s.Attended) (hst : s.dequeue t k = some s') :
    s'.Attended := by
  rw [Fallback.dequeue] at hst
  split at hst
  case h_2 => cases hst
  case h_1 p ht hp =>
    obtain rfl := Option.some.inj hst
    refine h.quiet ht rfl (fun j ↦ ?_) rfl rfl rfl rfl nofun fun hc ↦ hc.elim
    obtain ⟨hk, hpk⟩ := List.getElem?_eq_some_iff.1 hp
    have hport : s.port.count (.posted j) = _ :=
      (List.getElem_cons_eraseIdx_perm hk).symm.count_eq _
    rw [hpk, List.count_cons] at hport
    cases p with
    | posted i =>
      show s.handed.count j + (s.dequeued.count j + s.port.count (.posted j) +
        s.completedOps.count j) + 0 = s.handed.count j + ((s.dequeued ++ [i]).count j +
        (s.port.eraseIdx k).count (.posted j) + s.completedOps.count j) + 0
      rw [List.count_append, List.count_singleton, ← posted_beq]
      omega
    | kernel i e n =>
      show s.handed.count j + (s.dequeued.count j + s.port.count (.posted j) +
        s.completedOps.count j) + 0 = s.handed.count j + (s.dequeued.count j +
        (s.port.eraseIdx k).count (.posted j) + s.completedOps.count j) + 0
      rw [hport, kernel_beq]
      rfl

theorem Attended.wake (h : s.Attended) (hst : s.wake t pc = some s') (hhands : pc.hands = [])
    (hdepth : pc.depth = 0) (hcopy : ∀ ops, pc ≠ .clearing ops) : s'.Attended := by
  rw [Fallback.wake] at hst
  split at hst
  case isFalse => cases hst
  case isTrue ht =>
    obtain rfl := Option.some.inj hst
    refine h.quiet ht rfl (fun j ↦ ?_) rfl rfl rfl hdepth (fun ops hops ↦ absurd hops (hcopy ops))
      fun hc ↦ hc.elim
    rw [hhands]
    rfl

/-- **Every step keeps the invariant.** -/
theorem attended_step {e : FallbackEvent ι τ} (h : s.Attended) (hst : s.step e = some s') :
    s'.Attended := by
  cases e with
  | postDeferredCompletion t i => exact h.call hst rfl nofun
  | onCompletion t i ec n => exact h.call hst rfl nofun
  | onPending t i => exact h.call hst rfl nofun
  | doOne t => exact h.call hst rfl nofun
  | arrive i e n =>
    obtain rfl := Option.some.inj hst
    refine ⟨fun j ↦ ?_, h.locked, h.copied, h.covered⟩
    show s.handed.count j = s.dequeued.count j +
      (s.port ++ [Packet.kernel i e n]).count (.posted j) + s.completedOps.count j + _
    rw [List.count_append, List.count_singleton, kernel_beq]
    exact h.accounted j
  | go t ok => exact h.go hst
  | dequeue t k => exact h.dequeue hst
  | retry t => exact h.wake hst rfl rfl nofun
  | leave t => exact h.wake hst rfl rfl nofun

/-- An operation that was handed over once more than it was dequeued is at one place. -/
theorem Attended.atOnePlace (h : s.Attended) (hi : s.handed.count i = s.dequeued.count i + 1) :
    s.AtOnePlace i := by
  have hcount := h.accounted i
  rw [hi, elsewhere] at hcount
  have hnone : tally (fun pc : FallbackPc ι ↦ pc.hands.count i) s.threads = 0 →
      ∀ t, i ∉ (s.threads t).hands := by
    intro hzero t
    exact List.count_eq_zero.1 (eq_zero_of_tally_eq_zero hzero t)
  by_cases hport : s.port.count (.posted i) = 0
  · by_cases hlist : s.completedOps.count i = 0
    · obtain ⟨t, ht, hone⟩ :=
        exists_of_tally_eq_one (f := fun pc : FallbackPc ι ↦ pc.hands.count i) (g := s.threads)
          (by omega)
      exact .inr (.inr ⟨List.count_eq_zero.1 hport, List.count_eq_zero.1 hlist, t, ht,
        fun u hu ↦ hone u (List.count_pos_iff.2 hu)⟩)
    · exact .inr (.inl ⟨List.count_eq_zero.1 hport, by omega, hnone (by omega)⟩)
  · exact .inl ⟨by omega, List.count_eq_zero.1 (by omega), hnone (by omega)⟩

theorem Attended.lossless (h : s.Attended) : s.Lossless where
  accounted := h.accounted
  onePlace _ hi := h.atOnePlace hi
  woken hne hfree := by
    rcases h.covered with hnil | hflag | ⟨t, ht⟩
    · exact absurd hnil hne
    · exact .inl hflag
    · -- who takes care of the list and is not in the critical section has just claimed it
      have hdepth : (s.threads t).depth = 0 := by
        rw [h.locked t, hfree]
        rfl
      refine .inr ⟨t, ?_⟩
      cases hpc : s.threads t with
      | claimed => rfl
      | copying | clearing _ | restoring _ | setting _ =>
        rw [hpc] at hdepth
        cases hdepth
      | _ =>
        rw [hpc] at ht
        exact ht.elim

/-- **The fallback list loses nothing**, whatever the threads do, however they are interleaved and
whichever posts fail. -/
theorem lossless_of_run {ops : ι → Operation} {d : ℤ} {evs : List (FallbackEvent ι τ)}
    (hrun : Transition.run step (start ops d) evs = some s) : s.Lossless :=
  (Transition.invariant_run' (I := Attended) (fun _ _ _ h hst ↦ attended_step h hst)
    (attended_start ops d) hrun).lossless

end Invariant

/-- Two posts fail. A thread that drains the list posts the first operation, fails with the second
and puts it back. -/
def halfway : List (FallbackEvent ℕ Bool) :=
  [.postDeferredCompletion false 1, .go false true, .go false false, .go false true, .go false true,
    .go false true, .go false true,
    .onCompletion false 2 .eof 0, .go false true, .go false true, .go false false, .go false true,
    .go false true, .go false true, .go false true,
    .doOne true, .go true true, .go true true, .go true true, .go true true, .go true true,
    .go true true, .go true true, .go true true, .go true true, .go true false, .go true true,
    .go true true, .go true true, .go true true, .go true true, .go true true]

theorem lossless_of_run_halfway :
    ∃ s, Transition.run step (start (fun _ ↦ .reset) 7) halfway = some s ∧
      (s.port = [.posted 1] ∧ s.completedOps = [2] ∧ s.lock = none ∧ s.dispatchRequired = 1) ∧
      s.Lossless := by
  have hrun : (Transition.run step (start (fun _ ↦ .reset) 7) halfway).any (fun s ↦
      s.port = [.posted 1] ∧ s.completedOps = [2] ∧ s.lock = none ∧ s.dispatchRequired = 1) =
        true := by decide +kernel
  obtain ⟨s, hs, hval⟩ := (Option.any_eq_true _ _).1 hrun
  exact ⟨s, hs, of_decide_eq_true hval, lossless_of_run hs⟩

/-- The usual way of `on_pending`: the kernel has not reported the operation yet, so its flag is set
and it is left alone. It is at none of the three places then. -/
theorem not_atOnePlace_of_onPending :
    ¬∀ (evs : List (FallbackEvent ℕ Bool)) (s : Fallback ℕ Bool),
      Transition.run step (start (fun _ ↦ .reset) 0) evs = some s →
      ∀ t i, .onPending t i ∈ evs → (∀ u k, .dequeue u k ∉ evs) → s.AtOnePlace i := by
  intro h
  have hrun : Transition.run step (start (fun _ ↦ .reset) 0 : Fallback ℕ Bool)
      [.onPending true 5, .go true true] = some _ := rfl
  have hplace := h _ _ hrun true 5 (by decide) fun u k hd ↦ by simp at hd
  rcases hplace with ⟨hport, -⟩ | ⟨-, hlist, -⟩ | ⟨-, -, t, ht, -⟩
  · exact absurd hport (by decide)
  · exact absurd hlist (by decide)
  · cases t <;> exact absurd ht (by decide)

end Fallback

end JnetLib.Iocp
