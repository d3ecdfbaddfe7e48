import JnetLib.Fiber.Frame

/-!
# The scheduler of the fibers

`scheduled_of_run` says of every run, for any number of threads and whatever the routines do, what
holds in the state it comes to (`Sound`) and what the threads do next from there (`Proceeds`).

* `Sound` rests on the invariant alone.
* `Proceeds` is about a thread and its next two or three steps, with any number of steps of other
  threads in between. On the way to a fiber the thread has the token of the fiber, so nobody else
  takes `invoker_` or stores a result (`invoker_leftAlone`), and the fiber it enters executes on no
  other thread (`executed_leftAlone`). On the way back `invoker_` is suspended in the switch to the
  fiber (`leaving_leftAlone`), and `free_flag_` belongs to the fiber, which does not run
  (`returned_leftAlone`).
-/

namespace JnetLib.Fiber.Fibers

open Transition

variable {τ φ ρ : Type} {s s' : Fibers τ φ ρ} {t : τ} {c : Ctx τ φ} {f : φ} {pc pc' : Pc φ ρ}
  {K : List ρ} {new : Prop} {l : List (τ × FiberAct φ ρ)}

variable [DecidableEq τ] [DecidableEq φ]

theorem at_leftAlone : LeftAlone step Accounted t fun s : Fibers τ φ ρ ↦ s.At t c pc :=
  fun _ _ _ _ h hat hu hst ↦ h.at_step hat hu hst

theorem step_go (hat : s.At t c pc) : s.step (t, .go) = s.go t c := by
  rw [← hat.1]
  rfl

/-! ### The switch to a fiber -/

/-- Thread `t` is on the way to fiber `f`, for which `K` is stored, and which is `new` or in a
blocking call. -/
structure OnTheWay (s : Fibers τ φ ρ) (t : τ) (c : Ctx τ φ) (pc : Pc φ ρ) (f : φ) (K : List ρ)
    (new : Prop) : Prop where
  place : s.At t c pc
  stored : s.stored f = K
  fresh : s.pcs (.fiber f) = .fresh ↔ new

theorem Accounted.onTheWay_step {e : FiberAct φ ρ} (h : s.Accounted) (hpc : pc.carries = some f)
    (hs : s.OnTheWay t c pc f K new) (hu : u ≠ t) (hst : s.step (u, e) = some s') :
    s'.OnTheWay t c pc f K new := by
  have hframe := h.frame hst
  have hne := h.carries_ne hs.place hpc hu
  refine ⟨h.at_step hs.place hu hst, (hframe.stored_eq hne).trans hs.stored, ?_⟩
  rw [hframe.fresh f, and_iff_left fun he ↦ hne (by rw [he]; rfl)]
  exact hs.fresh

/-- While a thread has the token of a fiber, nobody else takes `invoker_`. -/
theorem invoker_leftAlone {b : Bool} : LeftAlone step Accounted t fun s : Fibers τ φ ρ ↦
    s.OnTheWay t c (.switching f b) f K new ∧ s.invoker f = none := by
  rintro s u e s' h ⟨hs, hnone⟩ hu hst
  refine ⟨h.onTheWay_step rfl hs hu hst, ?_⟩
  rcases (h.frame hst).invoker f with heq | ⟨⟨b', hb⟩, -⟩ | ⟨-, heq⟩
  · exact heq.trans hnone
  · exact absurd (by rw [hb]; rfl) (h.carries_ne hs.place rfl hu)
  · exact heq

/-- The compare-and-swap. -/
theorem OnTheWay.take {b : Bool} (h : s.Accounted) (hs : s.OnTheWay t c (.switching f b) f K new)
    (hnone : s.invoker f = none) (hst : s.step (t, .go) = some s') :
    s'.OnTheWay t c (.entering f) f K new := by
  have hfresh := (h.frame hst).fresh f
  rw [hs.place.1, hs.place.2, and_iff_left (by simp), hs.fresh] at hfresh
  rw [step_go hs.place, Fibers.go.eq_def, hs.place.2] at hst
  dsimp only at hst
  rw [hnone] at hst
  obtain rfl := Option.some.inj hst
  exact ⟨⟨hs.place.1, Function.update_self ..⟩, hs.stored, hfresh⟩

/-- The switch itself. -/
theorem OnTheWay.enter (h : s.Accounted) {b : Bool}
    (hs : s.OnTheWay t c (.entering f) f K (b = false)) (hst : s.step (t, .go) = some s') :
    s'.At t (.fiber f) (if b then .reading else .idle) ∧ s'.stored f = K := by
  rw [step_go hs.place, Fibers.go.eq_def, hs.place.2] at hst
  obtain rfl := Option.some.inj hst
  refine ⟨⟨Function.update_self .., ?_⟩, hs.stored⟩
  rw [pcs_switchFiber_target]
  have hfresh := hs.fresh
  rcases h.target hs.place.2 with ⟨hb, -⟩ | hb <;> rw [hb] at hfresh ⊢
  · rw [hfresh.1 rfl]
    rfl
  · cases b with
    | false => exact absurd (hfresh.2 rfl) (by simp)
    | true => rfl

/-- A thread that finds `invoker_` null executes the fiber after its next two steps. -/
theorem Accounted.exists_entered {b : Bool} {es : List (FiberAct φ ρ)} (h : s.Accounted)
    (hpc : s.pcs (s.current t) = .switching f b) (hnone : s.invoker f = none)
    (hl : own t l = .go :: .go :: es) (hrun : run step s l = some s') :
    ∃ v m, v.Accounted ∧ (v.At t (.fiber f) (if b then .reading else .idle) ∧
      v.stored f = s.stored f) ∧ own t m = es ∧ run step v m = some s' := by
  have hk := h.knows (s.current t)
  rw [hpc] at hk
  have hway : s.OnTheWay t (s.current t) (.switching f b) f (s.stored f) (b = false) := by
    refine ⟨⟨rfl, hpc⟩, rfl, ?_⟩
    cases b with
    | false => exact iff_of_true hk rfl
    | true => exact iff_of_false hk.1 (by simp)
  obtain ⟨v, w, m, hv, ⟨hs, hn⟩, hst, hm, hrun⟩ := exists_step_of_own
    (fun _ _ _ h hst ↦ accounted_step h hst) invoker_leftAlone h ⟨hway, hnone⟩ hl hrun
  obtain ⟨v', w', m', hv', hs', hst', hm', hrun'⟩ := exists_step_of_own
    (fun _ _ _ h hst ↦ accounted_step h hst)
    (fun _ _ _ _ h hs hu hst ↦ h.onTheWay_step rfl hs hu hst) (accounted_step hv hst)
    (hs.take hv hn hst) hm hrun
  exact ⟨w', m', accounted_step hv' hst', hs'.enter hv' hst', hm', hrun'⟩

/-- A fiber that runs outside of `yield` has no token, so nobody stores a result for it. -/
theorem executed_leftAlone (hpc : pc = .idle ∨ pc = .reading) :
    LeftAlone step Accounted t fun s : Fibers τ φ ρ ↦
      s.At t (.fiber f) pc ∧ s.stored f = K := by
  rintro s u e s' h ⟨hat, hstored⟩ hu hst
  refine ⟨h.at_step hat hu hst, ((h.frame hst).stored_eq fun hc ↦ ?_).trans hstored⟩
  have hwaits := (h.tokens.waits f).1 (.inr ⟨_, hc⟩)
  rw [Waits, hat.2] at hwaits
  rcases hpc with rfl | rfl <;> simp at hwaits

theorem Accounted.begins (h : s.Accounted) (hpc : s.pcs (s.current t) = .switching f false)
    (hl : own t l = [.go, .go]) (hrun : run step s l = some s') :
    s'.current t = .fiber f ∧ s'.pcs (.fiber f) = .idle := by
  obtain ⟨v, m, hv, hat, hm, hrun⟩ := h.exists_entered hpc (h.invoker_of_starting hpc) hl hrun
  exact (of_own_eq_nil (fun _ _ _ h hst ↦ accounted_step h hst) at_leftAlone hv hat.1 hm hrun).2

theorem Accounted.resumes (h : s.Accounted) (hpc : s.pcs (s.current t) = .switching f true)
    (hnone : s.invoker f = none) (hl : own t l = [.go, .go, .go])
    (hrun : run step s l = some s') :
    s'.current t = .fiber f ∧ s'.pcs (.fiber f) = .idle ∧ s'.returns f = s.stored f := by
  obtain ⟨v, m, hv, hat, hm, hrun⟩ := h.exists_entered hpc hnone hl hrun
  obtain ⟨w, w', m', hw, ⟨hat', hstored⟩, hst, hm', hrun'⟩ := exists_step_of_own
    (fun _ _ _ h hst ↦ accounted_step h hst) (executed_leftAlone (.inr rfl)) hv hat hm hrun
  have hread : w'.At t (.fiber f) .idle ∧ w'.stored f = s.stored f := by
    rw [step_go hat', Fibers.go.eq_def, hat'.2] at hst
    obtain rfl := Option.some.inj hst
    exact ⟨⟨hat'.1, Function.update_self ..⟩, hstored⟩
  obtain ⟨hend, ⟨hcurrent, hidle⟩, hs⟩ := of_own_eq_nil (fun _ _ _ h hst ↦ accounted_step h hst)
    (executed_leftAlone (.inl rfl)) (accounted_step hw hst) hread hm' hrun'
  refine ⟨hcurrent, hidle, ?_⟩
  rw [← hs, (hend.life f).quiet (by rw [hidle]; rfl)]

theorem Accounted.reposts (h : s.Accounted) (hpc : s.pcs (s.current t) = .switching f true)
    (hne : s.invoker f ≠ none) (hl : own t l = [])
    (hrun : run step s ((t, .go) :: (l ++ [(t, .go)])) = some s') :
    s'.pcs (s'.current t) = .idle ∧ s'.posts f = 1 := by
  obtain ⟨d, hd⟩ := Option.ne_none_iff_exists'.1 hne
  obtain ⟨v, hv, htail⟩ := run_cons_eq_some.1 hrun
  rw [run_append] at htail
  obtain ⟨w, hw, hlast⟩ := Option.bind_eq_some_iff.1 htail
  obtain ⟨w', hst, hend⟩ := run_cons_eq_some.1 hlast
  obtain rfl := Option.some.inj hend
  have hat : v.At t (s.current t) (.reposting f) := by
    have hv' := hv
    rw [step_go ⟨rfl, hpc⟩, Fibers.go.eq_def, hpc] at hv'
    dsimp only at hv'
    rw [hd] at hv'
    obtain rfl := Option.some.inj hv'
    exact ⟨rfl, Function.update_self ..⟩
  obtain ⟨hacc, hat⟩ := of_own_eq_nil (fun _ _ _ h hst ↦ accounted_step h hst) at_leftAlone
    (accounted_step h hv) hat hl hw
  obtain ⟨-, hposts⟩ := hacc.tokens.alone _ f (by rw [hat.2]; rfl)
  rw [step_go hat, Fibers.go.eq_def, hat.2] at hst
  obtain rfl := Option.some.inj hst
  refine ⟨?_, ?_⟩
  · show Function.update w.pcs _ _ (w.current t) = _
    rw [hat.1, Function.update_self]
  · show Function.update w.posts f _ f = 1
    rw [Function.update_self, hposts]

/-! ### The switch back -/

/-- As long as a fiber runs, `invoker_` stays who it is. -/
theorem leaving_leftAlone (hpc : pc.inRun = true) :
    LeftAlone step Accounted t fun s : Fibers τ φ ρ ↦
      s.At t (.fiber f) pc ∧ s.invoker f = some c := by
  rintro s u e s' h ⟨hat, hinvoker⟩ hu hst
  refine ⟨h.at_step hat hu hst, ?_⟩
  rcases (h.frame hst).invoker f with heq | ⟨-, hnone, -⟩ | ⟨hclearing, -⟩
  · exact heq.trans hinvoker
  · rw [hnone] at hinvoker
    cases hinvoker
  · -- a context that releases the fiber would be its `invoker_`, which is suspended
    have hsusp := h.holders.suspended (f := f) (by rw [hclearing]; rfl) (by rw [hclearing]; simp)
    rw [hat.2, hpc] at hsusp
    cases hsusp

/-- While `zwitch` has yet to look at `free_flag_`, the fiber does not run, and the flag is left. -/
theorem returned_leftAlone {b : Bool} : LeftAlone step Accounted t fun s : Fibers τ φ ρ ↦
    s.At t c (.returned f) ∧ s.freeFlag f = b := by
  rintro s u e s' h ⟨hat, hflag⟩ hu hst
  refine ⟨h.at_step hat hu hst, ((h.frame hst).freeFlag f |>.resolve_right fun hf ↦ ?_).trans hflag⟩
  have hsusp := h.holders.suspended (c := c) (f := f) (by rw [hat.2]; rfl) (by rw [hat.2]; simp)
  have hactive := h.threads.active u
  rw [hf] at hactive
  rw [Pc.inRun_of_active hactive] at hsusp
  cases hsusp

/-- The switch back itself. -/
theorem Accounted.at_yield (h : s.Accounted) (hf : s.Leaves f pc)
    (hinvoker : s.invoker f = some c) :
    (s.yield t f pc pc').At t c (.returned f) ∧ (s.yield t f pc pc').freeFlag f = s.freeFlag f := by
  obtain ⟨d, hd, hc, -, hyield⟩ := h.exists_yield_eq hf t pc'
  obtain rfl := Option.some.inj (hd.symm.trans hinvoker)
  rw [hyield]
  refine ⟨⟨Function.update_self .., ?_⟩, rfl⟩
  rw [pcs_switchFiber_target, hc]
  rfl

/-- A fiber that leaves gives its thread back to its `invoker_`, which looks at `free_flag_`. -/
theorem Accounted.exists_returned {b : Bool} {es : List (FiberAct φ ρ)} (h : s.Accounted)
    (hat : s.At t (.fiber f) (if b then .exiting else .yielding))
    (hinvoker : s.invoker f = some c) (hl : own t l = .go :: .go :: es)
    (hrun : run step s l = some s') :
    ∃ v m, v.Accounted ∧ v.At t c (if b then .freeing f else .clearing f) ∧ own t m = es ∧
      run step v m = some s' := by
  obtain ⟨v, w, m, hv, ⟨hat, hinvoker⟩, hst, hm, hrun⟩ := exists_step_of_own
    (fun _ _ _ h hst ↦ accounted_step h hst) (leaving_leftAlone (by cases b <;> rfl)) h
    ⟨hat, hinvoker⟩ hl hrun
  have hback : w.At t c (.returned f) ∧ w.freeFlag f = b := by
    have hflag := (hv.life f).flag
    rw [step_go hat, Fibers.go.eq_def, hat.2] at hst
    cases b with
    | false =>
      obtain rfl := Option.some.inj hst
      obtain ⟨hplace, hsame⟩ := hv.at_yield (.inl ⟨hat.2, rfl⟩) hinvoker
      refine ⟨hplace, hsame.trans (Bool.eq_false_iff.2 fun htrue ↦ ?_)⟩
      rcases hflag.1 htrue with he | he <;> rw [hat.2] at he <;> cases he
    | true =>
      obtain rfl := Option.some.inj hst
      obtain ⟨hplace, hsame⟩ := hv.at_yield (.inr ⟨hat.2, rfl⟩) hinvoker
      exact ⟨hplace, hsame.trans (hflag.2 (.inl hat.2))⟩
  obtain ⟨v', w', m', hv', ⟨hat', hflag⟩, hst', hm', hrun'⟩ := exists_step_of_own
    (fun _ _ _ h hst ↦ accounted_step h hst) returned_leftAlone (accounted_step hv hst) hback hm
    hrun
  refine ⟨w', m', accounted_step hv' hst', ?_, hm', hrun'⟩
  rw [step_go hat', Fibers.go.eq_def, hat'.2] at hst'
  dsimp only at hst'
  rw [hflag] at hst'
  obtain rfl := Option.some.inj hst'
  exact ⟨hat'.1, Function.update_self ..⟩

theorem Accounted.yields (h : s.Accounted) (hat : s.At t (.fiber f) .yielding)
    (hinvoker : s.invoker f = some c) (hl : own t l = [.go, .go, .go])
    (hrun : run step s l = some s') :
    s'.current t = c ∧ s'.pcs c = .idle ∧ s'.invoker f ≠ some c := by
  obtain ⟨v, m, hv, hat, hm, hrun⟩ := h.exists_returned (b := false) hat hinvoker hl hrun
  obtain ⟨w, w', m', hw, hat', hst, hm', hrun'⟩ := exists_step_of_own
    (fun _ _ _ h hst ↦ accounted_step h hst) at_leftAlone hv hat hm hrun
  have hreleased : w'.At t c .idle ∧ w'.invoker f ≠ some c := by
    rw [step_go hat', Fibers.go.eq_def, hat'.2] at hst
    obtain rfl := Option.some.inj hst
    refine ⟨⟨hat'.1, Function.update_self ..⟩, ?_⟩
    show Function.update w.invoker f none f ≠ some c
    rw [Function.update_self]
    simp
  -- another thread may take the fiber meanwhile, but for a context of its own
  have hleft : LeftAlone step Accounted t fun s : Fibers τ φ ρ ↦
      s.At t c .idle ∧ s.invoker f ≠ some c := by
    rintro s u e s' h ⟨hat, hne⟩ hu hst
    refine ⟨h.at_step hat hu hst, ?_⟩
    rcases (h.frame hst).invoker f with heq | ⟨-, -, heq⟩ | ⟨-, heq⟩ <;> rw [heq]
    · exact hne
    · exact fun hc ↦ hu (h.threads.inj u t ((Option.some.inj hc).trans hat.1.symm))
    · simp
  obtain ⟨-, ⟨hcurrent, hidle⟩, hne⟩ := of_own_eq_nil (fun _ _ _ h hst ↦ accounted_step h hst)
    hleft (accounted_step hw hst) hreleased hm' hrun'
  exact ⟨hcurrent, hidle, hne⟩

theorem Accounted.ends (h : s.Accounted) (hat : s.At t (.fiber f) .exiting)
    (hinvoker : s.invoker f = some c) (hl : own t l = [.go, .go, .go])
    (hrun : run step s l = some s') :
    s'.current t = c ∧ s'.pcs c = .idle ∧ s'.frees f = 1 := by
  obtain ⟨v, m, hv, hat, hm, hrun⟩ := h.exists_returned (b := true) hat hinvoker hl hrun
  obtain ⟨w, w', m', hw, hat', hst, hm', hrun'⟩ := exists_step_of_own
    (fun _ _ _ h hst ↦ accounted_step h hst) at_leftAlone hv hat hm hrun
  have hfreed : w'.At t c .idle ∧ 1 ≤ w'.frees f := by
    rw [step_go hat', Fibers.go.eq_def, hat'.2] at hst
    obtain rfl := Option.some.inj hst
    refine ⟨⟨hat'.1, Function.update_self ..⟩, ?_⟩
    show 1 ≤ Function.update w.frees f (w.frees f + 1) f
    rw [Function.update_self]
    exact Nat.le_add_left ..
  have hleft : LeftAlone step Accounted t fun s : Fibers τ φ ρ ↦
      s.At t c .idle ∧ 1 ≤ s.frees f :=
    fun _ _ _ _ h hs hu hst ↦
      ⟨h.at_step hs.1 hu hst, hs.2.trans ((h.frame hst).frees f)⟩
  obtain ⟨hend, ⟨hcurrent, hidle⟩, hle⟩ := of_own_eq_nil
    (fun _ _ _ h hst ↦ accounted_step h hst) hleft (accounted_step hw hst) hfreed hm' hrun'
  exact ⟨hcurrent, hidle, Nat.le_antisymm (hend.life f).frees hle⟩

/-! ### Every run -/

/-- A thread that is neither in the service loop nor in a routine can go on. -/
theorem Accounted.goes (h : s.Accounted) (hbase : ∀ u, (s.pcs (.base u)).plain = true) (t : τ)
    (hne : s.pcs (s.current t) ≠ .idle) : (s.step (t, .go)).isSome = true := by
  have hactive := h.threads.active t
  rw [step_go ⟨rfl, rfl⟩, Fibers.go.eq_def]
  cases hpc : s.pcs (s.current t) with
  | idle => exact absurd hpc hne
  | switching f b =>
    dsimp only
    split <;> rfl
  | fresh | parked | gone | switched f =>
    rw [hpc] at hactive
    cases hactive
  | yielding | reading | exiting =>
    cases hc : s.current t with
    | fiber f => rfl
    | base u =>
      have hplain := hbase u
      rw [← hc, hpc] at hplain
      cases hplain
  | _ => rfl

theorem Accounted.proceeds (h : s.Accounted) (hbase : ∀ u, (s.pcs (.base u)).plain = true) :
    s.Proceeds where
  goes := h.goes hbase
  begins _ _ hpc _ _ := h.begins hpc
  resumes _ _ hpc hnone _ _ := h.resumes hpc hnone
  reposts _ _ hpc hne _ _ := h.reposts hpc hne
  yields t f ht hpc := by
    obtain ⟨c, hc, -⟩ := h.holders.exists_invoker (f := f) (by rw [hpc]; rfl)
    exact ⟨c, hc, fun _ _ ↦ h.yields ⟨ht, hpc⟩ hc⟩
  ends t f ht hpc := by
    obtain ⟨c, hc, -⟩ := h.holders.exists_invoker (f := f) (by rw [hpc]; rfl)
    exact ⟨c, hc, fun _ _ ↦ h.ends ⟨ht, hpc⟩ hc⟩

/-- **The scheduler keeps its promises** in every run, whatever the threads and the routines do. -/
theorem scheduled_of_run {result : φ → ρ} {l : List (τ × FiberAct φ ρ)}
    (hrun : run step (start result) l = some s) : s.Sound ∧ s.Proceeds := by
  obtain ⟨h, hbase⟩ := invariant_run'
    (I := fun s : Fibers τ φ ρ ↦ s.Accounted ∧ ∀ u, (s.pcs (.base u)).plain = true)
    (fun _ _ _ hs hst ↦ ⟨accounted_step hs.1 hst, (hs.1.frame hst).base hs.2⟩)
    ⟨accounted_start result, fun _ ↦ rfl⟩ hrun
  exact ⟨h.sound, h.proceeds hbase⟩

/-- A completion finds the fiber still running and is posted again; it resumes the fiber on the
other thread, where the fiber ends and is freed. -/
theorem scheduled_of_run_reposted :
    ∃ s, run step (start fun _ ↦ 0 : Fibers Bool Unit ℕ)
        [(true, .invoke ()), (true, .go), (true, .go), (true, .call), (false, .complete () 7),
          (false, .go), (false, .go), (false, .go), (true, .go), (true, .go), (true, .go),
          (false, .post ()), (false, .go), (false, .go), (false, .go), (false, .finish),
          (false, .go), (false, .go), (false, .go)] = some s ∧
      s.returns () = [7] ∧ s.frees () = 1 ∧ s.Sound ∧ s.Proceeds := by
  have hrun : run step (start fun _ ↦ 0 : Fibers Bool Unit ℕ)
      [(true, .invoke ()), (true, .go), (true, .go), (true, .call), (false, .complete () 7),
        (false, .go), (false, .go), (false, .go), (true, .go), (true, .go), (true, .go),
        (false, .post ()), (false, .go), (false, .go), (false, .go), (false, .finish),
        (false, .go), (false, .go), (false, .go)] = some _ := rfl
  exact ⟨_, hrun, rfl, rfl, scheduled_of_run hrun⟩

end JnetLib.Fiber.Fibers
