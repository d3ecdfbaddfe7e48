import JnetLib.Fiber.Life

/-!
# Switches

`switch_fiber` changes two contexts and what the thread executes. `Accounted.enter` is the switch to
a fiber, which is new or parked, since the context that switches has its token (`Accounted.target`).
`Accounted.leave` is the switch back to the context that invoked the fiber, which is suspended in
the other switch, since `invoker_` is that context as long as the fiber runs.
-/

namespace JnetLib.Fiber.Fibers

variable {τ φ ρ : Type} {s s' : Fibers τ φ ρ} {t : τ} {c d : Ctx τ φ} {f g : φ} {pc pc' : Pc φ ρ}

variable [DecidableEq τ] [DecidableEq φ]

theorem pcs_switchFiber_self (s : Fibers τ φ ρ) (t : τ) (pc : Pc φ ρ) (hcd : c ≠ d) :
    (s.switchFiber t c pc d).pcs c = pc := by
  show Function.update (Function.update _ _ _) _ _ _ = _
  rw [Function.update_of_ne hcd, Function.update_self]

theorem pcs_switchFiber_target (s : Fibers τ φ ρ) (t : τ) (c d : Ctx τ φ) (pc : Pc φ ρ) :
    (s.switchFiber t c pc d).pcs d = (s.pcs d).resume :=
  Function.update_self ..

theorem pcs_switchFiber_of_ne (s : Fibers τ φ ρ) (t : τ) (pc : Pc φ ρ) {e : Ctx τ φ} (hc : e ≠ c)
    (hd : e ≠ d) : (s.switchFiber t c pc d).pcs e = s.pcs e := by
  show Function.update (Function.update _ _ _) _ _ _ = _
  rw [Function.update_of_ne hd, Function.update_of_ne hc]

omit [DecidableEq τ] [DecidableEq φ] in
/-- A fiber that is switched to begins, or returns from `yield`. -/
theorem Accounted.target (h : s.Accounted) (hc : s.pcs c = .entering f) :
    s.pcs (.fiber f) = .fresh ∧ s.invoked f = true ∨ s.pcs (.fiber f) = .parked := by
  have hsusp := h.holders.suspended (f := f) (by rw [hc]; rfl) (by rw [hc]; simp)
  have hwaits := (h.tokens.waits f).1 (.inr ⟨c, by rw [hc]; rfl⟩)
  refine hwaits.imp_right fun hp ↦ hp.resolve_left fun hy ↦ ?_
  rw [hy] at hsusp
  cases hsusp

omit [DecidableEq τ] [DecidableEq φ] in
theorem Accounted.target_ne (h : s.Accounted) (hc : s.pcs c = .entering f) : c ≠ .fiber f := by
  rintro rfl
  have hsusp := h.holders.suspended (f := f) (by rw [hc]; rfl) (by rw [hc]; simp)
  rw [hc] at hsusp
  cases hsusp

omit [DecidableEq τ] [DecidableEq φ] in
theorem Accounted.resume_target (h : s.Accounted) (hc : s.pcs c = .entering f) :
    (s.pcs (.fiber f)).resume.active = true ∧ (s.pcs (.fiber f)).resume.holds = none ∧
      (s.pcs (.fiber f)).resume.carries = none ∧
      (s.pcs (.fiber f)).carries = none ∧ (s.pcs (.fiber f)).holds = none := by
  rcases h.target hc with ⟨hb, -⟩ | hb <;> rw [hb] <;> exact ⟨rfl, rfl, rfl, rfl, rfl⟩

omit [DecidableEq τ] [DecidableEq φ] in
theorem Accounted.knows_target (h : s.Accounted) (hc : s.pcs c = .entering f) :
    s'.Knows (s.pcs (.fiber f)).resume := by
  rcases h.target hc with ⟨hb, -⟩ | hb <;> rw [hb] <;> trivial

/-- A fiber that is not switched to is where it was, or is the context that switches. -/
theorem pcs_enter_other (hc : s.pcs c = .entering f) (hcf : c ≠ .fiber f) (hg : g ≠ f) :
    (s.switchFiber t c (.switched f) (.fiber f)).pcs (.fiber g) = s.pcs (.fiber g) ∨
      ((s.switchFiber t c (.switched f) (.fiber f)).pcs (.fiber g)).plain = true ∧
        (s.pcs (.fiber g)).plain = true := by
  rcases eq_or_ne (.fiber g) c with rfl | hne
  · rw [pcs_switchFiber_self _ _ _ hcf, hc]
    exact .inr ⟨rfl, rfl⟩
  · exact .inl (pcs_switchFiber_of_ne _ _ _ hne fun hgf ↦ hg (Ctx.fiber.inj hgf))

theorem Accounted.enter_tokens (h : s.Accounted) (hc : s.pcs c = .entering f) :
    Tokens (s.switchFiber t c (.switched f) (.fiber f)).pcs s.invoked s.pending s.posts := by
  have hcarries : (s.pcs c).carries = some f := by rw [hc]; rfl
  have hcf := h.target_ne hc
  obtain ⟨hpending, hposts⟩ := h.tokens.alone c f hcarries
  obtain ⟨-, -, hnew, hold, -⟩ := h.resume_target hc
  refine h.tokens.put hcarries ?_ (fun d hd ↦ ?_) (by omega) (iff_of_false ?_ (by omega))
    fun g hg ↦ ⟨rfl, rfl, waits_of_plain (pcs_enter_other hc hcf hg)⟩
  · rw [pcs_switchFiber_self _ _ _ hcf]
    rfl
  · rcases eq_or_ne d (.fiber f) with rfl | hne
    · rw [pcs_switchFiber_target, hnew, hold]
    · rw [pcs_switchFiber_of_ne _ _ _ hd hne]
  · rw [Waits, pcs_switchFiber_target]
    rcases h.target hc with ⟨hb, -⟩ | hb <;> rw [hb] <;> simp [Pc.resume]

theorem Accounted.enter_knows (h : s.Accounted) (hc : s.pcs c = .entering f) (d : Ctx τ φ) :
    (s.switchFiber t c (.switched f) (.fiber f)).Knows
      ((s.switchFiber t c (.switched f) (.fiber f)).pcs d) := by
  have hcf := h.target_ne hc
  rcases eq_or_ne d (.fiber f) with rfl | hdf
  · rw [pcs_switchFiber_target]
    exact h.knows_target hc
  rcases eq_or_ne d c with rfl | hdc
  · rw [pcs_switchFiber_self _ _ _ hdf]
    trivial
  rw [pcs_switchFiber_of_ne _ _ _ hdc hdf]
  -- the context that switches has the token of the fiber, and is its `invoker_`
  have htoken : ∀ g, (s.pcs d).carries = some g → g ≠ f := by
    rintro g hd rfl
    exact hdc (h.tokens.inj d c g hd (by rw [hc]; rfl))
  have hinvoker : ∀ g, (s.pcs d).holds = some g → g ≠ f := by
    rintro g hd rfl
    have hd' := h.holders.holder d g hd
    have hc' := h.holders.holder c g (by rw [hc]; rfl)
    exact hdc (Option.some.inj (hd'.symm.trans hc'))
  refine (h.knows d).frame (fun g hd ↦ ?_) fun g hd _ ↦ ?_
  · exact ⟨(Pc.kind_of_plain (pcs_enter_other hc hcf (htoken g hd))).1, rfl, rfl, rfl⟩
  · obtain ⟨hfresh, hgone, -⟩ := Pc.kind_of_plain (pcs_enter_other (t := t) hc hcf (hinvoker g hd))
    exact ⟨hfresh, hgone⟩

/-- The life of the fiber that is switched to. -/
theorem Accounted.enter_life (h : s.Accounted) (hc : s.pcs c = .entering f) :
    (s.switchFiber t c (.switched f) (.fiber f)).Life f := by
  obtain ⟨hpending, hposts⟩ := h.tokens.alone c f (by rw [hc]; rfl)
  have hl := h.life f
  have hcalls := hl.calls
  have hflag := hl.flag
  have hfreed := hl.freed
  have hk : s.pcs (.fiber f) = .fresh ∨ s.stored f = s.returns f ++ [s.result f] := by
    have hk := h.knows c
    rwa [hc] at hk
  refine ⟨fun hi ↦ ?_, fun hp ↦ absurd hpending hp, fun hp ↦ absurd hposts hp, ?_, ?_, ?_, ?_,
    hl.frees, fun hf ↦ ?_, ?_⟩
  · rcases h.target hc with ⟨-, hi'⟩ | hb
    · exact absurd hi (by show s.invoked f ≠ false; rw [hi']; simp)
    · have hfresh := hl.uninvoked hi
      rw [hb] at hfresh
      cases hfresh
  all_goals rw [pcs_switchFiber_target]
  all_goals rcases h.target hc with ⟨hb, -⟩ | hb
  all_goals rw [hb] at hcalls hflag hfreed hk ⊢
  · simp [Pc.resume]
  · exact fun _ ↦ hk.resolve_left (by simp)
  · exact fun _ ↦ hl.quiet (by rw [hb]; rfl)
  · simp [Pc.resume, Pc.inCall]
  · exact hcalls
  · exact hcalls
  · show s.freeFlag f = true ↔ _
    simpa [Pc.resume] using hflag
  · show s.freeFlag f = true ↔ _
    simpa [Pc.resume] using hflag
  · exact absurd (hfreed hf) (by simp)
  · exact absurd (hfreed hf) (by simp)
  · simp [Pc.resume]
  · simp [Pc.resume]

/-- The switch to a fiber: it begins, or returns from `yield`. -/
theorem Accounted.enter (h : s.Accounted) (ht : s.current t = c) (hc : s.pcs c = .entering f) :
    Accounted (s.switchFiber t c (.switched f) (.fiber f)) := by
  have hcf := h.target_ne hc
  obtain ⟨hactive, hholds, -, -, hnone⟩ := h.resume_target hc
  refine ⟨h.threads.switch ht ?_ hactive, h.holders.enter hc hactive hholds, h.enter_tokens hc,
    h.enter_knows hc, fun g ↦ ?_⟩
  · rcases h.target hc with ⟨hb, -⟩ | hb <;> rw [hb] <;> rfl
  rcases eq_or_ne g f with rfl | hg
  · exact h.enter_life hc
  refine (h.life g).frame (pcs_enter_other hc hcf hg) id id id ⟨rfl, rfl, rfl, rfl⟩ ⟨rfl, rfl⟩
    fun d _ hd ↦ ⟨d, ?_⟩
  have hdc : d ≠ c := by
    rintro rfl
    rw [hc] at hd
    simp at hd
  have hdf : d ≠ .fiber f := by
    rintro rfl
    rcases hd with hd | hd <;> rw [hd] at hnone <;> cases hnone
  rwa [pcs_switchFiber_of_ne _ _ _ hdc hdf]

/-- A fiber leaves in a blocking call, or at its end. -/
def Leaves (s : Fibers τ φ ρ) (f : φ) (pc : Pc φ ρ) : Prop :=
  s.pcs (.fiber f) = .yielding ∧ pc = .parked ∨ s.pcs (.fiber f) = .exiting ∧ pc = .gone

omit [DecidableEq τ] [DecidableEq φ] in
theorem Leaves.old (h : s.Leaves f pc) :
    (s.pcs (.fiber f)).active = true ∧ (s.pcs (.fiber f)).holds = none ∧
      (s.pcs (.fiber f)).carries = none ∧ s.pcs (.fiber f) ≠ .fresh := by
  rcases h with ⟨hb, -⟩ | ⟨hb, -⟩ <;> rw [hb] <;> exact ⟨rfl, rfl, rfl, by simp⟩

omit [DecidableEq τ] [DecidableEq φ] in
theorem Leaves.new (h : s.Leaves f pc) :
    pc.inRun = false ∧ pc.carries = none ∧ pc ≠ .fresh := by
  rcases h with ⟨-, rfl⟩ | ⟨-, rfl⟩ <;> exact ⟨rfl, rfl, by simp⟩

omit [DecidableEq τ] [DecidableEq φ] in
theorem Leaves.knows (h : s.Leaves f pc) : s'.Knows pc := by
  rcases h with ⟨-, rfl⟩ | ⟨-, rfl⟩ <;> trivial

/-- A fiber that is not left is where it was, or is the context that goes on. -/
theorem pcs_leave_other (hc : s.pcs c = .switched f) (hg : g ≠ f) :
    (s.switchFiber t (.fiber f) pc c).pcs (.fiber g) = s.pcs (.fiber g) ∨
      ((s.switchFiber t (.fiber f) pc c).pcs (.fiber g)).plain = true ∧
        (s.pcs (.fiber g)).plain = true := by
  rcases eq_or_ne (.fiber g) c with rfl | hne
  · rw [pcs_switchFiber_target, hc]
    exact .inr ⟨rfl, rfl⟩
  · exact .inl (pcs_switchFiber_of_ne _ _ _ (fun hgf ↦ hg (Ctx.fiber.inj hgf)) hne)

theorem Accounted.leave_tokens (h : s.Accounted) (hf : s.Leaves f pc) (hc : s.pcs c = .switched f)
    (hfc : .fiber f ≠ c) :
    Tokens (s.switchFiber t (.fiber f) pc c).pcs s.invoked s.pending s.posts := by
  have hwaits : ∀ g, Waits (s.switchFiber t (.fiber f) pc c).pcs s.invoked g ↔
      Waits s.pcs s.invoked g := by
    intro g
    rcases eq_or_ne g f with rfl | hg
    · unfold Waits
      rw [pcs_switchFiber_self _ _ _ hfc]
      rcases hf with ⟨hb, rfl⟩ | ⟨hb, rfl⟩ <;> rw [hb] <;> simp
    · exact waits_of_plain (pcs_leave_other hc hg)
  have hcarries : ∀ d, ((s.switchFiber t (.fiber f) pc c).pcs d).carries = (s.pcs d).carries := by
    intro d
    rcases eq_or_ne d c with rfl | hdc
    · rw [pcs_switchFiber_target, hc]
      rfl
    rcases eq_or_ne d (.fiber f) with rfl | hdf
    · rw [pcs_switchFiber_self _ _ _ hfc, hf.new.2.1, hf.old.2.2.1]
    · rw [pcs_switchFiber_of_ne _ _ _ hdf hdc]
  exact ⟨fun d e g hd he ↦ h.tokens.inj d e g ((hcarries d).symm.trans hd)
      ((hcarries e).symm.trans he),
    fun d g hd ↦ h.tokens.alone d g ((hcarries d).symm.trans hd), h.tokens.le_one,
    fun g ↦ by simp only [hwaits, hcarries, h.tokens.waits]⟩

theorem Accounted.leave_knows (h : s.Accounted) (hf : s.Leaves f pc)
    (hinvoker : s.invoker f = some c)
    (hc : s.pcs c = .switched f) (hfc : .fiber f ≠ c) (d : Ctx τ φ) :
    (s.switchFiber t (.fiber f) pc c).Knows ((s.switchFiber t (.fiber f) pc c).pcs d) := by
  have hfresh' := hf.new.2.2
  have hself : (s.switchFiber t (.fiber f) pc c).pcs (.fiber f) = pc :=
    pcs_switchFiber_self _ _ _ hfc
  rcases eq_or_ne d c with rfl | hdc
  · rw [pcs_switchFiber_target, hc]
    show (s.switchFiber t (.fiber f) pc d).pcs (.fiber f) ≠ .fresh
    rwa [hself]
  rcases eq_or_ne d (.fiber f) with rfl | hdf
  · rw [hself]
    exact hf.knows
  rw [pcs_switchFiber_of_ne _ _ _ hdf hdc]
  refine (h.knows d).frame (fun g _ ↦ ⟨?_, rfl, rfl, rfl⟩) fun g hd _ ↦ ?_
  · rcases eq_or_ne g f with rfl | hg
    · rw [hself]
      exact iff_of_false hfresh' hf.old.2.2.2
    · exact (Pc.kind_of_plain (pcs_leave_other hc hg)).1
  · -- the context that holds a suspended fiber does not hold this one
    have hg : g ≠ f := by
      rintro rfl
      have hd' := h.holders.holder d g hd
      exact hdc (Option.some.inj (hd'.symm.trans hinvoker))
    have hother : (s.switchFiber t (.fiber f) pc c).pcs (.fiber g) = _ ∨ _ :=
      pcs_leave_other hc hg
    obtain ⟨hfresh, hgone, -⟩ := Pc.kind_of_plain hother
    exact ⟨hfresh, hgone⟩

/-- The life of the fiber that leaves. -/
theorem Accounted.leave_life (h : s.Accounted) (hf : s.Leaves f pc) (hc : s.pcs c = .switched f)
    (hfc : .fiber f ≠ c) : (s.switchFiber t (.fiber f) pc c).Life f := by
  have hl := h.life f
  have hcalls := hl.calls
  have hflag := hl.flag
  have hfreed := hl.freed
  have hfresh := hf.old.2.2.2
  have hfresh' : pc ≠ .fresh := hf.new.2.2
  have hself : (s.switchFiber t (.fiber f) pc c).pcs (.fiber f) = pc :=
    pcs_switchFiber_self _ _ _ hfc
  have hreturned : (s.switchFiber t (.fiber f) pc c).pcs c = .returned f := by
    rw [pcs_switchFiber_target, hc]
    rfl
  refine ⟨fun hi ↦ absurd (hl.uninvoked hi) hfresh, fun hp ↦ ⟨?_, (hl.pending hp).2⟩,
    fun hp ↦ ⟨?_, (hl.posts hp).2⟩, ?_, ?_, ?_, ?_, hl.frees, fun hz ↦ ?_,
    fun _ ↦ .inr ⟨c, .inl hreturned⟩⟩
  · rwa [hself]
  · rwa [hself]
  · rw [hself]
    rcases hf with ⟨-, rfl⟩ | ⟨-, rfl⟩ <;> simp
  · rw [hself]
    intro hi
    rcases hf with ⟨-, rfl⟩ | ⟨hb, rfl⟩
    · cases hi
    · exact hl.quiet (by rw [hb]; rfl)
  · rw [hself]
    rcases hf with ⟨hb, rfl⟩ | ⟨hb, rfl⟩ <;> rw [hb] at hcalls <;> exact hcalls
  · rw [hself]
    show s.freeFlag f = true ↔ _
    rcases hf with ⟨hb, rfl⟩ | ⟨hb, rfl⟩ <;> rw [hb] at hflag <;> simpa using hflag
  · have hgone := hfreed hz
    rcases hf with ⟨hb, -⟩ | ⟨hb, -⟩ <;> rw [hb] at hgone <;> cases hgone

/-- A fiber that leaves goes back to its `invoker_`, which is suspended in the switch to it. -/
theorem Accounted.exists_yield_eq (h : s.Accounted) (hf : s.Leaves f pc) (t : τ) (pc' : Pc φ ρ) :
    ∃ c, s.invoker f = some c ∧ s.pcs c = .switched f ∧ .fiber f ≠ c ∧
      s.yield t f pc pc' = s.switchFiber t (.fiber f) pc c := by
  have hactive := hf.old.1
  obtain ⟨c, hinvoker, hc⟩ := h.holders.exists_invoker (Pc.inRun_of_active hactive)
  refine ⟨c, hinvoker, hc, ?_, by simp only [Fibers.yield, hinvoker]⟩
  rintro rfl
  rw [hc] at hactive
  cases hactive

/-- A fiber goes back to the context that invoked it: in a blocking call, or at its end. -/
theorem Accounted.leave (h : s.Accounted) (ht : s.current t = .fiber f) (hf : s.Leaves f pc) :
    Accounted (s.yield t f pc pc') := by
  obtain ⟨hactive, hholds, -, -⟩ := hf.old
  obtain ⟨c, hinvoker, hc, hfc, hyield⟩ := h.exists_yield_eq hf t pc'
  have hholders : Holders (s.switchFiber t (.fiber f) pc c).pcs s.invoker s.frees := by
    have hleave := h.holders.leave hactive hholds hc hf.new.1
    rwa [switchFiber, hc]
  rw [hyield]
  refine ⟨h.threads.switch ht (by rw [hc]; rfl) (by rw [hc]; rfl), hholders,
    h.leave_tokens hf hc hfc, h.leave_knows hf hinvoker hc hfc, fun g ↦ ?_⟩
  rcases eq_or_ne g f with rfl | hg
  · exact h.leave_life hf hc hfc
  refine (h.life g).frame (pcs_leave_other hc hg) id id id ⟨rfl, rfl, rfl, rfl⟩ ⟨rfl, rfl⟩
    fun d _ hd ↦ ⟨d, ?_⟩
  have hdc : d ≠ c := by
    rintro rfl
    rw [hc] at hd
    simp at hd
  have hdf : d ≠ .fiber f := by
    rintro rfl
    rcases hd with hd | hd <;> rw [hd] at hholds <;> cases hholds
  rwa [pcs_switchFiber_of_ne _ _ _ hdf hdc]

end JnetLib.Fiber.Fibers
