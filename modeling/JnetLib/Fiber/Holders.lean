import JnetLib.Fiber.Fibers

/-!
# Who executes what, and who has invoked whom

Two parts of the invariant of the fibers, each over the fields it speaks of and each with one lemma
for every way in which a step changes these fields.

* `Threads` is kept by a context that goes on (`Threads.update`) and by a switch to a context that
  is suspended (`Threads.switch`).
* `Holders` ties `invoker_` to the context in `zwitch`. It is kept by a context that goes on
  (`Holders.update`), by the compare-and-swap (`Holders.take`), by the two switches (`Holders.enter`
  and `Holders.leave`), and where `zwitch` releases or frees the fiber (`Holders.release` and
  `Holders.free`).
-/

namespace JnetLib.Fiber.Fibers

variable {τ φ ρ : Type} {current : τ → Ctx τ φ} {pcs : Ctx τ φ → Pc φ ρ}
  {invoker : φ → Option (Ctx τ φ)} {frees : φ → ℕ} {t : τ} {c d : Ctx τ φ} {f : φ}
  {pc pc' : Pc φ ρ} {b : Bool}

/-- No two threads execute the same context, and a context that is executed is not suspended. -/
structure Threads (current : τ → Ctx τ φ) (pcs : Ctx τ φ → Pc φ ρ) : Prop where
  inj : ∀ t u, current t = current u → t = u
  active : ∀ t, (pcs (current t)).active = true

/-- `invoker_` is the context that is in `zwitch` of the fiber; it is suspended there exactly while
the fiber has begun and is neither parked nor at its end. -/
structure Holders (pcs : Ctx τ φ → Pc φ ρ) (invoker : φ → Option (Ctx τ φ)) (frees : φ → ℕ) :
    Prop where
  holder : ∀ c f, (pcs c).holds = some f → invoker f = some c
  holds : ∀ f c, invoker f = some c → frees f = 0 → (pcs c).holds = some f
  held : ∀ c f, (pcs c).holds = some f → frees f = 0
  switched : ∀ f, (pcs (.fiber f)).inRun = true → ∃ c, pcs c = .switched f
  inRun : ∀ c f, pcs c = .switched f → (pcs (.fiber f)).inRun = true

/-! ### Who executes what -/

section Update

variable [DecidableEq τ] [DecidableEq φ]

theorem Threads.update (h : Threads current pcs) (hpc : pc.active = true) :
    Threads current (Function.update pcs c pc) where
  inj := h.inj
  active u := by
    have hu := h.active u
    grind [Function.update_apply]

/-- A switch to a suspended context. -/
theorem Threads.switch (h : Threads current pcs) (hc : current t = c)
    (hd : (pcs d).active = false) (hpc' : pc'.active = true) :
    Threads (Function.update current t d) (Function.update (Function.update pcs c pc) d pc') where
  inj u v huv := by
    have hu := h.active u
    have hv := h.active v
    have hinj := h.inj u v
    grind [Function.update_apply]
  active u := by
    have hu := h.active u
    have hinj := h.inj t u
    grind [Function.update_apply]

end Update

/-! ### Who has invoked whom -/

/-- A context that has taken or will release `invoker_` finds the fiber suspended. -/
theorem Holders.suspended (h : Holders pcs invoker frees) (hc : (pcs c).holds = some f)
    (hne : pcs c ≠ .switched f) : (pcs (.fiber f)).inRun = false := by
  by_contra hrun
  obtain ⟨d, hd⟩ := h.switched f (by simpa using hrun)
  have hd' := h.holder d f (by rw [hd]; rfl)
  obtain rfl : d = c := Option.some.inj (hd'.symm.trans (h.holder c f hc))
  exact hne hd

/-- A fiber that runs is left to the context that switched to it. -/
theorem Holders.exists_invoker (h : Holders pcs invoker frees)
    (hrun : (pcs (.fiber f)).inRun = true) : ∃ c, invoker f = some c ∧ pcs c = .switched f := by
  obtain ⟨d, hd⟩ := h.switched f hrun
  exact ⟨d, h.holder d f (by rw [hd]; rfl), hd⟩

section Update

variable [DecidableEq τ] [DecidableEq φ]

/-- The contexts suspended in `switch_fiber`, after a context that was not changed. -/
theorem exists_switched_update (h : ∃ d, pcs d = .switched f) (hc : pcs c ≠ .switched f) :
    ∃ d, Function.update pcs c pc d = .switched f := by
  obtain ⟨d, hd⟩ := h
  refine ⟨d, ?_⟩
  have hne : d ≠ c := fun hb ↦ hc (hb ▸ hd)
  rw [Function.update_of_ne hne, hd]

/-- A context that goes on outside of `switch_fiber`, with the same `invoker_`. -/
theorem Holders.update (h : Holders pcs invoker frees) (hc : (pcs c).active = true)
    (hholds : pc.holds = (pcs c).holds) (hpc : pc.active = true) :
    Holders (Function.update pcs c pc) invoker frees where
  holder d f hd := by
    have hd' := h.holder d f
    have hc' := h.holder c f
    grind [Function.update_apply]
  holds f d hd hf := by
    have hd' := h.holds f d hd hf
    grind [Function.update_apply]
  held d f hd := by
    have hd' := h.held d f
    have hc' := h.held c f
    grind [Function.update_apply]
  switched f hf := by
    have hf' : (pcs (.fiber f)).inRun = true := by grind [Function.update_apply]
    exact exists_switched_update (h.switched f hf') (Pc.ne_switched_of_active hc)
  inRun d f hd := by
    have hd' := h.inRun d f
    have hpc' := Pc.ne_switched_of_active (f := f) hpc
    grind [Function.update_apply]

/-- The compare-and-swap of `zwitch`. -/
theorem Holders.take (h : Holders pcs invoker frees) (hc : pcs c = .switching f b)
    (hf : invoker f = none) (hfree : frees f = 0) :
    Holders (Function.update pcs c (.entering f)) (Function.update invoker f (some c)) frees where
  holder d g hd := by
    have hd' := h.holder d g
    have hc' := h.holder c g
    grind [Function.update_apply, Pc.holds]
  holds g d hd hg := by
    have hd' := h.holds g d
    grind [Function.update_apply, Pc.holds]
  held d g hd := by
    have hd' := h.held d g
    grind [Function.update_apply, Pc.holds]
  switched g hg := by
    have hg' : (pcs (.fiber g)).inRun = true := by grind [Function.update_apply, Pc.inRun]
    exact exists_switched_update (h.switched g hg') (by rw [hc]; simp)
  inRun d g hd := by
    have hd' := h.inRun d g
    grind [Function.update_apply, Pc.inRun]

/-- The switch to a fiber whose `invoker_` was taken. -/
theorem Holders.enter (h : Holders pcs invoker frees) (hc : pcs c = .entering f)
    (hpc : pc.active = true) (hholds : pc.holds = none) :
    Holders (Function.update (Function.update pcs c (.switched f)) (.fiber f) pc) invoker
      frees := by
  have hf := h.suspended (f := f) (by rw [hc]; rfl) (by rw [hc]; simp)
  have hfc : c ≠ .fiber f := by
    rintro rfl
    rw [hc] at hf
    cases hf
  have hfh : ∀ g, (pcs (.fiber f)).holds ≠ some g := fun g hg ↦ by
    rw [Pc.holds_of_not_inRun hf] at hg
    cases hg
  refine ⟨fun d g hd ↦ ?_, fun g d hd hg ↦ ?_, fun d g hd ↦ ?_, fun g hg ↦ ?_, fun d g hd ↦ ?_⟩
  · have hd' := h.holder d g
    have hc' := h.holder c g
    grind [Function.update_apply, Pc.holds]
  · have hd' := h.holds g d hd hg
    have hg' := hfh g
    grind [Function.update_apply, Pc.holds]
  · have hd' := h.held d g
    have hc' := h.held c g
    grind [Function.update_apply, Pc.holds]
  · rcases eq_or_ne g f with rfl | hne
    · exact ⟨c, by rw [Function.update_of_ne hfc, Function.update_self]⟩
    · have hg' : (pcs (.fiber g)).inRun = true := by grind [Function.update_apply, Pc.inRun]
      have hd : ∃ d, Function.update pcs c (.switched f) d = .switched g :=
        exists_switched_update (h.switched g hg') (by rw [hc]; simp)
      refine exists_switched_update hd ?_
      rw [Function.update_of_ne hfc.symm]
      intro hsw
      exact hfh g (by rw [hsw]; rfl)
  · have hd' := h.inRun d g
    have hpc' := Pc.ne_switched_of_active (f := g) hpc
    grind [Function.update_apply, Pc.inRun]

/-- `zwitch` releases the fiber. -/
theorem Holders.release (h : Holders pcs invoker frees) (hc : pcs c = .clearing f) :
    Holders (Function.update pcs c .idle) (Function.update invoker f none) frees where
  holder d g hd := by
    have hd' := h.holder d g
    have hc' := h.holder c f (by rw [hc]; rfl)
    grind [Function.update_apply, Pc.holds]
  holds g d hd hg := by
    have hd' := h.holds g d
    grind [Function.update_apply, Pc.holds]
  held d g hd := by
    have hd' := h.held d g
    grind [Function.update_apply, Pc.holds]
  switched g hg := by
    have hg' : (pcs (.fiber g)).inRun = true := by grind [Function.update_apply, Pc.inRun]
    exact exists_switched_update (h.switched g hg') (by rw [hc]; simp)
  inRun d g hd := by
    have hd' := h.inRun d g
    grind [Function.update_apply, Pc.inRun]

/-- `zwitch` frees the fiber. -/
theorem Holders.free (h : Holders pcs invoker frees) (hc : pcs c = .freeing f) :
    Holders (Function.update pcs c .idle) invoker (Function.update frees f (frees f + 1)) where
  holder d g hd := by
    have hd' := h.holder d g
    grind [Function.update_apply, Pc.holds]
  holds g d hd hg := by
    have hd' := h.holds g d hd
    grind [Function.update_apply, Pc.holds]
  held d g hd := by
    have hd' := h.held d g
    have hd'' := h.holder d g
    have hc' := h.holder c f (by rw [hc]; rfl)
    grind [Function.update_apply, Pc.holds]
  switched g hg := by
    have hg' : (pcs (.fiber g)).inRun = true := by grind [Function.update_apply, Pc.inRun]
    exact exists_switched_update (h.switched g hg') (by rw [hc]; simp)
  inRun d g hd := by
    have hd' := h.inRun d g
    grind [Function.update_apply, Pc.inRun]

/-- The switch of a fiber back to the context that invoked it. -/
theorem Holders.leave (h : Holders pcs invoker frees) (hf : (pcs (.fiber f)).active = true)
    (hholds : (pcs (.fiber f)).holds = none) (hc : pcs c = .switched f)
    (hpc : pc.inRun = false) :
    Holders (Function.update (Function.update pcs (.fiber f) pc) c (.returned f)) invoker
      frees := by
  have hcf : c ≠ .fiber f := by
    rintro rfl
    rw [hc] at hf
    cases hf
  have hpcf : ∀ g, pc.holds ≠ some g := fun g hg ↦ by
    rw [Pc.holds_of_not_inRun hpc] at hg
    cases hg
  refine ⟨fun d g hd ↦ ?_, fun g d hd hg ↦ ?_, fun d g hd ↦ ?_, fun g hg ↦ ?_, fun d g hd ↦ ?_⟩
  · have hd' := h.holder d g
    have hg' := hpcf g
    grind [Function.update_apply, Pc.holds]
  · have hd' := h.holds g d hd hg
    grind [Function.update_apply, Pc.holds]
  · have hd' := h.held d g
    have hc' := h.held c g
    have hg' := hpcf g
    grind [Function.update_apply, Pc.holds]
  · have hgf : g ≠ f := by
      rintro rfl
      rw [Function.update_of_ne hcf.symm, Function.update_self, hpc] at hg
      cases hg
    have hg' : (pcs (.fiber g)).inRun = true := by grind [Function.update_apply, Pc.inRun]
    refine exists_switched_update (exists_switched_update (h.switched g hg') ?_) ?_
    · exact Pc.ne_switched_of_active hf
    · rw [Function.update_of_ne hcf, hc]
      simpa using hgf.symm
  · have hd' := h.inRun d g
    have hc' := h.holder c f (by rw [hc]; rfl)
    have hd'' := h.holder d g
    grind [Function.update_apply, Pc.inRun, Pc.holds]

end Update

end JnetLib.Fiber.Fibers
