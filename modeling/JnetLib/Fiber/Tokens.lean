import JnetLib.Fiber.Fibers

/-!
# The tokens of the fibers

A fiber that waits to be switched to has one token: an operation, a posted callback, or a context on
the way to it. `Tokens` is that part of the invariant. A token is made where a fiber comes to wait
(`Tokens.wait`), taken out of the operations or the posted callbacks by a context (`Tokens.take`),
and given back by the context, which posts a callback or has switched to the fiber (`Tokens.put`);
any other step leaves the tokens where they are (`Tokens.update`).
-/

namespace JnetLib.Fiber.Fibers

variable {τ φ ρ : Type} {pcs : Ctx τ φ → Pc φ ρ} {pending posts : φ → ℕ} {invoked : φ → Bool}
  {c : Ctx τ φ} {f : φ} {pc : Pc φ ρ}

/-- A fiber that waits has one token, and no other fiber has any: an operation, a posted callback,
or a context that is about to switch to the fiber or to post for it. -/
structure Tokens (pcs : Ctx τ φ → Pc φ ρ) (invoked : φ → Bool) (pending posts : φ → ℕ) : Prop where
  inj : ∀ c d f, (pcs c).carries = some f → (pcs d).carries = some f → c = d
  alone : ∀ c f, (pcs c).carries = some f → pending f = 0 ∧ posts f = 0
  le_one : ∀ f, pending f + posts f ≤ 1
  waits : ∀ f, pending f + posts f = 1 ∨ (∃ c, (pcs c).carries = some f) ↔ Waits pcs invoked f

variable [DecidableEq τ] [DecidableEq φ]

/-- A context that goes on with its token, if it has one. -/
theorem Tokens.update (h : Tokens pcs invoked pending posts)
    (hcarries : pc.carries = (pcs c).carries)
    (hwaits : ∀ f, Waits (Function.update pcs c pc) invoked f ↔ Waits pcs invoked f) :
    Tokens (Function.update pcs c pc) invoked pending posts := by
  have hall : ∀ d, (Function.update pcs c pc d).carries = (pcs d).carries := by
    grind [Function.update_apply]
  refine ⟨fun d e f hd he ↦ ?_, fun d f hd ↦ ?_, h.le_one, fun f ↦ ?_⟩
  · exact h.inj d e f ((hall d).symm.trans hd) ((hall e).symm.trans he)
  · exact h.alone d f ((hall d).symm.trans hd)
  · rw [hwaits f, ← h.waits f]
    simp only [hall]

/-- The waiting fibers, after a context that does not wait. -/
theorem waits_update (hc : (pcs c).active = true) (hpc : pc.active = true)
    (hc' : pcs c ≠ .yielding) (hpc' : pc ≠ .yielding) :
    Waits (Function.update pcs c pc) invoked f ↔ Waits pcs invoked f := by
  unfold Waits
  grind [Function.update_apply, Pc.active]

omit [DecidableEq τ] [DecidableEq φ] in
/-- A fiber that stays where it is, or goes from one plain place to another, waits as before. -/
theorem waits_of_plain {pcs' : Ctx τ φ → Pc φ ρ} (h : pcs' (.fiber f) = pcs (.fiber f) ∨
    (pcs' (.fiber f)).plain = true ∧ (pcs (.fiber f)).plain = true) :
    Waits pcs' invoked f ↔ Waits pcs invoked f := by
  unfold Waits
  rcases h with h | ⟨hp, hq⟩
  · rw [h]
  · obtain ⟨a1, -, -, -, a5⟩ := Pc.of_plain hp
    obtain ⟨b1, -, -, -, b5⟩ := Pc.of_plain hq
    simp [a1, b1, Pc.ne_of_inCall_eq_false a5, Pc.ne_of_inCall_eq_false b5]

/-- The service loop takes an operation or a posted callback. -/
theorem Tokens.take {pending' posts' : φ → ℕ} (h : Tokens pcs invoked pending posts)
    (hc : (pcs c).carries = none) (hpc : pc.carries = some f) (hf : pending f + posts f ≠ 0)
    (hf' : pending' f + posts' f = 0)
    (hg : ∀ g, g ≠ f → pending' g = pending g ∧ posts' g = posts g)
    (hwaits : ∀ g, Waits (Function.update pcs c pc) invoked g ↔ Waits pcs invoked g) :
    Tokens (Function.update pcs c pc) invoked pending' posts' := by
  have hnone : ∀ d, (pcs d).carries ≠ some f := fun d hd ↦ by
    have hd' := h.alone d f hd
    omega
  have hle := h.le_one f
  refine ⟨fun d e g hd he ↦ ?_, fun d g hd ↦ ?_, fun g ↦ ?_, fun g ↦ ?_⟩
  · have hinj := h.inj d e g
    grind [Function.update_apply]
  · have halone := h.alone d g
    have hg' := hg g
    grind [Function.update_apply]
  · rcases eq_or_ne g f with rfl | hne
    · omega
    · rw [(hg g hne).1, (hg g hne).2]
      exact h.le_one g
  · rw [hwaits g, ← h.waits g]
    rcases eq_or_ne g f with rfl | hne
    · exact iff_of_true (.inr ⟨c, by rw [Function.update_self, hpc]⟩) (.inl (by omega))
    · rw [(hg g hne).1, (hg g hne).2]
      refine or_congr_right (exists_congr fun d ↦ ?_)
      grind [Function.update_apply]

omit [DecidableEq τ] [DecidableEq φ] in
/-- A context gives its token back: it posts a callback, or it has switched to the fiber. -/
theorem Tokens.put {pending' posts' : φ → ℕ} {invoked' : φ → Bool} {pcs' : Ctx τ φ → Pc φ ρ}
    (h : Tokens pcs invoked pending posts) (hc : (pcs c).carries = some f)
    (hc' : (pcs' c).carries = none) (hpcs : ∀ d, d ≠ c → (pcs' d).carries = (pcs d).carries)
    (hle : pending' f + posts' f ≤ 1)
    (hwaits : Waits pcs' invoked' f ↔ pending' f + posts' f = 1)
    (hg : ∀ g, g ≠ f → pending' g = pending g ∧ posts' g = posts g ∧
      (Waits pcs' invoked' g ↔ Waits pcs invoked g)) :
    Tokens pcs' invoked' pending' posts' := by
  have hnone : ∀ d, (pcs' d).carries ≠ some f := by
    intro d hd
    rcases eq_or_ne d c with rfl | hne
    · rw [hc'] at hd
      cases hd
    · rw [hpcs d hne] at hd
      exact hne (h.inj d c f hd hc)
  refine ⟨fun d e g hd he ↦ ?_, fun d g hd ↦ ?_, fun g ↦ ?_, fun g ↦ ?_⟩
  · have hne : ∀ d, (pcs' d).carries = some g → d ≠ c := by
      rintro d hd rfl
      rw [hc'] at hd
      cases hd
    rw [hpcs d (hne d hd)] at hd
    rw [hpcs e (hne e he)] at he
    exact h.inj d e g hd he
  · have hgf : g ≠ f := by
      rintro rfl
      exact hnone d hd
    have hdc : d ≠ c := by
      rintro rfl
      rw [hc'] at hd
      cases hd
    rw [(hg g hgf).1, (hg g hgf).2.1]
    exact h.alone d g ((hpcs d hdc).symm.trans hd)
  · rcases eq_or_ne g f with rfl | hne
    · exact hle
    · rw [(hg g hne).1, (hg g hne).2.1]
      exact h.le_one g
  · rcases eq_or_ne g f with rfl | hne
    · rw [hwaits]
      exact or_iff_left fun ⟨d, hd⟩ ↦ hnone d hd
    · obtain ⟨h1, h2, h3⟩ := hg g hne
      rw [h3, ← h.waits g, h1, h2]
      refine or_congr_right (exists_congr fun d ↦ ?_)
      rcases eq_or_ne d c with rfl | hne'
      · rw [hc, hc']
        simp [hne.symm]
      · rw [hpcs d hne']

/-- A fiber comes to wait, with one token. -/
theorem Tokens.wait {pending' : φ → ℕ} {invoked' : φ → Bool} (h : Tokens pcs invoked pending posts)
    (hc : (pcs c).carries = none) (hf : ¬Waits pcs invoked f)
    (hpc : pc.carries = none ∧ pending' f = pending f + 1 ∨
      pc.carries = some f ∧ pending' f = pending f)
    (hg : ∀ g, g ≠ f → pending' g = pending g)
    (hwaits : Waits (Function.update pcs c pc) invoked' f)
    (hwaits' : ∀ g, g ≠ f → (Waits (Function.update pcs c pc) invoked' g ↔ Waits pcs invoked g)) :
    Tokens (Function.update pcs c pc) invoked' pending' posts := by
  rw [← h.waits f, not_or, not_exists] at hf
  obtain ⟨hsum, hnone⟩ := hf
  have hle := h.le_one f
  refine ⟨fun d e g hd he ↦ ?_, fun d g hd ↦ ?_, fun g ↦ ?_, fun g ↦ ?_⟩
  · have hinj := h.inj d e g
    grind [Function.update_apply]
  · have halone := h.alone d g
    have hg' := hg g
    grind [Function.update_apply]
  · rcases eq_or_ne g f with rfl | hne
    · omega
    · rw [hg g hne]
      exact h.le_one g
  · rcases eq_or_ne g f with rfl | hne
    · refine iff_of_true ?_ hwaits
      rcases hpc with ⟨-, hp⟩ | ⟨hcar, -⟩
      · exact .inl (by omega)
      · exact .inr ⟨c, by rw [Function.update_self, hcar]⟩
    · rw [hwaits' g hne, ← h.waits g, hg g hne]
      refine or_congr_right (exists_congr fun d ↦ ?_)
      grind [Function.update_apply]

end JnetLib.Fiber.Fibers
