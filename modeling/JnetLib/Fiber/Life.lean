import JnetLib.Fiber.Holders
import JnetLib.Fiber.Tokens

/-!
# The life of a fiber

The rest of the invariant, and the whole of it: what a context knows about the fiber it is concerned
with (`Knows`), what holds of a fiber between its beginning and its end (`Life`), and `Accounted`,
which is both with the threads, the holders and the tokens.

Most steps concern one fiber or none. `Knows.frame` and `Life.frame` say what may change without
ending what is known; `Accounted.knows_move` and `Accounted.life_move` apply them to a context that
goes on, and `Accounted.life_other` to the fibers that a step of one fiber does not concern.
-/

namespace JnetLib.Fiber.Fibers

variable {τ φ ρ : Type} {s s' : Fibers τ φ ρ} {c : Ctx τ φ} {f g : φ} {pc : Pc φ ρ}

/-- What a context knows about the fiber it is concerned with. -/
def Knows (s : Fibers τ φ ρ) : Pc φ ρ → Prop
  | .storing f _ => s.pcs (.fiber f) ≠ .fresh ∧ s.stored f = s.returns f
  | .switching f true | .reposting f =>
    s.pcs (.fiber f) ≠ .fresh ∧ s.stored f = s.returns f ++ [s.result f]
  | .switching f false => s.pcs (.fiber f) = .fresh
  | .entering f => s.pcs (.fiber f) = .fresh ∨ s.stored f = s.returns f ++ [s.result f]
  | .returned f => s.pcs (.fiber f) ≠ .fresh
  | .clearing f => s.pcs (.fiber f) ≠ .fresh ∧ s.pcs (.fiber f) ≠ .gone
  | .freeing f => s.pcs (.fiber f) = .gone
  | _ => True

/-- What holds of a fiber. -/
structure Life (s : Fibers τ φ ρ) (f : φ) : Prop where
  uninvoked : s.invoked f = false → s.pcs (.fiber f) = .fresh
  pending : s.pending f ≠ 0 → s.pcs (.fiber f) ≠ .fresh ∧ s.stored f = s.returns f
  posts : s.posts f ≠ 0 →
    s.pcs (.fiber f) ≠ .fresh ∧ s.stored f = s.returns f ++ [s.result f]
  reading : s.pcs (.fiber f) = .reading → s.stored f = s.returns f ++ [s.result f]
  quiet : (s.pcs (.fiber f)).inCall = false → s.stored f = s.returns f
  calls : s.calls f = (s.returns f).length + if (s.pcs (.fiber f)).inCall then 1 else 0
  flag : s.freeFlag f = true ↔ s.pcs (.fiber f) = .exiting ∨ s.pcs (.fiber f) = .gone
  frees : s.frees f ≤ 1
  freed : s.frees f ≠ 0 → s.pcs (.fiber f) = .gone
  gone : s.pcs (.fiber f) = .gone →
    s.frees f = 1 ∨ ∃ c, s.pcs c = .returned f ∨ s.pcs c = .freeing f

/-- **The invariant.** -/
structure Accounted (s : Fibers τ φ ρ) : Prop where
  threads : Threads s.current s.pcs
  holders : Holders s.pcs s.invoker s.frees
  tokens : Tokens s.pcs s.invoked s.pending s.posts
  knows : ∀ c, s.Knows (s.pcs c)
  life : ∀ f, s.Life f

/-- What a context knows does not change with what it knows nothing of. -/
theorem Knows.frame (h : s.Knows pc)
    (hcarries : ∀ f, pc.carries = some f →
      (s'.pcs (.fiber f) = .fresh ↔ s.pcs (.fiber f) = .fresh) ∧ s'.stored f = s.stored f ∧
        s'.returns f = s.returns f ∧ s'.result f = s.result f)
    (hholds : ∀ f, pc.holds = some f → pc ≠ .switched f →
      (s'.pcs (.fiber f) = .fresh ↔ s.pcs (.fiber f) = .fresh) ∧
        (s'.pcs (.fiber f) = .gone ↔ s.pcs (.fiber f) = .gone)) : s'.Knows pc := by
  cases pc with
  | storing f r | reposting f =>
    obtain ⟨h1, h2, h3, h4⟩ := hcarries f rfl
    simpa only [Knows, ne_eq, h1, h2, h3, h4] using h
  | switching f b =>
    obtain ⟨h1, h2, h3, h4⟩ := hcarries f rfl
    cases b <;> simpa only [Knows, ne_eq, h1, h2, h3, h4] using h
  | entering f =>
    obtain ⟨h1, h2, h3, h4⟩ := hcarries f rfl
    simpa only [Knows, h1, h2, h3, h4] using h
  | returned f | clearing f | freeing f =>
    obtain ⟨h1, h2⟩ := hholds f rfl (by simp)
    simpa only [Knows, ne_eq, h1, h2] using h
  | _ => trivial

/-- The life of a fiber that no step concerns. -/
theorem Life.frame (h : s.Life f)
    (hpc : s'.pcs (.fiber f) = s.pcs (.fiber f) ∨
      (s'.pcs (.fiber f)).plain = true ∧ (s.pcs (.fiber f)).plain = true)
    (hinvoked : s'.invoked f = false → s.invoked f = false)
    (hpending : s'.pending f ≠ 0 → s.pending f ≠ 0) (hposts : s'.posts f ≠ 0 → s.posts f ≠ 0)
    (hresults : s'.stored f = s.stored f ∧ s'.returns f = s.returns f ∧ s'.result f = s.result f ∧
      s'.calls f = s.calls f)
    (hends : s'.freeFlag f = s.freeFlag f ∧ s'.frees f = s.frees f)
    (hgone : ∀ c, s.pcs (.fiber f) = .gone → s.pcs c = .returned f ∨ s.pcs c = .freeing f →
      ∃ d, s'.pcs d = .returned f ∨ s'.pcs d = .freeing f) : s'.Life f := by
  obtain ⟨h1, h2, h3, h4⟩ := hresults
  obtain ⟨h5, h6⟩ := hends
  obtain ⟨k1, k2, k3, k4, k5⟩ := Pc.kind_of_plain hpc
  refine ⟨?_, ?_, ?_, ?_, ?_, ?_, ?_, ?_, ?_, ?_⟩
  · rw [k1]
    exact fun hi ↦ h.uninvoked (hinvoked hi)
  · rw [ne_eq (s'.pcs _), k1, h1, h2]
    exact fun hp ↦ h.pending (hpending hp)
  · rw [ne_eq (s'.pcs _), k1, h1, h2, h3]
    exact fun hp ↦ h.posts (hposts hp)
  · rw [k4, h1, h2, h3]
    exact h.reading
  · rw [k5, h1, h2]
    exact h.quiet
  · rw [k5, h4, h2]
    exact h.calls
  · rw [h5, k3, k2]
    exact h.flag
  · rw [h6]
    exact h.frees
  · rw [h6, k2]
    exact h.freed
  · rw [h6, k2]
    exact fun hg ↦ (h.gone hg).imp_right fun ⟨c, hc⟩ ↦ hgone c hg hc

variable [DecidableEq τ] [DecidableEq φ]

/-- A context that is executed goes on: what the contexts know. -/
theorem Accounted.knows_move (h : s.Accounted) (hpcs : s'.pcs = Function.update s.pcs c pc)
    (hc : (s.pcs c).active = true) (hpc : pc.active = true)
    (hresults : s'.stored = s.stored ∧ s'.returns = s.returns ∧ s'.result = s.result)
    (hnew : s.Knows pc) (d : Ctx τ φ) : s'.Knows (s'.pcs d) := by
  have hkind : ∀ f, (s'.pcs (.fiber f) = .fresh ↔ s.pcs (.fiber f) = .fresh) ∧
      (s'.pcs (.fiber f) = .gone ↔ s.pcs (.fiber f) = .gone) := by
    intro f
    rw [hpcs]
    rcases eq_or_ne (.fiber f) c with rfl | hne
    · rw [Function.update_self]
      grind [Pc.active]
    · rw [Function.update_of_ne hne]
      exact ⟨Iff.rfl, Iff.rfl⟩
  obtain ⟨h1, h2, h3⟩ := hresults
  have hframe : ∀ p, s.Knows p → s'.Knows p := fun p hp ↦
    hp.frame (fun f _ ↦ ⟨(hkind f).1, by rw [h1], by rw [h2], by rw [h3]⟩) fun f _ _ ↦ hkind f
  refine hframe _ ?_
  rw [hpcs]
  rcases eq_or_ne d c with rfl | hne
  · rw [Function.update_self]
    exact hnew
  · rw [Function.update_of_ne hne]
    exact h.knows d

/-- A context goes on from where it is plain to where it is plain: the lives of the fibers. -/
theorem Accounted.life_move (h : s.Accounted) (hpcs : s'.pcs = Function.update s.pcs c pc)
    (hc : (s.pcs c).plain = true) (hpc : pc.plain = true)
    (hinvoked : s'.invoked f = false → s.invoked f = false)
    (hpending : s'.pending f ≠ 0 → s.pending f ≠ 0) (hposts : s'.posts f ≠ 0 → s.posts f ≠ 0)
    (hresults : s'.stored f = s.stored f ∧ s'.returns f = s.returns f ∧ s'.result f = s.result f ∧
      s'.calls f = s.calls f)
    (hends : s'.freeFlag f = s.freeFlag f ∧ s'.frees f = s.frees f)
    (hgone : s.pcs (.fiber f) = .gone → s.pcs c = .returned f ∨ s.pcs c = .freeing f →
      pc = .returned f ∨ pc = .freeing f) : s'.Life f := by
  refine (h.life f).frame ?_ hinvoked hpending hposts hresults hends fun d hg hd ↦ ?_
  · rw [hpcs]
    rcases eq_or_ne (.fiber f) c with rfl | hne
    · rw [Function.update_self]
      exact .inr ⟨hpc, hc⟩
    · exact .inl (Function.update_of_ne hne ..)
  · rw [hpcs]
    rcases eq_or_ne d c with rfl | hne
    · exact ⟨d, by rw [Function.update_self]; exact hgone hg hd⟩
    · exact ⟨d, by rw [Function.update_of_ne hne]; exact hd⟩

/-- A fiber goes on by itself: the lives of the others. -/
theorem Accounted.life_other (h : s.Accounted) (hpcs : s'.pcs = Function.update s.pcs (.fiber f) pc)
    (hf : (s.pcs (.fiber f)).holds = none) (hg : g ≠ f) (hinvoked : s'.invoked g = s.invoked g)
    (hpending : s'.pending g = s.pending g) (hposts : s'.posts g = s.posts g)
    (hresults : s'.stored g = s.stored g ∧ s'.returns g = s.returns g ∧ s'.result g = s.result g ∧
      s'.calls g = s.calls g)
    (hends : s'.freeFlag g = s.freeFlag g ∧ s'.frees g = s.frees g) : s'.Life g := by
  have hne : Ctx.fiber g ≠ (Ctx.fiber f : Ctx τ φ) := fun hb ↦ hg (Ctx.fiber.inj hb)
  refine (h.life g).frame (.inl (by rw [hpcs, Function.update_of_ne hne]))
    (by rw [hinvoked]; exact id) (by rw [hpending]; exact id) (by rw [hposts]; exact id) hresults
    hends fun d _ hd ↦ ⟨d, ?_⟩
  have hdf : d ≠ .fiber f := by
    rintro rfl
    rcases hd with hd | hd <;> rw [hd] at hf <;> cases hf
  rwa [hpcs, Function.update_of_ne hdf]

end JnetLib.Fiber.Fibers
