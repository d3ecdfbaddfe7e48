import JnetLib.Fiber.Steps
import JnetLib.Fiber.Switches

/-!
# The invariant of the fibers

`accounted_step` is one step of any thread: each branch of `go` and `begin` is one of the steps or
switches, and keeps `Accounted`, which holds at the start (`accounted_start`). `Accounted.sound`
reads off it what is promised of every state. That needs one thing more, `Accounted.stored_cases`: a
fiber in a blocking call has one result at most that was stored but not returned, and the one token
of the fiber says whether it has.
-/

namespace JnetLib.Fiber.Fibers

variable {τ φ ρ : Type} {s s' : Fibers τ φ ρ} {t : τ} {c : Ctx τ φ}

variable [DecidableEq τ] [DecidableEq φ]

/-- **Every step keeps the invariant.** -/
theorem Accounted.go (h : s.Accounted) (ht : s.current t = c) (hst : s.go t c = some s') :
    s'.Accounted := by
  rw [Fibers.go.eq_def] at hst
  split at hst
  case h_1 f r hc =>
    obtain rfl := Option.some.inj hst
    exact h.store hc
  case h_2 f b hc =>
    split at hst
    case h_1 hf =>
      obtain rfl := Option.some.inj hst
      exact h.take hc hf
    case h_2 d hf =>
      obtain rfl := Option.some.inj hst
      cases b with
      | true => exact h.refuse hc
      | false =>
        rw [h.invoker_of_starting hc] at hf
        cases hf
  case h_3 f hc =>
    obtain rfl := Option.some.inj hst
    exact h.enter ht hc
  case h_4 f hc =>
    obtain rfl := Option.some.inj hst
    exact h.look hc
  case h_5 f hc =>
    obtain rfl := Option.some.inj hst
    exact h.release hc
  case h_6 f hc =>
    obtain rfl := Option.some.inj hst
    exact h.free hc
  case h_7 f hc =>
    obtain rfl := Option.some.inj hst
    exact h.repost hc
  case h_8 hc =>
    cases c with
    | base u => cases hst
    | fiber f =>
      obtain rfl := Option.some.inj hst
      exact h.leave ht (.inl ⟨hc, rfl⟩)
  case h_9 hc =>
    cases c with
    | base u => cases hst
    | fiber f =>
      obtain rfl := Option.some.inj hst
      exact h.read hc
  case h_10 hc =>
    cases c with
    | base u => cases hst
    | fiber f =>
      obtain rfl := Option.some.inj hst
      exact h.leave ht (.inr ⟨hc, rfl⟩)
  case h_11 => cases hst

theorem Accounted.begin {act : FiberAct φ ρ} (h : s.Accounted) (hc : s.pcs c = .idle)
    (hst : s.begin c act = some s') : s'.Accounted := by
  rw [Fibers.begin.eq_def] at hst
  split at hst
  case h_1 t f r =>
    split at hst
    case isTrue => cases hst
    case isFalse hf =>
      obtain rfl := Option.some.inj hst
      exact h.complete hc hf
  case h_2 t f =>
    split at hst
    case isTrue => cases hst
    case isFalse hf =>
      obtain rfl := Option.some.inj hst
      exact h.post hc hf
  case h_3 f =>
    split at hst
    case isTrue => cases hst
    case isFalse hf =>
      obtain rfl := Option.some.inj hst
      exact h.invoke hc (by simpa using hf)
  case h_4 f =>
    obtain rfl := Option.some.inj hst
    exact h.call hc
  case h_5 f =>
    obtain rfl := Option.some.inj hst
    exact h.finish hc
  case h_6 => cases hst

theorem accounted_step {e : τ × FiberAct φ ρ} (h : s.Accounted) (hst : s.step e = some s') :
    s'.Accounted := by
  rw [step.eq_def] at hst
  split at hst
  case h_1 t => exact h.go rfl hst
  case h_2 t act _ =>
    split at hst
    case h_1 hc => exact h.begin hc hst
    case h_2 => cases hst

omit [DecidableEq τ] [DecidableEq φ] in
theorem accounted_start (result : φ → ρ) : Accounted (start result : Fibers τ φ ρ) where
  threads := ⟨fun _ _ h ↦ Ctx.base.inj h, fun _ ↦ rfl⟩
  holders := by
    have hnone : ∀ c f, ((start result : Fibers τ φ ρ).pcs c).holds ≠ some f := by
      rintro (t | g) f hf <;> cases hf
    refine ⟨fun c f hc ↦ absurd hc (hnone c f), fun f c hf ↦ (by cases hf),
      fun c f hc ↦ absurd hc (hnone c f), fun f hf ↦ (by cases hf), fun c f hc ↦ ?_⟩
    exact absurd (by rw [hc]; rfl) (hnone c f)
  tokens := by
    have hnone : ∀ c f, ((start result : Fibers τ φ ρ).pcs c).carries ≠ some f := by
      rintro (t | g) f hf <;> cases hf
    refine ⟨fun c d f hc _ ↦ absurd hc (hnone c f), fun c f hc ↦ absurd hc (hnone c f),
      fun f ↦ Nat.zero_le _, fun f ↦ iff_of_false ?_ ?_⟩
    · rintro (hs | ⟨c, hc⟩)
      · cases hs
      · exact hnone c f hc
    · simp [Waits, start]
  knows c := by cases c <;> trivial
  life f := by
    refine ⟨fun _ ↦ rfl, fun h ↦ absurd rfl h, fun h ↦ absurd rfl h, ?_, fun _ ↦ rfl, rfl, ?_,
      Nat.zero_le _, fun h ↦ absurd rfl h, ?_⟩ <;> simp [start]

omit [DecidableEq τ] [DecidableEq φ] in
/-- At most one result is stored that was not returned yet. -/
theorem Accounted.stored_cases (h : s.Accounted) (f : φ) :
    s.stored f = s.returns f ∨ s.stored f = s.returns f ++ [s.result f] := by
  have hl := h.life f
  cases hcall : (s.pcs (.fiber f)).inCall with
  | false => exact .inl (hl.quiet hcall)
  | true =>
    by_cases hread : s.pcs (.fiber f) = .reading
    · exact .inr (hl.reading hread)
    · -- in front of the switch the one token says how far the callback is
      have hin : s.pcs (.fiber f) = .yielding ∨ s.pcs (.fiber f) = .parked := by
        cases hp : s.pcs (.fiber f) <;> rw [hp] at hcall hread <;> simp [Pc.inCall] at hcall hread ⊢
      have hfresh : s.pcs (.fiber f) ≠ .fresh := by
        rcases hin with hp | hp <;> rw [hp] <;> simp
      rcases (h.tokens.waits f).2 (.inr hin) with hsum | ⟨c, hc⟩
      · by_cases hpending : s.pending f = 0
        · exact .inr (hl.posts (by omega)).2
        · exact .inl (hl.pending hpending).2
      · have hk := h.knows c
        cases hp : s.pcs c with
        | storing g r =>
          rw [hp] at hc hk
          obtain rfl := Option.some.inj hc
          exact .inl hk.2
        | switching g b =>
          rw [hp] at hc hk
          obtain rfl := Option.some.inj hc
          cases b with
          | false => exact absurd hk hfresh
          | true => exact .inr hk.2
        | entering g =>
          rw [hp] at hc hk
          obtain rfl := Option.some.inj hc
          exact .inr (hk.resolve_left hfresh)
        | reposting g =>
          rw [hp] at hc hk
          obtain rfl := Option.some.inj hc
          exact .inr hk.2
        | _ =>
          rw [hp] at hc
          cases hc

omit [DecidableEq τ] [DecidableEq φ] in
theorem Accounted.sound (h : s.Accounted) : s.Sound where
  alone := h.threads.inj
  token f hf := by
    have hle := h.tokens.le_one f
    rcases (h.tokens.waits f).2 (.inr hf) with hsum | ⟨c, hc⟩
    · refine .inl ⟨hsum, fun c hc ↦ ?_⟩
      have hzero := h.tokens.alone c f hc
      omega
    · have hzero := h.tokens.alone c f hc
      exact .inr ⟨by omega, c, hc, fun d hd ↦ h.tokens.inj d c f hd hc⟩
  noToken f hf := by
    have hle := h.tokens.le_one f
    obtain ⟨hsum, hnone⟩ := not_or.1 (mt (h.tokens.waits f).1 hf)
    exact ⟨by omega, by omega, fun c hc ↦ hnone ⟨c, hc⟩⟩
  results f := by
    have hcalls := (h.life f).calls
    have hstored := h.stored_cases f
    refine ⟨hstored, ?_, hcalls⟩
    cases hcall : (s.pcs (.fiber f)).inCall with
    | false =>
      rw [(h.life f).quiet hcall, hcalls]
      exact Nat.le_add_right ..
    | true =>
      rw [hcalls, hcall]
      rcases hstored with hs | hs <;> rw [hs] <;> simp
  released := h.holders.holds
  suspended f c := by
    refine ⟨fun hc ↦ ⟨h.holders.holder c f (by rw [hc]; rfl), h.holders.inRun c f hc⟩, ?_⟩
    rintro ⟨hinvoker, hrun⟩
    obtain ⟨d, hd, hswitched⟩ := h.holders.exists_invoker hrun
    exact Option.some.inj (hd.symm.trans hinvoker) ▸ hswitched
  freed f := (h.life f).frees
  ended f hf := by
    have hne : s.frees f ≠ 0 := by omega
    have hgone := (h.life f).freed hne
    have hnot : ¬Waits s.pcs s.invoked f := by simp [Waits, hgone]
    have hle := h.tokens.le_one f
    obtain ⟨hsum, hnone⟩ := not_or.1 (mt (h.tokens.waits f).1 hnot)
    exact ⟨hgone, by omega, by omega, fun c ↦ ⟨fun hc ↦ hnone ⟨c, hc⟩,
      fun hc ↦ hne (h.holders.held c f hc)⟩⟩
  finished f hf := (h.life f).gone hf

end JnetLib.Fiber.Fibers
