import JnetLib.Fiber.Life

/-!
# Steps within a context

Each step that does not switch contexts keeps the invariant `Accounted`: what the service loop
(`complete`, `post`), a thread (`invoke`) or a routine (`call`, `finish`) begins, and what a
callback and `zwitch` do on either side of the switch (`store`, `take`, `refuse`, `repost`, `look`,
`release`, `free`), up to the return of a blocking call (`read`).

The token of the fiber is what these rest on: a context that has it is the only one on the way to
the fiber, so that nobody else stores a result or switches meanwhile.
-/

namespace JnetLib.Fiber.Fibers

variable {τ φ ρ : Type} {s : Fibers τ φ ρ} {c : Ctx τ φ} {f : φ}

variable [DecidableEq τ] [DecidableEq φ]

/-- The service loop takes a completion. -/
theorem Accounted.complete {r : ρ} (h : s.Accounted) (hc : s.pcs c = .idle) (hf : s.pending f ≠ 0) :
    Accounted { s.goto c (.storing f r) with
      pending := Function.update s.pending f (s.pending f - 1) } where
  threads := h.threads.update rfl
  holders := h.holders.update (by rw [hc]; rfl) (by rw [hc]; rfl) rfl
  tokens := by
    have hle := h.tokens.le_one f
    refine h.tokens.take (by rw [hc]; rfl) rfl (by omega) ?_ (fun g hg ↦ ?_) fun g ↦
      waits_update (by rw [hc]; rfl) rfl (by rw [hc]; simp) (by simp)
    · show Function.update s.pending f _ f + s.posts f = 0
      rw [Function.update_self]
      omega
    · exact ⟨Function.update_of_ne hg .., rfl⟩
  knows := h.knows_move rfl (by rw [hc]; rfl) rfl ⟨rfl, rfl, rfl⟩ ((h.life f).pending hf)
  life g := by
    refine h.life_move rfl (by rw [hc]; rfl) rfl id (fun hg ↦ ?_) id ⟨rfl, rfl, rfl, rfl⟩ ⟨rfl, rfl⟩
      (by rw [hc]; simp)
    rcases eq_or_ne g f with rfl | hne
    · exact hf
    · simpa [hne] using hg

/-- The service loop takes a posted callback. -/
theorem Accounted.post (h : s.Accounted) (hc : s.pcs c = .idle) (hf : s.posts f ≠ 0) :
    Accounted { s.goto c (.switching f true) with
      posts := Function.update s.posts f (s.posts f - 1) } where
  threads := h.threads.update rfl
  holders := h.holders.update (by rw [hc]; rfl) (by rw [hc]; rfl) rfl
  tokens := by
    have hle := h.tokens.le_one f
    refine h.tokens.take (by rw [hc]; rfl) rfl (by omega) ?_ (fun g hg ↦ ?_) fun g ↦
      waits_update (by rw [hc]; rfl) rfl (by rw [hc]; simp) (by simp)
    · show s.pending f + Function.update s.posts f _ f = 0
      rw [Function.update_self]
      omega
    · exact ⟨rfl, Function.update_of_ne hg ..⟩
  knows := h.knows_move rfl (by rw [hc]; rfl) rfl ⟨rfl, rfl, rfl⟩ ((h.life f).posts hf)
  life g := by
    refine h.life_move rfl (by rw [hc]; rfl) rfl id id (fun hg ↦ ?_) ⟨rfl, rfl, rfl, rfl⟩ ⟨rfl, rfl⟩
      (by rw [hc]; simp)
    rcases eq_or_ne g f with rfl | hne
    · exact hf
    · simpa [hne] using hg

/-- A fiber is invoked. -/
theorem Accounted.invoke (h : s.Accounted) (hc : s.pcs c = .idle) (hf : s.invoked f = false) :
    Accounted { s.goto c (.switching f false) with
      invoked := Function.update s.invoked f true } where
  threads := h.threads.update rfl
  holders := h.holders.update (by rw [hc]; rfl) (by rw [hc]; rfl) rfl
  tokens := by
    have hfresh := (h.life f).uninvoked hf
    have hfc : Ctx.fiber f ≠ c := by
      rintro rfl
      rw [hc] at hfresh
      cases hfresh
    refine h.tokens.wait (by rw [hc]; rfl) ?_ (.inr ⟨rfl, rfl⟩) (fun g _ ↦ rfl) ?_ fun g hg ↦ ?_
    · simp [Waits, hfresh, hf]
    · exact .inl ⟨by rw [Function.update_of_ne hfc, hfresh], Function.update_self ..⟩
    · show Waits _ (Function.update s.invoked f true) g ↔ _
      rw [Waits, Function.update_of_ne hg]
      exact waits_update (by rw [hc]; rfl) rfl (by rw [hc]; simp) (by simp)
  knows := h.knows_move rfl (by rw [hc]; rfl) rfl ⟨rfl, rfl, rfl⟩ ((h.life f).uninvoked hf)
  life g := by
    refine h.life_move rfl (by rw [hc]; rfl) rfl (fun hg ↦ ?_) id id ⟨rfl, rfl, rfl, rfl⟩ ⟨rfl, rfl⟩
      (by rw [hc]; simp)
    rcases eq_or_ne g f with rfl | hne
    · exact hf
    · simpa [hne] using hg

/-- The compare-and-swap of `zwitch` finds `invoker_` null. -/
theorem Accounted.take {b : Bool} (h : s.Accounted) (hc : s.pcs c = .switching f b)
    (hf : s.invoker f = none) :
    Accounted { s.goto c (.entering f) with invoker := Function.update s.invoker f (some c) } where
  threads := h.threads.update rfl
  holders := by
    refine h.holders.take hc hf ?_
    by_contra hz
    have hgone := (h.life f).freed hz
    have hwaits := (h.tokens.waits f).1 (.inr ⟨c, by rw [hc]; rfl⟩)
    simp [Waits, hgone] at hwaits
  tokens := h.tokens.update (by rw [hc]; rfl) fun g ↦
    waits_update (by rw [hc]; rfl) rfl (by rw [hc]; simp) (by simp)
  knows := by
    refine h.knows_move rfl (by rw [hc]; rfl) rfl ⟨rfl, rfl, rfl⟩ ?_
    have hk := h.knows c
    rw [hc] at hk
    cases b with
    | false => exact .inl hk
    | true => exact .inr hk.2
  life g := h.life_move rfl (by rw [hc]; rfl) rfl id id id ⟨rfl, rfl, rfl, rfl⟩ ⟨rfl, rfl⟩
    (by rw [hc]; simp)

omit [DecidableEq τ] [DecidableEq φ] in
/-- A fiber that has not begun is found free: nobody else was to switch to it. -/
theorem Accounted.invoker_of_starting (h : s.Accounted) (hc : s.pcs c = .switching f false) :
    s.invoker f = none := by
  have hfresh : s.pcs (.fiber f) = .fresh := by
    have hk := h.knows c
    rwa [hc] at hk
  by_contra hne
  obtain ⟨d, hd⟩ := Option.ne_none_iff_exists'.1 hne
  have hfree : s.frees f = 0 := by
    by_contra hz
    have hg := (h.life f).freed hz
    rw [hfresh] at hg
    cases hg
  have hholds := h.holders.holds f d hd hfree
  have hk := h.knows d
  cases hp : s.pcs d <;> rw [hp] at hholds hk <;> cases hholds
  case entering =>
    have hdc := h.tokens.inj d c f (by rw [hp]; rfl) (by rw [hc]; rfl)
    rw [hdc, hc] at hp
    cases hp
  case switched =>
    have hrun := h.holders.inRun d f hp
    rw [hfresh] at hrun
    cases hrun
  case returned => exact hk hfresh
  case clearing => exact hk.1 hfresh
  case freeing =>
    rw [Knows, hfresh] at hk
    cases hk

/-- The compare-and-swap of `zwitch` finds the fiber invoked. -/
theorem Accounted.refuse (h : s.Accounted) (hc : s.pcs c = .switching f true) :
    Accounted (s.goto c (.reposting f)) where
  threads := h.threads.update rfl
  holders := h.holders.update (by rw [hc]; rfl) (by rw [hc]; rfl) rfl
  tokens := h.tokens.update (by rw [hc]; rfl) fun g ↦
    waits_update (by rw [hc]; rfl) rfl (by rw [hc]; simp) (by simp)
  knows := by
    refine h.knows_move rfl (by rw [hc]; rfl) rfl ⟨rfl, rfl, rfl⟩ ?_
    have hk := h.knows c
    rwa [hc] at hk
  life g := h.life_move rfl (by rw [hc]; rfl) rfl id id id ⟨rfl, rfl, rfl, rfl⟩ ⟨rfl, rfl⟩
    (by rw [hc]; simp)

/-- A blocking call. -/
theorem Accounted.call (h : s.Accounted) (hc : s.pcs (.fiber f) = .idle) :
    Accounted { s.goto (.fiber f) .yielding with
      pending := Function.update s.pending f (s.pending f + 1)
      calls := Function.update s.calls f (s.calls f + 1) } where
  threads := h.threads.update rfl
  holders := h.holders.update (by rw [hc]; rfl) (by rw [hc]; rfl) rfl
  tokens := by
    refine h.tokens.wait (by rw [hc]; rfl) (by simp [Waits, hc])
      (.inl ⟨rfl, Function.update_self ..⟩) (fun g hg ↦ Function.update_of_ne hg ..)
      (.inr (.inl (Function.update_self ..))) fun g hg ↦ ?_
    simp [Waits, hg, goto]
  knows := h.knows_move rfl (by rw [hc]; rfl) rfl ⟨rfl, rfl, rfl⟩ trivial
  life g := by
    rcases eq_or_ne g f with rfl | hg
    · have hl := h.life g
      have hcalls := hl.calls
      have hquiet := hl.quiet (by rw [hc]; rfl)
      have hsum : ¬(s.pending g + s.posts g = 1 ∨ ∃ d, (s.pcs d).carries = some g) := by
        rw [h.tokens.waits]
        simp [Waits, hc]
      have hle := h.tokens.le_one g
      have hflag := hl.flag
      have hfreed := hl.freed
      rw [hc] at hcalls hflag hfreed
      refine ⟨fun hi ↦ ?_, fun _ ↦ ⟨by simp [goto], hquiet⟩, fun hp ↦ absurd ?_ hp, by simp [goto],
        by simp [goto, Pc.inCall], ?_, by simpa [goto] using hflag, hl.frees,
        fun hf ↦ by simpa using hfreed hf, by simp [goto]⟩
      · have hfresh := hl.uninvoked hi
        rw [hc] at hfresh
        cases hfresh
      · show s.posts g = 0
        omega
      · show Function.update s.calls g _ g = _
        simpa [goto, Pc.inCall] using hcalls
    · exact h.life_other rfl (by rw [hc]; rfl) hg rfl (Function.update_of_ne hg ..) rfl
        ⟨rfl, rfl, rfl, Function.update_of_ne hg ..⟩ ⟨rfl, rfl⟩

/-- The routine of a fiber returns. -/
theorem Accounted.finish (h : s.Accounted) (hc : s.pcs (.fiber f) = .idle) :
    Accounted { s.goto (.fiber f) .exiting with
      freeFlag := Function.update s.freeFlag f true } where
  threads := h.threads.update rfl
  holders := h.holders.update (by rw [hc]; rfl) (by rw [hc]; rfl) rfl
  tokens := h.tokens.update (by rw [hc]; rfl) fun g ↦
    waits_update (by rw [hc]; rfl) rfl (by rw [hc]; simp) (by simp)
  knows := h.knows_move rfl (by rw [hc]; rfl) rfl ⟨rfl, rfl, rfl⟩ trivial
  life g := by
    rcases eq_or_ne g f with rfl | hg
    · have hl := h.life g
      have hcalls := hl.calls
      have hquiet := hl.quiet (by rw [hc]; rfl)
      have hpending := hl.pending
      have hposts := hl.posts
      have hfreed := hl.freed
      rw [hc] at hcalls hpending hposts hfreed
      refine ⟨fun hi ↦ ?_, fun hp ↦ ⟨by simp [goto], hquiet⟩, fun hp ↦ ⟨by simp [goto], ?_⟩,
        by simp [goto], fun _ ↦ hquiet, by simpa [goto, Pc.inCall] using hcalls, by simp [goto],
        hl.frees, fun hf ↦ by simpa using hfreed hf, by simp [goto]⟩
      · have hfresh := hl.uninvoked hi
        rw [hc] at hfresh
        cases hfresh
      · exact (hposts hp).2
    · exact h.life_other rfl (by rw [hc]; rfl) hg rfl rfl rfl ⟨rfl, rfl, rfl, rfl⟩
        ⟨Function.update_of_ne hg .., rfl⟩

/-- A callback stores the result. -/
theorem Accounted.store {r : ρ} (h : s.Accounted) (hc : s.pcs c = .storing f r) :
    Accounted { s.goto c (.switching f true) with
      result := Function.update s.result f r
      stored := Function.update s.stored f (s.stored f ++ [r]) } := by
  obtain ⟨hfresh, hstored⟩ : s.pcs (.fiber f) ≠ .fresh ∧ s.stored f = s.returns f := by
    have hk := h.knows c
    rwa [hc] at hk
  have hcarries : (s.pcs c).carries = some f := by rw [hc]; rfl
  obtain ⟨hpending, hposts⟩ := h.tokens.alone c f hcarries
  -- the callback holds the only token of `f`, so `f` waits in its call
  have hcall : s.pcs (.fiber f) = .yielding ∨ s.pcs (.fiber f) = .parked :=
    ((h.tokens.waits f).1 (.inr ⟨c, hcarries⟩)).resolve_left fun hb ↦ hfresh hb.1
  have hfc : Ctx.fiber f ≠ c := by
    rintro rfl
    rw [hc] at hcall
    simp at hcall
  have hkind : ∀ g, (Function.update s.pcs c (.switching f true) (.fiber g) = .fresh ↔
      s.pcs (.fiber g) = .fresh) ∧ (Function.update s.pcs c (.switching f true) (.fiber g) = .gone ↔
      s.pcs (.fiber g) = .gone) := by
    intro g
    rcases eq_or_ne (.fiber g) c with hb | hne
    · rw [hb, hc]
      simp
    · rw [Function.update_of_ne hne]
      exact ⟨Iff.rfl, Iff.rfl⟩
  refine ⟨h.threads.update rfl, h.holders.update (by rw [hc]; rfl) (by rw [hc]; rfl) rfl,
    h.tokens.update (by rw [hc]; rfl) fun g ↦
      waits_update (by rw [hc]; rfl) rfl (by rw [hc]; simp) (by simp), fun d ↦ ?_, fun g ↦ ?_⟩
  · show Knows _ (Function.update s.pcs c (.switching f true) d)
    rcases eq_or_ne d c with rfl | hne
    · rw [Function.update_self]
      refine ⟨(hkind f).1.not.2 hfresh, ?_⟩
      show Function.update s.stored f _ f = s.returns f ++ [Function.update s.result f r f]
      rw [Function.update_self, Function.update_self, hstored]
    · rw [Function.update_of_ne hne]
      refine (h.knows d).frame (fun g hd ↦ ⟨(hkind g).1, ?_, rfl, ?_⟩) fun g _ _ ↦ hkind g
      all_goals
        have hgf : g ≠ f := by
          rintro rfl
          exact hne (h.tokens.inj d c g hd hcarries)
        exact Function.update_of_ne hgf ..
  · -- the fiber itself has not moved: what it knows changes by the result alone
    rcases eq_or_ne g f with rfl | hg
    · have hl := h.life g
      have hcalls := hl.calls
      have hflag := hl.flag
      have hfreed := hl.freed
      have hpc : Function.update s.pcs c (.switching g true) (.fiber g) = s.pcs (.fiber g) :=
        Function.update_of_ne hfc ..
      have hinv : s.invoked g ≠ false := fun hi ↦ hfresh (hl.uninvoked hi)
      refine ⟨fun hi ↦ absurd hi hinv, fun hp ↦ absurd hpending hp, fun hp ↦ absurd hposts hp,
        fun hp ↦ ?_, fun hp ↦ ?_, ?_, ?_, hl.frees, fun hp ↦ hpc.trans (hfreed hp), fun hp ↦ ?_⟩
      · have hp' : s.pcs (.fiber g) = .reading := hpc.symm.trans hp
        rw [hp'] at hcall
        simp at hcall
      · have hp' : (s.pcs (.fiber g)).inCall = false := by
          rw [← hpc]
          exact hp
        rcases hcall with hp | hp <;> rw [hp] at hp' <;> cases hp'
      · show _ = _ + if (Function.update s.pcs c _ (.fiber g)).inCall then 1 else 0
        rw [hpc]
        exact hcalls
      · show _ ↔ Function.update s.pcs c _ (.fiber g) = _ ∨ Function.update s.pcs c _ (.fiber g) = _
        rw [hpc]
        exact hflag
      · have hp' : s.pcs (.fiber g) = .gone := hpc.symm.trans hp
        rw [hp'] at hcall
        simp at hcall
    · exact h.life_move rfl (by rw [hc]; rfl) rfl id id id
        ⟨Function.update_of_ne hg .., rfl, Function.update_of_ne hg .., rfl⟩ ⟨rfl, rfl⟩
        (by rw [hc]; simp)

/-- `zwitch` looks at `free_flag_`. The fiber is suspended, so the flag says whether it is at its
end. -/
theorem Accounted.look (h : s.Accounted) (hc : s.pcs c = .returned f) :
    Accounted (s.goto c (if s.freeFlag f then .freeing f else .clearing f)) := by
  have hsusp := h.holders.suspended (f := f) (by rw [hc]; rfl) (by rw [hc]; simp)
  have hfresh : s.pcs (.fiber f) ≠ .fresh := by
    have hk := h.knows c
    rwa [hc] at hk
  have hflag := (h.life f).flag
  split
  case isTrue hf =>
    -- the flag is set a step before the fiber is gone, but then the fiber still runs
    have hgone : s.pcs (.fiber f) = .gone := by
      refine (hflag.1 hf).resolve_left fun he ↦ ?_
      rw [he] at hsusp
      cases hsusp
    exact ⟨h.threads.update rfl, h.holders.update (by rw [hc]; rfl) (by rw [hc]; rfl) rfl,
      h.tokens.update (by rw [hc]; rfl) fun g ↦
        waits_update (by rw [hc]; rfl) rfl (by rw [hc]; simp) (by simp),
      h.knows_move rfl (by rw [hc]; rfl) rfl ⟨rfl, rfl, rfl⟩ hgone,
      fun g ↦ h.life_move rfl (by rw [hc]; rfl) rfl id id id ⟨rfl, rfl, rfl, rfl⟩ ⟨rfl, rfl⟩
        (by rw [hc]; simp)⟩
  case isFalse hf =>
    have hgone : s.pcs (.fiber f) ≠ .gone := fun hg ↦ hf (hflag.2 (.inr hg))
    refine ⟨h.threads.update rfl, h.holders.update (by rw [hc]; rfl) (by rw [hc]; rfl) rfl,
      h.tokens.update (by rw [hc]; rfl) fun g ↦
        waits_update (by rw [hc]; rfl) rfl (by rw [hc]; simp) (by simp),
      h.knows_move rfl (by rw [hc]; rfl) rfl ⟨rfl, rfl, rfl⟩ ⟨hfresh, hgone⟩,
      fun g ↦ h.life_move rfl (by rw [hc]; rfl) rfl id id id ⟨rfl, rfl, rfl, rfl⟩ ⟨rfl, rfl⟩
        fun hg hd ↦ ?_⟩
    rw [hc] at hd
    rcases hd with hd | hd
    · obtain rfl := Pc.returned.inj hd
      exact absurd hg hgone
    · cases hd

/-- `zwitch` releases the fiber. -/
theorem Accounted.release (h : s.Accounted) (hc : s.pcs c = .clearing f) :
    Accounted { s.goto c .idle with invoker := Function.update s.invoker f none } where
  threads := h.threads.update rfl
  holders := h.holders.release hc
  tokens := h.tokens.update (by rw [hc]; rfl) fun g ↦
    waits_update (by rw [hc]; rfl) rfl (by rw [hc]; simp) (by simp)
  knows := h.knows_move rfl (by rw [hc]; rfl) rfl ⟨rfl, rfl, rfl⟩ trivial
  life g := h.life_move rfl (by rw [hc]; rfl) rfl id id id ⟨rfl, rfl, rfl, rfl⟩ ⟨rfl, rfl⟩
    (by rw [hc]; simp)

/-- A callback posts itself again. -/
theorem Accounted.repost (h : s.Accounted) (hc : s.pcs c = .reposting f) :
    Accounted { s.goto c .idle with posts := Function.update s.posts f (s.posts f + 1) } := by
  obtain ⟨hfresh, hstored⟩ : s.pcs (.fiber f) ≠ .fresh ∧
      s.stored f = s.returns f ++ [s.result f] := by
    have hk := h.knows c
    rwa [hc] at hk
  have hcarries : (s.pcs c).carries = some f := by rw [hc]; rfl
  obtain ⟨hpending, hposts⟩ := h.tokens.alone c f hcarries
  have hwaits : ∀ g, Waits (Function.update s.pcs c .idle) s.invoked g ↔ Waits s.pcs s.invoked g :=
    fun g ↦ waits_update (by rw [hc]; rfl) rfl (by rw [hc]; simp) (by simp)
  have htokens : Tokens (Function.update s.pcs c .idle) s.invoked s.pending
      (Function.update s.posts f (s.posts f + 1)) := by
    refine h.tokens.put hcarries (by rw [Function.update_self]; rfl)
      (fun d hd ↦ by rw [Function.update_of_ne hd]) ?_ ?_
      fun g hg ↦ ⟨rfl, Function.update_of_ne hg .., hwaits g⟩
    · rw [Function.update_self]
      omega
    · refine iff_of_true ((hwaits f).2 ((h.tokens.waits f).1 (.inr ⟨c, hcarries⟩))) ?_
      rw [Function.update_self]
      omega
  refine ⟨h.threads.update rfl, h.holders.update (by rw [hc]; rfl) (by rw [hc]; rfl) rfl, htokens,
    h.knows_move rfl (by rw [hc]; rfl) rfl ⟨rfl, rfl, rfl⟩ trivial, fun g ↦ ?_⟩
  have hl : (s.goto c .idle).Life g := h.life_move rfl (by rw [hc]; rfl) rfl id id id
    ⟨rfl, rfl, rfl, rfl⟩ ⟨rfl, rfl⟩ (by rw [hc]; simp)
  refine { hl with posts := fun hp ↦ ?_ }
  rcases eq_or_ne g f with rfl | hg
  · refine ⟨?_, hstored⟩
    show Function.update s.pcs c .idle (.fiber g) ≠ .fresh
    grind [Function.update_apply]
  · have hp' : s.posts g ≠ 0 := by
      have heq := Function.update_of_ne hg (s.posts f + 1) s.posts
      rwa [← heq]
    exact hl.posts hp'

/-- `zwitch` frees the fiber. -/
theorem Accounted.free (h : s.Accounted) (hc : s.pcs c = .freeing f) :
    Accounted { s.goto c .idle with frees := Function.update s.frees f (s.frees f + 1) } := by
  have hgone : s.pcs (.fiber f) = .gone := by
    have hk := h.knows c
    rwa [hc] at hk
  have hfree := h.holders.held c f (by rw [hc]; rfl)
  have hfc : Ctx.fiber f ≠ c := by
    rintro rfl
    rw [hc] at hgone
    cases hgone
  refine ⟨h.threads.update rfl, h.holders.free hc, h.tokens.update (by rw [hc]; rfl) fun g ↦
    waits_update (by rw [hc]; rfl) rfl (by rw [hc]; simp) (by simp),
    h.knows_move rfl (by rw [hc]; rfl) rfl ⟨rfl, rfl, rfl⟩ trivial, fun g ↦ ?_⟩
  rcases eq_or_ne g f with rfl | hg
  · have hl := h.life g
    have hpc : Function.update s.pcs c .idle (.fiber g) = s.pcs (.fiber g) :=
      Function.update_of_ne hfc ..
    have hone : Function.update s.frees g (s.frees g + 1) g = 1 := by
      rw [Function.update_self, hfree]
    refine ⟨fun hi ↦ hpc.trans (hl.uninvoked hi), fun hp ↦ ?_, fun hp ↦ ?_, fun hp ↦ ?_, fun _ ↦ ?_,
      ?_, ?_, Nat.le_of_eq hone, fun _ ↦ hpc.trans hgone, fun _ ↦ .inl hone⟩
    · obtain ⟨h1, h2⟩ := hl.pending hp
      exact ⟨fun hb ↦ h1 (hpc.symm.trans hb), h2⟩
    · obtain ⟨h1, h2⟩ := hl.posts hp
      exact ⟨fun hb ↦ h1 (hpc.symm.trans hb), h2⟩
    · exact hl.reading (hpc.symm.trans hp)
    · exact hl.quiet (by rw [hgone]; rfl)
    · show _ = _ + if (Function.update s.pcs c _ (.fiber g)).inCall then 1 else 0
      rw [hpc]
      exact hl.calls
    · show _ ↔ Function.update s.pcs c _ (.fiber g) = _ ∨ Function.update s.pcs c _ (.fiber g) = _
      rw [hpc]
      exact hl.flag
  · refine h.life_move rfl (by rw [hc]; rfl) rfl id id id ⟨rfl, rfl, rfl, rfl⟩
      ⟨rfl, Function.update_of_ne hg ..⟩ fun _ hd ↦ ?_
    rw [hc] at hd
    rcases hd with hd | hd
    · cases hd
    · exact absurd (Pc.freeing.inj hd).symm hg

/-- A blocking call returns the result. -/
theorem Accounted.read (h : s.Accounted) (hc : s.pcs (.fiber f) = .reading) :
    Accounted { s.goto (.fiber f) .idle with
      returns := Function.update s.returns f (s.returns f ++ [s.result f]) } := by
  have hl := h.life f
  have hstored := hl.reading hc
  -- a fiber that reads its result waits for nothing, so it has no token
  have hsum : ¬(s.pending f + s.posts f = 1 ∨ ∃ d, (s.pcs d).carries = some f) := by
    rw [h.tokens.waits]
    simp [Waits, hc]
  obtain ⟨hsum, hnone⟩ := not_or.1 hsum
  have hle := h.tokens.le_one f
  have hkind : ∀ g, (Function.update s.pcs (.fiber f) .idle (.fiber g) = .fresh ↔
      s.pcs (.fiber g) = .fresh) ∧ (Function.update s.pcs (.fiber f) .idle (.fiber g) = .gone ↔
      s.pcs (.fiber g) = .gone) := by
    intro g
    rcases eq_or_ne g f with rfl | hg
    · simp [hc]
    · simp [hg]
  refine ⟨h.threads.update rfl, h.holders.update (by rw [hc]; rfl) (by rw [hc]; rfl) rfl,
    h.tokens.update (by rw [hc]; rfl) fun g ↦
      waits_update (by rw [hc]; rfl) rfl (by rw [hc]; simp) (by simp), fun d ↦ ?_, fun g ↦ ?_⟩
  · show Knows _ (Function.update s.pcs (.fiber f) .idle d)
    rcases eq_or_ne d (.fiber f) with rfl | hne
    · rw [Function.update_self]
      trivial
    · rw [Function.update_of_ne hne]
      refine (h.knows d).frame (fun g hd ↦ ⟨(hkind g).1, rfl, ?_, rfl⟩) fun g _ _ ↦ hkind g
      have hgf : g ≠ f := by
        rintro rfl
        exact hnone ⟨d, hd⟩
      exact Function.update_of_ne hgf ..
  · rcases eq_or_ne g f with rfl | hg
    · have hcalls := hl.calls
      have hflag := hl.flag
      have hfreed := hl.freed
      rw [hc] at hcalls hflag hfreed
      refine ⟨fun hi ↦ ?_, fun hp ↦ absurd ?_ hp, fun hp ↦ absurd ?_ hp, by simp [goto],
        fun _ ↦ ?_, ?_, by simpa [goto] using hflag, hl.frees, fun hf ↦ by simpa using hfreed hf,
        by simp [goto]⟩
      · have hfresh := hl.uninvoked hi
        rw [hc] at hfresh
        cases hfresh
      · show s.pending g = 0
        omega
      · show s.posts g = 0
        omega
      · show s.stored g = Function.update s.returns g _ g
        rw [Function.update_self, hstored]
      · show s.calls g = (Function.update s.returns g _ g).length + _
        rw [Function.update_self, List.length_append, hcalls]
        simp [goto, Pc.inCall]
    · exact h.life_other rfl (by rw [hc]; rfl) hg rfl rfl rfl
        ⟨rfl, Function.update_of_ne hg .., rfl, rfl⟩ ⟨rfl, rfl⟩

end JnetLib.Fiber.Fibers
