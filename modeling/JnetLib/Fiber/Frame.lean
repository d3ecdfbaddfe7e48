import JnetLib.Fiber.Invariant

/-!
# What a step of another thread leaves alone

`Frame` is what one step changes at most, and `Accounted.frame` says so of every step of a thread:
it moves the context that the thread executes and one that is suspended, and of the fields of a
fiber it changes what that context is about to change. From this and the invariant follows what a
thread can rely on: it stays where it is (`Accounted.at_step`), and nobody else is on the way to the
fiber it has the token of (`Accounted.carries_ne`), so that nothing is stored for it
(`Frame.stored_eq`).
-/

namespace JnetLib.Fiber.Fibers

variable {τ φ ρ : Type} {s s' : Fibers τ φ ρ} {t u : τ} {c : Ctx τ φ} {f : φ} {pc pc' : Pc φ ρ}

variable [DecidableEq τ] [DecidableEq φ]

/-- What a step of thread `t` leaves alone. -/
structure Frame (s s' : Fibers τ φ ρ) (t : τ) : Prop where
  current : ∀ u, u ≠ t → s'.current u = s.current u
  pcs : ∀ d, (s.pcs d).active = true → d ≠ s.current t → s'.pcs d = s.pcs d
  fresh : ∀ f, s'.pcs (.fiber f) = .fresh ↔
    s.pcs (.fiber f) = .fresh ∧ s.pcs (s.current t) ≠ .entering f
  base : (∀ u, (s.pcs (.base u)).plain = true) → ∀ u, (s'.pcs (.base u)).plain = true
  invoker : ∀ f, s'.invoker f = s.invoker f ∨
    (∃ b, s.pcs (s.current t) = .switching f b) ∧ s.invoker f = none ∧
      s'.invoker f = some (s.current t) ∨
    s.pcs (s.current t) = .clearing f ∧ s'.invoker f = none
  stored : ∀ f, s'.stored f = s.stored f ∨ ∃ r, s.pcs (s.current t) = .storing f r
  freeFlag : ∀ f, s'.freeFlag f = s.freeFlag f ∨ s.current t = .fiber f
  frees : ∀ f, s.frees f ≤ s'.frees f

/-- A step that moves one context, to a place that is not the beginning of a fiber. -/
theorem Frame.of_goto (ht : s.current t = c) (hactive : (s.pcs c).active = true) (hpc : pc ≠ .fresh)
    (hne : ∀ f, s.pcs c ≠ .entering f) (hcurrent : s'.current = s.current)
    (hpcs : s'.pcs = Function.update s.pcs c pc) (hbase : pc.plain = true ∨ ∃ f, c = .fiber f)
    (hinvoker : ∀ f, s'.invoker f = s.invoker f ∨
      (∃ b, s.pcs c = .switching f b) ∧ s.invoker f = none ∧ s'.invoker f = some c ∨
      s.pcs c = .clearing f ∧ s'.invoker f = none)
    (hstored : ∀ f, s'.stored f = s.stored f ∨ ∃ r, s.pcs c = .storing f r)
    (hflag : ∀ f, s'.freeFlag f = s.freeFlag f ∨ c = .fiber f)
    (hfrees : ∀ f, s.frees f ≤ s'.frees f) : Frame s s' t := by
  subst ht
  refine ⟨fun u _ ↦ congrFun hcurrent u, fun d _ hd ↦ by rw [hpcs, Function.update_of_ne hd],
    fun f ↦ ?_, fun hplain u ↦ ?_, hinvoker, hstored, hflag, hfrees⟩
  · rw [hpcs, and_iff_left (hne f)]
    rcases eq_or_ne (.fiber f) (s.current t) with hf | hf
    · rw [hf, Function.update_self]
      refine iff_of_false hpc fun h ↦ ?_
      rw [h] at hactive
      cases hactive
    · rw [Function.update_of_ne hf]
  · rw [hpcs]
    rcases eq_or_ne (.base u) (s.current t) with hu | hu
    · rw [hu, Function.update_self]
      refine hbase.resolve_right fun ⟨f, hf⟩ ↦ ?_
      rw [hf] at hu
      cases hu
    · rw [Function.update_of_ne hu]
      exact hplain u

/-- A step that moves one context and changes neither `invoker_`, the results, `free_flag_` nor what
is freed. -/
theorem Frame.of_move (ht : s.current t = c) (hactive : (s.pcs c).active = true) (hpc : pc ≠ .fresh)
    (hne : ∀ f, s.pcs c ≠ .entering f) (hcurrent : s'.current = s.current)
    (hpcs : s'.pcs = Function.update s.pcs c pc) (hbase : pc.plain = true ∨ ∃ f, c = .fiber f)
    (hfields : s'.invoker = s.invoker ∧ s'.stored = s.stored ∧ s'.freeFlag = s.freeFlag ∧
      s'.frees = s.frees) : Frame s s' t := by
  obtain ⟨hinvoker, hstored, hflag, hfrees⟩ := hfields
  exact .of_goto ht hactive hpc hne hcurrent hpcs hbase (fun f ↦ .inl (congrFun hinvoker f))
    (fun f ↦ .inl (congrFun hstored f)) (fun f ↦ .inl (congrFun hflag f))
    fun f ↦ le_of_eq (congrFun hfrees f).symm

theorem Accounted.frame_enter (h : s.Accounted) (ht : s.current t = c)
    (hc : s.pcs c = .entering f) : Frame s (s.switchFiber t c (.switched f) (.fiber f)) t where
  current u hu := Function.update_of_ne hu ..
  pcs d hd hdc := by
    have hdf : d ≠ .fiber f := by
      rintro rfl
      rcases h.target hc with ⟨hb, -⟩ | hb <;> rw [hb] at hd <;> cases hd
    exact pcs_switchFiber_of_ne _ _ _ (ht ▸ hdc) hdf
  fresh g := by
    have hcf := h.target_ne hc
    rw [ht, hc]
    rcases eq_or_ne g f with rfl | hg
    · rw [pcs_switchFiber_target]
      refine iff_of_false ?_ (by simp)
      rcases h.target hc with ⟨hb, -⟩ | hb <;> rw [hb] <;> simp [Pc.resume]
    rcases eq_or_ne (.fiber g) c with rfl | hgc
    · rw [pcs_switchFiber_self _ _ _ hcf, hc]
      simp
    · rw [pcs_switchFiber_of_ne _ _ _ hgc fun he ↦ hg (Ctx.fiber.inj he)]
      exact (and_iff_left fun he ↦ hg (Pc.entering.inj he).symm).symm
  base hplain u := by
    rcases eq_or_ne (.base u) c with rfl | hne
    · rw [pcs_switchFiber_self _ _ _ (h.target_ne hc)]
      rfl
    · rw [pcs_switchFiber_of_ne _ _ _ hne (by simp)]
      exact hplain u
  invoker _ := .inl rfl
  stored _ := .inl rfl
  freeFlag _ := .inl rfl
  frees _ := le_rfl

theorem Frame.of_leave (ht : s.current t = .fiber f) (hf : s.Leaves f pc)
    (hc : s.pcs c = .switched f) (hfc : .fiber f ≠ c) :
    Frame s (s.switchFiber t (.fiber f) pc c) t where
  current u hu := Function.update_of_ne hu ..
  pcs d hd hdf := by
    have hdc : d ≠ c := by
      rintro rfl
      rw [hc] at hd
      cases hd
    exact pcs_switchFiber_of_ne _ _ _ (ht ▸ hdf) hdc
  fresh g := by
    have hne : s.pcs (s.current t) ≠ .entering g := by
      rw [ht]
      rcases hf with ⟨hb, -⟩ | ⟨hb, -⟩ <;> rw [hb] <;> simp
    rw [and_iff_left hne]
    rcases eq_or_ne g f with rfl | hg
    · rw [pcs_switchFiber_self _ _ _ hfc]
      exact iff_of_false hf.new.2.2 hf.old.2.2.2
    · have hother : (s.switchFiber t (.fiber f) pc c).pcs (.fiber g) = _ ∨ _ :=
        pcs_leave_other hc hg
      exact (Pc.kind_of_plain hother).1
  base hplain u := by
    rcases eq_or_ne (.base u) c with rfl | hne
    · rw [pcs_switchFiber_target, hc]
      rfl
    · rw [pcs_switchFiber_of_ne _ _ _ (by simp) hne]
      exact hplain u
  invoker _ := .inl rfl
  stored _ := .inl rfl
  freeFlag _ := .inl rfl
  frees _ := le_rfl

theorem Accounted.frame_yield (h : s.Accounted) (ht : s.current t = .fiber f)
    (hf : s.Leaves f pc) : Frame s (s.yield t f pc pc') t := by
  obtain ⟨c, -, hc, hfc, hyield⟩ := h.exists_yield_eq hf t pc'
  rw [hyield]
  exact .of_leave ht hf hc hfc

theorem Accounted.frame_go (h : s.Accounted) (ht : s.current t = c)
    (hst : s.go t c = some s') : Frame s s' t := by
  have hactive : (s.pcs c).active = true := ht ▸ h.threads.active t
  rw [Fibers.go.eq_def] at hst
  split at hst
  case h_1 f r hc =>
    obtain rfl := Option.some.inj hst
    refine .of_goto ht hactive (by simp) (by simp [hc]) rfl rfl (.inl rfl) (fun _ ↦ .inl rfl)
      (fun g ↦ ?_) (fun _ ↦ .inl rfl) fun _ ↦ le_rfl
    rcases eq_or_ne g f with rfl | hg
    · exact .inr ⟨r, hc⟩
    · exact .inl (Function.update_of_ne hg ..)
  case h_2 f b hc =>
    split at hst
    case h_1 hf =>
      obtain rfl := Option.some.inj hst
      refine .of_goto ht hactive (by simp) (by simp [hc]) rfl rfl (.inl rfl) (fun g ↦ ?_)
        (fun _ ↦ .inl rfl) (fun _ ↦ .inl rfl) fun _ ↦ le_rfl
      rcases eq_or_ne g f with rfl | hg
      · exact .inr (.inl ⟨⟨b, hc⟩, hf, Function.update_self ..⟩)
      · exact .inl (Function.update_of_ne hg ..)
    case h_2 d hf =>
      obtain rfl := Option.some.inj hst
      exact .of_move ht hactive (by cases b <;> simp) (by simp [hc]) rfl rfl
        (.inl (by cases b <;> rfl)) ⟨rfl, rfl, rfl, rfl⟩
  case h_3 f hc =>
    obtain rfl := Option.some.inj hst
    exact h.frame_enter ht hc
  case h_4 f hc =>
    obtain rfl := Option.some.inj hst
    exact .of_move ht hactive (by cases s.freeFlag f <;> simp) (by simp [hc]) rfl rfl
      (.inl (by cases s.freeFlag f <;> rfl)) ⟨rfl, rfl, rfl, rfl⟩
  case h_5 f hc =>
    obtain rfl := Option.some.inj hst
    refine .of_goto ht hactive (by simp) (by simp [hc]) rfl rfl (.inl rfl) (fun g ↦ ?_)
      (fun _ ↦ .inl rfl) (fun _ ↦ .inl rfl) fun _ ↦ le_rfl
    rcases eq_or_ne g f with rfl | hg
    · exact .inr (.inr ⟨hc, Function.update_self ..⟩)
    · exact .inl (Function.update_of_ne hg ..)
  case h_6 f hc =>
    obtain rfl := Option.some.inj hst
    refine .of_goto ht hactive (by simp) (by simp [hc]) rfl rfl (.inl rfl) (fun _ ↦ .inl rfl)
      (fun _ ↦ .inl rfl) (fun _ ↦ .inl rfl) fun g ↦ ?_
    rcases eq_or_ne g f with rfl | hg
    · show s.frees g ≤ Function.update s.frees g (s.frees g + 1) g
      rw [Function.update_self]
      exact Nat.le_succ _
    · exact le_of_eq (Function.update_of_ne hg ..).symm
  case h_7 f hc =>
    obtain rfl := Option.some.inj hst
    exact .of_move ht hactive (by simp) (by simp [hc]) rfl rfl (.inl rfl) ⟨rfl, rfl, rfl, rfl⟩
  case h_8 hc =>
    cases c with
    | base u => cases hst
    | fiber f =>
      obtain rfl := Option.some.inj hst
      exact h.frame_yield ht (.inl ⟨hc, rfl⟩)
  case h_9 hc =>
    cases c with
    | base u => cases hst
    | fiber f =>
      obtain rfl := Option.some.inj hst
      exact .of_move ht hactive (by simp) (by simp [hc]) rfl rfl (.inl rfl) ⟨rfl, rfl, rfl, rfl⟩
  case h_10 hc =>
    cases c with
    | base u => cases hst
    | fiber f =>
      obtain rfl := Option.some.inj hst
      exact h.frame_yield ht (.inr ⟨hc, rfl⟩)
  case h_11 => cases hst

theorem Frame.of_begin {act : FiberAct φ ρ} (ht : s.current t = c) (hc : s.pcs c = .idle)
    (hst : s.begin c act = some s') : Frame s s' t := by
  have hactive : (s.pcs c).active = true := by rw [hc]; rfl
  have hne : ∀ f, s.pcs c ≠ .entering f := by simp [hc]
  rw [Fibers.begin.eq_def] at hst
  split at hst
  case h_1 u f r =>
    split at hst
    case isTrue => cases hst
    case isFalse =>
      obtain rfl := Option.some.inj hst
      exact .of_move ht hactive (by simp) hne rfl rfl (.inl rfl) ⟨rfl, rfl, rfl, rfl⟩
  case h_2 u f =>
    split at hst
    case isTrue => cases hst
    case isFalse =>
      obtain rfl := Option.some.inj hst
      exact .of_move ht hactive (by simp) hne rfl rfl (.inl rfl) ⟨rfl, rfl, rfl, rfl⟩
  case h_3 f =>
    split at hst
    case isTrue => cases hst
    case isFalse =>
      obtain rfl := Option.some.inj hst
      exact .of_move ht hactive (by simp) hne rfl rfl (.inl rfl) ⟨rfl, rfl, rfl, rfl⟩
  case h_4 f =>
    obtain rfl := Option.some.inj hst
    exact .of_move ht hactive (by simp) hne rfl rfl (.inr ⟨f, rfl⟩) ⟨rfl, rfl, rfl, rfl⟩
  case h_5 f =>
    obtain rfl := Option.some.inj hst
    refine .of_goto ht hactive (by simp) hne rfl rfl (.inr ⟨f, rfl⟩) (fun _ ↦ .inl rfl)
      (fun _ ↦ .inl rfl) (fun g ↦ ?_) fun _ ↦ le_rfl
    rcases eq_or_ne g f with rfl | hg
    · exact .inr rfl
    · exact .inl (Function.update_of_ne hg ..)
  case h_6 => cases hst

/-- **What another thread leaves alone**: where a thread is, unless it is suspended, and of the
fields of a fiber all but what the context of that thread is about to change. -/
theorem Accounted.frame {e : FiberAct φ ρ} (h : s.Accounted) (hst : s.step (t, e) = some s') :
    Frame s s' t := by
  rw [step.eq_def] at hst
  split at hst
  case h_1 t' heq =>
    obtain ⟨rfl, rfl⟩ := Prod.mk.inj heq
    exact h.frame_go rfl hst
  case h_2 t' act _ heq =>
    obtain ⟨rfl, rfl⟩ := Prod.mk.inj heq
    split at hst
    case h_1 hc => exact .of_begin rfl hc hst
    case h_2 => cases hst

/-- Thread `t` executes the context `c`, which is at `pc`. -/
def At (s : Fibers τ φ ρ) (t : τ) (c : Ctx τ φ) (pc : Pc φ ρ) : Prop :=
  s.current t = c ∧ s.pcs c = pc

theorem Accounted.at_step {e : FiberAct φ ρ} (h : s.Accounted) (hat : s.At t c pc) (hu : u ≠ t)
    (hst : s.step (u, e) = some s') : s'.At t c pc := by
  obtain ⟨ht, hc⟩ := hat
  have hframe := h.frame hst
  refine ⟨(hframe.current t hu.symm).trans ht, (hframe.pcs c ?_ ?_).trans hc⟩
  · exact ht ▸ h.threads.active t
  · exact fun heq ↦ hu (h.threads.inj u t (heq.symm.trans ht.symm))

omit [DecidableEq τ] [DecidableEq φ] in
/-- No other thread is on the way to the fiber that a thread has the token of. -/
theorem Accounted.carries_ne (h : s.Accounted) (hat : s.At t c pc) (hpc : pc.carries = some f)
    (hu : u ≠ t) : (s.pcs (s.current u)).carries ≠ some f := by
  obtain ⟨rfl, rfl⟩ := hat
  exact fun hcarries ↦ hu (h.threads.inj u t (h.tokens.inj _ _ f hcarries hpc))

omit [DecidableEq τ] [DecidableEq φ] in
/-- What is stored for a fiber changes by a context on the way to it. -/
theorem Frame.stored_eq (h : Frame s s' u) (hne : (s.pcs (s.current u)).carries ≠ some f) :
    s'.stored f = s.stored f :=
  (h.stored f).resolve_right fun ⟨r, hr⟩ ↦ hne (by rw [hr]; rfl)

end JnetLib.Fiber.Fibers
