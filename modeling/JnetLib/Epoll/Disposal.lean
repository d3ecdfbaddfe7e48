import JnetLib.Epoll.Lifetime

/-!
# The lifetime of an operation, in terms of the calls

What a caller can do for the condition of `disposed_throughout_iff`: no receive of length zero, and
one operation at a time for each direction of a socket. If no registration fails either, each
operation is deleted once (`disposed_of_plain`).

This rests on two more invariants. `Unposted` says that nothing has come to `recv_op::on_post` and
no slot has kept an operation that could not be registered, and `Unrivalled` that there is one
operation at most for a slot. With both, a call or a continuation finds its slot vacant
(`Unrivalled.keepsOneOwner`).
-/

namespace JnetLib.Epoll

variable {ι κ τ : Type*}

/-- The call is not a receive of length zero, and the registrations the step may make do not
fail. -/
def RuntimeEvent.NonemptyRegistered : RuntimeEvent ι κ τ → Prop
  | .asyn r a => ¬r.Empty ∧ a.Registers
  | .dispatch _ a => a.Registers
  | .event _ _ _ | .work _ | .finish _ => True

namespace Runtime

variable {s s' : Runtime ι κ τ} {x : ℕ} {p : ι × Dir} {t : τ}

/-- Nothing has been posted for `recv_op::on_post`, and no slot has been refused. -/
structure Unposted (s : Runtime ι κ τ) : Prop where
  slots : ∀ p, s.refused p = false
  entries : ∀ x, .post x ∉ s.completedOps
  running : ∀ t c, s.running t = some c → c.deletes = true

theorem Unposted.post (h : Unposted s) (x : ℕ) : Unposted (s.postDeferredCompletion (.op x)) where
  slots := h.slots
  entries y hy := (List.mem_append.1 hy).elim (h.entries y) (by simp)
  running := h.running

theorem Unposted.modify (h : Unposted s) (x : ℕ) (f : Operation → Operation) :
    Unposted (s.modify x f) :=
  { h with }

variable [DecidableEq ι]

theorem Unposted.fill (h : Unposted s) (p : ι × Dir) (x : Option ℕ) :
    Unposted (s.fill p x false) where
  slots q := by
    rcases eq_or_ne q p with rfl | hqp
    · exact refused_fill_self ..
    · exact (refused_fill_of_ne _ _ _ hqp).trans (h.slots q)
  entries := h.entries
  running := h.running

theorem Unposted.put {n : Fate ι} (h : Unposted s) (hn : n.Registered) : Unposted (s.put x n) := by
  match n with
  | .wait p none _ => exact h.fill p _
  | .wait p (some ec) true => exact hn.elim
  | .wait p (some ec) false => exact ((h.fill p none).modify x _).post x
  | .posted => exact h.post x
  | .postOp => exact hn.elim
  | .queued => exact { h with }
  | .calledBack => exact h

variable [DecidableEq κ] [DecidableEq τ]

omit [DecidableEq ι] [DecidableEq κ] in
theorem Unposted.call (h : Unposted s) (t : τ) (x : ℕ) : Unposted (s.call t ⟨x, true⟩) where
  slots := h.slots
  entries := h.entries
  running := by
    intro t' c hc
    rcases eq_or_ne t' t with rfl | ht
    · rw [running_call_self] at hc
      exact Option.some.inj hc ▸ rfl
    · rw [running_call_of_ne _ _ ht] at hc
      exact h.running t' c hc

theorem Unposted.step {e : RuntimeEvent ι κ τ} (h : Unposted s) (he : e.NonemptyRegistered)
    (hs : step s e = some s') : Unposted s' := by
  cases e with
  | asyn r a =>
    obtain rfl := Option.some.inj hs
    exact Unposted.put { h with } (Request.registered_begin he.1 he.2)
  | event p flags soError =>
    obtain rfl := Option.some.inj hs
    rw [event]
    split
    · exact h
    · exact ((h.fill p none).modify _ _).post _
  | work o =>
    rw [Runtime.step, work] at hs
    split at hs
    case h_1 => cases hs
    case h_2 x l hq =>
      obtain ⟨obj, -, hs⟩ := Option.bind_eq_some_iff.1 hs
      obtain ⟨r, -, rfl⟩ := Option.map_eq_some_iff.1 hs
      have hstore : Unposted ({ s with files := r.2, queue := l }.store x r.1) := { h with }
      exact hstore.post x
  | dispatch t a =>
    rw [Runtime.step, dispatch] at hs
    split at hs
    case h_1 x l hrun hl =>
      obtain ⟨obj, -, hs⟩ := Option.bind_eq_some_iff.1 hs
      obtain ⟨⟨obj', files', n⟩, hcomplete, rfl⟩ := Option.map_eq_some_iff.1 hs
      have hpop : Unposted ({ s with files := files', completedOps := l }.store x obj') :=
        { h with entries := fun y hy ↦ h.entries y (hl ▸ List.mem_cons_of_mem _ hy) }
      split
      · exact hpop.call t x
      · exact hpop.put (Object.registered_complete he hcomplete)
    case h_2 x l hrun hl => exact absurd (hl ▸ List.mem_cons_self) (h.entries x)
    case h_3 => cases hs
  | finish t =>
    rw [Runtime.step, finish] at hs
    split at hs
    case h_1 => cases hs
    case h_2 c hc =>
      rw [if_pos (h.running t c hc)] at hs
      obtain rfl := Option.some.inj hs
      exact { h with running := fun t' c' hc' ↦ h.running t' c' (running_leave (c := c) hc').2 }

/-! ### One operation at a time -/

/-- An operation for the slot that has not called back yet. -/
def Outstanding (s : Runtime ι κ τ) (p : ι × Dir) (x : ℕ) : Prop :=
  (s.objects x).map Object.home = some (some p) ∧ ∀ t c, s.running t = some c → c.op ≠ x

/-- A call for a socket comes when no operation of the same direction is outstanding there. A
callback may make one. -/
def OneAtATime (s : Runtime ι κ τ) : RuntimeEvent ι κ τ → Prop
  | .asyn r a => ∀ p, (r.begin a).1.home = some p → ∀ x, ¬s.Outstanding p x
  | _ => True

/-- For each slot there is one operation at most. -/
def Unrivalled (s : Runtime ι κ τ) : Prop :=
  ∀ p x y, s.Outstanding p x → s.Outstanding p y → x = y

omit [DecidableEq ι] [DecidableEq κ] [DecidableEq τ] in
theorem Unrivalled.mono (h : Unrivalled s)
    (hsub : ∀ p z, s'.Outstanding p z → s.Outstanding p z) : Unrivalled s' :=
  fun p _ _ hx hy ↦ h p _ _ (hsub p _ hx) (hsub p _ hy)

omit [DecidableEq ι] [DecidableEq κ] [DecidableEq τ] in
theorem home_modify (s : Runtime ι κ τ) (x : ℕ) (f : Operation → Operation) (z : ℕ) :
    ((s.modify x f).objects z).map Object.home = (s.objects z).map Object.home := by
  rcases eq_or_ne z x with rfl | hzx
  · rw [show (s.modify z f).objects z = (s.objects z).map (Object.modify f) from
      Function.update_self .., Option.map_map]
    exact congrArg (Option.map · _) (funext fun obj ↦ obj.home_modify f)
  · rw [show (s.modify x f).objects z = s.objects z from Function.update_of_ne hzx ..]

omit [DecidableEq ι] [DecidableEq κ] [DecidableEq τ] in
theorem home_store {obj obj' : Object ι κ} (hx : s.objects x = some obj)
    (hhome : obj'.home = obj.home) (z : ℕ) :
    ((s.store x obj').objects z).map Object.home = (s.objects z).map Object.home := by
  rcases eq_or_ne z x with rfl | hzx
  · rw [show (s.store z obj').objects z = some obj' from Function.update_self .., hx,
      Option.map_some, Option.map_some, hhome]
  · rw [show (s.store x obj').objects z = s.objects z from Function.update_of_ne hzx ..]

omit [DecidableEq κ] [DecidableEq τ] in
/-- Where an operation goes changes neither which there are nor which have called back. -/
theorem outstanding_put {n : Fate ι} (p : ι × Dir) (z : ℕ) :
    (s.put x n).Outstanding p z ↔ s.Outstanding p z := by
  have hmodify (u : Runtime ι κ τ) (f : Operation → Operation) (hrun : u.running = s.running)
      (hobj : u.objects = s.objects) : (u.modify x f).Outstanding p z ↔ s.Outstanding p z := by
    rw [Outstanding, home_modify, hobj]
    show _ ∧ (∀ t c, u.running t = some c → _) ↔ _
    rw [hrun, Outstanding]
  match n with
  | .wait q none _ => exact Iff.rfl
  | .wait q (some ec) true => exact hmodify (s.fill q (some x) true) _ rfl rfl
  | .wait q (some ec) false => exact hmodify (s.fill q none false) _ rfl rfl
  | .posted | .postOp | .queued | .calledBack => exact Iff.rfl

omit [DecidableEq ι] [DecidableEq κ] [DecidableEq τ] in
/-- What waits in a slot is outstanding. -/
theorem SingleOwner.outstanding (h : SingleOwner s none) (hp : s.slots p = some x)
    (hr : s.refused p = false) :
    s.Outstanding p x := by
  obtain ⟨hsome, hdue⟩ := h.wired.waiting p x hp hr
  obtain ⟨obj, hobj⟩ := Option.isSome_iff_exists.1 hsome
  refine ⟨by rw [hobj, Option.map_some, h.wired.home p x obj hp hobj], fun t c hc hcx ↦ ?_⟩
  exact hdue (.inl (.inr ⟨t, c, hc, hcx⟩))

omit [DecidableEq ι] [DecidableEq τ] in
/-- With one operation at most for a slot and nothing refused, every slot that is going to be filled
is vacant. -/
theorem Unrivalled.keepsOneOwner (h : Unrivalled s) (hs : SingleOwner s none) (hu : Unposted s)
    {e : RuntimeEvent ι κ τ} (he : OneAtATime s e) : KeepsOneOwner s e := by
  cases e with
  | event p flags soError => exact hu.slots p
  | finish t => exact hu.running t
  | work => trivial
  | asyn r a =>
    have hstays := r.stays_begin a
    show s.Vacant (r.begin a).2
    cases hn : (r.begin a).2 with
    | wait p f keeps =>
      rw [hn] at hstays
      intro y hy
      by_contra hr
      exact he p hstays y (hs.outstanding hy (Bool.eq_false_of_not_eq_true hr))
    | _ => trivial
  | dispatch t a =>
    intro x l obj r hl hx hcomplete
    obtain ⟨-, hstays⟩ := Object.home_complete
      (show obj.complete s.files a = some (r.1, r.2.1, r.2.2) from hcomplete)
    have hmem : x ∈ s.entries := by
      rw [entries, hl]
      exact List.mem_append_left _ List.mem_cons_self
    cases hn : r.2.2 with
    | wait p f keeps =>
      rw [hn] at hstays
      intro y hy
      by_contra hr
      have hr' := Bool.eq_false_of_not_eq_true hr
      have hself : s.Outstanding p x :=
        ⟨by rw [hx, Option.map_some, show obj.home = some p from hstays],
          fun t c hc hcx ↦ hs.single.apart t c hc (hcx ▸ hmem)⟩
      obtain rfl := h p x y hself (hs.outstanding hy hr')
      exact (hs.wired.waiting p x hy hr').2 (.inl (.inl hmem))
    | _ => trivial

theorem Unrivalled.step (h : Unrivalled s) (hu : Unposted s) {e : RuntimeEvent ι κ τ}
    (he : OneAtATime s e) (hs : step s e = some s') : Unrivalled s' := by
  cases e with
  | asyn r a =>
    obtain rfl := Option.some.inj hs
    have hnew : ∀ p z, (s.asyn r a).Outstanding p z →
        z = s.nextId ∧ (r.begin a).1.home = some p ∨ z ≠ s.nextId ∧ s.Outstanding p z := by
      intro p z hz
      obtain ⟨hhome, hrun⟩ := (outstanding_put p z).1 hz
      rcases eq_or_ne z s.nextId with rfl | hne
      · refine .inl ⟨rfl, ?_⟩
        rw [show (({ s with nextId := s.nextId + 1 } : Runtime ι κ τ).store s.nextId
          (r.begin a).1).objects s.nextId = some (r.begin a).1 from
            Function.update_self ..] at hhome
        exact Option.some.inj hhome
      · refine .inr ⟨hne, ?_, hrun⟩
        rwa [show (({ s with nextId := s.nextId + 1 } : Runtime ι κ τ).store s.nextId
          (r.begin a).1).objects z = s.objects z from Function.update_of_ne hne ..] at hhome
    intro p x y hx hy
    rcases hnew p x hx with ⟨rfl, hp⟩ | ⟨-, hx⟩ <;> rcases hnew p y hy with ⟨rfl, hp'⟩ | ⟨-, hy⟩
    · rfl
    · exact absurd hy (he p hp y)
    · exact absurd hx (he p hp' x)
    · exact h p x y hx hy
  | event p flags soError =>
    obtain rfl := Option.some.inj hs
    rw [event]
    split
    · exact h
    · next x hx =>
      refine h.mono fun q z hz ↦ ?_
      obtain ⟨hhome, hrun⟩ := hz
      exact ⟨(home_modify (s.fill p none false) x _ z).symm.trans hhome, hrun⟩
  | work o =>
    rw [Runtime.step, work] at hs
    split at hs
    case h_1 => cases hs
    case h_2 x l hq =>
      obtain ⟨obj, hx, hs⟩ := Option.bind_eq_some_iff.1 hs
      obtain ⟨r, hwork, rfl⟩ := Option.map_eq_some_iff.1 hs
      refine h.mono fun q z hz ↦ ⟨?_, hz.2⟩
      exact (home_store (s := { s with files := r.2, queue := l }) hx
        (Object.home_work (show obj.work s.files o = some (r.1, r.2) from hwork)) z).symm.trans hz.1
  | dispatch t a =>
    rw [Runtime.step, dispatch] at hs
    split at hs
    case h_1 x l hrun hl =>
      obtain ⟨obj, hx, hs⟩ := Option.bind_eq_some_iff.1 hs
      obtain ⟨⟨obj', files', n⟩, hcomplete, rfl⟩ := Option.map_eq_some_iff.1 hs
      have hstore := home_store (s := { s with files := files', completedOps := l }) hx
        (Object.home_complete hcomplete).1
      refine h.mono fun q z hz ↦ ?_
      split at hz
      · refine ⟨(hstore z).symm.trans hz.1, fun t' c hc ↦ ?_⟩
        have ht : t' ≠ t := by
          rintro rfl
          rw [hrun] at hc
          cases hc
        exact hz.2 t' c ((running_call_of_ne _ _ ht).trans hc)
      · obtain ⟨hhome, hrunning⟩ := (outstanding_put q z).1 hz
        exact ⟨(hstore z).symm.trans hhome, hrunning⟩
    case h_2 x l hrun hl => exact absurd (hl ▸ List.mem_cons_self) (hu.entries x)
    case h_3 => cases hs
  | finish t =>
    rw [Runtime.step, finish] at hs
    split at hs
    case h_1 => cases hs
    case h_2 c hc =>
      rw [if_pos (hu.running t c hc)] at hs
      obtain rfl := Option.some.inj hs
      refine h.mono fun q z hz ↦ ?_
      have hzc : z ≠ c.op := by
        rintro rfl
        rw [Outstanding, show ((s.leave t c).delete c.op).objects c.op = none from
          Function.update_self ..] at hz
        cases hz.1
      refine ⟨?_, fun t' c' hc' ↦ ?_⟩
      · rw [← show ((s.leave t c).delete c.op).objects z = s.objects z from
          Function.update_of_ne hzc ..]
        exact hz.1
      · rcases eq_or_ne t' t with rfl | ht
        · obtain rfl := Option.some.inj (hc.symm.trans hc')
          exact fun heq ↦ hzc heq.symm
        · exact hz.2 t' c' ((show (s.leave t c).running t' = s.running t' from
            Function.update_of_ne ht ..).trans hc')

/-- **With no receive of length zero, no registration that fails and one operation at a time** for
each direction of a socket, each operation object is deleted once, right behind its callback. -/
theorem disposed_of_plain (files : κ → OpenFile) {l : List (RuntimeEvent ι κ τ)}
    (hl : Transition.RunMeets step (fun s e ↦ e.NonemptyRegistered ∧ OneAtATime s e)
      (start files) l) :
    Transition.Throughout step Disposed (start files) l := by
  refine hl.throughout (I := fun s ↦ SingleOwner s none ∧ Unposted s ∧ Unrivalled s)
    (fun _ h ↦ h.1.disposed) (fun s e s' h he hs ↦ ?_) ⟨singleOwner_start files, ?_, ?_⟩
  · obtain ⟨hk, hu, hr⟩ := h
    exact ⟨hk.step (hr.keepsOneOwner hk hu he.2) hs, hu.step he.1 hs, hr.step hu he.2 hs⟩
  · exact ⟨fun _ ↦ rfl, fun _ ↦ List.not_mem_nil, nofun⟩
  · exact fun _ _ _ hx ↦ nomatch hx.1

end Runtime

end JnetLib.Epoll
