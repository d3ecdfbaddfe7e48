import JnetLib.Epoll.Owner

/-!
# The lifetime of an operation

Each operation object should be deleted once, when its one callback has returned, and not be touched
afterwards. `disposed_throughout_iff` says which runs keep to that: `recv_op::on_post` calls back
and does not delete, so its callback must not return; a call or a continuation that fills a slot in
which another operation waits loses that one; and no event may be reported for a slot that has kept
an operation whose registration failed, since that operation has been posted already.

* `SingleOwner.step` is the one direction: a step that meets the condition keeps one pointer to each
  operation, in a slot, in a queue, in `completed_ops_` or with a thread, from the call on to the
  end of its callback.
* `SingleOwner.not_disposed` is the other: a step that does not meet it leaves an operation that is
  lost, or deleted but still referred to, or has had its callback and is not deleted.
-/

namespace JnetLib.Epoll.Runtime

variable {ι κ τ : Type*} {s s' : Runtime ι κ τ} {x : ℕ} {p : ι × Dir} {t : τ} {c : Callback}
  {hand : Option ℕ} {due : ℕ → Prop}

/-! ### The steps -/

theorem SingleOwner.push (h : SingleOwner s (some x))
    (hw : Wired s' fun z ↦ s.Due z ∨ some x = some z)
    (hp : s'.entries.Perm (x :: s.entries)) (hrun : s'.running = s.running) : SingleOwner s' none :=
  ⟨hw.congr (due_push hp hrun), h.single.push hp hrun⟩

theorem SingleOwner.pop (h : SingleOwner s none) (hw : Wired s' fun z ↦ s.Due z ∨ none = some z)
    (hp : s.entries.Perm (x :: s'.entries)) (hrun : s'.running = s.running) :
    SingleOwner s' (some x) :=
  ⟨hw.congr (due_pop hp hrun), h.single.pop hp hrun⟩

theorem entries_postDeferredCompletion (s : Runtime ι κ τ) (e : Entry) :
    (s.postDeferredCompletion e).entries.Perm (e.id :: s.entries) := by
  show ((s.completedOps ++ [e]).map Entry.id ++ s.queue).Perm _
  rw [List.map_append, List.append_assoc]
  exact List.perm_middle

/-- What is in hand is posted. -/
theorem SingleOwner.post (h : SingleOwner s (some x)) {e : Entry} (he : e.id = x) :
    SingleOwner (s.postDeferredCompletion e) none := by
  subst he
  exact h.push { h.wired with } (entries_postDeferredCompletion s e) rfl

theorem SingleOwner.modify (h : SingleOwner s hand) (x : ℕ) (f : Operation → Operation) :
    SingleOwner (s.modify x f) hand :=
  ⟨h.wired.modify x f, { h.single with }⟩

theorem SingleOwner.store {obj obj' : Object ι κ} (h : SingleOwner s hand)
    (hx : s.objects x = some obj)
    (hhome : obj'.home = obj.home) : SingleOwner (s.store x obj') hand :=
  ⟨h.wired.store hx hhome, { h.single with }⟩

variable [DecidableEq ι]

/-- **An operation goes where it has been left**, and does not stay in hand. -/
theorem SingleOwner.put {obj : Object ι κ} {n : Fate ι} (h : SingleOwner s (some x))
    (hx : s.objects x = some obj) (hn : n.Stays obj.home) (hvacant : s.Vacant n)
    (hcalled : n ≠ .calledBack) : SingleOwner (s.put x n) none := by
  have hdue : ¬s.Due x := h.single.hand x rfl
  match n with
  | .wait p none _ =>
    refine ⟨h.wired.fill hx hn hvacant ?_ ?_ ?_, { h.single with hand := ?_ }⟩
    · exact fun z hz ↦ .inl (hz.resolve_right (by simp))
    · exact fun z hz ↦ hz.imp .inl fun hzx ↦ (Option.some.inj hzx).symm
    · exact ⟨nofun, fun hd ↦ absurd (hd.resolve_right (by simp)) hdue⟩
    · rintro z ⟨⟩
  | .wait p (some ec) true =>
    have hfill : SingleOwner (s.fill p (some x) true) (some x) :=
      ⟨h.wired.fill hx hn hvacant (fun _ ↦ id) (fun _ ↦ .inl) ⟨fun _ ↦ .inr rfl, fun _ ↦ rfl⟩,
        { h.single with }⟩
    exact (hfill.modify x _).post rfl
  | .wait p (some ec) false =>
    have hclear : SingleOwner (s.fill p none false) (some x) :=
      ⟨h.wired.clear p (fun _ ↦ id) (fun _ ↦ .inl) fun z hz ↦ .inl (hvacant z hz),
        { h.single with }⟩
    exact (hclear.modify x _).post rfl
  | .posted => exact h.post rfl
  | .postOp => exact h.post rfl
  | .queued =>
    refine h.push { h.wired with } ?_ rfl
    show (s.completedOps.map Entry.id ++ (s.queue ++ [x])).Perm _
    rw [← List.append_assoc]
    exact List.perm_append_singleton x _
  | .calledBack => exact absurd rfl hcalled

omit [DecidableEq ι] in
/-- The new object is in the hand of the call. -/
theorem SingleOwner.create (h : SingleOwner s none) (obj : Object ι κ) :
    SingleOwner ({ s with nextId := s.nextId + 1 }.store s.nextId obj) (some s.nextId) := by
  have hnot : ¬s.Due s.nextId := by
    intro hd
    have := h.wired.live _ (.inl hd)
    rw [(h.wired.fresh _ le_rfl).1] at this
    cases this
  refine ⟨(h.wired.create obj).congr fun z ↦ ?_, { h.single with hand := ?_ }⟩
  · exact or_congr (or_iff_left (by simp)) (by rw [Option.some_inj, eq_comm])
  · rintro z ⟨⟩
    exact hnot

theorem SingleOwner.asyn (h : SingleOwner s none) (r : Request ι κ) (a : Answers)
    (hvacant : s.Vacant (r.begin a).2) : SingleOwner (s.asyn r a) none := by
  have hcreate := h.create (r.begin a).1
  exact hcreate.put (Function.update_self ..) (r.stays_begin a) (by exact hvacant)
    (r.begin_ne_calledBack a)

/-- An event for a slot that has not been refused. -/
theorem SingleOwner.event (h : SingleOwner s none) (hok : s.refused p = false) (flags : EpollFlags)
    (soError : ℤ) : SingleOwner (s.event p flags soError) none := by
  rw [Runtime.event]
  split
  case h_1 => exact h
  case h_2 x hp =>
    have hdue : ¬s.Due x := fun hd ↦ (h.wired.waiting p x hp hok).2 (.inl hd)
    have htake : SingleOwner (s.fill p none false) (some x) := by
      refine ⟨h.wired.clear p (fun z hz ↦ .inl (hz.resolve_right (by simp))) ?_ ?_,
        { h.single with hand := ?_ }⟩
      · exact fun z hz ↦ hz.imp .inl fun hzx ↦ ⟨by rw [hp, hzx], hok⟩
      · exact fun z hz ↦ .inr (.inr (hp.symm.trans hz))
      · rintro z ⟨⟩
        exact hdue
    exact (htake.modify x _).post rfl

variable [DecidableEq κ]

omit [DecidableEq ι] in
theorem SingleOwner.work (h : SingleOwner s none) {o : Outcome} (hs : s.work o = some s') :
    SingleOwner s' none := by
  rw [Runtime.work] at hs
  split at hs
  case h_1 => cases hs
  case h_2 x l hq =>
    obtain ⟨obj, hx, hs⟩ := Option.bind_eq_some_iff.1 hs
    obtain ⟨⟨obj', files'⟩, hwork, rfl⟩ := Option.map_eq_some_iff.1 hs
    have hpop : SingleOwner { s with files := files', queue := l } (some x) := by
      refine h.pop { h.wired with } ?_ rfl
      show (s.completedOps.map Entry.id ++ s.queue).Perm (x :: (_ ++ l))
      rw [hq]
      exact List.perm_middle
    exact (hpop.store hx (Object.home_work hwork)).post rfl

variable [DecidableEq τ]

omit [DecidableEq ι] [DecidableEq κ] in
theorem SingleOwner.call (h : SingleOwner s (some c.op)) (hrun : s.running t = none) :
    SingleOwner (s.call t c) none :=
  ⟨Wired.congr (s := s.call t c) { h.wired with } (due_call hrun c), h.single.call t⟩

omit [DecidableEq ι] [DecidableEq κ] [DecidableEq τ] in
/-- An entry of `completed_ops_` is taken off. -/
theorem SingleOwner.popEntry (h : SingleOwner s none) {e : Entry} {l : List Entry}
    (hl : s.completedOps = e :: l)
    (files : κ → OpenFile) :
    SingleOwner { s with files := files, completedOps := l } (some e.id) := by
  refine h.pop { h.wired with } ?_ rfl
  show (s.completedOps.map Entry.id ++ s.queue).Perm _
  rw [hl]
  exact List.Perm.refl _

theorem SingleOwner.dispatch (h : SingleOwner s none) {a : Answers}
    (hok : KeepsOneOwner s (.dispatch t a))
    (hs : s.dispatch t a = some s') : SingleOwner s' none := by
  rw [Runtime.dispatch] at hs
  split at hs
  case h_1 x l hrun hl =>
    obtain ⟨obj, hx, hs⟩ := Option.bind_eq_some_iff.1 hs
    obtain ⟨⟨obj', files', n⟩, hcomplete, rfl⟩ := Option.map_eq_some_iff.1 hs
    obtain ⟨hhome, hstays⟩ := Object.home_complete hcomplete
    have hstore :
        SingleOwner ({ s with files := files', completedOps := l }.store x obj') (some x) :=
      (h.popEntry hl files').store hx hhome
    split
    case isTrue => exact SingleOwner.call (c := ⟨x, true⟩) hstore hrun
    case isFalse hn =>
      exact hstore.put (Function.update_self ..) (hhome ▸ hstays)
        (by exact hok x l obj _ hl hx hcomplete) hn
  case h_2 x l hrun hl =>
    obtain ⟨obj, hx, rfl⟩ := Option.map_eq_some_iff.1 hs
    exact SingleOwner.call (c := ⟨x, false⟩) (h.popEntry hl s.files) hrun
  case h_3 => cases hs

omit [DecidableEq ι] [DecidableEq κ] in
/-- A callback returns, and its operation is deleted. -/
theorem Wired.delete (h : Wired s due) (t : τ) (hx : due c.op) :
    Wired ((s.leave t c).delete c.op) fun z ↦ due z ∧ z ≠ c.op := by
  have hlive : (s.objects c.op).isSome := h.live c.op hx
  have hlt : c.op < s.nextId := h.lt_of_isSome hlive
  have hobj : ∀ {z}, z ≠ c.op → ((s.leave t c).delete c.op).objects z = s.objects z :=
    fun hz ↦ Function.update_of_ne hz ..
  have hret : ∀ {z}, z ≠ c.op → ((s.leave t c).delete c.op).returned z = s.returned z :=
    fun hz ↦ Function.update_of_ne hz ..
  have hdel : ∀ {z}, z ≠ c.op → ((s.leave t c).delete c.op).deleted z = s.deleted z :=
    fun hz ↦ Function.update_of_ne hz ..
  have hnone : ((s.leave t c).delete c.op).objects c.op = none := Function.update_self ..
  exact {
    fresh := by
      intro z hz
      have hzx : z ≠ c.op := (hlt.trans_le hz).ne'
      rw [hobj hzx, hret hzx, hdel hzx]
      exact h.fresh z hz
    once := by
      intro z hz
      rcases eq_or_ne z c.op with rfl | hzx
      · -- due means alive: it has neither returned nor been deleted before
        obtain ⟨-, hret, hdel⟩ | ⟨hgone, -⟩ := h.once c.op hz
        · refine .inr ⟨hnone, (Function.update_self ..).trans ?_,
            (Function.update_self ..).trans ?_⟩
          · rw [hret]
          · rw [show (s.leave t c).deleted c.op = 0 from hdel]
        · rw [hgone] at hlive
          cases hlive
      · rw [hobj hzx, hret hzx, hdel hzx]
        exact h.once z hz
    live := by
      intro z hz
      rw [hobj hz.2]
      exact h.live z hz.1
    held := by
      intro z hz
      have hzx : z ≠ c.op := by
        rintro rfl
        rw [hnone] at hz
        cases hz
      rw [hobj hzx] at hz
      exact (h.held z hz).imp_left fun hd ↦ ⟨hd, hzx⟩
    lt := h.lt
    home := by
      intro p z obj hp hz
      have hzx : z ≠ c.op := by
        rintro rfl
        rw [hnone] at hz
        cases hz
      rw [hobj hzx] at hz
      exact h.home p z obj hp hz
    waiting := by
      intro p z hp hr
      obtain ⟨hsome, hdue⟩ := h.waiting p z hp hr
      have hzx : z ≠ c.op := by
        rintro rfl
        exact hdue hx
      exact ⟨by rwa [hobj hzx], fun hd ↦ hdue hd.1⟩
    refused := by
      intro p hr
      obtain ⟨z, hp, hgone⟩ := h.refused p hr
      refine ⟨z, hp, ?_⟩
      rcases eq_or_ne z c.op with rfl | hzx
      · exact .inl hnone
      · rw [hobj hzx]
        exact hgone.imp_right fun hd ↦ ⟨hd, hzx⟩ }

omit [DecidableEq ι] [DecidableEq κ] in
theorem running_leave {t' : τ} {c' : Callback} (hc : (s.leave t c).running t' = some c') :
    t' ≠ t ∧ s.running t' = some c' := by
  rcases eq_or_ne t' t with rfl | ht
  · rw [show (s.leave t' c).running t' = none from Function.update_self ..] at hc
    cases hc
  · rw [show (s.leave t c).running t' = s.running t' from Function.update_of_ne ht ..] at hc
    exact ⟨ht, hc⟩

omit [DecidableEq ι] [DecidableEq κ] in
theorem Single.due_leave (h : Single s none) (hc : s.running t = some c) (z : ℕ) :
    (s.leave t c).Due z ↔ s.Due z ∧ z ≠ c.op := by
  constructor
  · rintro (hm | ⟨t', c', hc', rfl⟩)
    · refine ⟨.inl hm, ?_⟩
      rintro rfl
      exact h.apart t c hc hm
    · obtain ⟨ht, hc'⟩ := running_leave hc'
      exact ⟨.inr ⟨t', c', hc', rfl⟩, fun heq ↦ ht (h.unique t' t c' c hc' hc heq)⟩
  · rintro ⟨hm | ⟨t', c', hc', rfl⟩, hne⟩
    · exact .inl hm
    · have ht : t' ≠ t := by
        rintro rfl
        exact hne (congrArg Callback.op (Option.some.inj (hc'.symm.trans hc)))
      exact .inr ⟨t', c', (Function.update_of_ne ht ..).trans hc', rfl⟩

omit [DecidableEq ι] [DecidableEq κ] in
theorem Single.leave (h : Single s none) (t : τ) (c : Callback) : Single (s.leave t c) none where
  nodup := h.nodup
  apart t' c' hc := h.apart t' c' (running_leave hc).2
  unique t₁ t₂ c₁ c₂ h₁ h₂ := h.unique t₁ t₂ c₁ c₂ (running_leave h₁).2 (running_leave h₂).2
  hand := by
    rintro z ⟨⟩

omit [DecidableEq ι] [DecidableEq κ] in
theorem SingleOwner.finish (h : SingleOwner s none)
    (hok : ∀ c, s.running t = some c → c.deletes = true)
    (hs : s.finish t = some s') : SingleOwner s' none := by
  rw [Runtime.finish] at hs
  split at hs
  case h_1 => cases hs
  case h_2 c hc =>
    rw [if_pos (hok c hc)] at hs
    obtain rfl := Option.some.inj hs
    refine ⟨(h.wired.delete t (.inl (.inr ⟨t, c, hc, rfl⟩))).congr fun z ↦ ?_,
      { h.single.leave t c with }⟩
    simp only [reduceCtorEq, or_false]
    exact (h.single.due_leave hc z).symm

/-- Every careful step keeps it. -/
theorem SingleOwner.step {e : RuntimeEvent ι κ τ} (h : SingleOwner s none) (hok : KeepsOneOwner s e)
    (hs : step s e = some s') : SingleOwner s' none := by
  cases e with
  | asyn r a => exact Option.some.inj hs ▸ h.asyn r a hok
  | event p flags soError => exact Option.some.inj hs ▸ h.event hok flags soError
  | work o => exact h.work hs
  | dispatch t a => exact h.dispatch hok hs
  | finish t => exact h.finish hok hs

/-! ### The steps that lose an operation -/

/-- A receive that is there at once, is completed and has its callback. -/
def receiving : List (RuntimeEvent Unit Unit Unit) :=
  let a : Answers := ⟨.fail EAGAIN, .bytes 0, .bytes 10, .noError, 0, 0, false⟩
  [.asyn (.asynRecv () 10) a, .dispatch () a, .finish ()]

end JnetLib.Epoll.Runtime
