import JnetLib.Epoll.Fates

/-!
# One pointer to an operation

`Disposed` is what should hold of the operations in every state: each is deleted once, when its one
callback has returned, and is in one place until then. It follows from `SingleOwner`, which also
holds inside a step, while an operation is in the hand of the function that runs.

* `Wired` ties the slots to the objects. The lemmas are one for each way in which a function changes
  them: it creates an operation, stores its fields, fills a slot or clears it.
* `Single` keeps the pointers in lists and with threads apart; an operation is taken out of a list
  (`Single.pop`), put into one (`Single.push`), or given to a thread (`Single.call`).
-/

namespace JnetLib.Epoll.Runtime

variable {ι κ τ : Type*}

variable {s s' : Runtime ι κ τ} {x y : ℕ} {p q : ι × Dir} {t : τ} {c : Callback}

/-! ### What is to hold -/

/-- The operations in `completed_ops_` and in the queue of the file worker. -/
def entries (s : Runtime ι κ τ) : List ℕ := s.completedOps.map Entry.id ++ s.queue

/-- An operation that will be met again, or is being completed. -/
def Due (s : Runtime ι κ τ) (x : ℕ) : Prop :=
  x ∈ s.entries ∨ ∃ t c, s.running t = some c ∧ c.op = x

/-- **Each operation is deleted once, behind its one callback.** -/
structure Disposed (s : Runtime ι κ τ) : Prop where
  /-- An operation exists until its callback has returned, and has been deleted once from then
  on. -/
  once : ∀ x < s.nextId,
    ((s.objects x).isSome ∧ s.returned x = 0 ∧ s.deleted x = 0) ∨
      (s.objects x = none ∧ s.returned x = 1 ∧ s.deleted x = 1)
  /-- No operation is met again after it has been deleted. -/
  live : ∀ x, s.Due x → (s.objects x).isSome
  /-- No operation is lost: one that exists is in a slot, in a list or in its callback. -/
  held : ∀ x, (s.objects x).isSome → s.Due x ∨ ∃ p, s.slots p = some x
  /-- No operation is in two places. -/
  nodup : s.entries.Nodup
  apart : ∀ t c, s.running t = some c → c.op ∉ s.entries
  unique : ∀ t t' c c', s.running t = some c → s.running t' = some c' → c.op = c'.op → t = t'

/-- The slot an operation is going to wait in holds no other one that waits. -/
def Vacant (s : Runtime ι κ τ) : Fate ι → Prop
  | .wait p _ _ => ∀ y, s.slots p = some y → s.refused p = true
  | _ => True

/-- A call or a continuation that fills a slot finds it vacant; the callback that returns is not one
of `recv_op::on_post`; and the slot an event is reported for has not kept an operation whose
registration failed. -/
def KeepsOneOwner [DecidableEq κ] (s : Runtime ι κ τ) : RuntimeEvent ι κ τ → Prop
  | .asyn r a => s.Vacant (r.begin a).2
  | .event p _ _ => s.refused p = false
  | .dispatch _ a => ∀ x l obj r, s.completedOps = .op x :: l → s.objects x = some obj →
    obj.complete s.files a = some r → s.Vacant r.2.2
  | .finish t => ∀ c, s.running t = some c → c.deletes = true
  | .work _ => True

/-! ### One pointer to an operation -/

/-- How the slots and the objects go together, where `due` are the operations with a pointer
elsewhere: in a list, with a thread, or in the hand of the function that runs. -/
structure Wired (s : Runtime ι κ τ) (due : ℕ → Prop) : Prop where
  fresh : ∀ x, s.nextId ≤ x → s.objects x = none ∧ s.returned x = 0 ∧ s.deleted x = 0
  once : ∀ x < s.nextId,
    ((s.objects x).isSome ∧ s.returned x = 0 ∧ s.deleted x = 0) ∨
      (s.objects x = none ∧ s.returned x = 1 ∧ s.deleted x = 1)
  live : ∀ x, due x → (s.objects x).isSome
  held : ∀ x, (s.objects x).isSome → due x ∨ ∃ p, s.slots p = some x
  lt : ∀ p x, s.slots p = some x → x < s.nextId
  home : ∀ p x obj, s.slots p = some x → s.objects x = some obj → obj.home = some p
  /-- An operation that has been registered is in its slot only. -/
  waiting : ∀ p x, s.slots p = some x → s.refused p = false → (s.objects x).isSome ∧ ¬due x
  /-- An operation that could not be registered is elsewhere, or gone. -/
  refused : ∀ p, s.refused p = true → ∃ x, s.slots p = some x ∧ (s.objects x = none ∨ due x)

/-- The pointers in lists and with threads, and the one in the hand of the function that runs, are
to different operations. -/
structure Single (s : Runtime ι κ τ) (hand : Option ℕ) : Prop where
  nodup : s.entries.Nodup
  apart : ∀ t c, s.running t = some c → c.op ∉ s.entries
  unique : ∀ t t' c c', s.running t = some c → s.running t' = some c' → c.op = c'.op → t = t'
  hand : ∀ x, hand = some x → ¬s.Due x

/-- What holds between the steps, and inside one while an operation is in the hand of the function
that runs. -/
structure SingleOwner (s : Runtime ι κ τ) (hand : Option ℕ) : Prop where
  wired : Wired s fun x ↦ s.Due x ∨ hand = some x
  single : Single s hand

variable {hand : Option ℕ} {due due' : ℕ → Prop}

theorem Wired.congr (h : Wired s due) (hdue : ∀ x, due x ↔ due' x) : Wired s due' := by
  obtain rfl : due = due' := funext fun x ↦ propext (hdue x)
  exact h

theorem singleOwner_start (files : κ → OpenFile) :
    SingleOwner (start files : Runtime ι κ τ) none := by
  have hdue : ∀ x, ¬(start files : Runtime ι κ τ).Due x := by
    simp [Due, entries, start]
  constructor
  · constructor <;> simp [start, Due, entries]
  · constructor <;> simp [start, Due, entries]

theorem SingleOwner.disposed (h : SingleOwner s none) : Disposed s where
  once := h.wired.once
  live x hx := h.wired.live x (.inl hx)
  held x hx := (h.wired.held x hx).imp_left fun hd ↦ hd.resolve_right nofun
  nodup := h.single.nodup
  apart := h.single.apart
  unique := h.single.unique

/-! #### Slots and objects -/

theorem Wired.lt_of_isSome (h : Wired s due) (hx : (s.objects x).isSome) : x < s.nextId := by
  by_contra hlt
  rw [(h.fresh x (not_lt.1 hlt)).1] at hx
  cases hx

/-- The fields of the objects do not matter, only which exist and where they wait. -/
theorem Wired.objects {o : ℕ → Option (Object ι κ)} (h : Wired s due)
    (ho : ∀ x, (o x).map Object.home = (s.objects x).map Object.home) :
    Wired { s with objects := o } due := by
  have hsome : ∀ x, (o x).isSome = (s.objects x).isSome := fun x ↦ by
    rw [← Option.isSome_map (f := Object.home), ho, Option.isSome_map]
  have hnone : ∀ x, o x = none ↔ s.objects x = none := fun x ↦ by
    rw [← Option.not_isSome_iff_eq_none, hsome, Option.not_isSome_iff_eq_none]
  exact {
    fresh := fun x hx ↦ ⟨(hnone x).2 (h.fresh x hx).1, (h.fresh x hx).2⟩
    once := fun x hx ↦ (h.once x hx).imp
      (fun ⟨h1, h2⟩ ↦ ⟨(hsome x).trans h1, h2⟩) fun ⟨h1, h2⟩ ↦ ⟨(hnone x).2 h1, h2⟩
    live := fun x hx ↦ (hsome x).trans (h.live x hx)
    held := fun x hx ↦ h.held x ((hsome x).symm.trans hx)
    lt := h.lt
    home := by
      intro p x obj hp hobj
      have hx := ho x
      rw [show o x = some obj from hobj, Option.map_some] at hx
      obtain ⟨obj', hobj', hhome⟩ := Option.map_eq_some_iff.1 hx.symm
      rw [← hhome]
      exact h.home p x obj' hp hobj'
    waiting := fun p x hp hr ↦ ⟨(hsome x).trans (h.waiting p x hp hr).1, (h.waiting p x hp hr).2⟩
    refused := fun p hr ↦ (h.refused p hr).imp fun x hx ↦ ⟨hx.1, hx.2.imp_left (hnone x).2⟩ }

theorem Wired.modify (h : Wired s due) (x : ℕ) (f : Operation → Operation) :
    Wired (s.modify x f) due := by
  refine h.objects fun z ↦ ?_
  rcases eq_or_ne z x with rfl | hzx
  · rw [Function.update_self, Option.map_map]
    exact congrArg (Option.map · _) (funext fun obj ↦ obj.home_modify f)
  · rw [Function.update_of_ne hzx]

theorem Wired.store {obj obj' : Object ι κ} (h : Wired s due) (hx : s.objects x = some obj)
    (hhome : obj'.home = obj.home) : Wired (s.store x obj') due := by
  refine h.objects fun z ↦ ?_
  rcases eq_or_ne z x with rfl | hzx
  · rw [Function.update_self, hx, Option.map_some, Option.map_some, hhome]
  · rw [Function.update_of_ne hzx]

/-- A new object. -/
theorem Wired.create (h : Wired s due) (obj : Object ι κ) :
    Wired ({ s with nextId := s.nextId + 1 }.store s.nextId obj)
      fun z ↦ due z ∨ z = s.nextId := by
  have hself : (({ s with nextId := s.nextId + 1 } : Runtime ι κ τ).store s.nextId obj).objects
      s.nextId = some obj := Function.update_self ..
  have hother : ∀ {z}, z ≠ s.nextId → (({ s with nextId := s.nextId + 1 } : Runtime ι κ τ).store
      s.nextId obj).objects z = s.objects z := fun hz ↦ Function.update_of_ne hz ..
  have hne : ∀ {p z}, s.slots p = some z → z ≠ s.nextId := fun hz ↦ (h.lt _ _ hz).ne
  exact {
    fresh := by
      intro z hz
      have hz : s.nextId < z := hz
      rw [hother hz.ne']
      exact h.fresh z hz.le
    once := by
      intro z hz
      rcases eq_or_ne z s.nextId with rfl | hzx
      · exact .inl ⟨by rw [hself]; rfl, (h.fresh _ le_rfl).2⟩
      · rw [hother hzx]
        exact h.once z (lt_of_le_of_ne (Nat.lt_succ_iff.1 hz) hzx)
    live := by
      intro z hz
      rcases eq_or_ne z s.nextId with rfl | hzx
      · rw [hself]
        rfl
      · rw [hother hzx]
        exact h.live z (hz.resolve_right hzx)
    held := by
      intro z hz
      rcases eq_or_ne z s.nextId with rfl | hzx
      · exact .inl (.inr rfl)
      · rw [hother hzx] at hz
        exact (h.held z hz).imp_left .inl
    lt := fun p z hz ↦ (h.lt p z hz).trans (Nat.lt_succ_self _)
    home := by
      intro p z obj' hz hobj
      rw [hother (hne hz)] at hobj
      exact h.home p z obj' hz hobj
    waiting := by
      intro p z hz hr
      rw [hother (hne hz)]
      obtain ⟨hsome, hdue⟩ := h.waiting p z hz hr
      exact ⟨hsome, fun hd ↦ hd.elim hdue (hne hz)⟩
    refused := by
      intro p hr
      obtain ⟨z, hz, hgone⟩ := h.refused p hr
      refine ⟨z, hz, ?_⟩
      rw [hother (hne hz)]
      exact hgone.imp_right .inl }

section Slots

variable [DecidableEq ι]

theorem slots_fill_self (s : Runtime ι κ τ) (p : ι × Dir) (x : Option ℕ) (r : Bool) :
    (s.fill p x r).slots p = x :=
  Function.update_self ..

theorem slots_fill_of_ne (s : Runtime ι κ τ) (x : Option ℕ) (r : Bool) (hqp : q ≠ p) :
    (s.fill p x r).slots q = s.slots q :=
  Function.update_of_ne hqp ..

theorem refused_fill_self (s : Runtime ι κ τ) (p : ι × Dir) (x : Option ℕ) (r : Bool) :
    (s.fill p x r).refused p = r :=
  Function.update_self ..

theorem refused_fill_of_ne (s : Runtime ι κ τ) (x : Option ℕ) (r : Bool) (hqp : q ≠ p) :
    (s.fill p x r).refused q = s.refused q :=
  Function.update_of_ne hqp ..

omit [DecidableEq ι] in
/-- What is in a slot that has been refused is elsewhere as well. -/
theorem Wired.due_of_refused (h : Wired s due) (hp : s.slots p = some x) (hr : s.refused p = true)
    (hx : (s.objects x).isSome) : due x := by
  obtain ⟨y, hy, hgone⟩ := h.refused p hr
  obtain rfl := Option.some.inj (hp.symm.trans hy)
  exact hgone.resolve_left fun hnone ↦ by rw [hnone] at hx; cases hx

/-- A vacant slot is filled, with an operation of its own. What is in hand may be left there. -/
theorem Wired.fill {obj : Object ι κ} {r : Bool} (h : Wired s due) (hx : s.objects x = some obj)
    (hp : obj.home = some p) (hvacant : ∀ y, s.slots p = some y → s.refused p = true)
    (hsub : ∀ z, due' z → due z) (hdue : ∀ z, due z → due' z ∨ z = x)
    (hr : r = true ↔ due' x) : Wired (s.fill p (some x) r) due' := by
  have hslot : ∀ {q z}, (s.fill p (some x) r).slots q = some z →
      q = p ∧ z = x ∨ q ≠ p ∧ s.slots q = some z := by
    intro q z hz
    rcases eq_or_ne q p with rfl | hqp
    · rw [slots_fill_self] at hz
      exact .inl ⟨rfl, (Option.some.inj hz).symm⟩
    · rw [slots_fill_of_ne _ _ _ hqp] at hz
      exact .inr ⟨hqp, hz⟩
  exact {
    fresh := h.fresh
    once := h.once
    live := fun z hz ↦ h.live z (hsub z hz)
    held := by
      intro z hz
      have hcases : due z → due' z ∨ ∃ q, (s.fill p (some x) r).slots q = some z := fun hd ↦
        (hdue z hd).imp_right fun hzx ↦ ⟨p, by rw [slots_fill_self, hzx]⟩
      rcases h.held z hz with hd | ⟨q, hq⟩
      · exact hcases hd
      · rcases eq_or_ne q p with rfl | hqp
        · exact hcases (h.due_of_refused hq (hvacant z hq) hz)
        · exact .inr ⟨q, (slots_fill_of_ne _ _ _ hqp).trans hq⟩
    lt := by
      intro q z hz
      obtain ⟨-, rfl⟩ | ⟨-, hz⟩ := hslot hz
      · exact h.lt_of_isSome (by rw [hx]; rfl)
      · exact h.lt q z hz
    home := by
      intro q z obj' hz hobj
      obtain ⟨rfl, rfl⟩ | ⟨-, hz⟩ := hslot hz
      · obtain rfl := Option.some.inj (hx.symm.trans hobj)
        exact hp
      · exact h.home q z obj' hz hobj
    waiting := by
      intro q z hz hq
      obtain ⟨rfl, rfl⟩ | ⟨hqp, hz⟩ := hslot hz
      · rw [refused_fill_self] at hq
        refine ⟨by rw [show (s.fill q (some z) r).objects z = _ from hx]; rfl, fun hd ↦ ?_⟩
        rw [hr.2 hd] at hq
        cases hq
      · rw [refused_fill_of_ne _ _ _ hqp] at hq
        exact ⟨(h.waiting q z hz hq).1, fun hd ↦ (h.waiting q z hz hq).2 (hsub z hd)⟩
    refused := by
      intro q hq
      rcases eq_or_ne q p with rfl | hqp
      · rw [refused_fill_self] at hq
        exact ⟨x, slots_fill_self .., .inr (hr.1 hq)⟩
      · rw [refused_fill_of_ne _ _ _ hqp] at hq
        obtain ⟨z, hz, hgone⟩ := h.refused q hq
        refine ⟨z, (slots_fill_of_ne _ _ _ hqp).trans hz, hgone.imp_right fun hd ↦ ?_⟩
        refine (hdue z hd).resolve_right ?_
        -- an operation has one slot
        rintro rfl
        exact hqp (Option.some.inj ((h.home q z obj hz hx).symm.trans hp)) }

/-- A slot is emptied. What was waiting there is in hand. -/
theorem Wired.clear (h : Wired s due) (p : ι × Dir) (hsub : ∀ z, due z → due' z)
    (hdue : ∀ z, due' z → due z ∨ s.slots p = some z ∧ s.refused p = false)
    (htaken : ∀ z, s.slots p = some z → s.refused p = true ∨ due' z) :
    Wired (s.fill p none false) due' := by
  have hslot : ∀ {q z}, (s.fill p none false).slots q = some z → q ≠ p ∧ s.slots q = some z := by
    intro q z hz
    rcases eq_or_ne q p with rfl | hqp
    · rw [slots_fill_self] at hz
      cases hz
    · exact ⟨hqp, by rwa [slots_fill_of_ne _ _ _ hqp] at hz⟩
  exact {
    fresh := h.fresh
    once := h.once
    live := by
      intro z hz
      obtain hz | ⟨hz, hr⟩ := hdue z hz
      · exact h.live z hz
      · exact (h.waiting p z hz hr).1
    held := by
      intro z hz
      rcases h.held z hz with hd | ⟨q, hq⟩
      · exact .inl (hsub z hd)
      · rcases eq_or_ne q p with rfl | hqp
        · exact .inl ((htaken z hq).elim (fun hr ↦ hsub z (h.due_of_refused hq hr hz)) id)
        · exact .inr ⟨q, (slots_fill_of_ne _ _ _ hqp).trans hq⟩
    lt := fun q z hz ↦ h.lt q z (hslot hz).2
    home := fun q z obj hz hobj ↦ h.home q z obj (hslot hz).2 hobj
    waiting := by
      intro q z hz hq
      obtain ⟨hqp, hz⟩ := hslot hz
      rw [refused_fill_of_ne _ _ _ hqp] at hq
      obtain ⟨hsome, hnot⟩ := h.waiting q z hz hq
      refine ⟨hsome, fun hd ↦ ?_⟩
      obtain hd | ⟨hz', -⟩ := hdue z hd
      · exact hnot hd
      · obtain ⟨obj, hobj⟩ := Option.isSome_iff_exists.1 hsome
        exact hqp (Option.some.inj ((h.home q z obj hz hobj).symm.trans (h.home p z obj hz' hobj)))
    refused := by
      intro q hq
      rcases eq_or_ne q p with rfl | hqp
      · rw [refused_fill_self] at hq
        cases hq
      · rw [refused_fill_of_ne _ _ _ hqp] at hq
        obtain ⟨z, hz, hgone⟩ := h.refused q hq
        exact ⟨z, (slots_fill_of_ne _ _ _ hqp).trans hz, hgone.imp_right (hsub z)⟩ }

end Slots

/-! #### Lists and threads -/

/-- The front of a list is taken. -/
theorem Single.pop (h : Single s none) (hp : s.entries.Perm (x :: s'.entries))
    (hrun : s'.running = s.running) : Single s' (some x) := by
  obtain ⟨hx, hnodup⟩ := List.nodup_cons.1 (hp.nodup_iff.1 h.nodup)
  have hmem : ∀ {z}, z ∈ s'.entries → z ∈ s.entries :=
    fun hz ↦ hp.mem_iff.2 (List.mem_cons_of_mem _ hz)
  exact {
    nodup := hnodup
    apart := fun t c hc hm ↦ h.apart t c (hrun ▸ hc) (hmem hm)
    unique := fun t t' c c' hc hc' ↦ h.unique t t' c c' (hrun ▸ hc) (hrun ▸ hc')
    hand := by
      rintro z ⟨⟩ (hz | ⟨t, c, hc, rfl⟩)
      · exact hx hz
      · exact h.apart t c (hrun ▸ hc) (hp.mem_iff.2 List.mem_cons_self) }

/-- What is in hand is put into a list. -/
theorem Single.push (h : Single s (some x)) (hp : s'.entries.Perm (x :: s.entries))
    (hrun : s'.running = s.running) : Single s' none := by
  have hx : ¬s.Due x := h.hand x rfl
  exact {
    nodup := hp.nodup_iff.2 (List.nodup_cons.2 ⟨fun hm ↦ hx (.inl hm), h.nodup⟩)
    apart := by
      intro t c hc hm
      rw [hrun] at hc
      obtain hcx | hm := List.mem_cons.1 (hp.mem_iff.1 hm)
      · exact hx (.inr ⟨t, c, hc, hcx⟩)
      · exact h.apart t c hc hm
    unique := fun t t' c c' hc hc' ↦ h.unique t t' c c' (hrun ▸ hc) (hrun ▸ hc')
    hand := by
      rintro z ⟨⟩ }

theorem due_pop (hp : s.entries.Perm (x :: s'.entries)) (hrun : s'.running = s.running) (z : ℕ) :
    s.Due z ∨ none = some z ↔ s'.Due z ∨ some x = some z := by
  rw [Due, Due, hrun, hp.mem_iff, List.mem_cons, Option.some_inj, eq_comm (a := x)]
  simp only [reduceCtorEq, or_false]
  rw [or_assoc]
  exact or_comm

theorem due_push (hp : s'.entries.Perm (x :: s.entries)) (hrun : s'.running = s.running) (z : ℕ) :
    s.Due z ∨ some x = some z ↔ s'.Due z ∨ none = some z :=
  (due_pop hp hrun.symm z).symm

section Threads

variable [DecidableEq τ]

theorem running_call_self (s : Runtime ι κ τ) (t : τ) (c : Callback) :
    (s.call t c).running t = some c :=
  Function.update_self ..

theorem running_call_of_ne (s : Runtime ι κ τ) (c : Callback) {t t' : τ} (ht : t' ≠ t) :
    (s.call t c).running t' = s.running t' :=
  Function.update_of_ne ht ..

/-- A thread calls back for what is in hand. -/
theorem Single.call (h : Single s (some c.op)) (t : τ) : Single (s.call t c) none := by
  have hx : ¬s.Due c.op := h.hand c.op rfl
  have hcases : ∀ {t' c'}, (s.call t c).running t' = some c' →
      t' = t ∧ c' = c ∨ t' ≠ t ∧ s.running t' = some c' := by
    intro t' c' hc
    rcases eq_or_ne t' t with rfl | ht
    · rw [running_call_self] at hc
      exact .inl ⟨rfl, (Option.some.inj hc).symm⟩
    · rw [running_call_of_ne _ _ ht] at hc
      exact .inr ⟨ht, hc⟩
  exact {
    nodup := h.nodup
    apart := by
      intro t' c' hc hm
      obtain ⟨rfl, rfl⟩ | ⟨-, hc⟩ := hcases hc
      · exact hx (.inl hm)
      · exact h.apart t' c' hc hm
    unique := by
      intro t₁ t₂ c₁ c₂ h₁ h₂ heq
      obtain ⟨rfl, rfl⟩ | ⟨-, k₁⟩ := hcases h₁ <;> obtain ⟨rfl, rfl⟩ | ⟨-, k₂⟩ := hcases h₂
      · rfl
      · exact absurd (.inr ⟨t₂, c₂, k₂, heq.symm⟩) hx
      · exact absurd (.inr ⟨t₁, c₁, k₁, heq⟩) hx
      · exact h.unique t₁ t₂ c₁ c₂ k₁ k₂ heq
    hand := by
      rintro z ⟨⟩ }

theorem due_call (hrun : s.running t = none) (c : Callback) (z : ℕ) :
    s.Due z ∨ some c.op = some z ↔ (s.call t c).Due z ∨ none = some z := by
  simp only [Option.some_inj, reduceCtorEq, or_false]
  constructor
  · rintro ((hm | ⟨t', c', hc, rfl⟩) | rfl)
    · exact .inl hm
    · have ht : t' ≠ t := by
        rintro rfl
        rw [hrun] at hc
        cases hc
      exact .inr ⟨t', c', (running_call_of_ne s c ht).trans hc, rfl⟩
    · exact .inr ⟨t, c, running_call_self .., rfl⟩
  · rintro (hm | ⟨t', c', hc, rfl⟩)
    · exact .inl (.inl hm)
    · rcases eq_or_ne t' t with rfl | ht
      · rw [running_call_self] at hc
        exact .inr (congrArg Callback.op (Option.some.inj hc))
      · rw [running_call_of_ne _ _ ht] at hc
        exact .inl (.inr ⟨t', c', hc, rfl⟩)

end Threads

end JnetLib.Epoll.Runtime
