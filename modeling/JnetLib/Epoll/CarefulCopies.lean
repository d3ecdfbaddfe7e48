import JnetLib.Epoll.Masks

/-!
# Old copies that are followed by another

What holds along a run in which no old copy of the mask is installed without another one to follow
in time. `Wired` says of the slot and the bit of each direction how they are filled and emptied, one
after the other; and of a bit that differs from what the kernel has installed, that somebody is on
the way with a newer copy.

`Wired.step` is one lemma for each step of a call and one for each step of the demultiplexing
thread. A careful step is needed only where a copy is installed; every other step keeps `Wired` in
any case. `Wired.inStep` reads `InStep` off it.
-/

namespace JnetLib.Epoll

namespace Duplex

variable {α ω : Type*} [DecidableEq α]

/-- Slot and bit of a direction are both empty, or filled one after the other by a call, or filled,
or emptied one after the other by the demultiplexing thread. A bit that differs from what the kernel
has installed is on its way there. -/
structure Wired (s : Duplex α ω) : Prop where
  /-- Only so many calls are under way. -/
  finite : {a | s.calls a ≠ .idle}.Finite
  stored : ∀ a d, s.calls a = .stored d → s.slots d ≠ none ∧ s.mask d = false
  unique : ∀ a b d, s.calls a = .stored d → s.calls b = .stored d → a = b
  filling : ∀ d, s.slots d ≠ none → s.mask d = false → ∃ a, s.calls a = .stored d
  emptying : ∀ d, s.slots d = none → s.mask d → s.demux.Takes d
  pending : ∀ d ∈ s.demux.pending, s.slots d ≠ none ∧ s.mask d
  nodup : s.demux.pending.Nodup
  handled : ∀ d, s.demux.handling = some d → s.slots d = none
  takes : ∀ d, s.demux.Takes d → s.mask d
  taken : ∀ d x l, s.demux = .taken d x l → x ≠ none
  copied : ∀ d m x l, s.demux = .copied d m x l → ∀ e, m e → s.mask e
  /-- A set bit the kernel does not know of. -/
  set : ∀ d, s.mask d → ¬s.interest d → (∃ a, (s.calls a).Brings d) ∨ s.demux.Brings d
  /-- A cleared bit the kernel still has. -/
  cleared : ∀ d, s.interest d → ¬s.mask d → s.demux.Installs

variable {s s' : Duplex α ω} {a b : α} {d e : Dir} {c : Arming} {x : Option ω} {l : List Dir}
  {m : Dir → Bool}

omit [DecidableEq α] in
theorem wired_start : Wired (start : Duplex α ω) := by
  constructor <;> simp [start, Demux.pending, Demux.handling, Demux.Takes]

omit [DecidableEq α] in
theorem handling_of_takes {p : Demux ω} (h : p.Takes d) : p.handling = some d := by
  cases p with
  | taken e x l => exact congrArg some h
  | waiting | events | cleared | copied | posting => cases h

/-! #### The calls -/

@[simp]
theorem calls_goCall_self (s : Duplex α ω) (a : α) (c : Arming) : (s.goCall a c).calls a = c :=
  Function.update_self ..

theorem calls_goCall_of_ne (s : Duplex α ω) (c : Arming) (hba : b ≠ a) :
    (s.goCall a c).calls b = s.calls b :=
  Function.update_of_ne hba ..

/-- Moving a call that is behind filling its slot leaves the others as they are. -/
theorem calls_goCall_eq_stored (ha : ∀ e, s.calls a ≠ .stored e) (hc : ∀ e, c ≠ .stored e) :
    (s.goCall a c).calls b = .stored e ↔ s.calls b = .stored e := by
  rcases eq_or_ne b a with rfl | hba
  · rw [calls_goCall_self]
    exact iff_of_false (hc e) (ha e)
  · rw [calls_goCall_of_ne s c hba]

/-- A bit some call brings is still brought when a call moves, unless it was that call's alone. -/
theorem exists_brings_goCall (h : ∃ b, (s.calls b).Brings e)
    (hc : (s.calls a).Brings e → c.Brings e) : ∃ b, ((s.goCall a c).calls b).Brings e := by
  obtain ⟨b, hb⟩ := h
  rcases eq_or_ne b a with rfl | hba
  · exact ⟨b, by rw [calls_goCall_self]; exact hc hb⟩
  · exact ⟨b, by rwa [calls_goCall_of_ne s c hba]⟩

theorem finite_goCall (h : {b | s.calls b ≠ .idle}.Finite) (a : α) (c : Arming) :
    {b | (s.goCall a c).calls b ≠ .idle}.Finite := by
  refine (h.insert a).subset fun b hb ↦ ?_
  rcases eq_or_ne b a with rfl | hba
  · exact .inl rfl
  · rw [Set.mem_ofPred_eq, calls_goCall_of_ne s c hba] at hb
    exact .inr hb

omit [DecidableEq α] in
@[simp]
theorem slots_setOp_self (s : Duplex α ω) (d : Dir) (x : Option ω) : (s.setOp d x).slots d = x :=
  Function.update_self ..

omit [DecidableEq α] in
theorem slots_setOp_of_ne (s : Duplex α ω) (x : Option ω) (hed : e ≠ d) :
    (s.setOp d x).slots e = s.slots e :=
  Function.update_of_ne hed ..

omit [DecidableEq α] in
@[simp]
theorem mask_setMask_self (s : Duplex α ω) (d : Dir) (b : Bool) : (s.setMask d b).mask d = b :=
  Function.update_self ..

omit [DecidableEq α] in
theorem mask_setMask_of_ne (s : Duplex α ω) (b : Bool) (hed : e ≠ d) :
    (s.setMask d b).mask e = s.mask e :=
  Function.update_of_ne hed ..

theorem Wired.begin {x : ω} (h : Wired s) (ha : s.calls a = .idle) (hd : s.slots d = none)
    (hh : s.demux.handling ≠ some d) : Wired ((s.setOp d (some x)).goCall a (.stored d)) := by
  have hmask : s.mask d = false := by
    by_contra hm
    exact hh (handling_of_takes (h.emptying d hd (by simpa using hm)))
  have hnone : ∀ b, s.calls b ≠ .stored d := fun b hb ↦ (h.stored b d hb).1 hd
  -- a call of another direction is where it was
  have hother : ∀ {b e}, ((s.setOp d (some x)).goCall a (.stored d)).calls b = .stored e → e ≠ d →
      s.calls b = .stored e ∧ b ≠ a := by
    intro b e hb hed
    rcases eq_or_ne b a with rfl | hba
    · rw [calls_goCall_self] at hb
      exact absurd (Arming.stored.inj hb).symm hed
    · rw [calls_goCall_of_ne _ _ hba] at hb
      exact ⟨hb, hba⟩
  have hsame : ∀ {b}, ((s.setOp d (some x)).goCall a (.stored d)).calls b = .stored d → b = a := by
    intro b hb
    by_contra hba
    rw [calls_goCall_of_ne _ _ hba] at hb
    exact hnone b hb
  have hslot : ∀ {e}, (s.setOp d (some x)).slots e = none → e ≠ d ∧ s.slots e = none := by
    intro e he
    rcases eq_or_ne e d with rfl | hed
    · rw [slots_setOp_self] at he
      cases he
    · exact ⟨hed, by rwa [slots_setOp_of_ne _ _ hed] at he⟩
  exact { h with
    finite := finite_goCall h.finite a _
    stored := by
      intro b e hb
      rcases eq_or_ne e d with rfl | hed
      · exact ⟨fun he ↦ (hslot he).1 rfl, hmask⟩
      · obtain ⟨hne, hm⟩ := h.stored b e (hother hb hed).1
        exact ⟨fun he ↦ hne (hslot he).2, hm⟩
    unique := by
      intro b c e hb hc
      rcases eq_or_ne e d with rfl | hed
      · rw [hsame hb, hsame hc]
      · exact h.unique b c e (hother hb hed).1 (hother hc hed).1
    filling := by
      intro e he hm
      rcases eq_or_ne e d with rfl | hed
      · exact ⟨a, calls_goCall_self ..⟩
      · obtain ⟨b, hb⟩ := h.filling e (by rwa [← slots_setOp_of_ne s (some x) hed]) hm
        have hba : b ≠ a := by
          rintro rfl
          rw [ha] at hb
          cases hb
        exact ⟨b, by rwa [calls_goCall_of_ne _ _ hba]⟩
    emptying := fun e he hm ↦ h.emptying e (hslot he).2 hm
    pending := fun e he ↦ ⟨fun hn ↦ (h.pending e he).1 (hslot hn).2, (h.pending e he).2⟩
    handled := by
      intro e he
      have hed : e ≠ d := fun hed ↦ hh (hed ▸ he)
      exact (slots_setOp_of_ne s _ hed).trans (h.handled e he)
    set := fun e hm hi ↦ (h.set e hm hi).imp_left fun hb ↦ exists_brings_goCall hb fun _ ↦ trivial }

/-- A call sets the bit of its direction. -/
theorem Wired.mark (h : Wired s) (ha : s.calls a = .stored d) :
    Wired ((s.setMask d true).goCall a (.marked d)) := by
  obtain ⟨hslot, hmask⟩ := h.stored a d ha
  have hstored : ∀ {b e}, ((s.setMask d true).goCall a (.marked d)).calls b = .stored e →
      s.calls b = .stored e ∧ e ≠ d := by
    intro b e hb
    rcases eq_or_ne b a with rfl | hba
    · rw [calls_goCall_self] at hb
      cases hb
    · rw [calls_goCall_of_ne _ _ hba] at hb
      exact ⟨hb, fun hed ↦ hba (h.unique b a d (hed ▸ hb) ha)⟩
  have hset : ∀ {e}, s.mask e → (s.setMask d true).mask e := by
    intro e he
    rcases eq_or_ne e d with rfl | hed
    · exact mask_setMask_self ..
    · rwa [mask_setMask_of_ne _ _ hed]
  exact { h with
    finite := finite_goCall h.finite a _
    stored := by
      intro b e hb
      obtain ⟨hb, hed⟩ := hstored hb
      obtain ⟨hne, hm⟩ := h.stored b e hb
      exact ⟨hne, (mask_setMask_of_ne s true hed).trans hm⟩
    unique := fun b c e hb hc ↦ h.unique b c e (hstored hb).1 (hstored hc).1
    filling := by
      intro e he hm
      have hed : e ≠ d := by
        rintro rfl
        exact Bool.noConfusion ((mask_setMask_self s e true).symm.trans hm)
      obtain ⟨b, hb⟩ := h.filling e he (by rwa [← mask_setMask_of_ne s true hed])
      have hba : b ≠ a := by
        rintro rfl
        exact hed (Arming.stored.inj (hb.symm.trans ha))
      exact ⟨b, by rwa [calls_goCall_of_ne _ _ hba]⟩
    emptying := by
      intro e he hm
      have hed : e ≠ d := fun hed ↦ hslot (hed ▸ he)
      exact h.emptying e he (by rwa [← mask_setMask_of_ne s true hed])
    pending := fun e he ↦ ⟨(h.pending e he).1, hset (h.pending e he).2⟩
    takes := fun e he ↦ hset (h.takes e he)
    copied := fun e m x l hp b hb ↦ hset (h.copied e m x l hp b hb)
    set := fun _ _ _ ↦ .inl ⟨a, by rw [calls_goCall_self]; trivial⟩
    cleared := fun e hi hm ↦ h.cleared e hi fun he ↦ hm (hset he) }

/-- A call behind that copies the mask, or installs its copy. Only what it brings is affected. -/
theorem Wired.moveCall (h : Wired s) (ha : ∀ e, s.calls a ≠ .stored e) (hc : ∀ e, c ≠ .stored e)
    (hset : ∀ e, s.mask e → ¬m e →
      (∃ b, ((s.goCall a c).calls b).Brings e) ∨ s.demux.Brings e)
    (hcleared : ∀ e, m e → ¬s.mask e → s.demux.Installs) : Wired ((s.install m).goCall a c) := by
  have hstored : ∀ {b e}, ((s.install m).goCall a c).calls b = .stored e ↔ s.calls b = .stored e :=
    calls_goCall_eq_stored (s := s.install m) ha hc
  exact { h with
    finite := finite_goCall (s := s.install m) h.finite a c
    stored := fun b e hb ↦ h.stored b e (hstored.1 hb)
    unique := fun b c e hb hc ↦ h.unique b c e (hstored.1 hb) (hstored.1 hc)
    filling := fun e he hm ↦ (h.filling e he hm).imp fun b hb ↦ hstored.2 hb
    set := hset
    cleared := hcleared }

/-! #### The demultiplexing thread -/

omit [DecidableEq α] in
theorem not_takes_of_handling {p : Demux ω} (h : p.handling = none) : ¬p.Takes e := by
  intro ht
  rw [handling_of_takes ht] at h
  cases h

omit [DecidableEq α] in
/-- The thread goes on without touching slots and masks, and not to a bit it has to clear. -/
theorem Wired.moveDemux {p : Demux ω} (h : Wired s) (hfrom : ∀ e, ¬s.demux.Takes e)
    (hto : ∀ e, ¬p.Takes e) (hpending : ∀ e ∈ p.pending, s.slots e ≠ none ∧ s.mask e)
    (hnodup : p.pending.Nodup) (hhandled : ∀ e, p.handling = some e → s.slots e = none)
    (hcopied : ∀ d m x l, p = .copied d m x l → ∀ e, m e → s.mask e)
    (hset : ∀ e, s.mask e → s.demux.Brings e → p.Brings e)
    (hcleared : s.demux.Installs → p.Installs) : Wired (s.goDemux p) :=
  { h with
    emptying := fun e he hm ↦ absurd (h.emptying e he hm) (hfrom e)
    pending := hpending
    nodup := hnodup
    handled := hhandled
    takes := fun e he ↦ absurd he (hto e)
    taken := by
      rintro d x l rfl
      exact absurd rfl (hto d)
    copied := hcopied
    set := fun e hm hi ↦ (h.set e hm hi).imp_right (hset e hm)
    cleared := fun e hi hm ↦ hcleared (h.cleared e hi hm) }

omit [DecidableEq α] in
/-- The kernel reports only what it waits for, and that is what the mask says. -/
theorem Wired.deliver (h : Wired s) (hp : s.demux = .waiting)
    (hl : l.Sublist [.input, .output]) (hi : ∀ d ∈ l, s.interest d) :
    Wired (s.goDemux (.events l)) := by
  have hidle : ¬s.demux.Installs := by
    rw [hp]
    rintro (h | h)
    · exact h
    · exact h rfl
  have htakes : ∀ e, ¬s.demux.Takes e := fun e ↦ not_takes_of_handling (by rw [hp]; rfl)
  refine h.moveDemux htakes (fun _ ↦ id) (fun e he ↦ ?_) (hl.nodup (by decide))
    (by simp [Demux.handling]) (by simp) (fun e _ hb ↦ ?_) fun hn ↦ absurd hn hidle
  · have hm : s.mask e := by
      by_contra hm
      exact hidle (h.cleared e (hi e he) hm)
    exact ⟨fun hs ↦ htakes e (h.emptying e hs hm), hm⟩
  · rw [hp] at hb
    exact hb

omit [DecidableEq α] in
/-- An operation is taken out of its slot. -/
theorem Wired.take (h : Wired s) (hp : s.demux = .events (d :: l)) :
    Wired ((s.setOp d none).goDemux (.taken d (s.slots d) l)) := by
  have hpending : s.demux.pending = d :: l := by rw [hp]; rfl
  obtain ⟨hslot, hmask⟩ := h.pending d (by rw [hpending]; exact List.mem_cons_self)
  obtain ⟨hd, hl⟩ := List.nodup_cons.1 (hpending ▸ h.nodup)
  have htakes : ∀ e, ¬s.demux.Takes e := fun e ↦ not_takes_of_handling (by rw [hp]; rfl)
  have hother : ∀ {e}, (s.setOp d none).slots e ≠ none → e ≠ d := by
    rintro e he rfl
    exact he (slots_setOp_self ..)
  exact { h with
    stored := by
      intro b e hb
      obtain ⟨hne, hm⟩ := h.stored b e hb
      have hed : e ≠ d := by
        rintro rfl
        exact Bool.noConfusion (hmask.symm.trans hm)
      exact ⟨by rwa [← slots_setOp_of_ne s none hed] at hne, hm⟩
    filling := fun e he hm ↦
      h.filling e (by rwa [← slots_setOp_of_ne s none (hother he)]) hm
    emptying := by
      intro e he hm
      rcases eq_or_ne e d with rfl | hed
      · exact rfl
      · exact absurd (h.emptying e ((slots_setOp_of_ne s none hed).symm.trans he) hm) (htakes e)
    pending := by
      intro e he
      have hed : e ≠ d := fun hed ↦ hd (hed ▸ he)
      obtain ⟨hne, hm⟩ := h.pending e (by rw [hpending]; exact List.mem_cons_of_mem _ he)
      exact ⟨by rwa [← slots_setOp_of_ne s none hed] at hne, hm⟩
    nodup := hl
    handled := by
      rintro e ⟨⟩
      exact slots_setOp_self ..
    takes := by
      rintro e rfl
      exact hmask
    taken := by
      rintro e x k ⟨⟩
      exact hslot
    copied := by
      rintro e m x k ⟨⟩
    set := fun _ _ _ ↦ .inr trivial
    cleared := fun _ _ _ ↦ .inl trivial }

omit [DecidableEq α] in
/-- The operation of an event has been taken, and its bit is cleared. -/
theorem Wired.clear (h : Wired s) (hp : s.demux = .taken d x l) :
    Wired ((s.setMask d false).goDemux (.cleared d x l)) := by
  have hslot : s.slots d = none := h.handled d (by rw [hp]; rfl)
  have hmask : ∀ {e}, (s.setMask d false).mask e → e ≠ d ∧ s.mask e := by
    intro e he
    rcases eq_or_ne e d with rfl | hed
    · exact Bool.noConfusion ((mask_setMask_self s e false).symm.trans he)
    · exact ⟨hed, by rwa [mask_setMask_of_ne _ _ hed] at he⟩
  exact { h with
    stored := by
      intro b e hb
      obtain ⟨hne, hm⟩ := h.stored b e hb
      refine ⟨hne, Bool.eq_false_iff.2 fun he ↦ ?_⟩
      exact Bool.noConfusion ((hmask he).2.symm.trans hm)
    filling := by
      intro e he hm
      have hed : e ≠ d := by
        rintro rfl
        exact he hslot
      exact h.filling e he ((mask_setMask_of_ne s false hed).symm.trans hm)
    emptying := by
      intro e he hm
      obtain ⟨hed, hm⟩ := hmask hm
      have := h.emptying e he hm
      rw [hp] at this
      exact absurd this.symm hed
    pending := by
      intro e he
      obtain ⟨hne, hm⟩ := h.pending e (by rw [hp]; exact he)
      have hed : e ≠ d := by
        rintro rfl
        exact hne hslot
      exact ⟨hne, (mask_setMask_of_ne s false hed).trans hm⟩
    nodup := by
      have := h.nodup
      rw [hp] at this
      exact this
    handled := by
      rintro e ⟨⟩
      exact hslot
    takes := fun _ he ↦ he.elim
    taken := by
      rintro e x k ⟨⟩
    copied := by
      rintro e m x k ⟨⟩
    set := fun _ _ _ ↦ .inr trivial
    cleared := fun _ _ _ ↦ .inl trivial }

omit [DecidableEq α] in
/-- The copy is installed. -/
theorem Wired.installed (h : Wired s) (hp : s.demux = .copied d m x l)
    (hset : ∀ e, s.mask e → ¬m e → ∃ a, (s.calls a).Brings e) :
    Wired ((s.install m).goDemux (.posting d x l)) := by
  have htakes : ∀ e, ¬s.demux.Takes e := by
    rw [hp]
    exact fun _ ↦ id
  exact { h with
    emptying := fun e he hm ↦ absurd (h.emptying e he hm) (htakes e)
    pending := fun e he ↦ h.pending e (by rw [hp]; exact he)
    nodup := by
      have := h.nodup
      rw [hp] at this
      exact this
    handled := fun e he ↦ h.handled e (by rw [hp]; exact he)
    takes := fun _ he ↦ he.elim
    taken := by
      rintro e x k ⟨⟩
    copied := by
      rintro e m x k ⟨⟩
    set := fun e hm hi ↦ .inl (hset e hm hi)
    -- the copy has no bit the mask has not, since only this thread clears bits
    cleared := fun e hi hm ↦ absurd (h.copied d m x l hp e hi) hm }

theorem Wired.stepCall (h : Wired s) (hok : InstallsCarefully s (.call a : DuplexEvent α ω))
    (hs : s.stepCall a = some s') : Wired s' := by
  rw [Duplex.stepCall] at hs
  split at hs
  case h_1 => cases hs
  case h_2 d ha =>
    rw [if_neg (by simp [(h.stored a d ha).2])] at hs
    exact Option.some.inj hs ▸ h.mark ha
  case h_3 d ha =>
    obtain rfl := Option.some.inj hs
    refine h.moveCall (m := s.interest) (by simp [ha]) (by simp) (fun e hm hi ↦ ?_) h.cleared
    exact .inl ⟨a, by rw [calls_goCall_self]; exact hm⟩
  case h_4 d m ha =>
    obtain rfl := Option.some.inj hs
    rw [InstallsCarefully, ha] at hok
    refine h.moveCall (by simp [ha]) (by simp) (fun e hm hi ↦ ?_) hok.2
    refine (hok.1 e hm hi).imp_left fun ⟨b, hba, hb⟩ ↦ ⟨b, ?_⟩
    rwa [calls_goCall_of_ne _ _ hba]

omit [DecidableEq α] in
theorem Wired.stepDemux (h : Wired s) (hok : InstallsCarefully s (.demux : DuplexEvent α ω))
    (hs : s.stepDemux = some s') : Wired s' := by
  rw [Duplex.stepDemux] at hs
  split at hs
  case h_1 => cases hs
  case h_2 hp =>
    obtain rfl := Option.some.inj hs
    refine h.moveDemux (by simp [hp, Demux.Takes]) (fun _ ↦ id) (by simp [Demux.pending])
      List.nodup_nil (by simp [Demux.handling]) (by simp) (by simp [hp, Demux.Brings]) ?_
    simp [hp, Demux.Installs, Demux.Clearing, Demux.pending]
  case h_3 d l hp => exact Option.some.inj hs ▸ h.take hp
  case h_4 d x l hp =>
    rw [if_pos (h.takes d (by rw [hp]; rfl))] at hs
    exact Option.some.inj hs ▸ h.clear hp
  case h_5 d x l hp =>
    obtain rfl := Option.some.inj hs
    refine h.moveDemux (by simp [hp, Demux.Takes]) (fun _ ↦ id) (fun e he ↦ ?_) ?_
      (fun e he ↦ ?_) ?_ (fun e hm _ ↦ hm) fun _ ↦ .inl trivial
    · exact h.pending e (by rw [hp]; exact he)
    · have := h.nodup
      rwa [hp] at this
    · exact h.handled e (by rw [hp]; exact he)
    · rintro e m x k ⟨⟩ b hb
      exact hb
  case h_6 d m x l hp =>
    rw [InstallsCarefully, hp] at hok
    exact Option.some.inj hs ▸ h.installed hp hok
  case h_7 d x l hp =>
    obtain rfl := Option.some.inj hs
    refine h.moveDemux (by simp [hp, Demux.Takes]) (fun _ ↦ id) (fun e he ↦ ?_) ?_
      (by simp [Demux.handling]) (by simp) (by simp [hp, Demux.Brings]) ?_
    · exact h.pending e (by rw [hp]; exact he)
    · have := h.nodup
      rwa [hp] at this
    · rintro (hc | hc)
      · rw [hp] at hc
        exact hc.elim
      · exact .inr (by rwa [hp] at hc)

/-- Every careful step keeps it. -/
theorem Wired.step {ev : DuplexEvent α ω} (h : Wired s) (hok : InstallsCarefully s ev)
    (hs : step s ev = some s') : Wired s' := by
  cases ev with
  | start a d x =>
    rw [Duplex.step] at hs
    split at hs
    case h_1 ha hd =>
      split at hs
      case isTrue => cases hs
      case isFalse hh => exact Option.some.inj hs ▸ h.begin ha hd hh
    case h_2 => cases hs
  | call a => exact h.stepCall hok hs
  | deliver l =>
    rw [Duplex.step] at hs
    split at hs
    case h_1 hp =>
      split at hs
      case isTrue hl => exact Option.some.inj hs ▸ h.deliver hp hl.1 hl.2
      case isFalse => cases hs
    case h_2 => cases hs
  | demux => exact h.stepDemux hok hs

omit [DecidableEq α] in
theorem Wired.inStep (h : Wired s) : InStep s where
  armed := by
    intro hcalls hclear d hslot
    have hmask : s.mask d := by
      by_contra hm
      obtain ⟨a, ha⟩ := h.filling d hslot (by simpa using hm)
      rw [hcalls a] at ha
      cases ha
    refine ⟨hmask, by_contra fun hi ↦ ?_⟩
    -- nobody is on the way with the bit
    obtain ⟨a, ha⟩ | hb := h.set d hmask hi
    · rw [hcalls a] at ha
      exact ha
    · apply hclear
      revert hb
      cases s.demux <;> simp [Demux.Brings, Demux.Clearing]
  delivered := by
    intro hp d hi hslot
    have hmask : s.mask d := by
      by_contra hm
      have := h.cleared d hi hm
      simp [hp, Demux.Installs, Demux.Clearing, Demux.pending] at this
    have := h.emptying d hslot hmask
    rw [hp] at this
    exact this
  taken := h.taken

end Duplex

end JnetLib.Epoll
