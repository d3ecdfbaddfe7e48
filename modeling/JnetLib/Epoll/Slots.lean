import JnetLib.Epoll.Service

/-!
# Slots, masks and interest

What the accesses of the threads to the slots and masks of the sockets have to do with each other. A
slot is filled before the operation is counted and the mask bit set after that, and the thread that
takes an operation out of a slot clears the bit and tells the kernel before it posts the operation.
`Wired` says how the slots, the masks, the interest and the places of the threads go together.

The threads that are at work on events are all one (`Wired.work`): `do_one` lets a single thread
poll. So the bit a thread clears is that of the operation it has taken, and nobody sets it in
between, as long as nobody fills a slot that is not free. `wired_posted`, `wired_clear` and
`wired_cleared` are its way from an event to `completed_ops_`.
-/

namespace JnetLib.Epoll

variable {ι τ : Type*}

/-- The events a thread has still to look at. -/
def Place.todo : Place ι → List (ι × Dir)
  | .events l => l
  | .taken _ _ l => l
  | .cleared _ _ l => l
  | .posting _ l => l
  | _ => []

/-- The thread asks for events or is at work on them. -/
def Place.busy : Place ι → Bool
  | .polling => true
  | .events [] => false
  | .events (_ :: _) => true
  | .taken _ _ _ => true
  | .cleared _ _ _ => true
  | .posting _ _ => true
  | _ => false

/-- How slots, masks, interest and threads go together. The kernel is asked only for what the mask
says, the mask has a bit set only where there is an operation that has been counted, and one thread
at a time, which works for the whole service, turns events into completions. -/
structure Wired (mask interest : ι × Dir → Bool) (slots : ι × Dir → Option (Submission ι))
    (places : τ → Place ι) (calls : τ → Call ι) (demux : Option τ) : Prop where
  target : ∀ p x, slots p = some x → x.target = .slot p
  stored : ∀ t x, calls t = .stored x → ∃ p, x.target = .slot p
  call : ∀ t x p, calls t = .stored x ∨ calls t = .counted x → x.target = .slot p →
    slots p = some x ∧ mask p = false
  unique : ∀ t u x p, calls t = .stored x ∨ calls t = .counted x →
    calls u = .stored x ∨ calls u = .counted x → x.target = .slot p → t = u
  marked : ∀ p, mask p = true → (∃ x, slots p = some x) ∨ ∃ t x l, places t = .taken p x l
  asked : ∀ p, interest p = true → mask p = true ∨ ∃ t x l, places t = .cleared p x l
  taken : ∀ t p x l, places t = .taken p x l →
    slots p = none ∧ mask p = true ∧ ∃ y, x = some y ∧ y.target = .slot p
  cleared : ∀ t p x l, places t = .cleared p x l →
    slots p = none ∧ mask p = false ∧ ∃ y, x = some y ∧ y.target = .slot p
  posting : ∀ t x l, places t = .posting x l → x ≠ none
  todo : ∀ t p, p ∈ (places t).todo → mask p = true ∧ ∃ x, slots p = some x
  nodup : ∀ t, (places t).todo.Nodup
  busy : ∀ t, (places t).busy = true → demux = some t

variable {mask interest : ι × Dir → Bool} {slots : ι × Dir → Option (Submission ι)}
    {places : τ → Place ι} {calls : τ → Call ι} {demux : Option τ} {t : τ} {p : ι × Dir}
    {x : Submission ι}

/-! ### Who is at work -/

theorem Place.todo_eq_nil {place : Place ι} (h : place.busy = false) : place.todo = [] := by
  cases place with
  | events l => cases l <;> first | rfl | cases h
  | taken => cases h
  | cleared => cases h
  | posting => cases h
  | polling => cases h
  | outside => rfl
  | top => rfl
  | executing => rfl
  | stopping => rfl
  | woken => rfl
  | waking => rfl
  | leaving => rfl

/-- Only one thread is at work on events. -/
theorem Wired.idle_of_ne (h : Wired mask interest slots places calls demux)
    (hbusy : (places t).busy = true) (u : τ) (hu : u ≠ t) :
    (places u).busy = false ∧ (places u).todo = [] := by
  have hidle : (places u).busy = false := by
    rw [Bool.eq_false_iff]
    intro hb
    exact hu (Option.some.inj ((h.busy u hb).symm.trans (h.busy t hbusy)))
  exact ⟨hidle, Place.todo_eq_nil hidle⟩

/-- With one thread at work on events the other threads hold no operation: what the mask says is in
a slot or in the hands of that thread. -/
theorem Wired.marked_of_busy (h : Wired mask interest slots places calls demux)
    (hbusy : (places t).busy = true) (hp : mask p = true) :
    (∃ x, slots p = some x) ∨ ∃ x l, places t = .taken p x l := by
  rcases h.marked p hp with hx | ⟨u, x, l, hu⟩
  · exact .inl hx
  · obtain rfl : u = t := by
      by_contra hne
      have hidle := (h.idle_of_ne hbusy u hne).1
      rw [hu] at hidle
      cases hidle
    exact .inr ⟨x, l, hu⟩

/-- With one thread at work on events what the kernel is asked for is in the mask, or its bit has
been cleared by that thread. -/
theorem Wired.asked_of_busy (h : Wired mask interest slots places calls demux)
    (hbusy : (places t).busy = true) (hp : interest p = true) :
    mask p = true ∨ ∃ x l, places t = .cleared p x l := by
  rcases h.asked p hp with hm | ⟨u, x, l, hu⟩
  · exact .inl hm
  · obtain rfl : u = t := by
      by_contra hne
      have hidle := (h.idle_of_ne hbusy u hne).1
      rw [hu] at hidle
      cases hidle
    exact .inr ⟨x, l, hu⟩

/-- What holds of a thread at a place: the operation in its hands is out of its slot, and those of
the events it has still to look at are in theirs. -/
structure Place.Sound (mask : ι × Dir → Bool) (slots : ι × Dir → Option (Submission ι))
    (place : Place ι) : Prop where
  taken : ∀ p x l, place = .taken p x l →
    slots p = none ∧ mask p = true ∧ ∃ y, x = some y ∧ y.target = .slot p
  cleared : ∀ p x l, place = .cleared p x l →
    slots p = none ∧ mask p = false ∧ ∃ y, x = some y ∧ y.target = .slot p
  posting : ∀ x l, place = .posting x l → x ≠ none
  todo : ∀ p, p ∈ place.todo → mask p = true ∧ ∃ x, slots p = some x
  nodup : place.todo.Nodup

theorem Wired.sound (h : Wired mask interest slots places calls demux) (t : τ) :
    (places t).Sound mask slots :=
  ⟨h.taken t, h.cleared t, h.posting t, h.todo t, h.nodup t⟩

/-- A thread that is not at work on events owes nothing. -/
theorem Place.sound_of_idle {place : Place ι} (h : place.busy = false) :
    place.Sound mask slots where
  taken p x l hp := by
    subst hp
    cases h
  cleared p x l hp := by
    subst hp
    cases h
  posting x l hp := by
    subst hp
    cases h
  todo p hp := by
    rw [todo_eq_nil h] at hp
    cases hp
  nodup := by
    rw [todo_eq_nil h]
    exact List.nodup_nil

theorem Place.sound_events {l : List (ι × Dir)} (hnodup : l.Nodup)
    (htodo : ∀ q ∈ l, mask q = true ∧ ∃ x, slots q = some x) : Place.Sound mask slots (.events l) :=
  ⟨nofun, nofun, nofun, htodo, hnodup⟩

section Steps

variable [DecidableEq τ]

/-! ### Moves of a thread -/

/-- The thread that is at work on events goes on. The masks and slots it changes are those of
operations that are counted. -/
theorem Wired.work {mask' interest' : ι × Dir → Bool} {slots' : ι × Dir → Option (Submission ι)}
    {place : Place ι} (h : Wired mask interest slots places calls demux)
    (hbusy : (places t).busy = true) (hslots : ∀ p x, slots' p = some x → slots p = some x)
    (hkeep : ∀ p x, slots p = some x → mask p = false → slots' p = some x ∧ mask' p = false)
    (hmarked : ∀ p, mask' p = true → (∃ x, slots' p = some x) ∨ ∃ x l, place = .taken p x l)
    (hasked : ∀ p, interest' p = true → mask' p = true ∨ ∃ x l, place = .cleared p x l)
    (hsound : place.Sound mask' slots') :
    Wired mask' interest' slots' (Function.update places t place) calls demux := by
  have hall : ∀ u, (Function.update places t place u).Sound mask' slots' :=
    (Function.forall_update_iff places fun _ q ↦ q.Sound mask' slots').2
      ⟨hsound, fun u hu ↦ Place.sound_of_idle (h.idle_of_ne hbusy u hu).1⟩
  refine ⟨fun p x hx ↦ h.target p x (hslots p x hx), h.stored, fun u x p hu hx ↦ ?_, h.unique,
    fun p hp ↦ ?_, fun p hp ↦ ?_, fun u ↦ (hall u).taken, fun u ↦ (hall u).cleared,
    fun u ↦ (hall u).posting, fun u ↦ (hall u).todo, fun u ↦ (hall u).nodup, ?_⟩
  · obtain ⟨hx', hm⟩ := h.call u x p hu hx
    exact hkeep p x hx' hm
  · rcases hmarked p hp with hx | ⟨x, l, rfl⟩
    · exact .inl hx
    · exact .inr ⟨t, x, l, Function.update_self ..⟩
  · rcases hasked p hp with hm | ⟨x, l, rfl⟩
    · exact .inl hm
    · exact .inr ⟨t, x, l, Function.update_self ..⟩
  · exact (Function.forall_update_iff places fun u q ↦ q.busy = true → demux = some u).2
      ⟨fun _ ↦ h.busy t hbusy, fun u _ ↦ h.busy u⟩

/-- A thread that is not at work on events moves. -/
theorem Wired.move {place : Place ι} {demux' : Option τ}
    (h : Wired mask interest slots places calls demux) (hplace : (places t).busy = false)
    (hsound : place.Sound mask slots)
    (hbusy : ∀ u, (Function.update places t place u).busy = true → demux' = some u) :
    Wired mask interest slots (Function.update places t place) calls demux' := by
  have hall : ∀ u, (Function.update places t place u).Sound mask slots :=
    (Function.forall_update_iff places fun _ q ↦ q.Sound mask slots).2
      ⟨hsound, fun u _ ↦ h.sound u⟩
  -- it is none of the threads that hold an operation
  have hne : ∀ u, (places u).busy = true → u ≠ t := by
    rintro u hu rfl
    rw [hplace] at hu
    cases hu
  refine ⟨h.target, h.stored, h.call, h.unique, fun p hp ↦ ?_, fun p hp ↦ ?_,
    fun u ↦ (hall u).taken, fun u ↦ (hall u).cleared, fun u ↦ (hall u).posting,
    fun u ↦ (hall u).todo, fun u ↦ (hall u).nodup, hbusy⟩
  · rcases h.marked p hp with hx | ⟨u, x, l, hu⟩
    · exact .inl hx
    · exact .inr ⟨u, x, l, (Function.update_of_ne (hne u (by rw [hu]; rfl)) ..).trans hu⟩
  · rcases h.asked p hp with hm | ⟨u, x, l, hu⟩
    · exact .inl hm
    · exact .inr ⟨u, x, l, (Function.update_of_ne (hne u (by rw [hu]; rfl)) ..).trans hu⟩

/-- A thread that holds no operation goes on with the events `l`. -/
theorem wired_events {l : List (ι × Dir)} (h : Wired mask interest slots places calls demux)
    (hbusy : (places t).busy = true) (htaken : ∀ q x m, places t ≠ .taken q x m)
    (hcleared : ∀ q x m, places t ≠ .cleared q x m) (hl : l.Nodup)
    (htodo : ∀ q ∈ l, mask q = true ∧ ∃ x, slots q = some x) :
    Wired mask interest slots (Function.update places t (.events l)) calls demux := by
  refine h.work hbusy (fun _ _ hx ↦ hx) (fun _ _ hx hm ↦ ⟨hx, hm⟩) (fun q hq ↦ .inl ?_)
    (fun q hq ↦ .inl ?_) (Place.sound_events hl htodo)
  · exact (h.marked_of_busy hbusy hq).resolve_right fun ⟨x, m, hu⟩ ↦ htaken q x m hu
  · exact (h.asked_of_busy hbusy hq).resolve_right fun ⟨x, m, hu⟩ ↦ hcleared q x m hu

/-- A thread that has posted the operation of an event goes on with its other events. -/
theorem wired_posted {l : List (ι × Dir)} {y : Option (Submission ι)}
    (h : Wired mask interest slots places calls demux)
    (hplace : places t = .posting y l) :
    Wired mask interest slots (Function.update places t (.events l)) calls demux := by
  have hbusy : (places t).busy = true := by rw [hplace]; rfl
  have htodo : ∀ q ∈ l, mask q = true ∧ ∃ x, slots q = some x := fun q hq ↦
    h.todo t q (by rw [hplace]; exact hq)
  have hnodup : l.Nodup := by simpa [hplace, Place.todo] using h.nodup t
  exact wired_events h hbusy (by simp [hplace]) (by simp [hplace]) hnodup htodo

/-- What the kernel reports waits in its slot. -/
theorem wired_wait {l : List (ι × Dir)} (h : Wired mask interest slots places calls demux)
    (hplace : places t = .polling) (hl : l.Nodup) (hint : ∀ p ∈ l, interest p = true) :
    Wired mask interest slots (Function.update places t (.events l)) calls demux := by
  have hbusy : (places t).busy = true := by rw [hplace]; rfl
  have htaken : ∀ q x m, places t ≠ .taken q x m := by simp [hplace]
  have hcleared : ∀ q x m, places t ≠ .cleared q x m := by simp [hplace]
  refine wired_events h hbusy htaken hcleared hl fun q hq ↦ ?_
  have hm := (h.asked_of_busy hbusy (hint q hq)).resolve_right fun ⟨x, m, hu⟩ ↦ hcleared q x m hu
  exact ⟨hm, (h.marked_of_busy hbusy hm).resolve_right fun ⟨x, m, hu⟩ ↦ htaken q x m hu⟩

/-- A thread goes to `epoll_wait`, when it has the service for itself. -/
theorem wired_poll (h : Wired mask interest slots places calls demux)
    (hplace : (places t).busy = false) (hdemux : demux = none ∨ demux = some t) :
    Wired mask interest slots (Function.update places t .polling) calls (some t) := by
  have hidle : ∀ u, (places u).busy = false := fun u ↦ by
    by_contra hb
    have hu := h.busy u (Bool.eq_true_of_not_eq_false hb)
    rcases hdemux with hd | hd
    · rw [hd] at hu
      cases hu
    · obtain rfl := Option.some.inj (hd.symm.trans hu)
      exact hb hplace
  refine h.move hplace ⟨nofun, nofun, nofun, nofun, List.nodup_nil⟩ ?_
  refine (Function.forall_update_iff places fun u q ↦ q.busy = true → some t = some u).2
    ⟨fun _ ↦ rfl, fun u _ hu ↦ ?_⟩
  rw [hidle u] at hu
  cases hu

/-- A thread goes where it is not at work on events either. -/
theorem wired_go {place : Place ι} (h : Wired mask interest slots places calls demux)
    (hplace : (places t).busy = false) (hbusy : place.busy = false) :
    Wired mask interest slots (Function.update places t place) calls demux := by
  refine h.move hplace (Place.sound_of_idle hbusy) ?_
  refine (Function.forall_update_iff places fun u q ↦ q.busy = true → demux = some u).2
    ⟨fun hb ↦ ?_, fun u _ ↦ h.busy u⟩
  rw [hbusy] at hb
  cases hb

/-- A thread whose `epoll_wait` has failed leaves, and is at work on no event. -/
theorem wired_fail (h : Wired mask interest slots places calls demux)
    (hplace : places t = .polling) :
    Wired mask interest slots (Function.update places t .leaving) calls demux := by
  have hwait := wired_wait h hplace List.nodup_nil nofun
  have hidle : (Function.update places t (.events []) t).busy = false := by
    rw [Function.update_self]
    rfl
  have hgo : Wired mask interest slots
      (Function.update (Function.update places t (.events [])) t .leaving) calls demux :=
    wired_go hwait hidle rfl
  rwa [Function.update_idem] at hgo

theorem wired_exit (h : Wired mask interest slots places calls demux)
    (hplace : (places t).busy = false) :
    Wired mask interest slots places calls (if demux = some t then none else demux) where
  __ := h
  busy u hu := by
    have hdemux := h.busy u hu
    have hne : demux ≠ some t := by
      rintro hd
      obtain rfl := Option.some.inj (hdemux.symm.trans hd)
      rw [hplace] at hu
      cases hu
    rwa [if_neg hne]

/-! ### Submissions -/

/-- What a thread does after its submission concerns no slot. -/
theorem wired_call {call : Call ι} (h : Wired mask interest slots places calls demux)
    (hstored : ∀ y, call ≠ .stored y)
    (hcounted : ∀ y, call = .counted y → (∀ p, y.target ≠ .slot p) ∨ calls t = .stored y) :
    Wired mask interest slots places (Function.update calls t call) demux := by
  have hback : ∀ u y q, Function.update calls t call u = .stored y ∨
      Function.update calls t call u = .counted y → y.target = .slot q →
      calls u = .stored y ∨ calls u = .counted y := by
    intro u y q hu hy
    rcases eq_or_ne u t with rfl | hne
    · rw [Function.update_self] at hu
      rcases hu with hu | hu
      · exact absurd hu (hstored y)
      · exact .inl ((hcounted y hu).resolve_left fun hno ↦ hno q hy)
    · rwa [Function.update_of_ne hne] at hu
  exact { h with
    stored := (Function.forall_update_iff calls fun _ c ↦
      ∀ y, c = .stored y → ∃ p, y.target = .slot p).2
        ⟨fun y hy ↦ absurd hy (hstored y), fun u _ ↦ h.stored u⟩
    call := fun u y q hu hy ↦ h.call u y q (hback u y q hu hy) hy
    unique := fun u v y q hu hv hy ↦
      h.unique u v y q (hback u y q hu hy) (hback v y q hv hy) hy }

/-- A submission that does not go to a slot touches none. -/
theorem wired_count (h : Wired mask interest slots places calls demux)
    (hx : ∀ p, x.target ≠ .slot p) :
    Wired mask interest slots places (Function.update calls t (.counted x)) demux :=
  wired_call h nofun fun _ hy ↦ .inl (Call.counted.inj hy ▸ hx)

theorem wired_counted (h : Wired mask interest slots places calls demux)
    (hcall : calls t = .stored x) :
    Wired mask interest slots places (Function.update calls t (.counted x)) demux :=
  wired_call h nofun fun _ hy ↦ .inr (Call.counted.inj hy ▸ hcall)

theorem wired_idle (h : Wired mask interest slots places calls demux) :
    Wired mask interest slots places (Function.update calls t .idle) demux :=
  wired_call h nofun nofun

variable [DecidableEq ι]

/-- A submission fills an empty slot. -/
theorem wired_submit (h : Wired mask interest slots places calls demux)
    (hslot : slots p = none) (hmask : mask p = false) (hx : x.target = .slot p)
    (hfree : ∀ u y l, places u ≠ .taken p y l ∧ places u ≠ .cleared p y l) :
    Wired mask interest (Function.update slots p (some x)) places
      (Function.update calls t (.stored x)) demux := by
  -- no other submission is on its way to this slot
  have hother : ∀ u y, calls u = .stored y ∨ calls u = .counted y → y.target ≠ .slot p := by
    intro u y hy htarget
    have hsome := (h.call u y p hy htarget).1
    rw [hslot] at hsome
    cases hsome
  have hcases : ∀ u y, Function.update calls t (.stored x) u = .stored y ∨
      Function.update calls t (.stored x) u = .counted y →
      u = t ∧ y = x ∨ u ≠ t ∧ (calls u = .stored y ∨ calls u = .counted y) := by
    intro u y hu
    rcases eq_or_ne u t with rfl | hne
    · rw [Function.update_self] at hu
      rcases hu with hu | hu
      · exact .inl ⟨rfl, (Call.stored.inj hu).symm⟩
      · cases hu
    · rw [Function.update_of_ne hne] at hu
      exact .inr ⟨hne, hu⟩
  have hkeep : ∀ q y, slots q = some y → Function.update slots p (some x) q = some y := by
    intro q y hy
    have hne : q ≠ p := by
      rintro rfl
      rw [hslot] at hy
      cases hy
    rwa [Function.update_of_ne hne]
  have hempty : ∀ q, q ≠ p → slots q = none → Function.update slots p (some x) q = none :=
    fun q hne hq ↦ by rwa [Function.update_of_ne hne]
  exact { h with
    target := by
      refine (Function.forall_update_iff slots fun q o ↦ ∀ y, o = some y → y.target = .slot q).2
        ⟨fun y hy ↦ ?_, fun q _ ↦ h.target q⟩
      rw [← Option.some.inj hy, hx]
    stored := by
      refine (Function.forall_update_iff calls fun _ c ↦
        ∀ y, c = .stored y → ∃ p, y.target = .slot p).2 ⟨fun y hy ↦ ?_, fun u _ ↦ h.stored u⟩
      rw [← Call.stored.inj hy]
      exact ⟨p, hx⟩
    call := by
      intro u y q hu hy
      rcases hcases u y hu with ⟨rfl, rfl⟩ | ⟨-, hu'⟩
      · obtain rfl : p = q := Target.slot.inj (hx.symm.trans hy)
        exact ⟨Function.update_self .., hmask⟩
      · exact (h.call u y q hu' hy).imp_left (hkeep q y)
    unique := by
      intro u v y q hu hv hy
      rcases hcases u y hu with ⟨rfl, rfl⟩ | ⟨-, hu'⟩
      · rcases hcases v y hv with ⟨rfl, -⟩ | ⟨-, hv'⟩
        · rfl
        · exact absurd hx (hother v y hv')
      · rcases hcases v y hv with ⟨rfl, rfl⟩ | ⟨-, hv'⟩
        · exact absurd hx (hother u y hu')
        · exact h.unique u v y q hu' hv' hy
    marked := fun q hq ↦ (h.marked q hq).imp_left fun ⟨y, hy⟩ ↦ ⟨y, hkeep q y hy⟩
    taken := by
      intro u q y l hu
      obtain ⟨hq, hrest⟩ := h.taken u q y l hu
      exact ⟨hempty q (fun hqp ↦ (hfree u y l).1 (hqp ▸ hu)) hq, hrest⟩
    cleared := by
      intro u q y l hu
      obtain ⟨hq, hrest⟩ := h.cleared u q y l hu
      exact ⟨hempty q (fun hqp ↦ (hfree u y l).2 (hqp ▸ hu)) hq, hrest⟩
    todo := fun u q hq ↦ (h.todo u q hq).imp_right fun ⟨y, hy⟩ ↦ ⟨y, hkeep q y hy⟩ }

/-- The bit of the mask is set for an operation that is in its slot. -/
theorem wired_mark (h : Wired mask interest slots places calls demux)
    (hcall : calls t = .counted x) (hx : x.target = .slot p) (i : ι) :
    Wired (Function.update mask p true) interest slots places
      (Function.update calls t (.marked i)) demux := by
  have hslot : slots p = some x := (h.call t x p (.inr hcall) hx).1
  -- nobody else is between its submission and this bit
  have hother : ∀ u y, u ≠ t → calls u = .stored y ∨ calls u = .counted y →
      y.target ≠ .slot p := by
    intro u y hu hy htarget
    obtain rfl : y = x := by
      have hy := (h.call u y p hy htarget).1
      exact Option.some.inj (hy.symm.trans hslot)
    exact hu (h.unique u t y p hy (.inr hcall) hx)
  have hset : ∀ q, mask q = true → Function.update mask p true q = true := by
    intro q hq
    rcases eq_or_ne q p with rfl | hne
    · exact Function.update_self ..
    · rwa [Function.update_of_ne hne]
  have hkeep : ∀ q, slots q = none → Function.update mask p true q = mask q := by
    intro q hq
    refine Function.update_of_ne ?_ ..
    rintro rfl
    rw [hslot] at hq
    cases hq
  have hmarked : Wired mask interest slots places (Function.update calls t (.marked i)) demux :=
    wired_call h nofun nofun
  exact { hmarked with
    call := by
      intro u y q hu hy
      rcases eq_or_ne u t with rfl | hne
      · rw [Function.update_self] at hu
        rcases hu with hu | hu <;> cases hu
      · rw [Function.update_of_ne hne] at hu
        obtain ⟨hq, hm⟩ := h.call u y q hu hy
        have hqp : q ≠ p := by
          rintro rfl
          exact hother u y hne hu hy
        exact ⟨hq, (Function.update_of_ne hqp ..).trans hm⟩
    marked := by
      intro q hq
      rcases eq_or_ne q p with rfl | hne
      · exact .inl ⟨x, hslot⟩
      · rw [Function.update_of_ne hne] at hq
        exact h.marked q hq
    asked := fun q hq ↦ (h.asked q hq).imp_left (hset q)
    taken := by
      intro u q y l hu
      obtain ⟨hq, hm, hrest⟩ := h.taken u q y l hu
      exact ⟨hq, hset q hm, hrest⟩
    cleared := by
      intro u q y l hu
      obtain ⟨hq, hm, hrest⟩ := h.cleared u q y l hu
      exact ⟨hq, (hkeep q hq).trans hm, hrest⟩
    todo := fun u q hq ↦ (h.todo u q hq).imp_left (hset q) }

omit [DecidableEq τ] in
/-- The kernel is told what the mask says now, whoever has changed it. -/
theorem wired_modify (h : Wired mask interest slots places calls demux) (i : ι) (b : Bool) :
    Wired mask (fun p ↦ if p.1 = i then b && mask p else interest p) slots places calls demux where
  __ := h
  asked p hp := by
    split at hp
    · exact .inl (Bool.and_eq_true_iff.1 hp).2
    · exact h.asked p hp

/-! ### Events -/

/-- A thread takes the operation out of the slot of its next event. -/
theorem wired_take {l : List (ι × Dir)} (h : Wired mask interest slots places calls demux)
    (hplace : places t = .events (p :: l)) :
    Wired mask interest (Function.update slots p none)
      (Function.update places t (.taken p (slots p) l)) calls demux := by
  have hbusy : (places t).busy = true := by rw [hplace]; rfl
  have htodo : ∀ q ∈ p :: l, mask q = true ∧ ∃ x, slots q = some x := fun q hq ↦
    h.todo t q (by rw [hplace]; exact hq)
  have hnodup : (p :: l).Nodup := by simpa [hplace, Place.todo] using h.nodup t
  obtain ⟨hp, y, hy⟩ := htodo p List.mem_cons_self
  obtain ⟨hpl, hnodup⟩ := List.nodup_cons.1 hnodup
  have hkeep : ∀ q, q ≠ p → Function.update slots p none q = slots q := fun q hq ↦
    Function.update_of_ne hq ..
  refine h.work hbusy (fun q x hx ↦ ?_) (fun q x hx hm ↦ ?_) (fun q hq ↦ ?_) (fun q hq ↦ ?_) ?_
  · rcases eq_or_ne q p with rfl | hne
    · rw [Function.update_self] at hx
      cases hx
    · rwa [hkeep q hne] at hx
  · have hne : q ≠ p := by
      rintro rfl
      rw [hm] at hp
      cases hp
    exact ⟨(hkeep q hne).trans hx, hm⟩
  · rcases eq_or_ne q p with rfl | hne
    · exact .inr ⟨_, _, rfl⟩
    · rcases h.marked_of_busy hbusy hq with hx | ⟨x, m, hu⟩
      · exact .inl (by rwa [hkeep q hne])
      · cases hplace.symm.trans hu
  · rcases h.asked_of_busy hbusy hq with hm | ⟨x, m, hu⟩
    · exact .inl hm
    · cases hplace.symm.trans hu
  · refine ⟨fun q x m hq ↦ ?_, nofun, nofun, fun q hq ↦ ?_, hnodup⟩
    · obtain ⟨rfl, rfl, rfl⟩ := Place.taken.inj hq
      exact ⟨Function.update_self .., hp, y, hy, h.target p y hy⟩
    · rw [hkeep q fun hqp ↦ hpl (hqp ▸ hq)]
      exact htodo q (List.mem_cons_of_mem _ hq)

/-- A thread that has emptied a slot clears the bit of the mask. -/
theorem wired_clear {l : List (ι × Dir)} {y : Option (Submission ι)}
    (h : Wired mask interest slots places calls demux)
    (hplace : places t = .taken p y l) :
    Wired (Function.update mask p false) interest slots
      (Function.update places t (.cleared p y l)) calls demux := by
  have hbusy : (places t).busy = true := by rw [hplace]; rfl
  have htodo : ∀ q ∈ l, mask q = true ∧ ∃ x, slots q = some x := fun q hq ↦
    h.todo t q (by rw [hplace]; exact hq)
  have hnodup : l.Nodup := by simpa [hplace, Place.todo] using h.nodup t
  obtain ⟨hslot, -, htarget⟩ := h.taken t p y l hplace
  have hkeep : ∀ q, q ≠ p → Function.update mask p false q = mask q := fun q hq ↦
    Function.update_of_ne hq ..
  refine h.work hbusy (fun _ _ hx ↦ hx) (fun q x hx hm ↦ ⟨hx, ?_⟩) (fun q hq ↦ ?_)
    (fun q hq ↦ ?_) ?_
  · rcases eq_or_ne q p with rfl | hne
    · exact Function.update_self ..
    · exact (hkeep q hne).trans hm
  · have hne : q ≠ p := by
      rintro rfl
      rw [Function.update_self] at hq
      cases hq
    rw [hkeep q hne] at hq
    rcases h.marked_of_busy hbusy hq with hx | ⟨x, m, hu⟩
    · exact .inl hx
    · exact absurd (Place.taken.inj (hplace.symm.trans hu)).1.symm hne
  · rcases eq_or_ne q p with rfl | hne
    · exact .inr ⟨_, _, rfl⟩
    · rcases h.asked_of_busy hbusy hq with hm | ⟨x, m, hu⟩
      · exact .inl ((hkeep q hne).trans hm)
      · cases hplace.symm.trans hu
  · refine ⟨nofun, fun q x m hq ↦ ?_, nofun, fun q hq ↦ ?_, hnodup⟩
    · obtain ⟨rfl, rfl, rfl⟩ := Place.cleared.inj hq
      exact ⟨hslot, Function.update_self .., htarget⟩
    · obtain ⟨hm, x, hx⟩ := htodo q hq
      have hne : q ≠ p := by
        rintro rfl
        rw [hslot] at hx
        cases hx
      exact ⟨(hkeep q hne).trans hm, x, hx⟩

/-- A thread that has cleared a bit of the mask tells the kernel. -/
theorem wired_cleared {l : List (ι × Dir)} {y : Option (Submission ι)}
    (h : Wired mask interest slots places calls demux)
    (hplace : places t = .cleared p y l) (b : Bool) :
    Wired mask (fun q ↦ if q.1 = p.1 then b && mask q else interest q) slots
      (Function.update places t (.posting y l)) calls demux := by
  have hbusy : (places t).busy = true := by rw [hplace]; rfl
  have htodo : ∀ q ∈ l, mask q = true ∧ ∃ x, slots q = some x := fun q hq ↦
    h.todo t q (by rw [hplace]; exact hq)
  have hnodup : l.Nodup := by simpa [hplace, Place.todo] using h.nodup t
  obtain ⟨-, -, x, rfl, -⟩ := h.cleared t p y l hplace
  refine h.work hbusy (fun _ _ hx ↦ hx) (fun _ _ hx hm ↦ ⟨hx, hm⟩) (fun q hq ↦ ?_) (fun q hq ↦ ?_)
    ⟨nofun, nofun, fun z m hz ↦ ?_, htodo, hnodup⟩
  · rcases h.marked_of_busy hbusy hq with hx | ⟨x, m, hu⟩
    · exact .inl hx
    · cases hplace.symm.trans hu
  · split at hq
    case isTrue => exact .inl (Bool.and_eq_true_iff.1 hq).2
    case isFalse hne =>
      rcases h.asked_of_busy hbusy hq with hm | ⟨x, m, hu⟩
      · exact .inl hm
      · exact absurd (congrArg Prod.fst (Place.cleared.inj (hplace.symm.trans hu)).1.symm) hne
  · rw [← (Place.posting.inj hz).1]
    exact Option.some_ne_none x

omit [DecidableEq τ] in
theorem wired_close (h : Wired mask interest slots places calls demux) (i : ι) :
    Wired mask (fun p ↦ if p.1 = i then false else interest p) slots places calls demux where
  __ := h
  asked p hp := by
    split at hp
    · cases hp
    · exact h.asked p hp

end Steps

end JnetLib.Epoll
