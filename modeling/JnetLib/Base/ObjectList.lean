import JnetLib.Foundation.Chain
import JnetLib.Foundation.Transition

/-!
# The service's list of objects

Sockets, files, acceptors and resolvers are `base_type`s: the constructor of `base_type` puts the
object into a list its service keeps, the destructor takes it out. The list is linked both ways
through the `prev_` and `next_` fields of the objects themselves. `service::construct` and
`service::destory` are the same in the epoll and in the IOCP backend, and each holds the list's lock
from its first to its last statement, so the calls come one after another.

An object is its address `ι`. Memory comes back: an address that was destroyed may be constructed
again, and what the fields hold before that is arbitrary. `constructed` and `destroyed` record the
calls made so far, oldest first.

`wellFormed_of_run` says that the list is what its purpose asks for: the objects constructed and not
yet destroyed (`live`), the newest first.

## What the theorem rests on

`Chained` says that the links are a chain of the live objects, read in either direction, and that
the record of the calls alternates at every address. `construct` puts an object in front of the
chain; `destory` joins its neighbours, and its assignments are those of a chain without it as long
as no object is its own neighbour (`destory_links`), which a chain without repetitions grants. A
destroyed object points to nothing (`detached`).
-/

namespace JnetLib

/-- `impl_list_`, the links of the objects, and the record of the calls. -/
structure ObjectList (ι : Type) where
  implList : Option ι
  next : ι → Option ι
  prev : ι → Option ι
  constructed : List ι
  destroyed : List ι

/-- A call of `construct` or of `destory`. -/
inductive ObjectCall (ι : Type)
  | construct (impl : ι)
  | destory (impl : ι)
  deriving DecidableEq, Repr

namespace ObjectList

variable {ι : Type} [DecidableEq ι]

/-- `service::construct`. -/
def construct (s : ObjectList ι) (impl : ι) : ObjectList ι where
  next := Function.update s.next impl s.implList
  prev := Chain.assign (Function.update s.prev impl none) s.implList (some impl)
  implList := some impl
  constructed := s.constructed ++ [impl]
  destroyed := s.destroyed

/-- `service::destory`, one assignment after the other. -/
def destory (s : ObjectList ι) (impl : ι) : ObjectList ι :=
  let implList := if s.implList = some impl then s.next impl else s.implList
  let next := Chain.assign s.next (s.prev impl) (s.next impl)
  let prev := Chain.assign s.prev (next impl) (s.prev impl)
  { implList := implList
    next := Function.update next impl none
    prev := Function.update prev impl none
    constructed := s.constructed
    destroyed := s.destroyed ++ [impl] }

/-- The object has been constructed and not been destroyed since. -/
def Alive (s : ObjectList ι) (i : ι) : Prop := s.destroyed.count i < s.constructed.count i

instance (s : ObjectList ι) (i : ι) : Decidable (s.Alive i) :=
  inferInstanceAs (Decidable (_ < _))

/-- The next call: an object is constructed when it is not alive and destroyed when it is. -/
def step (s : ObjectList ι) : ObjectCall ι → Option (ObjectList ι)
  | .construct impl => if s.Alive impl then none else some (s.construct impl)
  | .destory impl => if s.Alive impl then some (s.destory impl) else none

/-- A new service, with anything in the memory of objects to come. -/
def start (next prev : ι → Option ι) : ObjectList ι := ⟨none, next, prev, [], []⟩

/-- The objects alive, the one constructed last in front. Of several constructions at one address
`List.dedup` keeps the last. -/
def live (s : ObjectList ι) : List ι := (s.constructed.dedup.filter fun i ↦ s.Alive i).reverse

/-- **What the list promises.** Following `next_` from `impl_list_` visits the objects alive, each
once, the newest first, and then comes to null; `prev_` is the inverse of `next_`, with null at the
head; an object that was destroyed has null links, and neither `impl_list_` nor any object points to
it. -/
structure WellFormed (s : ObjectList ι) : Prop where
  visits : ∀ n, Chain.follow s.next s.implList n = s.live[n]?
  alive : ∀ i, i ∈ s.live ↔ s.Alive i
  once : s.live.Nodup
  inverse : ∀ i j, s.Alive i → s.Alive j → (s.next i = some j ↔ s.prev j = some i)
  head : ∀ i, s.implList = some i → s.prev i = none
  detached : ∀ i ∈ s.destroyed, ¬s.Alive i → s.next i = none ∧ s.prev i = none
  unreferenced : ∀ i ∈ s.destroyed, ¬s.Alive i →
    s.implList ≠ some i ∧ ∀ j ∈ s.constructed, s.next j ≠ some i ∧ s.prev j ≠ some i

section Live

variable {s : ObjectList ι} {i j : ι}

theorem mem_live : i ∈ s.live ↔ s.Alive i := by
  rw [live, List.mem_reverse, List.mem_filter, List.mem_dedup, decide_eq_true_iff]
  exact and_iff_right_of_imp fun h ↦ List.count_pos_iff.1 (Nat.zero_lt_of_lt h)

theorem nodup_live : s.live.Nodup :=
  List.nodup_reverse.2 ((List.nodup_dedup _).filter _)

/-- An entry put behind a list is the last of its kind. -/
theorem dedup_concat (l : List ι) (i : ι) :
    (l ++ [i]).dedup = (l.dedup.filter fun j ↦ j ≠ i) ++ [i] := by
  induction l with
  | nil => rfl
  | cons a l ih =>
    rw [List.cons_append]
    by_cases hal : a ∈ l
    · rw [List.dedup_cons_of_mem (List.mem_append_left _ hal), List.dedup_cons_of_mem hal, ih]
    · rw [List.dedup_cons_of_notMem hal]
      rcases eq_or_ne a i with rfl | hne
      · rw [List.dedup_cons_of_mem (List.mem_append_right _ (List.mem_singleton_self a)), ih,
          List.filter_cons_of_neg (by simp)]
      · have hmem : a ∉ l ++ [i] := by simp [hal, hne]
        rw [List.dedup_cons_of_notMem hmem, ih, List.filter_cons_of_pos (by simpa using hne),
          List.cons_append]

end Live

/-! ### The invariant -/

/-- **The invariant.** The links make a chain of the objects alive, the calls alternate at every
address, and the objects that are not alive any more are cut off. -/
structure Chained (s : ObjectList ι) : Prop where
  linked : Chain.DoublyLinked s.next s.prev s.live
  head : s.implList = s.live.head?
  alternate : ∀ i, s.destroyed.count i ≤ s.constructed.count i ∧
    s.constructed.count i ≤ s.destroyed.count i + 1
  detached : ∀ i ∈ s.constructed, ¬s.Alive i → s.next i = none ∧ s.prev i = none

section Invariant

variable {s s' : ObjectList ι} {i j : ι} {l l' : List ι}

theorem chained_start (next prev : ι → Option ι) : Chained (start next prev) where
  linked := ⟨trivial, trivial⟩
  head := rfl
  alternate _ := ⟨Nat.le_refl _, Nat.zero_le _⟩
  detached _ hi := absurd hi List.not_mem_nil

/-! #### Construction -/

theorem Chained.alive_construct_iff (h : s.Chained) :
    (s.construct i).Alive j ↔ j = i ∨ s.Alive j := by
  have hj := h.alternate j
  show s.destroyed.count j < (s.constructed ++ [i]).count j ↔ j = i ∨ s.Alive j
  rw [List.count_append]
  rcases eq_or_ne j i with rfl | hne
  · rw [List.count_singleton_self]
    exact iff_of_true (by omega) (.inl rfl)
  · rw [List.count_eq_zero_of_not_mem (mt List.mem_singleton.1 hne), Nat.add_zero,
      or_iff_right hne]
    exact Iff.rfl

/-- An object that is constructed comes first. -/
theorem Chained.live_construct (h : s.Chained) (hi : ¬s.Alive i) :
    (s.construct i).live = i :: s.live := by
  have hold : ((s.constructed.dedup.filter fun j ↦ j ≠ i).filter fun j ↦ (s.construct i).Alive j) =
      s.constructed.dedup.filter fun j ↦ s.Alive j := by
    rw [List.filter_filter]
    refine List.filter_congr fun j _ ↦ ?_
    rw [← Bool.decide_and, decide_eq_decide, h.alive_construct_iff]
    constructor
    · rintro ⟨rfl | hj, hne⟩
      · exact absurd rfl hne
      · exact hj
    · intro hj
      exact ⟨.inr hj, fun hji ↦ hi (hji ▸ hj)⟩
  have hnew : (s.construct i).Alive i := h.alive_construct_iff.2 (.inl rfl)
  show ((s.constructed ++ [i]).dedup.filter fun j ↦ (s.construct i).Alive j).reverse = _
  rw [dedup_concat, List.filter_append, hold, List.filter_cons_of_pos (by simpa using hnew),
    List.filter_nil, List.reverse_append]
  rfl

theorem Chained.construct (h : s.Chained) (hi : ¬s.Alive i) : (s.construct i).Chained where
  linked := by
    rw [h.live_construct hi]
    show Chain.DoublyLinked (Function.update s.next i s.implList)
      (Chain.assign (Function.update s.prev i none) s.implList (some i)) (i :: s.live)
    rw [h.head]
    exact h.linked.cons nodup_live (mt mem_live.1 hi)
  head := by
    rw [h.live_construct hi]
    rfl
  alternate j := by
    have hj := h.alternate j
    show _ ≤ (s.constructed ++ [i]).count j ∧ (s.constructed ++ [i]).count j ≤ _
    rw [List.count_append]
    rcases eq_or_ne j i with rfl | hne
    · rw [List.count_singleton_self]
      have : ¬s.destroyed.count j < s.constructed.count j := hi
      show s.destroyed.count j ≤ _ ∧ _ ≤ s.destroyed.count j + 1
      omega
    · rw [List.count_eq_zero_of_not_mem (mt List.mem_singleton.1 hne)]
      exact hj
  detached j hj hdead := by
    have hdead' := not_or.1 (mt h.alive_construct_iff.2 hdead)
    have hj' : j ∈ s.constructed := by
      rcases List.mem_append.1 hj with hj | hj
      · exact hj
      · exact absurd (List.mem_singleton.1 hj) hdead'.1
    -- the head of the list, whose `prev_` is written, is alive
    have hhead : s.implList ≠ some j := by
      intro hl
      rw [h.head] at hl
      exact hdead'.2 (mem_live.1 (List.mem_of_head? hl))
    obtain ⟨hnext, hprev⟩ := h.detached j hj' hdead'.2
    refine ⟨(Function.update_of_ne hdead'.1 ..).trans hnext, ?_⟩
    show Chain.assign (Function.update s.prev i none) s.implList (some i) j = none
    rw [Chain.assign_of_ne hhead, Function.update_of_ne hdead'.1, hprev]

/-! #### Destruction -/

omit [DecidableEq ι] in
theorem notMem_of_nodup (hnd : (l ++ i :: l').Nodup) : i ∉ l ∧ i ∉ l' := by
  obtain ⟨-, hil, hdisjoint⟩ := List.nodup_append.1 hnd
  exact ⟨fun hi ↦ hdisjoint i hi i List.mem_cons_self rfl, (List.nodup_cons.1 hil).1⟩

theorem Chained.alive_destory_iff (h : s.Chained) : (s.destory i).Alive j ↔ j ≠ i ∧ s.Alive j := by
  have hj := h.alternate j
  show (s.destroyed ++ [i]).count j < s.constructed.count j ↔ j ≠ i ∧ s.Alive j
  rw [List.count_append]
  rcases eq_or_ne j i with rfl | hne
  · rw [List.count_singleton_self]
    exact iff_of_false (by omega) fun hj' ↦ hj'.1 rfl
  · rw [List.count_eq_zero_of_not_mem (mt List.mem_singleton.1 hne), Nat.add_zero,
      and_iff_right hne]
    exact Iff.rfl

/-- An object that is destroyed is left out. -/
theorem Chained.live_destory (h : s.Chained) (hlive : s.live = l ++ i :: l') :
    (s.destory i).live = l ++ l' := by
  have hnd : (l ++ i :: l').Nodup := hlive ▸ nodup_live
  have hfilter : (s.destory i).live = s.live.filter fun j ↦ j ≠ i := by
    rw [live, live, List.filter_reverse, List.filter_filter]
    refine congrArg List.reverse (List.filter_congr fun j _ ↦ ?_)
    rw [← Bool.decide_and, decide_eq_decide, h.alive_destory_iff]
  have hkeep : ∀ m : List ι, i ∉ m → (m.filter fun j ↦ j ≠ i) = m := by
    intro m hm
    refine List.filter_eq_self.2 fun j hj ↦ decide_eq_true ?_
    rintro rfl
    exact hm hj
  obtain ⟨hil, hil'⟩ := notMem_of_nodup hnd
  rw [hfilter, hlive, List.filter_append, List.filter_cons_of_neg (by simp), hkeep l hil,
    hkeep l' hil']

/-- The assignments of `destory`, for an object that is not its own neighbour. -/
theorem destory_links (hself : s.prev i ≠ some i) :
    (s.destory i).next = Function.update (Chain.assign s.next (s.prev i) (s.next i)) i none ∧
      (s.destory i).prev =
        Function.update (Chain.assign s.prev (s.next i) (s.prev i)) i none := by
  refine ⟨rfl, ?_⟩
  show Function.update (Chain.assign s.prev (Chain.assign s.next (s.prev i) (s.next i) i)
    (s.prev i)) i none = _
  rw [Chain.assign_of_ne hself]

theorem Chained.destory (h : s.Chained) (hi : s.Alive i) : (s.destory i).Chained := by
  obtain ⟨l, l', hlive⟩ := List.append_of_mem (mem_live.2 hi)
  have hnd : (l ++ i :: l').Nodup := hlive ▸ nodup_live
  obtain ⟨hil, hil'⟩ := notMem_of_nodup hnd
  have hlinked : Chain.DoublyLinked s.next s.prev (l ++ i :: l') := hlive ▸ h.linked
  -- the invariant gives the neighbours of `i` on both sides, in all four cases at once
  have hprev : s.prev i = l.getLast? := hlinked.prev_eq
  have hnext : s.next i = l'.head? := hlinked.forward.next_eq
  have hself : s.prev i ≠ some i := fun hp ↦ hil (List.mem_of_getLast? (hprev.symm.trans hp))
  obtain ⟨hnext', hprev'⟩ := destory_links hself
  have hout : i ∉ l ++ l' := fun hm ↦ (List.mem_append.1 hm).elim hil hil'
  refine ⟨?_, ?_, fun j ↦ ?_, fun j hj hdead ↦ ?_⟩
  · rw [h.live_destory hlive, hnext', hprev']
    exact (hlinked.unlink hnd).update_of_notMem hout
  · rw [h.live_destory hlive]
    show (if s.implList = some i then s.next i else s.implList) = (l ++ l').head?
    rw [h.head, hlive, hnext]
    -- at the head `impl_list_` moves on to the next, elsewhere it stays
    cases l with
    | nil => exact if_pos rfl
    | cons b l =>
      have hb : (b :: l ++ i :: l').head? ≠ some i := by
        intro hb
        exact hil (Option.some.inj hb ▸ List.mem_cons_self)
      rw [if_neg hb]
      rfl
  · have hj := h.alternate j
    show (s.destroyed ++ [i]).count j ≤ _ ∧ _ ≤ (s.destroyed ++ [i]).count j + 1
    rw [List.count_append]
    rcases eq_or_ne j i with rfl | hne
    · rw [List.count_singleton_self]
      have : s.destroyed.count j < s.constructed.count j := hi
      show _ ≤ s.constructed.count j ∧ s.constructed.count j ≤ _
      omega
    · rw [List.count_eq_zero_of_not_mem (mt List.mem_singleton.1 hne)]
      exact hj
  · rw [hnext', hprev']
    rcases eq_or_ne j i with rfl | hne
    · exact ⟨Function.update_self .., Function.update_self ..⟩
    · -- an object cut off before: the two neighbours, whose links are written, are alive
      have hdead' : ¬s.Alive j := fun ha ↦ hdead (h.alive_destory_iff.2 ⟨hne, ha⟩)
      have hjl : j ∉ s.live := mt mem_live.1 hdead'
      rw [hlive] at hjl
      have hp : s.prev i ≠ some j := fun hp ↦ hjl
        (List.mem_append_left _ (List.mem_of_getLast? (hprev.symm.trans hp)))
      have hn : s.next i ≠ some j := fun hn ↦ hjl
        (List.mem_append_right _ (List.mem_cons_of_mem _ (List.mem_of_head? (hnext.symm.trans hn))))
      rw [Function.update_of_ne hne, Function.update_of_ne hne, Chain.assign_of_ne hp,
        Chain.assign_of_ne hn]
      exact h.detached j hj hdead'

/-! #### Runs -/

/-- **Every call keeps the invariant.** -/
theorem chained_step {c : ObjectCall ι} (h : s.Chained) (hst : s.step c = some s') :
    s'.Chained := by
  cases c with
  | construct impl =>
    rw [step] at hst
    split at hst
    case isTrue => cases hst
    case isFalse hi => exact Option.some.inj hst ▸ h.construct hi
  | destory impl =>
    rw [step] at hst
    split at hst
    case isTrue hi => exact Option.some.inj hst ▸ h.destory hi
    case isFalse => cases hst

/-- Where an object points to is alive. -/
theorem Chained.alive_of_link (h : s.Chained) (hj : j ∈ s.constructed)
    (hlink : s.next j = some i ∨ s.prev j = some i) : s.Alive i := by
  by_cases ha : s.Alive j
  · rcases hlink with hn | hp
    · exact mem_live.1 (h.linked.forward.mem_of_next (mem_live.2 ha) hn)
    · have hmem := h.linked.backward.mem_of_next (List.mem_reverse.2 (mem_live.2 ha)) hp
      exact mem_live.1 (List.mem_reverse.1 hmem)
  · obtain ⟨hnext, hprev⟩ := h.detached j hj ha
    rw [hnext, hprev] at hlink
    exact hlink.elim nofun nofun

theorem Chained.wellFormed (h : s.Chained) : s.WellFormed where
  visits n := by rw [h.head, h.linked.forward.follow]
  alive i := mem_live
  once := nodup_live
  inverse i j hi hj := h.linked.next_iff (mem_live.2 hi) (mem_live.2 hj)
  head i hi := h.linked.prev_head (h.head.symm.trans hi)
  detached i hi hdead := by
    have hcount := (h.alternate i).1
    have := List.count_pos_iff.2 hi
    exact h.detached i (List.count_pos_iff.1 (by omega)) hdead
  unreferenced i _ hdead :=
    ⟨fun hl ↦ hdead (mem_live.1 (List.mem_of_head? (h.head.symm.trans hl))), fun j hj ↦
      ⟨fun hn ↦ hdead (h.alive_of_link hj (.inl hn)),
        fun hp ↦ hdead (h.alive_of_link hj (.inr hp))⟩⟩

/-- **The list of objects is well formed** after any sequence of calls in which an object is
constructed when it is not alive and destroyed when it is. -/
theorem wellFormed_of_run {next prev : ι → Option ι} {calls : List (ObjectCall ι)}
    (hrun : Transition.run step (start next prev) calls = some s) : s.WellFormed :=
  (Transition.invariant_run' (I := Chained) (fun _ _ _ h hst ↦ chained_step h hst)
    (chained_start next prev) hrun).wellFormed

/-- Three objects, the middle one destroyed first, the oldest next, and the memory of the middle one
used again. -/
theorem wellFormed_of_run_three :
    ∃ s, Transition.run step (start (fun _ ↦ some 9) fun _ ↦ some 9 : ObjectList ℕ)
        [.construct 1, .construct 2, .construct 3, .destory 2, .destory 1, .construct 2] = some s ∧
      s.live = [2, 3] ∧ s.WellFormed := by
  have hrun : Transition.run step (start (fun _ ↦ some 9) fun _ ↦ some 9 : ObjectList ℕ)
      [.construct 1, .construct 2, .construct 3, .destory 2, .destory 1, .construct 2] =
        some _ := rfl
  exact ⟨_, hrun, rfl, wellFormed_of_run hrun⟩

end Invariant

end ObjectList

end JnetLib
