import Mathlib

/-!
# Chains of nodes

A singly linked chain is a list of nodes, each of which points to the following one. The nodes are
whatever they are; `next` is read as a field that every node has.

The rules a queue needs are two: what does not belong to the chain may change its pointer
(`linked_update_of_notMem`), and the last node may be pointed to a new one (`Linked.concat`).

In a chain linked both ways (`DoublyLinked`) the second pointer makes the same chain in the opposite
order. Its rules are insertion at the front (`DoublyLinked.cons`) and removal anywhere
(`DoublyLinked.unlink`), and each of them is a rule about one of the two directions used twice.
-/

namespace Chain

variable {α : Type*} {next : α → Option α}

/-- Each of the nodes points to the following one, the last one to nothing. -/
def Linked (next : α → Option α) : List α → Prop
  | [] => True
  | a :: l => next a = l.head? ∧ Linked next l

@[simp]
theorem linked_nil : Linked next [] :=
  trivial

theorem linked_cons {a : α} {l : List α} :
    Linked next (a :: l) ↔ next a = l.head? ∧ Linked next l :=
  Iff.rfl

/-- A node in the middle points to the one behind it. -/
theorem Linked.next_eq {a : α} {l l' : List α} (h : Linked next (l ++ a :: l')) :
    next a = l'.head? := by
  induction l with
  | nil => exact h.1
  | cons b l ih => exact ih h.2

/-- The nodes point into the chain only. -/
theorem Linked.mem_of_next {a b : α} {l : List α} (h : Linked next l) (ha : a ∈ l)
    (hb : next a = some b) : b ∈ l := by
  obtain ⟨l₁, l₂, rfl⟩ := List.append_of_mem ha
  rw [h.next_eq] at hb
  exact List.mem_append_right _ (List.mem_cons_of_mem _ (List.mem_of_head? hb))

/-- The pointer one gets to from `start` in `n` steps. -/
def follow (next : α → Option α) (start : Option α) : ℕ → Option α
  | 0 => start
  | n + 1 => (follow next start n).bind next

theorem follow_succ' (start : Option α) (n : ℕ) :
    follow next start (n + 1) = follow next (start.bind next) n := by
  induction n with
  | zero => rfl
  | succ n ih =>
    rw [follow, ih]
    rfl

theorem follow_none (n : ℕ) : follow next none n = none := by
  induction n with
  | zero => rfl
  | succ n ih =>
    rw [follow, ih]
    rfl

/-- **Following the pointers** from the first node visits the chain, and then nothing. -/
theorem Linked.follow {l : List α} (h : Linked next l) (n : ℕ) :
    Chain.follow next l.head? n = l[n]? := by
  induction l generalizing n with
  | nil => exact follow_none n
  | cons a l ih =>
    cases n with
    | zero => rfl
    | succ n =>
      obtain ⟨hnext, hl⟩ := linked_cons.1 h
      rw [follow_succ', List.head?_cons, Option.bind_some, hnext, ih hl, List.getElem?_cons_succ]

variable [DecidableEq α]

theorem linked_update_of_notMem {a : α} {v : Option α} {l : List α} (ha : a ∉ l) :
    Linked (Function.update next a v) l ↔ Linked next l := by
  induction l with
  | nil => exact Iff.rfl
  | cons b l ih =>
    obtain ⟨hab, hal⟩ := not_or.1 (mt List.mem_cons.2 ha)
    rw [linked_cons, linked_cons, Function.update_of_ne (Ne.symm hab), ih hal]

/-- A new node, pointing to nothing, is put behind the last one. -/
theorem Linked.concat {b e : α} {l : List α} (h : Linked next (l ++ [b])) (hnd : (l ++ [b]).Nodup)
    (he : e ∉ l ++ [b]) (hnext : next e = none) :
    Linked (Function.update next b (some e)) (l ++ [b, e]) := by
  induction l with
  | nil =>
    have heb : e ≠ b := fun hb ↦ he (hb ▸ List.mem_singleton_self b)
    exact ⟨Function.update_self .., by rw [Function.update_of_ne heb, hnext]; rfl, trivial⟩
  | cons a l ih =>
    obtain ⟨ha, hnd'⟩ := List.nodup_cons.1 hnd
    have hab : a ≠ b := fun hb ↦ ha (hb ▸ by simp)
    obtain ⟨hhead, htail⟩ := linked_cons.1 h
    refine ⟨?_, ih htail hnd' fun hl ↦ he (List.mem_cons_of_mem _ hl)⟩
    rw [Function.update_of_ne hab, hhead]
    simp

/-! ### Chains linked both ways -/

/-- An assignment through a pointer that may be null: `if (p) p->field = v`. -/
def assign (field : α → Option α) (p v : Option α) : α → Option α :=
  match p with
  | some b => Function.update field b v
  | none => field

theorem assign_of_ne {field : α → Option α} {p v : Option α} {a : α} (h : p ≠ some a) :
    assign field p v a = field a := by
  cases p with
  | none => rfl
  | some b =>
    have hab : a ≠ b := fun hab ↦ h (congrArg some hab.symm)
    exact Function.update_of_ne hab ..

/-- A node is taken out by pointing the one before it, if there is one, to the one behind it. -/
theorem Linked.unlink {a : α} {l l' : List α} (h : Linked next (l ++ a :: l'))
    (hnd : (l ++ a :: l').Nodup) :
    Linked (assign next l.getLast? l'.head?) (l ++ l') := by
  induction l with
  | nil => exact h.2
  | cons b l ih =>
    obtain ⟨hb, hnd'⟩ := List.nodup_cons.1 hnd
    obtain ⟨hhead, htail⟩ := linked_cons.1 h
    cases l with
    | nil =>
      have hbl : b ∉ l' := fun hl ↦ hb (List.mem_cons_of_mem _ hl)
      exact ⟨Function.update_self .., (linked_update_of_notMem hbl).2 htail.2⟩
    | cons c l =>
      -- the node before `a` is further down
      have hlast : (c :: l).getLast? ≠ some b := fun hl ↦
        hb (List.mem_append_left _ (List.mem_of_getLast? hl))
      rw [List.getLast?_cons_cons]
      exact ⟨(assign_of_ne hlast).trans hhead, ih htail hnd'⟩

/-- `next` links the nodes in the order of the list, `prev` in the opposite order. -/
structure DoublyLinked (next prev : α → Option α) (l : List α) : Prop where
  forward : Linked next l
  backward : Linked prev l.reverse

namespace DoublyLinked

variable {prev : α → Option α} {a b : α} {l l' : List α}

omit [DecidableEq α] in
theorem symm (h : DoublyLinked next prev l) : DoublyLinked prev next l.reverse :=
  ⟨h.backward, by rw [List.reverse_reverse]; exact h.forward⟩

omit [DecidableEq α] in
theorem prev_eq (h : DoublyLinked next prev (l ++ a :: l')) : prev a = l.getLast? := by
  have hback := h.backward
  rw [List.reverse_append, List.reverse_cons, List.append_assoc, List.singleton_append] at hback
  rw [hback.next_eq, List.head?_reverse]

omit [DecidableEq α] in
theorem prev_of_next (h : DoublyLinked next prev l) (ha : a ∈ l) (hb : next a = some b) :
    prev b = some a := by
  obtain ⟨l₁, l₂, rfl⟩ := List.append_of_mem ha
  rw [h.forward.next_eq] at hb
  obtain ⟨l₃, rfl⟩ := List.head?_eq_some_iff.1 hb
  have hsplit : l₁ ++ a :: b :: l₃ = (l₁ ++ [a]) ++ b :: l₃ := by simp
  rw [hsplit] at h
  rw [h.prev_eq, List.getLast?_concat]

omit [DecidableEq α] in
/-- **The two pointers are inverse to each other.** -/
theorem next_iff (h : DoublyLinked next prev l) (ha : a ∈ l) (hb : b ∈ l) :
    next a = some b ↔ prev b = some a :=
  ⟨h.prev_of_next ha, h.symm.prev_of_next (List.mem_reverse.2 hb)⟩

omit [DecidableEq α] in
/-- Nothing comes before the first node. -/
theorem prev_head (h : DoublyLinked next prev l) (ha : l.head? = some a) : prev a = none := by
  obtain ⟨l', rfl⟩ := List.head?_eq_some_iff.1 ha
  exact prev_eq (l := []) h

/-- A new node is put in front. -/
theorem cons (h : DoublyLinked next prev l) (hnd : l.Nodup) (ha : a ∉ l) :
    DoublyLinked (Function.update next a l.head?)
      (assign (Function.update prev a none) l.head? (some a)) (a :: l) where
  forward := ⟨Function.update_self .., (linked_update_of_notMem ha).2 h.forward⟩
  backward := by
    have ha' : a ∉ l.reverse := mt List.mem_reverse.1 ha
    have hnd' : l.reverse.Nodup := List.nodup_reverse.2 hnd
    have hback : Linked (Function.update prev a none) l.reverse :=
      (linked_update_of_notMem ha').2 h.backward
    cases l with
    | nil => exact ⟨Function.update_self .., trivial⟩
    | cons b l =>
      rw [List.reverse_cons] at ha' hnd' hback
      rw [List.reverse_cons, List.reverse_cons, List.append_assoc]
      exact hback.concat hnd' ha' (Function.update_self ..)

/-- A node is taken out, wherever it is. -/
theorem unlink (h : DoublyLinked next prev (l ++ a :: l')) (hnd : (l ++ a :: l').Nodup) :
    DoublyLinked (assign next (prev a) (next a)) (assign prev (next a) (prev a)) (l ++ l') where
  forward := by
    rw [h.prev_eq, h.forward.next_eq]
    exact h.forward.unlink hnd
  backward := by
    have hrev : (l ++ a :: l').reverse = l'.reverse ++ a :: l.reverse := by simp
    have hunlink := (hrev ▸ h.backward).unlink (hrev ▸ List.nodup_reverse.2 hnd)
    rw [List.getLast?_reverse, List.head?_reverse] at hunlink
    rw [List.reverse_append, h.prev_eq, h.forward.next_eq]
    exact hunlink

/-- The links of a node that is not in the chain may change. -/
theorem update_of_notMem (h : DoublyLinked next prev l) (ha : a ∉ l) {v w : Option α} :
    DoublyLinked (Function.update next a v) (Function.update prev a w) l :=
  ⟨(linked_update_of_notMem ha).2 h.forward,
    (linked_update_of_notMem (mt List.mem_reverse.1 ha)).2 h.backward⟩

end DoublyLinked

end Chain
