import JnetLib.Foundation.Chain

/-!
# The chain of a worker queue

`file_ops` and `resolver` keep what is queued for their worker thread in a chain: `head_` and
`tail_` point to its first and its last entry, and each entry to the next one. `Links.Delimits.push`
and `Links.Delimits.pop` say that the chain is a queue: the assignments of `push` append the entry,
and those of `pop` take the first one. Both rest on `Chain`, and on the entries being different from
each other.
-/

namespace JnetLib.Worker

/-- `head_`, `tail_` and the `next` fields of the entries. -/
structure Links (ε : Type) where
  head : Option ε
  tail : Option ε
  next : ε → Option ε

namespace Links

variable {ε : Type} [DecidableEq ε]

/-- The assignments of `push`. -/
def push (q : Links ε) (entry : ε) : Links ε where
  next :=
    match q.tail with
    | some t => Function.update q.next t (some entry)
    | none => q.next
  tail := some entry
  head :=
    match q.head with
    | some e => some e
    | none => some entry

/-- The assignments of `pop`, and the entry it returns. -/
def pop (q : Links ε) : Option ε × Links ε :=
  let entry := q.head
  (entry,
    { next := q.next
      head :=
        match entry with
        | some e => q.next e
        | none => q.head
      tail := if q.tail = entry then none else q.tail })

/-- `head_` and `tail_` are both null, or delimit the chain of the entries `l`. -/
structure Delimits (q : Links ε) (l : List ε) : Prop where
  head : q.head = l.head?
  tail : q.tail = l.getLast?
  linked : Chain.Linked q.next l

variable {q : Links ε} {l : List ε} {e e' : ε}

omit [DecidableEq ε] in
theorem Delimits.mem_of_tail (h : q.Delimits l) (ht : q.tail = some e) : e ∈ l :=
  List.mem_of_getLast? (h.tail.symm.trans ht)

/-- `push` changes the `next` field of a queued entry only. -/
theorem Delimits.push_next (h : q.Delimits l) (he : e' ∉ l) : (q.push e).next e' = q.next e' := by
  cases ht : q.tail with
  | none => simp [push, ht]
  | some t =>
    have hne : e' ≠ t := fun hb ↦ he (hb ▸ h.mem_of_tail ht)
    simp [push, ht, hne]

/-- `push` appends the entry. -/
theorem Delimits.push (h : q.Delimits l) (hnd : l.Nodup) (he : e ∉ l) (hnext : q.next e = none) :
    (q.push e).Delimits (l ++ [e]) := by
  rcases l.eq_nil_or_concat' with rfl | ⟨l', b, rfl⟩
  · have hh : q.head = none := h.head
    have ht : q.tail = none := h.tail
    exact ⟨by simp [Links.push, hh], rfl, by simp [Links.push, ht, hnext, Chain.linked_cons]⟩
  · have ht : q.tail = some b := by rw [h.tail, List.getLast?_concat]
    have hlinked := h.linked.concat hnd he hnext
    refine ⟨?_, by simp [Links.push], by simpa [Links.push, ht] using hlinked⟩
    cases hh : q.head with
    | none => exact absurd (h.head.symm.trans hh) (by simp)
    | some a =>
      have ha : (l' ++ [b]).head? = some a := h.head.symm.trans hh
      rw [List.head?_append, ha]
      simp [Links.push, hh]

/-- `pop` takes the first entry. -/
theorem Delimits.pop (h : q.Delimits (e :: l)) (hnd : (e :: l).Nodup) :
    q.pop.1 = some e ∧ q.pop.2.Delimits l := by
  have hh : q.head = some e := h.head
  obtain ⟨he, -⟩ := List.nodup_cons.1 hnd
  obtain ⟨hnext, hlinked⟩ := Chain.linked_cons.1 h.linked
  refine ⟨hh, by simp [Links.pop, hh, hnext], ?_, hlinked⟩
  rcases l.eq_nil_or_concat' with rfl | ⟨l', b, rfl⟩
  · have ht : q.tail = some e := h.tail
    simp [Links.pop, hh, ht]
  · have hlast : (e :: (l' ++ [b])).getLast? = some b := by
      rw [← List.cons_append, List.getLast?_concat]
    have hbe : b ≠ e := fun hb ↦ he (hb ▸ by simp)
    simp [Links.pop, hh, h.tail, hlast, hbe]

/-- `pop` on the empty queue. -/
theorem Delimits.pop_nil (h : q.Delimits []) : q.pop.1 = none ∧ q.pop.2.Delimits [] := by
  have hh : q.head = none := h.head
  have ht : q.tail = none := h.tail
  exact ⟨hh, by simp [Links.pop, hh], by simp [Links.pop, hh, ht], trivial⟩

end Links

end JnetLib.Worker
