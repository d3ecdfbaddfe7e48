import JnetLib.Http.Listener

/-!
# Two rounds

A round of the loop on a piece beside the same round on the byte alone. The two have the same
parser. What differs is where a span has begun: on the byte alone it begins at the byte, or where
the callbacks told before have ended. In front of a round both are before a message (`Exec.Idle`),
outside the spans (`Exec.Clear`), or in one span (`Exec.Spanning`); behind it both go on
(`Exec.GoesOn`), or both return with the same error number (`Exec.Returns`). `Exec.Together` is
that.

What a round does to the marks and the callbacks is one of a few things, and each has its rule here:
it goes on (`Level.next`, `Spanning.next`), it marks a span (`Clear.mark`), or it ends one with a
callback (`Spanning.callbackData`, for which two fragments are one).
-/

namespace JnetLib.Http

/-- A state with bytes of a body to take has some to take. -/
def Parser.Sized (q : Parser) : Prop :=
  q.state = .bodyIdentity ∨ q.state = .chunkData → 0 < q.contentLength

theorem State.span_of_plain {s : State} (h : s.plain = true) : s.span = none := by
  cases s <;> first | rfl | cases h

theorem State.span_of_idle {s : State} (h : s.idle = true) : s.span = none := by
  cases s <;> first | rfl | cases h

theorem State.idle_of_plain {s : State} (h : s.plain = true) : s.idle = false := by
  cases s <;> first | rfl | cases h

theorem Parser.sized_of_plain {q : Parser} (h : q.state.plain = true) : q.Sized := by
  rintro (hs | hs) <;>
  · rw [hs] at h
    cases h

/-- Two flows that both go on, or both return. -/
def Flow.Pairs (I R : Exec → ℕ → Exec → ℕ → Prop) : Flow → Flow → Prop
  | .next x p, .next y k => I x p y k
  | .ret x n, .ret y k => R x n y k
  | _, _ => False

namespace Exec

section Pairs

variable {S : Type*} {L : Listener S} {s t : S} {data : List Byte} {ch : Byte} {x : Exec}
  {p k : ℕ} {marks : DataCallback → Option ℕ} {calls : List (Callback × ℕ)}

/-- Outside a span. The other call has the same parser, with marks and callbacks of its own. -/
structure Level (L : Listener S) (s t : S) (x : Exec) (marks : DataCallback → Option ℕ)
    (calls : List (Callback × ℕ)) : Prop where
  errno : x.parser.httpErrno = .ok
  here : x.marks = noMarks
  there : marks = noMarks
  told : L.told s x.calls = L.told t calls

/-- Before a message, where there have been no callbacks. -/
structure Idle (x : Exec) (marks : DataCallback → Option ℕ) (calls : List (Callback × ℕ)) :
    Prop where
  errno : x.parser.httpErrno = .ok
  upgrade : x.parser.upgrade = false
  here : x.marks = noMarks
  there : marks = noMarks
  none_here : x.calls = []
  none_there : calls = []

/-- Outside of a span, and not in a request for another protocol. -/
structure Clear (L : Listener S) (s t : S) (x : Exec) (marks : DataCallback → Option ℕ)
    (calls : List (Callback × ℕ)) : Prop extends Level L s t x marks calls where
  upgrade : x.parser.upgrade = false

/-- In a span, which here began at `m` and there at `j`. -/
structure Spanning (L : Listener S) (s t : S) (data : List Byte) (ch : Byte) (which : DataCallback)
    (x : Exec) (p : ℕ) (marks : DataCallback → Option ℕ) (calls : List (Callback × ℕ)) (k : ℕ) :
    Prop where
  errno : x.parser.httpErrno = .ok
  upgrade : x.parser.upgrade = false
  spans : ∃ m j, m ≤ p ∧ j ≤ k ∧ x.marks = onlyMark which m ∧ marks = onlyMark which j ∧
    L.tell (L.told s x.calls) (.data which 0 (slice data m p)) =
      L.tell (L.told t calls) (.data which 0 (slice [ch] j k))

/-- Both rounds go on behind the byte. -/
inductive GoesOn (L : Listener S) (s t : S) (data : List Byte) (ch : Byte) (p : ℕ) (x : Exec)
    (p' : ℕ) (y : Exec) (k : ℕ) : Prop
  | idle (hp : p' = p + 1) (hk : k = 1) (hparser : y.parser = x.parser)
      (h : Idle x y.marks y.calls) (hidle : x.parser.state.idle = true)
  | clear (hp : p' = p + 1) (hk : k = 1) (hparser : y.parser = x.parser)
      (h : Clear L s t x y.marks y.calls) (hspan : x.parser.state.span = none)
      (hidle : x.parser.state.idle = false) (hsized : x.parser.Sized)
  | span (which : DataCallback) (hp : p' = p + 1) (hk : k = 1) (hparser : y.parser = x.parser)
      (h : Spanning L s t data ch which x (p + 1) y.marks y.calls 1)
      (hspan : x.parser.state.span = some which)

/-- Both rounds return with an error number. -/
structure Returns (L : Listener S) (s t : S) (p : ℕ) (x : Exec) (n : ℕ) (y : Exec) (k : ℕ) :
    Prop where
  parser : y.parser = x.parser
  count : n = p + k
  errno : x.parser.httpErrno ≠ .ok
  paused : x.parser.httpErrno = .paused → k = 1 ∧ x.parser.state.idle = true
  told : ¬x.parser.httpErrno.Fatal → L.told s x.calls = L.told t y.calls

/-- What two rounds do with the byte at `p`. -/
abbrev Together (L : Listener S) (s t : S) (data : List Byte) (ch : Byte) (p : ℕ) :
    Flow → Flow → Prop :=
  Flow.Pairs (GoesOn L s t data ch p) (Returns L s t p)

/-- The execution `x` with the parser `q`. -/
def set (x : Exec) (q : Parser) : Exec := { x with parser := q }

theorem Level.set (h : Level L s t x marks calls) {q : Parser} (hq : q.httpErrno = .ok) :
    Level L s t (x.set q) marks calls :=
  ⟨hq, h.here, h.there, h.told⟩

theorem Clear.set (h : Clear L s t x marks calls) {q : Parser} (hq : q.httpErrno = .ok)
    (hu : q.upgrade = false) : Clear L s t (x.set q) marks calls :=
  ⟨h.toLevel.set hq, hu⟩

theorem Level.next (h : Level L s t x marks calls) {q : Parser} (hq : q.httpErrno = .ok)
    (hu : q.upgrade = false) (hplain : q.state.plain = true) :
    Together L s t data ch p (.next (x.set q) (p + 1)) (.next ⟨q, marks, calls⟩ 1) :=
  .clear rfl rfl rfl ⟨h.set hq, hu⟩ (State.span_of_plain hplain) (State.idle_of_plain hplain)
    (Parser.sized_of_plain hplain)

theorem mark_of_noMarks (h : x.marks = noMarks) (which : DataCallback) (p : ℕ) :
    x.mark which p = { x with marks := onlyMark which p } := by
  rw [Exec.mark, h]
  rfl

/-- The mark for a span that begins here. -/
theorem Clear.mark (h : Clear L s t x marks calls) (which : DataCallback) (p : ℕ) :
    Spanning L s t data ch which { x with marks := onlyMark which p } p (onlyMark which 0) calls
      0 := by
  refine ⟨h.errno, h.upgrade, p, 0, Nat.le_refl _, Nat.le_refl _, rfl, rfl, ?_⟩
  rw [slice_self, slice_self]
  exact congrArg (L.tell · _) h.told

theorem Spanning.set {which : DataCallback} (h : Spanning L s t data ch which x p marks calls k)
    {q : Parser} (hq : q.httpErrno = .ok) (hu : q.upgrade = false) :
    Spanning L s t data ch which (x.set q) p marks calls k :=
  ⟨hq, hu, h.spans⟩

/-- The byte at `p` is one more of the span. -/
theorem Spanning.extend {which : DataCallback} (h : Spanning L s t data ch which x p marks calls 0)
    (hch : data[p]? = some ch) : Spanning L s t data ch which x (p + 1) marks calls 1 := by
  obtain ⟨hok, hu, m, j, hm, hj, hx, hy, htell⟩ := h
  obtain rfl := Nat.le_zero.1 hj
  refine ⟨hok, hu, m, 0, Nat.le_succ_of_le hm, Nat.zero_le _, hx, hy, ?_⟩
  have hone : slice [ch] 0 1 = slice [ch] 0 0 ++ [ch] := slice_succ (Nat.zero_le _) rfl
  rw [slice_succ hm hch, ← L.tell_tell, htell, L.tell_tell, hone]

theorem Spanning.next {which : DataCallback} (h : Spanning L s t data ch which x p marks calls 0)
    (hch : data[p]? = some ch) {q : Parser} (hq : q.httpErrno = .ok) (hu : q.upgrade = false)
    (hspan : q.state.span = some which) :
    Together L s t data ch p (.next (x.set q) (p + 1)) (.next ⟨q, marks, calls⟩ 1) :=
  .span which rfl rfl rfl ((h.extend hch).set hq hu) hspan

/-- An error ends both. -/
theorem together_error {e : HttpErrno} (he : e.Fatal) {y : Exec} (hy : y.parser = x.parser) :
    Together L s t data ch p (x.error e p) (y.error e 0) :=
  ⟨by rw [hy], rfl, he.1, fun h ↦ absurd h he.2, fun h ↦ absurd he h⟩

theorem update_onlyMark (which : DataCallback) (m : ℕ) :
    Function.update (onlyMark which m) which none = noMarks := by
  rw [onlyMark, Function.update_idem]
  exact Function.update_eq_self which noMarks

/-- A callback that lets the parser go on. -/
theorem notify_of_go {reply : Answers} {c : Callback} {e : HttpErrno} {er : ℕ} {k : Exec → Flow}
    (hok : x.parser.httpErrno = .ok) (hreply : reply (x.history c) = ⟨0, false⟩) :
    x.notify reply c e er k = k (x.passed c er) := by
  have hpassed : (x.passed c er).parser.httpErrno = .ok := hok
  have hgo : (x.call reply c er).refuse reply e = x.passed c er := by
    rw [refuse_call hok, hreply]
    exact if_pos ⟨rfl, rfl⟩
  rw [Exec.notify, hgo]
  exact if_pos hpassed

/-- A listener lets it go on behind a span. -/
theorem callbackData_of_onlyMark {which : DataCallback} {m last er : ℕ} {k : Exec → Flow}
    (hok : x.parser.httpErrno = .ok) (hmarks : x.marks = onlyMark which m) :
    x.callbackData (L.answers s) data which last er k =
      k { x.passed (since data which m last) er with marks := noMarks } := by
  have hm : x.marks which = some m := by
    rw [hmarks]
    exact Function.update_self _ _ _
  have hreply : L.answers s (x.history (since data which m last)) = ⟨0, false⟩ := by
    rw [L.answers_history]
    exact L.answer_data _ _ _ _
  rw [Exec.callbackData]
  simp only [hm]
  rw [← update_onlyMark which m, ← hmarks]
  exact notify_of_go hok hreply

theorem callbackData_of_none {which : DataCallback} {last er : ℕ} {k : Exec → Flow}
    (hm : x.marks which = none) : x.callbackData (L.answers s) data which last er k = k x := by
  rw [Exec.callbackData]
  simp only [hm]

/-- The callback for a span, which ends before the byte. -/
theorem Spanning.callbackData {which : DataCallback}
    (h : Spanning L s t data ch which x p marks calls 0) (er ek : ℕ) {kx ky : Exec → Flow}
    (hk : ∀ x' calls', x'.parser = x.parser → Clear L s t x' noMarks calls' →
      Together L s t data ch p (kx x') (ky ⟨x'.parser, noMarks, calls'⟩)) :
    Together L s t data ch p (x.callbackData (L.answers s) data which p er kx)
      (Exec.callbackData (L.answers t) [ch] ⟨x.parser, marks, calls⟩ which 0 ek ky) := by
  obtain ⟨hok, hu, m, j, hm, hj, hx, hy, htell⟩ := h
  rw [callbackData_of_onlyMark hok hx,
    callbackData_of_onlyMark (x := ⟨x.parser, marks, calls⟩) hok hy]
  refine hk _ _ rfl ⟨⟨hok, rfl, rfl, ?_⟩, hu⟩
  show L.told s (x.calls ++ [(_, er)]) = L.told t (calls ++ [(_, ek)])
  rw [L.told_concat, L.told_concat, since, since, L.tell_off, L.tell_off _ _ j]
  exact htell

/-- A span that ends with a callback, behind which the next byte comes. -/
theorem Spanning.callbackData_next {which : DataCallback}
    (h : Spanning L s t data ch which x p marks calls 0) {q : Parser} (hq : q.httpErrno = .ok)
    (hu : q.upgrade = false) (hplain : q.state.plain = true) :
    Together L s t data ch p
      ((x.set q).callbackData (L.answers s) data which p (p + 1) fun x ↦ .next x (p + 1))
      (Exec.callbackData (L.answers t) [ch] ⟨q, marks, calls⟩ which 0 1 fun x ↦ .next x 1) := by
  refine Spanning.callbackData (h.set hq hu) (p + 1) 1 fun x' calls' hx' h' ↦ ?_
  have hx : x'.parser = q := hx'
  exact h'.next h'.errno h'.upgrade (by rw [hx]; exact hplain)

end Pairs

end Exec

end JnetLib.Http
