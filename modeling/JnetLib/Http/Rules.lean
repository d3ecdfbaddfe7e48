import JnetLib.Http.Parser

/-!
# Rules for the loop of the parser

`Flow.Meets` is a rule of two cases: what holds where the loop goes on, and what holds where the
function returns. `Exec.meets_notify` and `Exec.meets_callbackData` are its rules for a callback,
each with one case for a callback that lets the parser go on and one for a callback that stops it.
They are all that the other modules on the parser know of the way callbacks are made.

With them comes a first invariant of the loop: the parser has no error, is inside the bytes, and has
not come to the end of a message. `Ongoing` says so where the loop goes on, and `Over` says what
holds where the function returns.
-/

namespace JnetLib.Http

/-! ### Rules -/

/-- `I` holds where the loop goes on, and `R` where the function returns. -/
def Flow.Meets (I R : Exec → ℕ → Prop) : Flow → Prop
  | .next x p => I x p
  | .ret x n => R x n

theorem Flow.Meets.mono {I I' R R' : Exec → ℕ → Prop} (hI : ∀ x p, I x p → I' x p)
    (hR : ∀ x n, R x n → R' x n) {f : Flow} (h : f.Meets I R) : f.Meets I' R' := by
  cases f with
  | next x p => exact hI x p h
  | ret x n => exact hR x n h

/-- An error that is neither of the two numbers a call can end with when all is well. -/
def HttpErrno.Fatal (e : HttpErrno) : Prop := e ≠ .ok ∧ e ≠ .paused

instance (e : HttpErrno) : Decidable e.Fatal := inferInstanceAs (Decidable (_ ∧ _))

theorem DataCallback.fatal_errno (which : DataCallback) : which.errno.Fatal := by
  cases which <;> decide

theorem fatal_of_switchMethod {m : Method} {index : ℕ} {ch : Byte} {e : HttpErrno}
    (h : switchMethod m index ch = .error e) : e.Fatal := by
  rw [switchMethod] at h
  split_ifs at h <;> cases h <;> decide

/-! ### What leaves state and error number alone -/

section Alike

variable {q q' : Parser} {ch c : Byte} {e : HttpErrno}

/-- The fields the course of a header section depends on. -/
structure Parser.Alike (q' q : Parser) : Prop where
  errno : q'.httpErrno = q.httpErrno
  state : q'.state = q.state
  trailing : q'.flags.trailing = q.flags.trailing
  skipbody : q'.flags.skipbody = q.flags.skipbody
  upgrade : q'.upgrade = q.upgrade

theorem alike_matchNext (q : Parser) (word : List Byte) (matched : HeaderState) (c : Byte) :
    (q.matchNext word matched c).Alike q := by
  rw [Parser.matchNext]
  dsimp only
  split_ifs <;> exact ⟨rfl, rfl, rfl, rfl, rfl⟩

theorem alike_nextField (q : Parser) (ch c : Byte) : (q.nextField ch c).Alike q := by
  rw [Parser.nextField]
  split <;> first
    | exact ⟨rfl, rfl, rfl, rfl, rfl⟩
    | exact alike_matchNext _ _ _ _
    | split <;> exact ⟨rfl, rfl, rfl, rfl, rfl⟩

theorem alike_startValue (h : q.startValue ch c = .ok q') : q'.Alike q := by
  rw [Parser.startValue] at h
  split at h <;> first
    | cases h; exact ⟨rfl, rfl, rfl, rfl, rfl⟩
    | split at h <;> cases h; exact ⟨rfl, rfl, rfl, rfl, rfl⟩

theorem fatal_of_startValue (h : q.startValue ch c = .error e) : e.Fatal := by
  rw [Parser.startValue] at h
  split at h <;> first | cases h | split at h <;> cases h; decide

theorem alike_endValue (q : Parser) : q.endValue.Alike q := by
  rw [Parser.endValue]
  split <;> exact ⟨rfl, rfl, rfl, rfl, rfl⟩

theorem alike_nextDigit {base d : ℕ} (h : q.nextDigit base d = .ok q') : q'.Alike q := by
  rw [Parser.nextDigit] at h
  split at h <;> cases h
  exact ⟨rfl, rfl, rfl, rfl, rfl⟩

theorem fatal_of_nextDigit {base d : ℕ} (h : q.nextDigit base d = .error e) : e.Fatal := by
  rw [Parser.nextDigit] at h
  split at h <;> cases h
  decide

theorem alike_nextValue (h : q.nextValue ch c = .ok q') : q'.Alike q := by
  rw [Parser.nextValue] at h
  split at h <;> first
    | cases h; first
      | exact ⟨rfl, rfl, rfl, rfl, rfl⟩
      | exact alike_matchNext _ _ _ _
      | split <;> exact ⟨rfl, rfl, rfl, rfl, rfl⟩
    | split_ifs at h
      · cases h; exact ⟨rfl, rfl, rfl, rfl, rfl⟩
      · exact alike_nextDigit h

theorem fatal_of_nextValue (h : q.nextValue ch c = .error e) : e.Fatal := by
  rw [Parser.nextValue] at h
  split at h <;> first
    | cases h
    | split_ifs at h
      · exact fatal_of_nextDigit h
      · cases h; decide

end Alike

namespace Exec

section Rules

variable {reply : Answers} {data : List Byte} {I R : Exec → ℕ → Prop} {x : Exec} {c : Callback}
  {e : HttpErrno} {p er : ℕ} {k : Exec → Flow}

/-- The callbacks made, `c` the last. -/
def history (x : Exec) (c : Callback) : List Callback := x.calls.map Prod.fst ++ [c]

/-- The state behind a callback that ends the call. -/
def stopped (reply : Answers) (x : Exec) (c : Callback) (e : HttpErrno) (er : ℕ) : Exec :=
  { x with
    calls := x.calls ++ [(c, er)]
    parser := { x.parser with
      httpErrno := if (reply (x.history c)).ret = 0 then .paused else e } }

/-- The state behind a callback that lets the parser go on. -/
def passed (x : Exec) (c : Callback) (er : ℕ) : Exec := { x with calls := x.calls ++ [(c, er)] }

/-- The callback for the bytes from a mark on. -/
def since (data : List Byte) (which : DataCallback) (m last : ℕ) : Callback :=
  .data which m ((data.drop m).take (last - m))

theorem errno_call (x : Exec) (c : Callback) (er : ℕ) :
    (x.call reply c er).parser.httpErrno =
      if (reply (x.history c)).pause then .paused else x.parser.httpErrno := by
  have hmap : (x.calls ++ [(c, er)]).map Prod.fst = x.history c := List.map_append
  simp only [call, hmap]

theorem refuse_call (hok : x.parser.httpErrno = .ok) :
    (x.call reply c er).refuse reply e =
      if (reply (x.history c)).ret = 0 ∧ (reply (x.history c)).pause = false then x.passed c er
      else x.stopped reply c e er := by
  obtain ⟨q, marks, calls⟩ := x
  obtain ⟨flags, state, headerState, index, nread, contentLength, httpMajor, httpMinor, method,
    httpErrno, upgrade⟩ := q
  obtain rfl : httpErrno = .ok := hok
  have hmap : (calls ++ [(c, er)]).map Prod.fst = calls.map Prod.fst ++ [c] := by simp
  simp only [call, refuse, passed, stopped, history, hmap]
  by_cases hret : (reply (calls.map Prod.fst ++ [c])).ret = 0 <;>
    by_cases hpause : (reply (calls.map Prod.fst ++ [c])).pause = true <;> simp [hret, hpause]

theorem stopped_errno_ne (he : e ≠ .ok) : (x.stopped reply c e er).parser.httpErrno ≠ .ok := by
  rw [stopped]
  dsimp only
  split
  · exact nofun
  · exact he

/-- A callback ends the call, or leaves nothing but its own trace. -/
theorem meets_notify (hok : x.parser.httpErrno = .ok) (he : e ≠ .ok)
    (hstop : (reply (x.history c)).ret ≠ 0 ∨ (reply (x.history c)).pause = true →
      R (x.stopped reply c e er) er)
    (hgo : (reply (x.history c)).ret = 0 → (reply (x.history c)).pause = false →
      (k (x.passed c er)).Meets I R) : (x.notify reply c e er k).Meets I R := by
  rw [notify, refuse_call hok]
  split
  case isTrue h =>
    have hpassed : (x.passed c er).parser.httpErrno = .ok := hok
    simp only [hpassed, if_true]
    exact hgo h.1 h.2
  case isFalse h =>
    have hne : (x.stopped reply c e er).parser.httpErrno ≠ .ok := stopped_errno_ne he
    simp only [hne, if_false]
    refine hstop ?_
    rw [not_and_or, Bool.not_eq_false] at h
    exact h

/-- A callback for a span is made exactly if there is a mark, which it takes away. -/
theorem meets_callbackData {which : DataCallback} {last : ℕ} (hok : x.parser.httpErrno = .ok)
    (hnone : x.marks which = none → (k x).Meets I R)
    (hsome : ∀ m, x.marks which = some m →
      ((reply (x.history (since data which m last))).ret ≠ 0 ∨
          (reply (x.history (since data which m last))).pause = true →
        R (x.stopped reply (since data which m last) which.errno er) er) ∧
      ((reply (x.history (since data which m last))).ret = 0 →
        (reply (x.history (since data which m last))).pause = false →
        (k { x.passed (since data which m last) er with
          marks := Function.update x.marks which none }).Meets I R)) :
    (x.callbackData reply data which last er k).Meets I R := by
  rw [callbackData]
  split
  · next hm => exact hnone hm
  · next m hm =>
    exact meets_notify hok which.fatal_errno.1 (hsome m hm).1 (hsome m hm).2

end Rules

theorem parser_mark (x : Exec) (which : DataCallback) (p : ℕ) :
    (x.mark which p).parser = x.parser := by
  rw [mark]
  split <;> rfl

theorem errno_mark (x : Exec) (which : DataCallback) (p : ℕ) :
    (x.mark which p).parser.httpErrno = x.parser.httpErrno := by
  rw [parser_mark]

theorem marks_mark_of_ne (x : Exec) {which other : DataCallback} (h : other ≠ which) (p : ℕ) :
    (x.mark which p).marks other = x.marks other := by
  rw [mark]
  split
  · exact Function.update_of_ne h _ _
  · rfl

theorem marks_mark_self {x : Exec} {which : DataCallback} (h : x.marks which = none) (p : ℕ) :
    (x.mark which p).marks which = some p := by
  rw [mark, h]
  exact Function.update_self _ _ _

theorem calls_mark (x : Exec) (which : DataCallback) (p : ℕ) :
    (x.mark which p).calls = x.calls := by
  rw [mark]
  split <;> rfl

/-! ### An invariant of the loop -/

section Loop

variable {reply : Answers} {data : List Byte} {l : List (Callback × ℕ)} {x y : Exec} {p : ℕ}
  {ch : Byte}

/-- Where the loop goes on, since the callbacks `l` have been made: there is no error, the position
is one of `data`, and no message has ended. -/
structure Ongoing (reply : Answers) (data : List Byte) (l : List (Callback × ℕ)) (x : Exec)
    (p : ℕ) : Prop where
  errno : x.parser.httpErrno = .ok
  le : p ≤ data.length
  notMem : reply.PausesAtEnd → .messageComplete ∉ x.calls.map Prod.fst
  grows : l <+: x.calls

/-- Where the function returns. -/
structure Over (reply : Answers) (data : List Byte) (l : List (Callback × ℕ)) (x : Exec) (n : ℕ) :
    Prop where
  eq_of_ok : reply.PausesAtEnd → x.parser.httpErrno = .ok → n = data.length
  notMem_of_ok : reply.PausesAtEnd → x.parser.httpErrno = .ok →
    .messageComplete ∉ x.calls.map Prod.fst
  le_of_paused : x.parser.httpErrno = .paused → n ≤ data.length
  complete : reply.PausesAtEnd → ∀ k, (.messageComplete, k) ∈ x.calls → n ≤ k
  pause : x.parser.httpErrno = .paused → ∃ (m : List Callback) (c : Callback),
    m ++ [c] <+: x.calls.map Prod.fst ∧ (reply (m ++ [c])).pause = true
  grows : l <+: x.calls

/-- What one byte does from `p` on: a round of the loop goes on behind it. -/
abbrev OneByte (reply : Answers) (data : List Byte) (l : List (Callback × ℕ)) (p : ℕ)
    (f : Flow) : Prop :=
  f.Meets (fun y p' ↦ Ongoing reply data l y p' ∧ (reply.PausesAtEnd → p < p'))
    (Over reply data l)

/-- The invariant is about the error number and the callbacks only. -/
theorem Ongoing.congr (h : Ongoing reply data l x p) (he : y.parser.httpErrno = x.parser.httpErrno)
    (hc : y.calls = x.calls) : Ongoing reply data l y p :=
  ⟨he.trans h.errno, h.le, hc ▸ h.notMem, hc ▸ h.grows⟩

/-- A call goes on alike at any position of `data`. -/
theorem Ongoing.at (h : Ongoing reply data l x p) {p' : ℕ} (hp : p' ≤ data.length) :
    Ongoing reply data l x p' :=
  ⟨h.errno, hp, h.notMem, h.grows⟩

/-- The callbacks from which a call goes on can be all there are. -/
theorem Ongoing.self (h : Ongoing reply data l x p) : Ongoing reply data x.calls x p :=
  ⟨h.errno, h.le, h.notMem, List.prefix_refl _⟩

/-- On to the next byte. -/
theorem Ongoing.next (h : Ongoing reply data l x p) (hp : p < data.length)
    (he : y.parser.httpErrno = x.parser.httpErrno) (hc : y.calls = x.calls) :
    OneByte reply data l p (.next y (p + 1)) :=
  ⟨⟨he.trans h.errno, hp, hc ▸ h.notMem, hc ▸ h.grows⟩, fun _ ↦ Nat.lt_succ_self p⟩

/-- An error ends the call. -/
theorem Ongoing.error {e : HttpErrno} {n : ℕ} (h : Ongoing reply data l x p)
    (hc : y.calls = x.calls) (he : e.Fatal) : OneByte reply data l p (y.error e n) where
  eq_of_ok _ h' := absurd h' he.1
  notMem_of_ok _ h' := absurd h' he.1
  le_of_paused h' := absurd h' he.2
  complete hend _ hk := absurd (List.mem_map.2 ⟨_, hc ▸ hk, rfl⟩) (h.notMem hend)
  pause h' := absurd h' he.2
  grows := hc.symm ▸ h.grows

/-- A callback that is not the end of a message lets the call go on. -/
theorem Ongoing.passed (h : Ongoing reply data l x p) {c : Callback} (hne : c ≠ .messageComplete)
    (er : ℕ) : Ongoing reply data l (x.passed c er) p := by
  refine ⟨h.errno, h.le, fun hend hmem ↦ ?_, h.grows.trans (List.prefix_append _ _)⟩
  obtain ⟨a, ha, heq⟩ := List.mem_map.1 hmem
  rcases List.mem_append.1 ha with ha | ha
  · exact h.notMem hend (List.mem_map.2 ⟨a, ha, heq⟩)
  · rw [List.mem_singleton.1 ha] at heq
    exact hne heq

/-- A callback that ends the call. -/
theorem Ongoing.stopped {c : Callback} {e : HttpErrno} {er : ℕ} (h : Ongoing reply data l x p)
    (he : e.Fatal) (her : er ≤ data.length)
    (hstop : (reply (x.history c)).ret ≠ 0 ∨ (reply (x.history c)).pause = true) :
    Over reply data l (x.stopped reply c e er) er where
  eq_of_ok _ h' := absurd h' (stopped_errno_ne he.1)
  notMem_of_ok _ h' := absurd h' (stopped_errno_ne he.1)
  le_of_paused _ := her
  complete hend k hk := by
    rcases List.mem_append.1 hk with hk | hk
    · exact absurd (List.mem_map.2 ⟨_, hk, rfl⟩) (h.notMem hend)
    · exact Nat.le_of_eq (Prod.mk.inj (List.mem_singleton.1 hk)).2.symm
  pause h' := by
    rw [Exec.stopped] at h'
    dsimp only at h'
    split at h'
    · next hret =>
      refine ⟨x.calls.map Prod.fst, c, ?_, hstop.resolve_left (not_not.2 hret)⟩
      rw [Exec.stopped, List.map_append]
      exact List.prefix_refl _
    · exact absurd h' he.2
  grows := h.grows.trans (List.prefix_append _ _)

/-- The callback for a span, where what follows keeps the invariant. -/
theorem Ongoing.callbackData (h : Ongoing reply data l x p) {which : DataCallback} {last er : ℕ}
    (her : er ≤ data.length) {I : Exec → ℕ → Prop} {k : Exec → Flow}
    (hk : ∀ y, Ongoing reply data l y p → y.parser = x.parser → (k y).Meets I (Over reply data l)) :
    (x.callbackData reply data which last er k).Meets I (Over reply data l) := by
  refine meets_callbackData h.errno (fun _ ↦ hk x h rfl) fun m _ ↦
    ⟨fun hstop ↦ h.stopped which.fatal_errno her hstop, fun _ _ ↦ ?_⟩
  have hpassed := h.passed (c := since data which m last) nofun er
  exact hk _ (hpassed.congr rfl rfl) rfl

end Loop

end Exec

end JnetLib.Http
