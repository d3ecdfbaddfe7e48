import JnetLib.Http.OneByte

/-!
# One byte at a time

To a listener a call with a piece tells what the calls with its bytes tell, one byte each, and the
parser ends up the same (`next_agrees`). So all ways of cutting a stream into pieces agree
(`feed_agrees`).

* `loop_agrees` is the induction, over the bytes of the piece that are left. A round goes with the
  call of its byte (`agreeing_byte`), or in a body with the calls of all the bytes it takes
  (`agreeing_body`), and `Heard` holds again behind it.
* `feed_agrees` rests on `next_agrees` for every piece, and on the invariant `Fed.Fits`, which says
  where a listener can take over.
-/

namespace JnetLib.Http

/-- A parser that goes on, in a message of this protocol. -/
structure Parser.Fit (q : Parser) : Prop where
  errno : q.httpErrno = .ok
  upgrade : q.upgrade = false
  sized : q.Sized

/-- Where a listener can take over: the part of a span told last goes on. -/
structure Fed.Fits {S : Type*} (L : Listener S) (f : Fed S) : Prop extends f.parser.Fit where
  goesOn : ∀ which, f.parser.state.span = some which → L.tell f.state (.data which 0 []) = f.state

namespace Exec

section Calls

variable {S : Type*} {L : Listener S} {s t : S} {data : List Byte} {ch : Byte} {x : Exec}
  {p : ℕ}

theorem count_eq (x : Exec) : x.count = x.set x.count.parser := by
  rw [count]
  split <;> rfl

theorem errno_count (x : Exec) : x.count.parser.httpErrno = x.parser.httpErrno := by
  rw [count]
  split <;> rfl

theorem count_mk (x : Exec) (marks : DataCallback → Option ℕ) (calls : List (Callback × ℕ)) :
    (Exec.mk x.parser marks calls).count = ⟨x.count.parser, marks, calls⟩ := by
  rw [count, count]
  dsimp only
  split <;> rfl

theorem initialMarks_count (x : Exec) : x.count.parser.initialMarks = x.parser.initialMarks := by
  cases hspan : x.parser.state.span with
  | none =>
    rw [initialMarks_of_none hspan, initialMarks_of_none (by rw [count_state]; exact hspan)]
  | some which =>
    rw [initialMarks_of_some hspan, initialMarks_of_some (by rw [count_state]; exact hspan)]

theorem Heard.count (h : Heard L s data x p t) : Heard L s data x.count p t := by
  have hstate := count_state x
  rw [count_eq] at hstate ⊢
  cases h with
  | idle hmarks hidle hcalls => exact .idle hmarks (hstate ▸ hidle) hcalls
  | clear hmarks hspan hne htold => exact .clear hmarks (hstate ▸ hspan) (hstate ▸ hne) htold
  | span which m hm hmarks hspan htold => exact .span which m hm hmarks (hstate ▸ hspan) htold
  | body m hm hmarks hs htold => exact .body m hm hmarks (hstate ▸ hs) htold

theorem upgrade_count (x : Exec) : x.count.parser.upgrade = x.parser.upgrade := by
  rw [count]
  split <;> rfl

/-- Of a span in progress a part has been told. -/
theorem Heard.goesOn (h : Heard L s data x p t) {which : DataCallback}
    (hspan : x.parser.state.span = some which) : L.tell t (.data which 0 []) = t := by
  cases h with
  | idle _ hidle _ =>
    rw [State.span_of_idle hidle] at hspan
    cases hspan
  | clear _ hnone _ _ =>
    rw [hspan] at hnone
    cases hnone
  | span which' _ _ _ hsome htold =>
    obtain rfl : which = which' := Option.some.inj (hspan.symm.trans hsome)
    rw [← htold, L.tell_tell, List.append_nil]
  | body _ _ _ hstate _ =>
    rcases hstate with hs | hs | hs <;>
    · rw [hs] at hspan
      cases hspan

/-- Two rounds that go on have heard the same behind the byte. -/
theorem GoesOn.heard {y : Exec} {p' k : ℕ} (h : GoesOn L s t data ch p x p' y k) :
    p' = p + 1 ∧ k = 1 ∧ y.parser = x.parser ∧ x.parser.Fit ∧
      ∃ t', Heard L s data x (p + 1) t' ∧ Heard L t [ch] y 1 t' ∧
        (x.parser.state.idle = true → t' = t) := by
  cases h with
  | idle hp hk hparser h hidle =>
    refine ⟨hp, hk, hparser, ⟨h.errno, h.upgrade, ?_⟩, t, .idle h.here hidle h.none_here,
      .idle h.there (by rw [hparser]; exact hidle) h.none_there, fun _ ↦ rfl⟩
    rintro (hs | hs) <;>
    · rw [hs] at hidle
      cases hidle
  | clear hp hk hparser h hspan hne hsized =>
    refine ⟨hp, hk, hparser, ⟨h.errno, h.upgrade, hsized⟩, _, .clear h.here hspan hne h.told, ?_,
      fun hidle ↦ absurd (hidle.symm.trans hne) nofun⟩
    exact .clear h.there (by rw [hparser]; exact hspan) (by rw [hparser]; exact hne) rfl
  | span which hp hk hparser h hspan =>
    obtain ⟨hok, hu, m, j, hm, hj, hx, hy, htell⟩ := h
    refine ⟨hp, hk, hparser, ⟨hok, hu, ?_⟩, _, .span which m hm hx hspan htell, ?_, ?_⟩
    · rintro (hs | hs) <;>
      · rw [hs] at hspan
        cases hspan
    · exact .span which j hj hy (by rw [hparser]; exact hspan) rfl
    · intro hidle
      rw [State.span_of_idle hidle] at hspan
      cases hspan

/-- A byte too many for a header section. -/
theorem next_of_overflow (ch : Byte) (hok : x.parser.httpErrno = .ok)
    (hover : parsingHeader x.count.parser.state ∧ HTTP_MAX_HEADER_SIZE < x.count.parser.nread)
    (n : ℕ) :
    (L.next ⟨x.parser, t, n⟩ [ch]).parser = { x.count.parser with httpErrno := .headerOverflow } ∧
      (L.next ⟨x.parser, t, n⟩ [ch]).consumed = n := by
  have hloop : Exec.loop (L.answers t) [ch] 4 ⟨x.parser, x.parser.initialMarks, []⟩ 0 =
      (⟨{ x.count.parser with httpErrno := .headerOverflow }, x.parser.initialMarks, []⟩, 0) := by
    rw [loop_succ_of_some (show [ch][0]? = some ch from rfl), count_mk, if_pos hover]
  rw [L.next_singleton hok, hloop]
  exact ⟨rfl, rfl⟩

/-- What is left to compare: the loop from `p` on, and the bytes from `p` on. -/
structure Agreeing (L : Listener S) (s : S) (base : ℕ) (r : Exec × ℕ) (f : Fed S) : Prop where
  agrees : Fed.Agrees ⟨r.1.parser, L.told s r.1.calls, base + r.2⟩ f
  fits : r.1.parser.httpErrno = .ok →
    Fed.Fits L ⟨r.1.parser, L.told s r.1.calls, base + r.2⟩

/-- An error number ends both. -/
theorem Agreeing.of_agrees {base : ℕ} {r : Exec × ℕ} {f : Fed S}
    (h : Fed.Agrees ⟨r.1.parser, L.told s r.1.calls, base + r.2⟩ f)
    (hne : r.1.parser.httpErrno ≠ .ok) (l : List (List Byte)) :
    Agreeing L s base r (L.feed f l) := by
  have hparser : f.parser = r.1.parser := h.parser.symm
  rw [L.feed_of_ne_ok (by rw [hparser]; exact hne)]
  exact ⟨h, fun hok ↦ absurd hok hne⟩

/-- The end of a call behind the last byte of its piece. -/
theorem agreeing_finish {base fuel : ℕ} (hfit : x.parser.Fit)
    (h : Heard L s data x data.length t) :
    Agreeing L s base (x.loop (L.answers s) data (fuel + 1) data.length)
      ⟨x.parser, t, base + data.length⟩ := by
  have hnone : data[data.length]? = none := List.getElem?_eq_none (Nat.le_refl _)
  obtain ⟨z, hz, hparser, htold⟩ := finish_of_heard h hfit.errno
  rw [loop_succ_of_none hnone, hz]
  have hheard (hne : z.parser.state.idle = false) : L.told s z.calls = t := by
    rw [hparser] at hne
    exact htold.resolve_left fun hi ↦ absurd (hi.1.symm.trans hne) nofun
  refine ⟨⟨hparser, rfl, fun htells ↦ ?_⟩, fun _ ↦ ⟨hparser ▸ hfit, fun which hspan ↦ ?_⟩⟩
  · exact hheard (htells.2 (by dsimp only; rw [hparser]; exact hfit.errno))
  · dsimp only at hspan ⊢
    have hne : z.parser.state.idle = false := by
      refine Bool.eq_false_of_not_eq_true fun hi ↦ ?_
      rw [State.span_of_idle hi] at hspan
      cases hspan
    rw [hparser] at hspan
    rw [hheard hne]
    exact h.goesOn hspan

/-- A byte that is not one of a body, where what is behind it agrees. -/
theorem agreeing_byte {base fuel : ℕ} {l : List (List Byte)} (hch : data[p]? = some ch)
    (hfit : x.parser.Fit) (h : Heard L s data x p t)
    (hbody : x.parser.state ≠ .bodyIdentity) (hchunk : x.parser.state ≠ .chunkData)
    (ih : ∀ y t', y.parser.Fit → Heard L s data y (p + 1) t' →
      Agreeing L s base (y.loop (L.answers s) data fuel (p + 1))
        (L.feed ⟨y.parser, t', base + (p + 1)⟩ l)) :
    Agreeing L s base (x.loop (L.answers s) data (fuel + 1) p)
      (L.feed ⟨x.parser, t, base + p⟩ ([ch] :: l)) := by
  have hcount : Exec.count ⟨x.parser, x.parser.initialMarks, []⟩ =
      ⟨x.count.parser, x.count.parser.initialMarks, []⟩ := by
    rw [count_mk, initialMarks_count]
  rw [loop_succ_of_some hch, L.feed_cons]
  by_cases hover : parsingHeader x.count.parser.state ∧
      HTTP_MAX_HEADER_SIZE < x.count.parser.nread
  · obtain ⟨hparser, hconsumed⟩ :
        (L.next ⟨x.parser, t, base + p⟩ [ch]).parser =
            { x.count.parser with httpErrno := .headerOverflow } ∧ _ :=
      next_of_overflow ch hfit.errno hover (base + p)
    have hfatal : HttpErrno.Fatal .headerOverflow := by decide
    rw [if_pos hover]
    exact Agreeing.of_agrees ⟨hparser.symm, hconsumed.symm, fun h ↦ absurd hfatal h.1⟩ hfatal.1 _
  · rw [if_neg hover]
    have htog := together_step h.count ((errno_count x).trans hfit.errno)
      ((upgrade_count x).trans hfit.upgrade) hch
      (by rw [count_state]; exact hbody) (by rw [count_state]; exact hchunk)
    have hstep : (Exec.count ⟨x.parser, x.parser.initialMarks, []⟩).step (L.answers t) [ch] 0 ch =
        Exec.step (L.answers t) [ch] ⟨x.count.parser, x.count.parser.initialMarks, []⟩ 0 ch := by
      rw [hcount]
    have hlt : ¬(parsingHeader (Exec.count ⟨x.parser, x.parser.initialMarks, []⟩).parser.state ∧
        HTTP_MAX_HEADER_SIZE <
          (Exec.count ⟨x.parser, x.parser.initialMarks, []⟩).parser.nread) := by
      rw [hcount]
      exact hover
    cases hf : x.count.step (L.answers s) data p ch with
    | next y p' =>
      cases hg : Exec.step (L.answers t) [ch] ⟨x.count.parser, x.count.parser.initialMarks, []⟩ 0
          ch with
      | next z k =>
        rw [hf, hg] at htog
        obtain ⟨rfl, rfl, hparser, hy, t', hheard, hthere, hidle⟩ := htog.heard
        rw [L.next_of_heard hfit.errno hlt (hstep.trans hg) (by rw [hparser]; exact hy.errno) hthere
          (by rw [hparser]; exact hidle), hparser]
        exact ih y t' hy hheard
      | ret z k =>
        rw [hf, hg] at htog
        exact htog.elim
    | ret y m =>
      cases hg : Exec.step (L.answers t) [ch] ⟨x.count.parser, x.count.parser.initialMarks, []⟩ 0
          ch with
      | next z k =>
        rw [hf, hg] at htog
        exact htog.elim
      | ret z k =>
        rw [hf, hg] at htog
        obtain ⟨hparser, rfl, hne, -, htold⟩ := htog
        rw [L.next_of_ret hfit.errno hlt (hstep.trans hg)]
        exact Agreeing.of_agrees
          ⟨hparser.symm, (Nat.add_assoc _ _ _).symm, fun htells ↦ htold htells.1⟩ hne _

/-- The end of a body of known length, and the byte that ends it. -/
theorem agreeing_bodyIdentity {base m : ℕ} {t' : S} {last : Byte} (hm : m ≤ p)
    (hmark : x.mark .body p = { x with marks := onlyMark .body m }) (hok : x.parser.httpErrno = .ok)
    (hs : x.parser.state = .bodyIdentity) (hpos : 0 < x.parser.contentLength)
    (hle : x.parser.contentLength ≤ data.length - p)
    (htake : L.tell (L.told s x.calls)
      (.data .body 0 (slice data m (p + x.parser.contentLength))) =
        L.tell t' (.data .body 0 [last])) (l : List (List Byte)) :
    ∃ z n, x.step (L.answers s) data p ch = .ret z n ∧
      Agreeing L s base (z, n)
        (L.feed (L.next ⟨{ x.parser with contentLength := 1 }, t', base + p +
          x.parser.contentLength - 1⟩ [last]) l) := by
  generalize hk : x.parser.contentLength = k at hpos hle htake
  set q : Parser := { x.parser with contentLength := 0, state := .messageDone } with hq
  set y : Exec := ⟨q, noMarks, x.calls ++ [(since data .body m (p + k), p + k - 1)]⟩ with hy
  set calls : List (Callback × ℕ) := [(since [last] .body 0 1, 0)] with hcalls
  have hlevel : Level L s t' y noMarks calls := by
    refine ⟨hok, rfl, rfl, ?_⟩
    rw [hy, hcalls, L.told_concat, since, L.tell_off]
    exact htake
  have hstep : x.step (L.answers s) data p ch =
      .ret ((y.goto q.newMessage).stopped (L.answers s) .messageComplete .cbMessageComplete
        (p + k - 1 + 0 + 1)) (p + k - 1 + 0 + 1) := by
    rw [step_bodyIdentity hmark hs (by rw [hk]; exact hpos) (by rw [hk]; exact hle), hk,
      callbackData_of_onlyMark (x := ⟨q, onlyMark .body m, x.calls⟩) hok rfl]
    exact complete_eq (x := y) hok _
  obtain ⟨hparser, -, hne, -, htold⟩ := returns_complete (p := p + k - 1) hlevel (Nat.zero_add 1)
  refine ⟨_, _, hstep, ?_⟩
  rw [L.next_bodyIdentity (q := { x.parser with contentLength := 1 }) hok hs rfl]
  exact Agreeing.of_agrees ⟨hparser.symm, by dsimp only; omega, fun htells ↦ htold htells.1⟩ hne l

/-- A body that goes on behind the last byte, where what is behind it agrees. -/
theorem agreeing_body_of_lt {base fuel m : ℕ} (hp : p < data.length) (hfit : x.parser.Fit)
    (hs : x.parser.state = .bodyIdentity ∨ x.parser.state = .chunkData) (hm : m ≤ p)
    (hmark : x.mark .body p = { x with marks := onlyMark .body m })
    (htake : L.tell (L.told s x.calls) (.data .body 0 (slice data m data.length)) =
      L.tell t (.data .body 0 (slice data p data.length)))
    (hlt : data.length - p < x.parser.contentLength)
    (ih : ∀ y p' t', p < p' → p' ≤ data.length → y.parser.Fit →
      Heard L s data y p' t' →
      Agreeing L s base (y.loop (L.answers s) data fuel p')
        (L.feed ⟨y.parser, t', base + p'⟩ (Listener.bytewise (data.drop p')))) :
    ∃ y p', x.step (L.answers s) data p ch = .next y p' ∧
      Agreeing L s base (y.loop (L.answers s) data fuel p')
        (L.feed ⟨x.parser, t, base + p⟩ (Listener.bytewise (data.drop p))) := by
  have hlength : (data.drop p).length = data.length - p := List.length_drop
  have hnil : data.drop p ≠ [] := by
    rw [← List.length_pos_iff, hlength]
    omega
  have hsum : base + p + (data.length - p) = base + data.length := by omega
  rw [slice_length data p] at htake
  refine ⟨_, _, step_of_lt hmark hp hs hlt, ?_⟩
  rw [L.feed_body _ hnil hfit.errno hs (by rw [hlength]; exact hlt), hlength, hsum]
  have hrest := ih ⟨{ x.parser with
    contentLength := x.parser.contentLength - (data.length - p) }, onlyMark .body m, x.calls⟩
    data.length _ hp (Nat.le_refl _) ⟨hfit.errno, hfit.upgrade, fun _ ↦ Nat.sub_pos_of_lt hlt⟩
    (.body m (Nat.le_trans hm (Nat.le_of_lt hp)) rfl (hs.imp_right .inl) htake)
  rw [List.drop_length] at hrest
  exact hrest

/-- Bytes of a body, where what is behind them agrees. -/
theorem agreeing_body {base fuel : ℕ} (hp : p < data.length) (hch : data[p]? = some ch)
    (hfit : x.parser.Fit) (h : Heard L s data x p t)
    (hs : x.parser.state = .bodyIdentity ∨ x.parser.state = .chunkData)
    (ih : ∀ y p' t', p < p' → p' ≤ data.length → y.parser.Fit →
      Heard L s data y p' t' →
      Agreeing L s base (y.loop (L.answers s) data fuel p')
        (L.feed ⟨y.parser, t', base + p'⟩ (Listener.bytewise (data.drop p')))) :
    Agreeing L s base (x.loop (L.answers s) data (fuel + 1) p)
      (L.feed ⟨x.parser, t, base + p⟩ (Listener.bytewise (data.drop p))) := by
  obtain ⟨m, hm, hmark, htell⟩ := h.markBody hs
  have hok := hfit.errno
  have hpos := hfit.sized hs
  have hcount : x.count = x := by
    rw [count, (Listener.count_body hs).2]
    rfl
  have hparsing : ¬(parsingHeader x.count.parser.state ∧
      HTTP_MAX_HEADER_SIZE < x.count.parser.nread) := by
    rw [hcount, (Listener.count_body hs).2]
    exact fun h ↦ Bool.false_ne_true h.1
  rw [loop_succ_of_some hch, if_neg hparsing, hcount]
  by_cases hlt : data.length - p < x.parser.contentLength
  · -- the body goes on behind the last byte
    obtain ⟨y, p', hstep, hagreeing⟩ := agreeing_body_of_lt hp hfit hs hm hmark
      (htell _ (Nat.le_of_lt hp)) hlt ih
    rw [hstep]
    exact hagreeing
  · -- the body ends among the bytes
    have hle : p + x.parser.contentLength ≤ data.length := by omega
    have hlength : (slice data p (p + x.parser.contentLength)).length = x.parser.contentLength := by
      rw [slice, List.length_take, List.length_drop]
      omega
    have hdrop : data.drop p =
        slice data p (p + x.parser.contentLength) ++ data.drop (p + x.parser.contentLength) := by
      rw [← slice_length, ← slice_length, slice_append data (Nat.le_add_right _ _) hle]
    obtain ⟨last, t', ht', hfeed⟩ := L.feed_body_concat hok hs hpos hlength t (base + p)
    have htake := htell _ (Nat.le_add_right p x.parser.contentLength)
    rw [← ht'] at htake
    rw [hdrop, Listener.bytewise_append, L.feed_append, hfeed]
    rcases hs with hs | hs
    · obtain ⟨z, n, hstep, hagreeing⟩ := agreeing_bodyIdentity hm hmark hok hs hpos
        (Nat.le_of_not_lt hlt) htake (Listener.bytewise (data.drop (p + x.parser.contentLength)))
      rw [hstep]
      exact hagreeing
    · have hsum : base + p + x.parser.contentLength - 1 + 1 =
          base + (p + x.parser.contentLength) := by omega
      rw [step_chunkData hmark hs (Nat.le_of_not_lt hlt),
        L.next_chunkData (q := { x.parser with contentLength := 1 }) hok hs rfl, hsum]
      have hunsized : Parser.Fit
          { x.parser with contentLength := 0, state := .chunkDataAlmostDone } :=
        ⟨hok, hfit.upgrade, fun h ↦ by rcases h with h | h <;> cases h⟩
      exact ih ⟨_, onlyMark .body m, x.calls⟩ _ _ (Nat.lt_add_of_pos_right hpos) hle hunsized
        (.body m (Nat.le_trans hm (Nat.le_add_right _ _)) rfl (.inr (.inr rfl)) htake)

/-- **The loop agrees with the bytes alone.** -/
theorem loop_agrees (base fuel : ℕ) (hp : p ≤ data.length) (hfuel : data.length - p < fuel)
    (hfit : x.parser.Fit) (h : Heard L s data x p t) :
    Agreeing L s base (x.loop (L.answers s) data fuel p)
      (L.feed ⟨x.parser, t, base + p⟩ (Listener.bytewise (data.drop p))) := by
  induction fuel generalizing x p t with
  | zero => exact absurd hfuel (Nat.not_lt_zero _)
  | succ fuel ih =>
    cases hch : data[p]? with
    | none =>
      obtain rfl : p = data.length := Nat.le_antisymm hp (List.getElem?_eq_none_iff.1 hch)
      rw [List.drop_length]
      exact agreeing_finish hfit h
    | some ch =>
      obtain ⟨hlt, hget⟩ := List.getElem?_eq_some_iff.1 hch
      by_cases hs : x.parser.state = .bodyIdentity ∨ x.parser.state = .chunkData
      · refine agreeing_body hlt hch hfit h hs fun y p' t' hp' hle hy hheard ↦ ?_
        exact ih hle (by omega) hy hheard
      · rw [not_or] at hs
        have hdrop : data.drop p = ch :: data.drop (p + 1) := by
          rw [List.drop_eq_getElem_cons hlt, hget]
        rw [hdrop]
        refine agreeing_byte hch hfit h hs.1 hs.2 fun y t' hy hheard ↦ ?_
        exact ih hlt (by omega) hy hheard

end Calls

end Exec

namespace Listener

variable {S : Type*} (L : Listener S)

/-- What a call begins with. -/
theorem heard_initial {q : Parser} {s t : S} {n : ℕ} (hf : Fed.Fits L ⟨q, s, n⟩)
    (hst : q.Tells → s = t) (piece : List Byte) :
    Exec.Heard L s piece ⟨q, q.initialMarks, []⟩ 0 t := by
  by_cases hidle : q.state.idle = true
  · exact .idle (initialMarks_of_none (State.span_of_idle hidle)) hidle rfl
  · have hne := Bool.eq_false_of_not_eq_true hidle
    obtain rfl : s = t := hst ⟨fun hfatal ↦ hfatal.1 hf.errno, fun _ ↦ hne⟩
    cases hspan : q.state.span with
    | none => exact .clear (initialMarks_of_none hspan) hspan hne rfl
    | some which =>
      exact .span which 0 (Nat.le_refl _) (initialMarks_of_some hspan) hspan
        (hf.goesOn which hspan)

/-- **A call agrees with the calls for its bytes**, one for each. -/
theorem next_agrees {f g : Fed S} (hfg : f.Agrees g) (hf : f.Fits L) {piece : List Byte}
    (hpiece : piece ≠ []) :
    (L.next f piece).Agrees (L.feed g (bytewise piece)) ∧
      ((L.next f piece).parser.httpErrno = .ok → (L.next f piece).Fits L) := by
  obtain ⟨q, s, n⟩ := f
  obtain ⟨q', t, n'⟩ := g
  obtain rfl : q = q' := hfg.parser
  obtain rfl : n = n' := hfg.consumed
  have hok : q.httpErrno = .ok := hf.errno
  have hheard := L.heard_initial hf hfg.state piece
  have h := Exec.loop_agrees n (2 * piece.length + 2) (Nat.zero_le _) (by omega) hf.toFit hheard
  have hnext : L.next ⟨q, s, n⟩ piece = ⟨(q.execute (L.answers s) piece).1.parser,
      L.told s (q.execute (L.answers s) piece).1.calls,
      n + (q.execute (L.answers s) piece).2⟩ := L.next_of_ok hok piece
  rw [hnext, Parser.execute_eq (L.answers s) hok hpiece]
  exact ⟨h.agrees, h.fits⟩

/-- The last byte of a message is consumed. -/
theorem next_of_paused {f : Fed S} (hf : f.Fits L) {ch : Byte}
    (hpaused : (L.next f [ch]).parser.httpErrno = .paused) :
    (L.next f [ch]).consumed = f.consumed + 1 ∧
      (L.next f [ch]).parser.state.idle = true := by
  obtain ⟨q, t, n⟩ := f
  have hok : q.httpErrno = .ok := hf.errno
  by_cases hs : q.state = .bodyIdentity ∨ q.state = .chunkData
  · have hpos : 0 < q.contentLength := hf.sized hs
    have hone : q.contentLength = 1 := by
      by_contra hne
      rw [L.next_body hok hs (by omega)] at hpaused
      cases hok.symm.trans hpaused
    rcases hs with hs | hs
    · rw [L.next_bodyIdentity hok hs hone]
      exact ⟨rfl, Exec.idle_newMessage _⟩
    · rw [L.next_chunkData hok hs hone] at hpaused
      cases hok.symm.trans hpaused
  · rw [not_or] at hs
    set y : Exec := ⟨q, q.initialMarks, []⟩ with hy
    have hcount : y.count = ⟨y.count.parser, y.count.parser.initialMarks, []⟩ := by
      rw [Exec.initialMarks_count]
      exact Exec.count_mk y y.marks y.calls
    have hheard : Exec.Heard L t [ch] y.count 0 t :=
      (L.heard_initial hf (fun _ ↦ rfl) [ch]).count
    have htog := Exec.together_step hheard ((Exec.errno_count y).trans hok)
      ((Exec.upgrade_count y).trans hf.upgrade) (show [ch][0]? = some ch from rfl)
      (by rw [Exec.count_state]; exact hs.1) (by rw [Exec.count_state]; exact hs.2)
    rw [← hcount] at htog
    by_cases hover : parsingHeader y.count.parser.state ∧
        HTTP_MAX_HEADER_SIZE < y.count.parser.nread
    · have hparser := (Exec.next_of_overflow (x := y) (L := L) (t := t) ch hok hover n).1
      rw [show (L.next ⟨q, t, n⟩ [ch]).parser = _ from hparser] at hpaused
      cases hpaused
    · cases hf : y.count.step (L.answers t) [ch] 0 ch with
      | next z k =>
        rw [hf] at htog
        obtain ⟨-, rfl, -, hz, t', -, hthere, hidle⟩ := htog.heard
        rw [L.next_of_heard hok hover hf hz.errno hthere hidle] at hpaused
        cases hz.errno.symm.trans hpaused
      | ret z k =>
        rw [hf] at htog
        rw [L.next_of_ret hok hover hf] at hpaused ⊢
        obtain ⟨rfl, hidle⟩ := htog.paused hpaused
        exact ⟨rfl, hidle⟩

/-- A byte behind which the message goes on is consumed. -/
theorem next_of_ok_singleton {f : Fed S} (hf : f.Fits L) {ch : Byte}
    (hok : (L.next f [ch]).parser.httpErrno = .ok) :
    (L.next f [ch]).consumed = f.consumed + 1 := by
  rw [L.next_of_ok hf.errno] at hok ⊢
  have hover := Parser.over_execute (L.answers f.state) hf.errno (List.cons_ne_nil ch [])
  exact congrArg (f.consumed + ·) (hover.eq_of_ok (L.pausesAtEnd f.state) hok)

/-- **The pieces of a stream agree with its bytes.** -/
theorem feed_agrees_bytewise {f g : Fed S} (hfg : f.Agrees g)
    (hf : f.parser.httpErrno = .ok → f.Fits L) (pieces : List (List Byte)) (hpieces : [] ∉ pieces) :
    (L.feed f pieces).Agrees (L.feed g (bytewise pieces.flatten)) := by
  induction pieces generalizing f g with
  | nil => exact hfg
  | cons piece pieces ih =>
    rw [List.mem_cons, not_or] at hpieces
    rw [List.flatten_cons, bytewise_append, feed_append, feed_cons]
    by_cases hok : f.parser.httpErrno = .ok
    · obtain ⟨hagrees, hfits⟩ := L.next_agrees hfg (hf hok) (Ne.symm hpieces.1)
      exact ih hagrees hfits hpieces.2
    · have hok' : g.parser.httpErrno ≠ .ok := hfg.parser ▸ hok
      rw [L.feed_of_ne_ok (l := bytewise piece) hok', next, if_neg hok]
      exact ih hfg hf hpieces.2

/-- **All ways of cutting a stream into pieces agree.** -/
theorem feed_agrees {f : Fed S} (hf : f.Fits L) {pieces pieces' : List (List Byte)}
    (hpieces : [] ∉ pieces) (hpieces' : [] ∉ pieces') (h : pieces.flatten = pieces'.flatten) :
    (L.feed f pieces).Agrees (L.feed f pieces') := by
  have hleft := L.feed_agrees_bytewise (.refl f) (fun _ ↦ hf) pieces hpieces
  have hright := L.feed_agrees_bytewise (.refl f) (fun _ ↦ hf) pieces' hpieces'
  rw [← h] at hright
  exact hleft.trans hright.symm

end Listener

end JnetLib.Http
