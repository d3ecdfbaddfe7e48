import JnetLib.Http.States

/-!
# One round of the loop

`Heard` is what holds in front of a round of a call: the parser has marked what is in progress, and
a listener has been told everything up to here if the call ended here. `together_step` takes the
states together: a round on a piece goes with the round on the byte alone. `finish_of_heard` is the
end of the call, where the fragment that is in progress is reported.

The bytes of a body are the exception. The parser takes all there are at once, so there a round goes
with many (`step_of_lt`, `step_chunkData`, `step_bodyIdentity`).
-/

namespace JnetLib.Http.Exec

variable {S : Type*} {L : Listener S} {s t : S} {data : List Byte} {ch : Byte} {x : Exec}
  {p k : ℕ} {marks : DataCallback → Option ℕ} {calls : List (Callback × ℕ)}

/-- The parser has marked what is in progress, and `t` is what the listener has been told if the
call ends at `p`. Part of a body is marked only by the call that has taken it. -/
inductive Heard (L : Listener S) (s : S) (data : List Byte) (x : Exec) (p : ℕ) (t : S) : Prop
  | idle (hmarks : x.marks = noMarks) (hidle : x.parser.state.idle = true) (hcalls : x.calls = [])
  | clear (hmarks : x.marks = noMarks) (hspan : x.parser.state.span = none)
      (hidle : x.parser.state.idle = false) (htold : L.told s x.calls = t)
  | span (which : DataCallback) (m : ℕ) (hm : m ≤ p) (hmarks : x.marks = onlyMark which m)
      (hspan : x.parser.state.span = some which)
      (htold : L.tell (L.told s x.calls) (.data which 0 (slice data m p)) = t)
  | body (m : ℕ) (hm : m ≤ p) (hmarks : x.marks = onlyMark .body m)
      (hstate : x.parser.state = .bodyIdentity ∨ x.parser.state = .chunkData ∨
        x.parser.state = .chunkDataAlmostDone)
      (htold : L.tell (L.told s x.calls) (.data .body 0 (slice data m p)) = t)

/-- Outside the spans and the bodies there is no mark. -/
theorem Heard.isClear (h : Heard L s data x p t) (hok : x.parser.httpErrno = .ok)
    (hu : x.parser.upgrade = false) (hplain : x.parser.state.plain = true)
    (hne : x.parser.state ≠ .chunkDataAlmostDone) :
    Clear L s t x x.parser.initialMarks [] := by
  have hspan := State.span_of_plain hplain
  cases h with
  | idle _ hidle _ =>
    rw [State.idle_of_plain hplain] at hidle
    cases hidle
  | clear hmarks _ _ htold => exact ⟨⟨hok, hmarks, initialMarks_of_none hspan, htold⟩, hu⟩
  | span which m _ _ hsome _ =>
    rw [hspan] at hsome
    cases hsome
  | body m _ _ hstate _ =>
    rcases hstate with hs | hs | hs
    · rw [hs] at hplain
      cases hplain
    · rw [hs] at hplain
      cases hplain
    · exact absurd hs hne

/-- Before a message there is nothing. -/
theorem Heard.isIdle (h : Heard L s data x p t) (hok : x.parser.httpErrno = .ok)
    (hu : x.parser.upgrade = false) (hidle : x.parser.state.idle = true) :
    Idle x x.parser.initialMarks [] := by
  have hspan := State.span_of_idle hidle
  cases h with
  | idle hmarks _ hcalls =>
    exact ⟨hok, hu, hmarks, initialMarks_of_none hspan, hcalls, rfl⟩
  | clear _ _ hne _ =>
    rw [hidle] at hne
    cases hne
  | span _ _ _ _ hsome _ =>
    rw [hspan] at hsome
    cases hsome
  | body _ _ _ hstate _ =>
    rcases hstate with hs | hs | hs <;>
    · rw [hs] at hidle
      cases hidle

/-- In a span there is its mark. -/
theorem Heard.isSpanning (h : Heard L s data x p t) (ch : Byte) (hok : x.parser.httpErrno = .ok)
    (hu : x.parser.upgrade = false) {which : DataCallback}
    (hspan : x.parser.state.span = some which) :
    Spanning L s t data ch which x p x.parser.initialMarks [] 0 := by
  cases h with
  | idle _ hidle _ =>
    rw [State.span_of_idle hidle] at hspan
    cases hspan
  | clear _ hnone _ _ =>
    rw [hspan] at hnone
    cases hnone
  | span which' m hm hmarks hsome htold =>
    obtain rfl : which = which' := Option.some.inj (hspan.symm.trans hsome)
    refine ⟨hok, hu, m, 0, hm, Nat.le_refl _, hmarks, initialMarks_of_some hspan, ?_⟩
    rw [slice_self, L.told_nil, ← htold, L.tell_tell, List.append_nil]
  | body m _ _ hstate _ =>
    rcases hstate with hs | hs | hs <;>
    · rw [hs] at hspan
      cases hspan

/-- Both rounds are behind the bytes of a chunk; the part of the body this call has taken is told
here. -/
theorem together_chunkDataAlmostDone (h : Heard L s data x p t) (hok : x.parser.httpErrno = .ok)
    (hu : x.parser.upgrade = false) (hs : x.parser.state = .chunkDataAlmostDone) :
    Together L s t data ch p (x.chunkDataAlmostDone (L.answers s) data p ch)
      (Exec.chunkDataAlmostDone (L.answers t) [ch] ⟨x.parser, x.parser.initialMarks, []⟩ 0 ch) := by
  have hspan : x.parser.state.span = none := by
    rw [hs]
    rfl
  have hthere := initialMarks_of_none hspan
  rw [chunkDataAlmostDone, chunkDataAlmostDone, hthere]
  split
  · exact together_error (by decide) rfl
  · rw [callbackData_of_none (x := goto ⟨x.parser, noMarks, []⟩ .chunkDataDone) rfl]
    cases h with
    | idle _ hidle _ =>
      rw [hs] at hidle
      cases hidle
    | clear hmarks _ _ htold =>
      have hx : (x.goto .chunkDataDone).marks .body = none := by
        show x.marks .body = none
        rw [hmarks]
        rfl
      rw [callbackData_of_none hx]
      exact Level.next (x := x) ⟨hok, hmarks, rfl, htold⟩ hok hu rfl
    | span which m _ _ hsome _ =>
      rw [hspan] at hsome
      cases hsome
    | body m _ hmarks _ htold =>
      rw [callbackData_of_onlyMark (x := x.goto .chunkDataDone) hok hmarks]
      refine Level.next (x := { x.passed (since data .body m p) (p + 1) with marks := noMarks })
        ⟨hok, rfl, rfl, ?_⟩ hok hu rfl
      show L.told s (x.calls ++ [(_, p + 1)]) = t
      rw [L.told_concat, since, L.tell_off]
      exact htold

/-- **The byte at `p`**, wherever it is not one of a body. -/
theorem together_step (h : Heard L s data x p t) (hok : x.parser.httpErrno = .ok)
    (hu : x.parser.upgrade = false) (hch : data[p]? = some ch)
    (hbody : x.parser.state ≠ .bodyIdentity) (hchunk : x.parser.state ≠ .chunkData) :
    Together L s t data ch p (x.step (L.answers s) data p ch)
      (step (L.answers t) [ch] ⟨x.parser, x.parser.initialMarks, []⟩ 0 ch) := by
  have hclear (hplain : x.parser.state.plain = true)
      (hne : x.parser.state ≠ .chunkDataAlmostDone) := h.isClear hok hu hplain hne
  have hidle (hi : x.parser.state.idle = true) := h.isIdle hok hu hi
  have hspanning {which : DataCallback} (hspan : x.parser.state.span = some which) :=
    h.isSpanning ch hok hu hspan
  unfold step
  dsimp only
  cases hs : x.parser.state <;> rw [hs] at hclear hidle hspanning hbody hchunk <;>
    dsimp only
  case bodyIdentity => exact absurd rfl hbody
  case chunkData => exact absurd rfl hchunk
  case dead => exact together_dead (hidle rfl) (by rw [hs]; rfl)
  case startReq => exact together_startReq (hidle rfl) (by rw [hs]; rfl)
  case reqMethod => exact together_reqMethod (hclear rfl nofun) (by rw [hs]; rfl)
  case reqSpacesBeforeUrl => exact together_reqSpacesBeforeUrl (hclear rfl nofun) hch hs
  case reqSchema => exact together_reqSchema (hspanning rfl) hch (by rw [hs]; rfl)
  case reqSchemaSlash => exact together_reqSchema (hspanning rfl) hch (by rw [hs]; rfl)
  case reqSchemaSlashSlash => exact together_reqSchema (hspanning rfl) hch (by rw [hs]; rfl)
  case reqHttpStart => exact together_reqHttpStart (hclear rfl nofun) (by rw [hs]; rfl)
  case reqHttpH => exact together_strict (hclear rfl nofun) rfl
  case reqHttpHT => exact together_strict (hclear rfl nofun) rfl
  case reqHttpHTT => exact together_strict (hclear rfl nofun) rfl
  case reqHttpHTTP => exact together_strict (hclear rfl nofun) rfl
  case reqFirstHttpMajor => exact together_reqFirstHttpMajor (hclear rfl nofun)
  case reqHttpMajor => exact together_reqHttpMajor (hclear rfl nofun) (by rw [hs]; rfl)
  case reqFirstHttpMinor => exact together_reqFirstHttpMinor (hclear rfl nofun)
  case reqHttpMinor => exact together_reqHttpMinor (hclear rfl nofun) (by rw [hs]; rfl)
  case reqLineAlmostDone => exact together_reqLineAlmostDone (hclear rfl nofun)
  case headerFieldStart => exact together_headerFieldStart (hclear rfl nofun) hch
  case headerField => exact together_headerField (hspanning rfl) hch hs
  case headerValueStart =>
    exact together_headerValueStart (hclear rfl nofun) hch (by rw [hs]; rfl)
  case headerValue => exact together_headerValue (hspanning rfl) hch hs
  case headerValueLws => exact together_headerValueLws (hclear rfl nofun) hch
  case headerAlmostDone => exact together_headerAlmostDone (hclear rfl nofun)
  case headersAlmostDone => exact together_headersAlmostDone (hclear rfl nofun)
  case headersDone => exact together_headersDone (hclear rfl nofun).toLevel
  case messageDone => exact together_complete (hclear rfl nofun).toLevel
  case chunkSizeStart => exact together_chunkSizeStart (hclear rfl nofun)
  case chunkSize => exact together_chunkSize (hclear rfl nofun) (by rw [hs]; rfl)
  case chunkParameters => exact together_chunkParameters (hclear rfl nofun) (by rw [hs]; rfl)
  case chunkSizeAlmostDone => exact together_chunkSizeAlmostDone (hclear rfl nofun)
  case chunkDataAlmostDone => exact together_chunkDataAlmostDone h hok hu hs
  case chunkDataDone => exact together_chunkDataDone (hclear rfl nofun)
  -- the states left are those in which a URL can end
  all_goals exact together_reqUrl (hspanning rfl) hch (by rw [hs]; rfl)

/-- What is in progress behind the last byte is told there. -/
theorem finish_of_heard (h : Heard L s data x data.length t) (hok : x.parser.httpErrno = .ok) :
    ∃ z, x.finish (L.answers s) data = .ret z data.length ∧ z.parser = x.parser ∧
      (x.parser.state.idle = true ∧ z.calls = [] ∨ L.told s z.calls = t) := by
  have hspan {which : DataCallback} {m : ℕ} (hmarks : x.marks = onlyMark which m)
      (htold : L.tell (L.told s x.calls) (.data which 0 (slice data m data.length)) = t) :
      ∃ z, x.finish (L.answers s) data = .ret z data.length ∧ z.parser = x.parser ∧
        (x.parser.state.idle = true ∧ z.calls = [] ∨ L.told s z.calls = t) := by
    refine ⟨{ x.passed (since data which m data.length) data.length with marks := noMarks },
      ?_, rfl, ?_⟩
    · rw [finish]
      cases which <;>
      · repeat rw [callbackData_of_none (by rw [hmarks]; rfl)]
        rw [callbackData_of_onlyMark hok hmarks]
        repeat rw [callbackData_of_none rfl]
    · refine .inr ?_
      show L.told s (x.calls ++ [(_, data.length)]) = t
      rw [L.told_concat, since, L.tell_off]
      exact htold
  have hclear (hmarks : x.marks = noMarks) :
      x.finish (L.answers s) data = .ret x data.length := by
    have hnone (which : DataCallback) : x.marks which = none := by
      rw [hmarks]
      rfl
    rw [finish, callbackData_of_none (hnone _), callbackData_of_none (hnone _),
      callbackData_of_none (hnone _), callbackData_of_none (hnone _)]
  cases h with
  | idle hmarks hidle hcalls => exact ⟨x, hclear hmarks, rfl, .inl ⟨hidle, hcalls⟩⟩
  | clear hmarks _ _ htold => exact ⟨x, hclear hmarks, rfl, .inr htold⟩
  | span which m _ hmarks _ htold => exact hspan hmarks htold
  | body m _ hmarks _ htold => exact hspan hmarks htold

/-! ### The bytes of a body -/

/-- Part of a body that goes on to the end of the bytes and beyond. -/
theorem step_of_lt {reply : Answers} {m : ℕ} (hmark : x.mark .body p =
      { x with marks := onlyMark .body m }) (hp : p < data.length)
    (hs : x.parser.state = .bodyIdentity ∨ x.parser.state = .chunkData)
    (hlt : data.length - p < x.parser.contentLength) :
    x.step reply data p ch = .next
      ⟨{ x.parser with contentLength := x.parser.contentLength - (data.length - p) },
        onlyMark .body m, x.calls⟩ data.length := by
  have hmin : min x.parser.contentLength (data.length - p) = data.length - p := by omega
  have hne : ¬x.parser.contentLength - (data.length - p) = 0 := by omega
  rcases hs with hs | hs
  · have hlast : p + (data.length - p) - 1 + 1 = data.length := by omega
    unfold step
    rw [hs]
    dsimp only
    rw [bodyIdentity, hmark, hmin]
    dsimp only
    rw [if_neg hne, hlast]
  · have hlast : p + (data.length - p) = data.length := by omega
    unfold step
    rw [hs]
    dsimp only
    rw [chunkData, hmark, hmin]
    dsimp only
    rw [if_neg hne, hlast]

/-- The rest of a chunk. -/
theorem step_chunkData {reply : Answers} {m : ℕ} (hmark : x.mark .body p =
      { x with marks := onlyMark .body m }) (hs : x.parser.state = .chunkData)
    (hle : x.parser.contentLength ≤ data.length - p) :
    x.step reply data p ch = .next
      ⟨{ x.parser with contentLength := 0, state := .chunkDataAlmostDone }, onlyMark .body m,
        x.calls⟩ (p + x.parser.contentLength) := by
  unfold step
  rw [hs]
  dsimp only
  rw [chunkData, hmark, Nat.min_eq_left hle]
  dsimp only
  rw [Nat.sub_self, if_pos rfl]
  rfl

/-- The rest of a body of known length. -/
theorem step_bodyIdentity {reply : Answers} {m : ℕ} (hmark : x.mark .body p =
      { x with marks := onlyMark .body m }) (hs : x.parser.state = .bodyIdentity)
    (hpos : 0 < x.parser.contentLength) (hle : x.parser.contentLength ≤ data.length - p) :
    x.step reply data p ch =
      Exec.callbackData reply data
        ⟨{ x.parser with contentLength := 0, state := .messageDone }, onlyMark .body m, x.calls⟩
        .body (p + x.parser.contentLength) (p + x.parser.contentLength - 1)
        fun x' ↦ x'.messageDone reply (p + x.parser.contentLength - 1) := by
  have hlast : p + x.parser.contentLength - 1 + 1 = p + x.parser.contentLength := by omega
  unfold step
  rw [hs]
  dsimp only
  rw [bodyIdentity, hmark, Nat.min_eq_left hle]
  dsimp only
  rw [Nat.sub_self, if_pos rfl, hlast]
  rfl

/-- Where bytes of a body are to come, the mark for them is set, or is that of the bytes before. -/
theorem Heard.markBody (h : Heard L s data x p t)
    (hs : x.parser.state = .bodyIdentity ∨ x.parser.state = .chunkData) :
    ∃ m ≤ p, x.mark .body p = { x with marks := onlyMark .body m } ∧ ∀ k, p ≤ k →
      L.tell (L.told s x.calls) (.data .body 0 (slice data m k)) =
        L.tell t (.data .body 0 (slice data p k)) := by
  cases h with
  | idle _ hidle _ =>
    rcases hs with hs | hs <;>
    · rw [hs] at hidle
      cases hidle
  | clear hmarks _ _ htold =>
    exact ⟨p, Nat.le_refl _, mark_of_noMarks hmarks _ _, fun k _ ↦ by rw [htold]⟩
  | span which m _ _ hspan _ =>
    rcases hs with hs | hs <;>
    · rw [hs] at hspan
      cases hspan
  | body m hm hmarks _ htold =>
    refine ⟨m, hm, ?_, fun k hk ↦ ?_⟩
    · have hsome : x.marks .body = some m := by
        rw [hmarks]
        rfl
      rw [Exec.mark]
      simp only [hsome]
      rw [← hmarks]
    · rw [slice_append data hm hk, ← L.tell_tell, htold]

end JnetLib.Http.Exec
