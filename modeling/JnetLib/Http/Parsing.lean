import JnetLib.Http.Rules

/-!
# What the bundled parser keeps to

Every round of the loop keeps `Ongoing`, or the call is over. This gives the laws that
`http_request_op` relies on (`parser_lawful`, `parser_onlyCallbacksPause`), and that the callbacks
of a call are never taken back.

`meets_step` goes through the states once; every round leaves fewer bytes ahead, where `ahead`
counts a chunk without bytes apart, as it takes a round and no byte. `loop_meets` adds what a module
wants to know besides: it takes a rule for one round and gives the rule for the loop, with the fuel
that `execute` has.
-/

namespace JnetLib.Http

namespace Exec

section Loop

variable {reply : Answers} {data : List Byte} {l : List (Callback × ℕ)} {x y : Exec} {p : ℕ}
  {ch : Byte}

/-! ### The states -/

section States

variable (h : Ongoing reply data l x p) (hp : p < data.length)
include h hp

theorem oneByte_startReq : OneByte reply data l p (x.startReq reply p ch) := by
  rw [startReq]
  dsimp only
  split
  · exact h.next hp rfl rfl
  · split
    · exact h.error rfl (by decide)
    · split
      · exact h.error rfl (by decide)
      · next m _ =>
        refine meets_notify h.errno nofun (fun hstop ↦ ?_) fun _ _ ↦ ?_
        · exact Ongoing.stopped (h.congr rfl rfl) (by decide) hp hstop
        · exact Ongoing.next (h.passed (c := .messageBegin) nofun (p + 1)) hp rfl rfl

theorem oneByte_reqMethod : OneByte reply data l p (x.reqMethod p ch) := by
  rw [reqMethod]
  dsimp only
  split
  · exact h.error rfl (by decide)
  · split
    · exact h.next hp rfl rfl
    · split
      · exact h.next hp rfl rfl
      · split
        · exact h.next hp rfl rfl
        · next e he =>
          exact h.error rfl (fatal_of_switchMethod he)

theorem oneByte_urlChar : OneByte reply data l p (x.urlChar p ch) := by
  rw [urlChar]
  split
  · exact h.error rfl (by decide)
  · exact h.next hp rfl rfl

theorem oneByte_reqSpacesBeforeUrl : OneByte reply data l p (x.reqSpacesBeforeUrl p ch) := by
  rw [reqSpacesBeforeUrl]
  split
  · exact h.next hp rfl rfl
  · exact oneByte_urlChar (h.congr (errno_mark _ _ _) (calls_mark _ _ _)) hp

theorem oneByte_reqSchema : OneByte reply data l p (x.reqSchema p ch) := by
  rw [reqSchema]
  split
  · exact h.error rfl (by decide)
  · exact oneByte_urlChar h hp

/-- Most callbacks for a span are followed by the next byte. -/
theorem oneByte_callbackData {which : DataCallback} {last : ℕ}
    (he : y.parser.httpErrno = x.parser.httpErrno) (hc : y.calls = x.calls) :
    OneByte reply data l p
      (y.callbackData reply data which last (p + 1) fun z ↦ .next z (p + 1)) :=
  (h.congr he hc).callbackData hp fun _ hz _ ↦ hz.next hp rfl rfl

theorem oneByte_reqUrl : OneByte reply data l p (x.reqUrl reply data p ch) := by
  rw [reqUrl]
  split
  · exact oneByte_callbackData h hp rfl rfl
  · split
    · exact oneByte_callbackData h hp rfl rfl
    · exact oneByte_urlChar h hp

theorem oneByte_reqHttpStart : OneByte reply data l p (x.reqHttpStart p ch) := by
  rw [reqHttpStart]
  split
  · exact h.next hp rfl rfl
  · split
    · exact h.next hp rfl rfl
    · exact h.error rfl (by decide)

theorem oneByte_strict {c : Byte} {s : State} : OneByte reply data l p (x.strict p ch c s) := by
  rw [strict]
  split
  · exact h.error rfl (by decide)
  · exact h.next hp rfl rfl

theorem oneByte_reqFirstHttpMajor : OneByte reply data l p (x.reqFirstHttpMajor p ch) := by
  rw [reqFirstHttpMajor]
  split
  · exact h.error rfl (by decide)
  · exact h.next hp rfl rfl

theorem oneByte_reqHttpMajor : OneByte reply data l p (x.reqHttpMajor p ch) := by
  rw [reqHttpMajor]
  dsimp only
  split
  · exact h.next hp rfl rfl
  · split
    · exact h.error rfl (by decide)
    · split
      · exact h.error rfl (by decide)
      · exact h.next hp rfl rfl

theorem oneByte_reqFirstHttpMinor : OneByte reply data l p (x.reqFirstHttpMinor p ch) := by
  rw [reqFirstHttpMinor]
  split
  · exact h.error rfl (by decide)
  · exact h.next hp rfl rfl

theorem oneByte_reqHttpMinor : OneByte reply data l p (x.reqHttpMinor p ch) := by
  rw [reqHttpMinor]
  dsimp only
  split
  · exact h.next hp rfl rfl
  · split
    · exact h.next hp rfl rfl
    · split
      · exact h.error rfl (by decide)
      · split
        · exact h.error rfl (by decide)
        · exact h.next hp rfl rfl

theorem oneByte_reqLineAlmostDone : OneByte reply data l p (x.reqLineAlmostDone p ch) := by
  rw [reqLineAlmostDone]
  split
  · exact h.error rfl (by decide)
  · exact h.next hp rfl rfl

/-- The end of a message ends the call, if it always pauses the parser. -/
theorem meets_complete {I : Exec → ℕ → Prop} {k : Exec → Flow}
    (he : y.parser.httpErrno = x.parser.httpErrno) (hc : y.calls = x.calls)
    (hk : ∀ z, ¬reply.PausesAtEnd → Ongoing reply data l z p → (k z).Meets I (Over reply data l)) :
    (y.complete reply p k).Meets I (Over reply data l) := by
  rw [complete]
  refine meets_notify (he.trans h.errno) (by decide) (fun hstop ↦ ?_) fun _ hpause ↦ ?_
  · exact Ongoing.stopped (h.congr he hc) (by decide) hp hstop
  · have hend : ¬reply.PausesAtEnd := fun hend ↦ by
      rw [history, hend] at hpause
      cases hpause
    refine hk _ hend ⟨he.trans h.errno, h.le, fun hend' ↦ absurd hend' hend, ?_⟩
    exact (hc ▸ h.grows : l <+: y.calls).trans (List.prefix_append _ _)

/-- Where it does not, the next message can follow at once. -/
theorem oneByte_complete (he : y.parser.httpErrno = x.parser.httpErrno)
    (hc : y.calls = x.calls) :
    OneByte reply data l p (y.complete reply p fun z ↦ .next z (p + 1)) :=
  meets_complete h hp he hc fun _ _ hz ↦ hz.next hp rfl rfl

theorem oneByte_headersDone :
    OneByte reply data l p (x.headersDone reply p ch) := by
  rw [headersDone]
  dsimp only
  split
  · exact h.error rfl (by decide)
  · split
    · refine meets_complete h hp rfl rfl fun z hend hz ↦ ?_
      have hok := hz.errno
      refine ⟨fun hend' ↦ absurd hend' hend, fun hend' ↦ absurd hend' hend, fun hpause ↦ ?_,
        fun hend' ↦ absurd hend' hend, fun hpause ↦ ?_, hz.grows⟩ <;>
      · rw [hok] at hpause
        cases hpause
    · split
      · exact oneByte_complete h hp rfl rfl
      · split
        · exact h.next hp rfl rfl
        · split
          · exact oneByte_complete h hp rfl rfl
          · split
            · exact h.next hp rfl rfl
            · exact oneByte_complete h hp rfl rfl

/-- Behind `on_headers_complete` the parser sees the same byte once more, unless the callback has
paused it. -/
theorem oneByte_reexecute {c : Callback} (hc : c ≠ .messageComplete)
    (he : y.parser.httpErrno =
      if (reply (x.history c)).pause then .paused else x.parser.httpErrno)
    (hy : y.calls = x.calls ++ [(c, p)]) :
    OneByte reply data l p
      (if y.parser.httpErrno = .ok then y.headersDone reply p ch else .ret y p) := by
  have hpassed : Ongoing reply data l (x.passed c p) p := h.passed hc p
  split
  · next hok => exact oneByte_headersDone (hpassed.congr (hok.trans h.errno.symm) hy) hp
  · next hne =>
    by_cases hpause : (reply (x.history c)).pause = true
    · rw [if_pos hpause] at he
      refine ⟨fun _ hok ↦ absurd hok hne, fun _ hok ↦ absurd hok hne,
        fun _ ↦ Nat.le_of_lt hp, fun hend k hk ↦ ?_,
        fun _ ↦ ⟨x.calls.map Prod.fst, c, ?_, hpause⟩, hy ▸ hpassed.grows⟩
      · exact absurd (List.mem_map.2 ⟨_, hy ▸ hk, rfl⟩) (hpassed.notMem hend)
      · rw [hy, List.map_append]
        exact List.prefix_refl _
    · rw [if_neg hpause] at he
      exact absurd (he.trans h.errno) hne

theorem oneByte_headersAlmostDone :
    OneByte reply data l p (x.headersAlmostDone reply p ch) := by
  rw [headersAlmostDone]
  dsimp only
  split
  · exact h.error rfl (by decide)
  · split
    · exact oneByte_complete h hp rfl rfl
    · generalize hc : Callback.headersComplete _ _ _ _ = c
      have hne : c ≠ .messageComplete := hc ▸ nofun
      split
      · exact Ongoing.error (h.passed hne p) rfl (by decide)
      · refine oneByte_reexecute h hp hne ?_ ?_
        · split <;> exact errno_call _ _ _
        · split <;> rfl

theorem oneByte_headerFieldStart :
    OneByte reply data l p (x.headerFieldStart reply p ch) := by
  rw [headerFieldStart]
  dsimp only
  split
  · exact h.next hp rfl rfl
  · split
    · exact oneByte_headersAlmostDone (h.congr rfl rfl) hp
    · split
      · exact h.error rfl (by decide)
      · exact h.next hp (errno_mark _ _ _) (calls_mark _ _ _)

theorem oneByte_headerField : OneByte reply data l p (x.headerField reply data p ch) := by
  rw [headerField]
  split
  · exact h.next hp (alike_nextField _ _ _).errno rfl
  · split
    · exact oneByte_callbackData h hp rfl rfl
    · exact h.error rfl (by decide)

theorem oneByte_headerValueStart :
    OneByte reply data l p (x.headerValueStart reply data p ch) := by
  rw [headerValueStart]
  dsimp only
  split
  · exact h.next hp rfl rfl
  · split
    · exact oneByte_callbackData h hp (errno_mark _ _ _) (calls_mark _ _ _)
    · split
      · exact oneByte_callbackData h hp (errno_mark _ _ _) (calls_mark _ _ _)
      · split
        · next q hq =>
          exact h.next hp ((alike_startValue hq).errno.trans (errno_mark _ _ _)) (calls_mark _ _ _)
        · next e he => exact h.error (calls_mark _ _ _) (fatal_of_startValue he)

theorem oneByte_headerAlmostDone : OneByte reply data l p (x.headerAlmostDone p ch) := by
  rw [headerAlmostDone]
  split
  · exact h.error rfl (by decide)
  · exact h.next hp (alike_endValue _).errno rfl

theorem oneByte_headerValue : OneByte reply data l p (x.headerValue reply data p ch) := by
  rw [headerValue]
  split
  · exact oneByte_callbackData h hp rfl rfl
  · split
    · exact (h.congr (y := x.goto .headerAlmostDone) rfl rfl).callbackData (Nat.le_of_lt hp)
        fun _ hy _ ↦ oneByte_headerAlmostDone hy hp
    · split
      · next q hq => exact h.next hp (alike_nextValue hq).errno rfl
      · next e he => exact h.error rfl (fatal_of_nextValue he)

theorem oneByte_headerValueLws :
    OneByte reply data l p (x.headerValueLws reply p ch) := by
  rw [headerValueLws]
  split
  · exact h.next hp rfl rfl
  · exact oneByte_headerFieldStart (h.congr rfl rfl) hp

theorem oneByte_messageDone :
    OneByte reply data l p (x.messageDone reply p) :=
  oneByte_complete h hp rfl rfl

theorem oneByte_chunkSizeStart : OneByte reply data l p (x.chunkSizeStart p ch) := by
  rw [chunkSizeStart]
  split
  · exact h.error rfl (by decide)
  · exact h.next hp rfl rfl

theorem oneByte_chunkSize : OneByte reply data l p (x.chunkSize p ch) := by
  rw [chunkSize]
  split
  · exact h.next hp rfl rfl
  · split
    · split
      · exact h.next hp rfl rfl
      · exact h.error rfl (by decide)
    · split
      · next q hq => exact h.next hp (alike_nextDigit hq).errno rfl
      · next e he => exact h.error rfl (fatal_of_nextDigit he)

theorem oneByte_chunkParameters : OneByte reply data l p (x.chunkParameters p ch) := by
  rw [chunkParameters]
  split
  · exact h.next hp rfl rfl
  · exact h.next hp rfl rfl

theorem oneByte_chunkSizeAlmostDone : OneByte reply data l p (x.chunkSizeAlmostDone p ch) := by
  rw [chunkSizeAlmostDone]
  dsimp only
  split
  · exact h.error rfl (by decide)
  · split
    · exact h.next hp rfl rfl
    · exact h.next hp rfl rfl

theorem oneByte_chunkDataAlmostDone :
    OneByte reply data l p (x.chunkDataAlmostDone reply data p ch) := by
  rw [chunkDataAlmostDone]
  split
  · exact h.error rfl (by decide)
  · exact oneByte_callbackData h hp rfl rfl

theorem oneByte_chunkDataDone : OneByte reply data l p (x.chunkDataDone p ch) := by
  rw [chunkDataDone]
  split
  · exact h.error rfl (by decide)
  · exact h.next hp rfl rfl

theorem oneByte_dead : OneByte reply data l p (x.dead p ch) := by
  rw [dead]
  split
  · exact h.next hp rfl rfl
  · exact h.error rfl (by decide)

/-- The end of a body of known length ends the call at its last byte. -/
theorem oneByte_bodyIdentity :
    OneByte reply data l p (x.bodyIdentity reply data p) := by
  rw [bodyIdentity]
  dsimp only
  generalize hn : min x.parser.contentLength (data.length - p) = n
  have hparser := parser_mark x .body p
  have hmarked : Ongoing reply data l (x.mark .body p) p :=
    h.congr (errno_mark _ _ _) (calls_mark _ _ _)
  generalize x.mark .body p = z at hparser hmarked
  have hlast : p + n - 1 < data.length := by omega
  split
  · have hdone : Ongoing reply data l ({ z with parser := { z.parser with
        contentLength := z.parser.contentLength - n } }.goto .messageDone) p :=
      hmarked.congr rfl rfl
    refine hdone.callbackData (Nat.le_of_lt hlast) fun y hy _ ↦ ?_
    refine meets_complete (hy.at (Nat.le_of_lt hlast)) hlast rfl rfl fun z hend hz ↦ ?_
    exact ⟨⟨hz.errno, hlast, hz.notMem, hz.grows⟩, fun hend' ↦ absurd hend' hend⟩
  · next hne =>
    have hlt : n < x.parser.contentLength := by
      rw [← hparser]
      exact Nat.lt_of_sub_ne_zero hne
    exact ⟨Ongoing.congr (hmarked.at (by omega)) rfl rfl, fun _ ↦ by omega⟩

end States

/-- What a round of the loop has ahead of it. A chunk without bytes, which no message leads to,
takes a round and no byte. -/
def ahead (data : List Byte) (x : Exec) (p : ℕ) : ℕ :=
  2 * (data.length - p) + if x.parser.state = .chunkData then 1 else 0

theorem ahead_lt (hp : p < data.length) {p' : ℕ} (hlt : p < p') :
    ahead data y p' < ahead data x p := by
  rw [ahead, ahead]
  split <;> split <;> omega

/-- The bytes of a chunk are taken at once, and the state is left if there are none. -/
theorem meets_chunkData (h : Ongoing reply data l x p) (hp : p < data.length)
    (hstate : x.parser.state = .chunkData) :
    (x.chunkData data p).Meets
      (fun y p' ↦ Ongoing reply data l y p' ∧
        (reply.PausesAtEnd → ahead data y p' < ahead data x p))
      (Over reply data l) := by
  rw [chunkData]
  dsimp only
  generalize hn : min x.parser.contentLength (data.length - p) = n
  have hparser := parser_mark x .body p
  have hmarked : Ongoing reply data l (x.mark .body p) p :=
    h.congr (errno_mark _ _ _) (calls_mark _ _ _)
  generalize x.mark .body p = z at hparser hmarked
  have hle : p + n ≤ data.length := by omega
  split
  · refine ⟨Ongoing.congr (hmarked.at hle) rfl rfl, fun _ ↦ ?_⟩
    have hleft : ({ z with parser := { z.parser with
        contentLength := z.parser.contentLength - n } }.goto .chunkDataAlmostDone).parser.state ≠
          .chunkData := nofun
    rw [ahead, ahead, if_pos hstate, if_neg hleft]
    omega
  · next hne =>
    have hlt : n < x.parser.contentLength := by
      rw [← hparser]
      exact Nat.lt_of_sub_ne_zero hne
    exact ⟨Ongoing.congr (hmarked.at hle) rfl rfl, fun _ ↦ ahead_lt hp (by omega)⟩

/-- **A round of the loop** leaves fewer bytes ahead without an error, or the call is over. -/
theorem meets_step (h : Ongoing reply data l x p) (hp : p < data.length) :
    (x.step reply data p ch).Meets
      (fun y p' ↦ Ongoing reply data l y p' ∧
        (reply.PausesAtEnd → ahead data y p' < ahead data x p))
      (Over reply data l) := by
  have hbyte : ∀ {f : Flow}, OneByte reply data l p f → f.Meets
      (fun y p' ↦ Ongoing reply data l y p' ∧
        (reply.PausesAtEnd → ahead data y p' < ahead data x p)) (Over reply data l) :=
    fun hf ↦ hf.mono (fun _ _ hI ↦ ⟨hI.1, fun hend ↦ ahead_lt hp (hI.2 hend)⟩) fun _ _ hR ↦ hR
  unfold step
  split
  · exact hbyte (oneByte_dead h hp)
  · exact hbyte (oneByte_startReq h hp)
  · exact hbyte (oneByte_reqMethod h hp)
  · exact hbyte (oneByte_reqSpacesBeforeUrl h hp)
  · exact hbyte (oneByte_reqSchema h hp)
  · exact hbyte (oneByte_reqSchema h hp)
  · exact hbyte (oneByte_reqSchema h hp)
  · exact hbyte (oneByte_reqUrl h hp)
  · exact hbyte (oneByte_reqUrl h hp)
  · exact hbyte (oneByte_reqUrl h hp)
  · exact hbyte (oneByte_reqUrl h hp)
  · exact hbyte (oneByte_reqUrl h hp)
  · exact hbyte (oneByte_reqUrl h hp)
  · exact hbyte (oneByte_reqUrl h hp)
  · exact hbyte (oneByte_reqUrl h hp)
  · exact hbyte (oneByte_reqUrl h hp)
  · exact hbyte (oneByte_reqHttpStart h hp)
  · exact hbyte (oneByte_strict h hp)
  · exact hbyte (oneByte_strict h hp)
  · exact hbyte (oneByte_strict h hp)
  · exact hbyte (oneByte_strict h hp)
  · exact hbyte (oneByte_reqFirstHttpMajor h hp)
  · exact hbyte (oneByte_reqHttpMajor h hp)
  · exact hbyte (oneByte_reqFirstHttpMinor h hp)
  · exact hbyte (oneByte_reqHttpMinor h hp)
  · exact hbyte (oneByte_reqLineAlmostDone h hp)
  · exact hbyte (oneByte_headerFieldStart h hp)
  · exact hbyte (oneByte_headerField h hp)
  · exact hbyte (oneByte_headerValueStart h hp)
  · exact hbyte (oneByte_headerValue h hp)
  · exact hbyte (oneByte_headerAlmostDone h hp)
  · exact hbyte (oneByte_headerValueLws h hp)
  · exact hbyte (oneByte_headersAlmostDone h hp)
  · exact hbyte (oneByte_headersDone h hp)
  · exact hbyte (oneByte_bodyIdentity h hp)
  · exact hbyte (oneByte_messageDone h hp)
  · exact hbyte (oneByte_chunkSizeStart h hp)
  · exact hbyte (oneByte_chunkSize h hp)
  · exact hbyte (oneByte_chunkParameters h hp)
  · exact hbyte (oneByte_chunkSizeAlmostDone h hp)
  · next hstate => exact meets_chunkData h hp hstate
  · exact hbyte (oneByte_chunkDataAlmostDone h hp)
  · exact hbyte (oneByte_chunkDataDone h hp)

/-- The call ends behind the last byte. -/
theorem meets_finish (h : Ongoing reply data l x data.length) :
    (x.finish reply data).Meets (fun _ _ ↦ False) (Over reply data l) := by
  rw [finish]
  refine h.callbackData (Nat.le_refl _) fun _ h _ ↦ ?_
  refine h.callbackData (Nat.le_refl _) fun _ h _ ↦ ?_
  refine h.callbackData (Nat.le_refl _) fun _ h _ ↦ ?_
  refine h.callbackData (Nat.le_refl _) fun y h _ ↦ ?_
  refine ⟨fun _ _ ↦ rfl, fun hend _ ↦ h.notMem hend, fun _ ↦ Nat.le_refl _, fun hend k hk ↦ ?_,
    fun hpause ↦ ?_, h.grows⟩
  · exact absurd (List.mem_map.2 ⟨_, hk, rfl⟩) (h.notMem hend)
  · rw [h.errno] at hpause
    cases hpause

/-- One more byte of a header section is counted. -/
def count (x : Exec) : Exec :=
  if parsingHeader x.parser.state then
    { x with parser := { x.parser with nread := x.parser.nread + 1 } }
  else x

theorem Ongoing.count (h : Ongoing reply data l x p) : Ongoing reply data l x.count p := by
  rw [Exec.count]
  split
  · exact h.congr rfl rfl
  · exact h

theorem count_state (x : Exec) : x.count.parser.state = x.parser.state := by
  rw [count]
  split <;> rfl

/-- A round of the loop in which there is a byte. -/
theorem loop_succ_of_some {fuel : ℕ} (hch : data[p]? = some ch) :
    x.loop reply data (fuel + 1) p =
      if parsingHeader x.count.parser.state ∧ HTTP_MAX_HEADER_SIZE < x.count.parser.nread then
        ({ x.count with parser := { x.count.parser with httpErrno := .headerOverflow } }, p)
      else
        match x.count.step reply data p ch with
        | .next y p' => y.loop reply data fuel p'
        | .ret y n => (y, n) := by
  rw [loop, hch]
  rfl

/-- The last round. -/
theorem loop_succ_of_none {fuel : ℕ} (hnone : data[p]? = none) :
    x.loop reply data (fuel + 1) p =
      match x.finish reply data with
      | .next y p' => (y, p')
      | .ret y n => (y, n) := by
  unfold loop
  cases x.finish reply data <;> simp only [hnone]

/-- **The rule of the loop.** What every round keeps, in addition to `Ongoing`, leads to what holds
where the function returns. Only without a pause at the end of a message can the fuel run out. -/
theorem loop_meets {I R : Exec → ℕ → Prop}
    (hcount : ∀ x p, I x p → I x.count p)
    (hoverflow : ∀ x p, Ongoing reply data l x p → I x p →
      R { x with parser := { x.parser with httpErrno := .headerOverflow } } p)
    (hstep : ∀ x p ch, Ongoing reply data l x p → I x p → data[p]? = some ch →
      (x.step reply data p ch).Meets I R)
    (hfinish : ∀ x, Ongoing reply data l x data.length → I x data.length →
      (x.finish reply data).Meets (fun _ _ ↦ False) R)
    (hzero : ∀ x p, Ongoing reply data l x p → I x p → ¬reply.PausesAtEnd → R x 0)
    (fuel : ℕ) (h : Ongoing reply data l x p) (hI : I x p)
    (hfuel : reply.PausesAtEnd → ahead data x p < fuel) :
    R (x.loop reply data fuel p).1 (x.loop reply data fuel p).2 := by
  induction fuel generalizing x p with
  | zero => exact hzero x p h hI fun hend ↦ Nat.not_lt_zero _ (hfuel hend)
  | succ fuel ih =>
    cases hch : data[p]? with
    | none =>
      have hp : p = data.length := Nat.le_antisymm h.le (List.getElem?_eq_none_iff.1 hch)
      rw [hp] at h hI
      have hlast := hfinish x h hI
      rw [loop_succ_of_none hch]
      cases hf : x.finish reply data with
      | next y p' =>
        rw [hf] at hlast
        exact hlast.elim
      | ret y n =>
        rw [hf] at hlast
        exact hlast
    | some ch =>
      obtain ⟨hp, -⟩ := List.getElem?_eq_some_iff.1 hch
      rw [loop_succ_of_some hch]
      split
      · exact hoverflow x.count p h.count (hcount x p hI)
      · -- `Ongoing` is kept by every round, `I` by hypothesis; the fuel lasts because `ahead` falls
        have hgoes : (x.count.step reply data p ch).Meets _ _ := meets_step h.count hp
        have hmeets := hstep x.count p ch h.count (hcount x p hI) hch
        cases hf : x.count.step reply data p ch with
        | next y p' =>
          rw [hf] at hgoes hmeets
          refine ih hgoes.1 hmeets fun hend ↦ ?_
          have hsame : ahead data x.count p = ahead data x p := by
            rw [ahead, ahead, count_state]
          have hlt := hgoes.2 hend
          have hle := hfuel hend
          omega
        | ret y n =>
          rw [hf] at hmeets
          exact hmeets

/-- **The loop ends**, and where it ends `Over` holds. -/
theorem over_loop (fuel : ℕ) (h : Ongoing reply data l x p)
    (hfuel : reply.PausesAtEnd → ahead data x p < fuel) :
    Over reply data l (x.loop reply data fuel p).1 (x.loop reply data fuel p).2 := by
  refine loop_meets (I := fun _ _ ↦ True) (fun _ _ _ ↦ trivial) (fun x p h _ ↦ ?_)
    (fun x p ch h _ hch ↦ ?_) (fun x h _ ↦ meets_finish h) (fun x p h _ hend ↦ ?_) fuel h trivial
    hfuel
  · exact Ongoing.error h rfl (by decide)
  · obtain ⟨hp, -⟩ := List.getElem?_eq_some_iff.1 hch
    exact (meets_step h hp).mono (fun _ _ _ ↦ trivial) fun _ _ hR ↦ hR
  · refine ⟨fun hend' ↦ absurd hend' hend, fun hend' ↦ absurd hend' hend,
      fun _ ↦ Nat.zero_le _, fun hend' ↦ absurd hend' hend, fun hpause ↦ ?_, h.grows⟩
    rw [h.errno] at hpause
    cases hpause

end Loop

end Exec

/-! ### The laws -/

/-- A call that begins without an error and with bytes goes through the loop. -/
theorem Parser.execute_eq (reply : Answers) {q : Parser} (hok : q.httpErrno = .ok)
    {data : List Byte} (hdata : data ≠ []) : q.execute reply data =
      Exec.loop reply data (2 * data.length + 2) ⟨q, q.initialMarks, []⟩ 0 := by
  rw [Parser.execute, if_neg (not_not.2 hok), if_neg hdata]

theorem Parser.ongoing (reply : Answers) {q : Parser} (hok : q.httpErrno = .ok)
    (data : List Byte) : Exec.Ongoing reply data [] ⟨q, q.initialMarks, []⟩ 0 :=
  ⟨hok, Nat.zero_le _, fun _ ↦ List.not_mem_nil, List.nil_prefix⟩

theorem Parser.ahead_lt (q : Parser) (data : List Byte) :
    Exec.ahead data ⟨q, q.initialMarks, []⟩ 0 < 2 * data.length + 2 := by
  rw [Exec.ahead]
  split <;> omega

/-- **A call of the parser** ends as `Over` says. -/
theorem Parser.over_execute (reply : Answers) {q : Parser} (hok : q.httpErrno = .ok)
    {data : List Byte} (hdata : data ≠ []) :
    Exec.Over reply data [] (q.execute reply data).1 (q.execute reply data).2 := by
  rw [Parser.execute_eq reply hok hdata]
  exact Exec.over_loop _ (Parser.ongoing reply hok data) fun _ ↦ q.ahead_lt data

/-- A call with an error from before, and one without bytes: nothing is consumed and no callback
made, unless the bytes end where they must not. -/
theorem Parser.execute_idle (reply : Answers) {q : Parser} {data : List Byte}
    (h : q.httpErrno ≠ .ok ∨ data = []) :
    (q.execute reply data).1.calls = [] ∧
      ((q.execute reply data).2 = 0 ∧ (q.execute reply data).1.parser = q ∨
        (q.execute reply data).1.parser.httpErrno = .invalidEofState) := by
  rw [Parser.execute]
  dsimp only
  split
  · exact ⟨rfl, .inl ⟨rfl, rfl⟩⟩
  · next hok =>
    rw [if_pos (h.resolve_left hok)]
    split
    · exact ⟨rfl, .inl ⟨rfl, rfl⟩⟩
    · exact ⟨rfl, .inr rfl⟩

/-- A call that ends without an error and without a pause does not end a message. -/
theorem Parser.notMem_of_ok {reply : Answers} (hend : reply.PausesAtEnd) {q : Parser}
    (hok : q.httpErrno = .ok) {data : List Byte}
    (h : (q.execute reply data).1.parser.httpErrno = .ok) :
    .messageComplete ∉ (q.execute reply data).1.calls.map Prod.fst := by
  by_cases hdata : data = []
  · rw [(Parser.execute_idle reply (.inr hdata)).1]
    exact List.not_mem_nil
  · exact (Parser.over_execute reply hok hdata).notMem_of_ok hend h

/-- The parser that a call begins with, after a pause or without one. -/
theorem Parser.resume_eq {q : Parser} (h : q.httpErrno = .ok ∨ q.httpErrno = .paused) :
    (if q.httpErrno = .paused then q.unpause else q) = { q with httpErrno := .ok } := by
  rcases h with h | h
  · rw [if_neg (by rw [h]; exact nofun), ← h]
  · rw [if_pos h, Parser.unpause, if_pos (.inr h)]

/-- **The bundled parser keeps to the laws** `http_request_op` relies on. -/
theorem parser_lawful : Lawful Parser where
  le_length q reply data hend h := by
    by_cases hidle : q.httpErrno ≠ .ok ∨ data = []
    · obtain ⟨-, ⟨hn, -⟩ | he⟩ := Parser.execute_idle reply hidle
      · exact Nat.le_trans (Nat.le_of_eq hn) (Nat.zero_le _)
      · have he' : errno (execute q reply data).1 = .invalidEofState := he
        rw [he'] at h
        exact absurd h (by decide)
    · rw [not_or, not_not] at hidle
      have hover := Parser.over_execute reply hidle.1 hidle.2
      exact h.elim (fun hok ↦ Nat.le_of_eq (hover.eq_of_ok hend hok)) hover.le_of_paused
  errno_of_lt q reply data hend hlt := by
    by_cases hidle : q.httpErrno ≠ .ok ∨ data = []
    · obtain ⟨-, ⟨hn, hq⟩ | he⟩ := Parser.execute_idle reply hidle
      · refine fun hok ↦ hidle.elim (fun hne ↦ hne ?_) fun hnil ↦ ?_
        · rw [← hq]
          exact hok
        · rw [hnil] at hlt
          exact Nat.not_lt_zero _ hlt
      · have he' : errno (execute q reply data).1 = .invalidEofState := he
        rw [he']
        decide
    · rw [not_or, not_not] at hidle
      have hover := Parser.over_execute reply hidle.1 hidle.2
      exact fun hok ↦ Nat.ne_of_lt hlt (hover.eq_of_ok hend hok)
  le_of_complete q reply data hend k hk := by
    by_cases hidle : q.httpErrno ≠ .ok ∨ data = []
    · have hcalls : (execute q reply data).2.2 = [] := (Parser.execute_idle reply hidle).1
      rw [hcalls] at hk
      exact absurd hk List.not_mem_nil
    · rw [not_or, not_not] at hidle
      exact (Parser.over_execute reply hidle.1 hidle.2).complete hend k hk

/-- **Only a callback pauses it.** -/
theorem parser_onlyCallbacksPause : OnlyCallbacksPause Parser where
  errno_unpause q := by
    show q.unpause.httpErrno ≠ .paused
    rw [Parser.unpause]
    split
    · exact nofun
    · next h => exact fun hp ↦ h (.inr hp)
  exists_pause q reply data hne hpause := by
    by_cases hidle : q.httpErrno ≠ .ok ∨ data = []
    · obtain ⟨-, ⟨-, hq⟩ | he⟩ := Parser.execute_idle reply hidle
      · exact absurd (hq ▸ hpause) hne
      · have he' : errno (execute q reply data).1 = .invalidEofState := he
        rw [he'] at hpause
        cases hpause
    · rw [not_or, not_not] at hidle
      exact (Parser.over_execute reply hidle.1 hidle.2).pause hpause

end JnetLib.Http
