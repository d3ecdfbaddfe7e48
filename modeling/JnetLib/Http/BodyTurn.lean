import JnetLib.Http.HeaderTurn

/-!
# A body, and the whole of one call, with the journal

The states of a body keep `Parser.frame`. A chunk is the one place where the parser stores a number
that it reads off the bytes without a callback, and it stores it in a `uint64_t`: that every size
fits there is asked of the bytes (`Stream.Fits`).

`left_execute` is what one call of the parser by `http_request_op` comes to, from any good state and
for any bytes. It rests on `turn_step`, one case for each state, and on the rule of the loop
`Exec.loop_meets`.
-/

namespace JnetLib.Http

namespace Turn

variable {T : Turn} {x y : Exec} {p n : ℕ} {ch : Byte}

/-! ### The states of a body -/

/-- Some bytes of a body. -/
theorem Ready.read {f g : Frame} (h : T.Ready x p) (hf : x.parser.frame = some f)
    (hread : (T.stream p).stand = .body f → T.stream n = { T.stream p with stand := .body g })
    (he : y.parser.httpErrno = x.parser.httpErrno) (hc : y.calls = x.calls)
    (hu : y.parser.upgrade = x.parser.upgrade) (hg : y.parser.frame = some g)
    (hpos : y.parser.state = .bodyIdentity → y.parser.contentLength ≠ 0) : T.Ready y n := by
  obtain ⟨hstand, -, hopen, hcount⟩ := h.good.place.of_frame hf
  refine ⟨⟨hc ▸ h.refuses, ?_, fun _ ↦ hc ▸ hopen⟩, he.trans h.errno⟩
  rw [hc]
  refine ⟨h.good.sound, h.good.accepted, hu.trans h.good.upgrade, ?_⟩
  rw [hread hstand]
  exact .body g rfl hg hpos hopen hcount

/-- A byte of a body behind which the parser stands where the reader does. -/
theorem Ready.frame {f g : Frame} (h : T.Ready x p) (hch : T.data[p]? = some ch)
    (hf : x.parser.frame = some f) (he : y.parser.httpErrno = x.parser.httpErrno)
    (hc : y.calls = x.calls) (hu : y.parser.upgrade = x.parser.upgrade)
    (hg : y.parser.frame = some g) (hs : y.parser.state ≠ .bodyIdentity) (hnext : f.next ch = g)
    (hover : g ≠ .over) : T.Ready y (p + 1) := by
  refine h.read hf (fun hstand ↦ ?_) he hc hu hg fun h ↦ absurd h hs
  rw [stream_succ hch, Stream.next_body hstand, hnext, Stand.ofFrame, if_neg hover]

theorem Ready.frame_next {f g : Frame} (h : T.Ready x p) (hch : T.data[p]? = some ch)
    (hf : x.parser.frame = some f) (he : y.parser.httpErrno = x.parser.httpErrno)
    (hc : y.calls = x.calls) (hu : y.parser.upgrade = x.parser.upgrade)
    (hg : y.parser.frame = some g) (hs : y.parser.state ≠ .bodyIdentity) (hnext : f.next ch = g)
    (hover : g ≠ .over) : (Flow.next y (p + 1)).Meets T.Within T.Left :=
  (h.frame hch hf he hc hu hg hs hnext hover).next

section Body

variable (h : T.Ready x p) (hch : T.data[p]? = some ch)
include h hch

theorem turn_chunkSizeStart (hs : x.parser.state = .chunkSizeStart) :
    (x.chunkSizeStart p ch).Meets T.Within T.Left := by
  have hf : x.parser.frame = some .sizeStart := by
    unfold Parser.frame
    rw [hs]
  unfold Exec.chunkSizeStart
  split
  · exact h.error rfl (by decide)
  · next d hd =>
    exact h.frame_next hch hf rfl rfl rfl rfl (by rintro ⟨⟩) (by rw [Frame.next, hd])
      (by rintro ⟨⟩)

theorem turn_chunkSize (hfits : (T.stream (p + 1)).Fits) (hs : x.parser.state = .chunkSize) :
    (x.chunkSize p ch).Meets T.Within T.Left := by
  have hf : x.parser.frame = some (.size x.parser.contentLength) := by
    unfold Parser.frame
    rw [hs]
  unfold Exec.chunkSize
  split
  · next hcr => exact h.frame_next hch hf rfl rfl rfl rfl (by rintro ⟨⟩) (if_pos hcr) (by rintro ⟨⟩)
  · next hcr =>
    split
    · next hnone =>
      split
      · next hend =>
        refine h.frame_next hch hf rfl rfl rfl rfl (by rintro ⟨⟩) ?_ (by rintro ⟨⟩)
        rw [Frame.next, if_neg hcr, hnone]
        exact if_pos hend
      · exact h.error rfl (by decide)
    · next d hd =>
      split
      · next q hq =>
        have halike := alike_nextDigit hq
        have hnext : Frame.next (.size x.parser.contentLength) ch =
            .size (x.parser.contentLength * 16 + d) := by
          rw [Frame.next, if_neg hcr, hd]
        have hlt : x.parser.contentLength * 16 + d < 2 ^ 64 := by
          rw [stream_succ hch, Stream.next_body (h.good.place.of_frame hf).1, hnext] at hfits
          exact hfits
        refine h.frame_next hch hf halike.errno rfl halike.upgrade
          (g := .size (x.parser.contentLength * 16 + d)) ?_ ?_ hnext (by rintro ⟨⟩)
        · have hlength : q.contentLength = x.parser.contentLength * 16 + d := by
            have hle : x.parser.contentLength * 16 < 2 ^ 64 := by omega
            rw [contentLength_nextDigit hq, toUInt64, toUInt64, Nat.mod_eq_of_lt hle,
              Nat.mod_eq_of_lt hlt]
          unfold Parser.frame
          rw [halike.state, hs, hlength]
        · rw [halike.state, hs]
          rintro ⟨⟩
      · next e he => exact h.error rfl (fatal_of_nextDigit he)

theorem turn_chunkParameters (hs : x.parser.state = .chunkParameters) :
    (x.chunkParameters p ch).Meets T.Within T.Left := by
  have hf : x.parser.frame = some (.extension x.parser.contentLength) := by
    unfold Parser.frame
    rw [hs]
  unfold Exec.chunkParameters
  split
  · next hcr => exact h.frame_next hch hf rfl rfl rfl rfl (by rintro ⟨⟩) (if_pos hcr) (by rintro ⟨⟩)
  · next hcr =>
    refine h.frame_next hch hf rfl rfl rfl hf ?_ (if_neg hcr) (by rintro ⟨⟩)
    rw [hs]
    rintro ⟨⟩

theorem turn_chunkSizeAlmostDone (hs : x.parser.state = .chunkSizeAlmostDone) :
    (x.chunkSizeAlmostDone p ch).Meets T.Within T.Left := by
  have hf : x.parser.frame = some (.sizeEnd x.parser.contentLength) := by
    unfold Parser.frame
    rw [hs]
  unfold Exec.chunkSizeAlmostDone
  split
  · exact h.error rfl (by decide)
  · next hlf =>
    dsimp only
    split
    · next hzero =>
      refine h.frame_next hch hf rfl rfl rfl rfl (by rintro ⟨⟩) ?_ (by rintro ⟨⟩)
      rw [Frame.next, if_neg hlf, if_pos hzero]
    · next hne =>
      have hdata : Frame.ofData x.parser.contentLength = .data x.parser.contentLength := if_neg hne
      refine h.frame_next hch hf rfl rfl rfl (congrArg some hdata) (by rintro ⟨⟩) ?_
        (by rintro ⟨⟩)
      rw [Frame.next, if_neg hlf, if_neg hne]

theorem turn_chunkDataAlmostDone (hs : x.parser.state = .chunkDataAlmostDone) :
    (x.chunkDataAlmostDone T.reply T.data p ch).Meets T.Within T.Left := by
  have hf : x.parser.frame = some .dataEnd := by
    unfold Parser.frame
    rw [hs]
  unfold Exec.chunkDataAlmostDone
  split
  · exact h.error rfl (by decide)
  · next hcr =>
    have hready : T.Ready (x.goto .chunkDataDone) (p + 1) :=
      h.frame hch hf rfl rfl rfl rfl nofun (if_pos (not_not.1 hcr)) nofun
    exact hready.callbackBody fun _ hz _ _ ↦ hz.next

theorem turn_chunkDataDone (hs : x.parser.state = .chunkDataDone) :
    (x.chunkDataDone p ch).Meets T.Within T.Left := by
  have hf : x.parser.frame = some .dataFeed := by
    unfold Parser.frame
    rw [hs]
  unfold Exec.chunkDataDone
  split
  · exact h.error rfl (by decide)
  · next hlf => exact h.frame_next hch hf rfl rfl rfl rfl nofun (if_pos (not_not.1 hlf)) nofun

theorem turn_messageDone (hf : x.parser.frame = some (.ofLength 1)) :
    (x.messageDone T.reply p).Meets T.Within T.Left := by
  rw [Exec.messageDone]
  exact h.frame_complete hch hf rfl rfl rfl rfl

end Body

/-- The mark for a part of a body. -/
theorem Ready.markBody {f : Frame} (h : T.Ready x p) (hf : x.parser.frame = some f)
    (hpos : x.parser.state = .bodyIdentity → x.parser.contentLength ≠ 0) :
    T.Ready (x.mark .body p) p := by
  have hparser := Exec.parser_mark x .body p
  refine h.read hf (fun hstand ↦ by rw [← hstand]) (by rw [hparser]) (Exec.calls_mark _ _ _)
    (by rw [hparser]) ?_ ?_ <;> rw [hparser]
  · exact hf
  · exact hpos

/-- The bytes of a body that there are, but for the last one if it ends the body. -/
theorem turn_bodyIdentity (h : T.Ready x p) (hp : p < T.data.length)
    (hs : x.parser.state = .bodyIdentity) :
    (x.bodyIdentity T.reply T.data p).Meets T.Within T.Left := by
  have hf : x.parser.frame = some (.ofLength x.parser.contentLength) := by
    unfold Parser.frame
    rw [hs]
  obtain ⟨-, hpos, -⟩ := h.good.place.of_frame hf
  have hne := hpos hs
  have hmark := h.markBody hf hpos
  have hparser := Exec.parser_mark x .body p
  unfold Exec.bodyIdentity
  dsimp only
  generalize x.mark .body p = z at hmark hparser
  have hlength : z.parser.contentLength = x.parser.contentLength := by rw [hparser]
  rw [hlength]
  generalize hk : min x.parser.contentLength (T.data.length - p) = k
  have hkl : k ≤ x.parser.contentLength := hk ▸ Nat.min_le_left _ _
  have hkd : k ≤ T.data.length - p := hk ▸ Nat.min_le_right _ _
  have hk1 : 1 ≤ k := hk ▸ Nat.le_min.2 ⟨Nat.pos_of_ne_zero hne, Nat.sub_pos_of_lt hp⟩
  have hzf : z.parser.frame = some (.ofLength x.parser.contentLength) := hparser ▸ hf
  have hlen : ∀ i ≤ k, ((T.data.drop p).take i).length = i := fun i hi ↦ by
    rw [List.length_take, List.length_drop, Nat.min_eq_left (Nat.le_trans hi hkd)]
  split
  · -- the body ends here: its last byte is looked at again, by `messageDone`
    next hzero =>
    have hlast : p + k - 1 = p + (k - 1) := by omega
    have hone : x.parser.contentLength - (k - 1) = 1 := by omega
    rw [hlast]
    refine Ready.callbackBody (hmark.read (g := .ofLength 1) hzf (fun hstand ↦ ?_) rfl rfl rfl rfl
      nofun) fun w hw hwp _ ↦ ?_
    · rw [stream_add, Stream.foldl_ofLength hstand _ (by rw [hlen _ (by omega)]; omega),
        hlen _ (by omega), hone]
    · refine turn_messageDone hw (List.getElem?_eq_getElem (by omega)) ?_
      rw [hwp]
      rfl
  · next hmore =>
    have hlast : p + k - 1 + 1 = p + k := by omega
    rw [hlast]
    refine Ready.next
      (hmark.read (g := .ofLength (x.parser.contentLength - k)) hzf (fun hstand ↦ ?_)
      rfl rfl rfl ?_ fun _ ↦ hmore)
    · rw [stream_add, Stream.foldl_ofLength hstand _ (by rw [hlen _ (Nat.le_refl k)]; omega),
        hlen _ (Nat.le_refl k)]
    · show Parser.frame { z.parser with contentLength := _ } = _
      unfold Parser.frame
      rw [hparser, hs]

/-- The bytes of a chunk that there are. -/
theorem turn_chunkData (h : T.Ready x p) (hs : x.parser.state = .chunkData) :
    (x.chunkData T.data p).Meets T.Within T.Left := by
  have hf : x.parser.frame = some (.ofData x.parser.contentLength) := by
    unfold Parser.frame
    rw [hs]
  have hmark := h.markBody hf fun hstate ↦ by rw [hs] at hstate; cases hstate
  have hparser := Exec.parser_mark x .body p
  unfold Exec.chunkData
  dsimp only
  generalize x.mark .body p = z at hmark hparser
  have hlength : z.parser.contentLength = x.parser.contentLength := by rw [hparser]
  rw [hlength]
  generalize hk : min x.parser.contentLength (T.data.length - p) = k
  have hkl : k ≤ x.parser.contentLength := hk ▸ Nat.min_le_left _ _
  have hkd : k ≤ T.data.length - p := hk ▸ Nat.min_le_right _ _
  have hzf : z.parser.frame = some (.ofData x.parser.contentLength) := hparser ▸ hf
  have hlen : ((T.data.drop p).take k).length = k := by
    rw [List.length_take, List.length_drop, Nat.min_eq_left hkd]
  have hread : (T.stream p).stand = .body (.ofData x.parser.contentLength) → T.stream (p + k) =
      { T.stream p with stand := .body (.ofData (x.parser.contentLength - k)) } := fun hstand ↦ by
    rw [stream_add, Stream.foldl_ofData hstand _ (by rw [hlen]; exact hkl), hlen]
  split
  · -- the data of the chunk ends here
    next hzero =>
    refine Ready.next (hmark.read (g := .dataEnd) hzf (fun hstand ↦ ?_) rfl rfl rfl rfl nofun)
    rw [hread hstand, hzero]
    rfl
  · next hmore =>
    refine Ready.next (hmark.read hzf hread rfl rfl rfl ?_ fun hstate ↦ ?_)
    · show Parser.frame { z.parser with contentLength := _ } = _
      unfold Parser.frame
      rw [hparser, hs]
    · have hstate' : z.parser.state = .bodyIdentity := hstate
      rw [hparser, hs] at hstate'
      cases hstate'

/-! ### Between two messages -/

/-- The first byte of a message. -/
theorem turn_startReq (h : T.Ready x p) (hch : T.data[p]? = some ch)
    (hs : x.parser.state = .startReq) :
    (x.startReq T.reply p ch).Meets T.Within T.Left := by
  obtain ⟨hstand, hopen, hcount⟩ := h.good.place.of_between (.inl hs)
  rw [Exec.startReq]
  split
  · -- a line end in front of a message
    next hend =>
    have hstream : T.stream (p + 1) = T.stream p := by
      rw [stream_succ hch, Stream.next_lead hstand hend]
    refine h.to_next rfl rfl rfl rfl ?_
    rw [hstream]
    exact .between (.inl hs) hstand hopen hcount
  · next hend =>
    have hstream : T.stream (p + 1) = { T.stream p with stand := .head .request } := by
      rw [stream_succ hch, Stream.next, hstand]
      exact if_neg hend
    dsimp only
    split
    · exact h.error rfl (by decide)
    · split
      · exact h.error rfl (by decide)
      · next m hm =>
        have hreply : ∀ y : Exec, T.reply (y.history .messageBegin) = ⟨0, false⟩ := fun y ↦
          reply_history y .messageBegin
        have hnoted : T.noted (x.calls ++ [(.messageBegin, p + 1)]) = T.noted x.calls := by
          have hlead : (Stream.read (T.before ++ T.data.take (p + 1 - 1))).stand = .lead := hstand
          have hsound : ((T.noted x.calls).sound && !(T.noted x.calls).isOpen &&
              (Stream.read (T.before ++ T.data.take (p + 1 - 1))).stand == .lead) =
                (T.noted x.calls).sound := by
            rw [hlead, hopen, Bool.not_false, Bool.and_true]
            exact Bool.and_true _
          rw [noted_concat]
          exact congrArg (fun b ↦ { T.noted x.calls with sound := b }) hsound
        refine Exec.meets_notify h.errno (by decide) (fun hstop ↦ ?_) fun _ _ ↦
          ⟨?_, ?_, fun hm ↦ ?_⟩
        · rw [hreply] at hstop
          simp at hstop
        · show T.refuses (x.calls ++ [(.messageBegin, p + 1)]) = false
          rw [refuses_concat, h.refuses]
          rfl
        · show Good _ (T.noted (x.calls ++ [(.messageBegin, p + 1)])) _
          rw [hnoted]
          refine ⟨h.good.sound, h.good.accepted, h.good.upgrade, ?_⟩
          rw [hstream]
          exact .head .request rfl (.request rfl rfl rfl) rfl rfl hopen hcount
        · show (T.noted (x.calls ++ [(.messageBegin, p + 1)])).isOpen = true
          rw [hnoted]
          exact h.mark hm

/-- A byte behind the last message of a connection. -/
theorem turn_dead (h : T.Ready x p) (hch : T.data[p]? = some ch) (hs : x.parser.state = .dead) :
    (x.dead p ch).Meets T.Within T.Left := by
  obtain ⟨hstand, hopen, hcount⟩ := h.good.place.of_between (.inr hs)
  rw [Exec.dead]
  split
  · next hend =>
    have hstream : T.stream (p + 1) = T.stream p := by
      rw [stream_succ hch, Stream.next_lead hstand hend]
    refine h.to_next rfl rfl rfl rfl ?_
    rw [hstream]
    exact .between (.inr hs) hstand hopen hcount
  · exact h.error rfl (by decide)

/-! ### The loop -/

/-- **A byte in any state**: the parser is ready again, or the call returns as it should. -/
theorem turn_step (ho : Exec.Ongoing T.reply T.data x.calls x p) (h : T.Ready x p)
    (hch : T.data[p]? = some ch) (hfits : (T.stream (p + 1)).Fits) :
    (x.step T.reply T.data p ch).Meets T.WithinIf T.LeftIf := by
  by_cases hline : x.parser.state.inLine = true
  · exact meets_if (turn_line h hline hch)
  · obtain ⟨hp, -⟩ := List.getElem?_eq_some_iff.1 hch
    rw [Exec.step]
    cases hs : x.parser.state with
    | dead => exact meets_if (turn_dead h hch hs)
    | startReq => exact meets_if (turn_startReq h hch hs)
    | headerFieldStart => exact turn_headerFieldStart h hch ho hs
    | headerField => exact meets_if (turn_headerField h hch hs)
    | headerValueStart => exact meets_if (turn_headerValueStart h hch hs)
    | headerValue => exact meets_if (turn_headerValue h hch hs)
    | headerAlmostDone => exact meets_if (turn_headerAlmostDone h hch hs)
    | headerValueLws => exact turn_headerValueLws h hch ho hs
    | headersAlmostDone =>
      have hself : x.goto .headersAlmostDone = x := by rw [Exec.goto, ← hs]
      rw [← hself]
      exact turn_headersAlmostDone ho h hch (.inr hs)
    | headersDone => exact meets_if (turn_headersDone h hch hs)
    | bodyIdentity => exact meets_if (turn_bodyIdentity h hp hs)
    | messageDone => exact meets_if (turn_messageDone h hch (by rw [Parser.frame, hs]))
    | chunkSizeStart => exact meets_if (turn_chunkSizeStart h hch hs)
    | chunkSize => exact meets_if (turn_chunkSize h hch hfits hs)
    | chunkParameters => exact meets_if (turn_chunkParameters h hch hs)
    | chunkSizeAlmostDone => exact meets_if (turn_chunkSizeAlmostDone h hch hs)
    | chunkData => exact meets_if (turn_chunkData h hs)
    | chunkDataAlmostDone => exact meets_if (turn_chunkDataAlmostDone h hch hs)
    | chunkDataDone => exact meets_if (turn_chunkDataDone h hch hs)
    | _ =>
      -- the states of the request line
      rw [hs] at hline
      exact absurd rfl hline

theorem turn_finish (h : T.Ready x T.data.length) :
    (x.finish T.reply T.data).Meets (fun _ _ ↦ False) T.Left := by
  unfold Exec.finish
  refine h.callbackHeader nofun fun y hy _ ↦ hy.callbackHeader nofun fun y hy _ ↦
    hy.callbackHeader nofun fun y hy _ ↦ hy.callbackBody fun z hz _ _ ↦ ?_
  exact .ok hz.refuses hz.errno hz.good

theorem within_count (h : T.Within x p) : T.Within x.count p := by
  rw [Exec.count]
  split
  · exact ⟨h.refuses, h.good.congr rfl rfl rfl rfl rfl rfl, h.mark⟩
  · exact h

theorem calls_count (x : Exec) : x.count.calls = x.calls := by
  rw [Exec.count]
  split <;> rfl

/-- **A call of the parser** returns as it should, for a stream whose sizes fit and sections that
cannot be mistaken. -/
theorem left_execute {q : Parser} (hok : q.httpErrno = .ok)
    (hgood : Good (.read T.before) T.journal q) (hfits : ∀ k ≤ T.data.length, (T.stream k).Fits)
    (hlegible : T.Legible (q.execute T.reply T.data).1.calls) :
    T.Left (q.execute T.reply T.data).1 (q.execute T.reply T.data).2 := by
  have hzero : T.stream 0 = .read T.before := by rw [stream, List.take_zero, List.append_nil]
  by_cases hdata : T.data = []
  · obtain ⟨hcalls, hend⟩ := Parser.execute_idle T.reply (q := q) (.inr hdata)
    rcases hend with ⟨hn, hq⟩ | he
    · refine .ok ?_ (hq.symm ▸ hok) ?_
      · rw [hcalls]
        rfl
      · rw [hcalls, hn, hq, hzero]
        exact hgood
    · refine .failed ?_ ?_ (.inl (by rw [he]; decide)) <;> rw [hcalls]
      · rfl
      · exact hgood.sound
  have hstart : T.Within ⟨q, q.initialMarks, []⟩ 0 := by
    refine ⟨rfl, hzero.symm ▸ hgood, fun hm ↦ ?_⟩
    simp [Parser.initialMarks] at hm
  revert hlegible
  rw [Parser.execute_eq T.reply hok hdata]
  refine Exec.loop_meets (I := T.WithinIf) (R := T.LeftIf) (fun x p h hleg ↦ ?_)
    (fun x p ho hI hleg ↦ ?_) (fun x p ch ho hI hch ↦ ?_) (fun x ho hI ↦ ?_)
    (fun x p _ _ hend ↦ ?_) _ (Parser.ongoing T.reply hok T.data) (fun _ ↦ hstart)
    fun _ ↦ q.ahead_lt T.data
  · rw [calls_count] at hleg
    exact within_count (h hleg)
  · have h := hI hleg
    exact .failed h.refuses h.good.sound (.inl ⟨by simp, by simp⟩)
  · obtain ⟨hp, -⟩ := List.getElem?_eq_some_iff.1 hch
    by_cases hleg : T.Legible x.calls
    · exact turn_step ho.self ⟨hI hleg, ho.errno⟩ hch (hfits _ hp)
    · -- callbacks are never taken back
      exact (Exec.meets_step ho.self hp).mono (fun _ _ h hl ↦ absurd (hl.mono h.1.grows) hleg)
        fun _ _ h hl ↦ absurd (hl.mono h.grows) hleg
  · by_cases hleg : T.Legible x.calls
    · refine (turn_finish ⟨hI hleg, ho.errno⟩).mono (fun _ _ h ↦ h) fun y n h ↦ ?_
      exact fun _ ↦ h
    · exact (Exec.meets_finish ho.self).mono (fun _ _ h ↦ h)
        fun _ _ h hl ↦ absurd (hl.mono h.grows) hleg
  · exact absurd (RequestOp.answers_pausesAtEnd _ _) hend

end Turn

end JnetLib.Http
