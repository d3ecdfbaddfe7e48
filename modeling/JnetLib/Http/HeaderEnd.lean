import JnetLib.Http.HeaderPiece

/-!
# The end of a header section

`headers_almost_done` makes the callback `on_headers_complete`. In a call that is not in continuous
mode that callback pauses the parser, and the call ends there, with an error, or at once behind it
at the end of a message without a body (`head_headersAlmostDone`). In continuous mode the call may
go on, and nothing is claimed of what follows.
-/

namespace JnetLib.Http.Piece

variable {P : Piece} {x y : Exec} {p m : ℕ} {ch : Byte} {c : Callback} {er : ℕ}

theorem continuous_after (l : List (Callback × ℕ)) :
    (P.after l).continuous = P.op.continuous :=
  P.op.handleAll_continuous P.buffer (l.map Prod.fst)

/-- `on_headers_complete` is the last of the callbacks made. -/
structure AtEnd (P : Piece) (x : Exec) (m : List (Callback × ℕ)) (c : Callback) (er : ℕ) :
    Prop where
  proper : P.Proper x.calls
  notHeaded : ¬Headed m
  isHeadersComplete : c.isHeadersComplete = true
  calls : x.calls = m ++ [(c, er)]

theorem AtEnd.headed {l : List (Callback × ℕ)} (h : P.AtEnd x l c er) : Headed x.calls :=
  ⟨(c, er), h.calls ▸ List.mem_append_right _ List.mem_cons_self, h.isHeadersComplete⟩

/-- How a call ends there. -/
theorem AtEnd.left {l : List (Callback × ℕ)} {n : ℕ} (h : P.AtEnd x l c er)
    (hgrows : x.calls <+: y.calls) (hland : P.op.continuous = false → y.Landed l c er) :
    P.Left y n :=
  ⟨h.proper.of_headed h.headed hgrows, fun hno ↦ absurd (h.headed.mono hgrows) hno,
    fun hno ↦ absurd (h.headed.mono hgrows) hno,
    fun hcont _ ↦ ⟨l, c, er, h.notHeaded, h.isHeadersComplete, hland hcont⟩⟩

/-- Where a message has no body, its end behind the header section ends the call. -/
theorem left_complete {I : Exec → ℕ → Prop} {k : Exec → Flow} {l : List (Callback × ℕ)}
    (hok : x.parser.httpErrno = .ok) (h : P.AtEnd x l c er) :
    (x.complete P.reply p k).Meets I P.Left := by
  have hreply : P.reply ((x.goto x.parser.newMessage).history .messageComplete) = ⟨0, true⟩ :=
    reply_history _ _
  rw [Exec.complete]
  refine Exec.meets_notify hok (by decide) (fun _ ↦ ?_) fun _ hpause ↦ ?_
  · refine h.left (List.prefix_append _ _) fun _ ↦ .message (p + 1) ?_ ?_ ?_
    · rw [← h.calls]
      rfl
    · show x.parser.newMessage = _ ∨ x.parser.newMessage = _
      rw [Parser.newMessage]
      split
      · exact .inl rfl
      · exact .inr rfl
    · show (if _ = 0 then HttpErrno.paused else _) = .paused
      rw [hreply]
      rfl
  · rw [hreply] at hpause
    cases hpause

/-- In non-continuous mode `on_headers_complete` pauses the parser, or returns something else than
zero. -/
theorem ret_of_not_pause {op : RequestOp} {buffer : ℕ} (hop : op.continuous = false)
    (hc : c.isHeadersComplete = true)
    (hpause : (RequestOp.handle buffer op c).reply.pause = false) :
    (RequestOp.handle buffer op c).reply.ret ≠ 0 := by
  cases c with
  | messageBegin => cases hc
  | data which off bytes => cases hc
  | messageComplete => cases hc
  | headersComplete method httpMajor httpMinor upgrade =>
    rw [RequestOp.handle, RequestOp.onHeadersComplete] at hpause ⊢
    dsimp only at hpause ⊢
    split at hpause
    · rw [RequestOp.due, if_neg (by rw [hop]; decide)] at hpause
      cases hpause
    · next hne =>
      rw [if_neg hne]
      exact hne

/-- Where the parser goes on behind `on_headers_complete`. -/
theorem left_headersDone {l : List (Callback × ℕ)}
    (ho : Exec.Ongoing P.reply P.data x.calls x p) (hp : p < P.data.length)
    (h : P.AtEnd x l c er) (hskip : P.op.continuous = false → x.parser.flags.skipbody = true) :
    (x.headersDone P.reply p ch).Meets P.Within P.Left := by
  cases hcont : P.op.continuous with
  | true =>
    refine (Exec.oneByte_headersDone ho hp).mono (fun y _ hy ↦ ?_) fun y _ hy ↦ ?_
    · exact ⟨h.proper.of_headed h.headed hy.1.grows, .inr ⟨hcont, h.headed.mono hy.1.grows⟩⟩
    · refine h.left hy.grows fun hfalse ↦ ?_
      rw [hcont] at hfalse
      cases hfalse
  | false =>
    have hend : P.AtEnd { x with parser := { x.parser with nread := 0 } } l c er :=
      ⟨h.proper, h.notHeaded, h.isHeadersComplete, h.calls⟩
    unfold Exec.headersDone
    dsimp only
    split
    · exact h.left (List.prefix_refl _) fun _ ↦ .failed h.calls ⟨nofun, nofun⟩
    · split
      · exact left_complete ho.errno hend
      · rw [if_pos (hskip hcont)]
        exact left_complete ho.errno hend

/-- Behind `on_headers_complete` the parser sees the same byte once more, unless the callback has
paused it. -/
theorem left_reexecute (ho : Exec.Ongoing P.reply P.data x.calls x p) (hp : p < P.data.length)
    (h : P.InHead x) (hc : c.isHeadersComplete = true) (hnoted : P.Noted x.calls c p)
    (hy : y.calls = x.calls ++ [(c, p)]) (hs : y.parser.state = .headersDone)
    (he : y.parser.httpErrno =
      if (P.reply (x.history c)).pause then .paused else x.parser.httpErrno)
    (hskip : P.op.continuous = false → (P.reply (x.history c)).pause = false →
      y.parser.flags.skipbody = true) :
    (if y.parser.httpErrno = .ok then y.headersDone P.reply p ch else .ret y p).Meets
      P.Within P.Left := by
  have hne : c ≠ .messageComplete := by
    rintro rfl
    cases hc
  have hend : P.AtEnd y x.calls c p := by
    refine ⟨?_, h.notHeaded, hc, hy⟩
    rw [hy]
    exact h.proper.concat fun _ ↦ hnoted
  split
  · next hok =>
    have hnot := (ho.passed hne p).notMem (RequestOp.answers_pausesAtEnd _ _)
    refine left_headersDone ⟨hok, ho.le, fun _ ↦ ?_, List.prefix_refl _⟩ hp hend
      fun hcont ↦ hskip hcont ?_
    · rw [hy]
      exact hnot
    · by_contra hpause
      rw [Bool.not_eq_false] at hpause
      rw [if_pos hpause, hok] at he
      cases he
  · next hnok =>
    refine hend.left (List.prefix_refl _) fun _ ↦ .head hy hs ?_
    split at he
    · exact he
    · exact absurd (he.trans ho.errno) hnok

/-- `on_headers_complete` and what follows on the same byte. -/
theorem head_headersAlmostDone (ho : Exec.Ongoing P.reply P.data x.calls x p)
    (hp : p < P.data.length) (h : P.InHead x) (hb : Begun (P.BegunBy x.calls) x.parser)
    (hv : (P.now x).view = entries (P.scan p).lines) :
    (x.headersAlmostDone P.reply p ch).Meets P.Within P.Left := by
  unfold Exec.headersAlmostDone
  dsimp only
  split
  · exact h.error rfl (by decide)
  · rw [if_neg (by rw [hb.trailing]; exact nofun)]
    generalize hc : Callback.headersComplete _ _ _ _ = c
    have hnoted : P.Noted x.calls c p := hc ▸ hv
    have hhead : c.isHeadersComplete = true := hc ▸ rfl
    have hreply : P.reply (x.history c) = (RequestOp.handle P.buffer (P.now x) c).reply :=
      reply_history x c
    generalize hz : Exec.call P.reply _ c p = z
    have hcalls : z.calls = x.calls ++ [(c, p)] := hz ▸ rfl
    have hstate : z.parser.state = .headersDone := hz ▸ rfl
    have herrno : z.parser.httpErrno =
        if (P.reply (x.history c)).pause then .paused else x.parser.httpErrno :=
      hz ▸ Exec.errno_call _ _ _
    have hmap : z.calls.map Prod.fst = x.history c := by
      rw [hcalls, List.map_append]
      rfl
    rw [hmap]
    split
    · -- the callback returns an error
      have hend : P.AtEnd z x.calls c p := by
        refine ⟨?_, h.notHeaded, hhead, hcalls⟩
        rw [hcalls]
        exact h.proper.concat fun _ ↦ hnoted
      exact hend.left (List.prefix_refl _) fun _ ↦ .failed hcalls ⟨nofun, nofun⟩
    · next hret =>
      refine left_reexecute ho hp h hhead hnoted ?_ ?_ ?_ fun hcont hpause ↦ ?_
      · split <;> exact hcalls
      · split <;> exact hstate
      · split <;> exact herrno
      · rw [hreply] at hpause
        have hne := ret_of_not_pause ((continuous_after _).trans hcont) hhead hpause
        rw [← hreply] at hne
        have hone : (P.reply (x.history c)).ret = 1 := by omega
        rw [if_pos hone]

end JnetLib.Http.Piece
