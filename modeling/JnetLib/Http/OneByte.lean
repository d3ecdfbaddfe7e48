import JnetLib.Http.OneRound

/-!
# A byte alone

What a call with one byte does, for a parser that has told a listener all it has read: the round of
that byte and the end of the call (`next_of_heard`), or a return (`next_of_ret`). A byte of a body
is a fragment by itself, and `feed_body` and `feed_body_concat` put the fragments together: fed with
the bytes of a body, or of part of it, one by one, a listener is told what one fragment with all of
them tells.
-/

namespace JnetLib.Http.Listener

variable {S : Type*} (L : Listener S) {q : Parser} {t : S} {n : ℕ} {ch : Byte}

theorem next_singleton (hok : q.httpErrno = .ok) (t : S) (n : ℕ) (ch : Byte) :
    L.next ⟨q, t, n⟩ [ch] =
      ⟨(Exec.loop (L.answers t) [ch] 4 ⟨q, q.initialMarks, []⟩ 0).1.parser,
        L.told t (Exec.loop (L.answers t) [ch] 4 ⟨q, q.initialMarks, []⟩ 0).1.calls,
        n + (Exec.loop (L.answers t) [ch] 4 ⟨q, q.initialMarks, []⟩ 0).2⟩ := by
  rw [L.next_of_ok hok]
  dsimp only
  rw [Parser.execute_eq (L.answers t) hok (List.cons_ne_nil ch [])]
  rfl

/-- A byte that is taken, with nothing behind it. Before a message nothing is told. -/
theorem next_of_heard {y : Exec} {t' : S} (hok : q.httpErrno = .ok)
    (hlt : ¬(parsingHeader (Exec.count ⟨q, q.initialMarks, []⟩).parser.state ∧
      HTTP_MAX_HEADER_SIZE < (Exec.count ⟨q, q.initialMarks, []⟩).parser.nread))
    (hstep : (Exec.count ⟨q, q.initialMarks, []⟩).step (L.answers t) [ch] 0 ch = .next y 1)
    (hy : y.parser.httpErrno = .ok) (h : Exec.Heard L t [ch] y 1 t')
    (hidle : y.parser.state.idle = true → t' = t) (n : ℕ) :
    L.next ⟨q, t, n⟩ [ch] = ⟨y.parser, t', n + 1⟩ := by
  obtain ⟨z, hz, hparser, htold⟩ : ∃ z, y.finish (L.answers t) [ch] = .ret z 1 ∧ _ ∧ _ :=
    Exec.finish_of_heard h hy
  have htold' : L.told t z.calls = t' := by
    rcases htold with ⟨hi, hcalls⟩ | htold
    · rw [hcalls, hidle hi]
      rfl
    · exact htold
  have hloop : Exec.loop (L.answers t) [ch] 4 ⟨q, q.initialMarks, []⟩ 0 = (z, 1) := by
    rw [Exec.loop_succ_of_some (show [ch][0]? = some ch from rfl), if_neg hlt, hstep]
    dsimp only
    rw [Exec.loop_succ_of_none rfl, hz]
  rw [L.next_singleton hok, hloop]
  dsimp only
  rw [hparser, htold']

/-- A byte that ends the call. -/
theorem next_of_ret {y : Exec} {k : ℕ} (hok : q.httpErrno = .ok)
    (hlt : ¬(parsingHeader (Exec.count ⟨q, q.initialMarks, []⟩).parser.state ∧
      HTTP_MAX_HEADER_SIZE < (Exec.count ⟨q, q.initialMarks, []⟩).parser.nread))
    (hstep : (Exec.count ⟨q, q.initialMarks, []⟩).step (L.answers t) [ch] 0 ch = .ret y k) (n : ℕ) :
    L.next ⟨q, t, n⟩ [ch] = ⟨y.parser, L.told t y.calls, n + k⟩ := by
  have hloop : Exec.loop (L.answers t) [ch] 4 ⟨q, q.initialMarks, []⟩ 0 = (y, k) := by
    rw [Exec.loop_succ_of_some (show [ch][0]? = some ch from rfl), if_neg hlt, hstep]
  rw [L.next_singleton hok, hloop]

/-- A byte of a body is no byte of a header section. -/
theorem count_body (hs : q.state = .bodyIdentity ∨ q.state = .chunkData) :
    Exec.count ⟨q, q.initialMarks, []⟩ = ⟨q, noMarks, []⟩ ∧ parsingHeader q.state = false := by
  have hspan : q.state.span = none := by
    rcases hs with hs | hs <;> rw [hs] <;> rfl
  have hparsing : parsingHeader q.state = false := by
    rcases hs with hs | hs <;> rw [hs] <;> rfl
  refine ⟨?_, hparsing⟩
  rw [initialMarks_of_none hspan, Exec.count]
  dsimp only
  rw [hparsing]
  rfl

/-- A byte of a body that goes on. -/
theorem next_body (hok : q.httpErrno = .ok)
    (hs : q.state = .bodyIdentity ∨ q.state = .chunkData) (hlt : 1 < q.contentLength) (t : S)
    (n : ℕ) (ch : Byte) :
    L.next ⟨q, t, n⟩ [ch] =
      ⟨{ q with contentLength := q.contentLength - 1 }, L.tell t (.data .body 0 [ch]), n + 1⟩ := by
  obtain ⟨hcount, hparsing⟩ := count_body hs
  refine L.next_of_heard
    (y := ⟨{ q with contentLength := q.contentLength - 1 }, onlyMark .body 0, []⟩) hok ?_ ?_ hok
    ?_ ?_ n
  · rw [hcount, hparsing]
    exact nofun
  · rw [hcount]
    exact Exec.step_of_lt (x := ⟨q, noMarks, []⟩) (Exec.mark_of_noMarks rfl .body 0)
      (Nat.lt_succ_self 0) hs hlt
  · exact .body 0 (Nat.zero_le _) rfl (hs.imp_right .inl) rfl
  · intro hidle
    rcases hs with hs | hs <;>
    · rw [hs] at hidle
      cases hidle

/-- Part of a body that goes on, byte by byte. -/
theorem feed_body (l : List Byte) (hl : l ≠ []) (hok : q.httpErrno = .ok)
    (hs : q.state = .bodyIdentity ∨ q.state = .chunkData) (hlt : l.length < q.contentLength) (t : S)
    (n : ℕ) :
    L.feed ⟨q, t, n⟩ (bytewise l) =
      ⟨{ q with contentLength := q.contentLength - l.length }, L.tell t (.data .body 0 l),
        n + l.length⟩ := by
  induction l generalizing q t n with
  | nil => exact absurd rfl hl
  | cons ch l ih =>
    have hfirst : L.feed ⟨q, t, n⟩ (bytewise (ch :: l)) =
        L.feed ⟨{ q with contentLength := q.contentLength - 1 }, L.tell t (.data .body 0 [ch]),
          n + 1⟩ (bytewise l) := by
      rw [← L.next_body hok hs (by simp at hlt; omega)]
      rfl
    rw [hfirst]
    by_cases hnil : l = []
    · rw [hnil]
      rfl
    · have hrest : l.length < q.contentLength - 1 := by simp at hlt; omega
      have hsub : q.contentLength - 1 - l.length = q.contentLength - (ch :: l).length := by
        simp only [List.length_cons]
        omega
      rw [ih (q := { q with contentLength := q.contentLength - 1 }) hnil hok hs hrest, L.tell_tell,
        List.singleton_append, Nat.add_assoc, Nat.add_comm 1 l.length]
      dsimp only
      rw [hsub]
      rfl

/-- The last byte of a chunk. -/
theorem next_chunkData (hok : q.httpErrno = .ok) (hs : q.state = .chunkData)
    (hone : q.contentLength = 1) (t : S) (n : ℕ) (ch : Byte) :
    L.next ⟨q, t, n⟩ [ch] =
      ⟨{ q with contentLength := 0, state := .chunkDataAlmostDone }, L.tell t (.data .body 0 [ch]),
        n + 1⟩ := by
  obtain ⟨hcount, hparsing⟩ := count_body (.inr hs)
  refine L.next_of_heard
    (y := ⟨{ q with contentLength := 0, state := .chunkDataAlmostDone }, onlyMark .body 0, []⟩)
    hok ?_ ?_ hok ?_ nofun n
  · rw [hcount, hparsing]
    exact nofun
  · have hle : q.contentLength ≤ [ch].length - 0 := Nat.le_of_eq hone
    rw [hcount, Exec.step_chunkData (x := ⟨q, noMarks, []⟩) (Exec.mark_of_noMarks rfl .body 0) hs
      hle]
    dsimp only
    rw [hone]
  · exact .body 0 (Nat.zero_le _) rfl (.inr (.inr rfl)) rfl

/-- The call ends behind the last byte of a body of known length. -/
def ended (q : Parser) (t : S) (ch : Byte) : Exec :=
  let q : Parser := { q with contentLength := 0, state := .messageDone }
  (Exec.goto ⟨q, noMarks, [(Exec.since [ch] .body 0 1, 0)]⟩ q.newMessage).stopped (L.answers t)
    .messageComplete .cbMessageComplete 1

theorem next_bodyIdentity (hok : q.httpErrno = .ok) (hs : q.state = .bodyIdentity)
    (hone : q.contentLength = 1) (t : S) (n : ℕ) (ch : Byte) :
    L.next ⟨q, t, n⟩ [ch] =
      ⟨(L.ended q t ch).parser, L.told t (L.ended q t ch).calls, n + 1⟩ := by
  obtain ⟨hcount, hparsing⟩ := count_body (.inl hs)
  have hpos : 0 < q.contentLength := by omega
  have hle : q.contentLength ≤ [ch].length - 0 := Nat.le_of_eq hone
  refine L.next_of_ret hok ?_ ?_ n
  · rw [hcount, hparsing]
    exact nofun
  · rw [hcount, Exec.step_bodyIdentity (x := ⟨q, noMarks, []⟩) (Exec.mark_of_noMarks rfl .body 0) hs
      hpos hle]
    dsimp only
    rw [hone]
    rw [Exec.callbackData_of_onlyMark
      (x := ⟨{ q with contentLength := 0, state := .messageDone }, onlyMark .body 0, []⟩) hok rfl]
    exact Exec.complete_eq
      (x := ⟨{ q with contentLength := 0, state := .messageDone }, noMarks,
        [(Exec.since [ch] .body 0 1, 0)]⟩) hok _

/-- A list ends in its last byte. -/
theorem exists_concat {l : List Byte} {k : ℕ} (h : l.length = k + 1) :
    ∃ l' ch, l = l' ++ [ch] ∧ l'.length = k := by
  have hne : l ≠ [] := by
    rintro rfl
    cases h
  refine ⟨l.dropLast, l.getLast hne, (List.dropLast_append_getLast hne).symm, ?_⟩
  rw [List.length_dropLast, h, Nat.add_sub_cancel]

/-- The bytes of a body, all but the last, leave it to the last to end it. -/
theorem feed_body_concat {l : List Byte} (hok : q.httpErrno = .ok)
    (hs : q.state = .bodyIdentity ∨ q.state = .chunkData) (hpos : 0 < q.contentLength)
    (hl : l.length = q.contentLength) (t : S) (n : ℕ) :
    ∃ ch t', L.tell t' (.data .body 0 [ch]) = L.tell t (.data .body 0 l) ∧
      L.feed ⟨q, t, n⟩ (bytewise l) =
        L.next ⟨{ q with contentLength := 1 }, t', n + q.contentLength - 1⟩ [ch] := by
  obtain ⟨l', ch, rfl, hl'⟩ := exists_concat (hl.trans (Nat.sub_add_cancel hpos).symm)
  rw [bytewise_append, feed_append]
  by_cases hnil : l' = []
  · have hone : q.contentLength = 1 := by
      rw [hnil] at hl
      exact hl.symm
    have hq : { q with contentLength := 1 } = q := by rw [← hone]
    refine ⟨ch, t, by rw [hnil]; rfl, ?_⟩
    rw [hnil, hq, hone, Nat.add_sub_cancel]
    rfl
  · have hlt : l'.length < q.contentLength := by omega
    have hsub : q.contentLength - l'.length = 1 := by omega
    have hcount : n + l'.length = n + q.contentLength - 1 := by omega
    refine ⟨ch, L.tell t (.data .body 0 l'), L.tell_tell _ _ _ _, ?_⟩
    rw [L.feed_body l' hnil hok hs hlt, hsub, hcount]
    rfl

end JnetLib.Http.Listener
