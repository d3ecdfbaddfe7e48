import JnetLib.Ssl.Continuation

/-!
# Sending over SSL

`ssl_send_op` gives its buffer to the engine piece by piece: what the engine has accepted is taken
off the buffer within the same call, the engine's output is sent before the operation goes on, and
`on_complete` starts all over while something is left. Here is what that comes to over a whole run
of `asyn_send`.

## What the theorem rests on

`Holds` ties three records to the buffer: the plaintext the engine has accepted, the output it has
produced, and what has been given to the transport. `Tallied` says besides what the callback was
told and what a posted completion will tell. A write takes the accepted bytes off the buffer in the
same call (`holds_callOp`), and sending moves output from the engine to the transport
(`holds_flush`); `on_complete` reports success only with the whole buffer accepted
(`tallied_complete`), and `io_operation` comes there only with no output left.
-/

namespace JnetLib.Ssl.SslOp

/-! ### What is promised -/

/-- `asyn_send(buf, len, …)` on a socket with these buffers. -/
def asynSend (buf inputBuffer bio : List Byte) (ssl2 : Bool) : SslOp :=
  start (.send buf ⟨0, buf.length⟩) inputBuffer bio ssl2

/-- The number of bytes a write is offered. -/
def offered (s : SslOp) : ℕ :=
  match s.kind with
  | .send _ buffer => clampLength buffer.len
  | _ => 0

/-- What a write comes to: it accepts bytes and leaves output pending, it accepts none and asks for
output or input, or it accepts none and fails with an error. -/
def Writes (s : SslOp) : SslEvent → Prop
  | .engine c =>
    (s.outcome c).want = .output ∧ 1 ≤ c.result ∧ c.result ≤ s.offered ∨
      ((s.outcome c).want = .outputAndRetry ∨ (s.outcome c).want = .inputAndRetry) ∧ c.result ≤ 0 ∨
      (s.outcome c).want = .nothing ∧ (s.outcome c).ec.isError = true ∧ c.result ≤ 0
  | _ => True

instance (s : SslOp) : (e : SslEvent) → Decidable (s.Writes e)
  | .engine _ => inferInstanceAs (Decidable (_ ∨ _))
  | .put .. | .received .. | .sent .. | .posted => .isTrue trivial

/-- What `asyn_send` owes its caller in a state of the operation, where `bio` was the engine's
output before it. -/
structure HandsOver (buf bio : List Byte) (s : SslOp) : Prop where
  /-- The engine has accepted a beginning of the buffer, each byte of it once. -/
  accepted : ∃ n ≤ buf.length, s.accepted = buf.take n
  /-- The callback runs at most once. -/
  once : s.callbacks.length ≤ 1
  /-- The count given to it is the number of bytes accepted. -/
  count : ∀ r ∈ s.callbacks, r.2 ≤ buf.length ∧ s.accepted = buf.take r.2
  /-- A callback without an error stands behind the whole buffer, with all output given to the
  transport. -/
  success : ∀ r ∈ s.callbacks, r.1.isError = false →
    r.2 = buf.length ∧ s.sent = bio ++ s.produced

/-! ### The invariant -/

/-- The buffer starts where the accepted bytes end, and the output is sent or still pending. -/
structure Fits (buf bio : List Byte) (kind : Kind) (accepted produced sent pending : List Byte) :
    Prop where
  kind : ∃ buffer : ConstBuffer, kind = .send buf buffer ∧ buffer.buf + buffer.len = buf.length ∧
    accepted = buf.take buffer.buf
  output : bio ++ produced = sent ++ pending

/-- `Fits`, of the fields of a state. -/
def Holds (buf bio : List Byte) (s : SslOp) : Prop :=
  Fits buf bio s.kind s.accepted s.produced s.sent s.bio

/-- Between two steps moreover: the callback was told where the buffer starts, without an error only
at its end and with no output left, and a posted completion is one that failed. -/
structure Tallied (buf bio : List Byte) (s : SslOp) : Prop where
  holds : s.Holds buf bio
  told : ∀ r ∈ s.callbacks, ∀ data buffer, s.kind = .send data buffer →
    r.2 = buffer.buf ∧ (r.1.isError = false → buffer.len = 0 ∧ s.bio = [])
  posts : 0 < s.posts → s.ec.isError = true

variable {buf bio data : List Byte} {s t : SslOp} {ec : ErrorCode} {bytes : ℕ}
  {unread first : Bool}

theorem Tallied.handsOver (h : Tallied buf bio s) (hi : Located True s) : s.HandsOver buf bio := by
  obtain ⟨⟨buffer, hk, hlen, hacc⟩, hout⟩ := h.holds
  refine ⟨⟨buffer.buf, by omega, hacc⟩, hi.callbacks_le, fun r hr ↦ ?_, fun r hr hec ↦ ?_⟩
  · rw [(h.told r hr _ _ hk).1]
    exact ⟨by omega, hacc⟩
  · obtain ⟨hbuf, hsucc⟩ := h.told r hr _ _ hk
    obtain ⟨hzero, hnil⟩ := hsucc hec
    rw [hnil, List.append_nil] at hout
    exact ⟨by omega, hout.symm⟩

theorem tallied_asynSend (buf inputBuffer bio : List Byte) (ssl2 : Bool) :
    Tallied buf bio (asynSend buf inputBuffer bio ssl2) where
  holds := ⟨⟨⟨0, buf.length⟩, rfl, Nat.zero_add _, rfl⟩, List.append_nil bio⟩
  told := nofun
  posts := fun h ↦ absurd h (Nat.lt_irrefl 0)

/-- With no callback made and nothing posted only the records count. -/
theorem Holds.tallied (h : s.Holds buf bio) (hc : s.callbacks = []) (hp : s.posts = 0) :
    Tallied buf bio s where
  holds := h
  told := by
    rw [hc]
    nofun
  posts := fun h ↦ absurd hp (Nat.ne_of_gt h)

theorem complete_of_send {buffer : ConstBuffer} (hk : s.kind = .send data buffer) (ec : ErrorCode) :
    s.complete ec = if !ec.isError && buffer.len != 0 then
      { s with completions := s.completions + 1 }.doSslOperation
      else { s with completions := s.completions + 1 }.callback ec buffer.buf := by
  rw [complete, onComplete, hk]

/-- `on_complete` reports success only with the whole buffer accepted. -/
theorem tallied_complete (h : s.Holds buf bio) (hc : s.callbacks = []) (hp : s.posts = 0)
    (hsucc : ec.isError = false → s.bio = []) : Tallied buf bio (s.complete ec) := by
  obtain ⟨buffer, hk, -, -⟩ := h.kind
  have hagain : Tallied buf bio { s with completions := s.completions + 1 }.doSslOperation :=
    Holds.tallied h hc hp
  rw [complete_of_send hk]
  split
  · exact hagain
  · next hcond =>
    refine ⟨h, fun r hr data' buffer' hk' ↦ ?_, fun h ↦ absurd hp (Nat.ne_of_gt h)⟩
    obtain ⟨-, rfl⟩ := Kind.send.inj (hk.symm.trans hk')
    have hr' : r ∈ s.callbacks ++ [(ec, buffer.buf)] := hr
    rw [hc, List.nil_append, List.mem_singleton] at hr'
    subst hr'
    refine ⟨rfl, fun hec ↦ ⟨?_, hsucc hec⟩⟩
    simpa [hec] using hcond

theorem tallied_finish (h : s.Holds buf bio) (hc : s.callbacks = []) (hp : s.posts = 0)
    (hsucc : s.ec.isError = false → s.bio = []) : Tallied buf bio (s.finish unread) :=
  tallied_complete (s := { s with ec := mapErrorCode s.ssl2 unread s.ec }) h hc hp fun hec ↦
    hsucc ((isError_mapErrorCode _ _ _).symm.trans hec)

theorem tallied_test (h : s.Holds buf bio) (hc : s.callbacks = []) (hp : s.posts = 0) :
    Tallied buf bio (s.test first ec bytes unread) := by
  rw [test]
  split
  · next herr => exact tallied_finish h hc hp fun hec ↦ by simp [herr] at hec
  · exact Holds.tallied h hc hp

/-- Sending output moves it from one record to the other. -/
theorem holds_flush (h : s.Holds buf bio) : s.flush.Holds buf bio := by
  rw [flush]
  split
  · exact h
  · refine ⟨h.kind, ?_⟩
    rw [List.append_assoc, List.take_append_drop]
    exact h.output

theorem tallied_flush (h : s.Holds buf bio) (hc : s.callbacks = []) (hp : s.posts = 0) :
    Tallied buf bio { s.flush with place := .returned } := by
  refine Holds.tallied (holds_flush h) ?_ ?_
  · rw [flush]
    split
    · exact hc
    · exact hc
  · rw [flush]
    split
    · exact hp
    · exact hp

theorem tallied_answer (h : s.Holds buf bio) (hc : s.callbacks = []) (hp : s.posts = 0)
    (hn : s.want = .nothing → s.ec.isError = true) :
    Tallied buf bio (s.answer ec bytes data unread) := by
  have hflush (hb : s.bio = []) : s.flush = { s with outputFlag := false } := flush_of_nil hb
  rw [answer]
  split
  case h_1 => exact Holds.tallied h hc hp
  case h_2 =>
    split
    · next hb =>
      rw [hflush hb]
      exact tallied_test h hc hp
    · exact tallied_flush h hc hp
  case h_3 =>
    split
    · next hb =>
      rw [hflush hb]
      exact tallied_finish h hc hp fun _ ↦ hb
    · exact tallied_flush h hc hp
  case h_4 hw => exact tallied_finish h hc hp fun hec ↦ by simp [hn hw] at hec

theorem tallied_resume (h : s.Holds buf bio) (hc : s.callbacks = []) (hp : s.posts = 0)
    (hn : s.want = .nothing → s.ec.isError = true) :
    Tallied buf bio (s.resume ec bytes data unread) := by
  refine tallied_answer h hc hp fun hw ↦ ?_
  rw [if_neg (by simp [hn hw])]
  exact hn hw

theorem tallied_dispatch (h : s.Holds buf bio) (hc : s.callbacks = []) (hp : s.posts = 0)
    (hn : s.want = .nothing → s.ec.isError = true) :
    Tallied buf bio (s.dispatch first ec bytes unread) := by
  have hsend : Tallied buf bio s.send :=
    tallied_flush (s := { s with asserted := s.asserted || s.outputFlag, outputFlag := true }) h hc
      hp
  unfold dispatch
  split
  case h_1 =>
    split
    · exact Holds.tallied h hc hp
    · exact Holds.tallied h hc hp
  case h_2 => exact hsend
  case h_3 => exact hsend
  case h_4 hw =>
    split
    · exact { Holds.tallied h hc hp with
        posts := fun _ ↦ hn hw
        told := by
          show ∀ r ∈ s.callbacks, _
          rw [hc]
          nofun }
    · exact tallied_resume h hc hp hn

/-! ### A write -/

theorem clampLength_le (n : ℕ) : clampLength n ≤ n := by
  rw [clampLength]
  split
  · exact Nat.le_refl n
  · omega

/-- What the engine takes is the next part of the buffer. -/
theorem take_append_taken {buffer : ConstBuffer} {k : ℕ} (hk : k ≤ clampLength buffer.len) :
    buf.take buffer.buf ++ (Kind.send buf buffer).taken k = buf.take (buffer.buf + k) := by
  rw [Kind.taken, List.take_take, Nat.min_eq_left hk, List.take_add]

/-- The bytes a write accepts are taken off the buffer in the same call. -/
theorem holds_callOp {c : SslCall} (h : s.Holds buf bio) (hw : s.Writes (.engine c)) :
    (s.callOp c).Holds buf bio := by
  obtain ⟨⟨buffer, hk, hlen, hacc⟩, hout⟩ := h
  have hout' : bio ++ (s.callOp c).produced = (s.callOp c).sent ++ (s.callOp c).bio := by
    show bio ++ (s.produced ++ c.output) = s.sent ++ (s.bio ++ c.output)
    rw [← List.append_assoc, hout, List.append_assoc]
  have hperform : s.outcome c = perform .write s.bio.length s.bytesTransferred c := by
    rw [outcome, hk]
    rfl
  have hkind : (s.callOp c).kind =
      (Kind.send buf buffer).advance (s.outcome c).ec (s.outcome c).bytesTransferred := by
    rw [← hk]
    rfl
  have hacc' : (s.callOp c).accepted =
      buf.take buffer.buf ++ (Kind.send buf buffer).taken c.result.toNat := by
    rw [← hacc, ← hk]
    rfl
  -- where nothing is accepted the buffer stays as it is
  have hstay (hz : c.result ≤ 0)
      (hb : (s.outcome c).ec.isError = true ∨ (s.outcome c).bytesTransferred = 0) :
      (s.callOp c).Holds buf bio := by
    refine ⟨⟨buffer, ?_, hlen, ?_⟩, hout'⟩
    · rw [hkind, Kind.advance, if_neg]
      rcases hb with hb | hb <;> simp [hb]
    · rw [hacc', Int.toNat_of_nonpos hz]
      exact List.append_nil _
  rcases hw with ⟨hwant, hpos, hle⟩ | ⟨hwant, hz⟩ | ⟨-, herr, hz⟩
  · have hne : (s.outcome c).want ≠ .nothing := by simp [hwant]
    rw [hperform] at hne
    have hle' : c.result.toNat ≤ clampLength buffer.len := by
      have hoff : s.offered = clampLength buffer.len := by
        rw [offered, hk]
      omega
    refine ⟨⟨buffer.consume c.result.toNat, ?_, ?_, ?_⟩, hout'⟩
    · rw [hkind, hperform, Kind.advance, isError_perform hne, bytesTransferred_perform_write hne,
        if_pos (by simp; omega)]
    · have := clampLength_le buffer.len
      rw [ConstBuffer.consume_buf, ConstBuffer.consume_len]
      omega
    · rw [hacc', ConstBuffer.consume_buf, take_append_taken hle']
  · refine hstay hz (.inr ?_)
    have hne : (s.outcome c).want ≠ .nothing := by
      rcases hwant with hwant | hwant <;> simp [hwant]
    rw [hperform] at hne ⊢
    rw [bytesTransferred_perform_write hne, Int.toNat_of_nonpos hz]
  · exact hstay hz (.inl herr)

/-! ### Runs -/

/-- **Every write and every completion keeps the books**: what has been accepted is in line with the
buffer, and what has been sent with the output. -/
theorem tallied_step {e : SslEvent} (hs : Tallied buf bio s) (hi : Located True s) (hw : s.Writes e)
    (hstep : s.step e = some t) : Tallied buf bio t := by
  cases e with
  | engine c =>
    rw [step] at hstep
    split at hstep
    case h_2 => cases hstep
    case h_1 first ec bytes hplace =>
      obtain rfl := Option.some.inj hstep
      have hq : NothingOutstanding s := hi.nothingOutstanding (by simp [hplace])
      refine tallied_dispatch (holds_callOp hs.holds hw) hq.callbacks hq.posts fun hn ↦ ?_
      have hn' : (s.outcome c).want = .nothing := hn
      rcases hw with ⟨hwant, -, -⟩ | ⟨hwant, -⟩ | ⟨-, herr, -⟩
      · rw [hn'] at hwant
        cases hwant
      · rw [hn'] at hwant
        rcases hwant with hwant | hwant <;> cases hwant
      · exact herr
  | put n unread =>
    rw [step] at hstep
    split at hstep
    case h_2 => cases hstep
    case h_1 first ec bytes hplace =>
      obtain rfl := Option.some.inj hstep
      have hq : NothingOutstanding s := hi.nothingOutstanding (by simp [hplace])
      exact tallied_test (s := { s with inputBuffer := s.inputBuffer.drop n }) hs.holds hq.callbacks
        hq.posts
  | received ec data unread =>
    obtain ⟨⟨-, hr⟩, ht⟩ := Option.ite_none_right_eq_some.1 hstep
    obtain rfl := Option.some.inj ht
    obtain ⟨hwant, -, hq⟩ := hi.receiving_of_pos hr
    refine tallied_resume (s := { s with receives := s.receives - 1 }) hs.holds hq.callbacks
      hq.posts
      fun hn ↦ ?_
    cases hwant.symm.trans hn
  | sent ec bytes unread =>
    obtain ⟨⟨-, hr⟩, ht⟩ := Option.ite_none_right_eq_some.1 hstep
    obtain rfl := Option.some.inj ht
    obtain ⟨hwant, -, -, hq⟩ := hi.sending_of_pos hr
    refine tallied_resume (s := { s with sends := s.sends - 1 }) hs.holds hq.callbacks hq.posts
      fun hn ↦ ?_
    have hn' : s.want = .nothing := hn
    rw [hn'] at hwant
    rcases hwant with hwant | hwant <;> cases hwant
  | posted =>
    obtain ⟨⟨-, hr⟩, ht⟩ := Option.ite_none_right_eq_some.1 hstep
    obtain rfl := Option.some.inj ht
    obtain ⟨hr', hq⟩ := hi.posted_of_pos hr
    refine tallied_complete (s := { s with posts := s.posts - 1 }) hs.holds hq.callbacks
      (by simp [hr']) fun hec ↦ ?_
    rw [hs.posts hr] at hec
    cases hec

/-- **Sending hands over each byte once and flushes before success.** In every run of `asyn_send` in
which each write accepts bytes and leaves output pending, asks for output or input, or fails with
an error: the engine has accepted a beginning of the buffer, its length is the count the callback is
given, the callback runs at most once, and without an error it reports the whole buffer, with all
the engine's output passed to the transport. -/
theorem handsOver_of_run {buf inputBuffer bio : List Byte} {ssl2 : Bool} {l : List SslEvent}
    (hl : Transition.RunMeets step Writes (asynSend buf inputBuffer bio ssl2) l)
    (hrun : Transition.run step (asynSend buf inputBuffer bio ssl2) l = some t) :
    t.HandsOver buf bio := by
  have ht : Tallied buf bio t ∧ Located True t := by
    refine Transition.invariant_run (I := fun s ↦ Tallied buf bio s ∧ Located True s)
      (fun s e u hs hw h ↦ ?_) ⟨tallied_asynSend _ _ _ _, located_start _ _ _ _⟩ hl hrun
    exact ⟨tallied_step hs.1 hs.2 hw h, located_step hs.2 (.inr trivial) h⟩
  exact ht.1.handsOver ht.2

/-- The theorem on three bytes, of which the engine takes two and then one. -/
theorem handsOver_of_run_three :
    SslOp.HandsOver [1, 2, 3] [] { asynSend [1, 2, 3] [] [] false with
      kind := .send [1, 2, 3] ⟨3, 0⟩
      want := .output
      bytesTransferred := 1
      place := .returned
      completions := 1
      callbacks := [(.noError, 3)]
      accepted := [1, 2, 3]
      produced := [7, 8, 9]
      sent := [7, 8, 9] } := by
  have hl : Transition.RunMeets step Writes (asynSend [1, 2, 3] [] [] false)
      [.engine ⟨2, SSL_ERROR_NONE, 0, [7, 8], false, false⟩, .sent .noError 2 false,
        .engine ⟨1, SSL_ERROR_NONE, 0, [9], false, false⟩, .sent .noError 1 false] := by decide
  exact handsOver_of_run hl (by decide)

end JnetLib.Ssl.SslOp
