import JnetLib.Ssl.EndOfStream
import JnetLib.Ssl.Send

/-!
# Receiving over SSL

`ssl_receive_op` gives the engine what is left of its buffer, at the position behind the plaintext
it has already got, and `on_complete` starts all over until `asyn_recv` has filled the buffer. In
between the engine may ask for input or for output to be sent any number of times. Here is what that
comes to over a whole run of `asyn_recv` or `asyn_recv_some`, with the caller's memory and the
plaintext of the peer.

The memory is a function of the address, counted from the start of the caller's buffer, and the
bytes of the plaintext are numbered from the first one the operation gets.

## What the theorem rests on

`Tallied` says of each place what the bytes handed out have to do with the buffer and with a count
that is posted. A read in front of the peer's shutdown reports what it hands out (`outcome_of_read`)
and goes on where the reads before it have stopped (`filled_store`); that is where the condition
`Reads` is used. The rest of `io_operation` moves neither the buffer nor the memory. Where the
operation is, and that it is completed once, is `Located`.
-/

namespace JnetLib.Ssl

/-- A receive operation, the caller's memory, and how many bytes of plaintext the engine has handed
out. -/
structure Filling where
  op : SslOp
  memory : ℕ → Byte
  taken : ℕ

namespace Filling

open SslOp

/-! ### The code -/

/-- `buffer_.raw_pos()`. -/
def position (s : Filling) : ℕ :=
  match s.op.kind with
  | .receive _ buffer => buffer.buf
  | _ => 0

/-- The number of bytes `do_read` asks for. -/
def offered (s : Filling) : ℕ :=
  match s.op.kind with
  | .receive _ buffer => clampLength buffer.remain
  | _ => 0

/-- `SSL_read` puts the next `n` bytes of the plaintext into the memory it is given. -/
def store (stream : ℕ → Byte) (s : Filling) (n : ℕ) : Filling :=
  { s with
    memory := fun i ↦
      if s.position ≤ i ∧ i < s.position + n then stream (s.taken + (i - s.position))
      else s.memory i
    taken := s.taken + n }

/-- The transitions of a receive, with the bytes of the stream that the engine has given. -/
def step (stream : ℕ → Byte) (s : Filling) : SslEvent → Option Filling
  | .engine c =>
    (s.op.step (.engine c)).map fun op ↦ { s.store stream c.result.toNat with op := op }
  | e => (s.op.step e).map fun op ↦ { s with op := op }

/-- `asyn_recv(buf, len, …)`, or `asyn_recv_some`, on a socket with these buffers. -/
def asynRecv (some_ : Bool) (len : ℕ) (memory : ℕ → Byte) (inputBuffer bio : List Byte)
    (ssl2 : Bool) : Filling :=
  ⟨start (.receive some_ ⟨0, len, 0⟩) inputBuffer bio ssl2, memory, 0⟩

/-! ### What is promised -/

/-- What a read comes to: in front of the peer's shutdown it hands out bytes, no more than it has
been asked for, it hands out none and asks for input or output, or it hands out none and fails with
an error. -/
def Reads (s : Filling) : SslEvent → Prop
  | .engine c =>
    c.sslError = SSL_ERROR_NONE ∧ c.receivedShutdown = false ∧
        1 ≤ c.result ∧ c.result ≤ s.offered ∨
      ((s.op.outcome c).want = .outputAndRetry ∨ (s.op.outcome c).want = .inputAndRetry) ∧
        c.result ≤ 0 ∨
      (s.op.outcome c).want = .nothing ∧ (s.op.outcome c).ec.isError = true ∧ c.result ≤ 0
  | _ => True

instance (s : Filling) : (e : SslEvent) → Decidable (s.Reads e)
  | .engine _ => inferInstanceAs (Decidable (_ ∨ _))
  | .put .. | .received .. | .sent .. | .posted => .isTrue trivial

/-- What the operation owes its caller, where `memory` is what the memory held before it. -/
structure Delivers (some_ : Bool) (len : ℕ) (stream memory : ℕ → Byte) (s : Filling) : Prop where
  /-- The plaintext is at the start of the buffer, in order and without gaps, and nothing else is
  written. -/
  filled : s.memory = fun i ↦ if i < s.taken then stream i else memory i
  /-- Nothing is written behind the buffer. -/
  inside : s.taken ≤ len
  /-- The callback runs at most once. -/
  once : s.op.callbacks.length ≤ 1
  /-- The count given to it is the number of bytes handed out, with an error, too. -/
  count : ∀ r ∈ s.op.callbacks, r.2 = s.taken
  /-- A callback without an error delivers some bytes, and that of `asyn_recv` the whole buffer. -/
  success : ∀ r ∈ s.op.callbacks, r.1.isError = false →
    0 < s.taken ∧ (some_ = false → s.taken = len)

/-! ### The operation -/

/-- A receive operation with `n` bytes in its buffer that has neither called back nor posted
anything. -/
structure Unanswered (some_ : Bool) (len n : ℕ) (s : SslOp) : Prop where
  kind : s.kind = .receive some_ ⟨n, len, n⟩
  le : n ≤ len
  want : s.want ≠ .output
  callbacks : s.callbacks = []
  posts : s.posts = 0

/-- Between two steps: the callback was told the number of bytes, and a completion that is posted or
reported without an error is one with bytes. -/
structure Tallied (some_ : Bool) (len n : ℕ) (s : SslOp) : Prop where
  kind : s.kind = .receive some_ ⟨n, len, n⟩
  le : n ≤ len
  want : s.want ≠ .output
  told : ∀ r ∈ s.callbacks, r.2 = n ∧ (r.1.isError = false → 0 < n ∧ (some_ = false → n = len))
  posts : 0 < s.posts → s.ec.isError = true ∨ 0 < n

variable {some_ : Bool} {len n : ℕ} {s t : SslOp} {ec : ErrorCode} {bytes : ℕ} {data : List Byte}
  {unread first : Bool}

theorem Unanswered.tallied (h : Unanswered some_ len n s) : Tallied some_ len n s where
  kind := h.kind
  le := h.le
  want := h.want
  told := fun r hr ↦ by
    rw [h.callbacks] at hr
    cases hr
  posts := fun hpos ↦ absurd h.posts (Nat.ne_of_gt hpos)

/-- Nothing outstanding and no callback made. -/
theorem Tallied.unanswered (h : Tallied some_ len n s) (hq : NothingOutstanding s) :
    Unanswered some_ len n s :=
  ⟨h.kind, h.le, h.want, hq.callbacks, hq.posts⟩

theorem complete_of_receive {buffer : MutableBuffer} (hk : s.kind = .receive some_ buffer)
    (ec : ErrorCode) :
    s.complete ec = if !ec.isError && !some_ && buffer.remain != 0 then
      { s with completions := s.completions + 1 }.doSslOperation
      else { s with completions := s.completions + 1 }.callback ec buffer.len := by
  rw [complete, onComplete, hk]

/-- `on_complete` reports success only with the buffer full, or with some bytes in it. -/
theorem tallied_complete (h : Unanswered some_ len n s) (hsucc : ec.isError = false → 0 < n) :
    Tallied some_ len n (s.complete ec) := by
  have hagain : Unanswered some_ len n { s with completions := s.completions + 1 }.doSslOperation :=
    ⟨h.kind, h.le, h.want, h.callbacks, h.posts⟩
  rw [complete_of_receive h.kind]
  split
  · exact hagain.tallied
  · next hcond =>
    refine ⟨h.kind, h.le, h.want, fun r hr ↦ ?_, fun hpos ↦ absurd h.posts (Nat.ne_of_gt hpos)⟩
    have hr' : r ∈ s.callbacks ++ [(ec, n)] := hr
    rw [h.callbacks, List.nil_append, List.mem_singleton] at hr'
    subst hr'
    refine ⟨rfl, fun hec ↦ ⟨hsucc hec, fun hsome ↦ ?_⟩⟩
    have hremain : MutableBuffer.remain ⟨n, len, n⟩ = 0 := by
      simpa [hec, hsome] using hcond
    exact Nat.le_antisymm h.le (Nat.sub_eq_zero_iff_le.1 hremain)

theorem tallied_finish (h : Unanswered some_ len n s) (hsucc : s.ec.isError = false → 0 < n) :
    Tallied some_ len n (s.finish unread) :=
  tallied_complete (s := { s with ec := mapErrorCode s.ssl2 unread s.ec })
    ⟨h.kind, h.le, h.want, h.callbacks, h.posts⟩ fun hec ↦
      hsucc ((isError_mapErrorCode _ _ _).symm.trans hec)

theorem tallied_test (h : Unanswered some_ len n s) :
    Tallied some_ len n (s.test first ec bytes unread) := by
  rw [test]
  split
  · next herr => exact tallied_finish h fun hec ↦ absurd (herr.symm.trans hec) (by decide)
  · exact Unanswered.tallied ⟨h.kind, h.le, h.want, h.callbacks, h.posts⟩

theorem unanswered_flush (h : Unanswered some_ len n s) : Unanswered some_ len n s.flush := by
  rw [flush]
  split
  · exact ⟨h.kind, h.le, h.want, h.callbacks, h.posts⟩
  · exact ⟨h.kind, h.le, h.want, h.callbacks, h.posts⟩

theorem Unanswered.returned (h : Unanswered some_ len n s) :
    Tallied some_ len n { s with place := .returned } :=
  Unanswered.tallied ⟨h.kind, h.le, h.want, h.callbacks, h.posts⟩

theorem tallied_answer (h : Unanswered some_ len n s)
    (hn : s.want = .nothing → s.ec.isError = false → 0 < n) :
    Tallied some_ len n (s.answer ec bytes data unread) := by
  rw [answer]
  split
  case h_1 => exact Unanswered.tallied ⟨h.kind, h.le, h.want, h.callbacks, h.posts⟩
  case h_2 =>
    split
    · exact tallied_test (unanswered_flush h)
    · exact (unanswered_flush h).returned
  case h_3 hw => exact absurd hw h.want
  case h_4 hw => exact tallied_finish h (hn hw)

theorem tallied_resume (h : Unanswered some_ len n s)
    (hn : s.want = .nothing → s.ec.isError = true ∨ 0 < n) :
    Tallied some_ len n (s.resume ec bytes data unread) := by
  refine tallied_answer (s := { s with
      ec := if bytes ≠ 2 ^ 64 - 1 ∧ s.ec.isError = false then ec else s.ec })
    ⟨h.kind, h.le, h.want, h.callbacks, h.posts⟩ fun hw hec ↦ (hn hw).resolve_left fun herr ↦ ?_
  rw [if_neg (by simp [herr])] at hec
  exact absurd (herr.symm.trans hec) (by decide)

theorem tallied_dispatch (h : Unanswered some_ len n s)
    (hn : s.want = .nothing → s.ec.isError = true ∨ 0 < n) :
    Tallied some_ len n (s.dispatch first ec bytes unread) := by
  unfold dispatch
  split
  case h_1 =>
    split
    · exact Unanswered.tallied ⟨h.kind, h.le, h.want, h.callbacks, h.posts⟩
    · exact Unanswered.tallied ⟨h.kind, h.le, h.want, h.callbacks, h.posts⟩
  case h_2 =>
    exact (unanswered_flush
      (s := { s with asserted := s.asserted || s.outputFlag, outputFlag := true })
      ⟨h.kind, h.le, h.want, h.callbacks, h.posts⟩).returned
  case h_3 hw => exact absurd hw h.want
  case h_4 hw =>
    split
    · refine ⟨h.kind, h.le, h.want, fun r hr ↦ ?_, fun _ ↦ hn hw⟩
      have hr' : r ∈ s.callbacks := hr
      rw [h.callbacks] at hr'
      cases hr'
    · exact tallied_resume h hn

/-! ### A read -/

theorem kind_callOp {op : SslOp} (h : Unanswered some_ len n op) (c : SslCall) :
    (op.callOp c).kind =
      (Kind.receive some_ ⟨n, len, n⟩).advance (op.outcome c).ec
        (op.outcome c).bytesTransferred := by
  rw [← h.kind]
  rfl

/-- Where nothing is handed out the buffer stays as it is. -/
theorem unanswered_callOp_of_nonpos {op : SslOp} {c : SslCall} (h : Unanswered some_ len n op)
    (hz : c.result ≤ 0) (hwant : (op.outcome c).want ≠ .output)
    (hb : (op.outcome c).ec.isError = true ∨ (op.outcome c).bytesTransferred = 0) :
    Unanswered some_ len (n + c.result.toNat) (op.callOp c) := by
  rw [Int.toNat_of_nonpos hz, Nat.add_zero]
  refine ⟨?_, h.le, hwant, h.callbacks, h.posts⟩
  rw [kind_callOp h, Kind.advance, if_neg]
  rcases hb with hb | hb <;> simp [hb]

/-- A read in front of the peer's shutdown reports what it hands out. -/
theorem outcome_of_read {op : SslOp} {c : SslCall} (h : Unanswered some_ len n op)
    (hnone : c.sslError = SSL_ERROR_NONE) (hshut : c.receivedShutdown = false) :
    op.outcome c = ⟨.nothing, ⟨c.sslError, .ssl⟩, c.result.toNat⟩ := by
  rw [outcome, h.kind]
  change perform .read op.bio.length op.bytesTransferred c = _
  rw [perform_read, hnone, hshut]
  rfl

/-- What a read hands out is counted in the buffer, and nothing else is. -/
theorem unanswered_callOp {f : Filling} {c : SslCall} (h : Unanswered some_ len n f.op)
    (hr : f.Reads (.engine c)) :
    Unanswered some_ len (n + c.result.toNat) (f.op.callOp c) ∧
      ((f.op.callOp c).want = .nothing →
        (f.op.callOp c).ec.isError = true ∨ 0 < n + c.result.toNat) := by
  have hperform : f.op.outcome c = perform .read f.op.bio.length f.op.bytesTransferred c := by
    rw [outcome, h.kind]
    rfl
  have hoffered : f.offered = clampLength (len - n) := by
    rw [offered, h.kind]
    rfl
  rcases hr with ⟨hnone, hshut, hpos, hle⟩ | ⟨hwant, hz⟩ | ⟨hwant, herr, hz⟩
  · have hle' : c.result.toNat ≤ len - n := by
      have hclamp := clampLength_le (len - n)
      omega
    have hout := outcome_of_read h hnone hshut
    have hcond : (!(⟨c.sslError, .ssl⟩ : ErrorCode).isError && 0 < c.result.toNat) = true := by
      rw [hnone, Bool.and_eq_true, decide_eq_true_eq]
      exact ⟨rfl, by omega⟩
    refine ⟨⟨?_, ?_, ?_, h.callbacks, h.posts⟩, fun _ ↦ .inr (by omega)⟩
    · rw [kind_callOp h, hout, Kind.advance, if_pos hcond]
      rfl
    · have hn := h.le
      omega
    · show (f.op.outcome c).want ≠ .output
      rw [hout]
      exact fun hw ↦ by cases hw
  · refine ⟨unanswered_callOp_of_nonpos h hz ?_ (.inr ?_), fun hn ↦ ?_⟩
    · rcases hwant with hwant | hwant <;> rw [hwant] <;> decide
    · have hne : (f.op.outcome c).want ≠ .nothing := by
        rcases hwant with hwant | hwant <;> rw [hwant] <;> decide
      rw [hperform, perform_read] at hne ⊢
      split_ifs at hne ⊢ <;> first
        | exact absurd rfl hne
        | exact Int.toNat_of_nonpos hz
    · have hn' : (f.op.outcome c).want = .nothing := hn
      rw [hn'] at hwant
      rcases hwant with hwant | hwant <;> cases hwant
  · refine ⟨unanswered_callOp_of_nonpos h hz ?_ (.inl herr), fun _ ↦ .inl herr⟩
    rw [hwant]
    decide

/-- What has been handed out is at the start of the buffer. -/
def Filled (stream memory : ℕ → Byte) (f : Filling) : Prop :=
  f.memory = fun i ↦ if i < f.taken then stream i else memory i

variable {stream memory : ℕ → Byte} {f g : Filling}

/-- A read goes on where the reads before it have stopped. -/
theorem filled_store (h : Filled stream memory f) (hposition : f.position = f.taken) (n : ℕ) :
    Filled stream memory (f.store stream n) := by
  refine funext fun i ↦ ?_
  show (if f.position ≤ i ∧ i < f.position + n then stream (f.taken + (i - f.position))
    else f.memory i) = if i < f.taken + n then stream i else memory i
  have hi : f.memory i = if i < f.taken then stream i else memory i := congrFun h i
  rw [hi, hposition]
  by_cases hlow : i < f.taken
  · rw [if_neg (by omega), if_pos hlow, if_pos (by omega)]
  · by_cases hmid : i < f.taken + n
    · rw [if_pos ⟨by omega, hmid⟩, if_pos hmid, Nat.add_sub_cancel' (Nat.not_lt.1 hlow)]
    · rw [if_neg (by omega), if_neg hlow, if_neg hmid]

/-! ### Runs -/

/-- **Every step keeps the count of a receive in line with the bytes taken.** -/
theorem tallied_step {e : SslEvent} (hs : Tallied some_ len f.taken f.op)
    (hm : Filled stream memory f)
    (hi : SslOp.Located True f.op) (hr : f.Reads e) (hstep : f.step stream e = some g) :
    Tallied some_ len g.taken g.op ∧ Filled stream memory g ∧ SslOp.Located True g.op := by
  cases e with
  | engine c =>
    obtain ⟨op, hop, rfl⟩ := Option.map_eq_some_iff.1 hstep
    have hinv := located_step hi (.inr trivial) hop
    rw [SslOp.step] at hop
    split at hop
    case h_2 => cases hop
    case h_1 first ec bytes hplace =>
      obtain rfl := Option.some.inj hop
      have hclean := hs.unanswered (hi.nothingOutstanding (by simp [hplace]))
      obtain ⟨hclean', hn⟩ := unanswered_callOp hclean hr
      refine ⟨tallied_dispatch hclean' hn, filled_store hm ?_ _, hinv⟩
      rw [position, hs.kind]
  | put n unread =>
    obtain ⟨op, hop, rfl⟩ := Option.map_eq_some_iff.1 hstep
    refine ⟨?_, hm, located_step hi (.inr trivial) hop⟩
    rw [SslOp.step] at hop
    split at hop
    case h_2 => cases hop
    case h_1 first ec bytes hplace =>
      obtain rfl := Option.some.inj hop
      have hclean := hs.unanswered (hi.nothingOutstanding (by simp [hplace]))
      exact tallied_test (s := { f.op with inputBuffer := f.op.inputBuffer.drop n })
        ⟨hclean.kind, hclean.le, hclean.want, hclean.callbacks, hclean.posts⟩
  | received ec data unread =>
    obtain ⟨op, hop, rfl⟩ := Option.map_eq_some_iff.1 hstep
    refine ⟨?_, hm, located_step hi (.inr trivial) hop⟩
    obtain ⟨⟨-, hpos⟩, ht⟩ := Option.ite_none_right_eq_some.1 hop
    obtain rfl := Option.some.inj ht
    obtain ⟨hwant, -, hq⟩ := hi.receiving_of_pos hpos
    refine tallied_resume (s := { f.op with receives := f.op.receives - 1 })
      ⟨hs.kind, hs.le, hs.want, hq.callbacks, hq.posts⟩ fun hn ↦ ?_
    cases hwant.symm.trans hn
  | sent ec bytes unread =>
    obtain ⟨op, hop, rfl⟩ := Option.map_eq_some_iff.1 hstep
    refine ⟨?_, hm, located_step hi (.inr trivial) hop⟩
    obtain ⟨⟨-, hpos⟩, ht⟩ := Option.ite_none_right_eq_some.1 hop
    obtain rfl := Option.some.inj ht
    obtain ⟨hwant, -, -, hq⟩ := hi.sending_of_pos hpos
    refine tallied_resume (s := { f.op with sends := f.op.sends - 1 })
      ⟨hs.kind, hs.le, hs.want, hq.callbacks, hq.posts⟩ fun hn ↦ ?_
    have hn' : f.op.want = .nothing := hn
    rw [hn'] at hwant
    rcases hwant with hwant | hwant <;> cases hwant
  | posted =>
    obtain ⟨op, hop, rfl⟩ := Option.map_eq_some_iff.1 hstep
    refine ⟨?_, hm, located_step hi (.inr trivial) hop⟩
    obtain ⟨⟨-, hpos⟩, ht⟩ := Option.ite_none_right_eq_some.1 hop
    obtain rfl := Option.some.inj ht
    obtain ⟨hone, hq⟩ := hi.posted_of_pos hpos
    refine tallied_complete (s := { f.op with posts := f.op.posts - 1 })
      ⟨hs.kind, hs.le, hs.want, hq.callbacks, by simp [hone]⟩ fun hec ↦ ?_
    exact (hs.posts hpos).resolve_left fun herr ↦ absurd (herr.symm.trans hec) (by decide)

/-- **Receiving hands over the plaintext.** In every run of `asyn_recv` or `asyn_recv_some` in which
each read hands out some of the bytes it has been asked for, asks for input or output, or fails with
an error, however often the engine and the transport are asked: the buffer holds the plaintext
handed out, from its start, in order and without gaps, and nothing else is written. The callback
runs at most once, with the number of these bytes, also after an error; and without one there are
some, and `asyn_recv` has filled the buffer. -/
theorem plaintext_of_run {inputBuffer bio : List Byte} {ssl2 : Bool} {l : List SslEvent}
    (hl : Transition.RunMeets (step stream) Reads
      (asynRecv some_ len memory inputBuffer bio ssl2) l)
    (hrun : Transition.run (step stream) (asynRecv some_ len memory inputBuffer bio ssl2) l =
      some g) :
    g.Delivers some_ len stream memory := by
  have hstart : Tallied some_ len 0 (start (.receive some_ ⟨0, len, 0⟩) inputBuffer bio ssl2) :=
    Unanswered.tallied ⟨rfl, Nat.zero_le _, (fun hw ↦ by cases hw), rfl, rfl⟩
  obtain ⟨hkept, hfilled, hinv⟩ : Tallied some_ len g.taken g.op ∧ Filled stream memory g ∧
      SslOp.Located True g.op := by
    refine Transition.invariant_run (I := fun f ↦ Tallied some_ len f.taken f.op ∧
      Filled stream memory f ∧ SslOp.Located True f.op)
      (fun f e g hf he hstep ↦ tallied_step hf.1 hf.2.1 hf.2.2 he hstep)
      ⟨hstart, funext fun i ↦ (if_neg (Nat.not_lt_zero i)).symm, located_start _ _ _ _⟩ hl hrun
  exact ⟨hfilled, hkept.le, hinv.callbacks_le, fun r hr ↦ (hkept.told r hr).1,
    fun r hr ↦ (hkept.told r hr).2⟩

/-- Three bytes are asked for; two of them are there, the third one comes with more input. -/
def threeBytes : List SslEvent :=
  [.engine ⟨2, SSL_ERROR_NONE, 0, [], false, false⟩, .posted,
    .engine ⟨-1, SSL_ERROR_WANT_READ, 0, [], false, false⟩, .received .noError [23, 5] false,
    .put 2 false, .engine ⟨1, SSL_ERROR_NONE, 0, [], false, false⟩]

theorem plaintext_of_run_threeBytes :
    ∃ g, Transition.run (step fun i ↦ .ofNat (7 + i))
      (asynRecv false 3 (fun _ ↦ 0) [] [] false) threeBytes = some g ∧
        g.op.callbacks = [(.noError, 3)] ∧
          g.Delivers false 3 (fun i ↦ .ofNat (7 + i)) fun _ ↦ 0 := by
  have hl : Transition.RunMeets (step fun i ↦ .ofNat (7 + i)) Reads
      (asynRecv false 3 (fun _ ↦ 0) [] [] false) threeBytes := by decide
  have hcallbacks : (Transition.run (step fun i ↦ .ofNat (7 + i))
      (asynRecv false 3 (fun _ ↦ 0) [] [] false) threeBytes).map (fun g ↦ g.op.callbacks) =
        some [(.noError, 3)] := by decide
  obtain ⟨g, hg, heq⟩ := Option.map_eq_some_iff.1 hcallbacks
  exact ⟨g, hg, heq, plaintext_of_run hl hg⟩

end Filling

end JnetLib.Ssl
