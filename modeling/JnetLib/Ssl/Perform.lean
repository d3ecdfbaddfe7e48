import JnetLib.Ssl.Operation

/-!
# What `perform` says of a call

`engine::perform` turns what OpenSSL answers into what is wanted next, an error and a count. The
count is only written after the two errors that come with an entry of the error queue have been
looked at; where the queue is empty, these pass for success, with the count of an earlier call.

`truthful_iff` says when this happens: for every function but the shutdown `perform` is truthful,
whatever count it is handed, exactly if the call has not failed with one of the two errors and no
entry in the queue. The shutdown has a test of its own for a system call error.
-/

namespace JnetLib.Ssl

/-- `SSL_get_error` answers `SSL_ERROR_NONE` after a call that has returned a positive value, and
only then. -/
def SslCall.Consistent (c : SslCall) : Prop := c.sslError = SSL_ERROR_NONE ↔ 0 < c.result

instance (c : SslCall) : Decidable c.Consistent := inferInstanceAs (Decidable (_ ↔ _))

/-- The engine function an operation calls. -/
def Kind.engineOp : Kind → EngineOp
  | .handshake => .handshake
  | .shutdown => .shutdown
  | .send _ _ => .write
  | .receive _ _ => .read

/-- The operation with its buffer moved on by `n` bytes. -/
def Kind.moved (k : Kind) (n : ℕ) : Kind :=
  match k with
  | .send data buffer => .send data (buffer.consume n)
  | .receive some_ buffer => .receive some_ (buffer.append n)
  | k => k

/-- What `perform` owes its callers after a call, whatever count it is handed. -/
structure Truthful (op : EngineOp) (pending bytes : ℕ) (c : SslCall) : Prop where
  /-- Nothing more is wanted, and there is no error, only after a call that succeeded. -/
  succeeded : (perform op pending bytes c).want = .nothing →
    (perform op pending bytes c).ec.value = 0 → 0 < c.result
  /-- Without an error the count is that of this call. -/
  count : (perform op pending bytes c).ec.isError = false → op = .read ∨ op = .write →
    (perform op pending bytes c).bytesTransferred = c.result.toNat
  /-- The buffer of an operation moves by what this call transferred, and not at all after an
  error. -/
  moved : ∀ k : Kind, k.engineOp = op →
    k.advance (perform op pending bytes c).ec (perform op pending bytes c).bytesTransferred =
      if (perform op pending bytes c).ec.isError then k else k.moved c.result.toNat

/-- A failure without an entry in the error queue. -/
def SslCall.Unexplained (c : SslCall) : Prop :=
  (c.sslError = SSL_ERROR_SSL ∨ c.sslError = SSL_ERROR_SYSCALL) ∧ c.sysError = 0

instance (c : SslCall) : Decidable c.Unexplained := inferInstanceAs (Decidable (_ ∧ _))

variable {op : EngineOp} {pending bytes : ℕ} {c : SslCall} {k : Kind}

/-- Only a shutdown is forgiven a system call error. -/
theorem SslCall.error_of_ne (h : op ≠ .shutdown) : c.error op = c.sslError :=
  if_neg fun h' ↦ h h'.2.1

/-! ### The buffers -/

/-- Moving by nothing changes nothing. -/
theorem Kind.moved_zero (k : Kind) : k.moved 0 = k := by
  cases k <;> rfl

theorem Kind.advance_of_isError {ec : ErrorCode} (h : ec.isError = true) (n : ℕ) :
    k.advance ec n = k := by
  unfold Kind.advance
  rw [h]
  rfl

/-- Without an error the buffer moves by the count. -/
theorem Kind.advance_of_not_isError {ec : ErrorCode} (h : ec.isError = false) (n : ℕ) :
    k.advance ec n = k.moved n := by
  rcases Nat.eq_zero_or_pos n with rfl | hn
  · rw [moved_zero]
    unfold Kind.advance
    rw [if_neg (by simp)]
  · unfold Kind.advance
    rw [if_pos (by simp [h, hn])]
    rfl

/-- An operation without a buffer has nothing to move. -/
theorem Kind.moved_of_handshake (h : k.engineOp = .handshake) (n : ℕ) : k.moved n = k := by
  cases k with
  | handshake => rfl
  | shutdown => rfl
  | send => cases h
  | receive => cases h

/-! ### The two ways through `perform` -/

/-- A failure the first two tests see: the error is that of the queue, and the count stays. -/
theorem perform_of_failed (hop : op ≠ .shutdown)
    (h : c.sslError = SSL_ERROR_SSL ∨ c.sslError = SSL_ERROR_SYSCALL) :
    perform op pending bytes c = ⟨.nothing, ⟨c.sysError, .ssl⟩, bytes⟩ := by
  rw [perform, SslCall.error_of_ne hop]
  exact if_pos h

/-- Unless OpenSSL has failed, the count of a read or a write is that of the call. -/
theorem bytesTransferred_perform (hop : op = .read ∨ op = .write)
    (h : ¬(c.sslError = SSL_ERROR_SSL ∨ c.sslError = SSL_ERROR_SYSCALL)) :
    (perform op pending bytes c).bytesTransferred = c.result.toNat := by
  have hne : op ≠ .shutdown := by rcases hop with rfl | rfl <;> decide
  simp only [perform, SslCall.error_of_ne hne, if_neg h, if_pos hop]
  split_ifs <;> rfl

/-- An operation that wants nothing and has no error is one whose call `SSL_get_error` says to have
succeeded. -/
theorem sslError_of_perform (hop : op ≠ .shutdown)
    (h : ¬(c.sslError = SSL_ERROR_SSL ∨ c.sslError = SSL_ERROR_SYSCALL))
    (hwant : (perform op pending bytes c).want = .nothing)
    (hec : (perform op pending bytes c).ec.value = 0) : c.sslError = SSL_ERROR_NONE := by
  simp only [perform, SslCall.error_of_ne hop, if_neg h] at hwant hec
  split_ifs at hwant hec
  all_goals first | exact hec | exact absurd hec Int.one_ne_zero

/-- **A call whose failure is explained** is reported as what it is. -/
theorem truthful_of_explained (hc : c.Consistent) (hop : op ≠ .shutdown) (h : ¬c.Unexplained) :
    Truthful op pending bytes c := by
  by_cases hfail : c.sslError = SSL_ERROR_SSL ∨ c.sslError = SSL_ERROR_SYSCALL
  · -- the error of the system is the code that is reported
    have hsys : c.sysError ≠ 0 := fun h0 ↦ h ⟨hfail, h0⟩
    have herr : (⟨c.sysError, .ssl⟩ : ErrorCode).isError = true := by
      simpa [ErrorCode.isError] using hsys
    have hperform : perform op pending bytes c = ⟨.nothing, ⟨c.sysError, .ssl⟩, bytes⟩ :=
      perform_of_failed hop hfail
    constructor
    · intro _ hec
      rw [hperform] at hec
      exact absurd hec hsys
    · intro hec
      rw [hperform, herr] at hec
      cases hec
    · intro k _
      rw [hperform, if_pos herr, Kind.advance_of_isError herr]
  · -- no failure: the count is that of the call
    have hcount (hrw : op = .read ∨ op = .write) :
        (perform op pending bytes c).bytesTransferred = c.result.toNat :=
      bytesTransferred_perform hrw hfail
    constructor
    · exact fun hwant hec ↦ hc.1 (sslError_of_perform hop hfail hwant hec)
    · exact fun _ hrw ↦ hcount hrw
    · intro k hk
      split
      case isTrue herr => exact Kind.advance_of_isError herr _
      case isFalse herr =>
        rw [Kind.advance_of_not_isError (Bool.eq_false_iff.2 herr)]
        cases op with
        | handshake => rw [Kind.moved_of_handshake hk, Kind.moved_of_handshake hk]
        | shutdown => exact absurd rfl hop
        | read => rw [hcount (.inl rfl)]
        | write => rw [hcount (.inr rfl)]

/-- **When a failed call does not pass for success.** For every function but the shutdown, `perform`
is truthful, whatever count it is handed, if and only if the call did not fail with an empty error
queue. -/
theorem truthful_iff (hc : c.Consistent) (hop : op ≠ .shutdown) :
    (∀ bytes, Truthful op pending bytes c) ↔ ¬c.Unexplained := by
  refine ⟨fun h hun ↦ ?_, fun h bytes ↦ truthful_of_explained hc hop h⟩
  have hperform : perform op pending 0 c = ⟨.nothing, ⟨c.sysError, .ssl⟩, 0⟩ :=
    perform_of_failed hop hun.1
  have hpos : 0 < c.result := (h 0).succeeded (by rw [hperform]) (by rw [hperform]; exact hun.2)
  have hnone : c.sslError = SSL_ERROR_NONE := hc.2 hpos
  rcases hun.1 with h' | h'
  · exact absurd (hnone.symm.trans h') (by decide)
  · exact absurd (hnone.symm.trans h') (by decide)

/-- A read that takes four bytes. -/
theorem truthful_iff_four : (∀ bytes, Truthful .read 0 bytes ⟨4, SSL_ERROR_NONE, 0, [], false,
    false⟩) ↔ ¬SslCall.Unexplained ⟨4, SSL_ERROR_NONE, 0, [], false, false⟩ :=
  truthful_iff (by decide) (by decide)

/-- A read fails with `SSL_ERROR_SYSCALL` and nothing in the error queue, after one that took five
bytes: nothing more is wanted, there is no error, and the buffer moves on by the same five bytes
again. -/
theorem not_truthful_syscall :
    SslCall.Consistent ⟨-1, SSL_ERROR_SYSCALL, 0, [], false, false⟩ ∧
      perform .read 0 5 ⟨-1, SSL_ERROR_SYSCALL, 0, [], false, false⟩ =
        ⟨.nothing, ⟨0, .ssl⟩, 5⟩ ∧
      (Kind.receive true ⟨5, 20, 5⟩).advance ⟨0, .ssl⟩ 5 = .receive true ⟨10, 20, 10⟩ ∧
      ¬Truthful .read 0 5 ⟨-1, SSL_ERROR_SYSCALL, 0, [], false, false⟩ := by
  refine ⟨by decide, rfl, rfl, fun h ↦ ?_⟩
  have hpos : (0 : ℤ) < -1 := h.succeeded rfl rfl
  exact absurd hpos (by decide)

end JnetLib.Ssl
