import JnetLib.Ssl.Continuation
import JnetLib.Ssl.Perform

/-!
# The end of an SSL stream

A receive operation comes to the end of its stream in two ways: the engine has received the peer's
`close_notify`, or the transport has ended. `perform` reports the first as the frame's `eof`, and a
transport reports its own end by the same code; `map_error_code` is there to turn the second into
`SHORT_READ`. It is applied on the way out of `io_operation`, not to a posted completion, and it
does not ask which of the two has happened.

The machine of one operation is watched here by a record of what the engine and the transport have
said (`Report`).

## What the theorem rests on

* `perform` reports an end of the stream in one case (`perform_of_closes`), and no other answer of
  `SSL_read` leaves its code or `SHORT_READ` behind (`ec_of_not_closes`).
* `CodesKnown` follows the code from there, and from a completed transport operation, to the
  callback. A code that is posted goes there as it is; one that leaves `io_operation` at the end of
  the loop goes through `map_error_code`.
* The condition of `endsProperly_iff`, `Punctual`, is on the answers of the engine. A `close_notify`
  that it reports behind a completed transport operation goes to `map_error_code`, and comes out as
  `SHORT_READ` (`not_endsProperly_of_late`) unless the session is one of SSL version 2 with nothing
  unread.
-/

namespace JnetLib.Ssl

/-- The `SHORT_READ` error of `map_error_code`. -/
def shortReadError : ErrorCode := ⟨shortRead, .ssl⟩

/-- The answer to a read by which `perform` reports that the peer's `close_notify` has been
received. -/
def SslCall.Closes (c : SslCall) : Prop :=
  c.receivedShutdown = true ∧ c.sslError ≠ SSL_ERROR_SSL ∧ c.sslError ≠ SSL_ERROR_SYSCALL ∧
    c.sslError ≠ SSL_ERROR_WANT_WRITE ∧ c.sslError ≠ SSL_ERROR_WANT_READ

instance (c : SslCall) : Decidable c.Closes := inferInstanceAs (Decidable (_ ∧ _))

/-- What has been said so far: whether the last answer of the engine reported the `close_notify`,
whether a transport operation has failed and whether the transport has ended, and whether the engine
held unread input when that was last asked. -/
structure Report where
  closing : Bool
  failed : Bool
  ended : Bool
  unread : Bool
  deriving DecidableEq, Repr

/-- What an event adds. -/
def Report.after (r : Report) : SslEvent → Report
  | .engine c => { r with closing := decide c.Closes, unread := c.unread }
  | .put _ unread => { r with unread := unread }
  | .received ec _ unread =>
    { r with
      failed := r.failed || ec.isError
      ended := r.ended || decide (ec = .eof)
      unread := unread }
  | .sent ec _ unread =>
    { r with
      failed := r.failed || ec.isError
      ended := r.ended || decide (ec = .eof)
      unread := unread }
  | .posted => r

/-- An operation under watch. -/
structure Watched where
  op : SslOp
  report : Report
  deriving DecidableEq, Repr

namespace Watched

/-- A step of the operation adds to the report what it tells. -/
def step (s : Watched) (e : SslEvent) : Option Watched :=
  (s.op.step e).map fun op ↦ ⟨op, s.report.after e⟩

/-- `asyn_recv` and `asyn_recv_some` on a socket with these buffers. -/
def asynRecv (some_ : Bool) (len : ℕ) (inputBuffer bio : List Byte) (ssl2 : Bool) : Watched :=
  ⟨.start (.receive some_ ⟨0, len, 0⟩) inputBuffer bio ssl2, ⟨false, false, false, false⟩⟩

/-- What a receive operation owes its caller at the end of the stream. -/
structure EndsProperly (s : Watched) : Prop where
  /-- A `close_notify` is reported as `eof`, unless the transport has failed or input is left. -/
  eof : ∀ r ∈ s.op.callbacks, s.report.closing = true → s.report.failed = false →
    s.report.unread = false → r.1 = .eof
  /-- `SHORT_READ` is reported only for a transport that has ended without one. -/
  shortRead : ∀ r ∈ s.op.callbacks, r.1 = shortReadError →
    s.report.ended = true ∧ s.report.closing = false

end Watched

/-- An error of a transport: not one of OpenSSL, and with the number of `eof` only where it is
`eof`. -/
def OfTransport (ec : ErrorCode) : Prop := ec.describer ≠ .ssl ∧ (ec.value = 1 → ec = .eof)

instance (ec : ErrorCode) : Decidable (OfTransport ec) := inferInstanceAs (Decidable (_ ∧ _))

/-- An error of OpenSSL has neither the number of `eof` nor that of `SHORT_READ`. -/
def SslCall.OfLibrary (c : SslCall) : Prop :=
  c.sysError ≠ 1 ∧ c.sysError ≠ shortRead ∧ c.sslError ≠ shortRead

instance (c : SslCall) : Decidable c.OfLibrary := inferInstanceAs (Decidable (_ ∧ _))

/-- The error codes an event brings are told from `eof` and `SHORT_READ` by their numbers. -/
def SslEvent.Distinct : SslEvent → Prop
  | .engine c => c.OfLibrary
  | .received ec _ _ => OfTransport ec
  | .sent ec _ _ => OfTransport ec
  | _ => True

instance : DecidablePred SslEvent.Distinct
  | .engine c => inferInstanceAs (Decidable c.OfLibrary)
  | .received ec _ _ => inferInstanceAs (Decidable (OfTransport ec))
  | .sent ec _ _ => inferInstanceAs (Decidable (OfTransport ec))
  | .put _ _ => inferInstanceAs (Decidable True)
  | .posted => inferInstanceAs (Decidable True)

namespace Watched

/-- The operation is in the initiating call, in front of the engine. -/
def initiating (s : Watched) : Bool :=
  match s.op.place with
  | .loop true _ _ => true
  | _ => false

/-- The engine reports a `close_notify` in the initiating call only, or the session is one of SSL
version 2 and nothing is left unread. -/
def Punctual (s : Watched) : SslEvent → Prop
  | .engine c => c.Closes → s.initiating = true ∨ s.op.ssl2 = true ∧ c.unread = false
  | _ => True

instance (s : Watched) : DecidablePred s.Punctual
  | .engine _ => inferInstanceAs (Decidable (_ → _))
  | .received _ _ _ => inferInstanceAs (Decidable True)
  | .sent _ _ _ => inferInstanceAs (Decidable True)
  | .put _ _ => inferInstanceAs (Decidable True)
  | .posted => inferInstanceAs (Decidable True)

end Watched

/-! ### What a read reports -/

variable {pending bytes : ℕ} {c : SslCall}

/-- `perform` on `do_read`: output left by a read is no matter. -/
theorem perform_read :
    perform .read pending bytes c =
      if c.sslError = SSL_ERROR_SSL ∨ c.sslError = SSL_ERROR_SYSCALL then
        ⟨.nothing, ⟨c.sysError, .ssl⟩, bytes⟩
      else if c.sslError = SSL_ERROR_WANT_WRITE then ⟨.outputAndRetry, ⟨0, .ssl⟩, c.result.toNat⟩
      else if c.sslError = SSL_ERROR_WANT_READ then ⟨.inputAndRetry, ⟨0, .ssl⟩, c.result.toNat⟩
      else if c.receivedShutdown then ⟨.nothing, .eof, c.result.toNat⟩
      else ⟨.nothing, ⟨c.sslError, .ssl⟩, c.result.toNat⟩ := by
  simp [perform, SslCall.error]

theorem perform_of_closes (h : c.Closes) :
    perform .read pending bytes c = ⟨.nothing, .eof, c.result.toNat⟩ := by
  obtain ⟨hshut, h1, h5, h3, h2⟩ := h
  simp [perform_read, hshut, h1, h5, h3, h2]

/-- An answer of `SSL_read` that is no `close_notify` leaves neither `eof` nor `SHORT_READ`. -/
theorem ec_of_not_closes (h : ¬c.Closes) (hlib : c.OfLibrary) :
    (perform .read pending bytes c).ec.value ≠ 1 ∧
      (perform .read pending bytes c).ec ≠ shortReadError := by
  obtain ⟨hsys, hsys', hssl⟩ := hlib
  have hshort : (0 : ℤ) ≠ shortRead := by decide
  rw [perform_read]
  split_ifs with h1 h2 h3 h4
  · exact ⟨hsys, fun h ↦ hsys' (congrArg ErrorCode.value h)⟩
  · exact ⟨nofun, fun h ↦ hshort (congrArg ErrorCode.value h)⟩
  · exact ⟨nofun, fun h ↦ hshort (congrArg ErrorCode.value h)⟩
  · exact absurd ⟨h4, fun h ↦ h1 (.inl h), fun h ↦ h1 (.inr h), h2, h3⟩ h
  · exact ⟨fun h ↦ h1 (.inl h), fun h ↦ hssl (congrArg ErrorCode.value h)⟩

theorem mapErrorCode_of_ne {ssl2 unread : Bool} {ec : ErrorCode} (h : ec.value ≠ 1) :
    mapErrorCode ssl2 unread ec = ec :=
  if_pos h

theorem shortReadError_of_not_isError {ec : ErrorCode} (h : ec.isError = false) :
    ec ≠ shortReadError := by
  rintro rfl
  cases h

namespace Watched

open SslOp

/-! ### The invariant -/

/-- An error the operation keeps is one of the transport, and the end of the transport is on
record. -/
def Carried (s : Watched) : Prop :=
  s.op.ec.isError = true → OfTransport s.op.ec ∧ (s.op.ec = .eof → s.report.ended = true)

/-- Besides `Located`: what is known of the error codes wherever an operation can be. The code a
completed transport operation was called with is no error in front of the engine. -/
structure CodesKnown (s : Watched) : Prop where
  kind : ∃ some_ buffer, s.op.kind = .receive some_ buffer
  proper : EndsProperly s
  closing : s.report.closing = true → s.op.want = .nothing
  loop : ∀ first ec bytes, s.op.place = .loop first ec bytes → bytes ≠ 2 ^ 64 - 1 →
    ec.isError = false
  putting : ∀ first ec bytes, s.op.place = .putting first ec bytes →
    s.report.closing = false ∧ Carried s ∧
      (s.op.ec.isError = false → bytes ≠ 2 ^ 64 - 1 → ec.isError = false)
  waiting : 0 < s.op.receives + s.op.sends → Carried s
  posted : 0 < s.op.posts →
    (s.report.closing = true → s.op.ec = .eof) ∧ s.op.ec ≠ shortReadError

variable {s t : Watched} {first unread : Bool} {ec : ErrorCode} {data : List Byte}

theorem endsProperly_of_nil (h : s.op.callbacks = []) : EndsProperly s := by
  constructor <;> simp [h]

/-- Nothing is outstanding, and nothing has been called back. -/
def Bare (s : SslOp) : Prop := s.callbacks = [] ∧ s.receives = 0 ∧ s.sends = 0 ∧ s.posts = 0

/-- Where nothing is outstanding, what is known of an outstanding receive, send or post says
nothing. -/
theorem Bare.not_pos (h : Bare s.op) : ¬0 < s.op.receives + s.op.sends ∧ ¬0 < s.op.posts := by
  obtain ⟨-, hr, hs, hp⟩ := h
  omega

/-- A completion with this code is a proper one. -/
structure Reports (s : Watched) (ec : ErrorCode) : Prop where
  eof : s.report.closing = true → s.report.failed = false → s.report.unread = false → ec = .eof
  shortRead : ec = shortReadError → s.report.ended = true ∧ s.report.closing = false

theorem codesKnown_complete (hq : Bare s.op)
    (hkind : ∃ some_ buffer, s.op.kind = .receive some_ buffer)
    (hclosing : s.report.closing = true → s.op.want = .nothing) (h : Reports s ec) :
    CodesKnown ⟨s.op.complete ec, s.report⟩ := by
  obtain ⟨some_, buffer, hk⟩ := hkind
  obtain ⟨hwaiting, hposts⟩ := hq.not_pos
  unfold complete SslOp.onComplete
  rw [hk]
  dsimp only
  split
  · refine ⟨⟨_, _, rfl⟩, endsProperly_of_nil hq.1, hclosing, fun first ec bytes hp _ ↦ ?_,
      nofun, fun hw ↦ absurd hw hwaiting, fun hp ↦ absurd hp hposts⟩
    obtain ⟨-, rfl, -⟩ := Place.loop.inj hp
    rfl
  · have hmem : ∀ r ∈ s.op.callbacks ++ [(ec, buffer.len)], r = (ec, buffer.len) := by
      rw [hq.1]
      exact fun r hr ↦ List.mem_singleton.1 hr
    refine ⟨⟨_, _, rfl⟩, ⟨fun r hr ↦ ?_, fun r hr ↦ ?_⟩, hclosing, nofun, nofun,
      fun hw ↦ absurd hw hwaiting, fun hp ↦ absurd hp hposts⟩
    · rw [hmem r hr]
      exact h.eof
    · rw [hmem r hr]
      exact h.shortRead

/-- On the way out of `io_operation` after the transport. -/
theorem codesKnown_finish (hq : Bare s.op)
    (hkind : ∃ some_ buffer, s.op.kind = .receive some_ buffer)
    (hclosing : s.report.closing = false) (h : Carried s) :
    CodesKnown ⟨s.op.finish unread, s.report⟩ := by
  have hno (hc : s.report.closing = true) : False := by
    rw [hclosing] at hc
    cases hc
  refine codesKnown_complete
    (s := ⟨{ s.op with ec := mapErrorCode s.op.ssl2 unread s.op.ec }, s.report⟩)
    hq hkind (fun hc ↦ (hno hc).elim) ⟨fun hc ↦ (hno hc).elim, fun hshort ↦ ⟨?_, hclosing⟩⟩
  have herr : s.op.ec.isError = true := by
    rw [← isError_mapErrorCode s.op.ssl2 unread, hshort]
    rfl
  obtain ⟨⟨hssl, hone⟩, hended⟩ := h herr
  by_cases hv : s.op.ec.value = 1
  · exact hended (hone hv)
  · rw [mapErrorCode_of_ne hv] at hshort
    exact absurd (congrArg ErrorCode.describer hshort) hssl

/-- The operation is in front of the engine again, or out. -/
theorem codesKnown_test {bytes : ℕ} (hq : Bare s.op)
    (hkind : ∃ some_ buffer, s.op.kind = .receive some_ buffer)
    (hclosing : s.report.closing = false) (h : Carried s)
    (hec : s.op.ec.isError = false → bytes ≠ 2 ^ 64 - 1 → ec.isError = false) :
    CodesKnown ⟨s.op.test first ec bytes unread, s.report⟩ := by
  unfold test
  split
  · exact codesKnown_finish hq hkind hclosing h
  · next herr =>
    obtain ⟨hwaiting, hposts⟩ := hq.not_pos
    refine ⟨hkind, endsProperly_of_nil hq.1, fun hc ↦ ?_, fun _ _ _ hp hb ↦ ?_, nofun,
      fun hw ↦ absurd hw hwaiting, fun hp ↦ absurd hp hposts⟩
    · rw [hclosing] at hc
      cases hc
    · obtain ⟨-, rfl, rfl⟩ := Place.loop.inj hp
      exact hec (Bool.eq_false_iff.2 herr) hb

/-! ### After a transport operation -/

/-- The error the operation keeps when it is resumed. -/
def kept (old ec : ErrorCode) (bytes : ℕ) : ErrorCode :=
  if bytes ≠ 2 ^ 64 - 1 ∧ old.isError = false then ec else old

/-- The first error is kept, and it is one of the transport. -/
theorem carried_codesKnown {ec : ErrorCode} {bytes : ℕ} {r : Report} (h : Carried s)
    (htrans : OfTransport ec) (hended : s.report.ended = true → r.ended = true)
    (heof : ec = .eof → r.ended = true) {op : SslOp} (hop : op.ec = kept s.op.ec ec bytes) :
    Carried ⟨op, r⟩ := by
  intro herr
  show OfTransport op.ec ∧ (op.ec = .eof → r.ended = true)
  have herr' : op.ec.isError = true := herr
  rw [hop] at herr' ⊢
  rw [kept] at herr' ⊢
  split at herr'
  case isTrue hc =>
    rw [if_pos hc]
    exact ⟨htrans, heof⟩
  case isFalse hc =>
    rw [if_neg hc]
    exact ⟨(h herr').1, fun h' ↦ hended ((h herr').2 h')⟩

/-- An operation that holds no error has been called with none. -/
theorem isError_of_codesKnown {old ec : ErrorCode} {bytes : ℕ}
    (h : (kept old ec bytes).isError = false) (hb : bytes ≠ 2 ^ 64 - 1) : ec.isError = false := by
  rw [kept] at h
  split at h
  case isTrue => exact h
  case isFalse hc => exact absurd ⟨hb, h⟩ hc

/-- What a transport operation leaves to `map_error_code`. -/
theorem codesKnown_resume {bytes : ℕ} (hq : Bare s.op)
    (hkind : ∃ some_ buffer, s.op.kind = .receive some_ buffer)
    (hclosing : s.report.closing = false) (hwant : s.op.want ≠ .nothing)
    (h : Carried ⟨{ s.op with ec := kept s.op.ec ec bytes }, s.report⟩) :
    CodesKnown ⟨s.op.resume ec bytes data unread, s.report⟩ := by
  have hno (hc : s.report.closing = true) : False := by
    rw [hclosing] at hc
    cases hc
  obtain ⟨hwaiting, hposts⟩ := hq.not_pos
  let op : SslOp := { s.op with ec := kept s.op.ec ec bytes }
  have hflush (hb : s.op.bio = []) : op.flush = { op with outputFlag := false } := flush_of_nil hb
  have hsending (hb : s.op.bio ≠ []) :
      CodesKnown ⟨{ op.flush with place := .returned }, s.report⟩ := by
    rw [flush_of_ne_nil (show op.bio ≠ [] from hb)]
    exact ⟨hkind, endsProperly_of_nil hq.1, fun hc ↦ (hno hc).elim, nofun, nofun, fun _ ↦ h,
      fun hp ↦ absurd hp hposts⟩
  show CodesKnown ⟨op.answer ec bytes data unread, s.report⟩
  unfold answer
  split
  case h_1 =>
    refine ⟨hkind, endsProperly_of_nil hq.1, fun hc ↦ (hno hc).elim, nofun,
      fun first' ec' bytes' hp ↦ ?_, fun hw ↦ absurd hw hwaiting, fun hp ↦ absurd hp hposts⟩
    obtain ⟨-, rfl, rfl⟩ := Place.putting.inj hp
    exact ⟨hclosing, h, isError_of_codesKnown⟩
  case h_2 =>
    split
    · next hb =>
      rw [hflush hb]
      exact codesKnown_test (s := ⟨{ op with outputFlag := false }, s.report⟩) hq hkind hclosing h
        isError_of_codesKnown
    · next hb => exact hsending hb
  case h_3 =>
    split
    · next hb =>
      rw [hflush hb]
      exact codesKnown_finish (s := ⟨{ op with outputFlag := false }, s.report⟩) hq hkind hclosing h
    · next hb => exact hsending hb
  case h_4 hw => exact absurd hw hwant

/-! ### After a read -/

/-- The two ways an answer with nothing more wanted is reported. -/
theorem codesKnown_nothing {bytes : ℕ} {ec : ErrorCode} (hq : Bare s.op)
    (hkind : ∃ some_ buffer, s.op.kind = .receive some_ buffer)
    (hwant : s.op.want = .nothing) (hec : bytes ≠ 2 ^ 64 - 1 → ec.isError = false)
    (hcloses : s.report.closing = true → s.op.ec = .eof)
    (hopen : s.report.closing = false → s.op.ec.value ≠ 1 ∧ s.op.ec ≠ shortReadError)
    (hlate : s.report.closing = true → first = true ∨ s.op.ssl2 = true ∧ unread = false) :
    CodesKnown ⟨s.op.dispatch first ec bytes unread, s.report⟩ := by
  obtain ⟨hwaiting, hposts⟩ := hq.not_pos
  unfold dispatch
  rw [hwant]
  dsimp only
  split
  case isTrue =>
    refine ⟨hkind, endsProperly_of_nil hq.1, fun _ ↦ rfl, nofun, nofun,
      fun hw ↦ absurd hw hwaiting, fun _ ↦ ⟨hcloses, ?_⟩⟩
    rcases hc : s.report.closing with - | -
    · exact (hopen hc).2
    · show s.op.ec ≠ shortReadError
      rw [hcloses hc]
      exact nofun
  case isFalse hfirst =>
    let op : SslOp := { s.op with ec := kept s.op.ec ec bytes }
    show CodesKnown ⟨op.answer ec bytes [] unread, s.report⟩
    have hop : op.answer ec bytes [] unread = op.finish unread := by
      unfold answer
      rw [show op.want = .nothing from hwant]
    rw [hop]
    refine codesKnown_complete
      (s := ⟨{ op with ec := mapErrorCode op.ssl2 unread op.ec }, s.report⟩) hq hkind
      (fun _ ↦ hwant) ?_
    rcases hc : s.report.closing with - | -
    · -- the code is that of the engine, or none
      have hec' : op.ec.value ≠ 1 ∧ op.ec ≠ shortReadError := by
        show (kept s.op.ec ec bytes).value ≠ 1 ∧ kept s.op.ec ec bytes ≠ shortReadError
        unfold kept
        split
        case isTrue h =>
          have hnone := hec h.1
          exact ⟨by rw [ErrorCode.isError_eq_false_iff.1 hnone]; decide,
            shortReadError_of_not_isError hnone⟩
        case isFalse => exact hopen hc
      refine ⟨fun h ↦ ?_, fun h ↦ ?_⟩
      · have h' : s.report.closing = true := h
        rw [hc] at h'
        cases h'
      · rw [mapErrorCode_of_ne hec'.1] at h
        exact absurd h hec'.2
    · -- a `close_notify` behind the first call: `map_error_code` keeps `eof` for SSL version 2
      obtain ⟨hssl2, hunread⟩ := (hlate hc).resolve_left hfirst
      have heof : mapErrorCode op.ssl2 unread op.ec = .eof := by
        have hkept : op.ec = .eof := by
          show kept s.op.ec ec bytes = .eof
          unfold kept
          rw [hcloses hc]
          exact if_neg fun h ↦ nomatch h.2
        rw [hkept, show op.ssl2 = true from hssl2, hunread]
        rfl
      rw [heof]
      exact ⟨fun _ _ _ ↦ rfl, nofun⟩

/-- An answer by which more is wanted comes without an error. -/
theorem codesKnown_wanting {bytes : ℕ} {ec : ErrorCode} (hq : Bare s.op)
    (hkind : ∃ some_ buffer, s.op.kind = .receive some_ buffer)
    (hclosing : s.report.closing = false) (hwant : s.op.want ≠ .nothing)
    (hok : s.op.ec.isError = false) (hec : bytes ≠ 2 ^ 64 - 1 → ec.isError = false) :
    CodesKnown ⟨s.op.dispatch first ec bytes unread, s.report⟩ := by
  have hno (hc : s.report.closing = true) : False := by
    rw [hclosing] at hc
    cases hc
  have hcarried (herr : s.op.ec.isError = true) : False := by
    rw [hok] at herr
    cases herr
  obtain ⟨hwaiting, hposts⟩ := hq.not_pos
  have hsend : CodesKnown ⟨s.op.send, s.report⟩ := by
    unfold send flush
    split
    · exact ⟨hkind, endsProperly_of_nil hq.1, fun hc ↦ (hno hc).elim, nofun, nofun,
        fun _ herr ↦ (hcarried herr).elim, fun hp ↦ absurd hp hposts⟩
    · exact ⟨hkind, endsProperly_of_nil hq.1, fun hc ↦ (hno hc).elim, nofun, nofun,
        fun _ herr ↦ (hcarried herr).elim, fun hp ↦ absurd hp hposts⟩
  unfold dispatch
  split
  case h_1 =>
    split
    · refine ⟨hkind, endsProperly_of_nil hq.1, fun hc ↦ (hno hc).elim, nofun,
        fun first' ec' bytes' hp ↦ ?_, fun hw ↦ absurd hw hwaiting, fun hp ↦ absurd hp hposts⟩
      obtain ⟨-, rfl, rfl⟩ := Place.putting.inj hp
      exact ⟨hclosing, fun herr ↦ (hcarried herr).elim, fun _ ↦ hec⟩
    · exact ⟨hkind, endsProperly_of_nil hq.1, fun hc ↦ (hno hc).elim, nofun, nofun,
        fun _ herr ↦ (hcarried herr).elim, fun hp ↦ absurd hp hposts⟩
  case h_2 => exact hsend
  case h_3 => exact hsend
  case h_4 hw => exact absurd hw hwant

/-! ### Runs -/

theorem bare_of_nothingOutstanding {op : SslOp} (h : NothingOutstanding op) : Bare op :=
  ⟨h.callbacks, h.receives, h.sends, h.posts⟩

/-- What a read leaves of a receive operation. -/
theorem callOp_receive {op : SslOp} {c : SslCall}
    (hkind : ∃ some_ buffer, op.kind = .receive some_ buffer) :
    (∃ some_ buffer, (op.callOp c).kind = .receive some_ buffer) ∧
      (op.callOp c).want = (perform .read op.bio.length op.bytesTransferred c).want ∧
      (op.callOp c).ec = (perform .read op.bio.length op.bytesTransferred c).ec := by
  obtain ⟨some_, buffer, hk⟩ := hkind
  have hout : op.outcome c = perform .read op.bio.length op.bytesTransferred c := by
    rw [outcome, hk]
    rfl
  refine ⟨?_, congrArg Outcome.want hout, congrArg Outcome.ec hout⟩
  show ∃ some_ buffer, op.kind.advance (op.outcome c).ec (op.outcome c).bytesTransferred = _
  rw [hk]
  unfold Kind.advance
  split
  · exact ⟨_, _, rfl⟩
  · exact ⟨_, _, rfl⟩

/-- The engine is called, and answers. -/
theorem codesKnown_engine {c : SslCall} {op : SslOp} (hs : CodesKnown s)
    (hi : SslOp.Located True s.op)
    (hplain : SslEvent.Distinct (.engine c)) (hok : s.Punctual (.engine c))
    (hop : s.op.step (.engine c) = some op) : CodesKnown ⟨op, s.report.after (.engine c)⟩ := by
  unfold SslOp.step at hop
  dsimp only at hop
  split at hop
  case h_2 => cases hop
  case h_1 first ec bytes hplace =>
    obtain rfl := Option.some.inj hop
    have hq : Bare (s.op.callOp c) :=
      bare_of_nothingOutstanding (hi.nothingOutstanding (by simp [hplace]))
    obtain ⟨hkind, hwant, hec⟩ := callOp_receive (c := c) hs.kind
    have hbytes := hs.loop first ec bytes hplace
    have hinit : s.initiating = true → first = true := by
      unfold initiating
      rw [hplace]
      cases first
      · exact nofun
      · exact fun _ ↦ rfl
    by_cases hcloses : c.Closes
    · have hclosing : (s.report.after (.engine c)).closing = true := decide_eq_true hcloses
      rw [perform_of_closes hcloses] at hwant hec
      refine codesKnown_nothing (s := ⟨s.op.callOp c, s.report.after (.engine c)⟩) hq hkind hwant
        hbytes
        (fun _ ↦ hec) (fun h ↦ ?_) (fun _ ↦ (hok hcloses).imp hinit id)
      exact absurd (hclosing.symm.trans h) nofun
    · have hclosing : (s.report.after (.engine c)).closing = false := decide_eq_false hcloses
      by_cases hw : (s.op.callOp c).want = .nothing
      · refine codesKnown_nothing (s := ⟨s.op.callOp c, s.report.after (.engine c)⟩) hq hkind hw
          hbytes
          (fun h ↦ absurd (hclosing.symm.trans h) nofun) (fun _ ↦ ?_)
          (fun h ↦ absurd (hclosing.symm.trans h) nofun)
        show (s.op.callOp c).ec.value ≠ 1 ∧ (s.op.callOp c).ec ≠ shortReadError
        rw [hec]
        exact ec_of_not_closes hcloses hplain
      · refine codesKnown_wanting (s := ⟨s.op.callOp c, s.report.after (.engine c)⟩) hq hkind
          hclosing
          hw ?_ hbytes
        show (s.op.callOp c).ec.isError = false
        rw [hec]
        exact isError_perform fun h ↦ hw (hwant.trans h)

/-- **Every step keeps known which code the operation holds** and where it comes from. -/
theorem codesKnown_step {e : SslEvent} (hs : CodesKnown s) (hi : SslOp.Located True s.op)
    (hplain : e.Distinct)
    (hok : s.Punctual e) (hstep : s.step e = some t) : CodesKnown t := by
  obtain ⟨op, hop, rfl⟩ := Option.map_eq_some_iff.1 hstep
  have hwanting (hw : s.op.want ≠ .nothing) : s.report.closing = false := by
    rcases hc : s.report.closing with - | -
    · rfl
    · exact absurd (hs.closing hc) hw
  cases e with
  | engine c => exact codesKnown_engine hs hi hplain hok hop
  | put n unread =>
    unfold SslOp.step at hop
    dsimp only at hop
    split at hop
    case h_2 => cases hop
    case h_1 first ec bytes hplace =>
      obtain rfl := Option.some.inj hop
      obtain ⟨hclosing, hcarried, hec⟩ := hs.putting first ec bytes hplace
      exact codesKnown_test (s := ⟨{ s.op with inputBuffer := s.op.inputBuffer.drop n },
        s.report.after (.put n unread)⟩)
          (bare_of_nothingOutstanding (hi.nothingOutstanding (by simp [hplace]))) hs.kind
        hclosing hcarried hec
  | received ec data unread =>
    obtain ⟨⟨-, hr⟩, ht⟩ := Option.ite_none_right_eq_some.1 hop
    obtain rfl := Option.some.inj ht
    obtain ⟨hwant, hr', hq⟩ := hi.receiving_of_pos hr
    have hne : s.op.want ≠ .nothing := by simp [hwant]
    refine codesKnown_resume (s := ⟨{ s.op with receives := s.op.receives - 1 },
      s.report.after (.received ec data unread)⟩) ⟨hq.callbacks, by simp [hr'], hq.sends, hq.posts⟩
      hs.kind (hwanting hne) hne ?_
    exact carried_codesKnown (hs.waiting (by omega)) hplain (fun h ↦ by simp [Report.after, h])
      (fun h ↦ by simp [Report.after, h]) rfl
  | sent ec bytes unread =>
    obtain ⟨⟨-, hr⟩, ht⟩ := Option.ite_none_right_eq_some.1 hop
    obtain rfl := Option.some.inj ht
    obtain ⟨hwant, hr', -, hq⟩ := hi.sending_of_pos hr
    have hne : s.op.want ≠ .nothing := by rcases hwant with h | h <;> simp [h]
    refine codesKnown_resume (s := ⟨{ s.op with sends := s.op.sends - 1 },
      s.report.after (.sent ec bytes unread)⟩) ⟨hq.callbacks, hq.receives, by simp [hr'], hq.posts⟩
      hs.kind (hwanting hne) hne ?_
    exact carried_codesKnown (hs.waiting (by omega)) hplain (fun h ↦ by simp [Report.after, h])
      (fun h ↦ by simp [Report.after, h]) rfl
  | posted =>
    obtain ⟨⟨-, hr⟩, ht⟩ := Option.ite_none_right_eq_some.1 hop
    obtain rfl := Option.some.inj ht
    obtain ⟨hr', hq⟩ := hi.posted_of_pos hr
    obtain ⟨heof, hshort⟩ := hs.posted hr
    refine codesKnown_complete (s := ⟨{ s.op with posts := s.op.posts - 1 }, s.report⟩)
      ⟨hq.callbacks, hq.receives, hq.sends, by simp [hr']⟩ hs.kind hs.closing
      ⟨fun hc _ _ ↦ heof hc, fun h ↦ absurd h hshort⟩

/-- An error ends the operation. -/
theorem callbacks_complete {op : SslOp} {some_ : Bool} {buffer : MutableBuffer}
    (hk : op.kind = .receive some_ buffer) (herr : ec.isError = true) :
    (op.complete ec).callbacks = op.callbacks ++ [(ec, buffer.len)] := by
  rw [complete, SslOp.onComplete, hk]
  dsimp only
  rw [herr]
  rfl

/-- **A `close_notify` reported late** goes through `map_error_code` and comes out as
`SHORT_READ`. -/
theorem not_endsProperly_of_late {e : SslEvent} (hs : CodesKnown s) (hi : SslOp.Located True s.op)
    (hbad : ¬s.Punctual e) (hstep : s.step e = some t) : ¬EndsProperly t := by
  obtain ⟨op, hop, rfl⟩ := Option.map_eq_some_iff.1 hstep
  cases e with
  | put => exact absurd trivial hbad
  | received => exact absurd trivial hbad
  | sent => exact absurd trivial hbad
  | posted => exact absurd trivial hbad
  -- only the engine can report a `close_notify`
  | engine c =>
    obtain ⟨hcloses, hlate⟩ := Classical.not_imp.1 hbad
    obtain ⟨hinit, hssl2⟩ := not_or.1 hlate
    unfold SslOp.step at hop
    dsimp only at hop
    split at hop
    case h_2 => cases hop
    case h_1 first ec bytes hplace =>
      obtain rfl := Option.some.inj hop
      have hq : Bare (s.op.callOp c) :=
        bare_of_nothingOutstanding (hi.nothingOutstanding (by simp [hplace]))
      obtain ⟨⟨some_, buffer, hkind⟩, hwant, hec⟩ := callOp_receive (c := c) hs.kind
      rw [perform_of_closes hcloses] at hwant hec
      obtain rfl : first = false := by
        rcases hf : first with - | -
        · rfl
        · unfold initiating at hinit
          rw [hplace, hf] at hinit
          exact absurd rfl hinit
      -- no error of the transport: the `eof` of the engine is kept, and mapped to `SHORT_READ`
      let after : SslOp := { s.op.callOp c with ec := kept (s.op.callOp c).ec ec bytes }
      have hkept : after.ec = .eof := by
        show kept (s.op.callOp c).ec ec bytes = .eof
        unfold kept
        rw [hec]
        exact if_neg fun h ↦ Bool.noConfusion h.2
      have hmap : mapErrorCode after.ssl2 c.unread after.ec = shortReadError := by
        unfold mapErrorCode
        rw [hkept, if_neg (by decide)]
        show (if c.unread then _ else if s.op.ssl2 then _ else _) = _
        split
        · rfl
        · next hu => rw [if_neg fun h ↦ hssl2 ⟨h, Bool.eq_false_iff.2 hu⟩]; rfl
      have hend : (s.op.callOp c).dispatch false ec bytes c.unread = after.finish c.unread := by
        rw [dispatch, hwant]
        show after.answer ec bytes [] c.unread = _
        rw [answer, show after.want = .nothing from hwant]
      have hmem : (shortReadError, buffer.len) ∈ (after.finish c.unread).callbacks := by
        have hcall : (after.finish c.unread).callbacks =
            after.callbacks ++ [(shortReadError, buffer.len)] := by
          rw [finish, hmap]
          exact @callbacks_complete _ { after with ec := shortReadError } _ _ hkind rfl
        rw [hcall]
        exact List.mem_append_right _ (List.mem_singleton_self _)
      intro h
      have hclosing := (h.shortRead (shortReadError, buffer.len) (hend ▸ hmem) rfl).2
      exact Bool.noConfusion ((decide_eq_true hcloses).symm.trans hclosing)

/-- **The end of the stream.** In every run of `asyn_recv` and `asyn_recv_some`, whatever is
received and sent on the way: a `close_notify` is reported as `eof`, and `SHORT_READ` only for a
transport that ended without one, if and only if the engine reports a `close_notify` in the
initiating call only, or the session is one of SSL version 2 and nothing is left unread. -/
theorem endsProperly_iff {some_ ssl2 : Bool} {len : ℕ} {inputBuffer bio : List Byte}
    {l : List SslEvent} (hl : ∀ e ∈ l, e.Distinct)
    (hrun : Transition.run step (asynRecv some_ len inputBuffer bio ssl2) l = some t) :
    Transition.Throughout step EndsProperly (asynRecv some_ len inputBuffer bio ssl2) l ↔
      Transition.RunMeets step Punctual (asynRecv some_ len inputBuffer bio ssl2) l := by
  have hstart : CodesKnown (asynRecv some_ len inputBuffer bio ssl2) := by
    refine ⟨⟨_, _, rfl⟩, endsProperly_of_nil rfl, nofun, fun _ _ _ hp _ ↦ ?_, nofun,
      fun hw ↦ absurd hw (Nat.lt_irrefl 0), fun hp ↦ absurd hp (Nat.lt_irrefl 0)⟩
    obtain ⟨-, rfl, -⟩ := Place.loop.inj hp
    rfl
  refine Transition.throughout_iff_of_forall (I := fun s ↦ CodesKnown s ∧ SslOp.Located True s.op)
    (fun s h ↦ h.1.proper)
    (fun s e u hs hplain hok h ↦ ⟨codesKnown_step hs.1 hs.2 hplain hok h, ?_⟩)
    (fun s e u hs _ hbad h ↦ not_endsProperly_of_late hs.1 hs.2 hbad h)
    ⟨hstart, located_start _ _ _ _⟩ hl hrun
  obtain ⟨op, hop, rfl⟩ := Option.map_eq_some_iff.1 h
  exact located_step hs.2 (.inr trivial) hop

/-- An answer with the `close_notify`, and one that asks for input. -/
def closed : SslCall := ⟨0, 6, 0, [], true, false⟩

@[inherit_doc closed]
def wantsInput : SslCall := ⟨-1, SSL_ERROR_WANT_READ, 0, [], false, false⟩

/-- The theorem on a `close_notify` that is there already. -/
theorem endsProperly_iff_closed :
    Transition.Throughout step EndsProperly (asynRecv true 8 [] [] false)
        [.engine closed, .posted] ↔
      Transition.RunMeets step Punctual (asynRecv true 8 [] [] false) [.engine closed, .posted] :=
  endsProperly_iff (l := [.engine closed, .posted]) (by decide) rfl

/-- A `close_notify` that is received before the engine asks for it is reported as `SHORT_READ`. -/
theorem not_endsProperly_received :
    ∃ t, Transition.run step (asynRecv true 8 [] [] false)
        [.engine wantsInput, .received .noError [21] false, .put 1 false, .engine closed] = some t ∧
      t.report = ⟨true, false, false, false⟩ ∧ t.op.callbacks = [(shortReadError, 0)] ∧
      ¬EndsProperly t := by
  refine ⟨_, rfl, by decide, by decide, fun h ↦ ?_⟩
  have heof := h.eof (shortReadError, 0) (by decide) (by decide) (by decide) (by decide)
  exact absurd heof (by decide)

end Watched

end JnetLib.Ssl
