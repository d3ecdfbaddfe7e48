import JnetLib.Base.Buffer
import JnetLib.Iocp.OneHolder

/-!
# The asynchronous send of the IOCP backend

`send_op`: the buffer is sent in chunks of at most 64 KiB, and `send_op::on_complete` resubmits the
operation until nothing is left. Behind the resubmission it looks at the operation again, which by
then belongs to the thread that completes the next chunk: if that thread has sent the rest, both
invocations call back and both delete (`calls_twice`).

A chunk's length is the remaining length cut to a `ULONG`, which is zero at every multiple of
`2 ^ 32`. A chunk of no bytes is completed at once with nothing sent (`result_of_legal_zero`), and
the same chunk is submitted again (`sendOp_complete_idle`): the send never ends.

`sends_iff` says that these two are all: the caller gets exactly one callback precisely in the runs
in which neither happens.

## What the theorem rests on

A send always resets the operation before it resubmits, so the handshake is in order (`OneHolder`)
and only what stands behind the resubmission can go wrong. `Asks` says that a thread that comes
there has submitted a chunk with something in it, as long as every step is steady; such a thread is
through unless it reads zero from the operation (`sendOp_recheck`). A step that is not steady breaks
the promise at once, from any state (`not_sends_of_not_steady`).
-/

namespace JnetLib.Iocp

/-- `send_op::max_send_buffer_size`. -/
def maxSendBufferSize : ℕ := 64 * 1024

/-- The length of `wsa_buffer_`: that of the buffer, as an `unsigned long` and after `shrink_to`. -/
def wsaLen (b : ConstBuffer) : ℕ :=
  let len := toUInt32 b.len
  if maxSendBufferSize < len then maxSendBufferSize else len

/-- `send_op`. The buffer starts at offset zero, so `raw() - buf_start_pos_` is `buf`. -/
def sendOp : Routine ConstBuffer Unit where
  requested := wsaLen
  complete b _ ec n :=
    let b := if ec.isError then b else b.consume n
    some (b, if ec.isError || b.len == 0 then .finish ec b.buf else .again (wsaLen b))
  resets := true
  recheck b ec := if ec.isError || b.len == 0 then some (ec, b.buf) else none

theorem wsaLen_eq_zero_iff {b : ConstBuffer} : wsaLen b = 0 ↔ 2 ^ 32 ∣ b.len := by
  have hmod : toUInt32 b.len = 0 ↔ 2 ^ 32 ∣ b.len := Nat.dvd_iff_mod_eq_zero.symm
  rw [wsaLen, ← hmod]
  split
  case isTrue h => exact ⟨fun h' ↦ absurd h' (by decide), fun h' ↦ by omega⟩
  case isFalse => rfl

/-- The routine resubmits after a success only, and for what is left then. -/
theorem sendOp_again {b b' : ConstBuffer} {d : Unit} {ec : ErrorCode} {n m : ℕ}
    (h : sendOp.complete b d ec n = some (b', .again m)) :
    ec.isError = false ∧ b' = b.consume n ∧ (b.consume n).len ≠ 0 ∧ m = wsaLen (b.consume n) := by
  rcases hec : ec.isError with - | -
  · simp only [sendOp, hec, Bool.false_or, Bool.false_eq_true, if_false] at h
    obtain ⟨hb, hv⟩ := Prod.mk.inj (Option.some.inj h)
    split at hv
    case isTrue => cases hv
    case isFalse hlen =>
      exact ⟨rfl, hb.symm, by simpa using hlen, (Verdict.again.inj hv).symm⟩
  · simp [sendOp, hec] at h

theorem sendOp_complete_again {b : ConstBuffer} {d : Unit} {ec : ErrorCode} {n : ℕ}
    (hec : ec.isError = false) (hlen : (b.consume n).len ≠ 0) :
    sendOp.complete b d ec n = some (b.consume n, .again (wsaLen (b.consume n))) := by
  simp only [sendOp, hec, Bool.false_or, Bool.false_eq_true, if_false, beq_iff_eq, if_neg hlen]

/-- A submission of no bytes is completed without an error and with no bytes. -/
theorem Issued.result_of_legal_zero {o : Issued} (h : o.Legal 0) : o.result = (.noError, 0) := by
  cases o with
  | pending e n => exact absurd h.1 (Nat.lt_irrefl 0)
  | failed ec n => rw [Issued.result, h.1, h.2]

/-- After a completion without bytes the routine asks for no bytes again, and nothing has changed.
-/
theorem sendOp_complete_idle {b : ConstBuffer} (d : Unit) (hlen : b.len ≠ 0)
    (hdvd : 2 ^ 32 ∣ b.len) : sendOp.complete b d .noError 0 = some (b, .again 0) := by
  have hb : b.consume 0 = b := rfl
  rw [sendOp_complete_again rfl (hb ▸ hlen), hb, wsaLen_eq_zero_iff.2 hdvd]

/-- Without an error the routine is through behind its resubmission unless it reads zero. -/
theorem sendOp_recheck {b : ConstBuffer} {ec : ErrorCode} (hec : ec.isError = false) :
    sendOp.recheck b ec = none ↔ b.len ≠ 0 := by
  simp [sendOp, hec]

namespace Lifecycle

variable {ι τ : Type} [DecidableEq ι] [DecidableEq τ]

/-- What the caller of `asyn_send` may expect. -/
structure Sends [Fintype τ] (me : ι) (s : Lifecycle ι τ ConstBuffer) : Prop
    extends s.OneCallback me where
  /-- A resubmission is for one byte at least. -/
  asks : ∀ t ec, s.pcs t ≠ .retrying ec 0

/-- What is left of the buffer after a chunk is not a multiple of `2 ^ 32`, unless nothing is. -/
def LeavesChunk (b : ConstBuffer) : RoutinePc → Prop
  | .entered ec n => ec.isError = false → (b.consume n).len ≠ 0 → ¬2 ^ 32 ∣ (b.consume n).len
  | _ => True

/-- An invocation that has resubmitted does not read a length of zero when it looks again. -/
def ReadsLeft (b : ConstBuffer) : RoutinePc → Prop
  | .rechecking _ => b.len ≠ 0
  | _ => True

/-- No chunk of no bytes comes up, and no invocation that has resubmitted takes the send for
finished, be it that another thread has sent the rest or that the operation is gone. -/
def Steady (s : Lifecycle ι τ ConstBuffer) : LifecycleEvent ι τ ConstBuffer Unit → Prop
  | .complete t _ => LeavesChunk s.op (s.pcs t)
  | .recheck t garbage => ReadsLeft (if s.deletes = 0 then s.op else garbage) (s.pcs t)
  | _ => True

instance (b : ConstBuffer) : DecidablePred (LeavesChunk b)
  | .entered ec n => inferInstanceAs (Decidable
      (ec.isError = false → (b.consume n).len ≠ 0 → ¬2 ^ 32 ∣ (b.consume n).len))
  | .out | .retrying _ _ | .resubmitting _ | .rechecking _ | .finishing _ _ _ | .deleting _ =>
    inferInstanceAs (Decidable True)

instance (b : ConstBuffer) : DecidablePred (ReadsLeft b)
  | .rechecking _ => inferInstanceAs (Decidable (b.len ≠ 0))
  | .out | .entered _ _ | .retrying _ _ | .resubmitting _ | .finishing _ _ _ | .deleting _ =>
    inferInstanceAs (Decidable True)

instance (s : Lifecycle ι τ ConstBuffer) : DecidablePred s.Steady
  | .complete t _ => inferInstanceAs (Decidable (LeavesChunk s.op (s.pcs t)))
  | .recheck t garbage => inferInstanceAs (Decidable
      (ReadsLeft (if s.deletes = 0 then s.op else garbage) (s.pcs t)))
  | .service _ | .asyn _ _ | .initiate _ | .resubmit _ _ _ | .callback _ | .delete _ =>
    inferInstanceAs (Decidable True)

/-- A thread that resubmits does so without an error and for one byte at least. -/
def Asks : RoutinePc → Prop
  | .retrying ec m => ec.isError = false ∧ m ≠ 0
  | .resubmitting ec | .rechecking ec => ec.isError = false
  | _ => True

section

variable {s s' : Lifecycle ι τ ConstBuffer} {me : ι} {e : LifecycleEvent ι τ ConstBuffer Unit}

omit [DecidableEq ι] [DecidableEq τ] in
theorem asks_move {t : τ} {pc : RoutinePc} (h : ∀ t, Asks (s.pcs t)) (he : s.Steady e)
    (hm : Move sendOp s e t pc) : Asks pc := by
  cases hm with
  | again ht hr =>
    obtain ⟨hec, -, hlen, rfl⟩ := sendOp_again hr
    have hleaves : LeavesChunk s.op (s.pcs t) := he
    rw [ht] at hleaves
    exact ⟨hec, fun hzero ↦ hleaves hec hlen (wsaLen_eq_zero_iff.1 hzero)⟩
  | resubmit ht =>
    have := h t
    rw [ht] at this
    exact this.1
  | through ht =>
    have := h t
    rwa [ht] at this
  | enter _ _ _ | finish _ _ | leave _ _ | late _ _ | call _ | delete _ => trivial

/-- A step that is not steady cannot be taken back. -/
theorem not_sends_of_not_steady [Fintype τ] (he : ¬s.Steady e)
    (hstep : s.step sendOp me e = some s') : ¬s'.Sends me := by
  intro hs'
  cases e with
  | service _ | asyn _ _ | initiate _ | resubmit _ _ _ | callback _ | delete _ =>
    exact absurd trivial he
  | complete t d =>
    rcases ht : s.pcs t with - | ⟨ec, n⟩ | _ | _ | _ | _ | _ <;>
      rw [Steady, ht] at he <;> try exact he trivial
    refine he fun hec hlen hdvd ↦ hs'.asks t ec ?_
    rw [Lifecycle.step, Lifecycle.complete, ht] at hstep
    dsimp only at hstep
    rw [sendOp_complete_again hec hlen, wsaLen_eq_zero_iff.2 hdvd] at hstep
    obtain rfl := Option.some.inj hstep
    exact Function.update_self ..
  | recheck t garbage =>
    rcases ht : s.pcs t with - | _ | _ | _ | ec | _ | _ <;>
      rw [Steady, ht] at he <;> try exact he trivial
    refine he fun hlen ↦ (hs'.resubmitted t).1 ec
      (if s.deletes = 0 then s.op else garbage).buf ?_
    rw [Lifecycle.step, Lifecycle.recheck, ht] at hstep
    dsimp only at hstep
    rw [show sendOp.recheck (if s.deletes = 0 then s.op else garbage) ec =
      some (ec, (if s.deletes = 0 then s.op else garbage).buf) by simp [sendOp, hlen]] at hstep
    obtain rfl := Option.some.inj hstep
    exact Function.update_self ..

/-- **One callback for each send, exactly when every step is steady.** -/
theorem sends_iff [Fintype τ] {mem : ι → Operation} {d : Bool} {len : ℕ}
    {l : List (LifecycleEvent ι τ ConstBuffer Unit)}
    (hrun : Transition.run (step sendOp me) (start mem d ⟨0, len⟩) l = some s) :
    Transition.Throughout (step sendOp me) (Sends me) (start mem d ⟨0, len⟩) l ↔
      Transition.RunMeets (step sendOp me) Steady (start mem d ⟨0, len⟩) l := by
  refine Transition.throughout_iff (I := fun s ↦ OneHolder me s ∧ ∀ t, Asks (s.pcs t))
    (fun s h ↦ ?_) (fun s e s' h he hstep ↦ ?_)
    (fun s e s' _ he hstep ↦ not_sends_of_not_steady he hstep)
    ⟨oneHolder_start mem d _, fun _ ↦ trivial⟩ hrun
  · refine ⟨h.1.oneCallback, fun t ec ht ↦ ?_⟩
    have := h.2 t
    rw [ht] at this
    exact this.2 rfl
  · refine ⟨oneHolder_step h.1 ?_ hstep, forall_pcs_step h.2 (fun t pc ↦ asks_move h.2 he) hstep⟩
    cases e with
    | resubmit _ _ _ => exact .inl rfl
    | recheck t garbage =>
      intro ec ht
      have := h.2 t
      rw [ht] at this
      have hreads : ReadsLeft (if s.deletes = 0 then s.op else garbage) (s.pcs t) := he
      rw [ht] at hreads
      exact (sendOp_recheck this).2 hreads
    | service _ | asyn _ _ | initiate _ | complete _ _ | callback _ | delete _ => trivial

end

/-- Two bytes go out one by one, and nobody overtakes. -/
theorem sends_iff_two :
    ∃ (l : List (LifecycleEvent Unit Bool ConstBuffer Unit)) (s : Lifecycle Unit Bool ConstBuffer),
      Transition.run (step sendOp ()) (start (fun _ ↦ .reset) false ⟨0, 2⟩) l = some s ∧
        s.calls = [(.system 0, 2)] ∧ s.deletes = 1 ∧
        Transition.Throughout (step sendOp ()) (Sends ()) (start (fun _ ↦ .reset) false ⟨0, 2⟩)
          l := by
  exact ⟨[.asyn (.noError, 0) (.pending 0 1), .initiate true, .service (.arrive () 0),
    .service (.check false), .service (.dequeue false 0), .service (.record false),
    .service (.exchange false), .complete false (),
    .resubmit false (.noError, 0) (.pending 0 1), .initiate true, .recheck false ⟨0, 0⟩,
    .service (.ret false), .service (.arrive () 0), .service (.check true),
    .service (.dequeue true 0), .service (.record true), .service (.exchange true),
    .complete true (), .callback true, .delete true], _, rfl, rfl, rfl,
    (sends_iff rfl).2 (by decide +kernel)⟩

/-- Two bytes go out one by one. The thread that has sent the first byte looks at the operation
after the other one has sent the second. -/
theorem calls_twice :
    ∃ s : Lifecycle Unit Bool ConstBuffer,
      Transition.run (step sendOp ()) (start (fun _ ↦ .reset) false ⟨0, 2⟩)
        [.asyn (.noError, 0) (.pending 0 1), .initiate true, .service (.arrive () 0),
          .service (.check false), .service (.dequeue false 0), .service (.record false),
          .service (.exchange false), .complete false (),
          .resubmit false (.noError, 0) (.pending 0 1), .initiate true, .service (.arrive () 0),
          .service (.check true), .service (.dequeue true 0), .service (.record true),
          .service (.exchange true), .complete true (), .recheck false ⟨0, 0⟩, .callback false,
          .delete false, .callback true, .delete true] = some s ∧
      s.calls = [(.system 0, 2), (.system 0, 2)] ∧ s.deletes = 2 ∧ ¬s.OneCallback () :=
  ⟨_, rfl, rfl, rfl, fun h ↦ absurd h.calls_le (by decide)⟩

end Lifecycle

end JnetLib.Iocp
