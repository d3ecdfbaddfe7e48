import JnetLib.Base.Buffer
import JnetLib.File.EndOfLine
import JnetLib.Iocp.OneHolder

/-!
# Reading a line on the IOCP backend

`read_line_op`: the file is read in chunks of at most 64 KiB. `read_line_op::on_complete` searches a
chunk for the end of the line and, when the chunk is full, holds neither the end of the line nor a
part of it at its end, and the buffer has room left, issues the next read.

Unlike `send_op::on_complete` it does not `reset` the operation before. The flag `ready_` is still
set from the handshake that led to this invocation, so `on_pending` posts the operation at once
while its read is outstanding, and it is completed twice (`completes_twice`). `reads_iff` says that
this happens at every resubmission.

## What the theorem rests on

One direction is the invariant of `Iocp/Routine`: where nothing is resubmitted, nothing is
resubmitted with the flag set. For the other, a resubmission is made by a thread inside `complete`,
which has found the flag set, and nothing between that and the system call clears it
(`stale_of_resubmit`); so it is counted as a stale one.
-/

namespace JnetLib.Iocp

open JnetLib.File

/-- `read_line_op::max_read_buffer_size`. -/
def maxReadBufferSize : ℕ := 64 * 1024

/-- `ERROR_HANDLE_EOF`. -/
def ERROR_HANDLE_EOF : ℤ := 38

/-- `read_line_op`: `bufferPos` is `buffer_pos_ - buffer_`, and `filePos` is how far the file's
pointer has been moved since the call. -/
structure ReadLineOp where
  bufferPos : ℕ
  remainLength : ℕ
  eol : List Byte
  incEol : Bool
  filePos : ℕ
  deriving DecidableEq, Repr

namespace ReadLineOp

/-- The constructor. -/
def new (len : ℕ) (eol : List Byte) (incEol : Bool) : ReadLineOp := ⟨0, len, eol, incEol, 0⟩

/-- The number of bytes a read asks for. -/
def requested (op : ReadLineOp) : ℕ :=
  if maxReadBufferSize < op.remainLength then maxReadBufferSize else op.remainLength

/-- `buffer_pos_`, `remain_length_` and the file's pointer move on. -/
def advance (op : ReadLineOp) (bytes : ℕ) : ReadLineOp :=
  { op with
    bufferPos := op.bufferPos + bytes
    remainLength := op.remainLength - bytes
    filePos := op.filePos + bytes }

/-- The part of `on_complete` behind the search of `n` bytes, from its answer on. -/
def afterSearch (op : ReadLineOp) (ec : ErrorCode) (n found last : ℕ) : ReadLineOp × Verdict :=
  let bytes := if found < n then found + op.eol.length else n - last
  let op := op.advance bytes
  if found < bytes then (op, .finish ec (op.bufferPos - if op.incEol then 0 else op.eol.length))
  else if op.remainLength == 0 || bytes != maxReadBufferSize && op.remainLength != 0 then
    (op, .finish .eof op.bufferPos)
  else (op, .again op.requested)

/-- `read_line_op::on_complete` on the chunk `d` at `buffer_pos_`; no result when the search leaves
its arrays. -/
def onComplete (op : ReadLineOp) (d : List Byte) (ec : ErrorCode) (n : ℕ) :
    Option (ReadLineOp × Verdict) :=
  if ec.isError || n == 0 then
    some (op, .finish (if ec.value = ERROR_HANDLE_EOF then .eof else ec) op.bufferPos)
  else if d.length = n then (findEol d op.eol).map fun r ↦ op.afterSearch ec n r.1 r.2
  else none

end ReadLineOp

/-- `read_line_op`. -/
def readLineOp : Routine ReadLineOp (List Byte) where
  requested := ReadLineOp.requested
  complete := ReadLineOp.onComplete
  resets := false
  recheck _ _ := none

/-- The routine goes on after a full chunk without the end of the line and without a part of it at
its end, when the buffer has room left. -/
theorem ReadLineOp.onComplete_again {op : ReadLineOp} {d : List Byte} {ec : ErrorCode}
    (h2 : 2 ≤ op.eol.length) (hw : op.eol.length < 2 ^ 31) (hec : ec.isError = false)
    (hd : d.length = maxReadBufferSize) (hnone : ∀ s, ¬OccursAt op.eol d s)
    (hpart : ∀ k, IsOverlap op.eol d k → k = 0) (hroom : maxReadBufferSize < op.remainLength) :
    op.onComplete d ec maxReadBufferSize =
      some (op.advance maxReadBufferSize, .again (op.advance maxReadBufferSize).requested) := by
  have hsize : maxReadBufferSize = 65536 := rfl
  obtain ⟨r, hr, hsearch⟩ := findEol_spec d h2 hw (by omega)
  cases hsearch with
  | found h _ => exact absurd h (hnone _)
  | missing h _ last =>
    have hlast := hpart _ last.1
    have hrem : (op.advance maxReadBufferSize).remainLength ≠ 0 := by
      show op.remainLength - maxReadBufferSize ≠ 0
      omega
    rw [onComplete, hec, if_neg (by decide), if_pos hd, hr, Option.map_some, afterSearch, h, hlast,
      hd, if_neg (Nat.lt_irrefl _), Nat.sub_zero, if_neg (Nat.lt_irrefl _), if_neg]
    simpa using hrem

namespace Lifecycle

variable {ι τ : Type} [DecidableEq ι] [DecidableEq τ] [Fintype τ]

/-- **Every resubmission is made with the flag set.** A line is read with one callback, every read
completed once and every resubmission made with `ready_` clear, exactly when there is no
resubmission. -/
theorem reads_iff {me : ι} {mem : ι → Operation} {b : Bool} {op : ReadLineOp}
    {l : List (LifecycleEvent ι τ ReadLineOp (List Byte))} {s : Lifecycle ι τ ReadLineOp}
    (hrun : Transition.run (step readLineOp me) (start mem b op) l = some s) :
    Transition.Throughout (step readLineOp me) (Unhurried me) (start mem b op) l ↔
      ∀ t ov o, .resubmit t ov o ∉ l := by
  have hlabels : (∀ t ov o, .resubmit t ov o ∉ l) ↔
      ∀ e ∈ l, ∀ t ov o, e ≠ .resubmit t ov o :=
    ⟨fun h e he t ov o heq ↦ h t ov o (heq ▸ he), fun h t ov o he ↦ h _ he t ov o rfl⟩
  rw [hlabels, ← Transition.runMeets_iff_forall hrun]
  refine Transition.throughout_iff (I := OneHolder me) (fun s h ↦ h.unhurried)
    (fun s e s' h he hstep ↦ oneHolder_step h ?_ hstep) (fun s e s' h he hstep hs' ↦ ?_)
    (oneHolder_start mem b op) hrun
  · cases e with
    | resubmit t ov o => exact absurd rfl (he t ov o)
    | recheck _ _ => exact fun _ _ ↦ rfl
    | service _ | asyn _ _ | initiate _ | complete _ _ | callback _ | delete _ => trivial
  · simp only [not_forall, not_not] at he
    obtain ⟨t, ov, o, rfl⟩ := he
    exact h.stale_of_resubmit rfl hstep hs'.stale

/-- A line that ends in the first chunk. -/
theorem reads_iff_short :
    ∃ (l : List (LifecycleEvent Unit Bool ReadLineOp (List Byte)))
      (s : Lifecycle Unit Bool ReadLineOp),
      Transition.run (step readLineOp ()) (start (fun _ ↦ .reset) false (.new 80 [13, 10] false))
        l = some s ∧ s.calls = [(.system 0, 2)] ∧ s.deletes = 1 ∧
        Transition.Throughout (step readLineOp ()) (Unhurried ())
          (start (fun _ ↦ .reset) false (.new 80 [13, 10] false)) l := by
  refine ⟨[.asyn (.noError, 0) (.pending 0 5), .initiate true, .service (.arrive () 0),
    .service (.check false), .service (.dequeue false 0), .service (.record false),
    .service (.exchange false), .complete false [97, 98, 13, 10, 99], .callback false,
    .delete false], _, rfl, rfl, rfl, (reads_iff rfl).2 ?_⟩
  simp

/-- A chunk of 64 KiB of letters. -/
def letters : List Byte := List.replicate maxReadBufferSize 97

theorem not_mem_letters {c : Byte} (hc : c ≠ 97) {m : ℕ} : letters[m]? ≠ some c := by
  exact fun h ↦ hc (List.eq_of_mem_replicate (List.mem_of_getElem? h))

theorem onComplete_letters :
    (ReadLineOp.new 70000 [13, 10] false).onComplete letters (.system 0) maxReadBufferSize =
      some ((ReadLineOp.new 70000 [13, 10] false).advance maxReadBufferSize, .again 4464) := by
  have hlen : letters.length = maxReadBufferSize := List.length_replicate
  refine ReadLineOp.onComplete_again (by decide) (by decide) rfl hlen (fun s h ↦ ?_)
    (fun k h ↦ ?_) (by decide)
  · exact not_mem_letters (by decide) (h.2 0 (by decide)).symm
  · by_contra hk
    exact not_mem_letters (by decide) (h.2.2 0 (by omega)).symm

theorem step_letters {s : Lifecycle Unit Bool ReadLineOp}
    (hpc : s.pcs false = .entered (.system 0) maxReadBufferSize)
    (hop : s.op = .new 70000 [13, 10] false) :
    step readLineOp () s (.complete false letters) = some
      { s.setPc false (.retrying (.system 0) 4464) with
        op := (ReadLineOp.new 70000 [13, 10] false).advance maxReadBufferSize } := by
  rw [step]
  refine complete_of_again hpc ?_
  rw [hop, show readLineOp.complete = ReadLineOp.onComplete from rfl]
  exact onComplete_letters

/-- A line longer than a chunk. The thread that issues the second read finds the flag set and posts
the operation, which the other thread completes with the file position for an error; the packet of
the second read comes to an operation that is gone. -/
theorem completes_twice :
    ∃ (l : List (LifecycleEvent Unit Bool ReadLineOp (List Byte)))
      (s : Lifecycle Unit Bool ReadLineOp),
      Transition.run (step readLineOp ())
        (start (fun _ ↦ .reset) false (.new 70000 [13, 10] false)) l = some s ∧
        s.calls = [(⟨65536, .null⟩, 65536), (.eof, 65536)] ∧ s.deletes = 2 ∧ s.stale = 1 ∧
        ¬s.OneCallback () := by
  let l₁ : List (LifecycleEvent Unit Bool ReadLineOp (List Byte)) :=
    [.asyn (.noError, 0) (.pending 0 65536), .initiate true, .service (.arrive () 0),
      .service (.check false), .service (.dequeue false 0), .service (.record false),
      .service (.exchange false)]
  let l₂ : List (LifecycleEvent Unit Bool ReadLineOp (List Byte)) :=
    [.resubmit false (⟨65536, .null⟩, 0) (.pending 38 0), .initiate true, .initiate true,
      .recheck false (.new 0 [] false), .service (.ret false), .service (.check true),
      .service (.dequeue true 0), .service (.record true), .service (.exchange true),
      .complete true [], .callback true, .delete true, .service (.arrive () 0),
      .service (.check false), .service (.dequeue false 0), .service (.record false),
      .service (.exchange false), .complete false [], .callback false, .delete false]
  let s₀ : Lifecycle Unit Bool ReadLineOp :=
    start (fun _ ↦ .reset) false (.new 70000 [13, 10] false)
  let s₁ := (Transition.run (step readLineOp ()) s₀ l₁).get rfl
  have h₁ : Transition.run (step readLineOp ()) s₀ l₁ = some s₁ := (Option.some_get _).symm
  have hpc : s₁.pcs false = .entered (.system 0) maxReadBufferSize := by decide +kernel
  have hop : s₁.op = .new 70000 [13, 10] false := by decide +kernel
  -- the search of the chunk is settled by its specification, the rest of the run by evaluation
  have hstep := step_letters hpc hop
  have hrun : (Transition.run (step readLineOp ()) s₀ (l₁ ++ .complete false letters :: l₂)).map
      (fun s ↦ (s.calls, s.deletes, s.stale)) =
      some ([(⟨65536, .null⟩, 65536), (.eof, 65536)], 2, 1) := by
    rw [Transition.run_append_of_eq h₁, Transition.run_cons_of_eq hstep]
    decide +kernel
  obtain ⟨s, hs, hend⟩ := Option.map_eq_some_iff.1 hrun
  obtain ⟨hcalls, hdeletes, hstale⟩ : s.calls = _ ∧ s.deletes = 2 ∧ s.stale = 1 :=
    ⟨congrArg Prod.fst hend, congrArg (·.2.1) hend, congrArg (·.2.2) hend⟩
  refine ⟨_, s, hs, hcalls, hdeletes, hstale, fun h ↦ ?_⟩
  have := h.calls_le
  rw [hcalls] at this
  exact absurd this (by decide)

end Lifecycle

end JnetLib.Iocp
