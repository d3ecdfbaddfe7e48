import JnetLib.Epoll.WriteSize
import JnetLib.Iocp.SendSize

/-!
# The sizes of writes on the IOCP backend

`service::write` passes the length of the whole buffer to `WriteFile` as a `DWORD`, once. So a write
of `2 ^ 32` bytes or more writes its length, cut to 32 bits, and with an answer that is no error it
reports success with that (`exists_short_of_large`). `WriteState.keeps_iff` says that a write keeps
its contract exactly below `2 ^ 32`.
-/

namespace JnetLib.Iocp

open Epoll (OpenFile Outcome)

/-- A write to a file: the caller's bytes, and the file with its pointer. -/
structure WriteState where
  data : List Byte
  file : OpenFile
  place : FilePlace
  deriving DecidableEq, Repr

namespace WriteState

/-- What `WriteFile` answers: all it was asked for is written, or it fails. -/
def Answers (requested : ℕ) : Outcome → Prop
  | .bytes k => k = requested
  | .fail errno => errno ≠ 0

instance (requested : ℕ) : DecidablePred (Answers requested)
  | .bytes k => inferInstanceAs (Decidable (k = requested))
  | .fail errno => inferInstanceAs (Decidable (errno ≠ 0))

/-- `service::write` and the completion of its `WriteFile`, which leaves the pointer. A write of no
bytes is completed without a call. -/
def serviceWrite (s : WriteState) (bytes : ℕ) (o : Outcome) : WriteState :=
  if bytes = 0 then { s with place := .completed .noError 0 }
  else
    { s with
      file := { s.file with content := (s.file.write (s.data.take o.moved)).content }
      place := .completed (completionError o) o.moved }

/-- `write_op::on_complete`: the pointer moves over what was written. -/
def onComplete (s : WriteState) (ec : ErrorCode) (n : ℕ) : WriteState :=
  { s with
    file := { s.file with offset := s.file.offset + n }
    place := .finished ec n }

/-- The transitions of a write. `WriteFile` gets the length as a `DWORD`. -/
def step (s : WriteState) : FileEvent → Option WriteState
  | .kernel o =>
    match s.place with
    | .issued bytes => if Answers (toUInt32 bytes) o then some (s.serviceWrite bytes o) else none
    | _ => none
  | .dispatch =>
    match s.place with
    | .completed ec n => some (s.onComplete ec n)
    | _ => none

/-- `asyn_write` on a file. -/
def asynWrite (file : OpenFile) (data : List Byte) : WriteState := ⟨data, file, .issued data.length⟩

/-- What `asyn_write` owes a caller with `len` bytes. -/
structure Keeps (len : ℕ) : Prop where
  /-- `WriteFile` is offered some of the bytes, and something if there are any. -/
  asks : ∀ file data, data.length = len → ∀ s, Transition.Reachable step (asynWrite file data) s →
    ∀ bytes, s.place = .issued bytes → RequestFits len (toUInt32 bytes)
  /-- A write that succeeds has written all. -/
  wrote : ∀ file data, data.length = len → ∀ s, Transition.Reachable step (asynWrite file data) s →
    ∀ ec n, s.place = .finished ec n → ec.isError = false → n = len ∧ s.file = file.write data

variable {file : OpenFile} {data : List Byte} {s t : WriteState} {len : ℕ}

/-- Where a write is: handed to the service, completed, or called back; without an error, a part of
the bytes as long as their number, cut to 32 bits, is in the file. -/
inductive Writing (file : OpenFile) (data : List Byte) : WriteState → Prop
  | issued : Writing file data (asynWrite file data)
  | completed (ec : ErrorCode) (n : ℕ) (content : List Byte)
      (h : ec.isError = false → n = toUInt32 data.length ∧
        content = (file.write (data.take n)).content) :
      Writing file data ⟨data, ⟨content, file.offset⟩, .completed ec n⟩
  | finished (ec : ErrorCode) (n : ℕ) (content : List Byte)
      (h : ec.isError = false → n = toUInt32 data.length ∧
        content = (file.write (data.take n)).content) :
      Writing file data ⟨data, ⟨content, file.offset + n⟩, .finished ec n⟩

theorem writing_step {e : FileEvent} (hs : Writing file data s) (hstep : step s e = some t) :
    Writing file data t := by
  cases hs with
  | issued =>
    cases e with
    | dispatch => cases hstep
    | kernel o =>
      simp only [step, asynWrite] at hstep
      split at hstep
      case isFalse => cases hstep
      case isTrue ho =>
        obtain rfl := Option.some.inj hstep
        rw [serviceWrite]
        split
        case isTrue hzero =>
          refine .completed .noError 0 file.content fun _ ↦ ⟨?_, ?_⟩
          · rw [hzero]
            rfl
          · rw [List.take_zero]
            rfl
        case isFalse =>
          refine .completed _ _ _ fun hec ↦ ?_
          cases o with
          | bytes k => exact ⟨ho, rfl⟩
          | fail e =>
            have he : e ≠ 0 := ho
            exact absurd hec (by simpa [completionError] using he)
  | completed ec n content h =>
    cases e with
    | kernel o => cases hstep
    | dispatch =>
      obtain rfl := Option.some.inj hstep
      exact .finished ec n content h
  | finished ec n content h => cases e <;> cases hstep

/-- The pointer ends behind the bytes written. -/
theorem offset_write (f : OpenFile) (bytes : List Byte) :
    (f.write bytes).offset = f.offset + bytes.length := by
  rw [OpenFile.write]
  split
  case isTrue h =>
    rw [h]
    rfl
  case isFalse => rfl

theorem keeps_of_lt (hlen : len < 2 ^ 32) : Keeps len := by
  have hwriting : ∀ file data s, Transition.Reachable step (asynWrite file data) s →
      Writing file data s := fun file data s hs ↦
    hs.invariant (fun _ _ _ h hst ↦ writing_step h hst) .issued
  refine ⟨fun file data hdata s hs bytes hp ↦ ?_, fun file data hdata s hs ec n hp hec ↦ ?_⟩
  · cases hwriting file data s hs with
    | completed | finished => cases hp
    | issued =>
      obtain rfl := FilePlace.issued.inj hp
      rw [hdata]
      exact requestFits_toUInt32_iff.2 (eq_zero_or_not_dvd_of_lt hlen)
  · cases hwriting file data s hs with
    | issued | completed => cases hp
    | finished ec' n' content h =>
      obtain ⟨rfl, rfl⟩ := FilePlace.finished.inj hp
      obtain ⟨rfl, rfl⟩ := h hec
      have hn : toUInt32 data.length = data.length := toUInt32_of_lt (hdata ▸ hlen)
      refine ⟨hn.trans hdata, ?_⟩
      rw [hn, List.take_length, ← offset_write]

/-- **A write of `2 ^ 32` bytes or more succeeds short.** -/
theorem exists_short_of_large (file : OpenFile) (hlen : 2 ^ 32 ≤ data.length) :
    ∃ s, Transition.Reachable step (asynWrite file data) s ∧
      ∃ n < data.length, s.place = .finished (.system 0) n := by
  have hpos : data.length ≠ 0 := Nat.ne_of_gt (Nat.lt_of_lt_of_le (by decide) hlen)
  have hkernel : step (asynWrite file data) (.kernel (.bytes (toUInt32 data.length))) =
      some ((asynWrite file data).serviceWrite data.length (.bytes (toUInt32 data.length))) :=
    if_pos rfl
  have hplace : ((asynWrite file data).serviceWrite data.length
      (.bytes (toUInt32 data.length))).place = .completed (.system 0) (toUInt32 data.length) := by
    rw [serviceWrite, if_neg hpos]
    rfl
  have hdispatch : step ((asynWrite file data).serviceWrite data.length
      (.bytes (toUInt32 data.length))) .dispatch = some (((asynWrite file data).serviceWrite
        data.length (.bytes (toUInt32 data.length))).onComplete (.system 0)
          (toUInt32 data.length)) := by
    simp only [step, hplace]
  exact ⟨_, ((Transition.Reachable.refl _).tail hkernel).tail hdispatch, toUInt32 data.length,
    Nat.lt_of_lt_of_le (toUInt32_lt _) hlen, rfl⟩

theorem keeps_iff : Keeps len ↔ len < 2 ^ 32 := by
  refine ⟨fun h ↦ ?_, keeps_of_lt⟩
  by_contra hlen
  have hdata : (List.replicate len (0 : Byte)).length = len := List.length_replicate
  obtain ⟨s, hs, n, hn, hp⟩ :=
    exists_short_of_large ⟨[], 0⟩ (hdata.symm ▸ Nat.le_of_not_lt hlen)
  rw [hdata] at hn
  exact Nat.ne_of_lt hn (h.wrote _ _ hdata s hs _ n hp rfl).1

end WriteState

end JnetLib.Iocp
