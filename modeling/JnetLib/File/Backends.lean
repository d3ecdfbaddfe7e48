import JnetLib.Epoll.LastLine
import JnetLib.Epoll.ReadBack
import JnetLib.Iocp.FileRead

/-!
# The two backends on the same file

Callers see one interface, `file::asyn_read` and `file::asyn_read_line`, and what they see through
it is a `ReadResult`: whether the end of the file was reported, the count and the bytes.

* `reads_alike_iff`: the two versions of `asyn_read` agree only at the end of the file, and on
  lengths that fit both the rest of the file and a `DWORD`. The epoll version goes on until the
  buffer is full or the file ends, the IOCP version makes a single call.
* `readsLine_alike`: the two versions of `asyn_read_line` agree always. One reads through the
  moving offset of the descriptor and seeks back over what it read too much, the other reads at the
  file's pointer and moves it over what it consumed; `Alike` is what they keep in common after each
  step.

## What the two theorems rest on

* Where the system calls return all they can, each version of `asyn_read` comes to one result
  (`inevitable_epollReads`, `inevitable_iocpReads`), and the two results are compared.
* The versions of `asyn_read_line` are compared step for step: `Alike` is a bisimulation
  (`bisimulation_alike`), so one comes to a result exactly if the other does. That there is a result
  is shown on the epoll side only (`inevitable_finished`).
-/

namespace JnetLib.File

open Epoll (OpenFile Outcome)

/-- What a read tells its caller. -/
@[ext]
structure ReadResult where
  eof : Bool
  count : ℕ
  bytes : List Byte
  deriving DecidableEq, Repr

/-- The error code reports the end of the file, or no error. -/
def Reports (eof : Bool) (ec : ErrorCode) : Prop := if eof then ec = .eof else ec.isError = false

theorem Reports.unique {a b : Bool} {ec : ErrorCode} (ha : Reports a ec) (hb : Reports b ec) :
    a = b := by
  cases a <;> cases b
  · rfl
  · have heq : ec = .eof := hb
    subst heq
    cases ha
  · have heq : ec = .eof := ha
    subst heq
    cases hb
  · rfl

/-! ### Reading a block -/

/-- The epoll version has called back with `r`. -/
def EpollReads (r : ReadResult) (s : Epoll.FileState Epoll.ReadOp) : Prop :=
  (∃ ec, s.place = .finished ec r.count ∧ Reports r.eof ec) ∧ s.op.memory.take r.count = r.bytes

/-- The IOCP version has called back with `r`. -/
def IocpReads (r : ReadResult) (s : Iocp.FileState Iocp.ReadOp) : Prop :=
  (∃ ec, s.place = .finished ec r.count ∧ Reports r.eof ec) ∧ s.memory.take r.count = r.bytes

section Block

variable {F : List Byte} {p len : ℕ}

theorem EpollReads.stays {r : ReadResult} (s : Epoll.FileState Epoll.ReadOp) (h : EpollReads r s)
    (e : Epoll.FileEvent) : Epoll.ReadOp.step s e = none := by
  obtain ⟨⟨ec, hp, -⟩, -⟩ := h
  cases e <;> simp [Epoll.ReadOp.step, Epoll.FileState.step, hp]

/-- The callback tells one result. -/
theorem EpollReads.unique {r r' : ReadResult} {s : Epoll.FileState Epoll.ReadOp}
    (h : EpollReads r s) (h' : EpollReads r' s) : r = r' := by
  obtain ⟨⟨ec, hp, hec⟩, hbytes⟩ := h
  obtain ⟨⟨ec', hp', hec'⟩, hbytes'⟩ := h'
  obtain ⟨rfl, hcount⟩ : ec = ec' ∧ r.count = r'.count := by simpa [hp] using hp'
  exact ReadResult.ext (hec.unique hec') hcount (by rw [← hbytes, ← hbytes', hcount])

theorem IocpReads.stays {r : ReadResult} (s : Iocp.FileState Iocp.ReadOp) (h : IocpReads r s)
    (e : Iocp.FileEvent) : Iocp.ReadOp.step s e = none := by
  obtain ⟨⟨ec, hp, -⟩, -⟩ := h
  exact Iocp.FileState.step_of_finished hp e

theorem IocpReads.unique {r r' : ReadResult} {s : Iocp.FileState Iocp.ReadOp}
    (h : IocpReads r s) (h' : IocpReads r' s) : r = r' := by
  obtain ⟨⟨ec, hp, hec⟩, hbytes⟩ := h
  obtain ⟨⟨ec', hp', hec'⟩, hbytes'⟩ := h'
  obtain ⟨rfl, hcount⟩ : ec = ec' ∧ r.count = r'.count := by simpa [hp] using hp'
  exact ReadResult.ext (hec.unique hec') hcount (by rw [← hbytes, ← hbytes', hcount])

/-- What the epoll version comes to: all there is up to the length, and the end of the file when
that is less. -/
theorem inevitable_epollReads (F : List Byte) (p len : ℕ) :
    Transition.Inevitable Epoll.ReadOp.step (Epoll.FileState.Full Epoll.ReadOp.room)
      (EpollReads ⟨decide (F.length - p < len), min len (F.length - p), (F.drop p).take len⟩)
      (Epoll.ReadOp.asynRead ⟨F, p⟩ len) := by
  refine (Epoll.ReadOp.inevitable_read Epoll.ReadOp.answers_full F p len).mono ?_
  rintro s ⟨⟨ec, hp, hec⟩, hmemory, -⟩
  have hlen : ((F.drop p).take len).length = min len (F.length - p) := by
    rw [List.length_take, List.length_drop]
  rw [List.length_drop] at hec
  refine ⟨⟨ec, by rw [hp, hlen], ?_⟩, ?_⟩
  · rcases Nat.lt_or_ge (F.length - p) len with hlt | hge
    · rw [if_neg (by omega)] at hec
      rw [decide_eq_true hlt]
      exact hec
    · rw [if_pos hge] at hec
      rw [decide_eq_false (by omega)]
      exact hec
  · rw [hmemory]
    show ((F.drop p).take len).take (min len (F.length - p)) = _
    rw [← hlen, List.take_length]

/-- What the IOCP version comes to: what a single call returns. -/
theorem inevitable_iocpReads (F : List Byte) (p : ℕ) (hlen : 1 ≤ len) :
    Transition.Inevitable Iocp.ReadOp.step Iocp.FileState.Full
      (IocpReads ⟨decide (F.length - p = 0), min (toUInt32 len) (F.length - p),
        (F.drop p).take (toUInt32 len)⟩)
      (Iocp.ReadOp.asynRead ⟨F, p⟩ len) := by
  obtain ⟨o, ho⟩ : ∃ o, o = Iocp.readFile (toUInt32 len) (F.length - p) := ⟨_, rfl⟩
  have hleft : (F.drop p).length = F.length - p := List.length_drop
  have hkernel : (Iocp.ReadOp.asynRead ⟨F, p⟩ len).Full (.kernel o) ∧
      Iocp.ReadOp.step (Iocp.ReadOp.asynRead ⟨F, p⟩ len) (.kernel o) =
        some ((Iocp.ReadOp.asynRead ⟨F, p⟩ len).serviceRead 0 len o) := by
    rw [ho, ← hleft]
    exact Iocp.FileState.step_kernel rfl
  have hread : (Iocp.ReadOp.asynRead ⟨F, p⟩ len).serviceRead 0 len o =
      { Iocp.ReadOp.asynRead ⟨F, p⟩ len with
        memory := (F.drop p).take o.moved
        place := .completed (Iocp.completionError o) o.moved } := by
    rw [Iocp.FileState.serviceRead, if_neg (by omega)]
    show Iocp.FileState.mk _ ([].take 0 ++ (F.drop p).take o.moved ++ [].drop _) _ _ = _
    rw [List.take_nil, List.nil_append, List.drop_nil, List.append_nil]
  rw [hread] at hkernel
  refine .of_runsTo (fun _ _ _ _ _ ha hb ht hu ↦ Iocp.FileState.full_unique ha hb ht hu)
    (.head hkernel.1 hkernel.2 (.head (Iocp.FileState.Full.dispatch _) rfl (.refl _))) ?_
  rcases Nat.eq_zero_or_pos (F.length - p) with hz | hpos
  · -- nothing is left: `ERROR_HANDLE_EOF`
    rw [hz, Iocp.readFile, if_pos rfl] at ho
    have hnil : F.drop p = [] := List.length_eq_zero_iff.1 (hleft.trans hz)
    subst ho
    rw [hz, hnil, decide_eq_true rfl, Nat.min_zero, List.take_nil]
    exact ⟨⟨.eof, rfl, rfl⟩, rfl⟩
  · -- the request, or what is left
    rw [Iocp.readFile, if_neg (by omega)] at ho
    subst ho
    rw [decide_eq_false (by omega)]
    refine ⟨⟨.system 0, rfl, rfl⟩, ?_⟩
    show ((F.drop p).take (min (toUInt32 len) (F.length - p))).take
      (min (toUInt32 len) (F.length - p)) = (F.drop p).take (toUInt32 len)
    rw [List.take_take, Nat.min_self, ← hleft, List.take_eq_take_iff]
    omega

/-- **Reading a block.** The two versions of `asyn_read` come to the same exactly at the end of the
file, and for lengths that fit both what is left and a `DWORD`. -/
theorem reads_alike_iff (F : List Byte) (p len : ℕ) (hlen : 1 ≤ len) :
    (∃ r, Transition.Inevitable Epoll.ReadOp.step (Epoll.FileState.Full Epoll.ReadOp.room)
        (EpollReads r) (Epoll.ReadOp.asynRead ⟨F, p⟩ len) ∧
      Transition.Inevitable Iocp.ReadOp.step Iocp.FileState.Full (IocpReads r)
        (Iocp.ReadOp.asynRead ⟨F, p⟩ len)) ↔
      F.length - p = 0 ∨ len ≤ F.length - p ∧ len < 2 ^ 32 := by
  have hepoll := inevitable_epollReads F p len
  have hiocp := inevitable_iocpReads F p hlen
  constructor
  · rintro ⟨r, he, hi⟩
    obtain ⟨s, -, hs, hs'⟩ := (he.and EpollReads.stays EpollReads.stays hepoll).exists_runsTo
    obtain ⟨t, -, ht, ht'⟩ := (hi.and IocpReads.stays IocpReads.stays hiocp).exists_runsTo
    have heq := (hs.unique hs').symm.trans (ht.unique ht')
    rw [ReadResult.mk.injEq, decide_eq_decide] at heq
    obtain ⟨heof, hcount, -⟩ := heq
    by_cases hz : F.length - p = 0
    · exact .inl hz
    · -- neither reports the end of the file, so the counts are the lengths asked for
      have hle : len ≤ F.length - p := by
        by_contra hlt
        exact hz (heof.1 (by omega))
      have hcount' : len = min (toUInt32 len) (F.length - p) := by omega
      have hfit : toUInt32 len = len := Nat.le_antisymm (toUInt32_le len) (by omega)
      exact .inr ⟨hle, hfit ▸ toUInt32_lt len⟩
  · intro h
    refine ⟨_, hepoll, ?_⟩
    have hsame : (⟨decide (F.length - p < len), min len (F.length - p), (F.drop p).take len⟩ :
        ReadResult) = ⟨decide (F.length - p = 0), min (toUInt32 len) (F.length - p),
          (F.drop p).take (toUInt32 len)⟩ := by
      rcases h with hz | ⟨hle, hlt⟩
      · have hnil : F.drop p = [] :=
          List.length_eq_zero_iff.1 ((List.length_drop (l := F)).trans hz)
        rw [hz, hnil, List.take_nil, List.take_nil, Nat.min_zero, Nat.min_zero, decide_eq_true rfl,
          decide_eq_true (by omega)]
      · rw [toUInt32_of_lt hlt, decide_eq_false (by omega), decide_eq_false (by omega)]
    rw [hsame]
    exact hiocp

/-- One byte of a file of two. -/
theorem reads_alike_iff_one :
    (∃ r, Transition.Inevitable Epoll.ReadOp.step (Epoll.FileState.Full Epoll.ReadOp.room)
        (EpollReads r) (Epoll.ReadOp.asynRead ⟨[65, 66], 0⟩ 1) ∧
      Transition.Inevitable Iocp.ReadOp.step Iocp.FileState.Full (IocpReads r)
        (Iocp.ReadOp.asynRead ⟨[65, 66], 0⟩ 1)) ↔
      [65, 66].length - 0 = 0 ∨ 1 ≤ [65, 66].length - 0 ∧ 1 < 2 ^ 32 :=
  reads_alike_iff [65, 66] 0 1 (by decide)

/-- Two bytes of a file of one: the epoll version reports the end of the file, the IOCP version does
not. -/
theorem not_reads_alike :
    ¬∃ r, Transition.Inevitable Epoll.ReadOp.step (Epoll.FileState.Full Epoll.ReadOp.room)
        (EpollReads r) (Epoll.ReadOp.asynRead ⟨[65], 0⟩ 2) ∧
      Transition.Inevitable Iocp.ReadOp.step Iocp.FileState.Full (IocpReads r)
        (Iocp.ReadOp.asynRead ⟨[65], 0⟩ 2) := by
  rintro ⟨r, he, hi⟩
  obtain ⟨s, -, hs, hs'⟩ := (he.and EpollReads.stays EpollReads.stays
    (inevitable_epollReads [65] 0 2)).exists_runsTo
  obtain ⟨t, -, ht, ht'⟩ := (hi.and IocpReads.stays IocpReads.stays
    (inevitable_iocpReads [65] 0 (by decide : 1 ≤ 2))).exists_runsTo
  exact absurd ((hs.unique hs').symm.trans (ht.unique ht')) (by decide)

end Block

/-! ### Reading a line -/

/-- The epoll version has called back with `r` and left the file at `position`. -/
def EpollReadsLine (r : ReadResult) (position : ℕ) (s : Epoll.ReadLineState) : Prop :=
  (∃ ec, s.place = .finished ec r.count ∧ Reports r.eof ec) ∧
    s.op.buffer.take r.count = r.bytes ∧ s.file.offset = position

/-- The IOCP version has called back with `r` and left the file at `position`. -/
def IocpReadsLine (r : ReadResult) (position : ℕ) (t : Iocp.FileState Iocp.ReadLineOp) : Prop :=
  (∃ ec, t.place = .finished ec r.count ∧ Reports r.eof ec) ∧
    t.memory.take r.count = r.bytes ∧ t.file.offset = position

/-- The two operations are at the same place of the same file, with the same bytes in memory. -/
structure SameCursor (s : Epoll.ReadLineState) (t : Iocp.FileState Iocp.ReadLineOp) : Prop where
  bufferPos : s.op.bufferPos = t.op.bufferPos
  remainLength : s.op.remainLength = t.op.remainLength
  eol : s.op.eol = t.op.eol
  incEol : s.op.incEol = t.op.incEol
  memory : s.op.buffer = t.memory
  content : s.file.content = t.file.content

/-- What the two versions keep in common. Between a read and its completion the epoll version's
offset is ahead by what was read. -/
inductive Alike (s : Epoll.ReadLineState) (t : Iocp.FileState Iocp.ReadLineOp) : Prop
  | queued (h : SameCursor s t) (hs : s.place = .queued) (ht : t.place = .issued t.op.requested)
      (hoff : s.file.offset = t.file.offset) (hflags : s.op.base.epollFlags = .clear)
      (hheld : t.op.bufferPos ≤ t.memory.length)
  | read (k : ℕ) (h : SameCursor s t) (hs : s.place = .completed)
      (ht : t.place = .completed (.system 0) k) (hpos : 0 < k) (hk : k ≤ 65536)
      (hec : s.op.base.readerError = .system 0) (hb : s.op.base.bytesTransferred = k)
      (hoff : s.file.offset = t.file.offset + k) (hheld : t.op.bufferPos + k ≤ t.memory.length)
  | nothing (ec : ErrorCode) (h : SameCursor s t) (hs : s.place = .completed)
      (ht : t.place = .completed ec 0) (hec : s.op.base.readerError.isError = false)
      (hb : s.op.base.bytesTransferred = 0) (hoff : s.file.offset = t.file.offset)
      (hroom : ec = .system Iocp.ERROR_HANDLE_EOF ∧ 0 < t.op.remainLength ∨
        ec = .noError ∧ t.op.remainLength = 0)
  | finished (eof : Bool) (n : ℕ) (hs : ∃ ec, s.place = .finished ec n ∧ Reports eof ec)
      (ht : ∃ ec, t.place = .finished ec n ∧ Reports eof ec) (hmem : s.op.buffer = t.memory)
      (hoff : s.file.offset = t.file.offset)

section Line

variable {s : Epoll.ReadLineState} {t : Iocp.FileState Iocp.ReadLineOp}

/-- The two versions ask for the same. -/
theorem SameCursor.requested (h : SameCursor s t) : s.op.requested = t.op.requested := by
  have hsize : Iocp.maxReadBufferSize = Epoll.maxReadBufferSize := rfl
  rw [Epoll.ReadLineOp.requested, Iocp.ReadLineOp.requested, h.remainLength, hsize]
  split <;> omega

theorem SameCursor.rest (h : SameCursor s t) (hoff : s.file.offset = t.file.offset) :
    s.file.rest = t.file.rest := by
  rw [OpenFile.rest, OpenFile.rest, h.content, hoff]

/-- What a read of `k` bytes leaves in memory. -/
theorem SameCursor.stored (h : SameCursor s t) (hrest : s.file.rest = t.file.rest) (k : ℕ) :
    s.op.store (s.file.rest.take k) =
      t.memory.take t.op.bufferPos ++ t.file.rest.take k ++
        t.memory.drop (t.op.bufferPos + (t.file.rest.take k).length) := by
  rw [Epoll.ReadLineOp.store, h.memory, h.bufferPos, hrest]

/-- Both operations have a step, and it keeps them alike; or neither has one. -/
def StepAlike (s : Epoll.ReadLineState) (t : Iocp.FileState Iocp.ReadLineOp) : Prop :=
  (∃ a b s' t', s.FullRead a ∧ t.Full b ∧ s.step a = some s' ∧
      Iocp.ReadLineOp.step t b = some t' ∧ Alike s' t' ∧ t'.op.eol = t.op.eol) ∨
    (∀ a, s.FullRead a → s.step a = none) ∧ ∀ b, t.Full b → Iocp.ReadLineOp.step t b = none

/-- The read of a chunk. -/
theorem stepAlike_queued (h : SameCursor s t) (hs : s.place = .queued)
    (ht : t.place = .issued t.op.requested) (hoff : s.file.offset = t.file.offset)
    (hflags : s.op.base.epollFlags = .clear) (hheld : t.op.bufferPos ≤ t.memory.length) :
    StepAlike s t := by
  have hreq := h.requested
  have hrest := h.rest hoff
  have hreq' : s.op.requested ≤ 65536 := Nat.min_le_right _ _
  have hdword : toUInt32 t.op.requested = t.op.requested := toUInt32_of_lt (by omega)
  -- `k` is the full read of one side, `o` that of the other
  obtain ⟨k, hk⟩ : ∃ k, k = min s.op.requested s.file.rest.length := ⟨_, rfl⟩
  obtain ⟨o, ho⟩ : ∃ o, o = Iocp.readFile t.op.requested t.file.rest.length := ⟨_, rfl⟩
  have hworker : s.step (.worker (.bytes k)) = some (s.op.doRead s.file (.bytes k)) :=
    if_pos ⟨hs, hk.le⟩
  have hkernel : t.Full (.kernel o) ∧ Iocp.ReadLineOp.step t (.kernel o) =
      some (t.serviceRead t.op.bufferPos t.op.requested o) := by
    have ho' : o = Iocp.readFile (toUInt32 t.op.requested) t.file.rest.length := by rw [hdword, ho]
    rw [ho']
    exact Iocp.FileState.step_kernel ht
  refine .inl ⟨.worker (.bytes k), .kernel o, _, _, congrArg Outcome.bytes hk, hkernel.1, hworker,
    hkernel.2, ?_, by rw [Iocp.FileState.serviceRead]; split <;> rfl⟩
  rcases Nat.eq_zero_or_pos t.op.requested with hz | hpos
  · -- no room in the buffer: nothing is read
    have hroom : t.op.remainLength = 0 := by
      have : min s.op.remainLength 65536 = 0 := hreq.trans hz
      have := h.remainLength
      omega
    rw [Epoll.ReadLineOp.doRead, if_neg (by omega), Iocp.FileState.serviceRead, if_pos hz]
    have hec := Epoll.Operation.readerError_onCompletion hflags .noError 0
    exact .nothing .noError ⟨h.bufferPos, h.remainLength, h.eol, h.incEol, h.memory, h.content⟩
      rfl rfl (congrArg ErrorCode.isError hec) rfl hoff (.inr ⟨rfl, hroom⟩)
  · have hroom : 0 < t.op.remainLength := by
      have : s.op.requested ≤ s.op.remainLength := Nat.min_le_left _ _
      have := h.remainLength
      omega
    rw [Epoll.ReadLineOp.doRead, if_pos (by omega), Iocp.FileState.serviceRead, if_neg (by omega)]
    have hec := Epoll.Operation.readerError_onCompletion hflags (.system 0) k
    have hbytes : toUInt32 k = k := toUInt32_of_lt (by omega)
    rcases Nat.eq_zero_or_pos t.file.rest.length with hend | hleft
    · -- the end of the file
      rw [Iocp.readFile, if_pos hend] at ho
      obtain rfl : k = 0 := by rw [hrest] at hk; omega
      subst ho
      exact .nothing (.system Iocp.ERROR_HANDLE_EOF) ⟨h.bufferPos, h.remainLength, h.eol, h.incEol,
        h.stored hrest 0, h.content⟩ rfl rfl (congrArg ErrorCode.isError hec) rfl hoff
        (.inl ⟨rfl, hroom⟩)
    · rw [Iocp.readFile, if_neg (by omega), ← hreq, ← hrest, ← hk] at ho
      have hkpos : 0 < k := by rw [hrest] at hk; omega
      have hlen : (t.file.rest.take k).length = k := by
        rw [List.length_take]
        rw [hrest] at hk
        omega
      subst ho
      refine .read k ⟨h.bufferPos, h.remainLength, h.eol, h.incEol, h.stored hrest k, h.content⟩ rfl
        rfl hkpos (by omega) hec hbytes ?_ ?_
      · show s.file.offset + k = t.file.offset + k
        rw [hoff]
      · show t.op.bufferPos + k ≤ (t.memory.take t.op.bufferPos ++ t.file.rest.take k ++
          t.memory.drop (t.op.bufferPos + (t.file.rest.take k).length)).length
        rw [List.length_append, List.length_append, List.length_take, hlen]
        omega

/-- The completion of a read at the end of the file, or of one without room. -/
theorem stepAlike_nothing {ec : ErrorCode} (h : SameCursor s t) (hs : s.place = .completed)
    (ht : t.place = .completed ec 0) (hec : s.op.base.readerError.isError = false)
    (hb : s.op.base.bytesTransferred = 0) (hoff : s.file.offset = t.file.offset)
    (hroom : ec = .system Iocp.ERROR_HANDLE_EOF ∧ 0 < t.op.remainLength ∨
      ec = .noError ∧ t.op.remainLength = 0) : StepAlike s t := by
  have hiocp : Iocp.ReadLineOp.step t .dispatch = some (Iocp.ReadLineOp.decided t (t.op,
      .finish (if ec.value = Iocp.ERROR_HANDLE_EOF then .eof else ec) t.op.bufferPos)) := by
    simp [Iocp.ReadLineOp.step, Iocp.FileState.step, ht, Iocp.ReadLineOp.onCompleteIn,
      Iocp.ReadLineOp.onComplete_of_zero]
  have hoff' : s.file.offset = t.file.offset + (t.op.filePos - t.op.filePos) := by omega
  rcases hroom with ⟨rfl, hr⟩ | ⟨rfl, hr⟩
  · have hepoll : s.step .dispatch = some ⟨s.op, s.file, .finished .eof s.op.bufferPos⟩ :=
      (if_pos hs).trans
        (Epoll.ReadLineOp.onComplete_of_zero hec hb (by rw [h.remainLength]; exact hr))
    exact .inl ⟨.dispatch, .dispatch, _, _, trivial, Iocp.FileState.Full.dispatch _, hepoll, hiocp,
      .finished true t.op.bufferPos ⟨_, by rw [h.bufferPos], rfl⟩ ⟨_, rfl, rfl⟩ h.memory hoff', rfl⟩
  · have hdone : s.op.onComplete s.file =
        some ⟨s.op, s.file, .finished s.op.base.readerError s.op.bufferPos⟩ := by
      simp [Epoll.ReadLineOp.onComplete, hec, hb, h.remainLength, hr]
    have hepoll : s.step .dispatch =
        some ⟨s.op, s.file, .finished s.op.base.readerError s.op.bufferPos⟩ :=
      (if_pos hs).trans hdone
    exact .inl ⟨.dispatch, .dispatch, _, _, trivial, Iocp.FileState.Full.dispatch _, hepoll, hiocp,
      .finished false t.op.bufferPos ⟨_, by rw [h.bufferPos], hec⟩ ⟨_, rfl, rfl⟩ h.memory hoff',
      rfl⟩

/-- The line ends in the chunk. The epoll version has read on and gives that back, the IOCP version
has taken no more than it needs. -/
theorem alike_found {k found : ℕ} (last : ℕ) (heol : 0 < t.op.eol.length) (h : SameCursor s t)
    (hfile : s.file = ⟨t.file.content, t.file.offset + k⟩) (hin : found + t.op.eol.length ≤ k)
    (hk : k ≤ 65536) :
    Alike (s.op.afterSearch s.file (.system 0) k found last)
      (Iocp.ReadLineOp.decided t (t.op.afterSearch (.system 0) k found last)) := by
  have hf : found < k := by omega
  have hback : (found : ℤ) + s.op.eol.length - k =
      -((k - (found + t.op.eol.length) : ℕ) : ℤ) := by
    rw [h.eol]
    omega
  have hseek := OpenFile.seekCurrent_neg t.file.content (t.file.offset + k)
    (k - (found + t.op.eol.length)) (by omega) (by omega)
  rw [Epoll.ReadLineOp.afterSearch_found hf (by rw [h.eol]; exact heol),
    Iocp.ReadLineOp.afterSearch_found hf heol, hback, hfile, hseek]
  refine .finished false _ ⟨.system 0, rfl, rfl⟩ ⟨.system 0, ?_, rfl⟩ h.memory ?_
  · rw [h.bufferPos, h.eol, h.incEol]
    rfl
  · show t.file.offset + k - (k - (found + t.op.eol.length)) =
      t.file.offset + (t.op.filePos + (found + t.op.eol.length) - t.op.filePos)
    omega

/-- The line does not end in the chunk: both leave out the part of the end-of-line string at its
end, and decide by the same comparison whether the file has ended. -/
theorem alike_missing {k found last : ℕ} (h : SameCursor s t)
    (hfile : s.file = ⟨t.file.content, t.file.offset + k⟩) (hf : ¬found < k) (hlast : last ≤ k)
    (hk : k ≤ 65536) (hheld : t.op.bufferPos + k ≤ t.memory.length) :
    Alike (s.op.afterSearch s.file (.system 0) k found last)
      (Iocp.ReadLineOp.decided t (t.op.afterSearch (.system 0) k found last)) := by
  have hsize : Epoll.maxReadBufferSize = Iocp.maxReadBufferSize := rfl
  have hseek := OpenFile.seekCurrent_neg t.file.content (t.file.offset + k) last (by omega)
    (by omega)
  have hoff' : t.file.offset + k - last =
      t.file.offset + (t.op.filePos + (k - last) - t.op.filePos) := by omega
  rw [Epoll.ReadLineOp.afterSearch_missing hf, Iocp.ReadLineOp.afterSearch_missing hf, hfile,
    hseek, h.remainLength, h.bufferPos, hsize]
  split
  case isTrue => exact .finished true _ ⟨.eof, rfl, rfl⟩ ⟨.eof, rfl, rfl⟩ h.memory hoff'
  case isFalse =>
    refine .queued ⟨rfl, rfl, h.eol, h.incEol, h.memory, rfl⟩ rfl rfl hoff' rfl ?_
    show t.op.bufferPos + (k - last) ≤ t.memory.length
    omega

/-- The completion of a read that returned something: both search the chunk, and then the epoll
version gives back what the IOCP version does not take. -/
theorem stepAlike_read {k : ℕ} (heol : 0 < t.op.eol.length) (h : SameCursor s t)
    (hs : s.place = .completed) (ht : t.place = .completed (.system 0) k) (hpos : 0 < k)
    (hk : k ≤ 65536) (hec : s.op.base.readerError = .system 0)
    (hb : s.op.base.bytesTransferred = k) (hoff : s.file.offset = t.file.offset + k)
    (hheld : t.op.bufferPos + k ≤ t.memory.length) : StepAlike s t := by
  obtain ⟨d, hd⟩ : ∃ d, d = (t.memory.drop t.op.bufferPos).take k := ⟨_, rfl⟩
  have hlen : d.length = k := by
    rw [hd, List.length_take, List.length_drop]
    omega
  have hchunk : s.op.chunk k = d := by
    rw [hd, Epoll.ReadLineOp.chunk, h.memory, h.bufferPos]
  have hfile : s.file = ⟨t.file.content, t.file.offset + k⟩ := by
    rw [← h.content, ← hoff]
  have hepoll : s.step .dispatch = (findEol d t.op.eol).map fun r ↦
      s.op.afterSearch s.file (.system 0) k r.1 r.2 := by
    rw [Epoll.ReadLineState.step, if_pos hs, Epoll.ReadLineOp.onComplete_of_bytes
      (by rw [hec]; rfl) (by rw [hb]; exact hpos), hb, hec, hchunk, h.eol]
  have hiocp : Iocp.ReadLineOp.step t .dispatch = ((findEol d t.op.eol).map fun r ↦
      t.op.afterSearch (.system 0) k r.1 r.2).map (Iocp.ReadLineOp.decided t) := by
    rw [← Iocp.ReadLineOp.onComplete_of_bytes rfl hpos hlen, hd]
    simp only [Iocp.ReadLineOp.step, Iocp.FileState.step, ht]
    rfl
  rcases hr : findEol d t.op.eol with - | ⟨found, last⟩
  · -- the search leaves its arrays: neither version goes on
    rw [hr] at hepoll hiocp
    refine .inr ⟨fun a _ ↦ ?_, fun b _ ↦ ?_⟩
    · cases a with
      | worker o => simp [Epoll.ReadLineState.step, hs]
      | dispatch => exact hepoll
    · cases b with
      | kernel o => simp [Iocp.ReadLineOp.step, Iocp.FileState.step, ht]
      | dispatch => exact hiocp
  · rw [hr] at hepoll hiocp
    refine .inl ⟨.dispatch, .dispatch, _, _, trivial, Iocp.FileState.Full.dispatch _, hepoll, hiocp,
      ?_, Iocp.ReadLineOp.afterSearch_eol⟩
    show Alike (s.op.afterSearch s.file (.system 0) k found last)
      (Iocp.ReadLineOp.decided t (t.op.afterSearch (.system 0) k found last))
    by_cases hf : found < k
    · have hin : found + t.op.eol.length ≤ d.length :=
        add_length_le_of_findEol (by omega) hr (by omega)
      exact alike_found last heol h hfile (hlen ▸ hin) hk
    · exact alike_missing h hfile hf (hlen ▸ snd_le_of_findEol (by omega) hr) hk hheld

/-- Alike operations step alike. -/
theorem Alike.step (heol : 0 < t.op.eol.length) (h : Alike s t) : StepAlike s t := by
  cases h with
  | queued h hs ht hoff hflags hheld => exact stepAlike_queued h hs ht hoff hflags hheld
  | read k h hs ht hpos hk hec hb hoff hheld =>
    exact stepAlike_read heol h hs ht hpos hk hec hb hoff hheld
  | nothing ec h hs ht hec hb hoff hroom => exact stepAlike_nothing h hs ht hec hb hoff hroom
  | finished eof n hs ht _ _ =>
    obtain ⟨ec, hs, -⟩ := hs
    obtain ⟨ec', ht, -⟩ := ht
    exact .inr ⟨fun a _ ↦ Epoll.ReadLineState.step_of_finished ⟨ec, n, hs⟩ a,
      fun b _ ↦ Iocp.FileState.step_of_finished ht b⟩

variable {eol : List Byte}

/-- **The simulation.** Step for step the two versions of `asyn_read_line` answer one another. -/
theorem bisimulation_alike (heol : 0 < eol.length) :
    Transition.Bisimulation Epoll.ReadLineState.step Epoll.ReadLineState.FullRead
      Iocp.ReadLineOp.step Iocp.FileState.Full fun s t ↦ Alike s t ∧ t.op.eol = eol := by
  refine .of_unique (fun _ _ _ _ _ ha hb ht hu ↦ Epoll.ReadLineState.fullRead_unique ha hb ht hu)
    (fun _ _ _ _ _ ha hb ht hu ↦ Iocp.FileState.full_unique ha hb ht hu) ?_
  rintro s t ⟨h, rfl⟩
  exact (h.step heol).imp_left fun ⟨a, b, s', t', ha, hb, hs, ht, h', heol'⟩ ↦
    ⟨a, b, s', t', ha, hb, hs, ht, h', heol'⟩

/-- Alike operations have called back with the same. -/
theorem Alike.results_iff (h : Alike s t) (r : ReadResult) (position : ℕ) :
    EpollReadsLine r position s ↔ IocpReadsLine r position t := by
  cases h with
  | queued h hs ht | read _ h hs ht | nothing _ h hs ht =>
    constructor
    · rintro ⟨⟨ec, hp, -⟩, -⟩
      simp [hs] at hp
    · rintro ⟨⟨ec, hp, -⟩, -⟩
      simp [ht] at hp
  | finished eof n hs ht hmem hoff =>
    obtain ⟨ec, hs, hec⟩ := hs
    obtain ⟨ec', ht, hec'⟩ := ht
    constructor
    · rintro ⟨⟨ec₁, hp, hec₁⟩, hbytes, hpos⟩
      obtain ⟨rfl, rfl⟩ : ec = ec₁ ∧ n = r.count := by simpa [hs] using hp
      exact ⟨⟨ec', ht, hec.unique hec₁ ▸ hec'⟩, hmem ▸ hbytes, hoff ▸ hpos⟩
    · rintro ⟨⟨ec₁, hp, hec₁⟩, hbytes, hpos⟩
      obtain ⟨rfl, rfl⟩ : ec' = ec₁ ∧ n = r.count := by simpa [ht] using hp
      exact ⟨⟨ec, hs, hec'.unique hec₁ ▸ hec⟩, hmem ▸ hbytes, hoff ▸ hpos⟩

/-- The calls start alike. -/
theorem alike_start (file : OpenFile) (len : ℕ) (eol : List Byte) (incEol : Bool) :
    Alike (.start file len eol incEol) (Iocp.ReadLineOp.asynReadLine file len eol incEol) :=
  .queued ⟨rfl, rfl, rfl, rfl, rfl, rfl⟩ rfl rfl rfl rfl (Nat.zero_le _)

/-- **Reading a line.** The two versions of `asyn_read_line` come to the same error, count, bytes
and file position; and with an end-of-line string shorter than `2 ^ 31` they do come to one. -/
theorem readsLine_alike (file : OpenFile) (len : ℕ) (incEol : Bool) (h2 : 2 ≤ eol.length) :
    (∀ r position,
      Transition.Inevitable Epoll.ReadLineState.step Epoll.ReadLineState.FullRead
        (EpollReadsLine r position) (.start file len eol incEol) ↔
      Transition.Inevitable Iocp.ReadLineOp.step Iocp.FileState.Full (IocpReadsLine r position)
        (Iocp.ReadLineOp.asynReadLine file len eol incEol)) ∧
    (eol.length < 2 ^ 31 → ∃ r position,
      Transition.Inevitable Epoll.ReadLineState.step Epoll.ReadLineState.FullRead
        (EpollReadsLine r position) (.start file len eol incEol)) := by
  have heol : 0 < eol.length := by omega
  refine ⟨fun r position ↦ (bisimulation_alike heol).inevitable_iff
    (fun s t h ↦ h.1.results_iff r position) ⟨alike_start file len eol incEol, rfl⟩, fun hw ↦ ?_⟩
  obtain ⟨s, hs, ec, n, hp, hec⟩ :=
    (Epoll.ReadLineState.inevitable_finished file len incEol h2 hw).exists_runsTo
  have hrep : Reports ec.isError ec := by
    rcases hec with hec | rfl
    · rw [hec]
      exact hec
    · rfl
  exact ⟨⟨ec.isError, n, s.op.buffer.take n⟩, s.file.offset,
    .of_runsTo (fun _ _ _ _ _ ha hb ht hu ↦ Epoll.ReadLineState.fullRead_unique ha hb ht hu) hs
      ⟨⟨ec, hp, hrep⟩, rfl, rfl⟩⟩

/-- A line of one letter. -/
theorem readsLine_alike_short :
    2 ≤ [13, 10].length ∧ ∀ r position,
      Transition.Inevitable Epoll.ReadLineState.step Epoll.ReadLineState.FullRead
        (EpollReadsLine r position) (.start ⟨[97, 13, 10], 0⟩ 3 [13, 10] false) ↔
      Transition.Inevitable Iocp.ReadLineOp.step Iocp.FileState.Full (IocpReadsLine r position)
        (Iocp.ReadLineOp.asynReadLine ⟨[97, 13, 10], 0⟩ 3 [13, 10] false) :=
  ⟨by decide, (readsLine_alike ⟨[97, 13, 10], 0⟩ 3 false (by decide)).1⟩

end Line

end JnetLib.File
