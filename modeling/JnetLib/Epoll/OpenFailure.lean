import JnetLib.Epoll.Registration

/-!
# Opening that fails

`file::open`, `file::create` and `file::advance_open` store the descriptor `::open` returns in the
object, and `socket_ops::socket` that of `::socket`. Some of them have more to do then: truncate the
file, seek to its end, register the socket with epoll. Nobody takes the descriptor back when that
fails: the call returns an error, the object stays open, and the same call is refused from then on.

`openCalls_failClosed_iff` says that this is the only way: a call on a closed object that returns an
error leaves the object as it was exactly if no step behind a successful `::open` or `::socket`
fails.

An answer of the kernel is a value or an `errno`, which is not zero; a `Kernel` has an answer for
each system call with its arguments.

## What the theorem rests on

A single `::open` leaves the object closed exactly if it fails (`file_restored`), and a step behind
it leaves an open object whether it fails or not (`restored_iff_of_step`); the three calls are put
together from these. On an object that is open already nothing is called. The error that refuses it
is not one the kernel can answer, so it is told from a failure (`run_ne_alreadyOpen`).
-/

namespace JnetLib.Epoll

/-- What the kernel sets on failure. -/
abbrev Errno := { e : ℤ // e ≠ 0 }

/-- What a system call answers. -/
abbrev Answer := Except Errno ℕ

/-- `EEXIST`. -/
def EEXIST : ℤ := 17

/-- `file::access_mode`. -/
inductive AccessMode
  | genericRead
  | genericWrite
  | genericReadWrite
  deriving DecidableEq, Repr

/-- `file::creation_mode`. -/
inductive CreationMode
  | createAlways
  | createNew
  | openAlways
  | openExisting
  | truncateExisting
  deriving DecidableEq, Repr

/-- `file::share_mode`. -/
structure ShareMode where
  delete : Bool
  read : Bool
  write : Bool
  deriving DecidableEq, Repr

/-- `file::seek_method`. -/
inductive SeekMethod
  | fromBeginning
  | fromCurrent
  | byEnd
  deriving DecidableEq, Repr

/-- The kernel's answers while a file is opened: `::open` with its path and flags, `::lseek` with
distance and method, `::ftruncate` with the length. -/
structure Kernel where
  openAt : String → AccessMode → CreationMode → Answer
  lseek : ℤ → SeekMethod → Answer
  ftruncate : ℕ → Answer

/-- The error code a failed call leaves, or none. -/
def Answer.errorCode : Answer → ErrorCode
  | .ok _ => .system 0
  | .error e => .system e.1

/-- A `file`, and the descriptors the process has open. -/
structure OpenFiles where
  fd : Option ℕ
  descriptors : List ℕ
  deriving DecidableEq, Repr

namespace OpenFiles

variable {k : Kernel} {s : OpenFiles} {name : String} {access : AccessMode} {share : ShareMode}

/-! ### The code -/

/-- The object holds a descriptor. -/
def isOpen (s : OpenFiles) : Bool := s.fd.isSome

/-- `service::file`; the share mode is not used. -/
def serviceFile (k : Kernel) (s : OpenFiles) (name : String) (access : AccessMode)
    (_share : ShareMode) (creation : CreationMode) : OpenFiles × ErrorCode :=
  match k.openAt name access creation with
  | .ok fd => (⟨some fd, fd :: s.descriptors⟩, .system 0)
  | .error e => (⟨none, s.descriptors⟩, if e.1 = EEXIST then .alreadyExists else .system e.1)

/-- `file_ops::file`. -/
def file (k : Kernel) (s : OpenFiles) (name : String) (access : AccessMode) (share : ShareMode)
    (creation : CreationMode) : OpenFiles × ErrorCode :=
  if s.isOpen then (s, .alreadyOpen) else serviceFile k s name access share creation

/-- `file::seek` without a place for the new position. -/
def seek (k : Kernel) (distance : ℤ) (method : SeekMethod) : ErrorCode :=
  (k.lseek distance method).errorCode

/-- `service::set_eof`. -/
def setEof (k : Kernel) : ErrorCode :=
  match k.lseek 0 .fromCurrent with
  | .ok off => (k.ftruncate off).errorCode
  | .error e => .system e.1

/-- `file::truncate`. -/
def truncate (k : Kernel) : ErrorCode :=
  let ec := seek k 0 .fromBeginning
  if !ec.isError then setEof k else ec

/-- `file::advance_open`. -/
def advanceOpen (k : Kernel) (s : OpenFiles) (name : String) (access : AccessMode)
    (share : ShareMode) (creation : CreationMode) : OpenFiles × ErrorCode :=
  file k s name access share creation

/-- `file::create`. -/
def create (k : Kernel) (s : OpenFiles) (name : String) (createAnyway truncate append : Bool)
    (access : AccessMode) (share : ShareMode) : OpenFiles × ErrorCode :=
  if !createAnyway then file k s name access share .createNew
  else if truncate then file k s name access share .createAlways
  else
    let r := file k s name access share .createNew
    if r.2.isError && r.2.value == ErrorCode.alreadyExists.value then
      let r := file k r.1 name access share .openExisting
      if append && !r.2.isError then (r.1, seek k 0 .byEnd) else r
    else r

/-- `file::open`. -/
def open_ (k : Kernel) (s : OpenFiles) (name : String) (openAnyway truncate append : Bool)
    (access : AccessMode) (share : ShareMode) : OpenFiles × ErrorCode :=
  if !openAnyway && truncate then file k s name access share .truncateExisting
  else
    let r := file k s name access share (if openAnyway then .openAlways else .openExisting)
    if r.2.isError then r
    else if truncate then (r.1, OpenFiles.truncate k)
    else if append then (r.1, seek k 0 .byEnd)
    else r

end OpenFiles

/-- The calls that open a file, with their arguments. -/
inductive FileCall
  | advanceOpen (access : AccessMode) (share : ShareMode) (creation : CreationMode)
  | create (createAnyway truncate append : Bool) (access : AccessMode) (share : ShareMode)
  | open_ (openAnyway truncate append : Bool) (access : AccessMode) (share : ShareMode)

/-- The call on a path. -/
def FileCall.run (name : String) (k : Kernel) (s : OpenFiles) : FileCall → OpenFiles × ErrorCode
  | .advanceOpen access share creation => s.advanceOpen k name access share creation
  | .create createAnyway truncate append access share =>
    s.create k name createAnyway truncate append access share
  | .open_ openAnyway truncate append access share =>
    s.open_ k name openAnyway truncate append access share

/-- The first `::open` of `create` finds the file there, or takes an `errno` with the value of
`already_exists` for that. -/
def Answer.takenForExisting : Answer → Bool
  | .ok _ => false
  | .error e => e.1 == EEXIST || e.1 == ErrorCode.alreadyExists.value

/-- The kernel lets the file be truncated: it goes to the beginning, tells the position, and cuts
there. -/
def Kernel.Truncates (k : Kernel) : Prop :=
  (k.lseek 0 .fromBeginning).isOk = true ∧
    ∃ off, k.lseek 0 .fromCurrent = .ok off ∧ (k.ftruncate off).isOk = true

/-- No step behind a successful `::open` fails. -/
def FileCall.StepsSucceed (name : String) (k : Kernel) : FileCall → Prop
  | .advanceOpen _ _ _ => True
  | .create createAnyway truncate append access _ =>
    createAnyway = true → truncate = false → append = true →
      (k.openAt name access .createNew).takenForExisting = true →
      (k.openAt name access .openExisting).isOk = true → (k.lseek 0 .byEnd).isOk = true
  | .open_ openAnyway truncate append access _ =>
    (!openAnyway && truncate) = false →
      (k.openAt name access (if openAnyway then .openAlways else .openExisting)).isOk = true →
      if truncate then k.Truncates else append = true → (k.lseek 0 .byEnd).isOk = true

/-- What a call that opens an object owes its caller, on the answers `k`: if it fails on a closed
object, that is as before, and the next call is not refused; an open object is left alone. -/
structure FailsClosed {σ κ : Type*} (isOpen : σ → Bool) (call : κ → σ → σ × ErrorCode) (k : κ)
    (s : σ) : Prop where
  restored : isOpen s = false → (call k s).2.isError = true → (call k s).1 = s
  again : isOpen s = false → (call k s).2.isError = true →
    ∀ k', (call k' (call k s).1).2 ≠ .alreadyOpen
  refused : isOpen s = true → call k s = (s, .alreadyOpen)

/-! ### Files -/

theorem Answer.isError_errorCode (a : Answer) : a.errorCode.isError = !a.isOk := by
  cases a with
  | ok _ => rfl
  | error e =>
    show (e.1 != 0) = true
    exact bne_iff_ne.2 e.2

theorem Answer.errorCode_ne_alreadyOpen (a : Answer) : a.errorCode ≠ .alreadyOpen := by
  cases a <;> exact ErrorCode.system_ne_alreadyOpen _

namespace OpenFiles

variable {k : Kernel} {s t : OpenFiles} {name : String} {access : AccessMode} {share : ShareMode}
  {creation : CreationMode}

theorem file_of_open (h : s.isOpen = true) : file k s name access share creation =
    (s, .alreadyOpen) := if_pos h

/-- A failed `::open` leaves the object closed. -/
theorem file_of_error {e : Errno} (h : s.isOpen = false)
    (hk : k.openAt name access creation = .error e) :
    file k s name access share creation =
      (s, if e.1 = EEXIST then .alreadyExists else .system e.1) := by
  have hfd : s = ⟨none, s.descriptors⟩ := by
    obtain ⟨fd, descriptors⟩ := s
    cases fd with
    | none => rfl
    | some _ => cases h
  rw [file, h, if_neg Bool.false_ne_true, serviceFile, hk]
  dsimp only
  rw [← hfd]

/-- A successful one does not. -/
theorem file_of_ok {fd : ℕ} (h : s.isOpen = false) (hk : k.openAt name access creation = .ok fd) :
    file k s name access share creation = (⟨some fd, fd :: s.descriptors⟩, .system 0) := by
  rw [file, h, if_neg Bool.false_ne_true, serviceFile, hk]

theorem isError_file (h : s.isOpen = false) :
    (file k s name access share creation).2.isError = !(k.openAt name access creation).isOk := by
  rcases hk : k.openAt name access creation with e | fd
  · rw [file_of_error h hk]
    dsimp only
    split
    · rfl
    · exact bne_iff_ne.2 e.2
  · rw [file_of_ok h hk]
    rfl

theorem file_ne_alreadyOpen (h : s.isOpen = false) :
    (file k s name access share creation).2 ≠ .alreadyOpen := by
  rcases hk : k.openAt name access creation with e | fd
  · rw [file_of_error h hk]
    dsimp only
    split
    · decide
    · exact ErrorCode.system_ne_alreadyOpen _
  · rw [file_of_ok h hk]
    exact ErrorCode.system_ne_alreadyOpen _

theorem isError_truncate : (truncate k).isError = false ↔ k.Truncates := by
  rw [truncate, seek, Answer.isError_errorCode]
  rcases hb : (k.lseek 0 .fromBeginning).isOk with - | -
  · refine ⟨fun h ↦ ?_, fun h ↦ absurd (hb.symm.trans h.1) Bool.false_ne_true⟩
    rw [Bool.not_false, Bool.not_true, if_neg Bool.false_ne_true, Answer.isError_errorCode, hb] at h
    cases h
  · rw [Bool.not_true, Bool.not_false, if_pos rfl, setEof]
    rcases hc : k.lseek 0 .fromCurrent with e | off
    · refine ⟨fun h ↦ absurd h ?_, fun ⟨_, off, hoff, _⟩ ↦ ?_⟩
      · simpa using e.2
      · cases hc.symm.trans hoff
    · dsimp only
      rw [Answer.isError_errorCode, Bool.not_eq_false']
      refine ⟨fun h ↦ ⟨hb, off, hc, h⟩, fun ⟨_, off', hoff, h⟩ ↦ ?_⟩
      obtain rfl := Except.ok.inj (hc.symm.trans hoff)
      exact h

theorem truncate_ne_alreadyOpen : truncate k ≠ .alreadyOpen := by
  rw [truncate, setEof]
  split
  · split
    · exact Answer.errorCode_ne_alreadyOpen _
    · exact ErrorCode.system_ne_alreadyOpen _
  · exact Answer.errorCode_ne_alreadyOpen _

/-- The error code of the first `::open` of `create` is the one it looks for. -/
theorem takenForExisting_iff (h : s.isOpen = false) :
    ((file k s name access share creation).2.isError &&
      (file k s name access share creation).2.value == ErrorCode.alreadyExists.value) =
        (k.openAt name access creation).takenForExisting := by
  rcases hk : k.openAt name access creation with e | fd
  · rw [file_of_error h hk, Answer.takenForExisting]
    dsimp only
    by_cases he : e.1 = EEXIST
    · rw [if_pos he, he]
      rfl
    · have herr : (ErrorCode.system e.1).isError = true := bne_iff_ne.2 e.2
      rw [if_neg he, herr, beq_false_of_ne he]
      rfl
  · rw [file_of_ok h hk]
    rfl

/-- What a single `::open` leaves. -/
theorem file_restored (h : s.isOpen = false)
    (herr : (file k s name access share creation).2.isError = true) :
    (file k s name access share creation).1 = s := by
  rcases hk : k.openAt name access creation with e | fd
  · rw [file_of_error h hk]
  · rw [isError_file h, hk] at herr
    cases herr

/-- A step behind a successful `::open`: whether it fails decides what is left. -/
theorem restored_iff_of_step (h : s.isOpen = false)
    (hok : (k.openAt name access creation).isOk = true) (ec : ErrorCode) :
    (ec.isError = true → (file k s name access share creation).1 = s) ↔ ec.isError = false := by
  refine ⟨fun hr ↦ ?_, fun hec herr ↦ absurd (hec.symm.trans herr) Bool.false_ne_true⟩
  by_contra hec
  have hfile := hr (Bool.eq_true_of_not_eq_false hec)
  rcases hk : k.openAt name access creation with e | fd
  · rw [hk] at hok
    cases hok
  · rw [file_of_ok h hk] at hfile
    rw [← hfile] at h
    cases h

theorem create_restored_iff (h : s.isOpen = false) {createAnyway truncate append : Bool} :
    ((create k s name createAnyway truncate append access share).2.isError = true →
      (create k s name createAnyway truncate append access share).1 = s) ↔
    (FileCall.create createAnyway truncate append access share).StepsSucceed name k := by
  rw [create]
  cases createAnyway with
  | false => exact iff_of_true (file_restored h) fun hc ↦ by cases hc
  | true =>
    cases truncate with
    | true => exact iff_of_true (file_restored h) fun _ ht ↦ by cases ht
    | false =>
      rw [Bool.not_true, if_neg Bool.false_ne_true, if_neg Bool.false_ne_true]
      dsimp only
      rw [takenForExisting_iff h]
      rcases htaken : (k.openAt name access .createNew).takenForExisting with - | -
      · rw [if_neg Bool.false_ne_true]
        exact iff_of_true (file_restored h)
          fun _ _ _ ht ↦ absurd (htaken.symm.trans ht) Bool.false_ne_true
      · -- the file is there: the second `::open` finds the object as it was
        have hfirst : (file k s name access share .createNew).1 = s := by
          refine file_restored h ?_
          have hboth := @takenForExisting_iff k s name access share .createNew h
          rw [htaken] at hboth
          exact (Bool.and_eq_true_iff.1 hboth).1
        rw [if_pos rfl, hfirst, isError_file h, Bool.not_not]
        rcases hok : (k.openAt name access .openExisting).isOk with - | -
        · rw [Bool.and_false, if_neg Bool.false_ne_true]
          exact iff_of_true (file_restored h)
            fun _ _ _ _ ho ↦ absurd (hok.symm.trans ho) Bool.false_ne_true
        · cases append with
          | false =>
            exact iff_of_true (file_restored h) fun _ _ ha ↦ by cases ha
          | true =>
            rw [Bool.and_self, if_pos rfl]
            rw [restored_iff_of_step h hok, seek, Answer.isError_errorCode, Bool.not_eq_false']
            exact ⟨fun hs _ _ _ _ _ ↦ hs, fun hs ↦ hs rfl rfl rfl htaken hok⟩

theorem open_restored_iff (h : s.isOpen = false) {openAnyway truncate append : Bool} :
    ((open_ k s name openAnyway truncate append access share).2.isError = true →
      (open_ k s name openAnyway truncate append access share).1 = s) ↔
    (FileCall.open_ openAnyway truncate append access share).StepsSucceed name k := by
  rw [open_]
  rcases hdirect : (!openAnyway && truncate) with - | -
  · rw [if_neg Bool.false_ne_true]
    dsimp only
    rw [isError_file h]
    rcases hok : (k.openAt name access (if openAnyway then .openAlways else .openExisting)).isOk
      with - | -
    · rw [Bool.not_false, if_pos rfl]
      exact iff_of_true (file_restored h)
        fun _ ho ↦ absurd (hok.symm.trans ho) Bool.false_ne_true
    · rw [Bool.not_true, if_neg Bool.false_ne_true]
      cases truncate with
      | true =>
        rw [if_pos rfl, restored_iff_of_step h hok, isError_truncate]
        exact ⟨fun ht _ _ ↦ ht, fun ht ↦ ht hdirect hok⟩
      | false =>
        rw [if_neg Bool.false_ne_true]
        cases append with
        | true =>
          rw [if_pos rfl, restored_iff_of_step h hok, seek, Answer.isError_errorCode,
            Bool.not_eq_false']
          exact ⟨fun hs _ _ _ ↦ hs, fun hs ↦ hs hdirect hok rfl⟩
        | false => exact iff_of_true (file_restored h) fun _ _ ha ↦ by cases ha
  · exact iff_of_true (file_restored h) fun hd ↦ absurd (hdirect.symm.trans hd) (by decide)

end OpenFiles

namespace FileCall

variable {k : Kernel} {s : OpenFiles} {name : String}

/-- **What is left after an error.** -/
theorem restored_iff (call : FileCall) (h : s.isOpen = false) :
    ((call.run name k s).2.isError = true → (call.run name k s).1 = s) ↔
      call.StepsSucceed name k := by
  cases call with
  | advanceOpen => exact iff_of_true (OpenFiles.file_restored h) trivial
  | create => exact OpenFiles.create_restored_iff h
  | open_ => exact OpenFiles.open_restored_iff h

/-- An open object is refused and left alone. -/
theorem run_of_open (call : FileCall) (h : s.isOpen = true) :
    call.run name k s = (s, .alreadyOpen) := by
  have hfile : ∀ access share creation,
      OpenFiles.file k s name access share creation = (s, .alreadyOpen) :=
    fun _ _ _ ↦ OpenFiles.file_of_open h
  cases call with
  | advanceOpen access share creation => exact hfile access share creation
  | create createAnyway truncate append access share =>
    rw [run, OpenFiles.create]
    simp only [hfile]
    cases createAnyway <;> cases truncate <;> rfl
  | open_ openAnyway truncate append access share =>
    rw [run, OpenFiles.open_]
    simp only [hfile]
    cases openAnyway <;> cases truncate <;> rfl

/-- A closed one is not refused. -/
theorem run_ne_alreadyOpen (call : FileCall) (h : s.isOpen = false) :
    (call.run name k s).2 ≠ .alreadyOpen := by
  have hfile : ∀ access share creation,
      (OpenFiles.file k s name access share creation).2 ≠ .alreadyOpen :=
    fun _ _ _ ↦ OpenFiles.file_ne_alreadyOpen h
  have hseek : ∀ distance method, OpenFiles.seek k distance method ≠ .alreadyOpen :=
    fun _ _ ↦ Answer.errorCode_ne_alreadyOpen _
  cases call with
  | advanceOpen access share creation => exact hfile access share creation
  | create createAnyway truncate append access share =>
    rw [run, OpenFiles.create]
    split_ifs
    · exact hfile _ _ _
    · exact hfile _ _ _
    · dsimp only
      split_ifs with htaken
      · exact hseek _ _
      · -- the object is still closed when it is opened again
        rw [OpenFiles.file_restored h (Bool.and_eq_true_iff.1 htaken).1]
        exact hfile _ _ _
      · exact hfile _ _ _
  | open_ openAnyway truncate append access share =>
    rw [run, OpenFiles.open_]
    generalize (if openAnyway then CreationMode.openAlways else .openExisting) = creation
    split
    · exact hfile _ _ _
    · dsimp only
      split_ifs
      · exact hfile _ _ _
      · exact OpenFiles.truncate_ne_alreadyOpen
      · exact hseek _ _
      · exact hfile _ _ _

end FileCall

/-! ### Both kinds of object -/

/-- The contract on an object that is closed, from what a failed call leaves. -/
theorem failsClosed_iff_of_closed {σ κ : Type*} {isOpen : σ → Bool} {call : κ → σ → σ × ErrorCode}
    {k : κ} {s : σ} (h : isOpen s = false) (hne : ∀ k', (call k' s).2 ≠ .alreadyOpen) :
    FailsClosed isOpen call k s ↔ ((call k s).2.isError = true → (call k s).1 = s) := by
  refine ⟨fun hc ↦ hc.restored h, fun hr ↦ ⟨fun _ ↦ hr, fun _ herr k' ↦ ?_, fun ho ↦ ?_⟩⟩
  · rw [hr herr]
    exact hne k'
  · exact absurd (h.symm.trans ho) Bool.false_ne_true

/-- On an object that is open the contract is that the call is refused. -/
theorem failsClosed_of_open {σ κ : Type*} {isOpen : σ → Bool} {call : κ → σ → σ × ErrorCode}
    {k : κ} {s : σ} (h : isOpen s = true) (hr : call k s = (s, .alreadyOpen)) :
    FailsClosed isOpen call k s :=
  ⟨fun hc ↦ absurd (hc.symm.trans h) Bool.false_ne_true,
    fun hc ↦ absurd (hc.symm.trans h) Bool.false_ne_true, fun _ ↦ hr⟩

theorem FileCall.failsClosed_iff (call : FileCall) (name : String) (k : Kernel) (s : OpenFiles) :
    FailsClosed OpenFiles.isOpen (fun k s ↦ call.run name k s) k s ↔
      s.isOpen = true ∨ call.StepsSucceed name k := by
  rcases h : s.isOpen with - | -
  · rw [failsClosed_iff_of_closed h fun k' ↦ call.run_ne_alreadyOpen h, call.restored_iff h]
    exact ⟨.inr, fun h' ↦ h'.resolve_left Bool.false_ne_true⟩
  · exact iff_of_true (failsClosed_of_open h (call.run_of_open h)) (.inl rfl)

/-- `socket_base::open` with the answers to `::socket` and to the `epoll_ctl` behind it. -/
def openSocket {ω : Type} (k : Answer × Answer) (s : Endpoint ω) : Endpoint ω × ErrorCode :=
  s.open_ k.1.errorCode.value k.2.errorCode.value

theorem Answer.errorCode_value_eq_zero (a : Answer) : a.errorCode.value = 0 ↔ a.isOk = true := by
  have h := a.isError_errorCode
  rw [ErrorCode.isError] at h
  rcases ha : a.isOk with - | -
  · rw [ha] at h
    exact iff_of_false (bne_iff_ne.1 h) Bool.false_ne_true
  · rw [ha] at h
    exact iff_of_true (by simpa using h) rfl

theorem openSocket_failsClosed_iff {ω : Type} (k : Answer × Answer) (s : Endpoint ω) :
    FailsClosed Endpoint.isOpen openSocket k s ↔
      s.isOpen = true ∨ (k.1.isOk = true → k.2.isOk = true) := by
  rcases h : s.isOpen with - | -
  · have hne : ∀ k' : Answer × Answer, (openSocket k' s).2 ≠ .alreadyOpen := by
      intro k'
      rw [openSocket, Endpoint.open_, h, if_neg Bool.false_ne_true]
      split <;> exact ErrorCode.system_ne_alreadyOpen _
    rw [failsClosed_iff_of_closed h hne, openSocket, Endpoint.open_, h,
      if_neg Bool.false_ne_true]
    rcases hsocket : k.1.isOk with - | -
    · rw [if_pos fun h' ↦
        Bool.false_ne_true (hsocket.symm.trans (k.1.errorCode_value_eq_zero.1 h'))]
      exact iff_of_true (fun _ ↦ rfl) (.inr fun hf ↦ absurd hf Bool.false_ne_true)
    · rw [if_neg (not_not_intro (k.1.errorCode_value_eq_zero.2 hsocket))]
      have hec : (ErrorCode.system k.2.errorCode.value).isError = !k.2.isOk :=
        k.2.isError_errorCode
      dsimp only
      rw [hec]
      rcases hregister : k.2.isOk with - | -
      · -- the socket stays open
        refine iff_of_false (fun hr ↦ ?_) fun h' ↦ ?_
        · rw [if_neg fun h' ↦
            Bool.false_ne_true (hregister.symm.trans (k.2.errorCode_value_eq_zero.1 h'))] at hr
          exact absurd (h.symm.trans (congrArg Endpoint.isOpen (hr rfl)).symm) Bool.false_ne_true
        · exact h'.elim Bool.false_ne_true fun h' ↦ Bool.false_ne_true (h' rfl)
      · exact iff_of_true (fun hr ↦ absurd hr Bool.false_ne_true) (.inr fun _ ↦ rfl)
  · exact iff_of_true (failsClosed_of_open h (by rw [openSocket, Endpoint.open_, if_pos h]))
      (.inl rfl)

/-- **A failed open leaves the object closed** exactly if no step behind a successful `::open`
or `::socket` fails. -/
theorem openCalls_failClosed_iff {ω : Type} :
    (∀ (call : FileCall) (name : String) (k : Kernel) (s : OpenFiles),
      FailsClosed OpenFiles.isOpen (fun k s ↦ call.run name k s) k s ↔
        s.isOpen = true ∨ call.StepsSucceed name k) ∧
    ∀ (k : Answer × Answer) (s : Endpoint ω),
      FailsClosed Endpoint.isOpen openSocket k s ↔
        s.isOpen = true ∨ (k.1.isOk = true → k.2.isOk = true) :=
  ⟨FileCall.failsClosed_iff, openSocket_failsClosed_iff⟩

/-- A kernel that opens every file and refuses to cut one that was opened for reading. -/
def readOnlyKernel : Kernel where
  openAt _ _ _ := .ok 3
  lseek _ _ := .ok 0
  ftruncate _ := .error ⟨22, by decide⟩

/-- A file to be truncated, opened for reading; and a socket that cannot be registered. Both stay
open behind the error, and the same call is refused. -/
theorem not_failsClosed_readOnly :
    (FileCall.open_ true true false .genericRead ⟨false, true, false⟩).run "f" readOnlyKernel
      ⟨none, []⟩ = (⟨some 3, [3]⟩, .system 22) ∧
    (FileCall.open_ true true false .genericRead ⟨false, true, false⟩).run "f" readOnlyKernel
      ⟨some 3, [3]⟩ = (⟨some 3, [3]⟩, .alreadyOpen) ∧
    ¬FailsClosed OpenFiles.isOpen (fun k s ↦
      (FileCall.open_ true true false .genericRead ⟨false, true, false⟩).run "f" k s)
      readOnlyKernel ⟨none, []⟩ ∧
    ¬FailsClosed Endpoint.isOpen openSocket (.ok 3, .error ⟨28, by decide⟩)
      { Endpoint.fresh with isOpen := false } := by
  refine ⟨rfl, rfl, fun h ↦ ?_, fun h ↦ ?_⟩
  · cases congrArg OpenFiles.fd (h.restored rfl rfl)
  · cases congrArg Endpoint.isOpen (h.restored rfl rfl)

end JnetLib.Epoll
