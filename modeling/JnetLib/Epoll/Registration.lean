import JnetLib.Epoll.Operation
import JnetLib.Epoll.Service

/-!
# Registering an operation with epoll

The functions that put an operation into a slot of a socket and ask the kernel for its event:
`begin_accept`, `begin_recv`, `begin_send` and `begin_connect`. Each fills the slot and counts the
operation before it knows whether the kernel will report anything, and `wait_for_epollin` and
`wait_for_epollout` set the bit of the mask before they call `epoll_ctl`.

Here these functions run in one go, on one socket and the parts of the service it uses, with the
answers of the kernel as arguments: `0`, or the value of `errno`. What is left in the slot and the
mask after a failure is the subject.
-/

namespace JnetLib.Epoll

/-- A socket, and of its service the counter, the list of completed operations and the result
fields of the operations. `interest` is what the kernel has been told. -/
structure Endpoint (ω : Type*) where
  isOpen : Bool
  slots : Dir → Option ω
  mask : Dir → Bool
  interest : Dir → Bool
  ops : ω → Operation
  completedOps : List ω
  outstandingWork : ℤ

namespace Endpoint

variable {ω : Type*} [DecidableEq ω]

/-! ### The code -/

/-- `set_in_op` and `set_out_op`. -/
def setOp (s : Endpoint ω) (d : Dir) (x : Option ω) : Endpoint ω :=
  { s with slots := Function.update s.slots d x }

/-- `service::work_started`. -/
def workStarted (s : Endpoint ω) : Endpoint ω := { s with outstandingWork := s.outstandingWork + 1 }

/-- `service::on_completion`. -/
def onCompletion (s : Endpoint ω) (x : ω) (ec : ErrorCode) (bytes : ℕ) : Endpoint ω :=
  { s with
    ops := Function.update s.ops x ((s.ops x).onCompletion ec bytes)
    completedOps := s.completedOps ++ [x] }

/-- `service::modify_event`, which tells the kernel what the mask says. -/
def modifyEvent (s : Endpoint ω) (errno : ℤ) : Endpoint ω × ErrorCode :=
  (if errno = 0 then { s with interest := s.mask } else s, .system errno)

/-- The common body of `service::wait_for_epollin` and `service::wait_for_epollout`. A bit of the
mask that is set already stands for a registration made before. -/
def waitFor (s : Endpoint ω) (d : Dir) (x : ω) (errno : ℤ) : Endpoint ω × Bool :=
  if s.mask d then (s, true)
  else
    let r := { s with mask := Function.update s.mask d true }.modifyEvent errno
    if r.2.isError then (r.1.onCompletion x r.2 0, false) else (r.1, true)

/-- `service::wait_for_epollin`. -/
def waitForEpollin (s : Endpoint ω) (x : ω) (errno : ℤ) : Endpoint ω × Bool :=
  s.waitFor .input x errno

/-- `service::wait_for_epollout`. -/
def waitForEpollout (s : Endpoint ω) (x : ω) (errno : ℤ) : Endpoint ω × Bool :=
  s.waitFor .output x errno

/-- `socket_ops::begin_accept`. -/
def beginAccept (s : Endpoint ω) (x : ω) (errno : ℤ) : Endpoint ω :=
  ((s.setOp .input (some x)).workStarted.waitForEpollin x errno).1

/-- `socket_ops::begin_recv`. -/
def beginRecv (s : Endpoint ω) (x : ω) (errno : ℤ) : Endpoint ω :=
  ((s.setOp .input (some x)).workStarted.waitForEpollin x errno).1

/-- `socket_ops::begin_send`. -/
def beginSend (s : Endpoint ω) (x : ω) (errno : ℤ) : Endpoint ω :=
  ((s.setOp .output (some x)).workStarted.waitForEpollout x errno).1

/-- `socket_ops::socket`, which is `socket_base::open`, with the answers to `::socket` and to the
`epoll_ctl` of `register_event`. -/
def open_ (s : Endpoint ω) (errnoSocket errnoRegister : ℤ) : Endpoint ω × ErrorCode :=
  if s.isOpen then (s, .alreadyOpen)
  else if errnoSocket ≠ 0 then (s, .system errnoSocket)
  else
    let s := { s with isOpen := true }
    (if errnoRegister = 0 then { s with interest := s.mask } else s, .system errnoRegister)

/-- `socket_ops::begin_connect`. Where opening fails, `ret` is read with the value it happens to
have. -/
def beginConnect (s : Endpoint ω) (x : ω) (ret : Bool) (errnoSocket errnoRegister errno : ℤ) :
    Endpoint ω :=
  let s := (s.setOp .output (some x)).workStarted
  let r := s.open_ errnoSocket errnoRegister
  let w := if r.2.isError then (r.1.onCompletion x r.2 0, ret) else r.1.waitForEpollout x errno
  if w.2 then w.1 else w.1.setOp .output none

/-- What `do_one` does on `EPOLLIN` or `EPOLLOUT`: the slot is emptied, the bit cleared and the
kernel told, and the operation posted. -/
def onEvent (s : Endpoint ω) (d : Dir) (flags : EpollFlags) (soError errno : ℤ) : Endpoint ω :=
  let x := s.slots d
  let s := s.setOp d none
  let s := if s.mask d then ({ s with mask := Function.update s.mask d false }.modifyEvent errno).1
    else s
  match x with
  | some x =>
    { s with
      ops := Function.update s.ops x ((s.ops x).onEvent flags soError)
      completedOps := s.completedOps ++ [x] }
  | none => s

/-! ### A registration that fails -/

/-- The three functions that wait without opening the socket. -/
inductive Initiation
  | accept
  | recv
  | send
  deriving DecidableEq, Repr

/-- The slot they use. -/
def Initiation.dir : Initiation → Dir
  | .accept => .input
  | .recv => .input
  | .send => .output

/-- The functions themselves. -/
def begin (s : Endpoint ω) : Initiation → ω → ℤ → Endpoint ω
  | .accept => s.beginAccept
  | .recv => s.beginRecv
  | .send => s.beginSend

/-- What a failed registration should leave of the socket, after `s`: the operation is queued once,
with the error, the slot is empty and the bit of the mask is clear. -/
structure Restored (s s' : Endpoint ω) (d : Dir) (x : ω) (errno : ℤ) : Prop where
  queued : s'.completedOps = s.completedOps ++ [x]
  error : (s'.ops x).ec = .system errno
  slot : s'.slots d = none
  mask : s'.mask d = false

variable {s : Endpoint ω} {x : ω} {errno : ℤ} {d : Dir}

/-- `begin_recv`, `begin_send` and `begin_accept` differ in the direction alone. -/
theorem begin_eq (s : Endpoint ω) (i : Initiation) (x : ω) (errno : ℤ) :
    s.begin i x errno = ((s.setOp i.dir (some x)).workStarted.waitFor i.dir x errno).1 := by
  cases i <;> rfl

/-- **What a failed registration leaves.** The operation is queued with the error, and the slot and
the mask keep what was put there for it. -/
theorem begin_of_failed (i : Initiation) (hmask : s.mask i.dir = false) (herr : errno ≠ 0) :
    s.begin i x errno =
      { s with
        slots := Function.update s.slots i.dir (some x)
        mask := Function.update s.mask i.dir true
        ops := Function.update s.ops x ((s.ops x).onCompletion (.system errno) 0)
        completedOps := s.completedOps ++ [x]
        outstandingWork := s.outstandingWork + 1 } := by
  have herr' : (ErrorCode.system errno).isError = true := by simpa using herr
  have hmask' : (s.setOp i.dir (some x)).workStarted.mask i.dir = false := hmask
  rw [begin_eq, waitFor, hmask']
  simp only [Bool.false_eq_true, if_false, modifyEvent, if_neg herr, herr', if_true]
  rfl

/-- **No failed registration is undone**: whatever the state, as long as `epoll_ctl` is called at
all and fails, the slot still refers to the operation and the bit is still set. -/
theorem not_restored_of_failed (s : Endpoint ω) (i : Initiation) (x : ω)
    (hmask : s.mask i.dir = false) (herr : errno ≠ 0) :
    ¬Restored s (s.begin i x errno) i.dir x errno := by
  rw [begin_of_failed i hmask herr]
  intro h
  have hslot' : Function.update s.slots i.dir (some x) i.dir = none := h.slot
  rw [Function.update_self] at hslot'
  cases hslot'

/-- A socket that has just been opened, with nothing in its slots. -/
def fresh : Endpoint ℕ where
  isOpen := true
  slots _ := none
  mask _ := false
  interest _ := false
  ops _ := .reset
  completedOps := []
  outstandingWork := 0

/-- A send on it, with `ENOMEM` from `epoll_ctl`. -/
theorem not_restored_of_failed_send : ¬Restored fresh (fresh.begin .send 7 12) .output 7 12 :=
  not_restored_of_failed fresh .send 7 rfl (by decide)

/-- The operation has been queued, and the slot still points to it; the send that comes next is
never armed. -/
theorem not_restored_send :
    (fresh.begin .send 7 12).completedOps = [7] ∧
      (fresh.begin .send 7 12).slots .output = some 7 ∧
      (fresh.begin .send 7 12).mask .output = true ∧
      ((fresh.begin .send 7 12).begin .send 8 0).slots .output = some 8 ∧
      ((fresh.begin .send 7 12).begin .send 8 0).interest .output = false ∧
      ¬Restored fresh (fresh.begin .send 7 12) .output 7 12 :=
  ⟨rfl, rfl, rfl, rfl, rfl, fun h ↦ by cases h.slot⟩

/-! ### A connect that is refused -/

/-- What a connect on a socket that cannot be opened should leave: its own operation queued once
with the error, and the slot as it was, so that the next `EPOLLOUT` completes what waits there. -/
structure Refused (s s' : Endpoint ω) (x : ω) (ec : ErrorCode) : Prop where
  queued : s'.completedOps = s.completedOps ++ [x]
  error : (s'.ops x).ec = ec
  slot : s'.slots .output = s.slots .output
  pending : ∀ y, s.slots .output = some y → ∀ flags soError errno,
    (s'.onEvent .output flags soError errno).completedOps = s'.completedOps ++ [y]

/-- A connect that fails before it is registered leaves the endpoint as `Refused` says, whatever
`ret` holds, and the outcome does not depend on it. -/
def Harmless (s : Endpoint ω) (x : ω) (errnoSocket errnoRegister errno : ℤ) : Prop :=
  (∀ ret, Refused s (s.beginConnect x ret errnoSocket errnoRegister errno) x
    (s.open_ errnoSocket errnoRegister).2) ∧
  s.beginConnect x true errnoSocket errnoRegister errno =
    s.beginConnect x false errnoSocket errnoRegister errno

variable {errnoSocket errnoRegister : ℤ}

omit [DecidableEq ω] in
/-- The slots and the counter do not matter to opening. -/
theorem open_setOp_workStarted (s : Endpoint ω) (y : Option ω) :
    (s.setOp d y).workStarted.open_ errnoSocket errnoRegister =
      ((s.open_ errnoSocket errnoRegister).1.setOp d y |>.workStarted,
        (s.open_ errnoSocket errnoRegister).2) := by
  unfold open_
  show (if s.isOpen then _ else _) = _
  split_ifs <;> rfl

/-- **What a refused connect leaves**: the slot holds the operation that has just been completed, or
nothing, whatever it held before. -/
theorem beginConnect_of_refused (ret : Bool)
    (herr : (s.open_ errnoSocket errnoRegister).2.isError = true) :
    s.beginConnect x ret errnoSocket errnoRegister errno =
      ((s.open_ errnoSocket errnoRegister).1.setOp .output
        (if ret then some x else none)).workStarted.onCompletion x
          (s.open_ errnoSocket errnoRegister).2 0 := by
  simp only [beginConnect, open_setOp_workStarted, herr, if_true]
  cases ret with
  | true => rfl
  | false =>
    simp only [Bool.false_eq_true, if_false, setOp, workStarted, onCompletion, Function.update_idem]

/-- With a given value of `ret` it leaves the slot as it was only if there was nothing in it, and
`ret` happens to be false. -/
theorem slots_beginConnect_of_refused (ret : Bool)
    (herr : (s.open_ errnoSocket errnoRegister).2.isError = true) :
    (s.beginConnect x ret errnoSocket errnoRegister errno).slots .output =
      if ret then some x else none := by
  rw [beginConnect_of_refused ret herr]
  exact Function.update_self Dir.output (if ret then some x else none)
    (s.open_ errnoSocket errnoRegister).1.slots

/-- **No refused connect is harmless.** Whatever the state of the socket, the slot after a connect
that could not open it depends on a variable that has not been assigned. -/
theorem not_harmless_of_refused (s : Endpoint ω) (x : ω)
    (herr : (s.open_ errnoSocket errnoRegister).2.isError = true) :
    ¬Harmless s x errnoSocket errnoRegister errno := by
  intro h
  have hslots := congrFun (congrArg Endpoint.slots h.2) .output
  rw [slots_beginConnect_of_refused true herr, slots_beginConnect_of_refused false herr] at hslots
  cases hslots

/-- A connected socket with a send that waits. -/
def sending : Endpoint ℕ :=
  { fresh with
    slots := Function.update fresh.slots .output (some 7)
    mask := Function.update fresh.mask .output true
    interest := Function.update fresh.interest .output true
    outstandingWork := 1 }

/-- A connect on it. -/
theorem not_harmless_of_refused_sending : ¬Harmless sending 8 0 0 0 :=
  not_harmless_of_refused sending 8 rfl

/-- The send is in no slot any more, and the next event completes the connect again, or nothing. -/
theorem not_harmless_sending :
    (sending.open_ 0 0).2 = .alreadyOpen ∧
      (sending.beginConnect 8 true 0 0 0).completedOps = [8] ∧
      (sending.beginConnect 8 true 0 0 0).slots .output = some 8 ∧
      ((sending.beginConnect 8 true 0 0 0).onEvent .output .clear 0 0).completedOps = [8, 8] ∧
      (sending.beginConnect 8 false 0 0 0).slots .output = none ∧
      ((sending.beginConnect 8 false 0 0 0).onEvent .output .clear 0 0).completedOps = [8] ∧
      (sending.onEvent .output .clear 0 0).completedOps = [7] ∧
      ¬Harmless sending 8 0 0 0 := by
  refine ⟨rfl, rfl, rfl, rfl, rfl, rfl, rfl, fun h ↦ ?_⟩
  cases (h.1 false).slot

end Endpoint

end JnetLib.Epoll
