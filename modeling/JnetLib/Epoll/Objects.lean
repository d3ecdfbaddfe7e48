import JnetLib.Epoll.Accept
import JnetLib.Epoll.ReadWrite
import JnetLib.Epoll.Service

/-!
# The operation objects of a service

Each of the eight functions `asyn_*` creates an operation object with `new`, and a completion that
calls back deletes it behind the callback. In between, pointers to it are in a slot of a socket, in
the queue of the file worker or in `completed_ops_`. `Runtime` has the objects in a heap and the
pointers where the code has them, so that an operation can be lost, or be met again after it has
been deleted.

A call, a completion up to its callback, a turn of the file worker and an event are a step each:
none of them touches the operation again once it is in a slot and registered, queued or posted.
Callbacks take time; other threads go on meanwhile, and any code can start operations at any time.
System calls answer whatever they want.
-/

namespace JnetLib.Epoll

/-! ### The operations -/

/-- `connect_op`. `func_` is `on_ready` first, and `on_complete` from the call of `::connect` on. -/
structure ConnectOp where
  base : Operation
  connecting : Bool
  deriving DecidableEq, Repr

/-- An operation object, with the socket or the file it is for. -/
inductive Object (ι κ : Type*)
  | accept (i : ι) (op : AcceptOp)
  | connect (i : ι) (op : ConnectOp)
  | send (i : ι) (op : SendOp)
  | recv (i : ι) (op : RecvOp)
  | read (k : κ) (op : ReadOp)
  | write (k : κ) (op : WriteOp)
  | readLine (k : κ) (op : ReadLineOp)
  deriving DecidableEq, Repr

/-- The functions that create one. -/
inductive Request (ι κ : Type*)
  | asynAccept (i : ι)
  | asynConnect (i : ι)
  | asynSend (i : ι) (len : ℕ)
  | asynRecv (i : ι) (len : ℕ)
  | asynRecvSome (i : ι) (len : ℕ)
  | asynRead (k : κ) (len : ℕ)
  | asynWrite (k : κ) (buf : List Byte)
  | asynReadLine (k : κ) (len : ℕ) (eol : List Byte) (incEol : Bool)
  deriving DecidableEq, Repr

/-- What the system calls answer that a call or a completion may make: `::accept4`; the `::send` or
`::recv` of a completion; the one of `begin_send` and `begin_recv`; opening a socket; `::connect`,
with `0` also for `EINPROGRESS`; `epoll_ctl`, with `0` where it is not called. `ret` is what the
variable of that name in `socket_ops::begin_connect` and `socket_ops::connect` holds where it is
never set. -/
structure Answers where
  accept : AcceptOutcome
  transfer : Outcome
  begin : Outcome
  opened : ErrorCode
  connect : ℤ
  register : ℤ
  ret : Bool
  deriving DecidableEq, Repr

/-- Where a function of an operation leaves it: in a slot, and if registering it has failed, posted
with the error as well, and the slot may keep it; posted; behind a `post_op` that will call
`recv_op::on_post`; queued for the file worker. Or it has called back, and deletes the operation
when the callback has returned. -/
inductive Fate (ι : Type*)
  | wait (p : ι × Dir) (failed : Option ErrorCode) (keeps : Bool)
  | posted
  | postOp
  | queued
  | calledBack
  deriving DecidableEq, Repr

variable {ι κ τ : Type*}

namespace Fate

/-- `begin_accept`, `begin_recv` and `begin_send` fill the slot, and leave it so. -/
def register (p : ι × Dir) (errno : ℤ) : Fate ι :=
  .wait p (if errno = 0 then none else some (.system errno)) true

/-- `socket_ops::begin_connect` and `socket_ops::connect`, which empty the slot again if
`wait_for_epollout` fails, and when `ec` comes first, if `ret` happens to be false. -/
def connect (i : ι) (ec : ErrorCode) (ret : Bool) (errno : ℤ) : Fate ι :=
  if ec.isError then .wait (i, .output) (some ec) ret
  else if errno = 0 then .wait (i, .output) none true
  else .wait (i, .output) (some (.system errno)) false

end Fate

/-- `accept_op` calls back in one place and deletes itself there. -/
def AcceptPlace.fate (i : ι) (errno : ℤ) : AcceptPlace → Fate ι
  | .inSlot => .register (i, .input) errno
  | .completed => .posted
  | .finished _ => .calledBack

@[inherit_doc AcceptPlace.fate]
def SendPlace.fate (i : ι) (errno : ℤ) : SendPlace → Fate ι
  | .inSlot => .register (i, .output) errno
  | .completed => .posted
  | .finished _ _ => .calledBack

/-- `recv_op::on_complete` calls back in one place and deletes the operation there. -/
def RecvPlace.fate (i : ι) (errno : ℤ) : RecvPlace → Fate ι
  | .inSlot => .register (i, .input) errno
  | .completed => .posted
  | .posted => .postOp
  | .finished _ _ => .calledBack

/-- `read_op` and `write_op` call back in one place and delete themselves there. -/
def FilePlace.fate : FilePlace → Fate ι
  | .queued => .queued
  | .completed => .posted
  | .finished _ _ => .calledBack

/-- `read_line_op` calls back in three places and deletes itself in each. -/
def ReadLinePlace.fate : ReadLinePlace → Fate ι
  | .queued => .queued
  | .completed => .posted
  | .finished _ _ => .calledBack

/-- The constructor and the function `begin_*` behind it. -/
def Request.begin (a : Answers) : Request ι κ → Object ι κ × Fate ι
  | .asynAccept i =>
    let s := AcceptState.start a.accept
    (.accept i s.op, s.place.fate i a.register)
  | .asynConnect i => (.connect i ⟨.reset, false⟩, .connect i a.opened a.ret a.register)
  | .asynSend i len =>
    let r := (SendOp.new len).beginSend a.begin
    (.send i r.1, r.2.fate i a.register)
  | .asynRecv i len =>
    let s := (RecvOp.new len false).beginRecv a.begin
    (.recv i s.op, s.place.fate i a.register)
  | .asynRecvSome i len =>
    let s := (RecvOp.new len true).beginRecv a.begin
    (.recv i s.op, s.place.fate i a.register)
  | .asynRead k len => (.read k (.new len), .queued)
  | .asynWrite k buf => (.write k (.new buf), .queued)
  | .asynReadLine k len eol incEol => (.readLine k (.new len eol incEol), .queued)

namespace ConnectOp

/-- `connect_op::on_ready` finds the event of a socket that is not connected yet. -/
def connects (op : ConnectOp) : Bool :=
  !op.connecting && op.base.ec.isError && op.base.ec.value == ErrorCode.epollFlag.value &&
    op.base.epollFlags == .onlyHup

/-- `connect_op::on_ready`, and `connect_op::on_complete` once it has connected. -/
def onComplete (op : ConnectOp) (i : ι) (a : Answers) : ConnectOp × Fate ι :=
  if op.connects then (⟨.reset, true⟩, .connect i (.system a.connect) a.ret a.register)
  else (op, .calledBack)

end ConnectOp

namespace Object

/-- The slot an operation waits in. -/
def home : Object ι κ → Option (ι × Dir)
  | .accept i _ | .recv i _ => some (i, .input)
  | .connect i _ | .send i _ => some (i, .output)
  | .read _ _ | .write _ _ | .readLine _ _ => none

/-- A change of the result fields. -/
def modify (f : Operation → Operation) : Object ι κ → Object ι κ
  | .accept i op => .accept i { op with base := f op.base }
  | .connect i op => .connect i { op with base := f op.base }
  | .send i op => .send i { op with base := f op.base }
  | .recv i op => .recv i { op with base := f op.base }
  | .read k op => .read k { op with base := f op.base }
  | .write k op => .write k { op with base := f op.base }
  | .readLine k op => .readLine k { op with base := f op.base }

variable [DecidableEq κ]

/-- `func_`, which `do_one` calls. -/
def complete (files : κ → OpenFile) (a : Answers) :
    Object ι κ → Option (Object ι κ × (κ → OpenFile) × Fate ι)
  | .accept i op =>
    let s : AcceptState := ⟨op, .completed, []⟩
    some (.accept i { op with base := { op.base with ec := s.result a.accept } }, files,
      .calledBack)
  | .connect i op =>
    let r := op.onComplete i a
    some (.connect i r.1, files, r.2)
  | .send i op =>
    match op.onComplete a.transfer with
    | .again op =>
      let r := op.beginSend a.begin
      some (.send i r.1, files, r.2.fate i a.register)
    | .callback op _ => some (.send i op, files, .calledBack)
  | .recv i op =>
    let r := op.onComplete a.transfer
    some (.recv i r.1, files, r.2.fate i a.register)
  | .read k op =>
    let s := op.onComplete (files k)
    some (.read k s.op, Function.update files k s.file, s.place.fate)
  | .write k op =>
    let s := op.onComplete (files k)
    some (.write k s.op, Function.update files k s.file, s.place.fate)
  | .readLine k op =>
    (op.onComplete (files k)).map fun s ↦
      (.readLine k s.op, Function.update files k s.file, s.place.fate)

/-- What the file worker does with an operation. Only file operations are in its queue. -/
def work (files : κ → OpenFile) (o : Outcome) :
    Object ι κ → Option (Object ι κ × (κ → OpenFile))
  | .read k op =>
    let s := op.doRead (files k) o
    some (.read k s.op, Function.update files k s.file)
  | .write k op =>
    let s := op.doWrite (files k) o
    some (.write k s.op, Function.update files k s.file)
  | .readLine k op =>
    let s := op.doRead (files k) o
    some (.readLine k s.op, Function.update files k s.file)
  | .accept _ _ | .connect _ _ | .send _ _ | .recv _ _ => none

end Object

/-! ### The service -/

/-- An entry of `completed_ops_`: an operation, or the `post_op` made for one by `service::post`,
which deletes itself behind the call of `recv_op::on_post`. -/
inductive Entry
  | op (x : ℕ)
  | post (x : ℕ)
  deriving DecidableEq, Repr

/-- The operation an entry is about. -/
def Entry.id : Entry → ℕ
  | .op x | .post x => x

/-- A callback that has not returned, and whether the function that made it deletes the operation
next. -/
structure Callback where
  op : ℕ
  deletes : Bool
  deriving DecidableEq, Repr

/-- The objects and the pointers to them. An object that has been deleted, or not yet created, is
not in the heap `objects`. The slots `refused` are those that have kept an operation when its
registration failed. How many callbacks of an operation have returned, and how often it has been
deleted, is kept as a record. -/
structure Runtime (ι κ τ : Type*) where
  objects : ℕ → Option (Object ι κ)
  files : κ → OpenFile
  slots : ι × Dir → Option ℕ
  refused : ι × Dir → Bool
  queue : List ℕ
  completedOps : List Entry
  running : τ → Option Callback
  returned : ℕ → ℕ
  deleted : ℕ → ℕ
  nextId : ℕ

/-- The steps: a call; an event for a slot, with its flags and the socket's pending error; a turn of
the file worker; a thread takes an entry off `completed_ops_` and runs it; a callback returns. -/
inductive RuntimeEvent (ι κ τ : Type*)
  | asyn (r : Request ι κ) (a : Answers)
  | event (p : ι × Dir) (flags : EpollFlags) (soError : ℤ)
  | work (o : Outcome)
  | dispatch (t : τ) (a : Answers)
  | finish (t : τ)
  deriving DecidableEq, Repr

namespace Runtime

variable [DecidableEq ι] [DecidableEq κ] [DecidableEq τ]

/-- A fresh service and some files. -/
def start (files : κ → OpenFile) : Runtime ι κ τ where
  objects _ := none
  files := files
  slots _ := none
  refused _ := false
  queue := []
  completedOps := []
  running _ := none
  returned _ := 0
  deleted _ := 0
  nextId := 0

/-- `service::post_deferred_completion`. -/
def postDeferredCompletion (s : Runtime ι κ τ) (e : Entry) : Runtime ι κ τ :=
  { s with completedOps := s.completedOps ++ [e] }

/-- A change of the result fields of an operation. Where the object is gone there is nothing to be
changed. -/
def modify (s : Runtime ι κ τ) (x : ℕ) (f : Operation → Operation) : Runtime ι κ τ :=
  { s with objects := Function.update s.objects x ((s.objects x).map (Object.modify f)) }

/-- `service::on_completion`. -/
def onCompletion (s : Runtime ι κ τ) (x : ℕ) (ec : ErrorCode) (bytes : ℕ) : Runtime ι κ τ :=
  (s.modify x fun op ↦ op.onCompletion ec bytes).postDeferredCompletion (.op x)

/-- The operation is put into the slot, and may stay there. -/
def fill (s : Runtime ι κ τ) (p : ι × Dir) (x : Option ℕ) (refused : Bool) : Runtime ι κ τ :=
  { s with
    slots := Function.update s.slots p x
    refused := Function.update s.refused p refused }

/-- An operation goes where a function of its has left it. -/
def put (s : Runtime ι κ τ) (x : ℕ) : Fate ι → Runtime ι κ τ
  | .wait p none _ => s.fill p (some x) false
  | .wait p (some ec) true => (s.fill p (some x) true).onCompletion x ec 0
  | .wait p (some ec) false => (s.fill p none false).onCompletion x ec 0
  | .posted => s.postDeferredCompletion (.op x)
  | .postOp => s.postDeferredCompletion (.post x)
  | .queued => { s with queue := s.queue ++ [x] }
  | .calledBack => s

/-- A thread is in a callback. -/
def call (s : Runtime ι κ τ) (t : τ) (c : Callback) : Runtime ι κ τ :=
  { s with running := Function.update s.running t (some c) }

/-- An object is created or changed. -/
def store (s : Runtime ι κ τ) (x : ℕ) (obj : Object ι κ) : Runtime ι κ τ :=
  { s with objects := Function.update s.objects x (some obj) }

/-- A call of one of the functions `asyn_*`. -/
def asyn (s : Runtime ι κ τ) (r : Request ι κ) (a : Answers) : Runtime ι κ τ :=
  ({ s with nextId := s.nextId + 1 }.store s.nextId (r.begin a).1).put s.nextId (r.begin a).2

/-- `do_one` on `EPOLLIN` or `EPOLLOUT`: what is in the slot is posted. -/
def event (s : Runtime ι κ τ) (p : ι × Dir) (flags : EpollFlags) (soError : ℤ) : Runtime ι κ τ :=
  match s.slots p with
  | none => s
  | some x =>
    (((s.fill p none false).modify x fun op ↦ op.onEvent flags soError)).postDeferredCompletion
      (.op x)

/-- A turn of the file worker. -/
def work (s : Runtime ι κ τ) (o : Outcome) : Option (Runtime ι κ τ) :=
  match s.queue with
  | [] => none
  | x :: l =>
    (s.objects x).bind fun obj ↦ (obj.work s.files o).map fun r ↦
      ({ s with files := r.2, queue := l }.store x r.1).postDeferredCompletion (.op x)

/-- A thread runs the first entry of `completed_ops_`. -/
def dispatch (s : Runtime ι κ τ) (t : τ) (a : Answers) : Option (Runtime ι κ τ) :=
  match s.running t, s.completedOps with
  | none, .op x :: l =>
    (s.objects x).bind fun obj ↦ (obj.complete s.files a).map fun r ↦
      let s := { s with files := r.2.1, completedOps := l }.store x r.1
      -- every completion that calls back deletes its operation next
      if r.2.2 = .calledBack then s.call t ⟨x, true⟩ else s.put x r.2.2
  | none, .post x :: l =>
    -- `recv_op::on_post` does not
    (s.objects x).map fun _ ↦ { s with completedOps := l }.call t ⟨x, false⟩
  | _, _ => none

/-- The callback of a thread has returned. -/
def leave (s : Runtime ι κ τ) (t : τ) (c : Callback) : Runtime ι κ τ :=
  { s with
    running := Function.update s.running t none
    returned := Function.update s.returned c.op (s.returned c.op + 1) }

/-- `delete op`. -/
def delete (s : Runtime ι κ τ) (x : ℕ) : Runtime ι κ τ :=
  { s with
    objects := Function.update s.objects x none
    deleted := Function.update s.deleted x (s.deleted x + 1) }

/-- A callback returns, and behind it the operation is deleted, or it is not. -/
def finish (s : Runtime ι κ τ) (t : τ) : Option (Runtime ι κ τ) :=
  match s.running t with
  | none => none
  | some c => some (if c.deletes then (s.leave t c).delete c.op else s.leave t c)

/-- A step of the program: a call of the user, an event, the file worker, a dispatch, or the return
of a callback. -/
def step (s : Runtime ι κ τ) : RuntimeEvent ι κ τ → Option (Runtime ι κ τ)
  | .asyn r a => some (s.asyn r a)
  | .event p flags soError => some (s.event p flags soError)
  | .work o => s.work o
  | .dispatch t a => s.dispatch t a
  | .finish t => s.finish t

end Runtime

end JnetLib.Epoll
