import JnetLib.Foundation.Ledger
import JnetLib.Foundation.Transition

/-!
# A server connection and its users

A `ConnectionContext` counts its users in `ref_`: every asynchronous operation with the context as
argument holds one reference, which its completion callback takes over and `CheckAndDelete` gives
back. The callback that gives the last one back deletes the context, or, on an HTTPS connection that
nobody has shut down or closed, starts the SSL shutdown with a new reference.

The machine runs one context on any number of threads. Each step is one action on the shared fields:
a flag is read or set, the count is raised or lowered, an operation is started. The user's callbacks
call the methods of the context as they like.

`Lifetime` is what the users of a context may rely on. `Shutdown` takes its reference only when its
compare-and-swap on `shutdown_flag_` succeeds, and starts the operation in any case; so `Guarded`
asks that it succeeds, and that `cbOnClosed` starts no operation.
-/

namespace JnetLib.Server

/-- `ConnectionContext::stream_type`. -/
inductive StreamType
  | tcp
  | ssl
  | http
  | https
  deriving DecidableEq, Repr

/-- `type_ & ConnectionContext::ssl`. -/
def StreamType.isSsl : StreamType → Bool
  | .ssl | .https => true
  | .tcp | .http => false

/-- The asynchronous operations with a context as argument. -/
inductive Asyn
  | accept
  | connect
  | handshake
  | shutdown
  | recv
  | send
  deriving DecidableEq, Repr

/-- The methods that start an operation. -/
inductive Method
  | handshake
  | shutdown
  | recv
  | send
  deriving DecidableEq, Repr

/-- The operation a method starts. -/
def Method.asyn : Method → Asyn
  | .handshake => .handshake
  | .shutdown => .shutdown
  | .recv => .recv
  | .send => .send

/-- Who has called a method: the user's callback for a completion, the server behind that callback,
`CheckAndDelete`, or `cbOnClosed`. -/
inductive Caller
  | callback (k : Asyn)
  | behind
  | check
  | closed
  deriving DecidableEq, Repr

/-- How far a method is: before the two reads of `check_closed`, before the compare-and-swap of
`Shutdown`, before the increment of `ref_`, before the call that starts the operation (and whether
the reference was taken). -/
inductive Stage
  | closeFlag
  | shutdownFlag
  | swap
  | count
  | start (counted : Bool)
  deriving DecidableEq, Repr

/-- Where a thread is with the context: not in a callback; in the user's callback; in a method; in
`Close`; behind a failed accept; before the decrement of `CheckAndDelete`; before its reads of the
two flags; in `cbOnClosed`; before the `delete`. -/
inductive Pc
  | idle
  | callback (k : Asyn)
  | method (m : Method) (g : Stage) (c : Caller)
  | closing (c : Caller)
  | failed
  | release
  | testClose
  | testShutdown
  | closed
  | deleting
  deriving DecidableEq, Repr

/-- A context, the outstanding operations with it as argument, how often it was deleted, and the
threads. -/
structure Connection (τ : Type) where
  type : StreamType
  ref : ℤ
  shutdownFlag : Bool
  closeFlag : Bool
  ops : List Asyn
  deletes : ℕ
  pcs : τ → Pc

/-- A step: the callback of an outstanding operation begins, with or without an error; the user's
callback calls a method, calls `Close`, or returns; the thread's next action. -/
inductive Event (τ : Type)
  | complete (t : τ) (i : ℕ) (ok : Bool)
  | call (t : τ) (m : Method)
  | close (t : τ)
  | ret (t : τ) (ret : Bool)
  | step (t : τ)
  deriving DecidableEq, Repr

/-- Where a method returns to. `CheckAndDelete` ends with its `Shutdown`. -/
def Caller.back : Caller → Pc
  | .callback k => .callback k
  | .behind => .release
  | .check => .idle
  | .closed => .closed

/-- What the server does when the user's callback for a completion has returned. -/
def behind (type : StreamType) (k : Asyn) (ret : Bool) : Pc :=
  if ret then .closing .behind
  else match k, type with
    | .accept, .https => .method .handshake .closeFlag .behind
    | .connect, .ssl => .method .handshake .closeFlag .behind
    | _, _ => .release

/-- What a method does once `check_closed` has said no. -/
def Method.unlessClosed (m : Method) (type : StreamType) (c : Caller) : Pc :=
  match m with
  | .recv | .send => .method m .count c
  | .handshake => if type.isSsl then .method m .count c else c.back
  | .shutdown => if type.isSsl then .method m .swap c else c.back

namespace Connection

variable {τ : Type} [DecidableEq τ]

/-- Move one thread. -/
def setPc (s : Connection τ) (t : τ) (pc : Pc) : Connection τ :=
  { s with pcs := Function.update s.pcs t pc }

/-- A completion callback begins. -/
def complete (s : Connection τ) (t : τ) (i : ℕ) (ok : Bool) : Option (Connection τ) :=
  match s.pcs t, s.ops[i]? with
  | .idle, some k =>
    let pc := match k, ok with
      | .accept, false => .failed
      | .shutdown, _ => .release
      | k, _ => .callback k
    some { s.setPc t pc with ops := s.ops.eraseIdx i }
  | _, _ => none

/-- The user's callback calls a method. -/
def call (s : Connection τ) (t : τ) (m : Method) : Option (Connection τ) :=
  match s.pcs t with
  | .callback k => some (s.setPc t (.method m .closeFlag (.callback k)))
  | .closed => some (s.setPc t (.method m .closeFlag .closed))
  | _ => none

/-- The user's callback calls `Close`. -/
def close (s : Connection τ) (t : τ) : Option (Connection τ) :=
  match s.pcs t with
  | .callback k => some (s.setPc t (.closing (.callback k)))
  | .closed => some (s.setPc t (.closing .closed))
  | _ => none

/-- The user's callback returns. -/
def ret (s : Connection τ) (t : τ) (r : Bool) : Option (Connection τ) :=
  match s.pcs t with
  | .callback k => some (s.setPc t (behind s.type k r))
  | .closed => some (s.setPc t .deleting)
  | _ => none

/-- The next action inside a method. -/
def methodStep (s : Connection τ) (t : τ) (m : Method) (c : Caller) : Stage → Connection τ
  | .closeFlag =>
    if s.closeFlag then s.setPc t c.back
    else if s.type.isSsl then s.setPc t (.method m .shutdownFlag c)
    else s.setPc t (m.unlessClosed s.type c)
  | .shutdownFlag =>
    if s.shutdownFlag then s.setPc t c.back else s.setPc t (m.unlessClosed s.type c)
  | .swap =>
    -- the increment is all that depends on the compare-and-swap
    if s.shutdownFlag then s.setPc t (.method m (.start false) c)
    else { s.setPc t (.method m .count c) with shutdownFlag := true }
  | .count => { s.setPc t (.method m (.start true) c) with ref := s.ref + 1 }
  | .start _ => { s.setPc t c.back with ops := s.ops ++ [m.asyn] }

/-- The next action of a thread. -/
def act (s : Connection τ) (t : τ) : Option (Connection τ) :=
  match s.pcs t with
  | .idle | .callback _ | .closed => none
  | .method m g c => some (s.methodStep t m c g)
  | .closing c => some { s.setPc t c.back with closeFlag := true }
  | .failed => some { s.setPc t .idle with deletes := s.deletes + 1 }
  | .release =>
    let pc := if s.ref - 1 ≠ 0 then .idle else if s.type = .https then .testClose else .closed
    some { s.setPc t pc with ref := s.ref - 1 }
  | .testClose => some (s.setPc t (if s.closeFlag then .closed else .testShutdown))
  | .testShutdown =>
    some (s.setPc t (if s.shutdownFlag then .closed else .method .shutdown .closeFlag .check))
  | .deleting => some { s.setPc t .idle with deletes := s.deletes + 1 }

/-- The transitions of a connection; `none` where a step cannot be taken. -/
def step (s : Connection τ) : Event τ → Option (Connection τ)
  | .complete t i ok => s.complete t i ok
  | .call t m => s.call t m
  | .close t => s.close t
  | .ret t r => s.ret t r
  | .step t => s.act t

/-- The first operation of a connection. -/
def opening : StreamType → Asyn
  | .http | .https => .accept
  | .tcp | .ssl => .connect

/-- A context whose first operation has been started. -/
def start (type : StreamType) : Connection τ where
  type := type
  ref := 1
  shutdownFlag := false
  closeFlag := false
  ops := [opening type]
  deletes := 0
  pcs _ := .idle

/-! ### What is promised -/

/-- A callback that has not given its reference back yet. -/
def executing : Pc → ℕ
  | .callback _ | .failed | .release => 1
  | .method _ _ (.callback _) | .method _ _ .behind => 1
  | .closing (.callback _) | .closing .behind => 1
  | _ => 0

/-- A thread behind the decrement that took the count to zero. -/
def final : Pc → ℕ
  | .testClose | .testShutdown | .closed | .deleting => 1
  | .method _ _ .check | .method _ _ .closed => 1
  | .closing .check | .closing .closed => 1
  | _ => 0

/-- A method between taking the reference and starting the operation. -/
def starting : Pc → ℕ
  | .method _ (.start _) _ => 1
  | _ => 0

/-- What the users of a context may rely on. -/
structure Lifetime [Fintype τ] (s : Connection τ) : Prop where
  /-- Between the calls of its methods, `ref_` counts the outstanding operations and the callbacks
  that are executing. -/
  counted : s.deletes = 0 → (∀ t, starting (s.pcs t) = 0) →
    s.ref = s.ops.length + tally executing s.pcs
  nonneg : 0 ≤ s.ref
  once : s.deletes ≤ 1
  /-- A context that has been deleted has no operation outstanding and no callback running. -/
  last : s.deletes = 1 → s.ops = [] ∧ ∀ t, s.pcs t = .idle
  /-- A context with no operation outstanding and no callback running has been deleted. -/
  done : s.ops = [] → (∀ t, s.pcs t = .idle) → s.deletes = 1

/-- The next action is not a compare-and-swap of `Shutdown` that finds the flag set, nor does it
start an operation from `cbOnClosed`. -/
def Allows (s : Connection τ) : Pc → Prop
  | .method _ .swap _ => s.shutdownFlag = false
  | .method _ (.start _) .closed => False
  | _ => True

/-- Every compare-and-swap of `Shutdown` finds the flag clear, and `cbOnClosed` starts no
operation. -/
def Guarded (s : Connection τ) : Event τ → Prop
  | .step t => s.Allows (s.pcs t)
  | _ => True

instance (s : Connection τ) : DecidablePred s.Allows := fun pc ↦ by
  unfold Allows
  split <;> infer_instance

instance (s : Connection τ) : DecidablePred s.Guarded
  | .step t => inferInstanceAs (Decidable (s.Allows (s.pcs t)))
  | .complete _ _ _ | .call _ _ | .close _ | .ret _ _ => inferInstanceAs (Decidable True)

end Connection

end JnetLib.Server
