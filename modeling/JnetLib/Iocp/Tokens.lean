import JnetLib.Iocp.Service

/-!
# The tokens of an operation

What the service does to one operation, seen through tokens. A **token** stands for the operation at
one place on its way from the system call to `complete`, with the result it carries there; the
ledger of an operation (`Service.tokens`) collects the tokens of all places.

`Effect` lists what a step can do to the state of an operation and to its ledger, and `Sound` says
that an operation is at rest without a token, or under way with exactly one, which tells the truth
about the last submission. `Sound.effect` is where the two meet: an effect keeps an operation sound.
It knows nothing of threads. A step that takes a token finds the only one there is, and what that
token says decides what the step may do.
-/

namespace JnetLib.Iocp

/-- An operation on its way.

* `kernel`: its I/O is outstanding, or the kernel's packet is in the port or in a thread's hands.
* `posted`: it is in the port, in `completed_ops_` or in a thread's hands with its result saved.
* `recorded`: a thread has saved the packet's result and will make its exchange next.
* `dropped`: that thread came first and has left it to the initiating thread.
* `failed`, `storing`: the initiating thread is in `on_completion`.
* `reposting`: the initiating thread came second and is posting it. -/
inductive Token
  | kernel (e : ℤ) (n : ℕ)
  | posted
  | recorded (ec : ErrorCode) (n : ℕ)
  | dropped
  | failed (ec : ErrorCode) (n : ℕ)
  | storing (ec : ErrorCode) (n : ℕ)
  | reposting
  deriving DecidableEq

namespace OpState

/-- The tokens of the outstanding I/Os. -/
def ioTokens (S : OpState) : Multiset Token := (S.io.map fun r ↦ {Token.kernel r.1 r.2}).sum

/-- The token in the initiating thread's hands. Before the exchange of `on_pending` there is one
only if the flag is set. -/
def initTokens (S : OpState) : Multiset Token :=
  match S.pc with
  | .idle => 0
  | .pending => if S.mem.ready then {.dropped} else 0
  | .failed ec n => {.failed ec n}
  | .storing ec n => {.storing ec n}
  | .posting => {.reposting}
  | .pushing => {.reposting}

/-- The initiating thread and the flag agree that the packet's party is still to come. -/
def Open (S : OpState) : Prop :=
  S.pc = .pending ∧ S.mem.ready = false ∨ S.pc = .idle ∧ S.mem.ready = true

end OpState

/-- A token tells the truth about an operation submitted for `r`. -/
def Token.Good (r : ErrorCode × ℕ) (S : OpState) : Token → Prop
  | .kernel e n => r = (.system e, n) ∧ S.Open
  | .posted => S.pc = .idle ∧ S.mem.ready = true ∧ S.mem.result = r
  | .recorded ec n => r = (ec, n) ∧ S.mem.result = r ∧ S.Open
  | .dropped => S.pc = .pending ∧ S.mem.ready = true ∧ S.mem.result = r
  | .failed ec n => r = (ec, n) ∧ S.pc = .failed ec n
  | .storing ec n => r = (ec, n) ∧ S.pc = .storing ec n ∧ S.mem.ready = true
  | .reposting => (S.pc = .posting ∨ S.pc = .pushing) ∧ S.mem.ready = true ∧ S.mem.result = r

namespace Service

variable {ι τ : Type} [DecidableEq ι] [DecidableEq τ]

/-- The tokens of operation `i` in a packet. -/
def packetTokens (i : ι) : Packet ι → Multiset Token
  | .kernel j e n => if j = i then {.kernel e n} else 0
  | .posted j => if j = i then {.posted} else 0

/-- The tokens of operation `i` in an entry of `completed_ops_` or of the list a thread posts. -/
def queuedTokens (i j : ι) : Multiset Token := if j = i then {.posted} else 0

/-- The tokens of operation `i` in a `do_one` thread's hands. -/
def threadTokens (i : ι) : DoOne ι → Multiset Token
  | .dispatching ops => (ops.map (queuedTokens i)).sum
  | .got p => packetTokens i p
  | .recorded j ec n => if j = i then {.recorded ec n} else 0
  | .top | .locking | .waiting | .completing _ _ _ => 0

/-- The ledger of operation `i` in the port, in `completed_ops_` and with the `do_one` threads. -/
def elsewhere [Fintype τ] (i : ι) (s : Service ι τ) : Multiset Token :=
  (s.port.map (packetTokens i)).sum + (s.completedOps.map (queuedTokens i)).sum +
    tally (threadTokens i) s.threads

/-- The ledger of operation `i`. -/
def tokens [Fintype τ] (i : ι) (s : Service ι τ) : Multiset Token :=
  (s.ops i).ioTokens + (s.ops i).initTokens + s.elsewhere i

end Service

/-- What a step other than its submission does to one operation: its state before and after, its
ledger before and after. -/
inductive Effect : OpState → OpState → Multiset Token → Multiset Token → Prop
  /-- Nothing: a step elsewhere, or one that moves the operation to a place of the same kind. -/
  | quiet {S M} : Effect S S M M
  /-- The initiating thread comes first. -/
  | first {S M} (hpc : S.pc = .pending) (hr : S.mem.ready = false) :
      Effect S { S with pc := .idle, mem := S.mem.flag } M M
  /-- The initiating thread comes second. -/
  | second {S M M'} (hpc : S.pc = .pending) (hr : S.mem.ready = true)
      (hM : M' + {.dropped} = M + {.reposting}) : Effect S { S with pc := .posting } M M'
  | flag {S M M'} (ec : ErrorCode) (n : ℕ) (hpc : S.pc = .failed ec n)
      (hM : M' + {.failed ec n} = M + {.storing ec n}) :
      Effect S { S with pc := .storing ec n, mem := S.mem.flag } M M'
  | store {S M M'} (ec : ErrorCode) (n : ℕ) (hpc : S.pc = .storing ec n)
      (hM : M' + {.storing ec n} = M + {.reposting}) :
      Effect S { S with pc := .posting, mem := S.mem.store ec n } M M'
  | postFails {S M} (hpc : S.pc = .posting) : Effect S { S with pc := .pushing } M M
  | post {S M M'} (hpc : S.pc = .posting ∨ S.pc = .pushing)
      (hM : M' + {.reposting} = M + {.posted}) : Effect S { S with pc := .idle } M M'
  | arrive {S M} (io : List (ℤ × ℕ)) : Effect S { S with io := io } M M
  /-- A thread posts an entry of `completed_ops_` again. -/
  | repost {S M M'} (hM : .posted ∈ M) (hM' : S.pc = .idle → M' = M) :
      Effect S { S with mem := S.mem.flag } M M'
  | record {S M M'} (e : ℤ) (n : ℕ)
      (hM : M' + {.kernel e n} = M + {.recorded (.system e) n}) :
      Effect S { S with mem := S.mem.store (.system e) n } M M'
  | reload {S M M'}
      (hM : M' + {.posted} = M + {.recorded S.mem.result.1 S.mem.result.2}) : Effect S S M M'
  /-- The `do_one` thread comes first. -/
  | drop {S M M'} (ec : ErrorCode) (n : ℕ) (hr : S.mem.ready = false)
      (hM : M' + {.recorded ec n} = M + if S.pc = .pending then {.dropped} else 0) :
      Effect S { S with mem := S.mem.flag } M M'
  /-- The `do_one` thread comes second. -/
  | invoke {S M M'} (ec : ErrorCode) (n : ℕ) (hr : S.mem.ready = true)
      (hM : M' + {.recorded ec n} = M) :
      Effect S { S with invoked := S.invoked ++ [(ec, n)] } M M'

/-- An operation is at rest, with nothing of it anywhere and the flag still set if it has been
completed, or it is under way for the last result it was submitted for, with one token that tells
the truth. -/
inductive Sound (S : OpState) (M : Multiset Token) : Prop
  | resting (h : S.submitted = S.invoked) (hpc : S.pc = .idle) (hM : M = 0)
      (hr : S.submitted ≠ [] → S.mem.ready = true)
  | flying (r : ErrorCode × ℕ) (tok : Token) (h : S.submitted = S.invoked ++ [r]) (hM : M = {tok})
      (hg : tok.Good r S)

/-! ### The effects keep an operation sound -/

section Effects

variable {S S' : OpState} {M M' : Multiset Token} {r : ErrorCode × ℕ} {tok : Token}

/-- A token does not depend on the I/O list. -/
theorem Token.Good.of_io (h : tok.Good r S) (io : List (ℤ × ℕ)) :
    tok.Good r { S with io := io } := by
  cases tok <;> exact h

/-- The exchange that comes first opens the way for the token wherever it is. -/
theorem Token.Good.first (h : tok.Good r S) (hpc : S.pc = .pending) (hr : S.mem.ready = false) :
    tok.Good r { S with pc := .idle, mem := S.mem.flag } := by
  cases tok with
  | kernel e n => exact ⟨h.1, .inr ⟨rfl, rfl⟩⟩
  | recorded ec n => exact ⟨h.1, h.2.1, .inr ⟨rfl, rfl⟩⟩
  | posted => simp [Token.Good, hpc] at h
  | dropped => simp [Token.Good, hr] at h
  | failed ec n => simp [Token.Good, hpc] at h
  | storing ec n => simp [Token.Good, hpc] at h
  | reposting => simp [Token.Good, hpc] at h

/-- A failed post keeps the token in the initiating thread's hands. -/
theorem Token.Good.postFails (h : tok.Good r S) (hpc : S.pc = .posting) :
    tok.Good r { S with pc := .pushing } := by
  cases tok with
  | reposting => exact ⟨.inr rfl, h.2⟩
  | kernel e n => simp [Token.Good, OpState.Open, hpc] at h
  | recorded ec n => simp [Token.Good, OpState.Open, hpc] at h
  | posted => simp [Token.Good, hpc] at h
  | dropped => simp [Token.Good, hpc] at h
  | failed ec n => simp [Token.Good, hpc] at h
  | storing ec n => simp [Token.Good, hpc] at h

/-- What a truthful `recorded` token knows when the flag is clear or set. -/
theorem OpState.Open.pc_eq (h : S.Open) :
    S.pc = if S.mem.ready then .idle else .pending := by
  rcases h with ⟨hpc, hr⟩ | ⟨hpc, hr⟩ <;> simp [hpc, hr]

/-- **An effect keeps an operation sound.** At rest there is no token a step could take. Under way
there is one: a step that exchanges tokens has exchanged it, and what it says afterwards follows
from what it said before. -/
theorem Sound.effect (h : Sound S M) (he : Effect S S' M M') : Sound S' M' := by
  cases h with
  -- at rest the initiating thread is idle and there is no token a step could take
  | resting h hpc hM hr =>
    subst hM
    cases he with
    | quiet => exact .resting h hpc rfl hr
    | arrive io => exact .resting h hpc rfl hr
    | first hpc' _ | second hpc' _ _ | flag _ _ hpc' _ | store _ _ hpc' _ | postFails hpc' =>
      simp [hpc] at hpc'
    | post hpc' _ => simp [hpc] at hpc'
    | repost hM _ => simp at hM
    | record _ _ hM | reload hM =>
      rw [zero_add] at hM
      cases (singleton_remove hM).1
    | drop ec n _ hM =>
      rw [hpc, if_neg (by simp)] at hM
      exact absurd hM not_add_singleton_eq_zero
    | invoke _ _ _ hM => exact absurd hM not_add_singleton_eq_zero
  -- under way: the token a step exchanges is the only one
  | flying r tok h hM hg =>
    subst hM
    cases he with
    | quiet => exact .flying r tok h rfl hg
    | arrive io => exact .flying r tok h rfl (hg.of_io io)
    | first hpc hr => exact .flying r tok h rfl (hg.first hpc hr)
    | postFails hpc => exact .flying r tok h rfl (hg.postFails hpc)
    | repost hM hM' =>
      obtain rfl := Multiset.mem_singleton.1 hM
      exact .flying r _ h (hM' hg.1) ⟨hg.1, rfl, hg.2.2⟩
    | second hpc hr hM =>
      obtain ⟨rfl, hM'⟩ | ⟨heq, -⟩ := singleton_exchange hM
      · exact .flying r _ h hM' ⟨.inl rfl, hr, hg.2.2⟩
      · cases heq
    | flag ec n hpc hM =>
      obtain ⟨rfl, hM'⟩ | ⟨heq, -⟩ := singleton_exchange hM
      · exact .flying r _ h hM' ⟨hg.1, rfl, rfl⟩
      · cases heq
    | store ec n hpc hM =>
      obtain ⟨rfl, hM'⟩ | ⟨heq, -⟩ := singleton_exchange hM
      · exact .flying r _ h hM' ⟨.inl rfl, hg.2.2, hg.1.symm⟩
      · cases heq
    | post hpc hM =>
      obtain ⟨rfl, hM'⟩ | ⟨heq, -⟩ := singleton_exchange hM
      · exact .flying r _ h hM' ⟨rfl, hg.2⟩
      · cases heq
    | record e n hM =>
      obtain ⟨rfl, hM'⟩ | ⟨heq, -⟩ := singleton_exchange hM
      · exact .flying r _ h hM' ⟨hg.1, hg.1.symm, hg.2⟩
      · cases heq
    | reload hM =>
      obtain ⟨rfl, hM'⟩ | ⟨heq, -⟩ := singleton_exchange hM
      · exact .flying r _ h hM' ⟨hg.2.2.symm, hg.2.2, .inr ⟨hg.1, hg.2.1⟩⟩
      · cases heq
    | drop ec n hr hM =>
      split at hM
      case isTrue hpc =>
        obtain ⟨rfl, hM'⟩ | ⟨heq, -⟩ := singleton_exchange hM
        · exact .flying r _ h hM' ⟨hpc, rfl, hg.2.1⟩
        · cases heq
      case isFalse hpc =>
        rw [add_zero] at hM
        obtain ⟨rfl, -⟩ := singleton_remove hM
        -- a flag still clear would mean that the initiating thread has its exchange before it
        have hopen := hg.2.2.pc_eq
        rw [hr, if_neg Bool.false_ne_true] at hopen
        exact absurd hopen hpc
    | invoke ec n hr hM =>
      obtain ⟨rfl, hM'⟩ := singleton_remove hM
      have hopen := hg.2.2.pc_eq
      rw [hr, if_pos rfl] at hopen
      exact .resting (by rw [h, hg.1]) hopen hM' fun _ ↦ hr

/-- What is completed is the last submission. -/
theorem Sound.submitted_of_invoke {ec : ErrorCode} {n : ℕ} (h : Sound S M) (h' : Sound S' M')
    (hsub : S'.submitted = S.submitted) (hinv : S'.invoked = S.invoked ++ [(ec, n)]) :
    S.submitted = S.invoked ++ [(ec, n)] := by
  cases h' with
  | resting ha _ _ _ => rw [← hsub, ha, hinv]
  | flying r' _ ha _ _ =>
    rw [hsub, hinv] at ha
    cases h with
    | resting hb _ _ _ => rw [hb] at ha; simp at ha
    | flying r _ hb _ _ => rw [hb] at ha; simp at ha

end Effects

end JnetLib.Iocp
