import JnetLib.Iocp.RecvSize
import JnetLib.Iocp.WriteSize

/-!
# The sizes of transfers

`Transfer.keeps_iff_carries` covers both backends: for which lengths each of the four calls keeps
its contract. It puts together what the modules on the sizes of sends, receives and writes say.
-/

namespace JnetLib

/-- The two implementations of the library. -/
inductive Backend
  | epoll
  | iocp
  deriving DecidableEq, Repr

/-- The asynchronous calls that move bytes of a caller's buffer of any length. -/
inductive Transfer
  | send
  | recv
  | recvSome
  | write
  deriving DecidableEq, Repr

/-- What a call with `len` bytes owes its caller. -/
def Transfer.Keeps : Backend → Transfer → ℕ → Prop
  | .epoll, .send => Epoll.SendState.Keeps
  | .epoll, .recv => Epoll.RecvState.Keeps false
  | .epoll, .recvSome => Epoll.RecvState.Keeps true
  | .epoll, .write => Epoll.WriteOp.Keeps
  | .iocp, .send => Iocp.SendState.Keeps
  | .iocp, .recv => Iocp.RecvState.Keeps false
  | .iocp, .recvSome => Iocp.RecvState.Keeps true
  | .iocp, .write => Iocp.WriteState.Keeps

/-- The lengths the code can carry: below `2 ^ 32`, except that a receive of some bytes, which looks
at its length once only, can carry more, and a write on the epoll backend anything. -/
def Transfer.Carries : Backend → Transfer → ℕ → Prop
  | .epoll, .write, _ => True
  | _, .recvSome, len => len = 0 ∨ ¬2 ^ 32 ∣ len
  | _, _, len => len < 2 ^ 32

/-- **Transfer sizes.** On both backends each of the four calls asks the system for at least a byte
and no more than is left, and comes to the end it owes, exactly for the lengths the code can
carry. -/
theorem Transfer.keeps_iff_carries (b : Backend) (call : Transfer) (len : ℕ) :
    call.Keeps b len ↔ call.Carries b len := by
  cases b with
  | epoll =>
    cases call with
    | send => exact Epoll.SendState.keeps_iff
    | recv | recvSome => exact Epoll.RecvState.keeps_iff
    | write => exact iff_true_intro (Epoll.WriteOp.keeps len)
  | iocp =>
    cases call with
    | send => exact Iocp.SendState.keeps_iff
    | recv | recvSome => exact Iocp.RecvState.keeps_iff
    | write => exact Iocp.WriteState.keeps_iff

/-- `2 ^ 32` bytes. A send, all of whose calls are accepted in full, need not end; a receive asks
for nothing and reports the end of the stream; a write on the IOCP backend succeeds with less. -/
theorem Transfer.not_keeps_two_pow :
    (¬Transition.Inevitable Epoll.SendState.step Epoll.SendState.Accepting Epoll.SendState.Finished
      (Epoll.SendState.start (2 ^ 32) (.bytes 0))) ∧
    (∃ s, Transition.Reachable Epoll.RecvState.step
      (Epoll.RecvState.start (2 ^ 32) false (.bytes 0)) s ∧ s.FalseEnd) ∧
    (∃ s, Transition.Reachable Iocp.WriteState.step
      (Iocp.WriteState.asynWrite ⟨[], 0⟩ (List.replicate (2 ^ 32) 0)) s ∧
        ∃ n < 2 ^ 32, s.place = .finished (.system 0) n) ∧
    ¬Transfer.send.Keeps .epoll (2 ^ 32) ∧ ¬Transfer.send.Keeps .iocp (2 ^ 32) ∧
    ¬Transfer.recv.Keeps .epoll (2 ^ 32) ∧ ¬Transfer.recv.Keeps .iocp (2 ^ 32) ∧
    ¬Transfer.write.Keeps .iocp (2 ^ 32) := by
  have hlt : ¬2 ^ 32 < 2 ^ 32 := Nat.lt_irrefl _
  have hrequested : (Epoll.SendOp.new (2 ^ 32)).requested = 0 := by decide
  have hdata : (List.replicate (2 ^ 32) (0 : Byte)).length = 2 ^ 32 := List.length_replicate
  refine ⟨?_, Epoll.RecvState.exists_falseEnd_of_dvd false (by decide) (Nat.dvd_refl _), ?_,
    fun h ↦ hlt (Epoll.SendState.keeps_iff.1 h), fun h ↦ hlt (Iocp.SendState.keeps_iff.1 h),
    fun h ↦ hlt (Epoll.RecvState.keeps_iff.1 h), fun h ↦ hlt (Iocp.RecvState.keeps_iff.1 h),
    fun h ↦ hlt (Iocp.WriteState.keeps_iff.1 h)⟩
  · have h := Epoll.SendState.not_ends_of_large (Nat.le_refl (2 ^ 32))
    rwa [hrequested] at h
  · have h := Iocp.WriteState.exists_short_of_large ⟨[], 0⟩ (Nat.le_of_eq hdata.symm)
    rwa [hdata] at h

end JnetLib
