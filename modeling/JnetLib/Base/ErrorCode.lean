import Mathlib

/-!
# Error codes

`iocp::error_code` pairs an `int` with the describer that gives the value its meaning, and is read
as a truth value through the value alone (`operator bool`). So `EPERM` and the frame's own `eof`
share the value `1` and differ in the describer.
-/

namespace JnetLib

/-- The describer functions an `error_code` can carry, and the null pointer. -/
inductive Describer
  | null
  | frame
  | system
  | http
  | ssl
  deriving DecidableEq, Repr

/-- `iocp::error_code`. -/
structure ErrorCode where
  value : ℤ
  describer : Describer
  deriving DecidableEq, Repr

namespace ErrorCode

/-- The default constructor: no error, described by the frame. -/
def noError : ErrorCode := ⟨0, .frame⟩

/-- `error_code(v, system_error_despcriber)`. -/
def system (v : ℤ) : ErrorCode := ⟨v, .system⟩

/-- `iocp::error::eof` under the frame's describer. -/
def eof : ErrorCode := ⟨1, .frame⟩

/-- `iocp::error::already_open` under the frame's describer. -/
def alreadyOpen : ErrorCode := ⟨2, .frame⟩

/-- `iocp::error::already_exists` under the frame's describer. -/
def alreadyExists : ErrorCode := ⟨4, .frame⟩

/-- `iocp::error::epoll_flag` under the frame's describer. -/
def epollFlag : ErrorCode := ⟨5, .frame⟩

/-- `operator bool`. -/
def isError (ec : ErrorCode) : Bool := ec.value != 0

/-- `set_value`: the describer stays. -/
def setValue (ec : ErrorCode) (v : ℤ) : ErrorCode := { ec with value := v }

@[simp]
theorem isError_noError : noError.isError = false :=
  rfl

@[simp]
theorem isError_eof : eof.isError = true :=
  rfl

@[simp]
theorem isError_epollFlag : epollFlag.isError = true :=
  rfl

@[simp]
theorem isError_system (v : ℤ) : (system v).isError = (v != 0) :=
  rfl

theorem isError_eq_false_iff {ec : ErrorCode} : ec.isError = false ↔ ec.value = 0 := by
  simp [isError]

theorem isError_eq_true_iff {ec : ErrorCode} : ec.isError = true ↔ ec.value ≠ 0 := by
  simp [isError]

/-- A system error is never the frame's end of file, whatever its value. -/
theorem system_ne_eof (v : ℤ) : system v ≠ eof := by
  simp [system, eof]

/-- An operating system's error number is never the frame's `already_open` either. -/
theorem system_ne_alreadyOpen (v : ℤ) : system v ≠ alreadyOpen := by
  simp [system, alreadyOpen]

end ErrorCode

/-- The `errno` values the epoll backend tests for. -/
def EAGAIN : ℤ := 11

@[inherit_doc EAGAIN]
def EINPROGRESS : ℤ := 115

/-- `ec.value() == EAGAIN || ec.value() == EINPROGRESS`. -/
def ErrorCode.wouldBlock (ec : ErrorCode) : Bool := ec.value == EAGAIN || ec.value == EINPROGRESS

@[simp]
theorem ErrorCode.wouldBlock_eof : ErrorCode.eof.wouldBlock = false :=
  rfl

theorem ErrorCode.isError_of_wouldBlock {ec : ErrorCode} (h : ec.wouldBlock = true) :
    ec.isError = true := by
  simp only [wouldBlock, EAGAIN, EINPROGRESS, Bool.or_eq_true, beq_iff_eq] at h
  rw [isError_eq_true_iff]
  omega

end JnetLib
