import Mathlib

/-!
# Transfer buffers

`const_buffer` and `mutable_buffer` walk a position through the caller's memory. The position is
modelled as its offset from the address the caller gave, so `raw() - buf_start_pos_` and
`raw_pos() - buf_start_pos_` are the offset itself. `size_t` quantities are naturals; conversions
that narrow to 32 bits are explicit (`toUInt32`).
-/

namespace JnetLib

/-- A `char`. -/
abbrev Byte := UInt8

/-- Conversion of a `size_t` to `unsigned int`, `ULONG` or `DWORD`. -/
def toUInt32 (n : ℕ) : ℕ := n % 2 ^ 32

theorem toUInt32_of_lt {n : ℕ} (h : n < 2 ^ 32) : toUInt32 n = n :=
  Nat.mod_eq_of_lt h

theorem toUInt32_lt (n : ℕ) : toUInt32 n < 2 ^ 32 :=
  Nat.mod_lt _ (by decide)

theorem toUInt32_le (n : ℕ) : toUInt32 n ≤ n :=
  Nat.mod_le _ _

/-- Cut to 32 bits, a count vanishes at every multiple of `2 ^ 32`. -/
theorem toUInt32_eq_zero_iff {n : ℕ} : toUInt32 n = 0 ↔ 2 ^ 32 ∣ n :=
  Nat.dvd_iff_mod_eq_zero.symm

/-- What is left above a cut count is a multiple of `2 ^ 32`. -/
theorem le_sub_of_le_toUInt32 {n k : ℕ} (hn : 2 ^ 32 ≤ n) (hk : k ≤ toUInt32 n) :
    2 ^ 32 ≤ n - k := by
  rw [toUInt32] at hk
  omega

/-- A request for some of what is left to transfer, and not for nothing while anything is left. -/
def RequestFits (remaining requested : ℕ) : Prop :=
  0 < remaining → 1 ≤ requested ∧ requested ≤ remaining

theorem requestFits_toUInt32_iff {n : ℕ} :
    RequestFits n (toUInt32 n) ↔ n = 0 ∨ ¬2 ^ 32 ∣ n := by
  rw [RequestFits, ← toUInt32_eq_zero_iff]
  have hle := toUInt32_le n
  constructor
  · intro h
    by_cases hn : 0 < n
    · exact .inr (by have := (h hn).1; omega)
    · exact .inl (by omega)
  · rintro (rfl | h) hn
    · exact absurd hn (Nat.lt_irrefl 0)
    · exact ⟨by omega, hle⟩

/-- A cap does not matter. -/
theorem requestFits_min_iff {n cap : ℕ} (hcap : 0 < cap) :
    RequestFits n (min (toUInt32 n) cap) ↔ n = 0 ∨ ¬2 ^ 32 ∣ n := by
  rw [← requestFits_toUInt32_iff, RequestFits, RequestFits]
  have hle := toUInt32_le n
  refine forall_congr' fun _ ↦ ?_
  omega

theorem eq_zero_or_not_dvd_of_lt {n : ℕ} (h : n < 2 ^ 32) : n = 0 ∨ ¬2 ^ 32 ∣ n := by
  rw [← toUInt32_eq_zero_iff, toUInt32_of_lt h]
  exact Decidable.em _

/-- `const_buffer`: what is left to send, and where it starts. -/
structure ConstBuffer where
  buf : ℕ
  len : ℕ
  deriving DecidableEq, Repr

/-- `const_buffer::consume`. -/
def ConstBuffer.consume (b : ConstBuffer) (n : ℕ) : ConstBuffer := ⟨b.buf + n, b.len - n⟩

@[simp]
theorem ConstBuffer.consume_buf (b : ConstBuffer) (n : ℕ) : (b.consume n).buf = b.buf + n :=
  rfl

@[simp]
theorem ConstBuffer.consume_len (b : ConstBuffer) (n : ℕ) : (b.consume n).len = b.len - n :=
  rfl

/-- `mutable_buffer`: the write position, the size of the memory and the bytes already there. -/
structure MutableBuffer where
  buf : ℕ
  size : ℕ
  len : ℕ
  deriving DecidableEq, Repr

/-- `mutable_buffer::append`. -/
def MutableBuffer.append (b : MutableBuffer) (n : ℕ) : MutableBuffer :=
  { b with buf := b.buf + n, len := b.len + n }

/-- `mutable_buffer::remain`. -/
def MutableBuffer.remain (b : MutableBuffer) : ℕ := b.size - b.len

@[simp]
theorem MutableBuffer.append_buf (b : MutableBuffer) (n : ℕ) : (b.append n).buf = b.buf + n :=
  rfl

@[simp]
theorem MutableBuffer.append_size (b : MutableBuffer) (n : ℕ) : (b.append n).size = b.size :=
  rfl

@[simp]
theorem MutableBuffer.append_len (b : MutableBuffer) (n : ℕ) : (b.append n).len = b.len + n :=
  rfl

/-- The lengths for which no count of bytes left is a positive multiple of `2 ^ 32`. A receive of
some bytes (`some_` true) never gets to a second count. -/
def Narrowable (some_ : Bool) (len : ℕ) : Prop :=
  if some_ then len = 0 ∨ ¬2 ^ 32 ∣ len else len < 2 ^ 32

instance (some_ : Bool) (len : ℕ) : Decidable (Narrowable some_ len) :=
  inferInstanceAs (Decidable (if some_ then len = 0 ∨ ¬2 ^ 32 ∣ len else len < 2 ^ 32))

theorem cases_of_not_narrowable {some_ : Bool} {len : ℕ} (h : ¬Narrowable some_ len) :
    0 < len ∧ 2 ^ 32 ∣ len ∨ some_ = false ∧ 2 ^ 32 ≤ len ∧ ¬2 ^ 32 ∣ len := by
  rcases Nat.eq_zero_or_pos len with rfl | hpos
  · cases some_ <;> exact absurd (by decide) h
  · by_cases hdvd : 2 ^ 32 ∣ len
    · exact .inl ⟨hpos, hdvd⟩
    · cases some_ with
      | true => exact absurd (.inr hdvd) h
      | false => exact .inr ⟨rfl, Nat.le_of_not_lt h, hdvd⟩

namespace MutableBuffer

/-- The buffer of a receive for `len` bytes that has not called back. A receive of some bytes has
used nothing of it. -/
structure Sized (some_ : Bool) (len : ℕ) (b : MutableBuffer) : Prop where
  size : b.size = len
  buf : b.buf = b.len
  fresh : some_ = true → b.len = 0

variable {some_ : Bool} {len : ℕ} {b : MutableBuffer}

theorem sized_new (some_ : Bool) (len : ℕ) : Sized some_ len ⟨0, len, 0⟩ :=
  ⟨rfl, rfl, fun _ ↦ rfl⟩

theorem Sized.append (h : Sized false len b) (n : ℕ) : Sized false len (b.append n) := by
  refine ⟨h.size, ?_, fun hsome ↦ absurd hsome (by decide)⟩
  rw [append_buf, append_len, h.buf]

theorem Sized.remain (h : Sized some_ len b) : b.remain = len - b.buf := by
  rw [MutableBuffer.remain, h.size, h.buf]

theorem Sized.narrowable (h : Sized some_ len b) (hlen : Narrowable some_ len) :
    b.remain = 0 ∨ ¬2 ^ 32 ∣ b.remain := by
  rw [h.remain, h.buf]
  cases some_ with
  | true =>
    rw [h.fresh rfl]
    exact hlen
  | false =>
    have hlt : len < 2 ^ 32 := hlen
    exact eq_zero_or_not_dvd_of_lt (Nat.lt_of_le_of_lt (Nat.sub_le _ _) hlt)

end MutableBuffer

end JnetLib
