-- SUMMARY: Big-endian byte encodings of natural numbers and their round trip.
import Mathlib.Data.Nat.Bitwise
import Mathlib.Tactic.Ring

/-! # Big-Endian Integers

Fixed-width big-endian encodings over byte lists. Writing truncates to the
requested width, as a cast to an unsigned integer type does; reading folds the
bytes most significant first. -/

namespace Codec

/-- The bytes of a buffer, a string or a stream. -/
abbrev Bytes := List UInt8

instance : LawfulBEq Bytes := inferInstance

/-- Append-order bytes of `value` in `width` bytes, most significant first. -/
def writeIntBe : (width : Nat) → (value : Nat) → Bytes
  | 0, _ => []
  | width + 1, value => UInt8.ofNat (value >>> (8 * width)) :: writeIntBe width value

/-- The number whose big-endian bytes are `bytes`, continuing from `value`. -/
def readIntBeFrom : (value : Nat) → Bytes → Nat
  | value, [] => value
  | value, byte :: rest => readIntBeFrom (value <<< 8 ||| byte.toNat) rest

/-- The number whose big-endian bytes are `bytes`. -/
def readIntBe (bytes : Bytes) : Nat := readIntBeFrom 0 bytes

@[simp] theorem writeIntBe_length (width value : Nat) :
    (writeIntBe width value).length = width := by
  induction width with
  | zero => rfl
  | succ width ih => simp [writeIntBe, ih]

/-- One step of the read loop is a base-256 digit step. -/
theorem shift_or_byte (value : Nat) (byte : UInt8) :
    value <<< 8 ||| byte.toNat = value * 256 + byte.toNat := by
  have hbyte : byte.toNat < 2 ^ 8 := byte.toNat_lt
  rw [← Nat.shiftLeft_add_eq_or_of_lt hbyte, Nat.shiftLeft_eq]

/-- The most significant byte and the remaining width split the value. -/
private theorem digit_split (width value : Nat) :
    value >>> (8 * width) % 256 * 256 ^ width + value % 256 ^ width =
      value % 256 ^ (width + 1) := by
  have hpow : (2 : Nat) ^ (8 * width) = 256 ^ width := by
    rw [Nat.pow_mul]
  rw [Nat.shiftRight_eq_div_pow, hpow, pow_succ, Nat.mod_mul, Nat.mul_comm, Nat.add_comm]

theorem readIntBeFrom_writeIntBe (acc width value : Nat) :
    readIntBeFrom acc (writeIntBe width value) =
      acc * 256 ^ width + value % 256 ^ width := by
  induction width generalizing acc with
  | zero => simp [writeIntBe, readIntBeFrom, Nat.mod_one]
  | succ width ih =>
    rw [writeIntBe, readIntBeFrom, shift_or_byte, ih, UInt8.toNat_ofNat',
      ← digit_split width value]
    ring

/-- Reading back a written integer gives the value truncated to the width. -/
theorem readIntBe_writeIntBe (width value : Nat) :
    readIntBe (writeIntBe width value) = value % 256 ^ width := by
  simp [readIntBe, readIntBeFrom_writeIntBe]

/-- A value that fits the width survives the round trip. -/
theorem readIntBe_writeIntBe_of_lt {width value : Nat} (hlt : value < 256 ^ width) :
    readIntBe (writeIntBe width value) = value := by
  rw [readIntBe_writeIntBe, Nat.mod_eq_of_lt hlt]

end Codec
