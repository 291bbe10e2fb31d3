-- SUMMARY: Little-endian byte encodings of natural numbers and their round trip.
import Luma.Library.BigEndian

/-! # Little-Endian Integers

Fixed-width little-endian encodings over byte lists. Writing truncates to the requested
width, as a cast to an unsigned integer type does. -/

namespace Codec

/-- The bytes of `value` in `width` bytes, least significant first. -/
def writeIntLe : (width : Nat) → (value : Nat) → Bytes
  | 0, _ => []
  | width + 1, value => UInt8.ofNat value :: writeIntLe width (value >>> 8)

/-- The number whose little-endian bytes are `bytes`. -/
def readIntLe : Bytes → Nat
  | [] => 0
  | byte :: rest => readIntLe rest <<< 8 ||| byte.toNat

@[simp] theorem writeIntLe_length (width value : Nat) : (writeIntLe width value).length = width := by
  induction width generalizing value with
  | zero => rfl
  | succ width ih => rw [writeIntLe, List.length_cons, ih]

/-- Reading back a written integer gives the value truncated to the width. -/
theorem readIntLe_writeIntLe (width value : Nat) : readIntLe (writeIntLe width value) = value % 256 ^ width := by
  induction width generalizing value with
  | zero => rw [writeIntLe, readIntLe, pow_zero, Nat.mod_one]
  | succ width ih =>
    have hbyte : (UInt8.ofNat value).toNat = value % 256 := UInt8.toNat_ofNat'
    have hshift : value >>> 8 = value / 256 := Nat.shiftRight_eq_div_pow value 8
    rw [writeIntLe, readIntLe, shift_or_byte, ih, hbyte, hshift, pow_succ', Nat.mod_mul, Nat.mul_comm, Nat.add_comm]

/-- A value that fits the width survives the round trip. -/
theorem readIntLe_writeIntLe_of_lt {width value : Nat} (hlt : value < 256 ^ width) :
    readIntLe (writeIntLe width value) = value := by
  rw [readIntLe_writeIntLe, Nat.mod_eq_of_lt hlt]

end Codec
