-- SUMMARY: UTF-8 texts: the bytes of a character and of a text.
import Mathlib.Tactic.Common

/-! # UTF-8

The bytes of a character are a lead byte, which tells how many there are, and
continuation bytes. The bytes of a text are those of its characters. -/

namespace Utf8

/-- The bytes of a text. -/
def encode (text : List Char) : List UInt8 := text.flatMap String.utf8EncodeChar

@[simp] theorem encode_nil : encode [] = [] := rfl

@[simp] theorem encode_cons {c : Char} {text : List Char} :
    encode (c :: text) = String.utf8EncodeChar c ++ encode text := rfl

@[simp] theorem encode_append {text text' : List Char} : encode (text ++ text') = encode text ++ encode text' :=
  List.flatMap_append

/-- A continuation byte. -/
def IsTail (b : UInt8) : Prop := 0x80 ≤ b.toNat ∧ b.toNat < 0xC0

/-- The bytes that a character can have, by their number. -/
inductive CharBytes (c : Char) : List UInt8 → Prop where
  | one {a : UInt8} : c.toNat < 0x80 → a.toNat = c.toNat → CharBytes c [a]
  | two {a b : UInt8} : 0x80 ≤ c.toNat → c.toNat < 0x10000 → 0xC2 ≤ a.toNat → a.toNat < 0xE0 →
      IsTail b → CharBytes c [a, b]
  | three {a b b' : UInt8} : 0x80 ≤ c.toNat → c.toNat < 0x10000 → 0xE0 ≤ a.toNat → a.toNat < 0xF0 →
      IsTail b → IsTail b' → CharBytes c [a, b, b']
  | four {a b b' b'' : UInt8} : 0x10000 ≤ c.toNat → 0xF0 ≤ a.toNat → a.toNat < 0xF5 →
      IsTail b → IsTail b' → IsTail b'' → CharBytes c [a, b, b', b'']

theorem isTail_ofNat {n : Nat} : IsTail (UInt8.ofNat (n % 0x40 + 0x80)) := by
  have hbelow : n % 0x40 + 0x80 < 256 := by omega
  rw [IsTail, UInt8.toNat_ofNat', Nat.mod_eq_of_lt hbelow]
  omega

theorem toNat_lt (c : Char) : c.toNat < 0x110000 := by
  have hvalid := c.valid
  simp only [UInt32.isValidChar, Nat.isValidChar] at hvalid
  change c.val.toNat < 0x110000
  omega

/-- Every character is encoded by bytes that it can have. -/
theorem charBytes (c : Char) : CharBytes c (String.utf8EncodeChar c) := by
  have hlimit := toNat_lt c
  change CharBytes c (if c.toNat ≤ 0x7f then [UInt8.ofNat c.toNat]
    else if c.toNat ≤ 0x7ff then _ else if c.toNat ≤ 0xffff then _ else _)
  split
  · rename_i hone
    refine .one (by omega) ?_
    rw [UInt8.toNat_ofNat', Nat.mod_eq_of_lt (by omega)]
  · rename_i hone
    split
    · rename_i htwo
      have hlead : c.toNat / 64 % 0x20 + 0xc0 < 256 := by omega
      refine .two (by omega) (by omega) ?_ ?_ isTail_ofNat
      · change 0xC2 ≤ (UInt8.ofNat (c.toNat / 64 % 0x20 + 0xc0)).toNat
        rw [UInt8.toNat_ofNat', Nat.mod_eq_of_lt hlead]
        omega
      · change (UInt8.ofNat (c.toNat / 64 % 0x20 + 0xc0)).toNat < 0xE0
        rw [UInt8.toNat_ofNat', Nat.mod_eq_of_lt hlead]
        omega
    · rename_i htwo
      split
      · rename_i hthree
        have hlead : c.toNat / 4096 % 0x10 + 0xe0 < 256 := by omega
        refine .three (by omega) (by omega) ?_ ?_ isTail_ofNat isTail_ofNat
        · change 0xE0 ≤ (UInt8.ofNat (c.toNat / 4096 % 0x10 + 0xe0)).toNat
          rw [UInt8.toNat_ofNat', Nat.mod_eq_of_lt hlead]
          omega
        · change (UInt8.ofNat (c.toNat / 4096 % 0x10 + 0xe0)).toNat < 0xF0
          rw [UInt8.toNat_ofNat', Nat.mod_eq_of_lt hlead]
          omega
      · rename_i hthree
        have hlead : c.toNat / 262144 % 0x08 + 0xf0 < 256 := by omega
        refine .four (by omega) ?_ ?_ isTail_ofNat isTail_ofNat isTail_ofNat
        · change 0xF0 ≤ (UInt8.ofNat (c.toNat / 262144 % 0x08 + 0xf0)).toNat
          rw [UInt8.toNat_ofNat', Nat.mod_eq_of_lt hlead]
          omega
        · change (UInt8.ofNat (c.toNat / 262144 % 0x08 + 0xf0)).toNat < 0xF5
          rw [UInt8.toNat_ofNat', Nat.mod_eq_of_lt hlead]
          omega

/-- A byte of an ASCII character is that character. -/
theorem eq_of_mem_of_lt {c : Char} {b : UInt8} (h : b ∈ String.utf8EncodeChar c) (hb : b.toNat < 0x80) :
    String.utf8EncodeChar c = [b] ∧ c.toNat = b.toNat := by
  have hbytes := charBytes c
  generalize String.utf8EncodeChar c = bytes at h hbytes
  cases hbytes with
  | one hc ha =>
    rw [List.mem_singleton] at h
    exact ⟨by rw [h], by rw [h, ha]⟩
  | two hc hc' ha ha' ht =>
    simp only [IsTail, List.mem_cons, List.not_mem_nil, or_false] at ht h
    rcases h with rfl | rfl <;> omega
  | three hc hc' ha ha' ht ht' =>
    simp only [IsTail, List.mem_cons, List.not_mem_nil, or_false] at ht ht' h
    rcases h with rfl | rfl | rfl <;> omega
  | four hc ha ha' ht ht' ht'' =>
    simp only [IsTail, List.mem_cons, List.not_mem_nil, or_false] at ht ht' ht'' h
    rcases h with rfl | rfl | rfl | rfl <;> omega

theorem utf8EncodeChar_ne_nil {c : Char} : String.utf8EncodeChar c ≠ [] := by
  intro h
  have hbytes := charBytes c
  rw [h] at hbytes
  cases hbytes

end Utf8
