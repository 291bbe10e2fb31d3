-- SUMMARY: Numbers in texts as the standard library reads them: std::stoi and std::stoull.
import Mathlib.Data.List.TakeWhile
import Mathlib.Data.Nat.Digits.Defs
import Luma.Library.BigEndian

/-! # Numbers in texts

`std::stoi` and `std::stoull` read the number at the front of a text, behind white space
and a sign, and do not look at what follows it. -/

namespace Luma.TextNumbers

open Codec

def isSpace (c : UInt8) : Bool := c = 32 || (9 ≤ c && c ≤ 13)

def isDigit (c : UInt8) : Bool := 48 ≤ c && c ≤ 57

def decimalValue (digits : Bytes) : Nat := digits.foldl (fun value c => value * 10 + (c.toNat - 48)) 0

/-- What is behind a sign, and whether the sign is a minus. -/
def splitSign (text : Bytes) : Bool × Bytes :=
  if text.head? = some 45 then (true, text.tail)
  else if text.head? = some 43 then (false, text.tail)
  else (false, text)

/-- The sign and the size of the number at the front of a text. -/
def leadingNumber (text : Bytes) : Option (Bool × Nat) :=
  let signed := splitSign (text.dropWhile isSpace)
  let digits := signed.2.takeWhile isDigit
  if digits = [] then none else some (signed.1, decimalValue digits)

/-- `std::stoi`; nothing where it throws. -/
def stoi (text : Bytes) : Option Int :=
  (leadingNumber text).bind fun number =>
    let value : Int := if number.1 then -number.2 else number.2
    if -2 ^ 31 ≤ value ∧ value < 2 ^ 31 then some value else none

/-- `std::stoull`; a minus sign negates modulo 2 ^ 64. -/
def stoull (text : Bytes) : Option Nat :=
  (leadingNumber text).bind fun number =>
    if number.2 < 2 ^ 64 then some (if number.1 then (2 ^ 64 - number.2) % 2 ^ 64 else number.2) else none

/-- Decimal digits and nothing else. -/
def IsDecimal (text : Bytes) : Prop := text ≠ [] ∧ ∀ c ∈ text, isDigit c = true

instance {text : Bytes} : Decidable (IsDecimal text) :=
  decidable_of_iff (text ≠ [] ∧ text.all isDigit = true) (and_congr_right fun _ => List.all_eq_true)

section Decimals

variable {text : Bytes}

theorem isDigit_cases {c : UInt8} (h : isDigit c = true) : isSpace c = false ∧ c ≠ 45 ∧ c ≠ 43 := by
  rw [isDigit, Bool.and_eq_true, decide_eq_true_eq, decide_eq_true_eq, UInt8.le_iff_toNat_le, UInt8.le_iff_toNat_le] at h
  refine ⟨?_, ?_, ?_⟩
  · rw [isSpace, Bool.or_eq_false_iff, Bool.and_eq_false_iff, decide_eq_false_iff_not, decide_eq_false_iff_not,
      decide_eq_false_iff_not, UInt8.le_iff_toNat_le, UInt8.le_iff_toNat_le]
    refine ⟨?_, Or.inr ?_⟩
    · rintro rfl
      exact absurd h.1 (by decide)
    · intro hle
      exact absurd (h.1.trans hle) (by decide)
  · rintro rfl
    exact absurd h.1 (by decide)
  · rintro rfl
    exact absurd h.1 (by decide)

/-- A decimal number is read as a whole. -/
theorem leadingNumber_of_isDecimal (h : IsDecimal text) : leadingNumber text = some (false, decimalValue text) := by
  obtain ⟨hne, hdigits⟩ := h
  obtain ⟨c, rest, rfl⟩ := List.exists_cons_of_ne_nil hne
  obtain ⟨hspace, hminus, hplus⟩ := isDigit_cases (hdigits c List.mem_cons_self)
  have hfront : (c :: rest).dropWhile isSpace = c :: rest := by
    rw [List.dropWhile_cons, hspace, if_neg Bool.false_ne_true]
  have hsign : splitSign (c :: rest) = (false, c :: rest) := by
    rw [splitSign, List.head?_cons, if_neg (by simpa using hminus), if_neg (by simpa using hplus)]
  have hall : (c :: rest).takeWhile isDigit = c :: rest := List.takeWhile_eq_self_iff.mpr hdigits
  rw [leadingNumber, hfront, hsign]
  simp only [hall]
  rw [if_neg (List.cons_ne_nil _ _)]

end Decimals

/-! ## Numbers written in decimal -/

/-- A number in decimal digits. -/
def decimalText (n : Nat) : Bytes :=
  if n = 0 then [48] else (Nat.digits 10 n).reverse.map fun d => UInt8.ofNat (48 + d)

/-- A number in at least `width` digits, with zeros in front. -/
def zeroPadded (width n : Nat) : Bytes := List.replicate (width - (decimalText n).length) 48 ++ decimalText n

/-- `std::format` of an integer with the specification `0width`; the sign takes up one place. -/
def formatNumber (width : Nat) (n : Int) : Bytes :=
  if n < 0 then 45 :: zeroPadded (width - 1) n.natAbs else zeroPadded width n.natAbs

section Written

variable {n : Nat}

theorem isDigit_ofNat {d : Nat} (h : d < 10) : isDigit (UInt8.ofNat (48 + d)) = true := by
  have hbyte : (UInt8.ofNat (48 + d)).toNat = 48 + d := by
    rw [UInt8.toNat_ofNat', Nat.mod_eq_of_lt (by omega)]
  rw [isDigit, Bool.and_eq_true, decide_eq_true_eq, decide_eq_true_eq, UInt8.le_iff_toNat_le, UInt8.le_iff_toNat_le, hbyte]
  exact ⟨Nat.le_add_right 48 d, Nat.add_le_add_left (Nat.le_of_lt_succ h) 48⟩

theorem decimalText_ne_nil : decimalText n ≠ [] := by
  rw [decimalText]
  split
  · exact List.cons_ne_nil _ _
  next hne => simpa [Nat.digits_eq_nil_iff_eq_zero] using hne

theorem decimalText_isDigit : ∀ c ∈ decimalText n, isDigit c = true := by
  rw [decimalText]
  split
  · intro c hc
    rw [List.mem_singleton.mp hc]
    rfl
  · intro c hc
    obtain ⟨d, hd, rfl⟩ := List.mem_map.mp hc
    exact isDigit_ofNat (Nat.digits_lt_base (by decide) (List.mem_reverse.mp hd))

/-- Digits written from the last one on are read back. -/
theorem decimalValue_digits {digits : List Nat} (h : ∀ d ∈ digits, d < 10) :
    decimalValue (digits.reverse.map fun d => UInt8.ofNat (48 + d)) = Nat.ofDigits 10 digits := by
  rw [decimalValue, List.foldl_map, List.foldl_reverse]
  induction digits with
  | nil => rfl
  | cons d digits ih =>
    have hd : d < 10 := h d List.mem_cons_self
    rw [List.foldr_cons, ih fun e he => h e (List.mem_cons_of_mem _ he), Nat.ofDigits_cons, UInt8.toNat_ofNat',
      Nat.mod_eq_of_lt (by omega)]
    omega

theorem decimalValue_decimalText : decimalValue (decimalText n) = n := by
  rw [decimalText]
  split
  next hzero => exact hzero.symm
  · rw [decimalValue_digits fun d hd => Nat.digits_lt_base (by decide) hd, Nat.ofDigits_digits]

theorem decimalValue_zeros {count : Nat} {text : Bytes} : decimalValue (List.replicate count 48 ++ text) = decimalValue text := by
  rw [decimalValue, decimalValue, List.foldl_append]
  have hzero : (List.replicate count 48).foldl (fun value (c : UInt8) => value * 10 + (c.toNat - 48)) 0 = 0 := by
    induction count with
    | zero => rfl
    | succ count ih => exact ih
  rw [hzero]

/-- Zeros in front change nothing. -/
theorem zeroPadded_isDecimal {width : Nat} : IsDecimal (zeroPadded width n) ∧ decimalValue (zeroPadded width n) = n := by
  refine ⟨⟨?_, ?_⟩, ?_⟩
  · exact List.append_ne_nil_of_right_ne_nil _ decimalText_ne_nil
  · intro c hc
    rcases List.mem_append.mp hc with hzero | hdigit
    · rw [List.eq_of_mem_replicate hzero]
      rfl
    · exact decimalText_isDigit c hdigit
  · rw [zeroPadded, decimalValue_zeros, decimalValue_decimalText]

end Written

end Luma.TextNumbers
