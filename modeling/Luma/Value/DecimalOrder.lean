-- SUMMARY: Comparison of decimals is comparison of their values; the exact operations together.
import Luma.Value.DecimalArithmetic
import Mathlib.Data.Sign.Basic

/-! # Decimal Order

Comparison brings two decimals to a common scale and compares their coefficients. It
gives the sign of the difference of the values, whatever the two scales. -/

namespace Luma

open Codec
open Nat (ofDigits)

namespace Decimal

variable {a b d : Decimal}

/-- The hash is that of the canonical text. -/
def hash (stringHash : Bytes → UInt64) (d : Decimal) : UInt64 := stringHash d.canonical.toText

/-! ## Signs -/

theorem ofDigits_pos (h : d.digits ≠ []) : 0 < ofDigits 10 d.digits :=
  Nat.pos_of_ne_zero fun hzero => h (d.digits_trimmed.ofDigits_eq_zero.mp hzero)

theorem sign_of_ne_zero (h : d.sign ≠ 0) : d.sign = if d.negative then -1 else 1 := by
  have hnil : d.digits ≠ [] := fun hnil => h (sign_eq_zero.2 hnil)
  simp [sign, isZero, hnil]

theorem sign_eq : d.sign = d.coefficient.sign := by
  by_cases hnil : d.digits = []
  · simp [sign, isZero, coefficient, signed, hnil]
  · have hpos : 0 < ((ofDigits 10 d.digits : Nat) : Int) := Int.natCast_pos.2 (ofDigits_pos hnil)
    cases hneg : d.negative with
    | false =>
      simp only [sign, isZero, coefficient, signed, hneg, List.isEmpty_iff, hnil, if_false, Bool.false_eq_true]
      exact (Int.sign_eq_one_of_pos hpos).symm
    | true =>
      simp only [sign, isZero, coefficient, signed, hneg, List.isEmpty_iff, hnil, if_false, if_true]
      exact (Int.sign_eq_neg_one_of_neg (by omega)).symm

/-- The coefficient at a larger scale. -/
def scaledCoefficient (d : Decimal) (scale : Nat) : Int := d.coefficient * 10 ^ (scale - d.scale)

theorem sign_eq_scaled {scale : Nat} : d.sign = (d.scaledCoefficient scale).sign := by
  have hpower : (10 : Int) ^ (scale - d.scale) > 0 := by positivity
  rw [sign_eq, scaledCoefficient, Int.sign_mul, Int.sign_eq_one_of_pos hpower, mul_one]

theorem value_eq_scaled {scale : Nat} (h : d.scale ≤ scale) : d.value = d.scaledCoefficient scale / 10 ^ scale := by
  have hsplit : scale = d.scale + (scale - d.scale) := by omega
  rw [value, scaledCoefficient]
  nth_rewrite 2 [hsplit]
  rw [pow_add]
  push_cast
  rw [mul_div_mul_right _ _ (by positivity)]

theorem scaledCoefficient_eq {scale : Nat} :
    d.scaledCoefficient scale = signed d.negative (ofDigits 10 (magShiftLeft d.digits (scale - d.scale))) := by
  rw [ofDigits_magShiftLeft, scaledCoefficient, coefficient]
  cases d.negative <;> simp [signed]

/-! ## Comparison -/

/-- The sign of a difference of integers. -/
def compareInt (x y : Int) : Int := if x < y then -1 else if x = y then 0 else 1

theorem compareInt_of_sign_ne {x y : Int} (h : x.sign ≠ y.sign) :
    compareInt x y = if x.sign < y.sign then -1 else 1 := by
  rcases Int.lt_trichotomy x y with hlt | heq | hgt
  · have hsign : x.sign < y.sign := by
      rcases Int.lt_trichotomy x 0 with hx | hx | hx <;> rcases Int.lt_trichotomy y 0 with hy | hy | hy <;>
        simp_all [Int.sign_eq_neg_one_of_neg, Int.sign_eq_one_of_pos] <;> omega
    rw [compareInt, if_pos hlt, if_pos hsign]
  · exact absurd (congrArg Int.sign heq) h
  · have hsign : ¬ x.sign < y.sign := by
      rcases Int.lt_trichotomy x 0 with hx | hx | hx <;> rcases Int.lt_trichotomy y 0 with hy | hy | hy <;>
        simp_all [Int.sign_eq_neg_one_of_neg, Int.sign_eq_one_of_pos] <;> omega
    rw [compareInt, if_neg (by omega), if_neg (by omega), if_neg hsign]

/-- Comparison is that of the coefficients at the larger scale. -/
theorem compare_eq_compareInt :
    a.compare b = compareInt (a.scaledCoefficient (max a.scale b.scale)) (b.scaledCoefficient (max a.scale b.scale)) := by
  rw [compare]
  have hsignA : a.sign = (a.scaledCoefficient (max a.scale b.scale)).sign := sign_eq_scaled
  have hsignB : b.sign = (b.scaledCoefficient (max a.scale b.scale)).sign := sign_eq_scaled
  by_cases hsign : a.sign = b.sign
  · rw [if_neg (not_not.2 hsign)]
    by_cases hzero : a.sign = 0
    · rw [hzero] at hsignA
      rw [← hsign, hzero] at hsignB
      rw [if_pos hzero, Int.sign_eq_zero_iff_zero.1 hsignA.symm, Int.sign_eq_zero_iff_zero.1 hsignB.symm]
      rfl
    · rw [if_neg hzero, scaledCoefficient_eq, scaledCoefficient_eq]
      dsimp only
      have hcmp := magCompare_eq (a.shifted_trimmed (max a.scale b.scale - a.scale))
        (b.shifted_trimmed (max a.scale b.scale - b.scale))
      generalize ofDigits 10 (magShiftLeft a.digits (max a.scale b.scale - a.scale)) = left at hcmp
      generalize ofDigits 10 (magShiftLeft b.digits (max a.scale b.scale - b.scale)) = right at hcmp
      have hsignA' := sign_of_ne_zero hzero
      have hsignB' := sign_of_ne_zero (hsign ▸ hzero)
      rw [hsignA', hsignB'] at hsign
      rw [hcmp, hsignA']
      cases hnegA : a.negative <;> cases hnegB : b.negative <;> simp only [hnegA, hnegB] at hsign
      · simp [signed, compareInt]
      · cases hsign
      · cases hsign
      · simp only [signed, compareInt, if_true, Int.neg_lt_neg_iff, Int.neg_inj, Nat.cast_lt, Nat.cast_inj]
        rcases Nat.lt_trichotomy left right with hlt | heq | hgt
        · rw [if_pos hlt, if_neg (show ¬ right < left by omega), if_neg (show ¬ left = right by omega)]
          rfl
        · rw [heq]
          simp
        · rw [if_neg (show ¬ left < right by omega), if_neg (show ¬ left = right by omega), if_pos hgt]
          rfl
  · rw [if_pos hsign, compareInt_of_sign_ne (by rwa [← hsignA, ← hsignB]), ← hsignA, ← hsignB]

/-- Comparison gives the order of the values. -/
theorem compare_eq : a.compare b = if a.value < b.value then -1 else if a.value = b.value then 0 else 1 := by
  have hpos : (0 : Rat) < 10 ^ max a.scale b.scale := by positivity
  have hvalueA := value_eq_scaled (le_max_left a.scale b.scale)
  have hvalueB := value_eq_scaled (le_max_right a.scale b.scale)
  rw [compare_eq_compareInt, compareInt]
  generalize a.scaledCoefficient (max a.scale b.scale) = x at hvalueA
  generalize b.scaledCoefficient (max a.scale b.scale) = y at hvalueB
  have hlt : a.value < b.value ↔ x < y := by
    rw [hvalueA, hvalueB, div_lt_div_iff_of_pos_right hpos, Int.cast_lt]
  have heq : a.value = b.value ↔ x = y := by
    rw [hvalueA, hvalueB, div_left_inj' hpos.ne', Int.cast_inj]
  simp only [hlt, heq]

/-- Decimals that compare equal have one hash. -/
theorem hash_eq {stringHash : Bytes → UInt64} (h : a.compare b = 0) : a.hash stringHash = b.hash stringHash := by
  rw [hash, hash, compare_eq_zero.1 h]

/-! ## The exact operations -/

/-- The unique form of a decimal at its scale. -/
structure InUniqueForm (d : Decimal) : Prop where
  digit_lt : ∀ digit ∈ d.digits, digit < 10
  noLeadingZero : d.digits.getLast? ≠ some 0
  zeroNotNegative : d.value = 0 → d.negative = false

theorem inUniqueForm (d : Decimal) : d.InUniqueForm where
  digit_lt := d.digit_lt
  noLeadingZero := d.trimmed
  zeroNotNegative h := d.zero_nonneg (value_eq_zero.1 h)

/-- The operations are exact and give decimals in their unique form, comparison gives the
    sign of the difference, and decimals that compare equal hash equally. -/
theorem operations_exact (a b : Decimal) (stringHash : Bytes → UInt64) :
    ((a.add b).InUniqueForm ∧ (a.add b).value = a.value + b.value) ∧
    ((a.subtract b).InUniqueForm ∧ (a.subtract b).value = a.value - b.value) ∧
    (∀ product, a.multiply b = some product → product.InUniqueForm ∧ product.value = a.value * b.value) ∧
    (a.negate.InUniqueForm ∧ a.negate.value = -a.value) ∧
    a.compare b = (SignType.sign (a.value - b.value) : Int) ∧
    (a.compare b = 0 → a.hash stringHash = b.hash stringHash) := by
  refine ⟨⟨inUniqueForm _, add_value⟩, ⟨inUniqueForm _, subtract_value⟩, ?_, ⟨inUniqueForm _, negate_value⟩, ?_, hash_eq⟩
  · intro product hproduct
    exact ⟨inUniqueForm _, multiply_value hproduct⟩
  · rw [compare_eq]
    rcases lt_trichotomy a.value b.value with hlt | heq | hgt
    · rw [if_pos hlt, sign_neg (sub_neg.2 hlt)]
      rfl
    · rw [if_neg heq.not_lt, if_pos heq, heq, sub_self, sign_zero]
      rfl
    · rw [if_neg hgt.not_gt, if_neg hgt.ne', sign_pos (sub_pos.2 hgt)]
      rfl

end Decimal

end Luma
