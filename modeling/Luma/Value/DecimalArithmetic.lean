-- SUMMARY: Decimal addition, multiplication, division and rounding, and the values they produce.
import Luma.Value.DecimalDigits
import Mathlib.Data.Rat.Cast.Order
import Mathlib.Tactic.Positivity

/-! # Decimal Arithmetic

The operations on decimals as the runtime computes them, and the value of a
decimal as a rational number. Addition, subtraction, multiplication, negation
and rounding to more places are exact. -/

namespace Luma

open Nat (ofDigits)

/-- Rounding strategies. The half modes differ when exactly one half is discarded. -/
inductive RoundingMode where
  | halfUp
  | halfEven
  | halfDown
  | up
  | down
  | ceiling
  | floor
  deriving DecidableEq

/-- Whether the kept coefficient is incremented. `cmpHalf` compares the discarded part with one half. -/
def applyRounding (anyRemainder : Bool) (cmpHalf : Int) (lastKeptOdd negative : Bool) : RoundingMode → Bool
  | .down => false
  | .up => anyRemainder
  | .ceiling => anyRemainder && !negative
  | .floor => anyRemainder && negative
  | .halfUp => cmpHalf ≥ 0
  | .halfDown => cmpHalf > 0
  | .halfEven => cmpHalf > 0 || (cmpHalf = 0 && lastKeptOdd)

/-- Nothing is rounded up unless something was discarded. -/
theorem applyRounding_anyRemainder {anyRemainder lastKeptOdd negative : Bool} {cmpHalf : Int} {mode : RoundingMode}
    (hexact : anyRemainder = false → cmpHalf = -1)
    (h : applyRounding anyRemainder cmpHalf lastKeptOdd negative mode = true) : anyRemainder = true := by
  by_contra hnone
  rw [Bool.not_eq_true] at hnone
  cases mode <;> simp [applyRounding, hnone, hexact hnone] at h

namespace Decimal

/-- The bound on the number of coefficient digits. -/
def kMaxDigits : Nat := 1000000

/-- The decimal with the given parts, in its unique form. -/
def trim (digits : Mag) (hdigits : digits.Digits) (scale : Nat) (negative : Bool) : Decimal where
  digits := magTrim digits
  scale
  negative := !(magTrim digits).isEmpty && negative
  digit_lt := magTrim_digits hdigits
  trimmed := (magTrim_trimmed hdigits).top
  zero_nonneg h := by simp [h]

theorem digits_trimmed (d : Decimal) : d.digits.Trimmed := ⟨d.digit_lt, d.trimmed⟩

theorem shifted_trimmed (d : Decimal) (shift : Nat) : (magShiftLeft d.digits shift).Trimmed :=
  magShiftLeft_trimmed d.digits_trimmed

def negate (d : Decimal) : Decimal :=
  if h : d.digits = [] then d
  else { d with negative := !d.negative, zero_nonneg := fun hnil => absurd hnil h }

def add (a b : Decimal) : Decimal :=
  let commonScale := max a.scale b.scale
  let left := magShiftLeft a.digits (commonScale - a.scale)
  let right := magShiftLeft b.digits (commonScale - b.scale)
  have hleft := (a.shifted_trimmed (commonScale - a.scale)).digits
  have hright := (b.shifted_trimmed (commonScale - b.scale)).digits
  if a.negative = b.negative then trim (magAdd left right) (magAdd_digits hleft hright) commonScale a.negative
  else if magCompare left right ≥ 0 then
    trim (magSub left right) (magSub_trimmed hleft).digits commonScale a.negative
  else trim (magSub right left) (magSub_trimmed hright).digits commonScale b.negative

def subtract (a b : Decimal) : Decimal := a.add b.negate

/-- The exact product, unless it could exceed the digit cap. -/
def multiply (a b : Decimal) : Option Decimal :=
  if a.digits.length + b.digits.length > kMaxDigits then none
  else
    let productScale := a.scale + b.scale
    if productScale > kMaxDigits then none
    else
      some (trim (magMul a.digits b.digits) magMul_trimmed.digits productScale (a.negative != b.negative))

/-- The kept digits, one more in the last place when the rest is rounded up. -/
def incrementIf (roundUp : Bool) (kept : Mag) : Mag := if roundUp then magAdd kept [1] else kept

theorem incrementIf_digits {roundUp : Bool} {kept : Mag} (h : kept.Digits) : (incrementIf roundUp kept).Digits := by
  unfold incrementIf
  split
  · exact magAdd_digits h (Mag.digits_nil.cons (by decide))
  · exact h

theorem ofDigits_incrementIf {roundUp : Bool} {kept : Mag} :
    ofDigits 10 (incrementIf roundUp kept) = ofDigits 10 kept + if roundUp then 1 else 0 := by
  cases roundUp <;> simp [incrementIf]

/-- Long division with rounding of the last digit. -/
def divideMagnitudes (numerator denominator : Mag) (negative : Bool) (mode : RoundingMode) : Mag :=
  let (quotient, remainder) := magDivmod numerator denominator
  let anyRemainder := !remainder.isEmpty
  let cmpHalf := if anyRemainder then magCompare (magMulSmall remainder 2) denominator else -1
  let lastOdd := !quotient.isEmpty && quotient.headD 0 % 2 = 1
  incrementIf (applyRounding anyRemainder cmpHalf lastOdd negative mode) quotient

theorem divideMagnitudes_digits {numerator denominator : Mag} {negative : Bool} {mode : RoundingMode} :
    (divideMagnitudes numerator denominator negative mode).Digits :=
  incrementIf_digits magDivmod_trimmed.digits

/-- The quotient with exactly `resultScale` digits after the point. -/
def divide (a divisor : Decimal) (resultScale : Int) (mode : RoundingMode) : Option Decimal :=
  if divisor.isZero || resultScale < 0 then none
  else
    let resultNegative := a.negative != divisor.negative
    let exp := resultScale + divisor.scale - a.scale
    let quotient (numerator denominator : Mag) : Decimal :=
      trim (divideMagnitudes numerator denominator resultNegative mode) divideMagnitudes_digits
        resultScale.toNat resultNegative
    if exp ≥ 0 then
      if a.digits.length + exp.toNat > kMaxDigits then none
      else some (quotient (magShiftLeft a.digits exp.toNat) divisor.digits)
    else
      let shift := (-exp).toNat
      if divisor.digits.length + shift > kMaxDigits then none
      else some (quotient a.digits (magShiftLeft divisor.digits shift))

/-- A number of places between zero and the digit cap. -/
def clampPlaces (places : Int) : Nat :=
  let places := if places < 0 then 0 else places
  let places := if places > kMaxDigits then (kMaxDigits : Int) else places
  places.toNat

/-- The digits that are kept when the `drop` lowest are rounded away. -/
def roundDigits (digits : Mag) (drop : Nat) (negative : Bool) (mode : RoundingMode) : Mag :=
  let kept := digits.drop drop
  -- Digits beyond the stored ones are implicit zeros.
  let firstDropped := digits.getD (drop - 1) 0
  let restNonzero := (digits.take (drop - 1)).any (· ≠ 0)
  let anyRemainder := firstDropped ≠ 0 || restNonzero
  let cmpHalf : Int :=
    if firstDropped > 5 || (firstDropped = 5 && restNonzero) then 1
    else if firstDropped = 5 then 0
    else -1
  let lastOdd := !kept.isEmpty && kept.headD 0 % 2 = 1
  incrementIf (applyRounding anyRemainder cmpHalf lastOdd negative mode) kept

theorem roundDigits_digits {digits : Mag} (h : digits.Digits) {drop : Nat} {negative : Bool} {mode : RoundingMode} :
    (roundDigits digits drop negative mode).Digits :=
  incrementIf_digits fun d hd => h d (List.mem_of_mem_drop hd)

/-- The value with exactly `places` digits after the point. -/
def round (d : Decimal) (places : Int) (mode : RoundingMode) : Decimal :=
  let places := clampPlaces places
  if places ≥ d.scale then
    trim (magShiftLeft d.digits (places - d.scale)) (d.shifted_trimmed _).digits places d.negative
  else
    trim (roundDigits d.digits (d.scale - places) d.negative mode) (roundDigits_digits d.digit_lt) places
      d.negative

/-! ## Values -/

/-- A number with a sign. -/
def signed (negative : Bool) (n : Nat) : Int := if negative then -n else n

/-- The coefficient, a signed integer. -/
def coefficient (d : Decimal) : Int := signed d.negative (ofDigits 10 d.digits)

/-- The rational number a decimal stands for. -/
def value (d : Decimal) : Rat := d.coefficient / 10 ^ d.scale

variable {a b d : Decimal}

@[simp] theorem natAbs_signed {negative : Bool} {n : Nat} : (signed negative n).natAbs = n := by
  cases negative <;> simp [signed]

theorem signed_add {negative : Bool} {m n : Nat} :
    signed negative (m + n) = signed negative m + signed negative n := by
  cases negative <;> simp [signed, add_comm]

theorem signed_mul {negative negative' : Bool} {m n : Nat} :
    signed (negative != negative') (m * n) = signed negative m * signed negative' n := by
  cases negative <;> cases negative' <;> simp [signed]

/-- With opposite signs one number cancels in the other. -/
theorem signed_cancel {negative negative' : Bool} (h : negative ≠ negative') {m n : Nat} :
    signed negative (m + n) + signed negative' n = signed negative m := by
  cases negative <;> cases negative' <;> simp_all [signed]

theorem coefficient_natAbs : d.coefficient.natAbs = ofDigits 10 d.digits := natAbs_signed

theorem trim_coefficient {digits : Mag} {hdigits : digits.Digits} {scale : Nat} {negative : Bool} :
    (trim digits hdigits scale negative).coefficient = signed negative (ofDigits 10 digits) := by
  by_cases hnil : magTrim digits = []
  · have hzero : ofDigits 10 digits = 0 := by rw [← ofDigits_magTrim, hnil, Nat.ofDigits_nil]
    cases negative <;> simp [coefficient, trim, signed, hzero]
  · have hne : (magTrim digits).isEmpty = false := by simpa using hnil
    simp [coefficient, trim, hne]

theorem negate_coefficient : d.negate.coefficient = -d.coefficient := by
  unfold negate
  split
  next hnil => simp [coefficient, signed, hnil]
  · simp only [coefficient, signed]
    split <;> simp_all

theorem negate_scale : d.negate.scale = d.scale := by
  unfold negate
  split <;> rfl

theorem add_scale : (a.add b).scale = max a.scale b.scale := by
  unfold add
  dsimp only
  split
  · rfl
  · split <;> rfl

/-- Addition adds the coefficients at the larger scale. -/
theorem add_coefficient : (a.add b).coefficient =
    a.coefficient * 10 ^ (max a.scale b.scale - a.scale) +
      b.coefficient * 10 ^ (max a.scale b.scale - b.scale) := by
  generalize hsa : max a.scale b.scale - a.scale = shiftA
  generalize hsb : max a.scale b.scale - b.scale = shiftB
  have hleft := a.shifted_trimmed shiftA
  have hright := b.shifted_trimmed shiftB
  have hvalueA : ofDigits 10 (magShiftLeft a.digits shiftA) = ofDigits 10 a.digits * 10 ^ shiftA :=
    ofDigits_magShiftLeft
  have hvalueB : ofDigits 10 (magShiftLeft b.digits shiftB) = ofDigits 10 b.digits * 10 ^ shiftB :=
    ofDigits_magShiftLeft
  have hcoefficientA : a.coefficient * 10 ^ shiftA = signed a.negative (ofDigits 10 a.digits * 10 ^ shiftA) := by
    cases hneg : a.negative <;> simp [coefficient, signed, hneg]
  have hcoefficientB : b.coefficient * 10 ^ shiftB = signed b.negative (ofDigits 10 b.digits * 10 ^ shiftB) := by
    cases hneg : b.negative <;> simp [coefficient, signed, hneg]
  rw [hcoefficientA, hcoefficientB]
  simp only [add, hsa, hsb]
  rw [← hvalueA, ← hvalueB]
  split
  next hneg => rw [trim_coefficient, ofDigits_magAdd, ← hneg, signed_add]
  next hneg =>
    split
    next hcmp =>
      have hsub := ofDigits_magSub hleft.digits hright.digits ((magCompare_nonneg hleft hright).mp hcmp)
      rw [trim_coefficient, ← hsub]
      exact (signed_cancel hneg).symm
    next hcmp =>
      have hle : ofDigits 10 (magShiftLeft a.digits shiftA) ≤ ofDigits 10 (magShiftLeft b.digits shiftB) := by
        rw [ge_iff_le, magCompare_nonneg hleft hright] at hcmp
        omega
      have hsub := ofDigits_magSub hright.digits hleft.digits hle
      rw [trim_coefficient, ← hsub, add_comm (signed a.negative _)]
      exact (signed_cancel (Ne.symm hneg)).symm

theorem value_eq_zero : d.value = 0 ↔ d.digits = [] := by
  have hpower : (10 : Rat) ^ d.scale ≠ 0 := by positivity
  rw [value, div_eq_zero_iff, or_iff_left hpower, Int.cast_eq_zero, ← Int.natAbs_eq_zero, coefficient_natAbs,
    d.digits_trimmed.ofDigits_eq_zero]

theorem value_mul_scale : d.value * 10 ^ d.scale = d.coefficient := by
  rw [value, div_mul_cancel₀ _ (by positivity)]

/-- Addition is exact. -/
theorem add_value : (a.add b).value = a.value + b.value := by
  have hscaleA : a.scale + (max a.scale b.scale - a.scale) = max a.scale b.scale := by omega
  have hscaleB : b.scale + (max a.scale b.scale - b.scale) = max a.scale b.scale := by omega
  have hpositive : (10 : Rat) ^ max a.scale b.scale ≠ 0 := by positivity
  apply mul_right_cancel₀ hpositive
  rw [add_mul]
  nth_rewrite 1 [← add_scale]
  rw [value_mul_scale, add_coefficient]
  nth_rewrite 3 [← hscaleA]
  nth_rewrite 4 [← hscaleB]
  rw [pow_add, pow_add, ← mul_assoc, ← mul_assoc, value_mul_scale, value_mul_scale]
  push_cast
  rfl

theorem negate_value : d.negate.value = -d.value := by
  rw [value, value, negate_coefficient, negate_scale]
  push_cast
  ring

theorem subtract_scale : (a.subtract b).scale = max a.scale b.scale := by
  rw [subtract, add_scale, negate_scale]

theorem subtract_value : (a.subtract b).value = a.value - b.value := by
  rw [subtract, add_value, negate_value, sub_eq_add_neg]

/-- A product that is returned is exact, and both size bounds held. -/
theorem multiply_some (h : a.multiply b = some d) :
    a.digits.length + b.digits.length ≤ kMaxDigits ∧ d.scale = a.scale + b.scale ∧
      d.coefficient = a.coefficient * b.coefficient := by
  unfold multiply at h
  split at h
  · cases h
  next hlength =>
    dsimp only at h
    split at h
    · cases h
    · cases h
      refine ⟨by omega, rfl, ?_⟩
      rw [trim_coefficient, ofDigits_magMul a.digit_lt b.digit_lt, signed_mul]
      rfl

theorem multiply_value (h : a.multiply b = some d) : d.value = a.value * b.value := by
  obtain ⟨-, hscale, hcoefficient⟩ := multiply_some h
  rw [value, value, value, hscale, hcoefficient, pow_add, div_mul_div_comm]
  push_cast
  rfl

/-- Rounding a quotient up never takes it past its numerator. -/
theorem ofDigits_divideMagnitudes_le {numerator denominator : Mag} {negative : Bool} {mode : RoundingMode}
    (hn : numerator.Digits) (hd : denominator.Trimmed) (hne : denominator ≠ []) :
    ofDigits 10 (divideMagnitudes numerator denominator negative mode) ≤ ofDigits 10 numerator := by
  obtain ⟨hvalue, hlt, htrimmed⟩ := magDivmod_spec hn hd hne
  have hpositive : 0 < ofDigits 10 denominator := Nat.zero_lt_of_lt hlt
  have hquotient : ofDigits 10 (magDivmod numerator denominator).1 ≤
      ofDigits 10 denominator * ofDigits 10 (magDivmod numerator denominator).1 :=
    Nat.le_mul_of_pos_left _ hpositive
  rw [divideMagnitudes]
  dsimp only
  rw [ofDigits_incrementIf]
  generalize hround : applyRounding _ _ _ _ mode = roundUp
  cases roundUp with
  | false =>
    simp only [Bool.false_eq_true, if_false]
    omega
  | true =>
    -- Something is left over, so it makes up for the increment.
    have hremainder : (!(magDivmod numerator denominator).2.isEmpty) = true :=
      applyRounding_anyRemainder (fun hnone => if_neg (by rw [hnone]; exact Bool.false_ne_true)) hround
    have hrest : ofDigits 10 (magDivmod numerator denominator).2 ≠ 0 := by
      rw [Ne, htrimmed.ofDigits_eq_zero]
      simpa using hremainder
    simp only [if_true]
    omega

/-- The quotient of a division has the requested scale and no more digits than the numerator. -/
theorem divide_some {resultScale : Int} {mode : RoundingMode} (h : a.divide b resultScale mode = some d) :
    (d.scale : Int) = resultScale ∧
      (a.digits.length ≤ kMaxDigits → d.coefficient.natAbs < 10 ^ kMaxDigits) := by
  unfold divide at h
  split at h
  · cases h
  next hguard =>
    simp only [isZero, Bool.or_eq_true, List.isEmpty_iff, decide_eq_true_eq, not_or] at hguard
    obtain ⟨hne, hscale⟩ := hguard
    have hscale' : ((resultScale.toNat : Nat) : Int) = resultScale := Int.toNat_of_nonneg (by omega)
    dsimp only at h
    split at h
    · split at h
      · cases h
      next hlength =>
        cases h
        refine ⟨hscale', fun _ => ?_⟩
        have hshifted : (magShiftLeft a.digits (resultScale + b.scale - a.scale).toNat).length ≤ kMaxDigits :=
          magShiftLeft_length_le.trans (by omega)
        rw [trim_coefficient, natAbs_signed]
        exact (ofDigits_divideMagnitudes_le (a.shifted_trimmed _).digits b.digits_trimmed hne).trans_lt
          ((a.shifted_trimmed _).length_le.mp hshifted)
    · split at h
      · cases h
      · cases h
        refine ⟨hscale', fun hlength => ?_⟩
        rw [trim_coefficient, natAbs_signed]
        exact (ofDigits_divideMagnitudes_le a.digit_lt (b.shifted_trimmed _)
          (mt magShiftLeft_eq_nil.mp hne)).trans_lt (a.digits_trimmed.length_le.mp hlength)

theorem round_scale {places : Int} {mode : RoundingMode} : (d.round places mode).scale = clampPlaces places := by
  unfold round
  dsimp only
  split <;> rfl

theorem round_coefficient {places : Int} {mode : RoundingMode} (h : d.scale ≤ clampPlaces places) :
    (d.round places mode).coefficient = d.coefficient * 10 ^ (clampPlaces places - d.scale) := by
  rw [round, if_pos h, trim_coefficient, ofDigits_magShiftLeft]
  cases hneg : d.negative <;> simp [coefficient, signed, hneg]

/-- Rounding to more places is exact. -/
theorem round_value {places : Int} {mode : RoundingMode} (h : d.scale ≤ clampPlaces places) :
    (d.round places mode).value = d.value := by
  have hscale : clampPlaces places = d.scale + (clampPlaces places - d.scale) := by omega
  rw [value, value, round_scale, round_coefficient h]
  nth_rewrite 2 [hscale]
  rw [pow_add]
  push_cast
  exact mul_div_mul_right _ _ (by positivity)

theorem ofDigits_drop_le (digits : Mag) (drop : Nat) : ofDigits 10 (digits.drop drop) ≤ ofDigits 10 digits := by
  induction digits generalizing drop with
  | nil => simp
  | cons digit digits ih =>
    cases drop with
    | zero => exact Nat.le_refl _
    | succ drop =>
      have hrest := ih drop
      rw [List.drop_succ_cons, Nat.ofDigits_cons]
      omega

/-- Rounding to fewer places drops at least one digit and so never needs more. -/
theorem round_coefficient_lt {places : Int} {mode : RoundingMode} (h : clampPlaces places < d.scale) {n : Nat}
    (hpos : 0 < n) (hn : d.coefficient.natAbs < 10 ^ n) : (d.round places mode).coefficient.natAbs < 10 ^ n := by
  obtain ⟨n, rfl⟩ : ∃ m, n = m + 1 := ⟨n - 1, by omega⟩
  rw [coefficient_natAbs] at hn
  rw [round, if_neg (by omega), trim_coefficient, natAbs_signed, roundDigits, ofDigits_incrementIf]
  obtain ⟨drop, hdrop⟩ : ∃ drop, d.scale - clampPlaces places = drop + 1 :=
    ⟨d.scale - clampPlaces places - 1, by omega⟩
  have hkept : 10 * ofDigits 10 (d.digits.drop (drop + 1)) ≤ ofDigits 10 d.digits := by
    cases d.digits with
    | nil => simp
    | cons digit digits =>
      have hrest := ofDigits_drop_le digits drop
      rw [List.drop_succ_cons, Nat.ofDigits_cons]
      omega
  have hincrement : ∀ roundUp : Bool, (if roundUp then 1 else 0) ≤ 1 := by decide
  have hroom : 1 ≤ 10 ^ n := Nat.one_le_pow' n 9
  rw [hdrop]
  rw [pow_succ] at hn ⊢
  refine Nat.lt_of_le_of_lt (Nat.add_le_add_left (hincrement _) _) ?_
  omega

end Decimal

end Luma
