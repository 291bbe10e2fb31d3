-- SUMMARY: Doubles that are integers: exact conversion, comparison with bounds, and sums and products.
import Luma.Library.Binary64Order

/-! # Whole doubles

Every integer below `2 ^ 53` in size is a double. Arithmetic of doubles that are integers is
exact arithmetic of the integers and one rounding. -/

namespace Binary64

/-- The integer part, as a conversion to an integer type takes it. -/
def toInt (x : Binary64) : Int := x.units.tdiv unitsPerOne

/-- The sum of two doubles that are integers. -/
def wholeSum (x y : Binary64) : Binary64 := ofInt (x.toInt + y.toInt)

/-- The difference of two doubles that are integers. -/
def wholeDifference (x y : Binary64) : Binary64 := ofInt (x.toInt - y.toInt)

/-- The product of two doubles that are integers. -/
def wholeProduct (x y : Binary64) : Binary64 := ofInt (x.toInt * y.toInt)

theorem unitsPerOne_pos' : (0 : Int) < unitsPerOne := Int.natCast_pos.mpr unitsPerOne_pos

theorem exists_unitsOf {n : Nat} (h : n < 2 ^ 53) : ∃ k, unitsOf k = n * unitsPerOne := by
  rcases Nat.eq_zero_or_pos n with rfl | hpos
  · exact ⟨0, by rw [Nat.zero_mul, unitsOf_eq_zero]⟩
  · have hlow : 2 ^ Nat.log2 n ≤ n := Nat.log2_self_le (by omega)
    have htop : Nat.log2 n ≤ 52 := by
      by_contra hlt
      have hpow : 2 ^ 53 ≤ 2 ^ Nat.log2 n := Nat.pow_le_pow_right (by decide) (by omega)
      omega
    have hscale : 2 ^ Nat.log2 n * 2 ^ (52 - Nat.log2 n) = 2 ^ 52 := by rw [← pow_add, Nat.add_sub_cancel' htop]
    have hhigh : n < 2 ^ (Nat.log2 n + 1) := Nat.lt_log2_self
    have hfraction : 2 ^ 52 ≤ n * 2 ^ (52 - Nat.log2 n) := by
      rw [← hscale]
      exact Nat.mul_le_mul_right _ hlow
    have hbelow : n * 2 ^ (52 - Nat.log2 n) ≤ 2 ^ 53 := by
      calc n * 2 ^ (52 - Nat.log2 n) ≤ 2 ^ (Nat.log2 n + 1) * 2 ^ (52 - Nat.log2 n) := Nat.mul_le_mul_right _ hhigh.le
        _ = 2 * (2 ^ Nat.log2 n * 2 ^ (52 - Nat.log2 n)) := by rw [pow_succ]; ring
        _ = 2 ^ 53 := by rw [hscale]; rfl
    refine ⟨(Nat.log2 n + 1023) * 2 ^ 52 + (n * 2 ^ (52 - Nat.log2 n) - 2 ^ 52), ?_⟩
    have hsum : 52 - Nat.log2 n + (Nat.log2 n + 1023 - 1) = 1074 := by omega
    rw [unitsOf_fields (by omega) (by omega), Nat.add_sub_cancel' hfraction, Nat.mul_assoc, ← pow_add, hsum, unitsPerOne]

section Exact

variable {i j : Int}

/-- The integers below `2 ^ 53` in size are doubles. -/
theorem isInteger_ofInt (h : i.natAbs < 2 ^ 53) : (ofInt i).IsInteger i := by
  obtain ⟨k, hk⟩ := exists_unitsOf h
  have hsize : i.natAbs ≤ 2 ^ 63 := by omega
  have hmagnitude := magnitudeOfNat_eq hk
  refine ⟨?_, ?_⟩
  · have hlt := magnitudeOfNat_lt hsize
    rw [isFinite, decide_eq_true_eq, magnitude_ofInt hsize]
    exact hlt
  · rw [units_ofInt hsize, hmagnitude, hk, value_eq]

theorem toInt_of_isInteger {x : Binary64} (h : x.IsInteger i) : x.toInt = i := by
  rw [toInt, h.2]
  exact Int.mul_tdiv_cancel i unitsPerOne_pos'.ne'

theorem toInt_ofInt (h : i.natAbs < 2 ^ 53) : (ofInt i).toInt = i :=
  toInt_of_isInteger (isInteger_ofInt h)

theorem isNan_of_isInteger {x : Binary64} (h : x.IsInteger i) : x.isNan = false := by
  have hfinite := h.1
  rw [isFinite, decide_eq_true_eq] at hfinite
  rw [isNan, decide_eq_false_iff_not]
  omega

/-- Doubles that are the same integer are equal. -/
theorem ieeeEq_of_isInteger {x y : Binary64} (hx : x.IsInteger i) (hy : y.IsInteger i) : x.ieeeEq y = true := by
  rw [ieeeEq_iff_units (isNan_of_isInteger hx) (isNan_of_isInteger hy), hx.2, hy.2]

theorem wholeSum_ofInt (hi : i.natAbs < 2 ^ 53) (hj : j.natAbs < 2 ^ 53) : wholeSum (ofInt i) (ofInt j) = ofInt (i + j) := by
  rw [wholeSum, toInt_ofInt hi, toInt_ofInt hj]

theorem wholeDifference_ofInt (hi : i.natAbs < 2 ^ 53) (hj : j.natAbs < 2 ^ 53) :
    wholeDifference (ofInt i) (ofInt j) = ofInt (i - j) := by
  rw [wholeDifference, toInt_ofInt hi, toInt_ofInt hj]

theorem wholeProduct_ofInt (hi : i.natAbs < 2 ^ 53) (hj : j.natAbs < 2 ^ 53) :
    wholeProduct (ofInt i) (ofInt j) = ofInt (i * j) := by
  rw [wholeProduct, toInt_ofInt hi, toInt_ofInt hj]

/-- An integer is before an exact one just when it rounds to a double before it. -/
theorem ofInt_lt_iff (hi : i.natAbs ≤ 2 ^ 63) (hj : j.natAbs < 2 ^ 52) : (ofInt i).ieeeLt (ofInt j) = true ↔ i < j := by
  have hexact := (isInteger_ofInt (by omega : j.natAbs < 2 ^ 53)).2
  rw [ieeeLt_iff (isNan_ofInt hi) (isNan_ofInt (by omega)), hexact]
  constructor
  · intro hlt
    by_contra hge
    have hle : (ofInt j).units ≤ i * unitsPerOne := by
      rw [hexact]
      exact Int.mul_le_mul_of_nonneg_right (by omega) unitsPerOne_pos'.le
    have hround := le_units_ofInt hi hle
    rw [hexact] at hround
    omega
  · intro hlt
    have hbefore := (isInteger_ofInt (by omega : (j - 1).natAbs < 2 ^ 53)).2
    have hle : i * unitsPerOne ≤ (ofInt (j - 1)).units := by
      rw [hbefore]
      exact Int.mul_le_mul_of_nonneg_right (by omega) unitsPerOne_pos'.le
    have hround := units_ofInt_le hi hle
    rw [hbefore, Int.sub_mul, Int.one_mul] at hround
    have hpos := unitsPerOne_pos'
    omega

theorem ofInt_gt_iff (hi : i.natAbs ≤ 2 ^ 63) (hj : j.natAbs < 2 ^ 52) : (ofInt j).ieeeLt (ofInt i) = true ↔ j < i := by
  have hexact := (isInteger_ofInt (by omega : j.natAbs < 2 ^ 53)).2
  rw [ieeeLt_iff (isNan_ofInt (by omega)) (isNan_ofInt hi), hexact]
  constructor
  · intro hlt
    by_contra hge
    have hle : i * unitsPerOne ≤ (ofInt j).units := by
      rw [hexact]
      exact Int.mul_le_mul_of_nonneg_right (by omega) unitsPerOne_pos'.le
    have hround := units_ofInt_le hi hle
    rw [hexact] at hround
    omega
  · intro hlt
    have hafter := (isInteger_ofInt (by omega : (j + 1).natAbs < 2 ^ 53)).2
    have hle : (ofInt (j + 1)).units ≤ i * unitsPerOne := by
      rw [hafter]
      exact Int.mul_le_mul_of_nonneg_right (by omega) unitsPerOne_pos'.le
    have hround := le_units_ofInt hi hle
    rw [hafter, Int.add_mul, Int.one_mul] at hround
    have hpos := unitsPerOne_pos'
    omega

end Exact

/-- The integer part of a double between two integers is between them. -/
theorem toInt_between {x : Binary64} {low high : Int} (hx : x.isNan = false) (hlow : low.natAbs < 2 ^ 53)
    (hhigh : high.natAbs < 2 ^ 53) (hnotBelow : x.ieeeLt (ofInt low) = false) (hnotAbove : (ofInt high).ieeeLt x = false) :
    low ≤ x.toInt ∧ x.toInt ≤ high := by
  rw [Bool.eq_false_iff, ne_eq, ieeeLt_iff hx (isNan_ofInt (by omega)), (isInteger_ofInt hlow).2] at hnotBelow
  rw [Bool.eq_false_iff, ne_eq, ieeeLt_iff (isNan_ofInt (by omega)) hx, (isInteger_ofInt hhigh).2] at hnotAbove
  have hpos := unitsPerOne_pos'
  have hleft : low = (low * unitsPerOne).tdiv unitsPerOne := (Int.mul_tdiv_cancel low hpos.ne').symm
  have hright : high = (high * unitsPerOne).tdiv unitsPerOne := (Int.mul_tdiv_cancel high hpos.ne').symm
  rw [toInt]
  constructor
  · rw [hleft]
    exact Int.tdiv_le_tdiv hpos (by omega)
  · conv_rhs => rw [hright]
    exact Int.tdiv_le_tdiv hpos (by omega)

end Binary64
