-- SUMMARY: The order of doubles, and that rounding an integer never crosses a double.
import Luma.Library.Binary64
import Mathlib.Tactic.Common

/-! # The order of doubles

Doubles that are not NaN are ordered by their units, the infinities beyond all others.
The double nearest to an integer is on the same side of every other double as the
integer itself. -/

namespace Binary64

/-- Numeric comparison: a NaN is before nothing and after nothing. -/
def ieeeLt (x y : Binary64) : Bool := !x.isNan && !y.isNan && decide (x.units < y.units)

theorem ieeeLt_iff {x y : Binary64} (hx : x.isNan = false) (hy : y.isNan = false) :
    x.ieeeLt y = true ↔ x.units < y.units := by
  simp [ieeeLt, hx, hy]

theorem unitsPerOne_pos : 0 < unitsPerOne := by
  rw [unitsPerOne]
  positivity

theorem isZero_iff_units {x : Binary64} : x.isZero = true ↔ x.units = 0 := by
  have hzero : x.magnitude = 0 ↔ unitsOf x.magnitude = 0 := unitsOf_eq_zero.symm
  rw [isZero, decide_eq_true_eq, hzero, units]
  split <;> omega

/-- Doubles that are not NaN are equal just when they have the same units. -/
theorem ieeeEq_iff_units {x y : Binary64} (hx : x.isNan = false) (hy : y.isNan = false) :
    x.ieeeEq y = true ↔ x.units = y.units := by
  simp only [ieeeEq, hx, hy, Bool.not_false, Bool.true_and, Bool.or_eq_true, beq_iff_eq, Bool.and_eq_true]
  constructor
  · rintro (hbits | ⟨hzx, hzy⟩)
    · have hsame : x = y := congrArg Binary64.mk hbits
      rw [hsame]
    · rw [isZero_iff_units.mp hzx, isZero_iff_units.mp hzy]
  · intro h
    rcases eq_or_isZero_of_units_eq h with rfl | hzeros
    · exact Or.inl rfl
    · exact Or.inr hzeros

/-! ## Rounding -/

/-- The units of a number whose exponent and fraction fields are given apart. -/
theorem unitsOf_fields {e m : Nat} (he : 0 < e) (hm : m ≤ 2 ^ 52) :
    unitsOf (e * 2 ^ 52 + m) = (2 ^ 52 + m) * 2 ^ (e - 1) := by
  rcases Nat.lt_or_ge m (2 ^ 52) with hlt | hge
  · have hdiv : (e * 2 ^ 52 + m) / 2 ^ 52 = e := by omega
    have hmod : (e * 2 ^ 52 + m) % 2 ^ 52 = m := by omega
    rw [unitsOf, hdiv, hmod, if_neg (by omega)]
  · obtain rfl : m = 2 ^ 52 := by omega
    have hdiv : (e * 2 ^ 52 + 2 ^ 52) / 2 ^ 52 = e + 1 := by omega
    have hmod : (e * 2 ^ 52 + 2 ^ 52) % 2 ^ 52 = 0 := by omega
    obtain ⟨e', rfl⟩ : ∃ e', e = e' + 1 := ⟨e - 1, by omega⟩
    rw [unitsOf, hdiv, hmod, if_neg (by omega), Nat.add_sub_cancel, Nat.add_sub_cancel, pow_succ]
    ring

/-- A positive integer is between the double that it is rounded down to and the next one,
    and rounds to one of them, to the first one when it is that double. -/
theorem magnitudeOfNat_bracket {n : Nat} (hn : 0 < n) :
    ∃ k, unitsOf k ≤ n * unitsPerOne ∧ n * unitsPerOne < unitsOf (k + 1) ∧
      (magnitudeOfNat n = k ∨ magnitudeOfNat n = k + 1 ∧ unitsOf k < n * unitsPerOne) := by
  have hlow : 2 ^ Nat.log2 n ≤ n := Nat.log2_self_le (by omega)
  have hhigh : n < 2 ^ (Nat.log2 n + 1) := Nat.lt_log2_self
  rw [magnitudeOfNat, if_neg (by omega)]
  generalize Nat.log2 n = top at hlow hhigh ⊢
  by_cases htop : top ≤ 52
  · -- The integer is a double.
    have hscale : 2 ^ top * 2 ^ (52 - top) = 2 ^ 52 := by rw [← pow_add, Nat.add_sub_cancel' htop]
    have hfraction : 2 ^ 52 ≤ n * 2 ^ (52 - top) := by
      rw [← hscale]
      exact Nat.mul_le_mul_right _ hlow
    have hfraction' : n * 2 ^ (52 - top) < 2 ^ 53 := by
      have hlt : n * 2 ^ (52 - top) < 2 ^ (top + 1) * 2 ^ (52 - top) := Nat.mul_lt_mul_of_pos_right hhigh (by positivity)
      have hpow : 2 ^ (top + 1) * 2 ^ (52 - top) = 2 ^ 53 := by
        rw [← pow_add]
        congr 1
        omega
      rwa [hpow] at hlt
    have hexact : unitsOf ((top + 1023) * 2 ^ 52 + (n * 2 ^ (52 - top) - 2 ^ 52)) = n * unitsPerOne := by
      have hsum : 52 - top + (top + 1022) = 1074 := by omega
      have hexp : top + 1023 - 1 = top + 1022 := by omega
      rw [unitsOf_fields (by omega) (by omega), Nat.add_sub_cancel' hfraction, Nat.mul_assoc, hexp, ← pow_add, hsum,
        unitsPerOne]
    refine ⟨_, hexact.le, ?_, Or.inl ?_⟩
    · rw [← hexact]
      exact unitsOf_lt_succ _
    · simp only [htop, if_true]
  · -- The integer is cut off after 53 bits.
    obtain ⟨shift, rfl⟩ : ∃ shift, top = 52 + shift := ⟨top - 52, by omega⟩
    have hshift : 52 + shift - 52 = shift := by omega
    simp only [htop, if_false, hshift]
    have hpos : 0 < 2 ^ shift := by positivity
    have hsplit : 2 ^ shift * (n / 2 ^ shift) + n % 2 ^ shift = n := Nat.div_add_mod n (2 ^ shift)
    have hrest : n % 2 ^ shift < 2 ^ shift := Nat.mod_lt _ hpos
    have hkept : 2 ^ 52 ≤ n / 2 ^ shift := by
      rw [Nat.le_div_iff_mul_le hpos, ← pow_add]
      exact hlow
    have hkept' : n / 2 ^ shift < 2 ^ 53 := by
      rw [Nat.div_lt_iff_lt_mul hpos, ← pow_add]
      have hexp : 53 + shift = 52 + shift + 1 := by omega
      rw [hexp]
      exact hhigh
    generalize n / 2 ^ shift = kept at hsplit hkept hkept' ⊢
    generalize hdropped : n % 2 ^ shift = dropped at hsplit hrest ⊢
    have hexp : 52 + shift + 1023 - 1 = shift + 1074 := by omega
    have hunits : unitsOf ((52 + shift + 1023) * 2 ^ 52 + (kept - 2 ^ 52)) = kept * 2 ^ (shift + 1074) := by
      rw [unitsOf_fields (by omega) (by omega), Nat.add_sub_cancel' hkept, hexp]
    have hunits' : unitsOf ((52 + shift + 1023) * 2 ^ 52 + (kept - 2 ^ 52) + 1) = (kept + 1) * 2 ^ (shift + 1074) := by
      have hsum : 2 ^ 52 + (kept - 2 ^ 52 + 1) = kept + 1 := by omega
      rw [Nat.add_assoc, unitsOf_fields (by omega) (by omega), hsum, hexp]
    have hwhole : n * unitsPerOne = kept * 2 ^ (shift + 1074) + dropped * 2 ^ 1074 := by
      rw [unitsPerOne, ← hsplit, pow_add]
      generalize 2 ^ 1074 = one
      ring
    have hsmall : dropped * 2 ^ 1074 < 2 ^ (shift + 1074) := by
      rw [pow_add]
      exact Nat.mul_lt_mul_of_pos_right hrest (by positivity)
    refine ⟨(52 + shift + 1023) * 2 ^ 52 + (kept - 2 ^ 52), ?_, ?_, ?_⟩
    · rw [hunits, hwhole]
      exact Nat.le_add_right _ _
    · rw [hunits', hwhole, Nat.succ_mul]
      omega
    · split
      next hup =>
        right
        have hdroppedPos : 0 < dropped := by
          have hhalf : 0 < 2 ^ (shift - 1) := by positivity
          omega
        refine ⟨rfl, ?_⟩
        rw [hunits, hwhole]
        have hpositive : 0 < dropped * 2 ^ 1074 := Nat.mul_pos hdroppedPos (by positivity)
        omega
      · exact Or.inl (Nat.add_zero _)

/-- Rounding stays on the same side of every double. -/
theorem magnitudeOfNat_le {n k : Nat} (h : n * unitsPerOne ≤ unitsOf k) : magnitudeOfNat n ≤ k := by
  rcases Nat.eq_zero_or_pos n with rfl | hn
  · exact Nat.zero_le _
  obtain ⟨j, hlow, -, hround | ⟨hround, hlt⟩⟩ := magnitudeOfNat_bracket hn
  · rw [hround]
    exact unitsOf_strictMono.le_iff_le.mp (hlow.trans h)
  · rw [hround]
    exact unitsOf_strictMono.lt_iff_lt.mp (hlt.trans_le h)

theorem le_magnitudeOfNat {n k : Nat} (h : unitsOf k ≤ n * unitsPerOne) : k ≤ magnitudeOfNat n := by
  rcases Nat.eq_zero_or_pos n with rfl | hn
  · rw [Nat.zero_mul, Nat.le_zero, unitsOf_eq_zero] at h
    rw [h]
    exact Nat.zero_le _
  obtain ⟨j, -, hhigh, hround⟩ := magnitudeOfNat_bracket hn
  have hle : k ≤ j := Nat.lt_succ_iff.mp (unitsOf_strictMono.lt_iff_lt.mp (h.trans_lt hhigh))
  rcases hround with hround | ⟨hround, -⟩
  · rw [hround]
    exact hle
  · rw [hround]
    exact Nat.le_succ_of_le hle

/-- The integers of 64 bits round to finite doubles. -/
theorem magnitudeOfNat_lt {n : Nat} (h : n ≤ 2 ^ 63) : magnitudeOfNat n < 2047 * 2 ^ 52 := by
  have hexp : 1086 - 1 = 63 + 1022 := rfl
  have hsum : 52 + 1022 = 1074 := rfl
  have hone : unitsPerOne = 2 ^ 52 * 2 ^ 1022 := by
    rw [unitsPerOne, ← hsum]
    exact pow_add 2 52 1022
  have hpower : unitsOf (1086 * 2 ^ 52 + 0) = (2 ^ 52 + 0) * 2 ^ (63 + 1022) := by
    rw [← hexp]
    exact unitsOf_fields (by decide) (by decide)
  rw [Nat.add_zero, Nat.add_zero] at hpower
  have hbound : n * unitsPerOne ≤ unitsOf (1086 * 2 ^ 52) := by
    calc n * unitsPerOne ≤ 2 ^ 63 * unitsPerOne := Nat.mul_le_mul_right _ h
      _ = 2 ^ 63 * (2 ^ 52 * 2 ^ 1022) := congrArg (2 ^ 63 * ·) hone
      _ = 2 ^ 52 * (2 ^ 63 * 2 ^ 1022) := Nat.mul_left_comm _ _ _
      _ = 2 ^ 52 * 2 ^ (63 + 1022) := congrArg (2 ^ 52 * ·) (pow_add 2 63 1022).symm
      _ = unitsOf (1086 * 2 ^ 52) := by rw [hpower]
  have hle := magnitudeOfNat_le hbound
  omega

section OfInt

variable {i : Int}

theorem toNat_bits_ofInt (h : i.natAbs ≤ 2 ^ 63) :
    (ofInt i).bits.toNat = (if i < 0 then 2 ^ 63 else 0) + magnitudeOfNat i.natAbs := by
  have hmagnitude := magnitudeOfNat_lt h
  have hfits : (if i < 0 then 2 ^ 63 else 0) + magnitudeOfNat i.natAbs < 2 ^ 64 := by
    split <;> omega
  rw [ofInt, UInt64.toNat_ofNat_of_lt' hfits]

theorem magnitude_ofInt (h : i.natAbs ≤ 2 ^ 63) : (ofInt i).magnitude = magnitudeOfNat i.natAbs := by
  have hmagnitude := magnitudeOfNat_lt h
  rw [magnitude, toNat_bits_ofInt h]
  split <;> omega

theorem isNan_ofInt (h : i.natAbs ≤ 2 ^ 63) : (ofInt i).isNan = false := by
  have hmagnitude := magnitudeOfNat_lt h
  simp only [isNan, magnitude_ofInt h, decide_eq_false_iff_not]
  omega

theorem units_ofInt (h : i.natAbs ≤ 2 ^ 63) :
    (ofInt i).units = if i < 0 then -(unitsOf (magnitudeOfNat i.natAbs) : Int) else unitsOf (magnitudeOfNat i.natAbs) := by
  have hmagnitude := magnitudeOfNat_lt h
  have hsign : (ofInt i).signBit = decide (i < 0) := by
    rw [signBit, toNat_bits_ofInt h]
    by_cases hneg : i < 0
    · simp [hneg]
    · simp [hneg]
      omega
  rw [units, hsign, magnitude_ofInt h]
  simp only [decide_eq_true_eq]

theorem value_eq : i * (unitsPerOne : Int) = if i < 0 then -((i.natAbs * unitsPerOne : Nat) : Int)
    else (i.natAbs * unitsPerOne : Nat) := by
  rw [Int.natCast_mul]
  split
  next hneg =>
    have habs : (i.natAbs : Int) = -i := by omega
    rw [habs, Int.neg_mul, Int.neg_neg]
  next hneg =>
    have habs : (i.natAbs : Int) = i := by omega
    rw [habs]

/-- A double that is not before an integer is not before what it rounds to. -/
theorem units_ofInt_le {x : Binary64} (h : i.natAbs ≤ 2 ^ 63) (hx : i * unitsPerOne ≤ x.units) :
    (ofInt i).units ≤ x.units := by
  rw [value_eq] at hx
  rw [units_ofInt h]
  rw [units] at hx ⊢
  split at hx
  next hneg =>
    rw [if_pos hneg]
    split at hx
    next hsign =>
      have hle : unitsOf x.magnitude ≤ i.natAbs * unitsPerOne := by omega
      have hround := unitsOf_strictMono.monotone (le_magnitudeOfNat hle)
      rw [if_pos hsign]
      omega
    next hsign =>
      rw [if_neg hsign]
      omega
  next hneg =>
    rw [if_neg hneg]
    split at hx
    next hsign =>
      have hzero : i.natAbs * unitsPerOne ≤ unitsOf 0 := by rw [unitsOf_zero]; omega
      have hround := unitsOf_strictMono.monotone (magnitudeOfNat_le hzero)
      rw [unitsOf_zero] at hround
      rw [if_pos hsign]
      omega
    next hsign =>
      have hle : i.natAbs * unitsPerOne ≤ unitsOf x.magnitude := by omega
      have hround := unitsOf_strictMono.monotone (magnitudeOfNat_le hle)
      rw [if_neg hsign]
      omega

theorem le_units_ofInt {x : Binary64} (h : i.natAbs ≤ 2 ^ 63) (hx : x.units ≤ i * unitsPerOne) :
    x.units ≤ (ofInt i).units := by
  rw [value_eq] at hx
  rw [units_ofInt h]
  rw [units] at hx ⊢
  split at hx
  next hsign =>
    rw [if_pos hsign]
    split at hx
    next hneg =>
      have hle : i.natAbs * unitsPerOne ≤ unitsOf x.magnitude := by omega
      have hround := unitsOf_strictMono.monotone (magnitudeOfNat_le hle)
      rw [if_pos hneg]
      omega
    next hneg =>
      rw [if_neg hneg]
      omega
  next hsign =>
    rw [if_neg hsign]
    split at hx
    next hneg =>
      have hzero : i.natAbs * unitsPerOne ≤ unitsOf 0 := by rw [unitsOf_zero]; omega
      have hround := unitsOf_strictMono.monotone (magnitudeOfNat_le hzero)
      rw [unitsOf_zero] at hround
      rw [if_pos hneg]
      omega
    next hneg =>
      have hle : unitsOf x.magnitude ≤ i.natAbs * unitsPerOne := by omega
      have hround := unitsOf_strictMono.monotone (le_magnitudeOfNat hle)
      rw [if_neg hneg]
      omega

end OfInt

end Binary64
