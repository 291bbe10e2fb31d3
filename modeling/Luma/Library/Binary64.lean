-- SUMMARY: The binary64 format: exact values of finite words, equality, and rounding of integers.
import Mathlib.Order.Monotone.Basic
import Mathlib.Data.Nat.Log
import Mathlib.Data.Nat.Bitwise
import Mathlib.Tactic.Ring
import Mathlib.Tactic.Positivity

/-! # The Binary64 Format

A double is its 64-bit word. Every finite double is an integer multiple of the
least positive one, `2 ^ -1074`; that multiple is its `units`, so values are
compared as integers and no rational arithmetic is needed. -/

/-- A double-precision number, as its bit pattern. -/
structure Binary64 where
  bits : UInt64
  deriving DecidableEq, Repr

namespace Binary64

/-- Number of units `2 ^ -1074` in one. -/
def unitsPerOne : Nat := 2 ^ 1074

/-- The sign bit. -/
def signBit (x : Binary64) : Bool := decide (2 ^ 63 ≤ x.bits.toNat)

/-- Exponent and fraction fields together, as one number. -/
def magnitude (x : Binary64) : Nat := x.bits.toNat % 2 ^ 63

/-- Units in the value whose exponent and fraction fields are `k`. -/
def unitsOf (k : Nat) : Nat :=
  if k / 2 ^ 52 = 0 then k % 2 ^ 52 else (2 ^ 52 + k % 2 ^ 52) * 2 ^ (k / 2 ^ 52 - 1)

/-- Exponent field all ones, fraction non-zero. -/
def isNan (x : Binary64) : Bool := decide (2047 * 2 ^ 52 < x.magnitude)

/-- Exponent field all ones, fraction zero. -/
def isInfinite (x : Binary64) : Bool := decide (x.magnitude = 2047 * 2 ^ 52)

/-- Neither infinite nor NaN. -/
def isFinite (x : Binary64) : Bool := decide (x.magnitude < 2047 * 2 ^ 52)

/-- Positive or negative zero. -/
def isZero (x : Binary64) : Bool := decide (x.magnitude = 0)

/-- The value of a finite double, in units `2 ^ -1074`. -/
def units (x : Binary64) : Int :=
  if x.signBit then -(unitsOf x.magnitude : Int) else unitsOf x.magnitude

/-- Numeric equality: a NaN differs from everything, the zeros are equal. -/
def ieeeEq (x y : Binary64) : Bool :=
  !x.isNan && !y.isNan && (x.bits == y.bits || (x.isZero && y.isZero))

/-- Exponent and fraction fields of the double nearest to `n`, ties to even.
    A carry out of the fraction runs into the exponent, as it should. -/
def magnitudeOfNat (n : Nat) : Nat :=
  if n = 0 then 0
  else
    let top := Nat.log2 n
    if top ≤ 52 then
      (top + 1023) * 2 ^ 52 + (n * 2 ^ (52 - top) - 2 ^ 52)
    else
      let shift := top - 52
      let kept := n / 2 ^ shift
      let dropped := n % 2 ^ shift
      let half := 2 ^ (shift - 1)
      let up := if half < dropped ∨ (dropped = half ∧ kept % 2 = 1) then 1 else 0
      (top + 1023) * 2 ^ 52 + (kept - 2 ^ 52) + up

/-- The double nearest to an integer. -/
def ofInt (i : Int) : Binary64 :=
  ⟨UInt64.ofNat ((if i < 0 then 2 ^ 63 else 0) + magnitudeOfNat i.natAbs)⟩

/-! ## Exact values -/

/-- The word is its sign bit and its magnitude. -/
theorem toNat_bits (x : Binary64) :
    x.bits.toNat = (if x.signBit then 2 ^ 63 else 0) + x.magnitude := by
  have hlt : x.bits.toNat < 2 ^ 64 := x.bits.toNat_lt
  simp only [signBit, magnitude, decide_eq_true_eq]
  split <;> omega

theorem eq_of_sign_magnitude {x y : Binary64} (hsign : x.signBit = y.signBit)
    (hmag : x.magnitude = y.magnitude) : x = y := by
  have hbits : x.bits.toNat = y.bits.toNat := by
    rw [toNat_bits x, toNat_bits y, hsign, hmag]
  cases x
  cases y
  congr
  exact UInt64.toNat_inj.mp hbits

/-- The next magnitude denotes a larger value, also across an exponent. -/
theorem unitsOf_lt_succ (k : Nat) : unitsOf k < unitsOf (k + 1) := by
  by_cases hcarry : k % 2 ^ 52 + 1 < 2 ^ 52
  · have hdiv : (k + 1) / 2 ^ 52 = k / 2 ^ 52 := by omega
    have hmod : (k + 1) % 2 ^ 52 = k % 2 ^ 52 + 1 := by omega
    rw [unitsOf, unitsOf, hdiv, hmod]
    split
    · omega
    · exact Nat.mul_lt_mul_of_pos_right (by omega) (by positivity)
  · have hdiv : (k + 1) / 2 ^ 52 = k / 2 ^ 52 + 1 := by omega
    have hmod : (k + 1) % 2 ^ 52 = 0 := by omega
    have hlast : k % 2 ^ 52 = 2 ^ 52 - 1 := by omega
    rw [unitsOf, unitsOf, hdiv, hmod, hlast]
    rcases Nat.eq_zero_or_pos (k / 2 ^ 52) with hzero | hpos
    · rw [if_pos hzero, if_neg (by omega), hzero]
      norm_num
    · obtain ⟨e, he⟩ : ∃ e, k / 2 ^ 52 = e + 1 := ⟨k / 2 ^ 52 - 1, by omega⟩
      rw [if_neg (by omega), if_neg (by omega), he]
      simp only [Nat.add_sub_cancel, pow_succ]
      have hpow : 0 < 2 ^ e := by positivity
      omega

theorem unitsOf_strictMono : StrictMono unitsOf :=
  strictMono_nat_of_lt_succ unitsOf_lt_succ

@[simp] theorem unitsOf_zero : unitsOf 0 = 0 := rfl

theorem unitsOf_eq_zero {k : Nat} : unitsOf k = 0 ↔ k = 0 :=
  ⟨fun h => unitsOf_strictMono.injective (h.trans unitsOf_zero.symm), fun h => h ▸ unitsOf_zero⟩

/-- Two doubles with one value are the same word, or the two zeros. -/
theorem eq_or_isZero_of_units_eq {x y : Binary64} (h : x.units = y.units) :
    x = y ∨ (x.isZero = true ∧ y.isZero = true) := by
  have hmag : unitsOf x.magnitude = unitsOf y.magnitude := by
    simp only [units] at h
    split at h <;> split at h <;> omega
  have hsame : x.magnitude = y.magnitude := unitsOf_strictMono.injective hmag
  by_cases hzero : x.magnitude = 0
  · right
    simp [isZero, ← hsame, hzero]
  · left
    have hpos : unitsOf x.magnitude ≠ 0 := fun hu => hzero (unitsOf_eq_zero.mp hu)
    refine eq_of_sign_magnitude ?_ hsame
    simp only [units] at h
    cases hx : x.signBit <;> cases hy : y.signBit <;> simp_all

/-! ## Integers -/

/-- The most significant bit of a number between two powers of two. -/
private theorem log2_of_bounds {n top : Nat} (hlow : 2 ^ top ≤ n) (hhigh : n < 2 ^ (top + 1)) :
    Nat.log2 n = top := by
  have hn : n ≠ 0 := by
    have := Nat.two_pow_pos top
    omega
  have hle : top ≤ Nat.log2 n := (Nat.le_log2 hn).mpr hlow
  have hlt : Nat.log2 n < top + 1 := (Nat.log2_lt hn).mpr hhigh
  omega

/-- The exponent field of a non-zero integer, and its significand against it. -/
private theorem integer_exponent {n m e : Nat} (hn : 0 < n) (hm : m < 2 ^ 53)
    (hunits : m * 2 ^ (e - 1) = n * 2 ^ 1074) :
    ∃ top, e = top + 1023 ∧ m * 2 ^ top = n * 2 ^ 52 := by
  have hlow : 1 * 2 ^ 1074 ≤ n * 2 ^ 1074 := Nat.mul_le_mul_right _ hn
  have hhigh : m * 2 ^ (e - 1) < 2 ^ 53 * 2 ^ (e - 1) :=
    Nat.mul_lt_mul_of_pos_right hm (by positivity)
  rw [← pow_add] at hhigh
  have hexp : 1074 < 53 + (e - 1) := by
    apply (Nat.pow_lt_pow_iff_right (by omega : 1 < 2)).mp
    omega
  refine ⟨e - 1023, by omega, ?_⟩
  have hsplit : e - 1 = (e - 1023) + 1022 := by omega
  rw [hsplit, pow_add, ← Nat.mul_assoc, show 1074 = 52 + 1022 from rfl, pow_add,
    ← Nat.mul_assoc] at hunits
  exact Nat.eq_of_mul_eq_mul_right (by positivity) hunits

/-- Rounding is exact on the integers that are doubles. -/
theorem magnitudeOfNat_eq {n k : Nat} (hunits : unitsOf k = n * unitsPerOne) :
    magnitudeOfNat n = k := by
  rcases Nat.eq_zero_or_pos n with rfl | hn
  · rw [Nat.zero_mul, unitsOf_eq_zero] at hunits
    rw [magnitudeOfNat, if_pos rfl, hunits]
  have hfrac : k % 2 ^ 52 < 2 ^ 52 := Nat.mod_lt _ (by positivity)
  have hone : 2 ^ 1074 ≤ n * 2 ^ 1074 := Nat.le_mul_of_pos_left _ hn
  rw [unitsOf, unitsPerOne] at hunits
  split at hunits
  · -- A subnormal is below one, so it is no positive integer.
    have hexp : 52 < 1074 := by omega
    have hsmall : (2 : Nat) ^ 52 < 2 ^ 1074 := Nat.pow_lt_pow_right Nat.one_lt_two hexp
    exact absurd hunits (hfrac.trans (hsmall.trans_le hone)).ne
  have hfields : k = (k / 2 ^ 52) * 2 ^ 52 + k % 2 ^ 52 := by omega
  generalize hm : 2 ^ 52 + k % 2 ^ 52 = m at hunits
  obtain ⟨top, htop, hscaled⟩ := integer_exponent hn (by omega) hunits
  clear hunits hone
  have hpow : 0 < 2 ^ top := by positivity
  have hlow : 2 ^ top ≤ n := by
    have hle : 2 ^ 52 * 2 ^ top ≤ m * 2 ^ top := Nat.mul_le_mul_right _ (by omega)
    rw [hscaled, Nat.mul_comm] at hle
    exact Nat.le_of_mul_le_mul_right hle (by positivity)
  have hhigh : n < 2 ^ (top + 1) := by
    have hlt : m * 2 ^ top < 2 ^ 53 * 2 ^ top := Nat.mul_lt_mul_of_pos_right (by omega) hpow
    rw [hscaled, show 53 = 1 + 52 from rfl, pow_add, Nat.mul_right_comm, ← pow_add,
      Nat.add_comm 1 top] at hlt
    exact Nat.lt_of_mul_lt_mul_right hlt
  rw [magnitudeOfNat, if_neg (by omega), log2_of_bounds hlow hhigh, hfields, htop]
  by_cases hle : top ≤ 52
  · have hsig : m = n * 2 ^ (52 - top) := by
      rw [show n * 2 ^ 52 = n * 2 ^ (52 - top) * 2 ^ top by
        rw [Nat.mul_assoc, ← pow_add, Nat.sub_add_cancel hle]] at hscaled
      exact Nat.eq_of_mul_eq_mul_right hpow hscaled
    simp only [hle, if_true, ← hsig]
    rw [← hm, Nat.add_sub_cancel_left]
  · have hsig : n = m * 2 ^ (top - 52) := by
      rw [show m * 2 ^ top = m * 2 ^ (top - 52) * 2 ^ 52 by
        rw [Nat.mul_assoc, ← pow_add, Nat.sub_add_cancel (by omega)]] at hscaled
      exact (Nat.eq_of_mul_eq_mul_right (by positivity) hscaled).symm
    have hkept : n / 2 ^ (top - 52) = m := by
      rw [hsig]
      exact Nat.mul_div_cancel _ (by positivity)
    have hdropped : n % 2 ^ (top - 52) = 0 := by
      rw [hsig]
      exact Nat.mul_mod_left _ _
    have hhalf : 0 < 2 ^ (top - 52 - 1) := by positivity
    simp only [hle, if_false, hkept, hdropped]
    rw [if_neg (by omega), ← hm, Nat.add_sub_cancel_left, Nat.add_zero]

/-- The integer a finite double is, if it is one. -/
def IsInteger (x : Binary64) (i : Int) : Prop :=
  x.isFinite = true ∧ x.units = i * unitsPerOne

/-- A non-zero double that is an integer is what rounding that integer gives. -/
theorem ofInt_eq {x : Binary64} {i : Int} (h : x.IsInteger i) (hne : i ≠ 0) : ofInt i = x := by
  obtain ⟨hfinite, hunits⟩ := h
  have hpos : (0 : Int) < unitsPerOne := by
    rw [unitsPerOne]
    positivity
  have hmag : unitsOf x.magnitude = i.natAbs * unitsPerOne := by
    have habs : x.units.natAbs = unitsOf x.magnitude := by
      rw [units]
      split <;> omega
    rw [← habs, hunits, Int.natAbs_mul, Int.natAbs_natCast]
  have hsign : x.signBit = decide (i < 0) := by
    have hnonzero : unitsOf x.magnitude ≠ 0 := by
      rw [hmag]
      exact Nat.mul_ne_zero (by omega) (by omega)
    rw [units] at hunits
    cases hx : x.signBit with
    | true =>
      rw [hx, if_pos rfl] at hunits
      have hneg : i * (unitsPerOne : Int) < 0 := by omega
      have hi : i < 0 := by
        by_contra hge
        have := Int.mul_nonneg (not_lt.mp hge) hpos.le
        omega
      exact (decide_eq_true hi).symm
    | false =>
      rw [hx, if_neg Bool.false_ne_true] at hunits
      have hposi : 0 < i * (unitsPerOne : Int) := by omega
      have hi : ¬ i < 0 := by
        intro hlt
        have := Int.mul_neg_of_neg_of_pos hlt hpos
        omega
      exact (decide_eq_false hi).symm
  have hbits := toNat_bits x
  rw [hsign] at hbits
  have hword : (if i < 0 then 2 ^ 63 else 0) + magnitudeOfNat i.natAbs = x.bits.toNat := by
    rw [magnitudeOfNat_eq hmag, hbits]
    simp
  rw [ofInt, hword, UInt64.ofNat_toNat]

end Binary64
