-- SUMMARY: Division and rounding of decimals give the rounded rational number, for every mode.
import Luma.Value.DecimalArithmetic
import Mathlib.Data.Rat.Floor

/-! # Decimal Rounding

Each mode is a function from rational numbers to integers. Long division and dropping
digits both leave a kept part and a discarded fraction of one unit; whether the kept part
is incremented is decided on the fraction, and this is the rounding of the mode. -/

namespace Luma

open Nat (ofDigits)

/-! ## Rounding to integers -/

/-- The integer that a mode rounds a number to. -/
def RoundingMode.roundInteger (x : Rat) : RoundingMode → Int
  | .ceiling => ⌈x⌉
  | .floor => ⌊x⌋
  -- Away from zero, and toward it.
  | .up => if 0 ≤ x then ⌈x⌉ else ⌊x⌋
  | .down => if 0 ≤ x then ⌊x⌋ else ⌈x⌉
  -- The nearest integer; the modes differ on ties.
  | .halfUp => if 0 ≤ x then ⌊x + 1 / 2⌋ else ⌈x - 1 / 2⌉
  | .halfDown => if 0 ≤ x then ⌈x - 1 / 2⌉ else ⌊x + 1 / 2⌋
  | .halfEven =>
    if Int.fract x < 1 / 2 then ⌊x⌋
    else if 1 / 2 < Int.fract x then ⌊x⌋ + 1
    else if ⌊x⌋ % 2 = 0 then ⌊x⌋
    else ⌊x⌋ + 1

/-- How a fraction of a unit compares with one half. -/
def cmpHalf (t : Rat) : Int := if t < 1 / 2 then -1 else if t = 1 / 2 then 0 else 1

section Fraction

variable {q : Nat} {t : Rat}

theorem floor_add (h0 : 0 ≤ t) (h1 : t < 1) : ⌊(q : Rat) + t⌋ = q := by
  rw [Int.floor_eq_iff]
  constructor
  · push_cast
    linarith
  · push_cast
    linarith

theorem ceil_add (h0 : 0 ≤ t) (h1 : t < 1) : ⌈(q : Rat) + t⌉ = q + if t = 0 then 0 else 1 := by
  by_cases hzero : t = 0
  · rw [if_pos hzero, hzero]
    simp
  · have hpos : 0 < t := lt_of_le_of_ne h0 (Ne.symm hzero)
    rw [if_neg hzero, Int.ceil_eq_iff]
    constructor
    · push_cast
      linarith
    · push_cast
      linarith

theorem floor_add_half (h0 : 0 ≤ t) (h1 : t < 1) : ⌊(q : Rat) + t + 1 / 2⌋ = q + if 1 / 2 ≤ t then 1 else 0 := by
  by_cases hhalf : 1 / 2 ≤ t
  · rw [if_pos hhalf, Int.floor_eq_iff]
    constructor
    · push_cast
      linarith
    · push_cast
      linarith
  · rw [if_neg hhalf, Int.floor_eq_iff]
    constructor
    · push_cast
      linarith
    · push_cast
      linarith

theorem ceil_sub_half (h0 : 0 ≤ t) (h1 : t < 1) : ⌈(q : Rat) + t - 1 / 2⌉ = q + if 1 / 2 < t then 1 else 0 := by
  by_cases hhalf : 1 / 2 < t
  · rw [if_pos hhalf, Int.ceil_eq_iff]
    constructor
    · push_cast
      linarith
    · push_cast
      linarith
  · rw [if_neg hhalf, Int.ceil_eq_iff]
    constructor
    · push_cast
      linarith
    · push_cast
      linarith

/-- Negation swaps rounding down and up. -/
theorem floor_neg_add (h0 : 0 ≤ t) (h1 : t < 1) : ⌊-((q : Rat) + t)⌋ = -(q + if t = 0 then 0 else 1) := by
  rw [Int.floor_neg, ceil_add h0 h1]

theorem ceil_neg_add (h0 : 0 ≤ t) (h1 : t < 1) : ⌈-((q : Rat) + t)⌉ = -(q : Int) := by
  rw [Int.ceil_neg, floor_add h0 h1]

theorem floor_neg_add_half (h0 : 0 ≤ t) (h1 : t < 1) :
    ⌊-((q : Rat) + t) + 1 / 2⌋ = -(q + if 1 / 2 < t then 1 else 0) := by
  rw [neg_add_eq_sub, ← neg_sub, Int.floor_neg, ceil_sub_half h0 h1]

theorem ceil_neg_sub_half (h0 : 0 ≤ t) (h1 : t < 1) :
    ⌈-((q : Rat) + t) - 1 / 2⌉ = -(q + if 1 / 2 ≤ t then 1 else 0) := by
  rw [← neg_add', Int.ceil_neg, floor_add_half h0 h1]

theorem cmpHalf_nonneg : cmpHalf t ≥ 0 ↔ 1 / 2 ≤ t := by
  rw [cmpHalf]
  split
  · constructor <;> intro h <;> first | omega | linarith
  · split <;> constructor <;> intro h <;> first | omega | linarith

theorem cmpHalf_pos : cmpHalf t > 0 ↔ 1 / 2 < t := by
  rw [cmpHalf]
  split
  · constructor <;> intro h <;> first | omega | linarith
  · split
    · constructor <;> intro h <;> first | omega | linarith
    next hlt hne =>
      constructor
      · intro _
        exact lt_of_le_of_ne (not_lt.1 hlt) (Ne.symm hne)
      · intro _
        omega

theorem cmpHalf_eq_zero : cmpHalf t = 0 ↔ t = 1 / 2 := by
  rw [cmpHalf]
  split
  · constructor <;> intro h <;> first | omega | linarith
  · split
    next heq => exact ⟨fun _ => heq, fun _ => rfl⟩
    next hne => exact ⟨fun h => by omega, fun h => absurd h hne⟩

theorem decide_cmpHalf_nonneg : decide (cmpHalf t ≥ 0) = decide (1 / 2 ≤ t) := decide_eq_decide.2 cmpHalf_nonneg

theorem decide_cmpHalf_pos : decide (cmpHalf t > 0) = decide (1 / 2 < t) := decide_eq_decide.2 cmpHalf_pos

theorem decide_cmpHalf_zero : decide (cmpHalf t = 0) = decide (t = 1 / 2) := decide_eq_decide.2 cmpHalf_eq_zero

end Fraction

/-! ## The decision on the fraction -/

/-- Whether a kept part with the given fraction behind it is incremented. -/
def roundsUp (q : Nat) (t : Rat) (negative : Bool) (mode : RoundingMode) : Bool :=
  applyRounding (t ≠ 0) (cmpHalf t) (q % 2 = 1) negative mode

section Decision

variable {q : Nat} {t : Rat} {mode : RoundingMode}

/-- A number that is not negative is rounded by the decision. -/
theorem roundInteger_nonneg (h0 : 0 ≤ t) (h1 : t < 1) :
    mode.roundInteger ((q : Rat) + t) = ((q + if roundsUp q t false mode then 1 else 0 : Nat) : Int) := by
  have hnonneg : 0 ≤ (q : Rat) + t := by positivity
  cases mode with
  | ceiling =>
    rw [RoundingMode.roundInteger, ceil_add h0 h1, roundsUp, applyRounding]
    by_cases hzero : t = 0 <;> simp [hzero]
  | floor =>
    rw [RoundingMode.roundInteger, floor_add h0 h1, roundsUp, applyRounding]
    simp
  | up =>
    rw [RoundingMode.roundInteger, if_pos hnonneg, ceil_add h0 h1, roundsUp, applyRounding]
    by_cases hzero : t = 0 <;> simp [hzero]
  | down =>
    rw [RoundingMode.roundInteger, if_pos hnonneg, floor_add h0 h1, roundsUp, applyRounding]
    simp
  | halfUp =>
    rw [RoundingMode.roundInteger, if_pos hnonneg, floor_add_half h0 h1, roundsUp, applyRounding, decide_cmpHalf_nonneg]
    simp
  | halfDown =>
    rw [RoundingMode.roundInteger, if_pos hnonneg, ceil_sub_half h0 h1, roundsUp, applyRounding, decide_cmpHalf_pos]
    simp
  | halfEven =>
    have hfract : Int.fract ((q : Rat) + t) = t := by
      rw [Int.fract, floor_add h0 h1]
      push_cast
      ring
    rw [RoundingMode.roundInteger, hfract, floor_add h0 h1, roundsUp, applyRounding, decide_cmpHalf_pos,
      decide_cmpHalf_zero]
    rcases lt_trichotomy t (1 / 2) with hlt | heq | hgt
    · rw [if_pos hlt, decide_eq_false hlt.not_gt, decide_eq_false hlt.ne]
      simp
    · rw [if_neg heq.not_lt, if_neg heq.not_gt, decide_eq_false heq.not_gt, decide_eq_true heq]
      rcases Nat.mod_two_eq_zero_or_one q with heven | hodd
      · rw [if_pos (by omega), heven]
        simp
      · rw [if_neg (by omega), hodd]
        simp
    · rw [if_neg hgt.not_gt, if_pos hgt, decide_eq_true hgt]
      simp

/-- A negative number is rounded by the decision on its magnitude. -/
theorem roundInteger_neg (h0 : 0 ≤ t) (h1 : t < 1) :
    mode.roundInteger (-((q : Rat) + t)) = -((q + if roundsUp q t true mode then 1 else 0 : Nat) : Int) := by
  by_cases hzero : (q : Rat) + t = 0
  · have hq : (0 : Rat) ≤ q := by positivity
    obtain rfl : t = 0 := by linarith
    obtain rfl : q = 0 := by
      rw [add_zero] at hzero
      exact_mod_cast hzero
    cases mode <;> simp [RoundingMode.roundInteger, roundsUp, applyRounding, cmpHalf] <;> norm_num
  have hneg : ¬ 0 ≤ -((q : Rat) + t) := by
    have hpos : 0 < (q : Rat) + t := lt_of_le_of_ne (by positivity) (Ne.symm hzero)
    linarith
  cases mode with
  | ceiling =>
    rw [RoundingMode.roundInteger, ceil_neg_add h0 h1, roundsUp, applyRounding]
    simp
  | floor =>
    rw [RoundingMode.roundInteger, floor_neg_add h0 h1, roundsUp, applyRounding]
    by_cases hfraction : t = 0 <;> simp [hfraction]
  | up =>
    rw [RoundingMode.roundInteger, if_neg hneg, floor_neg_add h0 h1, roundsUp, applyRounding]
    by_cases hfraction : t = 0 <;> simp [hfraction]
  | down =>
    rw [RoundingMode.roundInteger, if_neg hneg, ceil_neg_add h0 h1, roundsUp, applyRounding]
    simp
  | halfUp =>
    rw [RoundingMode.roundInteger, if_neg hneg, ceil_neg_sub_half h0 h1, roundsUp, applyRounding,
      decide_cmpHalf_nonneg]
    simp
  | halfDown =>
    rw [RoundingMode.roundInteger, if_neg hneg, floor_neg_add_half h0 h1, roundsUp, applyRounding,
      decide_cmpHalf_pos]
    simp
  | halfEven =>
    rw [RoundingMode.roundInteger, Int.fract, floor_neg_add h0 h1, roundsUp, applyRounding, decide_cmpHalf_pos,
      decide_cmpHalf_zero]
    by_cases hfraction : t = 0
    · subst hfraction
      norm_num
    · -- The fraction above the floor is what is missing to the next unit.
      have hrest : -((q : Rat) + t) - ((-((q : Int) + 1) : Int) : Rat) = 1 - t := by
        push_cast
        ring
      rw [if_neg hfraction, hrest]
      rcases lt_trichotomy t (1 / 2) with hlt | heq | hgt
      · rw [if_neg (by linarith), if_pos (by linarith), decide_eq_false hlt.not_gt, decide_eq_false hlt.ne]
        simp
      · rw [if_neg (by linarith), if_neg (by linarith), decide_eq_false heq.not_gt, decide_eq_true heq]
        rcases Nat.mod_two_eq_zero_or_one q with heven | hodd
        · rw [if_neg (by omega), heven]
          simp
        · rw [if_pos (by omega), hodd]
          simp
      · rw [if_pos (by linarith), decide_eq_true hgt]
        simp

/-- Rounding a number with a sign is the decision on its magnitude. -/
theorem roundInteger_signed {negative : Bool} (h0 : 0 ≤ t) (h1 : t < 1) :
    mode.roundInteger (if negative then -((q : Rat) + t) else (q : Rat) + t) =
      Decimal.signed negative (q + if roundsUp q t negative mode then 1 else 0) := by
  cases negative with
  | false => exact roundInteger_nonneg h0 h1
  | true => exact roundInteger_neg h0 h1

end Decision

/-- Nothing is rounded where nothing is behind the kept part. -/
theorem roundsUp_zero {q : Nat} {negative : Bool} {mode : RoundingMode} : roundsUp q 0 negative mode = false := by
  cases mode <;> simp [roundsUp, applyRounding, cmpHalf]

theorem RoundingMode.roundInteger_intCast {mode : RoundingMode} {x : Int} : mode.roundInteger (x : Rat) = x := by
  obtain ⟨n, rfl | rfl⟩ := Int.eq_nat_or_neg x
  · have hn : mode.roundInteger ((n : Rat) + 0) = _ := roundInteger_nonneg (le_refl (0 : Rat)) one_pos
    rw [roundsUp_zero] at hn
    simpa using hn
  · have hn : mode.roundInteger (-((n : Rat) + 0)) = _ := roundInteger_neg (le_refl (0 : Rat)) one_pos
    rw [roundsUp_zero] at hn
    simpa using hn

/-! ## Long division -/

namespace Decimal

theorem cmpHalf_div {r d : Nat} (hd : 0 < d) :
    cmpHalf ((r : Rat) / d) = if 2 * r < d then -1 else if 2 * r = d then 0 else 1 := by
  have hpos : (0 : Rat) < d := by exact_mod_cast hd
  have hlt : (r : Rat) / d < 1 / 2 ↔ 2 * r < d := by
    rw [div_lt_div_iff₀ hpos two_pos, one_mul, mul_comm]
    exact_mod_cast Iff.rfl
  have heq : (r : Rat) / d = 1 / 2 ↔ 2 * r = d := by
    rw [div_eq_div_iff hpos.ne' two_ne_zero, one_mul, mul_comm]
    exact_mod_cast Iff.rfl
  simp only [cmpHalf, hlt, heq]

/-- The parity of a magnitude is that of its last digit. -/
theorem lastOdd_eq {digits : Mag} :
    (!digits.isEmpty && decide (digits.headD 0 % 2 = 1)) = decide (ofDigits 10 digits % 2 = 1) := by
  cases digits with
  | nil => rfl
  | cons digit digits =>
    rw [Nat.ofDigits_cons, List.headD_cons, List.isEmpty_cons, Bool.not_false, Bool.true_and]
    apply decide_eq_decide.2
    omega

/-- Long division with rounding gives the rounded quotient. -/
theorem divideMagnitudes_value {numerator denominator : Mag} {negative : Bool} {mode : RoundingMode}
    (hn : numerator.Digits) (hd : denominator.Trimmed) (hne : denominator ≠ []) :
    signed negative (ofDigits 10 (divideMagnitudes numerator denominator negative mode)) =
      mode.roundInteger (if negative then -((ofDigits 10 numerator : Nat) / (ofDigits 10 denominator : Nat) : Rat)
        else (ofDigits 10 numerator : Nat) / (ofDigits 10 denominator : Nat)) := by
  obtain ⟨hvalue, hlt, htrimmed⟩ := magDivmod_spec hn hd hne
  rw [divideMagnitudes]
  dsimp only
  rw [ofDigits_incrementIf, lastOdd_eq]
  generalize (magDivmod numerator denominator).1 = quotient at hvalue ⊢
  generalize (magDivmod numerator denominator).2 = remainder at hvalue hlt htrimmed ⊢
  have hpositive : 0 < ofDigits 10 denominator := Nat.zero_lt_of_lt hlt
  have hpositive' : (0 : Rat) < (ofDigits 10 denominator : Nat) := Nat.cast_pos.2 hpositive
  have hquotient : ((ofDigits 10 numerator : Nat) : Rat) / (ofDigits 10 denominator : Nat) =
      (ofDigits 10 quotient : Nat) + (ofDigits 10 remainder : Nat) / (ofDigits 10 denominator : Nat) := by
    rw [hvalue, Nat.cast_add, Nat.cast_mul, add_div, mul_div_cancel_left₀ _ hpositive'.ne']
  have hfraction : ((ofDigits 10 remainder : Nat) : Rat) / (ofDigits 10 denominator : Nat) < 1 := by
    rw [div_lt_one hpositive']
    exact_mod_cast hlt
  have hdecision : applyRounding (!remainder.isEmpty)
      (if (!remainder.isEmpty) = true then magCompare (magMulSmall remainder 2) denominator else -1)
      (decide (ofDigits 10 quotient % 2 = 1)) negative mode =
        roundsUp (ofDigits 10 quotient) ((ofDigits 10 remainder : Nat) / (ofDigits 10 denominator : Nat)) negative
          mode := by
    have hcompare : magCompare (magMulSmall remainder 2) denominator =
        cmpHalf ((ofDigits 10 remainder : Nat) / (ofDigits 10 denominator : Nat)) := by
      rw [magCompare_eq (magMulSmall_trimmed htrimmed) hd, cmpHalf_div hpositive, ofDigits_magMulSmall, mul_comm]
    by_cases hnil : remainder = []
    · subst hnil
      simp [roundsUp, cmpHalf]
    · have hrest : ((ofDigits 10 remainder : Nat) : Rat) / (ofDigits 10 denominator : Nat) ≠ 0 :=
        div_ne_zero (Nat.cast_ne_zero.2 (mt htrimmed.ofDigits_eq_zero.1 hnil)) hpositive'.ne'
      have hsome : (!remainder.isEmpty) = true := by simpa using hnil
      rw [hsome, if_pos rfl, hcompare, roundsUp, decide_eq_true hrest]
  rw [hquotient, roundInteger_signed (by positivity) hfraction, ← hdecision]

variable {a b d : Decimal}

theorem value_eq_signed : d.value = (if d.negative then -((ofDigits 10 d.digits : Nat) : Rat)
    else (ofDigits 10 d.digits : Nat)) / 10 ^ d.scale := by
  rw [value, coefficient]
  cases d.negative <;> simp [signed]

/-- A quotient of values as one of coefficients that are brought to the wanted scale. -/
theorem quotient_value {scale shift shift' : Nat} (hscale : scale + b.scale + shift' = a.scale + shift) :
    a.value / b.value * 10 ^ scale =
      if a.negative != b.negative then
        -(((ofDigits 10 a.digits * 10 ^ shift : Nat) : Rat) / (ofDigits 10 b.digits * 10 ^ shift' : Nat))
      else ((ofDigits 10 a.digits * 10 ^ shift : Nat) : Rat) / (ofDigits 10 b.digits * 10 ^ shift' : Nat) := by
  have hpower : (10 : Rat) ^ scale * 10 ^ b.scale * 10 ^ shift' = 10 ^ a.scale * 10 ^ shift := by
    rw [← pow_add, ← pow_add, ← pow_add, hscale]
  have hquotient (x y : Rat) : x / 10 ^ a.scale / (y / 10 ^ b.scale) * 10 ^ scale =
      x * 10 ^ shift / (y * 10 ^ shift') := by
    rw [div_div_div_eq, div_mul_eq_mul_div, mul_assoc x, mul_comm _ y, ← div_mul_div_comm, ← div_mul_div_comm]
    congr 1
    rw [div_eq_div_iff (by positivity) (by positivity), mul_comm (10 ^ b.scale : Rat), hpower, mul_comm]
  rw [value_eq_signed, value_eq_signed, hquotient]
  push_cast
  cases a.negative <;> cases b.negative <;> simp [neg_div, div_neg]

/-- The magnitudes that `divide` divides. -/
theorem divide_coefficient {resultScale : Int} {mode : RoundingMode} (h : a.divide b resultScale mode = some d) :
    (d.scale : Int) = resultScale ∧ ∃ shift shift', d.scale + b.scale + shift' = a.scale + shift ∧
      b.digits ≠ [] ∧
      d.coefficient = signed (a.negative != b.negative) (ofDigits 10 (divideMagnitudes (magShiftLeft a.digits shift)
        (magShiftLeft b.digits shift') (a.negative != b.negative) mode)) := by
  unfold divide at h
  split at h
  · cases h
  next hguard =>
    simp only [isZero, Bool.or_eq_true, List.isEmpty_iff, decide_eq_true_eq, not_or] at hguard
    obtain ⟨hne, hscale⟩ := hguard
    have hscale' : ((resultScale.toNat : Nat) : Int) = resultScale := Int.toNat_of_nonneg (by omega)
    have hzero (digits : Mag) : magShiftLeft digits 0 = digits := by
      rw [magShiftLeft, List.replicate_zero, List.nil_append, ite_self]
    dsimp only at h
    split at h
    · split at h
      · cases h
      · cases h
        refine ⟨hscale', (resultScale + b.scale - a.scale).toNat, 0, ?_, hne,
          by rw [trim_coefficient, hzero b.digits]⟩
        change resultScale.toNat + b.scale + 0 = a.scale + (resultScale + b.scale - a.scale).toNat
        omega
    · split at h
      · cases h
      · cases h
        refine ⟨hscale', 0, (-(resultScale + b.scale - a.scale)).toNat, ?_, hne,
          by rw [trim_coefficient, hzero a.digits]⟩
        change resultScale.toNat + b.scale + (-(resultScale + b.scale - a.scale)).toNat = a.scale + 0
        omega

/-- Division gives the quotient rounded to the result scale. -/
theorem divide_value {resultScale : Int} {mode : RoundingMode} (h : a.divide b resultScale mode = some d) :
    (d.scale : Int) = resultScale ∧
      d.value = mode.roundInteger (a.value / b.value * 10 ^ d.scale) / 10 ^ d.scale := by
  obtain ⟨hscale, shift, shift', hshift, hne, hcoefficient⟩ := divide_coefficient h
  refine ⟨hscale, ?_⟩
  rw [value, hcoefficient, divideMagnitudes_value (a.shifted_trimmed shift).digits (b.shifted_trimmed shift')
    (mt magShiftLeft_eq_nil.mp hne), ofDigits_magShiftLeft, ofDigits_magShiftLeft, quotient_value hshift]

/-! ## Dropped digits -/

theorem ofDigits_take_add_drop (digits : Mag) (n : Nat) :
    ofDigits 10 digits = ofDigits 10 (digits.take n) + 10 ^ n * ofDigits 10 (digits.drop n) := by
  induction digits generalizing n with
  | nil => simp
  | cons digit digits ih =>
    cases n with
    | zero => simp
    | succ n =>
      rw [List.take_succ_cons, List.drop_succ_cons, Nat.ofDigits_cons, Nat.ofDigits_cons, ih n]
      ring

/-- Digits beyond the stored ones are zeros. -/
theorem ofDigits_take_succ (digits : Mag) (n : Nat) :
    ofDigits 10 (digits.take (n + 1)) = ofDigits 10 (digits.take n) + 10 ^ n * digits.getD n 0 := by
  induction digits generalizing n with
  | nil => simp
  | cons digit digits ih =>
    cases n with
    | zero => simp
    | succ n =>
      rw [List.take_succ_cons, List.take_succ_cons, Nat.ofDigits_cons, Nat.ofDigits_cons, ih n, List.getD_cons_succ]
      ring

theorem any_ne_zero (digits : Mag) : digits.any (· ≠ 0) = decide (ofDigits 10 digits ≠ 0) := by
  induction digits with
  | nil => rfl
  | cons digit digits ih =>
    rw [List.any_cons, ih, Nat.ofDigits_cons]
    by_cases hdigit : digit = 0 <;> by_cases hrest : ofDigits 10 digits = 0 <;> simp [hdigit, hrest]

theorem ofDigits_take_lt {digits : Mag} (h : digits.Digits) (n : Nat) : ofDigits 10 (digits.take n) < 10 ^ n := by
  have htake : Mag.Digits (digits.take n) := fun d hd => h d (List.mem_of_mem_take hd)
  exact htake.ofDigits_lt.trans_le (Nat.pow_le_pow_right (by decide) (List.length_take_le n digits))

/-- The digit below the rounding point and the digits below it tell how the dropped part
    compares with one half. -/
theorem cmpHalf_dropped (first : Nat) {low n : Nat} (hlow : low < 10 ^ n) :
    cmpHalf (((low + 10 ^ n * first : Nat) : Rat) / (10 ^ (n + 1) : Nat)) =
      if decide (first > 5) || (decide (first = 5) && decide (low ≠ 0)) then 1 else if first = 5 then 0 else -1 := by
  rw [cmpHalf_div (by positivity), pow_succ]
  generalize 10 ^ n = unit at *
  rcases Nat.lt_trichotomy first 5 with hlt | rfl | hgt
  · have hbelow : unit * first ≤ unit * 4 := Nat.mul_le_mul_left unit (by omega)
    rw [if_pos (by omega), decide_eq_false (by omega), decide_eq_false (by omega)]
    simp [hlt.ne]
  · by_cases hzero : low = 0
    · rw [if_neg (by omega), if_pos (by omega)]
      simp [hzero]
    · rw [if_neg (by omega), if_neg (by omega)]
      simp [hzero]
  · have habove : unit * 6 ≤ unit * first := Nat.mul_le_mul_left unit (by omega)
    rw [if_neg (by omega), if_neg (by omega), decide_eq_true hgt]
    simp

/-- Dropping digits with rounding gives the rounded magnitude. -/
theorem roundDigits_value {digits : Mag} {n : Nat} {negative : Bool} {mode : RoundingMode} (h : digits.Digits) :
    signed negative (ofDigits 10 (roundDigits digits (n + 1) negative mode)) =
      mode.roundInteger (if negative then -((ofDigits 10 digits : Nat) / (10 ^ (n + 1) : Nat) : Rat)
        else (ofDigits 10 digits : Nat) / (10 ^ (n + 1) : Nat)) := by
  have hpositive : (0 : Rat) < (10 ^ (n + 1) : Nat) := by positivity
  have hdropped : ofDigits 10 (digits.take (n + 1)) < 10 ^ (n + 1) := ofDigits_take_lt h (n + 1)
  have hfraction : ((ofDigits 10 (digits.take (n + 1)) : Nat) : Rat) / (10 ^ (n + 1) : Nat) < 1 := by
    rw [div_lt_one hpositive]
    exact_mod_cast hdropped
  have hquotient : ((ofDigits 10 digits : Nat) : Rat) / (10 ^ (n + 1) : Nat) =
      (ofDigits 10 (digits.drop (n + 1)) : Nat) + (ofDigits 10 (digits.take (n + 1)) : Nat) / (10 ^ (n + 1) : Nat) := by
    rw [ofDigits_take_add_drop digits (n + 1), Nat.cast_add, Nat.cast_mul, add_div,
      mul_div_cancel_left₀ _ hpositive.ne', add_comm]
  have hcompare := cmpHalf_dropped (digits.getD n 0) (ofDigits_take_lt h n)
  rw [← ofDigits_take_succ] at hcompare
  have hremainder : (decide (digits.getD n 0 ≠ 0) || decide (ofDigits 10 (digits.take n) ≠ 0)) =
      decide (((ofDigits 10 (digits.take (n + 1)) : Nat) : Rat) / (10 ^ (n + 1) : Nat) ≠ 0) := by
    have hunit : 10 ^ n ≠ 0 := by positivity
    rw [← Bool.decide_or]
    apply decide_eq_decide.2
    rw [div_ne_zero_iff, and_iff_left hpositive.ne', Nat.cast_ne_zero, ofDigits_take_succ, ← not_and_or, Ne,
      Nat.add_eq_zero_iff, Nat.mul_eq_zero, or_iff_right hunit, and_comm]
  rw [roundDigits, ofDigits_incrementIf, lastOdd_eq, Nat.add_sub_cancel, any_ne_zero, hquotient,
    roundInteger_signed (by positivity) hfraction, roundsUp, hcompare, hremainder]

/-- Rounding gives the value rounded to the number of places, which is brought between zero
    and the cap. -/
theorem round_value_eq {places : Int} {mode : RoundingMode} :
    (d.round places mode).value =
      mode.roundInteger (d.value * 10 ^ clampPlaces places) / 10 ^ clampPlaces places := by
  by_cases hplaces : d.scale ≤ clampPlaces places
  · have hscale : (d.round places mode).scale = clampPlaces places := round_scale
    have hinteger : d.value * 10 ^ clampPlaces places = (d.round places mode).coefficient := by
      rw [← hscale, ← round_value hplaces, value_mul_scale]
    rw [hinteger, RoundingMode.roundInteger_intCast, ← hscale]
    rfl
  · obtain ⟨n, hn⟩ : ∃ n, d.scale = clampPlaces places + (n + 1) := ⟨d.scale - clampPlaces places - 1, by omega⟩
    have hdrop : d.scale - clampPlaces places = n + 1 := by omega
    have hvalue : d.value * 10 ^ clampPlaces places =
        if d.negative then -((ofDigits 10 d.digits : Nat) / (10 ^ (n + 1) : Nat) : Rat)
        else (ofDigits 10 d.digits : Nat) / (10 ^ (n + 1) : Nat) := by
      have hunit : (10 : Rat) ^ clampPlaces places ≠ 0 := by positivity
      rw [value_eq_signed, hn, pow_add, div_mul_eq_mul_div, mul_comm ((10 : Rat) ^ clampPlaces places),
        mul_div_mul_right _ _ hunit]
      push_cast
      cases d.negative <;> simp [neg_div]
    rw [hvalue, value, round_scale, round, if_neg (by omega), trim_coefficient, hdrop, roundDigits_value d.digit_lt]

/-! ## Division and rounding -/

/-- The number of digits that the longer of the two magnitudes can get in a division. -/
def divisionDigits (a b : Decimal) (resultScale : Int) : Nat :=
  if resultScale + b.scale - a.scale ≥ 0 then a.digits.length + (resultScale + b.scale - a.scale).toNat
  else b.digits.length + (-(resultScale + b.scale - a.scale)).toNat

theorem divide_eq_none {resultScale : Int} {mode : RoundingMode} :
    a.divide b resultScale mode = none ↔
      b.value = 0 ∨ resultScale < 0 ∨ kMaxDigits < divisionDigits a b resultScale := by
  have hzero : b.value = 0 ↔ b.isZero = true := by
    rw [value_eq_zero, isZero, List.isEmpty_iff]
  rw [hzero, divide, divisionDigits]
  by_cases hguard : b.isZero = true ∨ resultScale < 0
  · rw [if_pos (by simpa using hguard)]
    exact iff_of_true rfl (hguard.imp_right Or.inl)
  · rw [not_or] at hguard
    rw [if_neg (by simpa using hguard), or_iff_right hguard.1, or_iff_right hguard.2]
    dsimp only
    split
    · split
      next hlarge => exact iff_of_true rfl hlarge
      next hfits => exact iff_of_false (Option.some_ne_none _) hfits
    · split
      next hlarge => exact iff_of_true rfl hlarge
      next hfits => exact iff_of_false (Option.some_ne_none _) hfits

/-- Division and rounding give the exact number rounded by the mode, at the scale that was
    asked for; division raises for a zero divisor, a negative scale and too many digits, and
    rounding brings the number of places between zero and the cap. -/
theorem rounding_exact (a b : Decimal) (resultScale places : Int) (mode : RoundingMode) :
    (∀ quotient, a.divide b resultScale mode = some quotient → (quotient.scale : Int) = resultScale ∧
      quotient.value = mode.roundInteger (a.value / b.value * 10 ^ quotient.scale) / 10 ^ quotient.scale) ∧
    (a.divide b resultScale mode = none ↔
      b.value = 0 ∨ resultScale < 0 ∨ kMaxDigits < divisionDigits a b resultScale) ∧
    (a.round places mode).scale = clampPlaces places ∧
    (a.round places mode).value =
      mode.roundInteger (a.value * 10 ^ clampPlaces places) / 10 ^ clampPlaces places :=
  ⟨fun _ => divide_value, divide_eq_none, round_scale, round_value_eq⟩

/-- No decimal has a negative scale, whatever is asked for. -/
theorem negative_scale_unanswered :
    ¬ ∀ (a b : Decimal) (scale : Int) (mode : RoundingMode), b.value ≠ 0 →
      (∃ quotient, a.divide b scale mode = some quotient) ∧ ((a.round scale mode).scale : Int) = scale := by
  intro hclaim
  have hone : (⟨[1], 0, false, by decide, by decide, by decide⟩ : Decimal).value ≠ 0 := by
    simp [value, coefficient, signed]
  have hscale := (hclaim ⟨[1], 0, false, by decide, by decide, by decide⟩ _ (-1) .down hone).2
  rw [round_scale] at hscale
  exact absurd hscale (by decide)

end Decimal

end Luma
