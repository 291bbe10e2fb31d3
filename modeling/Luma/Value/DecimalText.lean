-- SUMMARY: Parsing decimals from text, printing them back, and the limits computations keep to.
import Luma.Value.DecimalArithmetic
import Mathlib.Algebra.Order.Field.Basic
import Mathlib.Data.List.TakeWhile
import Mathlib.Tactic.IntervalCases

/-! # Decimal Text and Limits

The parser of decimal literals and its round trip with the printer, and the
digit cap over whole computations. Printing pads with zeros up to one digit
before the point, so a value survives the round trip exactly when both its
coefficient and that padding stay within the cap. -/

namespace Luma

open Codec
open Nat (ofDigits)

namespace Decimal

/-! ## Parsing -/

/-- `'0'` to `'9'`. -/
def isDigit (c : UInt8) : Bool := 48 ≤ c && c ≤ 57

/-- The parts of a decimal literal. -/
structure Literal where
  negative : Bool
  integerPart : Bytes
  fractionPart : Bytes
  exponent : Int
  integer_digits : ∀ c ∈ integerPart, isDigit c = true
  fraction_digits : ∀ c ∈ fractionPart, isDigit c = true

/-- An optional sign, and the rest of the text. -/
def readSign : Bytes → Bool × Bytes
  | [] => (false, [])
  | c :: rest =>
    if c = 45 then (true, rest)
    else if c = 43 then (false, rest)
    else (false, c :: rest)

/-- The digits of an exponent. Absurd exponents are refused. -/
def readMagnitude : (magnitude : Nat) → Bytes → Option (Nat × Bytes)
  | magnitude, [] => some (magnitude, [])
  | magnitude, c :: rest =>
    if isDigit c then
      let magnitude := magnitude * 10 + (c.toNat - 48)
      if magnitude > 2000000000 then none else readMagnitude magnitude rest
    else some (magnitude, c :: rest)

/-- An optional exponent after `e` or `E`. -/
def readExponent : Bytes → Option (Int × Bytes)
  | [] => some (0, [])
  | c :: rest =>
    if c = 101 ∨ c = 69 then
      let (expNegative, rest) := readSign rest
      if rest.head?.any isDigit then
        (readMagnitude 0 rest).map fun (magnitude, rest) =>
          (if expNegative then -(magnitude : Int) else magnitude, rest)
      else none
    else some (0, c :: rest)

/-- The digits after a point, if there is one. -/
def readFraction : Bytes → Bytes × Bytes
  | [] => ([], [])
  | c :: rest => if c = 46 then (rest.takeWhile isDigit, rest.dropWhile isDigit) else ([], c :: rest)

theorem readFraction_digits {text : Bytes} : ∀ c ∈ (readFraction text).1, isDigit c = true := by
  cases text with
  | nil => exact fun _ hd => absurd hd List.not_mem_nil
  | cons c rest =>
    rw [readFraction]
    split
    · exact fun d hd => List.mem_takeWhile_imp hd
    · exact fun _ hd => absurd hd List.not_mem_nil

/-- The literal the whole text is, if it is one. -/
def readLiteral (text : Bytes) : Option Literal :=
  let (negative, rest) := readSign text
  let fraction := readFraction (rest.dropWhile isDigit)
  if (rest.takeWhile isDigit).isEmpty && fraction.1.isEmpty then none
  else
    match readExponent fraction.2 with
    | some (exponent, []) =>
      some
        { negative
          integerPart := rest.takeWhile isDigit
          fractionPart := (readFraction (rest.dropWhile isDigit)).1
          exponent
          integer_digits := fun _ hc => List.mem_takeWhile_imp hc
          fraction_digits := readFraction_digits }
    | _ => none

/-- The coefficient's digit characters, most significant first. -/
def Literal.combined (literal : Literal) : Bytes := literal.integerPart ++ literal.fractionPart

/-- The number of digits after the point once the exponent is applied; negative for trailing zeros. -/
def Literal.scale (literal : Literal) : Int := literal.fractionPart.length - literal.exponent

/-- Digit characters as a magnitude. -/
def magnitudeOf (text : Bytes) : Mag := text.reverse.map fun c => c.toNat - 48

theorem magnitudeOf_digits {text : Bytes} (h : ∀ c ∈ text, isDigit c = true) : (magnitudeOf text).Digits := by
  intro d hd
  obtain ⟨c, hc, rfl⟩ := List.mem_map.mp hd
  have hdigit := h c (List.mem_reverse.mp hc)
  simp only [isDigit, Bool.and_eq_true, decide_eq_true_eq, UInt8.le_iff_toNat_le] at hdigit
  have hnine : c.toNat ≤ 57 := hdigit.2
  omega

theorem Literal.combined_digits (literal : Literal) : ∀ c ∈ literal.combined, isDigit c = true := by
  intro c hc
  rcases List.mem_append.mp hc with hc | hc
  · exact literal.integer_digits c hc
  · exact literal.fraction_digits c hc

theorem padded_digits {a : Mag} (h : a.Digits) (extra : Nat) : Mag.Digits (List.replicate extra 0 ++ a) := by
  intro d hd
  rcases List.mem_append.mp hd with hzero | hd
  · rw [List.eq_of_mem_replicate hzero]
    decide
  · exact h d hd

/-- The decimal a literal denotes, within the digit cap. -/
def ofLiteral (literal : Literal) : Option Decimal :=
  if literal.combined.length > kMaxDigits then none
  else
    have hdigits := magnitudeOf_digits literal.combined_digits
    if literal.scale < 0 then
      -- A negative scale is folded into the coefficient as trailing zeros.
      let extra := (-literal.scale).toNat
      if (magnitudeOf literal.combined).length + extra > kMaxDigits then none
      else
        some (trim (List.replicate extra 0 ++ magnitudeOf literal.combined) (padded_digits hdigits extra) 0
          literal.negative)
    else if literal.scale > kMaxDigits then none
    else some (trim (magnitudeOf literal.combined) hdigits literal.scale.toNat literal.negative)

def parse (text : Bytes) : Option Decimal := (readLiteral text).bind ofLiteral

/-! ## Printing and parsing -/

variable {d : Decimal}

/-- The digit characters of the printed text: padded to one digit before the point. -/
def textDigits (d : Decimal) : Bytes :=
  List.replicate (d.scale + 1 - d.digits.length) 48 ++ magnitudeText d.digits

theorem magnitudeText_length {digits : Mag} : (magnitudeText digits).length = digits.length := by
  simp [magnitudeText]

theorem textDigits_length : d.textDigits.length = max d.digits.length (d.scale + 1) := by
  rw [textDigits, List.length_append, List.length_replicate, magnitudeText_length]
  omega

theorem textDigits_isDigit : ∀ c ∈ d.textDigits, isDigit c = true := by
  intro c hc
  rcases List.mem_append.mp hc with hzero | hc
  · rw [List.eq_of_mem_replicate hzero]
    decide
  · obtain ⟨digit, hmem, rfl⟩ := List.mem_map.mp hc
    have hlt := d.digit_lt digit (List.mem_reverse.mp hmem)
    interval_cases digit <;> decide

/-- Reading the printed digits gives the coefficient with the padding on top. -/
theorem magnitudeOf_textDigits :
    magnitudeOf d.textDigits = d.digits ++ List.replicate (d.scale + 1 - d.digits.length) 0 := by
  have hdigit : ∀ digit ∈ d.digits, (UInt8.ofNat (48 + digit)).toNat - 48 = digit := by
    intro digit hmem
    have hlt := d.digit_lt digit hmem
    rw [UInt8.toNat_ofNat', Nat.mod_eq_of_lt (by omega)]
    omega
  have hmap : d.digits.map (fun digit => (UInt8.ofNat (48 + digit)).toNat - 48) = d.digits := by
    conv_rhs => rw [← List.map_id d.digits]
    exact List.map_congr_left hdigit
  rw [magnitudeOf, textDigits, magnitudeText, List.reverse_append, ← List.map_reverse, List.reverse_reverse,
    List.reverse_replicate, List.map_append, List.map_map, List.map_replicate]
  exact congrArg (· ++ _) hmap

/-- The printed text: a sign, then the digits with a point before the last `scale`. -/
theorem toText_eq (d : Decimal) :
    d.toText = (if d.negative then [45] else []) ++
      if d.scale = 0 then d.textDigits
      else d.textDigits.take (d.textDigits.length - d.scale) ++
        46 :: d.textDigits.drop (d.textDigits.length - d.scale) := by
  by_cases hzero : d.digits = []
  · have hnegative : d.negative = false := d.zero_nonneg hzero
    have hdigits : d.textDigits = 48 :: List.replicate d.scale 48 := by
      simp [textDigits, hzero, magnitudeText, List.replicate_succ]
    by_cases hscale : d.scale = 0
    · simp [toText, isZero, hzero, hscale, hnegative, hdigits]
    · simp [toText, isZero, hzero, hscale, hnegative, hdigits]
  · have hne : d.digits.length ≠ 0 := mt List.length_eq_zero_iff.mp hzero
    have hnonzero : d.isZero = false := by simpa [isZero] using hzero
    by_cases hscale : d.scale = 0
    · have hdigits : d.textDigits = magnitudeText d.digits := by
        rw [textDigits, hscale, show 0 + 1 - d.digits.length = 0 by omega]
        rfl
      simp [toText, hnonzero, hscale, hdigits]
    · have hpadded : (if (magnitudeText d.digits).length ≤ d.scale then
          List.replicate (d.scale - (magnitudeText d.digits).length + 1) 48 ++ magnitudeText d.digits
          else magnitudeText d.digits) = d.textDigits := by
        rw [magnitudeText_length, textDigits]
        split
        next hle => rw [show d.scale + 1 - d.digits.length = d.scale - d.digits.length + 1 by omega]
        next hgt =>
          rw [show d.scale + 1 - d.digits.length = 0 by omega]
          rfl
      rw [toText]
      simp only [hnonzero, Bool.false_eq_true, if_false, hscale, hpadded, List.append_assoc]

/-- No digit character is a sign, a point or an exponent mark. -/
theorem isDigit_ne {c : UInt8} (h : isDigit c = true) : c ≠ 45 ∧ c ≠ 43 ∧ c ≠ 46 := by
  refine ⟨?_, ?_, ?_⟩ <;>
    · rintro rfl
      exact absurd h (by decide)

theorem readSign_digits (negative : Bool) {text : Bytes} (h : text.head?.any isDigit = true) :
    readSign ((if negative then [45] else []) ++ text) = (negative, text) := by
  cases text with
  | nil => simp at h
  | cons c text =>
    obtain ⟨hminus, hplus, -⟩ := isDigit_ne (c := c) (by simpa using h)
    cases negative <;> simp [readSign, hminus, hplus]

/-- The parser splits digits, a point and digits as they were put together. -/
theorem readLiteral_fraction {negative : Bool} {integer fraction : Bytes} (hne : integer ≠ [])
    (hinteger : ∀ c ∈ integer, isDigit c = true) (hfraction : ∀ c ∈ fraction, isDigit c = true) :
    readLiteral ((if negative then [45] else []) ++ (integer ++ 46 :: fraction)) =
      some ⟨negative, integer, fraction, 0, hinteger, hfraction⟩ := by
  obtain ⟨c, rest, rfl⟩ := List.exists_cons_of_ne_nil hne
  have hhead : (c :: rest ++ 46 :: fraction).head?.any isDigit = true := hinteger c List.mem_cons_self
  have hsign := readSign_digits negative hhead
  have htake : (c :: rest ++ 46 :: fraction).takeWhile isDigit = c :: rest := by
    rw [List.takeWhile_append_of_pos hinteger]
    simp [isDigit]
  have hdrop : (c :: rest ++ 46 :: fraction).dropWhile isDigit = 46 :: fraction := by
    rw [List.dropWhile_append_of_pos hinteger]
    simp [isDigit]
  have hread : readFraction (46 :: fraction) = (fraction, []) := by
    simp only [readFraction, if_true]
    rw [List.takeWhile_eq_self_iff.mpr hfraction, List.dropWhile_eq_nil_iff.mpr hfraction]
  simp only [readLiteral, hsign, htake, hdrop, hread, readExponent, List.isEmpty_cons, Bool.false_and,
    Bool.false_eq_true, if_false]

theorem readLiteral_integer {negative : Bool} {integer : Bytes} (hne : integer ≠ [])
    (hinteger : ∀ c ∈ integer, isDigit c = true) :
    readLiteral ((if negative then [45] else []) ++ integer) =
      some ⟨negative, integer, [], 0, hinteger, nofun⟩ := by
  obtain ⟨c, rest, rfl⟩ := List.exists_cons_of_ne_nil hne
  have hhead : (c :: rest).head?.any isDigit = true := hinteger c List.mem_cons_self
  have hsign := readSign_digits negative hhead
  have htake : (c :: rest).takeWhile isDigit = c :: rest := List.takeWhile_eq_self_iff.mpr hinteger
  have hdrop : (c :: rest).dropWhile isDigit = [] := List.dropWhile_eq_nil_iff.mpr hinteger
  simp only [readLiteral, hsign, htake, hdrop, readFraction, readExponent, List.isEmpty_cons, Bool.false_and,
    Bool.false_eq_true, if_false]

/-- The literal that the printed text is. -/
theorem readLiteral_toText (d : Decimal) : ∃ literal, readLiteral d.toText = some literal ∧
    literal.combined = d.textDigits ∧ literal.scale = d.scale ∧ literal.negative = d.negative := by
  have hlength := d.textDigits_length
  rw [toText_eq]
  by_cases hscale : d.scale = 0
  · rw [if_pos hscale]
    have hne : d.textDigits ≠ [] := by
      rw [Ne, ← List.length_eq_zero_iff]
      omega
    refine ⟨_, readLiteral_integer hne textDigits_isDigit, ?_, ?_, rfl⟩
    · exact List.append_nil _
    · simp [Literal.scale, hscale]
  · rw [if_neg hscale]
    have hne : d.textDigits.take (d.textDigits.length - d.scale) ≠ [] := by
      rw [Ne, ← List.length_eq_zero_iff, List.length_take]
      omega
    refine ⟨_, readLiteral_fraction hne (fun c hc => textDigits_isDigit c (List.mem_of_mem_take hc))
      (fun c hc => textDigits_isDigit c (List.mem_of_mem_drop hc)), ?_, ?_, rfl⟩
    · exact List.take_append_drop _ _
    · simp only [Literal.scale, List.length_drop, Int.sub_zero]
      omega

/-- The parts of a decimal determine it: reading printed digits back changes nothing. -/
theorem trim_textDigits {hdigits : (magnitudeOf d.textDigits).Digits} :
    trim (magnitudeOf d.textDigits) hdigits d.scale d.negative = d := by
  have htrim : magTrim (magnitudeOf d.textDigits) = d.digits := by
    apply (magTrim_trimmed hdigits).ext d.digits_trimmed
    rw [ofDigits_magTrim, magnitudeOf_textDigits, Nat.ofDigits_append_replicate_zero]
  refine ext_fields htrim rfl ?_
  by_cases hnil : d.digits = []
  · simp [trim, htrim, hnil, d.zero_nonneg hnil]
  · have hne : d.digits.isEmpty = false := by simpa using hnil
    simp [trim, htrim, hne]

/-- The parser gives a printed decimal back, unless its printed digits exceed the cap. -/
theorem parse_toText (d : Decimal) :
    parse d.toText = if max d.digits.length (d.scale + 1) ≤ kMaxDigits then some d else none := by
  obtain ⟨literal, hread, hcombined, hscale, hnegative⟩ := readLiteral_toText d
  rw [parse, hread, Option.bind_some, ofLiteral]
  simp only [hcombined, hscale, hnegative, textDigits_length, Int.toNat_natCast, trim_textDigits]
  by_cases hfits : max d.digits.length (d.scale + 1) ≤ kMaxDigits
  · rw [if_neg (by omega), if_neg (by omega), if_neg (by omega), if_pos hfits]
  · rw [if_pos (by omega), if_neg hfits]

/-! ## Limits -/

/-- Within the digit cap, and read back from its text with the same value and scale. -/
structure WithinLimits (d : Decimal) : Prop where
  digits : d.digits.length ≤ kMaxDigits
  text : ∃ d', parse d.toText = some d' ∧ d'.value = d.value ∧ d'.scale = d.scale

theorem withinLimits_iff : d.WithinLimits ↔ d.digits.length ≤ kMaxDigits ∧ d.scale < kMaxDigits := by
  constructor
  · rintro ⟨hdigits, d', hparse, -, -⟩
    rw [parse_toText] at hparse
    split at hparse
    next hfits => exact ⟨hdigits, by omega⟩
    · cases hparse
  · rintro ⟨hdigits, hscale⟩
    refine ⟨hdigits, d, ?_, rfl, rfl⟩
    rw [parse_toText, if_pos (by omega)]

/-- The limits as bounds on the coefficient and the scale. -/
theorem withinLimits_iff_coefficient :
    d.WithinLimits ↔ d.coefficient.natAbs < 10 ^ kMaxDigits ∧ d.scale < kMaxDigits := by
  rw [withinLimits_iff, d.digits_trimmed.length_le, coefficient_natAbs]

/-- The limits in terms of the value. -/
theorem withinLimits_iff_value :
    d.WithinLimits ↔ |d.value| * 10 ^ d.scale < 10 ^ kMaxDigits ∧ d.scale < kMaxDigits := by
  have hcoefficient : |d.value| * 10 ^ d.scale = (d.coefficient.natAbs : Rat) := by
    rw [Nat.cast_natAbs, Int.cast_abs, ← value_mul_scale, abs_mul, abs_of_pos (by positivity : (0 : Rat) < 10 ^ d.scale)]
  rw [withinLimits_iff_coefficient, hcoefficient]
  norm_cast

/-- One call of the decimal interface. -/
inductive Operation where
  | parse (text : Bytes)
  | add (a b : Decimal)
  | subtract (a b : Decimal)
  | multiply (a b : Decimal)
  | divide (a b : Decimal) (resultScale : Int) (mode : RoundingMode)
  | round (a : Decimal) (places : Int) (mode : RoundingMode)
  | negate (a : Decimal)

namespace Operation

/-- The result, unless the operation raises an error. -/
def run : Operation → Option Decimal
  | .parse text => Decimal.parse text
  | .add a b => some (a.add b)
  | .subtract a b => some (a.subtract b)
  | .multiply a b => a.multiply b
  | .divide a b resultScale mode => a.divide b resultScale mode
  | .round a places mode => some (a.round places mode)
  | .negate a => some a.negate

def operands : Operation → List Decimal
  | .parse _ => []
  | .add a b | .subtract a b | .multiply a b | .divide a b _ _ => [a, b]
  | .round a _ _ | .negate a => [a]

/-- The condition on an operation's inputs under which its result stays within the limits. -/
def Fits : Operation → Prop
  | .parse text => ∀ literal, readLiteral text = some literal → literal.scale < kMaxDigits
  | .add a b => |a.value + b.value| * 10 ^ max a.scale b.scale < 10 ^ kMaxDigits
  | .subtract a b => |a.value - b.value| * 10 ^ max a.scale b.scale < 10 ^ kMaxDigits
  | .multiply a b => a.scale + b.scale < kMaxDigits
  | .divide _ _ resultScale _ => resultScale < kMaxDigits
  | .round a places _ => clampPlaces places < kMaxDigits ∧ |a.value| * 10 ^ clampPlaces places < 10 ^ kMaxDigits
  | .negate _ => True

end Operation

/-- The decimals produced by sequences of operations that satisfy `P`. -/
inductive ProducedBy (P : Operation → Prop) : Decimal → Prop where
  | intro (op : Operation) {d : Decimal} (operands : ∀ x ∈ op.operands, ProducedBy P x) (fits : P op)
      (run : op.run = some d) : ProducedBy P d

theorem parse_withinLimits_iff {text : Bytes} (h : parse text = some d) :
    d.WithinLimits ↔ (Operation.parse text).Fits := by
  obtain ⟨literal, hread, hof⟩ := Option.bind_eq_some_iff.mp h
  have hlength : (magnitudeOf literal.combined).length = literal.combined.length := by simp [magnitudeOf]
  have hfits : (Operation.parse text).Fits ↔ literal.scale < kMaxDigits := by
    simp [Operation.Fits, hread]
  have htrim : ∀ (digits : Mag) (hdigits : digits.Digits), digits.length ≤ kMaxDigits →
      (magTrim digits).length ≤ kMaxDigits := by
    intro digits hdigits hle
    apply (magTrim_trimmed hdigits).length_le.mpr
    rw [ofDigits_magTrim]
    exact hdigits.ofDigits_lt.trans_le (Nat.pow_le_pow_right (by decide) hle)
  rw [hfits, withinLimits_iff]
  unfold ofLiteral at hof
  split at hof
  · cases hof
  next hcombined =>
    dsimp only at hof
    split at hof
    next hnegative =>
      split at hof
      · cases hof
      next hextra =>
        cases hof
        have hdigits := htrim _ (padded_digits (magnitudeOf_digits literal.combined_digits) (-literal.scale).toNat)
          (by rw [List.length_append, List.length_replicate]; omega)
        have hcap : 0 < kMaxDigits := by decide
        exact iff_of_true ⟨hdigits, hcap⟩ (by omega)
    next hnonnegative =>
      split at hof
      · cases hof
      next hscale =>
        cases hof
        have hdigits := htrim _ (magnitudeOf_digits literal.combined_digits) (by omega)
        have hiff : literal.scale.toNat < kMaxDigits ↔ literal.scale < kMaxDigits := by omega
        exact (and_iff_right hdigits).trans hiff

section Steps

variable {a b : Decimal}

theorem add_withinLimits_iff (ha : a.WithinLimits) (hb : b.WithinLimits) :
    (a.add b).WithinLimits ↔ (Operation.add a b).Fits := by
  have hscale : max a.scale b.scale < kMaxDigits :=
    max_lt (withinLimits_iff.mp ha).2 (withinLimits_iff.mp hb).2
  rw [withinLimits_iff_value, add_value, add_scale]
  exact and_iff_left hscale

theorem subtract_withinLimits_iff (ha : a.WithinLimits) (hb : b.WithinLimits) :
    (a.subtract b).WithinLimits ↔ (Operation.subtract a b).Fits := by
  have hscale : max a.scale b.scale < kMaxDigits :=
    max_lt (withinLimits_iff.mp ha).2 (withinLimits_iff.mp hb).2
  rw [withinLimits_iff_value, subtract_value, subtract_scale]
  exact and_iff_left hscale

theorem multiply_withinLimits_iff (h : a.multiply b = some d) :
    d.WithinLimits ↔ (Operation.multiply a b).Fits := by
  obtain ⟨hlength, hscale, hcoefficient⟩ := multiply_some h
  have hproduct : d.coefficient.natAbs < 10 ^ kMaxDigits := by
    rw [hcoefficient, Int.natAbs_mul, coefficient_natAbs, coefficient_natAbs]
    calc ofDigits 10 a.digits * ofDigits 10 b.digits
        < 10 ^ a.digits.length * 10 ^ b.digits.length :=
          Nat.mul_lt_mul'' (Mag.Digits.ofDigits_lt a.digit_lt) (Mag.Digits.ofDigits_lt b.digit_lt)
      _ = 10 ^ (a.digits.length + b.digits.length) := (pow_add _ _ _).symm
      _ ≤ 10 ^ kMaxDigits := Nat.pow_le_pow_right (by decide) hlength
  rw [withinLimits_iff_coefficient, hscale]
  exact and_iff_right hproduct

theorem divide_withinLimits_iff {resultScale : Int} {mode : RoundingMode} (ha : a.WithinLimits)
    (h : a.divide b resultScale mode = some d) :
    d.WithinLimits ↔ (Operation.divide a b resultScale mode).Fits := by
  obtain ⟨hscale, hcoefficient⟩ := divide_some h
  rw [withinLimits_iff_coefficient, Operation.Fits, ← hscale, Nat.cast_lt]
  exact and_iff_right (hcoefficient ha.digits)

theorem round_withinLimits_iff {places : Int} {mode : RoundingMode} (ha : a.WithinLimits) :
    (a.round places mode).WithinLimits ↔ (Operation.round a places mode).Fits := by
  rcases Nat.lt_or_ge (clampPlaces places) a.scale with hless | hmore
  · obtain ⟨hcoefficient, hscale⟩ := withinLimits_iff_coefficient.mp ha
    have hwithin : (a.round places mode).WithinLimits := by
      rw [withinLimits_iff_coefficient, round_scale]
      exact ⟨round_coefficient_lt hless (by decide) hcoefficient, hless.trans hscale⟩
    have hvalue : |a.value| * 10 ^ clampPlaces places < 10 ^ kMaxDigits :=
      lt_of_le_of_lt
        (mul_le_mul_of_nonneg_left (pow_le_pow_right₀ (by norm_num) hless.le) (abs_nonneg _))
        (withinLimits_iff_value.mp ha).1
    exact iff_of_true hwithin ⟨hless.trans hscale, hvalue⟩
  · rw [withinLimits_iff_value, round_value hmore, round_scale]
    exact and_comm

theorem negate_withinLimits (ha : a.WithinLimits) : a.negate.WithinLimits := by
  rw [withinLimits_iff_coefficient] at ha ⊢
  rwa [negate_coefficient, negate_scale, Int.natAbs_neg]

end Steps

/-- One operation on values within the limits stays within them exactly when its inputs fit. -/
theorem Operation.run_withinLimits_iff {op : Operation} (hoperands : ∀ x ∈ op.operands, x.WithinLimits)
    (hrun : op.run = some d) : d.WithinLimits ↔ op.Fits := by
  cases op with
  | parse text => exact parse_withinLimits_iff hrun
  | add a b =>
    cases hrun
    exact add_withinLimits_iff (hoperands a (by simp [operands])) (hoperands b (by simp [operands]))
  | subtract a b =>
    cases hrun
    exact subtract_withinLimits_iff (hoperands a (by simp [operands])) (hoperands b (by simp [operands]))
  | multiply a b => exact multiply_withinLimits_iff hrun
  | divide a b resultScale mode => exact divide_withinLimits_iff (hoperands a (by simp [operands])) hrun
  | round a places mode =>
    cases hrun
    exact round_withinLimits_iff (hoperands a (by simp [operands]))
  | negate a =>
    cases hrun
    exact iff_of_true (negate_withinLimits (hoperands a (by simp [operands]))) trivial

/-- A computation whose operations all fit produces only values within the limits. -/
theorem ProducedBy.withinLimits (h : ProducedBy Operation.Fits d) : d.WithinLimits := by
  induction h with
  | intro op operands fits run ih => exact (Operation.run_withinLimits_iff ih run).mpr fits

/-- Every value of a computation whose operations all fit is within the limits, and the
    first operation that does not fit leaves them. -/
theorem produced_withinLimits {op : Operation} (hoperands : ∀ x ∈ op.operands, ProducedBy Operation.Fits x)
    (hrun : op.run = some d) : (∀ x ∈ op.operands, x.WithinLimits) ∧
      (ProducedBy Operation.Fits d → d.WithinLimits) ∧ (d.WithinLimits ↔ op.Fits) :=
  ⟨fun x hx => (hoperands x hx).withinLimits, ProducedBy.withinLimits,
    Operation.run_withinLimits_iff (fun x hx => (hoperands x hx).withinLimits) hrun⟩

/-- `0.5`. -/
def half : Decimal := ⟨[5], 1, false, by decide, by decide, by decide⟩

theorem half_produced : ProducedBy Operation.Fits half := by
  refine .intro (.parse [48, 46, 53]) nofun ?_ rfl
  intro literal hread
  have hscale : (readLiteral [48, 46, 53]).all (fun literal => decide (literal.scale < (kMaxDigits : Int))) = true := by
    decide
  simpa [hread] using hscale

/-- A product of parsed values. -/
theorem produced_withinLimits_half : ∃ d, half.multiply half = some d ∧ d.WithinLimits := by
  have hproduct : (half.multiply half).isSome = true := by decide
  obtain ⟨d, hd⟩ := Option.isSome_iff_exists.mp hproduct
  have hfits : (Operation.multiply half half).Fits := show half.scale + half.scale < kMaxDigits by decide
  have hoperands : ∀ x ∈ (Operation.multiply half half).operands, ProducedBy Operation.Fits x := by
    intro x hx
    have hhalf : x = half := by simpa [Operation.operands] using hx
    exact hhalf ▸ half_produced
  exact ⟨d, hd, (produced_withinLimits hoperands hd).2.2.mpr hfits⟩

/-- Rounding `10` to a million places exceeds the digit cap, and the text of `1e-1000000`,
    which the parser accepts, is refused. -/
theorem limits_exceeded :
    (∃ d, ProducedBy (fun _ => True) d ∧ kMaxDigits < d.digits.length) ∧
      ∃ d, ProducedBy (fun _ => True) d ∧ parse d.toText = none := by
  constructor
  · let ten : Decimal := ⟨[0, 1], 0, false, by decide, by decide, by decide⟩
    have hten : ProducedBy (fun _ => True) ten := .intro (.parse [49, 48]) nofun trivial rfl
    have hplaces : clampPlaces 1000000 = kMaxDigits := by decide
    refine ⟨ten.round 1000000 .halfUp,
      .intro (.round ten 1000000 .halfUp) (by simpa [Operation.operands] using hten) trivial rfl, ?_⟩
    have hcoefficient : (ten.round 1000000 .halfUp).coefficient = _ := round_coefficient (Nat.zero_le _)
    have hdigits : ofDigits 10 (ten.round 1000000 .halfUp).digits = 10 * 10 ^ kMaxDigits := by
      rw [← coefficient_natAbs, hcoefficient, hplaces, Int.natAbs_mul, Int.natAbs_pow]
      rfl
    rw [← Nat.not_le, (digits_trimmed _).length_le, hdigits, Nat.not_lt]
    exact Nat.le_mul_of_pos_left _ (by decide)
  · let tiny : Decimal := ⟨[1], 1000000, false, by decide, by decide, by decide⟩
    have htiny : ProducedBy (fun _ => True) tiny :=
      .intro (.parse [49, 101, 45, 49, 48, 48, 48, 48, 48, 48]) nofun trivial rfl
    refine ⟨tiny, htiny, ?_⟩
    rw [parse_toText, if_neg]
    decide

end Decimal

end Luma
