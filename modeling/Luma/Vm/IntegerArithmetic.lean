-- SUMMARY: The arithmetic handlers of the VM and the exactness of integer arithmetic.
import Luma.Bytecode.Opcode
import Luma.Value.Dictionary
import Mathlib.Tactic.Linarith

/-! # Integer Arithmetic

The handlers behind `+`, `-`, `*`, `/`, `//`, `%` and the unary operators, on the
operands they take from the stack. Integer arithmetic never wraps: a handler
returns the exact result or raises. Arithmetic on doubles is a parameter. -/

namespace Luma

open Codec

/-! ## Range tests -/

def wouldOverflowAdd (a b : Int64) : Bool :=
  (decide (0 < b) && decide (Int64.maxValue - b < a)) ||
    (decide (b < 0) && decide (a < Int64.minValue - b))

def wouldOverflowSub (a b : Int64) : Bool :=
  (decide (b < 0) && decide (Int64.maxValue + b < a)) ||
    (decide (0 < b) && decide (a < Int64.minValue + b))

def wouldOverflowMul (a b : Int64) : Bool :=
  if a = 0 ∨ b = 0 then false
  else if (0 < a) = (0 < b) then
    -- both positive or both negative: against the maximum
    if 0 < a then decide (Int64.maxValue / b < a) else decide (a < Int64.maxValue / b)
  else
    -- mixed signs: the minimum is divided by the positive operand
    if 0 < a then decide (b < Int64.minValue / a) else decide (a < Int64.minValue / b)

def wouldOverflowDiv (a b : Int64) : Bool :=
  decide (a = Int64.minValue ∧ b = -1)

/-! ## Checked operations -/

/-- `none` when the exact result does not fit. -/
def checkedIntegerOp (op : Op) (l r : Int64) : Option Int64 :=
  match op with
  | .add => if wouldOverflowAdd l r then none else some (l + r)
  | .subtract => if wouldOverflowSub l r then none else some (l - r)
  | .multiply => if wouldOverflowMul l r then none else some (l * r)
  | _ => none

def checkedNegate (n : Int64) : Option Int64 :=
  if n = Int64.minValue then none else some (-n)

def checkedIncrement (n : Int64) : Option Int64 :=
  if n = Int64.maxValue then none else some (n + 1)

def checkedDecrement (n : Int64) : Option Int64 :=
  if n = Int64.minValue then none else some (n - 1)

/-! ## Operations on doubles and limits -/

/-- The operations of the machine on doubles. -/
structure FloatArithmetic where
  add : Binary64 → Binary64 → Binary64
  subtract : Binary64 → Binary64 → Binary64
  multiply : Binary64 → Binary64 → Binary64
  divide : Binary64 → Binary64 → Binary64
  fmod : Binary64 → Binary64 → Binary64
  negate : Binary64 → Binary64

/-- The configured limits on strings. -/
structure StringLimits where
  maxStringSize : Nat
  maxStringRepeat : Int64

/-- What a handler raises: a message and a hint. -/
structure ArithmeticError where
  message : String
  hint : String := ""
  deriving DecidableEq, Repr

def hintIntegerOverflow : String :=
  "the result does not fit in a 64-bit integer — convert an operand to 'number' first if you need a floating-point result"

def integerOverflowIn (operation : String) : ArithmeticError :=
  { message := s!"integer overflow in {operation}", hint := hintIntegerOverflow }

def numberOverflowIn (operation : String) : ArithmeticError :=
  { message := s!"number overflow in {operation}" }

def cannotOperateOn (verb : String) (a b : Value) : ArithmeticError :=
  { message := s!"cannot {verb} '{a.displayTypeName}' and '{b.displayTypeName}'" }

/-! ## Strings -/

def checkStringConcatSize (limits : StringLimits) (aSize bSize : Nat) : Bool :=
  decide (aSize ≤ limits.maxStringSize) && decide (bSize ≤ limits.maxStringSize - aSize)

/-- The doubling loop of `repeatString`: appends a prefix of the result to itself. -/
def repeatLoop (total : Nat) : Nat → Bytes → Bytes
  | 0, result => result
  | fuel + 1, result =>
    if result.length < total then
      let chunk := min result.length (total - result.length)
      repeatLoop total fuel (result ++ result.take chunk)
    else result

def repeatString (text : Bytes) (count : Nat) : Bytes :=
  if text = [] ∨ count = 0 then [] else repeatLoop (text.length * count) count text

/-- Repetition of a string, for a string and an integer in either order. -/
def tryStringRepeat (limits : StringLimits) (a b : Value) :
    Option (Except ArithmeticError Value) :=
  let operands : Option (Bytes × Int64) :=
    match a, b with
    | .string s, .integer n => some (s, n)
    | .integer n, .string s => some (s, n)
    | _, _ => none
  operands.map fun (text, count) =>
    let hint := "reduce the repeat count (limit: LUMA_LIMIT_MAX_STRING_REPEAT)"
    if count ≤ 0 then .ok (.string [])
    else if limits.maxStringRepeat < count then
      .error { message := "string repeat count exceeds maximum", hint }
    else if text ≠ [] ∧ limits.maxStringSize / text.length < count.toInt.toNat then
      .error { message := "string repetition exceeds maximum string size", hint }
    else .ok (.string (repeatString text count.toInt.toNat))

/-! ## Handlers -/

/-- The double an operand of mixed arithmetic is promoted to. -/
def Value.toNumeric? : Value → Option Binary64
  | .integer n => some (Binary64.ofInt n.toInt)
  | .number x => some x
  | _ => none

/-- Finite operands with a result that is not finite. -/
def overflowsNumber (l r result : Binary64) : Bool :=
  l.isFinite && r.isFinite && !result.isFinite

/-- Arithmetic on promoted operands; `none` when an operand is not numeric. -/
def numericBinary (operation : String) (dblOp : Binary64 → Binary64 → Binary64) (a b : Value) :
    Option (Except ArithmeticError Value) :=
  match a.toNumeric?, b.toNumeric? with
  | some l, some r =>
    if overflowsNumber l r (dblOp l r) then some (.error (numberOverflowIn operation))
    else some (.ok (.number (dblOp l r)))
  | _, _ => none

/-- The noun of an overflow message. -/
def opNoun : Op → String
  | .add => "addition"
  | .subtract => "subtraction"
  | .multiply => "multiplication"
  | .divide => "division"
  | _ => "arithmetic"

/-- The verb of a type error. -/
def opVerb : Op → String
  | .add => "add"
  | .subtract => "subtract"
  | .multiply => "multiply"
  | _ => "operate on"

/-- Addition, subtraction and multiplication of operands that are not both integers. -/
def mixedBinaryOp (float : FloatArithmetic) (limits : StringLimits) (a b : Value) (op : Op) :
    Except ArithmeticError Value :=
  let mismatch := cannotOperateOn (opVerb op) a b
  match op with
  | .add =>
    match numericBinary (opNoun op) float.add a b with
    | some outcome => outcome
    | none =>
      match a, b with
      | .string s, .string t =>
        if checkStringConcatSize limits s.length t.length then .ok (.string (s ++ t))
        else .error { message := "string concatenation exceeds maximum string size" }
      | _, _ => .error mismatch
  | .subtract => (numericBinary (opNoun op) float.subtract a b).getD (.error mismatch)
  | .multiply =>
    match numericBinary (opNoun op) float.multiply a b with
    | some outcome => outcome
    | none => (tryStringRepeat limits a b).getD (.error mismatch)
  | _ => .error mismatch

def numericBinaryOp (float : FloatArithmetic) (limits : StringLimits) (a b : Value) (op : Op) :
    Except ArithmeticError Value :=
  match a, b with
  | .integer l, .integer r =>
    match checkedIntegerOp op l r with
    | some result => .ok (.integer result)
    | none => .error (integerOverflowIn (opNoun op))
  | _, _ => mixedBinaryOp float limits a b op

def validateNonzeroDivisor (divisor : Value) (opName : String) : Except ArithmeticError Unit :=
  let isZero : Bool :=
    match divisor with
    | .integer n => n = 0
    | .number x => x.isZero
    | _ => false
  if isZero then
    .error { message := s!"{opName}: division by zero", hint := "the divisor must not be zero" }
  else .ok ()

/-- True division: the result is a `number`. -/
def handleDivide (float : FloatArithmetic) (a b : Value) : Except ArithmeticError Value :=
  match a.toNumeric?, b.toNumeric? with
  | some l, some r => do
    validateNonzeroDivisor b "Division"
    if overflowsNumber l r (float.divide l r) then .error (numberOverflowIn (opNoun .divide))
    else .ok (.number (float.divide l r))
  | _, _ => .error (cannotOperateOn "divide" a b)

/-- The quotient rounded toward negative infinity, from the truncated one. -/
def floorQuotient (x y : Int64) : Int64 :=
  let quotient := x / y
  let remainder := x % y
  if remainder ≠ 0 ∧ decide (remainder < 0) ≠ decide (y < 0) then quotient - 1 else quotient

def handleIntDivide (a b : Value) : Except ArithmeticError Value :=
  match a, b with
  | .integer x, .integer y => do
    validateNonzeroDivisor b "Integer division"
    if wouldOverflowDiv x y then
      .error {
        message := "integer division overflow"
        hint := "this operation would overflow — check for division of minimum integer by -1" }
    else .ok (.integer (floorQuotient x y))
  | _, _ =>
    .error {
      message := "integer division requires integer operands"
      hint := "use '//' only with integer values" }

def handleModulo (float : FloatArithmetic) (a b : Value) : Except ArithmeticError Value :=
  match a.toNumeric?, b.toNumeric? with
  | some l, some r => do
    validateNonzeroDivisor b "Modulo"
    match a, b with
    | .integer x, .integer y =>
      if wouldOverflowDiv x y then .ok (.integer 0) else .ok (.integer (x % y))
    | _, _ => .ok (.number (float.fmod l r))
  | _, _ => .error (cannotOperateOn "take the remainder of" a b)

def handleUnaryNumeric (intOp : Int64 → Option Int64) (numOp : Binary64 → Binary64)
    (opName overflowOperation : String) (value : Value) : Except ArithmeticError Value :=
  match value with
  | .integer n =>
    match intOp n with
    | some result => .ok (.integer result)
    | none => .error (integerOverflowIn overflowOperation)
  | .number x => .ok (.number (numOp x))
  | _ =>
    .error { message := s!"{opName} requires an integer or number, got '{value.displayTypeName}'" }

def opNegate (float : FloatArithmetic) : Value → Except ArithmeticError Value :=
  handleUnaryNumeric checkedNegate float.negate "Negate" "negation"

def opIncrement (float : FloatArithmetic) : Value → Except ArithmeticError Value :=
  handleUnaryNumeric checkedIncrement (float.add · (Binary64.ofInt 1)) "Increment" "increment"

def opDecrement (float : FloatArithmetic) : Value → Except ArithmeticError Value :=
  handleUnaryNumeric checkedDecrement (float.subtract · (Binary64.ofInt 1)) "Decrement" "decrement"

/-! ## Repeated strings -/

/-- `k` copies of a text one after the other. -/
def copies (text : Bytes) (k : Nat) : Bytes := (List.replicate k text).flatten

-- The equations of the definitions are derived here, once for all proofs.
section
attribute [local simp] checkedIntegerOp repeatLoop tryStringRepeat Value.toNumeric? numericBinary
  opNoun opVerb mixedBinaryOp numericBinaryOp validateNonzeroDivisor handleDivide handleIntDivide
  handleModulo handleUnaryNumeric
end

theorem copies_length {text : Bytes} {k : Nat} : (copies text k).length = text.length * k := by
  simp [copies, Nat.mul_comm]

theorem copies_add {text : Bytes} {j k : Nat} :
    copies text (j + k) = copies text j ++ copies text k := by
  rw [copies, List.replicate_add, List.flatten_append]
  rfl

theorem copies_take {text : Bytes} {j k : Nat} (hle : j ≤ k) :
    (copies text k).take (text.length * j) = copies text j := by
  obtain ⟨rest, rfl⟩ := Nat.exists_eq_add_of_le hle
  rw [copies_add, List.take_append_of_le_length (Nat.le_of_eq copies_length.symm),
    List.take_of_length_le (Nat.le_of_eq copies_length)]

/-- One round of the loop goes from `k` whole copies to at least one more. -/
theorem repeatLoop_copies {text : Bytes} (hne : text ≠ []) {count : Nat} (fuel k : Nat)
    (hk : 0 < k) (hle : k ≤ count) (hfuel : count ≤ k + fuel) :
    repeatLoop (text.length * count) fuel (copies text k) = copies text count := by
  induction fuel generalizing k with
  | zero =>
    have hdone : k = count := by omega
    rw [repeatLoop, hdone]
  | succ fuel ih =>
    have hsize : 0 < text.length := List.length_pos_iff.mpr hne
    rw [repeatLoop, copies_length]
    rcases Nat.lt_or_ge k count with hlt | hge
    · rw [if_pos (Nat.mul_lt_mul_of_pos_left hlt hsize)]
      have hchunk : min (text.length * k) (text.length * count - text.length * k) =
          text.length * min k (count - k) := by
        rw [← Nat.mul_sub, Nat.mul_min_mul_left]
      simp only [hchunk]
      rw [copies_take (Nat.min_le_left ..), ← copies_add]
      exact ih _ (by omega) (by omega) (by omega)
    · have hdone : k = count := by omega
      rw [hdone, if_neg (Nat.lt_irrefl _)]

/-- Repetition by doubling gives the copies one after the other. -/
theorem repeatString_eq {text : Bytes} {count : Nat} :
    repeatString text count = copies text count := by
  unfold repeatString
  split
  · rename_i hnone
    rcases hnone with rfl | rfl
    · simp [copies]
    · rfl
  · rename_i hsome
    rw [not_or] at hsome
    have hloop := repeatLoop_copies hsome.1 count 1 Nat.one_pos
      (Nat.one_le_iff_ne_zero.mpr hsome.2) (Nat.le_add_left ..)
    rwa [show copies text 1 = text by simp [copies]] at hloop

/-! ## What fits in an integer -/

/-- The mathematical integers a 64-bit integer can hold. -/
def Fits (x : Int) : Prop := -2 ^ 63 ≤ x ∧ x < 2 ^ 63

theorem Fits.toInt (n : Int64) : Fits n.toInt :=
  ⟨Int64.le_toInt n, Int64.toInt_lt n⟩

/-- Wrapping leaves alone what fits. -/
theorem Fits.bmod {x : Int} (h : Fits x) : x.bmod (2 ^ 64) = x := by
  obtain ⟨hlow, hhigh⟩ := h
  apply Int.bmod_eq_of_le_mul_two
  · push_cast; omega
  · push_cast; omega

theorem Fits.toInt_add {a b : Int64} (h : Fits (a.toInt + b.toInt)) :
    (a + b).toInt = a.toInt + b.toInt := by
  rw [Int64.toInt_add, h.bmod]

theorem Fits.toInt_sub {a b : Int64} (h : Fits (a.toInt - b.toInt)) :
    (a - b).toInt = a.toInt - b.toInt := by
  rw [Int64.toInt_sub, h.bmod]

theorem Fits.toInt_mul {a b : Int64} (h : Fits (a.toInt * b.toInt)) :
    (a * b).toInt = a.toInt * b.toInt := by
  rw [Int64.toInt_mul, h.bmod]

theorem Fits.toInt_neg {a : Int64} (h : Fits (-a.toInt)) : (-a).toInt = -a.toInt := by
  rw [Int64.toInt_neg, h.bmod]

theorem toInt_pos {a : Int64} : 0 < a ↔ 0 < a.toInt := by
  rw [Int64.lt_iff_toInt_lt, Int64.toInt_zero]

theorem toInt_negative {a : Int64} : a < 0 ↔ a.toInt < 0 := by
  rw [Int64.lt_iff_toInt_lt, Int64.toInt_zero]

theorem toInt_eq_zero {a : Int64} : a = 0 ↔ a.toInt = 0 := by
  rw [← Int64.toInt_inj, Int64.toInt_zero]

theorem eq_minValue {a : Int64} : a = Int64.minValue ↔ a.toInt = -2 ^ 63 := by
  rw [← Int64.toInt_inj, Int64.toInt_minValue]

theorem eq_neg_one {a : Int64} : a = -1 ↔ a.toInt = -1 := by
  rw [← Int64.toInt_inj]
  rfl

/-! ## Range tests -/

theorem wouldOverflowAdd_iff {a b : Int64} :
    wouldOverflowAdd a b = true ↔ ¬ Fits (a.toInt + b.toInt) := by
  have ha := Fits.toInt a
  have hb := Fits.toInt b
  have hmax : 0 < b.toInt → (Int64.maxValue - b).toInt = 2 ^ 63 - 1 - b.toInt := by
    intro hpos
    rw [Fits.toInt_sub, Int64.toInt_maxValue]
    rw [Int64.toInt_maxValue]
    constructor <;> unfold Fits at hb <;> omega
  have hmin : b.toInt < 0 → (Int64.minValue - b).toInt = -2 ^ 63 - b.toInt := by
    intro hneg
    rw [Fits.toInt_sub, Int64.toInt_minValue]
    rw [Int64.toInt_minValue]
    constructor <;> unfold Fits at hb <;> omega
  unfold wouldOverflowAdd Fits at *
  simp only [Bool.or_eq_true, Bool.and_eq_true, decide_eq_true_eq, Int64.lt_iff_toInt_lt,
    Int64.toInt_zero]
  constructor
  · rintro (⟨hpos, hover⟩ | ⟨hneg, hover⟩)
    · rw [hmax hpos] at hover
      omega
    · rw [hmin hneg] at hover
      omega
  · intro hout
    rcases lt_trichotomy b.toInt 0 with hneg | hzero | hpos
    · rw [hmin hneg]
      omega
    · omega
    · rw [hmax hpos]
      omega

theorem wouldOverflowSub_iff {a b : Int64} :
    wouldOverflowSub a b = true ↔ ¬ Fits (a.toInt - b.toInt) := by
  have ha := Fits.toInt a
  have hb := Fits.toInt b
  have hmax : b.toInt < 0 → (Int64.maxValue + b).toInt = 2 ^ 63 - 1 + b.toInt := by
    intro hneg
    rw [Fits.toInt_add, Int64.toInt_maxValue]
    rw [Int64.toInt_maxValue]
    constructor <;> unfold Fits at hb <;> omega
  have hmin : 0 < b.toInt → (Int64.minValue + b).toInt = -2 ^ 63 + b.toInt := by
    intro hpos
    rw [Fits.toInt_add, Int64.toInt_minValue]
    rw [Int64.toInt_minValue]
    constructor <;> unfold Fits at hb <;> omega
  unfold wouldOverflowSub Fits at *
  simp only [Bool.or_eq_true, Bool.and_eq_true, decide_eq_true_eq, Int64.lt_iff_toInt_lt,
    Int64.toInt_zero]
  constructor
  · rintro (⟨hneg, hover⟩ | ⟨hpos, hover⟩)
    · rw [hmax hneg] at hover
      omega
    · rw [hmin hpos] at hover
      omega
  · intro hout
    rcases lt_trichotomy b.toInt 0 with hneg | hzero | hpos
    · rw [hmax hneg]
      omega
    · omega
    · rw [hmin hpos]
      omega

/-- The largest integer over a divisor. -/
theorem maxValue_div {b : Int64} :
    (Int64.maxValue / b).toInt = (2 ^ 63 - 1) / b.toInt := by
  rw [Int64.toInt_div_of_ne_left _ _ (by decide), Int64.toInt_maxValue,
    Int.tdiv_eq_ediv_of_nonneg (by decide)]

/-- The largest integer over a negative divisor: rounded toward zero. -/
theorem maxValue_div_of_neg {b : Int64} :
    (Int64.maxValue / b).toInt = -((2 ^ 63 - 1) / -b.toInt) := by
  rw [Int64.toInt_div_of_ne_left _ _ (by decide), Int64.toInt_maxValue,
    ← Int.tdiv_eq_ediv_of_nonneg (by decide), Int.tdiv_neg, Int.neg_neg]

/-- The smallest integer over a positive divisor: rounded toward zero. -/
theorem minValue_div_of_pos {b : Int64} (hb : 0 < b.toInt) :
    (Int64.minValue / b).toInt = -(2 ^ 63 / b.toInt) := by
  have hne : b ≠ -1 := by
    intro h
    rw [eq_neg_one] at h
    omega
  rw [Int64.toInt_div_of_ne_right _ _ hne, Int64.toInt_minValue, Int.neg_tdiv,
    Int.tdiv_eq_ediv_of_nonneg (by decide)]

theorem wouldOverflowMul_iff {a b : Int64} :
    wouldOverflowMul a b = true ↔ ¬ Fits (a.toInt * b.toInt) := by
  unfold wouldOverflowMul
  simp only [toInt_eq_zero, toInt_pos]
  by_cases hzero : a.toInt = 0 ∨ b.toInt = 0
  · have hproduct : a.toInt * b.toInt = 0 := Int.mul_eq_zero.mpr hzero
    simp [hzero, hproduct, Fits]
  rw [if_neg hzero]
  -- the signs decide which bound the product can pass
  rcases lt_or_ge 0 a.toInt with ha | ha
  · rcases lt_or_ge 0 b.toInt with hb | hb
    · have hpositive : 0 < a.toInt * b.toInt := Int.mul_pos ha hb
      simp only [ha, hb, if_true, decide_eq_true_eq, Int64.lt_iff_toInt_lt]
      rw [maxValue_div, Int.ediv_lt_iff_lt_mul hb]
      unfold Fits
      omega
    · have hbneg : 0 < -b.toInt := by omega
      have hpositive : 0 < a.toInt * -b.toInt := Int.mul_pos ha hbneg
      have hlt : ¬ 0 < b.toInt := by omega
      simp only [ha, hlt, eq_iff_iff, iff_false, not_true, if_true, if_false, decide_eq_true_eq,
        Int64.lt_iff_toInt_lt]
      rw [minValue_div_of_pos ha, lt_neg, Int.ediv_lt_iff_lt_mul ha, Int.mul_comm]
      rw [Int.mul_neg] at hpositive ⊢
      unfold Fits
      omega
  · have haneg : 0 < -a.toInt := by omega
    have hanot : ¬ 0 < a.toInt := by omega
    rcases lt_or_ge 0 b.toInt with hb | hb
    · have hpositive : 0 < -a.toInt * b.toInt := Int.mul_pos haneg hb
      simp only [hanot, hb, eq_iff_iff, false_iff, not_true, if_false, decide_eq_true_eq,
        Int64.lt_iff_toInt_lt]
      rw [minValue_div_of_pos hb, lt_neg, Int.ediv_lt_iff_lt_mul hb]
      rw [Int.neg_mul] at hpositive ⊢
      unfold Fits
      omega
    · have hbneg : 0 < -b.toInt := by omega
      have hpositive : 0 < -a.toInt * -b.toInt := Int.mul_pos haneg hbneg
      have hbnot : ¬ 0 < b.toInt := by omega
      simp only [hanot, hbnot, if_true, if_false, decide_eq_true_eq, Int64.lt_iff_toInt_lt]
      rw [maxValue_div_of_neg, lt_neg, Int.ediv_lt_iff_lt_mul hbneg]
      rw [Int.neg_mul_neg] at hpositive ⊢
      unfold Fits
      omega

theorem wouldOverflowDiv_iff {a b : Int64} :
    wouldOverflowDiv a b = true ↔ a.toInt = -2 ^ 63 ∧ b.toInt = -1 := by
  unfold wouldOverflowDiv
  rw [decide_eq_true_eq, eq_minValue, eq_neg_one]

/-! ## Division -/

/-- The overflow test of division catches the one quotient that does not fit. -/
theorem fits_fdiv_iff {a b : Int64} (hb : b ≠ 0) :
    Fits (a.toInt.fdiv b.toInt) ↔ wouldOverflowDiv a b = false := by
  obtain ⟨hlow, hhigh⟩ := Fits.toInt a
  rw [Ne, toInt_eq_zero] at hb
  rw [← Bool.not_eq_true, wouldOverflowDiv_iff]
  rcases lt_or_gt_of_ne hb with hneg | hpos
  · have hdivisor : 0 < -b.toInt := by omega
    rw [← Int.neg_fdiv_neg, Int.fdiv_eq_ediv_of_nonneg _ (by omega)]
    constructor
    · rintro ⟨-, hfits⟩ ⟨ha, hone⟩
      rw [ha, hone] at hfits
      exact absurd hfits (by decide)
    · intro hsafe
      constructor
      · rw [Int.le_ediv_iff_mul_le hdivisor]
        omega
      · rw [Int.ediv_lt_iff_lt_mul hdivisor]
        omega
  · rw [Int.fdiv_eq_ediv_of_nonneg _ (by omega)]
    constructor
    · rintro - ⟨-, hone⟩
      omega
    · rintro -
      constructor
      · rw [Int.le_ediv_iff_mul_le hpos]
        omega
      · rw [Int.ediv_lt_iff_lt_mul hpos]
        omega

theorem toInt_div_of_safe {a b : Int64} (hsafe : wouldOverflowDiv a b = false) :
    (a / b).toInt = a.toInt.tdiv b.toInt := by
  rw [← Bool.not_eq_true, wouldOverflowDiv, decide_eq_true_eq, not_and_or] at hsafe
  rcases hsafe with ha | hb
  · exact Int64.toInt_div_of_ne_left a b ha
  · exact Int64.toInt_div_of_ne_right a b hb

/-- The floor of a quotient is one below the truncated quotient when the remainder is
    not zero and differs in sign from the divisor. -/
theorem fdiv_eq_tdiv_adjusted {a b : Int} (hzero : b ≠ 0) :
    a.fdiv b =
      if a.tmod b ≠ 0 ∧ ¬ (a.tmod b < 0 ↔ b < 0) then a.tdiv b - 1 else a.tdiv b := by
  have hsign := Int.sign_tmod a b
  rw [Int.fdiv_eq_tdiv]
  by_cases hdvd : b ∣ a
  · have hzero : a.tmod b = 0 := Int.tmod_eq_zero_of_dvd hdvd
    simp [hdvd, hzero]
  · have hremainder : a.tmod b ≠ 0 := by
      intro hzero
      exact hdvd (Int.dvd_of_tmod_eq_zero hzero)
    rw [if_neg hdvd] at hsign ⊢
    -- the truncated remainder has the sign of the dividend
    rcases lt_or_ge a 0 with ha | ha
    · have hnegative : a.tmod b < 0 := by
        rwa [← Int.sign_eq_neg_one_iff_neg, hsign, Int.sign_eq_neg_one_iff_neg]
      rw [if_neg (by omega)]
      rcases lt_or_ge b 0 with hb | hb
      · rw [if_neg (by omega), if_neg (by simp [hnegative, hb]), Int.sign_eq_neg_one_of_neg hb]
        omega
      · have hpositive : 0 < b := by
          omega
        have hbnot : ¬ b < 0 := by omega
        rw [if_pos hb, if_pos (by simp [hremainder, hnegative, hbnot]),
          Int.sign_eq_one_of_pos hpositive]
    · have hnonneg : ¬ a.tmod b < 0 := not_lt.mpr (Int.tmod_nonneg _ ha)
      rw [if_pos ha]
      rcases lt_or_ge b 0 with hb | hb
      · rw [if_neg (by omega), if_pos (by simp [hremainder, hnonneg, hb])]
      · have hbnot : ¬ b < 0 := by omega
        rw [if_pos hb, if_neg (by simp [hnonneg, hbnot]), Int.sub_zero]

theorem floorQuotient_toInt {a b : Int64} (hb : b ≠ 0) (hsafe : wouldOverflowDiv a b = false) :
    (floorQuotient a b).toInt = a.toInt.fdiv b.toInt := by
  have hfits := (fits_fdiv_iff hb).mpr hsafe
  rw [Ne, toInt_eq_zero] at hb
  rw [fdiv_eq_tdiv_adjusted hb] at hfits ⊢
  unfold floorQuotient
  simp only [Ne, toInt_eq_zero, toInt_negative, Int64.toInt_mod, decide_eq_decide]
  split at hfits
  · rename_i hadjust
    rw [if_pos hadjust, if_pos hadjust]
    rw [← toInt_div_of_safe hsafe] at hfits ⊢
    exact Fits.toInt_sub hfits
  · rename_i hkept
    rw [if_neg hkept, if_neg hkept]
    exact toInt_div_of_safe hsafe

/-! ## Exactness -/

/-- The outcome is the exact result when there is one and it fits, else an error. -/
structure ExactOrRaises (outcome : Except ArithmeticError Value) (exact : Option Int) : Prop where
  exact_of_fits : ∀ {x}, exact = some x → Fits x →
    ∃ n : Int64, outcome = .ok (.integer n) ∧ n.toInt = x
  raises : (∀ x, exact = some x → ¬ Fits x) → ∃ e, outcome = .error e

/-- The result of a division: none over a zero divisor. -/
def divided (divisor : Int64) (result : Int) : Option Int :=
  if divisor = 0 then none else some result

/-- An outcome decided by a range test that is true when the result does not fit. -/
theorem ExactOrRaises.of_test {outcome : Except ArithmeticError Value} {x : Int} (t : Bool)
    (n : Int64) (e : ArithmeticError) (hout : outcome = if t then .error e else .ok (.integer n))
    (htest : t = true ↔ ¬ Fits x) (hexact : Fits x → n.toInt = x) :
    ExactOrRaises outcome (some x) where
  exact_of_fits := by
    rintro _ ⟨⟩ hfits
    refine ⟨n, ?_, hexact hfits⟩
    rw [hout, if_neg (by rw [htest]; exact not_not_intro hfits)]
  raises := by
    intro hnone
    refine ⟨e, ?_⟩
    rw [hout, if_pos (htest.mpr (hnone x rfl))]

/-- An operation that always raises. -/
theorem ExactOrRaises.of_error {e : ArithmeticError} : ExactOrRaises (.error e) none where
  exact_of_fits := by
    rintro _ ⟨⟩
  raises := fun _ => ⟨e, rfl⟩

section Handlers
variable (float : FloatArithmetic) (limits : StringLimits) (a b : Int64)

theorem numericBinaryOp_add_exact :
    ExactOrRaises (numericBinaryOp float limits (.integer a) (.integer b) .add)
      (some (a.toInt + b.toInt)) := by
  refine .of_test (wouldOverflowAdd a b) (a + b) (integerOverflowIn "addition") ?_ wouldOverflowAdd_iff Fits.toInt_add
  simp only [numericBinaryOp, checkedIntegerOp]
  cases wouldOverflowAdd a b <;> rfl

theorem numericBinaryOp_subtract_exact :
    ExactOrRaises (numericBinaryOp float limits (.integer a) (.integer b) .subtract)
      (some (a.toInt - b.toInt)) := by
  refine .of_test (wouldOverflowSub a b) (a - b) (integerOverflowIn "subtraction") ?_ wouldOverflowSub_iff Fits.toInt_sub
  simp only [numericBinaryOp, checkedIntegerOp]
  cases wouldOverflowSub a b <;> rfl

theorem numericBinaryOp_multiply_exact :
    ExactOrRaises (numericBinaryOp float limits (.integer a) (.integer b) .multiply)
      (some (a.toInt * b.toInt)) := by
  refine .of_test (wouldOverflowMul a b) (a * b) (integerOverflowIn "multiplication") ?_ wouldOverflowMul_iff Fits.toInt_mul
  simp only [numericBinaryOp, checkedIntegerOp]
  cases wouldOverflowMul a b <;> rfl

/-- A unary operation that gives up on one boundary value alone. -/
theorem handleUnaryNumeric_exact {intOp : Int64 → Option Int64} {boundary n : Int64} {x : Int}
    (numOp : Binary64 → Binary64) (opName overflowOperation : String)
    (hop : intOp a = if a = boundary then none else some n)
    (hboundary : a = boundary ↔ ¬ Fits x) (hexact : Fits x → n.toInt = x) :
    ExactOrRaises (handleUnaryNumeric intOp numOp opName overflowOperation (.integer a))
      (some x) := by
  refine .of_test (decide (a = boundary)) n (integerOverflowIn overflowOperation) ?_ ?_ hexact
  · simp only [handleUnaryNumeric, hop]
    by_cases h : a = boundary
    · simp only [h, if_true, decide_true]
    · simp only [h, if_false, decide_false, Bool.false_eq_true]
  · rw [decide_eq_true_eq, hboundary]

theorem opNegate_exact : ExactOrRaises (opNegate float (.integer a)) (some (-a.toInt)) := by
  have hrange := Fits.toInt a
  refine handleUnaryNumeric_exact a _ _ _ rfl ?_ Fits.toInt_neg
  rw [eq_minValue]
  unfold Fits at *
  omega

theorem validateNonzeroDivisor_integer (opName : String) :
    validateNonzeroDivisor (.integer b) opName =
      if b = 0 then
        .error { message := s!"{opName}: division by zero", hint := "the divisor must not be zero" }
      else .ok () := by
  simp only [validateNonzeroDivisor, decide_eq_true_eq]

theorem handleIntDivide_exact :
    ExactOrRaises (handleIntDivide (.integer a) (.integer b))
      (divided b (a.toInt.fdiv b.toInt)) := by
  simp only [handleIntDivide, validateNonzeroDivisor_integer, divided]
  by_cases hzero : b = 0
  · simp only [hzero, if_true]
    exact .of_error
  · simp only [hzero, if_false]
    refine .of_test (wouldOverflowDiv a b) (floorQuotient a b) _ rfl ?_ ?_
    · rw [fits_fdiv_iff hzero, Bool.not_eq_false]
    · intro hfits
      exact floorQuotient_toInt hzero ((fits_fdiv_iff hzero).mp hfits)

/-- A truncated remainder always fits. -/
theorem fits_tmod : Fits (a.toInt.tmod b.toInt) := by
  rw [← Int64.toInt_mod]
  exact Fits.toInt _

theorem handleModulo_integers (hzero : b ≠ 0) :
    handleModulo float (.integer a) (.integer b) = .ok (.integer (a % b)) := by
  simp only [handleModulo, Value.toNumeric?, validateNonzeroDivisor_integer, hzero, if_false]
  by_cases hover : wouldOverflowDiv a b = true
  · -- the minimum over minus one: the quotient would not fit, the remainder is zero
    obtain ⟨ha, hb⟩ := wouldOverflowDiv_iff.mp hover
    have hmod : a % b = 0 := by
      rw [toInt_eq_zero, Int64.toInt_mod, ha, hb]
      rfl
    rw [hmod]
    simp [hover, bind, Except.bind]
  · simp [hover, bind, Except.bind]

theorem handleModulo_exact :
    ExactOrRaises (handleModulo float (.integer a) (.integer b))
      (divided b (a.toInt.tmod b.toInt)) := by
  by_cases hzero : b = 0
  · simp only [handleModulo, Value.toNumeric?, validateNonzeroDivisor_integer, divided, hzero,
      if_true]
    exact .of_error
  · rw [divided, if_neg hzero, handleModulo_integers float a b hzero]
    -- there is no range test: a truncated remainder always fits
    exact .of_test false (a % b) { message := "" } rfl (by simp [fits_tmod]) fun _ =>
      Int64.toInt_mod a b

/-- A remainder that is not zero has the sign of the dividend. -/
theorem sign_mod : a % b = 0 ∨ (a % b < 0 ↔ a < 0) := by
  rw [toInt_eq_zero, toInt_negative, toInt_negative, Int64.toInt_mod]
  have hsign := Int.sign_tmod a.toInt b.toInt
  by_cases hdvd : b.toInt ∣ a.toInt
  · exact .inl (Int.tmod_eq_zero_of_dvd hdvd)
  · rw [if_neg hdvd] at hsign
    right
    rw [← Int.sign_eq_neg_one_iff_neg, hsign, Int.sign_eq_neg_one_iff_neg]

/-- The floor quotient and the truncated remainder make up the dividend when the signs
    of the operands agree or nothing is left over, and not otherwise. -/
theorem floorQuotient_mod_identity {a b : Int64} (hzero : b ≠ 0)
    (hsafe : wouldOverflowDiv a b = false) :
    a.toInt = b.toInt * (floorQuotient a b).toInt + (a % b).toInt ↔
      a % b = 0 ∨ (a < 0 ↔ b < 0) := by
  rw [floorQuotient_toInt hzero hsafe, toInt_eq_zero, toInt_negative, toInt_negative]
  have hsign := sign_mod a b
  rw [toInt_eq_zero, toInt_negative, toInt_negative] at hsign
  rw [Int64.toInt_mod] at hsign ⊢
  rw [Ne, toInt_eq_zero] at hzero
  rw [fdiv_eq_tdiv_adjusted hzero]
  have hidentity : b.toInt * a.toInt.tdiv b.toInt + a.toInt.tmod b.toInt = a.toInt :=
    Int.mul_tdiv_add_tmod a.toInt b.toInt
  split
  · rename_i hadjust
    obtain ⟨hremainder, hsigns⟩ := hadjust
    rw [Int.mul_sub, Int.mul_one]
    constructor
    · intro h
      omega
    · rintro (hnone | hsame)
      · exact absurd hnone hremainder
      · rw [hsign.resolve_left hremainder] at hsigns
        exact absurd hsame hsigns
  · rename_i hkept
    refine ⟨fun _ => ?_, fun _ => hidentity.symm⟩
    rw [not_and_or, not_not, not_not] at hkept
    rcases hsign with hnone | hdividend
    · exact .inl hnone
    · rcases hkept with hnone | hdivisor
      · exact .inl hnone
      · exact .inr (hdividend.symm.trans hdivisor)

end Handlers

/-- What `//` and `%` give together when both succeed. -/
def QuotientWithRemainder (quotient remainder : Except ArithmeticError Value) (a b : Int64) :
    Prop :=
  ∀ q r, quotient = .ok (.integer q) → remainder = .ok (.integer r) →
    (r = 0 ∨ (r < 0 ↔ a < 0)) ∧
      (a.toInt = b.toInt * q.toInt + r.toInt ↔ r = 0 ∨ (a < 0 ↔ b < 0))

theorem quotientWithRemainder (float : FloatArithmetic) (a b : Int64) :
    QuotientWithRemainder (handleIntDivide (.integer a) (.integer b))
      (handleModulo float (.integer a) (.integer b)) a b := by
  intro q r hq hr
  simp only [handleIntDivide, validateNonzeroDivisor_integer] at hq
  by_cases hzero : b = 0
  · simp only [hzero, if_true] at hq
    cases hq
  · rw [handleModulo_integers float a b hzero] at hr
    cases hr
    refine ⟨sign_mod a b, ?_⟩
    simp only [hzero, if_false] at hq
    cases hsafe : wouldOverflowDiv a b with
    | true =>
      rw [hsafe] at hq
      cases hq
    | false =>
      rw [hsafe] at hq
      cases hq
      exact floorQuotient_mod_identity hzero hsafe

/-- Integer arithmetic gives the exact result or raises, and raises exactly when the exact
    result does not fit or the divisor is zero. -/
theorem integer_arithmetic_exact (float : FloatArithmetic) (limits : StringLimits) (a b : Int64) :
    ExactOrRaises (numericBinaryOp float limits (.integer a) (.integer b) .add)
        (some (a.toInt + b.toInt)) ∧
      ExactOrRaises (numericBinaryOp float limits (.integer a) (.integer b) .subtract)
        (some (a.toInt - b.toInt)) ∧
      ExactOrRaises (numericBinaryOp float limits (.integer a) (.integer b) .multiply)
        (some (a.toInt * b.toInt)) ∧
      ExactOrRaises (handleIntDivide (.integer a) (.integer b))
        (divided b (a.toInt.fdiv b.toInt)) ∧
      ExactOrRaises (handleModulo float (.integer a) (.integer b))
        (divided b (a.toInt.tmod b.toInt)) ∧
      ExactOrRaises (opNegate float (.integer a)) (some (-a.toInt)) ∧
      QuotientWithRemainder (handleIntDivide (.integer a) (.integer b))
        (handleModulo float (.integer a) (.integer b)) a b :=
  ⟨numericBinaryOp_add_exact float limits a b, numericBinaryOp_subtract_exact float limits a b,
    numericBinaryOp_multiply_exact float limits a b, handleIntDivide_exact a b,
    handleModulo_exact float a b, opNegate_exact float a, quotientWithRemainder float a b⟩

/-- `-7 // 2` is `-4` and `-7 % 2` is `-1`: they make up `-9`, and the remainder does
    not have the sign of the divisor. -/
theorem remainder_of_negative_dividend :
    ¬ ∀ (float : FloatArithmetic) (a b q r : Int64),
      handleIntDivide (.integer a) (.integer b) = .ok (.integer q) →
      handleModulo float (.integer a) (.integer b) = .ok (.integer r) →
      a.toInt = b.toInt * q.toInt + r.toInt ∧ (r = 0 ∨ (r < 0 ↔ b < 0)) := by
  intro h
  let first (x _ : Binary64) := x
  have hclaim := h ⟨first, first, first, first, first, id⟩ (-7) 2 (-4) (-1) rfl rfl
  exact absurd hclaim.1 (by decide)

end Luma
