-- SUMMARY: The constant folder of the compiler and the constant folding passes of the optimizer.
import Luma.Compiler.Compaction
import Luma.Syntax.Ast
import Luma.Vm.BinaryOperators

/-! # Constant Folding

Two folders: one folds a binary expression whose operands are literals while it is
compiled, the other folds an operator behind two `Constant` instructions in the
bytecode. Each leaves alone what it cannot fold. -/

namespace Luma

open Codec Vm

namespace ConstantFolder

/-- What a fold emits: `True` or `False`, or a constant. -/
inductive Emitted where
  | boolean (value : Bool)
  | constant (value : Value)

/-- The value the emitted instruction pushes. -/
def Emitted.pushed : Emitted → Value
  | boolean value => .bool value
  | constant value => value

/-! ## Integers -/

def tryFoldAdd (l r : Int64) : Option Int64 := if wouldOverflowAdd l r then none else some (l + r)

def tryFoldSubtract (l r : Int64) : Option Int64 := if wouldOverflowSub l r then none else some (l - r)

def tryFoldMultiply (l r : Int64) : Option Int64 := if wouldOverflowMul l r then none else some (l * r)

def tryFoldModulo (l r : Int64) : Option Int64 :=
  if r = 0 ∨ wouldOverflowDiv l r = true then none else some (l % r)

def tryFoldIntDivide (l r : Int64) : Option Int64 :=
  if r = 0 ∨ wouldOverflowDiv l r = true then none else some (floorQuotient l r)

def tryFoldIntegerArithmetic (l r : Int64) (op : TokenType) : Option Emitted :=
  let result :=
    match op with
    | .plus => tryFoldAdd l r
    | .minus => tryFoldSubtract l r
    | .star => tryFoldMultiply l r
    | .percent => tryFoldModulo l r
    | .slashSlash => tryFoldIntDivide l r
    | _ => none
  result.map fun value => .constant (.integer value)

/-- Integer comparisons are exact, not by way of doubles. -/
def foldIntegerComparison (l r : Int64) (op : TokenType) : Option Emitted :=
  match op with
  | .equalsEquals => some (.boolean (l == r))
  | .bangEquals => some (.boolean (l != r))
  | .less => some (.boolean (decide (l < r)))
  | .lessEquals => some (.boolean (decide (l ≤ r)))
  | .greater => some (.boolean (decide (l > r)))
  | .greaterEquals => some (.boolean (decide (l ≥ r)))
  | _ => none

/-! ## Numbers, strings and booleans -/

def tryFoldWith (result : Option Value) : Option Emitted :=
  result.map fun
    | .bool value => .boolean value
    | value => .constant value

def tryFoldNumberArithmetic (float : FloatArithmetic) (l r : Binary64) (op : TokenType) : Option Emitted :=
  let result :=
    match op with
    | .plus => some (float.add l r)
    | .minus => some (float.subtract l r)
    | .star => some (float.multiply l r)
    | .slash => if r.isZero then none else some (float.divide l r)
    | _ => none
  tryFoldWith (result.bind fun x => if overflowsNumber l r x then none else some (.number x))

def tokenToComparisonOp : TokenType → Option Op
  | .equalsEquals => some .equal
  | .bangEquals => some .notEqual
  | .less => some .less
  | .lessEquals => some .lessEqual
  | .greater => some .greater
  | .greaterEquals => some .greaterEqual
  | _ => none

def tryFoldComparison (l r : Binary64) (op : TokenType) : Option Emitted :=
  tryFoldWith ((tokenToComparisonOp op).map fun cmp => .bool (applyComparison numberOrdering l r cmp))

def tryFoldStringConcatenation (l r : Bytes) (op : TokenType) : Option Emitted :=
  tryFoldWith (if op ≠ .plus then none else some (.string (l ++ r)))

/-! ## Entry point -/

def asDouble? : Literal → Option Binary64
  | .integer n => some (Binary64.ofInt n.toInt)
  | .number x => some x
  | _ => none

/-- The value a literal pushes when it is not folded. -/
def asValue : Literal → Value
  | .boolean b => .bool b
  | .integer n => .integer n
  | .none => .null
  | .number x => .number x
  | .string s => .string s

/-- Integers are folded as integers, other numeric operands as doubles. -/
def foldNumericArithmetic (float : FloatArithmetic) (lhs rhs : Literal) (op : TokenType) : Option Emitted :=
  match lhs, rhs with
  | .integer li, .integer ri =>
    (tryFoldIntegerArithmetic li ri op).or (foldIntegerComparison li ri op)
  | lhs, rhs =>
    match asDouble? lhs, asDouble? rhs with
    | some l, some r => tryFoldNumberArithmetic float l r op
    | _, _ => none

def foldStrings (lhs rhs : Literal) (op : TokenType) : Option Emitted :=
  match lhs, rhs with
  | .string l, .string r => tryFoldStringConcatenation l r op
  | _, _ => none

def foldBooleanEquality (lhs rhs : Literal) (op : TokenType) : Option Emitted :=
  match lhs, rhs with
  | .boolean l, .boolean r =>
    match op with
    | .equalsEquals => some (.boolean (l == r))
    | .bangEquals => some (.boolean (l != r))
    | _ => none
  | _, _ => none

/-- Equality as the VM has it, so that a mixed comparison is exact; ordering by way of
    doubles, as the VM has it too. -/
def foldNumericComparison (h : StdHash) (lhs rhs : Literal) (op : TokenType) : Option Emitted :=
  match asDouble? lhs, asDouble? rhs with
  | some l, some r =>
    if op = .equalsEquals ∨ op = .bangEquals then
      match (asValue lhs).equals h (asValue rhs) with
      | .ok equal => some (.boolean (if op = .equalsEquals then equal else !equal))
      | .error _ => none
    else tryFoldComparison l r op
  | _, _ => none

/-- Fold a binary expression whose operands are literals. -/
def tryFoldBinaryAtCompileTime (float : FloatArithmetic) (h : StdHash) (lhs rhs : Literal) (op : TokenType) :
    Option Emitted :=
  (((foldNumericArithmetic float lhs rhs op).or (foldStrings lhs rhs op)).or
    (foldBooleanEquality lhs rhs op)).or (foldNumericComparison h lhs rhs op)

/-- The opcode of a binary operator that is not folded. -/
def binaryOpForToken : TokenType → Option Op
  | .plus => some .add
  | .minus => some .subtract
  | .star => some .multiply
  | .slash => some .divide
  | .slashSlash => some .intDivide
  | .percent => some .modulo
  | .equalsEquals => some .equal
  | .bangEquals => some .notEqual
  | .less => some .less
  | .lessEquals => some .lessEqual
  | .greater => some .greater
  | .greaterEquals => some .greaterEqual
  | .in => some .contains
  | _ => none

end ConstantFolder

namespace Optimizer

/-! ## Operations on constants -/

/-- The longest string a fold may produce. -/
def maxFoldedStringLength : Nat := 1024

def tryFoldIntegers (a b : Int64) (op : Op) : Option Value :=
  match op with
  | .add => if wouldOverflowAdd a b then none else some (.integer (a + b))
  | .subtract => if wouldOverflowSub a b then none else some (.integer (a - b))
  | .multiply => if wouldOverflowMul a b then none else some (.integer (a * b))
  | .intDivide => if b ≠ 0 ∧ wouldOverflowDiv a b = false then some (.integer (floorQuotient a b)) else none
  | .modulo => if b ≠ 0 ∧ wouldOverflowDiv a b = false then some (.integer (a % b)) else none
  | _ => none

/-- Only finite results are folded. -/
def tryFoldNumbers (float : FloatArithmetic) (a b : Binary64) (op : Op) : Option Value :=
  let result :=
    match op with
    | .add => some (float.add a b)
    | .subtract => some (float.subtract a b)
    | .multiply => some (float.multiply a b)
    | .divide => if b.isZero then none else some (float.divide a b)
    | _ => none
  result.bind fun x => if x.isFinite then some (.number x) else none

def tryFoldOperation (float : FloatArithmetic) (val1 val2 : Value) (op : Op) : Option Value :=
  match val1, val2 with
  | .integer a, .integer b => tryFoldIntegers a b op
  | .string sa, .string sb =>
    if op = .concatenate ∧ sa.length + sb.length ≤ maxFoldedStringLength then some (.string (sa ++ sb)) else none
  | val1, val2 =>
    match val1.toNumeric?, val2.toNumeric? with
    | some a, some b => tryFoldNumbers float a b op
    | _, _ => none

def isComparison (op : Op) : Bool := op.info.flags.contains .comparison

def foldComparison {α : Type} (ordering : Ordering α) (cmpOp : Op) (a b : α) : Option Bool :=
  match cmpOp with
  | .equal => some (ordering.equal a b)
  | .notEqual => some (!ordering.equal a b)
  | .less => some (ordering.less a b)
  | .lessEqual => some (ordering.lessEqual a b)
  | .greater => some (ordering.less b a)
  | .greaterEqual => some (ordering.lessEqual b a)
  | _ => none

/-- The comparison of two constants, of integers or of strings. -/
def tryFoldComparison (val1 val2 : Value) (cmpOp : Op) : Option Bool :=
  match val1, val2 with
  | .integer a, .integer b => foldComparison integerOrdering cmpOp a b
  | .string a, .string b => foldComparison stringOrdering cmpOp a b
  | _, _ => none

/-! ## Folds in a chunk -/

/-- Overwrite the bytes from `start` on with the dead byte. -/
def nopOut (code : Bytes) (start length : Nat) : Bytes :=
  code.take start ++ List.replicate (min length (code.length - start)) deadByte ++
    code.drop (start + length)

/-- Overwrite the two bytes at `offset` with `value`. -/
def writeU16At (code : Bytes) (offset value : Nat) : Bytes :=
  code.take offset ++ writeIntBe 2 value ++ code.drop (offset + 2)

/-- Two `Constant` instructions and the operator behind them. -/
structure FoldCandidate where
  i : Nat
  op2Pos : Nat
  arithPos : Nat
  idx1 : Nat
  idx2 : Nat
  arithOp : Op

/-- The pair of constants that starts at `i`, with the operator behind it. -/
def foldablePairAt (chunk : Chunk) (i : Nat) : Option FoldCandidate := do
  let code := chunk.code
  let op2Pos := i + 3
  let arithPos := op2Pos + 3
  if Op.ofByte (byteAt code i) = some .constant ∧ inBounds code op2Pos 3 = true ∧
      Op.ofByte (byteAt code op2Pos) = some .constant ∧ arithPos < code.length then
    let arithOp ← Op.ofByte (byteAt code arithPos)
    return { i, op2Pos, arithPos, idx1 := readU16At code (i + 1), idx2 := readU16At code (op2Pos + 1), arithOp }
  else none

/-- Fold a candidate into one `Constant`, when its operation folds and the pool has
    room. -/
def applyFoldOptimization (float : FloatArithmetic) (chunk : Chunk) (candidate : FoldCandidate) :
    Option Chunk := do
  let val1 ← chunk.constants.values[candidate.idx1]?
  let val2 ← chunk.constants.values[candidate.idx2]?
  let result ← tryFoldOperation float val1 val2 candidate.arithOp
  if CompilerLimits.maxConstants ≤ chunk.constants.values.length then none
  else
    let (newIdx, constants) ← chunk.constants.tryAdd result
    let code := writeU16At (chunk.code.set candidate.i Op.constant.toByte) (candidate.i + 1) newIdx
    return { chunk with code := nopOut code candidate.op2Pos 4, constants }

/-- Fold the comparison of a candidate into `True` or `False`. -/
def applyComparisonFold (chunk : Chunk) (candidate : FoldCandidate) : Option Chunk := do
  if isComparison candidate.arithOp then
    let val1 ← chunk.constants.values[candidate.idx1]?
    let val2 ← chunk.constants.values[candidate.idx2]?
    let result ← tryFoldComparison val1 val2 candidate.arithOp
    let code := chunk.code.set candidate.i (if result then Op.true_ else Op.false_).toByte
    return { chunk with code := nopOut code (candidate.i + 1) 6 }
  else none

/-- The value the instruction at `i` pushes, if it is a constant. -/
def pushedAt (chunk : Chunk) (i : Nat) : Option Value :=
  match Op.ofByte (byteAt chunk.code i) with
  | some .constant => chunk.constants.values[readU16At chunk.code (i + 1)]?
  | some .true_ => some (.bool true)
  | some .false_ => some (.bool false)
  | _ => none

end Optimizer

-- The equations of the definitions are derived here, once for all proofs.
section
attribute [local simp] ConstantFolder.Emitted.pushed ConstantFolder.tryFoldIntegerArithmetic
  ConstantFolder.foldIntegerComparison ConstantFolder.tryFoldWith ConstantFolder.tryFoldNumberArithmetic
  ConstantFolder.tokenToComparisonOp ConstantFolder.asDouble? ConstantFolder.asValue
  ConstantFolder.foldNumericArithmetic ConstantFolder.foldStrings ConstantFolder.foldBooleanEquality
  ConstantFolder.foldNumericComparison ConstantFolder.binaryOpForToken Optimizer.tryFoldIntegers
  Optimizer.tryFoldNumbers Optimizer.tryFoldOperation Optimizer.foldComparison
  Optimizer.tryFoldComparison Optimizer.pushedAt
end

end Luma
