-- SUMMARY: The comparison and concatenation handlers of the VM, and what a binary opcode computes.
import Luma.Library.Binary64Order
import Luma.Value.Equality
import Luma.Vm.IntegerArithmetic

/-! # Binary Operators of the VM

The handlers behind the comparison operators and string concatenation, next to those of
arithmetic, and the handler of every opcode that takes two operands and leaves their
result. -/

namespace Luma.Vm

open Codec

/-- The orderings of a type the comparison operators use. -/
structure Ordering (α : Type) where
  less : α → α → Bool
  lessEqual : α → α → Bool
  equal : α → α → Bool

def integerOrdering : Ordering Int64 where
  less a b := decide (a < b)
  lessEqual a b := decide (a ≤ b)
  equal a b := a == b

/-- IEEE comparison: a NaN is neither below, equal to nor above anything. -/
def numberOrdering : Ordering Binary64 where
  less a b := a.ieeeLt b
  lessEqual a b := a.ieeeLt b || a.ieeeEq b
  equal a b := a.ieeeEq b

/-- Byte-wise lexicographic order. -/
def stringOrdering : Ordering Bytes where
  less a b := List.lex a b
  lessEqual a b := !List.lex b a
  equal a b := a == b

/-- The comparison `op` of two values of one type. -/
def applyComparison {α : Type} (ordering : Ordering α) (left right : α) (op : Op) : Bool :=
  match op with
  | .less => ordering.less left right
  | .lessEqual => ordering.lessEqual left right
  | .greater => ordering.less right left
  | .greaterEqual => ordering.lessEqual right left
  | .equal => ordering.equal left right
  | .notEqual => !ordering.equal left right
  | _ => false

def notNumeric (value : Value) : ArithmeticError :=
  { message := s!"to_numeric() called on non-numeric type: {value.displayTypeName}" }

/-- The ordering operators: integers and strings among themselves, everything else as
    doubles. -/
def compareValues (a b : Value) (op : Op) : Except ArithmeticError Value :=
  match a, b with
  | .integer l, .integer r => .ok (.bool (applyComparison integerOrdering l r op))
  | .string l, .string r => .ok (.bool (applyComparison stringOrdering l r op))
  | a, b =>
    match a.toNumeric?, b.toNumeric? with
    | some l, some r => .ok (.bool (applyComparison numberOrdering l r op))
    | some _, none => .error (notNumeric b)
    | none, _ => .error (notNumeric a)

/-- Concatenation: of strings, or of the texts of other values. -/
def handleConcatenate (limits : StringLimits) (toText : Value → Bytes) (a b : Value) :
    Except ArithmeticError Value :=
  let concatenated (s t : Bytes) : Except ArithmeticError Value :=
    if checkStringConcatSize limits s.length t.length then .ok (.string (s ++ t))
    else .error {
      message := "string concatenation exceeds maximum string size"
      hint := "the resulting string is too large — consider writing to a file instead" }
  match a, b with
  | .string s, .string t => concatenated s t
  | a, b => concatenated (toText a) (toText b)

/-- Equality as a handler: an error of the comparison is raised. -/
def equality (h : StdHash) (a b : Value) : Except ArithmeticError Bool :=
  match a.equals h b with
  | .ok equal => .ok equal
  | .error message => .error { message }

/-- What the handler of a binary opcode leaves in place of its operands. -/
def binaryOp (float : FloatArithmetic) (limits : StringLimits) (h : StdHash) (toText : Value → Bytes)
    (op : Op) (a b : Value) : Option (Except ArithmeticError Value) :=
  match op with
  | .add | .subtract | .multiply => some (numericBinaryOp float limits a b op)
  | .divide => some (handleDivide float a b)
  | .intDivide => some (handleIntDivide a b)
  | .modulo => some (handleModulo float a b)
  | .equal => some ((equality h a b).map .bool)
  | .notEqual => some ((equality h a b).map fun equal => .bool (!equal))
  | .less | .lessEqual | .greater | .greaterEqual => some (compareValues a b op)
  | .concatenate => some (handleConcatenate limits toText a b)
  | _ => none

-- The equations of the definitions are derived here, once for all proofs.
section
attribute [local simp] applyComparison compareValues handleConcatenate equality binaryOp
end

end Luma.Vm
