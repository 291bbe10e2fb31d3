-- SUMMARY: Structural equality of values, with its depth limit.
import Luma.Library.Matching
import Luma.Library.OrderedMap
import Luma.Value.Hash

/-! # Structural Equality

`equals` compares two values down to a depth limit and fails beyond it. Integers
and numbers compare exactly; dictionaries and sets compare regardless of order,
dictionaries by key lookup and sets through their hash index. -/

namespace Luma

open Codec

/-- A runtime error, by its message. -/
abbrev ErrorMessage := String

/-- Nesting depth at which comparing, copying and formatting give up. -/
def maxDisplayDepth : Nat := 64

namespace Value

/-- Exact comparison of an integer with a number: the number lies in the range of
    the integer type, is whole, and is that integer. An infinity is outside the
    range and a NaN fails the comparison. -/
def integerEqualsNumber (integer : Int64) (number : Binary64) : Bool :=
  number.isFinite &&
    decide (-2 ^ 63 * Binary64.unitsPerOne ≤ number.units) &&
    decide (number.units < 2 ^ 63 * Binary64.unitsPerOne) &&
    decide (number.units % Binary64.unitsPerOne = 0) &&
    decide (number.units / Binary64.unitsPerOne = integer.toInt)

/-- Equality of numbers, with every NaN equal to every other. -/
def numberEquals (a b : Binary64) : Bool := (a.isNan && b.isNan) || a.ieeeEq b

/-- Look a key up in the entries of a dictionary. -/
def findEntry (entries : List (Bytes × Value)) (key : Bytes) : Option Value :=
  OrderedMap.lookup key entries

section Containers

variable (h : StdHash) (eq : Value → Value → Except ErrorMessage Bool)

/-- Two sequences of one length, element by element. -/
def elementsEqual (a b : List Value) : Except ErrorMessage Bool :=
  if a.length ≠ b.length then .ok false
  else (a.zip b).allM fun pair => eq pair.1 pair.2

def equalsDictionary (da db : List (Bytes × Value)) : Except ErrorMessage Bool :=
  if da.length ≠ db.length then .ok false
  else da.allM fun entry =>
    match findEntry db entry.1 with
    | none => .ok false
    | some b => eq entry.2 b

def equalsRecord (fa fb : List (Bytes × Value)) : Except ErrorMessage Bool :=
  if fa.length ≠ fb.length then .ok false
  else (fa.zip fb).allM fun pair =>
    if pair.1.1 ≠ pair.2.1 then .ok false else eq pair.1.2 pair.2.2

/-- Look a value up among the keys of a hash index: only keys with its hash are
    compared. -/
def indexContains (keys : List Value) (value : Value) : Except ErrorMessage Bool :=
  keys.anyM fun key =>
    if h.valueHash key = h.valueHash value then eq value key else .ok false

/-- The keys of the hash index of a set: an element already present is not added. -/
def buildIndex : (keys elements : List Value) → Except ErrorMessage (List Value)
  | keys, [] => .ok keys
  | keys, element :: elements => do
    if ← indexContains h eq keys element then buildIndex keys elements
    else buildIndex (keys ++ [element]) elements

def equalsSet (a b : List Value) : Except ErrorMessage Bool :=
  if a.length ≠ b.length then .ok false
  else do
    let keys ← buildIndex h eq [] b
    a.allM (indexContains h eq keys)

end Containers

/-- Equality with `remaining` levels of nesting left. -/
def equalsAt (h : StdHash) : (remaining : Nat) → Value → Value → Except ErrorMessage Bool
  | 0, _, _ => .error "equals: maximum nesting depth exceeded"
  | remaining + 1, a, b =>
    let eq := equalsAt h remaining
    match a, b with
    | .null, .null => .ok true
    | .bool a, .bool b => .ok (a == b)
    | .integer a, .integer b => .ok (a == b)
    | .number a, .number b => .ok (numberEquals a b)
    | .integer a, .number b => .ok (integerEqualsNumber a b)
    | .number a, .integer b => .ok (integerEqualsNumber b a)
    | .string a, .string b => .ok (a == b)
    | .array a, .array b => elementsEqual eq a b
    | .dictionary a, .dictionary b => equalsDictionary eq a b
    | .tuple a, .tuple b => elementsEqual eq a b
    | .result sa a _ _, .result sb b _ _ => if sa ≠ sb then .ok false else eq a b
    | .record ta fa, .record tb fb => if ta ≠ tb then .ok false else equalsRecord eq fa fb
    | .range sa ea ia, .range sb eb ib => .ok (sa == sb && ea == eb && ia == ib)
    | .choice ta va fa, .choice tb vb fb =>
      if ta ≠ tb ∨ va ≠ vb then .ok false else elementsEqual eq fa fb
    | .function a, .function b => .ok (a == b)
    | .nativeFunction a, .nativeFunction b => .ok (a == b)
    | .task a, .task b => .ok (a == b)
    | .channel a, .channel b => .ok (a == b)
    | .socket a, .socket b => .ok (a == b)
    | .queue a, .queue b => elementsEqual eq a b
    | .stack a, .stack b => elementsEqual eq a b
    | .set a, .set b => equalsSet h eq a b
    | .xml a, .xml b => .ok (a == b)
    | .keyValueStore a, .keyValueStore b => .ok (a == b)
    | .reference a, .reference b => .ok (a == b)
    | .decimal a, .decimal b => .ok (a.compare b == 0)
    | _, _ => .ok false

/-- Structural equality of two values. -/
def equals (h : StdHash) (a b : Value) : Except ErrorMessage Bool :=
  equalsAt h maxDisplayDepth a b

end Value

end Luma
