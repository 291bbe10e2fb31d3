-- SUMMARY: Runtime values as trees.
import Luma.Library.Binary64
import Luma.Value.Decimal

/-! # Runtime Values

A value is the tree an operation on values sees. Storage sharing is not part of
it; objects that are compared by identity carry that identity. -/

namespace Luma

open Codec

/-- What two task handles are compared by: the completion notifier of the
    spawned task, or the address of a wrapper created already resolved. -/
inductive TaskIdentity where
  | completion (id : Nat)
  | wrapper (address : Nat)
  deriving DecidableEq, Repr

/-- A runtime value. Strings are byte strings. -/
inductive Value where
  | null
  | bool (b : Bool)
  | integer (n : Int64)
  | number (x : Binary64)
  | string (s : Bytes)
  | array (elements : List Value)
  | dictionary (entries : List (Bytes × Value))
  | tuple (elements : List Value)
  | result (isSuccess : Bool) (inner : Value) (errorCode sourceFunction : Bytes)
  | record (typeName : Bytes) (fields : List (Bytes × Value))
  | range (start stop : Int64) (inclusive : Bool)
  | choice (typeName variant : Bytes) (fields : List Value)
  | function (identity : Nat)
  | nativeFunction (address : Nat)
  | task (identity : TaskIdentity)
  | channel (address : Nat)
  | socket (address : Nat)
  | queue (elements : List Value)
  | stack (elements : List Value)
  | set (elements : List Value)
  | xml (address : Nat)
  | keyValueStore (address : Nat)
  | reference (address : Nat)
  | decimal (value : Decimal)

namespace Value

/-- Position of the value's type in the type enumeration. -/
def valueType : Value → Nat
  | .null => 0
  | .bool _ => 1
  | .integer _ => 2
  | .number _ => 3
  | .string _ => 4
  | .array _ => 5
  | .dictionary _ => 6
  | .tuple _ => 7
  | .result .. => 8
  | .record .. => 9
  | .range .. => 10
  | .choice .. => 11
  | .function _ => 12
  | .nativeFunction _ => 13
  | .task _ => 14
  | .channel _ => 15
  | .socket _ => 16
  | .queue _ => 17
  | .stack _ => 18
  | .set _ => 19
  | .xml _ => 20
  | .keyValueStore _ => 21
  | .reference _ => 22
  | .decimal _ => 23

/-- A value in a condition. -/
def isTruthy : Value → Bool
  | .null => false
  | .bool b => b
  | .integer n => n ≠ 0
  | .number x => !x.isZero
  | .string s => s ≠ []
  | _ => true

/-- The values stored directly inside a value. -/
def children : Value → List Value
  | .array elements | .tuple elements | .queue elements | .stack elements | .set elements =>
    elements
  | .choice _ _ fields => fields
  | .dictionary entries => entries.map Prod.snd
  | .record _ fields => fields.map Prod.snd
  | .result _ inner _ _ => [inner]
  | _ => []

end Value

end Luma
