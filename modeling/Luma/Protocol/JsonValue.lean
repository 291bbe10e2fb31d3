-- SUMMARY: JSON values of the protocols, with their accessors.
import Luma.Library.BigEndian

/-! # JSON Values

The values that the protocol messages are made of. Some accessors end with an exception
when a value is not of the kind that is asked for, others with nothing. -/

namespace Luma.Protocol

open Codec

/-- `INT_MAX`. -/
def intMax : Int := 2147483647

/-- `INT_MIN`. -/
def intMin : Int := -2147483648

/-- Narrowing to an `int` that saturates; one unit of headroom is kept above. -/
def clampToInt (value : Int) : Int :=
  if value < 0 then 0
  else if value > intMax - 1 then intMax - 1
  else value

def tryNarrowInt (value : Int) : Option Int :=
  if value < intMin ∨ value > intMax then none else some value

/-- Texts are byte strings. The keys of an object are texts too, each with one value; a
    key that no accessor asks for may be any. -/
inductive JsonValue where
  | null
  | bool (value : Bool)
  | integer (value : Int)
  | number (bits : UInt64)
  | string (value : Bytes)
  | array (elements : List JsonValue)
  | object (members : List (String × JsonValue))

namespace JsonValue

def isNull : JsonValue → Bool
  | .null => true
  | _ => false

def isArray : JsonValue → Bool
  | .array _ => true
  | _ => false

def asInteger : JsonValue → Except String Int
  | .integer value => .ok value
  | _ => .error "JSON value is not an integer"

def asString : JsonValue → Except String Bytes
  | .string value => .ok value
  | _ => .error "JSON value is not a string"

def asArray : JsonValue → Except String (List JsonValue)
  | .array elements => .ok elements
  | _ => .error "JSON value is not an array"

/-- The member of an object under a key. -/
def find? (key : String) : JsonValue → Option JsonValue
  | .object members => members.lookup key
  | _ => none

/-- `operator[]`. -/
def index (key : String) (value : JsonValue) : Except String JsonValue :=
  match value with
  | .object members =>
    match members.lookup key with
    | some member => .ok member
    | none => .error s!"JSON object has no key '{key}'"
  | _ => .error "JSON value is not an object"

def has (key : String) (value : JsonValue) : Bool := (value.find? key).isSome

def get (key : String) (value : JsonValue) : JsonValue := (value.find? key).getD .null

/-- `try_extract_field<int>`. -/
def tryExtractInt (key : String) (json : JsonValue) : Option Int :=
  match json.find? key with
  | some (.integer value) => tryNarrowInt value
  | _ => none

/-- `try_extract_field<std::string>`. -/
def tryExtractString (key : String) (json : JsonValue) : Option Bytes :=
  match json.find? key with
  | some (.string text) => some text
  | _ => none

end JsonValue

end Luma.Protocol
