-- SUMMARY: The run-time test of a value against a type pattern string.
import Luma.Types.Pattern
import Luma.Value.Dictionary

/-! # Type Tests

`matchesPattern` tests a value against a type pattern, one layer of the pattern at a time. -/

namespace Luma

open Codec

/-- The name a value's type is displayed by. -/
def Value.typeName : Value → Bytes
  | .record typeName _ => typeName
  | .choice typeName _ _ => typeName
  | v => bytes v.displayTypeName

namespace TypePattern

/-- Does the base of the pattern name the type? -/
def matchesName (pattern : TypePattern) (typeString : Bytes) : Bool :=
  match pattern.kind with
  | .simple =>
    typeString = pattern.base ∨ (pattern.base = bytes "number" ∧ typeString = bytes "integer")
  | .parameterized => typeString = pattern.base
  | .tuple => typeString = bytes "tuple"

end TypePattern

namespace TypeMatcher

/-- A name also matches a choice by its variant, and a qualified name also matches a record
    by its last component. -/
def matchesSimpleType (val : Value) (pattern : TypePattern) : Bool :=
  match val with
  | .choice typeName variant _ => variant = pattern.base ∨ typeName = pattern.base
  | .record typeName _ =>
    typeName = pattern.base ∨
      (TypePattern.isQualifiedName pattern.base ∧
        typeName = TypePattern.qualifiedMember pattern.base)
  | val => pattern.matchesName val.typeName

section Layers

variable (referent : Nat → Value) (isMatch : Value → Bytes → Bool)

def matchesTupleType (val : Value) (pattern : TypePattern) : Bool :=
  match val with
  | .tuple elements =>
    elements.length = pattern.params.length ∧
      (elements.zip pattern.params).all fun p => isMatch p.1 p.2
  | _ => false

def matchesParameterizedType (val : Value) (pattern : TypePattern) : Bool :=
  match pattern.params with
  | [] =>
    if pattern.base = bytes "optional" then true else pattern.matchesName val.typeName
  | param :: params =>
    if pattern.base = bytes "optional" then
      match val with
      | .null => true
      | val => isMatch val param
    else if !pattern.matchesName val.typeName then false
    else
      match val with
      | .array elements =>
        if pattern.base = bytes "array" then elements.all fun e => isMatch e param else true
      | .dictionary entries =>
        if pattern.base = bytes "dictionary" then entries.all fun e => isMatch e.2 param
        else true
      | .result isSuccess inner _ _ =>
        if pattern.base = bytes "result" then
          if isSuccess then isMatch inner param
          else
            match params with
            | error :: _ => isMatch inner error
            | [] => true
        else true
      | .reference address =>
        if pattern.base = bytes "reference" then isMatch (referent address) param else true
      | .queue elements =>
        if pattern.base = bytes "queue" then elements.all fun e => isMatch e param else true
      | .stack elements =>
        if pattern.base = bytes "stack" then elements.all fun e => isMatch e param else true
      | .set elements =>
        if pattern.base = bytes "set" then elements.all fun e => isMatch e param else true
      | _ => true

end Layers

/-- The test with `remaining` levels of nesting left; beyond them nothing matches. -/
def matchesAt (referent : Nat → Value) : (remaining : Nat) → Value → Bytes → Bool
  | 0, _, _ => false
  | remaining + 1, val, typePattern =>
    match TypePattern.parse typePattern with
    | none => false
    | some pattern =>
      match pattern.kind with
      | .tuple => matchesTupleType (matchesAt referent remaining) val pattern
      | .parameterized =>
        matchesParameterizedType referent (matchesAt referent remaining) val pattern
      | .simple => matchesSimpleType val pattern

/-- Does the value match the pattern? -/
def matchesPattern (referent : Nat → Value) (maxCallDepth : Nat) (val : Value)
    (typePattern : Bytes) : Bool :=
  matchesAt referent (maxCallDepth + 1) val typePattern

/-- A name is tested directly. -/
theorem matchesPattern_name {referent : Nat → Value} {maxCallDepth : Nat} {val : Value}
    {name : Bytes} (h : TypePattern.IsName name) :
    matchesPattern referent maxCallDepth val name = matchesSimpleType val ⟨.simple, name, []⟩ := by
  rw [matchesPattern, matchesAt, TypePattern.parse_name h]

end TypeMatcher

end Luma
