-- SUMMARY: How the checker marks numeric widenings and how the machine performs them.
import Luma.Types.Inhabits
import Luma.Types.Pattern

/-! # Numeric Widening

Where an integer flows to a place of type `number`, the checker attaches a pattern to the
expression and the machine converts the value by it. The checker descends into literals
and marks their elements instead. -/

namespace Luma

open Codec

/-! ## The pattern of a flow -/

namespace TypeInfo

/-- Bound on the nesting of a pattern; deeper flows are left unwidened. -/
def maxWideningDepth : Nat := 64

/-- The patterns of the first `count` components, `_` where nothing widens; none if nothing
    widens at all. -/
def widenedComponents (patternAt : TypeInfo → TypeInfo → Option Bytes) (count : Nat)
    (target source : List TypeInfo) : Option (List Bytes) :=
  if target.length < count ∨ source.length < count then none
  else
    let parts := ((target.zip source).take count).map fun pair => patternAt pair.1 pair.2
    if parts.any Option.isSome then some (parts.map fun part => part.getD (bytes "_")) else none

/-- What flows into an optional: it has no wrapper at run time, so that an optional source
    widens like a bare one. -/
def innerSource (source : TypeInfo) : Option TypeInfo :=
  if source.kind = .optional then source.innerTypes.head? else some source

/-- The pattern of a flow into an optional. -/
def optionalPattern (patternAt : TypeInfo → TypeInfo → Option Bytes) (target source : TypeInfo) :
    Option Bytes :=
  match target.innerTypes.head?, source.innerSource with
  | some element, some inner =>
    (patternAt element inner).map fun part => TypePattern.generic (bytes "optional") [part]
  | _, _ => none

/-- The pattern of a flow between two containers of one kind. -/
def containerPattern (patternAt : TypeInfo → TypeInfo → Option Bytes) (target source : TypeInfo) :
    Option Bytes :=
  let components count := widenedComponents patternAt count target.innerTypes source.innerTypes
  match target.kind with
  | .array => (components 1).map (TypePattern.generic (bytes "array"))
  | .dictionary => (components 1).map (TypePattern.generic (bytes "dictionary"))
  | .result =>
    let hasErrorType := 1 < target.innerTypes.length ∧ 1 < source.innerTypes.length
    (components (if hasErrorType then 2 else 1)).map (TypePattern.generic (bytes "result"))
  | .tuple =>
    if target.innerTypes.length ≠ source.innerTypes.length then none
    else (components target.innerTypes.length).map TypePattern.tuple
  | _ => none

/-- The conversion that a flow from `source` to `target` needs. `levels` counts the levels
    of nesting that are left. -/
def wideningPatternAt : Nat → TypeInfo → TypeInfo → Option Bytes
  | 0, _, _ => none
  | levels + 1, target, source =>
    if target.kind = .number ∧ source.kind = .integer then some (bytes "number")
    else if target.kind = .optional then optionalPattern (wideningPatternAt levels) target source
    else if target.kind ≠ source.kind then none
    else containerPattern (wideningPatternAt levels) target source

def numericWideningPattern (target source : TypeInfo) : Option Bytes :=
  wideningPatternAt (maxWideningDepth + 1) target source

mutual

/-- The type with every `number` replaced by `integer`. -/
def withIntegersForNumbers : TypeInfo → TypeInfo
  | .mk kind name inner ret =>
    if kind = .number then make .integer else .mk kind name (allWithIntegersForNumbers inner) ret

def allWithIntegersForNumbers : List TypeInfo → List TypeInfo
  | [] => []
  | t :: ts => withIntegersForNumbers t :: allWithIntegersForNumbers ts

end

/-- A flow between two instantiations of one generic choice or record some of whose
    arguments widen. -/
def widensGenericUserType (target source : TypeInfo) : Bool :=
  if (target.kind ≠ .choice ∧ target.kind ≠ .record) ∨ source.kind ≠ target.kind ∨
      source.name ≠ target.name then false
  else
    target.innerTypes.zipIdx.any fun (targetArg, i) =>
      let sourceArg :=
        match source.innerTypes[i]? with
        | some arg => if arg.kind ≠ .unknown then arg else withIntegersForNumbers targetArg
        | none => withIntegersForNumbers targetArg
      (numericWideningPattern targetArg sourceArg).isSome

end TypeInfo

/-! ## Marking -/

/-- An expression as marking sees it: a literal of a container with its elements, or any
    other expression, by the value it evaluates to. -/
inductive Operand where
  | arrayLiteral (elements : List Operand)
  | dictionaryLiteral (entries : List (Bytes × Operand))
  | tupleLiteral (elements : List Operand)
  | other (value : Value)

namespace Operand

mutual

/-- What the expression evaluates to when nothing is marked. -/
def value : Operand → Value
  | .arrayLiteral elements => .array (values elements)
  | .dictionaryLiteral entries => .dictionary (entryValues entries)
  | .tupleLiteral elements => .tuple (values elements)
  | .other value => value

def values : List Operand → List Value
  | [] => []
  | e :: es => e.value :: values es

def entryValues : List (Bytes × Operand) → List (Bytes × Value)
  | [] => []
  | (key, e) :: entries => (key, e.value) :: entryValues entries

end

@[simp] theorem values_eq (es : List Operand) : values es = es.map value := by
  induction es with
  | nil => rfl
  | cons e es ih => simp [values, ih]

@[simp] theorem entryValues_eq (entries : List (Bytes × Operand)) :
    entryValues entries = entries.map fun entry => (entry.1, entry.2.value) := by
  induction entries with
  | nil => rfl
  | cons entry entries ih => simp [entryValues, ih]

end Operand

/-- A marked expression: the pattern on the whole of it, or the marked elements of a literal. -/
inductive Marked where
  | whole (numericWidening : Option Bytes) (e : Operand)
  | arrayElements (elements : List Marked)
  | dictionaryElements (entries : List (Bytes × Marked))
  | tupleElements (elements : List Marked)

namespace Operand

open TypeInfo

/-- Mark an expression whose value flows from `source` to `target`. The elements of a
    literal are marked one by one. A collection is neither a constructor call nor a record
    creation, whose fields would be marked. -/
def markWideningAt : Nat → Operand → TypeInfo → TypeInfo → Marked
  | 0, e, _, _ => .whole none e
  | levels + 1, e, target, source =>
    if widensGenericUserType target source then .whole none e
    else
      match numericWideningPattern target source with
      | none => .whole none e
      | some pattern =>
        match e with
        | .arrayLiteral elements =>
          match target.innerTypes, source.innerTypes with
          | targetElement :: _, sourceElement :: _ =>
            if target.kind = .array ∧ source.kind = .array then
              .arrayElements (elements.map fun element =>
                markWideningAt levels element targetElement sourceElement)
            else .whole (some pattern) e
          | _, _ => .whole (some pattern) e
        | .dictionaryLiteral entries =>
          match target.innerTypes, source.innerTypes with
          | targetElement :: _, sourceElement :: _ =>
            if target.kind = .dictionary ∧ source.kind = .dictionary then
              .dictionaryElements (entries.map fun entry =>
                (entry.1, markWideningAt levels entry.2 targetElement sourceElement))
            else .whole (some pattern) e
          | _, _ => .whole (some pattern) e
        | .tupleLiteral elements =>
          if target.kind = .tuple ∧ source.kind = .tuple ∧
              target.innerTypes.length = elements.length ∧
              source.innerTypes.length = elements.length then
            .tupleElements ((elements.zip (target.innerTypes.zip source.innerTypes)).map fun p =>
              markWideningAt levels p.1 p.2.1 p.2.2)
          else .whole (some pattern) e
        | .other _ => .whole (some pattern) e

def markNumericWidening (e : Operand) (target source : TypeInfo) : Marked :=
  e.markWideningAt (maxWideningDepth + 1) target source

end Operand

/-! ## Conversion -/

namespace NumericWidener

/-- The elements with the converted ones in place, if any was converted. -/
def widenElements {α : Type} (widen : α → Option α) (elements : List α) : Option (List α) :=
  if elements.any fun element => (widen element).isSome then
    some (elements.map fun element => (widen element).getD element)
  else none

/-- Convert an integer. -/
def widenInteger : Value → Option Value
  | .integer n => some (.number (Binary64.ofInt n.toInt))
  | _ => none

/-- Convert a tuple of the right length, each element by its own pattern. -/
def widenTuple (widen : Value → Bytes → Option Value) (val : Value) (params : List Bytes) :
    Option Value :=
  match val with
  | .tuple elements =>
    if elements.length ≠ params.length then none
    else
      (widenElements (fun pair : Value × Bytes =>
        (widen pair.1 pair.2).map fun widened => (widened, pair.2))
        (elements.zip params)).map fun pairs => .tuple (pairs.map Prod.fst)
  | _ => none

/-- Convert a value by a pattern with parameters. -/
def widenParameterized (widen : Value → Bytes → Option Value) (val : Value)
    (base : Bytes) (params : List Bytes) : Option Value :=
  match params with
  | [] => none
  | elementPattern :: errors =>
    let widenElement element := widen element elementPattern
    match val with
    | .null => none
    | val =>
      if base = bytes "optional" then widen val elementPattern
      else
        match val with
        | .array elements =>
          if base = bytes "array" then (widenElements widenElement elements).map .array else none
        | .dictionary entries =>
          if base = bytes "dictionary" then
            (widenElements (fun entry : Bytes × Value =>
              (widenElement entry.2).map fun widened => (entry.1, widened)) entries).map .dictionary
          else none
        | .result isSuccess inner errorCode sourceFunction =>
          if base = bytes "result" then
            let innerPattern := if isSuccess then elementPattern else errors.headD (bytes "_")
            (widen inner innerPattern).map fun widened =>
              .result isSuccess widened errorCode sourceFunction
          else none
        | .queue elements =>
          if base = bytes "queue" then (widenElements widenElement elements).map .queue else none
        | .stack elements =>
          if base = bytes "stack" then (widenElements widenElement elements).map .stack else none
        | .set elements =>
          if base = bytes "set" then (widenElements widenElement elements).map .set else none
        | _ => none

/-- Convert a value by a pattern, or leave it. `levels` counts the levels of nesting left. -/
def widenImpl : Nat → Value → Bytes → Option Value
  | 0, _, _ => none
  | levels + 1, val, typePattern =>
    if typePattern = bytes "number" then widenInteger val
    else
      match TypePattern.parse typePattern with
      | none => none
      | some ⟨.simple, _, _⟩ => none
      | some ⟨.tuple, _, params⟩ => widenTuple (widenImpl levels) val params
      | some ⟨.parameterized, base, params⟩ =>
        widenParameterized (widenImpl levels) val base params

/-- Convert a value by a pattern. -/
def widen (maxCallDepth : Nat) (val : Value) (typePattern : Bytes) : Value :=
  (widenImpl (maxCallDepth + 1) val typePattern).getD val

end NumericWidener

/-- The conversion instruction. -/
def intToNumber : Value → Value
  | .integer n => .number (Binary64.ofInt n.toInt)
  | val => val

namespace Marked

/-- The instruction emitted after an expression that carries a pattern. -/
def performWidening (maxCallDepth : Nat) : Option Bytes → Value → Value
  | none, val => val
  | some pattern, val =>
    if pattern = bytes "number" then intToNumber val
    else NumericWidener.widen maxCallDepth val pattern

mutual

/-- What a marked expression evaluates to. -/
def value (maxCallDepth : Nat) : Marked → Value
  | .whole numericWidening e => performWidening maxCallDepth numericWidening e.value
  | .arrayElements elements => .array (values maxCallDepth elements)
  | .dictionaryElements entries => .dictionary (entryValues maxCallDepth entries)
  | .tupleElements elements => .tuple (values maxCallDepth elements)

def values (maxCallDepth : Nat) : List Marked → List Value
  | [] => []
  | m :: ms => m.value maxCallDepth :: values maxCallDepth ms

def entryValues (maxCallDepth : Nat) : List (Bytes × Marked) → List (Bytes × Value)
  | [] => []
  | (key, m) :: entries => (key, m.value maxCallDepth) :: entryValues maxCallDepth entries

end

@[simp] theorem values_eq (maxCallDepth : Nat) (ms : List Marked) :
    values maxCallDepth ms = ms.map (value maxCallDepth) := by
  induction ms with
  | nil => rfl
  | cons m ms ih => simp [values, ih]

@[simp] theorem entryValues_eq (maxCallDepth : Nat) (entries : List (Bytes × Marked)) :
    entryValues maxCallDepth entries =
      entries.map fun entry => (entry.1, entry.2.value maxCallDepth) := by
  induction entries with
  | nil => rfl
  | cons entry entries ih => simp [entryValues, ih]

end Marked

-- The equations of the definitions are derived here, once for all proofs.
section
attribute [local simp] TypeInfo.wideningPatternAt Operand.value Operand.values Operand.entryValues
  Operand.markWideningAt
  NumericWidener.widenTuple NumericWidener.widenParameterized NumericWidener.widenImpl Marked.performWidening Marked.value
  Marked.values Marked.entryValues
end

end Luma
