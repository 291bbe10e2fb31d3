-- SUMMARY: The operators on optionals and results: what the checker says and what they do.
import Luma.Library.OrderedMap
import Luma.Types.Widening

/-! # Optional and Result Operators

Static types and runtime behaviour of `e ?? d`, `e?`, `e !> f`, `e?.field` and `e?[i]`.
An operator of the checker yields no type where it reports an error. At run time an
optional has no wrapper, so the operators look at the value alone. -/

namespace Luma

open Codec

/-! ## What the checker says -/

namespace TypeInfo

/-- The type inside an optional. An open type is taken to be one. -/
def unwrapOptional (type : TypeInfo) : Option TypeInfo :=
  if type.kind = .optional then some (type.innerTypes.headD (make .stdlibAny))
  else if type.kind = .stdlibAny ∨ type.kind = .unknown then some (make .stdlibAny)
  else none

/-- The type of `e ?? d`, and the type that `d` is converted to, if any. -/
structure Coalesced where
  type : TypeInfo
  defaultTarget : Option TypeInfo

/-- Two operands of one wrapper chain; otherwise the default replaces the wrapped value. -/
def coalesceWith (symbols : SymbolTables) (left inner right : TypeInfo) : Option Coalesced :=
  if right.kind = left.kind ∧
      right.innerTypes.head?.any fun rightInner => isAssignable symbols inner rightInner then
    some ⟨left, some left⟩
  else if !isAssignable symbols inner right then none
  else some ⟨inner, some inner⟩

def checkNullCoalescing (symbols : SymbolTables) (left right : TypeInfo) : Option Coalesced :=
  if left.kind = .optional then
    match left.unwrapOptional with
    | some inner => coalesceWith symbols left inner right
    | none => some ⟨left, none⟩
  else if left.kind = .result ∧ left.innerTypes ≠ [] then
    coalesceWith symbols left (left.innerTypes.headD (make .stdlibAny)) right
  else if left.kind = .none then some ⟨right, none⟩
  else if left.kind ≠ .stdlibAny ∧ left.kind ≠ .unknown then none
  else some ⟨right, none⟩

/-- The enclosing function, as the check of `e?` sees it. -/
structure CheckingContext where
  isInMain : Bool
  inInferredExpressionLambda : Bool
  currentReturnType : Option TypeInfo

/-- May `?` be used in a function with this return type? -/
def allowsPropagation (ctx : CheckingContext) : Bool :=
  ctx.isInMain ||
    ctx.currentReturnType.any fun ret =>
      ret.kind = .result ∨ ret.kind = .optional ∨ ret.kind = .stdlibAny

/-- Must the wrapper of the operand be that of the return type, and is it not? -/
def hasWrongWrapper (ctx : CheckingContext) (operand : TypeInfo) : Bool :=
  !ctx.isInMain &&
    ctx.currentReturnType.any fun ret =>
      ret.kind ≠ .stdlibAny ∧ (operand.kind = .result ∨ operand.kind = .optional) ∧
        operand.kind ≠ ret.kind

/-- Does the error of the operand not fit the one the function declares? -/
def hasWrongError (symbols : SymbolTables) (ctx : CheckingContext) (operand : TypeInfo) : Bool :=
  !ctx.isInMain &&
    ctx.currentReturnType.any fun ret =>
      ret.kind = .result &&
        match ret.innerTypes, operand.innerTypes with
        | _ :: declared :: _, _ :: error :: _ => !isAssignable symbols declared error
        | _, _ => false

/-- The type of `e?`. -/
def checkPropagation (symbols : SymbolTables) (ctx : CheckingContext) (operand : TypeInfo) :
    Option TypeInfo :=
  if ctx.inInferredExpressionLambda then none
  else if !allowsPropagation ctx then none
  else if hasWrongWrapper ctx operand then none
  else if operand.kind = .result then
    if hasWrongError symbols ctx operand then none
    else some (operand.innerTypes.headD (make .stdlibAny))
  else if operand.kind = .optional then operand.unwrapOptional
  else if operand.kind ≠ .stdlibAny ∧ operand.kind ≠ .unknown then none
  else some (make .stdlibAny)

/-- The type of `e !> f`, from the return type of `f`. The piped value is not checked
    against the first parameter of `f`. -/
def visitErrorPipe (rightType : TypeInfo) : TypeInfo :=
  if rightType.kind = .result then rightType else makeResult rightType (make .stdlibAny)

/-- An optional type is made with the type inside it, as annotations resolve. -/
def WellShaped (t : TypeInfo) : Prop := t.kind = .optional → ∃ u, t = makeOptional u

/-- The resolved fields of the declared records and interfaces for given type arguments, and
    the types of the variants of a choice. -/
structure Declarations where
  recordFields (name : Bytes) (args : List TypeInfo) : Option (List (Bytes × TypeInfo))
  interfaceFields (name : Bytes) (args : List TypeInfo) : Option (List (Bytes × TypeInfo))
  variantType (choice variant : Bytes) : Option TypeInfo
  record_shaped : ∀ {name args fields p}, recordFields name args = some fields → p ∈ fields →
    WellShaped p.2
  interface_shaped : ∀ {name args fields p}, interfaceFields name args = some fields →
    p ∈ fields → WellShaped p.2
  variant_shaped : ∀ {choice variant type}, variantType choice variant = some type →
    WellShaped type

/-- A member among the declared fields; `none` inside when nothing is declared, `none`
    outside when the declaration has no such member. -/
def namedMember (fields : Option (List (Bytes × TypeInfo))) (field : Bytes) :
    Option (Option TypeInfo) :=
  match fields with
  | none => some none
  | some fields => (OrderedMap.lookup field fields).map some

def recordMember (decls : Declarations) (object : TypeInfo) (field : Bytes) :
    Option (Option TypeInfo) :=
  namedMember (decls.recordFields object.name object.innerTypes) field

def interfaceMember (decls : Declarations) (object : TypeInfo) (field : Bytes) :
    Option (Option TypeInfo) :=
  namedMember (decls.interfaceFields object.name object.innerTypes) field

/-- A whole number in decimal, with an optional minus sign, that a 32-bit integer can hold. -/
def parseIndex (field : Bytes) : Option Int :=
  let digits (text : Bytes) : Option Nat :=
    if text ≠ [] ∧ text.all (fun c => 48 ≤ c ∧ c ≤ 57) then
      some (text.foldl (fun n c => 10 * n + (c.toNat - 48)) 0)
    else none
  let value : Option Int :=
    match field with
    | 45 :: text => (digits text).map fun n => -(n : Int)
    | text => (digits text).map fun n => (n : Int)
  value.filter fun i => -2 ^ 31 ≤ i ∧ i < 2 ^ 31

/-- A numbered member of a tuple; `none` inside when the name is no number. A number out of
    bounds is an error. -/
def tupleMember (object : TypeInfo) (field : Bytes) : Option (Option TypeInfo) :=
  match parseIndex field with
  | none => some none
  | some i => if 0 ≤ i then object.innerTypes[i.toNat]?.map some else none

/-- The type of a field accessed through `?.`, before the result is made optional. -/
def inferFieldAccess (decls : Declarations) (object : TypeInfo) (field : Bytes) :
    Option TypeInfo :=
  let member : Option (Option TypeInfo) :=
    match object.kind with
    | .choice =>
      some (some ((decls.variantType object.name field).getD (makeNamed .choice object.name)))
    | .interface => interfaceMember decls object field
    | .record => recordMember decls object field
    | .tuple => tupleMember object field
    | .optional =>
      let inner := object.innerTypes.headD (make .stdlibAny)
      match inner.kind with
      | .record => recordMember decls inner field
      | .interface => interfaceMember decls inner field
      | .tuple => tupleMember inner field
      | _ => some none
    | _ => some none
  member.map fun type => type.getD (make .stdlibAny)

/-- Make a type optional unless it is. -/
def withOptionalNull (type : TypeInfo) : TypeInfo :=
  if type.kind ≠ .optional then makeOptional type else type

/-- The type of `e?.field`. -/
def visitOptionalField (decls : Declarations) (object : TypeInfo) (field : Bytes) :
    Option TypeInfo :=
  (inferFieldAccess decls object field).map withOptionalNull

/-- The index of `e?[i]`: its type, its value if it is a literal, and the number of elements
    if the indexed expression is an array literal. -/
structure IndexOperand where
  type : TypeInfo
  literal : Option Int
  literalLength : Option Nat

def IndexOperand.isOpen (index : IndexOperand) : Bool :=
  index.type.kind = .stdlibAny ∨ index.type.kind = .unknown

/-- Is a literal index out of the bounds of a literal array? -/
def IndexOperand.isOutOfBounds (index : IndexOperand) : Bool :=
  match index.literal, index.literalLength with
  | some i, some length => i < 0 ∨ (length : Int) ≤ i
  | _, _ => false

def checkArrayIndex (object : TypeInfo) (index : IndexOperand) : Option TypeInfo :=
  if index.type.kind = .range then some object
  else if index.type.kind ≠ .integer ∧ !index.isOpen then none
  else if index.isOutOfBounds then none
  else some (object.innerTypes.headD (make .stdlibAny))

def checkDictIndex (object : TypeInfo) (index : IndexOperand) : Option TypeInfo :=
  if index.type.kind ≠ .string ∧ !index.isOpen then none
  else some (object.innerTypes.headD (make .stdlibAny))

def checkStringIndex (index : IndexOperand) : Option TypeInfo :=
  if index.type.kind = .range then some (make .string)
  else if index.type.kind ≠ .integer ∧ !index.isOpen then none
  else some (make .string)

def checkTupleIndex (object : TypeInfo) (index : IndexOperand) : Option TypeInfo :=
  match index.literal with
  | some i => if 0 ≤ i then object.innerTypes[i.toNat]? else none
  | none => some (make .stdlibAny)

def checkOptionalIndex (object : TypeInfo) : TypeInfo :=
  let inner := object.innerTypes.headD (make .stdlibAny)
  match inner.kind with
  | .array | .dictionary => inner.innerTypes.headD (make .stdlibAny)
  | .string => make .string
  | _ => make .stdlibAny

/-- The type of `e?[i]`. -/
def visitOptionalIndex (object : TypeInfo) (index : IndexOperand) : Option TypeInfo :=
  let element : Option TypeInfo :=
    match object.kind with
    | .array => checkArrayIndex object index
    | .dictionary => checkDictIndex object index
    | .string => checkStringIndex index
    | .tuple => checkTupleIndex object index
    | .optional =>
      if object.innerTypes ≠ [] then some (checkOptionalIndex object) else none
    | .stdlibAny | .unknown => some (make .stdlibAny)
    | _ => none
  element.map withOptionalNull

end TypeInfo

/-! ## What the machine does -/

namespace Value

/-- The left operand of `??`: the value the operator yields, or nothing if the default is
    evaluated instead. -/
def nullCoalesce : Value → Option Value
  | .result true inner _ _ => some inner
  | .result false _ _ _ => none
  | .null => none
  | v => some v

def isSuccess : Value → Bool
  | .result isSuccess _ _ _ => isSuccess
  | .null => false
  | _ => true

/-- Take the wrapper off; a failure and `none` raise an error. -/
def unwrap : Value → Option Value
  | .result true inner _ _ => some inner
  | .result false _ _ _ => none
  | .null => none
  | v => some v

def ensureSuccess : Value → Value
  | .result isSuccess inner code origin => .result isSuccess inner code origin
  | v => .result true v [] []

/-- How `e?` ends: with a value, by leaving the function with one, or with an error. -/
inductive Propagated where
  | value (v : Value)
  | returned (v : Value)
  | raised

/-- In the body of `@main` a failure or `none` raises; elsewhere the function returns it. -/
def propagate (isMain : Bool) (v : Value) : Propagated :=
  if isMain then
    match unwrap v with
    | some inner => .value inner
    | none => .raised
  else if isSuccess v then
    match unwrap v with
    | some inner => .value inner
    | none => .raised
  else .returned v

/-- `e !> f`: a failure and `none` pass, anything else is unwrapped and given to `f`, whose
    value is wrapped unless it is a result. -/
def errorPipe (f : Value → Option Value) (v : Value) : Option Value :=
  if isSuccess v then
    match unwrap v with
    | some inner => (f inner).map ensureSuccess
    | none => none
  else some v

def getFieldOpt (field : Bytes) : Value → Value
  | .record _ fields => (OrderedMap.lookup field fields).getD .null
  | _ => .null

/-- `e?[i]`: an index of the wrong type raises an error. -/
def indexGetOpt (container index : Value) : Option Value :=
  match container, index with
  | .null, _ => some .null
  | .array elements, .integer i =>
    some (if 0 ≤ i.toInt then (elements[i.toInt.toNat]?).getD .null else .null)
  | .array _, _ => none
  | .dictionary entries, .string key => some ((OrderedMap.lookup key entries).getD .null)
  | .dictionary _, _ => none
  | _, _ => some .null

-- The equations of the definitions are derived here, once for all proofs.
section
attribute [local simp] nullCoalesce isSuccess unwrap ensureSuccess propagate getFieldOpt indexGetOpt
end

end Value

end Luma
