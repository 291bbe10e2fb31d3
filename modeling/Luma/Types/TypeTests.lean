-- SUMMARY: Which types `is`, `downcast` and `trusted_downcast` test faithfully.
import Luma.Types.Resolve
import Luma.Types.TypeMatcher
import Luma.Types.WideningLaws

/-! # Soundness of Type Tests

The checker gives the outcome of a test the type its annotation resolves to; the machine
tests the string the compiler writes the annotation as. The two agree on annotations whose
names the machine reads as the checker does: no aliases, no arguments of declared types, no
`result` with its error left out. -/

namespace Luma

open Codec TypePattern ResolutionContext

/-! ## The operators -/

mutual

/-- The string the compiler writes for an annotation. -/
def TypeAnnotation.buildTypeString : TypeAnnotation → Bytes
  | .tuple elementTypes _ _ =>
    match elementTypes with
    | [] => []
    | t :: ts => TypePattern.tuple ( TypeAnnotation.buildTypeStrings (t :: ts))
  | .plain name typeParams _ _ =>
    match typeParams with
    | [] => name
    | t :: ts => generic name ( TypeAnnotation.buildTypeStrings (t :: ts))
  | .function paramTypes _ _ _ =>
    match paramTypes with
    | [] => bytes "function"
    | t :: ts => generic (bytes "function") ( TypeAnnotation.buildTypeStrings (t :: ts))

def TypeAnnotation.buildTypeStrings : List TypeAnnotation → List Bytes
  | [] => []
  | t :: ts => t.buildTypeString :: TypeAnnotation.buildTypeStrings ts

end

@[simp] theorem TypeAnnotation.buildTypeStrings_eq {ts : List TypeAnnotation} :
    TypeAnnotation.buildTypeStrings ts = ts.map TypeAnnotation.buildTypeString := by
  induction ts with
  | nil => rfl
  | cons t ts ih => rw [ TypeAnnotation.buildTypeStrings, ih, List.map_cons]

mutual

/-- How many levels of types an annotation nests. -/
def TypeAnnotation.nesting : TypeAnnotation → Nat
  | .tuple elementTypes _ _ => TypeAnnotation.nestings elementTypes + 1
  | .plain _ typeParams _ _ => TypeAnnotation.nestings typeParams + 1
  | .function paramTypes returnType _ _ =>
    max ( TypeAnnotation.nestings paramTypes) ( TypeAnnotation.returnNesting returnType) + 1

def TypeAnnotation.nestings : List TypeAnnotation → Nat
  | [] => 0
  | t :: ts => max t.nesting ( TypeAnnotation.nestings ts)

def TypeAnnotation.returnNesting : Option TypeAnnotation → Nat
  | none => 0
  | some t => t.nesting

end

theorem TypeAnnotation.nesting_le_nestings {t : TypeAnnotation} {ts : List TypeAnnotation}
    (h : t ∈ ts) : t.nesting ≤ TypeAnnotation.nestings ts := by
  induction ts with
  | nil => exact absurd h List.not_mem_nil
  | cons u ts ih =>
    rw [ TypeAnnotation.nestings]
    rcases List.mem_cons.mp h with rfl | h
    · exact Nat.le_max_left _ _
    · exact (ih h).trans (Nat.le_max_right _ _)

/-- The operators that test a type. -/
inductive TypeOperator where
  | isType | downcast | trustedDowncast
  deriving DecidableEq, Repr

/-- Whether the operator converts the value it vouches for. -/
def TypeOperator.converts : TypeOperator → Bool
  | .isType => false
  | .downcast | .trustedDowncast => true

/-- What the machine runs a test with: what references hold, and how deep it descends. -/
structure Tester where
  referent : Nat → Value
  maxCallDepth : Nat

namespace Tester

variable (m : Tester)

def matchesType (val : Value) (typeName : Bytes) : Bool :=
  TypeMatcher.matchesPattern m.referent m.maxCallDepth val typeName

def cannotDowncast (source target : Bytes) : Bytes :=
  bytes "cannot downcast '" ++ source ++ bytes "' to '" ++ target ++ bytes "'"

def trustedDowncastFailed (expected got : Bytes) : Bytes :=
  bytes "trusted_downcast failed: expected '" ++ expected ++ bytes "', got '" ++ got ++ bytes "'"

def handleIsType (val : Value) (typeName : Bytes) : Value := .bool (m.matchesType val typeName)

def handleDowncast (val : Value) (typeName : Bytes) : Value :=
  if m.matchesType val typeName then
    .result true (NumericWidener.widen m.maxCallDepth val typeName) [] []
  else .result false (.string (cannotDowncast val.typeName typeName)) [] []

def handleTrustedDowncast (val : Value) (typeName : Bytes) : Except Bytes Value :=
  if !m.matchesType val typeName then
    .error (trustedDowncastFailed typeName val.typeName)
  else .ok (NumericWidener.widen m.maxCallDepth val typeName)

/-- The value that the operator vouches for, if the test succeeds: the operand of `is`, what
    the successful `downcast` wraps, and what `trusted_downcast` yields. -/
def vouched (op : TypeOperator) (val : Value) (typeName : Bytes) : Option Value :=
  match op with
  | .isType =>
    match m.handleIsType val typeName with
    | .bool true => some val
    | _ => none
  | .downcast =>
    match m.handleDowncast val typeName with
    | .result true inner _ _ => some inner
    | _ => none
  | .trustedDowncast => (m.handleTrustedDowncast val typeName).toOption

end Tester

/-! ## Agreement -/

namespace TypeTest

open TypeInfo

/-- The values that can be reached from a value. -/
inductive Holds (W : World) (v : Value) : Value → Prop where
  | self : Holds W v v
  | part {u x : Value} (h : Holds W v u) (hx : x ∈ u.children) : Holds W v x
  | referent {address : Nat} (h : Holds W v (.reference address)) :
      Holds W v (W.referent address)

/-- A record or choice value is one of a declared type. -/
def Declared (W : World) : Value → Prop
  | .record typeName fields =>
    ∃ name args, Inhabits W (makeGeneric .record name args) (.record typeName fields)
  | .choice typeName variant fields =>
    ∃ name args, Inhabits W (makeGeneric .choice name args) (.choice typeName variant fields)
  | _ => True

/-- A value that a program can compute: every record and every choice that can be reached
    from it is one of a declared type. -/
def Formed (W : World) (v : Value) : Prop := ∀ u, Holds W v u → Declared W u

/-- The operator vouches for a value only as one of the type the annotation resolves to, and
    for every value of that type. -/
def Agrees (W : World) (maxCallDepth maxParseDepth : Nat) (ctx : ResolutionContext)
    (op : TypeOperator) (ann : TypeAnnotation) : Prop :=
  ∀ v, Formed W v →
    (∀ x, (Tester.mk W.referent maxCallDepth).vouched op v ann.buildTypeString = some x →
      Inhabits W (resolveType maxParseDepth ctx ann) x) ∧
    (Inhabits W (resolveType maxParseDepth ctx ann) v →
      (Tester.mk W.referent maxCallDepth).matchesType v ann.buildTypeString = true)

/-! ## When they agree -/

/-- Does a record that carries this name pass the test for `name`? -/
def bearsName (name typeName : Bytes) : Bool :=
  typeName = name ∨ (isQualifiedName name ∧ typeName = qualifiedMember name)

/-- No record, choice or variant of the program goes by a name. -/
structure Unclaimed (W : World) (name : Bytes) : Prop where
  record : ∀ {declared typeName args types},
    W.recordFields declared typeName args = some types → bearsName name typeName = false
  choice : ∀ {declared typeName variant args types},
    W.variantFields declared typeName variant args = some types → variant ≠ name ∧ typeName ≠ name

/-- The names that the values other than records and choices are displayed by. -/
def builtinTypeNames : List Bytes :=
  [bytes "none", bytes "boolean", bytes "integer", bytes "number", bytes "string", bytes "array",
    bytes "dictionary", bytes "tuple", bytes "result", bytes "range", bytes "function",
    bytes "task", bytes "channel", bytes "socket", bytes "queue", bytes "stack", bytes "set",
    bytes "xml", bytes "key_value_store", bytes "reference", bytes "decimal"]

/-- The built-in types without components whose values the machine displays by their name. -/
def displayedPrimitives : List (Bytes × TypeKind) :=
  [(bytes "boolean", .boolean), (bytes "integer", .integer), (bytes "string", .string),
    (bytes "none", .none), (bytes "socket", .socket), (bytes "decimal", .decimal)]

/-- A name that denotes a record without type arguments, and whose test is passed by the
    values of that record and by no others. -/
structure NamesRecord (W : World) (ctx : ResolutionContext) (name declared : Bytes) : Prop where
  isName : IsName name
  builtin : name ∉ builtinTypeNames
  user : ∀ c : CollectionKind, declared ≠ c.name
  resolved : ∀ {levels isUnique isBorrow},
    resolveTypeAt (levels + 2) ctx (.plain name [] isUnique isBorrow) = makeNamed .record declared
  record : ∀ {other typeName args types}, W.recordFields other typeName args = some types →
    (bearsName name typeName ↔ other = declared ∧ args = [])
  choice : ∀ {other typeName variant args types},
    W.variantFields other typeName variant args = some types → variant ≠ name ∧ typeName ≠ name

/-- A name that denotes a choice without type arguments, and whose test is passed by the
    values of that choice and by no others. -/
structure NamesChoice (W : World) (ctx : ResolutionContext) (name declared : Bytes) : Prop where
  isName : IsName name
  builtin : name ∉ builtinTypeNames
  resolved : ∀ {levels isUnique isBorrow},
    resolveTypeAt (levels + 2) ctx (.plain name [] isUnique isBorrow) = makeNamed .choice declared
  choice : ∀ {other typeName variant args types},
    W.variantFields other typeName variant args = some types →
      (variant = name ∨ typeName = name ↔ other = declared ∧ args = [])
  record : ∀ {other typeName args types}, W.recordFields other typeName args = some types →
    bearsName name typeName = false

/-- A built-in name that stands for the built-in type. -/
structure NamesBuiltin (W : World) (ctx : ResolutionContext) (name : Bytes) : Prop where
  notAlias : ctx.typeAliases name = none
  unclaimed : Unclaimed W name

/-- The annotations that are tested faithfully. `converts` says whether the operator converts
    the integers that face a `number`. -/
inductive Faithful (W : World) (ctx : ResolutionContext) : (converts : Bool) →
    TypeAnnotation → Prop where
  | primitive {converts isUnique isBorrow : Bool} {name : Bytes} {kind : TypeKind}
      (hmem : (name, kind) ∈ displayedPrimitives) (hname : NamesBuiltin W ctx name) :
      Faithful W ctx converts (.plain name [] isUnique isBorrow)
  | number {isUnique isBorrow : Bool} (hname : NamesBuiltin W ctx (bytes "number")) :
      Faithful W ctx true (.plain (bytes "number") [] isUnique isBorrow)
  | record {converts isUnique isBorrow : Bool} {name declared : Bytes}
      (hname : NamesRecord W ctx name declared) :
      Faithful W ctx converts (.plain name [] isUnique isBorrow)
  | choice {converts isUnique isBorrow : Bool} {name declared : Bytes}
      (hname : NamesChoice W ctx name declared) :
      Faithful W ctx converts (.plain name [] isUnique isBorrow)
  | array {converts isUnique isBorrow : Bool} {element : TypeAnnotation}
      (hname : NamesBuiltin W ctx (bytes "array")) (h : Faithful W ctx converts element) :
      Faithful W ctx converts (.plain (bytes "array") [element] isUnique isBorrow)
  | collection {converts isUnique isBorrow : Bool} {c : CollectionKind} {element : TypeAnnotation}
      (hname : NamesBuiltin W ctx c.name) (h : Faithful W ctx converts element) :
      Faithful W ctx converts (.plain c.name [element] isUnique isBorrow)
  | dictionary {converts isUnique isBorrow : Bool} {value : TypeAnnotation}
      (hname : NamesBuiltin W ctx (bytes "dictionary")) (h : Faithful W ctx converts value) :
      Faithful W ctx converts (.plain (bytes "dictionary") [value] isUnique isBorrow)
  | keyedDictionary {converts isUnique isBorrow : Bool} {key value : TypeAnnotation}
      (hname : NamesBuiltin W ctx (bytes "dictionary")) (h : Faithful W ctx converts value)
      (hkey : key.buildTypeString = value.buildTypeString) :
      Faithful W ctx converts (.plain (bytes "dictionary") [key, value] isUnique isBorrow)
  | optional {converts isUnique isBorrow : Bool} {inner : TypeAnnotation}
      (hname : NamesBuiltin W ctx (bytes "optional")) (h : Faithful W ctx converts inner) :
      Faithful W ctx converts (.plain (bytes "optional") [inner] isUnique isBorrow)
  | result {converts isUnique isBorrow : Bool} {value error : TypeAnnotation}
      (hname : NamesBuiltin W ctx (bytes "result")) (hvalue : Faithful W ctx converts value)
      (herror : Faithful W ctx converts error) :
      Faithful W ctx converts (.plain (bytes "result") [value, error] isUnique isBorrow)
  | reference {converts isUnique isBorrow : Bool} {inner : TypeAnnotation}
      (hname : NamesBuiltin W ctx (bytes "reference")) (h : Faithful W ctx false inner) :
      Faithful W ctx converts (.plain (bytes "reference") [inner] isUnique isBorrow)
  | tuple {converts isUnique isBorrow : Bool} {elements : List TypeAnnotation}
      (hne : elements ≠ []) (h : ∀ t ∈ elements, Faithful W ctx converts t) :
      Faithful W ctx converts (.tuple elements isUnique isBorrow)

end TypeTest

end Luma
