-- SUMMARY: Resolved static types, their equality, and assignability.
import Luma.Library.BigEndian
import Mathlib.Tactic.Common

/-! # Static Types

A static type is a kind, a name for the nominal kinds, the types it is built from and,
for functions, a return type. Assignability decides which types may flow into which;
it is covariant in the immutable containers and invariant in the mutable ones. -/

namespace Luma

open Codec

/-- The bytes of a text. -/
def bytes (s : String) : Bytes := s.toUTF8.data.toList

/-- The kinds of static types. -/
inductive TypeKind where
  | array | boolean | channel | choice | decimal | dictionary | func | integer | interface
  | namespace_ | none | number | optional | range | record | reference | result | socket
  | stdlibAny | string | task | tuple | unknown | void
  deriving DecidableEq, Repr

/-- A static type. -/
inductive TypeInfo where
  | mk (kind : TypeKind) (name : Bytes) (innerTypes : List TypeInfo)
      (returnType : Option TypeInfo)

namespace TypeInfo

def kind : TypeInfo → TypeKind
  | .mk kind _ _ _ => kind

def name : TypeInfo → Bytes
  | .mk _ name _ _ => name

def innerTypes : TypeInfo → List TypeInfo
  | .mk _ _ innerTypes _ => innerTypes

def returnType : TypeInfo → Option TypeInfo
  | .mk _ _ _ returnType => returnType

/-! ## Factories -/

def make (kind : TypeKind) : TypeInfo := .mk kind [] [] none

def makeSingleInner (kind : TypeKind) (inner : TypeInfo) : TypeInfo := .mk kind [] [inner] none

def makeArray (element : TypeInfo) : TypeInfo := makeSingleInner .array element

def makeDict (value : TypeInfo) : TypeInfo := makeSingleInner .dictionary value

def makeResult (value error : TypeInfo) : TypeInfo := .mk .result [] [value, error] none

def makeOptional (inner : TypeInfo) : TypeInfo := makeSingleInner .optional inner

def makeTask (inner : TypeInfo) : TypeInfo := makeSingleInner .task inner

def makeReference (inner : TypeInfo) : TypeInfo := makeSingleInner .reference inner

def makeTuple (elements : List TypeInfo) : TypeInfo := .mk .tuple [] elements none

def makeNamed (kind : TypeKind) (name : Bytes) : TypeInfo := .mk kind name [] none

def makeGeneric (kind : TypeKind) (name : Bytes) (typeArgs : List TypeInfo) : TypeInfo :=
  .mk kind name typeArgs none

section Kinds

variable {k : TypeKind} {n : Bytes} {t e : TypeInfo} {ts : List TypeInfo}

@[simp] theorem kind_make : (make k).kind = k := rfl
@[simp] theorem kind_makeArray : (makeArray t).kind = .array := rfl
@[simp] theorem kind_makeDict : (makeDict t).kind = .dictionary := rfl
@[simp] theorem kind_makeResult : (makeResult t e).kind = .result := rfl
@[simp] theorem kind_makeOptional : (makeOptional t).kind = .optional := rfl
@[simp] theorem kind_makeTask : (makeTask t).kind = .task := rfl
@[simp] theorem kind_makeTuple : (makeTuple ts).kind = .tuple := rfl
@[simp] theorem kind_makeGeneric : (makeGeneric k n ts).kind = k := rfl

end Kinds

/-! ## Equality -/

mutual

/-- Nominal types are equal by name and arguments, all others by their components. -/
def equals : TypeInfo → TypeInfo → Bool
  | .mk kind name inner ret, .mk kind' name' inner' ret' =>
    if kind ≠ kind' then false
    else if kind = .record ∨ kind = .interface ∨ kind = .choice then
      if name ≠ name' then false else allEqual inner inner'
    else allEqual inner inner' && returnsEqual ret ret'

def allEqual : List TypeInfo → List TypeInfo → Bool
  | [], [] => true
  | t :: ts, t' :: ts' => equals t t' && allEqual ts ts'
  | _, _ => false

def returnsEqual : Option TypeInfo → Option TypeInfo → Bool
  | none, none => true
  | some t, some t' => equals t t'
  | _, _ => false

end

mutual

theorem equals_refl (t : TypeInfo) : t.equals t = true := by
  cases t with
  | mk kind name inner ret =>
    rw [equals, allEqual_refl inner, returnsEqual_refl ret]
    simp

theorem allEqual_refl (ts : List TypeInfo) : allEqual ts ts = true := by
  cases ts with
  | nil => rw [allEqual]
  | cons t ts => rw [allEqual, equals_refl t, allEqual_refl ts, Bool.and_self]

theorem returnsEqual_refl (ret : Option TypeInfo) : returnsEqual ret ret = true := by
  cases ret with
  | none => rw [returnsEqual]
  | some t => rw [returnsEqual, equals_refl t]

end

/-! ## Assignability -/

/-- Does the type spell "no value"? -/
def isNoValue (t : TypeInfo) : Bool := t.kind = .void ∨ t.kind = .none

end TypeInfo

/-- A choice declaration, by its address and its name. -/
structure ChoiceDeclaration where
  address : Nat
  name : Bytes
  deriving DecidableEq, Repr

/-- What assignability asks the symbol tables: the choice registered under a name, and the
    structural comparison of a record or an interface with an interface. -/
structure SymbolTables where
  choices : Bytes → Option ChoiceDeclaration
  satisfiesInterface (recordName ifaceName : Bytes) (sourceArgs targetArgs : List TypeInfo) : Bool
  satisfiesInterfaceInterface (sourceName targetName : Bytes)
    (sourceArgs targetArgs : List TypeInfo) : Bool
  deriving Inhabited

namespace TypeInfo

/-- Do two names denote one choice declaration, qualified in one place and bare in the other? -/
def isSameChoice (symbols : SymbolTables) (target source : Bytes) : Bool :=
  match symbols.choices target, symbols.choices source with
  | some targetDecl, some sourceDecl => targetDecl.address = sourceDecl.address
  | some targetDecl, none => targetDecl.name = source
  | none, some sourceDecl => sourceDecl.name = target
  | none, none => false

section Assignability

variable (symbols : SymbolTables)

mutual

/-- May a value of type `source` flow to where `target` is expected? -/
def isAssignable : TypeInfo → TypeInfo → Bool
  | .mk targetKind targetName targetInner targetReturn,
    .mk sourceKind sourceName sourceInner sourceReturn =>
    let target : TypeInfo := .mk targetKind targetName targetInner targetReturn
    let source : TypeInfo := .mk sourceKind sourceName sourceInner sourceReturn
    if targetKind = .unknown ∨ sourceKind = .unknown then true
    else if targetKind = .stdlibAny then true
    else if sourceKind = .none then targetKind = .none ∨ targetKind = .optional
    else if sourceKind = .stdlibAny then true
    else if target.equals source then true
    else if targetKind = .number ∧ sourceKind = .integer then true
    else if targetKind = .optional ∧ sourceKind ≠ .optional then
      elementAssignable targetInner (.mk sourceKind sourceName sourceInner sourceReturn)
    else if targetKind = .choice ∧ sourceKind = .choice ∧ targetName ≠ sourceName ∧
        isSameChoice symbols targetName sourceName then
      innerTypesAssignable targetInner sourceInner
    else if targetKind = sourceKind ∧
        (targetKind = .record ∨ targetKind = .interface ∨ targetKind = .choice) ∧
        targetName = sourceName then
      innerTypesAssignable targetInner sourceInner
    else if targetKind = .interface ∧ sourceKind = .record then
      symbols.satisfiesInterface sourceName targetName sourceInner targetInner
    else if targetKind = .interface ∧ sourceKind = .interface then
      symbols.satisfiesInterfaceInterface sourceName targetName sourceInner targetInner
    else if targetKind = sourceKind then
      isContainerAssignable targetKind targetInner sourceInner targetReturn sourceReturn
    else false
termination_by target source => sizeOf target + sizeOf source

/-- Two types of one kind. The immutable containers are covariant, the mutable ones
    invariant, and functions contravariant in their parameters. -/
def isContainerAssignable (kind : TypeKind) (targetInner sourceInner : List TypeInfo)
    (targetReturn sourceReturn : Option TypeInfo) : Bool :=
  match kind with
  | .array | .dictionary | .task | .optional => firstAssignable targetInner sourceInner
  | .channel | .reference =>
    firstAssignable targetInner sourceInner && firstAssignable sourceInner targetInner
  | .result => resultAssignable targetInner sourceInner
  | .func =>
    if targetInner.length ≠ sourceInner.length then false
    else if !allAssignable sourceInner targetInner then false
    else isReturnAssignable targetReturn sourceReturn
  | .tuple =>
    if targetInner.length ≠ sourceInner.length then false
    else allAssignable targetInner sourceInner
  | _ => false
termination_by
  sizeOf targetInner + sizeOf sourceInner + sizeOf targetReturn + sizeOf sourceReturn + 1

/-- A value may be wrapped in an optional of its type, and in an untyped one. -/
def elementAssignable : List TypeInfo → TypeInfo → Bool
  | element :: _, source => isAssignable element source
  | [], _ => true
termination_by targets source => sizeOf targets + sizeOf source

/-- The first components, if both types have one. -/
def firstAssignable : List TypeInfo → List TypeInfo → Bool
  | target :: _, source :: _ => isAssignable target source
  | _, _ => true
termination_by targets sources => sizeOf targets + sizeOf sources

/-- The success types, where `void` and `none` are the same, and the error types if both
    results state one. -/
def resultAssignable : List TypeInfo → List TypeInfo → Bool
  | target :: targetErrors, source :: sourceErrors =>
    if !(target.isNoValue && source.isNoValue) && !isAssignable target source then false
    else firstAssignable targetErrors sourceErrors
  | _, _ => true
termination_by targets sources => sizeOf targets + sizeOf sources

def innerTypesAssignable (target source : List TypeInfo) : Bool :=
  if target.isEmpty || source.isEmpty then true
  else if target.length ≠ source.length then false
  else allAssignable target source
termination_by sizeOf target + sizeOf source + 1

/-- Each of two lists of types of one length, in order. -/
def allAssignable : List TypeInfo → List TypeInfo → Bool
  | target :: targets, source :: sources =>
    isAssignable target source && allAssignable targets sources
  | _, _ => true
termination_by targets sources => sizeOf targets + sizeOf sources

/-- A source without a return type, or with an open one, is accepted; so is any source
    where the target asks for none. -/
def isReturnAssignable : Option TypeInfo → Option TypeInfo → Bool
  | _, none => true
  | none, some _ => true
  | some target, some source =>
    if source.kind = .stdlibAny then true
    else if target.isNoValue && source.isNoValue then true
    else isAssignable target source
termination_by target source => sizeOf target + sizeOf source

end

-- The equations of the definitions are derived here, once for all proofs.
section
attribute [local simp] isAssignable isContainerAssignable elementAssignable firstAssignable
  resultAssignable allAssignable
end

/-- Every type is assignable to itself. -/
theorem isAssignable_refl (t : TypeInfo) : isAssignable symbols t t = true := by
  cases t with
  | mk kind name inner ret =>
    rw [isAssignable]
    by_cases hunknown : kind = .unknown ∨ kind = .unknown
    · rw [if_pos hunknown]
    rw [if_neg hunknown]
    by_cases hany : kind = .stdlibAny
    · rw [if_pos hany]
    rw [if_neg hany]
    by_cases hnone : kind = .none
    · simp [hnone]
    rw [if_neg hnone, if_neg hany]
    simp [equals_refl]

end Assignability

end TypeInfo

end Luma
