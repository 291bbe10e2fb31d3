-- SUMMARY: How the checker compares records and interfaces with interfaces, field by field.
import Luma.Types.Resolve

/-! # Interface Satisfaction

A record or an interface satisfies an interface if it has every field of it with an assignable
type. The types of the fields are resolved with the type parameters of both sides bound, in a
map of bindings that both share. Declarations may refer to themselves: a comparison of two
names that is met again while it is under way is taken for granted. -/

namespace Luma.Interfaces

open Codec

open TypePattern (isQualifiedName makeQualified)

/-- A field of a record or an interface. -/
structure RecordField where
  name : Bytes
  type : TypeAnnotation

/-- A record or an interface. -/
structure TypeDeclaration where
  name : Bytes
  typeParams : List Bytes
  fields : List RecordField

/-- The registries, by the names things are registered under, and the place of the check. -/
structure Symbols where
  records : List (Bytes × TypeDeclaration)
  interfaces : List (Bytes × TypeDeclaration)
  choices : List (Bytes × ChoiceDeclaration)
  typeAliases : Bytes → Option TypeAnnotation
  aliasParams : Bytes → List Bytes
  internalMembers : Bytes → Bool
  currentNamespace : Bytes
  maxParseDepth : Nat

/-- The bindings of type parameters. The binding of a name that was set last comes first. -/
abbrev Bindings := List (Bytes × TypeInfo)

variable (sym : Symbols)

/-- `resolve_type` under bindings. -/
def resolveType (bindings : Bindings) (ann : TypeAnnotation) : TypeInfo :=
  ResolutionContext.resolveType sym.maxParseDepth
    { typeAliases := sym.typeAliases
      aliasParams := sym.aliasParams
      records := fun name => (OrderedMap.lookup name sym.records).map TypeDeclaration.name
      choices := fun name => (OrderedMap.lookup name sym.choices).map ChoiceDeclaration.name
      interfaces := fun name => (OrderedMap.lookup name sym.interfaces).map TypeDeclaration.name
      internalMembers := sym.internalMembers
      currentNamespace := sym.currentNamespace
      bindings := bindings
      resolvingAliases := [] } ann

/-- `find_visible`: by the name, or by the name qualified with the current namespace. -/
def findVisible (declarations : List (Bytes × TypeDeclaration)) (name : Bytes) : Option TypeDeclaration :=
  match OrderedMap.lookup name declarations with
  | some declaration => some declaration
  | none =>
    if sym.currentNamespace ≠ [] ∧ ¬ isQualifiedName name then
      OrderedMap.lookup (makeQualified sym.currentNamespace name) declarations
    else none

/-! ## The comparison of fields -/

/-- Bind the parameters that have an argument, under a prefix. -/
def addPrefixedBindings (pre : Bytes) : (params : List Bytes) → (typeArgs : List TypeInfo) → Bindings → Bindings
  | param :: params, arg :: typeArgs, bindings =>
    addPrefixedBindings pre params typeArgs ((pre ++ param, arg) :: bindings)
  | _, _, bindings => bindings

/-- Bind the parameters as they are bound under a prefix. -/
def aliasPrefixedToBare (pre : Bytes) : (params : List Bytes) → Bindings → Bindings
  | [], bindings => bindings
  | param :: params, bindings =>
    aliasPrefixedToBare pre params
      (match OrderedMap.lookup (pre ++ param) bindings with
        | some type => (param, type) :: bindings
        | none => bindings)

/-- One side of a comparison. -/
structure Side where
  pre : Bytes
  params : List Bytes
  typeArgs : List TypeInfo
  fields : List RecordField

/-- The loop over the fields of the target. `tablesAt` answers comparisons met under bindings. -/
def checkFields (tablesAt : Bindings → SymbolTables) (source target : Side) :
    (targetFields : List RecordField) → Bindings → Bool
  | [], _ => true
  | targetField :: targetFields, bindings =>
    match source.fields.find? fun f => f.name = targetField.name with
    | none => false
    | some sourceField =>
      let bindings := aliasPrefixedToBare target.pre target.params bindings
      let targetFieldType := resolveType sym bindings targetField.type
      let bindings := aliasPrefixedToBare source.pre source.params bindings
      let sourceFieldType := resolveType sym bindings sourceField.type
      if !TypeInfo.isAssignable (tablesAt bindings) targetFieldType sourceFieldType then false
      else checkFields tablesAt source target targetFields bindings

/-- `check_structural_satisfaction`. What it binds is gone afterwards. -/
def checkStructuralSatisfaction (tablesAt : Bindings → SymbolTables) (source target : Side)
    (bindings : Bindings) : Bool :=
  checkFields sym tablesAt source target target.fields
    (addPrefixedBindings target.pre target.params target.typeArgs
      (addPrefixedBindings source.pre source.params source.typeArgs bindings))

/-! ## The comparisons under way -/

/-- The names of a comparison: the source's with a mark of its kind, and the target's. -/
abbrev Key := Bytes × Bytes

def recordMark : Bytes := bytes "rec:"

def interfaceMark : Bytes := bytes "iface:"

/-- Every name that `findVisible` can find: the registered names, and those that the current
    namespace qualifies. -/
def visibleNames (declarations : List (Bytes × TypeDeclaration)) : List Bytes :=
  OrderedMap.keys declarations ++
    (OrderedMap.keys declarations).map fun name => name.drop (sym.currentNamespace.length + 1)

/-- The keys of all comparisons that look at fields. -/
def allKeys : List Key :=
  ((visibleNames sym sym.records).map (recordMark ++ ·) ++
      (visibleNames sym sym.interfaces).map (interfaceMark ++ ·)).flatMap fun source =>
    (visibleNames sym sym.interfaces).map fun target => (source, target)

/-- How many comparisons are not under way. -/
def remaining (inProgress : List Key) : Nat := ((allKeys sym).filter (· ∉ inProgress)).length

-- The equations of the definitions are derived here, once for all proofs.
section
attribute [local simp] findVisible addPrefixedBindings aliasPrefixedToBare checkFields
end

variable {sym} in
theorem mem_visibleNames {declarations : List (Bytes × TypeDeclaration)} {name : Bytes}
    {declaration : TypeDeclaration} (h : findVisible sym declarations name = some declaration) :
    name ∈ visibleNames sym declarations := by
  have hkey {key : Bytes} {d : TypeDeclaration} (hlookup : OrderedMap.lookup key declarations = some d) :
      key ∈ OrderedMap.keys declarations := by
    by_contra hnot
    rw [OrderedMap.lookup_eq_none.mpr hnot] at hlookup
    cases hlookup
  rw [visibleNames, List.mem_append]
  unfold findVisible at h
  split at h
  next d hlookup => exact .inl (hkey hlookup)
  next =>
    split at h
    next hqualified =>
      right
      refine List.mem_map.mpr ⟨_, hkey h, ?_⟩
      rw [makeQualified, if_neg hqualified.1]
      simp
    next => cases h

variable {sym} in
/-- One comparison more is under way. -/
theorem remaining_lt {inProgress : List Key} {key : Key} (hkey : key ∈ allKeys sym)
    (hnew : key ∉ inProgress) : remaining sym (key :: inProgress) < remaining sym inProgress := by
  have hsplit : (allKeys sym).filter (· ∉ key :: inProgress) =
      ((allKeys sym).filter (· ∉ inProgress)).filter (· ≠ key) := by
    rw [List.filter_filter]
    refine List.filter_congr fun k _ => ?_
    simp [not_or]
  rw [remaining, remaining, hsplit, List.length_filter_lt_length_iff_exists]
  exact ⟨key, List.mem_filter.mpr ⟨hkey, by simpa using hnew⟩, by simp⟩

variable {sym} in
theorem record_key_mem {record iface : Bytes} {r i : TypeDeclaration}
    (hr : findVisible sym sym.records record = some r) (hi : findVisible sym sym.interfaces iface = some i) :
    (recordMark ++ record, iface) ∈ allKeys sym := by
  refine List.mem_flatMap.mpr ⟨recordMark ++ record, ?_, ?_⟩
  · exact List.mem_append_left _ (List.mem_map_of_mem (mem_visibleNames hr))
  · exact List.mem_map_of_mem (f := fun target => (recordMark ++ record, target)) (mem_visibleNames hi)

variable {sym} in
theorem interface_key_mem {source iface : Bytes} {s i : TypeDeclaration}
    (hs : findVisible sym sym.interfaces source = some s) (hi : findVisible sym sym.interfaces iface = some i) :
    (interfaceMark ++ source, iface) ∈ allKeys sym := by
  refine List.mem_flatMap.mpr ⟨interfaceMark ++ source, ?_, ?_⟩
  · exact List.mem_append_right _ (List.mem_map_of_mem (mem_visibleNames hs))
  · exact List.mem_map_of_mem (f := fun target => (interfaceMark ++ source, target)) (mem_visibleNames hi)

def recordSide (declaration : TypeDeclaration) (typeArgs : List TypeInfo) : Side :=
  ⟨bytes "rec:", declaration.typeParams, typeArgs, declaration.fields⟩

def ifaceSide (declaration : TypeDeclaration) (typeArgs : List TypeInfo) : Side :=
  ⟨bytes "iface:", declaration.typeParams, typeArgs, declaration.fields⟩

def srcSide (declaration : TypeDeclaration) (typeArgs : List TypeInfo) : Side :=
  ⟨bytes "src:", declaration.typeParams, typeArgs, declaration.fields⟩

def tgtSide (declaration : TypeDeclaration) (typeArgs : List TypeInfo) : Side :=
  ⟨bytes "tgt:", declaration.typeParams, typeArgs, declaration.fields⟩

/-- `satisfies_interface` and `satisfies_interface_interface`, with comparisons under way.
    They end: each comparison inside another is of other names. -/
def satisfactionTables (inProgress : List Key) (bindings : Bindings) : SymbolTables :=
  { choices := fun name => OrderedMap.lookup name sym.choices
    satisfiesInterface := fun record iface sourceArgs targetArgs =>
      match _hr : findVisible sym sym.records record, _hi : findVisible sym sym.interfaces iface with
      | some recordDecl, some ifaceDecl =>
        if _h : (recordMark ++ record, iface) ∈ inProgress then true
        else
          checkStructuralSatisfaction sym
            (fun bindings => satisfactionTables ((recordMark ++ record, iface) :: inProgress) bindings)
            (recordSide recordDecl sourceArgs) (ifaceSide ifaceDecl targetArgs) bindings
      | _, _ => false
    satisfiesInterfaceInterface := fun source iface sourceArgs targetArgs =>
      match _hs : findVisible sym sym.interfaces source, _hi : findVisible sym sym.interfaces iface with
      | some sourceDecl, some ifaceDecl =>
        if _h : (interfaceMark ++ source, iface) ∈ inProgress then true
        else
          checkStructuralSatisfaction sym
            (fun bindings => satisfactionTables ((interfaceMark ++ source, iface) :: inProgress) bindings)
            (srcSide sourceDecl sourceArgs) (tgtSide ifaceDecl targetArgs) bindings
      | _, _ => false }
termination_by remaining sym inProgress
decreasing_by
  · exact remaining_lt (record_key_mem _hr _hi) _h
  · exact remaining_lt (interface_key_mem _hs _hi) _h

end Luma.Interfaces
