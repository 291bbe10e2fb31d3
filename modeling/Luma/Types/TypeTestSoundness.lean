-- SUMMARY: Type tests agree with the static types on the annotations that are tested faithfully.
import Luma.Types.TypeTests

/-! # Type Tests Agree with Static Types

The proof goes by the annotation. For each kind of type, the machine's test of one layer
comes apart into tests of the components, and so does inhabiting the static type. -/

namespace Luma

open Codec TypePattern
open ResolutionContext (resolveTypeAt resolveType resolveNamedType)

/-! ## Values by the names of their types -/

namespace Value

/-- Values that carry a declared name. -/
def isNominal : Value → Bool
  | .record .. | .choice .. => true
  | _ => false

end Value

namespace TypeTest

open TypeInfo

variable {W : World} {ctx : ResolutionContext}

theorem typeName_mem {v : Value} (h : v.isNominal = false) : v.typeName ∈ builtinTypeNames := by
  cases v <;> simp_all [Value.isNominal, Value.typeName, Value.displayTypeName, builtinTypeNames]

/-- A record type that is no collection describes records that the program declares. -/
theorem record_inv {name : Bytes} {args : List TypeInfo} {v : Value}
    (huser : ∀ c : CollectionKind, name ≠ c.name)
    (h : Inhabits W (makeGeneric .record name args) v) :
    ∃ typeName fields types, v = .record typeName fields ∧
      W.recordFields name typeName args = some types := by
  generalize hty : makeGeneric .record name args = t at h
  cases h with
  | record _ hdecl =>
    simp only [makeGeneric, TypeInfo.mk.injEq, and_true, true_and] at hty
    obtain ⟨rfl, rfl⟩ := hty
    exact ⟨_, _, _, rfl, hdecl⟩
  | @collection c =>
    simp only [makeCollection, makeGeneric, TypeInfo.mk.injEq, and_true, true_and] at hty
    exact absurd hty.1 (huser c)
  | _ => simp [makeGeneric, make, makeOptional, makeArray, makeDict, makeResult, makeTuple,
      makeTask, makeReference, makeSingleInner] at hty

/-- A record that inhabits a record type is declared as one of it. -/
theorem record_declared {name typeName : Bytes} {args : List TypeInfo}
    {fields : List (Bytes × Value)}
    (h : Inhabits W (makeGeneric .record name args) (.record typeName fields)) :
    ∃ types, W.recordFields name typeName args = some types := by
  generalize hty : makeGeneric .record name args = t at h
  generalize hv : Value.record typeName fields = v at h
  cases h with
  | record _ hdecl =>
    simp only [makeGeneric, TypeInfo.mk.injEq, and_true, true_and] at hty
    obtain ⟨rfl, rfl⟩ := hty
    cases hv
    exact ⟨_, hdecl⟩
  | @collection c => cases c <;> cases hv
  | _ => simp [makeGeneric, make, makeOptional, makeArray, makeDict, makeResult, makeTuple,
      makeTask, makeReference, makeSingleInner] at hty

theorem choice_inv {name : Bytes} {args : List TypeInfo} {v : Value}
    (h : Inhabits W (makeGeneric .choice name args) v) :
    ∃ typeName variant fields types, v = .choice typeName variant fields ∧
      W.variantFields name typeName variant args = some types := by
  generalize hty : makeGeneric .choice name args = t at h
  cases h with
  | choice hdecl =>
    simp only [makeGeneric, TypeInfo.mk.injEq, and_true, true_and] at hty
    obtain ⟨rfl, rfl⟩ := hty
    exact ⟨_, _, _, _, rfl, hdecl⟩
  | _ => simp [makeGeneric, make, makeOptional, makeArray, makeDict, makeResult, makeTuple,
      makeTask, makeReference, makeSingleInner, makeCollection] at hty

theorem reference_inv {t : TypeInfo} {v : Value} (h : Inhabits W (makeReference t) v) :
    ∃ address, v = .reference address ∧ Inhabits W t (W.referent address) := by
  cases h with
  | reference h => exact ⟨_, rfl, h⟩

theorem displayedPrimitives_mem {name : Bytes} {kind : TypeKind}
    (h : (name, kind) ∈ displayedPrimitives) :
    IsName name ∧ name ≠ bytes "number" ∧ (name, kind) ∈ primitiveTypes := by
  simp only [displayedPrimitives, List.mem_cons, List.not_mem_nil, or_false,
    Prod.mk.injEq] at h
  obtain ⟨rfl, rfl⟩ | ⟨rfl, rfl⟩ | ⟨rfl, rfl⟩ | ⟨rfl, rfl⟩ | ⟨rfl, rfl⟩ | ⟨rfl, rfl⟩ := h
  all_goals decide

/-- The built-in types without components describe the values displayed by their names. -/
theorem inhabits_primitive {name : Bytes} {kind : TypeKind} {v : Value}
    (hmem : (name, kind) ∈ displayedPrimitives) :
    Inhabits W (make kind) v ↔ v.isNominal = false ∧ v.typeName = name := by
  simp only [displayedPrimitives, List.mem_cons, List.not_mem_nil, or_false,
    Prod.mk.injEq] at hmem
  obtain ⟨rfl, rfl⟩ | ⟨rfl, rfl⟩ | ⟨rfl, rfl⟩ | ⟨rfl, rfl⟩ | ⟨rfl, rfl⟩ | ⟨rfl, rfl⟩ := hmem
  all_goals
    constructor
    · intro h
      cases h
      exact ⟨rfl, rfl⟩
    · rintro ⟨hv, h⟩
      cases v with
      | record => cases hv
      | choice => cases hv
      | _ =>
        first
        | constructor
        | simp only [Value.typeName, Value.displayTypeName] at h
          exact absurd h (by decide)

/-! ## Formed values -/

theorem Holds.trans {v u x : Value} (h : Holds W v u) (hx : Holds W u x) : Holds W v x := by
  induction hx with
  | self => exact h
  | part _ hmem ih => exact ih.part hmem
  | referent _ ih => exact ih.referent

theorem Formed.holds {v u : Value} (h : Formed W v) (hu : Holds W v u) : Formed W u :=
  fun x hx => h x (hu.trans hx)

theorem Formed.child {v u : Value} (h : Formed W v) (hu : u ∈ v.children) : Formed W u :=
  h.holds (Holds.self.part hu)

theorem Formed.referent {address : Nat} (h : Formed W (.reference address)) :
    Formed W (W.referent address) :=
  h.holds Holds.self.referent

/-- A formed value whose type name nothing in the program goes by is neither a record nor a
    choice. -/
theorem not_nominal {v : Value} {name : Bytes} (hform : Formed W v) (hname : Unclaimed W name)
    (h : v.typeName = name) : v.isNominal = false := by
  have hdecl := hform v .self
  cases v with
  | record typeName fields =>
    obtain ⟨declared, args, hinh⟩ := hdecl
    obtain ⟨types, htypes⟩ := record_declared hinh
    have hbears := hname.record htypes
    simp only [Value.typeName] at h
    simp [bearsName, h] at hbears
  | choice typeName variant fields =>
    obtain ⟨declared, args, hinh⟩ := hdecl
    obtain ⟨_, _, _, types, heq, htypes⟩ := choice_inv hinh
    cases heq
    exact absurd h (hname.choice htypes).2
  | _ => rfl

/-- The same for a value that the name tests. -/
theorem not_nominal_of_matches {v : Value} {name : Bytes} (hform : Formed W v)
    (hname : Unclaimed W name)
    (h : TypeMatcher.matchesSimpleType v ⟨.simple, name, []⟩ = true) : v.isNominal = false := by
  have hdecl := hform v .self
  cases v with
  | record typeName fields =>
    obtain ⟨declared, args, hinh⟩ := hdecl
    obtain ⟨types, htypes⟩ := record_declared hinh
    have hbears : bearsName name typeName = true := h
    rw [hname.record htypes] at hbears
    cases hbears
  | choice typeName variant fields =>
    obtain ⟨declared, args, hinh⟩ := hdecl
    obtain ⟨_, _, _, types, heq, htypes⟩ := choice_inv hinh
    cases heq
    obtain ⟨hvariant, htype⟩ := hname.choice htypes
    simp [TypeMatcher.matchesSimpleType, hvariant, htype] at h
  | _ => rfl

section Shapes

variable {v : Value}

theorem array_of_typeName (hv : v.isNominal = false) (h : v.typeName = bytes "array") :
    ∃ vs, v = .array vs := by
  cases v with
  | array vs => exact ⟨vs, rfl⟩
  | record => cases hv
  | choice => cases hv
  | _ =>
    simp only [Value.typeName, Value.displayTypeName] at h
    exact absurd h (by decide)

theorem dictionary_of_typeName (hv : v.isNominal = false) (h : v.typeName = bytes "dictionary") :
    ∃ entries, v = .dictionary entries := by
  cases v with
  | dictionary entries => exact ⟨entries, rfl⟩
  | record => cases hv
  | choice => cases hv
  | _ =>
    simp only [Value.typeName, Value.displayTypeName] at h
    exact absurd h (by decide)

theorem result_of_typeName (hv : v.isNominal = false) (h : v.typeName = bytes "result") :
    ∃ isSuccess inner code origin, v = .result isSuccess inner code origin := by
  cases v with
  | result isSuccess inner code origin => exact ⟨isSuccess, inner, code, origin, rfl⟩
  | record => cases hv
  | choice => cases hv
  | _ =>
    simp only [Value.typeName, Value.displayTypeName] at h
    exact absurd h (by decide)

theorem reference_of_typeName (hv : v.isNominal = false) (h : v.typeName = bytes "reference") :
    ∃ address, v = .reference address := by
  cases v with
  | reference address => exact ⟨address, rfl⟩
  | record => cases hv
  | choice => cases hv
  | _ =>
    simp only [Value.typeName, Value.displayTypeName] at h
    exact absurd h (by decide)

theorem collection_of_typeName {c : CollectionKind} (hv : v.isNominal = false)
    (h : v.typeName = c.name) : ∃ vs, v = c.value vs := by
  cases c with
  | set =>
    cases v with
    | set vs => exact ⟨vs, rfl⟩
    | record => cases hv
    | choice => cases hv
    | _ =>
      simp only [Value.typeName, Value.displayTypeName] at h
      exact absurd h (by decide)
  | queue =>
    cases v with
    | queue vs => exact ⟨vs, rfl⟩
    | record => cases hv
    | choice => cases hv
    | _ =>
      simp only [Value.typeName, Value.displayTypeName] at h
      exact absurd h (by decide)
  | stack =>
    cases v with
    | stack vs => exact ⟨vs, rfl⟩
    | record => cases hv
    | choice => cases hv
    | _ =>
      simp only [Value.typeName, Value.displayTypeName] at h
      exact absurd h (by decide)

end Shapes

/-! ## Resolving -/

section Resolving

variable {levels : Nat} {name : Bytes} {isUnique isBorrow : Bool}

theorem resolveTypeAt_plain {typeParams : List TypeAnnotation} {t : TypeInfo}
    (halias : ctx.typeAliases name = none)
    (h : resolveNamedType ctx (resolveTypeAt levels ctx) name typeParams = t)
    (hkind : t.kind ≠ .unknown) :
    resolveTypeAt (levels + 1) ctx (.plain name typeParams isUnique isBorrow) = t := by
  rw [resolveTypeAt, halias]
  simp only [h]
  rw [if_neg fun hunknown => hkind hunknown.1]

theorem resolveTypeAt_primitive {kind : TypeKind} (hmem : (name, kind) ∈ primitiveTypes)
    (halias : ctx.typeAliases name = none) :
    resolveTypeAt (levels + 1) ctx (.plain name [] isUnique isBorrow) = make kind := by
  simp only [primitiveTypes, List.mem_cons, List.not_mem_nil, or_false, Prod.mk.injEq] at hmem
  apply resolveTypeAt_plain halias
  · obtain ⟨rfl, rfl⟩ | ⟨rfl, rfl⟩ | ⟨rfl, rfl⟩ | ⟨rfl, rfl⟩ | ⟨rfl, rfl⟩ | ⟨rfl, rfl⟩ |
      ⟨rfl, rfl⟩ | ⟨rfl, rfl⟩ := hmem <;> rfl
  · obtain ⟨-, rfl⟩ | ⟨-, rfl⟩ | ⟨-, rfl⟩ | ⟨-, rfl⟩ | ⟨-, rfl⟩ | ⟨-, rfl⟩ | ⟨-, rfl⟩ |
      ⟨-, rfl⟩ := hmem <;> decide

theorem resolveTypeAt_array {t : TypeAnnotation} (h : ctx.typeAliases (bytes "array") = none) :
    resolveTypeAt (levels + 1) ctx (.plain (bytes "array") [t] isUnique isBorrow) =
      makeArray (resolveTypeAt levels ctx t) :=
  resolveTypeAt_plain h rfl nofun

theorem resolveTypeAt_optional {t : TypeAnnotation}
    (h : ctx.typeAliases (bytes "optional") = none) :
    resolveTypeAt (levels + 1) ctx (.plain (bytes "optional") [t] isUnique isBorrow) =
      makeOptional (resolveTypeAt levels ctx t) :=
  resolveTypeAt_plain h rfl nofun

theorem resolveTypeAt_reference {t : TypeAnnotation}
    (h : ctx.typeAliases (bytes "reference") = none) :
    resolveTypeAt (levels + 1) ctx (.plain (bytes "reference") [t] isUnique isBorrow) =
      makeReference (resolveTypeAt levels ctx t) :=
  resolveTypeAt_plain h rfl nofun

theorem resolveTypeAt_dictionary {t : TypeAnnotation}
    (h : ctx.typeAliases (bytes "dictionary") = none) :
    resolveTypeAt (levels + 1) ctx (.plain (bytes "dictionary") [t] isUnique isBorrow) =
      makeDict (resolveTypeAt levels ctx t) :=
  resolveTypeAt_plain h rfl nofun

/-- The type of the keys is not even resolved. -/
theorem resolveTypeAt_keyedDictionary {k t : TypeAnnotation}
    (h : ctx.typeAliases (bytes "dictionary") = none) :
    resolveTypeAt (levels + 1) ctx (.plain (bytes "dictionary") [k, t] isUnique isBorrow) =
      makeDict (resolveTypeAt levels ctx t) :=
  resolveTypeAt_plain h rfl nofun

theorem resolveTypeAt_result {t e : TypeAnnotation}
    (h : ctx.typeAliases (bytes "result") = none) :
    resolveTypeAt (levels + 1) ctx (.plain (bytes "result") [t, e] isUnique isBorrow) =
      makeResult (resolveTypeAt levels ctx t) (resolveTypeAt levels ctx e) :=
  resolveTypeAt_plain h rfl nofun

theorem resolveTypeAt_collection {c : CollectionKind} {t : TypeAnnotation}
    (h : ctx.typeAliases c.name = none) :
    resolveTypeAt (levels + 1) ctx (.plain c.name [t] isUnique isBorrow) =
      makeCollection c (resolveTypeAt levels ctx t) := by
  apply resolveTypeAt_plain h
  · cases c <;> rfl
  · nofun

end Resolving

/-! ## One layer of a test -/

open TypeMatcher NumericWidener

section Layers

variable {referent : Nat → Value} {remaining : Nat} {v : Value} {base p : Bytes}
  {params : List Bytes}

theorem matchesAt_name (h : IsName p) :
    matchesAt referent (remaining + 1) v p = matchesSimpleType v ⟨.simple, p, []⟩ := by
  rw [matchesAt, parse_name h]

theorem matchesAt_generic (hbase : IsName base) (hne : params ≠ [])
    (h : ∀ q ∈ params, Component q) :
    matchesAt referent (remaining + 1) v (generic base params) =
      matchesParameterizedType referent (matchesAt referent remaining) v
        ⟨.parameterized, base, params⟩ := by
  rw [matchesAt, parse_generic hbase hne h]

theorem matchesAt_tuple (hne : params ≠ []) (h : ∀ q ∈ params, Component q) :
    matchesAt referent (remaining + 1) v (tuple params) =
      matchesTupleType (matchesAt referent remaining) v ⟨.tuple, [], params⟩ := by
  rw [matchesAt, parse_tuple hne h]

/-- Every pattern with parameters but an optional one fixes the name of the value's type. -/
theorem typeName_of_matches {isMatch : Value → Bytes → Bool} (hbase : base ≠ bytes "optional")
    (h : matchesParameterizedType referent isMatch v ⟨.parameterized, base, p :: params⟩ = true) :
    v.typeName = base := by
  simp only [matchesParameterizedType, if_neg hbase] at h
  by_contra hne
  have hname : matchesName ⟨.parameterized, base, p :: params⟩ v.typeName = false := by
    simpa [matchesName] using hne
  simp [hname] at h

/-- A name whose values are displayed by it is tested by it. -/
theorem matchesSimpleType_eq (hv : v.isNominal = false) :
    matchesSimpleType v ⟨.simple, p, []⟩ = true ↔
      v.typeName = p ∨ (p = bytes "number" ∧ v.typeName = bytes "integer") := by
  cases v with
  | record => cases hv
  | choice => cases hv
  | _ => simp [matchesSimpleType, matchesName]

end Layers

/-- The value that goes on where a test has succeeded. -/
def carried (converts : Bool) (levels : Nat) (v : Value) (pattern : Bytes) : Value :=
  if converts then (widenImpl levels v pattern).getD v else v

section Carried

variable {converts : Bool} {levels : Nat} {p : Bytes}

theorem carried_name {v : Value} (h : IsName p) (hnumber : p ≠ bytes "number") :
    carried converts (levels + 1) v p = v := by
  cases converts with
  | false => rfl
  | true => rw [carried, if_pos rfl, widenImpl, if_neg hnumber, parse_name h]; rfl

theorem carried_array {vs : List Value} (h : Component p) :
    carried converts (levels + 1) (.array vs) (generic (bytes "array") [p]) =
      .array (vs.map fun v => carried converts levels v p) := by
  cases converts with
  | false => simp [carried]
  | true =>
    simp only [carried, if_true]
    rw [widenImpl_generic isName_array (List.cons_ne_nil _ _) (by simpa using h),
      widenParameterized, if_neg (by decide)]
    simp only [if_true]
    exact widenElements_getD

theorem carried_collection {c : CollectionKind} {vs : List Value} (h : Component p) :
    carried converts (levels + 1) (c.value vs) (generic c.name [p]) =
      c.value (vs.map fun v => carried converts levels v p) := by
  have hbase : IsName c.name := by cases c <;> decide
  cases converts with
  | false => simp [carried]
  | true =>
    simp only [carried, if_true]
    rw [widenImpl_generic hbase (List.cons_ne_nil _ _) (by simpa using h)]
    cases c <;> exact widenElements_getD

theorem carried_dictionary {entries : List (Bytes × Value)} {params : List Bytes}
    (h : ∀ q ∈ p :: params, Component q) :
    carried converts (levels + 1) (.dictionary entries) (generic (bytes "dictionary") (p :: params)) =
      .dictionary (entries.map fun entry => (entry.1, carried converts levels entry.2 p)) := by
  cases converts with
  | false => simp [carried]
  | true =>
    simp only [carried, if_true]
    rw [widenImpl_generic isName_dictionary (List.cons_ne_nil _ _) h, widenParameterized,
      if_neg (by decide)]
    simp only [if_true]
    rw [widenElements_getD]
    congr 1
    apply List.map_congr_left
    intro entry _
    cases widenImpl levels entry.2 p <;> rfl

theorem carried_optional {v : Value} (hv : v ≠ .null) (h : Component p) :
    carried converts (levels + 1) v (generic (bytes "optional") [p]) =
      carried converts levels v p := by
  cases converts with
  | false => rfl
  | true =>
    simp only [carried, if_true]
    rw [widenImpl_generic isName_optional (List.cons_ne_nil _ _) (by simpa using h)]
    cases v <;> first | exact absurd rfl hv | rfl

theorem carried_result {isSuccess : Bool} {inner : Value} {code origin q : Bytes}
    (hp : Component p) (hq : Component q) :
    carried converts (levels + 1) (.result isSuccess inner code origin)
        (generic (bytes "result") [p, q]) =
      .result isSuccess (carried converts levels inner (if isSuccess then p else q))
        code origin := by
  cases converts with
  | false => simp [carried]
  | true =>
    simp only [carried, if_true]
    rw [widenImpl_generic isName_result (List.cons_ne_nil _ _) (by simp [hp, hq]),
      widenParameterized, if_neg (by decide)]
    simp only [if_true, List.headD_cons]
    cases widenImpl levels inner (if isSuccess then p else q) <;> rfl

/-- What a reference holds is not converted. -/
theorem carried_reference {address : Nat} (h : Component p) :
    carried converts (levels + 1) (.reference address) (generic (bytes "reference") [p]) =
      .reference address := by
  cases converts with
  | false => rfl
  | true =>
    simp only [carried, if_true]
    rw [widenImpl_generic (by decide) (List.cons_ne_nil _ _) (by simpa using h)]
    rfl

theorem carried_tuple {vs : List Value} {params : List Bytes} (hne : params ≠ [])
    (h : ∀ q ∈ params, Component q) (hlen : vs.length = params.length) :
    carried converts (levels + 1) (.tuple vs) (tuple params) =
      .tuple ((vs.zip params).map fun pair => carried converts levels pair.1 pair.2) := by
  cases converts with
  | false =>
    simp only [carried, Bool.false_eq_true, if_false]
    rw [show (fun pair : Value × Bytes => pair.1) = Prod.fst from rfl, List.map_fst_zip (by omega)]
  | true =>
    simp only [carried, if_true]
    rw [widenImpl_tuple hne h, widenTuple_getD hlen]

end Carried

/-! ## Agreement, one kind of type at a time -/

/-- The test agrees with the static type, for a bounded depth of nesting. -/
structure AgreesAt (W : World) (ctx : ResolutionContext) (converts : Bool)
    (remaining levels : Nat) (ann : TypeAnnotation) : Prop where
  sound : ∀ v, Formed W v → matchesAt W.referent remaining v ann.buildTypeString = true →
    Inhabits W (resolveTypeAt levels ctx ann) (carried converts remaining v ann.buildTypeString)
  complete : ∀ v, Formed W v → Inhabits W (resolveTypeAt levels ctx ann) v →
    matchesAt W.referent remaining v ann.buildTypeString = true

namespace AgreesAt

variable {converts isUnique isBorrow : Bool} {remaining levels : Nat} {t e : TypeAnnotation}

theorem primitive {name : Bytes} {kind : TypeKind} (hmem : (name, kind) ∈ displayedPrimitives)
    (hname : NamesBuiltin W ctx name) :
    AgreesAt W ctx converts (remaining + 1) (levels + 1) (.plain name [] isUnique isBorrow) := by
  obtain ⟨hisName, hnumber, hprimitive⟩ := displayedPrimitives_mem hmem
  have hstr : ( TypeAnnotation.plain name [] isUnique isBorrow).buildTypeString = name := rfl
  have hres : resolveTypeAt (levels + 1) ctx (.plain name [] isUnique isBorrow) = make kind :=
    resolveTypeAt_primitive hprimitive hname.notAlias
  constructor
  · intro v hform hmatch
    rw [hstr, matchesAt_name hisName] at hmatch
    have hv := not_nominal_of_matches hform hname.unclaimed hmatch
    rw [hstr, hres, carried_name hisName hnumber]
    obtain htype | ⟨hnum, -⟩ := (matchesSimpleType_eq hv).mp hmatch
    · exact (inhabits_primitive hmem).mpr ⟨hv, htype⟩
    · exact absurd hnum hnumber
  · intro v _ hinh
    rw [hres] at hinh
    obtain ⟨hv, htype⟩ := (inhabits_primitive hmem).mp hinh
    rw [hstr, matchesAt_name hisName]
    exact (matchesSimpleType_eq hv).mpr (.inl htype)

/-- An integer passes the test for `number` and is converted. -/
theorem number (hname : NamesBuiltin W ctx (bytes "number")) :
    AgreesAt W ctx true (remaining + 1) (levels + 1)
      (.plain (bytes "number") [] isUnique isBorrow) := by
  have hstr : ( TypeAnnotation.plain (bytes "number") [] isUnique isBorrow).buildTypeString =
    bytes "number" := rfl
  have hres : resolveTypeAt (levels + 1) ctx (.plain (bytes "number") [] isUnique isBorrow) =
      make .number :=
    resolveTypeAt_primitive (by decide) hname.notAlias
  constructor
  · intro v hform hmatch
    rw [hstr, matchesAt_name isName_number] at hmatch
    have hv := not_nominal_of_matches hform hname.unclaimed hmatch
    rw [hstr, hres, carried, if_pos rfl, widenImpl_number]
    have htype := (matchesSimpleType_eq hv).mp hmatch
    cases v with
    | integer n => exact .number _
    | number x => exact .number x
    | record => cases hv
    | choice => cases hv
    | _ =>
      simp only [Value.typeName, Value.displayTypeName] at htype
      exact absurd htype (by decide)
  · intro v _ hinh
    rw [hres] at hinh
    obtain ⟨x, rfl⟩ := hinh.number_inv
    rw [hstr, matchesAt_name isName_number]
    exact (matchesSimpleType_eq rfl).mpr (.inl rfl)

theorem record {name declared : Bytes} (hname : NamesRecord W ctx name declared) :
    AgreesAt W ctx converts (remaining + 1) (levels + 2) (.plain name [] isUnique isBorrow) := by
  have hstr : ( TypeAnnotation.plain name [] isUnique isBorrow).buildTypeString = name := rfl
  have hnumber : name ≠ bytes "number" := by
    rintro rfl
    exact hname.builtin (by decide)
  constructor
  · intro v hform hmatch
    rw [hstr, matchesAt_name hname.isName] at hmatch
    rw [hstr, hname.resolved, carried_name hname.isName hnumber]
    have hdecl := hform v .self
    cases v with
    | record typeName fields =>
      obtain ⟨other, args, hinh⟩ := hdecl
      obtain ⟨types, htypes⟩ := record_declared hinh
      obtain ⟨rfl, rfl⟩ := (hname.record htypes).mp hmatch
      exact hinh
    | choice typeName variant fields =>
      obtain ⟨other, args, hinh⟩ := hdecl
      obtain ⟨_, _, _, types, heq, htypes⟩ := choice_inv hinh
      cases heq
      obtain ⟨hvariant, htype⟩ := hname.choice htypes
      simp [matchesSimpleType, hvariant, htype] at hmatch
    | _ =>
      obtain htype | ⟨hnum, -⟩ := (matchesSimpleType_eq rfl).mp hmatch
      · exact absurd (htype ▸ typeName_mem rfl) hname.builtin
      · exact absurd hnum hnumber
  · intro v _ hinh
    rw [hname.resolved] at hinh
    obtain ⟨typeName, fields, types, rfl, htypes⟩ := record_inv hname.user hinh
    rw [hstr, matchesAt_name hname.isName]
    exact (hname.record htypes).mpr ⟨rfl, rfl⟩

theorem choice {name declared : Bytes} (hname : NamesChoice W ctx name declared) :
    AgreesAt W ctx converts (remaining + 1) (levels + 2) (.plain name [] isUnique isBorrow) := by
  have hstr : ( TypeAnnotation.plain name [] isUnique isBorrow).buildTypeString = name := rfl
  have hnumber : name ≠ bytes "number" := by
    rintro rfl
    exact hname.builtin (by decide)
  constructor
  · intro v hform hmatch
    rw [hstr, matchesAt_name hname.isName] at hmatch
    rw [hstr, hname.resolved, carried_name hname.isName hnumber]
    have hdecl := hform v .self
    cases v with
    | record typeName fields =>
      obtain ⟨other, args, hinh⟩ := hdecl
      obtain ⟨types, htypes⟩ := record_declared hinh
      have hbears : bearsName name typeName = true := hmatch
      rw [hname.record htypes] at hbears
      cases hbears
    | choice typeName variant fields =>
      obtain ⟨other, args, hinh⟩ := hdecl
      obtain ⟨_, _, _, types, heq, htypes⟩ := choice_inv hinh
      cases heq
      obtain ⟨rfl, rfl⟩ := (hname.choice htypes).mp (of_decide_eq_true hmatch)
      exact hinh
    | _ =>
      obtain htype | ⟨hnum, -⟩ := (matchesSimpleType_eq rfl).mp hmatch
      · exact absurd (htype ▸ typeName_mem rfl) hname.builtin
      · exact absurd hnum hnumber
  · intro v _ hinh
    rw [hname.resolved] at hinh
    obtain ⟨typeName, variant, fields, types, rfl, htypes⟩ := choice_inv hinh
    rw [hstr, matchesAt_name hname.isName]
    exact decide_eq_true ((hname.choice htypes).mpr ⟨rfl, rfl⟩)

theorem array (hname : NamesBuiltin W ctx (bytes "array")) (hc : Component t.buildTypeString)
    (h : AgreesAt W ctx converts remaining levels t) :
    AgreesAt W ctx converts (remaining + 1) (levels + 1)
      (.plain (bytes "array") [t] isUnique isBorrow) := by
  have hcs : ∀ q ∈ [t.buildTypeString], Component q := by simpa using hc
  have hstr : ( TypeAnnotation.plain (bytes "array") [t] isUnique isBorrow).buildTypeString =
    generic (bytes "array") [t.buildTypeString] := rfl
  constructor
  · intro v hform hmatch
    rw [hstr, matchesAt_generic isName_array (List.cons_ne_nil _ _) hcs] at hmatch
    have htype := typeName_of_matches (by decide) hmatch
    obtain ⟨vs, rfl⟩ := array_of_typeName (not_nominal hform hname.unclaimed htype) htype
    rw [hstr, carried_array hc, resolveTypeAt_array hname.notAlias]
    refine .array fun x hx => ?_
    obtain ⟨y, hy, rfl⟩ := List.mem_map.mp hx
    have hall : (vs.all fun e => matchesAt W.referent remaining e t.buildTypeString) = true :=
      hmatch
    exact h.sound y (hform.child hy) (List.all_eq_true.mp hall y hy)
  · intro v hform hinh
    rw [resolveTypeAt_array hname.notAlias] at hinh
    obtain ⟨vs, rfl, hvs⟩ := hinh.array_inv
    rw [hstr, matchesAt_generic isName_array (List.cons_ne_nil _ _) hcs]
    show (vs.all fun e => matchesAt W.referent remaining e t.buildTypeString) = true
    exact List.all_eq_true.mpr fun y hy => h.complete y (hform.child hy) (hvs y hy)

theorem collection {c : CollectionKind} (hname : NamesBuiltin W ctx c.name)
    (hc : Component t.buildTypeString) (h : AgreesAt W ctx converts remaining levels t) :
    AgreesAt W ctx converts (remaining + 1) (levels + 1) (.plain c.name [t] isUnique isBorrow) := by
  have hcs : ∀ q ∈ [t.buildTypeString], Component q := by simpa using hc
  have hbase : IsName c.name := by cases c <;> decide
  have hstr : ( TypeAnnotation.plain c.name [t] isUnique isBorrow).buildTypeString =
    generic c.name [t.buildTypeString] := rfl
  have hlayer : ∀ vs, matchesParameterizedType W.referent (matchesAt W.referent remaining)
      (c.value vs) ⟨.parameterized, c.name, [t.buildTypeString]⟩ =
        vs.all fun e => matchesAt W.referent remaining e t.buildTypeString := by
    intro vs
    cases c <;> rfl
  have hchild : ∀ vs : List Value, (c.value vs).children = vs := by
    intro vs
    cases c <;> rfl
  constructor
  · intro v hform hmatch
    rw [hstr, matchesAt_generic hbase (List.cons_ne_nil _ _) hcs] at hmatch
    have htype := typeName_of_matches (by cases c <;> decide) hmatch
    obtain ⟨vs, rfl⟩ := collection_of_typeName (not_nominal hform hname.unclaimed htype) htype
    rw [hstr, carried_collection hc, resolveTypeAt_collection hname.notAlias]
    refine .collection fun x hx => ?_
    obtain ⟨y, hy, rfl⟩ := List.mem_map.mp hx
    rw [hlayer] at hmatch
    have hy' : y ∈ (c.value vs).children := (hchild vs).symm ▸ hy
    exact h.sound y (hform.child hy') (List.all_eq_true.mp hmatch y hy)
  · intro v hform hinh
    rw [resolveTypeAt_collection hname.notAlias] at hinh
    obtain ⟨vs, rfl, hvs⟩ := hinh.collection_inv
    rw [hstr, matchesAt_generic hbase (List.cons_ne_nil _ _) hcs, hlayer]
    refine List.all_eq_true.mpr fun y hy => ?_
    have hy' : y ∈ (c.value vs).children := (hchild vs).symm ▸ hy
    exact h.complete y (hform.child hy') (hvs y hy)

/-- The entries are tested by the first parameter, which must be spelled like the type of the
    values. -/
theorem entries {ann : TypeAnnotation} {params : List Bytes}
    (hname : NamesBuiltin W ctx (bytes "dictionary"))
    (hcs : ∀ q ∈ t.buildTypeString :: params, Component q)
    (hstr : ann.buildTypeString = generic (bytes "dictionary") (t.buildTypeString :: params))
    (hres : resolveTypeAt (levels + 1) ctx ann = makeDict (resolveTypeAt levels ctx t))
    (h : AgreesAt W ctx converts remaining levels t) :
    AgreesAt W ctx converts (remaining + 1) (levels + 1) ann := by
  constructor
  · intro v hform hmatch
    rw [hstr, matchesAt_generic isName_dictionary (List.cons_ne_nil _ _) hcs] at hmatch
    have htype := typeName_of_matches (by decide) hmatch
    obtain ⟨entries, rfl⟩ :=
      dictionary_of_typeName (not_nominal hform hname.unclaimed htype) htype
    rw [hstr, carried_dictionary hcs, hres]
    refine .dictionary fun x hx => ?_
    obtain ⟨y, hy, rfl⟩ := List.mem_map.mp hx
    have hall : (entries.all fun e => matchesAt W.referent remaining e.2 t.buildTypeString) =
      true := hmatch
    exact h.sound y.2 (hform.child (List.mem_map_of_mem hy)) (List.all_eq_true.mp hall y hy)
  · intro v hform hinh
    rw [hres] at hinh
    obtain ⟨entries, rfl, hentries⟩ := hinh.dictionary_inv
    rw [hstr, matchesAt_generic isName_dictionary (List.cons_ne_nil _ _) hcs]
    show (entries.all fun e => matchesAt W.referent remaining e.2 t.buildTypeString) = true
    exact List.all_eq_true.mpr fun y hy =>
      h.complete y.2 (hform.child (List.mem_map_of_mem hy)) (hentries y hy)

theorem optional (hname : NamesBuiltin W ctx (bytes "optional"))
    (hc : Component t.buildTypeString) (h : AgreesAt W ctx converts remaining levels t) :
    AgreesAt W ctx converts (remaining + 1) (levels + 1)
      (.plain (bytes "optional") [t] isUnique isBorrow) := by
  have hcs : ∀ q ∈ [t.buildTypeString], Component q := by simpa using hc
  have hstr : ( TypeAnnotation.plain (bytes "optional") [t] isUnique isBorrow).buildTypeString =
    generic (bytes "optional") [t.buildTypeString] := rfl
  have hnull : matchesParameterizedType W.referent (matchesAt W.referent remaining) .null
      ⟨.parameterized, bytes "optional", [t.buildTypeString]⟩ = true := rfl
  have hlayer : ∀ v, v ≠ .null → matchesParameterizedType W.referent
      (matchesAt W.referent remaining) v ⟨.parameterized, bytes "optional", [t.buildTypeString]⟩ =
        matchesAt W.referent remaining v t.buildTypeString := by
    intro v hv
    cases v <;> first | exact absurd rfl hv | rfl
  constructor
  · intro v hform hmatch
    rw [hstr, matchesAt_generic isName_optional (List.cons_ne_nil _ _) hcs] at hmatch
    rw [hstr, resolveTypeAt_optional hname.notAlias]
    by_cases hv : v = .null
    · subst hv
      have hcarried : carried converts (remaining + 1) .null
          (generic (bytes "optional") [t.buildTypeString]) = .null := by
        cases converts with
        | false => rfl
        | true =>
          rw [carried, if_pos rfl,
            widenImpl_generic isName_optional (List.cons_ne_nil _ _) hcs]
          rfl
      rw [hcarried]
      exact .missing
    · rw [hlayer v hv] at hmatch
      rw [carried_optional hv hc]
      exact .present (h.sound v hform hmatch)
  · intro v hform hinh
    rw [resolveTypeAt_optional hname.notAlias] at hinh
    rw [hstr, matchesAt_generic isName_optional (List.cons_ne_nil _ _) hcs]
    by_cases hv : v = .null
    · subst hv
      exact hnull
    · rw [hlayer v hv]
      exact h.complete v hform (hinh.optional_inv.resolve_left hv)

theorem result (hname : NamesBuiltin W ctx (bytes "result")) (hct : Component t.buildTypeString)
    (hce : Component e.buildTypeString) (ht : AgreesAt W ctx converts remaining levels t)
    (he : AgreesAt W ctx converts remaining levels e) :
    AgreesAt W ctx converts (remaining + 1) (levels + 1)
      (.plain (bytes "result") [t, e] isUnique isBorrow) := by
  have hcs : ∀ q ∈ [t.buildTypeString, e.buildTypeString], Component q := by simp [hct, hce]
  have hstr : ( TypeAnnotation.plain (bytes "result") [t, e] isUnique isBorrow).buildTypeString =
    generic (bytes "result") [t.buildTypeString, e.buildTypeString] := rfl
  constructor
  · intro v hform hmatch
    rw [hstr, matchesAt_generic isName_result (List.cons_ne_nil _ _) hcs] at hmatch
    have htype := typeName_of_matches (by decide) hmatch
    obtain ⟨isSuccess, inner, code, origin, rfl⟩ :=
      result_of_typeName (not_nominal hform hname.unclaimed htype) htype
    rw [hstr, carried_result hct hce, resolveTypeAt_result hname.notAlias]
    have hinner := hform.child (u := inner) (by simp [Value.children])
    cases isSuccess with
    | true => exact .success (ht.sound inner hinner hmatch)
    | false => exact .failure (he.sound inner hinner hmatch)
  · intro v hform hinh
    rw [resolveTypeAt_result hname.notAlias] at hinh
    obtain ⟨isSuccess, inner, code, origin, rfl, hin⟩ := hinh.result_inv
    rw [hstr, matchesAt_generic isName_result (List.cons_ne_nil _ _) hcs]
    have hinner := hform.child (u := inner) (by simp [Value.children])
    cases isSuccess with
    | true => exact ht.complete inner hinner hin
    | false => exact he.complete inner hinner hin

/-- What a reference holds is tested but not converted. -/
theorem reference (hname : NamesBuiltin W ctx (bytes "reference"))
    (hc : Component t.buildTypeString) (h : AgreesAt W ctx false remaining levels t) :
    AgreesAt W ctx converts (remaining + 1) (levels + 1)
      (.plain (bytes "reference") [t] isUnique isBorrow) := by
  have hcs : ∀ q ∈ [t.buildTypeString], Component q := by simpa using hc
  have hbase : IsName (bytes "reference") := by decide
  have hstr : ( TypeAnnotation.plain (bytes "reference") [t] isUnique isBorrow).buildTypeString =
    generic (bytes "reference") [t.buildTypeString] := rfl
  constructor
  · intro v hform hmatch
    rw [hstr, matchesAt_generic hbase (List.cons_ne_nil _ _) hcs] at hmatch
    have htype := typeName_of_matches (by decide) hmatch
    obtain ⟨address, rfl⟩ :=
      reference_of_typeName (not_nominal hform hname.unclaimed htype) htype
    rw [hstr, carried_reference hc, resolveTypeAt_reference hname.notAlias]
    exact .reference (h.sound _ hform.referent hmatch)
  · intro v hform hinh
    rw [resolveTypeAt_reference hname.notAlias] at hinh
    obtain ⟨address, rfl, hin⟩ := reference_inv hinh
    rw [hstr, matchesAt_generic hbase (List.cons_ne_nil _ _) hcs]
    exact h.complete _ hform.referent hin

theorem tuple {ts : List TypeAnnotation} (hne : ts ≠ [])
    (hcs : ∀ u ∈ ts, Component u.buildTypeString)
    (h : ∀ u ∈ ts, AgreesAt W ctx converts remaining levels u) :
    AgreesAt W ctx converts (remaining + 1) (levels + 1) (.tuple ts isUnique isBorrow) := by
  have hparams : ∀ q ∈ ts.map TypeAnnotation.buildTypeString, Component q := by
    intro q hq
    obtain ⟨u, hu, rfl⟩ := List.mem_map.mp hq
    exact hcs u hu
  have hstr : ( TypeAnnotation.tuple ts isUnique isBorrow).buildTypeString =
      TypePattern.tuple (ts.map TypeAnnotation.buildTypeString) := by
    cases ts with
    | nil => exact absurd rfl hne
    | cons u ts => rw [ TypeAnnotation.buildTypeString, TypeAnnotation.buildTypeStrings_eq]
  have hres : resolveTypeAt (levels + 1) ctx (.tuple ts isUnique isBorrow) =
    makeTuple (ts.map (resolveTypeAt levels ctx)) := rfl
  have hnil : ts.map TypeAnnotation.buildTypeString ≠ [] := by simpa using hne
  constructor
  · intro v hform hmatch
    rw [hstr, matchesAt_tuple hnil hparams] at hmatch
    unfold matchesTupleType at hmatch
    split at hmatch
    · rename_i vs
      simp only [List.length_map, Bool.decide_and, Bool.and_eq_true, decide_eq_true_eq,
        List.all_eq_true] at hmatch
      obtain ⟨hlen, hall⟩ := hmatch
      rw [hstr, hres, carried_tuple hnil hparams (by simpa using hlen)]
      refine .tuple (by simp [hlen]) fun p hp => ?_
      obtain ⟨i, hi, rfl⟩ := List.mem_iff_getElem.mp hp
      simp only [List.length_zip, List.length_map, lt_inf_iff] at hi
      simp only [List.getElem_zip, List.getElem_map]
      have hpair : (vs[i], ts[i].buildTypeString) ∈
          vs.zip (ts.map TypeAnnotation.buildTypeString) := by
        apply List.mem_iff_getElem.mpr
        exact ⟨i, by simp; omega, by simp⟩
      exact (h ts[i] (List.getElem_mem _)).sound vs[i] (hform.child (List.getElem_mem _))
        (hall _ hpair)
    · cases hmatch
  · intro v hform hinh
    rw [hres] at hinh
    obtain ⟨vs, rfl, hlen, hvs⟩ := hinh.tuple_inv
    rw [hstr, matchesAt_tuple hnil hparams]
    simp only [List.length_map] at hlen
    simp only [matchesTupleType, List.length_map, Bool.decide_and, Bool.and_eq_true,
      decide_eq_true_eq, List.all_eq_true]
    refine ⟨hlen.symm, fun p hp => ?_⟩
    obtain ⟨i, hi, rfl⟩ := List.mem_iff_getElem.mp hp
    simp only [List.length_zip, List.length_map, lt_inf_iff] at hi
    simp only [List.getElem_zip, List.getElem_map]
    have hpair : (resolveTypeAt levels ctx ts[i], vs[i]) ∈
        (ts.map (resolveTypeAt levels ctx)).zip vs := by
      apply List.mem_iff_getElem.mpr
      exact ⟨i, by simp; omega, by simp⟩
    exact (h ts[i] (List.getElem_mem _)).complete vs[i] (hform.child (List.getElem_mem _))
      (hvs _ hpair)

end AgreesAt

/-! ## Agreement of faithful annotations -/

variable {converts : Bool} {ann : TypeAnnotation}

/-- The string of a faithful annotation can stand inside another one. -/
theorem Faithful.component (h : Faithful W ctx converts ann) : Component ann.buildTypeString := by
  induction h with
  | primitive hmem _ => exact (displayedPrimitives_mem hmem).1.component
  | number _ => exact isName_number.component
  | record hname => exact hname.isName.component
  | choice hname => exact hname.isName.component
  | array _ _ ih => exact Component.generic isName_array (by simpa using ih)
  | @collection _ _ _ c _ _ _ ih =>
    exact Component.generic (by cases c <;> decide) (by simpa using ih)
  | dictionary _ _ ih => exact Component.generic isName_dictionary (by simpa using ih)
  | keyedDictionary _ _ hkey ih =>
    exact Component.generic isName_dictionary (by simp [hkey, ih])
  | optional _ _ ih => exact Component.generic isName_optional (by simpa using ih)
  | result _ _ _ ihvalue iherror =>
    exact Component.generic isName_result (by simp [ihvalue, iherror])
  | reference _ _ ih => exact Component.generic (by decide) (by simpa using ih)
  | @tuple _ _ _ elements hne _ ih =>
    cases elements with
    | nil => exact absurd rfl hne
    | cons t ts =>
      rw [ TypeAnnotation.buildTypeString, TypeAnnotation.buildTypeStrings_eq]
      refine Component.tuple fun q hq => ?_
      obtain ⟨u, hu, rfl⟩ := List.mem_map.mp hq
      exact ih u hu

theorem exists_succ_of_nesting {n : Nat} (h : ann.nesting ≤ n) : ∃ k, n = k + 1 := by
  have hpos : 0 < ann.nesting := by cases ann <;> exact Nat.succ_pos _
  exact ⟨n - 1, by omega⟩

/-- A faithful annotation is tested as its static type says, within the limits on nesting. -/
theorem Faithful.agreesAt (h : Faithful W ctx converts ann) {remaining levels : Nat}
    (hremaining : ann.nesting ≤ remaining) (hlevels : ann.nesting < levels) :
    AgreesAt W ctx converts remaining levels ann := by
  induction h generalizing remaining levels
  all_goals
    obtain ⟨remaining, rfl⟩ := exists_succ_of_nesting hremaining
    obtain ⟨levels, rfl⟩ := exists_succ_of_nesting hlevels.le
    simp only [ TypeAnnotation.nesting, TypeAnnotation.nestings, Nat.max_zero] at hremaining hlevels
  case primitive hmem hname => exact .primitive hmem hname
  case number hname => exact .number hname
  case record hname =>
    -- A name inside a namespace takes two levels to resolve.
    obtain ⟨levels, rfl⟩ : ∃ k, levels = k + 1 := ⟨levels - 1, by omega⟩
    exact .record hname
  case choice hname =>
    obtain ⟨levels, rfl⟩ : ∃ k, levels = k + 1 := ⟨levels - 1, by omega⟩
    exact .choice hname
  case array hname h ih => exact .array hname h.component (ih (by omega) (by omega))
  case collection hname h ih => exact .collection hname h.component (ih (by omega) (by omega))
  case dictionary hname h ih =>
    exact .entries hname (by simpa using h.component) rfl
      (resolveTypeAt_dictionary hname.notAlias) (ih (by omega) (by omega))
  case keyedDictionary key value hname h hkey ih =>
    have hcs : ∀ q ∈ [value.buildTypeString, value.buildTypeString], Component q := by
      simpa using h.component
    refine .entries hname hcs ?_ (resolveTypeAt_keyedDictionary hname.notAlias)
      (ih (by omega) (by omega))
    show generic _ [key.buildTypeString, value.buildTypeString] = _
    rw [hkey]
  case optional hname h ih => exact .optional hname h.component (ih (by omega) (by omega))
  case result hname hvalue herror ihvalue iherror =>
    exact .result hname hvalue.component herror.component (ihvalue (by omega) (by omega))
      (iherror (by omega) (by omega))
  case reference hname h ih => exact .reference hname h.component (ih (by omega) (by omega))
  case tuple hne h ih =>
    refine .tuple hne (fun u hu => (h u hu).component) fun u hu => ?_
    have hu' := TypeAnnotation.nesting_le_nestings hu
    exact ih u hu (by omega) (by omega)

/-! ## The operators -/

/-- The value an operator vouches for is the one its test carries on. -/
theorem vouched_eq {m : Tester} {op : TypeOperator} {v : Value} {typeName : Bytes} :
    m.vouched op v typeName =
      if m.matchesType v typeName then
        some (carried op.converts (m.maxCallDepth + 1) v typeName)
      else none := by
  cases op <;>
    simp only [Tester.vouched, Tester.handleIsType, Tester.handleDowncast,
      Tester.handleTrustedDowncast] <;>
    cases m.matchesType v typeName <;> rfl

section Disagreement

variable {maxCallDepth maxParseDepth : Nat} {op : TypeOperator} {isUnique isBorrow : Bool}

/-- A value without components is formed. -/
theorem formed_leaf {v : Value} (hdecl : Declared W v) (hleaf : v.children = [])
    (href : ∀ address, v ≠ .reference address) : Formed W v := by
  intro u hu
  have hsame : u = v := by
    induction hu with
    | self => rfl
    | part _ hx ih =>
      subst ih
      rw [hleaf] at hx
      cases hx
    | @referent address _ ih => exact absurd ih.symm (href address)
  exact hsame ▸ hdecl

end Disagreement

/-- A record, declared as `Point` at top level. -/
def pointContext : ResolutionContext :=
  { ResolutionContext.empty with
    records := fun name => if name = bytes "Point" then some (bytes "Point") else none }

/-- The values of `pointContext`. -/
def pointWorld : World :=
  { World.empty with
    recordFields := fun name typeName args =>
      if name = bytes "Point" ∧ typeName = bytes "Point" ∧ args = [] then
        some [(bytes "x", make .number)]
      else none }

theorem namesRecord_point : NamesRecord pointWorld pointContext (bytes "Point") (bytes "Point") where
  isName := by decide
  builtin := by decide
  user := by
    intro c
    cases c <;> decide
  resolved := resolveTypeAt_plain rfl rfl nofun
  record := by
    intro other typeName args types h
    obtain ⟨hdecl, -⟩ : (other = bytes "Point" ∧ typeName = bytes "Point" ∧ args = []) ∧ _ := by
      simpa [pointWorld] using h
    obtain ⟨rfl, rfl, rfl⟩ := hdecl
    exact iff_of_true (by decide) ⟨rfl, rfl⟩
  choice := nofun

theorem namesBuiltin_point {name : Bytes} (h : bearsName name (bytes "Point") = false) :
    NamesBuiltin pointWorld pointContext name where
  notAlias := rfl
  unclaimed :=
    { record := by
        intro other typeName args types hdecl
        obtain ⟨⟨-, rfl, -⟩, -⟩ :
            (other = bytes "Point" ∧ typeName = bytes "Point" ∧ args = []) ∧ _ := by
          simpa [pointWorld] using hdecl
        exact h
      choice := nofun }

/-- An alias of `integer`. -/
def aliasContext : ResolutionContext :=
  { ResolutionContext.empty with
    typeAliases := fun name =>
      if name = bytes "UserId" then some (.plain (bytes "integer") [] false false) else none }

end TypeTest

end Luma
