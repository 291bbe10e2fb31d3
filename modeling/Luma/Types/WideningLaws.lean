-- SUMMARY: What a numeric widening does to a value, and when the value then fits its type.
import Luma.Types.Widening

/-! # Laws of Numeric Widening

`convert` says what the marks and the machine achieve together: the integers facing a
`number` become numbers, through optionals, arrays, dictionaries, results and tuples and
down to a bounded depth. The machine's reading of the pattern is shown to be that. -/

namespace Luma

open Codec

namespace TypeInfo

/-! ## Conversion along two types -/

/-- The value after its flow into an optional: a missing value stays missing. -/
def convertOptional (convert : TypeInfo → TypeInfo → Value → Value) (target source : TypeInfo) :
    Value → Value
  | .null => .null
  | v =>
    match target.innerTypes.head?, source.innerSource with
    | some element, some inner => convert element inner v
    | _, _ => v

/-- The component of a container after its flow from one position to the same position. -/
def convertAt (convert : TypeInfo → TypeInfo → Value → Value) (ts ss : List TypeInfo) (i : Nat)
    (v : Value) : Value :=
  match ts[i]?, ss[i]? with
  | some t, some s => convert t s v
  | _, _ => v

/-- The value after its flow between two containers of one kind. -/
def convertContainer (component : Nat → Value → Value) (target source : TypeInfo) (v : Value) :
    Value :=
  match target.kind, v with
  | .array, .array vs => .array (vs.map (component 0))
  | .dictionary, .dictionary entries =>
    .dictionary (entries.map fun entry => (entry.1, component 0 entry.2))
  | .result, .result isSuccess inner code origin =>
    .result isSuccess (component (if isSuccess then 0 else 1) inner) code origin
  | .tuple, .tuple vs =>
    if target.innerTypes.length = source.innerTypes.length ∧
        vs.length = target.innerTypes.length then .tuple (vs.mapIdx component)
    else .tuple vs
  | _, v => v

/-- The value after its flow from `source` to `target`, for `levels` levels of nesting. -/
def convert : Nat → TypeInfo → TypeInfo → Value → Value
  | 0, _, _, v => v
  | levels + 1, target, source, v =>
    if target.kind = .number ∧ source.kind = .integer then intToNumber v
    else if target.kind = .optional then convertOptional (convert levels) target source v
    else if target.kind ≠ source.kind then v
    else
      convertContainer (convertAt (convert levels) target.innerTypes source.innerTypes)
        target source v

/-! ## The patterns of components -/

-- The equations of the definitions are derived here, once for all proofs.
section
attribute [local simp] convertOptional convertContainer convert
end

variable {pat : TypeInfo → TypeInfo → Option Bytes} {count : Nat} {ts ss : List TypeInfo}

theorem widenedComponents_some {params : List Bytes}
    (h : widenedComponents pat count ts ss = some params) :
    params = ((ts.zip ss).take count).map (fun pair => (pat pair.1 pair.2).getD (bytes "_")) ∧
      params.length = count := by
  unfold widenedComponents at h
  split at h
  · simp at h
  · rename_i hlen
    simp only at h
    split at h
    · simp only [Option.some.injEq] at h
      subst h
      rw [List.map_map]
      refine ⟨rfl, ?_⟩
      simp only [List.length_map, List.length_take, List.length_zip]
      omega
    · simp at h

theorem widenedComponents_ne_nil {params : List Bytes}
    (h : widenedComponents pat count ts ss = some params) : params ≠ [] := by
  rintro rfl
  unfold widenedComponents at h
  split at h
  · simp at h
  · simp only at h
    split at h
    · rename_i hany
      simp only [Option.some.injEq, List.map_eq_nil_iff] at h
      rw [h] at hany
      simp at hany
    · simp at h

theorem widenedComponents_none (h : widenedComponents pat count ts ss = none) {i : Nat}
    {t s : TypeInfo} (hts : count ≤ ts.length) (hss : count ≤ ss.length) (hi : i < count)
    (ht : ts[i]? = some t) (hs : ss[i]? = some s) : pat t s = none := by
  unfold widenedComponents at h
  rw [if_neg (by omega)] at h
  simp only at h
  split at h
  · simp at h
  · rename_i hany
    have hmem : (t, s) ∈ (ts.zip ss).take count := by
      apply List.mem_of_getElem? (i := i)
      rw [List.getElem?_take_of_lt hi, List.getElem?_zip_eq_some]
      exact ⟨ht, hs⟩
    simp only [List.any_map, List.any_eq_true, Function.comp, not_exists, not_and] at hany
    have hnone := hany (t, s) hmem
    simpa using hnone

end TypeInfo

namespace TypePattern

theorem isName_number : IsName (bytes "number") := by decide

theorem isName_underscore : IsName (bytes "_") := by decide

theorem isName_optional : IsName (bytes "optional") := by decide

theorem isName_array : IsName (bytes "array") := by decide

theorem isName_dictionary : IsName (bytes "dictionary") := by decide

theorem isName_result : IsName (bytes "result") := by decide

end TypePattern

namespace TypeInfo

open TypePattern

/-- Every pattern the checker makes can stand inside another one. -/
theorem wideningPatternAt_component {levels : Nat} {t s : TypeInfo} :
    Component ((wideningPatternAt levels t s).getD (bytes "_")) := by
  induction levels generalizing t s with
  | zero => exact isName_underscore.component
  | succ levels ih =>
    have hparams {count : Nat} {params : List Bytes} {ts ss : List TypeInfo}
        (h : widenedComponents (wideningPatternAt levels) count ts ss = some params) :
        ∀ p ∈ params, Component p := by
      obtain ⟨rfl, -⟩ := widenedComponents_some h
      intro p hp
      obtain ⟨pair, -, rfl⟩ := List.mem_map.mp hp
      exact ih
    have hmap {count : Nat} {ts ss : List TypeInfo} {f : List Bytes → Bytes}
        (hf : ∀ params, (∀ p ∈ params, Component p) → Component (f params)) :
        Component (((widenedComponents (wideningPatternAt levels) count ts ss).map f).getD
          (bytes "_")) := by
      cases h : widenedComponents (wideningPatternAt levels) count ts ss with
      | none => exact isName_underscore.component
      | some params => exact hf params (hparams h)
    rw [wideningPatternAt]
    split
    · exact isName_number.component
    · split
      · unfold optionalPattern
        split
        · rename_i element inner _ _
          have hinner := @ih element inner
          cases h : wideningPatternAt levels element inner with
          | none => exact isName_underscore.component
          | some part =>
            apply Component.generic isName_optional
            intro p hp
            rw [List.mem_singleton.mp hp]
            simpa [h] using hinner
        · exact isName_underscore.component
      · split
        · exact isName_underscore.component
        · unfold containerPattern
          split
          · exact hmap fun _ => Component.generic isName_array
          · exact hmap fun _ => Component.generic isName_dictionary
          · exact hmap fun _ => Component.generic isName_result
          · split
            · exact isName_underscore.component
            · exact hmap fun _ => Component.tuple
          · exact isName_underscore.component

theorem widenedComponents_component {levels count : Nat} {ts ss : List TypeInfo}
    {params : List Bytes}
    (h : widenedComponents (wideningPatternAt levels) count ts ss = some params) :
    ∀ p ∈ params, Component p := by
  obtain ⟨rfl, -⟩ := widenedComponents_some h
  intro p hp
  obtain ⟨pair, -, rfl⟩ := List.mem_map.mp hp
  exact wideningPatternAt_component

end TypeInfo

/-! ## The machine's reading of a pattern -/

namespace NumericWidener

open TypePattern

theorem widenElements_getD {α β : Type} {widen : α → Option α} {elements : List α}
    {f : List α → β} :
    ((widenElements widen elements).map f).getD (f elements) =
      f (elements.map fun element => (widen element).getD element) := by
  unfold widenElements
  split
  · rfl
  · rename_i hany
    have hsame : elements.map (fun element => (widen element).getD element) = elements := by
      apply (List.map_congr_left ?_).trans (List.map_id elements)
      intro element hmem
      have hnone : widen element = none := by
        simp only [List.any_eq_true, not_exists, not_and] at hany
        simpa using hany element hmem
      rw [hnone]
      rfl
    rw [hsame]
    rfl

theorem widenImpl_underscore {levels : Nat} {v : Value} :
    widenImpl levels v (bytes "_") = none := by
  cases levels with
  | zero => rfl
  | succ levels =>
    rw [widenImpl, if_neg (by decide), parse_name isName_underscore]

theorem widenImpl_number {levels : Nat} {v : Value} :
    (widenImpl (levels + 1) v (bytes "number")).getD v = intToNumber v := by
  rw [widenImpl, if_pos rfl]
  cases v <;> rfl

theorem widenImpl_generic {levels : Nat} {v : Value} {base : Bytes} {params : List Bytes}
    (hbase : IsName base) (hne : params ≠ []) (h : ∀ p ∈ params, Component p) :
    widenImpl (levels + 1) v (generic base params) =
      widenParameterized (widenImpl levels) v base params := by
  have hnumber : generic base params ≠ bytes "number" := by
    intro heq
    have hmem : lt ∈ bytes "number" := by
      rw [← heq]
      simp [generic]
    exact isName_number.ne_lt hmem rfl
  rw [widenImpl, if_neg hnumber, parse_generic hbase hne h]

theorem widenImpl_tuple {levels : Nat} {v : Value} {params : List Bytes}
    (hne : params ≠ []) (h : ∀ p ∈ params, Component p) :
    widenImpl (levels + 1) v (tuple params) = widenTuple (widenImpl levels) v params := by
  have hnumber : tuple params ≠ bytes "number" := by
    intro heq
    have hmem : lparen ∈ bytes "number" := by
      rw [← heq]
      simp [tuple]
    exact isName_number.ne_lparen hmem rfl
  rw [widenImpl, if_neg hnumber, parse_tuple hne h]

/-- A tuple of another length is left alone, any other one is converted element by element. -/
theorem widenTuple_getD {widen : Value → Bytes → Option Value} {elements : List Value}
    {params : List Bytes} (hlen : elements.length = params.length) :
    (widenTuple widen (.tuple elements) params).getD (.tuple elements) =
      .tuple ((elements.zip params).map fun pair => (widen pair.1 pair.2).getD pair.1) := by
  have hfst : Value.tuple elements = .tuple ((elements.zip params).map Prod.fst) := by
    rw [List.map_fst_zip (by omega)]
  rw [widenTuple, if_neg (not_not_intro hlen)]
  rw [hfst]
  rw [widenElements_getD
    (f := fun pairs : List (Value × Bytes) => Value.tuple (pairs.map Prod.fst))]
  simp only [List.map_map]
  congr 1
  apply List.map_congr_left
  intro pair _
  simp only [Function.comp]
  cases widen pair.1 pair.2 <;> rfl

end NumericWidener

namespace TypeInfo

open NumericWidener TypePattern

/-- What the machine does with a value and the pattern of a component. -/
def perform (levels runtimeLevels : Nat) (target source : TypeInfo) (v : Value) : Value :=
  (widenImpl runtimeLevels v ((wideningPatternAt levels target source).getD (bytes "_"))).getD v

/-- What the machine does with the component at a position. -/
abbrev performAt (levels runtimeLevels : Nat) (ts ss : List TypeInfo) : Nat → Value → Value :=
  convertAt (perform levels runtimeLevels) ts ss

section Layers

variable {levels runtimeLevels : Nat} {ts ss : List TypeInfo} {count : Nat}

/-- The components of a container convert as their own types say. -/
theorem performAt_some {params : List Bytes}
    (h : widenedComponents (wideningPatternAt levels) count ts ss = some params) {i : Nat}
    {p : Bytes} (hp : params[i]? = some p) (v : Value) :
    (widenImpl runtimeLevels v p).getD v = performAt levels runtimeLevels ts ss i v := by
  obtain ⟨rfl, -⟩ := widenedComponents_some h
  rw [List.getElem?_map, Option.map_eq_some_iff] at hp
  obtain ⟨⟨t, s⟩, hpair, rfl⟩ := hp
  have hi : i < count := by
    have hlt := (List.getElem?_eq_some_iff.mp hpair).1
    simp only [List.length_take] at hlt
    omega
  rw [List.getElem?_take_of_lt hi, List.getElem?_zip_eq_some] at hpair
  rw [performAt, convertAt, hpair.1, hpair.2]
  rfl

/-- Where no component has a pattern, none of them changes. -/
theorem performAt_none (h : widenedComponents (wideningPatternAt levels) count ts ss = none)
    {i : Nat} (hi : i < count)
    (hfull : i < ts.length → i < ss.length → count ≤ ts.length ∧ count ≤ ss.length) (v : Value) :
    performAt levels runtimeLevels ts ss i v = v := by
  unfold performAt convertAt
  split
  · rename_i t s ht hs
    obtain ⟨hts, hss⟩ := hfull (List.getElem?_eq_some_iff.mp ht).1 (List.getElem?_eq_some_iff.mp hs).1
    rw [perform, widenedComponents_none h hts hss hi ht hs, Option.getD_none,
      widenImpl_underscore, Option.getD_none]
  · rfl

/-- A position beyond the components is left alone. -/
theorem performAt_beyond {i : Nat} (h : ts.length ≤ i ∨ ss.length ≤ i) (v : Value) :
    performAt levels runtimeLevels ts ss i v = v := by
  unfold performAt convertAt
  split
  · rename_i ht hs
    have hts := (List.getElem?_eq_some_iff.mp ht).1
    have hss := (List.getElem?_eq_some_iff.mp hs).1
    omega
  · rfl

/-- The conversion of a value by the pattern of a container. -/
def performGeneric (levels runtimeLevels : Nat) (base : Bytes) (count : Nat)
    (ts ss : List TypeInfo) (v : Value) : Value :=
  (widenImpl (runtimeLevels + 1) v
    (((widenedComponents (wideningPatternAt levels) count ts ss).map (generic base)).getD
      (bytes "_"))).getD v

/-- Either nothing is converted and no component has a pattern, or the machine reads the
    patterns of the components back. -/
theorem performGeneric_cases (levels runtimeLevels : Nat) (ts ss : List TypeInfo) {base : Bytes}
    (hbase : IsName base) (hcount : 0 < count) (v : Value) :
    (widenedComponents (wideningPatternAt levels) count ts ss = none ∧
      performGeneric levels runtimeLevels base count ts ss v = v) ∨
    ∃ p params, widenedComponents (wideningPatternAt levels) count ts ss = some (p :: params) ∧
      params.length + 1 = count ∧
      performGeneric levels runtimeLevels base count ts ss v =
        (widenParameterized (widenImpl runtimeLevels) v base (p :: params)).getD v := by
  unfold performGeneric
  cases h : widenedComponents (wideningPatternAt levels) count ts ss with
  | none =>
    left
    rw [Option.map_none, Option.getD_none, widenImpl_underscore]
    exact ⟨rfl, rfl⟩
  | some params =>
    right
    obtain ⟨hparams, hlen⟩ := widenedComponents_some h
    cases params with
    | nil =>
      simp only [List.length_nil] at hlen
      omega
    | cons p params =>
      refine ⟨p, params, rfl, hlen, ?_⟩
      rw [Option.map_some, Option.getD_some,
        widenImpl_generic hbase (List.cons_ne_nil p params) (widenedComponents_component h)]

theorem performGeneric_array {vs : List Value} :
    performGeneric levels runtimeLevels (bytes "array") 1 ts ss (.array vs) =
      .array (vs.map (performAt levels runtimeLevels ts ss 0)) := by
  obtain ⟨h, heq⟩ | ⟨p, params, h, -, heq⟩ :=
    performGeneric_cases levels runtimeLevels ts ss isName_array Nat.one_pos (.array vs)
  · rw [heq]
    congr 1
    exact ((List.map_congr_left fun v _ => performAt_none h Nat.one_pos (by omega) v).trans
      (List.map_id vs)).symm
  · rw [heq, widenParameterized, if_neg (by decide)]
    simp only [if_true]
    rw [widenElements_getD]
    congr 1
    exact List.map_congr_left fun v _ => performAt_some h rfl v

theorem performGeneric_dictionary {entries : List (Bytes × Value)} :
    performGeneric levels runtimeLevels (bytes "dictionary") 1 ts ss (.dictionary entries) =
      .dictionary (entries.map fun entry =>
        (entry.1, performAt levels runtimeLevels ts ss 0 entry.2)) := by
  obtain ⟨h, heq⟩ | ⟨p, params, h, -, heq⟩ :=
    performGeneric_cases levels runtimeLevels ts ss isName_dictionary Nat.one_pos
      (.dictionary entries)
  · rw [heq]
    congr 1
    refine ((List.map_congr_left fun entry _ => ?_).trans (List.map_id entries)).symm
    rw [performAt_none h Nat.one_pos (by omega)]
    rfl
  · rw [heq, widenParameterized, if_neg (by decide)]
    simp only [if_true]
    rw [widenElements_getD]
    congr 1
    apply List.map_congr_left
    intro entry _
    rw [← performAt_some h rfl]
    cases widenImpl runtimeLevels entry.2 p <;> rfl

/-- The error of a result is converted only where both types state one. -/
theorem performGeneric_result {isSuccess : Bool} {inner : Value} {code origin : Bytes} :
    performGeneric levels runtimeLevels (bytes "result")
        (if 1 < ts.length ∧ 1 < ss.length then 2 else 1) ts ss (.result isSuccess inner code origin) =
      .result isSuccess (performAt levels runtimeLevels ts ss (if isSuccess then 0 else 1) inner)
        code origin := by
  obtain ⟨h, heq⟩ | ⟨p, params, h, hlen, heq⟩ :=
    performGeneric_cases levels runtimeLevels ts ss isName_result
      (show 0 < if 1 < ts.length ∧ 1 < ss.length then 2 else 1 by split <;> omega)
      (.result isSuccess inner code origin)
  · rw [heq]
    congr 1
    by_cases herrors : 1 < ts.length ∧ 1 < ss.length
    · rw [if_pos herrors] at h
      exact (performAt_none h (by split <;> omega) (by omega) inner).symm
    · rw [if_neg herrors] at h
      cases isSuccess with
      | true => exact (performAt_none h Nat.one_pos (by omega) inner).symm
      | false =>
        refine (performAt_beyond ?_ inner).symm
        simp only [Bool.false_eq_true, if_false]
        omega
  · rw [heq, widenParameterized, if_neg (by decide)]
    simp only [if_true]
    cases isSuccess with
    | true =>
      simp only [if_true]
      rw [← performAt_some h rfl]
      cases widenImpl runtimeLevels inner p <;> rfl
    | false =>
      simp only [Bool.false_eq_true, if_false]
      cases params with
      | nil =>
        simp only [List.headD_nil, widenImpl_underscore, Option.map_none, Option.getD_none]
        congr 1
        refine (performAt_beyond ?_ inner).symm
        by_contra hbeyond
        rw [if_pos (by omega)] at hlen
        simp at hlen
      | cons q params =>
        simp only [List.headD_cons]
        rw [← performAt_some h (show (p :: q :: params)[1]? = some q from rfl)]
        cases widenImpl runtimeLevels inner q <;> rfl

/-- A tuple converts element by element if its length is that of both types. -/
theorem perform_tuple {vs : List Value} (hlen : ts.length = ss.length) :
    (widenImpl (runtimeLevels + 1) (.tuple vs)
      (((widenedComponents (wideningPatternAt levels) ts.length ts ss).map tuple).getD
        (bytes "_"))).getD (.tuple vs) =
      if vs.length = ts.length then .tuple (vs.mapIdx (performAt levels runtimeLevels ts ss))
      else .tuple vs := by
  cases h : widenedComponents (wideningPatternAt levels) ts.length ts ss with
  | none =>
    rw [Option.map_none, Option.getD_none, widenImpl_underscore, Option.getD_none]
    split
    · rename_i hvs
      congr 1
      apply List.ext_getElem
      · simp
      · intro i hi _
        rw [List.getElem_mapIdx, performAt_none h (by omega) (by omega)]
    · rfl
  | some params =>
    obtain ⟨hparams, hcount⟩ := widenedComponents_some h
    rw [Option.map_some, Option.getD_some,
      widenImpl_tuple (widenedComponents_ne_nil h) (widenedComponents_component h)]
    split
    · rename_i hvs
      rw [widenTuple_getD (by omega)]
      congr 1
      apply List.ext_getElem
      · simp
        omega
      · intro i hi _
        rw [List.getElem_map, List.getElem_mapIdx, List.getElem_zip]
        exact performAt_some h (List.getElem?_eq_getElem _) _
    · rename_i hvs
      rw [widenTuple, if_pos (by omega)]
      rfl

/-- A pattern for tuples leaves every other value alone. -/
theorem perform_tuple_other {v : Value} (hv : ∀ vs, v ≠ .tuple vs) :
    (widenImpl (runtimeLevels + 1) v
      (((widenedComponents (wideningPatternAt levels) count ts ss).map tuple).getD
        (bytes "_"))).getD v = v := by
  cases h : widenedComponents (wideningPatternAt levels) count ts ss with
  | none => rw [Option.map_none, Option.getD_none, widenImpl_underscore, Option.getD_none]
  | some params =>
    rw [Option.map_some, Option.getD_some,
      widenImpl_tuple (widenedComponents_ne_nil h) (widenedComponents_component h)]
    unfold widenTuple
    split
    · rename_i vs
      exact absurd rfl (hv vs)
    · rfl

/-- The pattern of a flow into an optional is read back past the optional. -/
theorem perform_optional {t s : TypeInfo} {v : Value} :
    (widenImpl (runtimeLevels + 1) v
      ((optionalPattern (wideningPatternAt levels) t s).getD (bytes "_"))).getD v =
      convertOptional (perform levels runtimeLevels) t s v := by
  unfold optionalPattern convertOptional
  cases ht : t.innerTypes.head? with
  | none => cases v <;> simp [widenImpl_underscore]
  | some element =>
    cases hs : s.innerSource with
    | none => cases v <;> simp [widenImpl_underscore]
    | some inner =>
      have hparams : Component ((wideningPatternAt levels element inner).getD (bytes "_")) :=
        wideningPatternAt_component
      unfold perform
      dsimp only
      cases h : wideningPatternAt levels element inner with
      | none => cases v <;> simp [widenImpl_underscore]
      | some part =>
        rw [h] at hparams
        simp only [Option.map_some, Option.getD_some] at hparams ⊢
        rw [widenImpl_generic isName_optional (List.cons_ne_nil part []) (by simpa using hparams)]
        unfold widenParameterized
        cases v <;> simp

/-- The pattern of a flow between containers is read back component by component. -/
theorem perform_container {t s : TypeInfo} {v : Value} :
    (widenImpl (runtimeLevels + 1) v
      ((containerPattern (wideningPatternAt levels) t s).getD (bytes "_"))).getD v =
      convertContainer (performAt levels runtimeLevels t.innerTypes s.innerTypes) t s v := by
  have hother {count : Nat} {base : Bytes} (hbase : IsName base) (hcount : 0 < count)
      (hv : ∀ p params, widenParameterized (widenImpl runtimeLevels) v base (p :: params) = none) :
      performGeneric levels runtimeLevels base count t.innerTypes s.innerTypes v = v := by
    obtain ⟨-, heq⟩ | ⟨p, params, -, -, heq⟩ :=
      performGeneric_cases levels runtimeLevels t.innerTypes s.innerTypes hbase hcount v
    · exact heq
    · rw [heq, hv, Option.getD_none]
  unfold containerPattern convertContainer
  split
  · rename_i hkind
    rw [hkind]
    cases v with
    | array vs => exact performGeneric_array
    | _ => exact hother isName_array Nat.one_pos fun p params => by simp +decide [widenParameterized]
  · rename_i hkind
    rw [hkind]
    cases v with
    | dictionary entries => exact performGeneric_dictionary
    | _ =>
      exact hother isName_dictionary Nat.one_pos fun p params => by
        simp +decide [widenParameterized]
  · rename_i hkind
    rw [hkind]
    have hpos : 0 < if 1 < t.innerTypes.length ∧ 1 < s.innerTypes.length then 2 else 1 := by
      split <;> omega
    cases v with
    | result isSuccess inner code origin => exact performGeneric_result
    | _ =>
      exact hother isName_result hpos fun p params => by simp +decide [widenParameterized]
  · rename_i hkind
    rw [hkind]
    split
    · rename_i hlen
      rw [Option.getD_none, widenImpl_underscore, Option.getD_none]
      cases v with
      | tuple vs => exact (if_neg fun h => hlen h.1).symm
      | _ => rfl
    · rename_i hlen
      rw [not_not] at hlen
      cases v with
      | tuple vs =>
        rw [perform_tuple hlen]
        simp only [hlen, true_and]
      | _ => exact perform_tuple_other fun vs h => by simp at h
  · rename_i hnone
    rw [Option.getD_none, widenImpl_underscore, Option.getD_none]
    split <;> simp_all

end Layers

/-- The machine's reading of a pattern converts the value along the two types. -/
theorem perform_convert {levels runtimeLevels : Nat} {t s : TypeInfo} {v : Value} :
    perform levels runtimeLevels t s v = convert (min levels runtimeLevels) t s v := by
  induction levels generalizing runtimeLevels t s v with
  | zero =>
    rw [perform, wideningPatternAt, Option.getD_none, widenImpl_underscore, Nat.zero_min]
    rfl
  | succ levels ih =>
    cases runtimeLevels with
    | zero => rfl
    | succ runtimeLevels =>
      have hrec : perform levels runtimeLevels = convert (min levels runtimeLevels) := by
        funext t s v
        exact ih
      rw [Nat.add_min_add_right, perform, wideningPatternAt, convert, ← hrec]
      split
      · exact widenImpl_number
      · split
        · exact perform_optional
        · split
          · rw [Option.getD_none, widenImpl_underscore, Option.getD_none]
          · exact perform_container

end TypeInfo

end Luma
