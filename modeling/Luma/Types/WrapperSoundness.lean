-- SUMMARY: When the operators on optionals and results yield values of their static types.
import Luma.Types.NumericSoundness
import Luma.Types.Wrappers

/-! # Soundness of the Optional and Result Operators

A value of a wrapper type has its outermost layer present or missing. An operator is sound
when it yields values of its static type and takes exactly the outermost layer for missing.
Since an optional has no wrapper at run time, a layer under it that can itself be missing,
or that is a result, is taken for the outermost one. -/

namespace Luma

open Codec

namespace TypeInfo

/-! ## Layers -/

/-- The value `v` of a wrapper type holds `x` in its outermost layer. -/
inductive Present (W : World) : TypeInfo → Value → Value → Prop where
  | optional {t : TypeInfo} {x : Value} (h : Inhabits W t x) : Present W (makeOptional t) x x
  | result {t e : TypeInfo} {x : Value} {code origin : Bytes} (h : Inhabits W t x) :
      Present W (makeResult t e) (.result true x code origin) x

/-- The outermost layer of the value holds nothing. -/
inductive Missing (W : World) : TypeInfo → Value → Prop where
  | optional {t : TypeInfo} : Missing W (makeOptional t) .null
  | result {t e : TypeInfo} {x : Value} {code origin : Bytes} (h : Inhabits W e x) :
      Missing W (makeResult t e) (.result false x code origin)
  | none : Missing W (make .none) .null

/-- Optionals and results, nested in any way around types that have values. -/
inductive Nested (W : World) : TypeInfo → Prop where
  | base {t : TypeInfo} (hoptional : t.kind ≠ .optional) (hresult : t.kind ≠ .result)
      (hany : t.kind ≠ .stdlibAny) (hunknown : t.kind ≠ .unknown)
      (hshape : ∀ u ∈ t.innerTypes, WellShaped u) (hvalue : ∃ v, Inhabits W t v) : Nested W t
  | optional {t : TypeInfo} (h : Nested W t) : Nested W (makeOptional t)
  | result {t e : TypeInfo} (h : Nested W t) (he : Nested W e) : Nested W (makeResult t e)

/-- Can a value of the type be `none`? -/
def isNullable (t : TypeInfo) : Bool :=
  t.kind = .optional ∨ t.kind = .none ∨ t.kind = .void

/-- Is the layer of an optional of the type seen at run time? -/
def Distinct (t : TypeInfo) : Prop := t.isNullable = false ∧ t.kind ≠ .result

/-- Can a value of the type be a result, under any number of optionals? -/
def holdsResult : TypeInfo → Bool
  | .mk kind _ inner _ =>
    match kind, inner with
    | .result, _ => true
    | .optional, t :: _ => holdsResult t
    | _, _ => false

/-! ## Soundness of an operator -/

/-- The operators on wrappers, with the static types of their other operands. A piped
    function is given by the types of its first parameter and of what it returns. -/
inductive WrapperOperator where
  | nullCoalesce (right : TypeInfo)
  | propagate (ctx : CheckingContext)
  | errorPipe (parameter rightType : TypeInfo)
  | optionalField (field : Bytes)
  | optionalIndex (index : IndexOperand)

/-- The checker knows the fields that are declared. -/
structure Respects (W : World) (decls : Declarations) : Prop where
  record {name typeName : Bytes} {args : List TypeInfo} {fields : List (Bytes × TypeInfo)} :
    W.recordFields name typeName args = some fields → decls.recordFields name args = some fields
  interface {name : Bytes} {args : List TypeInfo} {fields : List (Bytes × TypeInfo)} :
    W.interfaceFields name args = some fields → decls.interfaceFields name args = some fields

namespace WrapperOperator

section Statements

variable (symbols : SymbolTables) (decls : Declarations) (maxCallDepth : Nat) (W : World)

/-- The static type of the operator applied to an operand of type `left`. -/
def check (left : TypeInfo) : WrapperOperator → Option TypeInfo
  | nullCoalesce right => (checkNullCoalescing symbols left right).map Coalesced.type
  | propagate ctx => checkPropagation symbols ctx left
  | errorPipe _ rightType => some (visitErrorPipe rightType)
  | optionalField field => visitOptionalField decls left field
  | optionalIndex index => visitOptionalIndex left index

/-- The default of `??`, converted as it was marked. -/
def convertedDefault (target : Option TypeInfo) (right : TypeInfo) (e : Operand) : Value :=
  match target with
  | some target => (e.markNumericWidening target right).value maxCallDepth
  | none => e.value

/-- The other type an operator takes values of: what a piped function returns. -/
def OperandNested : WrapperOperator → Prop
  | errorPipe _ rightType => Nested W rightType
  | _ => True

/-- The operator, applied to an operand of type `left`, yields values of `type`, and takes
    its other way exactly where the outermost layer is missing. -/
def Sound (left type : TypeInfo) : WrapperOperator → Prop
  | nullCoalesce right =>
      (∀ l x, Present W left l x → ∃ y, l.nullCoalesce = some y ∧ Inhabits W type y) ∧
      (∀ l, Missing W left l → l.nullCoalesce = none) ∧
      ∀ c, checkNullCoalescing symbols left right = some c → ∀ e : Operand,
        Inhabits W right e.value →
          Inhabits W type (convertedDefault maxCallDepth c.defaultTarget right e)
  | propagate _ => ∀ isMain : Bool,
      (∀ l x, Present W left l x → ∃ y, l.propagate isMain = .value y ∧ Inhabits W type y) ∧
      ∀ l y, Missing W left l → l.propagate isMain ≠ .value y
  | errorPipe parameter rightType => ∀ f : Value → Option Value,
      (∀ v u, Inhabits W parameter v → f v = some u → Inhabits W rightType u) →
      ∀ l r, Inhabits W left l → l.errorPipe f = some r →
        Inhabits W type r ∧
        (rightType.kind ≠ .result → l.isSuccess = true →
          ∃ u, Inhabits W rightType u ∧ r = .result true u [] [])
  | optionalField field => ∀ l, Inhabits W left l → Inhabits W type (l.getFieldOpt field)
  | optionalIndex index => ∀ l i r, Inhabits W left l → Inhabits W index.type i →
      l.indexGetOpt i = some r → Inhabits W type r

/-- A numeric flow from `source` keeps its values in `target`. -/
def KeepsNumbers (target source : TypeInfo) : Prop :=
  ∀ e : Operand, Inhabits W source e.value →
    Inhabits W target ((e.markNumericWidening target source).value maxCallDepth)

/-- The operator keeps the layers apart, and its operands fit together. -/
def Separates (left : TypeInfo) : WrapperOperator → Prop
  | nullCoalesce right =>
      (∀ t, left = makeOptional t → Distinct t) ∧
      (∀ t e, left = makeResult t e → ¬ (right.kind = .result ∧
        right.innerTypes.head?.any fun u => isAssignable symbols t u)) ∧
      ∀ c target, checkNullCoalescing symbols left right = some c →
        c.defaultTarget = some target → KeepsNumbers maxCallDepth W target right
  | propagate _ => ∀ t, left = makeOptional t → Distinct t
  | errorPipe parameter rightType =>
      left.isNullable = false ∧
      (rightType.kind ≠ .result → rightType.holdsResult = false) ∧
      (left.kind ≠ .result → ∀ v, Inhabits W left v → Inhabits W parameter v) ∧
      ∀ t e, left = makeResult t e →
        (∀ v, Inhabits W t v → Inhabits W parameter v) ∧
        ∀ t' e', rightType = makeResult t' e' → ∀ v, Inhabits W e v → Inhabits W e' v
  | optionalField _ => True
  | optionalIndex _ => True

end Statements

end WrapperOperator

-- The equations of the definitions are derived here, once for all proofs.
section
attribute [local simp] holdsResult WrapperOperator.check
end

/-! ## Values of nested types -/

section Values

variable {W : World} {t : TypeInfo} {v : Value}

theorem Nested.inhabited (h : Nested W t) : ∃ v, Inhabits W t v := by
  induction h with
  | base _ _ _ _ _ hvalue => exact hvalue
  | optional _ _ => exact ⟨.null, .missing⟩
  | result _ _ ih _ =>
    obtain ⟨v, hv⟩ := ih
    exact ⟨.result true v [] [], .success hv⟩

theorem Nested.kind_closed (h : Nested W t) : t.kind ≠ .stdlibAny ∧ t.kind ≠ .unknown := by
  cases h with
  | base _ _ hany hunknown _ _ => exact ⟨hany, hunknown⟩
  | optional _ => exact ⟨by simp, by simp⟩
  | result _ _ => exact ⟨by simp, by simp⟩

theorem Nested.optional_form (h : Nested W t) (hk : t.kind = .optional) :
    ∃ u, t = makeOptional u ∧ Nested W u := by
  cases h with
  | base hoptional _ _ _ _ _ => exact absurd hk hoptional
  | optional h => exact ⟨_, rfl, h⟩
  | result _ _ => simp at hk

theorem Nested.result_form (h : Nested W t) (hk : t.kind = .result) :
    ∃ u e, t = makeResult u e ∧ Nested W u ∧ Nested W e := by
  cases h with
  | base _ hresult _ _ _ _ => exact absurd hk hresult
  | optional _ => simp at hk
  | result h he => exact ⟨_, _, rfl, h, he⟩

theorem makeOptional_injective {t u : TypeInfo} (h : makeOptional t = makeOptional u) : t = u := by
  simpa [makeOptional, makeSingleInner] using h

theorem makeResult_injective {t e u f : TypeInfo} (h : makeResult t e = makeResult u f) :
    t = u ∧ e = f := by
  simpa [makeResult] using h

theorem Nested.of_optional (h : Nested W (makeOptional t)) : Nested W t := by
  obtain ⟨u, heq, hu⟩ := h.optional_form rfl
  rw [makeOptional_injective heq]
  exact hu

theorem Nested.of_result {e : TypeInfo} (h : Nested W (makeResult t e)) :
    Nested W t ∧ Nested W e := by
  obtain ⟨u, f, heq, hu, hf⟩ := h.result_form rfl
  obtain ⟨rfl, rfl⟩ := makeResult_injective heq
  exact ⟨hu, hf⟩

/-- The type `none` and the type of no value have one value. -/
theorem Inhabits.null_of_kind (h : Inhabits W t v) (hk : t.kind = .none ∨ t.kind = .void) :
    v = .null := by
  cases h with
  | none => rfl
  | void => rfl
  | _ => simp [kind, make, makeOptional, makeArray, makeDict, makeResult, makeTuple, makeTask,
      makeCollection, makeGeneric, makeReference, makeSingleInner] at hk

theorem Nested.null_of_isNullable (h : Nested W t) (hnull : t.isNullable = true) :
    Inhabits W t .null := by
  simp only [isNullable, decide_eq_true_eq] at hnull
  obtain hk | hk := hnull
  · obtain ⟨u, rfl, _⟩ := h.optional_form hk
    exact .missing
  · obtain ⟨v, hv⟩ := h.inhabited
    rw [← hv.null_of_kind hk]
    exact hv

/-- A value of a closed type that is neither nullable nor a result is neither `none` nor a
    result. -/
theorem Inhabits.plain (h : Inhabits W t v) (hnull : t.isNullable = false)
    (hresult : t.kind ≠ .result) (hany : t.kind ≠ .stdlibAny) :
    v ≠ .null ∧ ∀ b x code origin, v ≠ .result b x code origin := by
  cases h with
  | @collection c _ _ _ => cases c <;> simp [CollectionKind.value]
  | any _ => simp at hany
  | none => simp [isNullable] at hnull
  | void => simp [isNullable] at hnull
  | missing => simp [isNullable] at hnull
  | present _ => simp [isNullable] at hnull
  | success _ => simp at hresult
  | failure _ => simp at hresult
  | _ => simp

/-- No value of a nested type is an XML document. -/
theorem Nested.no_xml (h : Nested W t) {document : Nat} : ¬ Inhabits W t (.xml document) := by
  intro hv
  induction h with
  | base hoptional _ hany _ _ _ =>
    generalize hx : Value.xml document = x at hv
    cases hv with
    | any _ => simp at hany
    | present _ => simp at hoptional
    | @collection c _ _ _ => cases c <;> simp [CollectionKind.value] at hx
    | _ => simp at hx
  | optional _ ih =>
    obtain hnull | hv := hv.optional_inv
    · simp at hnull
    · exact ih hv
  | result _ _ _ _ =>
    obtain ⟨_, _, _, _, heq, _⟩ := hv.result_inv
    simp at heq

/-- A result is described by result types, optionals and the open type only. -/
theorem Inhabits.result_kind {b : Bool} {x : Value} {code origin : Bytes}
    (h : Inhabits W t (.result b x code origin)) :
    t.kind = .result ∨ t.kind = .optional ∨ t.kind = .stdlibAny := by
  generalize hv : Value.result b x code origin = v at h
  cases h with
  | any _ => exact .inr (.inr rfl)
  | present _ => exact .inr (.inl rfl)
  | success _ => exact .inl rfl
  | failure _ => exact .inl rfl
  | @collection c _ _ _ => cases c <;> simp [CollectionKind.value] at hv
  | _ => simp at hv

/-- Wrapping a type once more always leaves some of its values out. -/
theorem Nested.exists_outside (h : Nested W t) :
    ∃ x, Inhabits W t x ∧ ∀ e, ¬ Inhabits W (makeResult t e) x := by
  induction h with
  | @base t hoptional hresult hany _ _ hvalue =>
    obtain ⟨x, hx⟩ := hvalue
    refine ⟨x, hx, fun e hout => ?_⟩
    obtain ⟨b, y, code, origin, rfl, _⟩ := hout.result_inv
    obtain hk | hk | hk := hx.result_kind
    · exact hresult hk
    · exact hoptional hk
    · exact hany hk
  | @optional t _ _ =>
    refine ⟨.null, .missing, fun e hout => ?_⟩
    obtain ⟨_, _, _, _, heq, _⟩ := hout.result_inv
    simp at heq
  | @result t te _ _ ih _ =>
    obtain ⟨y, hy, hnot⟩ := ih
    refine ⟨.result true y [] [], .success hy, fun e hout => ?_⟩
    obtain ⟨b, x, code, origin, heq, hx⟩ := hout.result_inv
    cases heq
    exact hnot te hx

/-- Only a type that holds results describes one. -/
theorem Nested.result_inside (h : Nested W t) (hfree : t.holdsResult = false) {b : Bool}
    {x : Value} {code origin : Bytes} : ¬ Inhabits W t (.result b x code origin) := by
  intro hv
  induction h with
  | base hoptional hresult hany _ _ _ =>
    obtain hk | hk | hk := hv.result_kind
    · exact hresult hk
    · exact hoptional hk
    · exact hany hk
  | optional _ ih =>
    obtain hnull | hv := hv.optional_inv
    · simp at hnull
    · exact ih (by simpa [holdsResult, makeOptional, makeSingleInner] using hfree) hv
  | result _ _ _ _ => simp [holdsResult, makeResult] at hfree

/-- A type that holds results describes a failure. -/
theorem Nested.exists_failure (h : Nested W t) (hholds : t.holdsResult = true) :
    ∃ x, Inhabits W t (.result false x [] []) := by
  induction h with
  | @base t hoptional hresult _ _ _ _ =>
    obtain ⟨kind, name, inner, ret⟩ := t
    unfold holdsResult at hholds
    split at hholds
    · exact absurd rfl hresult
    · exact absurd rfl hoptional
    · simp at hholds
  | optional _ ih =>
    obtain ⟨x, hx⟩ := ih (by simpa [holdsResult, makeOptional, makeSingleInner] using hholds)
    exact ⟨x, .present hx⟩
  | result _ he _ _ =>
    obtain ⟨x, hx⟩ := he.inhabited
    exact ⟨x, .failure hx⟩

end Values

/-! ## The outermost layer -/

section Outermost

variable {W : World} {t e : TypeInfo} {l x : Value}

theorem Present.optional_inv (h : Present W (makeOptional t) l x) : l = x ∧ Inhabits W t x := by
  cases h with
  | optional h => exact ⟨rfl, h⟩

theorem Present.result_inv (h : Present W (makeResult t e) l x) :
    (∃ code origin, l = .result true x code origin) ∧ Inhabits W t x := by
  cases h with
  | result h => exact ⟨⟨_, _, rfl⟩, h⟩

theorem Missing.optional_inv (h : Missing W (makeOptional t) l) : l = .null := by
  cases h with
  | optional => rfl

theorem Missing.result_inv (h : Missing W (makeResult t e) l) :
    ∃ y code origin, l = .result false y code origin := by
  cases h with
  | result h => exact ⟨_, _, _, rfl⟩

/-- Where it does, a present value is neither `none` nor a result. -/
theorem Nested.present_plain (ht : Nested W t) (hd : Distinct t) (hx : Inhabits W t x) :
    x ≠ .null ∧ ∀ b y code origin, x ≠ .result b y code origin :=
  hx.plain hd.1 hd.2 ht.kind_closed.1

/-- Where it does not, some present value passes for a missing one. -/
theorem Nested.exists_confused (ht : Nested W t) (hd : ¬ Distinct t) :
    ∃ x, Inhabits W t x ∧ (x = .null ∨ ∃ y, x = .result false y [] []) := by
  by_cases hnull : t.isNullable = true
  · exact ⟨.null, ht.null_of_isNullable hnull, .inl rfl⟩
  · have hk : t.kind = .result := by
      by_contra hk
      exact hd ⟨by simpa using hnull, hk⟩
    obtain ⟨u, e, rfl, _, he⟩ := ht.result_form hk
    obtain ⟨y, hy⟩ := he.inhabited
    exact ⟨_, .failure hy, .inr ⟨y, rfl⟩⟩

end Outermost

/-! ## Null coalescing -/

section Coalescing

variable {symbols : SymbolTables} {decls : Declarations} {maxCallDepth : Nat} {W : World}
  {left inner right type t e : TypeInfo} {c : Coalesced}

/-- Two wrappers are chained, or the default takes the place of what is inside the first. -/
theorem coalesceWith_cases (h : coalesceWith symbols left inner right = some c) :
    (c = ⟨left, some left⟩ ∧ right.kind = left.kind ∧
      right.innerTypes.head?.any (fun u => isAssignable symbols inner u) = true) ∨
    (c = ⟨inner, some inner⟩ ∧ ¬ (right.kind = left.kind ∧
      right.innerTypes.head?.any (fun u => isAssignable symbols inner u) = true)) := by
  unfold coalesceWith at h
  split at h
  · rename_i hchain
    exact .inl ⟨(Option.some.inj h).symm, hchain⟩
  · rename_i hchain
    split at h
    · simp at h
    · exact .inr ⟨(Option.some.inj h).symm, hchain⟩

/-- What the left operand of an accepted `??` is. -/
theorem checkNullCoalescing_cases (hleft : Nested W left)
    (h : checkNullCoalescing symbols left right = some c) :
    (∃ t, left = makeOptional t ∧ Nested W t ∧ coalesceWith symbols left t right = some c) ∨
    (∃ t e, left = makeResult t e ∧ Nested W t ∧ Nested W e ∧
      coalesceWith symbols left t right = some c) ∨
    (left.kind = .none ∧ c = ⟨right, none⟩) := by
  unfold checkNullCoalescing at h
  split at h
  · rename_i hk
    obtain ⟨t, rfl, ht⟩ := hleft.optional_form hk
    exact .inl ⟨t, rfl, ht, h⟩
  · split at h
    · rename_i hk
      obtain ⟨t, e, rfl, ht, he⟩ := hleft.result_form hk.1
      exact .inr (.inl ⟨t, e, rfl, ht, he, h⟩)
    · split at h
      · rename_i hk
        exact .inr (.inr ⟨hk, (Option.some.inj h).symm⟩)
      · split at h
        · simp at h
        · rename_i hopen
          exact absurd hleft.kind_closed hopen

/-- The default of an accepted `??` becomes a value of the type of the operator exactly when
    the flow into that type keeps its values. -/
theorem checkNullCoalescing_default (hleft : Nested W left)
    (h : checkNullCoalescing symbols left right = some c) :
    c.defaultTarget = some c.type ∨ c.defaultTarget = none ∧ c.type = right := by
  obtain ⟨t, _, _, hc⟩ | ⟨t, e, _, _, _, hc⟩ | ⟨_, rfl⟩ := checkNullCoalescing_cases hleft h
  · obtain ⟨rfl, _⟩ | ⟨rfl, _⟩ := coalesceWith_cases hc
    · exact .inl rfl
    · exact .inl rfl
  · obtain ⟨rfl, _⟩ | ⟨rfl, _⟩ := coalesceWith_cases hc
    · exact .inl rfl
    · exact .inl rfl
  · exact .inr ⟨rfl, rfl⟩

theorem nullCoalesce_plain {x : Value}
    (h : x ≠ .null ∧ ∀ b y code origin, x ≠ .result b y code origin) :
    x.nullCoalesce = some x := by
  obtain ⟨hnull, hresult⟩ := h
  cases x with
  | null => exact absurd rfl hnull
  | result b y code origin => exact absurd rfl (hresult b y code origin)
  | _ => rfl

theorem nullCoalesce_confused {x : Value} (h : x = .null ∨ ∃ y, x = .result false y [] []) :
    x.nullCoalesce = none := by
  obtain rfl | ⟨y, rfl⟩ := h
  · rfl
  · rfl

/-- The way past the default is sound exactly when the layers stay apart. -/
theorem nullCoalesce_present_iff (hleft : Nested W left)
    (h : checkNullCoalescing symbols left right = some c) :
    (∀ l x, Present W left l x → ∃ y, l.nullCoalesce = some y ∧ Inhabits W c.type y) ↔
    (∀ t, left = makeOptional t → Distinct t) ∧
    ∀ t e, left = makeResult t e → ¬ (right.kind = .result ∧
      right.innerTypes.head?.any fun u => isAssignable symbols t u) := by
  constructor
  · intro hsound
    constructor
    · rintro t rfl
      by_contra hd
      obtain ⟨x, hx, hconf⟩ := hleft.of_optional.exists_confused hd
      obtain ⟨y, hy, _⟩ := hsound x x (.optional hx)
      rw [nullCoalesce_confused hconf] at hy
      simp at hy
    · rintro t e rfl hchain
      obtain ⟨x, hx, hout⟩ := hleft.of_result.1.exists_outside
      obtain ⟨y, hy, htype⟩ := hsound (.result true x [] []) x (.result hx)
      cases hy
      have hc : coalesceWith symbols (makeResult t e) t right = some c := by
        simpa [checkNullCoalescing, makeResult, kind, innerTypes] using h
      obtain ⟨rfl, _⟩ | ⟨_, hnot⟩ := coalesceWith_cases hc
      · exact hout e htype
      · exact hnot hchain
  · rintro ⟨hoptional, hresult⟩ l x hx
    obtain ⟨t, rfl, ht, hc⟩ | ⟨t, e, rfl, ht, he, hc⟩ | ⟨hk, _⟩ :=
      checkNullCoalescing_cases hleft h
    · obtain ⟨rfl, hx⟩ := hx.optional_inv
      refine ⟨l, nullCoalesce_plain (ht.present_plain (hoptional t rfl) hx), ?_⟩
      obtain ⟨rfl, _⟩ | ⟨rfl, _⟩ := coalesceWith_cases hc
      · exact .present hx
      · exact hx
    · obtain ⟨⟨code, origin, rfl⟩, hinner⟩ := hx.result_inv
      refine ⟨x, rfl, ?_⟩
      obtain ⟨_, hchain⟩ | ⟨rfl, _⟩ := coalesceWith_cases hc
      · exact absurd hchain (hresult t e rfl)
      · exact hinner
    · cases hx with
      | optional _ => simp at hk
      | result _ => simp at hk

/-- Whatever is missing, the default is evaluated. -/
theorem nullCoalesce_missing {l : Value} (h : Missing W left l) : l.nullCoalesce = none := by
  cases h with
  | optional => rfl
  | result _ => rfl
  | none => rfl

theorem nullCoalesce_sound_iff (hleft : Nested W left)
    (h : (WrapperOperator.nullCoalesce right).check symbols decls left = some type) :
    (WrapperOperator.nullCoalesce right).Sound symbols maxCallDepth W left type ↔
      (WrapperOperator.nullCoalesce right).Separates symbols maxCallDepth W left := by
  obtain ⟨c, hc, rfl⟩ := Option.map_eq_some_iff.mp h
  have hpresent := nullCoalesce_present_iff hleft hc
  have hdefault := checkNullCoalescing_default hleft hc
  constructor
  · rintro ⟨hp, _, hd⟩
    obtain ⟨hoptional, hresult⟩ := hpresent.mp hp
    refine ⟨hoptional, hresult, fun c' target hc' htarget e he => ?_⟩
    obtain rfl : c = c' := Option.some.inj (hc.symm.trans hc')
    have hv := hd c hc e he
    obtain htype | ⟨hnone, _⟩ := hdefault
    · obtain rfl : c.type = target := Option.some.inj (htype.symm.trans htarget)
      rw [htype] at hv
      exact hv
    · rw [hnone] at htarget
      simp at htarget
  · rintro ⟨hoptional, hresult, hkeeps⟩
    refine ⟨hpresent.mpr ⟨hoptional, hresult⟩, fun l hl => nullCoalesce_missing hl, ?_⟩
    intro c' hc' e he
    obtain rfl : c = c' := Option.some.inj (hc.symm.trans hc')
    obtain htype | ⟨hnone, htype⟩ := hdefault
    · rw [htype]
      exact hkeeps c c.type hc htype e he
    · rw [hnone, htype]
      exact he

end Coalescing

/-! ## Propagation -/

section Propagation

variable {symbols : SymbolTables} {decls : Declarations} {ctx : CheckingContext}
  {maxCallDepth : Nat} {W : World} {left type : TypeInfo}

/-- What the operand of an accepted `?` is. -/
theorem checkPropagation_cases (hleft : Nested W left)
    (h : checkPropagation symbols ctx left = some type) :
    left = makeOptional type ∨ ∃ e, left = makeResult type e := by
  unfold checkPropagation at h
  split at h
  · simp at h
  · split at h
    · simp at h
    · split at h
      · simp at h
      · split at h
        · rename_i hk
          obtain ⟨t, e, rfl, _, _⟩ := hleft.result_form hk
          split at h
          · simp at h
          · exact .inr ⟨e, by rw [← Option.some.inj h]; rfl⟩
        · split at h
          · rename_i hk
            obtain ⟨t, rfl, _⟩ := hleft.optional_form hk
            exact .inl (by rw [← Option.some.inj h]; rfl)
          · split at h
            · simp at h
            · rename_i hopen
              exact absurd hleft.kind_closed hopen

theorem propagate_plain {isMain : Bool} {x : Value}
    (h : x ≠ .null ∧ ∀ b y code origin, x ≠ .result b y code origin) :
    x.propagate isMain = .value x := by
  obtain ⟨hnull, hresult⟩ := h
  cases x with
  | null => exact absurd rfl hnull
  | result b y code origin => exact absurd rfl (hresult b y code origin)
  | _ => cases isMain <;> rfl

/-- `none` and a failure end the evaluation, whatever they are of. -/
theorem propagate_ends {isMain : Bool} {x y : Value}
    (h : x = .null ∨ ∃ z code origin, x = .result false z code origin) :
    x.propagate isMain ≠ .value y := by
  obtain rfl | ⟨z, code, origin, rfl⟩ := h
  · cases isMain <;> simp [Value.propagate, Value.unwrap, Value.isSuccess]
  · cases isMain <;> simp [Value.propagate, Value.unwrap, Value.isSuccess]

theorem propagate_sound_iff (hleft : Nested W left)
    (h : (WrapperOperator.propagate ctx).check symbols decls left = some type) :
    (WrapperOperator.propagate ctx).Sound symbols maxCallDepth W left type ↔
      (WrapperOperator.propagate ctx).Separates symbols maxCallDepth W left := by
  obtain rfl | ⟨e, rfl⟩ := checkPropagation_cases hleft h
  · constructor
    · intro hsound t ht
      obtain rfl := makeOptional_injective ht
      by_contra hd
      obtain ⟨x, hx, hconf⟩ := hleft.of_optional.exists_confused hd
      obtain ⟨y, hy, _⟩ := (hsound true).1 x x (.optional hx)
      refine propagate_ends ?_ hy
      obtain hnull | ⟨z, hz⟩ := hconf
      · exact .inl hnull
      · exact .inr ⟨z, [], [], hz⟩
    · intro hsep isMain
      constructor
      · intro l x hx
        obtain ⟨rfl, hx⟩ := hx.optional_inv
        have hplain := hleft.of_optional.present_plain (hsep type rfl) hx
        exact ⟨l, propagate_plain hplain, hx⟩
      · intro l y hl
        exact propagate_ends (.inl hl.optional_inv)
  · constructor
    · intro _ t ht
      simp [makeResult, makeOptional, makeSingleInner] at ht
    · intro _ isMain
      constructor
      · intro l x hx
        obtain ⟨⟨code, origin, rfl⟩, hinner⟩ := hx.result_inv
        refine ⟨x, ?_, hinner⟩
        cases isMain <;> rfl
      · intro l y hl
        exact propagate_ends (.inr hl.result_inv)

end Propagation

/-! ## Error pipes -/

section Pipes

variable {symbols : SymbolTables} {maxCallDepth : Nat} {W : World}
  {left parameter rightType t e : TypeInfo}

theorem errorPipe_plain {f : Value → Option Value} {x : Value}
    (h : x ≠ .null ∧ ∀ b y code origin, x ≠ .result b y code origin) :
    x.errorPipe f = (f x).map Value.ensureSuccess ∧ x.isSuccess = true := by
  obtain ⟨hnull, hresult⟩ := h
  cases x with
  | null => exact absurd rfl hnull
  | result b y code origin => exact absurd rfl (hresult b y code origin)
  | _ => exact ⟨rfl, rfl⟩

/-- What a successful step of the pipe yields, if `f` yields a result exactly when it
    declares one. -/
theorem ensureSuccess_inhabits {u : Value} (hright : Nested W rightType)
    (hholds : rightType.kind ≠ .result → rightType.holdsResult = false)
    (hu : Inhabits W rightType u) :
    Inhabits W (visitErrorPipe rightType) u.ensureSuccess ∧
      (rightType.kind ≠ .result → u.ensureSuccess = .result true u [] []) := by
  unfold visitErrorPipe
  split
  · rename_i hk
    obtain ⟨t, e, rfl, _, _⟩ := hright.result_form hk
    obtain ⟨b, y, code, origin, rfl, _⟩ := hu.result_inv
    exact ⟨hu, fun hne => absurd hk hne⟩
  · rename_i hk
    have hplain : u.ensureSuccess = .result true u [] [] := by
      cases u with
      | result b y code origin => exact absurd hu (hright.result_inside (hholds hk))
      | _ => rfl
    rw [hplain]
    exact ⟨.success hu, fun _ => rfl⟩

/-- A value the piped function was never checked for can come out as anything. -/
theorem not_sound_of_unchecked {l v : Value} (hright : Nested W rightType)
    (hl : Inhabits W left l) (hv : ¬ Inhabits W parameter v)
    (hcall : ∀ f : Value → Option Value, l.errorPipe f = (f v).map Value.ensureSuccess) :
    ¬ (WrapperOperator.errorPipe parameter rightType).Sound symbols maxCallDepth W left
      (visitErrorPipe rightType) := by
  intro hsound
  classical
  obtain ⟨htype, -⟩ := hsound (fun x => if x = v then some (.xml 0) else none) (by
    intro x u hx hu
    split at hu
    · rename_i heq
      exact absurd (heq ▸ hx) hv
    · simp at hu) l (.result true (.xml 0) [] []) hl (by
    rw [hcall, if_pos rfl]
    rfl)
  unfold visitErrorPipe at htype
  split at htype
  · rename_i hk
    obtain ⟨t, e, rfl, ht, _⟩ := hright.result_form hk
    obtain ⟨b, x, code, origin, heq, hx⟩ := htype.result_inv
    cases heq
    exact ht.no_xml hx
  · obtain ⟨b, x, code, origin, heq, hx⟩ := htype.result_inv
    cases heq
    exact hright.no_xml hx

/-- Some value goes into the piped function unless every value of the type is `none`. -/
theorem Nested.exists_piped (hleft : Nested W left) (hnull : left.isNullable = false) :
    ∃ l v, Inhabits W left l ∧ l.isSuccess = true ∧
      ∀ f : Value → Option Value, l.errorPipe f = (f v).map Value.ensureSuccess := by
  by_cases hk : left.kind = .result
  · obtain ⟨t, e, rfl, ht, _⟩ := hleft.result_form hk
    obtain ⟨x, hx⟩ := ht.inhabited
    exact ⟨.result true x [] [], x, .success hx, rfl, fun f => rfl⟩
  · obtain ⟨x, hx⟩ := hleft.inhabited
    have hplain := hx.plain hnull hk hleft.kind_closed.1
    exact ⟨x, x, hx, (errorPipe_plain (f := some) hplain).2,
      fun f => (errorPipe_plain hplain).1⟩

theorem errorPipe_separates_of_sound (hleft : Nested W left) (hright : Nested W rightType)
    (hsound : (WrapperOperator.errorPipe parameter rightType).Sound symbols maxCallDepth W left
      (visitErrorPipe rightType)) :
    (WrapperOperator.errorPipe parameter rightType).Separates symbols maxCallDepth W left := by
  have hnull : left.isNullable = false := by
    by_contra hnull
    have hl := hleft.null_of_isNullable (by simpa using hnull)
    obtain ⟨htype, -⟩ := hsound (fun _ => none) (by simp) .null .null hl rfl
    unfold visitErrorPipe at htype
    split at htype
    · rename_i hk
      obtain ⟨t, e, rfl, _, _⟩ := hright.result_form hk
      obtain ⟨_, _, _, _, heq, _⟩ := htype.result_inv
      simp at heq
    · obtain ⟨_, _, _, _, heq, _⟩ := htype.result_inv
      simp at heq
  refine ⟨hnull, fun hk => ?_, fun hk v hv => ?_, ?_⟩
  · by_contra hholds
    obtain ⟨x, hx⟩ := hright.exists_failure (by simpa using hholds)
    obtain ⟨l, v, hl, hsuccess, hcall⟩ := hleft.exists_piped hnull
    obtain ⟨-, hlayer⟩ := hsound (fun _ => some (.result false x [] []))
      (fun _ u _ hu => by rw [← Option.some.inj hu]; exact hx) l _ hl (hcall _)
    obtain ⟨u, -, hu⟩ := hlayer hk hsuccess
    simp [Value.ensureSuccess] at hu
  · by_contra hnot
    have hplain := hv.plain hnull hk hleft.kind_closed.1
    exact not_sound_of_unchecked hright hv hnot (fun f => (errorPipe_plain hplain).1) hsound
  · rintro t e rfl
    constructor
    · intro v hv
      by_contra hnot
      have hsuccess : Inhabits W (makeResult t e) (.result true v [] []) := .success hv
      exact not_sound_of_unchecked hright hsuccess hnot (fun f => rfl) hsound
    · rintro t' e' rfl v hv
      obtain ⟨htype, -⟩ := hsound (fun _ => none) (by simp) (.result false v [] [])
        (.result false v [] []) (.failure hv) rfl
      obtain ⟨b, x, code, origin, heq, hx⟩ := htype.result_inv
      cases heq
      exact hx

theorem errorPipe_sound_of_separates (hleft : Nested W left) (hright : Nested W rightType)
    (hsep : (WrapperOperator.errorPipe parameter rightType).Separates symbols maxCallDepth W
      left) :
    (WrapperOperator.errorPipe parameter rightType).Sound symbols maxCallDepth W left
      (visitErrorPipe rightType) := by
  obtain ⟨hnull, hholds, hplain, hresult⟩ := hsep
  intro f hf l r hl hr
  by_cases hk : left.kind = .result
  · obtain ⟨t, e, rfl, _, _⟩ := hleft.result_form hk
    obtain ⟨hparameter, herror⟩ := hresult t e rfl
    obtain ⟨b, x, code, origin, rfl, hx⟩ := hl.result_inv
    cases b with
    | true =>
      obtain ⟨u, hu, rfl⟩ := Option.map_eq_some_iff.mp hr
      have hu' := hf x u (hparameter x hx) hu
      obtain ⟨htype, hlayer⟩ := ensureSuccess_inhabits hright hholds hu'
      exact ⟨htype, fun hne _ => ⟨u, hu', hlayer hne⟩⟩
    | false =>
      obtain rfl : Value.result false x code origin = r := Option.some.inj hr
      refine ⟨?_, fun _ hsuccess => by simp [Value.isSuccess] at hsuccess⟩
      unfold visitErrorPipe
      split
      · rename_i hkr
        obtain ⟨t', e', rfl, _, _⟩ := hright.result_form hkr
        exact .failure (herror t' e' rfl x hx)
      · exact .failure (.any x)
  · have hl' := hl.plain hnull hk hleft.kind_closed.1
    rw [(errorPipe_plain hl').1] at hr
    obtain ⟨u, hu, rfl⟩ := Option.map_eq_some_iff.mp hr
    have hu' := hf l u (hplain hk l hl) hu
    obtain ⟨htype, hlayer⟩ := ensureSuccess_inhabits hright hholds hu'
    exact ⟨htype, fun hne _ => ⟨u, hu', hlayer hne⟩⟩

end Pipes

/-! ## Optional access -/

section Access

variable {decls : Declarations} {W : World} {left t : TypeInfo} {l v : Value} {field : Bytes}

theorem withOptionalNull_null (h : WellShaped t) : Inhabits W (withOptionalNull t) .null := by
  unfold withOptionalNull
  split
  · exact .missing
  · rename_i hk
    obtain ⟨u, rfl⟩ := h (not_not.mp hk)
    exact .missing

theorem withOptionalNull_value (h : Inhabits W t v) : Inhabits W (withOptionalNull t) v := by
  unfold withOptionalNull
  split
  · exact .present h
  · exact h

theorem withOptionalNull_any : Inhabits W (withOptionalNull (make .stdlibAny)) v :=
  withOptionalNull_value (.any v)

/-- Components that agree in their names are found together. -/
theorem lookup_zip {types : List (Bytes × TypeInfo)} {fields : List (Bytes × Value)}
    (hnames : types.map Prod.fst = fields.map Prod.fst)
    (h : ∀ p ∈ types.zip fields, Inhabits W p.1.2 p.2.2)
    (htype : OrderedMap.lookup field types = some t) :
    ∃ v, OrderedMap.lookup field fields = some v ∧ Inhabits W t v := by
  induction types generalizing fields with
  | nil => simp [OrderedMap.lookup] at htype
  | cons p types ih =>
    cases fields with
    | nil => simp at hnames
    | cons q fields =>
      simp only [List.map_cons, List.cons.injEq] at hnames
      obtain ⟨hname, hnames⟩ := hnames
      rw [List.zip_cons_cons, List.forall_mem_cons] at h
      unfold OrderedMap.lookup at htype ⊢
      rw [← hname]
      split at htype
      · rename_i hkey
        rw [if_pos hkey]
        refine ⟨q.2, rfl, ?_⟩
        rw [← Option.some.inj htype]
        exact h.1
      · rename_i hkey
        rw [if_neg hkey]
        exact ih hnames h.2 htype

/-- What a named member can be. -/
theorem namedMember_cases {fields : Option (List (Bytes × TypeInfo))}
    {member : Option TypeInfo} (h : namedMember fields field = some member) :
    member = none ∨ ∃ types type, fields = some types ∧
      OrderedMap.lookup field types = some type ∧ member = some type := by
  unfold namedMember at h
  split at h
  · exact .inl (Option.some.inj h).symm
  · rename_i types
    obtain ⟨type, htype, rfl⟩ := Option.map_eq_some_iff.mp h
    exact .inr ⟨types, type, rfl, htype, rfl⟩

/-- The type of a member describes what `?.` finds in a value of the object's type, and also
    what it finds in `none`. -/
def Describes (W : World) (object : TypeInfo) (field : Bytes) (member : Option TypeInfo) : Prop :=
  ∀ l, l = .null ∨ Inhabits W object l →
    Inhabits W (withOptionalNull (member.getD (make .stdlibAny))) (l.getFieldOpt field)

theorem describes_none {object : TypeInfo} : Describes W object field none :=
  fun _ _ => withOptionalNull_any

/-- It does where values of the object's type have no fields at run time. -/
theorem describes_of_shaped {object type : TypeInfo} (hshape : WellShaped type)
    (h : ∀ l, Inhabits W object l → l.getFieldOpt field = .null) :
    Describes W object field (some type) := by
  intro l hl
  have hnull : l.getFieldOpt field = .null := by
    obtain rfl | hl := hl
    · rfl
    · exact h l hl
  rw [hnull]
  exact withOptionalNull_null hshape

theorem recordMember_describes {object : TypeInfo} {member : Option TypeInfo}
    (hrespects : Respects W decls) (hk : object.kind = .record)
    (h : recordMember decls object field = some member) : Describes W object field member := by
  obtain rfl | ⟨types, type, htypes, htype, rfl⟩ := namedMember_cases h
  · exact describes_none
  · have hshape := decls.record_shaped htypes (OrderedMap.mem_of_lookup htype)
    rintro l (rfl | hl)
    · exact withOptionalNull_null hshape
    · cases hl with
      | @collection c _ _ _ => cases c <;> exact withOptionalNull_null hshape
      | record _ hdecl hnames hfields =>
        obtain rfl := Option.some.inj ((hrespects.record hdecl).symm.trans htypes)
        obtain ⟨v, hv, hinhabits⟩ := lookup_zip hnames hfields htype
        rw [Value.getFieldOpt, hv]
        exact withOptionalNull_value hinhabits
      | _ => simp [kind, make, makeOptional, makeArray, makeDict, makeResult, makeTuple, makeTask,
          makeGeneric, makeReference, makeSingleInner] at hk

theorem interfaceMember_describes {object : TypeInfo} {member : Option TypeInfo}
    (hrespects : Respects W decls) (hk : object.kind = .interface)
    (h : interfaceMember decls object field = some member) : Describes W object field member := by
  obtain rfl | ⟨types, type, htypes, htype, rfl⟩ := namedMember_cases h
  · exact describes_none
  · have hmem := OrderedMap.mem_of_lookup htype
    have hshape := decls.interface_shaped htypes hmem
    rintro l (rfl | hl)
    · exact withOptionalNull_null hshape
    · cases hl with
      | @interface _ _ _ types' fields hdecl hall hfields =>
        obtain rfl := Option.some.inj ((hrespects.interface hdecl).symm.trans htypes)
        obtain ⟨v, hv⟩ := Option.isSome_iff_exists.mp (hall _ hmem)
        rw [Value.getFieldOpt, hv]
        exact withOptionalNull_value (hfields _ hmem v hv)
      | _ => simp [kind, make, makeOptional, makeArray, makeDict, makeResult, makeTuple, makeTask,
          makeCollection, makeGeneric, makeReference, makeSingleInner] at hk

/-- A value of a tuple or choice type has no named fields. -/
theorem Inhabits.fieldless {object : TypeInfo} (h : Inhabits W object l)
    (hk : object.kind = .tuple ∨ object.kind = .choice) : l.getFieldOpt field = .null := by
  cases h with
  | tuple _ _ => rfl
  | choice _ _ _ => rfl
  | _ => simp [kind, make, makeOptional, makeArray, makeDict, makeResult, makeTask,
      makeCollection, makeGeneric, makeReference, makeSingleInner] at hk

theorem tupleMember_describes {object : TypeInfo} {member : Option TypeInfo}
    (hshape : ∀ u ∈ object.innerTypes, WellShaped u) (hk : object.kind = .tuple)
    (h : tupleMember object field = some member) : Describes W object field member := by
  unfold tupleMember at h
  split at h
  · rw [← Option.some.inj h]
    exact describes_none
  · split at h
    · obtain ⟨type, htype, rfl⟩ := Option.map_eq_some_iff.mp h
      exact describes_of_shaped (hshape type (List.mem_of_getElem? htype))
        fun l hl => hl.fieldless (.inl hk)
    · simp at h

theorem Nested.innerShaped (h : Nested W t) (hoptional : t.kind ≠ .optional)
    (hresult : t.kind ≠ .result) : ∀ u ∈ t.innerTypes, WellShaped u := by
  cases h with
  | base _ _ _ _ hshape _ => exact hshape
  | optional _ => simp at hoptional
  | result _ _ => simp at hresult

theorem optionalField_sound {symbols : SymbolTables} {maxCallDepth : Nat} {type : TypeInfo}
    (hrespects : Respects W decls) (hleft : Nested W left)
    (h : visitOptionalField decls left field = some type) :
    (WrapperOperator.optionalField field).Sound symbols maxCallDepth W left type := by
  obtain ⟨found, hfound, rfl⟩ := Option.map_eq_some_iff.mp h
  unfold inferFieldAccess at hfound
  obtain ⟨member, hmember, rfl⟩ := Option.map_eq_some_iff.mp hfound
  suffices hdesc : Describes W left field member from fun l hl => hdesc l (.inr hl)
  dsimp only at hmember
  split at hmember
  · rename_i hk
    rw [← Option.some.inj hmember]
    refine describes_of_shaped ?_ fun l hl => hl.fieldless (.inr hk)
    cases hvariant : decls.variantType left.name field with
    | none => exact fun hne => absurd hne (by simp [makeNamed, kind])
    | some variantType => exact decls.variant_shaped hvariant
  · rename_i hk
    exact interfaceMember_describes hrespects hk hmember
  · rename_i hk
    exact recordMember_describes hrespects hk hmember
  · rename_i hk
    exact tupleMember_describes (hleft.innerShaped (by simp [hk]) (by simp [hk])) hk hmember
  · rename_i hk
    obtain ⟨u, rfl, hu⟩ := hleft.optional_form hk
    have hdesc : Describes W u field member := by
      simp only [makeOptional, makeSingleInner, innerTypes, List.headD_cons] at hmember
      split at hmember
      · rename_i hk
        exact recordMember_describes hrespects hk hmember
      · rename_i hk
        exact interfaceMember_describes hrespects hk hmember
      · rename_i hk
        exact tupleMember_describes (hu.innerShaped (by simp [hk]) (by simp [hk])) hk hmember
      · rw [← Option.some.inj hmember]
        exact describes_none
    intro l hl
    obtain rfl | hl := hl
    · exact hdesc _ (.inl rfl)
    · exact hdesc l hl.optional_inv
  · rw [← Option.some.inj hmember]
    exact describes_none

/-- `?[i]` finds an element of an array, or nothing. -/
theorem indexGetOpt_array {vs : List Value} {i r : Value}
    (h : (Value.array vs).indexGetOpt i = some r) : r = .null ∨ r ∈ vs := by
  cases i with
  | integer n =>
    have hr := Option.some.inj h
    split at hr
    · cases hfound : vs[n.toInt.toNat]? with
      | none =>
        rw [hfound] at hr
        exact .inl hr.symm
      | some v =>
        rw [hfound] at hr
        obtain rfl : v = r := hr
        exact .inr (List.mem_of_getElem? hfound)
    · exact .inl hr.symm
  | _ => simp [Value.indexGetOpt] at h

theorem indexGetOpt_dictionary {entries : List (Bytes × Value)} {i r : Value}
    (h : (Value.dictionary entries).indexGetOpt i = some r) :
    r = .null ∨ ∃ key, (key, r) ∈ entries := by
  cases i with
  | string key =>
    have hr := Option.some.inj h
    cases hfound : OrderedMap.lookup key entries with
    | none =>
      rw [hfound] at hr
      exact .inl hr.symm
    | some v =>
      rw [hfound] at hr
      obtain rfl : v = r := hr
      exact .inr ⟨key, OrderedMap.mem_of_lookup hfound⟩
  | _ => simp [Value.indexGetOpt] at h

theorem element_inhabits {object : TypeInfo} {i r : Value}
    (hk : object.kind = .array ∨ object.kind = .dictionary)
    (hshape : ∀ u ∈ object.innerTypes, WellShaped u) (hl : l = .null ∨ Inhabits W object l)
    (hr : l.indexGetOpt i = some r) :
    Inhabits W (withOptionalNull (object.innerTypes.headD (make .stdlibAny))) r := by
  have hhead : WellShaped (object.innerTypes.headD (make .stdlibAny)) := by
    cases hinner : object.innerTypes with
    | nil => exact fun hne => absurd hne (by simp)
    | cons u us => exact hshape u (by simp [hinner])
  obtain rfl | hl := hl
  · obtain rfl : Value.null = r := Option.some.inj hr
    exact withOptionalNull_null hhead
  · cases hl with
    | array hvs =>
      obtain rfl | hmem := indexGetOpt_array hr
      · exact withOptionalNull_null hhead
      · exact withOptionalNull_value (hvs r hmem)
    | dictionary hentries =>
      obtain rfl | ⟨key, hmem⟩ := indexGetOpt_dictionary hr
      · exact withOptionalNull_null hhead
      · exact withOptionalNull_value (hentries _ hmem)
    | _ => simp [kind, make, makeOptional, makeResult, makeTuple, makeTask,
        makeCollection, makeGeneric, makeReference, makeSingleInner] at hk

/-- A value of a string or tuple type has no elements for `?[i]`. -/
theorem Inhabits.elementless {object : TypeInfo} {i : Value} (h : Inhabits W object l)
    (hk : object.kind = .string ∨ object.kind = .tuple) : l.indexGetOpt i = some .null := by
  cases h with
  | string _ => rfl
  | tuple _ _ => rfl
  | _ => simp [kind, make, makeOptional, makeArray, makeDict, makeResult, makeTask,
      makeCollection, makeGeneric, makeReference, makeSingleInner] at hk

theorem Inhabits.range_index {object : TypeInfo} {i : Value} (h : Inhabits W object l)
    (hk : object.kind = .array) (hi : Inhabits W t i) (hrange : t.kind = .range) :
    l.indexGetOpt i = Option.none := by
  cases h with
  | array _ =>
    cases hi with
    | range _ _ _ => rfl
    | _ => simp [kind, make, makeOptional, makeArray, makeDict, makeResult, makeTuple, makeTask,
        makeCollection, makeGeneric, makeReference, makeSingleInner] at hrange
  | _ => simp [kind, make, makeOptional, makeDict, makeResult, makeTuple, makeTask,
      makeCollection, makeGeneric, makeReference, makeSingleInner] at hk

theorem checkOptionalIndex_sound {u : TypeInfo} {i r : Value} (hu : Nested W u)
    (hl : Inhabits W (makeOptional u) l) (hr : l.indexGetOpt i = some r) :
    Inhabits W (withOptionalNull (checkOptionalIndex (makeOptional u))) r := by
  simp only [checkOptionalIndex, makeOptional, makeSingleInner, innerTypes, List.headD_cons]
  split
  · rename_i hk
    exact element_inhabits (.inl hk) (hu.innerShaped (by simp [hk]) (by simp [hk]))
      hl.optional_inv hr
  · rename_i hk
    exact element_inhabits (.inr hk) (hu.innerShaped (by simp [hk]) (by simp [hk]))
      hl.optional_inv hr
  · rename_i hk
    have hnull : r = .null := by
      obtain rfl | hl := hl.optional_inv
      · exact (Option.some.inj hr).symm
      · exact Option.some.inj (hr.symm.trans (hl.elementless (.inl hk)))
    rw [hnull]
    exact withOptionalNull_null fun hne => absurd hne (by simp)
  · exact withOptionalNull_any

theorem optionalIndex_sound {symbols : SymbolTables} {maxCallDepth : Nat} {type : TypeInfo}
    {index : IndexOperand} (hleft : Nested W left)
    (h : visitOptionalIndex left index = some type) :
    (WrapperOperator.optionalIndex index).Sound symbols maxCallDepth W left type := by
  intro l i r hl hi hr
  obtain ⟨element, helement, rfl⟩ := Option.map_eq_some_iff.mp h
  split at helement
  · rename_i hk
    unfold checkArrayIndex at helement
    split at helement
    · rename_i hrange
      rw [hl.range_index hk hi hrange] at hr
      simp at hr
    · split at helement
      · simp at helement
      · split at helement
        · simp at helement
        · rw [← Option.some.inj helement]
          exact element_inhabits (.inl hk) (hleft.innerShaped (by simp [hk]) (by simp [hk]))
            (.inr hl) hr
  · rename_i hk
    unfold checkDictIndex at helement
    split at helement
    · simp at helement
    · rw [← Option.some.inj helement]
      exact element_inhabits (.inr hk) (hleft.innerShaped (by simp [hk]) (by simp [hk]))
        (.inr hl) hr
  · rename_i hk
    have hnull : r = .null := Option.some.inj (hr.symm.trans (hl.elementless (.inl hk)))
    have hstring : element = make .string := by
      unfold checkStringIndex at helement
      split at helement
      · exact (Option.some.inj helement).symm
      · split at helement
        · simp at helement
        · exact (Option.some.inj helement).symm
    rw [hnull, hstring]
    exact withOptionalNull_null fun hne => absurd hne (by simp)
  · rename_i hk
    have hnull : r = .null := Option.some.inj (hr.symm.trans (hl.elementless (.inr hk)))
    rw [hnull]
    unfold checkTupleIndex at helement
    split at helement
    · split at helement
      · exact withOptionalNull_null (hleft.innerShaped (by simp [hk]) (by simp [hk]) element
          (List.mem_of_getElem? helement))
      · simp at helement
    · rw [← Option.some.inj helement]
      exact withOptionalNull_any
  · rename_i hk
    obtain ⟨u, rfl, hu⟩ := hleft.optional_form hk
    rw [if_pos (by simp [makeOptional, makeSingleInner, innerTypes])] at helement
    rw [← Option.some.inj helement]
    exact checkOptionalIndex_sound hu hl hr
  · rw [← Option.some.inj helement]
    exact withOptionalNull_any
  · rw [← Option.some.inj helement]
    exact withOptionalNull_any
  · simp at helement

end Access

/-! ## All operators -/

/-- An accepted operator yields values of its static type, and takes exactly the outermost
    layer for missing, exactly when it keeps the layers apart. -/
theorem operator_sound_iff {symbols : SymbolTables} {decls : Declarations} {maxCallDepth : Nat}
    {W : World} {left type : TypeInfo} {op : WrapperOperator} (hrespects : Respects W decls)
    (hleft : Nested W left) (hoperand : op.OperandNested W)
    (h : op.check symbols decls left = some type) :
    op.Sound symbols maxCallDepth W left type ↔ op.Separates symbols maxCallDepth W left := by
  cases op with
  | nullCoalesce right => exact nullCoalesce_sound_iff hleft h
  | propagate ctx => exact propagate_sound_iff hleft h
  | errorPipe parameter rightType =>
    obtain rfl : visitErrorPipe rightType = type := Option.some.inj h
    exact ⟨errorPipe_separates_of_sound hleft hoperand,
      errorPipe_sound_of_separates hleft hoperand⟩
  | optionalField field => exact ⟨fun _ => trivial, fun _ => optionalField_sound hrespects hleft h⟩
  | optionalIndex index => exact ⟨fun _ => trivial, fun _ => optionalIndex_sound hleft h⟩

section Samples

/-- A result of an integer, or of an error text. -/
def integerResult : TypeInfo := makeResult (make .integer) (make .string)

theorem flows_integerResult : Flows integerResult integerResult :=
  .result (.primitive (by decide)) (.primitive (by decide))

theorem nested_primitive {W : World} {k : TypeKind} (h : k ∈ primitiveKinds) :
    Nested W (make k) := by
  obtain ⟨v, hv⟩ := primitive_inhabited h
  refine .base ?_ ?_ ?_ ?_ (fun u hu => absurd hu List.not_mem_nil) ⟨v, hv W⟩ <;>
    (rw [kind_make]; rintro rfl; revert h; decide)

theorem nested_integerResult {W : World} : Nested W integerResult :=
  .result (nested_primitive (by decide)) (nested_primitive (by decide))

/-- Nothing is declared. -/
def Declarations.empty : Declarations where
  recordFields _ _ := none
  interfaceFields _ _ := none
  variantType _ _ := none
  record_shaped h := by simp at h
  interface_shaped h := by simp at h
  variant_shaped h := by simp at h

theorem respects_empty : Respects World.empty Declarations.empty where
  record h := by simp [World.empty] at h
  interface h := by simp [World.empty] at h

theorem checkNullCoalescing_optional_result (symbols : SymbolTables) :
    checkNullCoalescing symbols (makeOptional integerResult) integerResult =
      some ⟨integerResult, some integerResult⟩ := by
  have haccepted : isAssignable symbols integerResult integerResult = true :=
    flows_integerResult.isAssignable
  have hkind : ¬ (integerResult.kind = (makeOptional integerResult).kind) := by decide
  change coalesceWith symbols (makeOptional integerResult) integerResult integerResult = _
  rw [coalesceWith, if_neg (fun h => hkind h.1), if_neg (by simp [haccepted])]

theorem checkNullCoalescing_results (symbols : SymbolTables) :
    checkNullCoalescing symbols integerResult integerResult =
      some ⟨integerResult, some integerResult⟩ := by
  have haccepted : isAssignable symbols (make .integer) (make .integer) = true :=
    (Flows.primitive (by decide)).isAssignable
  have hhead : integerResult.innerTypes.headD (make .stdlibAny) = make .integer := rfl
  have hchain : integerResult.innerTypes.head?.any
      (fun u => isAssignable symbols (make .integer) u) = true := haccepted
  rw [checkNullCoalescing, if_neg (by decide), if_pos (by decide), hhead, coalesceWith,
    if_pos ⟨rfl, hchain⟩]

/-- A default for an optional of a result is accepted, and is sound exactly if the layers
    stay apart. -/
theorem operator_sound_iff_optional_result :
    (WrapperOperator.nullCoalesce integerResult).Sound default 256 World.empty
        (makeOptional integerResult) integerResult ↔
      (WrapperOperator.nullCoalesce integerResult).Separates default 256 World.empty
        (makeOptional integerResult) := by
  refine operator_sound_iff respects_empty (.optional nested_integerResult) trivial ?_
  rw [WrapperOperator.check, checkNullCoalescing_optional_result]
  rfl

/-- The default replaces a failure that is present in an optional; one layer too many comes
    off a chain of results; `none` passes a pipe of results. -/
theorem layers_confused :
    (((WrapperOperator.nullCoalesce integerResult).check default Declarations.empty
          (makeOptional integerResult) = some integerResult ∧
        Present World.empty (makeOptional integerResult) (.result false (.string []) [] [])
          (.result false (.string []) [] []) ∧
        (Value.result false (.string []) [] []).nullCoalesce = none) ∧
      ¬ (WrapperOperator.nullCoalesce integerResult).Sound default 256 World.empty
        (makeOptional integerResult) integerResult) ∧
    (((WrapperOperator.nullCoalesce integerResult).check default Declarations.empty
          integerResult = some integerResult ∧
        Present World.empty integerResult (.result true (.integer 3) [] []) (.integer 3) ∧
        (Value.result true (.integer 3) [] []).nullCoalesce = some (.integer 3)) ∧
      ¬ (WrapperOperator.nullCoalesce integerResult).Sound default 256 World.empty
        integerResult integerResult) ∧
    (((WrapperOperator.errorPipe (make .integer) integerResult).check default
          Declarations.empty (makeOptional (make .integer)) = some integerResult ∧
        Inhabits World.empty (makeOptional (make .integer)) .null ∧
        ∀ f, Value.null.errorPipe f = some .null) ∧
      ¬ (WrapperOperator.errorPipe (make .integer) integerResult).Sound default 256 World.empty
        (makeOptional (make .integer)) integerResult) := by
  have hfailure : Present World.empty (makeOptional integerResult)
      (.result false (.string []) [] []) (.result false (.string []) [] []) :=
    .optional (.failure (.string []))
  have hsuccess : Present World.empty integerResult (.result true (.integer 3) [] [])
      (.integer 3) := .result (.integer 3)
  refine ⟨⟨⟨?_, hfailure, rfl⟩, fun hsound => ?_⟩, ⟨⟨?_, hsuccess, rfl⟩, fun hsound => ?_⟩,
    ⟨rfl, .missing, fun _ => rfl⟩, fun hsound => ?_⟩
  · rw [WrapperOperator.check, checkNullCoalescing_optional_result]
    rfl
  · obtain ⟨y, hy, -⟩ := hsound.1 _ _ hfailure
    simp [Value.nullCoalesce] at hy
  · rw [WrapperOperator.check, checkNullCoalescing_results]
    rfl
  · obtain ⟨y, hy, htype⟩ := hsound.1 _ _ hsuccess
    cases hy
    obtain ⟨_, _, _, _, heq, _⟩ := htype.result_inv
    simp at heq
  · obtain ⟨htype, -⟩ := hsound (fun _ => none) (by simp) .null .null .missing rfl
    obtain ⟨_, _, _, _, heq, _⟩ := htype.result_inv
    simp at heq

end Samples

end TypeInfo

end Luma
