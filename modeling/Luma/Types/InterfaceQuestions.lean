-- SUMMARY: Which comparisons of interfaces an assignment of types comes down to.
import Luma.Types.TypeInfo

/-! # The Questions of an Assignment

Assignability asks whether records and interfaces satisfy interfaces, about components of the
two types. `asked` lists what it may ask; more answers of yes among these make no assignment
fail. -/

namespace Luma

open Codec

/-- A comparison of a record, or of an interface, with an interface, with type arguments. -/
structure InterfaceQuery where
  fromRecord : Bool
  source : Bytes
  target : Bytes
  sourceArgs : List TypeInfo
  targetArgs : List TypeInfo

def SymbolTables.answers (symbols : SymbolTables) (q : InterfaceQuery) : Bool :=
  if q.fromRecord then symbols.satisfiesInterface q.source q.target q.sourceArgs q.targetArgs
  else symbols.satisfiesInterfaceInterface q.source q.target q.sourceArgs q.targetArgs

namespace TypeInfo

section Asked

variable (choices : Bytes → Option ChoiceDeclaration)

/-- `isSameChoice`, which looks at the choices alone. -/
def sameChoice (target source : Bytes) : Bool :=
  isSameChoice { choices, satisfiesInterface := fun _ _ _ _ => false,
                 satisfiesInterfaceInterface := fun _ _ _ _ => false } target source

mutual

/-- The comparisons that `isAssignable` may make. -/
def asked : TypeInfo → TypeInfo → List InterfaceQuery
  | .mk targetKind targetName targetInner targetReturn,
    .mk sourceKind sourceName sourceInner sourceReturn =>
    let target : TypeInfo := .mk targetKind targetName targetInner targetReturn
    let source : TypeInfo := .mk sourceKind sourceName sourceInner sourceReturn
    if targetKind = .unknown ∨ sourceKind = .unknown then []
    else if targetKind = .stdlibAny then []
    else if sourceKind = .none then []
    else if sourceKind = .stdlibAny then []
    else if target.equals source then []
    else if targetKind = .number ∧ sourceKind = .integer then []
    else if targetKind = .optional ∧ sourceKind ≠ .optional then
      askedElement targetInner (.mk sourceKind sourceName sourceInner sourceReturn)
    else if targetKind = .choice ∧ sourceKind = .choice ∧ targetName ≠ sourceName ∧
        sameChoice choices targetName sourceName then
      askedInner targetInner sourceInner
    else if targetKind = sourceKind ∧
        (targetKind = .record ∨ targetKind = .interface ∨ targetKind = .choice) ∧
        targetName = sourceName then
      askedInner targetInner sourceInner
    else if targetKind = .interface ∧ sourceKind = .record then
      [⟨true, sourceName, targetName, sourceInner, targetInner⟩]
    else if targetKind = .interface ∧ sourceKind = .interface then
      [⟨false, sourceName, targetName, sourceInner, targetInner⟩]
    else if targetKind = sourceKind then
      askedContainer targetKind targetInner sourceInner targetReturn sourceReturn
    else []
termination_by target source => sizeOf target + sizeOf source

def askedContainer (kind : TypeKind) (targetInner sourceInner : List TypeInfo)
    (targetReturn sourceReturn : Option TypeInfo) : List InterfaceQuery :=
  match kind with
  | .array | .dictionary | .task | .optional => askedFirst targetInner sourceInner
  | .channel | .reference => askedFirst targetInner sourceInner ++ askedFirst sourceInner targetInner
  | .result => askedResult targetInner sourceInner
  | .func => askedAll sourceInner targetInner ++ askedReturn targetReturn sourceReturn
  | .tuple => askedAll targetInner sourceInner
  | _ => []
termination_by
  sizeOf targetInner + sizeOf sourceInner + sizeOf targetReturn + sizeOf sourceReturn + 1

def askedElement : List TypeInfo → TypeInfo → List InterfaceQuery
  | element :: _, source => asked element source
  | [], _ => []
termination_by targets source => sizeOf targets + sizeOf source

def askedFirst : List TypeInfo → List TypeInfo → List InterfaceQuery
  | target :: _, source :: _ => asked target source
  | _, _ => []
termination_by targets sources => sizeOf targets + sizeOf sources

def askedResult : List TypeInfo → List TypeInfo → List InterfaceQuery
  | target :: targetErrors, source :: sourceErrors =>
    asked target source ++ askedFirst targetErrors sourceErrors
  | _, _ => []
termination_by targets sources => sizeOf targets + sizeOf sources

def askedInner (target source : List TypeInfo) : List InterfaceQuery := askedAll target source
termination_by sizeOf target + sizeOf source + 1

def askedAll : List TypeInfo → List TypeInfo → List InterfaceQuery
  | target :: targets, source :: sources => asked target source ++ askedAll targets sources
  | _, _ => []
termination_by targets sources => sizeOf targets + sizeOf sources

def askedReturn : Option TypeInfo → Option TypeInfo → List InterfaceQuery
  | some target, some source => asked target source
  | _, _ => []
termination_by target source => sizeOf target + sizeOf source

end

end Asked

/-- Tables of the same choices, the first of which say yes to fewer of the questions. -/
structure Fewer (symbols symbols' : SymbolTables) (questions : List InterfaceQuery) : Prop where
  choices : symbols.choices = symbols'.choices
  answers : ∀ q ∈ questions, symbols.answers q = true → symbols'.answers q = true

section Mono

variable {symbols symbols' : SymbolTables}

theorem Fewer.left {qs qs' : List InterfaceQuery} (h : Fewer symbols symbols' (qs ++ qs')) :
    Fewer symbols symbols' qs :=
  ⟨h.choices, fun q hq => h.answers q (List.mem_append_left _ hq)⟩

theorem Fewer.right {qs qs' : List InterfaceQuery} (h : Fewer symbols symbols' (qs ++ qs')) :
    Fewer symbols symbols' qs' :=
  ⟨h.choices, fun q hq => h.answers q (List.mem_append_right _ hq)⟩

theorem Fewer.isSameChoice_eq {qs : List InterfaceQuery} (h : Fewer symbols symbols' qs) (a b : Bytes) :
    TypeInfo.isSameChoice symbols' a b = sameChoice symbols.choices a b := by
  rw [h.choices]
  rfl

mutual

theorem isAssignable_mono {target source : TypeInfo} (hfewer : Fewer symbols symbols' (asked symbols.choices target source))
    (h : isAssignable symbols target source = true) : isAssignable symbols' target source = true := by
  cases target with
  | mk targetKind targetName targetInner targetReturn =>
    cases source with
    | mk sourceKind sourceName sourceInner sourceReturn =>
      -- both tables look names up among the same choices
      have hsame := hfewer.isSameChoice_eq targetName sourceName
      have hchoices : sameChoice symbols.choices targetName sourceName =
        isSameChoice symbols targetName sourceName := rfl
      rw [asked, hchoices] at hfewer
      rw [isAssignable] at h ⊢
      rw [hsame, hchoices]
      by_cases hunknown : targetKind = .unknown ∨ sourceKind = .unknown
      · rw [if_pos hunknown]
      rw [if_neg hunknown] at h hfewer ⊢
      by_cases hany : targetKind = .stdlibAny
      · rw [if_pos hany]
      rw [if_neg hany] at h hfewer ⊢
      by_cases hnone : sourceKind = .none
      · rwa [if_pos hnone] at h ⊢
      rw [if_neg hnone] at h hfewer ⊢
      by_cases hany' : sourceKind = .stdlibAny
      · rw [if_pos hany']
      rw [if_neg hany'] at h hfewer ⊢
      by_cases hequal : (TypeInfo.mk targetKind targetName targetInner targetReturn).equals
          (.mk sourceKind sourceName sourceInner sourceReturn) = true
      · rw [if_pos hequal]
      rw [if_neg hequal] at h hfewer ⊢
      by_cases hnumber : targetKind = .number ∧ sourceKind = .integer
      · rw [if_pos hnumber]
      rw [if_neg hnumber] at h hfewer ⊢
      by_cases hoptional : targetKind = .optional ∧ sourceKind ≠ .optional
      · rw [if_pos hoptional] at h hfewer ⊢
        exact elementAssignable_mono hfewer h
      rw [if_neg hoptional] at h hfewer ⊢
      by_cases hchoice : targetKind = .choice ∧ sourceKind = .choice ∧ targetName ≠ sourceName ∧
          isSameChoice symbols targetName sourceName
      · rw [if_pos hchoice] at h hfewer ⊢
        exact innerTypesAssignable_mono hfewer h
      rw [if_neg hchoice] at h hfewer ⊢
      by_cases hnominal : targetKind = sourceKind ∧
          (targetKind = .record ∨ targetKind = .interface ∨ targetKind = .choice) ∧ targetName = sourceName
      · rw [if_pos hnominal] at h hfewer ⊢
        exact innerTypesAssignable_mono hfewer h
      rw [if_neg hnominal] at h hfewer ⊢
      by_cases hrecord : targetKind = .interface ∧ sourceKind = .record
      · rw [if_pos hrecord] at h hfewer ⊢
        exact hfewer.answers _ List.mem_cons_self h
      rw [if_neg hrecord] at h hfewer ⊢
      by_cases hinterface : targetKind = .interface ∧ sourceKind = .interface
      · rw [if_pos hinterface] at h hfewer ⊢
        exact hfewer.answers _ List.mem_cons_self h
      rw [if_neg hinterface] at h hfewer ⊢
      by_cases hkind : targetKind = sourceKind
      · rw [if_pos hkind] at h hfewer ⊢
        exact isContainerAssignable_mono hfewer h
      · rwa [if_neg hkind] at h ⊢
termination_by sizeOf target + sizeOf source

theorem isContainerAssignable_mono {kind : TypeKind} {targetInner sourceInner : List TypeInfo}
    {targetReturn sourceReturn : Option TypeInfo}
    (hfewer : Fewer symbols symbols' (askedContainer symbols.choices kind targetInner sourceInner targetReturn sourceReturn))
    (h : isContainerAssignable symbols kind targetInner sourceInner targetReturn sourceReturn = true) :
    isContainerAssignable symbols' kind targetInner sourceInner targetReturn sourceReturn = true := by
  rw [askedContainer.eq_def] at hfewer
  rw [isContainerAssignable.eq_def] at h ⊢
  cases kind with
  | array | dictionary | task | optional => exact firstAssignable_mono hfewer h
  | channel | reference =>
    simp only [Bool.and_eq_true] at h ⊢
    exact ⟨firstAssignable_mono hfewer.left h.1, firstAssignable_mono hfewer.right h.2⟩
  | result => exact resultAssignable_mono hfewer h
  | func =>
    simp only at h ⊢ hfewer
    split at h
    · cases h
    next hlength =>
      rw [if_neg hlength]
      split at h
      · cases h
      next hparams =>
        rw [Bool.not_eq_true, Bool.not_eq_false'] at hparams
        rw [if_neg (by rw [allAssignable_mono hfewer.left hparams]; decide)]
        exact isReturnAssignable_mono hfewer.right h
  | tuple =>
    simp only at h ⊢ hfewer
    split at h
    · cases h
    next hlength =>
      rw [if_neg hlength]
      exact allAssignable_mono hfewer h
  | _ => exact h
termination_by
  sizeOf targetInner + sizeOf sourceInner + sizeOf targetReturn + sizeOf sourceReturn + 1

theorem elementAssignable_mono {targets : List TypeInfo} {source : TypeInfo}
    (hfewer : Fewer symbols symbols' (askedElement symbols.choices targets source))
    (h : elementAssignable symbols targets source = true) : elementAssignable symbols' targets source = true := by
  cases targets with
  | nil => rw [elementAssignable]
  | cons element targets =>
    rw [askedElement] at hfewer
    rw [elementAssignable] at h ⊢
    exact isAssignable_mono hfewer h
termination_by sizeOf targets + sizeOf source

theorem firstAssignable_mono {targets sources : List TypeInfo}
    (hfewer : Fewer symbols symbols' (askedFirst symbols.choices targets sources))
    (h : firstAssignable symbols targets sources = true) : firstAssignable symbols' targets sources = true := by
  cases targets with
  | nil => rw [firstAssignable.eq_def]
  | cons target targets =>
    cases sources with
    | nil => rw [firstAssignable.eq_def]
    | cons source sources =>
      rw [askedFirst] at hfewer
      rw [firstAssignable] at h ⊢
      exact isAssignable_mono hfewer h
termination_by sizeOf targets + sizeOf sources

theorem resultAssignable_mono {targets sources : List TypeInfo}
    (hfewer : Fewer symbols symbols' (askedResult symbols.choices targets sources))
    (h : resultAssignable symbols targets sources = true) : resultAssignable symbols' targets sources = true := by
  cases targets with
  | nil => rw [resultAssignable.eq_def]
  | cons target targets =>
    cases sources with
    | nil => rw [resultAssignable.eq_def]
    | cons source sources =>
      rw [askedResult] at hfewer
      rw [resultAssignable] at h ⊢
      split at h
      · cases h
      next hvalue =>
        rw [if_neg]
        · exact firstAssignable_mono hfewer.right h
        · simp only [Bool.and_eq_true, Bool.not_eq_true', not_and, Bool.not_eq_false] at hvalue ⊢
          exact fun hboth => isAssignable_mono hfewer.left (hvalue hboth)
termination_by sizeOf targets + sizeOf sources

theorem innerTypesAssignable_mono {targets sources : List TypeInfo}
    (hfewer : Fewer symbols symbols' (askedInner symbols.choices targets sources))
    (h : innerTypesAssignable symbols targets sources = true) :
    innerTypesAssignable symbols' targets sources = true := by
  rw [askedInner] at hfewer
  rw [innerTypesAssignable] at h ⊢
  split at h
  next hempty => rw [if_pos hempty]
  next hempty =>
    rw [if_neg hempty]
    split at h
    · cases h
    next hlength =>
      rw [if_neg hlength]
      exact allAssignable_mono hfewer h
termination_by sizeOf targets + sizeOf sources + 1

theorem allAssignable_mono {targets sources : List TypeInfo}
    (hfewer : Fewer symbols symbols' (askedAll symbols.choices targets sources))
    (h : allAssignable symbols targets sources = true) : allAssignable symbols' targets sources = true := by
  cases targets with
  | nil => rw [allAssignable.eq_def]
  | cons target targets =>
    cases sources with
    | nil => rw [allAssignable.eq_def]
    | cons source sources =>
      rw [askedAll] at hfewer
      rw [allAssignable, Bool.and_eq_true] at h ⊢
      exact ⟨isAssignable_mono hfewer.left h.1, allAssignable_mono hfewer.right h.2⟩
termination_by sizeOf targets + sizeOf sources

theorem isReturnAssignable_mono {target source : Option TypeInfo}
    (hfewer : Fewer symbols symbols' (askedReturn symbols.choices target source))
    (h : isReturnAssignable symbols target source = true) : isReturnAssignable symbols' target source = true := by
  cases source with
  | none => rw [isReturnAssignable.eq_def]
  | some source =>
    cases target with
    | none => rw [isReturnAssignable.eq_def]
    | some target =>
      rw [askedReturn] at hfewer
      rw [isReturnAssignable] at h ⊢
      split at h
      next hopen => rw [if_pos hopen]
      next hopen =>
        rw [if_neg hopen]
        split at h
        next hvalue => rw [if_pos hvalue]
        next hvalue =>
          rw [if_neg hvalue]
          exact isAssignable_mono hfewer h
termination_by sizeOf target + sizeOf source

end

end Mono

end TypeInfo

end Luma
