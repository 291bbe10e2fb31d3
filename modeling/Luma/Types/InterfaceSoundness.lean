-- SUMMARY: The comparison of interfaces as a greatest fixpoint, and when the check decides it.
import Luma.Library.Coinduction
import Luma.Types.InterfaceQuestions
import Luma.Types.InterfaceSatisfaction

/-! # Soundness of Interface Satisfaction

Satisfaction is coinductive: a comparison holds if it is in a set of comparisons that support
each other. The check finds these as long as no comparison leads to another one of the same
names, with other type arguments. -/

namespace Luma.Interfaces

open Codec Coinduction

open TypeInfo (asked isAssignable Fewer)

variable (sym : Symbols)

/-! ## Comparisons -/

def sourceDecl (q : InterfaceQuery) : Option TypeDeclaration :=
  findVisible sym (if q.fromRecord then sym.records else sym.interfaces) q.source

def targetDecl (q : InterfaceQuery) : Option TypeDeclaration := findVisible sym sym.interfaces q.target

/-- The names under which a comparison is under way. -/
def key (q : InterfaceQuery) : Key :=
  ((if q.fromRecord then recordMark else interfaceMark) ++ q.source, q.target)

/-- The type of a field for given type arguments. -/
def instantiate (declaration : TypeDeclaration) (typeArgs : List TypeInfo) (ann : TypeAnnotation) : TypeInfo :=
  resolveType sym (declaration.typeParams.zip typeArgs) ann

def choicesOf (name : Bytes) : Option ChoiceDeclaration := OrderedMap.lookup name sym.choices

open Classical in
/-- The tables that answer yes to a set of comparisons. -/
noncomputable def tablesOf (R : InterfaceQuery → Prop) : SymbolTables where
  choices := choicesOf sym
  satisfiesInterface record iface sourceArgs targetArgs := decide (R ⟨true, record, iface, sourceArgs, targetArgs⟩)
  satisfiesInterfaceInterface source iface sourceArgs targetArgs :=
    decide (R ⟨false, source, iface, sourceArgs, targetArgs⟩)

/-- The types of a field of the target and of the field of that name in the source. -/
def FieldPair (q : InterfaceQuery) (target source : TypeInfo) : Prop :=
  ∃ s t, sourceDecl sym q = some s ∧ targetDecl sym q = some t ∧
    ∃ tf ∈ t.fields, ∃ sf, (s.fields.find? fun f => f.name = tf.name) = some sf ∧
      target = instantiate sym t q.targetArgs tf.type ∧ source = instantiate sym s q.sourceArgs sf.type

/-- One comparison, field by field, given the comparisons that are satisfied. -/
def Step (R : InterfaceQuery → Prop) (q : InterfaceQuery) : Prop :=
  ∃ s t, sourceDecl sym q = some s ∧ targetDecl sym q = some t ∧
    ∀ tf ∈ t.fields, ∃ sf, (s.fields.find? fun f => f.name = tf.name) = some sf ∧
      isAssignable (tablesOf sym R) (instantiate sym t q.targetArgs tf.type)
        (instantiate sym s q.sourceArgs sf.type) = true

/-- What the comparison of the fields may ask. -/
def Asks (q q' : InterfaceQuery) : Prop :=
  ∃ target source, FieldPair sym q target source ∧ q' ∈ asked (choicesOf sym) target source

/-- The arguments of a comparison are as many as the declarations have parameters. -/
def Applied (q : InterfaceQuery) : Prop :=
  (∀ s ∈ sourceDecl sym q, s.typeParams.length = q.sourceArgs.length) ∧
    ∀ t ∈ targetDecl sym q, t.typeParams.length = q.targetArgs.length

/-- The names that may be bound while types are compared: those that are bound before, the type
    parameters of declarations, and prefixed names. -/
def Bindable (ambient : List Bytes) (name : Bytes) : Prop :=
  name ∈ ambient ∨ (58 : UInt8) ∈ name ∨ ∃ entry ∈ sym.records ++ sym.interfaces, name ∈ entry.2.typeParams

def BindsOnly (ambient : List Bytes) (bindings : Bindings) : Prop :=
  ∀ name ∈ OrderedMap.keys bindings, Bindable sym ambient name

/-- The type parameters of a declaration are distinct identifiers, and nothing else that is
    bound matters to the types of its fields. -/
structure TypeDeclaration.Scoped (ambient : List Bytes) (declaration : TypeDeclaration) : Prop where
  nodup : declaration.typeParams.Nodup
  identifiers : ∀ param ∈ declaration.typeParams, (58 : UInt8) ∉ param
  closed : ∀ field ∈ declaration.fields, ∀ b b' : Bindings, BindsOnly sym ambient b → BindsOnly sym ambient b' →
    (∀ param ∈ declaration.typeParams, OrderedMap.lookup param b = OrderedMap.lookup param b') →
      resolveType sym b field.type = resolveType sym b' field.type

/-- All declarations are scoped. -/
def WellScoped (ambient : List Bytes) : Prop :=
  ∀ entry ∈ sym.records ++ sym.interfaces, TypeDeclaration.Scoped sym ambient entry.2

variable {sym}

theorem answers_tablesOf {R : InterfaceQuery → Prop} {q : InterfaceQuery} :
    (tablesOf sym R).answers q = true ↔ R q := by
  obtain ⟨fromRecord, source, target, sourceArgs, targetArgs⟩ := q
  cases fromRecord <;> simp [SymbolTables.answers, tablesOf]

theorem mem_of_findVisible {declarations : List (Bytes × TypeDeclaration)} {name : Bytes} {d : TypeDeclaration}
    (h : findVisible sym declarations name = some d) : ∃ registered, (registered, d) ∈ declarations := by
  unfold findVisible at h
  split at h
  next d' hlookup =>
    cases h
    exact ⟨_, OrderedMap.mem_of_lookup hlookup⟩
  next =>
    split at h
    next => exact ⟨_, OrderedMap.mem_of_lookup h⟩
    next => cases h

theorem mem_of_sourceDecl {q : InterfaceQuery} {s : TypeDeclaration} (h : sourceDecl sym q = some s) :
    ∃ name, (name, s) ∈ sym.records ++ sym.interfaces := by
  obtain ⟨name, hmem⟩ := mem_of_findVisible h
  refine ⟨name, ?_⟩
  cases hq : q.fromRecord with
  | true => exact List.mem_append_left _ (by simpa [hq] using hmem)
  | false => exact List.mem_append_right _ (by simpa [hq] using hmem)

theorem mem_of_targetDecl {q : InterfaceQuery} {t : TypeDeclaration} (h : targetDecl sym q = some t) :
    ∃ name, (name, t) ∈ sym.records ++ sym.interfaces := by
  obtain ⟨name, hmem⟩ := mem_of_findVisible h
  exact ⟨name, List.mem_append_right _ hmem⟩

theorem fewer_tablesOf {R R' : InterfaceQuery → Prop} {questions : List InterfaceQuery}
    (h : ∀ q ∈ questions, R q → R' q) : Fewer (tablesOf sym R) (tablesOf sym R') questions :=
  ⟨rfl, fun q hq hanswer => answers_tablesOf.mpr (h q hq (answers_tablesOf.mp hanswer))⟩

theorem step_asksOnly : AsksOnly (Step sym) (Asks sym) := by
  rintro R R' q hasked ⟨s, t, hs, ht, hfields⟩
  refine ⟨s, t, hs, ht, fun tf htf => ?_⟩
  obtain ⟨sf, hsf, hassignable⟩ := hfields tf htf
  have hpair : FieldPair sym q (instantiate sym t q.targetArgs tf.type) (instantiate sym s q.sourceArgs sf.type) :=
    ⟨s, t, hs, ht, tf, htf, sf, hsf, rfl, rfl⟩
  exact ⟨sf, hsf, TypeInfo.isAssignable_mono
    (fewer_tablesOf fun q' hq' => hasked q' ⟨_, _, hpair, hq'⟩) hassignable⟩

/-! ## Bindings -/

section Bindings

variable {pre param : Bytes} {params : List Bytes} {typeArgs : List TypeInfo} {bindings : Bindings} {arg : TypeInfo}
  {name : Bytes}

theorem lookup_addPrefixedBindings_of_ne (h : ∀ param ∈ params, pre ++ param ≠ name) :
    OrderedMap.lookup name (addPrefixedBindings pre params typeArgs bindings) = OrderedMap.lookup name bindings := by
  induction params generalizing typeArgs bindings with
  | nil => cases typeArgs <;> rfl
  | cons param params ih =>
    obtain ⟨hhead, htail⟩ := List.forall_mem_cons.mp h
    cases typeArgs with
    | nil => rfl
    | cons arg typeArgs => rw [addPrefixedBindings, ih htail, OrderedMap.lookup, if_neg hhead]

theorem lookup_addPrefixedBindings (hnodup : params.Nodup) (h : (param, arg) ∈ params.zip typeArgs) :
    OrderedMap.lookup (pre ++ param) (addPrefixedBindings pre params typeArgs bindings) = some arg := by
  induction params generalizing typeArgs bindings with
  | nil => cases h
  | cons head params ih =>
    cases typeArgs with
    | nil => cases h
    | cons first typeArgs =>
      obtain ⟨hhead, hnodup⟩ := List.nodup_cons.mp hnodup
      rw [addPrefixedBindings]
      rcases List.mem_cons.mp h with heq | htail
      · cases heq
        rw [lookup_addPrefixedBindings_of_ne, OrderedMap.lookup, if_pos rfl]
        intro p hp heq
        exact hhead (List.append_cancel_left heq ▸ hp)
      · exact ih hnodup htail

/-- Each parameter that has an argument is bound to it under the prefix. -/
def Side.Bound (side : Side) (bindings : Bindings) : Prop :=
  ∀ param arg, (param, arg) ∈ side.params.zip side.typeArgs →
    OrderedMap.lookup (side.pre ++ param) bindings = some arg

theorem lookup_aliasPrefixedToBare_of_notMem (h : name ∉ params) :
    OrderedMap.lookup name (aliasPrefixedToBare pre params bindings) = OrderedMap.lookup name bindings := by
  induction params generalizing bindings with
  | nil => rfl
  | cons head params ih =>
    rw [List.mem_cons, not_or] at h
    rw [aliasPrefixedToBare, ih h.2]
    split
    · rw [OrderedMap.lookup, if_neg (Ne.symm h.1)]
    · rfl

/-- Where no bare name is a prefixed one, the aliases are what is bound under the prefix. -/
theorem lookup_aliasPrefixedToBare (hnodup : params.Nodup) (hbare : ∀ p ∈ params, ∀ p' ∈ params, pre ++ p' ≠ p)
    (hparam : param ∈ params) (h : OrderedMap.lookup (pre ++ param) bindings = some arg) :
    OrderedMap.lookup param (aliasPrefixedToBare pre params bindings) = some arg := by
  induction params generalizing bindings with
  | nil => cases hparam
  | cons head params ih =>
    obtain ⟨hhead, hnodup⟩ := List.nodup_cons.mp hnodup
    rw [aliasPrefixedToBare]
    rcases List.mem_cons.mp hparam with rfl | htail
    · rw [lookup_aliasPrefixedToBare_of_notMem hhead, h]
      simp [OrderedMap.lookup]
    · have hne : pre ++ param ≠ head := hbare head List.mem_cons_self param hparam
      refine ih hnodup (fun p hp p' hp' => hbare p (List.mem_cons_of_mem _ hp) p' (List.mem_cons_of_mem _ hp'))
        htail ?_
      split
      · rw [OrderedMap.lookup, if_neg (Ne.symm hne), h]
      · exact h

variable {ambient : List Bytes}

theorem BindsOnly.cons (h : BindsOnly sym ambient bindings) (hname : Bindable sym ambient name) :
    BindsOnly sym ambient ((name, arg) :: bindings) := by
  intro key hkey
  rcases List.mem_cons.mp hkey with rfl | hkey
  · exact hname
  · exact h key hkey

theorem BindsOnly.addPrefixed (hpre : (58 : UInt8) ∈ pre) (h : BindsOnly sym ambient bindings) :
    BindsOnly sym ambient (addPrefixedBindings pre params typeArgs bindings) := by
  induction params generalizing typeArgs bindings with
  | nil => cases typeArgs <;> exact h
  | cons param params ih =>
    cases typeArgs with
    | nil => exact h
    | cons arg typeArgs =>
      rw [addPrefixedBindings]
      exact ih (h.cons (.inr (.inl (List.mem_append_left _ hpre))))

theorem BindsOnly.alias (hparams : ∀ param ∈ params, Bindable sym ambient param) (h : BindsOnly sym ambient bindings) :
    BindsOnly sym ambient (aliasPrefixedToBare pre params bindings) := by
  induction params generalizing bindings with
  | nil => exact h
  | cons param params ih =>
    obtain ⟨hparam, hparams⟩ := List.forall_mem_cons.mp hparams
    rw [aliasPrefixedToBare]
    refine ih hparams ?_
    split
    · exact h.cons hparam
    · exact h

end Bindings

/-! ## The check and the step -/

variable (sym) in
/-- A side of a comparison, with as many arguments as its declaration has parameters. -/
structure Side.Of (ambient : List Bytes) (side : Side) (declaration : TypeDeclaration) (args : List TypeInfo) :
    Prop where
  params : side.params = declaration.typeParams
  typeArgs : side.typeArgs = args
  fields : side.fields = declaration.fields
  applied : declaration.typeParams.length = args.length
  wellScoped : TypeDeclaration.Scoped sym ambient declaration
  declared : ∀ param ∈ declaration.typeParams, Bindable sym ambient param
  colon : (58 : UInt8) ∈ side.pre

section Fields

variable {ambient : List Bytes} {source target : Side} {s t : TypeDeclaration} {sourceArgs targetArgs : List TypeInfo}
  {bindings : Bindings}

/-- A prefixed name is not the bare name of a parameter. -/
theorem Side.Of.prefixed_ne {side other : Side} {d d' : TypeDeclaration} {as as' : List TypeInfo}
    (h : Side.Of sym ambient side d as) (h' : Side.Of sym ambient other d' as') {param : Bytes}
    (hparam : param ∈ other.params) (name : Bytes) : side.pre ++ name ≠ param := by
  rintro rfl
  rw [h'.params] at hparam
  exact h'.wellScoped.identifiers _ hparam (List.mem_append_left _ h.colon)

/-- What is bound at a comparison of fields: nothing but bindable names, and the arguments of both
    sides under their prefixes. -/
structure Ready (sym : Symbols) (ambient : List Bytes) (source target : Side) (bindings : Bindings) : Prop where
  source : source.Bound bindings
  target : target.Bound bindings
  only : BindsOnly sym ambient bindings

/-- The aliases of one side leave what is bound under a prefix. -/
theorem Side.Bound.alias {side other : Side} {d d' : TypeDeclaration} {as as' : List TypeInfo}
    (h : Side.Of sym ambient side d as) (h' : Side.Of sym ambient other d' as') (hbound : side.Bound bindings) :
    side.Bound (aliasPrefixedToBare other.pre other.params bindings) := by
  intro param arg hmem
  rw [lookup_aliasPrefixedToBare_of_notMem fun hparam => h.prefixed_ne h' hparam param rfl]
  exact hbound param arg hmem

theorem Ready.alias {other : Side} {d : TypeDeclaration} {as : List TypeInfo}
    (hs : Side.Of sym ambient source s sourceArgs) (ht : Side.Of sym ambient target t targetArgs)
    (hother : Side.Of sym ambient other d as) (h : Ready sym ambient source target bindings) :
    Ready sym ambient source target (aliasPrefixedToBare other.pre other.params bindings) where
  source := h.source.alias hs hother
  target := h.target.alias ht hother
  only := h.only.alias (hother.params ▸ hother.declared)

/-- With its parameters aliased, a field of a side has the type of the instantiation. -/
theorem Side.Of.resolve_eq {side : Side} {d : TypeDeclaration} {as : List TypeInfo}
    (h : Side.Of sym ambient side d as) (hbound : side.Bound bindings) (honly : BindsOnly sym ambient bindings)
    {field : RecordField} (hfield : field ∈ d.fields) :
    resolveType sym (aliasPrefixedToBare side.pre side.params bindings) field.type =
      instantiate sym d as field.type := by
  have hnodup := h.wellScoped.nodup
  have hkeys : OrderedMap.keys (d.typeParams.zip as) = d.typeParams := by
    rw [OrderedMap.keys, List.map_fst_zip (Nat.le_of_eq h.applied)]
  refine h.wellScoped.closed field hfield _ _ (honly.alias (h.params ▸ h.declared)) ?_ fun param hparam => ?_
  · intro name hname
    exact h.declared name (hkeys ▸ hname)
  -- the argument of the parameter
  obtain ⟨⟨p, arg⟩, hmem, rfl⟩ := List.mem_map.mp (hkeys.symm ▸ hparam)
  have hzip : (p, arg) ∈ side.params.zip side.typeArgs := by rwa [h.params, h.typeArgs]
  rw [OrderedMap.lookup_of_mem (hkeys.symm ▸ hnodup) hmem, h.params]
  exact lookup_aliasPrefixedToBare hnodup
    (fun q hq q' _ => h.prefixed_ne h (h.params ▸ hq) q') hparam (hbound p arg hzip)

/-- What the loop accepts, field by field, under some bindings. -/
theorem exists_of_checkFields {tablesAt : Bindings → SymbolTables} (hs : Side.Of sym ambient source s sourceArgs)
    (ht : Side.Of sym ambient target t targetArgs) {fields : List RecordField} (hfields : ∀ f ∈ fields, f ∈ t.fields)
    (hready : Ready sym ambient source target bindings)
    (h : checkFields sym tablesAt source target fields bindings = true) :
    ∀ tf ∈ fields, ∃ sf, (s.fields.find? fun f => f.name = tf.name) = some sf ∧
      ∃ b, BindsOnly sym ambient b ∧
        isAssignable (tablesAt b) (instantiate sym t targetArgs tf.type) (instantiate sym s sourceArgs sf.type) =
          true := by
  induction fields generalizing bindings with
  | nil => simp
  | cons field fields ih =>
    obtain ⟨hfield, hrest⟩ := List.forall_mem_cons.mp hfields
    rw [checkFields] at h
    split at h
    · cases h
    next sf hsf =>
      rw [hs.fields] at hsf
      have hready' := hready.alias hs ht ht
      have hready'' := hready'.alias hs ht hs
      simp only at h
      rw [ht.resolve_eq hready.target hready.only hfield,
        hs.resolve_eq hready'.source hready'.only (List.mem_of_find?_eq_some hsf)] at h
      split at h
      · cases h
      next hassignable =>
        rw [Bool.not_eq_true, Bool.not_eq_false'] at hassignable
        rw [List.forall_mem_cons]
        exact ⟨⟨sf, hsf, _, hready''.only, hassignable⟩, ih hrest hready'' h⟩

/-- What holds of every field under all bindings, the loop accepts. -/
theorem checkFields_of_forall {tablesAt : Bindings → SymbolTables} (hs : Side.Of sym ambient source s sourceArgs)
    (ht : Side.Of sym ambient target t targetArgs) {fields : List RecordField} (hfields : ∀ f ∈ fields, f ∈ t.fields)
    (hready : Ready sym ambient source target bindings)
    (h : ∀ tf ∈ fields, ∃ sf, (s.fields.find? fun f => f.name = tf.name) = some sf ∧
      ∀ b, BindsOnly sym ambient b →
        isAssignable (tablesAt b) (instantiate sym t targetArgs tf.type) (instantiate sym s sourceArgs sf.type) =
          true) : checkFields sym tablesAt source target fields bindings = true := by
  induction fields generalizing bindings with
  | nil => rfl
  | cons field fields ih =>
    obtain ⟨hfield, hrest⟩ := List.forall_mem_cons.mp hfields
    obtain ⟨⟨sf, hsf, hassignable⟩, h⟩ := List.forall_mem_cons.mp h
    have hready' := hready.alias hs ht ht
    have hready'' := hready'.alias hs ht hs
    rw [checkFields, hs.fields, hsf]
    simp only
    rw [ht.resolve_eq hready.target hready.only hfield,
      hs.resolve_eq hready'.source hready'.only (List.mem_of_find?_eq_some hsf), hassignable _ hready''.only]
    exact ih hrest hready'' h

/-- What is bound when the loop starts. -/
theorem ready_of_addPrefixed (hs : Side.Of sym ambient source s sourceArgs)
    (ht : Side.Of sym ambient target t targetArgs) (hpre : ∀ a b, target.pre ++ a ≠ source.pre ++ b)
    (honly : BindsOnly sym ambient bindings) :
    Ready sym ambient source target (addPrefixedBindings target.pre target.params target.typeArgs
      (addPrefixedBindings source.pre source.params source.typeArgs bindings)) where
  source param arg hmem := by
    rw [lookup_addPrefixedBindings_of_ne fun p _ => hpre p param]
    exact lookup_addPrefixedBindings (hs.params ▸ hs.wellScoped.nodup) hmem
  target param arg hmem := lookup_addPrefixedBindings (ht.params ▸ ht.wellScoped.nodup) hmem
  only := (honly.addPrefixed hs.colon).addPrefixed ht.colon

/-- The check of the structure accepts only what passes field by field, under some bindings. -/
theorem exists_of_checkStructuralSatisfaction {tablesAt : Bindings → SymbolTables}
    (hs : Side.Of sym ambient source s sourceArgs) (ht : Side.Of sym ambient target t targetArgs)
    (hpre : ∀ a b, target.pre ++ a ≠ source.pre ++ b) (honly : BindsOnly sym ambient bindings)
    (h : checkStructuralSatisfaction sym tablesAt source target bindings = true) :
    ∀ tf ∈ t.fields, ∃ sf, (s.fields.find? fun f => f.name = tf.name) = some sf ∧
      ∃ b, BindsOnly sym ambient b ∧
        isAssignable (tablesAt b) (instantiate sym t targetArgs tf.type) (instantiate sym s sourceArgs sf.type) =
          true := by
  rw [checkStructuralSatisfaction, ht.fields] at h
  exact exists_of_checkFields hs ht (fun _ hf => hf) (ready_of_addPrefixed hs ht hpre honly) h

/-- The check of the structure accepts what passes field by field, under all bindings. -/
theorem checkStructuralSatisfaction_of_forall {tablesAt : Bindings → SymbolTables}
    (hs : Side.Of sym ambient source s sourceArgs) (ht : Side.Of sym ambient target t targetArgs)
    (hpre : ∀ a b, target.pre ++ a ≠ source.pre ++ b) (honly : BindsOnly sym ambient bindings)
    (h : ∀ tf ∈ t.fields, ∃ sf, (s.fields.find? fun f => f.name = tf.name) = some sf ∧
      ∀ b, BindsOnly sym ambient b →
        isAssignable (tablesAt b) (instantiate sym t targetArgs tf.type) (instantiate sym s sourceArgs sf.type) =
          true) : checkStructuralSatisfaction sym tablesAt source target bindings = true := by
  rw [checkStructuralSatisfaction, ht.fields]
  exact checkFields_of_forall hs ht (fun _ hf => hf) (ready_of_addPrefixed hs ht hpre honly) h

end Fields

/-! ## The check as a procedure -/

def sourceSide (q : InterfaceQuery) (declaration : TypeDeclaration) : Side :=
  if q.fromRecord then recordSide declaration q.sourceArgs else srcSide declaration q.sourceArgs

def targetSide (q : InterfaceQuery) (declaration : TypeDeclaration) : Side :=
  if q.fromRecord then ifaceSide declaration q.targetArgs else tgtSide declaration q.targetArgs

section Procedure

variable {ambient : List Bytes} {P : List Key} {q : InterfaceQuery} {s t : TypeDeclaration} {bindings : Bindings}

theorem satisfactionTables_choices : (satisfactionTables sym P bindings).choices = choicesOf sym := by
  rw [satisfactionTables]
  rfl

/-- Both kinds of comparisons are answered in one way. -/
theorem answers_satisfactionTables : (satisfactionTables sym P bindings).answers q = true ↔
    ∃ s t, sourceDecl sym q = some s ∧ targetDecl sym q = some t ∧
      (key q ∈ P ∨ checkStructuralSatisfaction sym (satisfactionTables sym (key q :: P))
        (sourceSide q s) (targetSide q t) bindings = true) := by
  obtain ⟨fromRecord, source, target, sourceArgs, targetArgs⟩ := q
  rw [satisfactionTables]
  cases fromRecord with
  | true =>
    simp only [SymbolTables.answers, sourceDecl, targetDecl, key, sourceSide, targetSide, if_true]
    split
    next s t hs ht =>
      simp only [hs, ht, Option.some.injEq, exists_and_left, exists_eq_left']
      by_cases hmem : (recordMark ++ source, target) ∈ P
      · simp [hmem]
      · simp [hmem]
    next hnone =>
      constructor
      · intro h
        cases h
      · rintro ⟨s, t, hs, ht, -⟩
        exact absurd ht (hnone s t hs)
  | false =>
    simp only [SymbolTables.answers, sourceDecl, targetDecl, key, sourceSide, targetSide, Bool.false_eq_true, if_false]
    split
    next s t hs ht =>
      simp only [hs, ht, Option.some.injEq, exists_and_left, exists_eq_left']
      by_cases hmem : (interfaceMark ++ source, target) ∈ P
      · simp [hmem]
      · simp [hmem]
    next hnone =>
      constructor
      · intro h
        cases h
      · rintro ⟨s, t, hs, ht, -⟩
        exact absurd ht (hnone s t hs)

theorem WellScoped.sourceSide_of (hscoped : WellScoped sym ambient) (happlied : Applied sym q)
    (hs : sourceDecl sym q = some s) : Side.Of sym ambient (sourceSide q s) s q.sourceArgs := by
  obtain ⟨name, hmem⟩ := mem_of_sourceDecl hs
  have hdeclared : ∀ param ∈ s.typeParams, Bindable sym ambient param :=
    fun param hparam => .inr (.inr ⟨_, hmem, hparam⟩)
  unfold sourceSide
  split
  · exact ⟨rfl, rfl, rfl, happlied.1 s hs, hscoped _ hmem, hdeclared,
      show (58 : UInt8) ∈ bytes "rec:" by decide⟩
  · exact ⟨rfl, rfl, rfl, happlied.1 s hs, hscoped _ hmem, hdeclared,
      show (58 : UInt8) ∈ bytes "src:" by decide⟩

theorem WellScoped.targetSide_of (hscoped : WellScoped sym ambient) (happlied : Applied sym q)
    (ht : targetDecl sym q = some t) : Side.Of sym ambient (targetSide q t) t q.targetArgs := by
  obtain ⟨name, hmem⟩ := mem_of_targetDecl ht
  have hdeclared : ∀ param ∈ t.typeParams, Bindable sym ambient param :=
    fun param hparam => .inr (.inr ⟨_, hmem, hparam⟩)
  unfold targetSide
  split
  · exact ⟨rfl, rfl, rfl, happlied.2 t ht, hscoped _ hmem, hdeclared,
      show (58 : UInt8) ∈ bytes "iface:" by decide⟩
  · exact ⟨rfl, rfl, rfl, happlied.2 t ht, hscoped _ hmem, hdeclared,
      show (58 : UInt8) ∈ bytes "tgt:" by decide⟩

/-- The prefixes of the two sides tell them apart. -/
theorem side_prefixes_ne (a b : Bytes) : (targetSide q t).pre ++ a ≠ (sourceSide q s).pre ++ b := by
  intro heq
  have hhead := congrArg List.head? heq
  unfold targetSide sourceSide at hhead
  split at hhead
  · exact absurd (Option.some.inj hhead) (by decide)
  · exact absurd (Option.some.inj hhead) (by decide)

theorem key_mem_allKeys (hs : sourceDecl sym q = some s) (ht : targetDecl sym q = some t) : key q ∈ allKeys sym := by
  unfold sourceDecl at hs
  cases hq : q.fromRecord with
  | true =>
    rw [hq] at hs
    rw [key, hq]
    exact record_key_mem hs ht
  | false =>
    rw [hq] at hs
    rw [key, hq]
    exact interface_key_mem hs ht

variable (sym) in
/-- Every comparison under way takes one of the keys of visible names. -/
def descent (D : InterfaceQuery → Prop) : Descent (Step sym) key D where
  measure := remaining sym
  descends := by
    rintro P q - hnew ⟨s, t, hs, ht, -⟩
    exact remaining_lt (key_mem_allKeys hs ht) hnew

variable (sym) in
/-- Yes under some bindings, with comparisons under way. -/
def AnswersYes (ambient : List Bytes) (P : List Key) (q : InterfaceQuery) : Prop :=
  ∃ b, BindsOnly sym ambient b ∧ (satisfactionTables sym P b).answers q = true

variable (sym) in
/-- Yes under all bindings, with comparisons under way. -/
def AlwaysYes (ambient : List Bytes) (P : List Key) (q : InterfaceQuery) : Prop :=
  ∀ b, BindsOnly sym ambient b → (satisfactionTables sym P b).answers q = true

theorem unfolds (hscoped : WellScoped sym ambient) : Unfolds (Step sym) key (Applied sym) (AnswersYes sym ambient) := by
  rintro P q happlied ⟨b, honly, hanswer⟩
  obtain ⟨s, t, hs, ht, hmem | hcheck⟩ := answers_satisfactionTables.mp hanswer
  · exact .inl hmem
  right
  refine ⟨s, t, hs, ht, fun tf htf => ?_⟩
  obtain ⟨sf, hsf, b', honly', hassignable⟩ := exists_of_checkStructuralSatisfaction
    (hscoped.sourceSide_of happlied hs) (hscoped.targetSide_of happlied ht) side_prefixes_ne honly hcheck tf htf
  refine ⟨sf, hsf, TypeInfo.isAssignable_mono ⟨satisfactionTables_choices, fun q' _ hanswer' => ?_⟩ hassignable⟩
  exact answers_tablesOf.mpr ⟨b', honly', hanswer'⟩

theorem folds (hscoped : WellScoped sym ambient) : Folds (Step sym) key (Applied sym) (AlwaysYes sym ambient) := by
  rintro P q happlied hor ⟨s, t, hs, ht, -⟩ b honly
  refine answers_satisfactionTables.mpr ⟨s, t, hs, ht, ?_⟩
  rcases hor with hmem | ⟨s', t', hs', ht', hfields⟩
  · exact .inl hmem
  right
  cases hs.symm.trans hs'
  cases ht.symm.trans ht'
  refine checkStructuralSatisfaction_of_forall (hscoped.sourceSide_of happlied hs) (hscoped.targetSide_of happlied ht)
    side_prefixes_ne honly fun tf htf => ?_
  obtain ⟨sf, hsf, hassignable⟩ := hfields tf htf
  refine ⟨sf, hsf, fun b' honly' => ?_⟩
  refine TypeInfo.isAssignable_mono ⟨satisfactionTables_choices.symm, fun q' _ hanswer' => ?_⟩ hassignable
  exact answers_tablesOf.mp hanswer' b' honly'

/-! ## What the check decides -/

variable (sym) in
/-- Every comparison that comes up has as many arguments as there are parameters. -/
def AllApplied (q : InterfaceQuery) : Prop := ∀ p, Relation.ReflTransGen (Asks sym) q p → Applied sym p

theorem AllApplied.asks {q' : InterfaceQuery} (h : AllApplied sym q) (hasks : Asks sym q q') : AllApplied sym q' :=
  fun p hp => h p (.head hasks hp)

/-- A comparison that holds is answered yes, whatever is under way. -/
theorem alwaysYes_of_holds (hscoped : WellScoped sym ambient) (happlied : AllApplied sym q)
    (h : Holds (Step sym) q) : AlwaysYes sym ambient P q :=
  (descent sym (AllApplied sym)).complete (fun P q happlied => folds hscoped P q (happlied q .refl))
    step_asksOnly (fun _ _ => AllApplied.asks) P q happlied h

/-- Where no comparison leads to another one of its names, only what holds is answered yes. -/
theorem holds_of_answersYes (hscoped : WellScoped sym ambient) (happlied : AllApplied sym q)
    (hregular : Regular (Asks sym) key q) (h : AnswersYes sym ambient [] q) : Holds (Step sym) q :=
  (descent sym (AllApplied sym)).sound (fun P q happlied => unfolds hscoped P q (happlied q .refl))
    step_asksOnly (fun _ _ => AllApplied.asks) hregular happlied h

end Procedure

end Luma.Interfaces
