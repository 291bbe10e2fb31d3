-- SUMMARY: An interface that is found to be satisfied has all its field paths in the source.
import Luma.Types.InterfaceSoundness

/-! # The Field Paths of Interfaces

A source that satisfies an interface has every field of it, every field of these fields' types,
and so on along every path, with a type that is assignable at its end. The check may say yes
and break this where comparisons of the same names with other type arguments come up. -/

namespace Luma.Interfaces

open Codec Coinduction

open TypeInfo (asked isAssignable)

variable (sym : Symbols)

/-! ## Paths -/

/-- The declaration of a record type or an interface type. -/
def declarationOf (t : TypeInfo) : Option TypeDeclaration :=
  if t.kind = .record then findVisible sym sym.records t.name
  else if t.kind = .interface then findVisible sym sym.interfaces t.name
  else none

/-- The type of a field of a type. -/
def fieldType (t : TypeInfo) (name : Bytes) : Option TypeInfo :=
  (declarationOf sym t).bind fun declaration =>
    (declaration.fields.find? fun f => f.name = name).map fun field =>
      instantiate sym declaration t.innerTypes field.type

/-- The type at the end of a path of fields. -/
def pathType : TypeInfo → List Bytes → Option TypeInfo
  | t, [] => some t
  | t, name :: path => (fieldType sym t name).bind fun t' => pathType t' path

/-- The source of a comparison, as a type. -/
def sourceType (q : InterfaceQuery) : TypeInfo :=
  .makeGeneric (if q.fromRecord then .record else .interface) q.source q.sourceArgs

/-- The target of a comparison, as a type. -/
def targetType (q : InterfaceQuery) : TypeInfo := .makeGeneric .interface q.target q.targetArgs

/-- Every field path of the target is one of the source, with an assignable type at its end. -/
def PathsHold (bindings : Bindings) (q : InterfaceQuery) : Prop :=
  ∀ path ≠ [], ∀ target, pathType sym (targetType q) path = some target →
    ∃ source, pathType sym (sourceType q) path = some source ∧
      isAssignable (satisfactionTables sym [] bindings) target source = true

/-- A type meets an interface of another name, or of another kind, and its fields are compared. -/
def Structural (target source : TypeInfo) : Prop :=
  target.kind = .interface ∧ (source.kind = .record ∨ source.kind = .interface ∧ target.name ≠ source.name)

/-- On the paths, a record or an interface meets the same type, or its fields are compared. -/
def Plain (q : InterfaceQuery) : Prop :=
  ∀ path ≠ [], ∀ target source, pathType sym (targetType q) path = some target →
    pathType sym (sourceType q) path = some source → (declarationOf sym target).isSome →
      target = source ∨ Structural target source

/-- No comparison that comes up leads to another one of its names, with other type arguments. All
    of them have as many arguments as parameters, and the declarations use their own parameters
    only. On the paths, no type meets one of its name with other arguments, or an open type. -/
structure Unconfused (bindings : Bindings) (q : InterfaceQuery) : Prop where
  wellScoped : WellScoped sym (OrderedMap.keys bindings)
  applied : AllApplied sym q
  regular : Regular (Asks sym) key q
  plain : Plain sym q

variable {sym} {q : InterfaceQuery} {target source : TypeInfo}

/-- The comparison that assigning such a type comes down to. -/
theorem Structural.exists_query (h : Structural target source) :
    ∃ q' : InterfaceQuery, asked (choicesOf sym) target source = [q'] ∧
      (∀ tables : SymbolTables, isAssignable tables target source = tables.answers q') ∧
      (∀ name, fieldType sym (targetType q') name = fieldType sym target name) ∧
      ∀ name, fieldType sym (sourceType q') name = fieldType sym source name := by
  obtain ⟨targetKind, targetName, targetInner, targetReturn⟩ := target
  obtain ⟨sourceKind, sourceName, sourceInner, sourceReturn⟩ := source
  obtain ⟨htarget, hrecord | ⟨hinterface, hname⟩⟩ := h
  · cases htarget
    cases hrecord
    refine ⟨⟨true, sourceName, targetName, sourceInner, targetInner⟩, ?_, fun tables => ?_, fun _ => rfl, fun _ => rfl⟩
    · rw [asked]
      simp [TypeInfo.equals]
    · rw [isAssignable]
      simp [TypeInfo.equals, SymbolTables.answers]
  · cases htarget
    cases hinterface
    have hname : targetName ≠ sourceName := hname
    refine ⟨⟨false, sourceName, targetName, sourceInner, targetInner⟩, ?_, fun tables => ?_, fun _ => rfl, fun _ => rfl⟩
    · rw [asked]
      simp [TypeInfo.equals, hname]
    · rw [isAssignable]
      simp [TypeInfo.equals, SymbolTables.answers, hname]

/-! ## What holds has all paths -/

theorem pathType_cons {t : TypeInfo} {name : Bytes} {path : List Bytes} :
    pathType sym t (name :: path) = some target ↔
      ∃ t', fieldType sym t name = some t' ∧ pathType sym t' path = some target := by
  rw [pathType, Option.bind_eq_some_iff]

/-- Two types with the same fields have the same paths. -/
theorem pathType_congr {t t' : TypeInfo} (h : ∀ name, fieldType sym t name = fieldType sym t' name)
    {path : List Bytes} (hpath : path ≠ []) : pathType sym t path = pathType sym t' path := by
  cases path with
  | nil => exact absurd rfl hpath
  | cons name path => rw [pathType, pathType, h name]

/-- A type with a field is a record or an interface. -/
theorem isSome_declarationOf {t t' : TypeInfo} {name : Bytes} (h : fieldType sym t name = some t') :
    (declarationOf sym t).isSome := by
  obtain ⟨declaration, hdeclaration, -⟩ := Option.bind_eq_some_iff.mp h
  rw [hdeclaration]
  rfl

theorem declarationOf_sourceType : declarationOf sym (sourceType q) = sourceDecl sym q := by
  unfold declarationOf sourceType sourceDecl
  cases q.fromRecord <;> rfl

/-- A field of the target is one of the source. -/
theorem field_of_holds (h : Holds (Step sym) q) {name : Bytes}
    (hfield : fieldType sym (targetType q) name = some target) :
    ∃ source, fieldType sym (sourceType q) name = some source ∧ FieldPair sym q target source ∧
      isAssignable (tablesOf sym (Holds (Step sym))) target source = true := by
  obtain ⟨s, t, hs, ht, hfields⟩ := h.supported step_asksOnly
  have hdeclaration : declarationOf sym (targetType q) = some t := ht
  rw [fieldType, hdeclaration, Option.bind_some, Option.map_eq_some_iff] at hfield
  obtain ⟨tf, htf, rfl⟩ := hfield
  obtain ⟨sf, hsf, hassignable⟩ := hfields tf (List.mem_of_find?_eq_some htf)
  have hname : tf.name = name := by simpa using List.find?_some htf
  refine ⟨instantiate sym s q.sourceArgs sf.type, ?_, ?_, hassignable⟩
  · rw [fieldType, declarationOf_sourceType, hs, Option.bind_some, ← hname, hsf]
    rfl
  · exact ⟨s, t, hs, ht, tf, List.mem_of_find?_eq_some htf, sf, hsf, rfl, rfl⟩

/-- On from a field, the paths are those of a field. -/
theorem Plain.of_field {q' : InterfaceQuery} {name : Bytes} (h : Plain sym q)
    (htarget : fieldType sym (targetType q) name = some target)
    (hsource : fieldType sym (sourceType q) name = some source)
    (htarget' : ∀ name, fieldType sym (targetType q') name = fieldType sym target name)
    (hsource' : ∀ name, fieldType sym (sourceType q') name = fieldType sym source name) : Plain sym q' := by
  intro path hpath t s ht hs hdeclaration
  rw [pathType_congr htarget' hpath] at ht
  rw [pathType_congr hsource' hpath] at hs
  exact h (name :: path) (List.cons_ne_nil _ _) t s (pathType_cons.mpr ⟨_, htarget, ht⟩)
    (pathType_cons.mpr ⟨_, hsource, hs⟩) hdeclaration

/-- Whatever holds has all field paths of the target in the source. -/
theorem pathsHold_of_holds {ambient : List Bytes} {bindings : Bindings} (hscoped : WellScoped sym ambient)
    (honly : BindsOnly sym ambient bindings) (happlied : AllApplied sym q) (hplain : Plain sym q)
    (h : Holds (Step sym) q) : PathsHold sym bindings q := by
  intro path
  induction path generalizing q with
  | nil => exact fun hpath => absurd rfl hpath
  | cons name path ih =>
    intro _ last hlast
    obtain ⟨target, htarget, hrest⟩ := pathType_cons.mp hlast
    obtain ⟨source, hsource, hpair, hassignable⟩ := field_of_holds h htarget
    cases path with
    | nil =>
      cases hrest
      refine ⟨source, pathType_cons.mpr ⟨source, hsource, rfl⟩, ?_⟩
      refine TypeInfo.isAssignable_mono ⟨satisfactionTables_choices.symm, fun q' hq' hanswer => ?_⟩ hassignable
      exact alwaysYes_of_holds hscoped (happlied.asks ⟨_, source, hpair, hq'⟩)
        (answers_tablesOf.mp hanswer) bindings honly
    | cons name' path =>
      obtain ⟨_, hfield, _⟩ := pathType_cons.mp hrest
      have hmeet := hplain [name] (List.cons_ne_nil _ _) target source (pathType_cons.mpr ⟨target, htarget, rfl⟩)
        (pathType_cons.mpr ⟨source, hsource, rfl⟩) (isSome_declarationOf hfield)
      rcases hmeet with rfl | hstructural
      · -- the same type has the same paths
        exact ⟨last, pathType_cons.mpr ⟨_, hsource, hrest⟩, TypeInfo.isAssignable_refl _ last⟩
      · obtain ⟨q', hasked, hanswers, htarget', hsource'⟩ := hstructural.exists_query
        have hholds : Holds (Step sym) q' := answers_tablesOf.mp (hanswers _ ▸ hassignable)
        have hasks : Asks sym q q' := ⟨target, source, hpair, hasked ▸ List.mem_cons_self⟩
        have hpath : name' :: path ≠ [] := List.cons_ne_nil _ _
        obtain ⟨last', hlast', hassignable'⟩ := ih (happlied.asks hasks)
          (hplain.of_field htarget hsource htarget' hsource') hholds hpath last
          (by rw [pathType_congr htarget' hpath]; exact hrest)
        rw [pathType_congr hsource' hpath] at hlast'
        exact ⟨last', pathType_cons.mpr ⟨source, hsource, hlast'⟩, hassignable'⟩

def plainType (name : Bytes) (typeParams : List TypeAnnotation) : TypeAnnotation := .plain name typeParams false false

/-- A record whose values are integers, and whose next one is another of it. -/
def recordDecl : TypeDeclaration :=
  ⟨bytes "Rec", [], [⟨bytes "value", plainType (bytes "integer") []⟩, ⟨bytes "next", plainType (bytes "Rec") []⟩]⟩

/-- An interface with a value of its parameter, and a next one with an argument of `next`. -/
def nodeDecl (next : TypeAnnotation) : TypeDeclaration :=
  ⟨bytes "Node", [bytes "T"], [⟨bytes "value", plainType (bytes "T") []⟩, ⟨bytes "next", plainType (bytes "Node") [next]⟩]⟩

def nodes (next : TypeAnnotation) : Symbols where
  records := [(bytes "Rec", recordDecl)]
  interfaces := [(bytes "Node", nodeDecl next)]
  choices := []
  typeAliases _ := none
  aliasParams _ := []
  internalMembers _ := false
  currentNamespace := []
  maxParseDepth := 128

/-- Is the record a node of integers? -/
def recordAsNode : InterfaceQuery := ⟨true, bytes "Rec", bytes "Node", [], [.make .integer]⟩

section Nodes

variable {next : TypeAnnotation} {name : Bytes}

/-- A type parameter is what it is bound to. -/
theorem resolveTypeAt_param {levels : Nat} {ctx : ResolutionContext} (haliases : ctx.typeAliases (bytes "T") = none)
    (hrecords : ctx.records (bytes "T") = none) (hchoices : ctx.choices (bytes "T") = none)
    (hinterfaces : ctx.interfaces (bytes "T") = none) (hnamespace : ctx.currentNamespace = []) :
    ResolutionContext.resolveTypeAt (levels + 1) ctx (plainType (bytes "T") []) =
      (OrderedMap.lookup (bytes "T") ctx.bindings).getD (.makeNamed .unknown (bytes "T")) := by
  have hprimitive : OrderedMap.lookup (bytes "T") TypeInfo.primitiveTypes = none := by decide
  have hwrapper : OrderedMap.lookup (bytes "T") TypeInfo.wrapperTypes = none := by decide
  have hbuiltin : bytes "T" ≠ bytes "dictionary" ∧ bytes "T" ≠ bytes "result" ∧
    bytes "T" ∉ TypeInfo.namedRecordTypes := by decide
  simp only [plainType, ResolutionContext.resolveTypeAt, haliases, hnamespace, ne_eq, not_true_eq_false, false_and,
    and_false, if_false]
  simp only [ResolutionContext.resolveNamedType, hprimitive, hwrapper, hbuiltin.1, hbuiltin.2.1, hbuiltin.2.2, if_false,
    ResolutionContext.resolveUserNamed, hrecords, hchoices, hinterfaces]
  cases OrderedMap.lookup (bytes "T") ctx.bindings <;> rfl

theorem resolveType_param (b : Bindings) : resolveType (nodes next) b (plainType (bytes "T") []) =
    (OrderedMap.lookup (bytes "T") b).getD (.makeNamed .unknown (bytes "T")) := by
  show ResolutionContext.resolveTypeAt (127 + 1) _ _ = _
  exact resolveTypeAt_param rfl rfl rfl rfl rfl

/-- A type with the parameter for an argument. -/
theorem resolveType_node (b : Bindings) :
    resolveType (nodes next) b (plainType (bytes "Node") [plainType (bytes "T") []]) =
      .makeGeneric .interface (bytes "Node")
        [(OrderedMap.lookup (bytes "T") b).getD (.makeNamed .unknown (bytes "T"))] := by
  show TypeInfo.makeGeneric .interface (bytes "Node")
    [ResolutionContext.resolveTypeAt (126 + 1) _ (plainType (bytes "T") [])] = _
  rw [resolveTypeAt_param rfl rfl rfl rfl rfl]

/-- The type parameter of the interface is all that its fields depend on. -/
theorem nodes_wellScoped : WellScoped (nodes (plainType (bytes "T") [])) [] := by
  intro entry hentry
  rcases List.mem_cons.mp hentry with rfl | hentry
  · refine ⟨List.nodup_nil, by simp [recordDecl], fun field hfield b b' _ _ _ => ?_⟩
    rcases List.mem_pair.mp hfield with rfl | rfl
    · rfl
    · rfl
  · cases List.mem_singleton.mp hentry
    refine ⟨List.nodup_singleton _, by decide, fun field hfield b b' _ _ hsame => ?_⟩
    have hparam := hsame (bytes "T") List.mem_cons_self
    rcases List.mem_pair.mp hfield with rfl | rfl
    · rw [resolveType_param, resolveType_param, hparam]
    · rw [resolveType_node, resolveType_node, hparam]

/-- The comparison asks for itself only. -/
theorem asks_nodes {q' : InterfaceQuery} (h : Asks (nodes (plainType (bytes "T") [])) recordAsNode q') :
    q' = recordAsNode := by
  obtain ⟨target, source, ⟨s, t, hs, ht, tf, htf, sf, hsf, rfl, rfl⟩, hasked⟩ := h
  cases hs
  cases ht
  rcases List.mem_pair.mp htf with rfl | rfl
  · cases hsf
    have hnone : asked (choicesOf (nodes (plainType (bytes "T") []))) (.make .integer) (.make .integer) = [] := by
      rw [TypeInfo.make, asked]
      simp [TypeInfo.equals, TypeInfo.allEqual, TypeInfo.returnsEqual]
    exact absurd (hnone ▸ hasked) List.not_mem_nil
  · cases hsf
    have hself : asked (choicesOf (nodes (plainType (bytes "T") []))) (targetType recordAsNode)
        (sourceType recordAsNode) = [recordAsNode] := by
      rw [targetType, sourceType, TypeInfo.makeGeneric, TypeInfo.makeGeneric, asked]
      simp [TypeInfo.equals, recordAsNode]
    exact List.mem_singleton.mp (hself ▸ hasked)

theorem eq_of_reachable {q' : InterfaceQuery}
    (h : Relation.ReflTransGen (Asks (nodes (plainType (bytes "T") []))) recordAsNode q') : q' = recordAsNode := by
  induction h with
  | refl => rfl
  | tail _ hasks ih =>
    rw [ih] at hasks
    exact asks_nodes hasks

/-- On a path, an integer meets an integer, or the node meets the record. -/
theorem nodes_path {path : List Bytes} {target source : TypeInfo}
    (ht : pathType (nodes (plainType (bytes "T") [])) (targetType recordAsNode) path = some target)
    (hs : pathType (nodes (plainType (bytes "T") [])) (sourceType recordAsNode) path = some source) :
    target = .make .integer ∨ target = targetType recordAsNode ∧ source = sourceType recordAsNode := by
  induction path with
  | nil =>
    cases ht
    cases hs
    exact .inr ⟨rfl, rfl⟩
  | cons name path ih =>
    obtain ⟨t, hfield, ht⟩ := pathType_cons.mp ht
    obtain ⟨s, hfield', hs⟩ := pathType_cons.mp hs
    obtain ⟨declaration, hdeclaration, hfield⟩ := Option.bind_eq_some_iff.mp hfield
    cases hdeclaration
    obtain ⟨tf, htf, rfl⟩ := Option.map_eq_some_iff.mp hfield
    have hname : tf.name = name := by simpa using List.find?_some htf
    rcases List.mem_pair.mp (List.mem_of_find?_eq_some htf) with rfl | rfl
    · left
      cases path with
      | nil =>
        cases ht
        rfl
      | cons name path =>
        obtain ⟨_, hnone, _⟩ := pathType_cons.mp ht
        cases hnone
    · cases hname
      cases hfield'
      exact ih ht hs

theorem nodes_unconfused : Unconfused (nodes (plainType (bytes "T") [])) [] recordAsNode where
  wellScoped := nodes_wellScoped
  applied p hp := by
    rw [eq_of_reachable hp]
    refine ⟨fun s hs => ?_, fun t ht => ?_⟩
    · cases hs
      rfl
    · cases ht
      rfl
  regular p p' hp hp' _ := by
    rw [eq_of_reachable hp, eq_of_reachable (hp.trans hp'.to_reflTransGen)]
  plain path _ target source ht hs hdeclaration := by
    rcases nodes_path ht hs with rfl | ⟨rfl, rfl⟩
    · cases hdeclaration
    · exact .inr ⟨rfl, .inl rfl⟩

/-- The record is taken for a node with any argument while it is compared with a node. -/
theorem node_assignable {b : Bindings} {arg : TypeInfo} :
    isAssignable (satisfactionTables (nodes next) [key recordAsNode] b)
      (.makeGeneric .interface (bytes "Node") [arg]) (sourceType recordAsNode) = true := by
  have hanswer : (satisfactionTables (nodes next) [key recordAsNode] b).answers
      ⟨true, bytes "Rec", bytes "Node", [], [arg]⟩ = true :=
    answers_satisfactionTables.mpr ⟨recordDecl, nodeDecl next, rfl, rfl, .inl List.mem_cons_self⟩
  rw [sourceType, TypeInfo.makeGeneric, TypeInfo.makeGeneric, isAssignable]
  simpa [TypeInfo.equals, SymbolTables.answers, recordAsNode] using hanswer

/-- The record is taken for a node of integers, whatever its next node is said to be. -/
theorem recordAsNode_answered : (satisfactionTables (nodes next) [] []).answers recordAsNode = true := by
  refine answers_satisfactionTables.mpr ⟨recordDecl, nodeDecl next, rfl, rfl, .inr ?_⟩
  show (if !isAssignable (satisfactionTables _ _ _) (.make .integer) (.make .integer) then false
    else if !isAssignable (satisfactionTables _ _ _) (.makeGeneric .interface (bytes "Node") [_])
      (sourceType recordAsNode) then false else true) = true
  rw [TypeInfo.isAssignable_refl, node_assignable]
  rfl

end Nodes

end Luma.Interfaces
