-- SUMMARY: Narrowings by name do what narrowings by variable do, up to shadowing.
import Luma.Types.Narrowing
import Luma.Types.Resolve

/-! # Narrowing and Shadowing

The same walk is run with both kinds of narrowings. As long as every occurrence gets the same
type from both, the runs stay in step; an occurrence of a variable that shadows the narrowed
one can part them. -/

namespace Luma.Narrowing

open Codec

/-! ## Scopes and levels -/

section Levels

variable {scopes outer inner : Scopes} {scope : Scope} {name : Bytes} {l : Nat}

/-- A name has a level where it has a symbol. -/
theorem isSome_level : (level scopes name).isSome = (lookupVariable scopes name).isSome := by
  induction scopes with
  | nil => rfl
  | cons scope outer ih =>
    rw [level, lookupVariable]
    cases OrderedMap.lookup name scope with
    | none => exact ih
    | some symbol => rfl

end Levels

/-! ## What a run leaves alone -/

section Frame

variable (tc : TypeCheckingServices) {R α : Type} (d : Discipline R)

@[simp] theorem popTo_mark (refinements : List R) : popTo (mark refinements) refinements = refinements := by
  simp [popTo, mark]

@[simp] theorem popTo_mark_cons (r : R) (refinements : List R) :
    popTo (mark refinements) (r :: refinements) = refinements := by
  simp [popTo, mark]

/-- The narrowings a then-branch is checked with. -/
def narrowedBy (condition : Expression) (scopes : Scopes) (refinements : List R) : List R :=
  match tryExtractIsRefinement tc scopes condition with
  | some (name, type) => d.entry scopes name type :: refinements
  | none => refinements

theorem run_thenBranch {β : Type} (condition : Expression) (body : Check β) (next : β → Check α)
    (scopes : Scopes) (refinements : List R) :
    (Check.thenBranch condition body next).run tc d scopes refinements =
      let inside := body.run tc d ([] :: scopes) (narrowedBy tc d condition scopes refinements)
      let after := (next inside.result).run tc d inside.scopes.tail refinements
      { after with occurrences := inside.occurrences ++ after.occurrences } := by
  rw [Check.run, narrowedBy]
  cases tryExtractIsRefinement tc scopes condition with
  | none => simp only [popTo_mark]
  | some found => simp only [popTo_mark_cons]

end Frame

/-! ## Runs in step -/

/-- The name of an occurrence and the type it was given. -/
def Occurrence.given {R : Type} (o : Occurrence R) : Bytes × TypeInfo := (o.name, o.type)

/-- The latest narrowing of the name is of a variable that the name does not denote here, and
    is not to the type of the variable that it does denote. -/
def Occurrence.Leaks (o : Occurrence VariableNarrowing) : Prop :=
  (level o.scopes o.name).isSome ∧
    ∃ n, o.refinements.find? (fun n => n.variableName = o.name) = some n ∧
      n.level ≠ level o.scopes o.name ∧ n.narrowedType ≠ o.type

/-- Two lists that part at some place. -/
def Part {α : Type} (t t' : List α) : Prop :=
  ∃ front a b rest rest', a ≠ b ∧ t = front ++ a :: rest ∧ t' = front ++ b :: rest'

section Part

variable {α : Type} {t t' u u' : List α}

theorem Part.ne (h : Part t t') : t ≠ t' := by
  obtain ⟨front, a, b, rest, rest', hne, rfl, rfl⟩ := h
  intro heq
  exact hne (List.cons.inj (List.append_cancel_left heq)).1

theorem Part.append_right (h : Part t t') : Part (t ++ u) (t' ++ u') := by
  obtain ⟨front, a, b, rest, rest', hne, rfl, rfl⟩ := h
  exact ⟨front, a, b, rest ++ u, rest' ++ u', hne, by simp, by simp⟩

theorem Part.append_left (h : Part t t') : Part (u ++ t) (u ++ t') := by
  obtain ⟨front, a, b, rest, rest', hne, rfl, rfl⟩ := h
  exact ⟨u ++ front, a, b, rest, rest', hne, by simp, by simp⟩

end Part

section Runs

variable (tc : TypeCheckingServices) {α : Type}

/-- A run by name and a run by variable that do the same. -/
structure SameRun (w : Checked TypeRefinement α) (w' : Checked VariableNarrowing α) : Prop where
  result : w.result = w'.result
  scopes : w.scopes = w'.scopes
  given : w.occurrences.map Occurrence.given = w'.occurrences.map Occurrence.given
  clean : ∀ o ∈ w'.occurrences, ¬ o.Leaks

/-- A run by name and a run by variable that part at a leak. -/
structure PartedRun (w : Checked TypeRefinement α) (w' : Checked VariableNarrowing α) : Prop where
  given : Part (w.occurrences.map Occurrence.given) (w'.occurrences.map Occurrence.given)
  leak : ∃ o ∈ w'.occurrences, o.Leaks

/-- The first element to satisfy a condition also is the first to satisfy a stronger one that it
    satisfies. -/
theorem find?_of_imp {β : Type} {p q : β → Bool} {xs : List β} {x : β} (hfind : xs.find? p = some x)
    (hq : q x = true) (himp : ∀ y, q y = true → p y = true) : xs.find? q = some x := by
  rw [List.find?_eq_some_iff_append] at hfind ⊢
  obtain ⟨_, before, after, rfl, hbefore⟩ := hfind
  refine ⟨hq, before, after, rfl, fun y hy => ?_⟩
  have hp := hbefore y hy
  rw [Bool.not_eq_true'] at hp ⊢
  exact Bool.eq_false_iff.mpr fun hqy => by simp [himp y hqy] at hp

/-- At one occurrence the two agree unless it leaks. -/
theorem visitVariable_iff (scopes : Scopes) (narrowings : List VariableNarrowing) (name : Bytes) :
    visitVariable tc byName scopes (narrowings.map VariableNarrowing.byName) name =
        visitVariable tc byVariable scopes narrowings name ↔
      ¬ Occurrence.Leaks ⟨name, visitVariable tc byVariable scopes narrowings name, scopes, narrowings⟩ := by
  have hlevel : (level scopes name).isSome = (lookupVariable scopes name).isSome := isSome_level
  have hfind : byName.find scopes (narrowings.map VariableNarrowing.byName) name =
      (narrowings.find? fun n => n.variableName = name).map VariableNarrowing.narrowedType := by
    simp only [byName, List.find?_map, Option.map_map]
    rfl
  cases hlookup : lookupVariable scopes name with
  | none =>
    rw [hlookup] at hlevel
    simp [visitVariable, hlookup, Occurrence.Leaks, hlevel]
  | some symbol =>
    rw [hlookup] at hlevel
    cases hn : narrowings.find? fun n => n.variableName = name with
    | none =>
      -- no narrowing of the name, so none of the variable
      have hnone : byVariable.find scopes narrowings name = none := by
        simp only [List.find?_eq_none, decide_eq_true_eq] at hn
        simp only [byVariable, Option.map_eq_none_iff, List.find?_eq_none, decide_eq_true_eq]
        exact fun n hmem hboth => hn n hmem hboth.1
      simp [visitVariable, hlookup, hfind, hn, hnone, Occurrence.Leaks]
    | some n =>
      by_cases hsame : n.level = level scopes name
      · -- the latest narrowing of the name is of the variable
        have hname : n.variableName = name := by simpa using List.find?_some hn
        have hboth : narrowings.find? (fun n => n.variableName = name ∧ n.level = level scopes name) = some n :=
          find?_of_imp hn (by simp [hname, hsame]) (fun m hm => by simp at hm ⊢; exact hm.1)
        have hvariable : byVariable.find scopes narrowings name = some n.narrowedType := by
          simp only [byVariable, hboth, Option.map_some]
        simp [visitVariable, hlookup, hfind, hn, hvariable, Occurrence.Leaks, hsame]
      · have hleft : visitVariable tc byName scopes (narrowings.map VariableNarrowing.byName) name =
            n.narrowedType := by
          simp [visitVariable, hlookup, hfind, hn]
        rw [hleft]
        simp [Occurrence.Leaks, hlevel, hn, hsame]

theorem narrowedBy_byName (condition : Expression) (scopes : Scopes) (narrowings : List VariableNarrowing) :
    narrowedBy tc byName condition scopes (narrowings.map VariableNarrowing.byName) =
      (narrowedBy tc byVariable condition scopes narrowings).map VariableNarrowing.byName := by
  unfold narrowedBy
  cases tryExtractIsRefinement tc scopes condition <;> rfl

/-- What follows a part that was run in step. -/
theorem SameRun.then {β : Type} {w : Checked TypeRefinement β} {w' : Checked VariableNarrowing β}
    {v : Checked TypeRefinement α} {v' : Checked VariableNarrowing α} (hfirst : SameRun w w')
    (hrest : SameRun v v' ∨ PartedRun v v') :
    SameRun { v with occurrences := w.occurrences ++ v.occurrences }
        { v' with occurrences := w'.occurrences ++ v'.occurrences } ∨
      PartedRun { v with occurrences := w.occurrences ++ v.occurrences }
        { v' with occurrences := w'.occurrences ++ v'.occurrences } := by
  rcases hrest with hsame | hparted
  · left
    refine ⟨hsame.result, hsame.scopes, ?_, fun o ho => ?_⟩
    · rw [List.map_append, List.map_append, hfirst.given, hsame.given]
    · rcases List.mem_append.mp ho with ho | ho
      · exact hfirst.clean o ho
      · exact hsame.clean o ho
  · right
    refine ⟨?_, ?_⟩
    · rw [List.map_append, List.map_append, hfirst.given]
      exact hparted.given.append_left
    · obtain ⟨o, ho, hleak⟩ := hparted.leak
      exact ⟨o, List.mem_append_right _ ho, hleak⟩

/-- Runs that have parted stay apart. -/
theorem PartedRun.then {β : Type} {w : Checked TypeRefinement β} {w' : Checked VariableNarrowing β}
    (v : Checked TypeRefinement α) (v' : Checked VariableNarrowing α) (hfirst : PartedRun w w') :
    PartedRun { v with occurrences := w.occurrences ++ v.occurrences }
      { v' with occurrences := w'.occurrences ++ v'.occurrences } := by
  refine ⟨?_, ?_⟩
  · rw [List.map_append, List.map_append]
    exact hfirst.given.append_right
  · obtain ⟨o, ho, hleak⟩ := hfirst.leak
    exact ⟨o, List.mem_append_left _ ho, hleak⟩

/-- Whatever the program, the two runs stay in step up to an occurrence that leaks. -/
theorem run_compare (p : Check α) (scopes : Scopes) (narrowings : List VariableNarrowing) :
    SameRun (p.run tc byName scopes (narrowings.map VariableNarrowing.byName))
        (p.run tc byVariable scopes narrowings) ∨
      PartedRun (p.run tc byName scopes (narrowings.map VariableNarrowing.byName))
        (p.run tc byVariable scopes narrowings) := by
  induction p generalizing scopes narrowings with
  | done result => exact .inl ⟨rfl, rfl, rfl, by simp [Check.run]⟩
  | visit name next ih =>
    by_cases hleak : Occurrence.Leaks
        ⟨name, visitVariable tc byVariable scopes narrowings name, scopes, narrowings⟩
    · right
      have hne := mt (visitVariable_iff tc scopes narrowings name).mp (not_not_intro hleak)
      refine ⟨⟨[], _, _, _, _, ?_, rfl, rfl⟩, _, List.mem_cons_self, hleak⟩
      exact fun heq => hne (congrArg Prod.snd heq)
    · have hsame := (visitVariable_iff tc scopes narrowings name).mpr hleak
      have hone : SameRun
          ⟨visitVariable tc byVariable scopes narrowings name, scopes,
            [⟨name, visitVariable tc byVariable scopes narrowings name, scopes,
              narrowings.map VariableNarrowing.byName⟩]⟩
          ⟨visitVariable tc byVariable scopes narrowings name, scopes,
            [⟨name, visitVariable tc byVariable scopes narrowings name, scopes, narrowings⟩]⟩ :=
        ⟨rfl, rfl, rfl, by simpa using hleak⟩
      have hrest := hone.then (ih (visitVariable tc byVariable scopes narrowings name) scopes narrowings)
      rw [Check.run, Check.run, hsame]
      exact hrest
  | inspect next ih => exact ih scopes scopes narrowings
  | define name symbol next ih => exact ih (define name symbol scopes) narrowings
  | scope body next ihBody ihNext =>
    rw [Check.run, Check.run]
    rcases ihBody ([] :: scopes) narrowings with hbody | hbody
    · have hrest := ihNext (body.run tc byVariable ([] :: scopes) narrowings).result
        (body.run tc byVariable ([] :: scopes) narrowings).scopes.tail narrowings
      simp only [hbody.result, hbody.scopes]
      exact hbody.then hrest
    · exact .inr (hbody.then _ _)
  | thenBranch condition body next ihBody ihNext =>
    rw [run_thenBranch, run_thenBranch, narrowedBy_byName]
    rcases ihBody ([] :: scopes) (narrowedBy tc byVariable condition scopes narrowings) with hbody | hbody
    · have hrest := ihNext
        (body.run tc byVariable ([] :: scopes) (narrowedBy tc byVariable condition scopes narrowings)).result
        (body.run tc byVariable ([] :: scopes)
          (narrowedBy tc byVariable condition scopes narrowings)).scopes.tail narrowings
      simp only [hbody.result, hbody.scopes]
      exact hbody.then hrest
    · exact .inr (hbody.then _ _)

end Runs

/-! ## Functions -/

/-- What the checker gives the variables of a function, with narrowings of a kind. -/
def givenTypes (tc : TypeCheckingServices) {R : Type} (d : Discipline R) (scopes : Scopes)
    (parameters : List Parameter) (body : List Statement) : List (Bytes × TypeInfo) :=
  ((checkFunction tc parameters body).run tc d scopes []).occurrences.map Occurrence.given

/-- Narrowing by name gives every occurrence in a function the type that narrowing by variable
    gives it, exactly if under no `is<T>(x)` there is an occurrence of `x` that denotes another
    variable with a type other than `T`. -/
theorem narrowing_respects_scope_iff (tc : TypeCheckingServices) (scopes : Scopes)
    (parameters : List Parameter) (body : List Statement) :
    givenTypes tc byName scopes parameters body = givenTypes tc byVariable scopes parameters body ↔
      ∀ o ∈ ((checkFunction tc parameters body).run tc byVariable scopes []).occurrences, ¬ o.Leaks := by
  rcases run_compare tc (checkFunction tc parameters body) scopes [] with hsame | hparted
  · exact iff_of_true hsame.given hsame.clean
  · obtain ⟨o, ho, hleak⟩ := hparted.leak
    exact iff_of_false hparted.given.ne fun hclean => hclean o ho hleak

/-- A checker with no declarations, which knows the types of literals and of tests. -/
def bareServices : TypeCheckingServices where
  maxExpressionDepth := 1000
  resolveType := ResolutionContext.empty.resolveType 256
  inferCompound _ e _ :=
    match e with
    | .literal (.string _) => TypeInfo.make .string
    | .isType .. => TypeInfo.make .boolean
    | _ => TypeInfo.make .unknown
  isRecord _ := false
  isChoice _ := false
  createdFields _ := none
  copiedFields _ := []
  recordFields _ _ := none
  variantFields _ _ _ := []

/-- A type without parameters. -/
def simpleType (name : String) : TypeAnnotation := .plain (bytes name) [] false false

/-- `if is<integer>(x) { string x = "a"; integer y = x }` -/
def shadowingBranch : Statement :=
  .ifStatement (.isType (simpleType "integer") (.variable (bytes "x")))
    [.variableDeclaration (simpleType "string") (bytes "x") false (some (.literal (.string (bytes "a")))),
      .variableDeclaration (simpleType "integer") (bytes "y") false (some (.variable (bytes "x")))] []

/-- The string that shadows a narrowed number is taken for an integer. -/
theorem shadowing_string_taken_for_integer :
    givenTypes bareServices byName [[]] [.mk (simpleType "number") (bytes "x") none false] [shadowingBranch] =
        [(bytes "x", TypeInfo.make .number), (bytes "x", TypeInfo.make .integer)] ∧
      givenTypes bareServices byVariable [[]] [.mk (simpleType "number") (bytes "x") none false]
          [shadowingBranch] =
        [(bytes "x", TypeInfo.make .number), (bytes "x", TypeInfo.make .string)] ∧
      givenTypes bareServices byName [[]] [.mk (simpleType "number") (bytes "x") none false] [shadowingBranch] ≠
        givenTypes bareServices byVariable [[]] [.mk (simpleType "number") (bytes "x") none false]
          [shadowingBranch] := by
  have hname : givenTypes bareServices byName [[]] [.mk (simpleType "number") (bytes "x") none false]
      [shadowingBranch] = [(bytes "x", TypeInfo.make .number), (bytes "x", TypeInfo.make .integer)] := rfl
  have hvariable : givenTypes bareServices byVariable [[]]
      [.mk (simpleType "number") (bytes "x") none false] [shadowingBranch] =
        [(bytes "x", TypeInfo.make .number), (bytes "x", TypeInfo.make .string)] := rfl
  refine ⟨hname, hvariable, ?_⟩
  rw [hname, hvariable]
  simp [TypeInfo.make]

end Luma.Narrowing
