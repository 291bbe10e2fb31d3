-- SUMMARY: Operations on sets are those of sets of values modulo sameness.
import Luma.Stdlib.Sets
import Luma.Value.Sameness

/-! # Laws of Sets

A set object whose elements are pairwise not the same stands for the set of all values
that are the same as one of them. Looking a value up decides membership, and every
operation is the operation on these sets, with elements in the order of their first
insertion. A call fails only when a container grows too large, a callable fails, or a
value is nested too deep to be compared. -/

namespace Luma.SetModule

open Codec Representatives Stateful Value

variable {h : StdHash} {maxSetSize : Nat} {D : Prop} {X : ErrorMessage → Prop} {v w value : Value} {xs ys keys elements : List Value}

/-- The values that are the same as an element. -/
abbrev members (h : StdHash) (xs : List Value) : Set Value := classes (Lawful h) (Same h) xs

/-- A lawful value, nested less deep than the limit unless `D`. -/
structure Fine (h : StdHash) (D : Prop) (v : Value) : Prop where
  lawful : Lawful h v
  nested : ¬ D → Nested maxDisplayDepth v

theorem Fine.wellFormed (hv : Fine h D v) (hD : ¬ D) : WellFormed h maxDisplayDepth v :=
  wellFormed_of_nested le_rfl hv.lawful (hv.nested hD)

/-! ## Comparing and looking up -/

theorem same_symm (hv : Lawful h v) (hw : Lawful h w) (hvw : Same h v w) : Same h w v :=
  (same_equivalence h).symm hv hw hvw

theorem mem_members_iff (hv : Lawful h v) : v ∈ members h xs ↔ ∃ x ∈ xs, Same h x v := ⟨fun hmem => hmem.2, fun hx => ⟨hv, hx⟩⟩

/-- A comparison decides sameness. -/
theorem equals_outcome (hdeep : ∀ e, D → X e) (hv : Fine h D v) (hw : Fine h D w) :
    Outcome (equals h v w) (fun r => r = true ↔ Same h v w) X := by
  cases hrun : equals h v w with
  | error e =>
    refine hdeep e (Classical.by_contradiction fun hD => ?_)
    obtain ⟨r, hr⟩ := (lawfulAt maxDisplayDepth).total (hv.wellFormed hD) (hw.wellFormed hD)
    rw [equals, hr] at hrun
    cases hrun
  | ok r =>
    constructor
    · rintro rfl
      exact .inr hrun
    · rintro (rfl | heq)
      · cases r with
        | true => rfl
        | false => exact absurd hrun (equalsAt_self hv.lawful)
      · exact Except.ok.inj (hrun.symm.trans heq)

/-- A lookup decides membership. -/
theorem indexContains_outcome (hdeep : ∀ e, D → X e) (hkeys : ∀ k ∈ keys, Fine h D k) (hv : Fine h D v) :
    Outcome (indexContains h (equals h) keys v) (fun r => r = true ↔ v ∈ members h keys) X := by
  cases hrun : indexContains h (equals h) keys v with
  | error e =>
    refine hdeep e (Classical.by_contradiction fun hD => ?_)
    obtain ⟨r, hr⟩ := (indexContains_spec (lawfulAt maxDisplayDepth) (fun k hk => (hkeys k hk).wellFormed hD)
      (hv.wellFormed hD)).1
    cases hrun.symm.trans hr
  | ok r =>
    constructor
    · rintro rfl
      obtain ⟨k, hk, -, heq⟩ := exists_of_indexContains hrun
      exact ⟨hv.lawful, k, hk, same_symm hv.lawful (hkeys k hk).lawful (.inr heq)⟩
    · rintro ⟨-, k, hk, hsame⟩
      cases r with
      | true => rfl
      | false =>
        have hkey := Matching.forall_of_anyM_false hrun k hk
        rw [if_pos (hsame.hash (hkeys k hk).lawful hv.lawful)] at hkey
        have hdecides := equals_outcome hdeep hv (hkeys k hk)
        rw [hkey] at hdecides
        exact hdecides.mpr (same_symm (hkeys k hk).lawful hv.lawful hsame)

/-- So does a scan. -/
theorem containsValue_outcome (hdeep : ∀ e, D → X e) (hxs : ∀ x ∈ xs, Fine h D x) (hv : Fine h D v) :
    Outcome (containsValue h xs v) (fun r => r = true ↔ v ∈ members h xs) X := by
  cases hrun : containsValue h xs v with
  | error e =>
    refine hdeep e (Classical.by_contradiction fun hD => ?_)
    obtain ⟨r, hr⟩ := Matching.anyM_total fun x hx =>
      (lawfulAt (h := h) maxDisplayDepth).total ((hxs x hx).wellFormed hD) (hv.wellFormed hD)
    cases hrun.symm.trans hr
  | ok r =>
    constructor
    · rintro rfl
      obtain ⟨x, hx, heq⟩ := Matching.exists_of_anyM hrun
      exact ⟨hv.lawful, x, hx, .inr heq⟩
    · rintro ⟨-, x, hx, hsame⟩
      cases r with
      | true => rfl
      | false =>
        have hdecides := equals_outcome hdeep (hxs x hx) hv
        rw [Matching.forall_of_anyM_false hrun x hx] at hdecides
        exact hdecides.mpr hsame

/-! ## Collecting elements -/

theorem forall_append_singleton {Q : Value → Prop} (hxs : ∀ x ∈ xs, Q x) (hv : Q v) : ∀ x ∈ xs ++ [v], Q x := by
  intro x hx
  rcases List.mem_append.mp hx with hx | hx
  · exact hxs x hx
  · rwa [List.mem_singleton.mp hx]

/-- A value that is found was seen. -/
theorem append_firsts_of_found (hv : Lawful h v) (hfound : v ∈ members h keys) :
    keys ++ firsts (Same h) keys (v :: xs) = keys ++ firsts (Same h) keys xs := by
  rw [firsts_of_seen ((mem_members_iff hv).mp hfound)]

theorem append_firsts_of_missing (hv : Lawful h v) (hmissing : v ∉ members h keys) :
    keys ++ firsts (Same h) keys (v :: xs) = keys ++ [v] ++ firsts (Same h) (keys ++ [v]) xs :=
  append_firsts_of_new fun hseen => hmissing ((mem_members_iff hv).mpr hseen)

theorem not_mem_of_false {r : Bool} (hr : r = true ↔ v ∈ members h keys) (hfalse : r = false) : v ∉ members h keys := by
  intro hmem
  rw [hr.mpr hmem] at hfalse
  cases hfalse

theorem buildIndex_outcome (hdeep : ∀ e, D → X e) (hkeys : ∀ k ∈ keys, Fine h D k) (hxs : ∀ x ∈ xs, Fine h D x) :
    Outcome (buildIndex h (equals h) keys xs) (· = keys ++ firsts (Same h) keys xs) X := by
  induction xs generalizing keys with
  | nil => exact (List.append_nil keys).symm
  | cons x xs ih =>
    have hx := hxs x List.mem_cons_self
    have hrest : ∀ y ∈ xs, Fine h D y := fun y hy => hxs y (List.mem_cons_of_mem x hy)
    refine (indexContains_outcome hdeep hkeys hx).bind fun r hr => ?_
    cases r with
    | true =>
      rw [append_firsts_of_found hx.lawful (hr.mp rfl)]
      exact ih hkeys hrest
    | false =>
      rw [append_firsts_of_missing hx.lawful (not_mem_of_false hr rfl)]
      exact ih (forall_append_singleton hkeys hx) hrest

/-- An error that says that a container would grow too large. -/
def TooLarge (e : ErrorMessage) : Prop := ∃ functionName : String, e = s!"{functionName}: exceeds maximum size"

theorem validateContainerSize_outcome {currentSize adding : Nat} {functionName : String}
    (hsize : ∀ e, TooLarge e → X e) :
    Outcome (validateContainerSize maxSetSize currentSize adding functionName) (fun _ => True) X := by
  unfold validateContainerSize
  split
  · exact hsize _ ⟨functionName, rfl⟩
  · trivial

theorem dedupInOrder_outcome (hdeep : ∀ e, D → X e) (hsize : ∀ e, TooLarge e → X e)
    (hkeys : ∀ k ∈ keys, Fine h D k) (hxs : ∀ x ∈ xs, Fine h D x) :
    Outcome (dedupInOrder h maxSetSize keys xs) (· = keys ++ firsts (Same h) keys xs) X := by
  induction xs generalizing keys with
  | nil => exact (List.append_nil keys).symm
  | cons x xs ih =>
    have hx := hxs x List.mem_cons_self
    have hrest : ∀ y ∈ xs, Fine h D y := fun y hy => hxs y (List.mem_cons_of_mem x hy)
    refine (indexContains_outcome hdeep hkeys hx).bind fun r hr => ?_
    cases r with
    | true =>
      rw [append_firsts_of_found hx.lawful (hr.mp rfl)]
      exact ih hkeys hrest
    | false =>
      rw [append_firsts_of_missing hx.lawful (not_mem_of_false hr rfl)]
      exact (validateContainerSize_outcome hsize).bind fun _ _ => ih (forall_append_singleton hkeys hx) hrest

/-- The elements of a set, with a value added at the end if it is not there. -/
theorem pushUnique_outcome (hdeep : ∀ e, D → X e) (hsize : ∀ e, TooLarge e → X e) (hxs : ∀ x ∈ xs, Fine h D x)
    (hv : Fine h D v) : Outcome (pushUnique h maxSetSize xs v) (· = xs ++ firsts (Same h) xs [v]) X := by
  refine (containsValue_outcome hdeep hxs hv).bind fun r hr => ?_
  cases r with
  | true =>
    rw [append_firsts_of_found hv.lawful (hr.mp rfl)]
    exact (List.append_nil xs).symm
  | false =>
    rw [append_firsts_of_missing hv.lawful (not_mem_of_false hr rfl)]
    exact (validateContainerSize_outcome hsize).bind fun _ _ => (List.append_nil _).symm

theorem containerConcatUnique_outcome (hdeep : ∀ e, D → X e) (hxs : ∀ x ∈ xs, Fine h D x)
    (hys : ∀ y ∈ ys, Fine h D y) : Outcome (containerConcatUnique h xs ys) (· = firsts (Same h) [] (xs ++ ys)) X := by
  have hnil : ∀ k ∈ ([] : List Value), Fine h D k := fun k hk => absurd hk List.not_mem_nil
  refine (buildIndex_outcome hdeep hnil hxs).bind fun seen hseen => ?_
  rw [List.nil_append] at hseen
  subst hseen
  have hfirsts : ∀ k ∈ firsts (Same h) [] xs, Fine h D k := fun k hk => hxs k (firsts_sublist.subset hk)
  rw [firsts_append]
  exact buildIndex_outcome hdeep hfirsts hys

section Callables

variable {callable : Callable} {i : Nat}

/-- What a callable answers on the elements of a list, from its `i`-th call on. -/
def Answers (callable : Callable) (i : Nat) (elements results : List Value) : Prop :=
  List.Forall₂ (fun call result => callable call.2 call.1 = .ok result) (elements.zipIdx i) results

/-- The errors of a callable are excused. -/
def Excuses (callable : Callable) (X : ErrorMessage → Prop) : Prop := ∀ i x e, callable i x = .error e → X e

theorem callable_outcome (hfails : Excuses callable X) (x : Value) :
    Outcome (callable i x) (fun result => callable i x = .ok result) X := by
  cases hcall : callable i x with
  | ok result => rfl
  | error e => exact hfails i x e hcall

theorem containerMapUnique_outcome (hdeep : ∀ e, D → X e) (hfails : Excuses callable X)
    (hkeys : ∀ k ∈ keys, Fine h D k) (hresults : ∀ i, ∀ x ∈ xs, ∀ result, callable i x = .ok result → Fine h D result) :
    Outcome (containerMapUnique h callable i keys xs)
      (fun out => ∃ results, Answers callable i xs results ∧ out = keys ++ firsts (Same h) keys results) X := by
  induction xs generalizing i keys with
  | nil => exact ⟨[], .nil, (List.append_nil keys).symm⟩
  | cons x xs ih =>
    have hrest : ∀ i, ∀ y ∈ xs, ∀ result, callable i y = .ok result → Fine h D result :=
      fun i y hy => hresults i y (List.mem_cons_of_mem x hy)
    refine (callable_outcome hfails x).bind fun mapped hmapped => ?_
    have hfine := hresults i x List.mem_cons_self mapped hmapped
    refine (indexContains_outcome hdeep hkeys hfine).bind fun r hr => ?_
    cases r with
    | true =>
      refine (ih hkeys hrest).conseq ?_ fun _ he => he
      rintro out ⟨results, hanswers, rfl⟩
      exact ⟨mapped :: results, .cons hmapped hanswers, (append_firsts_of_found hfine.lawful (hr.mp rfl)).symm⟩
    | false =>
      refine (ih (forall_append_singleton hkeys hfine) hrest).conseq ?_ fun _ he => he
      rintro out ⟨results, hanswers, rfl⟩
      exact ⟨mapped :: results, .cons hmapped hanswers,
        (append_firsts_of_missing hfine.lawful (not_mem_of_false hr rfl)).symm⟩

/-- The elements that a callable accepted, and those it did not. -/
def accepted (elements results : List Value) : List Value :=
  ((elements.zip results).filter fun pair => pair.2.isTruthy).map Prod.fst

def refused (elements results : List Value) : List Value :=
  ((elements.zip results).filter fun pair => !pair.2.isTruthy).map Prod.fst

theorem containerFilter_outcome (hfails : Excuses callable X) {out : List Value} :
    Outcome (containerFilter callable i out xs)
      (fun out' => ∃ results, Answers callable i xs results ∧ out' = out ++ accepted xs results) X := by
  induction xs generalizing i out with
  | nil => exact ⟨[], .nil, (List.append_nil out).symm⟩
  | cons x xs ih =>
    refine (callable_outcome hfails x).bind fun result hresult => ?_
    split
    next htruthy =>
      refine ih.conseq ?_ fun _ he => he
      rintro out' ⟨results, hanswers, rfl⟩
      refine ⟨result :: results, .cons hresult hanswers, ?_⟩
      simp [accepted, htruthy]
    next htruthy =>
      refine ih.conseq ?_ fun _ he => he
      rintro out' ⟨results, hanswers, rfl⟩
      refine ⟨result :: results, .cons hresult hanswers, ?_⟩
      simp [accepted, htruthy]

theorem containerPartition_outcome (hfails : Excuses callable X) {matching rest : List Value} :
    Outcome (containerPartition callable i matching rest xs)
      (fun out => ∃ results, Answers callable i xs results ∧
        out = (matching ++ accepted xs results, rest ++ refused xs results)) X := by
  induction xs generalizing i matching rest with
  | nil => exact ⟨[], .nil, by simp [accepted, refused]⟩
  | cons x xs ih =>
    refine (callable_outcome hfails x).bind fun result hresult => ?_
    split
    next htruthy =>
      refine ih.conseq ?_ fun _ he => he
      rintro out ⟨results, hanswers, rfl⟩
      refine ⟨result :: results, .cons hresult hanswers, ?_⟩
      simp [accepted, refused, htruthy]
    next htruthy =>
      refine ih.conseq ?_ fun _ he => he
      rintro out ⟨results, hanswers, rfl⟩
      refine ⟨result :: results, .cons hresult hanswers, ?_⟩
      simp [accepted, refused, htruthy]

end Callables

open Classical in
theorem copyUnequal_outcome (hdeep : ∀ e, D → X e) (hxs : ∀ x ∈ xs, Fine h D x) (hv : Fine h D v) :
    Outcome (copyUnequal h v xs) (· = xs.filter fun x => decide (¬ Same h x v)) X := by
  induction xs with
  | nil => rfl
  | cons x xs ih =>
    have hrest := ih fun y hy => hxs y (List.mem_cons_of_mem x hy)
    refine (equals_outcome hdeep (hxs x List.mem_cons_self) hv).bind fun r hr => ?_
    cases r with
    | true =>
      rw [List.filter_cons_of_neg (by simpa using hr.mp rfl)]
      exact hrest
    | false =>
      have hne : ¬ Same h x v := fun hsame => Bool.false_ne_true (hr.mpr hsame)
      rw [List.filter_cons_of_pos (by simpa using hne)]
      refine hrest.bind fun out hout => ?_
      rw [hout]
      rfl

/-! ## Objects -/

/-- Elements of a set: lawful values, no two of them the same. -/
structure Sound (h : StdHash) (D : Prop) (elements : List Value) : Prop where
  fine : ∀ v ∈ elements, Fine h D v
  unequal : Unequal (Same h) elements

theorem Sound.lawful (hsound : Sound h D xs) : ∀ v ∈ xs, Lawful h v := fun v hv => (hsound.fine v hv).lawful

/-- A set object: sound elements, and an index of just these. -/
structure Valid (h : StdHash) (D : Prop) (set : SetValue) : Prop where
  sound : Sound h D set.elements
  index : ∀ keys, set.hashIndex = some keys → keys = set.elements

/-- The objects are valid and have these elements. -/
structure Holds (h : StdHash) (D : Prop) (contents : List (List Value)) (objects : Objects) : Prop where
  elements : objects.map (·.elements) = contents
  valid : ∀ set ∈ objects, Valid h D set

section Calls

variable {contents : List (List Value)} {objects : Objects} {s : Nat}

theorem Holds.elementsAt (hholds : Holds h D contents objects) : elementsAt objects s = contents.getD s [] := by
  rw [← hholds.elements]
  unfold SetModule.elementsAt
  cases hs : objects[s]? with
  | none => simp [hs]
  | some set => simp [hs]

theorem Holds.length (hholds : Holds h D contents objects) : objects.length = contents.length := by
  rw [← hholds.elements, List.length_map]

theorem Holds.sound (hholds : Holds h D contents objects) : Sound h D (contents.getD s []) := by
  rw [← hholds.elementsAt]
  unfold SetModule.elementsAt
  cases hs : objects[s]? with
  | none => exact ⟨fun v hv => absurd hv List.not_mem_nil, List.Pairwise.nil⟩
  | some set => exact (hholds.valid set (List.mem_of_getElem? hs)).sound

theorem ensureBuilt_outcome (hdeep : ∀ e, D → X e) {set : SetValue} (hset : Valid h D set) :
    Outcome (ensureBuilt h set) (· = set.elements) X := by
  unfold ensureBuilt
  cases hindex : set.hashIndex with
  | some keys => exact hset.index keys hindex
  | none =>
    have hnil : ∀ k ∈ ([] : List Value), Fine h D k := fun k hk => absurd hk List.not_mem_nil
    refine (buildIndex_outcome hdeep hnil hset.sound.fine).conseq ?_ fun _ he => he
    rintro keys rfl
    rw [List.nil_append, firsts_eq_self hset.sound.unequal]

theorem contains_of_none (hs : objects[s]? = none) : (contains h s v).runFrom objects = (.ok false, objects) := by
  simp only [contains, runFrom, ExceptT.run, ExceptT.mk, StateT.run, hs]

theorem contains_of_error {set : SetValue} {e : ErrorMessage} (hs : objects[s]? = some set)
    (hbuilt : ensureBuilt h set = .error e) : (contains h s v).runFrom objects = (.error e, objects) := by
  simp only [contains, runFrom, ExceptT.run, ExceptT.mk, StateT.run, hs, hbuilt]

theorem contains_of_built {set : SetValue} (hs : objects[s]? = some set) (hbuilt : ensureBuilt h set = .ok keys) :
    (contains h s v).runFrom objects =
      (indexContains h (equals h) keys v, objects.set s { set with hashIndex := some keys }) := by
  simp only [contains, runFrom, ExceptT.run, ExceptT.mk, StateT.run, hs, hbuilt]

/-- A lookup decides membership and leaves all elements as they are. -/
theorem contains_triple (hdeep : ∀ e, D → X e) (hv : Fine h D v) :
    Triple (Holds h D contents) (contains h s v)
      (fun r objects => (r = true ↔ v ∈ members h (contents.getD s [])) ∧ Holds h D contents objects)
      (fun e objects => X e ∧ Holds h D contents objects) := by
  intro objects hholds
  have helements : elementsAt objects s = contents.getD s [] := hholds.elementsAt
  unfold elementsAt at helements
  cases hs : objects[s]? with
  | none =>
    rw [hs] at helements
    rw [contains_of_none hs]
    refine ⟨?_, hholds⟩
    rw [← helements]
    simp
  | some set =>
    rw [hs] at helements
    have hset := hholds.valid set (List.mem_of_getElem? hs)
    have hbuilt := ensureBuilt_outcome hdeep hset
    cases hrun : ensureBuilt h set with
    | error e =>
      rw [hrun] at hbuilt
      rw [contains_of_error hs hrun]
      exact ⟨hbuilt, hholds⟩
    | ok keys =>
      rw [hrun] at hbuilt
      cases hbuilt
      have hholds' : Holds h D contents (objects.set s { set with hashIndex := some set.elements }) := by
        refine ⟨?_, fun other hother => ?_⟩
        · rw [← hholds.elements, List.map_set]
          have hmapped : (objects.map (·.elements))[s]? = some set.elements := by simp [hs]
          obtain ⟨hlt, hget⟩ := List.getElem?_eq_some_iff.mp hmapped
          exact (congrArg _ hget).symm.trans (List.set_getElem_self hlt)
        · rcases List.mem_or_eq_of_mem_set hother with hmem | rfl
          · exact hholds.valid other hmem
          · exact ⟨hset.sound, fun keys hkeys => (Option.some.inj hkeys).symm⟩
      have hlookup := indexContains_outcome hdeep hset.sound.fine hv
      rw [contains_of_built hs hrun, ← helements]
      cases hfind : indexContains h (equals h) set.elements v with
      | error e =>
        rw [hfind] at hlookup
        exact ⟨hlookup, hholds'⟩
      | ok r =>
        rw [hfind] at hlookup
        exact ⟨hlookup, hholds'⟩

theorem elementsOf_triple : Triple (Holds h D contents) (elementsOf s)
    (fun xs objects => xs = contents.getD s [] ∧ Holds h D contents objects)
    (fun e objects => X e ∧ Holds h D contents objects) :=
  fun _ hholds => ⟨hholds.elementsAt, hholds⟩

/-- A new object comes last. -/
theorem makeSet_triple {E : ErrorMessage → Objects → Prop} (hsound : Sound h D xs) :
    Triple (Holds h D contents) (makeSet xs)
      (fun s objects => s = contents.length ∧ Holds h D (contents ++ [xs]) objects) E := by
  intro objects hholds
  refine ⟨hholds.length, ⟨?_, fun set hset => ?_⟩⟩
  · rw [List.map_append, hholds.elements]
    rfl
  · rcases List.mem_append.mp hset with hmem | hmem
    · exact hholds.valid set hmem
    · rw [List.mem_singleton.mp hmem]
      exact ⟨hsound, fun keys hkeys => nomatch hkeys⟩

theorem allMembersIn_triple (hdeep : ∀ e, D → X e) (hxs : ∀ x ∈ xs, Fine h D x) :
    Triple (Holds h D contents) (allMembersIn h s xs)
      (fun r objects => (r = true ↔ ∀ x ∈ xs, x ∈ members h (contents.getD s [])) ∧ Holds h D contents objects)
      (fun e objects => X e ∧ Holds h D contents objects) := by
  induction xs with
  | nil => exact fun objects hholds => ⟨by simp, hholds⟩
  | cons x xs ih =>
    have hrest := ih fun y hy => hxs y (List.mem_cons_of_mem x hy)
    unfold allMembersIn
    refine (contains_triple hdeep (hxs x List.mem_cons_self)).bind fun r => .assume fun hr => ?_
    refine .ite (fun htrue => ?_) fun hfalse objects hholds => ?_
    · refine hrest.conseq (fun _ hholds => hholds) (fun r' _ hpost => ⟨?_, hpost.2⟩) fun _ _ he => he
      rw [hpost.1, List.forall_mem_cons, and_iff_right (hr.mp htrue)]
    · refine ⟨?_, hholds⟩
      rw [List.forall_mem_cons]
      exact iff_of_false Bool.false_ne_true fun hall => hfalse (hr.mpr hall.1)

theorem anyMemberIn_triple (hdeep : ∀ e, D → X e) (hxs : ∀ x ∈ xs, Fine h D x) :
    Triple (Holds h D contents) (anyMemberIn h s xs)
      (fun r objects => (r = true ↔ ∃ x ∈ xs, x ∈ members h (contents.getD s [])) ∧ Holds h D contents objects)
      (fun e objects => X e ∧ Holds h D contents objects) := by
  induction xs with
  | nil => exact fun objects hholds => ⟨by simp, hholds⟩
  | cons x xs ih =>
    have hrest := ih fun y hy => hxs y (List.mem_cons_of_mem x hy)
    unfold anyMemberIn
    refine (contains_triple hdeep (hxs x List.mem_cons_self)).bind fun r => .assume fun hr => ?_
    refine .ite (fun htrue objects hholds => ?_) fun hfalse => ?_
    · exact ⟨iff_of_true rfl ⟨x, List.mem_cons_self, hr.mp htrue⟩, hholds⟩
    · refine hrest.conseq (fun _ hholds => hholds) (fun r' _ hpost => ⟨?_, hpost.2⟩) fun _ _ he => he
      have hmissing : x ∉ members h (contents.getD s []) := fun hmem => hfalse (hr.mpr hmem)
      rw [hpost.1, List.exists_mem_cons_iff]
      exact (or_iff_right hmissing).symm

open Classical in
/-- The elements that are in the set, or that are not, are appended in their order. -/
theorem appendMembers_triple {keepWhenPresent : Bool} {op : String} {out : List Value} (hdeep : ∀ e, D → X e)
    (hsize : ∀ e, TooLarge e → X e) (hxs : ∀ x ∈ xs, Fine h D x) :
    Triple (Holds h D contents) (appendMembers h maxSetSize s keepWhenPresent op out xs)
      (fun out' objects => out' = out ++ (xs.filter fun x =>
          decide (x ∈ members h (contents.getD s [])) == keepWhenPresent) ∧ Holds h D contents objects)
      (fun e objects => X e ∧ Holds h D contents objects) := by
  induction xs generalizing out with
  | nil => exact fun objects hholds => ⟨(List.append_nil out).symm, hholds⟩
  | cons x xs ih =>
    have hrest : ∀ y ∈ xs, Fine h D y := fun y hy => hxs y (List.mem_cons_of_mem x hy)
    unfold appendMembers
    refine (contains_triple hdeep (hxs x List.mem_cons_self)).bind fun r => .assume fun hr => ?_
    have hdecide : decide (x ∈ members h (contents.getD s [])) = r := by
      rw [Bool.eq_iff_iff, decide_eq_true_iff, hr]
    rw [List.filter_cons, hdecide]
    refine .ite (fun hkept => ?_) fun hdropped => ?_
    · refine (validateContainerSize_outcome hsize).lift.bind fun _ => .assume fun _ => ?_
      rw [if_pos (beq_iff_eq.mpr hkept)]
      refine (ih hrest).conseq (fun _ hholds => hholds) (fun out' _ hpost => ⟨?_, hpost.2⟩) fun _ _ he => he
      rw [hpost.1, List.append_assoc, List.singleton_append]
    · rw [if_neg (by simpa using hdropped)]
      exact ih hrest

end Calls

/-! ## Soundness of new elements -/

theorem Sound.nil : Sound h D [] := ⟨fun _ hv => absurd hv List.not_mem_nil, List.Pairwise.nil⟩

theorem Sound.filter {p : Value → Bool} (hsound : Sound h D xs) : Sound h D (xs.filter p) :=
  ⟨fun v hv => hsound.fine v (List.mem_of_mem_filter hv), unequal_filter hsound.unequal⟩

theorem Sound.sublist (hsound : Sound h D xs) (hsub : ys.Sublist xs) : Sound h D ys :=
  ⟨fun v hv => hsound.fine v (hsub.subset hv), hsound.unequal.sublist hsub⟩

theorem Sound.firsts (hxs : ∀ x ∈ xs, Fine h D x) : Sound h D (firsts (Same h) [] xs) := by
  refine ⟨fun v hv => hxs v (firsts_sublist.subset hv), ?_⟩
  have hunequal : Unequal (Same h) ([] ++ Representatives.firsts (Same h) [] xs) := unequal_firsts List.Pairwise.nil
  exact hunequal

theorem members_firsts (hxs : ∀ x ∈ xs, Fine h D x) : members h (firsts (Same h) [] xs) = members h xs := by
  have hnil : ∀ v ∈ ([] : List Value), Lawful h v := fun v hv => absurd hv List.not_mem_nil
  have hclasses := classes_firsts (same_equivalence h) hnil fun x hx => (hxs x hx).lawful
  exact hclasses

theorem map_fst_zip_of_answers {callable : Callable} {i : Nat} {results : List Value}
    (hanswers : Answers callable i xs results) : (xs.zip results).map Prod.fst = xs := by
  have hlength := hanswers.length_eq
  rw [List.length_zipIdx] at hlength
  exact List.map_fst_zip hlength.le

theorem members_append : members h (xs ++ ys) = members h xs ∪ members h ys := classes_append

theorem accepted_sublist {callable : Callable} {i : Nat} {results : List Value}
    (hanswers : Answers callable i xs results) : (accepted xs results).Sublist xs := by
  have hsub := (List.filter_sublist (l := xs.zip results) (p := fun pair => pair.2.isTruthy)).map Prod.fst
  rwa [map_fst_zip_of_answers hanswers] at hsub

theorem refused_sublist {callable : Callable} {i : Nat} {results : List Value}
    (hanswers : Answers callable i xs results) : (refused xs results).Sublist xs := by
  have hsub := (List.filter_sublist (l := xs.zip results) (p := fun pair => !pair.2.isTruthy)).map Prod.fst
  rwa [map_fst_zip_of_answers hanswers] at hsub

/-- Sound elements, and others that are sound and no member of them. -/
theorem Sound.append (hxs : Sound h D xs) (hys : Sound h D ys) (hapart : ∀ y ∈ ys, y ∉ members h xs) :
    Sound h D (xs ++ ys) := by
  refine ⟨fun v hv => (List.mem_append.mp hv).elim (hxs.fine v) (hys.fine v), ?_⟩
  refine List.pairwise_append.mpr ⟨hxs.unequal, hys.unequal, fun x hx y hy hsame => ?_⟩
  exact hapart y hy ⟨(hys.fine y hy).lawful, x, hx, hsame⟩

/-! ## Calls -/

section Exact

variable {contents contents' : List (List Value)} {reply : Reply}

/-- The call made a set with these elements. -/
def Creates (contents contents' : List (List Value)) (reply : Reply) (out : List Value) : Prop :=
  reply = .set contents.length ∧ contents' = contents ++ [out]

/-- The call answered a question. -/
def Decides (contents contents' : List (List Value)) (reply : Reply) (question : Prop) : Prop :=
  contents' = contents ∧ ∃ r, reply = .bool r ∧ (r = true ↔ question)

open Classical in
/-- What a call on sets with these contents says or makes: the elements in their order, and
    what they stand for. -/
def Call.Exact (h : StdHash) (contents : List (List Value)) (reply : Reply) (contents' : List (List Value)) : Call → Prop
  | .new => Creates contents contents' reply []
  | .fromArray elements => Creates contents contents' reply (firsts (Same h) [] elements) ∧
      members h (firsts (Same h) [] elements) = members h elements
  | .contains s value => Decides contents contents' reply (value ∈ members h (contents.getD s []))
  | .union a b | .concat a b => ∃ out, Creates contents contents' reply out ∧
      out = firsts (Same h) [] (contents.getD a [] ++ contents.getD b []) ∧
      members h out = members h (contents.getD a []) ∪ members h (contents.getD b [])
  | .intersection a b => ∃ out, Creates contents contents' reply out ∧
      out = (contents.getD a []).filter (fun x => decide (x ∈ members h (contents.getD b []))) ∧
      members h out = members h (contents.getD a []) ∩ members h (contents.getD b [])
  | .difference a b => ∃ out, Creates contents contents' reply out ∧
      out = (contents.getD a []).filter (fun x => decide (x ∉ members h (contents.getD b []))) ∧
      members h out = members h (contents.getD a []) \ members h (contents.getD b [])
  | .symmetricDifference a b => ∃ out, Creates contents contents' reply out ∧
      out = (contents.getD a []).filter (fun x => decide (x ∉ members h (contents.getD b []))) ++
        (contents.getD b []).filter (fun x => decide (x ∉ members h (contents.getD a []))) ∧
      members h out = symmDiff (members h (contents.getD a [])) (members h (contents.getD b []))
  | .isSubset a b =>
      Decides contents contents' reply (members h (contents.getD a []) ⊆ members h (contents.getD b []))
  | .isSuperset a b =>
      Decides contents contents' reply (members h (contents.getD b []) ⊆ members h (contents.getD a []))
  | .isDisjoint a b =>
      Decides contents contents' reply (Disjoint (members h (contents.getD a [])) (members h (contents.getD b [])))
  | .equals a b =>
      Decides contents contents' reply (members h (contents.getD a []) = members h (contents.getD b []))
  | .add s value => ∃ out, Creates contents contents' reply out ∧
      out = firsts (Same h) [] (contents.getD s [] ++ [value]) ∧
      members h out = members h (contents.getD s []) ∪ members h [value]
  | .remove s value => ∃ out, Creates contents contents' reply out ∧
      out = (contents.getD s []).filter (fun x => decide (¬ Same h x value)) ∧
      members h out = members h (contents.getD s []) \ members h [value]
  | .map s callable => ∃ results, Answers callable 0 (contents.getD s []) results ∧
      Creates contents contents' reply (firsts (Same h) [] results) ∧
      members h (firsts (Same h) [] results) = members h results
  | .filter s callable => ∃ results, Answers callable 0 (contents.getD s []) results ∧
      Creates contents contents' reply (accepted (contents.getD s []) results)
  | .partition s callable => ∃ results, Answers callable 0 (contents.getD s []) results ∧
      reply = .pair contents.length (contents.length + 1) ∧
      contents' = contents ++ [accepted (contents.getD s []) results] ++ [refused (contents.getD s []) results]

/-- The values that a call brings in. -/
def Call.Fine (h : StdHash) (D : Prop) (contents : List (List Value)) : Call → Prop
  | .fromArray elements => ∀ v ∈ elements, SetModule.Fine h D v
  | .contains _ value | .add _ value | .remove _ value => SetModule.Fine h D value
  | .map s callable =>
      ∀ i, ∀ x ∈ contents.getD s [], ∀ result, callable i x = .ok result → SetModule.Fine h D result
  | _ => True

/-- The errors a call may end with; `D` is that a value is nested too deep. -/
def Call.Excused (D : Prop) (e : ErrorMessage) : Call → Prop
  | .new => False
  | .contains .. | .isSubset .. | .isSuperset .. | .isDisjoint .. | .equals .. | .remove .. => D
  | .fromArray _ | .union .. | .intersection .. | .difference .. | .symmetricDifference .. | .add .. | .concat .. =>
      D ∨ TooLarge e
  | .map _ callable => D ∨ ∃ i x, callable i x = .error e
  | .filter _ callable | .partition _ callable => ∃ i x, callable i x = .error e

/-- A call ends exact, or with an error that it may end with. -/
def Call.Meets (h : StdHash) (maxSetSize : Nat) (D : Prop) (contents : List (List Value)) (call : Call) : Prop :=
  Triple (Holds h D contents) (call.perform h maxSetSize)
    (fun reply objects => ∃ contents', call.Exact h contents reply contents' ∧ Holds h D contents' objects)
    (fun e objects => call.Excused D e ∧ Holds h D contents objects)

/-- Elements that were computed become a new set. -/
theorem made {m : Native (List Value)} {Q : List Value → Prop} {E : ErrorMessage → Objects → Prop}
    {R : Reply → List (List Value) → Prop}
    (hm : Triple (Holds h D contents) m (fun out objects => Q out ∧ Holds h D contents objects) E)
    (hsound : ∀ out, Q out → Sound h D out)
    (hexact : ∀ out, Q out → R (.set contents.length) (contents ++ [out])) :
    Triple (Holds h D contents) (do return .set (← makeSet (← m)))
      (fun reply objects => ∃ contents', R reply contents' ∧ Holds h D contents' objects) E := by
  refine hm.bind fun out => .assume fun hQ => ?_
  intro objects hholds
  have hmade := makeSet_triple (E := fun _ _ => True) (hsound out hQ) objects hholds
  rw [runFrom_bind]
  exact ⟨contents ++ [out], hmade.1 ▸ hexact out hQ, hmade.2⟩

/-- A question that was answered. -/
theorem decided {m : Native Bool} {question : Prop} {E : ErrorMessage → Objects → Prop}
    {R : Reply → List (List Value) → Prop}
    (hm : Triple (Holds h D contents) m (fun r objects => (r = true ↔ question) ∧ Holds h D contents objects) E)
    (hexact : ∀ r : Bool, (r = true ↔ question) → R (.bool r) contents) :
    Triple (Holds h D contents) (do return .bool (← m))
      (fun reply objects => ∃ contents', R reply contents' ∧ Holds h D contents' objects) E := by
  refine hm.bind fun r => .assume fun hr => ?_
  exact fun objects hholds => ⟨contents, hexact r hr, hholds⟩

theorem decides {r : Bool} {question : Prop} (hr : r = true ↔ question) :
    Decides contents contents (.bool r) question := ⟨rfl, r, rfl, hr⟩

/-- The elements of all sets are sound. -/
theorem with_sound {α : Type} {m : Native α} {Q : α → Objects → Prop} {E : ErrorMessage → Objects → Prop}
    (hm : (∀ s, Sound h D (contents.getD s [])) → Triple (Holds h D contents) m Q E) :
    Triple (Holds h D contents) m Q E :=
  fun objects hholds => hm (fun _ => hholds.sound) objects hholds

variable {a b s : Nat} {callable : Callable}

theorem meets_new : (Call.new).Meets h maxSetSize D contents := by
  intro objects hholds
  have hmade := makeSet_triple (E := fun _ _ => True) Sound.nil objects hholds
  exact ⟨contents ++ [[]], ⟨congrArg Reply.set hmade.1, rfl⟩, hmade.2⟩

theorem meets_fromArray (hxs : ∀ x ∈ xs, Fine h D x) : (Call.fromArray xs).Meets h maxSetSize D contents := by
  have hnil : ∀ k ∈ ([] : List Value), Fine h D k := fun k hk => absurd hk List.not_mem_nil
  have hdedup : Outcome (dedupInOrder h maxSetSize [] xs) (· = [] ++ firsts (Same h) [] xs)
      ((Call.fromArray xs).Excused D ·) := dedupInOrder_outcome (fun _ => Or.inl) (fun _ => Or.inr) hnil hxs
  refine made hdedup.lift ?_ ?_
  · rintro out rfl
    exact Sound.firsts hxs
  · rintro out rfl
    exact ⟨⟨rfl, rfl⟩, members_firsts hxs⟩

theorem meets_contains (hv : Fine h D v) : (Call.contains s v).Meets h maxSetSize D contents :=
  decided (contains_triple (fun _ hD => hD) hv) fun _ hr => decides hr

section Algebra

variable (hxs : Sound h D xs) (hys : Sound h D ys)

open Classical in
theorem filter_present {S : Set Value} : (xs.filter fun x => decide (x ∈ S) == true) = xs.filter fun x => decide (x ∈ S) := by
  simp

open Classical in
theorem filter_missing {S : Set Value} :
    (xs.filter fun x => decide (x ∈ S) == false) = xs.filter fun x => decide (x ∉ S) := by
  refine List.filter_congr fun x _ => ?_
  by_cases hx : x ∈ S <;> simp [hx]

include hxs hys

open Classical in
/-- First all of one set, then what the other adds. -/
theorem firsts_of_sound : firsts (Same h) [] (xs ++ ys) = xs ++ ys.filter fun y => decide (y ∉ members h xs) := by
  rw [firsts_append, firsts_eq_self hxs.unequal, List.nil_append, firsts_eq_filter hys.lawful hys.unequal]

theorem fine_append : ∀ v ∈ xs ++ ys, Fine h D v := by
  intro v hv
  exact (List.mem_append.mp hv).elim (hxs.fine v) (hys.fine v)

open Classical in
theorem members_intersection :
    members h (xs.filter fun x => decide (x ∈ members h ys)) = members h xs ∩ members h ys :=
  classes_filter_mem (same_equivalence h) hxs.lawful hys.lawful fun _ _ => decide_eq_true_iff

open Classical in
theorem members_difference :
    members h (xs.filter fun x => decide (x ∉ members h ys)) = members h xs \ members h ys :=
  classes_filter_not_mem (same_equivalence h) hxs.lawful hys.lawful fun _ _ => decide_eq_true_iff

open Classical in
/-- What is only in one set and what is only in the other are apart. -/
theorem sound_symmetricDifference : Sound h D ((xs.filter fun x => decide (x ∉ members h ys)) ++
    ys.filter fun y => decide (y ∉ members h xs)) := by
  refine hxs.filter.append hys.filter fun y hy hmem => ?_
  rw [members_difference hxs hys] at hmem
  exact hmem.2 (mem_classes_of_mem (same_equivalence h) (hys.lawful y (List.mem_of_mem_filter hy))
    (List.mem_of_mem_filter hy))

end Algebra

theorem meets_union : (Call.union a b).Meets h maxSetSize D contents := by
  refine with_sound fun hsound => elementsOf_triple.bind fun as => .assume ?_
  rintro rfl
  refine elementsOf_triple.bind fun bs => .assume ?_
  rintro rfl
  refine made (appendMembers_triple (fun _ => Or.inl) (fun _ => Or.inr) (hsound b).fine) ?_ ?_
  · rintro out rfl
    rw [filter_missing, ← firsts_of_sound (hsound a) (hsound b)]
    exact Sound.firsts (fine_append (hsound a) (hsound b))
  · rintro out rfl
    rw [filter_missing, ← firsts_of_sound (hsound a) (hsound b)]
    refine ⟨_, ⟨rfl, rfl⟩, rfl, ?_⟩
    rw [members_firsts (fine_append (hsound a) (hsound b)), members_append]

theorem meets_intersection : (Call.intersection a b).Meets h maxSetSize D contents := by
  refine with_sound fun hsound => elementsOf_triple.bind fun as => .assume ?_
  rintro rfl
  refine made (appendMembers_triple (fun _ => Or.inl) (fun _ => Or.inr) (hsound a).fine) ?_ ?_
  · rintro out rfl
    exact (hsound a).filter
  · rintro out rfl
    rw [filter_present, List.nil_append]
    exact ⟨_, ⟨rfl, rfl⟩, rfl, members_intersection (hsound a) (hsound b)⟩

theorem meets_difference : (Call.difference a b).Meets h maxSetSize D contents := by
  refine with_sound fun hsound => elementsOf_triple.bind fun as => .assume ?_
  rintro rfl
  refine made (appendMembers_triple (fun _ => Or.inl) (fun _ => Or.inr) (hsound a).fine) ?_ ?_
  · rintro out rfl
    exact (hsound a).filter
  · rintro out rfl
    rw [filter_missing, List.nil_append]
    exact ⟨_, ⟨rfl, rfl⟩, rfl, members_difference (hsound a) (hsound b)⟩

theorem meets_symmetricDifference : (Call.symmetricDifference a b).Meets h maxSetSize D contents := by
  refine with_sound fun hsound => elementsOf_triple.bind fun as => .assume ?_
  rintro rfl
  refine (appendMembers_triple (fun _ => Or.inl) (fun _ => Or.inr) (hsound a).fine).bind fun out => .assume ?_
  rintro rfl
  refine elementsOf_triple.bind fun bs => .assume ?_
  rintro rfl
  refine made (appendMembers_triple (fun _ => Or.inl) (fun _ => Or.inr) (hsound b).fine) ?_ ?_
  · rintro out rfl
    rw [filter_missing, filter_missing, List.nil_append]
    exact sound_symmetricDifference (hsound a) (hsound b)
  · rintro out rfl
    rw [filter_missing, filter_missing, List.nil_append]
    refine ⟨_, ⟨rfl, rfl⟩, rfl, ?_⟩
    rw [members_append, members_difference (hsound a) (hsound b), members_difference (hsound b) (hsound a)]
    rfl

theorem meets_concat : (Call.concat a b).Meets h maxSetSize D contents := by
  refine with_sound fun hsound => elementsOf_triple.bind fun as => .assume ?_
  rintro rfl
  refine elementsOf_triple.bind fun bs => .assume ?_
  rintro rfl
  have hfine := fine_append (hsound a) (hsound b)
  refine (validateContainerSize_outcome fun _ => Or.inr).lift.bind fun _ => .assume fun _ => ?_
  refine made (containerConcatUnique_outcome (fun _ => Or.inl) (hsound a).fine (hsound b).fine).lift ?_ ?_
  · rintro out rfl
    exact Sound.firsts hfine
  · rintro out rfl
    refine ⟨_, ⟨rfl, rfl⟩, rfl, ?_⟩
    rw [members_firsts hfine, members_append]

theorem meets_isSubset : (Call.isSubset a b).Meets h maxSetSize D contents := by
  refine with_sound fun hsound => elementsOf_triple.bind fun as => .assume ?_
  rintro rfl
  refine decided (allMembersIn_triple (fun _ hD => hD) (hsound a).fine) fun r hr => decides ?_
  rw [hr, classes_subset_iff (same_equivalence h) (hsound a).lawful (hsound b).lawful]

theorem meets_isSuperset : (Call.isSuperset a b).Meets h maxSetSize D contents := by
  refine with_sound fun hsound => elementsOf_triple.bind fun as => .assume ?_
  rintro rfl
  refine decided (allMembersIn_triple (fun _ hD => hD) (hsound b).fine) fun r hr => decides ?_
  rw [hr, classes_subset_iff (same_equivalence h) (hsound b).lawful (hsound a).lawful]

theorem meets_isDisjoint : (Call.isDisjoint a b).Meets h maxSetSize D contents := by
  refine with_sound fun hsound => elementsOf_triple.bind fun as => .assume ?_
  rintro rfl
  refine (anyMemberIn_triple (fun _ hD => hD) (hsound a).fine).bind fun r => .assume fun hr objects hholds => ?_
  refine ⟨contents, decides ?_, hholds⟩
  rw [disjoint_classes_iff (same_equivalence h) (hsound a).lawful (hsound b).lawful, Bool.not_eq_true',
    ← Bool.not_eq_true, hr]
  simp

theorem meets_equals : (Call.equals a b).Meets h maxSetSize D contents := by
  refine with_sound fun hsound => elementsOf_triple.bind fun as => .assume ?_
  rintro rfl
  refine elementsOf_triple.bind fun bs => .assume ?_
  rintro rfl
  have hiff := classes_eq_iff (same_equivalence h) (hsound a).lawful (hsound b).lawful (hsound a).unequal (hsound b).unequal
  refine .ite (fun hlength objects hholds => ?_) fun hlength => ?_
  · refine ⟨contents, decides (iff_of_false Bool.false_ne_true fun heq => hlength (hiff.mp heq).1), hholds⟩
  · refine elementsOf_triple.bind fun as => .assume ?_
    rintro rfl
    refine decided (allMembersIn_triple (fun _ hD => hD) (hsound a).fine) fun r hr => decides ?_
    rw [hr, hiff, and_iff_right (not_not.mp hlength)]

theorem meets_add (hv : Fine h D v) : (Call.add s v).Meets h maxSetSize D contents := by
  refine with_sound fun hsound => elementsOf_triple.bind fun elements => .assume ?_
  rintro rfl
  have hfine := forall_append_singleton (hsound s).fine hv
  have hfirsts : contents.getD s [] ++ firsts (Same h) (contents.getD s []) [v] =
      firsts (Same h) [] (contents.getD s [] ++ [v]) := by
    rw [firsts_append, firsts_eq_self (hsound s).unequal, List.nil_append]
  refine made (pushUnique_outcome (fun _ => Or.inl) (fun _ => Or.inr) (hsound s).fine hv).lift ?_ ?_
  · rintro out rfl
    rw [hfirsts]
    exact Sound.firsts hfine
  · rintro out rfl
    rw [hfirsts]
    refine ⟨_, ⟨rfl, rfl⟩, rfl, ?_⟩
    rw [members_firsts hfine, members_append]

open Classical in
theorem meets_remove (hv : Fine h D v) : (Call.remove s v).Meets h maxSetSize D contents := by
  refine with_sound fun hsound => elementsOf_triple.bind fun elements => .assume ?_
  rintro rfl
  refine made (copyUnequal_outcome (fun _ hD => hD) (hsound s).fine hv).lift ?_ ?_
  · rintro out rfl
    exact (hsound s).filter
  · rintro out rfl
    refine ⟨_, ⟨rfl, rfl⟩, rfl, ?_⟩
    refine classes_filter_not_mem (same_equivalence h) (hsound s).lawful ?_ fun x hx => ?_
    · intro w hw
      rw [List.mem_singleton.mp hw]
      exact hv.lawful
    · rw [decide_eq_true_iff, not_iff_not, mem_members_iff ((hsound s).lawful x hx)]
      have hsymm : Same h x v ↔ Same h v x :=
        ⟨same_symm ((hsound s).lawful x hx) hv.lawful, same_symm hv.lawful ((hsound s).lawful x hx)⟩
      simpa using hsymm

theorem meets_map (hresults : (Call.map s callable).Fine h D contents) :
    (Call.map s callable).Meets h maxSetSize D contents := by
  have hnil : ∀ k ∈ ([] : List Value), Fine h D k := fun k hk => absurd hk List.not_mem_nil
  refine with_sound fun hsound => elementsOf_triple.bind fun elements => .assume ?_
  rintro rfl
  have hmap := containerMapUnique_outcome (i := 0) (X := fun e => (Call.map s callable).Excused D e)
    (fun _ => Or.inl) (fun i x e he => Or.inr ⟨i, x, he⟩) hnil hresults
  have hfine : ∀ results, Answers callable 0 (contents.getD s []) results → ∀ v ∈ results, Fine h D v := by
    intro results hanswers v hv
    obtain ⟨call, hcall, hresult⟩ := Matching.covered_of_perm_forall₂ (List.Perm.refl _) hanswers v hv
    exact hresults call.2 call.1 (List.fst_mem_of_mem_zipIdx hcall) v hresult
  refine made hmap.lift ?_ ?_
  · rintro out ⟨results, hanswers, rfl⟩
    exact Sound.firsts (hfine results hanswers)
  · rintro out ⟨results, hanswers, rfl⟩
    exact ⟨results, hanswers, ⟨rfl, rfl⟩, members_firsts (hfine results hanswers)⟩

theorem meets_filter : (Call.filter s callable).Meets h maxSetSize D contents := by
  refine with_sound fun hsound => elementsOf_triple.bind fun elements => .assume ?_
  rintro rfl
  refine made (containerFilter_outcome fun i x e he => ⟨i, x, he⟩).lift ?_ ?_
  · rintro out ⟨results, hanswers, rfl⟩
    exact (hsound s).sublist (accepted_sublist hanswers)
  · rintro out ⟨results, hanswers, rfl⟩
    exact ⟨results, hanswers, rfl, rfl⟩

theorem meets_partition : (Call.partition s callable).Meets h maxSetSize D contents := by
  refine with_sound fun hsound => elementsOf_triple.bind fun elements => .assume ?_
  rintro rfl
  refine (containerPartition_outcome fun i x e he => ⟨i, x, he⟩).lift.bind fun out => .assume ?_
  rintro ⟨results, hanswers, rfl⟩
  refine (makeSet_triple ((hsound s).sublist (accepted_sublist hanswers))).bind fun matching => .assume ?_
  rintro rfl
  refine (makeSet_triple ((hsound s).sublist (refused_sublist hanswers))).bind fun rest => .assume ?_
  rintro rfl objects hholds
  refine ⟨_, ⟨results, hanswers, ?_, rfl⟩, hholds⟩
  rw [List.length_append]
  rfl

/-- Every call is exact or has an excuse, and keeps all sets sound and their indexes true. -/
theorem Call.meets {call : Call} (hfine : call.Fine h D contents) : call.Meets h maxSetSize D contents := by
  cases call with
  | new => exact meets_new
  | fromArray elements => exact meets_fromArray hfine
  | contains s value => exact meets_contains hfine
  | union a b => exact meets_union
  | intersection a b => exact meets_intersection
  | difference a b => exact meets_difference
  | symmetricDifference a b => exact meets_symmetricDifference
  | isSubset a b => exact meets_isSubset
  | isSuperset a b => exact meets_isSuperset
  | isDisjoint a b => exact meets_isDisjoint
  | equals a b => exact meets_equals
  | add s value => exact meets_add hfine
  | remove s value => exact meets_remove hfine
  | map s callable => exact meets_map hfine
  | filter s callable => exact meets_filter
  | partition s callable => exact meets_partition
  | concat a b => exact meets_concat

end Exact

end Luma.SetModule
