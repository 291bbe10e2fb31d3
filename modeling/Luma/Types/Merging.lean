-- SUMMARY: Which values a numeric widening makes equal, and what keeps sets without repetition.
import Luma.Types.WideningLaws
import Luma.Value.Sameness

/-! # Merging

A conversion to `number` rounds, so that two unequal integers, or an integer and a number,
may become equal, and with them any values that differ in nothing else. A widening keeps
the elements of a set apart exactly if it merges no two of them. -/

namespace Luma.NumericWidener

open Codec Value

variable {h : StdHash} {levels n : Nat} {R S : Value → Value → Prop} {base first pattern : Bytes}
  {errors params : List Bytes} {v x y : Value}

/-! ## Parts -/

/-- The base name by which a pattern converts the parts of a value. -/
def partsName : Value → Option Bytes
  | .array _ => some (bytes "array")
  | .dictionary _ => some (bytes "dictionary")
  | .result .. => some (bytes "result")
  | .queue _ => some (bytes "queue")
  | .stack _ => some (bytes "stack")
  | .set _ => some (bytes "set")
  | _ => none

/-- The pattern of the parts: that of the error for a failure, else the first one. -/
def partsPattern (first : Bytes) (errors : List Bytes) : Value → Bytes
  | .result false .. => errors.headD (bytes "_")
  | _ => first

/-- Convert the parts. -/
def mapParts (f : Value → Value) : Value → Value
  | .array elements => .array (elements.map f)
  | .dictionary entries => .dictionary (entries.map fun entry => (entry.1, f entry.2))
  | .result isSuccess inner code origin => .result isSuccess (f inner) code origin
  | .queue elements => .queue (elements.map f)
  | .stack elements => .stack (elements.map f)
  | .set elements => .set (elements.map f)
  | v => v

/-- A value after its widening by a pattern. -/
def widened (levels : Nat) (pattern : Bytes) (v : Value) : Value := (widenImpl levels v pattern).getD v

/-! ## Merging -/

/-- Values that are the same once the integers are rounded that a pattern converts. -/
def Merged (h : StdHash) : (levels : Nat) → Bytes → Value → Value → Prop
  | 0, _, x, y => Same h x y
  | levels + 1, pattern, x, y =>
    if pattern = bytes "number" then Same h (intToNumber x) (intToNumber y)
    else
      match TypePattern.parse pattern with
      | some ⟨.tuple, _, params⟩ =>
        match x, y with
        | .tuple xs, .tuple ys =>
          if xs.length = params.length then
            List.Forall₂ (fun p q => Merged h levels p.2 p.1 q) (xs.zip params) ys
          else Same h x y
        | _, _ => Same h x y
      | some ⟨.parameterized, base, first :: errors⟩ =>
        if base = bytes "optional" then Merged h levels first x y
        else if partsName x = some base then SameBy (Merged h levels (partsPattern first errors x)) x y
        else Same h x y
      | _ => Same h x y

/-- The widening merges no two elements of a set that it converts. -/
def KeepsApart (h : StdHash) : (levels : Nat) → Bytes → Value → Prop
  | 0, _, _ => True
  | levels + 1, pattern, v =>
    if pattern = bytes "number" then True
    else
      match TypePattern.parse pattern with
      | some ⟨.tuple, _, params⟩ =>
        match v with
        | .tuple elements =>
          elements.length = params.length → ∀ p ∈ elements.zip params, KeepsApart h levels p.2 p.1
        | _ => True
      | some ⟨.parameterized, base, first :: errors⟩ =>
        if base = bytes "optional" then KeepsApart h levels first v
        else partsName v = some base →
          (∀ c ∈ v.children, KeepsApart h levels (partsPattern first errors v) c) ∧
            v.Distinct (Merged h levels (partsPattern first errors v))
      | _ => True

/-! ## One level of a widening -/

theorem widened_number : widened (levels + 1) (bytes "number") v = intToNumber v := widenImpl_number

theorem widened_null : widened levels pattern .null = .null := by
  have hnone : widenImpl levels .null pattern = none := by
    unfold widenImpl
    split
    · rfl
    split
    · rfl
    split
    · rfl
    · rfl
    · rfl
    next params _ => cases params <;> rfl
  rw [widened, hnone]
  rfl

/-- A pattern that is neither of tuples nor of parts converts nothing. -/
theorem widened_keep (hnumber : pattern ≠ bytes "number")
    (htuple : ∀ b ps, TypePattern.parse pattern ≠ some ⟨.tuple, b, ps⟩)
    (hparts : ∀ b p ps, TypePattern.parse pattern ≠ some ⟨.parameterized, b, p :: ps⟩) :
    widened (levels + 1) pattern v = v := by
  unfold widened
  rw [widenImpl, if_neg hnumber]
  cases hparse : TypePattern.parse pattern with
  | none => rfl
  | some parsed =>
    obtain ⟨kind, base, params⟩ := parsed
    cases kind with
    | simple => rfl
    | tuple => exact (htuple base params hparse).elim
    | parameterized =>
      cases params with
      | nil => rfl
      | cons first errors => exact (hparts base first errors hparse).elim

theorem widened_tuple (hnumber : pattern ≠ bytes "number") {b : Bytes}
    (hparse : TypePattern.parse pattern = some ⟨.tuple, b, params⟩) {elements : List Value}
    (hlength : elements.length = params.length) :
    widened (levels + 1) pattern (.tuple elements) = .tuple ((elements.zip params).map fun p => widened levels p.2 p.1) := by
  unfold widened
  rw [widenImpl, if_neg hnumber, hparse]
  exact widenTuple_getD hlength

theorem widened_tuple_other (hnumber : pattern ≠ bytes "number") {b : Bytes}
    (hparse : TypePattern.parse pattern = some ⟨.tuple, b, params⟩)
    (hv : ∀ elements, v = .tuple elements → elements.length ≠ params.length) : widened (levels + 1) pattern v = v := by
  unfold widened
  rw [widenImpl, if_neg hnumber, hparse]
  cases v with
  | tuple elements =>
    dsimp only
    rw [widenTuple, if_pos (hv elements rfl)]
    rfl
  | _ => rfl

theorem widened_optional (hnumber : pattern ≠ bytes "number")
    (hparse : TypePattern.parse pattern = some ⟨.parameterized, bytes "optional", first :: errors⟩) :
    widened (levels + 1) pattern v = widened levels first v := by
  cases v with
  | null => rw [widened_null, widened_null]
  | _ =>
    unfold widened
    rw [widenImpl, if_neg hnumber, hparse]
    simp only [widenParameterized, if_true]

/-- A container is converted part by part if its name is that of the pattern. -/
theorem widened_parts (hnumber : pattern ≠ bytes "number")
    (hparse : TypePattern.parse pattern = some ⟨.parameterized, base, first :: errors⟩)
    (hbase : base ≠ bytes "optional") (hname : partsName v = some base) :
    widened (levels + 1) pattern v = mapParts (widened levels (partsPattern first errors v)) v := by
  unfold widened
  rw [widenImpl, if_neg hnumber, hparse]
  cases v with
  | dictionary entries =>
    cases hname
    simp only [widenParameterized, if_neg hbase, if_true]
    rw [widenElements_getD]
    refine congrArg Value.dictionary (List.map_congr_left fun entry _ => ?_)
    cases hentry : widenImpl levels entry.2 first <;> simp [hentry, partsPattern]
  | result isSuccess inner code origin =>
    cases hname
    simp only [widenParameterized, if_neg hbase, if_true]
    cases isSuccess with
    | false => cases hinner : widenImpl levels inner (errors.headD (bytes "_")) <;> simp [partsPattern, mapParts]
    | true => cases hinner : widenImpl levels inner first <;> simp [hinner, partsPattern, mapParts]
  | array elements | queue elements | stack elements | set elements =>
    cases hname
    simp only [widenParameterized, if_neg hbase, if_true]
    exact widenElements_getD
  | _ => cases hname

/-- Other values are left alone. -/
theorem widened_other (hnumber : pattern ≠ bytes "number")
    (hparse : TypePattern.parse pattern = some ⟨.parameterized, base, first :: errors⟩)
    (hbase : base ≠ bytes "optional") (hname : partsName v ≠ some base) : widened (levels + 1) pattern v = v := by
  unfold widened
  rw [widenImpl, if_neg hnumber, hparse]
  cases v with
  | array elements | queue elements | stack elements | set elements | dictionary entries | result _ _ _ _ =>
    have hother : ¬ base = _ := fun heq => hname (congrArg some heq.symm)
    simp only [widenParameterized, if_neg hbase, if_neg hother, Option.getD_none]
  | null => rfl
  | _ => simp only [widenParameterized, if_neg hbase, Option.getD_none]

/-! ## Merged values are those that a widening makes equal -/

theorem partsName_of_sameBy (hsame : SameBy R x y) : partsName x = partsName y := by
  cases hsame <;> rfl

theorem partsPattern_of_sameBy (hsame : SameBy R x y) : partsPattern first errors x = partsPattern first errors y := by
  cases hsame with
  | result s _ => cases s <;> rfl
  | _ => rfl

theorem partsName_mapParts {f : Value → Value} : partsName (mapParts f x) = partsName x := by
  cases x <;> rfl

theorem partsPattern_mapParts {f : Value → Value} :
    partsPattern first errors (mapParts f x) = partsPattern first errors x := by
  cases x with
  | result s _ _ _ => cases s <;> rfl
  | _ => rfl

theorem findEntry_map {f : Value → Value} {entries : List (Bytes × Value)} {key : Bytes} :
    findEntry (entries.map fun entry => (entry.1, f entry.2)) key = (findEntry entries key).map f := by
  unfold findEntry
  induction entries with
  | nil => rfl
  | cons entry entries ih =>
    rw [List.map_cons, OrderedMap.lookup, OrderedMap.lookup]
    split
    · rfl
    · exact ih

/-- Values whose converted parts are related have parts whose conversions are. -/
theorem sameBy_of_mapParts {f : Value → Value} (hx : partsName x = some base)
    (hsame : SameBy R (mapParts f x) (mapParts f y)) : SameBy (fun a b => R (f a) (f b)) x y := by
  have hforall : ∀ {xs ys : List Value}, List.Forall₂ R (xs.map f) (ys.map f) →
      List.Forall₂ (fun a b => R (f a) (f b)) xs ys :=
    fun hmatch => List.forall₂_map_left_iff.mp (List.forall₂_map_right_iff.mp hmatch)
  generalize hw : mapParts f y = w at hsame
  cases x with
  | array xs =>
    cases hsame with
    | array helem =>
      cases y <;> cases hw
      exact .array (hforall helem)
  | queue xs =>
    cases hsame with
    | queue helem =>
      cases y <;> cases hw
      exact .queue (hforall helem)
  | stack xs =>
    cases hsame with
    | stack helem =>
      cases y <;> cases hw
      exact .stack (hforall helem)
  | result s inner code origin =>
    cases hsame with
    | result _ hinner =>
      cases y <;> cases hw
      exact .result s hinner
  | dictionary entries =>
    cases hsame with
    | dictionary hlen hentry =>
      cases y <;> cases hw
      refine .dictionary (by simpa using hlen) fun e he => ?_
      obtain ⟨w, hfind, hr⟩ := hentry (e.1, f e.2) (List.mem_map_of_mem he)
      rw [findEntry_map] at hfind
      obtain ⟨w', hfind', rfl⟩ := Option.map_eq_some_iff.mp hfind
      exact ⟨w', hfind', hr⟩
  | set xs =>
    cases hsame with
    | set hlen helem =>
      cases y <;> cases hw
      refine .set (by simpa using hlen) fun e he => ?_
      obtain ⟨w, hw, hr⟩ := helem (f e) (List.mem_map_of_mem he)
      obtain ⟨w', hw', rfl⟩ := List.mem_map.mp hw
      exact ⟨w', hw', hr⟩
  | _ => cases hx

/-- The same values have the same parts. -/
theorem sameBy_of_same (hkeys : x.Distinct fun _ _ => False) (hsame : Same h x y) : SameBy (Same h) x y := by
  rcases hsame with rfl | heq
  · exact SameBy.refl (fun _ _ => .inl rfl) hkeys
  · exact (sameBy_of_eqAt heq).mono fun _ _ _ hxy => .inr (equalsAt_mono hxy)

theorem distinct_tuple {elements : List Value} : (Value.tuple elements).Distinct R := trivial

/-- What is zipped with the same list on both sides. -/
theorem forall₂_zip_right {α β γ : Type} {Q : α × β → γ × β → Prop} {xs : List α} {ys : List γ} {ps : List β}
    (hlength : ys.length = ps.length) (hmatch : List.Forall₂ Q (xs.zip ps) (ys.zip ps)) :
    List.Forall₂ (fun p y => Q p (y, p.2)) (xs.zip ps) ys := by
  induction ps generalizing xs ys with
  | nil =>
    rw [List.length_eq_zero_iff.mp hlength, List.zip_nil_right]
    exact .nil
  | cons p ps ih =>
    cases ys with
    | nil => cases hlength
    | cons y ys =>
      cases xs with
      | nil => cases hmatch
      | cons x xs =>
        obtain ⟨hhead, htail⟩ := List.forall₂_cons.mp hmatch
        exact .cons hhead (ih (Nat.succ.inj hlength) htail)

section Tuple

variable {b : Bytes} {xs ys : List Value}

theorem widened_tuple_kept (hnumber : pattern ≠ bytes "number")
    (hparse : TypePattern.parse pattern = some ⟨.tuple, b, params⟩) (hlength : xs.length ≠ params.length) :
    widened (levels + 1) pattern (.tuple xs) = .tuple xs := by
  refine widened_tuple_other hnumber hparse ?_
  rintro _ ⟨⟩
  exact hlength

theorem exists_widened_tuple (hnumber : pattern ≠ bytes "number")
    (hparse : TypePattern.parse pattern = some ⟨.tuple, b, params⟩) :
    ∃ xs', widened (levels + 1) pattern (.tuple xs) = .tuple xs' := by
  by_cases hlength : xs.length = params.length
  · exact ⟨_, widened_tuple hnumber hparse hlength⟩
  · exact ⟨xs, widened_tuple_kept hnumber hparse hlength⟩

/-- Tuples of the length of the pattern are converted element by element. -/
theorem merged_tuple (hnumber : pattern ≠ bytes "number")
    (hparse : TypePattern.parse pattern = some ⟨.tuple, b, params⟩) (hlength : xs.length = params.length)
    (hsame : Same h (widened (levels + 1) pattern (.tuple xs)) (widened (levels + 1) pattern (.tuple ys))) :
    List.Forall₂ (fun p y => Same h (widened levels p.2 p.1) (widened levels p.2 y)) (xs.zip params) ys := by
  rw [widened_tuple hnumber hparse hlength] at hsame
  by_cases hlength' : ys.length = params.length
  · rw [widened_tuple hnumber hparse hlength'] at hsame
    cases sameBy_of_same distinct_tuple hsame with
    | tuple helem =>
      refine forall₂_zip_right (Q := fun p q => Same h (widened levels p.2 p.1) (widened levels q.2 q.1)) hlength' ?_
      exact List.forall₂_map_left_iff.mp (List.forall₂_map_right_iff.mp helem)
  · rw [widened_tuple_kept hnumber hparse hlength'] at hsame
    cases sameBy_of_same distinct_tuple hsame with
    | tuple helem =>
      have hlengths := helem.length_eq
      rw [List.length_map, List.length_zip, hlength, Nat.min_self] at hlengths
      exact absurd hlengths.symm hlength'

/-- Tuples of another length that are the same after their conversion were not converted. -/
theorem merged_tuple_kept (hnumber : pattern ≠ bytes "number")
    (hparse : TypePattern.parse pattern = some ⟨.tuple, b, params⟩) (hlength : xs.length ≠ params.length)
    (hsame : Same h (widened (levels + 1) pattern (.tuple xs)) (widened (levels + 1) pattern (.tuple ys))) :
    Same h (.tuple xs) (.tuple ys) := by
  rw [widened_tuple_kept hnumber hparse hlength] at hsame
  by_cases hlength' : ys.length = params.length
  · rw [widened_tuple hnumber hparse hlength'] at hsame
    cases sameBy_of_same distinct_tuple hsame with
    | tuple helem =>
      have hlengths := helem.length_eq
      rw [List.length_map, List.length_zip, hlength', Nat.min_self] at hlengths
      exact absurd hlengths hlength
  · rwa [widened_tuple_kept hnumber hparse hlength'] at hsame

/-- All others are left alone. -/
theorem same_of_widened_other (hnumber : pattern ≠ bytes "number")
    (hparse : TypePattern.parse pattern = some ⟨.tuple, b, params⟩)
    (hother : ∀ xs ys, x = .tuple xs → y = .tuple ys → False) (hkeys : x.Distinct fun _ _ => False)
    (hsame : Same h (widened (levels + 1) pattern x) (widened (levels + 1) pattern y)) : Same h x y := by
  by_cases hx : ∃ xs, x = .tuple xs
  · obtain ⟨xs, rfl⟩ := hx
    obtain ⟨xs', hxs'⟩ : ∃ xs', widened (levels + 1) pattern (.tuple xs) = .tuple xs' :=
      exists_widened_tuple hnumber hparse
    rw [widened_tuple_other hnumber hparse fun ys hys => (hother xs ys rfl hys).elim, hxs'] at hsame
    cases sameBy_of_same distinct_tuple hsame
    exact (hother _ _ rfl rfl).elim
  · rw [widened_tuple_other hnumber hparse fun xs hxs => absurd ⟨xs, hxs⟩ hx] at hsame
    by_cases hy : ∃ ys, y = .tuple ys
    · obtain ⟨ys, rfl⟩ := hy
      obtain ⟨ys', hys'⟩ : ∃ ys', widened (levels + 1) pattern (.tuple ys) = .tuple ys' :=
        exists_widened_tuple hnumber hparse
      rw [hys'] at hsame
      cases sameBy_of_same hkeys hsame
      exact absurd ⟨_, rfl⟩ hx
    · rwa [widened_tuple_other hnumber hparse fun ys hys => absurd ⟨ys, hys⟩ hy] at hsame

end Tuple

/-- A conversion part by part changes neither the name of the parts nor their pattern. -/
theorem partsName_widened (levels : Nat) (v : Value) (hnumber : pattern ≠ bytes "number")
    (hparse : TypePattern.parse pattern = some ⟨.parameterized, base, first :: errors⟩)
    (hbase : base ≠ bytes "optional") :
    partsName (widened (levels + 1) pattern v) = partsName v ∧
      partsPattern first errors (widened (levels + 1) pattern v) = partsPattern first errors v := by
  by_cases hname : partsName v = some base
  · rw [widened_parts hnumber hparse hbase hname]
    exact ⟨partsName_mapParts, partsPattern_mapParts⟩
  · rw [widened_other hnumber hparse hbase hname]
    exact ⟨rfl, rfl⟩

/-- Converted parts repeat nothing if no two elements of a set are related. -/
theorem distinct_mapParts {f : Value → Value} (hdistinct : v.Distinct R)
    (himp : ∀ x ∈ v.children, ∀ y, S (f x) (f y) → R x y) : (mapParts f v).Distinct S := by
  cases v with
  | dictionary entries =>
    change (List.map Prod.fst (entries.map fun entry => (entry.1, f entry.2))).Nodup
    rw [List.map_map]
    exact hdistinct
  | set elements =>
    refine List.pairwise_map.mpr (List.Pairwise.imp_of_mem (fun hx _ hne hs => hne ?_) hdistinct)
    exact himp _ hx _ hs
  | _ => trivial

theorem distinctKeys_widened (hnumber : pattern ≠ bytes "number")
    (hparse : TypePattern.parse pattern = some ⟨.parameterized, base, first :: errors⟩)
    (hbase : base ≠ bytes "optional") (hkeys : v.Distinct fun _ _ => False) :
    (widened (levels + 1) pattern v).Distinct fun _ _ => False := by
  by_cases hname : partsName v = some base
  · rw [widened_parts hnumber hparse hbase hname]
    exact distinct_mapParts hkeys fun _ _ _ hfalse => hfalse
  · rwa [widened_other hnumber hparse hbase hname]

/-- What a widening makes the same it merges. -/
theorem merged_of_same (hx : Lawful h x)
    (hsame : Same h (widened levels pattern x) (widened levels pattern y)) : Merged h levels pattern x y := by
  induction levels generalizing pattern x y with
  | zero => exact hsame
  | succ levels ih =>
    have hkeys : x.Distinct fun _ _ => False := hx.distinct.imp fun _ _ hfalse => hfalse.elim
    unfold Merged
    split
    next hnumber => rwa [hnumber, widened_number, widened_number] at hsame
    next hnumber =>
      split
      next b params hparse =>
        split
        next xs ys =>
          split
          next hlength =>
            refine Matching.forall₂_imp (merged_tuple hnumber hparse hlength hsame) fun p hp y _ hpart => ?_
            exact ih (hx.child (List.of_mem_zip hp).1) hpart
          next hlength => exact merged_tuple_kept hnumber hparse hlength hsame
        next hnone => exact same_of_widened_other hnumber hparse (fun xs ys hx hy => hnone xs ys hx hy) hkeys hsame
      next base first errors hparse =>
        split
        next hoptional =>
          subst hoptional
          rw [widened_optional hnumber hparse, widened_optional hnumber hparse] at hsame
          exact ih hx hsame
        next hbase =>
          have hsameBy := sameBy_of_same (distinctKeys_widened hnumber hparse hbase hkeys) hsame
          have hnames := partsName_of_sameBy hsameBy
          have hpatterns : partsPattern first errors (widened (levels + 1) pattern x) =
              partsPattern first errors (widened (levels + 1) pattern y) := partsPattern_of_sameBy hsameBy
          obtain ⟨hnamex, hpatternx⟩ := partsName_widened levels x hnumber hparse hbase
          obtain ⟨hnamey, hpatterny⟩ := partsName_widened levels y hnumber hparse hbase
          rw [hnamex, hnamey] at hnames
          rw [hpatternx, hpatterny] at hpatterns
          split
          next hname =>
            rw [widened_parts hnumber hparse hbase hname, widened_parts hnumber hparse hbase (hnames ▸ hname),
              ← hpatterns] at hsameBy
            exact (sameBy_of_mapParts hname hsameBy).mono fun a ha b hpart => ih (hx.child ha) hpart
          next hname =>
            rwa [widened_other hnumber hparse hbase hname, widened_other hnumber hparse hbase (hnames ▸ hname)] at hsame
      next hnotTuple hnotParts =>
        rwa [widened_keep hnumber hnotTuple hnotParts, widened_keep hnumber hnotTuple hnotParts] at hsame

/-! ## Widening a lawful value -/

theorem children_mapParts {f : Value → Value} (hname : partsName v = some base) :
    (mapParts f v).children = v.children.map f := by
  cases v with
  | dictionary entries =>
    simp only [mapParts, children, List.map_map]
    rfl
  | array _ | queue _ | stack _ | set _ | result _ _ _ _ => rfl
  | _ => cases hname

/-- A widening that merges no elements of a set keeps a value lawful. -/
theorem lawful_widened (hv : Lawful h v) (hapart : KeepsApart h levels pattern v) : Lawful h (widened levels pattern v) := by
  induction levels generalizing pattern v with
  | zero => exact hv
  | succ levels ih =>
    unfold KeepsApart at hapart
    split at hapart
    next hnumber =>
      rw [hnumber, widened_number]
      cases v with
      | integer n => exact lawful_of_children (fun c hc => absurd hc List.not_mem_nil) trivial
      | _ => exact hv
    next hnumber =>
      split at hapart
      next b params hparse =>
        split at hapart
        next elements =>
          by_cases hlength : elements.length = params.length
          · rw [widened_tuple hnumber hparse hlength]
            refine lawful_of_children (fun c hc => ?_) trivial
            obtain ⟨p, hp, rfl⟩ := List.mem_map.mp hc
            exact ih (hv.child (List.of_mem_zip hp).1) (hapart hlength p hp)
          · rw [widened_tuple_other hnumber hparse]
            · exact hv
            · rintro _ ⟨⟩
              exact hlength
        next hnone =>
          rw [widened_tuple_other hnumber hparse fun elements helements => (hnone elements helements).elim]
          exact hv
      next base first errors hparse =>
        split at hapart
        next hoptional =>
          subst hoptional
          rw [widened_optional hnumber hparse]
          exact ih hv hapart
        next hbase =>
          by_cases hname : partsName v = some base
          · rw [widened_parts hnumber hparse hbase hname]
            obtain ⟨hparts, hdistinct⟩ := hapart hname
            refine lawful_of_children (fun c hc => ?_) (distinct_mapParts hdistinct fun x hx y hsame => ?_)
            · rw [children_mapParts hname] at hc
              obtain ⟨c', hc', rfl⟩ := List.mem_map.mp hc
              exact ih (hv.child hc') (hparts c' hc')
            · exact merged_of_same (hv.child hx) hsame
          · rw [widened_other hnumber hparse hbase hname]
            exact hv
      next hnotTuple hnotParts =>
        rw [widened_keep hnumber hnotTuple hnotParts]
        exact hv

end Luma.NumericWidener
