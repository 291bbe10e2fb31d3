-- SUMMARY: Sorting, the test for being sorted and binary search over arrays whose values are compared consistently.
import Luma.Library.StableSort
import Luma.Stdlib.ValueOrder
import Luma.Value.Duplicates

/-! # Ordered arrays

Three functions of the array library rest on the comparison of values. On values of one
kind, among which no integer meets a number that it is only rounded to, the comparison
is a total preorder whose ties are the equal values, and each of the three does what its
name says. -/

namespace Luma.ValueOrder

open Codec Value

/-! ## The functions -/

/-- The result of a computation that may throw, as a script sees it. -/
def applyWithErrorHandling {α : Type} (func : Except RuntimeError α) : Except String α :=
  func.mapError RuntimeError.message

section SortBy

variable {W : Type}

/-- The keys of the elements, asked for in their order. -/
def invokeCallables (keyFn : Value → W → Except RuntimeError Value × W) :
    List Value → W → Except RuntimeError (List Value) × W
  | [], w => (.ok [], w)
  | x :: xs, w =>
    match keyFn x w with
    | (.error e, w) => (.error e, w)
    | (.ok key, w) =>
      let (keys, w) := invokeCallables keyFn xs w
      (keys.map (key :: ·), w)

structure KeyIndex where
  key : Value
  idx : Nat

def keyIndices (keys : List Value) : List KeyIndex := keys.zipIdx.map fun (key, idx) => { key, idx }

def keyLess (a b : KeyIndex) : Except RuntimeError Bool :=
  (compareValues "Array.sort_by" a.key b.key).map fun order => decide (order < 0)

/-- The elements by their keys. Where the comparison is no weak order the sorted order is
    not specified; the one taken here is that of an insertion sort. -/
def arraySortBy (keyFn : Value → W → Except RuntimeError Value × W) (elements : List Value) (w : W) :
    Except String (List Value) × W :=
  let (keys, w) := invokeCallables keyFn elements w
  let sorted := do
    let sorted ← StableSort.stableSort keyLess (keyIndices (← keys))
    pure (sorted.map fun ki => elements.getD ki.idx .null)
  (applyWithErrorHandling sorted, w)

end SortBy

def arrayIsSorted : List Value → Except RuntimeError Bool
  | a :: b :: rest => do
    if 0 < (← compareValues "Array.is_sorted" a b) then pure false
    else arrayIsSorted (b :: rest)
  | _ => .ok true

def binarySearchLoop (elements : List Value) (target : Value) (lo hi : Int) : Except String Int :=
  if lo ≤ hi then
    let mid := lo + (hi - lo) / 2
    match compareValues "Array.binary_search" (elements.getD mid.toNat .null) target with
    | .error _ => .error "Array.binary_search: elements are not comparable"
    | .ok cmp =>
      if cmp = 0 then .ok mid
      else if cmp < 0 then binarySearchLoop elements target (mid + 1) hi
      else binarySearchLoop elements target lo (mid - 1)
  else .error "Array.binary_search: value not found"
termination_by (hi + 1 - lo).toNat

def arrayBinarySearch (elements : List Value) (target : Value) : Except String Int :=
  binarySearchLoop elements target 0 (elements.length - 1)

/-! ## Consistent values -/

/-- Values of one kind, none of which is compared with one that it is only rounded to. -/
structure Consistent (values : List Value) : Prop where
  comparable : ∀ a ∈ values, ∀ b ∈ values, Comparable a b
  undistorted : ∀ a ∈ values, ∀ b ∈ values, Undistorted a b

/-- The first value is compared as less than the second one, or as its equal. -/
def NotAfter (a b : Value) : Prop := ∃ c ≤ 0, ∀ context, compareValues context a b = .ok c

/-- The comparison of some values is a total preorder, and its ties are the equal values. -/
structure TotalPreorder (h : StdHash) (values : List Value) : Prop where
  total : ∀ a ∈ values, ∀ b ∈ values, NotAfter a b ∨ NotAfter b a
  antisymm : ∀ a ∈ values, ∀ b ∈ values, NotAfter a b → NotAfter b a → equals h a b = .ok true
  trans : ∀ a ∈ values, ∀ b ∈ values, ∀ c ∈ values, NotAfter a b → NotAfter b c → NotAfter a c
  zero_iff : ∀ a ∈ values, ∀ b ∈ values, ∀ context,
    compareValues context a b = .ok 0 ↔ equals h a b = .ok true

section Laws

variable {h : StdHash} {context : String} {values elements : List Value} {a b c target : Value} {r s t : Rank}

theorem Linear.neg_iff {α : Type} {compare : α → α → Int} (hlinear : Linear compare) {x y : α} :
    compare x y ≤ 0 ↔ ¬ compare y x < 0 := by
  rw [hlinear.antisymm y x]
  omega

theorem Linear.notAfter_trans {α : Type} {compare : α → α → Int} (hlinear : Linear compare) {x y z : α}
    (hxy : compare x y ≤ 0) (hyz : compare y z ≤ 0) : compare x z ≤ 0 := by
  rcases Int.lt_or_eq_of_le hxy with hxy | hxy
  · rcases Int.lt_or_eq_of_le hyz with hyz | hyz
    · exact Int.le_of_lt (hlinear.trans x y z hxy hyz)
    · rw [hlinear.zero_iff] at hyz
      exact hyz ▸ Int.le_of_lt hxy
  · rw [hlinear.zero_iff] at hxy
    exact hxy.symm ▸ hyz

/-- Every value has its rank, and two are compared by theirs. -/
theorem Consistent.ranked (hvalues : Consistent values) (ha : a ∈ values) : ∃ r, rank a = some r := by
  obtain ⟨r, s, hr, -, -⟩ := hvalues.comparable a ha a ha
  exact ⟨r, hr⟩

theorem Consistent.compare (hvalues : Consistent values) (ha : a ∈ values) (hb : b ∈ values) (hr : rank a = some r)
    (hs : rank b = some s) (context : String) : compareValues context a b = .ok (r.compare s) := by
  obtain ⟨r', s', hr', hs', hkind⟩ := hvalues.comparable a ha b hb
  rw [hr] at hr'
  rw [hs] at hs'
  cases hr'
  cases hs'
  exact compareValues_eq hr hs hkind (hvalues.undistorted a ha b hb)

theorem notAfter_iff (hcompare : ∀ context, compareValues context a b = .ok (r.compare s)) :
    NotAfter a b ↔ r.compare s ≤ 0 := by
  constructor
  · rintro ⟨c, hc, hok⟩
    exact Except.ok.inj ((hcompare "").symm.trans (hok "")) ▸ hc
  · exact fun hc => ⟨_, hc, hcompare⟩

theorem Consistent.total (hvalues : Consistent values) (ha : a ∈ values) (hb : b ∈ values) :
    NotAfter a b ∨ NotAfter b a := by
  obtain ⟨r, hr⟩ := hvalues.ranked ha
  obtain ⟨s, hs⟩ := hvalues.ranked hb
  rw [notAfter_iff (hvalues.compare ha hb hr hs), notAfter_iff (hvalues.compare hb ha hs hr), linear_compare.neg_iff]
  rcases Int.lt_or_le (s.compare r) 0 with hlt | hle
  · exact Or.inr (Int.le_of_lt hlt)
  · exact Or.inl (Int.not_lt.mpr hle)

theorem Consistent.trans (hvalues : Consistent values) (ha : a ∈ values) (hb : b ∈ values) (hc : c ∈ values)
    (hab : NotAfter a b) (hbc : NotAfter b c) : NotAfter a c := by
  obtain ⟨r, hr⟩ := hvalues.ranked ha
  obtain ⟨s, hs⟩ := hvalues.ranked hb
  obtain ⟨t, ht⟩ := hvalues.ranked hc
  rw [notAfter_iff (hvalues.compare ha hb hr hs)] at hab
  rw [notAfter_iff (hvalues.compare hb hc hs ht)] at hbc
  rw [notAfter_iff (hvalues.compare ha hc hr ht)]
  exact linear_compare.notAfter_trans hab hbc

theorem Consistent.totalPreorder (hvalues : Consistent values) : TotalPreorder h values where
  total := fun a ha b hb => hvalues.total ha hb
  antisymm := by
    intro a ha b hb hab hba
    obtain ⟨r, hr⟩ := hvalues.ranked ha
    obtain ⟨s, hs⟩ := hvalues.ranked hb
    rw [notAfter_iff (hvalues.compare ha hb hr hs)] at hab
    rw [notAfter_iff (hvalues.compare hb ha hs hr), linear_compare.neg_iff] at hba
    rw [equals_iff hr hs, ← linear_compare.zero_iff]
    omega
  trans := fun a ha b hb c hc => hvalues.trans ha hb hc
  zero_iff := by
    intro a ha b hb context
    obtain ⟨r, hr⟩ := hvalues.ranked ha
    obtain ⟨s, hs⟩ := hvalues.ranked hb
    rw [hvalues.compare ha hb hr hs, equals_iff hr hs, Except.ok.injEq, linear_compare.zero_iff]

end Laws

/-! ## Sorting by a key -/

/-- The elements in the order of their keys, where equal keys keep the order of the elements. -/
def StablySorted (keys elements sorted : List Value) : Prop :=
  ∃ order : List Nat, order.Perm (List.range elements.length) ∧
    sorted = order.map (elements.getD · .null) ∧
    order.Pairwise fun i j => NotAfter (keys.getD i .null) (keys.getD j .null) ∧
      (NotAfter (keys.getD j .null) (keys.getD i .null) → i < j)

section Sorting

variable {W : Type} {keyFn : Value → W → Except RuntimeError Value × W} {w w' : W} {keys elements : List Value}

theorem length_invokeCallables (hkeys : invokeCallables keyFn elements w = (.ok keys, w')) :
    keys.length = elements.length := by
  induction elements generalizing w keys with
  | nil => cases hkeys; rfl
  | cons x xs ih =>
    rw [invokeCallables] at hkeys
    split at hkeys
    · cases hkeys
    next key w₁ hkey =>
      obtain ⟨hmap, hw⟩ := Prod.mk.inj hkeys
      cases hrest : (invokeCallables keyFn xs w₁).1 with
      | error e =>
        rw [hrest] at hmap
        cases hmap
      | ok rest =>
        rw [hrest] at hmap
        cases hmap
        rw [List.length_cons, List.length_cons, ih (Prod.ext hrest hw)]

theorem keyIndices_idx : (keyIndices keys).map KeyIndex.idx = List.range keys.length := by
  rw [keyIndices, List.map_map, List.range_eq_range', ← List.zipIdx_map_snd 0 keys]
  rfl

theorem keyIndices_key {ki : KeyIndex} (hki : ki ∈ keyIndices keys) :
    ki.key ∈ keys ∧ keys.getD ki.idx .null = ki.key := by
  obtain ⟨⟨key, idx⟩, hmem, rfl⟩ := List.mem_map.mp hki
  have hget : keys[idx]? = some key := List.mk_mem_zipIdx_iff_getElem?.mp hmem
  exact ⟨List.mem_of_getElem? hget, by rw [List.getD_eq_getElem?_getD, hget, Option.getD_some]⟩

/-- The comparison of keys is a weak order on keys that are consistent. -/
theorem orders_keyLess (hkeys : Consistent keys) :
    StableSort.Orders keyLess (fun a b => ¬ NotAfter b.key a.key) (keyIndices keys) where
  decides := by
    intro a ha b hb
    obtain ⟨r, hr⟩ := hkeys.ranked (keyIndices_key ha).1
    obtain ⟨s, hs⟩ := hkeys.ranked (keyIndices_key hb).1
    have hab := hkeys.compare (keyIndices_key ha).1 (keyIndices_key hb).1 hr hs
    have hba := hkeys.compare (keyIndices_key hb).1 (keyIndices_key ha).1 hs hr
    refine ⟨decide (r.compare s < 0), ?_, ?_⟩
    · rw [keyLess, hab]
      rfl
    · rw [decide_eq_true_eq, notAfter_iff hba, linear_compare.neg_iff, not_not]
  asymm := by
    intro a ha b hb hab hba
    rcases hkeys.total (keyIndices_key ha).1 (keyIndices_key hb).1 with h | h
    · exact hba h
    · exact hab h
  trans := by
    intro a ha b hb c hc hab hbc
    rw [not_not] at hab hbc ⊢
    exact hkeys.trans (keyIndices_key ha).1 (keyIndices_key hb).1 (keyIndices_key hc).1 hab hbc

/-- A sort by consistent keys is a stable one. -/
theorem arraySortBy_spec (hkeys : invokeCallables keyFn elements w = (.ok keys, w')) (hconsistent : Consistent keys) :
    ∃ sorted, arraySortBy keyFn elements w = (.ok sorted, w') ∧ StablySorted keys elements sorted := by
  have hnodup : (keyIndices keys).Nodup := by
    refine List.Nodup.of_map KeyIndex.idx ?_
    rw [keyIndices_idx]
    exact List.nodup_range
  have horder : (keyIndices keys).Pairwise fun a b => a.idx < b.idx := by
    rw [← List.pairwise_map (f := KeyIndex.idx) (R := (· < ·)), keyIndices_idx]
    exact List.pairwise_lt_range
  obtain ⟨ys, hsort, hperm, hpairwise⟩ :=
    StableSort.stableSort_pairwise (orders_keyLess hconsistent) hnodup horder
  refine ⟨ys.map fun ki => elements.getD ki.idx .null, ?_, ys.map KeyIndex.idx, ?_, ?_, ?_⟩
  · rw [arraySortBy, hkeys]
    simp only [bind, Except.bind, hsort]
    rfl
  · rw [← length_invokeCallables hkeys, ← keyIndices_idx]
    exact hperm.map _
  · rw [List.map_map]
    rfl
  · rw [List.pairwise_map]
    refine hpairwise.imp_of_mem fun {a b} ha hb hab => ?_
    rw [(keyIndices_key (hperm.mem_iff.mp ha)).2, (keyIndices_key (hperm.mem_iff.mp hb)).2]
    exact ⟨not_not.mp hab.1, fun hba => hab.2 (not_not.mpr hba)⟩

end Sorting

/-! ## The test for being sorted -/

def Sorted (elements : List Value) : Prop := elements.Pairwise NotAfter

section Searching

variable {h : StdHash} {context : String} {elements : List Value} {a b target : Value} {r s : Rank}

theorem Consistent.tail (helements : Consistent (a :: elements)) : Consistent elements where
  comparable := fun x hx y hy => helements.comparable x (List.mem_cons_of_mem a hx) y (List.mem_cons_of_mem a hy)
  undistorted := fun x hx y hy => helements.undistorted x (List.mem_cons_of_mem a hx) y (List.mem_cons_of_mem a hy)

/-- Comparing each element with its successor decides whether all are in order. -/
theorem arrayIsSorted_spec (helements : Consistent elements) :
    ∃ sorted, arrayIsSorted elements = .ok sorted ∧ (sorted = true ↔ Sorted elements) := by
  induction elements with
  | nil => exact ⟨true, rfl, by simp [Sorted]⟩
  | cons a rest ih =>
    cases rest with
    | nil => exact ⟨true, rfl, by simp [Sorted]⟩
    | cons b rest =>
      have ha : a ∈ a :: b :: rest := List.mem_cons_self
      have hb : b ∈ a :: b :: rest := by simp
      obtain ⟨r, hr⟩ := helements.ranked ha
      obtain ⟨s, hs⟩ := helements.ranked hb
      have hcompare := helements.compare ha hb hr hs
      have hab := notAfter_iff hcompare
      obtain ⟨sorted, hsorted, hiff⟩ := ih helements.tail
      rw [arrayIsSorted, hcompare]
      by_cases hlt : 0 < r.compare s
      · refine ⟨false, by simp [bind, Except.bind, hlt, pure, Except.pure], ?_⟩
        refine ⟨fun hfalse => absurd hfalse Bool.false_ne_true, fun hpairwise => ?_⟩
        have := hab.mp (List.rel_of_pairwise_cons hpairwise List.mem_cons_self)
        omega
      · refine ⟨sorted, by simpa [bind, Except.bind, hlt] using hsorted, ?_⟩
        rw [hiff]
        refine ⟨fun hpairwise => List.pairwise_cons.mpr ⟨?_, hpairwise⟩, List.Pairwise.of_cons⟩
        have hfirst : NotAfter a b := hab.mpr (by omega)
        intro c hc
        rcases List.mem_cons.mp hc with rfl | hrest
        · exact hfirst
        · exact helements.trans ha hb (List.mem_cons_of_mem a hc) hfirst (List.rel_of_pairwise_cons hpairwise hrest)

/-! ## Binary search -/

theorem Comparable.symm (hab : Comparable a b) : Comparable b a := by
  obtain ⟨r, s, hr, hs, hkind⟩ := hab
  exact ⟨s, r, hs, hr, hkind.symm⟩

theorem Comparable.trans (hab : Comparable a b) (hbt : Comparable b target) : Comparable a target := by
  obtain ⟨r, s, hr, hs, hkind⟩ := hab
  obtain ⟨s', t, hs', ht, hkind'⟩ := hbt
  rw [hs] at hs'
  cases hs'
  exact ⟨r, t, hr, ht, hkind.trans hkind'⟩

theorem Undistorted.symm (hab : Undistorted a b) : Undistorted b a := by
  cases a <;> cases b <;> exact hab

theorem undistorted_self : Undistorted a a := by
  cases a <;> trivial

/-- A NaN is not compared with a value, and is not equal to one that has a rank. -/
theorem compareValues_nan {x : Binary64} (ha : rank a = some r) (hx : x.isNan = true) :
    (∃ e, compareValues context a (.number x) = .error e) ∧ equals h a (.number x) = .ok false := by
  have hinfinite : x.isFinite = false := by
    simp only [Binary64.isNan, decide_eq_true_eq] at hx
    simp only [Binary64.isFinite, decide_eq_false_iff_not]
    omega
  rcases rank_cases ha with ⟨t, rfl, rfl⟩ | ⟨p, rfl, rfl⟩ | ⟨m, rfl, rfl⟩ | ⟨y, rfl, hy, rfl⟩
  · exact ⟨⟨_, rfl⟩, rfl⟩
  · exact ⟨⟨_, rfl⟩, rfl⟩
  · refine ⟨⟨_, by rw [compareValues, compareNumbers, hx, Bool.or_true, if_pos rfl]⟩, ?_⟩
    rw [equals_integer_number, integerEqualsNumber, hinfinite]
    rfl
  · refine ⟨⟨_, by rw [compareValues, compareNumbers, hx, Bool.or_true, if_pos rfl]⟩, ?_⟩
    rw [equals_number_number, numberEquals, Binary64.ieeeEq, hx, hy]
    rfl

/-- A value of another kind, or of none, is not compared with an element, and is not equal to it. -/
theorem compareValues_error (ha : rank a = some r) (hcomparable : ¬ Comparable a target) :
    (∃ e, compareValues context a target = .error e) ∧ equals h a target ≠ .ok true := by
  cases htarget : rank target with
  | some t =>
    have hkind : r.kind ≠ t.kind := fun hkind => hcomparable ⟨r, t, ha, htarget, hkind⟩
    refine ⟨?_, fun heq => hkind (congrArg Rank.kind ((equals_iff ha htarget).mp heq))⟩
    rcases rank_cases ha with ⟨t, rfl, rfl⟩ | ⟨p, rfl, rfl⟩ | ⟨m, rfl, rfl⟩ | ⟨x, rfl, hx, rfl⟩ <;>
      rcases rank_cases htarget with ⟨t', rfl, rfl⟩ | ⟨p', rfl, rfl⟩ | ⟨m', rfl, rfl⟩ | ⟨x', rfl, hx', rfl⟩ <;>
      first
      | refine absurd ?_ hkind; simp only [Rank.kind]; done
      | exact ⟨_, rfl⟩
  | none =>
    cases target with
    | number x =>
      simp only [rank, ite_eq_left_iff, reduceCtorEq, imp_false, Bool.not_eq_true, Bool.not_eq_false] at htarget
      obtain ⟨herror, hequals⟩ :
          (∃ e, compareValues context a (.number x) = .error e) ∧ equals h a (.number x) = .ok false :=
        compareValues_nan ha htarget
      exact ⟨herror, by simp [hequals]⟩
    | _ =>
      rcases rank_cases ha with ⟨t, rfl, rfl⟩ | ⟨p, rfl, rfl⟩ | ⟨m, rfl, rfl⟩ | ⟨x, rfl, hx, rfl⟩ <;>
        first
        | cases htarget; done
        | exact ⟨⟨_, rfl⟩, fun htrue => absurd (Except.ok.inj htrue) Bool.false_ne_true⟩

/-- Where the loop is: an element equal to the target can only be between the two ends. -/
structure Bracketed (h : StdHash) (elements : List Value) (target : Value) (lo hi : Int) : Prop where
  lo_nonneg : 0 ≤ lo
  hi_lt : hi < elements.length
  inside : ∀ i < elements.length, equals h (elements.getD i .null) target = .ok true → lo ≤ i ∧ i ≤ hi

/-- What a search finds: the position of an element that is equal to the target, or that there is none. -/
def Finds (h : StdHash) (elements : List Value) (target : Value) : Except String Int → Prop
  | .ok i => ∃ k < elements.length, i = k ∧ equals h (elements.getD k .null) target = .ok true
  | .error _ => ∀ a ∈ elements, equals h a target ≠ .ok true

theorem getD_mem {i : Nat} (hi : i < elements.length) : elements.getD i .null ∈ elements := by
  rw [List.getD_eq_getElem elements .null hi]
  exact List.getElem_mem hi

theorem Consistent.getD_mem (_hvalues : Consistent (target :: elements)) {i : Nat} (hi : i < elements.length) :
    elements.getD i .null ∈ target :: elements := List.mem_cons_of_mem target (ValueOrder.getD_mem hi)

theorem Sorted.notAfter (helements : Sorted elements) (hvalues : Consistent (target :: elements)) {i j : Nat}
    (hij : i ≤ j) (hj : j < elements.length) : NotAfter (elements.getD i .null) (elements.getD j .null) := by
  rcases Nat.lt_or_eq_of_le hij with hlt | rfl
  · rw [List.getD_eq_getElem elements .null (hlt.trans hj), List.getD_eq_getElem elements .null hj]
    exact List.pairwise_iff_getElem.mp helements i j (hlt.trans hj) hj hlt
  · exact (hvalues.total (hvalues.getD_mem hj) (hvalues.getD_mem hj)).elim id id

/-- Where an element is not after another one, and one of them is equal to the target, the
    other one is on its side of the target. -/
theorem Consistent.side (hvalues : Consistent (target :: elements)) {x y : Value} (hx : x ∈ target :: elements)
    (hy : y ∈ target :: elements) (hxy : NotAfter x y) {cmp : Int} :
    (equals h x target = .ok true → compareValues context y target = .ok cmp → 0 ≤ cmp) ∧
      (equals h y target = .ok true → compareValues context x target = .ok cmp → cmp ≤ 0) := by
  obtain ⟨r, hr⟩ := hvalues.ranked hx
  obtain ⟨s, hs⟩ := hvalues.ranked hy
  obtain ⟨t, ht⟩ := hvalues.ranked List.mem_cons_self
  rw [notAfter_iff (hvalues.compare hx hy hr hs)] at hxy
  constructor
  · intro hequal hcmp
    rw [hvalues.compare hy List.mem_cons_self hs ht] at hcmp
    rw [(equals_iff hr ht).mp hequal, linear_compare.neg_iff, Int.not_lt] at hxy
    exact Except.ok.inj hcmp ▸ hxy
  · intro hequal hcmp
    rw [hvalues.compare hx List.mem_cons_self hr ht] at hcmp
    rw [(equals_iff hs ht).mp hequal] at hxy
    exact Except.ok.inj hcmp ▸ hxy

/-- The loop finds what there is to be found between its ends. -/
theorem binarySearchLoop_finds (hvalues : Consistent (target :: elements))
    (helements : Sorted elements) {lo hi : Int} (hbracketed : Bracketed h elements target lo hi) :
    Finds h elements target (binarySearchLoop elements target lo hi) := by
  induction lo, hi using binarySearchLoop.induct elements target with
  | case1 lo hi hle mid e herror =>
    obtain ⟨hlo, hhi, -⟩ := hbracketed
    have hmid : mid.toNat < elements.length := by omega
    obtain ⟨r, hr⟩ := hvalues.ranked (hvalues.getD_mem hmid)
    obtain ⟨t, ht⟩ := hvalues.ranked List.mem_cons_self
    rw [hvalues.compare (hvalues.getD_mem hmid) List.mem_cons_self hr ht] at herror
    cases herror
  | case2 lo hi hle mid hcmp =>
    obtain ⟨hlo, hhi, -⟩ := hbracketed
    have hmid : mid.toNat < elements.length := by omega
    rw [binarySearchLoop, if_pos hle]
    simp only [mid] at hcmp
    simp only [hcmp, if_true]
    refine ⟨mid.toNat, hmid, by omega, ?_⟩
    exact (hvalues.totalPreorder.zero_iff _ (hvalues.getD_mem hmid) _ List.mem_cons_self _).mp hcmp
  | case3 lo hi hle mid cmp hcmp hne hlt ih =>
    obtain ⟨hlo, hhi, hinside⟩ := hbracketed
    have hmid : mid.toNat < elements.length := by omega
    rw [binarySearchLoop, if_pos hle]
    simp only [mid] at hcmp
    simp only [hcmp, hne, hlt, if_true, if_false]
    refine ih ⟨by omega, hhi, fun i hi' hequal => ⟨?_, (hinside i hi' hequal).2⟩⟩
    by_contra hbefore
    have hnotAfter := helements.notAfter hvalues (i := i) (j := mid.toNat) (by omega) hmid
    have hpos := (hvalues.side (hvalues.getD_mem hi') (hvalues.getD_mem hmid) hnotAfter).1 hequal hcmp
    omega
  | case4 lo hi hle mid cmp hcmp hne hlt ih =>
    obtain ⟨hlo, hhi, hinside⟩ := hbracketed
    have hmid : mid.toNat < elements.length := by omega
    rw [binarySearchLoop, if_pos hle]
    simp only [mid] at hcmp
    simp only [hcmp, hne, hlt, if_false]
    refine ih ⟨hlo, by omega, fun i hi' hequal => ⟨(hinside i hi' hequal).1, ?_⟩⟩
    by_contra hafter
    have hnotAfter := helements.notAfter hvalues (i := mid.toNat) (j := i) (by omega) hi'
    have hneg := (hvalues.side (hvalues.getD_mem hmid) (hvalues.getD_mem hi') hnotAfter).2 hequal hcmp
    omega
  | case5 lo hi hle =>
    rw [binarySearchLoop, if_neg hle]
    intro a ha hequal
    obtain ⟨i, hi', rfl⟩ := List.mem_iff_getElem.mp ha
    have hinside := hbracketed.inside i hi'
    rw [List.getD_eq_getElem elements .null hi'] at hinside
    have := hinside hequal
    omega

/-- The search fails at its first element where the target is of another kind. -/
theorem arrayBinarySearch_error (hvalues : ∀ a ∈ elements, ∃ r, rank a = some r)
    (hcomparable : ∀ a ∈ elements, ¬ Comparable a target) :
    Finds h elements target (arrayBinarySearch elements target) := by
  have herrors : ∀ a ∈ elements, (∃ e, compareValues "Array.binary_search" a target = .error e) ∧
      equals h a target ≠ .ok true := by
    intro a ha
    obtain ⟨r, hr⟩ := hvalues a ha
    exact compareValues_error hr (hcomparable a ha)
  rw [arrayBinarySearch, binarySearchLoop]
  split
  next hle =>
    have hmid : (0 + ((elements.length : Int) - 1 - 0) / 2).toNat < elements.length := by omega
    obtain ⟨⟨e, herror⟩, -⟩ := herrors _ (getD_mem hmid)
    simp only [herror]
    exact fun a ha => (herrors a ha).2
  · exact fun a ha => (herrors a ha).2

/-- A search in a sorted array finds an element that is equal to the target, if there is one. -/
theorem arrayBinarySearch_spec (hvalues : Consistent elements) (htarget : ∀ a ∈ elements, Undistorted a target)
    (helements : Sorted elements) :
    Finds h elements target (arrayBinarySearch elements target) := by
  by_cases hcomparable : ∀ a ∈ elements, ¬ Comparable a target
  · exact arrayBinarySearch_error (fun a ha => hvalues.ranked ha) hcomparable
  · obtain ⟨b, hb, hbt⟩ : ∃ b ∈ elements, Comparable b target := by
      simpa only [not_forall, not_not, exists_prop] using hcomparable
    have hall : ∀ a ∈ elements, Comparable a target := fun a ha => (hvalues.comparable a ha b hb).trans hbt
    have hconsistent : Consistent (target :: elements) := by
      refine ⟨fun x hx y hy => ?_, fun x hx y hy => ?_⟩
      · rcases List.mem_cons.mp hx with rfl | hx'
        · rcases List.mem_cons.mp hy with rfl | hy'
          · exact hbt.symm.trans hbt
          · exact (hall y hy').symm
        · rcases List.mem_cons.mp hy with rfl | hy'
          · exact hall x hx'
          · exact hvalues.comparable x hx' y hy'
      · rcases List.mem_cons.mp hx with rfl | hx'
        · rcases List.mem_cons.mp hy with rfl | hy'
          · exact undistorted_self
          · exact (htarget y hy').symm
        · rcases List.mem_cons.mp hy with rfl | hy'
          · exact htarget x hx'
          · exact hvalues.undistorted x hx' y hy'
    refine binarySearchLoop_finds hconsistent helements ⟨Int.le_refl 0, by omega, fun i hi _ => ?_⟩
    omega

end Searching

/-! ## The order and what rests on it -/

/-- Among values of one kind, of which no integer meets a number that it is only rounded to,
    the comparison is a total preorder whose ties are the equal values. A sort by such keys is
    stable, the test for being sorted accepts just the sorted arrays of such elements, and a
    search in a sorted one finds an equal element just when there is one. -/
theorem ordering_consistent {h : StdHash} {W : Type} {keyFn : Value → W → Except RuntimeError Value × W} {w w' : W}
    {values elements : List Value} (target : Value) (hvalues : Consistent values) :
    TotalPreorder h values ∧
      (invokeCallables keyFn elements w = (.ok values, w') →
        ∃ sorted, arraySortBy keyFn elements w = (.ok sorted, w') ∧
          StablySorted values elements sorted) ∧
      (∃ sorted, arrayIsSorted values = .ok sorted ∧ (sorted = true ↔ Sorted values)) ∧
      ((∀ a ∈ values, Undistorted a target) → Sorted values →
        Finds h values target (arrayBinarySearch values target)) :=
  ⟨hvalues.totalPreorder, fun hkeys => arraySortBy_spec hkeys hvalues, arrayIsSorted_spec hvalues,
    fun htarget hsorted => arrayBinarySearch_spec hvalues htarget hsorted⟩

theorem comparable_amounts {a b : Value} {i j : Int} (ha : rank a = some (.amount i)) (hb : rank b = some (.amount j)) :
    Comparable a b := ⟨_, _, ha, hb, rfl⟩

theorem consistent_two_one : Consistent [.integer 2, .number (.ofInt 1)] := by
  have hund : Undistorted (.integer 2) (.number (.ofInt 1)) := fun hunits => absurd hunits (by decide +kernel)
  have hone : rank (.number (.ofInt 1)) = some (.amount (Binary64.ofInt 1).units) := by
    rw [rank, if_neg]
    decide +kernel
  have htwo : rank (.integer 2) = some (.amount ((2 : Int64).toInt * Binary64.unitsPerOne)) := by
    rw [rank]
  refine ⟨fun a ha b hb => ?_, fun a ha b hb => ?_⟩
  · rcases List.mem_pair.mp ha with rfl | rfl <;> rcases List.mem_pair.mp hb with rfl | rfl
    · exact comparable_amounts htwo htwo
    · exact comparable_amounts htwo hone
    · exact comparable_amounts hone htwo
    · exact comparable_amounts hone hone
  · rcases List.mem_pair.mp ha with rfl | rfl <;> rcases List.mem_pair.mp hb with rfl | rfl
    · exact undistorted_self
    · exact hund
    · exact hund.symm
    · exact undistorted_self

/-- The number one and the integer two are put in order. -/
theorem ordering_consistent_two_one :
    ∃ sorted, arraySortBy (fun x (w : Nat) => (.ok x, w + 1)) [.integer 2, .number (.ofInt 1)] 0 = (.ok sorted, 2) ∧
      StablySorted [.integer 2, .number (.ofInt 1)] [.integer 2, .number (.ofInt 1)] sorted :=
  (ordering_consistent (h := identityHash) .null consistent_two_one).2.1 rfl

/-- An integer is compared as equal to a number that it is rounded to but that it does not
    equal, and such ties are not transitive. -/
theorem tie_of_unequal :
    compareValues "compare" (.integer (2 ^ 53 + 1)) (.number (.ofInt (2 ^ 53))) = .ok 0 ∧
      equals identityHash (.integer (2 ^ 53 + 1)) (.number (.ofInt (2 ^ 53))) = .ok false ∧
      compareValues "compare" (.number (.ofInt (2 ^ 53))) (.integer (2 ^ 53)) = .ok 0 ∧
      compareValues "compare" (.integer (2 ^ 53 + 1)) (.integer (2 ^ 53)) = .ok 1 := by
  have hnumber : (Binary64.ofInt (2 ^ 53)).isNan = false := by decide +kernel
  refine ⟨?_, ?_, ?_, rfl⟩
  · rw [compareValues, compareNumbers_eq isNan_of_integer hnumber]
    exact congrArg Except.ok (by decide +kernel)
  · have hunequal : integerEqualsNumber (2 ^ 53 + 1) (.ofInt (2 ^ 53)) = false := by decide +kernel
    rw [equals_integer_number, hunequal]
  · rw [compareValues, compareNumbers_eq hnumber isNan_of_integer]
    exact congrArg Except.ok (by decide +kernel)

end Luma.ValueOrder
