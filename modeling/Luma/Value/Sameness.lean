-- SUMMARY: Equality as an equivalence on values of any depth.
import Luma.Library.Representatives
import Luma.Value.Duplicates

/-! # Sameness

Equality gives up on values that are nested too deep, so that such a value does not even
equal itself. Two values are the same if they are one value or equal. On values whose
dictionaries and sets repeat nothing this is an equivalence: values that equality tells
to be equal are not nested too deep, and there its laws hold. -/

namespace Luma.Value

open Codec Representatives

variable {h : StdHash} {n : Nat} {a b c v s : Value}

/-- One value, or equal values. -/
def Same (h : StdHash) (a b : Value) : Prop := a = b ∨ equals h a b = .ok true

/-- No dictionary in the value repeats a key, and no set an element. -/
def Lawful (h : StdHash) (v : Value) : Prop := ∀ s, Within s v → s.Distinct (Same h)

/-! ## Parts -/

theorem Within.trans (hab : Within a b) (hbc : Within b c) : Within a c := by
  induction hbc with
  | self => exact hab
  | child hmem _ ih => exact .child hmem ih

theorem Lawful.within (hv : Lawful h v) (hs : Within s v) : Lawful h s := fun t ht => hv t (ht.trans hs)

theorem Lawful.child (hv : Lawful h v) (hc : c ∈ v.children) : Lawful h c := hv.within (.child hc (.self c))

theorem Lawful.distinct (hv : Lawful h v) : v.Distinct (Same h) := hv v (.self v)

theorem lawful_of_children (hchildren : ∀ c ∈ v.children, Lawful h c) (hdistinct : v.Distinct (Same h)) :
    Lawful h v := by
  intro s hs
  cases hs with
  | self => exact hdistinct
  | child hmem hpart => exact hchildren _ hmem s hpart

/-- Elements that are not the same are apart with any depth. -/
theorem Distinct.weaken (hle : n ≤ maxDisplayDepth) (hv : v.Distinct (Same h)) : v.Distinct (EqAt h n) :=
  hv.imp fun _ _ heq => .inr (equalsAt_mono_le hle heq)

/-! ## Equal values are not nested too deep -/

variable {R : Value → Value → Prop}

/-- Each part of a value has an equal part in an equal value. -/
theorem covered_of_sameBy (hsame : SameBy R a b) : ∀ x ∈ a.children, ∃ y ∈ b.children, R x y := by
  have hforall : ∀ {as bs : List Value}, List.Forall₂ R as bs → ∀ x ∈ as, ∃ y ∈ bs, R x y :=
    fun hmatch => Matching.covered_of_perm_forall₂ (List.Perm.refl _) hmatch.flip
  cases hsame with
  | array helem | tuple helem | queue helem | stack helem | choice _ _ helem => exact hforall helem
  | result _ hinner => exact hforall (.cons hinner .nil)
  | record _ hfield =>
    refine hforall (List.forall₂_map_left_iff.mpr (List.forall₂_map_right_iff.mpr ?_))
    exact hfield.imp fun _ _ hxy => hxy.2
  | @dictionary fa fb _ hentry =>
    intro x hx
    obtain ⟨e, he, rfl⟩ := List.mem_map.mp hx
    obtain ⟨w, hfind, hr⟩ := hentry e he
    exact ⟨w, List.mem_map_of_mem (findEntry_some hfind), hr⟩
  | set _ helem => exact helem
  | _ => exact fun x hx => absurd hx List.not_mem_nil

/-- The other way round, if no two parts of the value are equal to one part. -/
theorem covered_of_sameBy_right (hsame : SameBy R a b) (hdistinct : a.Distinct R)
    (hback : ∀ x ∈ a.children, ∀ x' ∈ a.children, ∀ y ∈ b.children, R x y → R x' y → R x x') :
    ∀ y ∈ b.children, ∃ x ∈ a.children, R x y := by
  have hforall : ∀ {as bs : List Value}, List.Forall₂ R as bs → ∀ y ∈ bs, ∃ x ∈ as, R x y :=
    fun hmatch => Matching.covered_of_perm_forall₂ (List.Perm.refl _) hmatch
  cases hsame with
  | array helem | tuple helem | queue helem | stack helem | choice _ _ helem => exact hforall helem
  | result _ hinner => exact hforall (.cons hinner .nil)
  | record _ hfield =>
    refine hforall (List.forall₂_map_left_iff.mpr (List.forall₂_map_right_iff.mpr ?_))
    exact hfield.imp fun _ _ hxy => hxy.2
  | @dictionary fa fb hlen hentry =>
    have hcover : ∀ e ∈ fa, ∃ f ∈ fb, e.1 = f.1 ∧ R e.2 f.2 := by
      intro e he
      obtain ⟨w, hfind, hr⟩ := hentry e he
      exact ⟨(e.1, w), findEntry_some hfind, rfl, hr⟩
    obtain ⟨fb', hperm, hmatch⟩ := match_entries hlen hdistinct hcover
    intro y hy
    obtain ⟨f, hf, rfl⟩ := List.mem_map.mp hy
    obtain ⟨e, he, -, hr⟩ := Matching.covered_of_perm_forall₂ hperm hmatch f hf
    exact ⟨e.2, List.mem_map_of_mem he, hr⟩
  | @set xs ys hlen helem =>
    obtain ⟨ys', hperm, hmatch⟩ := Matching.exists_perm_forall₂ helem
      (List.Pairwise.imp_of_mem (fun hx hx' hne y hy hxy hxy' => hne (hback _ hx _ hx' y hy hxy hxy')) hdistinct)
      hlen.ge
    exact Matching.covered_of_perm_forall₂ hperm hmatch
  | _ => exact fun x hx => absurd hx List.not_mem_nil

theorem wellFormed_of_eqAt (hle : n ≤ maxDisplayDepth) (ha : Lawful h a) (hb : Lawful h b) (heq : EqAt h n a b) :
    WellFormed h n a ∧ WellFormed h n b := by
  induction n generalizing a b with
  | zero => cases heq
  | succ n ih =>
    have hle' : n ≤ maxDisplayDepth := Nat.le_of_succ_le hle
    have hparts : ∀ x ∈ a.children, ∀ y ∈ b.children, EqAt h n x y → WellFormed h n x ∧ WellFormed h n y :=
      fun x hx y hy hxy => ih hle' (ha.child hx) (hb.child hy) hxy
    have hsame := sameBy_of_eqAt heq
    have hdistinct := ha.distinct.weaken hle'
    have hback : ∀ x ∈ a.children, ∀ x' ∈ a.children, ∀ y ∈ b.children, EqAt h n x y → EqAt h n x' y →
        EqAt h n x x' := by
      intro x hx x' hx' y hy hxy hxy'
      obtain ⟨hwx, hwy⟩ := hparts x hx y hy hxy
      obtain ⟨hwx', -⟩ := hparts x' hx' y hy hxy'
      exact (lawfulAt n).trans hwx hwy hwx' hxy ((lawfulAt n).symm hwx' hwy hxy')
    refine ⟨⟨fun x hx => ?_, hdistinct⟩, fun y hy => ?_, hb.distinct.weaken hle'⟩
    · obtain ⟨y, hy, hxy⟩ := covered_of_sameBy hsame x hx
      exact (hparts x hx y hy hxy).1
    · obtain ⟨x, hx, hxy⟩ := covered_of_sameBy_right hsame hdistinct hback y hy
      exact (hparts x hx y hy hxy).2

theorem wellFormed_of_nested (hle : n ≤ maxDisplayDepth) (hv : Lawful h v) (hnested : Nested n v) : WellFormed h n v := by
  induction n generalizing v with
  | zero => exact hnested.elim
  | succ n ih =>
    have hle' : n ≤ maxDisplayDepth := Nat.le_of_succ_le hle
    exact ⟨fun c hc => ih hle' (hv.child hc) (hnested c hc), hv.distinct.weaken hle'⟩

/-! ## Sameness is an equivalence -/

theorem wellFormed_of_equals (ha : Lawful h a) (hb : Lawful h b) (heq : equals h a b = .ok true) :
    WellFormed h maxDisplayDepth a ∧ WellFormed h maxDisplayDepth b := wellFormed_of_eqAt le_rfl ha hb heq

theorem equals_symm (ha : Lawful h a) (hb : Lawful h b) (heq : equals h a b = .ok true) : equals h b a = .ok true := by
  obtain ⟨hwa, hwb⟩ := wellFormed_of_equals ha hb heq
  exact (lawfulAt maxDisplayDepth).symm hwa hwb heq

theorem same_equivalence (h : StdHash) : EquivalenceOn (Lawful h) (Same h) where
  refl _ := .inl rfl
  symm := by
    rintro a b ha hb (rfl | heq)
    · exact .inl rfl
    · exact .inr (equals_symm ha hb heq)
  trans := by
    rintro a b c ha hb hc (rfl | hab) (rfl | hbc)
    · exact .inl rfl
    · exact .inr hbc
    · exact .inr hab
    · obtain ⟨hwa, hwb⟩ := wellFormed_of_equals ha hb hab
      obtain ⟨-, hwc⟩ := wellFormed_of_equals hb hc hbc
      exact .inr ((lawfulAt maxDisplayDepth).trans hwa hwb hwc hab hbc)

/-- The same values have the same hash. -/
theorem Same.hash (ha : Lawful h a) (hb : Lawful h b) (hab : Same h a b) : h.valueHash a = h.valueHash b := by
  rcases hab with rfl | heq
  · rfl
  · obtain ⟨hwa, hwb⟩ := wellFormed_of_equals ha hb heq
    exact (lawfulAt maxDisplayDepth).hash hwa hwb heq maxHashDepth

/-! ## A value is never told apart from itself -/

variable {eq : Value → Value → Except ErrorMessage Bool}

theorem eq_of_mem_zip_self {α : Type} {xs : List α} {pair : α × α} (h : pair ∈ xs.zip xs) :
    pair.1 ∈ xs ∧ pair.2 = pair.1 := by
  have hsame : List.Forall₂ (fun a b => b = a) xs xs := List.forall₂_same.mpr fun _ _ => rfl
  exact ⟨(List.of_mem_zip h).1, List.forall₂_zip hsame h⟩

theorem elementsEqual_self {elements : List Value} (h : ∀ v ∈ elements, eq v v ≠ .ok false) :
    elementsEqual eq elements elements ≠ .ok false := by
  rw [elementsEqual, if_neg (not_not.mpr rfl)]
  intro hfalse
  obtain ⟨pair, hpair, heq⟩ := Matching.exists_of_allM_false hfalse
  obtain ⟨hmem, hsame⟩ := eq_of_mem_zip_self hpair
  rw [hsame] at heq
  exact h _ hmem heq

theorem equalsRecord_self {fields : List (Bytes × Value)} (h : ∀ f ∈ fields, eq f.2 f.2 ≠ .ok false) :
    equalsRecord eq fields fields ≠ .ok false := by
  rw [equalsRecord, if_neg (not_not.mpr rfl)]
  intro hfalse
  obtain ⟨pair, hpair, heq⟩ := Matching.exists_of_allM_false hfalse
  obtain ⟨hmem, hsame⟩ := eq_of_mem_zip_self hpair
  rw [hsame, if_neg (not_not.mpr rfl)] at heq
  exact h _ hmem heq

theorem equalsDictionary_self {entries : List (Bytes × Value)} (hnodup : (entries.map Prod.fst).Nodup)
    (h : ∀ e ∈ entries, eq e.2 e.2 ≠ .ok false) : equalsDictionary eq entries entries ≠ .ok false := by
  rw [equalsDictionary, if_neg (not_not.mpr rfl)]
  intro hfalse
  obtain ⟨e, he, heq⟩ := Matching.exists_of_allM_false hfalse
  rw [findEntry_of_mem hnodup he] at heq
  exact h e he heq

/-- An element is a key of the built index, or equals one. -/
theorem covered_of_buildIndex {keys elements ks : List Value} (hok : buildIndex h eq keys elements = .ok ks) :
    keys ⊆ ks ∧ ∀ x ∈ elements, x ∈ ks ∨ ∃ k ∈ ks, h.valueHash k = h.valueHash x ∧ eq x k = .ok true := by
  induction elements generalizing keys with
  | nil =>
    cases hok
    exact ⟨List.Subset.refl _, fun x hx => absurd hx List.not_mem_nil⟩
  | cons element elements ih =>
    rw [buildIndex] at hok
    cases hfind : indexContains h eq keys element with
    | error e =>
      rw [hfind] at hok
      cases hok
    | ok r =>
      rw [hfind] at hok
      cases r with
      | false =>
        obtain ⟨hkeys, hrest⟩ := ih hok
        have helement : element ∈ ks := hkeys (List.mem_append_right _ (List.mem_singleton_self _))
        exact ⟨fun k hk => hkeys (List.mem_append_left _ hk), List.forall_mem_cons.mpr ⟨.inl helement, hrest⟩⟩
      | true =>
        obtain ⟨hkeys, hrest⟩ := ih hok
        obtain ⟨k, hk, hhash, heq⟩ := exists_of_indexContains hfind
        exact ⟨hkeys, List.forall_mem_cons.mpr ⟨.inr ⟨k, hkeys hk, hhash, heq⟩, hrest⟩⟩

theorem equalsSet_self {elements : List Value} (h' : ∀ v ∈ elements, eq v v ≠ .ok false) :
    equalsSet h eq elements elements ≠ .ok false := by
  rw [equalsSet, if_neg (not_not.mpr rfl)]
  intro hfalse
  cases hindex : buildIndex h eq [] elements with
  | error e =>
    rw [hindex] at hfalse
    cases hfalse
  | ok ks =>
    rw [hindex] at hfalse
    obtain ⟨x, hx, hmissing⟩ := Matching.exists_of_allM_false hfalse
    have hdiffer := Matching.forall_of_anyM_false hmissing
    rcases (covered_of_buildIndex hindex).2 x hx with hmem | ⟨k, hk, hhash, heq⟩
    · have hself := hdiffer x hmem
      rw [if_pos rfl] at hself
      exact h' x hx hself
    · have hkey := hdiffer k hk
      rw [if_pos hhash, heq] at hkey
      cases hkey

/-- Comparing a value with itself answers yes or gives up. -/
theorem equalsAt_self (hv : Lawful h v) : equalsAt h n v v ≠ .ok false := by
  induction n generalizing v with
  | zero => exact fun hfalse => nomatch hfalse
  | succ n ih =>
    have hparts : ∀ c ∈ v.children, equalsAt h n c c ≠ .ok false := fun c hc => ih (hv.child hc)
    -- A value without parts equals itself.
    have hleaf : v.children = [] → equalsAt h (n + 1) v v ≠ .ok false := by
      intro hnil hfalse
      have hwf : WellFormed h 1 v := by
        refine ⟨fun c hc => ?_, hv.distinct.weaken (Nat.zero_le _)⟩
        rw [hnil] at hc
        exact absurd hc List.not_mem_nil
      have htrue := equalsAt_mono_le (Nat.le_add_left 1 n) ((lawfulAt 1).refl hwf)
      rw [htrue] at hfalse
      cases hfalse
    cases v with
    | array _ | tuple _ | queue _ | stack _ => exact elementsEqual_self hparts
    | dictionary entries => exact equalsDictionary_self hv.distinct fun e he => hparts e.2 (List.mem_map_of_mem he)
    | result isSuccess inner _ _ =>
      simp only [equalsAt, ne_eq, not_true, if_false]
      exact hparts inner List.mem_cons_self
    | record _ fields =>
      simp only [equalsAt, ne_eq, not_true, if_false]
      exact equalsRecord_self fun f hf => hparts f.2 (List.mem_map_of_mem hf)
    | choice _ _ _ =>
      simp only [equalsAt, ne_eq, not_true, or_self, if_false]
      exact elementsEqual_self hparts
    | set _ => exact equalsSet_self hparts
    | _ => exact hleaf rfl

end Luma.Value
