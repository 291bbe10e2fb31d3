-- SUMMARY: Lists of representatives as sets modulo an equivalence.
import Luma.Library.Matching
import Mathlib.Data.Set.Lattice
import Mathlib.Data.Set.SymmDiff
import Mathlib.Order.CompletePartialOrder

/-! # Representatives

A list stands for the set of all that its elements are equivalent to. When no two of
its elements are equivalent, operations on the list are operations on that set. The
relation need be an equivalence on the lawful part of the type only. -/

namespace Representatives

variable {α : Type} {P : α → Prop} {R : α → α → Prop} {a b x : α} {seen xs ys : List α}

structure EquivalenceOn (P : α → Prop) (R : α → α → Prop) : Prop where
  refl : ∀ {a}, P a → R a a
  symm : ∀ {a b}, P a → P b → R a b → R b a
  trans : ∀ {a b c}, P a → P b → P c → R a b → R b c → R a c

/-- What the elements of a list are equivalent to. -/
def classes (P : α → Prop) (R : α → α → Prop) (xs : List α) : Set α := {a | P a ∧ ∃ x ∈ xs, R x a}

/-- No element is equivalent to a later one. -/
def Unequal (R : α → α → Prop) (xs : List α) : Prop := xs.Pairwise fun x y => ¬ R x y

open Classical in
/-- The elements that are equivalent to none seen before. -/
noncomputable def firsts (R : α → α → Prop) (seen : List α) : List α → List α
  | [] => []
  | x :: xs => if ∃ s ∈ seen, R s x then firsts R seen xs else x :: firsts R (seen ++ [x]) xs

-- The equations of the definitions are derived here, once for all proofs.
section
attribute [local simp] firsts
end

/-! ## Classes -/

@[simp] theorem classes_nil : classes P R [] = ∅ := by
  ext a
  simp [classes]

theorem classes_append : classes P R (xs ++ ys) = classes P R xs ∪ classes P R ys := by
  ext a
  simp only [classes, Set.mem_ofPred_eq, Set.mem_union, List.mem_append, or_and_right, exists_or, and_or_left]

theorem mem_classes_of_mem (hR : EquivalenceOn P R) (ha : P a) (hmem : a ∈ xs) : a ∈ classes P R xs :=
  ⟨ha, a, hmem, hR.refl ha⟩

/-- Membership in a class is modulo the equivalence. -/
theorem mem_classes_congr (hR : EquivalenceOn P R) (hxs : ∀ x ∈ xs, P x) (ha : P a) (hb : P b) (hab : R a b) :
    a ∈ classes P R xs ↔ b ∈ classes P R xs := by
  constructor
  · rintro ⟨-, x, hx, hxa⟩
    exact ⟨hb, x, hx, hR.trans (hxs x hx) ha hb hxa hab⟩
  · rintro ⟨-, x, hx, hxb⟩
    exact ⟨ha, x, hx, hR.trans (hxs x hx) hb ha hxb (hR.symm ha hb hab)⟩

/-- An element of the other list is in the class when one of this list is equivalent to it. -/
theorem classes_subset_iff (hR : EquivalenceOn P R) (hxs : ∀ x ∈ xs, P x) (hys : ∀ y ∈ ys, P y) :
    classes P R xs ⊆ classes P R ys ↔ ∀ x ∈ xs, x ∈ classes P R ys := by
  constructor
  · exact fun hsub x hx => hsub (mem_classes_of_mem hR (hxs x hx) hx)
  · rintro hmem a ⟨ha, x, hx, hxa⟩
    exact (mem_classes_congr hR hys (hxs x hx) ha hxa).mp (hmem x hx)

theorem disjoint_classes_iff (hR : EquivalenceOn P R) (hxs : ∀ x ∈ xs, P x) (hys : ∀ y ∈ ys, P y) :
    Disjoint (classes P R xs) (classes P R ys) ↔ ∀ x ∈ xs, x ∉ classes P R ys := by
  rw [Set.disjoint_left]
  constructor
  · exact fun hdisjoint x hx => hdisjoint (mem_classes_of_mem hR (hxs x hx) hx)
  · rintro hmem a ⟨ha, x, hx, hxa⟩ hin
    exact hmem x hx ((mem_classes_congr hR hys (hxs x hx) ha hxa).mpr hin)

/-- Keeping the elements of some saturated set intersects with it. -/
theorem classes_filter {p : α → Bool} {S : Set α} (hxs : ∀ x ∈ xs, P x) (hp : ∀ x ∈ xs, (p x = true ↔ x ∈ S))
    (hS : ∀ {a b}, P a → P b → R a b → (a ∈ S ↔ b ∈ S)) : classes P R (xs.filter p) = classes P R xs ∩ S := by
  ext a
  constructor
  · rintro ⟨ha, x, hx, hxa⟩
    obtain ⟨hmem, hkept⟩ := List.mem_filter.mp hx
    exact ⟨⟨ha, x, hmem, hxa⟩, (hS (hxs x hmem) ha hxa).mp ((hp x hmem).mp hkept)⟩
  · rintro ⟨⟨ha, x, hx, hxa⟩, hin⟩
    exact ⟨ha, x, List.mem_filter.mpr ⟨hx, (hp x hx).mpr ((hS (hxs x hx) ha hxa).mpr hin)⟩, hxa⟩

theorem classes_filter_mem {p : α → Bool} (hR : EquivalenceOn P R) (hxs : ∀ x ∈ xs, P x) (hys : ∀ y ∈ ys, P y)
    (hp : ∀ x ∈ xs, (p x = true ↔ x ∈ classes P R ys)) :
    classes P R (xs.filter p) = classes P R xs ∩ classes P R ys :=
  classes_filter hxs hp fun ha hb hab => mem_classes_congr hR hys ha hb hab

theorem classes_filter_not_mem {p : α → Bool} (hR : EquivalenceOn P R) (hxs : ∀ x ∈ xs, P x) (hys : ∀ y ∈ ys, P y)
    (hp : ∀ x ∈ xs, (p x = true ↔ x ∉ classes P R ys)) :
    classes P R (xs.filter p) = classes P R xs \ classes P R ys := by
  rw [Set.sdiff_eq]
  exact classes_filter hxs hp fun ha hb hab => not_congr (mem_classes_congr hR hys ha hb hab)

/-- Two lists of one length without equivalent elements stand for one set as soon as each
    element of the first is in the other. -/
theorem classes_eq_iff (hR : EquivalenceOn P R) (hxs : ∀ x ∈ xs, P x) (hys : ∀ y ∈ ys, P y)
    (hdistinct : Unequal R xs) (hdistinct' : Unequal R ys) :
    classes P R xs = classes P R ys ↔ xs.length = ys.length ∧ ∀ x ∈ xs, x ∈ classes P R ys := by
  -- The elements of a covered list without equivalent elements are matched, some with each.
  have hmatch : ∀ {as bs : List α}, (∀ a ∈ as, P a) → (∀ b ∈ bs, P b) → Unequal R as → bs.length ≤ as.length →
      (∀ a ∈ as, a ∈ classes P R bs) → ∃ bs', bs'.Perm bs ∧ List.Forall₂ (fun a b => R b a) as bs' := by
    intro as bs has hbs hunequal hlen hmem
    refine Matching.exists_perm_forall₂ (fun a ha => (hmem a ha).2) ?_ hlen
    refine List.Pairwise.imp_of_mem ?_ hunequal
    intro a a' ha ha' hne b hb hba hba'
    exact hne (hR.trans (has a ha) (hbs b hb) (has a' ha') (hR.symm (hbs b hb) (has a ha) hba) hba')
  constructor
  · intro heq
    have hforth := (classes_subset_iff hR hxs hys).mp heq.subset
    have hback := (classes_subset_iff hR hys hxs).mp heq.symm.subset
    refine ⟨?_, hforth⟩
    rcases le_total ys.length xs.length with hle | hle
    · obtain ⟨ys', hperm, hforall⟩ := hmatch hxs hys hdistinct hle hforth
      exact hforall.length_eq.trans hperm.length_eq
    · obtain ⟨xs', hperm, hforall⟩ := hmatch hys hxs hdistinct' hle hback
      exact (hforall.length_eq.trans hperm.length_eq).symm
  · rintro ⟨hlen, hmem⟩
    obtain ⟨ys', hperm, hforall⟩ := hmatch hxs hys hdistinct hlen.ge hmem
    refine ((classes_subset_iff hR hxs hys).mpr hmem).antisymm ((classes_subset_iff hR hys hxs).mpr fun y hy => ?_)
    obtain ⟨x, hx, hyx⟩ := Matching.covered_of_perm_forall₂ hperm hforall y hy
    exact ⟨hys y hy, x, hx, hR.symm (hys y hy) (hxs x hx) hyx⟩

/-! ## First occurrences -/

theorem firsts_sublist : (firsts R seen xs).Sublist xs := by
  induction xs generalizing seen with
  | nil => exact List.Sublist.slnil
  | cons x xs ih =>
    unfold firsts
    split
    · exact ih.cons x
    · exact ih.cons_cons x

theorem firsts_of_seen (h : ∃ s ∈ seen, R s x) : firsts R seen (x :: xs) = firsts R seen xs := by
  rw [firsts, if_pos h]

theorem firsts_of_new (h : ¬ ∃ s ∈ seen, R s x) : firsts R seen (x :: xs) = x :: firsts R (seen ++ [x]) xs := by
  rw [firsts, if_neg h]

theorem append_firsts_of_new (h : ¬ ∃ s ∈ seen, R s x) :
    seen ++ firsts R seen (x :: xs) = seen ++ [x] ++ firsts R (seen ++ [x]) xs := by
  rw [firsts_of_new h, List.append_assoc, List.singleton_append]

theorem firsts_append : firsts R seen (xs ++ ys) = firsts R seen xs ++ firsts R (seen ++ firsts R seen xs) ys := by
  induction xs generalizing seen with
  | nil => simp [firsts]
  | cons x xs ih =>
    by_cases h : ∃ s ∈ seen, R s x
    · rw [List.cons_append, firsts_of_seen h, firsts_of_seen h, ih]
    · rw [List.cons_append, firsts_of_new h, firsts_of_new h, ih, List.cons_append, List.append_assoc,
        List.singleton_append]

/-- What is added to elements without equivalents leaves them so. -/
theorem unequal_firsts (h : Unequal R seen) : Unequal R (seen ++ firsts R seen xs) := by
  induction xs generalizing seen with
  | nil => simpa [firsts] using h
  | cons x xs ih =>
    by_cases hseen : ∃ s ∈ seen, R s x
    · rw [firsts_of_seen hseen]
      exact ih h
    · rw [append_firsts_of_new hseen]
      refine ih (List.pairwise_append.mpr ⟨h, List.pairwise_singleton _ _, fun s hs y hy hsy => hseen ⟨s, hs, ?_⟩⟩)
      rwa [← List.mem_singleton.mp hy]

theorem classes_firsts (hR : EquivalenceOn P R) (hseen : ∀ s ∈ seen, P s) (hxs : ∀ x ∈ xs, P x) :
    classes P R (seen ++ firsts R seen xs) = classes P R (seen ++ xs) := by
  induction xs generalizing seen with
  | nil => simp [firsts]
  | cons x xs ih =>
    have hx := hxs x List.mem_cons_self
    have hrest : ∀ y ∈ xs, P y := fun y hy => hxs y (List.mem_cons_of_mem x hy)
    by_cases h : ∃ s ∈ seen, R s x
    · rw [firsts_of_seen h, ih hseen hrest]
      refine Set.Subset.antisymm ?_ ?_
      · rintro a ⟨ha, y, hy, hya⟩
        refine ⟨ha, y, ?_, hya⟩
        simp only [List.mem_append, List.mem_cons] at hy ⊢
        tauto
      · rintro a ⟨ha, y, hy, hya⟩
        obtain ⟨s, hs, hsx⟩ := h
        simp only [List.mem_append, List.mem_cons] at hy
        rcases hy with hy | rfl | hy
        · exact ⟨ha, y, List.mem_append_left _ hy, hya⟩
        · exact ⟨ha, s, List.mem_append_left _ hs, hR.trans (hseen s hs) hx ha hsx hya⟩
        · exact ⟨ha, y, List.mem_append_right _ hy, hya⟩
    · have hseen' : ∀ s ∈ seen ++ [x], P s := by
        intro s hs
        rcases List.mem_append.mp hs with hs | hs
        · exact hseen s hs
        · rwa [List.mem_singleton.mp hs]
      rw [append_firsts_of_new h, ih hseen' hrest, List.append_assoc, List.singleton_append]

open Classical in
/-- From a list without equivalent elements, those seen before are left out. -/
theorem firsts_eq_filter (hxs : ∀ x ∈ xs, P x) (hdistinct : Unequal R xs) :
    firsts R seen xs = xs.filter fun x => decide (x ∉ classes P R seen) := by
  induction xs generalizing seen with
  | nil => rfl
  | cons x xs ih =>
    have hx := hxs x List.mem_cons_self
    have hrest : ∀ y ∈ xs, P y := fun y hy => hxs y (List.mem_cons_of_mem x hy)
    obtain ⟨hhead, htail⟩ := List.pairwise_cons.mp hdistinct
    by_cases h : ∃ s ∈ seen, R s x
    · have hmem : x ∈ classes P R seen := ⟨hx, h⟩
      rw [firsts_of_seen h, ih hrest htail, List.filter_cons_of_neg (by simpa using hmem)]
    · have hmem : x ∉ classes P R seen := fun hin => h hin.2
      rw [firsts_of_new h, ih hrest htail, List.filter_cons_of_pos (by simpa using hmem)]
      congr 1
      refine List.filter_congr fun y hy => ?_
      have hsame : y ∈ classes P R (seen ++ [x]) ↔ y ∈ classes P R seen := by
        constructor
        · rintro ⟨hy', s, hs, hsy⟩
          rcases List.mem_append.mp hs with hs | hs
          · exact ⟨hy', s, hs, hsy⟩
          · rw [List.mem_singleton.mp hs] at hsy
            exact absurd hsy (hhead y hy)
        · rintro ⟨hy', s, hs, hsy⟩
          exact ⟨hy', s, List.mem_append_left _ hs, hsy⟩
      simp only [hsame]

/-- A list without equivalent elements keeps all of them. -/
theorem firsts_eq_self (hdistinct : Unequal R xs) : firsts R [] xs = xs := by
  have hfilter : firsts R [] xs = xs.filter fun x => @decide (x ∉ classes (fun _ => True) R []) (Classical.propDecidable _) := by
    rw [firsts_eq_filter (P := fun _ => True) (fun _ _ => trivial) hdistinct]
    congr!
  simpa using hfilter

theorem unequal_filter {p : α → Bool} (h : Unequal R xs) : Unequal R (xs.filter p) := List.Pairwise.filter p h

end Representatives
