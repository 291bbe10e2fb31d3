-- SUMMARY: A stable sort by a comparison that may fail, for comparisons that are a strict weak order of the elements.
import Mathlib.Data.List.Perm.Basic
import Mathlib.Tactic.Common

/-! # Stable sorting

A sort by a comparison that may throw. Nothing is asked of the comparison as such. Where
it does not fail on the elements of a list, and orders them weakly, the sort returns the
one permutation of the list that is ascending and keeps the order of equal elements. -/

namespace StableSort

variable {α ε : Type}

/-- Put an element before the first one that is not less than it. -/
def insert (less : α → α → Except ε Bool) (x : α) : List α → Except ε (List α)
  | [] => .ok [x]
  | y :: ys => do
    if ← less y x then
      let rest ← insert less x ys
      pure (y :: rest)
    else pure (x :: y :: ys)

def stableSort (less : α → α → Except ε Bool) : List α → Except ε (List α)
  | [] => .ok []
  | x :: xs => do
    let sorted ← stableSort less xs
    insert less x sorted

/-- The comparison decides a strict weak order on the elements of a list. -/
structure Orders (less : α → α → Except ε Bool) (lt : α → α → Prop) (xs : List α) : Prop where
  decides : ∀ a ∈ xs, ∀ b ∈ xs, ∃ c, less a b = .ok c ∧ (c = true ↔ lt a b)
  asymm : ∀ a ∈ xs, ∀ b ∈ xs, lt a b → ¬ lt b a
  trans : ∀ a ∈ xs, ∀ b ∈ xs, ∀ c ∈ xs, ¬ lt b a → ¬ lt c b → ¬ lt c a

/-- The elements are ascending. -/
def Ascending (lt : α → α → Prop) (xs : List α) : Prop := xs.Pairwise fun a b => ¬ lt b a

section Laws

variable {less : α → α → Except ε Bool} {lt : α → α → Prop} {x : α} {xs ys : List α}

theorem Orders.subset (h : Orders less lt xs) (hsub : ∀ a ∈ ys, a ∈ xs) : Orders less lt ys where
  decides := fun a ha b hb => h.decides a (hsub a ha) b (hsub b hb)
  asymm := fun a ha b hb => h.asymm a (hsub a ha) b (hsub b hb)
  trans := fun a ha b hb c hc => h.trans a (hsub a ha) b (hsub b hb) c (hsub c hc)

/-- What inserting an element does. -/
theorem insert_spec (h : Orders less lt (x :: ys)) (hys : Ascending lt ys) :
    ∃ zs, insert less x ys = .ok zs ∧ zs.Perm (x :: ys) ∧ Ascending lt zs ∧ ys.Sublist zs ∧
      ∀ b ∈ ys, ¬ lt b x → [x, b].Sublist zs := by
  induction ys with
  | nil => exact ⟨[x], rfl, .refl _, List.pairwise_singleton _ _, List.nil_sublist _, by simp⟩
  | cons y ys ih =>
    have hx : x ∈ x :: y :: ys := List.mem_cons_self
    have hy : y ∈ x :: y :: ys := by simp
    have hrest : ∀ z ∈ ys, z ∈ x :: y :: ys := fun z hz => by simp [hz]
    obtain ⟨hyz, hys⟩ := List.pairwise_cons.mp hys
    obtain ⟨c, hless, hlt⟩ := h.decides y hy x hx
    cases c with
    | true =>
      have hyx : lt y x := hlt.mp rfl
      have hsub : ∀ a ∈ x :: ys, a ∈ x :: y :: ys := by
        intro a ha
        rcases List.mem_cons.mp ha with rfl | ha
        · exact hx
        · exact hrest a ha
      obtain ⟨zs, hinsert, hperm, hascending, hkeep, hbefore⟩ := ih (h.subset hsub) hys
      refine ⟨y :: zs, ?_, ?_, ?_, hkeep.cons_cons y, ?_⟩
      · rw [insert, hless]
        simp only [bind, Except.bind, if_true, hinsert]
        rfl
      · exact (hperm.cons y).trans (.swap x y ys)
      · refine List.pairwise_cons.mpr ⟨?_, hascending⟩
        intro z hz
        rcases List.mem_cons.mp (hperm.mem_iff.mp hz) with rfl | hz
        · exact h.asymm y hy z hx hyx
        · exact hyz z hz
      · intro b hb hbx
        rcases List.mem_cons.mp hb with rfl | hb
        · exact absurd hyx hbx
        · exact (hbefore b hb hbx).cons y
    | false =>
      have hyx : ¬ lt y x := fun hyx => Bool.false_ne_true (hlt.mpr hyx)
      refine ⟨x :: y :: ys, ?_, .refl _, ?_, List.sublist_cons_self x _, ?_⟩
      · rw [insert, hless]
        rfl
      · refine List.pairwise_cons.mpr ⟨?_, List.pairwise_cons.mpr ⟨hyz, hys⟩⟩
        intro z hz
        rcases List.mem_cons.mp hz with rfl | hz
        · exact hyx
        · exact h.trans x hx y hy z (hrest z hz) hyx (hyz z hz)
      · intro b hb _
        exact (List.singleton_sublist.mpr hb).cons_cons x

/-- The sort returns an ascending permutation, in which two elements keep their order
    unless the second one is less. -/
theorem stableSort_spec (h : Orders less lt xs) :
    ∃ ys, stableSort less xs = .ok ys ∧ ys.Perm xs ∧ Ascending lt ys ∧
      ∀ a b, [a, b].Sublist xs → ¬ lt b a → [a, b].Sublist ys := by
  induction xs with
  | nil => exact ⟨[], rfl, .refl _, .nil, fun a b hsub => absurd hsub (by simp)⟩
  | cons x xs ih =>
    obtain ⟨ys, hsort, hperm, hascending, hstable⟩ := ih (h.subset fun a ha => List.mem_cons_of_mem x ha)
    have hsub : ∀ a ∈ x :: ys, a ∈ x :: xs := by
      intro a ha
      rcases List.mem_cons.mp ha with rfl | ha
      · exact List.mem_cons_self
      · exact List.mem_cons_of_mem x (hperm.mem_iff.mp ha)
    obtain ⟨zs, hinsert, hperm', hascending', hkeep, hbefore⟩ := insert_spec (h.subset hsub) hascending
    refine ⟨zs, ?_, hperm'.trans (hperm.cons x), hascending', ?_⟩
    · rw [stableSort, hsort]
      exact hinsert
    · intro a b hab hlt
      cases hab with
      | cons _ hab => exact (hstable a b hab hlt).trans hkeep
      | cons_cons _ hb =>
        have hmem : b ∈ ys := hperm.mem_iff.mpr (List.singleton_sublist.mp hb)
        exact hbefore b hmem hlt

/-- Two elements of a list stand in it in one order or the other. -/
theorem sublist_pair_or {a b : α} (ha : a ∈ xs) (hb : b ∈ xs) (hne : a ≠ b) :
    [a, b].Sublist xs ∨ [b, a].Sublist xs := by
  induction xs with
  | nil => cases ha
  | cons x xs ih =>
    rcases List.mem_cons.mp ha with rfl | ha'
    · rcases List.mem_cons.mp hb with rfl | hb'
      · exact absurd rfl hne
      · exact Or.inl ((List.singleton_sublist.mpr hb').cons_cons a)
    · rcases List.mem_cons.mp hb with rfl | hb'
      · exact Or.inr ((List.singleton_sublist.mpr ha').cons_cons b)
      · exact (ih ha' hb').imp (.cons x) (.cons x)

/-- Where no element occurs twice they stand in one order only. -/
theorem not_sublist_pair_swap {a b : α} (hnodup : xs.Nodup) (hab : [a, b].Sublist xs) : ¬ [b, a].Sublist xs := by
  induction xs with
  | nil => cases hab
  | cons x xs ih =>
    obtain ⟨hx, hnodup⟩ := List.nodup_cons.mp hnodup
    intro hba
    cases hab with
    | cons _ hab =>
      cases hba with
      | cons _ hba => exact ih hnodup hab hba
      | cons_cons _ _ => exact hx (hab.subset (by simp))
    | cons_cons _ hb =>
      cases hba with
      | cons _ hba => exact hx (hba.subset (by simp))
      | cons_cons _ _ => exact hx (List.singleton_sublist.mp hb)

/-- The sorted elements are ascending, and elements of which neither is less are in the
    order that the list had them in. -/
theorem stableSort_pairwise {R : α → α → Prop} (h : Orders less lt xs) (hnodup : xs.Nodup) (horder : xs.Pairwise R) :
    ∃ ys, stableSort less xs = .ok ys ∧ ys.Perm xs ∧ ys.Pairwise fun a b => ¬ lt b a ∧ (¬ lt a b → R a b) := by
  obtain ⟨ys, hsort, hperm, hascending, hstable⟩ := stableSort_spec h
  refine ⟨ys, hsort, hperm, List.pairwise_iff_forall_sublist.mpr fun {a b} hab => ?_⟩
  refine ⟨List.pairwise_iff_forall_sublist.mp hascending hab, fun hlt => ?_⟩
  have hnodup' : ys.Nodup := hperm.nodup_iff.mpr hnodup
  have hne : a ≠ b := List.pairwise_iff_forall_sublist.mp hnodup' hab
  have ha : a ∈ xs := hperm.mem_iff.mp (hab.subset (by simp))
  have hb : b ∈ xs := hperm.mem_iff.mp (hab.subset (by simp))
  rcases sublist_pair_or ha hb hne with hxs | hxs
  · exact List.pairwise_iff_forall_sublist.mp horder hxs
  · exact absurd (hstable b a hxs hlt) (not_sublist_pair_swap hnodup' hab)

end Laws

end StableSort
