-- SUMMARY: The least number of edits between two lists, by alignments.
import Mathlib.Order.Bounds.Basic
import Mathlib.Order.Lattice.Nat

/-! # Edit Distance

An edit inserts, deletes or substitutes one element. The distance of two lists is the least
number of edits that turn one into the other. A sequence of edits is put in order as an
alignment, which reads both lists from the front; the recurrences of the distance are read
off the alignments. -/

namespace EditDistance

variable {α : Type}

/-- One edit, at the front or later. -/
inductive Edit : List α → List α → Prop where
  | insert (x : α) (a : List α) : Edit a (x :: a)
  | delete (x : α) (a : List α) : Edit (x :: a) a
  | substitute (x y : α) (a : List α) : Edit (x :: a) (y :: a)
  | later (x : α) {a b : List α} (h : Edit a b) : Edit (x :: a) (x :: b)

/-- A number of edits, one after another. -/
inductive Edits : List α → List α → Nat → Prop where
  | refl (a : List α) : Edits a a 0
  | step {a b c : List α} {n : Nat} (h : Edit a b) (hrest : Edits b c n) : Edits a c (n + 1)

/-- The least number of edits between two lists. -/
noncomputable def editDistance (a b : List α) : Nat := sInf {n | Edits a b n}

/-- An alignment reads both lists from the front, and counts what it does not keep. -/
inductive Aligns : List α → List α → Nat → Prop where
  | nil : Aligns [] [] 0
  | keep (x : α) {a b : List α} {n : Nat} (h : Aligns a b n) : Aligns (x :: a) (x :: b) n
  | substitute (x y : α) {a b : List α} {n : Nat} (h : Aligns a b n) : Aligns (x :: a) (y :: b) (n + 1)
  | insert (y : α) {a b : List α} {n : Nat} (h : Aligns a b n) : Aligns a (y :: b) (n + 1)
  | delete (x : α) {a b : List α} {n : Nat} (h : Aligns a b n) : Aligns (x :: a) b (n + 1)

variable {a b c d : List α} {x y : α} {n m : Nat}

/-! ## Edits in order -/

theorem Edits.later (h : Edits a b n) : Edits (x :: a) (x :: b) n := by
  induction h with
  | refl a => exact .refl _
  | step h _ ih => exact .step (.later x h) ih

theorem Edits.trans (h : Edits a b n) (h' : Edits b c m) : Edits a c (n + m) := by
  induction h with
  | refl a => rwa [Nat.zero_add]
  | @step a b' b k h _ ih =>
    rw [Nat.add_right_comm]
    exact .step h (ih h')

theorem Edits.single (h : Edit a b) : Edits a b 1 := .step h (.refl b)

/-- The edits of an alignment. -/
theorem Aligns.edits (h : Aligns a b n) : Edits a b n := by
  induction h with
  | nil => exact .refl []
  | keep x _ ih => exact ih.later
  | @substitute x y a b n _ ih =>
    rw [Nat.add_comm]
    exact (Edits.single (.substitute x y a)).trans ih.later
  | @insert y a b n _ ih => exact ih.trans (.single (.insert y b))
  | @delete x a b n _ ih =>
    rw [Nat.add_comm]
    exact (Edits.single (.delete x a)).trans ih

theorem Aligns.refl : (a : List α) → Aligns a a 0
  | [] => .nil
  | x :: a => .keep x (refl a)

/-- The first element is deleted from an alignment at the cost of one more edit. -/
theorem Aligns.tail (h : Aligns (x :: a) c n) : ∃ m ≤ n + 1, Aligns a c m := by
  generalize hfirst : x :: a = first at h
  induction h with
  | nil => cases hfirst
  | keep x h =>
    cases hfirst
    exact ⟨_, Nat.le_refl _, .insert x h⟩
  | substitute x y h =>
    cases hfirst
    exact ⟨_, Nat.le_succ _, .insert y h⟩
  | insert y _ ih =>
    obtain ⟨m, hm, h⟩ := ih hfirst
    exact ⟨m + 1, Nat.succ_le_succ hm, .insert y h⟩
  | delete x h =>
    cases hfirst
    exact ⟨_, Nat.le_add_right _ 2, h⟩

/-- The first element is replaced in an alignment at the cost of one more edit. -/
theorem Aligns.replace (h : Aligns (y :: a) c n) : ∃ m ≤ n + 1, Aligns (x :: a) c m := by
  generalize hfirst : y :: a = first at h
  induction h with
  | nil => cases hfirst
  | keep y h =>
    cases hfirst
    exact ⟨_, Nat.le_refl _, .substitute x y h⟩
  | substitute y z h =>
    cases hfirst
    exact ⟨_, Nat.le_succ _, .substitute x z h⟩
  | insert z _ ih =>
    obtain ⟨m, hm, h⟩ := ih hfirst
    exact ⟨m + 1, Nat.succ_le_succ hm, .insert z h⟩
  | delete y h =>
    cases hfirst
    exact ⟨_, Nat.le_succ _, .delete x h⟩

/-- An edit before an alignment is one more edit of an alignment. -/
theorem Aligns.edit (hedit : Edit a b) (h : Aligns b c n) : ∃ m ≤ n + 1, Aligns a c m := by
  induction hedit generalizing c n with
  | insert x a => exact h.tail
  | delete x a => exact ⟨_, Nat.le_refl _, .delete x h⟩
  | substitute x y a => exact h.replace
  | @later x a b _ ih =>
    generalize hfirst : x :: b = first at h
    induction h with
    | nil => cases hfirst
    | keep y h =>
      cases hfirst
      obtain ⟨m, hm, h⟩ := ih h
      exact ⟨m, hm, .keep x h⟩
    | substitute y z h =>
      cases hfirst
      obtain ⟨m, hm, h⟩ := ih h
      exact ⟨m + 1, Nat.succ_le_succ hm, .substitute x z h⟩
    | insert z _ ih' =>
      obtain ⟨m, hm, h⟩ := ih' hfirst
      exact ⟨m + 1, Nat.succ_le_succ hm, .insert z h⟩
    | delete y h =>
      cases hfirst
      obtain ⟨m, hm, h⟩ := ih h
      exact ⟨m + 1, Nat.succ_le_succ hm, .delete x h⟩

theorem Edits.aligns (h : Edits a b n) : ∃ m ≤ n, Aligns a b m := by
  induction h with
  | refl a => exact ⟨0, Nat.le_refl _, .refl a⟩
  | step hedit _ ih =>
    obtain ⟨m, hm, h⟩ := ih
    obtain ⟨k, hk, h⟩ := h.edit hedit
    exact ⟨k, Nat.le_trans hk (Nat.succ_le_succ hm), h⟩

theorem Aligns.nil_left : (b : List α) → Aligns [] b b.length
  | [] => .nil
  | y :: b => .insert y (nil_left b)

theorem Aligns.nil_right : (a : List α) → Aligns a [] a.length
  | [] => .nil
  | x :: a => .delete x (nil_right a)

theorem Aligns.append (h : Aligns a b n) (h' : Aligns c d m) : Aligns (a ++ c) (b ++ d) (n + m) := by
  induction h with
  | nil => rwa [Nat.zero_add]
  | keep x _ ih => exact .keep x ih
  | substitute x y _ ih =>
    rw [Nat.add_right_comm]
    exact .substitute x y ih
  | insert y _ ih =>
    rw [Nat.add_right_comm]
    exact .insert y ih
  | delete x _ ih =>
    rw [Nat.add_right_comm]
    exact .delete x ih

theorem Aligns.reverse (h : Aligns a b n) : Aligns a.reverse b.reverse n := by
  induction h with
  | nil => exact .nil
  | keep x _ ih =>
    rw [List.reverse_cons, List.reverse_cons]
    exact ih.append (.keep x .nil)
  | substitute x y _ ih =>
    rw [List.reverse_cons, List.reverse_cons]
    exact ih.append (.substitute x y .nil)
  | @insert y a b n _ ih =>
    rw [List.reverse_cons, ← List.append_nil a.reverse]
    exact ih.append (.insert y .nil)
  | @delete x a b n _ ih =>
    rw [List.reverse_cons, ← List.append_nil b.reverse]
    exact ih.append (.delete x .nil)

/-- An alignment of a list in two parts aligns each part. -/
theorem Aligns.split {rest : List α} (h : Aligns (a ++ rest) b n) :
    ∃ b₁ b₂ n₁ n₂, b = b₁ ++ b₂ ∧ n = n₁ + n₂ ∧ Aligns a b₁ n₁ ∧ Aligns rest b₂ n₂ := by
  generalize hwhole : a ++ rest = whole at h
  induction h generalizing a with
  | nil =>
    obtain ⟨rfl, rfl⟩ := List.append_eq_nil_iff.mp hwhole
    exact ⟨[], [], 0, 0, rfl, rfl, .nil, .nil⟩
  | @keep x whole b n h ih =>
    cases a with
    | nil =>
      obtain rfl : rest = x :: whole := hwhole
      exact ⟨[], x :: b, 0, n, rfl, (Nat.zero_add n).symm, .nil, .keep x h⟩
    | cons z a =>
      cases hwhole
      obtain ⟨b₁, b₂, n₁, n₂, rfl, rfl, h₁, h₂⟩ := ih rfl
      exact ⟨x :: b₁, b₂, n₁, n₂, rfl, rfl, .keep x h₁, h₂⟩
  | @substitute x y whole b n h ih =>
    cases a with
    | nil =>
      obtain rfl : rest = x :: whole := hwhole
      exact ⟨[], y :: b, 0, n + 1, rfl, (Nat.zero_add _).symm, .nil, .substitute x y h⟩
    | cons z a =>
      cases hwhole
      obtain ⟨b₁, b₂, n₁, n₂, rfl, rfl, h₁, h₂⟩ := ih rfl
      exact ⟨y :: b₁, b₂, n₁ + 1, n₂, rfl, Nat.add_right_comm n₁ n₂ 1, .substitute x y h₁, h₂⟩
  | @insert y whole b n h ih =>
    obtain ⟨b₁, b₂, n₁, n₂, rfl, rfl, h₁, h₂⟩ := ih hwhole
    exact ⟨y :: b₁, b₂, n₁ + 1, n₂, rfl, Nat.add_right_comm n₁ n₂ 1, .insert y h₁, h₂⟩
  | @delete x whole b n h ih =>
    cases a with
    | nil =>
      obtain rfl : rest = x :: whole := hwhole
      exact ⟨[], b, 0, n + 1, rfl, (Nat.zero_add _).symm, .nil, .delete x h⟩
    | cons z a =>
      cases hwhole
      obtain ⟨b₁, b₂, n₁, n₂, rfl, rfl, h₁, h₂⟩ := ih rfl
      exact ⟨b₁, b₂, n₁ + 1, n₂, rfl, Nat.add_right_comm n₁ n₂ 1, .delete x h₁, h₂⟩

theorem Aligns.length_le (h : Aligns a b n) : a.length ≤ b.length + n ∧ b.length ≤ a.length + n := by
  induction h with
  | nil => exact ⟨Nat.le_refl _, Nat.le_refl _⟩
  | keep x _ ih | substitute x y _ ih | insert y _ ih | delete x _ ih =>
    simp only [List.length_cons]
    omega

/-! ## The distance -/

theorem aligns_editDistance (a b : List α) : Aligns a b (editDistance a b) := by
  have hsome : {n | Edits a b n}.Nonempty := by
    refine ⟨a.length + b.length, ?_⟩
    have h := (Aligns.nil_right a).append (Aligns.nil_left b)
    rw [List.append_nil, List.nil_append] at h
    exact h.edits
  obtain ⟨m, hm, h⟩ := Edits.aligns (Nat.sInf_mem hsome)
  have hleast : editDistance a b ≤ m := Nat.sInf_le h.edits
  rwa [Nat.le_antisymm hleast hm]

theorem editDistance_le (h : Aligns a b n) : editDistance a b ≤ n := Nat.sInf_le h.edits

theorem editDistance_nil_left : editDistance [] b = b.length := by
  refine Nat.le_antisymm (editDistance_le (.nil_left b)) ?_
  have hlength := (aligns_editDistance [] b).length_le.2
  rwa [List.length_nil, Nat.zero_add] at hlength

theorem editDistance_nil_right : editDistance a [] = a.length := by
  refine Nat.le_antisymm (editDistance_le (.nil_right a)) ?_
  have hlength := (aligns_editDistance a []).length_le.1
  rwa [List.length_nil, Nat.zero_add] at hlength

theorem editDistance_reverse : editDistance a.reverse b.reverse = editDistance a b := by
  refine Nat.le_antisymm (editDistance_le (aligns_editDistance a b).reverse) (editDistance_le ?_)
  have h := (aligns_editDistance a.reverse b.reverse).reverse
  rwa [List.reverse_reverse, List.reverse_reverse] at h

theorem editDistance_cons_cons [DecidableEq α] : editDistance (x :: a) (y :: b) =
    min (min (editDistance a (y :: b) + 1) (editDistance (x :: a) b + 1))
      (editDistance a b + if x = y then 0 else 1) := by
  refine Nat.le_antisymm (Nat.le_min.mpr ⟨Nat.le_min.mpr ⟨?_, ?_⟩, ?_⟩) ?_
  · exact editDistance_le (.delete x (aligns_editDistance a (y :: b)))
  · exact editDistance_le (.insert y (aligns_editDistance (x :: a) b))
  · refine editDistance_le ?_
    split
    · next heq => exact heq ▸ .keep x (aligns_editDistance a b)
    · exact .substitute x y (aligns_editDistance a b)
  · have h := aligns_editDistance (x :: a) (y :: b)
    generalize editDistance (x :: a) (y :: b) = n at h
    cases h with
    | keep _ h =>
      rw [if_pos rfl]
      exact Nat.le_trans (Nat.min_le_right _ _) (editDistance_le h)
    | substitute _ _ h =>
      refine Nat.le_trans (Nat.min_le_right _ _) (Nat.add_le_add (editDistance_le h) ?_)
      split <;> decide
    | insert _ h =>
      exact Nat.le_trans (Nat.min_le_left _ _) (Nat.le_trans (Nat.min_le_right _ _)
        (Nat.succ_le_succ (editDistance_le h)))
    | delete _ h =>
      exact Nat.le_trans (Nat.min_le_left _ _) (Nat.le_trans (Nat.min_le_left _ _)
        (Nat.succ_le_succ (editDistance_le h)))

/-- The recurrence at the ends of the lists. -/
theorem editDistance_concat_concat [DecidableEq α] : editDistance (a ++ [x]) (b ++ [y]) =
    min (min (editDistance a (b ++ [y]) + 1) (editDistance (a ++ [x]) b + 1))
      (editDistance a b + if x = y then 0 else 1) := by
  have h := editDistance_cons_cons (a := a.reverse) (b := b.reverse) (x := x) (y := y)
  rw [← List.reverse_concat, ← List.reverse_concat] at h
  simpa only [editDistance_reverse] using h

theorem length_sub_le_editDistance (a b : List α) :
    a.length ≤ b.length + editDistance a b ∧ b.length ≤ a.length + editDistance a b :=
  (aligns_editDistance a b).length_le

/-- Some prefix is as near to a part as the whole is to all of it. -/
theorem exists_prefix_le (a rest b : List α) :
    ∃ b₁ b₂, b = b₁ ++ b₂ ∧ editDistance a b₁ ≤ editDistance (a ++ rest) b := by
  obtain ⟨b₁, b₂, n₁, n₂, hb, hn, h, -⟩ := (aligns_editDistance (a ++ rest) b).split
  exact ⟨b₁, b₂, hb, Nat.le_trans (editDistance_le h) (hn ▸ Nat.le_add_right n₁ n₂)⟩

end EditDistance
