-- SUMMARY: Matching the elements of two lists, and checks over lists that may fail.
import Mathlib.Data.List.Forall2
import Mathlib.Data.List.Perm.Basic

/-! # Matching Lists

Two facts that order-independent comparison of collections rests on. A cover of
one list by another that no two elements share is a matching of the whole lists.
And a short-circuiting check over a list that never fails is the conjunction, or
the disjunction, of its element checks. -/

namespace Matching

variable {α β γ ε : Type}

/-- If every element of `as` has a partner in `bs`, no two elements share one, and
    `bs` is no longer than `as`, then `as` matches a rearrangement of `bs`. -/
theorem exists_perm_forall₂ {R : α → β → Prop} {as : List α} {bs : List β}
    (hcover : ∀ a ∈ as, ∃ b ∈ bs, R a b)
    (hinj : as.Pairwise fun a a' => ∀ b ∈ bs, R a b → ¬ R a' b)
    (hlen : bs.length ≤ as.length) :
    ∃ bs', bs'.Perm bs ∧ List.Forall₂ R as bs' := by
  induction as generalizing bs with
  | nil =>
    have hnil : bs = [] := List.length_eq_zero_iff.mp (Nat.le_zero.mp hlen)
    exact ⟨[], by rw [hnil], List.Forall₂.nil⟩
  | cons a as ih =>
    obtain ⟨b, hb, hab⟩ := hcover a List.mem_cons_self
    obtain ⟨front, back, rfl⟩ := List.append_of_mem hb
    rw [List.pairwise_cons] at hinj
    have hperm : (front ++ b :: back).Perm (b :: (front ++ back)) := List.perm_middle
    have hrest : ∀ x, x ∈ front ++ back → x ∈ front ++ b :: back := by
      intro x hx
      exact hperm.mem_iff.mpr (List.mem_cons_of_mem b hx)
    have hcover' : ∀ a' ∈ as, ∃ b' ∈ front ++ back, R a' b' := by
      intro a' ha'
      obtain ⟨b', hb', hab'⟩ := hcover a' (List.mem_cons_of_mem a ha')
      rcases List.mem_cons.mp (hperm.mem_iff.mp hb') with rfl | hmem
      · exact absurd hab' (hinj.1 a' ha' b' hb hab)
      · exact ⟨b', hmem, hab'⟩
    have hinj' : as.Pairwise fun a a' => ∀ b ∈ front ++ back, R a b → ¬ R a' b :=
      hinj.2.imp fun h b hb => h b (hrest b hb)
    have hlen' : (front ++ back).length ≤ as.length := by
      have hsize := hperm.length_eq
      simp only [List.length_cons] at hsize hlen
      omega
    obtain ⟨bs', hbs', hmatch⟩ := ih hcover' hinj' hlen'
    exact ⟨b :: bs', (hbs'.cons b).trans hperm.symm, List.Forall₂.cons hab hmatch⟩

/-- In a matching of whole lists every element of the second list is covered too. -/
theorem covered_of_perm_forall₂ {R : α → β → Prop} {as : List α} {bs bs' : List β}
    (hperm : bs'.Perm bs) (hmatch : List.Forall₂ R as bs') :
    ∀ b ∈ bs, ∃ a ∈ as, R a b := by
  intro b hb
  have hb' : b ∈ bs' := hperm.mem_iff.mpr hb
  clear hperm hb
  induction hmatch with
  | nil => exact absurd hb' List.not_mem_nil
  | cons hab _ ih =>
    rcases List.mem_cons.mp hb' with rfl | hmem
    · exact ⟨_, List.mem_cons_self, hab⟩
    · obtain ⟨a, ha, hr⟩ := ih hmem
      exact ⟨a, List.mem_cons_of_mem _ ha, hr⟩

/-- A list can be thinned to representatives: no two of them related, and every
    element related to one. -/
theorem exists_representatives {R : α → α → Prop} (xs : List α) (hrefl : ∀ x ∈ xs, R x x) :
    ∃ ys : List α, ys.Sublist xs ∧ (ys.Pairwise fun x y => ¬ R x y) ∧
      ∀ x ∈ xs, ∃ y ∈ ys, R x y := by
  induction xs with
  | nil => exact ⟨[], List.Sublist.slnil, List.Pairwise.nil, fun x hx => absurd hx List.not_mem_nil⟩
  | cons x xs ih =>
    obtain ⟨ys, hsub, hpair, hcover⟩ := ih fun y hy => hrefl y (List.mem_cons_of_mem x hy)
    by_cases hx : ∃ y ∈ ys, R x y
    · refine ⟨ys, hsub.cons x, hpair, ?_⟩
      exact List.forall_mem_cons.mpr ⟨hx, hcover⟩
    · refine ⟨x :: ys, hsub.cons_cons x, List.pairwise_cons.mpr ⟨?_, hpair⟩, ?_⟩
      · exact fun y hy hxy => hx ⟨y, hy, hxy⟩
      · refine List.forall_mem_cons.mpr ⟨⟨x, List.mem_cons_self, hrefl x List.mem_cons_self⟩, ?_⟩
        intro z hz
        obtain ⟨y, hy, hzy⟩ := hcover z hz
        exact ⟨y, List.mem_cons_of_mem x hy, hzy⟩

/-! ## Pointwise relations, with the membership of the elements at hand -/

theorem forall₂_refl {R : α → α → Prop} {as : List α} (hrefl : ∀ a ∈ as, R a a) :
    List.Forall₂ R as as := by
  induction as with
  | nil => exact List.Forall₂.nil
  | cons a as ih =>
    exact List.Forall₂.cons (hrefl a List.mem_cons_self)
      (ih fun a' ha' => hrefl a' (List.mem_cons_of_mem a ha'))

theorem forall₂_imp {R S : α → β → Prop} {as : List α} {bs : List β}
    (hmatch : List.Forall₂ R as bs) (himp : ∀ a ∈ as, ∀ b ∈ bs, R a b → S a b) :
    List.Forall₂ S as bs := by
  induction hmatch with
  | nil => exact List.Forall₂.nil
  | cons hab _ ih =>
    refine List.Forall₂.cons (himp _ List.mem_cons_self _ List.mem_cons_self hab) (ih ?_)
    exact fun a ha b hb => himp a (List.mem_cons_of_mem _ ha) b (List.mem_cons_of_mem _ hb)

theorem forall₂_trans {R : α → β → Prop} {S : β → γ → Prop} {T : α → γ → Prop} {as : List α}
    {bs : List β} {cs : List γ} (hab : List.Forall₂ R as bs) (hbc : List.Forall₂ S bs cs)
    (htrans : ∀ a ∈ as, ∀ b ∈ bs, ∀ c ∈ cs, R a b → S b c → T a c) :
    List.Forall₂ T as cs := by
  induction hab generalizing cs with
  | nil =>
    cases hbc
    exact List.Forall₂.nil
  | cons hr _ ih =>
    cases hbc with
    | cons hs hbc =>
      refine List.Forall₂.cons
        (htrans _ List.mem_cons_self _ List.mem_cons_self _ List.mem_cons_self hr hs) (ih hbc ?_)
      exact fun a ha b hb c hc => htrans a (List.mem_cons_of_mem _ ha) b
        (List.mem_cons_of_mem _ hb) c (List.mem_cons_of_mem _ hc)

/-- Related elements may be put in at the same place. -/
theorem forall₂_set {R : α → β → Prop} {as : List α} {bs : List β} {a : α} {b : β} {i : Nat}
    (hmatch : List.Forall₂ R as bs) (hab : R a b) : List.Forall₂ R (as.set i a) (bs.set i b) := by
  induction hmatch generalizing i with
  | nil => exact List.Forall₂.nil
  | cons hr hrest ih =>
    cases i with
    | zero => exact List.Forall₂.cons hab hrest
    | succ i => exact List.Forall₂.cons hr ih

theorem map_eq_of_forall₂ {R : α → β → Prop} {f : α → γ} {g : β → γ} {as : List α} {bs : List β}
    (hmatch : List.Forall₂ R as bs) (hfg : ∀ a ∈ as, ∀ b ∈ bs, R a b → f a = g b) :
    as.map f = bs.map g := by
  induction hmatch with
  | nil => rfl
  | cons hab _ ih =>
    rw [List.map_cons, List.map_cons, hfg _ List.mem_cons_self _ List.mem_cons_self hab,
      ih fun a ha b hb => hfg a (List.mem_cons_of_mem _ ha) b (List.mem_cons_of_mem _ hb)]

/-- A quantity that partners agree on has the same values over both lists, up to order. -/
theorem map_perm_of_forall₂ {R : α → β → Prop} {f : α → γ} {g : β → γ} {as : List α}
    {bs bs' : List β} (hperm : bs'.Perm bs) (hmatch : List.Forall₂ R as bs')
    (hfg : ∀ a ∈ as, ∀ b ∈ bs, R a b → f a = g b) :
    (as.map f).Perm (bs.map g) := by
  rw [map_eq_of_forall₂ hmatch fun a ha b hb => hfg a ha b (hperm.mem_iff.mp hb)]
  exact hperm.map g

/-! ## Checks that may fail -/

theorem allM_eq_true {p : α → Except ε Bool} {xs : List α} :
    xs.allM p = .ok true ↔ ∀ x ∈ xs, p x = .ok true := by
  induction xs with
  | nil => simp [pure, Except.pure]
  | cons x xs ih =>
    rw [List.forall_mem_cons, ← ih, List.allM_cons]
    cases hx : p x with
    | error e => simp [bind, Except.bind]
    | ok r => cases r <;> simp [bind, Except.bind, pure, Except.pure]

theorem allM_total {p : α → Except ε Bool} {xs : List α} (htotal : ∀ x ∈ xs, ∃ r, p x = .ok r) :
    ∃ r, xs.allM p = .ok r := by
  induction xs with
  | nil => exact ⟨true, rfl⟩
  | cons x xs ih =>
    obtain ⟨r, hr⟩ := htotal x List.mem_cons_self
    obtain ⟨rs, hrs⟩ := ih fun y hy => htotal y (List.mem_cons_of_mem x hy)
    rw [List.allM_cons, hr]
    cases r
    · exact ⟨false, rfl⟩
    · exact ⟨rs, hrs⟩

theorem anyM_total {p : α → Except ε Bool} {xs : List α} (htotal : ∀ x ∈ xs, ∃ r, p x = .ok r) :
    ∃ r, xs.anyM p = .ok r := by
  induction xs with
  | nil => exact ⟨false, rfl⟩
  | cons x xs ih =>
    obtain ⟨r, hr⟩ := htotal x List.mem_cons_self
    obtain ⟨rs, hrs⟩ := ih fun y hy => htotal y (List.mem_cons_of_mem x hy)
    rw [List.anyM_cons, hr]
    cases r
    · exact ⟨rs, hrs⟩
    · exact ⟨true, rfl⟩

theorem anyM_eq_true {p : α → Except ε Bool} {xs : List α}
    (htotal : ∀ x ∈ xs, ∃ r, p x = .ok r) :
    xs.anyM p = .ok true ↔ ∃ x ∈ xs, p x = .ok true := by
  induction xs with
  | nil => simp [pure, Except.pure]
  | cons x xs ih =>
    obtain ⟨r, hr⟩ := htotal x List.mem_cons_self
    have hxs := ih fun y hy => htotal y (List.mem_cons_of_mem x hy)
    rw [List.anyM_cons, List.exists_mem_cons_iff, ← hxs, hr]
    cases r <;> simp [bind, Except.bind, pure, Except.pure]

theorem exists_of_anyM {p : α → Except ε Bool} {xs : List α} (h : xs.anyM p = .ok true) :
    ∃ x ∈ xs, p x = .ok true := by
  induction xs with
  | nil => cases h
  | cons x xs ih =>
    rw [List.anyM_cons] at h
    cases hx : p x with
    | error e =>
      rw [hx] at h
      cases h
    | ok r =>
      rw [hx] at h
      cases r with
      | true => exact ⟨x, List.mem_cons_self, hx⟩
      | false =>
        obtain ⟨y, hy, hr⟩ := ih h
        exact ⟨y, List.mem_cons_of_mem x hy, hr⟩

theorem forall_of_anyM_false {p : α → Except ε Bool} {xs : List α} (h : xs.anyM p = .ok false) :
    ∀ x ∈ xs, p x = .ok false := by
  induction xs with
  | nil => exact fun x hx => absurd hx List.not_mem_nil
  | cons x xs ih =>
    rw [List.anyM_cons] at h
    cases hx : p x with
    | error e =>
      rw [hx] at h
      cases h
    | ok r =>
      rw [hx] at h
      cases r with
      | true => cases h
      | false => exact List.forall_mem_cons.mpr ⟨hx, ih h⟩

theorem exists_of_allM_false {p : α → Except ε Bool} {xs : List α} (h : xs.allM p = .ok false) :
    ∃ x ∈ xs, p x = .ok false := by
  induction xs with
  | nil => cases h
  | cons x xs ih =>
    rw [List.allM_cons] at h
    cases hx : p x with
    | error e =>
      rw [hx] at h
      cases h
    | ok r =>
      rw [hx] at h
      cases r with
      | false => exact ⟨x, List.mem_cons_self, hx⟩
      | true =>
        obtain ⟨y, hy, hr⟩ := ih h
        exact ⟨y, List.mem_cons_of_mem x hy, hr⟩

/-- An element check answered by another is answered by it over a whole list. -/
theorem allM_mono {p q : α → Except ε Bool} {xs : List α} {r : Bool}
    (himp : ∀ x ∈ xs, ∀ r, p x = .ok r → q x = .ok r) (hok : xs.allM p = .ok r) :
    xs.allM q = .ok r := by
  induction xs with
  | nil => exact hok
  | cons x xs ih =>
    rw [List.allM_cons] at hok ⊢
    cases hx : p x with
    | error e =>
      rw [hx] at hok
      cases hok
    | ok rx =>
      rw [himp x List.mem_cons_self rx hx]
      rw [hx] at hok
      cases rx
      · exact hok
      · exact ih (fun y hy => himp y (List.mem_cons_of_mem x hy)) hok

theorem anyM_mono {p q : α → Except ε Bool} {xs : List α} {r : Bool}
    (himp : ∀ x ∈ xs, ∀ r, p x = .ok r → q x = .ok r) (hok : xs.anyM p = .ok r) :
    xs.anyM q = .ok r := by
  induction xs with
  | nil => exact hok
  | cons x xs ih =>
    rw [List.anyM_cons] at hok ⊢
    cases hx : p x with
    | error e =>
      rw [hx] at hok
      cases hok
    | ok rx =>
      rw [himp x List.mem_cons_self rx hx]
      rw [hx] at hok
      cases rx
      · exact ih (fun y hy => himp y (List.mem_cons_of_mem x hy)) hok
      · exact hok

end Matching
