-- SUMMARY: Cutting a list into the pieces of a stepping function, and the offsets of the cuts.
import Mathlib.Tactic.Common

/-! # Segments

A stepping function says how long the piece at the front of a list is. Stepping through
a list cuts it into pieces, and the cuts lie at the offsets of the pieces. -/

namespace Segments

variable {α : Type}

/-- The front piece of a list that is not empty is not empty, and is part of the list. -/
structure Stepping (size : List α → Nat) : Prop where
  pos : ∀ {s}, s ≠ [] → 0 < size s
  le : ∀ s, size s ≤ s.length

/-- At most `rounds` pieces from the front of a list. -/
def cut (size : List α → Nat) : Nat → List α → List (List α)
  | 0, _ => []
  | _ + 1, [] => []
  | rounds + 1, a :: s => (a :: s).take (size (a :: s)) :: cut size rounds ((a :: s).drop (size (a :: s)))

/-- The pieces of a list: there are no more than it has elements. -/
def pieces (size : List α → Nat) (s : List α) : List (List α) := cut size s.length s

/-- Where piece `k` starts, or the list ends when it has fewer pieces. -/
def offset (size : List α → Nat) (s : List α) (k : Nat) : Nat := ((pieces size s).take k).flatten.length

section Pieces

variable {size : List α → Nat} {s : List α}

-- The equations of the definitions are derived here, once for all proofs.
section
attribute [local simp] cut
end

theorem Stepping.drop_length_lt (h : Stepping size) (hs : s ≠ []) : (s.drop (size s)).length < s.length := by
  have hpos := h.pos hs
  have hlength := List.length_pos_iff.mpr hs
  rw [List.length_drop]
  omega

/-- More rounds than elements cut off nothing more. -/
theorem Stepping.cut_eq (h : Stepping size) {rounds : Nat} (hrounds : s.length ≤ rounds) :
    cut size rounds s = pieces size s := by
  suffices hsame : ∀ rounds', s.length ≤ rounds' → cut size rounds s = cut size rounds' s from
    hsame _ (Nat.le_refl _)
  induction rounds generalizing s with
  | zero =>
    intro rounds' _
    rw [List.length_eq_zero_iff.mp (Nat.le_zero.mp hrounds)]
    cases rounds' <;> rfl
  | succ rounds ih =>
    intro rounds' hrounds'
    cases s with
    | nil => cases rounds' <;> rfl
    | cons a s =>
      have hshort := h.drop_length_lt (List.cons_ne_nil a s)
      cases rounds' with
      | zero => simp at hrounds'
      | succ rounds' =>
        rw [cut, cut]
        rw [List.length_cons] at hrounds hrounds' hshort
        rw [ih (by omega) rounds' (by omega)]

@[simp] theorem pieces_nil : pieces size ([] : List α) = [] := rfl

/-- The pieces of a list are the front piece and those of the rest. -/
theorem Stepping.pieces_eq (h : Stepping size) (hs : s ≠ []) :
    pieces size s = s.take (size s) :: pieces size (s.drop (size s)) := by
  have hshort := h.drop_length_lt hs
  cases s with
  | nil => exact absurd rfl hs
  | cons a s =>
    rw [pieces, List.length_cons, cut, h.cut_eq]
    rw [List.length_cons] at hshort
    omega

/-- Induction along the pieces of a list. -/
theorem Stepping.induction (h : Stepping size) {motive : List α → Prop} (nil : motive [])
    (piece : ∀ s, s ≠ [] → motive (s.drop (size s)) → motive s) (s : List α) : motive s := by
  by_cases hs : s = []
  · exact hs ▸ nil
  · exact piece s hs (h.induction nil piece (s.drop (size s)))
  termination_by s.length
  decreasing_by exact h.drop_length_lt hs

/-- The pieces make up the list. -/
theorem Stepping.flatten_pieces (h : Stepping size) (s : List α) : (pieces size s).flatten = s := by
  induction s using h.induction with
  | nil => rfl
  | piece s hs ih => rw [h.pieces_eq hs, List.flatten_cons, ih, List.take_append_drop]

theorem Stepping.piece_ne_nil (h : Stepping size) {piece : List α} (hpiece : piece ∈ pieces size s) :
    piece ≠ [] := by
  induction s using h.induction with
  | nil => cases hpiece
  | piece s hs ih =>
    rw [h.pieces_eq hs, List.mem_cons] at hpiece
    rcases hpiece with rfl | hrest
    · intro hnil
      rcases List.take_eq_nil_iff.mp hnil with hzero | hempty
      · exact absurd hzero (Nat.ne_of_gt (h.pos hs))
      · exact hs hempty
    · exact ih hrest

/-! ## Offsets -/

@[simp] theorem offset_zero : offset size s 0 = 0 := rfl

/-- The first piece starts nothing off, the others start behind it. -/
theorem Stepping.offset_succ_front (h : Stepping size) (hs : s ≠ []) (k : Nat) :
    offset size s (k + 1) = size s + offset size (s.drop (size s)) k := by
  rw [offset, h.pieces_eq hs, List.take_succ_cons, List.flatten_cons, List.length_append,
    List.length_take_of_le (h.le s)]
  rfl

theorem Stepping.offset_le (h : Stepping size) (k : Nat) : offset size s k ≤ s.length := by
  have hprefix : ((pieces size s).take k).flatten <+: s := by
    conv_rhs => rw [← h.flatten_pieces s, ← List.take_append_drop k (pieces size s)]
    rw [List.flatten_append]
    exact List.prefix_append _ _
  exact hprefix.length_le

/-- Past the last piece the list ends. -/
theorem Stepping.offset_end (h : Stepping size) {k : Nat} (hk : (pieces size s).length ≤ k) :
    offset size s k = s.length := by
  rw [offset, List.take_of_length_le hk, h.flatten_pieces]

/-- Behind a cut the pieces are those that are left. -/
theorem Stepping.pieces_drop (h : Stepping size) (k : Nat) :
    pieces size (s.drop (offset size s k)) = (pieces size s).drop k := by
  induction k generalizing s with
  | zero => rw [offset_zero, List.drop_zero, List.drop_zero]
  | succ k ih =>
    by_cases hs : s = []
    · rw [hs, List.drop_nil, pieces_nil, List.drop_nil]
    · rw [h.offset_succ_front hs, ← List.drop_drop, ih, h.pieces_eq hs, List.drop_succ_cons]

/-- From one cut to the next it is one piece. -/
theorem Stepping.offset_succ (h : Stepping size) {k : Nat} (hk : k < (pieces size s).length) :
    offset size s (k + 1) = offset size s k + size (s.drop (offset size s k)) := by
  induction k generalizing s with
  | zero =>
    have hs : s ≠ [] := by
      rintro rfl
      simp at hk
    rw [h.offset_succ_front hs, offset_zero, offset_zero, List.drop_zero, Nat.zero_add, Nat.add_zero]
  | succ k ih =>
    have hs : s ≠ [] := by
      rintro rfl
      simp at hk
    rw [h.pieces_eq hs, List.length_cons] at hk
    rw [h.offset_succ_front hs, ih (by omega), h.offset_succ_front hs, ← List.drop_drop, Nat.add_assoc]

/-- The cuts lie before the end of the list, but for the last one. -/
theorem Stepping.offset_lt (h : Stepping size) {k : Nat} (hk : k < (pieces size s).length) :
    offset size s k < s.length := by
  have hleft := h.pieces_drop (s := s) k
  by_contra hend
  rw [List.drop_eq_nil_of_le (Nat.not_lt.mp hend), pieces_nil] at hleft
  have hempty := List.drop_eq_nil_iff.mp hleft.symm
  omega

/-- The cuts are in order. -/
theorem Stepping.offset_strict (h : Stepping size) {j k : Nat} (hjk : j < k)
    (hk : k ≤ (pieces size s).length) : offset size s j < offset size s k := by
  induction hjk with
  | refl =>
    rw [h.offset_succ hk]
    have hlt := h.offset_lt hk
    have hpos := h.pos (s := s.drop (offset size s j)) (by rw [Ne, List.drop_eq_nil_iff]; omega)
    omega
  | @step k _ ih =>
    have hlt := ih (by omega)
    have hlt' := h.offset_lt (s := s) (k := k) (by omega)
    rw [h.offset_succ (by omega)]
    omega

theorem Stepping.length_pieces_le (h : Stepping size) (s : List α) : (pieces size s).length ≤ s.length := by
  induction s using h.induction with
  | nil => exact Nat.le_refl _
  | piece s hs ih =>
    have hshort := h.drop_length_lt hs
    rw [h.pieces_eq hs, List.length_cons]
    omega

end Pieces

/-! ## Stepping to a place -/

/-- A piece does not depend on what lies behind it. -/
def Local (size : List α → Nat) : Prop :=
  ∀ {x y : List α}, x ≠ [] → size (x ++ y) ≤ x.length → size x = size (x ++ y)

/-- From the front of `x ++ y`, `n` pieces lead to `y`. -/
inductive Reaches (size : List α → Nat) (y : List α) : List α → Nat → Prop where
  | here : Reaches size y [] 0
  | step {piece x : List α} {n : Nat} (hne : piece ≠ []) (hsize : size (piece ++ x ++ y) = piece.length)
    (h : Reaches size y x n) : Reaches size y (piece ++ x) (n + 1)

section Places

variable {size : List α → Nat} {x y piece : List α} {n : Nat}

/-- One piece further. -/
theorem Reaches.snoc (h : Reaches size (piece ++ y) x n) (hne : piece ≠ []) (hsize : size (piece ++ y) = piece.length) :
    Reaches size y (x ++ piece) (n + 1) := by
  induction h with
  | here =>
    rw [List.nil_append, ← List.append_nil piece]
    exact .step hne (by rw [List.append_nil, hsize]) .here
  | @step front x n hfront hsize' _ ih =>
    rw [List.append_assoc]
    refine .step hfront ?_ ih
    rw [← hsize']
    simp only [List.append_assoc]

/-- Where pieces are local they are the pieces of what they lead over. -/
theorem Reaches.length_pieces (h : Reaches size y x n) (hstepping : Stepping size) (hlocal : Local size) :
    (pieces size x).length = n := by
  induction h with
  | here => rfl
  | @step piece x n hne hsize _ ih =>
    have hx : piece ++ x ≠ [] := List.append_ne_nil_of_left_ne_nil hne x
    have hsame : size (piece ++ x) = piece.length := by
      rw [hlocal hx (y := y) (by rw [hsize, List.length_append]; omega), hsize]
    rw [hstepping.pieces_eq hx, hsame, List.drop_left, List.length_cons, ih]

end Places

end Segments
