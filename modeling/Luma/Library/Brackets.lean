-- SUMMARY: Splitting a bracketed text at its outermost separators, and the inverse of joining.
import Mathlib.Data.List.Basic
import Mathlib.Tactic.Common

/-! # Bracketed Texts

A text over any alphabet, some of whose letters open a bracket, close one or separate
two components. Splitting cuts at the separators outside every bracket. A component
is a text whose brackets match and whose separators all lie inside a bracket; cutting
a joined list of components gives the list back. -/

namespace Codec

variable {α : Type}

/-- Which letters open a bracket, close one, and separate components. -/
structure Delimiters (α : Type) where
  isOpen : α → Bool
  isClose : α → Bool
  isSeparator : α → Bool

namespace Delimiters

variable {D : Delimiters α}

/-! ## Splitting -/

/-- Cut a text at its separators of depth zero. `current` is the component being read. -/
def splitFrom (D : Delimiters α) (depth : Int) (current : List α) : List α → List (List α)
  | [] => [current]
  | c :: text =>
    if D.isOpen c then D.splitFrom (depth + 1) (current ++ [c]) text
    else if D.isClose c then D.splitFrom (depth - 1) (current ++ [c]) text
    else if D.isSeparator c && depth == 0 then current :: D.splitFrom depth [] text
    else D.splitFrom depth (current ++ [c]) text

/-- Cut a text at its outermost separators. -/
def split (D : Delimiters α) (text : List α) : List (List α) := D.splitFrom 0 [] text

/-! ## Components -/

/-- The depth after a text read from depth `d`. Closing below zero fails, and so does a
    separator at depth zero. -/
def scan (D : Delimiters α) (d : Nat) : List α → Option Nat
  | [] => some d
  | c :: text =>
    if D.isOpen c then D.scan (d + 1) text
    else if D.isClose c then
      match d with
      | 0 => none
      | d + 1 => D.scan d text
    else if D.isSeparator c && d == 0 then none
    else D.scan d text

/-- Every bracket is matched and every separator is inside one. -/
def Component (D : Delimiters α) (text : List α) : Prop := D.scan 0 text = some 0

/-- A letter that is no delimiter at all. -/
def IsPlain (D : Delimiters α) (c : α) : Prop :=
  D.isOpen c = false ∧ D.isClose c = false ∧ D.isSeparator c = false

instance {c : α} : Decidable (D.IsPlain c) :=
  inferInstanceAs (Decidable (_ ∧ _ ∧ _))

-- The equations of the definitions are derived here, once for all proofs.
section
attribute [local simp] splitFrom scan
end

theorem scan_append {d : Nat} {p q : List α} :
    D.scan d (p ++ q) = (D.scan d p).bind fun e => D.scan e q := by
  induction p generalizing d with
  | nil => rfl
  | cons c p ih =>
    simp only [List.cons_append, scan]
    split
    · exact ih
    · split
      · cases d with
        | zero => rfl
        | succ d => exact ih
      · split
        · rfl
        · exact ih

/-- A text that can be read from some depth can be read from a greater one. -/
theorem scan_add {d e k : Nat} {p : List α} (h : D.scan d p = some e) :
    D.scan (d + k) p = some (e + k) := by
  induction p generalizing d with
  | nil =>
    simp only [scan, Option.some.injEq] at h ⊢
    rw [h]
  | cons c p ih =>
    simp only [scan] at h ⊢
    split at h
    · rename_i hopen
      rw [if_pos hopen, Nat.add_right_comm]
      exact ih h
    · rename_i hopen
      rw [if_neg hopen]
      split at h
      · rename_i hclose
        rw [if_pos hclose]
        cases d with
        | zero => simp at h
        | succ d =>
          rw [Nat.add_right_comm]
          exact ih h
      · rename_i hclose
        rw [if_neg hclose]
        split at h
        · simp at h
        · rename_i hsep
          have hsep' : ¬ (D.isSeparator c && d + k == 0) = true := by
            intro hc
            apply hsep
            simp only [Bool.and_eq_true, beq_iff_eq] at hc ⊢
            exact ⟨hc.1, by omega⟩
          rw [if_neg hsep']
          exact ih h

theorem Component.scan {p : List α} (h : D.Component p) (d : Nat) : D.scan d p = some d := by
  have hadd : D.scan (0 + d) p = some (0 + d) := scan_add h
  simpa using hadd

theorem component_nil : D.Component [] := rfl

theorem Component.append {p q : List α} (hp : D.Component p) (hq : D.Component q) :
    D.Component (p ++ q) := by
  unfold Component
  rw [scan_append, hp]
  exact hq

theorem component_plain {p : List α} (h : ∀ c ∈ p, D.IsPlain c) : D.Component p := by
  induction p with
  | nil => exact component_nil
  | cons c p ih =>
    obtain ⟨hopen, hclose, hsep⟩ := h c List.mem_cons_self
    simp only [Component, Delimiters.scan, hopen, hclose, hsep, Bool.false_and,
      Bool.false_eq_true, if_false]
    exact ih fun c' hc' => h c' (List.mem_cons_of_mem c hc')

/-- Inside brackets any text will do that can be read from depth one. -/
theorem component_bracketed {o c : α} {p : List α} (ho : D.isOpen o = true)
    (hc : D.isOpen c = false) (hc' : D.isClose c = true) (hp : D.scan 1 p = some 1) :
    D.Component (o :: p ++ [c]) := by
  have hlast : D.scan 1 [c] = some 0 := by simp [Delimiters.scan, hc, hc']
  have hstep : D.scan 0 (o :: p ++ [c]) = D.scan 1 (p ++ [c]) := by
    simp [Delimiters.scan, ho]
  unfold Component
  rw [hstep, scan_append, hp]
  exact hlast

/-! ## Splitting what was joined -/

/-- Components put one after the other with a separator between two of them. -/
def join (sep : α) : List (List α) → List α
  | [] => []
  | [p] => p
  | p :: ps => p ++ sep :: join sep ps

section
attribute [local simp] join
end

theorem join_cons_cons {sep : α} {p q : List α} {ps : List (List α)} :
    join sep (p :: q :: ps) = p ++ sep :: join sep (q :: ps) := rfl

/-- Reading a text that stays within its brackets only extends the component. -/
theorem splitFrom_append {d e : Nat} {current p rest : List α} (h : D.scan d p = some e) :
    D.splitFrom d current (p ++ rest) = D.splitFrom e (current ++ p) rest := by
  induction p generalizing d current with
  | nil =>
    simp only [scan, Option.some.injEq] at h
    simp [h]
  | cons c p ih =>
    have hassoc : current ++ c :: p = current ++ [c] ++ p := by simp
    simp only [scan] at h
    rw [List.cons_append, splitFrom, hassoc]
    split at h
    · rename_i hopen
      rw [if_pos hopen, ← ih h]
      rfl
    · rename_i hopen
      rw [if_neg hopen]
      split at h
      · rename_i hclose
        rw [if_pos hclose]
        cases d with
        | zero => simp at h
        | succ d =>
          rw [← ih h]
          simp
      · rename_i hclose
        rw [if_neg hclose]
        split at h
        · simp at h
        · rename_i hsep
          have hsep' : ¬ (D.isSeparator c && (d : Int) == 0) = true := by
            intro hc
            apply hsep
            simp only [Bool.and_eq_true, beq_iff_eq] at hc ⊢
            exact ⟨hc.1, by omega⟩
          rw [if_neg hsep', ← ih h]

theorem Component.split {p : List α} (h : D.Component p) : D.split p = [p] := by
  have hread : D.splitFrom 0 [] (p ++ []) = D.splitFrom 0 ([] ++ p) [] := splitFrom_append h
  simpa [Delimiters.split, splitFrom] using hread

/-- A separator outside every bracket ends the component before it. -/
theorem splitFrom_separator {sep : α} (hopen : D.isOpen sep = false)
    (hclose : D.isClose sep = false) (hsep : D.isSeparator sep = true) {current rest : List α} :
    D.splitFrom 0 current (sep :: rest) = current :: D.splitFrom 0 [] rest := by
  simp [splitFrom, hopen, hclose, hsep]

/-- Splitting gives back the components that were joined. -/
theorem split_join {sep : α} (hopen : D.isOpen sep = false) (hclose : D.isClose sep = false)
    (hsep : D.isSeparator sep = true) {p : List α} {ps : List (List α)}
    (hps : ∀ q ∈ p :: ps, D.Component q) : D.split (join sep (p :: ps)) = p :: ps := by
  induction ps generalizing p with
  | nil => exact (hps p List.mem_cons_self).split
  | cons q ps ih =>
    have hp : D.Component p := hps p List.mem_cons_self
    have hrest := ih fun r hr => hps r (List.mem_cons_of_mem p hr)
    rw [join_cons_cons, Delimiters.split]
    have hread : D.splitFrom 0 [] (p ++ sep :: join sep (q :: ps)) =
        D.splitFrom 0 ([] ++ p) (sep :: join sep (q :: ps)) := splitFrom_append hp
    rw [hread, splitFrom_separator hopen hclose hsep]
    exact congrArg (p :: ·) hrest

/-- Joined components can be read inside a bracket. -/
theorem scan_join {sep : α} (hopen : D.isOpen sep = false) (hclose : D.isClose sep = false)
    {ps : List (List α)} (hps : ∀ q ∈ ps, D.Component q) (d : Nat) :
    D.scan (d + 1) (join sep ps) = some (d + 1) := by
  induction ps with
  | nil => rfl
  | cons p ps ih =>
    have hp := (hps p List.mem_cons_self).scan (d + 1)
    have hrest := ih fun q hq => hps q (List.mem_cons_of_mem p hq)
    cases ps with
    | nil => exact hp
    | cons q ps =>
      rw [join_cons_cons, scan_append, hp]
      simpa [Delimiters.scan, hopen, hclose] using hrest

end Delimiters

end Codec
