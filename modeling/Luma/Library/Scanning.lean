-- SUMMARY: Scanning lists from the front: the first occurrence of a marker, and maximal runs.
import Mathlib.Data.List.TakeWhile
import Mathlib.Tactic.Common

/-! # Scanning

The primitives of hand-written scanners, on the rest of the input as a list. -/

namespace Scanning

variable {α : Type}

section Markers

variable [DecidableEq α] {marker before after s : List α} {c : α}

/-- What is before the first occurrence of a marker, and what is after it. -/
def splitAtMarker (marker : List α) : List α → Option (List α × List α)
  | [] => if marker = [] then some ([], []) else none
  | c :: s =>
    if marker.isPrefixOf (c :: s) then some ([], (c :: s).drop marker.length)
    else (splitAtMarker marker s).map fun p => (c :: p.1, p.2)

-- The equations of the definitions are derived here, once for all proofs.
section
attribute [local simp] splitAtMarker
end

/-- A marker at the front is found there. -/
theorem splitAtMarker_here : splitAtMarker marker (marker ++ after) = some ([], after) := by
  cases h : marker ++ after with
  | nil =>
    obtain ⟨rfl, rfl⟩ := List.append_eq_nil_iff.mp h
    rfl
  | cons c s =>
    have hmarker : marker.isPrefixOf (c :: s) = true := by
      rw [← h, List.isPrefixOf_iff_prefix]
      exact List.prefix_append _ _
    rw [splitAtMarker, if_pos hmarker, ← h, List.drop_left]

/-- An element that does not start the marker is passed over. -/
theorem splitAtMarker_cons (hmarker : marker.isPrefixOf (c :: s) = false) (h : splitAtMarker marker s = some (before, after)) :
    splitAtMarker marker (c :: s) = some (c :: before, after) := by
  rw [splitAtMarker, if_neg (by rw [hmarker]; exact Bool.false_ne_true), h]
  rfl

/-- The marker is where it was found. -/
theorem splitAtMarker_eq (h : splitAtMarker marker s = some (before, after)) : s = before ++ marker ++ after := by
  induction s generalizing before with
  | nil =>
    rw [splitAtMarker] at h
    split at h
    next hmarker =>
      cases h
      rw [hmarker]
      rfl
    · cases h
  | cons c s ih =>
    rw [splitAtMarker] at h
    split at h
    next hmarker =>
      cases h
      obtain ⟨t, ht⟩ := List.isPrefixOf_iff_prefix.mp hmarker
      rw [← ht, List.drop_left, List.nil_append]
    · obtain ⟨⟨b, a⟩, hp, heq⟩ := Option.map_eq_some_iff.mp h
      cases heq
      rw [ih hp]
      simp

/-- A marker is found in what it is part of. -/
theorem isSome_splitAtMarker : (splitAtMarker marker s).isSome = true ↔ marker <:+: s := by
  constructor
  · intro hfound
    obtain ⟨⟨before, after⟩, h⟩ := Option.isSome_iff_exists.mp hfound
    exact ⟨before, after, (splitAtMarker_eq h).symm⟩
  · intro hpart
    induction s with
    | nil =>
      rw [splitAtMarker, if_pos (List.infix_nil.mp hpart)]
      rfl
    | cons c s ih =>
      rw [splitAtMarker]
      split
      · rfl
      · next hnot =>
        rw [List.isPrefixOf_iff_prefix] at hnot
        rcases List.infix_cons_iff.mp hpart with hstart | hrest
        · exact absurd hstart hnot
        · rw [Option.isSome_map]
          exact ih hrest

/-- More input behind a marker changes nothing before it. -/
theorem splitAtMarker_append {t : List α} (h : splitAtMarker marker s = some (before, after)) :
    splitAtMarker marker (s ++ t) = some (before, after ++ t) := by
  induction s generalizing before with
  | nil =>
    rw [splitAtMarker] at h
    split at h
    next hmarker =>
      cases h
      subst hmarker
      exact splitAtMarker_here
    · cases h
  | cons c s ih =>
    rw [splitAtMarker] at h
    split at h
    next hmarker =>
      cases h
      obtain ⟨rest, hrest⟩ := List.isPrefixOf_iff_prefix.mp hmarker
      rw [← hrest, List.drop_left, List.append_assoc, splitAtMarker_here]
    next hmarker =>
      obtain ⟨p, hp, heq⟩ := Option.map_eq_some_iff.mp h
      cases heq
      have hlength : marker.length ≤ (c :: s).length := by
        rw [splitAtMarker_eq hp]
        simp only [List.length_cons, List.length_append]
        omega
      have hlater : ¬marker.isPrefixOf (c :: (s ++ t)) = true := by
        rw [List.isPrefixOf_iff_prefix] at hmarker ⊢
        exact fun hprefix => hmarker (List.prefix_of_prefix_length_le hprefix (List.prefix_append (c :: s) t) hlength)
      rw [List.cons_append, splitAtMarker, if_neg hlater, ih hp]
      rfl

/-- What occurs is found. -/
theorem splitAtMarker_isSome (h : marker <:+: s) : (splitAtMarker marker s).isSome = true := by
  induction s with
  | nil => 
    rw [List.infix_nil] at h
    rw [splitAtMarker, if_pos h]
    rfl
  | cons c s ih =>
    rw [splitAtMarker]
    split
    · rfl
    next hmarker =>
      rw [List.isPrefixOf_iff_prefix] at hmarker
      rcases List.infix_cons_iff.mp h with hprefix | hinfix
      · exact absurd hprefix hmarker
      · rw [Option.isSome_map]
        exact ih hinfix

/-- Nothing is before the first occurrence of a marker. -/
theorem splitAtMarker_first (h : splitAtMarker marker s = some (before, after)) {before' after' : List α}
    (hs : s = before' ++ marker ++ after') : before.length ≤ before'.length := by
  induction s generalizing before before' with
  | nil =>
    rw [splitAtMarker] at h
    split at h
    · cases h
      exact Nat.zero_le _
    · cases h
  | cons c s ih =>
    rw [splitAtMarker] at h
    split at h
    · cases h
      exact Nat.zero_le _
    next hmarker =>
      obtain ⟨p, hp, heq⟩ := Option.map_eq_some_iff.mp h
      cases heq
      cases before' with
      | nil =>
        rw [List.isPrefixOf_iff_prefix, hs] at hmarker
        exact absurd ⟨after', rfl⟩ hmarker
      | cons c' before' =>
        obtain ⟨-, hs⟩ := List.cons.inj hs
        exact Nat.succ_le_succ (ih hp hs)

/-- The marker does not occur before its first occurrence. -/
theorem splitAtMarker_free (hne : marker ≠ []) (h : splitAtMarker marker s = some (before, after)) : ¬ marker <:+: before := by
  rintro ⟨x, y, hbefore⟩
  have hs : s = x ++ marker ++ (y ++ marker ++ after) := by
    rw [splitAtMarker_eq h, ← hbefore]
    simp only [List.append_assoc]
  have hlength := splitAtMarker_first h hs
  have hpos := List.length_pos_iff.mpr hne
  rw [← hbefore, List.length_append, List.length_append] at hlength
  omega

/-! ## Cutting at the markers -/

/-- What is between the occurrences of a marker, of which at most `rounds` are looked for. -/
def cutAtMarkers (marker : List α) : (rounds : Nat) → List α → List (List α)
  | 0, s => [s]
  | rounds + 1, s =>
    match splitAtMarker marker s with
    | none => [s]
    | some (before, after) => before :: cutAtMarkers marker rounds after

section
attribute [local simp] cutAtMarkers
end

theorem cutAtMarkers_none {rounds : Nat} (h : splitAtMarker marker s = none) : cutAtMarkers marker rounds s = [s] := by
  cases rounds with
  | zero => rfl
  | succ rounds => rw [cutAtMarkers, h]

theorem cutAtMarkers_some {rounds : Nat} (h : splitAtMarker marker s = some (before, after)) :
    cutAtMarkers marker (rounds + 1) s = before :: cutAtMarkers marker rounds after := by
  rw [cutAtMarkers, h]

/-- The pieces with the marker between them are the whole. -/
theorem cutAtMarkers_eq (marker : List α) (rounds : Nat) (s : List α) :
    ∃ piece pieces, cutAtMarkers marker rounds s = piece :: pieces ∧ s = piece ++ pieces.flatMap (marker ++ ·) := by
  induction rounds generalizing s with
  | zero => exact ⟨s, [], rfl, by simp⟩
  | succ rounds ih =>
    cases h : splitAtMarker marker s with
    | none => exact ⟨s, [], cutAtMarkers_none h, by simp⟩
    | some found =>
      obtain ⟨before, after⟩ := found
      obtain ⟨piece, pieces, hcut, hafter⟩ := ih after
      refine ⟨before, piece :: pieces, by rw [cutAtMarkers_some h, hcut], ?_⟩
      rw [splitAtMarker_eq h, List.flatMap_cons, List.append_assoc, List.append_assoc, ← hafter]

theorem length_cutAtMarkers_le (marker : List α) (rounds : Nat) (s : List α) :
    (cutAtMarkers marker rounds s).length ≤ rounds + 1 := by
  induction rounds generalizing s with
  | zero => exact Nat.le_refl _
  | succ rounds ih =>
    cases h : splitAtMarker marker s with
    | none =>
      rw [cutAtMarkers_none h]
      exact Nat.succ_le_succ (Nat.zero_le _)
    | some found =>
      rw [cutAtMarkers_some h]
      exact Nat.succ_le_succ (ih _)

/-- What is behind a marker is shorter. -/
theorem splitAtMarker_shorter (hne : marker ≠ []) (h : splitAtMarker marker s = some (before, after)) :
    after.length < s.length := by
  have hpos := List.length_pos_iff.mpr hne
  rw [splitAtMarker_eq h, List.length_append, List.length_append]
  omega

/-- With as many rounds as there are elements every occurrence is cut out. -/
theorem cutAtMarkers_free (hne : marker ≠ []) {rounds : Nat} (hrounds : s.length ≤ rounds) :
    ∀ piece ∈ cutAtMarkers marker rounds s, ¬ marker <:+: piece := by
  induction rounds generalizing s with
  | zero =>
    intro piece hpiece hmarker
    rw [List.length_eq_zero_iff.mp (Nat.le_zero.mp hrounds), cutAtMarkers, List.mem_singleton] at hpiece
    rw [hpiece, List.infix_nil] at hmarker
    exact hne hmarker
  | succ rounds ih =>
    intro piece hpiece
    cases h : splitAtMarker marker s with
    | none =>
      rw [cutAtMarkers_none h, List.mem_singleton] at hpiece
      rw [hpiece]
      intro hmarker
      have hfound := splitAtMarker_isSome hmarker
      rw [h] at hfound
      exact absurd hfound Bool.false_ne_true
    | some found =>
      obtain ⟨before, after⟩ := found
      rw [cutAtMarkers_some h] at hpiece
      rcases List.mem_cons.mp hpiece with rfl | hpiece
      · exact splitAtMarker_free hne h
      · have hshort := splitAtMarker_shorter hne h
        exact ih (by omega) piece hpiece

end Markers

section Separators

variable [DecidableEq α] {c : α} {s before after : List α}

/-- What is before and after the first occurrence of a separator. -/
def splitFirst (c : α) (s : List α) : Option (List α × List α) :=
  if c ∈ s then some (s.takeWhile (· ≠ c), (s.dropWhile (· ≠ c)).tail) else none

/-- What is before and after the last occurrence of a separator. -/
def splitLast (c : α) (s : List α) : Option (List α × List α) :=
  (splitFirst c s.reverse).map fun p => (p.2.reverse, p.1.reverse)

theorem splitFirst_append (hfree : c ∉ before) : splitFirst c (before ++ c :: after) = some (before, after) := by
  have hall : ∀ d ∈ before, decide (d ≠ c) = true := fun d hd => decide_eq_true (ne_of_mem_of_not_mem hd hfree)
  rw [splitFirst, if_pos (List.mem_append_right _ List.mem_cons_self), List.takeWhile_append_of_pos hall,
    List.dropWhile_append_of_pos hall]
  simp

theorem splitFirst_of_notMem (hfree : c ∉ s) : splitFirst c s = none := if_neg hfree

theorem splitLast_append (hfree : c ∉ after) : splitLast c (before ++ c :: after) = some (before, after) := by
  have hreverse : (before ++ c :: after).reverse = after.reverse ++ c :: before.reverse := by simp
  rw [splitLast, hreverse, splitFirst_append (by rwa [List.mem_reverse]), Option.map_some, List.reverse_reverse,
    List.reverse_reverse]

theorem splitLast_of_notMem (hfree : c ∉ s) : splitLast c s = none := by
  rw [splitLast, splitFirst_of_notMem (by rwa [List.mem_reverse]), Option.map_none]

/-- There is one way to split a list at the first occurrence. -/
theorem splitFirst_unique {before' after' : List α} (h : before ++ c :: after = before' ++ c :: after') (hfree : c ∉ before)
    (hfree' : c ∉ before') : before = before' ∧ after = after' := by
  have hsplit : splitFirst c (before ++ c :: after) = some (before, after) := splitFirst_append hfree
  rw [h, splitFirst_append hfree'] at hsplit
  cases hsplit
  exact ⟨rfl, rfl⟩

theorem splitLast_unique {before' after' : List α} (h : before ++ c :: after = before' ++ c :: after') (hfree : c ∉ after)
    (hfree' : c ∉ after') : before = before' ∧ after = after' := by
  have hsplit : splitLast c (before ++ c :: after) = some (before, after) := splitLast_append hfree
  rw [h, splitLast_append hfree'] at hsplit
  cases hsplit
  exact ⟨rfl, rfl⟩

/-- A list has a first occurrence of a separator, or none. -/
theorem splitFirst_cases (c : α) (s : List α) :
    (∃ before after, s = before ++ c :: after ∧ c ∉ before ∧ splitFirst c s = some (before, after)) ∨
      c ∉ s ∧ splitFirst c s = none := by
  by_cases hc : c ∈ s
  · obtain ⟨before, after, rfl, hfree⟩ := List.eq_append_cons_of_mem hc
    exact Or.inl ⟨before, after, rfl, hfree, splitFirst_append hfree⟩
  · exact Or.inr ⟨hc, splitFirst_of_notMem hc⟩

theorem splitLast_cases (c : α) (s : List α) :
    (∃ before after, s = before ++ c :: after ∧ c ∉ after ∧ splitLast c s = some (before, after)) ∨
      c ∉ s ∧ splitLast c s = none := by
  rcases splitFirst_cases c s.reverse with ⟨before, after, hs, hfree, -⟩ | ⟨hc, -⟩
  · have hs' : s = after.reverse ++ c :: before.reverse := by
      rw [← List.reverse_reverse s, hs]
      simp
    have hfree' : c ∉ before.reverse := by rwa [List.mem_reverse]
    exact Or.inl ⟨_, _, hs', hfree', hs' ▸ splitLast_append hfree'⟩
  · rw [List.mem_reverse] at hc
    exact Or.inr ⟨hc, splitLast_of_notMem hc⟩

/-- The position of the first occurrence at or after a position. -/
def findFrom (c : α) (s : List α) (pos : Nat) : Option Nat :=
  (splitFirst c (s.drop pos)).map fun p => pos + p.1.length

theorem findFrom_of_drop {pos : Nat} (h : s.drop pos = before ++ c :: after) (hfree : c ∉ before) :
    findFrom c s pos = some (pos + before.length) := by
  rw [findFrom, h, splitFirst_append hfree]
  rfl

theorem findFrom_cases (c : α) (s : List α) (pos : Nat) :
    (∃ before after, s.drop pos = before ++ c :: after ∧ c ∉ before ∧ findFrom c s pos = some (pos + before.length)) ∨
      c ∉ s.drop pos ∧ findFrom c s pos = none := by
  rcases splitFirst_cases c (s.drop pos) with ⟨before, after, hdrop, hfree, -⟩ | ⟨hc, hnone⟩
  · exact Or.inl ⟨before, after, hdrop, hfree, findFrom_of_drop hdrop hfree⟩
  · refine Or.inr ⟨hc, ?_⟩
    rw [findFrom, hnone]
    rfl

/-- Searching again between a position and what was found there finds it again. -/
theorem findFrom_again {a b k : Nat} (h : findFrom c s a = some k) (hab : a ≤ b) (hbk : b ≤ k) :
    findFrom c s b = some k := by
  rcases findFrom_cases c s a with ⟨before, after, hdrop, hfree, hfound⟩ | ⟨-, hnone⟩
  · have hk : a + before.length = k := Option.some.inj (hfound.symm.trans h)
    have hlater : s.drop b = before.drop (b - a) ++ c :: after := by
      rw [← List.drop_append_of_le_length (by omega), ← hdrop, List.drop_drop]
      congr 1
      omega
    rw [findFrom_of_drop hlater fun hmem => hfree (List.mem_of_mem_drop hmem), List.length_drop]
    congr 1
    omega
  · exact absurd (hnone.symm.trans h) (by simp)

end Separators

section Runs

variable {p : α → Bool} {run rest : List α}

/-- A run and what stops it. -/
theorem takeWhile_run (hrun : ∀ c ∈ run, p c = true) (hstop : ∀ c ∈ rest.head?, p c = false) :
    (run ++ rest).takeWhile p = run := by
  rw [List.takeWhile_append_of_pos hrun]
  cases rest with
  | nil => simp
  | cons c rest => simp [hstop c rfl]

/-- A run ends in one place. -/
theorem run_unique {run' rest' : List α} (hrun : ∀ c ∈ run, p c = true) (hrun' : ∀ c ∈ run', p c = true)
    (hstop : ∀ c ∈ rest.head?, p c = false) (hstop' : ∀ c ∈ rest'.head?, p c = false) (h : run ++ rest = run' ++ rest') :
    run = run' ∧ rest = rest' := by
  have hsame : run = run' := by rw [← takeWhile_run hrun hstop, h, takeWhile_run hrun' hstop']
  subst hsame
  exact ⟨rfl, List.append_cancel_left h⟩

theorem dropWhile_run (hrun : ∀ c ∈ run, p c = true) (hstop : ∀ c ∈ rest.head?, p c = false) :
    (run ++ rest).dropWhile p = rest := by
  rw [List.dropWhile_append_of_pos hrun]
  cases rest with
  | nil => simp
  | cons c rest => simp [hstop c rfl]

end Runs

end Scanning
