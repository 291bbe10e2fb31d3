-- SUMMARY: When a triple-quoted string loses its indentation, blank outer lines and nothing else.
import Mathlib.Algebra.BigOperators.Group.List.Basic
import Luma.Analysis.TripleQuotedPieces

/-! # What dedentation removes

A line break is a line feed, or a carriage return with a line feed directly after it. The
pieces of a literal are meant to lose a blank first and last line with their breaks and the
common indentation of the others. Measures of lines that indentation has no part in tell
when they lose something else. -/

namespace Luma.TripleQuoted

open Codec

/-- A line without the carriage return of its line break. -/
def withoutLastReturn (line : List Symbol) : List Symbol := if line.getLast? = some cr then line.dropLast else line

/-- The pieces of a literal without its common indentation, its blank first and last lines
    with their line breaks, and nothing else. -/
def dedented (pieces : List Bytes) : List Bytes := piecesOf (dedentBy withoutLastReturn (linesOf (textOf pieces)))

/-- Only interpolations are between a carriage return and the end of the line. -/
def ReturnBeforeInterpolations (line : List Symbol) : Prop :=
  ∃ front back, line = front ++ cr :: .interpolation :: back ∧ back.all isInterpolation = true

section Measures

variable {μ : List Symbol → Nat} {f g strip : List Symbol → List Symbol} {s : Symbol} {indent : Nat}
  {line line' front back text : List Symbol} {lines : List (List Symbol)} {pieces : List Bytes}

/-! ## Texts and their pieces -/

theorem piecesOf_ne_nil : piecesOf text ≠ [] := by
  cases text with
  | nil => exact List.cons_ne_nil _ _
  | cons s text =>
    cases s with
    | interpolation => exact List.cons_ne_nil _ _
    | byte b =>
      rw [piecesOf]
      cases piecesOf text <;> exact List.cons_ne_nil _ _

theorem textOf_consFirst {b : UInt8} (hpieces : pieces ≠ []) : textOf (consFirst b pieces) = .byte b :: textOf pieces := by
  cases pieces with
  | nil => exact absurd rfl hpieces
  | cons piece pieces => cases pieces <;> rfl

theorem textOf_piecesOf : textOf (piecesOf text) = text := by
  induction text with
  | nil => rfl
  | cons s text ih =>
    cases s with
    | byte b => rw [piecesOf, textOf_consFirst piecesOf_ne_nil, ih]
    | interpolation =>
      rw [piecesOf]
      cases hpieces : piecesOf text with
      | nil => exact absurd hpieces piecesOf_ne_nil
      | cons piece pieces =>
        rw [textOf_cons_cons, ← hpieces, ih]
        rfl

theorem piecesOf_inj {text' : List Symbol} (h : piecesOf text = piecesOf text') : text = text' := by
  rw [← @textOf_piecesOf text, h, textOf_piecesOf]

/-! ## Measures that indentation has no part in -/

/-- A measure of lines that counts no indentation. -/
structure SkipsIndent (μ : List Symbol → Nat) : Prop where
  nil : μ [] = 0
  cons : ∀ s line, isIndent s = true → μ (s :: line) = μ line

theorem SkipsIndent.blank (hμ : SkipsIndent μ) (hblank : isBlank line = true) : μ line = 0 := by
  induction line with
  | nil => exact hμ.nil
  | cons s line ih =>
    rw [isBlank, List.all_cons, Bool.and_eq_true] at hblank
    rw [hμ.cons s line hblank.1]
    exact ih hblank.2

theorem SkipsIndent.drop (hμ : SkipsIndent μ) {n : Nat} (hn : n ≤ indentOf line) : μ (line.drop n) = μ line := by
  induction n generalizing line with
  | zero => rfl
  | succ n ih =>
    cases line with
    | nil => rfl
    | cons s line =>
      rw [indentOf, List.takeWhile_cons] at hn
      split at hn
      next hs => rw [List.drop_succ_cons, hμ.cons s line hs, ih (Nat.le_of_succ_le_succ hn)]
      next => exact absurd hn (Nat.not_succ_le_zero n)

theorem SkipsIndent.stripped (hμ : SkipsIndent μ) : μ (stripIndent indent line) = μ line :=
  hμ.drop (Nat.min_le_right _ _)

theorem SkipsIndent.blankFirst (hμ : SkipsIndent μ) :
    ((withoutBlankFirst lines).map μ).sum = (lines.map μ).sum := by
  cases lines with
  | nil => rfl
  | cons line lines =>
    rw [withoutBlankFirst]
    split
    next hblank => rw [List.map_cons, List.sum_cons, hμ.blank hblank, Nat.zero_add]
    next => rfl

theorem SkipsIndent.blankLast (hμ : SkipsIndent μ) :
    ((withoutBlankLast lines).map μ).sum = (lines.map μ).sum := by
  rw [withoutBlankLast]
  split
  next hlast =>
    rcases List.eq_nil_or_concat lines with rfl | ⟨front, last, rfl⟩
    · rfl
    · rw [List.concat_eq_append, List.getLast?_concat, Option.any_some] at hlast
      rw [List.concat_eq_append, List.dropLast_concat, List.map_append, List.sum_append, List.map_singleton,
        List.sum_singleton, hμ.blank hlast, Nat.add_zero]
  next => rfl

/-- The lines that are dropped, and the indentation that is stripped, measure nothing. -/
theorem SkipsIndent.kept (hμ : SkipsIndent μ) :
    (((withoutBlankLast (withoutBlankFirst lines)).map (stripIndent indent)).map μ).sum = (lines.map μ).sum := by
  have hstrip : μ ∘ stripIndent indent = μ := funext fun line => hμ.stripped
  rw [List.map_map, hstrip, hμ.blankLast, hμ.blankFirst]

theorem sum_contentsBy_le (hle : ∀ line, μ (f line) ≤ μ (g line)) :
    ((contentsBy f lines).map μ).sum ≤ ((contentsBy g lines).map μ).sum := by
  induction lines with
  | nil => exact Nat.le_refl _
  | cons line lines ih =>
    cases lines with
    | nil => exact Nat.le_refl _
    | cons line' lines =>
      rw [contentsBy_cons, contentsBy_cons, List.map_cons, List.map_cons, List.sum_cons, List.sum_cons]
      exact Nat.add_le_add (hle line) ih

/-- Lines that measure the same altogether measure the same one by one. -/
theorem eq_of_sum_contentsBy (hle : ∀ line, μ (f line) ≤ μ (g line))
    (heq : ((contentsBy g lines).map μ).sum ≤ ((contentsBy f lines).map μ).sum) :
    ∀ line ∈ lines.dropLast, μ (f line) = μ (g line) := by
  induction lines with
  | nil =>
    rintro line hline
    cases hline
  | cons line lines ih =>
    cases lines with
    | nil =>
      rintro line hline
      cases hline
    | cons line' lines =>
      rw [contentsBy_cons, contentsBy_cons, List.map_cons, List.map_cons, List.sum_cons, List.sum_cons] at heq
      have hfirst := hle line
      have hrest : ((contentsBy f (line' :: lines)).map μ).sum ≤ ((contentsBy g (line' :: lines)).map μ).sum :=
        sum_contentsBy_le hle
      rw [List.dropLast_cons_of_ne_nil (List.cons_ne_nil _ _)]
      rintro other hother
      rcases List.mem_cons.mp hother with rfl | hother
      · omega
      · exact ih (by omega) other hother

theorem contentsBy_congr (h : ∀ line ∈ lines.dropLast, f line = g line) : contentsBy f lines = contentsBy g lines := by
  induction lines with
  | nil => rfl
  | cons line lines ih =>
    cases lines with
    | nil => rfl
    | cons line' lines =>
      rw [List.dropLast_cons_of_ne_nil (List.cons_ne_nil _ _)] at h
      rw [contentsBy_cons, contentsBy_cons, h line List.mem_cons_self,
        ih fun other hother => h other (List.mem_cons_of_mem line hother)]

/-! ## Carriage returns -/

theorem withoutReturn_append (hback : back.all isInterpolation = true) :
    withoutReturn (front ++ cr :: back) = front ++ back := by
  induction front with
  | nil => rw [List.nil_append, withoutReturn, if_pos ⟨rfl, hback⟩, List.nil_append]
  | cons s front ih =>
    have hmore : (front ++ cr :: back).all isInterpolation = false := by
      rw [List.all_eq_false]
      exact ⟨cr, by simp, by decide⟩
    rw [List.cons_append, withoutReturn, hmore, if_neg fun h => Bool.false_ne_true h.2, ih, List.cons_append]

theorem withoutLastReturn_of_return (h : ReturnBeforeInterpolations line) : withoutLastReturn line = line := by
  obtain ⟨front, back, rfl, hback⟩ := h
  have hlast : (front ++ cr :: .interpolation :: back).getLast? ≠ some cr := by
    rw [List.getLast?_append, List.getLast?_cons_cons]
    intro hlast
    rw [List.getLast?_cons, Option.some_or, Option.some.injEq] at hlast
    cases hend : back.getLast? with
    | none => rw [hend] at hlast; cases hlast
    | some s =>
      rw [hend, Option.getD_some] at hlast
      have hs := List.all_eq_true.mp hback s (List.mem_of_getLast? hend)
      rw [hlast] at hs
      cases hs
  rw [withoutLastReturn, if_neg hlast]

/-- The scan takes the carriage return of a line break, or one before interpolations. -/
theorem withoutReturn_eq (line : List Symbol) :
    withoutReturn line = withoutLastReturn line ∨
      ReturnBeforeInterpolations line ∧ (withoutReturn line).count cr + 1 = (withoutLastReturn line).count cr := by
  rcases withoutReturn_cases line with ⟨front, back, rfl, hback, heq⟩ | ⟨hlast, heq⟩
  · cases back with
    | nil =>
      refine Or.inl ?_
      rw [heq, withoutLastReturn, List.getLast?_concat, if_pos rfl, List.dropLast_concat, List.append_nil]
    | cons s back =>
      cases s with
      | byte b => cases hback
      | interpolation =>
        have hreturn : ReturnBeforeInterpolations (front ++ cr :: .interpolation :: back) := ⟨front, back, rfl, hback⟩
        refine Or.inr ⟨hreturn, ?_⟩
        rw [heq, withoutLastReturn_of_return hreturn, List.count_append, List.count_append, List.count_cons_self]
        omega
  · refine Or.inl ?_
    rw [heq, withoutLastReturn, if_neg]
    intro hcr
    obtain ⟨front, rfl⟩ := List.getLast?_eq_some_iff.mp hcr
    rw [bytesOf_append, cr, bytesOf_byte, bytesOf_nil, List.getLast?_concat] at hlast
    exact hlast rfl

theorem count_withoutReturn_le (line : List Symbol) : (withoutReturn line).count cr ≤ (withoutLastReturn line).count cr := by
  rcases withoutReturn_eq line with heq | ⟨-, heq⟩
  · rw [heq]
  · omega

theorem count_return : SkipsIndent (List.count cr) where
  nil := rfl
  cons s line hs := by
    rw [List.count_cons_of_ne]
    rintro rfl
    cases hs

theorem count_joinLines : (joinLines lines).count cr = (lines.map (List.count cr)).sum := by
  induction lines with
  | nil => rfl
  | cons line lines ih =>
    cases lines with
    | nil => rw [joinLines_singleton, List.map_singleton, List.sum_singleton]
    | cons line' lines =>
      rw [joinLines_cons (List.cons_ne_nil _ _), List.count_append, List.count_cons_of_ne (by decide), ih,
        List.map_cons (a := line), List.sum_cons]

theorem count_dedentBy : (dedentBy strip lines).count cr = ((contentsBy strip lines).map (List.count cr)).sum := by
  rw [dedentBy, count_joinLines, count_return.kept]

/-- A literal loses just what it should, unless the line feed of its first line is left, or
    a carriage return goes that is not before a line feed. -/
theorem dedentPieces_eq_dedented (piece : Bytes) (pieces : List Bytes) :
    dedentPieces (piece :: pieces) = dedented (piece :: pieces) ↔
      keepsFirstBreak (linesOf (textOf (piece :: pieces))) = false ∧
        ∀ line ∈ (linesOf (textOf (piece :: pieces))).dropLast, ¬ReturnBeforeInterpolations line := by
  rw [dedentPieces_eq, dedented]
  generalize linesOf (textOf (piece :: pieces)) = lines
  constructor
  · intro heq
    have htext := piecesOf_inj heq
    have hcount := congrArg (List.count cr) htext
    have hfeed : (if keepsFirstBreak lines then [lf] else []).count cr = 0 := by
      split <;> rfl
    rw [List.count_append, hfeed, Nat.zero_add, count_dedentBy, count_dedentBy] at hcount
    have hlines := eq_of_sum_contentsBy count_withoutReturn_le hcount.ge
    have hcontents : contentsBy withoutReturn lines = contentsBy withoutLastReturn lines := by
      refine contentsBy_congr fun line hline => ?_
      rcases withoutReturn_eq line with hsame | ⟨-, hmore⟩
      · exact hsame
      · have hequal := hlines line hline
        omega
    refine ⟨?_, fun line hline hreturn => ?_⟩
    · rw [dedentBy, dedentBy, hcontents] at htext
      have hlength := congrArg List.length htext
      cases hkept : keepsFirstBreak lines with
      | false => rfl
      | true =>
        rw [hkept, if_pos rfl, List.length_append, List.length_singleton] at hlength
        omega
    · have hequal := hlines line hline
      obtain ⟨front, back, rfl, hback⟩ := hreturn
      rw [withoutReturn_append (by simpa [isInterpolation] using hback),
        withoutLastReturn_of_return ⟨front, back, rfl, hback⟩, List.count_append, List.count_append,
        List.count_cons_self] at hequal
      omega
  · rintro ⟨hkept, hlines⟩
    have hcontents : contentsBy withoutReturn lines = contentsBy withoutLastReturn lines := by
      refine contentsBy_congr fun line hline => ?_
      rcases withoutReturn_eq line with hsame | ⟨hreturn, -⟩
      · exact hsame
      · exact absurd hreturn (hlines line hline)
    rw [hkept, if_neg Bool.false_ne_true, List.nil_append, dedentBy, dedentBy, hcontents]

end Measures

end Luma.TripleQuoted
