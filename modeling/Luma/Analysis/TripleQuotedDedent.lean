-- SUMMARY: What the mask of a triple-quoted string keeps of its lines.
import Luma.Analysis.TripleQuotedLines

/-! # The mask of a triple-quoted string

The mask drops carriage returns before line feeds, a blank first and a blank last line, and
the common indentation of the others. Over the lines one after the other, this leaves the
dedented lines. The line feed of a blank first line is left, too, where a carriage return
is before it. -/

namespace Luma.TripleQuoted

open Codec

/-- What the stripped indentation leaves in the mask. -/
def unstripped (indent : Nat) (lines : List DedentLine) (j : Nat) : Bool :=
  lines.all fun line =>
    !(decide (line.lineBegin ≤ j) && decide (j < line.lineBegin + min indent line.indent))

/-- Where the last of some lines begins. -/
def lastBegin : Nat → List (List Symbol) → Nat
  | n, [] => n
  | n, [_] => n
  | n, line :: lines => lastBegin (n + (bytesOf line).length + 1) lines

section Masks

variable {keep : Nat → Bool} {indent n s : Nat} {line : List Symbol} {lines : List (List Symbol)} {text : List Symbol}

theorem foldl_fill {records : List DedentLine} {j : Nat} :
    records.foldl (fun keep line => fill keep line.lineBegin (line.lineBegin + min indent line.indent)) keep j =
      (keep j && unstripped indent records j) := by
  induction records generalizing keep with
  | nil => rw [List.foldl_nil, unstripped, List.all_nil, Bool.and_true]
  | cons line records ih => rw [List.foldl_cons, ih, fill, unstripped, unstripped, List.all_cons, Bool.and_assoc]

/-! ## One line -/

theorem keepSymbols_all (hkeep : ∀ j, n ≤ j → j < n + (bytesOf text).length → keep j = true) :
    keepSymbols keep n text = text := by
  induction text generalizing n with
  | nil => rfl
  | cons s text ih =>
    cases s with
    | interpolation => rw [keepSymbols, ih hkeep]
    | byte b =>
      rw [bytesOf_byte, List.length_cons] at hkeep
      rw [keepSymbols, if_pos (hkeep n (Nat.le_refl n) (by omega)), ih fun j hj hj' => hkeep j (by omega) (by omega)]

/-- A mask that keeps no byte of a text leaves its interpolations. -/
theorem keepSymbols_none (hkeep : ∀ j, n ≤ j → j < n + (bytesOf text).length → keep j = false) :
    keepSymbols keep n text = text.filter isInterpolation := by
  induction text generalizing n with
  | nil => rfl
  | cons s text ih =>
    cases s with
    | interpolation =>
      rw [keepSymbols, ih hkeep]
      rfl
    | byte b =>
      rw [bytesOf_byte, List.length_cons] at hkeep
      rw [keepSymbols, if_neg (by rw [hkeep n (Nat.le_refl n) (by omega)]; exact Bool.false_ne_true),
        ih fun j hj hj' => hkeep j (by omega) (by omega)]
      rfl

theorem filter_of_isBlank (hblank : isBlank line = true) : line.filter isInterpolation = [] := by
  rw [List.filter_eq_nil_iff]
  intro s hs
  have hindent := List.all_eq_true.mp hblank s hs
  cases s with
  | byte b => exact Bool.false_ne_true
  | interpolation => cases hindent

/-- A mask that leaves out the first bytes of an indentation. -/
theorem keepSymbols_indent (hs : s ≤ indentOf text)
    (hkeep : ∀ j, n ≤ j → j < n + (bytesOf text).length → keep j = !(decide (n ≤ j) && decide (j < n + s))) :
    keepSymbols keep n text = text.drop s := by
  induction s generalizing n text with
  | zero =>
    rw [List.drop_zero]
    refine keepSymbols_all fun j hj hj' => ?_
    rw [hkeep j hj hj', decide_eq_false (p := j < n + 0) (by omega), Bool.and_false, Bool.not_false]
  | succ s ih =>
    cases text with
    | nil => rw [List.drop_nil, keepSymbols]
    | cons c text =>
      cases c with
      | interpolation => exact absurd hs (Nat.not_succ_le_zero s)
      | byte b =>
        have hrest : s ≤ indentOf text := by
          rw [indentOf, List.takeWhile_cons] at hs
          split at hs
          · exact Nat.le_of_succ_le_succ hs
          · exact absurd hs (Nat.not_succ_le_zero s)
        rw [bytesOf_byte, List.length_cons] at hkeep
        have hfirst := hkeep n (Nat.le_refl n) (by omega)
        rw [decide_eq_true (Nat.le_refl n), decide_eq_true (by omega : n < n + (s + 1))] at hfirst
        rw [keepSymbols, hfirst, if_neg (by decide), List.drop_succ_cons]
        refine ih hrest fun j hj hj' => ?_
        rw [hkeep j (by omega) (by omega), decide_eq_true (by omega : n ≤ j), decide_eq_true hj]
        congr 3
        simp only [eq_iff_iff]
        omega

theorem indentOf_front {front back : List Symbol} : indentOf (front ++ cr :: back) = indentOf front := by
  induction front with
  | nil => rfl
  | cons c front ih =>
    rw [indentOf, indentOf, List.cons_append, List.takeWhile_cons, List.takeWhile_cons]
    split
    · exact congrArg (· + 1) ih
    · rfl

/-- A mask that leaves out the first bytes of an indentation, and the carriage return that
    is the last byte. -/
theorem keepSymbols_content (hs : s ≤ indentOf line)
    (hkeep : ∀ j, n ≤ j → j < n + (bytesOf line).length → keep j =
      (!((bytesOf line).getLast? == some carriageReturn && j == n + (bytesOf line).length - 1) &&
        !(decide (n ≤ j) && decide (j < n + s)))) :
    keepSymbols keep n line = (withoutReturn line).drop s := by
  rcases withoutReturn_cases line with ⟨front, back, rfl, hback, heq⟩ | ⟨hlast, heq⟩
  · have hbytes : bytesOf (front ++ cr :: back) = bytesOf front ++ [carriageReturn] := by
      rw [bytesOf_append, cr, bytesOf_byte, bytesOf_of_all hback]
    simp only [hbytes, List.getLast?_concat, beq_self_eq_true, Bool.true_and, List.length_append,
      List.length_singleton] at hkeep
    have hindent : s ≤ indentOf front := indentOf_front ▸ hs
    have hfront : s ≤ front.length := hindent.trans (List.takeWhile_sublist _).length_le
    have hkept : keepSymbols keep n front = front.drop s := by
      refine keepSymbols_indent hindent fun j hj hj' => ?_
      rw [hkeep j hj (by omega), beq_false_of_ne (by omega), Bool.not_false, Bool.true_and]
    have hreturn : keep (n + (bytesOf front).length) = false := by
      rw [hkeep _ (by omega) (by omega), beq_iff_eq.mpr (by omega), Bool.not_true, Bool.false_and]
    have hholes : keepSymbols keep (n + (bytesOf front).length + 1) back = back := by
      refine keepSymbols_all fun j hj hj' => ?_
      rw [bytesOf_of_all hback] at hj'
      exact absurd hj' (by simpa using hj)
    rw [heq, keepSymbols_append, cr, keepSymbols, if_neg (by rw [hreturn]; exact Bool.false_ne_true), hkept, hholes,
      List.drop_append_of_le_length hfront]
  · rw [heq]
    refine keepSymbols_indent hs fun j hj hj' => ?_
    rw [hkeep j hj hj', beq_false_of_ne hlast, Bool.false_and, Bool.not_false, Bool.true_and]

/-! ## All lines -/

theorem le_lastBegin : n ≤ lastBegin n lines := by
  induction lines generalizing n with
  | nil => exact Nat.le_refl n
  | cons line lines ih =>
    cases lines with
    | nil => exact Nat.le_refl n
    | cons line' lines => exact (Nat.le_add_right n _).trans ((Nat.le_succ _).trans ih)

theorem le_lineBegin {record : DedentLine} (h : record ∈ recordsOf n lines) : n ≤ record.lineBegin := by
  induction lines generalizing n with
  | nil => cases h
  | cons line lines ih =>
    cases lines with
    | nil =>
      obtain rfl := List.mem_singleton.mp h
      exact Nat.le_refl n
    | cons line' lines =>
      rcases List.mem_cons.mp h with rfl | h
      · exact Nat.le_refl n
      · exact (Nat.le_add_right n _).trans ((Nat.le_succ _).trans (ih h))

theorem recordsOf_ne_nil (hlines : lines ≠ []) : recordsOf n lines ≠ [] := by
  cases lines with
  | nil => exact absurd rfl hlines
  | cons line lines => cases lines <;> exact List.cons_ne_nil _ _

theorem indentOf_le_bytes : indentOf line ≤ (bytesOf line).length := by
  induction line with
  | nil => exact Nat.le_refl 0
  | cons s line ih =>
    rw [indentOf, List.takeWhile_cons]
    cases s with
    | interpolation => exact Nat.zero_le _
    | byte b =>
      split
      · rw [bytesOf_byte]
        exact Nat.succ_le_succ ih
      · exact Nat.zero_le _

theorem bytesOf_withoutReturn_le : (bytesOf (withoutReturn line)).length ≤ (bytesOf line).length := by
  rcases bytesOf_withoutReturn line with hreturn | ⟨-, heq⟩
  · rw [hreturn, List.length_append]
    exact Nat.le_add_right _ _
  · rw [heq]

theorem unstripped_of_lt {records : List DedentLine} {j : Nat} (h : ∀ record ∈ records, j < record.lineBegin) :
    unstripped indent records j = true := by
  rw [unstripped, List.all_eq_true]
  intro record hrecord
  have hlt := h record hrecord
  rw [decide_eq_false (by omega), Bool.false_and, Bool.not_false]

theorem noReturns_of_lt {j : Nat} (h : j < n) : noReturns n lines j = true := by
  induction lines generalizing n with
  | nil => rfl
  | cons line lines ih =>
    cases lines with
    | nil => rfl
    | cons line' lines =>
      rw [noReturns, ih (by omega), Bool.and_true]
      · cases hbytes : bytesOf line with
        | nil => rfl
        | cons b bytes =>
          rw [beq_false_of_ne (a := j) (by rw [List.length_cons]; omega), Bool.and_false, Bool.not_false]
      · simp

/-! ## The mask over the lines -/

/-- What the mask says of the bytes of some lines: no carriage return before a line feed, no
    indentation that is stripped, and, when the last line is dropped, nothing from the line
    feed before it on. -/
def maskOf (indent : Nat) (lastDropped : Bool) (n : Nat) (lines : List (List Symbol)) (j : Nat) : Bool :=
  noReturns n lines j &&
    unstripped indent (if lastDropped then (recordsOf n lines).dropLast else recordsOf n lines) j &&
    !(lastDropped && decide (lastBegin n lines - 1 ≤ j))

variable {line' : List Symbol} {lastDropped : Bool} {j : Nat}

/-- The records of the lines that are kept. -/
def keptRecords (lastDropped : Bool) (n : Nat) (lines : List (List Symbol)) : List DedentLine :=
  if lastDropped then (recordsOf n lines).dropLast else recordsOf n lines

theorem keptRecords_cons : keptRecords lastDropped n (line :: line' :: lines) =
    recordOf n (withoutReturn line) ::
      keptRecords lastDropped (n + (bytesOf line).length + 1) (line' :: lines) := by
  rw [keptRecords, keptRecords, recordsOf]
  · split
    · rw [List.dropLast_cons_of_ne_nil (recordsOf_ne_nil (List.cons_ne_nil _ _))]
    · rfl
  · simp

theorem le_lineBegin_kept {record : DedentLine} (h : record ∈ keptRecords lastDropped n lines) : n ≤ record.lineBegin := by
  rw [keptRecords] at h
  split at h
  · exact le_lineBegin (List.dropLast_subset _ h)
  · exact le_lineBegin h

theorem maskOf_cons : maskOf indent lastDropped n (line :: line' :: lines) j =
    (!((bytesOf line).getLast? == some carriageReturn && j == n + (bytesOf line).length - 1) &&
        noReturns (n + (bytesOf line).length + 1) (line' :: lines) j &&
      (!(decide (n ≤ j) && decide (j < n + min indent (indentOf (withoutReturn line)))) &&
        unstripped indent (keptRecords lastDropped (n + (bytesOf line).length + 1) (line' :: lines)) j) &&
      !(lastDropped && decide (lastBegin (n + (bytesOf line).length + 1) (line' :: lines) - 1 ≤ j))) := by
  rw [maskOf, ← keptRecords, keptRecords_cons, unstripped, List.all_cons, ← unstripped]
  rfl

/-- The mask in the first of several lines. -/
theorem maskOf_first (hj' : j < n + (bytesOf line).length) :
    maskOf indent lastDropped n (line :: line' :: lines) j =
      (!((bytesOf line).getLast? == some carriageReturn && j == n + (bytesOf line).length - 1) &&
        !(decide (n ≤ j) && decide (j < n + min indent (indentOf (withoutReturn line))))) := by
  have hlater : n + (bytesOf line).length + 1 ≤ lastBegin (n + (bytesOf line).length + 1) (line' :: lines) := le_lastBegin
  rw [maskOf_cons, noReturns_of_lt (by omega), Bool.and_true]
  rw [unstripped_of_lt fun record hrecord => Nat.lt_of_lt_of_le (by omega) (le_lineBegin_kept hrecord), Bool.and_true]
  rw [decide_eq_false (p := lastBegin _ _ - 1 ≤ j) (by omega), Bool.and_false, Bool.not_false, Bool.and_true]

/-- The line feed before the last line is that of the first of two. -/
theorem lastBegin_le : decide (lastBegin (n + 1) (line' :: lines) - 1 ≤ n) = lines.isEmpty := by
  cases lines with
  | nil => exact decide_eq_true (Nat.le_refl _)
  | cons line'' lines =>
    have hlater : n + 1 + (bytesOf line').length + 1 ≤ lastBegin (n + 1 + (bytesOf line').length + 1) (line'' :: lines) :=
      le_lastBegin
    rw [lastBegin, List.isEmpty_cons]
    · exact decide_eq_false (by omega)
    · simp

/-- The mask at the line feed after the first line. -/
theorem maskOf_lineFeed :
    maskOf indent lastDropped n (line :: line' :: lines) (n + (bytesOf line).length) =
      !(lastDropped && lines.isEmpty) := by
  have hcontent : indentOf (withoutReturn line) ≤ (bytesOf (withoutReturn line)).length := indentOf_le_bytes
  have hbytes : (bytesOf (withoutReturn line)).length ≤ (bytesOf line).length := bytesOf_withoutReturn_le
  rw [maskOf_cons, noReturns_of_lt (Nat.lt_succ_self _), Bool.and_true]
  rw [unstripped_of_lt fun record hrecord => Nat.lt_of_lt_of_le (Nat.lt_succ_self _) (le_lineBegin_kept hrecord),
    Bool.and_true]
  rw [decide_eq_false (p := _ < n + min _ _) (by omega), Bool.and_false, Bool.not_false, Bool.and_true]
  have hreturn : ((bytesOf line).getLast? == some carriageReturn &&
      n + (bytesOf line).length == n + (bytesOf line).length - 1) = false := by
    cases hline : bytesOf line with
    | nil => rfl
    | cons b bytes => rw [beq_false_of_ne (a := n + _) (by rw [List.length_cons]; omega), Bool.and_false]
  rw [hreturn, lastBegin_le, Bool.not_false, Bool.true_and]

/-- The mask behind the first line is that of the other lines. -/
theorem maskOf_rest (hj : n + (bytesOf line).length + 1 ≤ j) :
    maskOf indent lastDropped n (line :: line' :: lines) j =
      maskOf indent lastDropped (n + (bytesOf line).length + 1) (line' :: lines) j := by
  have hcontent : indentOf (withoutReturn line) ≤ (bytesOf (withoutReturn line)).length := indentOf_le_bytes
  have hbytes : (bytesOf (withoutReturn line)).length ≤ (bytesOf line).length := bytesOf_withoutReturn_le
  rw [maskOf_cons, beq_false_of_ne (a := j) (by omega), Bool.and_false, Bool.not_false, Bool.true_and]
  rw [decide_eq_false (p := _ < n + min _ _) (by omega), Bool.and_false, Bool.not_false, Bool.true_and, maskOf, keptRecords]

theorem contentsBy_ne_nil {strip : List Symbol → List Symbol} (hlines : lines ≠ []) : contentsBy strip lines ≠ [] := by
  cases lines with
  | nil => exact absurd rfl hlines
  | cons line lines => cases lines <;> exact List.cons_ne_nil _ _

/-- The contents of the lines that are kept. -/
def keptContents (lastDropped : Bool) (lines : List (List Symbol)) : List (List Symbol) :=
  if lastDropped then (contentsBy withoutReturn lines).dropLast else contentsBy withoutReturn lines

theorem keptContents_cons :
    keptContents lastDropped (line :: line' :: lines) = withoutReturn line :: keptContents lastDropped (line' :: lines) := by
  rw [keptContents, keptContents, contentsBy]
  · split
    · rw [List.dropLast_cons_of_ne_nil (contentsBy_ne_nil (List.cons_ne_nil _ _))]
    · rfl
  · simp

theorem keptContents_ne_nil (h : (lastDropped && lines.isEmpty) = false) : keptContents lastDropped (line :: lines) ≠ [] := by
  cases lines with
  | nil =>
    rw [List.isEmpty_nil, Bool.and_true] at h
    subst h
    exact List.cons_ne_nil _ _
  | cons line' lines =>
    rw [keptContents_cons]
    exact List.cons_ne_nil _ _

/-- The mask leaves the lines that are kept, without their indentation. -/
theorem keepSymbols_lines (hlines : lines ≠ [])
    (hlast : lastDropped = true → ∀ last ∈ lines.getLast?, isBlank last = true)
    (hkeep : ∀ j, n ≤ j → keep j = maskOf indent lastDropped n lines j) :
    keepSymbols keep n (joinLines lines) =
      joinLines ((keptContents lastDropped lines).map (stripIndent indent)) := by
  induction lines generalizing n with
  | nil => exact absurd rfl hlines
  | cons line lines ih =>
    cases lines with
    | nil =>
      rw [joinLines_singleton]
      cases lastDropped with
      | true =>
        have hnone : ∀ j, n ≤ j → j < n + (bytesOf line).length → keep j = false := by
          intro j hj _
          rw [hkeep j hj, maskOf, lastBegin, decide_eq_true (by omega)]
          simp
        rw [keepSymbols_none hnone, filter_of_isBlank (hlast rfl line rfl)]
        rfl
      | false =>
        refine (keepSymbols_indent (s := min indent (indentOf line)) (Nat.min_le_right _ _) ?_).trans ?_
        · intro j hj _
          rw [hkeep j hj, maskOf]
          simp [noReturns, unstripped, recordsOf, recordOf]
        · rw [keptContents, if_neg Bool.false_ne_true, contentsBy, List.map_singleton, joinLines_singleton, stripIndent]
    | cons line' lines =>
      have hfirst : keepSymbols keep n line = stripIndent indent (withoutReturn line) := by
        refine keepSymbols_content ((Nat.min_le_right _ _).trans indentOf_withoutReturn.le) fun j hj hj' => ?_
        rw [hkeep j hj, maskOf_first hj', indentOf_withoutReturn]
      have hrest := ih (List.cons_ne_nil _ _) (fun hdropped last hmem => hlast hdropped last (by simpa using hmem))
        (fun j hj => (hkeep j (by omega)).trans (maskOf_rest hj))
      have hlineFeed := (hkeep (n + (bytesOf line).length) (Nat.le_add_right _ _)).trans maskOf_lineFeed
      rw [joinLines_cons (List.cons_ne_nil _ _), keepSymbols_append, hfirst, lf, keepSymbols, hlineFeed, hrest,
        keptContents_cons, List.map_cons]
      cases hdropped : lastDropped && lines.isEmpty with
      | true =>
        obtain ⟨rfl, hempty⟩ := Bool.and_eq_true_iff.mp hdropped
        rw [List.isEmpty_iff] at hempty
        subst hempty
        simp [keptContents, contentsBy, joinLines]
      | false =>
        have hkept : (keptContents lastDropped (line' :: lines)).map (stripIndent indent) ≠ [] :=
          fun hnil => keptContents_ne_nil hdropped (List.map_eq_nil_iff.mp hnil)
        rw [joinLines_cons hkept, Bool.not_false, if_pos rfl, lf]

end Masks

end Luma.TripleQuoted
