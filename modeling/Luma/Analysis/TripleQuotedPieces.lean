-- SUMMARY: The dedented pieces of a triple-quoted string as an operation on the lines of its text.
import Luma.Analysis.TripleQuotedDedent

/-! # The dedented pieces of a triple-quoted string

The pieces that are left are those of the dedented lines, but for one line feed: that of a
blank first line that ends in a carriage return stays, unless the last line goes with it. -/

namespace Luma.TripleQuoted

open Codec

/-- The first line is dropped and its line feed is not. -/
def keepsFirstBreak : List (List Symbol) → Bool
  | line :: line' :: lines => isBlank (withoutReturn line) && !isBlank line && !(lines.isEmpty && isBlank line')
  | _ => false

/-- The last of several lines is dropped. -/
def dropsLast (lines : List (List Symbol)) : Bool := decide (1 < lines.length) && lines.getLast?.any isBlank

section Records

variable {n indent : Nat} {line line' last : List Symbol} {lines : List (List Symbol)} {strip : List Symbol → List Symbol}

/-! ## Records and contents -/

theorem recordsOf_cons : recordsOf n (line :: line' :: lines) =
    recordOf n (withoutReturn line) :: recordsOf (n + (bytesOf line).length + 1) (line' :: lines) := rfl

theorem recordsOf_length : (recordsOf n lines).length = lines.length := by
  induction lines generalizing n with
  | nil => rfl
  | cons line lines ih =>
    cases lines with
    | nil => rfl
    | cons line' lines => rw [recordsOf_cons, List.length_cons, ih, List.length_cons (a := line)]

theorem recordsOf_getLast (hlast : lines.getLast? = some last) :
    (recordsOf n lines).getLast? = some (recordOf (lastBegin n lines) last) := by
  induction lines generalizing n with
  | nil => cases hlast
  | cons line lines ih =>
    cases lines with
    | nil =>
      cases hlast
      rfl
    | cons line' lines =>
      rw [List.getLast?_cons_cons] at hlast
      have hrest := ih (n := n + (bytesOf line).length + 1) hlast
      have hne := recordsOf_ne_nil (n := n + (bytesOf line).length + 1) (List.cons_ne_nil line' lines)
      rw [recordsOf_cons, List.getLast?_cons_of_ne_nil hne, hrest]
      rfl

theorem contentsBy_cons : contentsBy strip (line :: line' :: lines) = strip line :: contentsBy strip (line' :: lines) := rfl

theorem contentsBy_getLast : (contentsBy strip lines).getLast? = lines.getLast? := by
  induction lines with
  | nil => rfl
  | cons line lines ih =>
    cases lines with
    | nil => rfl
    | cons line' lines =>
      rw [contentsBy_cons, List.getLast?_cons_of_ne_nil (contentsBy_ne_nil (List.cons_ne_nil _ _)), ih,
        List.getLast?_cons_cons]

theorem contentsBy_length : (contentsBy strip lines).length = lines.length := by
  induction lines with
  | nil => rfl
  | cons line lines ih =>
    cases lines with
    | nil => rfl
    | cons line' lines => rw [contentsBy_cons, List.length_cons, ih, List.length_cons (a := line)]

/-- What a record says of a line's indentation is that of its contents. -/
theorem recordsOf_map : (recordsOf n lines).map (fun record => (record.isBlank, record.indent)) =
    (contentsBy withoutReturn lines).map fun content => (isBlank content, indentOf content) := by
  induction lines generalizing n with
  | nil => rfl
  | cons line lines ih =>
    cases lines with
    | nil => rfl
    | cons line' lines =>
      rw [recordsOf_cons, contentsBy_cons, List.map_cons, List.map_cons, ih]
      rfl

theorem keptRecords_map {lastDropped : Bool} :
    (keptRecords lastDropped n lines).map (fun record => (record.isBlank, record.indent)) =
      (keptContents lastDropped lines).map fun content => (isBlank content, indentOf content) := by
  rw [keptRecords, keptContents]
  split
  · rw [List.map_dropLast, recordsOf_map, List.map_dropLast]
  · exact recordsOf_map

/-- The least indentation of what is not blank, from what is said of the lines. -/
def leastIndent (described : List (Bool × Nat)) : Nat := (((described.filter (!·.1)).map (·.2)).min?).getD 0

theorem commonIndent_eq {records : List DedentLine} :
    commonIndent records = leastIndent (records.map fun record => (record.isBlank, record.indent)) := by
  rw [commonIndent, leastIndent, List.filter_map, List.map_map]
  rfl

theorem commonIndentOf_eq :
    commonIndentOf lines = leastIndent (lines.map fun content => (isBlank content, indentOf content)) := by
  rw [commonIndentOf, leastIndent, List.filter_map, List.map_map]
  rfl

theorem commonIndent_keptRecords {lastDropped : Bool} :
    commonIndent (keptRecords lastDropped n lines) = commonIndentOf (keptContents lastDropped lines) := by
  rw [commonIndent_eq, commonIndentOf_eq, keptRecords_map]

/-! ## The last line -/

theorem lastBlank_recordsOf :
    lastBlank (recordsOf n lines) =
      if dropsLast lines then lines.getLast?.map (recordOf (lastBegin n lines)) else none := by
  rw [lastBlank, recordsOf_length, dropsLast]
  by_cases hlength : 1 < lines.length
  · cases hlast : lines.getLast? with
    | none =>
      rw [List.getLast?_eq_none_iff.mp hlast] at hlength
      exact absurd hlength (Nat.not_lt_zero 1)
    | some last =>
      rw [if_pos hlength, recordsOf_getLast hlast, decide_eq_true hlength, Bool.true_and, Option.any_some,
        Option.map_some]
      have hrecord : (recordOf (lastBegin n lines) last).isBlank = isBlank last := rfl
      rw [Option.filter_some, hrecord]
  · rw [if_neg hlength, decide_eq_false hlength, Bool.false_and, if_neg Bool.false_ne_true]

theorem lastBlank_isSome : (lastBlank (recordsOf n lines)).isSome = dropsLast lines := by
  rw [lastBlank_recordsOf]
  cases hdropped : dropsLast lines with
  | false => rfl
  | true =>
    rw [if_pos rfl]
    cases hlast : lines.getLast? with
    | none => rw [dropsLast, hlast, Option.any_none, Bool.and_false] at hdropped; cases hdropped
    | some last => rfl

theorem isBlank_of_dropsLast (h : dropsLast lines = true) : ∀ last ∈ lines.getLast?, isBlank last = true := by
  rintro last hlast
  rw [dropsLast, Option.mem_def.mp hlast, Bool.and_eq_true] at h
  exact h.2

/-! ## The mask of all lines -/

variable {keep : Nat → Bool} {size : Nat}

/-- What the mask of several lines leaves when the first is not blank. -/
theorem dropAndStrip_first {records : List DedentLine} (hfirst : firstBlank records = none) (j : Nat) :
    dropAndStrip records size keep j =
      (keep j && !((lastBlank records).any fun last => decide (last.lineBegin - 1 ≤ j) && decide (j < size)) &&
        unstripped (commonIndent (keptLines records)) (keptLines records) j) := by
  rw [dropAndStrip, hfirst, foldl_fill]
  cases hlast : lastBlank records with
  | none => rw [Option.any_none, Bool.not_false, Bool.and_true]
  | some last =>
    rw [Option.any_some]
    rfl

/-- What it leaves when the first is blank. -/
theorem dropAndStrip_blank {records : List DedentLine} {line : DedentLine} (hfirst : firstBlank records = some line) (j : Nat) :
    dropAndStrip records size keep j =
      (!decide (j < min (line.lineEnd + 1) size) &&
        (keep j && !((lastBlank records).any fun last => decide (last.lineBegin - 1 ≤ j) && decide (j < size)) &&
          unstripped (commonIndent (keptLines records)) (keptLines records) j)) := by
  rw [dropAndStrip, hfirst, foldl_fill]
  have hfill : fill keep 0 (min (line.lineEnd + 1) size) j = (!decide (j < min (line.lineEnd + 1) size) && keep j) := by
    rw [fill, decide_eq_true (Nat.zero_le j), Bool.true_and, Bool.and_comm]
  cases hlast : lastBlank records with
  | none =>
    rw [Option.any_none, Bool.not_false, Bool.and_true, ← Bool.and_assoc]
    exact congrArg (· && _) hfill
  | some last =>
    rw [Option.any_some, ← Bool.and_assoc, ← Bool.and_assoc]
    exact congrArg (fun kept => kept && _ && _) hfill

theorem lastBlank_any (hdropped : dropsLast lines = true) {j : Nat} :
    ((lastBlank (recordsOf n lines)).any fun last => decide (last.lineBegin - 1 ≤ j) && decide (j < size)) =
      (decide (lastBegin n lines - 1 ≤ j) && decide (j < size)) := by
  rw [lastBlank_recordsOf, if_pos hdropped]
  cases hlast : lines.getLast? with
  | none =>
    rw [dropsLast, hlast, Option.any_none, Bool.and_false] at hdropped
    cases hdropped
  | some last => rfl

theorem lastBlank_none (hkept : dropsLast lines = false) : lastBlank (recordsOf n lines) = none := by
  rw [lastBlank_recordsOf, hkept, if_neg Bool.false_ne_true]

theorem lastBlank_any_eq {j : Nat} (hj : j < size) :
    ((lastBlank (recordsOf n lines)).any fun last => decide (last.lineBegin - 1 ≤ j) && decide (j < size)) =
      (dropsLast lines && decide (lastBegin n lines - 1 ≤ j)) := by
  cases hdropped : dropsLast lines with
  | true => rw [lastBlank_any hdropped, decide_eq_true hj, Bool.and_true, Bool.true_and]
  | false => rw [lastBlank_none hdropped, Option.any_none, Bool.false_and]

theorem firstBlank_recordsOf :
    firstBlank (recordsOf n (line :: line' :: lines)) =
      if isBlank (withoutReturn line) then some (recordOf n (withoutReturn line)) else none := by
  rw [firstBlank, recordsOf_cons, List.head?_cons, Option.filter_some]
  rfl

/-! ## The lines that are kept -/

theorem withoutBlankLast_eq :
    withoutBlankLast (contentsBy withoutReturn lines) = keptContents (lines.getLast?.any isBlank) lines := by
  rw [withoutBlankLast, keptContents, contentsBy_getLast]

/-- The lines after a first one are several with it. -/
theorem dropsLast_cons : dropsLast (line :: line' :: lines) = (line' :: lines).getLast?.any isBlank := by
  rw [dropsLast, List.getLast?_cons_cons, decide_eq_true (by simp), Bool.true_and]

theorem dedentBy_blank (hblank : isBlank (withoutReturn line) = true) :
    dedentBy withoutReturn (line :: line' :: lines) =
      joinLines ((keptContents (dropsLast (line :: line' :: lines)) (line' :: lines)).map
        (stripIndent (commonIndentOf (keptContents (dropsLast (line :: line' :: lines)) (line' :: lines))))) := by
  rw [dedentBy, contentsBy_cons, withoutBlankFirst, if_pos hblank, withoutBlankLast_eq, dropsLast_cons]

theorem dedentBy_first (hfirst : isBlank (withoutReturn line) = false) :
    dedentBy withoutReturn (line :: line' :: lines) =
      joinLines ((keptContents (dropsLast (line :: line' :: lines)) (line :: line' :: lines)).map
        (stripIndent (commonIndentOf (keptContents (dropsLast (line :: line' :: lines)) (line :: line' :: lines))))) := by
  have hkept : withoutBlankFirst (contentsBy withoutReturn (line :: line' :: lines)) =
      contentsBy withoutReturn (line :: line' :: lines) := by
    rw [contentsBy_cons, withoutBlankFirst, if_neg (by rw [hfirst]; exact Bool.false_ne_true)]
  rw [dedentBy, hkept, withoutBlankLast_eq, dropsLast_cons, List.getLast?_cons_cons]

/-! ## What the mask leaves -/

/-- A literal of one line. -/
theorem keepSymbols_single :
    keepSymbols (dropAndStrip (recordsOf 0 [line]) (bytesOf line).length (noReturns 0 [line])) 0 line =
      dedentBy withoutReturn [line] := by
  have hlast : lastBlank (recordsOf 0 [line]) = none := lastBlank_none rfl
  have hrecord : firstBlank (recordsOf 0 [line]) = if isBlank line then some (recordOf 0 line) else none := by
    rw [firstBlank, recordsOf, List.head?_cons, Option.filter_some]
    rfl
  cases hblank : isBlank line with
  | true =>
    have hnone : ∀ j, 0 ≤ j → j < 0 + (bytesOf line).length →
        dropAndStrip (recordsOf 0 [line]) (bytesOf line).length (noReturns 0 [line]) j = false := by
      intro j _ hj
      rw [hblank, if_pos rfl] at hrecord
      have hend : j < min ((recordOf 0 line).lineEnd + 1) (bytesOf line).length := by
        simp only [recordOf]
        omega
      rw [dropAndStrip_blank hrecord, decide_eq_true hend, Bool.not_true, Bool.false_and]
    have hspec : dedentBy withoutReturn [line] = [] := by
      rw [dedentBy, contentsBy, withoutBlankFirst, if_pos hblank]
      rfl
    rw [keepSymbols_none hnone, filter_of_isBlank hblank, hspec]
  | false =>
    rw [hblank, if_neg Bool.false_ne_true] at hrecord
    have hspec : dedentBy withoutReturn [line] = stripIndent (indentOf line) line := by
      have hcommon : commonIndentOf [line] = indentOf line := by simp [commonIndentOf, hblank]
      rw [dedentBy, contentsBy, withoutBlankFirst, if_neg (by rw [hblank]; exact Bool.false_ne_true), withoutBlankLast,
        List.getLast?_singleton, Option.any_some, if_neg (by rw [hblank]; exact Bool.false_ne_true), hcommon,
        List.map_singleton, joinLines_singleton]
    have hkept : keptLines (recordsOf 0 [line]) = [recordOf 0 line] := by
      rw [keptLines, hrecord, hlast]
      rfl
    have hcommon : commonIndent [recordOf 0 line] = indentOf line := by simp [commonIndent, recordOf, hblank]
    rw [hspec]
    refine keepSymbols_indent (Nat.min_le_right _ _) fun j _ _ => ?_
    rw [dropAndStrip_first hrecord, hlast, hkept, hcommon]
    simp [noReturns, unstripped, recordOf]

/-- Several lines, of which the first is not blank. -/
theorem keepSymbols_first (hfirst : isBlank (withoutReturn line) = false)
    (hsize : size = (bytesOf (joinLines (line :: line' :: lines))).length) :
    keepSymbols (dropAndStrip (recordsOf 0 (line :: line' :: lines)) size (noReturns 0 (line :: line' :: lines))) 0
        (joinLines (line :: line' :: lines)) = dedentBy withoutReturn (line :: line' :: lines) := by
  have hnone : firstBlank (recordsOf 0 (line :: line' :: lines)) = none := by
    rw [firstBlank_recordsOf, hfirst, if_neg Bool.false_ne_true]
  rw [dedentBy_first hfirst]
  generalize hlines : line :: line' :: lines = all at *
  have hkept : keptLines (recordsOf 0 all) = keptRecords (dropsLast all) 0 all := by
    rw [keptLines, hnone, lastBlank_isSome, keptRecords]
    rfl
  have hmask : ∀ j, 0 ≤ j → j < 0 + (bytesOf (joinLines all)).length →
      dropAndStrip (recordsOf 0 all) size (noReturns 0 all) j =
        maskOf (commonIndentOf (keptContents (dropsLast all) all)) (dropsLast all) 0 all j := by
    intro j _ hj
    rw [dropAndStrip_first hnone, lastBlank_any_eq (by omega), hkept, commonIndent_keptRecords, maskOf, ← keptRecords]
    rw [Bool.and_assoc, Bool.and_assoc, Bool.and_comm (!_)]
  rw [keepSymbols_congr hmask]
  refine keepSymbols_lines (by rw [← hlines]; exact List.cons_ne_nil _ _) (fun hdropped => ?_) fun j _ => rfl
  exact isBlank_of_dropsLast hdropped

theorem noReturns_cons {j : Nat} : noReturns n (line :: line' :: lines) j =
    (!((bytesOf line).getLast? == some carriageReturn && j == n + (bytesOf line).length - 1) &&
      noReturns (n + (bytesOf line).length + 1) (line' :: lines) j) := rfl

/-- The mask of several lines of which the first is blank. -/
theorem dropAndStrip_dropped (hblank : isBlank (withoutReturn line) = true) {j : Nat} (hj : j < size) :
    dropAndStrip (recordsOf 0 (line :: line' :: lines)) size (noReturns 0 (line :: line' :: lines)) j =
      (!decide (j < (bytesOf (withoutReturn line)).length + 1) &&
        (noReturns 0 (line :: line' :: lines) j &&
          !(dropsLast (line :: line' :: lines) && decide (lastBegin (0 + (bytesOf line).length + 1) (line' :: lines) - 1 ≤ j)) &&
          unstripped (commonIndentOf (keptContents (dropsLast (line :: line' :: lines)) (line' :: lines)))
            (keptRecords (dropsLast (line :: line' :: lines)) (0 + (bytesOf line).length + 1) (line' :: lines)) j)) := by
  have hfirst : firstBlank (recordsOf 0 (line :: line' :: lines)) = some (recordOf 0 (withoutReturn line)) := by
    rw [firstBlank_recordsOf, hblank, if_pos rfl]
  have hkept : keptLines (recordsOf 0 (line :: line' :: lines)) =
      keptRecords (dropsLast (line :: line' :: lines)) (0 + (bytesOf line).length + 1) (line' :: lines) := by
    rw [keptLines, hfirst, lastBlank_isSome, keptRecords]
    rfl
  have hend : decide (j < min ((recordOf 0 (withoutReturn line)).lineEnd + 1) size) =
      decide (j < (bytesOf (withoutReturn line)).length + 1) := by
    rw [recordOf, decide_eq_decide]
    simp only
    omega
  rw [dropAndStrip_blank hfirst, lastBlank_any_eq hj, hkept, commonIndent_keptRecords, hend]
  rfl

theorem filter_of_isBlank_withoutReturn (hblank : isBlank (withoutReturn line) = true) : line.filter isInterpolation = [] := by
  rw [List.filter_eq_nil_iff]
  rintro s hs hinterpolation
  cases s with
  | byte b => cases hinterpolation
  | interpolation =>
    rw [isBlank_of_mem (interpolation_mem_withoutReturn.mpr hs)] at hblank
    cases hblank

/-- Several lines, of which the first is blank. Its line feed is left where the mask ends
    at the carriage return before it. -/
theorem keepSymbols_blank (hblank : isBlank (withoutReturn line) = true)
    (hsize : size = (bytesOf (joinLines (line :: line' :: lines))).length) :
    keepSymbols (dropAndStrip (recordsOf 0 (line :: line' :: lines)) size (noReturns 0 (line :: line' :: lines))) 0
        (joinLines (line :: line' :: lines)) =
      (if keepsFirstBreak (line :: line' :: lines) then [lf] else []) ++ dedentBy withoutReturn (line :: line' :: lines) := by
  have hjoin : joinLines (line :: line' :: lines) = line ++ lf :: joinLines (line' :: lines) :=
    joinLines_cons (List.cons_ne_nil _ _)
  have hlength : size = (bytesOf line).length + ((bytesOf (joinLines (line' :: lines))).length + 1) := by
    rw [hsize, hjoin, bytesOf_append, lf, bytesOf_byte, List.length_append, List.length_cons]
  have hbytes : (bytesOf line).length ≤ (bytesOf (withoutReturn line)).length + 1 := by
    rcases bytesOf_withoutReturn line with hreturn | ⟨-, heq⟩
    · rw [hreturn, List.length_append, List.length_singleton]
    · rw [heq]
      exact Nat.le_succ _
  -- The first line is dropped.
  have hline : keepSymbols
      (dropAndStrip (recordsOf 0 (line :: line' :: lines)) size (noReturns 0 (line :: line' :: lines))) 0 line = [] := by
    rw [keepSymbols_none, filter_of_isBlank_withoutReturn hblank]
    intro j _ hj
    rw [dropAndStrip_dropped hblank (by omega), decide_eq_true (by omega), Bool.not_true, Bool.false_and]
  -- Its line feed is, unless a carriage return is before it.
  have hlineFeed :
      dropAndStrip (recordsOf 0 (line :: line' :: lines)) size (noReturns 0 (line :: line' :: lines)) (bytesOf line).length =
        keepsFirstBreak (line :: line' :: lines) := by
    rw [dropAndStrip_dropped hblank (by omega), keepsFirstBreak, hblank, Bool.true_and]
    rcases withoutReturn_cases line with ⟨front, back, hfront, hback, heq⟩ | ⟨-, heq⟩
    · have hcut : bytesOf line = bytesOf (withoutReturn line) ++ [carriageReturn] := by
        rw [heq, hfront, bytesOf_append, bytesOf_append, cr, bytesOf_byte, bytesOf_of_all hback, List.append_nil]
      have hfull : isBlank line = false := by
        rw [isBlank, List.all_eq_false]
        exact ⟨cr, by simp [hfront], by decide⟩
      have hpos : (bytesOf line).length = (bytesOf (withoutReturn line)).length + 1 := by
        rw [hcut, List.length_append, List.length_singleton]
      have hreturn : noReturns 0 (line :: line' :: lines) (bytesOf line).length = true := by
        rw [noReturns_cons, beq_false_of_ne (a := (bytesOf line).length) (by omega), Bool.and_false, Bool.not_false,
          Bool.true_and, noReturns_of_lt (by omega)]
      have hlater : ∀ record ∈ keptRecords (dropsLast (line :: line' :: lines)) (0 + (bytesOf line).length + 1) (line' :: lines),
          (bytesOf line).length < record.lineBegin := by
        intro record hrecord
        have hle := le_lineBegin_kept hrecord
        omega
      have hlast : (dropsLast (line :: line' :: lines) && lines.isEmpty) = (lines.isEmpty && isBlank line') := by
        cases lines with
        | nil => exact (Bool.and_true _).trans dropsLast_cons
        | cons line'' lines => exact Bool.and_false _
      rw [hreturn, unstripped_of_lt hlater, Nat.zero_add, lastBegin_le, hlast, hfull, decide_eq_false (by omega),
        Bool.not_false, Bool.true_and, Bool.true_and, Bool.and_true]
    · rw [heq] at hblank
      rw [heq, hblank, decide_eq_true (Nat.lt_succ_self _), Bool.not_true, Bool.false_and, Bool.false_and]
  -- The others are kept as lines of their own.
  have hrest : keepSymbols
      (dropAndStrip (recordsOf 0 (line :: line' :: lines)) size (noReturns 0 (line :: line' :: lines)))
        (0 + (bytesOf line).length + 1) (joinLines (line' :: lines)) =
      dedentBy withoutReturn (line :: line' :: lines) := by
    have hcontent : (bytesOf (withoutReturn line)).length ≤ (bytesOf line).length := bytesOf_withoutReturn_le
    rw [dedentBy_blank hblank]
    refine (keepSymbols_congr fun j hj hj' => ?_).trans
      (keepSymbols_lines (List.cons_ne_nil _ _) (fun hdropped last hlast => ?_) fun j _ => rfl)
    · rw [dropAndStrip_dropped hblank (by omega), decide_eq_false (by omega), Bool.not_false, Bool.true_and, noReturns_cons,
        beq_false_of_ne (a := j) (by omega), Bool.and_false, Bool.not_false, Bool.true_and, maskOf, ← keptRecords]
      rw [Bool.and_assoc, Bool.and_assoc, Bool.and_comm (!_)]
    · exact isBlank_of_dropsLast hdropped last (by simpa using hlast)
  rw [hjoin, keepSymbols_append, hline, List.nil_append, lf, keepSymbols, Nat.zero_add, hlineFeed]
  rw [Nat.zero_add] at hrest
  rw [hrest]
  split <;> rfl

/-- What the mask leaves of a literal. -/
theorem keepSymbols_dropAndStrip (hlines : lines ≠ []) :
    keepSymbols (dropAndStrip (recordsOf 0 lines) (bytesOf (joinLines lines)).length (noReturns 0 lines)) 0 (joinLines lines) =
      (if keepsFirstBreak lines then [lf] else []) ++ dedentBy withoutReturn lines := by
  cases lines with
  | nil => exact absurd rfl hlines
  | cons line lines =>
    cases lines with
    | nil =>
      rw [joinLines_singleton, keepSymbols_single]
      rfl
    | cons line' lines =>
      cases hfirst : isBlank (withoutReturn line) with
      | true => exact keepSymbols_blank hfirst rfl
      | false =>
        rw [keepsFirstBreak, hfirst, Bool.false_and, Bool.false_and, if_neg Bool.false_ne_true]
        exact keepSymbols_first hfirst rfl

/-- The dedented pieces of a literal are those of its dedented lines, and of the line feed
    that is left of a blank first line. -/
theorem dedentPieces_eq (piece : Bytes) (pieces : List Bytes) :
    dedentPieces (piece :: pieces) =
      piecesOf ((if keepsFirstBreak (linesOf (textOf (piece :: pieces))) then [lf] else []) ++
        dedentBy withoutReturn (linesOf (textOf (piece :: pieces)))) := by
  obtain ⟨hjoin, hfree⟩ : joinLines (linesOf (textOf (piece :: pieces))) = textOf (piece :: pieces) ∧
      ∀ line ∈ linesOf (textOf (piece :: pieces)), lf ∉ line := joinLines_linesOf
  have hcombined : (piece :: pieces).flatten = bytesOf (joinLines (linesOf (textOf (piece :: pieces)))) := by
    rw [hjoin, bytesOf_textOf]
  have hscan : dedentLines (piece :: pieces).flatten ((pieceStarts 0 (piece :: pieces)).drop 1).dropLast
      (fun _ => true) ([] : Bytes).length =
        (recordsOf ([] : Bytes).length (linesOf (textOf (piece :: pieces))),
          fun j => true && noReturns ([] : Bytes).length (linesOf (textOf (piece :: pieces))) j) := by
    refine dedentLines_eq linesOf_ne_nil hfree ?_ ?_ fun p hp => absurd hp List.not_mem_nil
    · exact hcombined
    · rw [hjoin]
      exact pieceStarts_inner
  have hmask : (fun j => true && noReturns 0 (linesOf (textOf (piece :: pieces))) j) =
      noReturns 0 (linesOf (textOf (piece :: pieces))) := funext fun j => Bool.true_and _
  rw [List.length_nil, hmask] at hscan
  have hkept : ∀ keep, ((pieceStarts 0 (piece :: pieces)).zip ((pieceStarts 0 (piece :: pieces)).drop 1)).map
        (fun range => keptBytes (piece :: pieces).flatten keep range.1 range.2) =
      piecesOf (keepSymbols keep 0 (textOf (piece :: pieces))) := fun keep =>
    map_keptBytes (List.nil_append (piece :: pieces).flatten).symm
  simp only [dedentPieces, hscan]
  rw [hkept]
  have hleft := keepSymbols_dropAndStrip (linesOf_ne_nil : linesOf (textOf (piece :: pieces)) ≠ [])
  rw [← hcombined, hjoin] at hleft
  exact congrArg piecesOf hleft

end Records

end Luma.TripleQuoted
