-- SUMMARY: Dedentation as an operation on lines, and that the mask of the pieces computes it.
import Mathlib.Data.List.Basic
import Mathlib.Tactic.Common
import Luma.Analysis.TripleQuoted

/-! # Lines of a triple-quoted string

A literal is one text of bytes in which an interpolation is a symbol of its own. What the
mask keeps of it is given line by line: a blank first line and a blank last line are
dropped, and the rest lose their common indentation. -/

namespace Luma.TripleQuoted

open Codec

/-! ## The text of a literal -/

inductive Symbol where
  | byte (b : UInt8)
  | interpolation
  deriving DecidableEq

/-- The pieces with an interpolation between any two of them. -/
def textOf : List Bytes → List Symbol
  | [] => []
  | [piece] => piece.map .byte
  | piece :: pieces => piece.map .byte ++ .interpolation :: textOf pieces

/-- A byte put before the first of some pieces. -/
def consFirst (b : UInt8) : List Bytes → List Bytes
  | [] => [[b]]
  | piece :: pieces => (b :: piece) :: pieces

def piecesOf : List Symbol → List Bytes
  | [] => [[]]
  | .byte b :: text => consFirst b (piecesOf text)
  | .interpolation :: text => [] :: piecesOf text

def bytesOf (text : List Symbol) : Bytes :=
  text.filterMap fun
    | .byte b => some b
    | .interpolation => none

/-- Where the interpolations of a text are, in bytes. -/
def offsetsOf : Nat → List Symbol → List Nat
  | _, [] => []
  | i, .byte _ :: text => offsetsOf (i + 1) text
  | i, .interpolation :: text => i :: offsetsOf i text

/-- What a mask keeps of a text whose first byte is the `i`-th. -/
def keepSymbols (keep : Nat → Bool) : Nat → List Symbol → List Symbol
  | _, [] => []
  | i, .byte b :: text => if keep i then .byte b :: keepSymbols keep (i + 1) text else keepSymbols keep (i + 1) text
  | i, .interpolation :: text => .interpolation :: keepSymbols keep i text

section Texts

variable {keep keep' : Nat → Bool} {i : Nat} {b : UInt8} {piece : Bytes} {pieces : List Bytes} {text text' : List Symbol}

-- The equations of the definitions are derived here, once for all proofs.
section
attribute [local simp] textOf consFirst piecesOf bytesOf offsetsOf keepSymbols
end

@[simp] theorem bytesOf_nil : bytesOf [] = [] := rfl
@[simp] theorem bytesOf_byte : bytesOf (.byte b :: text) = b :: bytesOf text := rfl
@[simp] theorem bytesOf_interpolation : bytesOf (.interpolation :: text) = bytesOf text := rfl

@[simp] theorem bytesOf_append : bytesOf (text ++ text') = bytesOf text ++ bytesOf text' := List.filterMap_append

@[simp] theorem bytesOf_map : bytesOf (piece.map .byte) = piece := by
  induction piece with
  | nil => rfl
  | cons b piece ih => rw [List.map_cons, bytesOf_byte, ih]

theorem textOf_cons_cons {piece' : Bytes} :
    textOf (piece :: piece' :: pieces) = piece.map .byte ++ .interpolation :: textOf (piece' :: pieces) := rfl

theorem bytesOf_textOf : bytesOf (textOf pieces) = pieces.flatten := by
  induction pieces with
  | nil => rfl
  | cons piece pieces ih =>
    cases pieces with
    | nil => simp [textOf]
    | cons piece' pieces =>
      rw [textOf_cons_cons, bytesOf_append, bytesOf_map, bytesOf_interpolation, ih]
      rfl

theorem offsetsOf_append :
    offsetsOf i (text ++ text') = offsetsOf i text ++ offsetsOf (i + (bytesOf text).length) text' := by
  induction text generalizing i with
  | nil => rfl
  | cons s text ih =>
    cases s with
    | byte b =>
      rw [List.cons_append, offsetsOf, offsetsOf, ih, bytesOf_byte, List.length_cons, Nat.add_assoc, Nat.add_comm 1]
    | interpolation => rw [List.cons_append, offsetsOf, offsetsOf, ih, bytesOf_interpolation, List.cons_append]

theorem offsetsOf_map : offsetsOf i (piece.map .byte) = [] := by
  induction piece generalizing i with
  | nil => rfl
  | cons b piece ih => rw [List.map_cons, offsetsOf, ih]

/-- The starts of the pieces after the first are where the interpolations are. -/
theorem pieceStarts_inner : ((pieceStarts i (piece :: pieces)).drop 1).dropLast = offsetsOf i (textOf (piece :: pieces)) := by
  induction pieces generalizing i piece with
  | nil => simp [pieceStarts, textOf, offsetsOf_map]
  | cons piece' pieces ih =>
    have hrest : ((pieceStarts (i + piece.length) (piece' :: pieces)).drop 1).dropLast =
        offsetsOf (i + piece.length) (textOf (piece' :: pieces)) := ih
    rw [textOf_cons_cons, offsetsOf_append, offsetsOf_map, bytesOf_map, List.nil_append, offsetsOf, ← hrest]
    cases pieces <;> rfl

theorem keepSymbols_append :
    keepSymbols keep i (text ++ text') = keepSymbols keep i text ++ keepSymbols keep (i + (bytesOf text).length) text' := by
  induction text generalizing i with
  | nil => rfl
  | cons s text ih =>
    cases s with
    | byte b =>
      rw [List.cons_append, keepSymbols, keepSymbols, ih, bytesOf_byte, List.length_cons, Nat.add_assoc, Nat.add_comm 1]
      split <;> rfl
    | interpolation => rw [List.cons_append, keepSymbols, keepSymbols, ih, bytesOf_interpolation, List.cons_append]

/-- Only what a mask says of the bytes of a text matters. -/
theorem keepSymbols_congr (h : ∀ j, i ≤ j → j < i + (bytesOf text).length → keep j = keep' j) :
    keepSymbols keep i text = keepSymbols keep' i text := by
  induction text generalizing i with
  | nil => rfl
  | cons s text ih =>
    cases s with
    | byte b =>
      rw [bytesOf_byte, List.length_cons] at h
      rw [keepSymbols, keepSymbols, h i (Nat.le_refl i) (by omega)]
      rw [ih fun j hj hj' => h j (by omega) (by omega)]
    | interpolation =>
      rw [keepSymbols, keepSymbols]
      rw [ih h]

/-- The kept bytes of a piece are what is kept of its symbols. -/
theorem keptBytes_eq (keep : Nat → Bool) {combined pre post : Bytes} (hcombined : combined = pre ++ (piece ++ post)) :
    (keptBytes combined keep pre.length (pre.length + piece.length)).map .byte =
      keepSymbols keep pre.length (piece.map .byte) := by
  rw [keptBytes, Nat.add_sub_cancel_left]
  induction piece generalizing pre with
  | nil => rfl
  | cons b piece ih =>
    have hget : combined[pre.length]? = some b := by
      rw [hcombined, List.getElem?_append_right (Nat.le_refl _), Nat.sub_self]
      rfl
    have hcombined' : combined = pre ++ [b] ++ (piece ++ post) := by
      rw [hcombined, List.append_assoc]
      rfl
    have hrest := ih hcombined'
    rw [List.length_append, List.length_singleton] at hrest
    rw [List.length_cons, List.range'_succ, List.flatMap_cons, List.map_append, hrest, hget, List.map_cons, keepSymbols]
    split <;> rfl

theorem piecesOf_map_append : piecesOf (piece.map .byte ++ .interpolation :: text) = piece :: piecesOf text := by
  induction piece with
  | nil => rfl
  | cons b piece ih => rw [List.map_cons, List.cons_append, piecesOf, ih, consFirst]

theorem piecesOf_map : piecesOf (piece.map .byte) = [piece] := by
  induction piece with
  | nil => rfl
  | cons b piece ih => rw [List.map_cons, piecesOf, ih, consFirst]

/-- The pieces that a mask leaves are those of what it leaves of the text. -/
theorem map_keptBytes {combined pre : Bytes} (hcombined : combined = pre ++ (piece :: pieces).flatten) :
    ((pieceStarts pre.length (piece :: pieces)).zip ((pieceStarts pre.length (piece :: pieces)).drop 1)).map
        (fun range => keptBytes combined keep range.1 range.2) =
      piecesOf (keepSymbols keep pre.length (textOf (piece :: pieces))) := by
  induction pieces generalizing pre piece with
  | nil =>
    rw [List.flatten_singleton] at hcombined
    have hkept := keptBytes_eq keep (hcombined.trans (congrArg (pre ++ ·) (List.append_nil piece).symm))
    rw [textOf, ← hkept, piecesOf_map]
    rfl
  | cons piece' pieces ih =>
    rw [List.flatten_cons] at hcombined
    have hkept := keptBytes_eq keep hcombined
    have hrest := ih (hcombined.trans (List.append_assoc pre piece _).symm)
    rw [List.length_append] at hrest
    rw [textOf_cons_cons, keepSymbols_append, bytesOf_map, keepSymbols, ← hkept, piecesOf_map_append, ← hrest]
    rfl

end Texts

/-! ## Dedentation by lines -/

def lf : Symbol := .byte lineFeed
def cr : Symbol := .byte carriageReturn

def isIndent : Symbol → Bool
  | .byte b => isSpaceOrTab b
  | .interpolation => false

def isInterpolation : Symbol → Bool
  | .byte _ => false
  | .interpolation => true

/-- The parts of a text between its line feeds. -/
def linesOf : List Symbol → List (List Symbol)
  | [] => [[]]
  | s :: text =>
    if s = lf then [] :: linesOf text
    else
      match linesOf text with
      | [] => [[s]]
      | line :: lines => (s :: line) :: lines

def joinLines (lines : List (List Symbol)) : List Symbol := List.intercalate [lf] lines

/-- A line without the carriage return that is its last byte. -/
def withoutReturn : List Symbol → List Symbol
  | [] => []
  | s :: line => if s = cr ∧ line.all isInterpolation = true then line else s :: withoutReturn line

/-- What the lines contain, where `strip` takes the rest of a line break off a line that has one. -/
def contentsBy (strip : List Symbol → List Symbol) : List (List Symbol) → List (List Symbol)
  | [] => []
  | [line] => [line]
  | line :: lines => strip line :: contentsBy strip lines

def isBlank (line : List Symbol) : Bool := line.all isIndent

def indentOf (line : List Symbol) : Nat := (line.takeWhile isIndent).length

def withoutBlankFirst : List (List Symbol) → List (List Symbol)
  | [] => []
  | line :: lines => if isBlank line then lines else line :: lines

def withoutBlankLast (lines : List (List Symbol)) : List (List Symbol) :=
  if lines.getLast?.any isBlank then lines.dropLast else lines

/-- The least indentation of the lines that are not blank. -/
def commonIndentOf (lines : List (List Symbol)) : Nat := (((lines.filter (!isBlank ·)).map indentOf).min?).getD 0

def stripIndent (commonIndent : Nat) (line : List Symbol) : List Symbol := line.drop (min commonIndent (indentOf line))

/-- The lines of a literal that are kept, without their common indentation. -/
def dedentBy (strip : List Symbol → List Symbol) (lines : List (List Symbol)) : List Symbol :=
  let kept := withoutBlankLast (withoutBlankFirst (contentsBy strip lines))
  joinLines (kept.map (stripIndent (commonIndentOf kept)))

section Lines

variable {keep : Nat → Bool} {i : Nat} {b : UInt8} {line : List Symbol} {lines : List (List Symbol)} {text : List Symbol}

section
attribute [local simp] isIndent isInterpolation linesOf withoutReturn contentsBy withoutBlankFirst
end

@[simp] theorem joinLines_singleton : joinLines [line] = line := by
  simp [joinLines, List.intercalate]

theorem joinLines_cons (hlines : lines ≠ []) : joinLines (line :: lines) = line ++ lf :: joinLines lines := by
  cases lines with
  | nil => exact absurd rfl hlines
  | cons line' lines => simp [joinLines, List.intercalate, List.intersperse]

theorem linesOf_ne_nil : linesOf text ≠ [] := by
  cases text with
  | nil => simp [linesOf]
  | cons s text =>
    rw [linesOf]
    split
    · simp
    · split <;> simp

/-- A text is its lines joined, and no line has a line feed. -/
theorem joinLines_linesOf : joinLines (linesOf text) = text ∧ ∀ line ∈ linesOf text, lf ∉ line := by
  induction text with
  | nil => exact ⟨rfl, by simp [linesOf]⟩
  | cons s text ih =>
    obtain ⟨hjoin, hfree⟩ := ih
    rw [linesOf]
    split
    next hs =>
      refine ⟨?_, ?_⟩
      · rw [joinLines_cons linesOf_ne_nil, hjoin, hs]
        rfl
      · rintro line hline
        rcases List.mem_cons.mp hline with rfl | hline
        · exact List.not_mem_nil
        · exact hfree line hline
    next hs =>
      split
      next hnone => exact absurd hnone linesOf_ne_nil
      next line lines hlines =>
        rw [hlines] at hjoin hfree
        refine ⟨?_, ?_⟩
        · cases lines with
          | nil => rw [joinLines_singleton] at hjoin ⊢; rw [hjoin]
          | cons line' lines =>
            rw [joinLines_cons (List.cons_ne_nil _ _)] at hjoin ⊢
            rw [List.cons_append, hjoin]
        · rintro line' hline'
          rcases List.mem_cons.mp hline' with rfl | hmem
          · intro hlf
            rcases List.mem_cons.mp hlf with heq | hlf
            · exact hs heq.symm
            · exact hfree line List.mem_cons_self hlf
          · exact hfree line' (List.mem_cons_of_mem line hmem)

theorem all_isInterpolation_of_bytesOf (h : bytesOf line = []) : line.all isInterpolation = true := by
  induction line with
  | nil => rfl
  | cons s line ih =>
    cases s with
    | byte b => cases h
    | interpolation => exact ih h

/-- The carriage return that is the last byte of a line, if there is one. -/
theorem withoutReturn_cases (line : List Symbol) :
    (∃ front back, line = front ++ cr :: back ∧ back.all isInterpolation = true ∧ withoutReturn line = front ++ back) ∨
      (bytesOf line).getLast? ≠ some carriageReturn ∧ withoutReturn line = line := by
  induction line with
  | nil => exact Or.inr ⟨by simp, rfl⟩
  | cons s line ih =>
    rw [withoutReturn]
    split
    next hs =>
      obtain ⟨rfl, hholes⟩ := hs
      exact Or.inl ⟨[], line, rfl, hholes, rfl⟩
    next hs =>
      rcases ih with ⟨front, back, rfl, hholes, heq⟩ | ⟨hlast, heq⟩
      · exact Or.inl ⟨s :: front, back, rfl, hholes, by rw [heq]; rfl⟩
      · refine Or.inr ⟨?_, by rw [heq]⟩
        cases s with
        | interpolation => exact hlast
        | byte b =>
          rw [bytesOf_byte]
          cases hbytes : bytesOf line with
          | nil =>
            intro hb
            rw [List.getLast?_singleton] at hb
            exact hs ⟨congrArg Symbol.byte (Option.some.inj hb), all_isInterpolation_of_bytesOf hbytes⟩
          | cons b' bytes =>
            rw [List.getLast?_cons_cons, ← hbytes]
            exact hlast

theorem takeWhile_withoutReturn : (withoutReturn line).takeWhile isIndent = line.takeWhile isIndent := by
  induction line with
  | nil => rfl
  | cons s line ih =>
    rw [withoutReturn]
    split
    next hs =>
      obtain ⟨rfl, hholes⟩ := hs
      cases line with
      | nil => rfl
      | cons s line =>
        cases s with
        | byte b => cases hholes
        | interpolation => rfl
    next hs => rw [List.takeWhile_cons, List.takeWhile_cons, ih]

theorem bytesOf_of_all (h : line.all isInterpolation = true) : bytesOf line = [] := by
  induction line with
  | nil => rfl
  | cons s line ih =>
    cases s with
    | byte b => cases h
    | interpolation => exact ih h

/-- The bytes that are left are those before a carriage return, or all of them. -/
theorem bytesOf_withoutReturn (line : List Symbol) :
    bytesOf line = bytesOf (withoutReturn line) ++ [carriageReturn] ∨
      (bytesOf line).getLast? ≠ some carriageReturn ∧ withoutReturn line = line := by
  rcases withoutReturn_cases line with ⟨front, back, rfl, hback, heq⟩ | hnone
  · refine Or.inl ?_
    rw [heq, bytesOf_append, bytesOf_append, cr, bytesOf_byte, bytesOf_of_all hback, List.append_nil]
  · exact Or.inr hnone

/-- What is before the first interpolation of a line, if there is one. -/
theorem line_cases (line : List Symbol) :
    (∃ bytes back, line = List.map .byte bytes ++ .interpolation :: back) ∨ line = (bytesOf line).map .byte := by
  induction line with
  | nil => exact Or.inr rfl
  | cons s line ih =>
    cases s with
    | interpolation => exact Or.inl ⟨[], line, rfl⟩
    | byte b =>
      rcases ih with ⟨bytes, back, rfl⟩ | hline
      · exact Or.inl ⟨b :: bytes, back, rfl⟩
      · refine Or.inr ?_
        rw [bytesOf_byte, List.map_cons, ← hline]

theorem indentOf_withoutReturn : indentOf (withoutReturn line) = indentOf line := by
  rw [indentOf, takeWhile_withoutReturn, indentOf]

theorem interpolation_mem_withoutReturn : .interpolation ∈ withoutReturn line ↔ .interpolation ∈ line := by
  rcases withoutReturn_cases line with ⟨front, back, rfl, -, heq⟩ | ⟨-, heq⟩
  · rw [heq]
    simp [cr]
  · rw [heq]

theorem isBlank_of_mem (h : .interpolation ∈ line) : isBlank line = false := by
  rw [isBlank, List.all_eq_false]
  exact ⟨.interpolation, h, by simp [isIndent]⟩

theorem eq_map_of_not_mem (h : .interpolation ∉ line) : line = (bytesOf line).map .byte := by
  rcases line_cases line with ⟨bytes, back, hline⟩ | hline
  · exact absurd (by simp [hline]) h
  · exact hline

theorem indentOf_map_append {bytes : Bytes} {back : List Symbol} :
    indentOf (bytes.map .byte ++ .interpolation :: back) = (bytes.takeWhile isSpaceOrTab).length := by
  induction bytes with
  | nil => rfl
  | cons b bytes ih =>
    rw [indentOf, List.map_cons, List.cons_append, List.takeWhile_cons, List.takeWhile_cons]
    cases hb : isSpaceOrTab b with
    | true =>
      rw [indentOf] at ih
      simp only [isIndent, hb, if_true, List.length_cons, ih]
    | false => simp only [isIndent, hb, Bool.false_eq_true, if_false, List.length_nil]

theorem takeWhile_map {bytes : Bytes} :
    (List.map Symbol.byte bytes).takeWhile isIndent = (bytes.takeWhile isSpaceOrTab).map .byte := by
  rw [List.takeWhile_map]
  rfl

end Lines

/-! ## The lines of the scan -/

/-- What the scan records of a line with some contents. -/
def recordOf (lineBegin : Nat) (content : List Symbol) : DedentLine where
  lineBegin := lineBegin
  lineEnd := lineBegin + (bytesOf content).length
  indent := indentOf content
  isBlank := isBlank content

def recordsOf : Nat → List (List Symbol) → List DedentLine
  | _, [] => []
  | lineBegin, [line] => [recordOf lineBegin line]
  | lineBegin, line :: lines =>
    recordOf lineBegin (withoutReturn line) :: recordsOf (lineBegin + (bytesOf line).length + 1) lines

/-- The bytes that are no carriage returns before line feeds. -/
def noReturns : Nat → List (List Symbol) → Nat → Bool
  | _, [], _ => true
  | _, [_], _ => true
  | lineBegin, line :: lines, j =>
    !((bytesOf line).getLast? == some carriageReturn && j == lineBegin + (bytesOf line).length - 1) &&
      noReturns (lineBegin + (bytesOf line).length + 1) lines j

section Scan

variable {combined pre post : Bytes} {interpolations earlier : List Nat} {line content text tail : List Symbol} {n : Nat}

section
attribute [local simp] recordsOf noReturns
end

theorem le_of_mem_offsetsOf {p : Nat} (hp : p ∈ offsetsOf n text) : n ≤ p := by
  induction text generalizing n with
  | nil => cases hp
  | cons s text ih =>
    cases s with
    | byte b => exact Nat.le_of_succ_le (ih hp)
    | interpolation =>
      rcases List.mem_cons.mp hp with rfl | hp
      · exact Nat.le_refl p
      · exact ih hp

theorem mem_offsetsOf_le {p : Nat} (hp : p ∈ offsetsOf n text) : p ≤ n + (bytesOf text).length := by
  induction text generalizing n with
  | nil => cases hp
  | cons s text ih =>
    cases s with
    | byte b =>
      have hle := ih hp
      rw [bytesOf_byte, List.length_cons]
      omega
    | interpolation =>
      rcases List.mem_cons.mp hp with rfl | hp
      · exact Nat.le_add_right _ _
      · exact ih hp

/-- The first interpolation from the start of a line on. -/
theorem nextInterpolation_eq (hearlier : ∀ p ∈ earlier, p < n) :
    nextInterpolation (earlier ++ offsetsOf n text) n = (offsetsOf n text).head? := by
  have hnone : earlier.find? (n ≤ ·) = none := by
    rw [List.find?_eq_none]
    intro p hp
    have hlt := hearlier p hp
    simpa using hlt
  rw [nextInterpolation, List.find?_append, hnone, Option.none_or]
  cases hoffsets : offsetsOf n text with
  | nil => rfl
  | cons p ps =>
    have hle : n ≤ p := le_of_mem_offsetsOf (hoffsets ▸ List.mem_cons_self)
    rw [List.find?_cons_of_pos (by simpa using hle), List.head?_cons]

theorem takeWhile_length_eq {bytes : Bytes} :
    ((bytes.takeWhile isSpaceOrTab).length == bytes.length) = bytes.all isSpaceOrTab := by
  induction bytes with
  | nil => rfl
  | cons b bytes ih =>
    rw [List.takeWhile_cons, List.all_cons]
    cases hb : isSpaceOrTab b with
    | true => simpa using ih
    | false => rfl

/-- The record of a line that an interpolation is on. -/
theorem dedentLine_interpolation {bytes : Bytes} {back : List Symbol} (hline : line = bytes.map .byte ++ .interpolation :: back)
    (hcombined : combined = pre ++ (bytesOf line ++ post))
    (hnext : nextInterpolation interpolations pre.length = (offsetsOf pre.length (line ++ tail)).head?)
    (hcontent : content = line ∨ content = withoutReturn line) :
    dedentLine combined interpolations pre.length (pre.length + (bytesOf content).length)
        (pre.length + (bytesOf line).length) = recordOf pre.length content := by
  have hfirst : nextInterpolation interpolations pre.length = some (pre.length + bytes.length) := by
    rw [hnext, hline, List.append_assoc, offsetsOf_append, offsetsOf_map, bytesOf_map, List.nil_append]
    rfl
  have hbytes : bytesOf line = bytes ++ bytesOf back := by
    rw [hline, bytesOf_append, bytesOf_map, bytesOf_interpolation]
  have hwithin : pre.length + bytes.length ≤ pre.length + (bytesOf line).length := by
    rw [hbytes, List.length_append]
    omega
  have htake : (combined.drop pre.length).take bytes.length = bytes := by
    rw [hcombined, List.drop_left, hbytes, List.append_assoc, List.take_left]
  have hmem : Symbol.interpolation ∈ line := by simp [hline]
  have hindent : indentOf content = (bytes.takeWhile isSpaceOrTab).length := by
    rcases hcontent with rfl | rfl
    · rw [hline, indentOf_map_append]
    · rw [indentOf_withoutReturn, hline, indentOf_map_append]
  have hblank : isBlank content = false := by
    rcases hcontent with rfl | rfl
    · exact isBlank_of_mem hmem
    · exact isBlank_of_mem (interpolation_mem_withoutReturn.mpr hmem)
  rw [recordOf, hindent, hblank]
  simp only [dedentLine, hfirst, Option.any_some, hwithin, decide_true, if_true, Option.getD_some,
    Nat.add_sub_cancel_left, htake, Bool.not_true, Bool.false_and]

/-- The record of a line without an interpolation. -/
theorem dedentLine_bytes (hline : line = (bytesOf line).map .byte) (htail : tail = [] ∨ ∃ t, tail = lf :: t)
    (hcombined : combined = pre ++ (bytesOf line ++ post))
    (hnext : nextInterpolation interpolations pre.length = (offsetsOf pre.length (line ++ tail)).head?)
    (hcontent : content = line ∨ content = withoutReturn line) :
    dedentLine combined interpolations pre.length (pre.length + (bytesOf content).length)
        (pre.length + (bytesOf line).length) = recordOf pre.length content := by
  have hoffsets : offsetsOf pre.length line = [] := by
    rw [hline]
    exact offsetsOf_map
  have hnone : (nextInterpolation interpolations pre.length).any (· ≤ pre.length + (bytesOf line).length) = false := by
    rw [hnext, offsetsOf_append, hoffsets, List.nil_append]
    rcases htail with rfl | ⟨t, rfl⟩
    · rfl
    · rw [lf, offsetsOf]
      cases hrest : offsetsOf (pre.length + (bytesOf line).length + 1) t with
      | nil => rfl
      | cons p ps =>
        have hle := le_of_mem_offsetsOf (hrest ▸ List.mem_cons_self : p ∈ offsetsOf (_ + 1) t)
        rw [List.head?_cons, Option.any_some, decide_eq_false_iff_not]
        omega
  have hbytes : content = (bytesOf content).map .byte := by
    refine eq_map_of_not_mem fun hmem => ?_
    have hmem' : Symbol.interpolation ∈ line := by
      rcases hcontent with rfl | rfl
      · exact hmem
      · exact interpolation_mem_withoutReturn.mp hmem
    rw [hline] at hmem'
    simp at hmem'
  have hprefix : ∃ rest, bytesOf line = bytesOf content ++ rest := by
    rcases hcontent with rfl | rfl
    · exact ⟨[], (List.append_nil _).symm⟩
    · rcases bytesOf_withoutReturn line with hreturn | ⟨-, heq⟩
      · exact ⟨_, hreturn⟩
      · exact ⟨[], by rw [heq, List.append_nil]⟩
  obtain ⟨rest, hrest⟩ := hprefix
  have htake : (combined.drop pre.length).take (bytesOf content).length = bytesOf content := by
    rw [hcombined, List.drop_left, hrest, List.append_assoc, List.take_left]
  have hindent : indentOf content = ((bytesOf content).takeWhile isSpaceOrTab).length := by
    rw [indentOf, hbytes, takeWhile_map, List.length_map, bytesOf_map]
  have hblank : isBlank content = (((bytesOf content).takeWhile isSpaceOrTab).length == (bytesOf content).length) := by
    rw [takeWhile_length_eq, isBlank, hbytes, List.all_map, bytesOf_map]
    rfl
  rw [recordOf, hindent, hblank]
  simp only [dedentLine, hnone, if_false, Nat.add_sub_cancel_left, htake, Bool.not_false, Bool.true_and,
    Bool.false_eq_true, DedentLine.mk.injEq, true_and]
  rw [Bool.eq_iff_iff, beq_iff_eq, beq_iff_eq]
  omega

theorem dedentLine_eq (htail : tail = [] ∨ ∃ t, tail = lf :: t) (hcombined : combined = pre ++ (bytesOf line ++ post))
    (hnext : nextInterpolation interpolations pre.length = (offsetsOf pre.length (line ++ tail)).head?)
    (hcontent : content = line ∨ content = withoutReturn line) :
    dedentLine combined interpolations pre.length (pre.length + (bytesOf content).length)
        (pre.length + (bytesOf line).length) = recordOf pre.length content := by
  rcases line_cases line with ⟨bytes, back, hline⟩ | hline
  · exact dedentLine_interpolation hline hcombined hnext hcontent
  · exact dedentLine_bytes hline htail hcombined hnext hcontent

theorem lineFeed_not_mem (hfree : lf ∉ line) : lineFeed ∉ bytesOf line := by
  intro hmem
  obtain ⟨s, hs, heq⟩ := List.mem_filterMap.mp hmem
  cases s with
  | byte b =>
    cases heq
    exact hfree hs
  | interpolation => cases heq

theorem takeWhile_of_free {bytes rest : Bytes} (hfree : lineFeed ∉ bytes) :
    (bytes ++ rest).takeWhile (· ≠ lineFeed) = bytes ++ rest.takeWhile (· ≠ lineFeed) :=
  List.takeWhile_append_of_pos fun b hb => by simpa using ne_of_mem_of_not_mem hb hfree

theorem findNewline_none {bytes : Bytes} (hfree : lineFeed ∉ bytes) : findNewline (pre ++ bytes) pre.length = none := by
  have htake : (bytes ++ []).takeWhile (· ≠ lineFeed) = bytes ++ [].takeWhile (· ≠ lineFeed) := takeWhile_of_free hfree
  rw [List.append_nil, List.takeWhile_nil, List.append_nil] at htake
  rw [findNewline, List.drop_left, htake, List.length_append, if_neg (Nat.lt_irrefl _)]

theorem findNewline_some {bytes rest : Bytes} (hfree : lineFeed ∉ bytes) :
    findNewline (pre ++ (bytes ++ lineFeed :: rest)) pre.length = some (pre.length + bytes.length) := by
  have htake : (lineFeed :: rest).takeWhile (· ≠ lineFeed) = [] := by simp
  rw [findNewline, List.drop_left, takeWhile_of_free hfree, htake, List.append_nil]
  simp only [List.length_append, List.length_cons]
  rw [if_pos (by omega)]

/-- The scan sees a carriage return before a line feed just where it is the last byte of the line. -/
theorem returns_iff {bytes : Bytes} (hcombined : combined = pre ++ (bytes ++ post)) :
    (pre.length < pre.length + bytes.length ∧ combined[pre.length + bytes.length - 1]? = some carriageReturn) ↔
      bytes.getLast? = some carriageReturn := by
  rcases List.eq_nil_or_concat bytes with rfl | ⟨front, b, rfl⟩
  · simp
  · rw [List.concat_eq_append] at hcombined ⊢
    have hindex : pre.length + (front ++ [b]).length - 1 = pre.length + front.length := by
      rw [List.length_append, List.length_singleton]
      omega
    have hget : combined[pre.length + front.length]? = some b := by
      rw [hcombined, List.append_assoc, List.getElem?_append_right (by omega), Nat.add_sub_cancel_left,
        List.getElem?_append_right (Nat.le_refl _), Nat.sub_self]
      rfl
    rw [hindex, hget, List.getLast?_append, List.getLast?_singleton, Option.some_or, List.length_append,
      List.length_singleton]
    exact and_iff_right (by omega)

/-- The scan records the lines one by one, and takes their carriage returns out of the mask. -/
theorem dedentLines_eq {lines : List (List Symbol)} {keep : Nat → Bool} (hlines : lines ≠ [])
    (hfree : ∀ line ∈ lines, lf ∉ line) (hcombined : combined = pre ++ bytesOf (joinLines lines))
    (hinterpolations : interpolations = earlier ++ offsetsOf pre.length (joinLines lines))
    (hearlier : ∀ p ∈ earlier, p < pre.length) :
    dedentLines combined interpolations keep pre.length =
      (recordsOf pre.length lines, fun j => keep j && noReturns pre.length lines j) := by
  induction lines generalizing pre earlier keep with
  | nil => exact absurd rfl hlines
  | cons line rest ih =>
    have hline := lineFeed_not_mem (hfree line List.mem_cons_self)
    cases rest with
    | nil =>
      rw [joinLines_singleton] at hcombined hinterpolations
      have hnext : nextInterpolation interpolations pre.length = (offsetsOf pre.length (line ++ [])).head? := by
        rw [hinterpolations, nextInterpolation_eq hearlier, List.append_nil]
      have hrecord := dedentLine_eq (Or.inl rfl) (hcombined.trans (congrArg (pre ++ ·) (List.append_nil _).symm))
        hnext (Or.inl rfl)
      have hlength : combined.length = pre.length + (bytesOf line).length := by rw [hcombined, List.length_append]
      rw [dedentLines]
      split
      next hnone =>
        rw [hlength, hrecord]
        simp only [noReturns, Bool.and_true]
        rfl
      next newline hnewline =>
        rw [hcombined, findNewline_none hline] at hnewline
        cases hnewline
    | cons line' rest =>
      rw [joinLines_cons (List.cons_ne_nil _ _)] at hcombined hinterpolations
      generalize hlast : line' :: rest = lines at *
      have hlines' : lines ≠ [] := by rw [← hlast]; exact List.cons_ne_nil _ _
      have hsplit : combined = pre ++ (bytesOf line ++ lineFeed :: bytesOf (joinLines lines)) := by
        rw [hcombined, bytesOf_append, lf, bytesOf_byte]
      have hnewline : findNewline combined pre.length = some (pre.length + (bytesOf line).length) := by
        rw [hsplit, findNewline_some hline]
      -- The rest of the lines is scanned with this one as part of what is behind.
      have hbehind : (pre ++ (bytesOf line ++ [lineFeed])).length = pre.length + (bytesOf line).length + 1 := by
        rw [List.length_append, List.length_append, List.length_singleton]
        omega
      have hrest : ∀ keep, dedentLines combined interpolations keep (pre.length + (bytesOf line).length + 1) =
          (recordsOf (pre.length + (bytesOf line).length + 1) lines,
            fun j => keep j && noReturns (pre.length + (bytesOf line).length + 1) lines j) := by
        intro keep
        rw [← hbehind]
        have hcombined' : combined = pre ++ (bytesOf line ++ [lineFeed]) ++ bytesOf (joinLines lines) := by
          rw [hsplit, List.append_assoc, List.append_assoc]
          rfl
        have hinterpolations' : interpolations = (earlier ++ offsetsOf pre.length line) ++
            offsetsOf (pre ++ (bytesOf line ++ [lineFeed])).length (joinLines lines) := by
          rw [hinterpolations, offsetsOf_append, lf, offsetsOf, hbehind, List.append_assoc]
        refine ih hlines' (fun line hmem => hfree line (List.mem_cons_of_mem _ hmem)) hcombined' hinterpolations' ?_
        intro p hp
        rw [hbehind]
        rcases List.mem_append.mp hp with hp | hp
        · have hlt := hearlier p hp
          omega
        · have hle := mem_offsetsOf_le hp
          omega
      have hnext : nextInterpolation interpolations pre.length =
          (offsetsOf pre.length (line ++ lf :: joinLines lines)).head? := by
        rw [hinterpolations, nextInterpolation_eq hearlier]
      have hrecord := dedentLine_eq (Or.inr ⟨_, rfl⟩) hsplit hnext (Or.inr rfl)
      rw [dedentLines]
      split
      next hnone =>
        rw [hnewline] at hnone
        cases hnone
      next newline hsome =>
        rw [hnewline] at hsome
        obtain rfl := Option.some.inj hsome
        have hreturns := returns_iff hsplit
        have hend : (if pre.length < pre.length + (bytesOf line).length ∧
              combined[pre.length + (bytesOf line).length - 1]? = some carriageReturn
            then pre.length + (bytesOf line).length - 1 else pre.length + (bytesOf line).length) =
            pre.length + (bytesOf (withoutReturn line)).length := by
          rw [if_congr hreturns rfl rfl]
          rcases bytesOf_withoutReturn line with hreturn | ⟨hnot, heq⟩
          · rw [hreturn, if_pos List.getLast?_concat, List.length_append]
            rfl
          · rw [if_neg hnot, heq]
        simp only [hend, hrest, hrecord, if_congr hreturns rfl rfl]
        subst hlast
        refine Prod.ext rfl (funext fun j => ?_)
        simp only [noReturns]
        by_cases hreturn : (bytesOf line).getLast? = some carriageReturn
        · have hpos : 0 < (bytesOf line).length := by
            rw [List.length_pos_iff]
            rintro hnil
            rw [hnil] at hreturn
            cases hreturn
          have hposition : (decide (pre.length + (bytesOf line).length - 1 ≤ j) &&
              decide (j < pre.length + (bytesOf line).length)) = (j == pre.length + (bytesOf line).length - 1) := by
            rw [Bool.eq_iff_iff, Bool.and_eq_true, decide_eq_true_eq, decide_eq_true_eq, beq_iff_eq]
            omega
          rw [if_pos hreturn, beq_iff_eq.mpr hreturn, fill, hposition, Bool.true_and, Bool.and_assoc]
        · rw [if_neg hreturn, beq_false_of_ne hreturn, Bool.false_and, Bool.not_false, Bool.true_and]

end Scan

end Luma.TripleQuoted
