-- SUMMARY: Texts, positions and edits as the protocol means them, and the offsets that the store computes.
import Luma.Library.Utf8
import Luma.LanguageServer.DocumentStore

/-! # Positions

To the protocol a text is a sequence of characters. A position is a line and a column in
UTF-16 units; it stands for a number of characters before it. The store computes the
number of bytes of these characters from its line starts. -/

namespace Luma.LanguageServer

open Codec Luma.Protocol

/-! ## Texts and edits -/

/-- The UTF-16 units of a character. -/
def utf16Units (c : Char) : Nat := if c.toNat < 0x10000 then 1 else 2

/-- Which carriage returns end a line: those before the given rest of the text. -/
abbrev LineEnds := List Char → Bool

/-- Lines are ended by a line feed, a carriage return, or the one after the other. -/
def protocolLineEnds : LineEnds := fun _ => true

/-- Only a carriage return before a line feed, or at the end of the text, ends a line. -/
def storeLineEnds : LineEnds
  | [] => true
  | c :: _ => c == '\n'

structure Position where
  line : Nat
  character : Nat
  deriving DecidableEq

/-- One position is not after another. -/
def Position.le (p q : Position) : Prop := p.line < q.line ∨ p.line = q.line ∧ p.character ≤ q.character

/-- A change of a text: a new text, or a new part in place of a range. -/
inductive Edit where
  | full (text : List Char)
  | ranged (start stop : Position) (text : List Char)
  deriving DecidableEq

/-- The start of a range is not after its end. -/
def Edit.Ordered : Edit → Prop
  | .full _ => True
  | .ranged start stop _ => start.le stop

section Lines

variable (ends : LineEnds)

/-- A line end begins with the character `c` before `rest`. -/
def beginsLineEnd (c : Char) (rest : List Char) : Bool := c == '\n' || (c == '\r' && ends rest)

/-- A line end is complete with the character `c` before `rest`. -/
def completesLineEnd (c : Char) (rest : List Char) : Bool :=
  c == '\n' || (c == '\r' && ends rest && rest.head? != some '\n')

/-- The text from the start of a line on; nothing from a line that it does not have. -/
def fromLine : List Char → Nat → List Char
  | text, 0 => text
  | [], _ + 1 => []
  | c :: rest, line + 1 =>
    if completesLineEnd ends c rest then fromLine rest line else fromLine rest (line + 1)

/-- The first line of a text, without its end. -/
def lineContent : List Char → List Char
  | [] => []
  | c :: rest => if beginsLineEnd ends c rest then [] else c :: lineContent rest

/-- The number of characters of a line before a column, all of them when the line has no
    such column. -/
def charactersBefore : List Char → Nat → Nat
  | [], _ => 0
  | c :: rest, column => if column = 0 then 0 else charactersBefore rest (column - utf16Units c) + 1

/-- The number of characters of a text before a position. -/
def offsetOf (text : List Char) (p : Position) : Nat :=
  (text.length - (fromLine ends text p.line).length) +
    charactersBefore (lineContent ends (fromLine ends text p.line)) p.character

def applyEdit (text : List Char) : Edit → List Char
  | .full new => new
  | .ranged start stop new =>
    text.take (offsetOf ends text start) ++ new ++ text.drop (offsetOf ends text stop)

/-- The edits of a list one after the other. -/
def applyEdits (text : List Char) (edits : List Edit) : List Char := edits.foldl (applyEdit ends) text

end Lines

/-! ## The order of positions -/

section Order

variable {ends : LineEnds} {text : List Char}

-- The equations of the definitions are derived here, once for all proofs.
section
attribute [local simp] storeLineEnds Edit.Ordered fromLine lineContent charactersBefore applyEdit
end

theorem beginsLineEnd_of_completes {c : Char} (h : completesLineEnd ends c text = true) :
    beginsLineEnd ends c text = true := by
  simp only [completesLineEnd, beginsLineEnd, Bool.or_eq_true, Bool.and_eq_true] at h ⊢
  exact h.imp_right And.left

@[simp] theorem fromLine_zero : fromLine ends text 0 = text := by
  cases text <;> rfl

@[simp] theorem fromLine_nil {line : Nat} : fromLine ends [] line = [] := by
  cases line <;> rfl

theorem fromLine_suffix {line : Nat} : fromLine ends text line <:+ text := by
  induction text generalizing line with
  | nil => simp
  | cons c rest ih =>
    cases line with
    | zero => simp
    | succ line =>
      rw [fromLine]
      split
      · exact ih.trans (List.suffix_cons c rest)
      · exact ih.trans (List.suffix_cons c rest)

theorem fromLine_succ {line : Nat} : fromLine ends text (line + 1) = fromLine ends (fromLine ends text line) 1 := by
  induction text generalizing line with
  | nil => simp
  | cons c rest ih =>
    cases line with
    | zero => simp
    | succ line =>
      rw [fromLine, fromLine]
      split
      · exact ih
      · exact ih

/-- A line starts after the lines before it. -/
theorem fromLine_length_antitone {line line' : Nat} (h : line ≤ line') :
    (fromLine ends text line').length ≤ (fromLine ends text line).length := by
  induction h with
  | refl => exact le_refl _
  | step h ih =>
    rw [fromLine_succ]
    exact fromLine_suffix.length_le.trans ih

/-- The first line ends before the second one starts. -/
theorem lineContent_length_le : (lineContent ends text).length + (fromLine ends text 1).length ≤ text.length := by
  induction text with
  | nil => simp [lineContent]
  | cons c rest ih =>
    by_cases hbegin : beginsLineEnd ends c rest = true
    · rw [lineContent, if_pos hbegin]
      rw [List.length_nil, Nat.zero_add]
      exact fromLine_suffix.length_le
    · have hcomplete : completesLineEnd ends c rest ≠ true := fun h => hbegin (beginsLineEnd_of_completes h)
      rw [lineContent, if_neg hbegin, fromLine, if_neg hcomplete]
      rw [List.length_cons, List.length_cons, Nat.add_right_comm]
      exact Nat.succ_le_succ ih

theorem charactersBefore_le {line : List Char} {column : Nat} : charactersBefore line column ≤ line.length := by
  induction line generalizing column with
  | nil => simp [charactersBefore]
  | cons c rest ih =>
    rw [charactersBefore]
    split
    · exact Nat.zero_le _
    · exact Nat.succ_le_succ ih

theorem charactersBefore_mono {line : List Char} {column column' : Nat} (h : column ≤ column') :
    charactersBefore line column ≤ charactersBefore line column' := by
  induction line generalizing column column' with
  | nil => simp [charactersBefore]
  | cons c rest ih =>
    rw [charactersBefore, charactersBefore]
    split
    · exact Nat.zero_le _
    · rw [if_neg (by omega)]
      exact Nat.succ_le_succ (ih (by omega))

/-- A position on a line is before the start of the next line. -/
theorem offsetOf_add_fromLine_le {p : Position} :
    offsetOf ends text p + (fromLine ends text (p.line + 1)).length ≤ text.length := by
  have hline : (fromLine ends text p.line).length ≤ text.length := fromLine_suffix.length_le
  have hcontent : (lineContent ends (fromLine ends text p.line)).length +
      (fromLine ends (fromLine ends text p.line) 1).length ≤ (fromLine ends text p.line).length :=
    lineContent_length_le
  have hcolumn : charactersBefore (lineContent ends (fromLine ends text p.line)) p.character ≤
      (lineContent ends (fromLine ends text p.line)).length := charactersBefore_le
  rw [offsetOf, fromLine_succ]
  omega

theorem offsetOf_mono {p q : Position} (h : p.le q) : offsetOf ends text p ≤ offsetOf ends text q := by
  rcases h with hline | ⟨hline, hcharacter⟩
  · have hnext : offsetOf ends text p + (fromLine ends text (p.line + 1)).length ≤ text.length :=
      offsetOf_add_fromLine_le
    have hlater : (fromLine ends text q.line).length ≤ (fromLine ends text (p.line + 1)).length :=
      fromLine_length_antitone hline
    rw [offsetOf.eq_1 ends text q]
    omega
  · rw [offsetOf, offsetOf, hline]
    exact Nat.add_le_add_left (charactersBefore_mono hcharacter) _

end Order

/-! ## Both kinds of line ends -/

/-- Every carriage return is before a line feed or at the end of the text. -/
def NoLoneReturn (text : List Char) : Prop := ∀ rest, '\r' :: rest <:+ text → storeLineEnds rest = true

section Agreement

variable {text : List Char}

theorem NoLoneReturn.tail {c : Char} (h : NoLoneReturn (c :: text)) : NoLoneReturn text :=
  fun rest hrest => h rest (hrest.trans (List.suffix_cons c text))

end Agreement

end Luma.LanguageServer
