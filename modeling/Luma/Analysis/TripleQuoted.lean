-- SUMMARY: Triple-quoted strings: how a piece is scanned, how the pieces are dedented, and the values of their tokens.
import Luma.Library.BigEndian

/-! # Triple-quoted strings

A triple-quoted literal is the raw texts between its delimiters and its interpolations.
Each of these pieces is scanned on its own. When the literal ends, its pieces are dedented
as one text, in which a mask says what is kept, and their escapes are resolved. -/

namespace Luma.TripleQuoted

open Codec

def lineFeed : UInt8 := 10
def carriageReturn : UInt8 := 13
def quote : UInt8 := 34
def dollar : UInt8 := 36
def backslash : UInt8 := 92
def leftBrace : UInt8 := 123

/-! ## Scanning -/

/-- The byte that `\character` stands for, if it is an escape. -/
def escapeValue (character : UInt8) : Option UInt8 :=
  if character = 110 then some 10
  else if character = 116 then some 9
  else if character = 114 then some 13
  else if character = 48 then some 0
  else if character = backslash then some backslash
  else if character = quote then some quote
  else if character = dollar then some dollar
  else none

/-- What ends a piece: the closing quotes, the start of an interpolation, or the source. -/
inductive Stop where
  | closed
  | interpolation
  | unterminated
  deriving DecidableEq

/-- A piece: its raw text, the characters that were escaped and are no escapes, what ended
    it, and the source after that. -/
structure Piece where
  raw : Bytes
  unknownEscapes : List UInt8
  stop : Stop
  rest : Bytes

/-- The piece with some text before it. -/
def Piece.prepend (text : Bytes) (piece : Piece) : Piece := { piece with raw := text ++ piece.raw }

/-- The loop of `scan_triple_quoted_string_body`: the piece at the front of a source. -/
def scanPiece : Bytes → Piece
  | [] => { raw := [], unknownEscapes := [], stop := .unterminated, rest := [] }
  | [c] => { raw := [c], unknownEscapes := [], stop := .unterminated, rest := [] }
  | c :: d :: rest =>
    if c = quote ∧ d = quote then
      match rest with
      | [] => { raw := [quote, quote], unknownEscapes := [], stop := .unterminated, rest := [] }
      | e :: rest =>
        if e = quote then { raw := [], unknownEscapes := [], stop := .closed, rest }
        else (scanPiece (e :: rest)).prepend [quote, quote]
    else if c = backslash then
      let piece := scanPiece rest
      { piece.prepend [c, d] with
        unknownEscapes := if escapeValue d = none then d :: piece.unknownEscapes else piece.unknownEscapes }
    else if c = dollar ∧ d = leftBrace then { raw := [], unknownEscapes := [], stop := .interpolation, rest }
    else (scanPiece (d :: rest)).prepend [c]

/-! ## Dedentation -/

def isSpaceOrTab (character : UInt8) : Bool := character = 32 || character = 9

/-- One line of the combined text: `[lineBegin, lineEnd)` excludes the line feed (and a
    carriage return directly before it). -/
structure DedentLine where
  lineBegin : Nat
  lineEnd : Nat
  indent : Nat
  isBlank : Bool

/-- Where each piece starts in the combined text, which ends at the last one. -/
def pieceStarts : Nat → List Bytes → List Nat
  | start, [] => [start]
  | start, piece :: pieces => start :: pieceStarts (start + piece.length) pieces

/-- `combined.find('\n', position)`. -/
def findNewline (combined : Bytes) (position : Nat) : Option Nat :=
  let newline := position + ((combined.drop position).takeWhile (· ≠ lineFeed)).length
  if newline < combined.length then some newline else none

theorem findNewline_lt {combined : Bytes} {position newline : Nat} (h : findNewline combined position = some newline) :
    position ≤ newline ∧ newline < combined.length := by
  simp only [findNewline] at h
  split at h
  next hlt =>
    cases h
    exact ⟨Nat.le_add_right _ _, hlt⟩
  · cases h

/-- `std::fill(keep.begin() + first, keep.begin() + last, false)`. -/
def fill (keep : Nat → Bool) (first last : Nat) : Nat → Bool :=
  fun position => keep position && !(decide (first ≤ position) && decide (position < last))

section Lines

variable (combined : Bytes) (interpolations : List Nat)

/-- First interpolation at or after `position`. -/
def nextInterpolation (position : Nat) : Option Nat := interpolations.find? (position ≤ ·)

/-- The line from `lineBegin` on, whose bytes end at `lineEnd` and whose line feed, if it
    has one, is at `newline`. -/
def dedentLine (lineBegin lineEnd newline : Nat) : DedentLine :=
  let interpolation := nextInterpolation interpolations lineBegin
  let hasInterpolation := interpolation.any (· ≤ newline)
  let indentEnd := if hasInterpolation then interpolation.getD lineEnd else lineEnd
  let indent := (((combined.drop lineBegin).take (indentEnd - lineBegin)).takeWhile isSpaceOrTab).length
  { lineBegin, lineEnd, indent, isBlank := !hasInterpolation && lineBegin + indent == lineEnd }

/-- The lines from `lineBegin` on, and the mask without the carriage returns before their
    line feeds. -/
def dedentLines (keep : Nat → Bool) (lineBegin : Nat) : List DedentLine × (Nat → Bool) :=
  match _h : findNewline combined lineBegin with
  | none => ([dedentLine combined interpolations lineBegin combined.length combined.length], keep)
  | some newline =>
    let returns := lineBegin < newline ∧ combined[newline - 1]? = some carriageReturn
    let keep := if returns then fill keep (newline - 1) newline else keep
    let lineEnd := if returns then newline - 1 else newline
    let (lines, keep) := dedentLines keep (newline + 1)
    (dedentLine combined interpolations lineBegin lineEnd newline :: lines, keep)
termination_by combined.length - lineBegin
decreasing_by
  have := findNewline_lt _h
  omega

end Lines

/-- The bytes of the combined text from `first` to `last` that are kept. -/
def keptBytes (combined : Bytes) (keep : Nat → Bool) (first last : Nat) : Bytes :=
  (List.range' first (last - first)).flatMap fun position =>
    if keep position then (combined[position]?).toList else []

section Mask

variable (lines : List DedentLine)

/-- The first line, when it is blank. -/
def firstBlank : Option DedentLine := lines.head?.filter (·.isBlank)

/-- The last of several lines, when it is blank. -/
def lastBlank : Option DedentLine := if lines.length > 1 then lines.getLast?.filter (·.isBlank) else none

/-- The lines from `first_kept` to `last_kept`. -/
def keptLines : List DedentLine :=
  let kept := if (firstBlank lines).isSome then lines.drop 1 else lines
  if (lastBlank lines).isSome then kept.dropLast else kept

def commonIndent (kept : List DedentLine) : Nat := (((kept.filter (!·.isBlank)).map (·.indent)).min?).getD 0

/-- Drop a blank first line (with its line feed) and a blank last line (with the one before
    it) from the mask, and strip the common indentation from every kept line. -/
def dropAndStrip (size : Nat) (keep : Nat → Bool) : Nat → Bool :=
  let keep := match firstBlank lines with
    | some line => fill keep 0 (min (line.lineEnd + 1) size)
    | none => keep
  let keep := match lastBlank lines with
    | some line => fill keep (line.lineBegin - 1) size
    | none => keep
  (keptLines lines).foldl (fun keep line =>
    fill keep line.lineBegin (line.lineBegin + min (commonIndent (keptLines lines)) line.indent)) keep

end Mask

def dedentPieces (pieces : List Bytes) : List Bytes :=
  let combined := pieces.flatten
  let starts := pieceStarts 0 pieces
  let interpolations := (starts.drop 1).dropLast
  let scanned := dedentLines combined interpolations (fun _ => true) 0
  let keep := dropAndStrip scanned.1 combined.length scanned.2
  (starts.zip (starts.drop 1)).map fun range => keptBytes combined keep range.1 range.2

/-! ## Values -/

/-- A dedented text with its escapes resolved. -/
def resolveEscapes : Bytes → Bytes
  | [] => []
  | [c] => if c = backslash then [] else [c]
  | c :: d :: raw =>
    if c = backslash then (escapeValue d).getD 63 :: resolveEscapes raw else c :: resolveEscapes (d :: raw)

/-- The lexemes of the string tokens of a literal, by `finish_triple_quoted_string`. -/
def finishTripleQuoted (pieces : List Bytes) : List Bytes := (dedentPieces pieces).map resolveEscapes

end Luma.TripleQuoted
