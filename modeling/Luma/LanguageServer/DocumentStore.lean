-- SUMMARY: The documents of the language server: their texts, line starts and hashes, and positions in them.
import Luma.Protocol.JsonValue
import Luma.Protocol.Transport

/-! # The Document Store

The store keeps, for every document, its text as a byte string, the offsets at which
its lines start, and a hash of the text. Positions of the protocol are lines and columns
in UTF-16 units; they are resolved through the line starts. -/

namespace Luma.LanguageServer

open Codec Luma.Protocol

/-! ## Columns -/

def utf8CodepointLen (byte : UInt8) : Nat :=
  if 0xC2 ≤ byte ∧ byte ≤ 0xDF then 2
  else if 0xE0 ≤ byte ∧ byte ≤ 0xEF then 3
  else if 0xF0 ≤ byte ∧ byte ≤ 0xF4 then 4
  else 1

def isUtf8Continuation (byte : UInt8) : Bool := byte &&& 0xC0 == 0x80

def isValidUtf8Run (line : Bytes) (pos seqLen : Nat) : Bool :=
  (List.range' 1 (seqLen - 1)).all fun k => isUtf8Continuation (line.getD (pos + k) 0)

def isSupplementarySequence (sequenceLength : Nat) : Bool := sequenceLength == 4

/-- The loop of `utf16ColumnToByteOffset`. Every round moves on by a byte at least, so
    that as many rounds as there are bytes left are enough. -/
def utf16ColumnFrom (line : Bytes) (utf16Col : Int) : Nat → Nat → Int → Nat
  | 0, pos, _ => pos
  | rounds + 1, pos, utf16Units =>
    if pos < line.length ∧ utf16Units < utf16Col then
      let seqLen := utf8CodepointLen (line.getD pos 0)
      let seqLen := if pos + seqLen > line.length then line.length - pos else seqLen
      if isValidUtf8Run line pos seqLen = false then
        utf16ColumnFrom line utf16Col rounds (pos + 1) (utf16Units + 1)
      else
        let units := if isSupplementarySequence seqLen then 2 else 1
        utf16ColumnFrom line utf16Col rounds (pos + seqLen) (utf16Units + units)
    else pos

def utf16ColumnToByteOffset (line : Bytes) (utf16Col : Int) : Nat :=
  utf16ColumnFrom line utf16Col line.length 0 0

/-! ## Documents -/

structure DocumentState where
  content : Bytes := []
  version : Int := -1
  storedHash : UInt64 := 0
  dirty : Bool := true
  lineStarts : List Nat := []

/-- The documents by their URI. -/
abbrev Documents := Bytes → Option DocumentState

namespace Documents

/-- `documents_[uri] = state`. -/
def put (documents : Documents) (uri : Bytes) (state : DocumentState) : Documents :=
  fun other => if other = uri then some state else documents other

/-- `documents_[uri]`, which adds a document when there is none. -/
def entry (documents : Documents) (uri : Bytes) : DocumentState := (documents uri).getD {}

def contains (documents : Documents) (uri : Bytes) : Bool := (documents uri).isSome

end Documents

/-- The offsets after the line feeds of a text that starts at `i`. -/
def offsetsAfterNewlines : Bytes → Nat → List Nat
  | [], _ => []
  | byte :: text, i =>
    if byte = newline then (i + 1) :: offsetsAfterNewlines text (i + 1) else offsetsAfterNewlines text (i + 1)

def lineStartsOf (text : Bytes) : List Nat := 0 :: offsetsAfterNewlines text 0

def rebuildLineStarts (documents : Documents) (uri text : Bytes) : Documents :=
  documents.put uri { documents.entry uri with lineStarts := lineStartsOf text }

def setVersion (documents : Documents) (uri : Bytes) (version : Int) : Documents :=
  documents.put uri { documents.entry uri with version }

section Hash

-- `std::hash<std::string>`.
variable (hash : Bytes → UInt64)

def setContent (documents : Documents) (uri text : Bytes) : Documents :=
  let newHash := hash text
  match documents uri with
  | some doc =>
    if doc.storedHash = newHash then documents.put uri { doc with dirty := false }
    else
      rebuildLineStarts (documents.put uri { doc with content := text, storedHash := newHash, dirty := true })
        uri text
  | none =>
    rebuildLineStarts
      (documents.put uri { documents.entry uri with content := text, storedHash := newHash, dirty := true })
      uri text

def refreshStoredHash (documents : Documents) (uri : Bytes) : Documents :=
  match documents uri with
  | some doc => documents.put uri { doc with storedHash := hash doc.content }
  | none => documents

end Hash

/-! ## Positions -/

/-- Leave out the byte before `lineEnd` when it is the given one. -/
def stripByte (byte : UInt8) (text : Bytes) (lineOffset lineEnd : Nat) : Nat :=
  if lineEnd > lineOffset ∧ text[lineEnd - 1]? = some byte then lineEnd - 1 else lineEnd

def positionToOffset (documents : Documents) (uri text : Bytes) (line character : Int) : Nat :=
  let cached := match documents uri with
    | some doc => doc.lineStarts
    | none => []
  let lineStarts := if cached.isEmpty then lineStartsOf text else cached
  if line < 0 ∨ line.toNat ≥ lineStarts.length then text.length
  else
    let lineOffset := lineStarts.getD line.toNat 0
    let lineEnd := lineStarts.getD (line.toNat + 1) text.length
    let lineEnd := stripByte newline text lineOffset lineEnd
    let lineEnd := stripByte carriageReturn text lineOffset lineEnd
    let lineText := (text.drop lineOffset).take (lineEnd - lineOffset)
    min (lineOffset + utf16ColumnToByteOffset lineText character) text.length

end Luma.LanguageServer
