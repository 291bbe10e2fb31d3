-- SUMMARY: The XML codec: the serializer of element trees and the recursive-descent parser.
import Luma.Library.BigEndian
import Luma.Library.Scanning

/-! # XML

Serialisation and parsing of element trees. Strings are byte strings. The parser
works on the rest of its input; the size of the whole input gives the positions
in its errors. Its limits on children and on text are the runtime's limits. -/

namespace Luma.Xml

open Codec Scanning

/-- The deepest nesting of elements. -/
def maxXmlDepth : Nat := 128

inductive XmlValue where
  | element (tag : Bytes) (attributes : List (Bytes × Bytes)) (children : List XmlValue)
  | text (content : Bytes)
  | comment (content : Bytes)
  | cdata (content : Bytes)

namespace XmlValue

def isElement : XmlValue → Bool
  | element _ _ _ => true
  | _ => false

end XmlValue

/-! ## Characters -/

/-- `'<'`. -/
def lt : UInt8 := 60

/-- `'>'`. -/
def gt : UInt8 := 62

/-- `'&'`. -/
def amp : UInt8 := 38

/-- `'"'`. -/
def quot : UInt8 := 34

/-- `'\''`. -/
def apos : UInt8 := 39

/-- `'/'`. -/
def slash : UInt8 := 47

/-- `'='`. -/
def equals : UInt8 := 61

/-- `';'`. -/
def semicolon : UInt8 := 59

/-- `'-'`. -/
def dash : UInt8 := 45

/-- `' '`. -/
def space : UInt8 := 32

/-- `']'`. -/
def bracket : UInt8 := 93

/-- `<!--`. -/
def commentOpen : Bytes := [60, 33, 45, 45]

/-- `-->`. -/
def commentClose : Bytes := [45, 45, 62]

/-- `<![CDATA[`. -/
def cdataOpen : Bytes := [60, 33, 91, 67, 68, 65, 84, 65, 91]

/-- `]]>`. -/
def cdataClose : Bytes := [93, 93, 62]

/-- `std::isspace` in the C locale. -/
def isSpace (c : UInt8) : Bool := c = 32 || 9 ≤ c && c ≤ 13

/-- Letters, digits and `_`, `-`, `.`, `:`. -/
def isXmlNameChar (c : UInt8) : Bool :=
  97 ≤ c && c ≤ 122 || 65 ≤ c && c ≤ 90 || 48 ≤ c && c ≤ 57 || c = 95 || c = 45 || c = 46 || c = 58

def isValidXmlName (name : Bytes) : Bool := !name.isEmpty && name.all isXmlNameChar

/-! ## Serialisation -/

/-- The names of the five predefined entities. -/
def entityName (c : UInt8) : Option Bytes :=
  if c = lt then some [108, 116]
  else if c = gt then some [103, 116]
  else if c = amp then some [97, 109, 112]
  else if c = quot then some [113, 117, 111, 116]
  else if c = apos then some [97, 112, 111, 115]
  else none

def tryEscape (c : UInt8) : Option Bytes := (entityName c).map fun name => amp :: name ++ [semicolon]

def xmlEscapeString (input : Bytes) : Bytes := input.flatMap fun c => (tryEscape c).getD [c]

/-- Close and reopen the section within every `]]>`. -/
def splitCdata : Bytes → Bytes
  | 93 :: 93 :: 62 :: rest => [bracket, bracket] ++ cdataClose ++ cdataOpen ++ gt :: splitCdata rest
  | c :: rest => c :: splitCdata rest
  | [] => []

def serializeCdata (content : Bytes) : Bytes := cdataOpen ++ splitCdata content ++ cdataClose

/-- Replace every `--`, from left to right, with `- -`. -/
def spaceDashes : Bytes → Bytes
  | 45 :: 45 :: rest => dash :: space :: dash :: spaceDashes rest
  | c :: rest => c :: spaceDashes rest
  | [] => []

def serializeComment (content : Bytes) : Bytes := commentOpen ++ spaceDashes content ++ commentClose

structure XmlSerializeOptions where
  indent : Nat := 0
  pretty : Bool := false

/-- A line break and the indentation of a node. -/
def XmlSerializeOptions.newline (options : XmlSerializeOptions) (depth : Nat) : Bytes :=
  10 :: List.replicate (options.indent * depth) space

def serializeAttributes (attributes : List (Bytes × Bytes)) : Bytes :=
  attributes.flatMap fun (k, v) => space :: k ++ equals :: quot :: xmlEscapeString v ++ [quot]

/-- Nodes below the root start on a line of their own when the output is pretty. -/
def lineStart (options : XmlSerializeOptions) (depth : Nat) : Bytes :=
  if options.pretty && depth > 0 then options.newline depth else []

mutual

/-- The text of a node, unless its elements nest too deep. -/
def serializeXml (options : XmlSerializeOptions) (depth : Nat) : XmlValue → Except String Bytes
  | .text content => .ok (lineStart options depth ++ xmlEscapeString content)
  | .cdata content => .ok (lineStart options depth ++ serializeCdata content)
  | .comment content => .ok (lineStart options depth ++ serializeComment content)
  | .element tag attributes children =>
    if depth > maxXmlDepth then .error "XML nesting too deep"
    else
      let start := lineStart options depth ++ lt :: tag ++ serializeAttributes attributes
      if children.isEmpty then .ok (start ++ [slash, gt])
      else
        let textOnly := !children.any XmlValue.isElement
        let body :=
          if textOnly then serializeChildren {} 0 children else serializeChildren options (depth + 1) children
        body.map fun body =>
          start ++ gt :: body ++ (if options.pretty && !textOnly then options.newline depth else []) ++
            lt :: slash :: tag ++ [gt]

def serializeChildren (options : XmlSerializeOptions) (depth : Nat) : List XmlValue → Except String Bytes
  | [] => .ok []
  | child :: children => do
    let first ← serializeXml options depth child
    let others ← serializeChildren options depth children
    return first ++ others

end

/-- `Xml.serialize`. -/
def serialize (node : XmlValue) : Except String Bytes := serializeXml {} 0 node

/-- `Xml.serialize_pretty`. -/
def serializePretty (node : XmlValue) : Except String Bytes := serializeXml { indent := 2, pretty := true } 0 node

/-! ## Parsing -/

/-- Why an input is rejected; without a position where none can be pinpointed. The fuel of
    `xmlParseString` never runs out. -/
inductive XmlError where
  | parse (message : String) (position : Option Nat)
  | outOfFuel
  deriving DecidableEq

def unexpectedEnd : XmlError := .parse "unexpected end of XML" none

def tooDeep : XmlError := .parse "XML nesting too deep" none

/-- The characters of a name or a marker in a message. -/
def display (bytes : Bytes) : String := String.ofList (bytes.map fun b => Char.ofNat b.toNat)

section Parser

variable (maxArraySize maxStringSize size : Nat)

/-- The position of the cursor when `rest` is left. -/
def position (rest : Bytes) : Nat := size - rest.length

def expected (c : UInt8) (rest : Bytes) : XmlError :=
  let shown := display [c]
  let position := position size rest
  .parse s!"expected '{shown}' at position {position}" (some position)

def advance : Bytes → Except XmlError (UInt8 × Bytes)
  | [] => .error unexpectedEnd
  | c :: rest => .ok (c, rest)

/-- Consume one character, which has to be `c`. -/
def expect (c : UInt8) (rest : Bytes) : Except XmlError Bytes := do
  let (d, after) ← advance rest
  if d ≠ c then throw (expected size c rest)
  return after

def skipWhitespace (rest : Bytes) : Bytes := rest.dropWhile isSpace

def skipUntil (marker : Bytes) (rest : Bytes) : Except XmlError Bytes :=
  match splitAtMarker marker rest with
  | some (_, after) => .ok after
  | none =>
    let shown := display marker
    .error (.parse s!"expected '{shown}' not found" (some (position size rest)))

def parseName (rest : Bytes) : Except XmlError (Bytes × Bytes) :=
  let name := rest.takeWhile isXmlNameChar
  let position := position size rest
  if name = [] then .error (.parse s!"expected name at position {position}" (some position))
  else .ok (name, rest.dropWhile isXmlNameChar)

/-- The characters an entity reference stands for; an unknown one stands for itself. -/
def decodeEntity (entity : Bytes) : Bytes :=
  if entity = [108, 116] then [lt]
  else if entity = [103, 116] then [gt]
  else if entity = [97, 109, 112] then [amp]
  else if entity = [97, 112, 111, 115] then [apos]
  else if entity = [113, 117, 111, 116] then [quot]
  else amp :: entity ++ [semicolon]

/-- What follows a `&`. An unterminated reference is raw text. -/
def parseEntity (rest : Bytes) : Bytes × Bytes :=
  let entity := rest.takeWhile (· ≠ semicolon)
  match rest.dropWhile (· ≠ semicolon) with
  | [] => (amp :: entity, [])
  | _ :: after => (decodeEntity entity, after)

-- The equations of the definitions are derived here, once for all proofs.
section
attribute [local simp] XmlValue.isElement splitCdata spaceDashes serializeXml serializeChildren
  advance skipUntil parseEntity
end

theorem parseEntity_length (rest : Bytes) : (parseEntity rest).2.length ≤ rest.length := by
  have hsub := List.length_dropWhile_le (· ≠ semicolon) rest
  unfold parseEntity
  split
  · exact Nat.zero_le _
  next c after heq =>
    rw [heq] at hsub
    exact Nat.le_of_succ_le hsub

/-- The value of an attribute up to its closing quote. -/
def attributeValueFrom (quoteChar : UInt8) (result : Bytes) : Bytes → Bytes × Bytes
  | [] => (result, [])
  | c :: rest =>
    if c = quoteChar then (result, c :: rest)
    else if c = amp then attributeValueFrom quoteChar (result ++ (parseEntity rest).1) (parseEntity rest).2
    else attributeValueFrom quoteChar (result ++ [c]) rest
termination_by rest => rest.length
decreasing_by
  · exact Nat.lt_succ_of_le (parseEntity_length rest)
  · exact Nat.lt_succ_self _

def parseAttributeValue (rest : Bytes) : Except XmlError (Bytes × Bytes) := do
  let (quoteChar, inside) ← advance rest
  if quoteChar ≠ quot ∧ quoteChar ≠ apos then
    throw (.parse "expected quote for attribute value" (some (position size rest)))
  let (value, closing) := attributeValueFrom quoteChar [] inside
  let after ← expect size quoteChar closing
  return (value, after)

/-- The text up to the next `<`. -/
def parseTextFrom (result : Bytes) : Bytes → Except XmlError (Bytes × Bytes)
  | [] => .ok (result, [])
  | c :: rest =>
    if c = lt then .ok (result, c :: rest)
    else if result.length ≥ maxStringSize then
      .error (.parse "XML text content exceeds maximum string size" (some (position size (c :: rest))))
    else if c = amp then parseTextFrom (result ++ (parseEntity rest).1) (parseEntity rest).2
    else parseTextFrom (result ++ [c]) rest
termination_by rest => rest.length
decreasing_by
  · exact Nat.lt_succ_of_le (parseEntity_length rest)
  · exact Nat.lt_succ_self _

def parseText (rest : Bytes) : Except XmlError (Bytes × Bytes) := parseTextFrom maxStringSize size [] rest

/-- Whether the cursor is at the end of a start tag. -/
def atTagEnd (rest : Bytes) : Bool := rest.head? = some slash || rest.head? = some gt

/-- Attributes until `/` or `>`. -/
def parseAttributes : (fuel : Nat) → List (Bytes × Bytes) → Bytes → Except XmlError (List (Bytes × Bytes) × Bytes)
  | 0, _, _ => .error .outOfFuel
  | fuel + 1, attributes, rest =>
    if rest = [] then .ok (attributes, rest)
    else if atTagEnd (skipWhitespace rest) then .ok (attributes, skipWhitespace rest)
    else do
      let (name, rest) ← parseName size (skipWhitespace rest)
      let rest ← expect size equals (skipWhitespace rest)
      let (value, rest) ← parseAttributeValue size (skipWhitespace rest)
      parseAttributes fuel (attributes ++ [(name, value)]) rest

/-- The node a text stands for: whitespace alone stands for none. -/
def textNode (text : Bytes) : List XmlValue := if text.all isSpace then [] else [.text text]

/-- A single child: a comment, a CDATA section, an element or text. -/
def parseChildNode (parseElement : Bytes → Except XmlError (XmlValue × Bytes)) (rest : Bytes) :
    Except XmlError (List XmlValue × Bytes) :=
  if commentOpen.isPrefixOf rest then
    match splitAtMarker commentClose (rest.drop 4) with
    | some (content, after) => .ok ([.comment content], after)
    | none => .error (.parse "unterminated comment" (some (position size (rest.drop 4))))
  else if cdataOpen.isPrefixOf rest then
    match splitAtMarker cdataClose (rest.drop 9) with
    | some (content, after) => .ok ([.cdata content], after)
    | none => .error (.parse "unterminated CDATA" (some (position size (rest.drop 9))))
  else if rest.head? = some lt then do
    let (element, after) ← parseElement rest
    return ([element], after)
  else do
    let (text, after) ← parseText maxStringSize size rest
    return (textNode text, after)

mutual

/-- An element, inside `depth` others. -/
def parseElement : (fuel depth : Nat) → Bytes → Except XmlError (XmlValue × Bytes)
  | 0, _, _ => .error .outOfFuel
  | fuel + 1, depth, rest => do
    if depth + 1 > maxXmlDepth then throw tooDeep
    let rest ← expect size lt rest
    let (name, rest) ← parseName size rest
    let (attributes, rest) ← parseAttributes size (rest.length + 1) [] rest
    if rest.head? = some slash then
      let rest ← expect size gt rest.tail
      return (.element name attributes [], rest)
    else
      let rest ← expect size gt rest
      let (children, rest) ← parseChildren fuel (depth + 1) [] rest
      let rest ← expect size lt rest
      let rest ← expect size slash rest
      let (closeName, rest) ← parseName size rest
      if closeName ≠ name then
        let opened := display name
        let closed := display closeName
        throw (.parse s!"mismatched closing tag: expected </{opened}>, got </{closed}>" (some (position size rest)))
      let rest ← expect size gt (skipWhitespace rest)
      return (.element name attributes children, rest)

/-- Children until `</` or the end of the input. -/
def parseChildren : (fuel depth : Nat) → List XmlValue → Bytes → Except XmlError (List XmlValue × Bytes)
  | 0, _, _, _ => .error .outOfFuel
  | fuel + 1, depth, children, rest =>
    if rest = [] then .ok (children, rest)
    else if [lt, slash].isPrefixOf (skipWhitespace rest) then .ok (children, skipWhitespace rest)
    else if children.length ≥ maxArraySize then
      .error (.parse "XML element has too many children" (some (position size (skipWhitespace rest))))
    else do
      let (child, rest) ← parseChildNode maxStringSize size (parseElement fuel depth) (skipWhitespace rest)
      parseChildren fuel depth (children ++ child) rest

end

end Parser

/-- `<?xml`. -/
def xmlDeclaration : Bytes := [60, 63, 120, 109, 108]

/-- `<!DOCTYPE` and `<!doctype`. -/
def doctypes : List Bytes := [[60, 33, 68, 79, 67, 84, 89, 80, 69], [60, 33, 100, 111, 99, 116, 121, 112, 101]]

/-- `Xml.deserialize`. -/
def xmlParseString (maxArraySize maxStringSize : Nat) (input : Bytes) : Except XmlError XmlValue := do
  let size := input.length
  let rest := skipWhitespace input
  let rest ← if xmlDeclaration.isPrefixOf rest then skipUntil size [63, 62] rest else pure rest
  let rest := skipWhitespace rest
  if doctypes.any (·.isPrefixOf rest) then
    throw (.parse "XML DOCTYPE declarations are not supported (security: external entity injection risk)"
      (some (position size rest)))
  let (result, rest) ← parseElement maxArraySize maxStringSize size (size + 1) 0 rest
  let rest := skipWhitespace rest
  let position := position size rest
  if rest ≠ [] then throw (.parse s!"unexpected content after root element at position {position}" (some position))
  return result

end Luma.Xml
