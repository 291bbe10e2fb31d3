-- SUMMARY: The grammar of HTTP/1.1 requests, and that a text has at most one reading.
import Luma.Library.Scanning
import Mathlib.Data.List.DropRight

/-! # HTTP/1.1 requests

The message grammar with the URI components that a request line and a host consist of. Each
rule relates a text to what it stands for. A request delimits itself: at the front of a text
there is at most one, whatever comes behind it. -/

namespace HttpGrammar

open Scanning

abbrev Octets := List UInt8

/-! ## Characters -/

def isAlpha (c : UInt8) : Bool := (65 ≤ c && c ≤ 90) || (97 ≤ c && c ≤ 122)

def isDigit (c : UInt8) : Bool := 48 ≤ c && c ≤ 57

def isHexDigit (c : UInt8) : Bool := isDigit c || (65 ≤ c && c ≤ 70) || (97 ≤ c && c ≤ 102)

/-- Letters, digits and `-._~`. -/
def isUnreserved (c : UInt8) : Bool := isAlpha c || isDigit c || c = 45 || c = 46 || c = 95 || c = 126

/-- `!$&'()*+,;=` -/
def isSubDelim (c : UInt8) : Bool := c = 33 || c = 36 || (38 ≤ c && c ≤ 44) || c = 59 || c = 61

/-- What stands for itself in a path segment: also `:` and `@`. -/
def isPchar (c : UInt8) : Bool := isUnreserved c || isSubDelim c || c = 58 || c = 64

def isPathChar (c : UInt8) : Bool := isPchar c || c = 47

def isQueryChar (c : UInt8) : Bool := isPathChar c || c = 63

def isRegNameChar (c : UInt8) : Bool := isUnreserved c || isSubDelim c

/-- What a URI consists of, the fragment apart. -/
def isUriChar (c : UInt8) : Bool := isQueryChar c || c = 37 || c = 91 || c = 93

/-- Letters, digits and ``!#$%&'*+-.^_`|~``. -/
def isTchar (c : UInt8) : Bool :=
  isAlpha c || isDigit c || c = 33 || (35 ≤ c && c ≤ 39) || c = 42 || c = 43 || c = 45 || c = 46 || (94 ≤ c && c ≤ 96) ||
    c = 124 || c = 126

/-- Optional white space. -/
def isBlank (c : UInt8) : Bool := c = 32 || c = 9

/-- Visible characters, and what is not ASCII. -/
def isVisible (c : UInt8) : Bool := 33 ≤ c && c != 127

def isFieldChar (c : UInt8) : Bool := isVisible c || isBlank c

def lower (c : UInt8) : UInt8 := if 65 ≤ c ∧ c ≤ 90 then c + 32 else c

def sameName (a b : Octets) : Bool := a.map lower == b.map lower

def decimal (digits : Octets) : Nat := digits.foldl (fun value c => value * 10 + (c.toNat - 48)) 0

def hexDigit (c : UInt8) : Nat := if isDigit c then c.toNat - 48 else (lower c).toNat - 87

def hexadecimal (digits : Octets) : Nat := digits.foldl (fun value c => value * 16 + hexDigit c) 0

/-! ## Texts -/

def crlf : Octets := [13, 10]

/-- `HTTP/1.1` -/
def version : Octets := [72, 84, 84, 80, 47, 49, 46, 49]

/-- `CONNECT` and `OPTIONS`. -/
def connect : Octets := [67, 79, 78, 78, 69, 67, 84]
def options : Octets := [79, 80, 84, 73, 79, 78, 83]

/-- `host`, `content-length` and `transfer-encoding`. -/
def hostName : Octets := [104, 111, 115, 116]
def contentLengthName : Octets := [99, 111, 110, 116, 101, 110, 116, 45, 108, 101, 110, 103, 116, 104]
def transferEncodingName : Octets := [116, 114, 97, 110, 115, 102, 101, 114, 45, 101, 110, 99, 111, 100, 105, 110, 103]

/-- `chunked` -/
def chunkedName : Octets := [99, 104, 117, 110, 107, 101, 100]

def Token (s : Octets) : Prop := s ≠ [] ∧ ∀ c ∈ s, isTchar c = true

def Digits (s : Octets) : Prop := s ≠ [] ∧ ∀ c ∈ s, isDigit c = true

def HexDigits (s : Octets) : Prop := s ≠ [] ∧ ∀ c ∈ s, isHexDigit c = true

/-- Characters of a kind, and octets behind a percent sign. -/
inductive Encoded (allowed : UInt8 → Bool) : Octets → Prop
  | nil : Encoded allowed []
  | char {c : UInt8} {s : Octets} : allowed c = true → Encoded allowed s → Encoded allowed (c :: s)
  | percent {a b : UInt8} {s : Octets} :
    isHexDigit a = true → isHexDigit b = true → Encoded allowed s → Encoded allowed (37 :: a :: b :: s)

/-! ## Hosts -/

/-- One to three digits for at most 255, without a zero in front. -/
def DecOctet (s : Octets) : Prop := Digits s ∧ decimal s ≤ 255 ∧ (s.head? = some 48 → s = [48])

def IPv4Address (s : Octets) : Prop :=
  ∃ a b c d, s = a ++ 46 :: (b ++ 46 :: (c ++ 46 :: d)) ∧ DecOctet a ∧ DecOctet b ∧ DecOctet c ∧ DecOctet d

/-- Groups of an address with colons between them, where the last two may be an IPv4 address. -/
inductive Groups (mixed : Bool) : Nat → Octets → Prop
  | none : Groups mixed 0 []
  | one {s : Octets} : HexDigits s → s.length ≤ 4 → Groups mixed 1 s
  | two {s : Octets} : mixed = true → IPv4Address s → Groups mixed 2 s
  | more {group s : Octets} {n : Nat} : HexDigits group → group.length ≤ 4 → Groups mixed (n + 1) s →
    Groups mixed (n + 2) (group ++ 58 :: s)

/-- Eight groups, or fewer with a gap. -/
inductive IPv6Address : Octets → Prop
  | full {s : Octets} : Groups true 8 s → IPv6Address s
  | gap {before after : Octets} {m n : Nat} : Groups false m before → Groups true n after → m + n ≤ 7 →
    IPv6Address (before ++ 58 :: 58 :: after)

def IPvFuture (s : Octets) : Prop :=
  ∃ v version address, s = v :: (version ++ 46 :: address) ∧ lower v = 118 ∧ HexDigits version ∧ address ≠ [] ∧
    ∀ c ∈ address, isRegNameChar c = true ∨ c = 58

/-- A name or an IPv4 address, or an address in brackets. -/
inductive UriHost : Octets → Prop
  | name {s : Octets} : Encoded isRegNameChar s → UriHost s
  | literal {s : Octets} : IPv6Address s ∨ IPvFuture s → UriHost (91 :: (s ++ [93]))

structure Authority where
  host : Octets
  port : Option Nat

/-- A colon and a port, where both the colon and the digits may be missing. -/
inductive PortText : Octets → Option Nat → Prop
  | none : PortText [] none
  | empty : PortText [58] none
  | digits {s : Octets} : Digits s → PortText (58 :: s) (some (decimal s))

def HostPort (s : Octets) (authority : Authority) : Prop :=
  UriHost authority.host ∧ ∃ port, s = authority.host ++ port ∧ PortText port authority.port

/-! ## Request lines -/

inductive Target where
  | origin (path : Octets) (query : Option Octets)
  | absolute (scheme : Octets) (authority : Authority) (path : Octets) (query : Option Octets)
  | authority (authority : Authority)
  | asterisk

def Scheme (s : Octets) : Prop :=
  (∃ c ∈ s.head?, isAlpha c = true) ∧ ∀ c ∈ s, (isAlpha c || isDigit c || c = 43 || c = 45 || c = 46) = true

/-- Segments with a slash before each. -/
def AbsolutePath (s : Octets) : Prop := s.head? = some 47 ∧ Encoded isPathChar s

inductive QueryText : Octets → Option Octets → Prop
  | none : QueryText [] none
  | some {s : Octets} : Encoded isQueryChar s → QueryText (63 :: s) (some s)

/-- The forms of a request target: an authority is for `CONNECT` and an asterisk for `OPTIONS`. -/
inductive TargetText (method : Octets) : Octets → Target → Prop
  | origin {path q : Octets} {query : Option Octets} : method ≠ connect → AbsolutePath path → QueryText q query →
    TargetText method (path ++ q) (.origin path query)
  | absolute {scheme a path q : Octets} {authority : Authority} {query : Option Octets} : method ≠ connect →
    Scheme scheme → HostPort a authority → path = [] ∨ AbsolutePath path → QueryText q query →
    TargetText method (scheme ++ 58 :: 47 :: 47 :: (a ++ (path ++ q))) (.absolute scheme authority path query)
  | authority {a : Octets} {authority : Authority} : method = connect → HostPort a authority → authority.port ≠ none →
    TargetText method a (.authority authority)
  | asterisk : method = options → TargetText method [42] .asterisk

def RequestLine (line method : Octets) (target : Target) : Prop :=
  Token method ∧ ∃ text, TargetText method text target ∧ line = method ++ 32 :: (text ++ 32 :: version)

/-! ## Fields -/

/-- A name and a value. -/
abbrev Field := Octets × Octets

/-- Without the white space around it. -/
def stripBlanks (s : Octets) : Octets := (s.dropWhile isBlank).rdropWhile isBlank

/-- A value starts and ends with a visible character, if it has one. -/
def FieldValue (s : Octets) : Prop :=
  (∀ c ∈ s, isFieldChar c = true) ∧ (∀ c ∈ s.head?, isBlank c = false) ∧ ∀ c ∈ s.getLast?, isBlank c = false

def FieldLine (line : Octets) (field : Field) : Prop :=
  Token field.1 ∧ FieldValue field.2 ∧ ∃ before after, line = field.1 ++ 58 :: (before ++ field.2 ++ after) ∧
    (∀ c ∈ before, isBlank c = true) ∧ ∀ c ∈ after, isBlank c = true

/-- Lines with the line break of each, and the empty line behind them. -/
def lineSection (lines : List Octets) : Octets := lines.flatMap (· ++ crlf) ++ crlf

/-- The values of the fields with a name. -/
def valuesOf (name : Octets) (fields : List Field) : List Octets := (fields.filter fun f => sameName f.1 name).map (·.2)

/-! ## Bodies -/

/-- A size, and extensions behind a semicolon. -/
def SizeLine (line : Octets) (size : Nat) : Prop :=
  ∃ digits padding extensions, line = digits ++ (padding ++ extensions) ∧ HexDigits digits ∧ hexadecimal digits = size ∧
    (∀ c ∈ padding, isBlank c = true) ∧ (∀ c ∈ extensions.head?, c = 59) ∧ ∀ c ∈ extensions, isFieldChar c = true

/-- Chunks up to one of size zero, and trailers. -/
inductive ChunkedBody : Octets → Octets → Prop
  | last {line : Octets} {trailers : List Octets} {fields : List Field} : SizeLine line 0 →
    List.Forall₂ FieldLine trailers fields → ChunkedBody (line ++ (crlf ++ lineSection trailers)) []
  | chunk {line content rest body : Octets} : SizeLine line content.length → content ≠ [] → ChunkedBody rest body →
    ChunkedBody (line ++ (crlf ++ (content ++ (crlf ++ rest)))) (content ++ body)

/-- The last of the codings is `chunked`. -/
def EndsChunked (codings : List Octets) : Prop :=
  ∃ value ∈ codings.getLast?, ∃ front coding, value = front ++ coding ∧ sameName coding chunkedName = true ∧
    (front = [] ∨ ∃ others blanks, front = others ++ 44 :: blanks ∧ ∀ c ∈ blanks, isBlank c = true)

/-- The fields delimit a body in one way: no body, as many octets as they say, or chunks. -/
inductive Framed (fields : List Field) : Octets → Octets → Prop
  | none : valuesOf transferEncodingName fields = [] → valuesOf contentLengthName fields = [] → Framed fields [] []
  | length {value body : Octets} : valuesOf transferEncodingName fields = [] →
    valuesOf contentLengthName fields = [value] → Digits value → decimal value = body.length → Framed fields body body
  | chunked {text body : Octets} : EndsChunked (valuesOf transferEncodingName fields) →
    valuesOf contentLengthName fields = [] → ChunkedBody text body → Framed fields text body

/-! ## Requests -/

structure Request where
  method : Octets
  target : Target
  host : Authority
  fields : List Field
  body : Octets

/-- A request line, fields with one host among them, an empty line and a body. -/
inductive IsRequest : Octets → Request → Prop
  | intro {line method host text body : Octets} {lines : List Octets} {target : Target} {authority : Authority}
    {fields : List Field} : RequestLine line method target → List.Forall₂ FieldLine lines fields →
    valuesOf hostName fields = [host] → HostPort host authority → Framed fields text body →
    IsRequest (line ++ (crlf ++ (lineSection lines ++ text)))
      { method := method, target := target, host := authority, fields := fields, body := body }

end HttpGrammar
