-- SUMMARY: Where the end of an HTTP body is taken from: the scan of the header block for framing fields.
import Luma.Stdlib.HttpResponse

/-! # HTTP framing

The framing of a body is found in a scan of its own, which cuts the header block at line feeds,
looks for the name of a content length at the front of a line, and for the transfer encoding
anywhere in it. -/

namespace Luma.Http

open Codec Scanning TextNumbers Protocol

/-- `content-length` -/
def contentLengthName : Bytes := [99, 111, 110, 116, 101, 110, 116, 45, 108, 101, 110, 103, 116, 104]

/-- `transfer-encoding` -/
def transferEncodingName : Bytes := [116, 114, 97, 110, 115, 102, 101, 114, 45, 101, 110, 99, 111, 100, 105, 110, 103]

/-- `chunked` -/
def chunkedText : Bytes := [99, 104, 117, 110, 107, 101, 100]

structure TransferFraming where
  contentLength : Nat := 0
  hasContentLength : Bool := false
  isChunked : Bool := false
  deriving DecidableEq

/-- The content length, if there is one. -/
def TransferFraming.length (framing : TransferFraming) : Option Nat :=
  if framing.hasContentLength then some framing.contentLength else none

def caseInsensitiveContains (haystack needle : Bytes) : Bool :=
  (splitAtMarker (needle.map toLower) (haystack.map toLower)).isSome

/-- A line with a name and a colon at its front. -/
def startsWithName (line name : Bytes) : Bool := caseInsensitiveEqual (line.take (name.length + 1)) (name ++ [58])

/-- What is behind the name and the colon, without the spaces in front. -/
def valueBehind (line name : Bytes) : Bytes := trimValue (line.drop (name.length + 1))

/-- `std::getline` until the end: what is between line feeds. -/
def getLines (text : Bytes) : List Bytes :=
  let pieces := text.splitOn 10
  if pieces.getLast? = some [] then pieces.dropLast else pieces

def withoutReturn (line : Bytes) : Bytes := if line.getLast? = some 13 then line.dropLast else line

/-- The lines that the scan looks at. -/
def framingLines (headersStr : Bytes) : List Bytes := (getLines headersStr).map withoutReturn

/-- What the scan does at a line. -/
def framingLine (framing : TransferFraming) (line : Bytes) : TransferFraming :=
  let framing :=
    if startsWithName line contentLengthName then
      match stoull (valueBehind line contentLengthName) with
      | some length => { framing with contentLength := length, hasContentLength := true }
      | none => framing
    else framing
  if caseInsensitiveContains line (transferEncodingName ++ [58]) && caseInsensitiveContains line chunkedText then
    { framing with isChunked := true }
  else framing

def parseTransferFraming (headersStr : Bytes) : TransferFraming := (framingLines headersStr).foldl framingLine {}

/-! ## Fields and their names -/

/-- A field with a name, whatever the case of its letters, and a value behind the colon. -/
def Named (line name value : Bytes) : Prop := ∃ n, line = n ++ 58 :: value ∧ 58 ∉ n ∧ caseInsensitiveEqual n name = true

theorem toLower_eq_colon (c : UInt8) : toLower c = 58 ↔ c = 58 := by
  have hall : ∀ n, n < 256 → (toLower (UInt8.ofNat n) = 58 ↔ UInt8.ofNat n = 58) := by decide +kernel
  have hc := hall c.toNat c.toNat_lt
  rwa [UInt8.ofNat_toNat] at hc

theorem colon_mem_map {n : Bytes} : 58 ∈ n.map toLower ↔ 58 ∈ n := by
  rw [List.mem_map]
  constructor
  · rintro ⟨c, hc, hlower⟩
    rwa [← (toLower_eq_colon c).mp hlower]
  · intro h
    exact ⟨58, h, rfl⟩

/-- The scan's test for a name is the test of a field's name. -/
theorem startsWithName_iff {line name : Bytes} (hname : 58 ∉ name) :
    startsWithName line name = true ↔ Named line name (line.drop (name.length + 1)) := by
  rw [startsWithName, Named, caseInsensitiveEqual, beq_iff_eq, List.map_append]
  constructor
  · intro h
    have hlength := congrArg List.length h
    rw [List.length_append, List.length_map, List.length_map] at hlength
    obtain ⟨n, c, hfront⟩ : ∃ n c, line.take (name.length + 1) = n ++ [c] := by
      rcases List.eq_nil_or_concat (line.take (name.length + 1)) with hnil | ⟨n, c, hfront⟩
      · rw [hnil] at hlength
        cases hlength
      · exact ⟨n, c, by rw [hfront, List.concat_eq_append]⟩
    rw [hfront, List.map_append] at h
    obtain ⟨hn, hc⟩ := List.append_inj' h rfl
    obtain rfl := (toLower_eq_colon c).mp (List.cons.inj hc).1
    refine ⟨n, ?_, ?_, ?_⟩
    · calc line = line.take (name.length + 1) ++ line.drop (name.length + 1) := (List.take_append_drop _ _).symm
        _ = n ++ 58 :: line.drop (name.length + 1) := by rw [hfront, List.append_assoc]; rfl
    · rw [← colon_mem_map, hn, colon_mem_map]
      exact hname
    · rw [caseInsensitiveEqual, beq_iff_eq]
      exact hn
  · rintro ⟨n, hline, -, hn⟩
    rw [caseInsensitiveEqual, beq_iff_eq] at hn
    have hlength : n.length = name.length := by
      have hsame := congrArg List.length hn
      rwa [List.length_map, List.length_map] at hsame
    have hfront : line.take (name.length + 1) = n ++ [58] := by
      have hcut : line = (n ++ [58]) ++ line.drop (name.length + 1) := by
        rw [List.append_assoc]
        exact hline
      rw [hcut, ← hlength]
      exact List.take_left' (by rw [List.length_append]; rfl)
    rw [hfront, List.map_append, hn]

/-- The value of a named field is what is behind the name. -/
theorem Named.value_eq {line name value : Bytes} (h : Named line name value) : value = line.drop (name.length + 1) := by
  obtain ⟨n, rfl, -, hn⟩ := h
  rw [caseInsensitiveEqual, beq_iff_eq] at hn
  have hlength := congrArg List.length hn
  rw [List.length_map, List.length_map] at hlength
  have hcut : n ++ 58 :: value = n ++ [58] ++ value := by
    rw [List.append_assoc]
    rfl
  rw [← hlength, hcut, List.drop_left' (by rw [List.length_append]; rfl)]

/-! ## Lines and fields -/

/-- What a line has that makes the scan select chunked framing. -/
def MentionsChunked (line : Bytes) : Prop :=
  caseInsensitiveContains line (transferEncodingName ++ [58]) = true ∧ caseInsensitiveContains line chunkedText = true

/-- The framing comes from the fields: a line at which it changes is a field that is named for
    it, and a content length is a value of decimal digits that fits. -/
structure FramedByFields (r : RawResponse) : Prop where
  chunked : ∀ line ∈ framingLines r.headerBlock, ∀ framing, (framingLine framing line).isChunked ≠ framing.isChunked →
    line ∈ r.fields ∧ ∃ value, Named line transferEncodingName value
  length : ∀ line ∈ framingLines r.headerBlock, ∀ framing, (framingLine framing line).length ≠ framing.length →
    line ∈ r.fields ∧ ∃ value, Named line contentLengthName value ∧ IsDecimal (trimValue value) ∧
      decimalValue (trimValue value) < 2 ^ 64 ∧ (framingLine framing line).length = some (decimalValue (trimValue value))
  chunked_result : (parseTransferFraming r.headerBlock).isChunked = true →
    ∃ field ∈ r.fields, ∃ value, Named field transferEncodingName value
  length_result : ∀ n ∈ (parseTransferFraming r.headerBlock).length,
    ∃ field ∈ r.fields, ∃ value, Named field contentLengthName value ∧ IsDecimal (trimValue value) ∧ n = decimalValue (trimValue value)

/-- Lines that mention a chunked transfer encoding are fields that start with its name, and lines
    that start with the name of a content length and a number are fields with that number alone. -/
structure CarefulLines (r : RawResponse) : Prop where
  chunked : ∀ line ∈ framingLines r.headerBlock, MentionsChunked line →
    line ∈ r.fields ∧ startsWithName line transferEncodingName = true
  length : ∀ line ∈ framingLines r.headerBlock, startsWithName line contentLengthName = true →
    (stoull (valueBehind line contentLengthName)).isSome = true →
      line ∈ r.fields ∧ IsDecimal (valueBehind line contentLengthName)

section Lines

variable {framing : TransferFraming} {line : Bytes}

theorem framingLine_isChunked :
    (framingLine framing line).isChunked = true ↔ framing.isChunked = true ∨ MentionsChunked line := by
  have hkept : (if startsWithName line contentLengthName then
      match stoull (valueBehind line contentLengthName) with
      | some length => { framing with contentLength := length, hasContentLength := true }
      | none => framing
    else framing).isChunked = framing.isChunked := by
    split
    · split <;> rfl
    · rfl
  rw [framingLine]
  split
  next hmentions =>
    rw [Bool.and_eq_true] at hmentions
    exact iff_of_true rfl (Or.inr hmentions)
  next hmentions =>
    rw [Bool.and_eq_true] at hmentions
    rw [hkept, or_iff_left (show ¬ MentionsChunked line from hmentions)]

/-- The number that a line sets the content length to. -/
def lengthOf (line : Bytes) : Option Nat :=
  if startsWithName line contentLengthName then stoull (valueBehind line contentLengthName) else none

theorem framingLine_length : (framingLine framing line).length = (lengthOf line).or framing.length := by
  have hkept : (if startsWithName line contentLengthName then
      match stoull (valueBehind line contentLengthName) with
      | some length => { framing with contentLength := length, hasContentLength := true }
      | none => framing
    else framing).length = (lengthOf line).or framing.length := by
    rw [lengthOf]
    split
    · cases stoull (valueBehind line contentLengthName) with
      | some length => rfl
      | none => rfl
    · rfl
  rw [framingLine, ← hkept]
  split <;> rfl

/-- A number of decimal digits is read when it fits. -/
theorem stoull_decimal {text : Bytes} (h : IsDecimal text) {n : Nat} (hn : stoull text = some n) :
    n = decimalValue text ∧ decimalValue text < 2 ^ 64 := by
  rw [stoull, leadingNumber_of_isDecimal h, Option.bind_some] at hn
  simp only at hn
  split at hn
  next hfits => exact ⟨(Option.some.inj hn).symm, hfits⟩
  · cases hn

end Lines

/-- What the scan of lines ends with was set at one of them. -/
theorem foldl_isChunked {lines : List Bytes} {framing : TransferFraming} (h : (lines.foldl framingLine framing).isChunked = true) :
    framing.isChunked = true ∨ ∃ line ∈ lines, MentionsChunked line := by
  induction lines generalizing framing with
  | nil => exact Or.inl h
  | cons line lines ih =>
    rcases ih h with hline | ⟨l, hl, hmentions⟩
    · rcases framingLine_isChunked.mp hline with hbefore | hmentions
      · exact Or.inl hbefore
      · exact Or.inr ⟨line, List.mem_cons_self, hmentions⟩
    · exact Or.inr ⟨l, List.mem_cons_of_mem _ hl, hmentions⟩

theorem foldl_length {lines : List Bytes} {framing : TransferFraming} {n : Nat} (h : (lines.foldl framingLine framing).length = some n) :
    framing.length = some n ∨ ∃ line ∈ lines, lengthOf line = some n := by
  induction lines generalizing framing with
  | nil => exact Or.inl h
  | cons line lines ih =>
    rcases ih h with hline | ⟨l, hl, hset⟩
    · rw [framingLine_length] at hline
      rcases Option.or_eq_some_iff.mp hline with hset | ⟨-, hbefore⟩
      · exact Or.inr ⟨line, List.mem_cons_self, hset⟩
      · exact Or.inl hbefore
    · exact Or.inr ⟨l, List.mem_cons_of_mem _ hl, hset⟩

/-- The framing comes from the fields just where every line is careful. -/
theorem framedByFields_iff {r : RawResponse} : FramedByFields r ↔ CarefulLines r := by
  constructor
  · intro h
    refine ⟨?_, ?_⟩
    · intro line hline hmentions
      have hchanged : (framingLine {} line).isChunked ≠ ({} : TransferFraming).isChunked := by
        rw [framingLine_isChunked.mpr (Or.inr hmentions)]
        decide
      obtain ⟨hfield, value, hnamed⟩ := h.chunked line hline {} hchanged
      refine ⟨hfield, (startsWithName_iff (by decide)).mpr ?_⟩
      rwa [← hnamed.value_eq]
    · intro line hline hname hnumber
      obtain ⟨n, hn⟩ := Option.isSome_iff_exists.mp hnumber
      have hset : lengthOf line = some n := by rw [lengthOf, if_pos hname, hn]
      have hchanged : (framingLine {} line).length ≠ ({} : TransferFraming).length := by
        rw [framingLine_length, hset]
        exact fun heq => Option.some_ne_none n heq
      obtain ⟨hfield, value, hnamed, hdecimal, -, -⟩ := h.length line hline {} hchanged
      rw [hnamed.value_eq] at hdecimal
      exact ⟨hfield, hdecimal⟩
  · intro h
    have hchunked : ∀ line ∈ framingLines r.headerBlock, MentionsChunked line →
        line ∈ r.fields ∧ ∃ value, Named line transferEncodingName value := by
      intro line hline hmentions
      obtain ⟨hfield, hname⟩ := h.chunked line hline hmentions
      exact ⟨hfield, _, (startsWithName_iff (by decide)).mp hname⟩
    have hlength : ∀ line ∈ framingLines r.headerBlock, ∀ n, lengthOf line = some n →
        line ∈ r.fields ∧ ∃ value, Named line contentLengthName value ∧ IsDecimal (trimValue value) ∧
          decimalValue (trimValue value) < 2 ^ 64 ∧ n = decimalValue (trimValue value) := by
      intro line hline n hset
      rw [lengthOf] at hset
      split at hset
      next hname =>
        obtain ⟨hfield, hdecimal⟩ := h.length line hline hname (Option.isSome_iff_exists.mpr ⟨n, hset⟩)
        obtain ⟨hvalue, hfits⟩ := stoull_decimal hdecimal hset
        exact ⟨hfield, _, (startsWithName_iff (by decide)).mp hname, hdecimal, hfits, hvalue⟩
      · cases hset
    refine ⟨?_, ?_, ?_, ?_⟩
    · intro line hline framing hchanged
      apply hchunked line hline
      by_contra hno
      refine hchanged ?_
      rw [Bool.eq_iff_iff, framingLine_isChunked, or_iff_left hno]
    · intro line hline framing hchanged
      rw [framingLine_length] at hchanged ⊢
      cases hset : lengthOf line with
      | none =>
        rw [hset] at hchanged
        exact absurd rfl hchanged
      | some n =>
        obtain ⟨hfield, value, hnamed, hdecimal, hfits, hvalue⟩ := hlength line hline n hset
        exact ⟨hfield, value, hnamed, hdecimal, hfits, congrArg some hvalue⟩
    · intro hresult
      rcases foldl_isChunked hresult with hstart | ⟨line, hline, hmentions⟩
      · cases hstart
      · obtain ⟨hfield, hnamed⟩ := hchunked line hline hmentions
        exact ⟨line, hfield, hnamed⟩
    · intro n hresult
      rcases foldl_length hresult with hstart | ⟨line, hline, hset⟩
      · cases hstart
      · obtain ⟨hfield, value, hnamed, hdecimal, -, hvalue⟩ := hlength line hline n hset
        exact ⟨line, hfield, value, hnamed, hdecimal, hvalue⟩

/-- Every text with an empty line in it is a response by its parts; the body of a response is
    found, and its framing comes from its fields, just where the response is regular and the
    lines in front of the empty line are careful. -/
theorem response_framing (limits : HttpLimits) :
    (∀ raw : Bytes, crlf ++ crlf <:+: raw → ∃ r : RawResponse, r.text = raw) ∧
    ∀ r : RawResponse, splitAtMarker (crlf ++ crlf) r.text = some (r.headerBlock, r.body) ∧
      (((parseResponse limits r.text).body = r.body ∧ FramedByFields r) ↔
        (r.Regular limits ∨ (parseStatusLine r.statusLine = none ∧ r.body = [])) ∧ CarefulLines r) :=
  ⟨fun _ => exists_rawResponse, fun r => ⟨r.splitAtMarker_text, and_congr parseResponse_body_iff framedByFields_iff⟩⟩

/-- `X: transfer-encoding: chunked` behind `HTTP/1.1 200`. -/
def chunkedNote : RawResponse where
  statusLine := [72, 84, 84, 80, 47, 49, 46, 49, 32, 50, 48, 48]
  fields := [[88, 58, 32] ++ transferEncodingName ++ [58, 32] ++ chunkedText]
  body := []
  statusLine_line := by decide
  fields_line := by
    intro line hline
    rw [List.mem_singleton] at hline
    rw [hline]
    exact ⟨by decide, by decide⟩

/-- The value of another field selects chunked framing. -/
theorem chunkedNote_selects :
    (parseTransferFraming chunkedNote.headerBlock).isChunked = true ∧
      ¬ ∃ field ∈ chunkedNote.fields, ∃ value, Named field transferEncodingName value := by
  refine ⟨by decide +kernel, ?_⟩
  rintro ⟨field, hfield, value, hnamed⟩
  obtain rfl : field = [88, 58, 32] ++ transferEncodingName ++ [58, 32] ++ chunkedText := List.mem_singleton.mp hfield
  have hvalue := hnamed.value_eq
  subst hvalue
  exact absurd ((startsWithName_iff (by decide)).mpr hnamed) (by decide)

end Luma.Http
