-- SUMMARY: ISO 8601 texts: the parser, the formatter, and which texts the parser takes too leniently.
import Luma.Stdlib.Datetime
import Luma.Stdlib.DatetimeArithmetic
import Luma.Stdlib.TextNumbers

/-! # ISO 8601 texts

The parser reads every field as a signed integer of any width, and checks the ranges of the
date and of the time of day afterwards, but not of the offset. -/

namespace Luma.Datetime

open Codec TextNumbers

/-! ## The parser -/

inductive IsoParseErrorKind where
  | empty
  | invalidFormat
  | outOfRange
  | unsupportedPrecision
  deriving DecidableEq, Repr

structure IsoParseError where
  error : String
  kind : IsoParseErrorKind
  deriving DecidableEq, Repr

/-- An integer as `std::from_chars` reads it: an optional minus sign and digits, of 32 bits. -/
def parseIntField (rest : Bytes) : Option (Int × Bytes) :=
  let negative := rest.head? = some 45
  let body := if negative then rest.tail else rest
  let digits := body.takeWhile isDigit
  if digits = [] then none
  else
    let value : Int := if negative then -decimalValue digits else decimalValue digits
    if NarrowInt value then some (value, body.dropWhile isDigit) else none

def consume (rest : Bytes) (expected : UInt8) : Option Bytes :=
  if rest.head? = some expected then some rest.tail else none

def skipWhitespace (rest : Bytes) : Bytes := rest.dropWhile isSpace

/-- Three integers with a separator between them: a date or a time of day. -/
def parseThreeFields (rest : Bytes) (separator : UInt8) : Option ((Int × Int × Int) × Bytes) := do
  let first ← parseIntField rest
  let rest ← consume first.2 separator
  let second ← parseIntField rest
  let rest ← consume second.2 separator
  let third ← parseIntField rest
  some ((first.1, second.1, third.1), third.2)

/-- The time portion behind a `T`; midnight where there is none. -/
def parseTime (rest : Bytes) : Except IsoParseError ((Int × Int × Int) × Bytes) :=
  if rest.head? = some 84 ∨ rest.head? = some 116 then
    match parseThreeFields rest.tail 58 with
    | none => .error ⟨"cannot parse time in ISO string", .invalidFormat⟩
    | some time =>
      if time.2.head? = some 46 then .error ⟨"sub-second precision is not supported", .unsupportedPrecision⟩
      else .ok time
  else .ok ((0, 0, 0), rest)

/-- The hours and minutes of an offset. -/
def parseOffset (rest : Bytes) : Option ((Int × Int) × Bytes) := do
  let hours ← parseIntField rest
  let rest ← consume hours.2 58
  let minutes ← parseIntField rest
  some ((hours.1, minutes.1), minutes.2)

/-- The offset in seconds. The sign of a zero is left out, which no sum sees. -/
def offsetSeconds (negative : Bool) (offset : Int × Int) : Binary64 :=
  let seconds := ((Binary64.ofInt offset.1).wholeProduct (Binary64.ofInt 3600)).wholeSum
    ((Binary64.ofInt offset.2).wholeProduct (Binary64.ofInt 60))
  if negative then (Binary64.ofInt 0).wholeDifference seconds else seconds

/-- The time zone: `Z`, an offset, or nothing. -/
def parseZone (rest : Bytes) : Except IsoParseError (Binary64 × Bytes) :=
  if rest.head? = some 90 ∨ rest.head? = some 122 then .ok (Binary64.ofInt 0, rest.tail)
  else if rest.head? = some 43 ∨ rest.head? = some 45 then
    match parseOffset rest.tail with
    | none => .error ⟨"cannot parse timezone offset in ISO string", .invalidFormat⟩
    | some offset => .ok (offsetSeconds (rest.head? = some 45) offset.1, offset.2)
  else .ok (Binary64.ofInt 0, rest)

/-- What is read from a text before any range is checked. -/
structure IsoFields where
  date : Int × Int × Int
  time : Int × Int × Int
  offset : Binary64
  deriving DecidableEq, Repr

def readFields (text : Bytes) : Except IsoParseError IsoFields := do
  let rest := skipWhitespace text
  if rest = [] then .error ⟨"empty ISO string", .empty⟩
  else
    match parseThreeFields rest 45 with
    | none => .error ⟨"cannot parse ISO string", .invalidFormat⟩
    | some date =>
      let time ← parseTime date.2
      let zone ← parseZone time.2
      if skipWhitespace zone.2 = [] then .ok ⟨date.1, time.1, zone.1⟩
      else .error ⟨"unexpected trailing characters in ISO string", .invalidFormat⟩

/-- The ranges of the date and of the time of day, and the conversion to UTC. -/
def checkFields (fields : IsoFields) : Except IsoParseError Binary64 :=
  let year := fields.date.1
  let month := fields.date.2.1
  let day := fields.date.2.2
  let hour := fields.time.1
  let minute := fields.time.2.1
  let second := fields.time.2.2
  if year < 1 ∨ 9999 < year then .error ⟨"date out of supported range (year 0001-9999)", .outOfRange⟩
  else if month < 1 ∨ 12 < month then .error ⟨"month out of range (1-12)", .outOfRange⟩
  else if day < 1 ∨ daysInMonthFor month year < day then .error ⟨"day out of range for month", .outOfRange⟩
  else if hour < 0 ∨ 23 < hour ∨ minute < 0 ∨ 59 < minute ∨ second < 0 ∨ 59 < second then
    .error ⟨"time field out of range", .outOfRange⟩
  else
    match tmToUnix { year := year - 1900, mon := month - 1, mday := day, hour, minute, second } with
    | none => .error ⟨"cannot parse ISO string", .outOfRange⟩
    | some unixTime => .ok (unixTime.wholeDifference fields.offset)

def parseIso8601 (text : Bytes) : Except IsoParseError Binary64 := do
  let fields ← readFields text
  checkFields fields

/-! ## The formatter -/

def formatIso8601WithSuffix (tm : Tm) (suffix : Bytes) : Bytes :=
  formatNumber 4 (tm.year + 1900) ++ 45 :: (formatNumber 2 (tm.mon + 1) ++ 45 :: (formatNumber 2 tm.mday ++
    84 :: (formatNumber 2 tm.hour ++ 58 :: (formatNumber 2 tm.minute ++ 58 :: (formatNumber 2 tm.second ++ suffix)))))

def formatIso8601 (clock : Clock) (unixSeconds : Binary64) : Option Bytes :=
  (toTm clock unixSeconds).map fun tm => formatIso8601WithSuffix tm [90]

/-! ## The parts of a text -/

/-- An integer of 32 bits as it is written in a text. -/
structure IntField where
  negative : Bool
  digits : Bytes
  decimal : IsDecimal digits
  narrow : NarrowInt (if negative then -(decimalValue digits : Int) else decimalValue digits)

namespace IntField

def value (f : IntField) : Int := if f.negative then -(decimalValue f.digits : Int) else decimalValue f.digits

def text (f : IntField) : Bytes := if f.negative then 45 :: f.digits else f.digits

/-- No sign, only digits. -/
def SignFree (f : IntField) : Prop := IsDecimal f.text

theorem signFree_iff (f : IntField) : f.SignFree ↔ f.negative = false := by
  rw [SignFree, text]
  cases f.negative with
  | false => exact iff_of_true f.decimal rfl
  | true =>
    refine iff_of_false (fun h => ?_) (by decide)
    exact absurd (h.2 45 List.mem_cons_self) (by decide)

end IntField

section Fields

variable {rest : Bytes}

theorem takeWhile_text {digits : Bytes} (hdigits : ∀ c ∈ digits, isDigit c = true) (hrest : ∀ c ∈ rest.head?, isDigit c = false) :
    (digits ++ rest).takeWhile isDigit = digits ∧ (digits ++ rest).dropWhile isDigit = rest := by
  rw [List.takeWhile_append_of_pos hdigits, List.dropWhile_append_of_pos hdigits]
  cases rest with
  | nil => exact ⟨List.append_nil _, rfl⟩
  | cons c rest =>
    have hc := hrest c rfl
    rw [List.takeWhile_cons_of_neg (by rw [hc]; decide), List.dropWhile_cons_of_neg (by rw [hc]; decide)]
    exact ⟨List.append_nil _, rfl⟩

/-- An integer is read up to the first byte that is no digit. -/
theorem parseIntField_text (f : IntField) (hrest : ∀ c ∈ rest.head?, isDigit c = false) :
    parseIntField (f.text ++ rest) = some (f.value, rest) := by
  obtain ⟨negative, digits, hdecimal, hnarrow⟩ := f
  obtain ⟨hne, hdigits⟩ := hdecimal
  obtain ⟨htake, hdrop⟩ := takeWhile_text hdigits hrest
  cases negative with
  | true =>
    rw [if_pos rfl] at hnarrow
    rw [parseIntField, IntField.text, IntField.value]
    simp only [if_true, List.cons_append, List.head?_cons, List.tail_cons, htake, hdrop]
    rw [if_neg hne, if_pos hnarrow]
  | false =>
    have hhead : ¬ (digits ++ rest).head? = some 45 := by
      obtain ⟨c, digits, rfl⟩ := List.exists_cons_of_ne_nil hne
      rw [List.cons_append, List.head?_cons, Option.some.injEq]
      exact (isDigit_cases (hdigits c List.mem_cons_self)).2.1
    rw [if_neg Bool.false_ne_true] at hnarrow
    rw [parseIntField, IntField.text, IntField.value]
    simp only [Bool.false_eq_true, if_false, hhead, htake, hdrop]
    rw [if_neg hne, if_pos hnarrow]

theorem head?_dropWhile_isDigit (s : Bytes) : ∀ c ∈ (s.dropWhile isDigit).head?, isDigit c = false := by
  intro c hc
  have hnot := List.head?_dropWhile_not isDigit s
  rw [Option.mem_def.mp hc] at hnot
  exact hnot

/-- What is read as an integer is an integer of the text, and ends where the digits end. -/
theorem parseIntField_eq_some {s : Bytes} {value : Int} (h : parseIntField s = some (value, rest)) :
    ∃ f : IntField, s = f.text ++ rest ∧ f.value = value ∧ ∀ c ∈ rest.head?, isDigit c = false := by
  by_cases hsign : s.head? = some 45
  · obtain ⟨tail, rfl⟩ : ∃ tail, s = 45 :: tail := List.head?_eq_some_iff.mp hsign
    rw [parseIntField] at h
    simp only [hsign, if_true, List.tail_cons] at h
    by_cases hne : tail.takeWhile isDigit = []
    · rw [if_pos hne] at h
      cases h
    rw [if_neg hne] at h
    by_cases hnarrow : NarrowInt (-(decimalValue (tail.takeWhile isDigit) : Int))
    · rw [if_pos hnarrow] at h
      obtain ⟨rfl, rfl⟩ := Prod.mk.inj (Option.some.inj h)
      refine ⟨⟨true, tail.takeWhile isDigit, ⟨hne, fun c => List.mem_takeWhile_imp⟩, hnarrow⟩, ?_, rfl, head?_dropWhile_isDigit tail⟩
      rw [IntField.text, if_pos rfl, List.cons_append, List.takeWhile_append_dropWhile]
    · rw [if_neg hnarrow] at h
      cases h
  · rw [parseIntField] at h
    simp only [hsign, if_false] at h
    by_cases hne : s.takeWhile isDigit = []
    · rw [if_pos hne] at h
      cases h
    rw [if_neg hne] at h
    by_cases hnarrow : NarrowInt (decimalValue (s.takeWhile isDigit) : Int)
    · rw [if_pos hnarrow] at h
      obtain ⟨rfl, rfl⟩ := Prod.mk.inj (Option.some.inj h)
      refine ⟨⟨false, s.takeWhile isDigit, ⟨hne, fun c => List.mem_takeWhile_imp⟩, hnarrow⟩, ?_, rfl, head?_dropWhile_isDigit s⟩
      exact List.takeWhile_append_dropWhile.symm
    · rw [if_neg hnarrow] at h
      cases h

theorem consume_eq_some {s : Bytes} {expected : UInt8} : consume s expected = some rest ↔ s = expected :: rest := by
  rw [consume]
  split
  next hhead =>
    obtain ⟨tail, rfl⟩ := List.head?_eq_some_iff.mp hhead
    rw [List.tail_cons, Option.some.injEq, List.cons.injEq, and_iff_right rfl]
  next hhead =>
    refine iff_of_false (fun h => Option.some_ne_none _ h.symm) ?_
    rintro rfl
    exact hhead rfl

/-- Three integers as they are written in a text. -/
structure ThreeFields where
  first : IntField
  second : IntField
  third : IntField

def ThreeFields.text (f : ThreeFields) (separator : UInt8) : Bytes :=
  f.first.text ++ separator :: (f.second.text ++ separator :: f.third.text)

def ThreeFields.value (f : ThreeFields) : Int × Int × Int := (f.first.value, f.second.value, f.third.value)

theorem parseThreeFields_text (f : ThreeFields) {separator : UInt8} (hseparator : isDigit separator = false)
    (hrest : ∀ c ∈ rest.head?, isDigit c = false) :
    parseThreeFields (f.text separator ++ rest) separator = some (f.value, rest) := by
  have hstops : ∀ s : Bytes, ∀ c ∈ (separator :: s).head?, isDigit c = false := by
    intro s c hc
    rw [← Option.some.inj hc]
    exact hseparator
  rw [ThreeFields.text, List.append_assoc, List.cons_append, List.append_assoc, List.cons_append, parseThreeFields,
    parseIntField_text f.first (hstops _), Option.bind_eq_bind, Option.bind_some]
  simp only [consume_eq_some.mpr rfl, parseIntField_text f.second (hstops _), parseIntField_text f.third hrest,
    Option.bind_eq_bind, Option.bind_some]
  rfl

theorem parseThreeFields_eq_some {s : Bytes} {separator : UInt8} {values : Int × Int × Int}
    (h : parseThreeFields s separator = some (values, rest)) :
    ∃ f : ThreeFields, s = f.text separator ++ rest ∧ f.value = values ∧ ∀ c ∈ rest.head?, isDigit c = false := by
  simp only [parseThreeFields, Option.bind_eq_bind, Option.bind_eq_some_iff, consume_eq_some] at h
  obtain ⟨⟨v1, r1⟩, hfirst, s2, rfl, ⟨v2, r2⟩, hsecond, s3, rfl, ⟨v3, r3⟩, hthird, hvalues⟩ := h
  obtain ⟨rfl, rfl⟩ := Prod.mk.inj (Option.some.inj hvalues)
  obtain ⟨f1, rfl, rfl, -⟩ := parseIntField_eq_some hfirst
  obtain ⟨f2, rfl, rfl, -⟩ := parseIntField_eq_some hsecond
  obtain ⟨f3, rfl, rfl, hend⟩ := parseIntField_eq_some hthird
  refine ⟨⟨f1, f2, f3⟩, ?_, rfl, hend⟩
  rw [ThreeFields.text]
  simp only [List.append_assoc, List.cons_append]

theorem parseOffset_text (hours minutes : IntField) (hrest : ∀ c ∈ rest.head?, isDigit c = false) :
    parseOffset (hours.text ++ 58 :: (minutes.text ++ rest)) = some ((hours.value, minutes.value), rest) := by
  have hcolon : ∀ c ∈ (58 :: (minutes.text ++ rest) : Bytes).head?, isDigit c = false := by
    intro c hc
    rw [← Option.some.inj hc]
    rfl
  rw [parseOffset, parseIntField_text hours hcolon]
  simp only [Option.bind_eq_bind, Option.bind_some, consume_eq_some.mpr rfl, parseIntField_text minutes hrest]

theorem parseOffset_eq_some {s : Bytes} {values : Int × Int} (h : parseOffset s = some (values, rest)) :
    ∃ hours minutes : IntField, s = hours.text ++ 58 :: (minutes.text ++ rest) := by
  simp only [parseOffset, Option.bind_eq_bind, Option.bind_eq_some_iff, consume_eq_some] at h
  obtain ⟨⟨v1, r1⟩, hhours, s2, rfl, ⟨v2, r2⟩, hminutes, hvalues⟩ := h
  obtain ⟨rfl, rfl⟩ := Prod.mk.inj (Option.some.inj hvalues)
  obtain ⟨hours, rfl, -, -⟩ := parseIntField_eq_some hhours
  obtain ⟨minutes, rfl, -, -⟩ := parseIntField_eq_some hminutes
  exact ⟨hours, minutes, rfl⟩

end Fields

/-- The time of day in a text, behind its letter. -/
structure TimePart where
  letter : UInt8
  letter_eq : letter = 84 ∨ letter = 116
  fields : ThreeFields

/-- The time zone in a text. -/
inductive ZonePart where
  | missing
  | utc (letter : UInt8) (letter_eq : letter = 90 ∨ letter = 122)
  | offset (sign : UInt8) (sign_eq : sign = 43 ∨ sign = 45) (hours minutes : IntField)

def timeText : Option TimePart → Bytes
  | some time => time.letter :: time.fields.text 58
  | none => []

def timeValue : Option TimePart → Int × Int × Int
  | some time => time.fields.value
  | none => (0, 0, 0)

def ZonePart.text : ZonePart → Bytes
  | .missing => []
  | .utc letter _ => [letter]
  | .offset sign _ hours minutes => sign :: (hours.text ++ 58 :: minutes.text)

/-- The offset in seconds. -/
def ZonePart.seconds : ZonePart → Int
  | .offset sign _ hours minutes =>
    if sign = 45 then -(hours.value * 3600 + minutes.value * 60) else hours.value * 3600 + minutes.value * 60
  | _ => 0

/-- A text with a date, and possibly a time of day and a zone, between white space. -/
structure IsoText where
  lead : Bytes
  lead_space : ∀ c ∈ lead, isSpace c = true
  date : ThreeFields
  time : Option TimePart
  zone : ZonePart
  trail : Bytes
  trail_space : ∀ c ∈ trail, isSpace c = true

def IsoText.text (t : IsoText) : Bytes := t.lead ++ (t.date.text 45 ++ (timeText t.time ++ (t.zone.text ++ t.trail)))

section Parts

variable {rest : Bytes}

theorem space_cases {c : UInt8} (h : isSpace c = true) : c = 32 ∨ c = 9 ∨ c = 10 ∨ c = 11 ∨ c = 12 ∨ c = 13 := by
  rw [isSpace, Bool.or_eq_true, Bool.and_eq_true, decide_eq_true_eq, decide_eq_true_eq, decide_eq_true_eq,
    UInt8.le_iff_toNat_le, UInt8.le_iff_toNat_le] at h
  rcases h with rfl | ⟨hlo, hhi⟩
  · exact Or.inl rfl
  · have hlo' : 9 ≤ c.toNat := hlo
    have hhi' : c.toNat ≤ 13 := hhi
    have hbyte : c = UInt8.ofNat c.toNat := (UInt8.ofNat_toNat).symm
    obtain h | h | h | h | h : c.toNat = 9 ∨ c.toNat = 10 ∨ c.toNat = 11 ∨ c.toNat = 12 ∨ c.toNat = 13 := by omega
    all_goals
      rw [h] at hbyte
      rw [hbyte]
      decide

/-- The zone and what follows it start with one of these bytes. -/
theorem zone_head (zone : ZonePart) (hrest : ∀ c ∈ rest, isSpace c = true) :
    ∀ c ∈ (zone.text ++ rest).head?, c = 90 ∨ c = 122 ∨ c = 43 ∨ c = 45 ∨ isSpace c = true := by
  intro c hc
  cases zone with
  | missing => exact Or.inr (Or.inr (Or.inr (Or.inr (hrest c (List.mem_of_mem_head? hc)))))
  | utc letter hletter =>
    rw [← Option.some.inj hc]
    rcases hletter with h | h
    · exact Or.inl h
    · exact Or.inr (Or.inl h)
  | offset sign hsign hours minutes =>
    rw [← Option.some.inj hc]
    rcases hsign with h | h
    · exact Or.inr (Or.inr (Or.inl h))
    · exact Or.inr (Or.inr (Or.inr (Or.inl h)))

/-- No digit, no `.` and no `T`. -/
theorem zone_head_ne (zone : ZonePart) (hrest : ∀ c ∈ rest, isSpace c = true) :
    ∀ c ∈ (zone.text ++ rest).head?, isDigit c = false ∧ c ≠ 46 ∧ c ≠ 84 ∧ c ≠ 116 := by
  intro c hc
  rcases zone_head zone hrest c hc with rfl | rfl | rfl | rfl | hspace
  on_goal 5 => rcases space_cases hspace with rfl | rfl | rfl | rfl | rfl | rfl
  all_goals exact ⟨by decide, by decide, by decide, by decide⟩

theorem offsetSeconds_eq (negative : Bool) (hours minutes : IntField) :
    offsetSeconds negative (hours.value, minutes.value) =
      Binary64.ofInt (if negative then -(hours.value * 3600 + minutes.value * 60) else hours.value * 3600 + minutes.value * 60) := by
  have hhours : NarrowInt hours.value := hours.narrow
  have hminutes : NarrowInt minutes.value := minutes.narrow
  rw [NarrowInt] at hhours hminutes
  rw [offsetSeconds]
  simp only
  rw [Binary64.wholeProduct_ofInt (by omega) (by decide), Binary64.wholeProduct_ofInt (by omega) (by decide),
    Binary64.wholeSum_ofInt (by omega) (by omega)]
  cases negative with
  | true => rw [if_pos rfl, if_pos rfl, Binary64.wholeDifference_ofInt (by decide) (by omega), Int.zero_sub]
  | false => rw [if_neg Bool.false_ne_true, if_neg Bool.false_ne_true]

theorem parseZone_text (zone : ZonePart) (hrest : ∀ c ∈ rest, isSpace c = true) :
    parseZone (zone.text ++ rest) = .ok (Binary64.ofInt zone.seconds, rest) := by
  have hspaces : ∀ c ∈ rest.head?, isDigit c = false ∧ c ≠ 90 ∧ c ≠ 122 ∧ c ≠ 43 ∧ c ≠ 45 := by
    intro c hc
    rcases space_cases (hrest c (List.mem_of_mem_head? hc)) with rfl | rfl | rfl | rfl | rfl | rfl
    all_goals exact ⟨by decide, by decide, by decide, by decide, by decide⟩
  cases zone with
  | missing =>
    have hhead : ∀ c : UInt8, c = 90 ∨ c = 122 ∨ c = 43 ∨ c = 45 → rest.head? ≠ some c := by
      intro c hc hmem
      obtain ⟨-, h1, h2, h3, h4⟩ := hspaces c hmem
      rcases hc with hc | hc | hc | hc
      exacts [h1 hc, h2 hc, h3 hc, h4 hc]
    rw [ZonePart.text, List.nil_append, parseZone, if_neg, if_neg]
    · rfl
    · rintro (h | h)
      exacts [hhead 43 (by decide) h, hhead 45 (by decide) h]
    · rintro (h | h)
      exacts [hhead 90 (by decide) h, hhead 122 (by decide) h]
  | utc letter hletter =>
    rw [ZonePart.text, parseZone, if_pos]
    · rfl
    · rcases hletter with rfl | rfl
      · exact Or.inl rfl
      · exact Or.inr rfl
  | offset sign hsign hours minutes =>
    have hoffset : parseOffset (hours.text ++ 58 :: (minutes.text ++ rest)) = some ((hours.value, minutes.value), rest) :=
      parseOffset_text hours minutes fun c hc => (hspaces c hc).1
    have hnoUtc : ¬ (sign = 90 ∨ sign = 122) := by rcases hsign with rfl | rfl <;> decide
    rw [ZonePart.text, parseZone, ZonePart.seconds]
    simp only [List.cons_append, List.append_assoc, List.head?_cons, List.tail_cons, Option.some.injEq, hoffset]
    rw [if_neg hnoUtc, if_pos hsign, offsetSeconds_eq]
    simp only [decide_eq_true_eq]

/-- What is read as a zone is one. -/
theorem parseZone_eq_ok {s : Bytes} {offset : Binary64} (h : parseZone s = .ok (offset, rest)) :
    ∃ zone : ZonePart, s = zone.text ++ rest := by
  rw [parseZone] at h
  split at h
  next hhead =>
    obtain ⟨-, rfl⟩ := Prod.mk.inj (Except.ok.inj h)
    rcases hhead with hhead | hhead
    · obtain ⟨tail, rfl⟩ := List.head?_eq_some_iff.mp hhead
      exact ⟨.utc 90 (Or.inl rfl), rfl⟩
    · obtain ⟨tail, rfl⟩ := List.head?_eq_some_iff.mp hhead
      exact ⟨.utc 122 (Or.inr rfl), rfl⟩
  · split at h
    next hhead =>
      split at h
      · cases h
      next offset hoffset =>
        obtain ⟨-, hrest⟩ := Prod.mk.inj (Except.ok.inj h)
        obtain ⟨hours, minutes, htail⟩ := parseOffset_eq_some (hoffset : _ = some (offset.1, offset.2))
        rw [hrest] at htail
        have hsign : ∀ sign : UInt8, ∀ hsign : sign = 43 ∨ sign = 45, s.head? = some sign →
            s = (ZonePart.offset sign hsign hours minutes).text ++ rest := by
          intro sign _ hs
          obtain ⟨tail, rfl⟩ := List.head?_eq_some_iff.mp hs
          rw [List.tail_cons] at htail
          rw [htail, ZonePart.text, List.cons_append, List.append_assoc, List.cons_append]
        rcases hhead with hhead | hhead
        · exact ⟨_, hsign 43 (Or.inl rfl) hhead⟩
        · exact ⟨_, hsign 45 (Or.inr rfl) hhead⟩
    · obtain ⟨-, rfl⟩ := Prod.mk.inj (Except.ok.inj h)
      exact ⟨.missing, rfl⟩

theorem parseTime_text (time : Option TimePart) (hrest : ∀ c ∈ rest.head?, isDigit c = false ∧ c ≠ 46 ∧ c ≠ 84 ∧ c ≠ 116) :
    parseTime (timeText time ++ rest) = .ok (timeValue time, rest) := by
  cases time with
  | none =>
    rw [timeText, List.nil_append, parseTime, if_neg]
    · rfl
    · rintro (h | h)
      · exact (hrest 84 h).2.2.1 rfl
      · exact (hrest 116 h).2.2.2 rfl
  | some time =>
    have hfields : parseThreeFields (time.fields.text 58 ++ rest) 58 = some (time.fields.value, rest) :=
      parseThreeFields_text time.fields (by decide) fun c hc => (hrest c hc).1
    rw [timeText, parseTime]
    simp only [List.cons_append, List.head?_cons, List.tail_cons, Option.some.injEq, hfields]
    have hpoint : rest.head? ≠ some 46 := fun h => (hrest 46 h).2.1 rfl
    rw [if_pos time.letter_eq, if_neg hpoint]
    rfl

/-- What is read as a time of day is one. -/
theorem parseTime_eq_ok {s : Bytes} {value : Int × Int × Int} (h : parseTime s = .ok (value, rest)) :
    ∃ time : Option TimePart, s = timeText time ++ rest := by
  rw [parseTime] at h
  split at h
  next hhead =>
    split at h
    · cases h
    next time htime =>
      split at h
      · cases h
      · obtain rfl := Except.ok.inj h
        obtain ⟨fields, htail, -, -⟩ := parseThreeFields_eq_some htime
        rcases hhead with hhead | hhead
        · obtain ⟨tail, rfl⟩ := List.head?_eq_some_iff.mp hhead
          exact ⟨some ⟨84, Or.inl rfl, fields⟩, congrArg (84 :: ·) htail⟩
        · obtain ⟨tail, rfl⟩ := List.head?_eq_some_iff.mp hhead
          exact ⟨some ⟨116, Or.inr rfl, fields⟩, congrArg (116 :: ·) htail⟩
  · obtain ⟨-, rfl⟩ := Prod.mk.inj (Except.ok.inj h)
    exact ⟨none, rfl⟩

theorem skipWhitespace_spaces {s : Bytes} (h : ∀ c ∈ s, isSpace c = true) : skipWhitespace s = [] := by
  rw [skipWhitespace, List.dropWhile_eq_nil_iff]
  exact h

/-- White space is skipped up to a byte that is none. -/
theorem skipWhitespace_lead {lead : Bytes} (hlead : ∀ c ∈ lead, isSpace c = true) (hrest : ∀ c ∈ rest.head?, isSpace c = false) :
    skipWhitespace (lead ++ rest) = rest := by
  rw [skipWhitespace, List.dropWhile_append_of_pos hlead]
  cases rest with
  | nil => rfl
  | cons c rest => rw [List.dropWhile_cons_of_neg (by rw [hrest c rfl]; decide)]

/-- A date starts with a minus sign or with a digit. -/
theorem date_head (f : ThreeFields) (separator : UInt8) (rest : Bytes) :
    ∃ c tail, f.text separator ++ rest = c :: tail ∧ isSpace c = false := by
  obtain ⟨⟨negative, digits, hdecimal, -⟩, second, third⟩ := f
  obtain ⟨c, tail, rfl⟩ := List.exists_cons_of_ne_nil hdecimal.1
  cases negative with
  | true => exact ⟨45, _, rfl, rfl⟩
  | false => exact ⟨c, _, rfl, (isDigit_cases (hdecimal.2 c List.mem_cons_self)).1⟩

end Parts

namespace IsoText

def fields (t : IsoText) : IsoFields := ⟨t.date.value, timeValue t.time, Binary64.ofInt t.zone.seconds⟩

theorem readFields_text (t : IsoText) : readFields t.text = .ok t.fields := by
  obtain ⟨c, tail, hdate, hspace⟩ := date_head t.date 45 (timeText t.time ++ (t.zone.text ++ t.trail))
  have hskip : skipWhitespace t.text = t.date.text 45 ++ (timeText t.time ++ (t.zone.text ++ t.trail)) := by
    rw [text, skipWhitespace_lead t.lead_space]
    intro c' hc'
    rw [hdate] at hc'
    rw [← Option.some.inj hc']
    exact hspace
  have hne : t.date.text 45 ++ (timeText t.time ++ (t.zone.text ++ t.trail)) ≠ [] := by
    rw [hdate]
    exact List.cons_ne_nil _ _
  have hzone := zone_head_ne t.zone t.trail_space
  have htime : ∀ c ∈ (timeText t.time ++ (t.zone.text ++ t.trail)).head?, isDigit c = false := by
    cases htime : t.time with
    | none => exact fun c hc => (hzone c hc).1
    | some time =>
      intro c hc
      rw [← Option.some.inj hc]
      rcases time.letter_eq with h | h
      · rw [h]; rfl
      · rw [h]; rfl
  rw [readFields]
  simp only [hskip]
  rw [if_neg hne, parseThreeFields_text t.date (by decide) htime]
  simp only [parseTime_text t.time hzone, bind, Except.bind, parseZone_text t.zone t.trail_space,
    skipWhitespace_spaces t.trail_space, if_true]
  rfl

/-- What is read without an error is such a text. -/
theorem exists_of_readFields {s : Bytes} {fields : IsoFields} (h : readFields s = .ok fields) : ∃ t : IsoText, t.text = s := by
  rw [readFields] at h
  split at h
  · cases h
  · split at h
    · cases h
    next date hdate =>
      obtain ⟨dateFields, hdateText, -, -⟩ := parseThreeFields_eq_some (hdate : _ = some (date.1, date.2))
      cases htime : parseTime date.2 with
      | error e =>
        rw [htime] at h
        cases h
      | ok time =>
        rw [htime] at h
        cases hzone : parseZone time.2 with
        | error e =>
          simp only [bind, Except.bind, hzone] at h
          cases h
        | ok zone =>
          simp only [bind, Except.bind, hzone] at h
          split at h
          next htrail =>
            obtain ⟨timePart, htimeText⟩ := parseTime_eq_ok (htime : _ = Except.ok (time.1, time.2))
            obtain ⟨zonePart, hzoneText⟩ := parseZone_eq_ok (hzone : _ = Except.ok (zone.1, zone.2))
            refine ⟨⟨s.takeWhile isSpace, fun c => List.mem_takeWhile_imp, dateFields, timePart, zonePart, zone.2,
              List.dropWhile_eq_nil_iff.mp htrail⟩, ?_⟩
            rw [text]
            simp only
            rw [← hzoneText, ← htimeText, ← hdateText, skipWhitespace, List.takeWhile_append_dropWhile]
          · cases h

/-! ## What is checked -/

/-- The date and the time of day in a text, as a broken-down time. -/
def localTm (t : IsoText) : Tm where
  year := t.date.first.value - 1900
  mon := t.date.second.value - 1
  mday := t.date.third.value
  hour := (timeValue t.time).1
  minute := (timeValue t.time).2.1
  second := (timeValue t.time).2.2

/-- The instant in UTC. -/
def instant (t : IsoText) : Int := safeTimegm t.localTm - t.zone.seconds

/-- A date of the calendar in the supported years, and a time of day. -/
def Checked (t : IsoText) : Prop := (1 ≤ t.localTm.year + 1900 ∧ t.localTm.year + 1900 ≤ 9999) ∧ t.localTm.Valid

theorem seconds_size (t : IsoText) : t.zone.seconds.natAbs < 2 ^ 45 := by
  cases hzone : t.zone with
  | missing => decide
  | utc letter hletter => exact Nat.two_pow_pos 45
  | offset sign hsign hours minutes =>
    have hhours : NarrowInt hours.value := hours.narrow
    have hminutes : NarrowInt minutes.value := minutes.narrow
    rw [NarrowInt] at hhours hminutes
    rw [ZonePart.seconds]
    split <;> omega

theorem parseIso8601_text (t : IsoText) : parseIso8601 t.text = checkFields t.fields := by
  rw [parseIso8601, readFields_text]
  rfl

/-- A text is accepted just where its date and its time of day exist. -/
theorem parseIso8601_eq_ok_iff {t : IsoText} {result : Binary64} :
    parseIso8601 t.text = .ok result ↔ t.Checked ∧ result = Binary64.ofInt t.instant := by
  have hdate : t.fields.date = (t.localTm.year + 1900, t.localTm.mon + 1, t.localTm.mday) := by
    rw [localTm]
    simp only [Int.sub_add_cancel]
    rfl
  have htime : t.fields.time = (t.localTm.hour, t.localTm.minute, t.localTm.second) := rfl
  have hoffset : t.fields.offset = Binary64.ofInt t.zone.seconds := rfl
  have hsize := t.seconds_size
  rw [parseIso8601_text, checkFields, hdate, htime, hoffset]
  simp only [Int.add_sub_cancel]
  have hconverted : t.Checked →
      (match tmToUnix t.localTm with
        | none => Except.error ⟨"cannot parse ISO string", .outOfRange⟩
        | some unixTime => .ok (unixTime.wholeDifference (Binary64.ofInt t.zone.seconds))) =
      (Except.ok (Binary64.ofInt t.instant) : Except IsoParseError Binary64) := by
    rintro ⟨hyear, hvalid⟩
    have hrange := hvalid.inRange_iff.mpr hyear
    have hbound := hrange
    rw [InRange] at hbound
    rw [tmToUnix_of_inRange hrange]
    simp only
    rw [Binary64.wholeDifference_ofInt (by omega) (by omega), instant]
  constructor
  · intro h
    split at h
    · cases h
    next hyear =>
      split at h
      · cases h
      next hmonth =>
        split at h
        · cases h
        next hday =>
          split at h
          · cases h
          next htime =>
            have hchecked : t.Checked :=
              ⟨by omega, by omega, by omega, by omega, by omega, by omega⟩
            exact ⟨hchecked, (Except.ok.inj ((hconverted hchecked).symm.trans h)).symm⟩
  · rintro ⟨hchecked, rfl⟩
    have hyear := hchecked.1
    obtain ⟨hmonth, hday, hhour, hminute, hsecond⟩ := hchecked.2
    rw [if_neg (by omega), if_neg (by omega), if_neg (by omega), if_neg (by omega)]
    exact hconverted hchecked

/-! ## What is not checked -/

end IsoText

/-- The hours and the minutes of an offset. -/
def ZonePart.offsetFields : ZonePart → Option (IntField × IntField)
  | .offset _ _ hours minutes => some (hours, minutes)
  | _ => none

def ThreeFields.SignFree (f : ThreeFields) : Prop := f.first.SignFree ∧ f.second.SignFree ∧ f.third.SignFree

/-- No field has a minus sign in front of it. -/
def ThreeFields.Unsigned (f : ThreeFields) : Prop :=
  f.first.negative = false ∧ f.second.negative = false ∧ f.third.negative = false

theorem ThreeFields.signFree_iff (f : ThreeFields) : f.SignFree ↔ f.Unsigned := by
  rw [SignFree, Unsigned, f.first.signFree_iff, f.second.signFree_iff, f.third.signFree_iff]

namespace IsoText

/-- The fields are digits and denote a date, a time of day and an offset that there is, and the
    result can be formatted. -/
structure WellFormed (clock : Clock) (t : IsoText) (result : Binary64) : Prop where
  date_digits : t.date.SignFree
  time_digits : ∀ time ∈ t.time, time.fields.SignFree
  offset_digits : ∀ offset ∈ t.zone.offsetFields, offset.1.SignFree ∧ offset.2.SignFree
  date_time : t.Checked
  offset_minutes : ∀ offset ∈ t.zone.offsetFields, offset.2.value < 60
  offset_limits : -12 * 60 * 60 ≤ t.zone.seconds ∧ t.zone.seconds ≤ 14 * 60 * 60
  formats : (formatIso8601 clock result).isSome = true

/-- What the parser leaves to the writer of a text: a time of day and an offset without minus
    signs, minutes below 60 and an offset in the limits, and an instant in the range. -/
structure Careful (t : IsoText) : Prop where
  time_unsigned : ∀ time ∈ t.time, time.fields.Unsigned
  offset_unsigned : ∀ offset ∈ t.zone.offsetFields, offset.1.negative = false ∧ offset.2.negative = false
  offset_minutes : ∀ offset ∈ t.zone.offsetFields, decimalValue offset.2.digits < 60
  offset_limits : -43200 ≤ t.zone.seconds ∧ t.zone.seconds ≤ 50400
  instant : InRange t.instant

/-- A date that exists is written without signs. -/
theorem Checked.date_unsigned {t : IsoText} (h : t.Checked) : t.date.Unsigned := by
  have hpositive : ∀ f : IntField, 1 ≤ f.value → f.negative = false := by
    intro f hf
    rw [IntField.value] at hf
    cases hsign : f.negative with
    | false => rfl
    | true =>
      rw [hsign, if_pos rfl] at hf
      omega
  obtain ⟨hyear, hmonth, hday, -, -, -⟩ := h
  rw [localTm] at hyear hmonth hday
  simp only at hyear hmonth hday
  exact ⟨hpositive _ (by omega), hpositive _ (by omega), hpositive _ hday.1⟩

theorem instant_size {t : IsoText} (h : t.Checked) : t.instant.natAbs < 2 ^ 46 := by
  have hsize := t.seconds_size
  have hrange := h.2.inRange_iff.mpr h.1
  rw [InRange] at hrange
  rw [instant]
  omega

theorem formatIso8601_isSome {clock : Clock} {i : Int} (hsize : i.natAbs < 2 ^ 46) :
    (formatIso8601 clock (Binary64.ofInt i)).isSome = true ↔ InRange i := by
  have hexact : (Binary64.ofInt i).IsInteger i := Binary64.isInteger_ofInt (by omega)
  rw [formatIso8601, Option.isSome_map]
  constructor
  · intro h
    obtain ⟨tm, htm⟩ := Option.isSome_iff_exists.mp h
    have hrange := (toTm_spec htm).2.2
    rwa [Binary64.toInt_of_isInteger hexact] at hrange
  · intro h
    obtain ⟨tm, htm, -, -⟩ := toTm_of_inRange clock hexact h
    rw [htm]
    rfl

/-- An accepted text is well formed just where it is careful. -/
theorem wellFormed_iff {clock : Clock} {t : IsoText} {result : Binary64} (h : parseIso8601 t.text = .ok result) :
    t.WellFormed clock result ↔ t.Careful := by
  obtain ⟨hchecked, rfl⟩ := parseIso8601_eq_ok_iff.mp h
  have hformats : (formatIso8601 clock (Binary64.ofInt t.instant)).isSome = true ↔ InRange t.instant :=
    formatIso8601_isSome (instant_size hchecked)
  have hvalue : ∀ offset : IntField, offset.negative = false → offset.value = decimalValue offset.digits := by
    intro offset hsign
    rw [IntField.value, hsign, if_neg Bool.false_ne_true]
  constructor
  · intro hwell
    have hunsigned : ∀ offset ∈ t.zone.offsetFields, offset.1.negative = false ∧ offset.2.negative = false := by
      intro offset hoffset
      have hdigits := hwell.offset_digits offset hoffset
      exact ⟨offset.1.signFree_iff.mp hdigits.1, offset.2.signFree_iff.mp hdigits.2⟩
    refine ⟨fun time htime => time.fields.signFree_iff.mp (hwell.time_digits time htime), hunsigned, ?_, hwell.offset_limits,
      hformats.mp hwell.formats⟩
    intro offset hoffset
    have hminutes := hwell.offset_minutes offset hoffset
    rw [hvalue offset.2 (hunsigned offset hoffset).2] at hminutes
    omega
  · intro hcareful
    refine ⟨t.date.signFree_iff.mpr hchecked.date_unsigned,
      fun time htime => time.fields.signFree_iff.mpr (hcareful.time_unsigned time htime), ?_, hchecked, ?_,
      hcareful.offset_limits, hformats.mpr hcareful.instant⟩
    · intro offset hoffset
      have hsigns := hcareful.offset_unsigned offset hoffset
      exact ⟨offset.1.signFree_iff.mpr hsigns.1, offset.2.signFree_iff.mpr hsigns.2⟩
    · intro offset hoffset
      have hminutes := hcareful.offset_minutes offset hoffset
      rw [hvalue offset.2 (hcareful.offset_unsigned offset hoffset).2]
      omega

/-! ## Formatted texts -/

end IsoText

/-- A number written with zeros in front. -/
def paddedField (width n : Nat) (h : n < 2 ^ 31) : IntField where
  negative := false
  digits := zeroPadded width n
  decimal := zeroPadded_isDecimal.1
  narrow := by
    rw [if_neg Bool.false_ne_true, zeroPadded_isDecimal.2, NarrowInt]
    omega

theorem paddedField_value {width n : Nat} {h : n < 2 ^ 31} : (paddedField width n h).value = n := by
  rw [IntField.value, paddedField, if_neg Bool.false_ne_true, zeroPadded_isDecimal.2]

/-- A number that is not negative is formatted as a field. -/
theorem exists_field (width : Nat) {n : Int} (hlo : 0 ≤ n) (hhi : n < 2 ^ 31) :
    ∃ f : IntField, f.text = formatNumber width n ∧ f.value = n := by
  refine ⟨paddedField width n.natAbs (by omega), ?_, ?_⟩
  · rw [formatNumber, if_neg (by omega)]
    rfl
  · rw [paddedField_value]
    omega

/-- A formatted date and time of day is read back. -/
theorem parseIso8601_format {tm : Tm} (hvalid : tm.Valid) (hyear : 1 ≤ tm.year + 1900 ∧ tm.year + 1900 ≤ 9999) :
    parseIso8601 (formatIso8601WithSuffix tm [90]) = .ok (Binary64.ofInt (safeTimegm tm)) := by
  have hmonth := hvalid.month
  have hday := hvalid.mday
  have hlength := (GregorianCalendar.monthLength_bounds tm.month).2
  obtain ⟨hhour, hminute, hsecond⟩ := And.intro hvalid.hour (And.intro hvalid.minute hvalid.second)
  obtain ⟨year, hyearText, hyearValue⟩ := exists_field 4 (n := tm.year + 1900) (by omega) (by omega)
  obtain ⟨month, hmonthText, hmonthValue⟩ := exists_field 2 (n := tm.mon + 1) (by omega) (by omega)
  obtain ⟨day, hdayText, hdayValue⟩ := exists_field 2 (n := tm.mday) (by omega) (by omega)
  obtain ⟨hour, hhourText, hhourValue⟩ := exists_field 2 (n := tm.hour) (by omega) (by omega)
  obtain ⟨minute, hminuteText, hminuteValue⟩ := exists_field 2 (n := tm.minute) (by omega) (by omega)
  obtain ⟨second, hsecondText, hsecondValue⟩ := exists_field 2 (n := tm.second) (by omega) (by omega)
  let t : IsoText :=
    { lead := [], lead_space := fun c hc => absurd hc List.not_mem_nil
      date := ⟨year, month, day⟩
      time := some ⟨84, Or.inl rfl, ⟨hour, minute, second⟩⟩
      zone := .utc 90 (Or.inl rfl)
      trail := [], trail_space := fun c hc => absurd hc List.not_mem_nil }
  have htext : t.text = formatIso8601WithSuffix tm [90] := by
    rw [formatIso8601WithSuffix, ← hyearText, ← hmonthText, ← hdayText, ← hhourText, ← hminuteText, ← hsecondText]
    simp only [t, IsoText.text, ThreeFields.text, timeText, ZonePart.text, List.nil_append, List.append_assoc, List.cons_append,
      List.append_nil]
  have hlocal : t.localTm = tm := by
    rw [IsoText.localTm]
    simp only [t, timeValue, ThreeFields.value, hyearValue, hmonthValue, hdayValue, hhourValue, hminuteValue, hsecondValue,
      Int.add_sub_cancel]
  have hinstant : t.instant = safeTimegm tm := by
    rw [IsoText.instant, hlocal]
    exact Int.sub_zero _
  rw [← htext, ← hinstant]
  refine IsoText.parseIso8601_eq_ok_iff.mpr ⟨?_, rfl⟩
  rw [IsoText.Checked, hlocal]
  exact ⟨hyear, hvalid⟩

/-- The text of a whole timestamp is read back as that timestamp; what the parser accepts is a
    text with a date, and possibly a time of day and a zone, and is well formed just where the
    writer was careful. -/
theorem iso8601_parsing (clock : Clock) :
    (∀ {ts : Binary64} {i : Int}, ts.IsInteger i → InRange i →
      ∃ text result, formatIso8601 clock ts = some text ∧ parseIso8601 text = .ok result ∧ result.ieeeEq ts = true) ∧
    (∀ {text : Bytes} {result : Binary64}, parseIso8601 text = .ok result → ∃ t : IsoText, t.text = text) ∧
    ∀ {t : IsoText} {result : Binary64}, parseIso8601 t.text = .ok result → (t.WellFormed clock result ↔ t.Careful) := by
  refine ⟨?_, ?_, IsoText.wellFormed_iff⟩
  · intro ts i hts hrange
    obtain ⟨tm, htm, hvalid, htime⟩ := toTm_of_inRange clock hts hrange
    have hyear := hvalid.inRange_iff.mp (by rw [htime]; exact hrange)
    refine ⟨formatIso8601WithSuffix tm [90], Binary64.ofInt i, ?_, ?_, ?_⟩
    · rw [formatIso8601, htm, Option.map_some]
    · rw [parseIso8601_format hvalid hyear, htime]
    · rw [InRange] at hrange
      exact Binary64.ieeeEq_of_isInteger (Binary64.isInteger_ofInt (by omega)) hts
  · intro text result h
    rw [parseIso8601] at h
    cases hfields : readFields text with
    | error e =>
      rw [hfields] at h
      cases h
    | ok fields => exact IsoText.exists_of_readFields hfields

/-- `2020-01-01+00:99` -/
def ninetyNineMinutes : IsoText where
  lead := []
  lead_space := fun c hc => absurd hc List.not_mem_nil
  date := ⟨⟨false, [50, 48, 50, 48], by decide, by decide⟩, ⟨false, [48, 49], by decide, by decide⟩,
    ⟨false, [48, 49], by decide, by decide⟩⟩
  time := none
  zone := .offset 43 (Or.inl rfl) ⟨false, [48, 48], by decide, by decide⟩ ⟨false, [57, 57], by decide, by decide⟩
  trail := []
  trail_space := fun c hc => absurd hc List.not_mem_nil

/-- The parser accepts an offset with 99 minutes. -/
theorem ninetyNineMinutes_accepted :
    ∃ result, parseIso8601 ninetyNineMinutes.text = .ok result ∧ ¬ ninetyNineMinutes.WellFormed civilClock result := by
  refine ⟨Binary64.ofInt ninetyNineMinutes.instant, IsoText.parseIso8601_eq_ok_iff.mpr ⟨?_, rfl⟩, ?_⟩
  · exact ⟨by decide, by decide, by decide, by decide, by decide, by decide⟩
  · intro hwell
    exact absurd (hwell.offset_minutes _ rfl) (by decide)

end Luma.Datetime
