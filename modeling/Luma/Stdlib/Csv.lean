-- SUMMARY: The CSV codec: field quoting, the parser's state machine, and their round trip.
import Luma.Library.BigEndian
import Mathlib.Tactic.Common

/-! # CSV

Parsing and serialisation of comma-separated text with RFC 4180 quoting. The
parser is a state machine over the bytes of the input; its limit on rows and on
fields per row is the runtime's limit on array sizes. -/

namespace Luma.Csv

open Codec

/-- The delimiter and the quote of a dialect. -/
structure CsvOptions where
  delimiter : UInt8 := 44
  quote : UInt8 := 34
  deriving DecidableEq

/-- The outcome of `parseCsv`. After a failure `rows` holds what was decoded before it. -/
structure ParseResult where
  rows : List (List Bytes)
  success : Bool
  error : String
  errorOffset : Nat
  deriving DecidableEq

/-- `'\n'`. -/
def lf : UInt8 := 10

/-- `'\r'`. -/
def cr : UInt8 := 13

/-! ## Serialisation -/

/-- The characters that force a field to be quoted. -/
def isQuoteTrigger (opts : CsvOptions) (c : UInt8) : Bool :=
  c = opts.delimiter || c = opts.quote || c = lf || c = cr

/-- The position of the first character that forces quoting. -/
def firstQuoteTrigger (field : Bytes) (opts : CsvOptions) : Option Nat :=
  field.findIdx? (isQuoteTrigger opts)

/-- Copy characters, doubling every quote. -/
def doubleQuotes (opts : CsvOptions) : Bytes → Bytes
  | [] => []
  | c :: rest =>
    if c = opts.quote then opts.quote :: c :: doubleQuotes opts rest
    else c :: doubleQuotes opts rest

def serializeField (field : Bytes) (opts : CsvOptions) : Bytes :=
  match firstQuoteTrigger field opts with
  | none => field
  | some trigger =>
    opts.quote :: field.take trigger ++ doubleQuotes opts (field.drop trigger) ++ [opts.quote]

/-- The fields of a row from position `i` on; all but the first follow a delimiter. -/
def serializeFields (opts : CsvOptions) : (i : Nat) → List Bytes → Bytes
  | _, [] => []
  | i, field :: rest =>
    (if i > 0 then [opts.delimiter] else []) ++ serializeField field opts ++
      serializeFields opts (i + 1) rest

/-- Every row ends with one line feed. -/
def serializeRows (rows : List (List Bytes)) (opts : CsvOptions) : Bytes :=
  rows.flatMap fun row => serializeFields opts 0 row ++ [lf]

/-! ## Parsing -/

/-- The local variables of the parser's loop. -/
structure ParseState where
  rows : List (List Bytes) := []
  currentRow : List Bytes := []
  field : Bytes := []
  inQuotes : Bool := false
  quoteStart : Nat := 0

section Parser

variable (maxArraySize : Nat) (opts : CsvOptions)

/-- Finish the current row, unless there are too many rows already. -/
def finalizeRow (s : ParseState) : Option ParseState :=
  if s.rows.length ≥ maxArraySize then none
  else some { s with rows := s.rows ++ [s.currentRow ++ [s.field]], currentRow := [], field := [] }

def failure (s : ParseState) (error : String) (errorOffset : Nat) : ParseResult :=
  { rows := s.rows, success := false, error, errorOffset }

/-- After the last character: the last row needs no line end. -/
def finish (s : ParseState) : ParseResult :=
  let rows :=
    if s.field ≠ [] ∨ s.currentRow ≠ [] then s.rows ++ [s.currentRow ++ [s.field]] else s.rows
  if s.inQuotes then { rows, success := false, error := "unterminated quoted field", errorOffset := s.quoteStart }
  else { rows, success := true, error := "", errorOffset := 0 }

/-- The loop at offset `i`, with the rest of the input. -/
def parseFrom : (i : Nat) → ParseState → Bytes → ParseResult
  | _, s, [] => finish s
  | i, s, c :: rest =>
    if s.inQuotes then
      if c = opts.quote then
        match rest with
        | d :: rest' =>
          if d = opts.quote then parseFrom (i + 2) { s with field := s.field ++ [opts.quote] } rest'
          else parseFrom (i + 1) { s with inQuotes := false } (d :: rest')
        | [] => parseFrom (i + 1) { s with inQuotes := false } []
      else parseFrom (i + 1) { s with field := s.field ++ [c] } rest
    else if c = opts.quote then parseFrom (i + 1) { s with inQuotes := true, quoteStart := i } rest
    else if c = opts.delimiter then
      let s := { s with currentRow := s.currentRow ++ [s.field], field := [] }
      if s.currentRow.length ≥ maxArraySize then failure s "CSV has too many fields" i
      else parseFrom (i + 1) s rest
    else if c = cr then
      match finalizeRow maxArraySize s with
      | none => failure s "CSV has too many rows" i
      | some s =>
        -- The line feed of a CRLF pair belongs to the carriage return.
        match rest with
        | d :: rest' =>
          if d = lf then parseFrom (i + 2) s rest' else parseFrom (i + 1) s (d :: rest')
        | [] => parseFrom (i + 1) s []
    else if c = lf then
      match finalizeRow maxArraySize s with
      | none => failure s "CSV has too many rows" i
      | some s => parseFrom (i + 1) s rest
    else parseFrom (i + 1) { s with field := s.field ++ [c] } rest

def parseCsv (input : Bytes) : ParseResult := parseFrom maxArraySize opts 0 {} input

end Parser

/-! ## Round trip -/

/-- The dialects whose output can be told apart: delimiter and quote differ from
    each other and from the line ends. -/
structure CsvOptions.Valid (opts : CsvOptions) : Prop where
  delimiter_ne_quote : opts.delimiter ≠ opts.quote
  delimiter_ne_lf : opts.delimiter ≠ lf
  delimiter_ne_cr : opts.delimiter ≠ cr
  quote_ne_lf : opts.quote ≠ lf
  quote_ne_cr : opts.quote ≠ cr

variable {maxArraySize : Nat} {opts : CsvOptions} {s : ParseState} {rest : Bytes}

-- The equations of the definitions are derived here, once for all proofs.
section
attribute [local simp] doubleQuotes serializeField serializeFields parseFrom
end

theorem doubleQuotes_append {as bs : Bytes} :
    doubleQuotes opts (as ++ bs) = doubleQuotes opts as ++ doubleQuotes opts bs := by
  induction as with
  | nil => rfl
  | cons a as ih =>
    simp only [List.cons_append, doubleQuotes, ih]
    split <;> rfl

theorem doubleQuotes_of_notMem {field : Bytes} (h : opts.quote ∉ field) :
    doubleQuotes opts field = field := by
  induction field with
  | nil => rfl
  | cons c rest ih =>
    rw [List.mem_cons, not_or] at h
    rw [doubleQuotes, if_neg (Ne.symm h.1), ih h.2]

/-- A quoted field is its content with every quote doubled, between two quotes. -/
theorem serializeField_eq (field : Bytes) :
    serializeField field opts =
      if field.any (isQuoteTrigger opts) then opts.quote :: doubleQuotes opts field ++ [opts.quote]
      else field := by
  unfold serializeField firstQuoteTrigger
  cases hfind : field.findIdx? (isQuoteTrigger opts) with
  | none =>
    have hnone : field.any (isQuoteTrigger opts) = false := by
      simpa [List.findIdx?_eq_none_iff] using hfind
    simp [hnone]
  | some trigger =>
    obtain ⟨hlt, htrigger, hbefore⟩ := List.findIdx?_eq_some_iff_getElem.mp hfind
    have hany : field.any (isQuoteTrigger opts) = true :=
      List.any_eq_true.mpr ⟨_, List.getElem_mem hlt, htrigger⟩
    have hclean : opts.quote ∉ field.take trigger := by
      intro hmem
      obtain ⟨j, hj, hq⟩ := List.getElem_of_mem hmem
      have hlt' : j < trigger := by simp at hj; omega
      apply hbefore j hlt'
      rw [List.getElem_take] at hq
      simp [isQuoteTrigger, hq]
    have hfront : field.take trigger = doubleQuotes opts (field.take trigger) :=
      (doubleQuotes_of_notMem hclean).symm
    simp only [hany, if_true]
    rw [hfront, List.cons_append, ← doubleQuotes_append, List.take_append_drop]

/-! One character of the input, by where the parser is. -/

section Steps

variable {i : Nat} {c : UInt8}

theorem parseFrom_escaped (hquoted : s.inQuotes = true) :
    parseFrom maxArraySize opts i s (opts.quote :: opts.quote :: rest) =
      parseFrom maxArraySize opts (i + 2) { s with field := s.field ++ [opts.quote] } rest := by
  rw [parseFrom.eq_def]
  simp [hquoted]

theorem parseFrom_close (hquoted : s.inQuotes = true) (hnext : rest.head? ≠ some opts.quote) :
    parseFrom maxArraySize opts i s (opts.quote :: rest) =
      parseFrom maxArraySize opts (i + 1) { s with inQuotes := false } rest := by
  cases rest with
  | nil =>
    rw [parseFrom.eq_def]
    simp [hquoted]
  | cons d rest =>
    have hd : d ≠ opts.quote := fun h => hnext (congrArg some h)
    rw [parseFrom.eq_def]
    simp [hquoted, hd]

theorem parseFrom_inside (hquoted : s.inQuotes = true) (hc : c ≠ opts.quote) :
    parseFrom maxArraySize opts i s (c :: rest) =
      parseFrom maxArraySize opts (i + 1) { s with field := s.field ++ [c] } rest := by
  rw [parseFrom.eq_def]
  simp [hquoted, hc]

theorem parseFrom_open (hopen : s.inQuotes = false) :
    parseFrom maxArraySize opts i s (opts.quote :: rest) =
      parseFrom maxArraySize opts (i + 1) { s with inQuotes := true, quoteStart := i } rest := by
  rw [parseFrom.eq_def]
  simp [hopen]

theorem parseFrom_ordinary (hopen : s.inQuotes = false) (hc : isQuoteTrigger opts c = false) :
    parseFrom maxArraySize opts i s (c :: rest) =
      parseFrom maxArraySize opts (i + 1) { s with field := s.field ++ [c] } rest := by
  simp only [isQuoteTrigger, Bool.or_eq_false_iff, decide_eq_false_iff_not] at hc
  obtain ⟨⟨⟨hdelimiter, hquote⟩, hlf⟩, hcr⟩ := hc
  rw [parseFrom.eq_def]
  simp [hopen, hdelimiter, hquote, hlf, hcr]

theorem parseFrom_delimiter (hvalid : opts.Valid) (hopen : s.inQuotes = false)
    (hsize : s.currentRow.length + 1 < maxArraySize) :
    parseFrom maxArraySize opts i s (opts.delimiter :: rest) =
      parseFrom maxArraySize opts (i + 1)
        { s with currentRow := s.currentRow ++ [s.field], field := [] } rest := by
  rw [parseFrom.eq_def]
  simp [hopen, hvalid.delimiter_ne_quote, Nat.not_le.mpr hsize]

theorem parseFrom_lf (hvalid : opts.Valid) (hopen : s.inQuotes = false)
    (hsize : s.rows.length < maxArraySize) :
    parseFrom maxArraySize opts i s (lf :: rest) =
      parseFrom maxArraySize opts (i + 1)
        { s with rows := s.rows ++ [s.currentRow ++ [s.field]], currentRow := [], field := [] } rest := by
  have hcr : lf ≠ cr := by decide
  rw [parseFrom.eq_def]
  simp [hopen, hvalid.quote_ne_lf.symm, hvalid.delimiter_ne_lf.symm, hcr, finalizeRow,
    Nat.not_le.mpr hsize]

end Steps

/-- The parser reads ordinary characters into the field. -/
theorem parseFrom_plain {field : Bytes} (hplain : ∀ c ∈ field, isQuoteTrigger opts c = false)
    (hopen : s.inQuotes = false) (i : Nat) :
    parseFrom maxArraySize opts i s (field ++ rest) =
      parseFrom maxArraySize opts (i + field.length) { s with field := s.field ++ field } rest := by
  induction field generalizing i s with
  | nil => simp
  | cons c field ih =>
    obtain ⟨hc, hfield⟩ := List.forall_mem_cons.mp hplain
    have hrest := ih (s := { s with field := s.field ++ [c] }) hfield hopen (i + 1)
    rw [List.cons_append, parseFrom_ordinary hopen hc, hrest]
    simp [Nat.add_assoc, Nat.add_comm 1]

/-- Inside quotes the parser undoes the doubling, up to the closing quote. -/
theorem parseFrom_quoted (field : Bytes) (hquoted : s.inQuotes = true)
    (hnext : rest.head? ≠ some opts.quote) (i : Nat) :
    ∃ j, parseFrom maxArraySize opts i s (doubleQuotes opts field ++ opts.quote :: rest) =
      parseFrom maxArraySize opts j { s with field := s.field ++ field, inQuotes := false } rest := by
  induction field generalizing i s with
  | nil =>
    refine ⟨i + 1, ?_⟩
    rw [doubleQuotes, List.nil_append, parseFrom_close hquoted hnext, List.append_nil]
  | cons c field ih =>
    by_cases hc : c = opts.quote
    · obtain ⟨j, hj⟩ := ih (s := { s with field := s.field ++ [opts.quote] }) hquoted (i + 2)
      refine ⟨j, ?_⟩
      rw [doubleQuotes, if_pos hc, hc, List.cons_append, List.cons_append, parseFrom_escaped hquoted, hj]
      simp
    · obtain ⟨j, hj⟩ := ih (s := { s with field := s.field ++ [c] }) hquoted (i + 1)
      refine ⟨j, ?_⟩
      rw [doubleQuotes, if_neg hc, List.cons_append, parseFrom_inside hquoted hc, hj]
      simp

/-- A serialised field is read back whole, whether it was quoted or not. -/
theorem parseFrom_field (field : Bytes) (hopen : s.inQuotes = false) (hempty : s.field = [])
    (hnext : rest.head? ≠ some opts.quote) (i : Nat) :
    ∃ j q, parseFrom maxArraySize opts i s (serializeField field opts ++ rest) =
      parseFrom maxArraySize opts j { s with field, quoteStart := q } rest := by
  rw [serializeField_eq]
  split
  · obtain ⟨j, hj⟩ : ∃ j, parseFrom maxArraySize opts (i + 1) { s with inQuotes := true, quoteStart := i }
        (doubleQuotes opts field ++ opts.quote :: rest) = _ := parseFrom_quoted field rfl hnext (i + 1)
    refine ⟨j, i, ?_⟩
    rw [List.append_assoc, List.cons_append, parseFrom_open hopen, List.singleton_append, hj, hempty, ← hopen]
    rfl
  next hclean =>
    have hplain : ∀ c ∈ field, isQuoteTrigger opts c = false := by simpa using hclean
    refine ⟨i + field.length, s.quoteStart, ?_⟩
    rw [parseFrom_plain hplain hopen, hempty]
    rfl

/-- Neither a delimiter nor a line feed is taken for the second half of an escaped quote. -/
theorem head?_serializeFields {fields : List Bytes} (hvalid : opts.Valid) {i : Nat} (hi : 0 < i) :
    (serializeFields opts i fields ++ lf :: rest).head? ≠ some opts.quote := by
  cases fields with
  | nil => simpa [serializeFields] using hvalid.quote_ne_lf.symm
  | cons field fields => simpa [serializeFields, hi] using hvalid.delimiter_ne_quote

/-- The fields after the first, up to the end of the row. -/
theorem parseFrom_fields (hvalid : opts.Valid) {k : Nat} (hk : 0 < k) (fields : List Bytes)
    (hopen : s.inQuotes = false) (hrows : s.rows.length < maxArraySize)
    (hsize : s.currentRow.length + fields.length < maxArraySize) (i : Nat) :
    ∃ j q, parseFrom maxArraySize opts i s (serializeFields opts k fields ++ lf :: rest) =
      parseFrom maxArraySize opts j
        { rows := s.rows ++ [s.currentRow ++ s.field :: fields], quoteStart := q } rest := by
  induction fields generalizing k i s with
  | nil =>
    refine ⟨i + 1, s.quoteStart, ?_⟩
    rw [serializeFields, List.nil_append, parseFrom_lf hvalid hopen hrows, hopen]
  | cons field fields ih =>
    rw [List.length_cons] at hsize
    obtain ⟨j, q, hfield⟩ : ∃ j q, parseFrom maxArraySize opts (i + 1)
        { s with currentRow := s.currentRow ++ [s.field], field := [] }
        (serializeField field opts ++ (serializeFields opts (k + 1) fields ++ lf :: rest)) =
          parseFrom maxArraySize opts j _ _ :=
      parseFrom_field (s := { s with currentRow := s.currentRow ++ [s.field], field := [] }) field hopen rfl
        (head?_serializeFields hvalid k.succ_pos) (i + 1)
    obtain ⟨j', q', hrest⟩ := ih (s := { s with currentRow := s.currentRow ++ [s.field], field, quoteStart := q })
      k.succ_pos hopen hrows (by simp only [List.length_append, List.length_singleton]; omega) j
    refine ⟨j', q', ?_⟩
    rw [serializeFields, if_pos hk, List.append_assoc, List.append_assoc, List.singleton_append,
      parseFrom_delimiter hvalid hopen (by omega), hfield, hrest]
    simp

/-- One row, from between two rows to between two rows. -/
theorem parseFrom_row (hvalid : opts.Valid) {row : List Bytes} (hne : row ≠ [])
    (hsize : row.length ≤ maxArraySize) {rows : List (List Bytes)} (hrows : rows.length < maxArraySize)
    (i q : Nat) :
    ∃ j q', parseFrom maxArraySize opts i { rows, quoteStart := q } (serializeFields opts 0 row ++ lf :: rest) =
      parseFrom maxArraySize opts j { rows := rows ++ [row], quoteStart := q' } rest := by
  cases row with
  | nil => exact absurd rfl hne
  | cons field fields =>
    rw [List.length_cons] at hsize
    obtain ⟨j, q₁, hfield⟩ : ∃ j q₁, parseFrom maxArraySize opts i { rows, quoteStart := q }
        (serializeField field opts ++ (serializeFields opts 1 fields ++ lf :: rest)) =
          parseFrom maxArraySize opts j _ _ :=
      parseFrom_field field rfl rfl (head?_serializeFields hvalid Nat.one_pos) i
    obtain ⟨j', q', hfields⟩ : ∃ j' q', parseFrom maxArraySize opts j { rows, field, quoteStart := q₁ }
        (serializeFields opts 1 fields ++ lf :: rest) = parseFrom maxArraySize opts j' _ rest :=
      parseFrom_fields hvalid Nat.one_pos fields rfl hrows (by simp only [List.length_nil]; omega) j
    refine ⟨j', q', ?_⟩
    rw [serializeFields, if_neg (Nat.lt_irrefl 0), List.nil_append, List.append_assoc, hfield, hfields]
    rfl

theorem parseFrom_rows (hvalid : opts.Valid) {rows : List (List Bytes)}
    (hne : ∀ row ∈ rows, row ≠ []) (hsize : ∀ row ∈ rows, row.length ≤ maxArraySize)
    {before : List (List Bytes)} (hrows : before.length + rows.length ≤ maxArraySize) (i q : Nat) :
    parseFrom maxArraySize opts i { rows := before, quoteStart := q } (serializeRows rows opts) =
      { rows := before ++ rows, success := true, error := "", errorOffset := 0 } := by
  induction rows generalizing before i q with
  | nil => simp [serializeRows, parseFrom, finish]
  | cons row rows ih =>
    rw [List.forall_mem_cons] at hne hsize
    rw [List.length_cons] at hrows
    obtain ⟨j, q', hrow⟩ : ∃ j q', parseFrom maxArraySize opts i { rows := before, quoteStart := q }
        (serializeFields opts 0 row ++ lf :: serializeRows rows opts) =
          parseFrom maxArraySize opts j { rows := before ++ [row], quoteStart := q' } _ :=
      parseFrom_row hvalid hne.1 hsize.1 (by omega) i q
    have hroom : (before ++ [row]).length + rows.length ≤ maxArraySize := by
      simp only [List.length_append, List.length_singleton]
      omega
    have htail := ih hne.2 hsize.2 hroom j q'
    rw [serializeRows, List.flatMap_cons, List.append_assoc, List.singleton_append]
    exact (hrow.trans htail).trans (by simp)

/-- Parsing what was serialised gives the rows back. -/
theorem parseCsv_serializeRows (hvalid : opts.Valid) {rows : List (List Bytes)}
    (hne : ∀ row ∈ rows, row ≠ []) (hrows : rows.length ≤ maxArraySize)
    (hfields : ∀ row ∈ rows, row.length ≤ maxArraySize) :
    parseCsv maxArraySize opts (serializeRows rows opts) =
      { rows, success := true, error := "", errorOffset := 0 } :=
  parseFrom_rows hvalid hne hfields (show [].length + rows.length ≤ maxArraySize by simpa using hrows) 0 0

/-- A row with one empty field, and fields made of quotes, delimiters and line ends. -/
theorem parseCsv_serializeRows_awkward :
    parseCsv 3 {} (serializeRows [[[]], [[34, 34], [13, 10], [44]]] {}) =
      { rows := [[[]], [[34, 34], [13, 10], [44]]], success := true, error := "", errorOffset := 0 } :=
  parseCsv_serializeRows ⟨by decide, by decide, by decide, by decide, by decide⟩ (by decide) (by decide)
    (by decide)

end Luma.Csv
