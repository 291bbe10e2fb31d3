-- SUMMARY: HTTP responses: the status line, the header fields and what is taken to be the body.
import Luma.Protocol.Transport
import Luma.Stdlib.ChunkedDecoder
import Luma.Stdlib.TextNumbers

/-! # HTTP responses

A response is parsed line by line up to the empty line behind its header fields, or until as
many fields were read as may be kept. -/

namespace Luma.Http

open Codec Scanning

/-- The limits on header fields. -/
structure HttpLimits where
  maxHeaderCount : Nat
  maxHeaderValueSize : Nat

structure HttpResponse where
  statusCode : Int := 0
  reason : Bytes := []
  headers : List (Bytes × Bytes) := []
  body : Bytes := []
  deriving DecidableEq

def parseStatusCode (codeStr : Bytes) : Option Int := TextNumbers.stoi codeStr

/-- A value without the spaces in front of it. One of spaces alone is left as it is. -/
def trimValue (value : Bytes) : Bytes := if value.all (· = 32) then value else value.dropWhile (· = 32)

/-- The name and the value of a header line; a line without a colon has none. -/
def headerOf (limits : HttpLimits) (line : Bytes) : Option (Bytes × Bytes) :=
  (splitFirst 58 line).map fun field => (field.1.map Protocol.toLower, (trimValue field.2).take limits.maxHeaderValueSize)

/-- The loop over the header lines: the fields, and what is behind the place where it stops.
    Every round takes a line, so as many rounds as there are bytes are enough. -/
def parseHeaders (limits : HttpLimits) : Nat → Bytes → List (Bytes × Bytes) → List (Bytes × Bytes) × Bytes
  | 0, rest, headers => (headers, rest)
  | rounds + 1, rest, headers =>
    if rest = [] then (headers, rest)
    else
      match splitAtMarker crlf rest with
      | none => (headers, [])
      | some found =>
        if found.1 = [] then (headers, found.2)
        else
          match headerOf limits found.1 with
          | none => parseHeaders limits rounds found.2 headers
          | some header =>
            if limits.maxHeaderCount ≤ (headers ++ [header]).length then (headers ++ [header], found.2)
            else parseHeaders limits rounds found.2 (headers ++ [header])

/-- The status code and the reason of a status line. -/
def parseStatusLine (statusLine : Bytes) : Option (Int × Bytes) :=
  (splitFirst 32 statusLine).bind fun first =>
    match splitFirst 32 first.2 with
    | some second => (parseStatusCode second.1).map fun code => (code, second.2)
    | none => (parseStatusCode first.2).map fun code => (code, [])

def parseResponse (limits : HttpLimits) (raw : Bytes) : HttpResponse :=
  match splitAtMarker crlf raw with
  | none => {}
  | some found =>
    match parseStatusLine found.1 with
    | none => {}
    | some status =>
      let parsed := parseHeaders limits found.2.length found.2 []
      { statusCode := status.1, reason := status.2, headers := parsed.1, body := parsed.2 }

/-! ## Responses by their parts -/

/-- A status line, header lines that are not empty, an empty line and a body. -/
structure RawResponse where
  statusLine : Bytes
  fields : List Bytes
  body : Bytes
  statusLine_line : ¬ crlf <:+: statusLine
  fields_line : ∀ line ∈ fields, line ≠ [] ∧ ¬ crlf <:+: line

namespace RawResponse

/-- The bytes behind the status line. -/
def rest (r : RawResponse) : Bytes := r.fields.flatMap (· ++ crlf) ++ (crlf ++ r.body)

def text (r : RawResponse) : Bytes := r.statusLine ++ (crlf ++ r.rest)

/-- What is in front of the empty line. -/
def headerBlock (r : RawResponse) : Bytes := r.statusLine ++ r.fields.flatMap (crlf ++ ·)

end RawResponse

/-- A line is taken up to the line break behind it. -/
theorem splitAtMarker_line {line after : Bytes} (h : ¬ crlf <:+: line) :
    splitAtMarker crlf (line ++ (crlf ++ after)) = some (line, after) := by
  induction line with
  | nil => exact splitAtMarker_here
  | cons c line ih =>
    have htail : ¬ crlf <:+: line := fun hwithin => h (hwithin.trans (List.infix_cons (List.infix_refl line)))
    have hmarker : crlf.isPrefixOf (c :: (line ++ (crlf ++ after))) = false := by
      rw [Bool.eq_false_iff, ne_eq, List.isPrefixOf_iff_prefix]
      rintro ⟨t, ht⟩
      cases line with
      | nil =>
        -- The byte behind the line is a carriage return and no line feed.
        obtain ⟨-, ht⟩ := List.cons.inj ht
        exact absurd (List.cons.inj ht).1 (by decide)
      | cons d line =>
        obtain ⟨hc, ht⟩ := List.cons.inj ht
        obtain ⟨hd, -⟩ := List.cons.inj ht
        exact h ⟨[], line, by rw [← hc, ← hd]; rfl⟩
    rw [List.cons_append]
    exact splitAtMarker_cons hmarker (ih htail)

section Body

variable {limits : HttpLimits} {lines : List Bytes} {body : Bytes}

/-- The number of lines with a colon. -/
def fieldCount (lines : List Bytes) : Nat := lines.countP fun line => decide (58 ∈ line)

/-- One round of the loop takes a line. -/
theorem parseHeaders_line {line after : Bytes} {rounds : Nat} {headers : List (Bytes × Bytes)} (hne : line ≠ [])
    (hline : ¬ crlf <:+: line) :
    parseHeaders limits (rounds + 1) (line ++ (crlf ++ after)) headers =
      match headerOf limits line with
      | none => parseHeaders limits rounds after headers
      | some header =>
        if limits.maxHeaderCount ≤ headers.length + 1 then (headers ++ [header], after)
        else parseHeaders limits rounds after (headers ++ [header]) := by
  have hrest : line ++ (crlf ++ after) ≠ [] := List.append_ne_nil_of_left_ne_nil hne _
  rw [parseHeaders, if_neg hrest, splitAtMarker_line hline]
  simp only [List.length_append, List.length_singleton]
  rw [if_neg hne]

/-- The empty line ends the loop. -/
theorem parseHeaders_end {rounds : Nat} {headers : List (Bytes × Bytes)} :
    parseHeaders limits (rounds + 1) (crlf ++ body) headers = (headers, body) := by
  have hrest : crlf ++ body ≠ [] := List.append_ne_nil_of_left_ne_nil (List.cons_ne_nil _ _) _
  rw [parseHeaders, if_neg hrest, splitAtMarker_here]
  rfl

theorem headerOf_none {line : Bytes} (h : 58 ∉ line) : headerOf limits line = none := by
  rw [headerOf, splitFirst_of_notMem h]
  rfl

theorem headerOf_some {line : Bytes} (h : 58 ∈ line) : ∃ header, headerOf limits line = some header := by
  rw [headerOf, splitFirst, if_pos h]
  exact ⟨_, rfl⟩

/-- The loop goes on to the empty line just where no field fills up the list before. -/
theorem parseHeaders_body_iff {rounds : Nat} {headers : List (Bytes × Bytes)}
    (hlines : ∀ line ∈ lines, line ≠ [] ∧ ¬ crlf <:+: line) (hrounds : lines.length < rounds) :
    (parseHeaders limits rounds (lines.flatMap (· ++ crlf) ++ (crlf ++ body)) headers).2 = body ↔
      fieldCount lines = 0 ∨ headers.length + fieldCount lines < limits.maxHeaderCount := by
  induction lines generalizing rounds headers with
  | nil =>
    obtain ⟨rounds, rfl⟩ : ∃ n, rounds = n + 1 := ⟨rounds - 1, by omega⟩
    rw [List.flatMap_nil, List.nil_append, parseHeaders_end]
    exact iff_of_true rfl (Or.inl rfl)
  | cons line lines ih =>
    rw [List.length_cons] at hrounds
    obtain ⟨rounds, rfl⟩ : ∃ n, rounds = n + 1 := ⟨rounds - 1, by omega⟩
    obtain ⟨hne, hline⟩ := hlines line List.mem_cons_self
    have hlines' : ∀ line ∈ lines, line ≠ [] ∧ ¬ crlf <:+: line := fun l hl => hlines l (List.mem_cons_of_mem _ hl)
    rw [List.flatMap_cons, List.append_assoc, List.append_assoc, parseHeaders_line hne hline]
    by_cases hcolon : 58 ∈ line
    · obtain ⟨header, hheader⟩ : ∃ header, headerOf limits line = some header := headerOf_some hcolon
      have hcount : fieldCount (line :: lines) = fieldCount lines + 1 := by
        rw [fieldCount, List.countP_cons_of_pos (by simpa using hcolon)]
        rfl
      rw [hheader, hcount]
      simp only
      by_cases hfull : limits.maxHeaderCount ≤ headers.length + 1
      · -- Everything behind this line is left, the empty line included.
        rw [if_pos hfull]
        refine iff_of_false (fun heq => ?_) (by omega)
        have hlength := congrArg List.length heq
        rw [List.length_append, List.length_append] at hlength
        have hbreak : crlf.length = 2 := rfl
        omega
      · rw [if_neg hfull, ih hlines' (by omega), List.length_append, List.length_singleton]
        omega
    · have hcount : fieldCount (line :: lines) = fieldCount lines := by
        rw [fieldCount, List.countP_cons_of_neg (by simpa using hcolon)]
        rfl
      rw [headerOf_none hcolon, hcount]
      exact ih hlines' (by omega)

/-- Every line takes up a line break at least. -/
theorem length_le_lines (lines : List Bytes) : lines.length ≤ (lines.flatMap (· ++ crlf)).length := by
  induction lines with
  | nil => exact Nat.le_refl 0
  | cons line lines ih =>
    have hbreak : crlf.length = 2 := rfl
    rw [List.flatMap_cons, List.length_cons, List.length_append, List.length_append]
    omega

end Body

/-- A response whose status line can be read, and whose fields do not fill up the list. -/
def RawResponse.Regular (limits : HttpLimits) (r : RawResponse) : Prop :=
  (parseStatusLine r.statusLine).isSome = true ∧
    (fieldCount r.fields = 0 ∨ fieldCount r.fields < limits.maxHeaderCount)

/-- What is taken to be the body is the body just where the response is regular, or where an
    unreadable status line is followed by an empty body. -/
theorem parseResponse_body_iff {limits : HttpLimits} {r : RawResponse} :
    (parseResponse limits r.text).body = r.body ↔ r.Regular limits ∨ (parseStatusLine r.statusLine = none ∧ r.body = []) := by
  rw [parseResponse, RawResponse.text, splitAtMarker_line r.statusLine_line, RawResponse.Regular]
  cases hstatus : parseStatusLine r.statusLine with
  | none =>
    simp only [hstatus, Option.isSome_none, Bool.false_eq_true, false_and, false_or, true_and]
    exact eq_comm
  | some status =>
    have hrounds : r.fields.length < r.rest.length := by
      have hlines := length_le_lines r.fields
      have hbreak : crlf.length = 2 := rfl
      rw [RawResponse.rest, List.length_append, List.length_append]
      omega
    have hspec : (parseHeaders limits r.rest.length r.rest []).2 = r.body ↔
        fieldCount r.fields = 0 ∨ [].length + fieldCount r.fields < limits.maxHeaderCount :=
      parseHeaders_body_iff r.fields_line hrounds
    rw [List.length_nil, Nat.zero_add] at hspec
    simp only [hstatus, Option.isSome_some, true_and, reduceCtorEq, false_and, or_false]
    exact hspec

/-! ## Header blocks -/

/-- A line break in a text is the one behind its first line, or a later one. -/
theorem lineBreak_cases {line after before behind : Bytes} (hline : ¬ crlf <:+: line)
    (h : line ++ (crlf ++ after) = before ++ (crlf ++ behind)) :
    before = line ∧ behind = after ∨ ∃ before', before = line ++ (crlf ++ before') ∧ after = before' ++ (crlf ++ behind) := by
  have hfirst : line.length ≤ before.length :=
    splitAtMarker_first (splitAtMarker_line hline) (by rw [h, List.append_assoc])
  obtain ⟨t, rfl⟩ : ∃ t, before = line ++ t := by
    have hprefix : line <+: before := by
      refine List.prefix_of_prefix_length_le (List.prefix_append line (crlf ++ after)) ?_ hfirst
      rw [h]
      exact List.prefix_append _ _
    obtain ⟨t, ht⟩ := hprefix
    exact ⟨t, ht.symm⟩
  rw [List.append_assoc, List.append_cancel_left_eq] at h
  rcases t with _ | ⟨x, _ | ⟨y, t⟩⟩
  · exact Or.inl ⟨List.append_nil _, (List.append_cancel_left h).symm⟩
  · -- A line feed is no carriage return.
    obtain ⟨-, h⟩ := List.cons.inj h
    exact absurd (List.cons.inj h).1 (by decide)
  · obtain ⟨hx, h⟩ := List.cons.inj h
    obtain ⟨hy, h⟩ := List.cons.inj h
    refine Or.inr ⟨t, ?_, h⟩
    rw [← hx, ← hy]
    rfl

/-- A line that is not empty does not start with a line break. -/
theorem line_ne_break {line after behind : Bytes} (hne : line ≠ []) (hline : ¬ crlf <:+: line) :
    line ++ (crlf ++ after) ≠ crlf ++ behind := by
  intro h
  have hfront : line ++ (crlf ++ after) = [] ++ (crlf ++ behind) := h
  rcases lineBreak_cases hline hfront with ⟨hnil, -⟩ | ⟨before', hnil, -⟩
  · exact hne hnil.symm
  · exact hne (List.append_eq_nil_iff.mp hnil.symm).1

/-- An empty line is not found before the header lines end. -/
theorem headerBlock_le {line : Bytes} {fields : List Bytes} {body before behind : Bytes} (hline : ¬ crlf <:+: line)
    (hfields : ∀ line ∈ fields, line ≠ [] ∧ ¬ crlf <:+: line)
    (h : line ++ (crlf ++ (fields.flatMap (· ++ crlf) ++ (crlf ++ body))) = before ++ (crlf ++ (crlf ++ behind))) :
    (line ++ fields.flatMap (crlf ++ ·)).length ≤ before.length := by
  induction fields generalizing line before with
  | nil =>
    rw [List.flatMap_nil, List.append_nil]
    rcases lineBreak_cases hline h with ⟨rfl, -⟩ | ⟨before', rfl, -⟩
    · exact Nat.le_refl _
    · rw [List.length_append]
      exact Nat.le_add_right _ _
  | cons field fields ih =>
    obtain ⟨hne, hfield⟩ := hfields field List.mem_cons_self
    rw [List.flatMap_cons, List.append_assoc, List.append_assoc] at h
    rcases lineBreak_cases hline h with ⟨-, hbehind⟩ | ⟨before', rfl, hafter⟩
    · exact absurd hbehind.symm (line_ne_break hne hfield)
    · have hrest := ih hfield (fun l hl => hfields l (List.mem_cons_of_mem _ hl)) hafter
      rw [List.length_append] at hrest
      rw [List.flatMap_cons, List.length_append, List.length_append, List.length_append, List.length_append, List.length_append]
      omega

namespace RawResponse

theorem text_eq (r : RawResponse) : r.text = r.headerBlock ++ (crlf ++ crlf) ++ r.body := by
  have hshift : ∀ fields : List Bytes, ∀ tail : Bytes,
      crlf ++ (fields.flatMap (· ++ crlf) ++ tail) = fields.flatMap (crlf ++ ·) ++ (crlf ++ tail) := by
    intro fields tail
    induction fields with
    | nil => rfl
    | cons field fields ih =>
      rw [List.flatMap_cons, List.flatMap_cons, List.append_assoc, List.append_assoc, ih, List.append_assoc, List.append_assoc]
  rw [text, rest, hshift, headerBlock, List.append_assoc, List.append_assoc, List.append_assoc]

/-- The first empty line is the one behind the header lines. -/
theorem splitAtMarker_text (r : RawResponse) : splitAtMarker (crlf ++ crlf) r.text = some (r.headerBlock, r.body) := by
  have hfound : (splitAtMarker (crlf ++ crlf) r.text).isSome = true :=
    splitAtMarker_isSome ⟨r.headerBlock, r.body, r.text_eq.symm⟩
  obtain ⟨⟨before, behind⟩, hsplit⟩ := Option.isSome_iff_exists.mp hfound
  have hle := splitAtMarker_first hsplit r.text_eq
  have heq := splitAtMarker_eq hsplit
  have hge : r.headerBlock.length ≤ before.length := by
    have htext := heq
    rw [List.append_assoc, List.append_assoc] at htext
    exact headerBlock_le r.statusLine_line r.fields_line htext
  rw [r.text_eq, List.append_assoc, List.append_assoc before] at heq
  obtain ⟨hbefore, hrest⟩ := List.append_inj heq (by omega)
  rw [hsplit, ← hbefore, List.append_cancel_left hrest]

end RawResponse

/-- A text with a line break in it has a first line. -/
theorem exists_line {s : Bytes} (h : crlf <:+: s) : ∃ line after, s = line ++ (crlf ++ after) ∧ ¬ crlf <:+: line := by
  obtain ⟨⟨line, after⟩, hsplit⟩ := Option.isSome_iff_exists.mp (splitAtMarker_isSome h)
  refine ⟨line, after, ?_, splitAtMarker_free (List.cons_ne_nil _ _) hsplit⟩
  rw [splitAtMarker_eq hsplit, List.append_assoc]

theorem break_within {s : Bytes} (h : crlf ++ crlf <:+: s) : crlf <:+: s := (List.prefix_append crlf crlf).isInfix.trans h

/-- An empty line behind a line is behind its line break. -/
theorem emptyLine_after {line after : Bytes} (hline : ¬ crlf <:+: line) (h : crlf ++ crlf <:+: line ++ (crlf ++ after)) :
    crlf ++ crlf <:+: crlf ++ after := by
  obtain ⟨before, behind, heq⟩ := h
  have heq : line ++ (crlf ++ after) = before ++ (crlf ++ (crlf ++ behind)) := by
    rw [← heq, List.append_assoc, List.append_assoc]
  rcases lineBreak_cases hline heq with ⟨-, hbehind⟩ | ⟨before', -, hafter⟩
  · rw [← hbehind]
    exact ⟨[], behind, by rw [List.nil_append, List.append_assoc]⟩
  · rw [hafter]
    exact ⟨crlf ++ before', behind, by simp only [List.append_assoc]⟩

/-- A line break with an empty line behind it is followed by header lines, an empty line and a body. -/
theorem exists_fields {rest : Bytes} (h : crlf ++ crlf <:+: crlf ++ rest) :
    ∃ fields : List Bytes, ∃ body : Bytes, rest = fields.flatMap (· ++ crlf) ++ (crlf ++ body) ∧
      ∀ line ∈ fields, line ≠ [] ∧ ¬ crlf <:+: line := by
  induction hn : rest.length using Nat.strong_induction_on generalizing rest with
  | _ n ih =>
    subst hn
    by_cases hempty : crlf <+: rest
    · obtain ⟨body, rfl⟩ := hempty
      exact ⟨[], body, rfl, fun line hline => absurd hline List.not_mem_nil⟩
    · obtain ⟨before, behind, heq⟩ := h
      have hinside : crlf ++ crlf <:+: rest := by
        have heq : ([] : Bytes) ++ (crlf ++ rest) = before ++ (crlf ++ (crlf ++ behind)) := by
          rw [List.nil_append, ← heq, List.append_assoc, List.append_assoc]
        rcases lineBreak_cases (by decide) heq with ⟨-, hbehind⟩ | ⟨before', -, hafter⟩
        · exact absurd ⟨behind, hbehind⟩ hempty
        · rw [hafter]
          exact ⟨before', behind, by simp only [List.append_assoc]⟩
      obtain ⟨line, after, rfl, hline⟩ := exists_line (break_within hinside)
      have hne : line ≠ [] := by
        rintro rfl
        exact hempty ⟨after, rfl⟩
      have hshorter : after.length < (line ++ (crlf ++ after)).length := by
        have hbreak : crlf.length = 2 := rfl
        rw [List.length_append, List.length_append]
        omega
      obtain ⟨fields, body, hafter, hfields⟩ := ih after.length hshorter (emptyLine_after hline hinside) rfl
      refine ⟨line :: fields, body, ?_, ?_⟩
      · rw [List.flatMap_cons, hafter]
        simp only [List.append_assoc]
      · intro l hl
        rcases List.mem_cons.mp hl with rfl | hmem
        · exact ⟨hne, hline⟩
        · exact hfields l hmem

/-- Every text with an empty line in it is such a response. -/
theorem exists_rawResponse {raw : Bytes} (h : crlf ++ crlf <:+: raw) : ∃ r : RawResponse, r.text = raw := by
  obtain ⟨line, after, rfl, hline⟩ := exists_line (break_within h)
  obtain ⟨fields, body, hafter, hfields⟩ := exists_fields (emptyLine_after hline h)
  exact ⟨⟨line, fields, body, hline, hfields⟩, by rw [RawResponse.text, RawResponse.rest, ← hafter]⟩

end Luma.Http
