-- SUMMARY: The encoder between the editor's positions and the code points of a source, and that it keeps every place.
import Luma.LanguageServer.PositionEncodings

/-! # The position encoder

The encoder holds a source and its line starts, and the line that was asked for last. It
takes code-point columns to UTF-16 columns and back. -/

namespace Luma.LanguageServer

open Codec Luma.Protocol Luma.Lexer Utf8

structure PositionEncoder where
  source : Option Bytes := none
  lineStarts : Option (List Nat) := none
  cachedLine0 : Int := -1
  cachedLine : Bytes := []

/-- The part of a source from one line start to the next, without its line end. -/
def sliceLine (src : Bytes) (starts : List Nat) (idx : Nat) : Bytes :=
  match starts[idx]? with
  | none => []
  | some start =>
    let lineEnd := starts.getD (idx + 1) src.length
    let lineEnd := stripByte newline src start lineEnd
    let lineEnd := stripByte carriageReturn src start lineEnd
    (src.drop start).take (lineEnd - start)

namespace PositionEncoder

variable (e : PositionEncoder)

def valid : Bool := e.source.isSome && e.lineStarts.isSome

def lineText (line0 : Int) : Bytes × PositionEncoder :=
  if line0 < 0 then ([], e)
  else
    match e.source, e.lineStarts with
    | some src, some starts =>
      if line0 = e.cachedLine0 then (e.cachedLine, e)
      else
        let line := sliceLine src starts line0.toNat
        (line, { e with cachedLine0 := line0, cachedLine := line })
    | _, _ => ([], e)

/-- 0-based codepoint column on a 0-based line → 0-based UTF-16 column. -/
def toUtf16 (line0 codepointCol : Int) : Int × PositionEncoder :=
  if codepointCol ≤ 0 ∨ e.valid = false then (if codepointCol > 0 then codepointCol else 0, e)
  else
    let (line, e) := e.lineText line0
    if line = [] then (codepointCol, e)
    else (byteOffsetToUtf16Column line (codepointColumnToByteOffset line codepointCol), e)

/-- 0-based UTF-16 column on a 0-based line → 0-based codepoint column. -/
def toCodepoint (line0 utf16Col : Int) : Int × PositionEncoder :=
  if utf16Col ≤ 0 ∨ e.valid = false then (if utf16Col > 0 then utf16Col else 0, e)
  else
    let (line, e) := e.lineText line0
    if line = [] then (utf16Col, e)
    else (byteOffsetToCodepointColumn line (utf16ColumnToByteOffset line utf16Col), e)

/-! ## The line that is asked for -/

/-- The line without regard to what is cached. -/
def textOf (line0 : Int) : Bytes :=
  if line0 < 0 then []
  else
    match e.source, e.lineStarts with
    | some src, some starts => sliceLine src starts line0.toNat
    | _, _ => []

/-- The cached line is the line of its number. -/
def Coherent : Prop := 0 ≤ e.cachedLine0 → e.cachedLine = e.textOf e.cachedLine0

end PositionEncoder

/-- An encoder that answers as another one does: its cache is right, and it has the same lines. -/
structure PositionEncoder.Continues (e e' : PositionEncoder) : Prop where
  coherent : e'.Coherent
  textOf_eq : ∀ line0, e'.textOf line0 = e.textOf line0

section Laws

variable {e : PositionEncoder} {line0 : Int} {line : List Char} {k : Nat}

theorem PositionEncoder.lineText_some {src : Bytes} {starts : List Nat} {cached0 : Int} {cached : Bytes}
    (hline : ¬ line0 < 0) :
    lineText ⟨some src, some starts, cached0, cached⟩ line0 =
      if line0 = cached0 then (cached, ⟨some src, some starts, cached0, cached⟩)
      else (sliceLine src starts line0.toNat, ⟨some src, some starts, line0, sliceLine src starts line0.toNat⟩) := by
  rw [lineText, if_neg hline]

theorem PositionEncoder.Coherent.lineText (h : e.Coherent) :
    (e.lineText line0).1 = e.textOf line0 ∧ e.Continues (e.lineText line0).2 := by
  have hsame : e.Continues e := ⟨h, fun _ => rfl⟩
  by_cases hline : line0 < 0
  · rw [PositionEncoder.lineText, PositionEncoder.textOf, if_pos hline, if_pos hline]
    exact ⟨rfl, hsame⟩
  · obtain ⟨source, lineStarts, cachedLine0, cachedLine⟩ := e
    rw [PositionEncoder.textOf, if_neg hline]
    cases source with
    | none =>
      rw [PositionEncoder.lineText, if_neg hline]
      exact ⟨rfl, hsame⟩
    | some src =>
      cases lineStarts with
      | none =>
        rw [PositionEncoder.lineText, if_neg hline]
        exact ⟨rfl, hsame⟩
      | some starts =>
        rw [PositionEncoder.lineText_some hline]
        by_cases hcached : line0 = cachedLine0
        · subst hcached
          have hcache := h (Int.not_lt.mp hline)
          rw [PositionEncoder.textOf, if_neg hline] at hcache
          rw [if_pos rfl]
          exact ⟨hcache, hsame⟩
        · rw [if_neg hcached]
          refine ⟨rfl, fun _ => ?_, fun _ => rfl⟩
          rw [PositionEncoder.textOf, if_neg hline]

theorem PositionEncoder.valid_of_textOf (htext : e.textOf line0 ≠ []) : e.valid = true := by
  obtain ⟨source, lineStarts, cachedLine0, cachedLine⟩ := e
  cases source with
  | none => simp [PositionEncoder.textOf] at htext
  | some src =>
    cases lineStarts with
    | none => simp [PositionEncoder.textOf] at htext
    | some starts => rfl

theorem encode_ne_nil (hline : line ≠ []) : encode line ≠ [] := by
  cases line with
  | nil => exact absurd rfl hline
  | cons c line =>
    rw [encode_cons]
    exact List.append_ne_nil_of_left_ne_nil utf8EncodeChar_ne_nil _

theorem utf16ColumnAt_zero : utf16ColumnAt line 0 = 0 := rfl

theorem PositionEncoder.toUtf16_zero : e.toUtf16 line0 0 = (0, e) := by
  rw [toUtf16, if_pos (Or.inl (Int.le_refl 0))]
  rfl

theorem PositionEncoder.toCodepoint_zero : e.toCodepoint line0 0 = (0, e) := by
  rw [toCodepoint, if_pos (Or.inl (Int.le_refl 0))]
  rfl

/-- The encoder takes a place of a line to its UTF-16 column. -/
theorem PositionEncoder.Coherent.toUtf16_at (h : e.Coherent) (htext : e.textOf line0 = encode line)
    (hk : k ≤ line.length) :
    (e.toUtf16 line0 k).1 = utf16ColumnAt line k ∧ e.Continues (e.toUtf16 line0 k).2 := by
  rcases Nat.eq_zero_or_pos k with rfl | hpos
  · rw [Nat.cast_zero, PositionEncoder.toUtf16_zero]
    exact ⟨rfl, h, fun _ => rfl⟩
  · have hline : encode line ≠ [] := encode_ne_nil (by rintro rfl; simp at hk; omega)
    have hvalid : e.valid = true := PositionEncoder.valid_of_textOf (htext ▸ hline)
    obtain ⟨hlineText, hcontinues⟩ : (e.lineText line0).1 = e.textOf line0 ∧ e.Continues (e.lineText line0).2 :=
      h.lineText
    rw [htext] at hlineText
    rw [PositionEncoder.toUtf16, if_neg (by rw [hvalid]; simp; omega)]
    simp only [hlineText, if_neg hline]
    rw [codepointColumnToByteOffset_at, byteOffsetToUtf16Column_at]
    exact ⟨rfl, hcontinues⟩

/-- The encoder takes the UTF-16 column of a place back to it. -/
theorem PositionEncoder.Coherent.toCodepoint_at (h : e.Coherent) (htext : e.textOf line0 = encode line)
    (hk : k ≤ line.length) :
    (e.toCodepoint line0 (utf16ColumnAt line k)).1 = k ∧ e.Continues (e.toCodepoint line0 (utf16ColumnAt line k)).2 := by
  rcases Nat.eq_zero_or_pos k with rfl | hpos
  · rw [utf16ColumnAt_zero, PositionEncoder.toCodepoint_zero]
    exact ⟨rfl, h, fun _ => rfl⟩
  · have hline : encode line ≠ [] := encode_ne_nil (by rintro rfl; exact absurd (hpos.trans_le hk) (Nat.lt_irrefl 0))
    have hvalid : e.valid = true := PositionEncoder.valid_of_textOf (htext ▸ hline)
    have hcolumn : utf16ColumnAt line 0 < utf16ColumnAt line k := utf16ColumnAt_lt hpos hk
    rw [utf16ColumnAt_zero] at hcolumn
    obtain ⟨hlineText, hcontinues⟩ : (e.lineText line0).1 = e.textOf line0 ∧ e.Continues (e.lineText line0).2 :=
      h.lineText
    rw [htext] at hlineText
    rw [PositionEncoder.toCodepoint, if_neg (by rw [hvalid]; simp; omega)]
    simp only [hlineText, if_neg hline]
    rw [utf16ColumnToByteOffset_at hk, byteOffsetToCodepointColumn_at hk]
    exact ⟨rfl, hcontinues⟩

end Laws

/-! ## The encodings of a place -/

/-- The columns that the cursor of the lexer has in a line of a source. -/
theorem column_in_source {before rest : Bytes} {line : List Char} {k : Nat}
    (hbefore : before = [] ∨ before.getLast? = some newline) (hline : '\n' ∉ line) (hk : k ≤ line.length) :
    LexerCursor.advances { source := before ++ (encode line ++ rest) } (before.length + byteOffsetAt line k) =
      { source := before ++ (encode line ++ rest)
        position := before.length + byteOffsetAt line k
        line := before.count newline + 1
        column := k + 1 } := by
  have hsplit : before ++ (encode line ++ rest) =
      [] ++ ((before ++ encode (line.take k)) ++ (encode (line.drop k) ++ rest)) := by
    rw [List.nil_append, List.append_assoc, ← List.append_assoc (encode (line.take k)), encode_take_append_drop]
  have hcursor := LexerCursor.advances_eq (s := { source := before ++ (encode line ++ rest) }) hsplit rfl
  have hprefix : '\n' ∉ line.take k := fun hmem => hline (List.mem_of_mem_take hmem)
  rw [List.length_append, locationAfter_append, locationAfter_lines hbefore, locationAfter_encode hprefix,
    List.length_take, Nat.min_eq_left hk, List.length_nil, Nat.zero_add] at hcursor
  rw [byteOffsetAt, hcursor, Nat.add_comm 1 k]

/-- On the places between the characters of a line, the conversions between byte offsets,
    UTF-16 columns and code-point columns are inverse to each other and increasing, with or
    without the way over byte offsets; the lexer's column is one more than the code-point
    column of the offset; offsets and columns behind the line are those of its end; and the
    encoder takes every place to the editor and back. -/
theorem position_encodings {line : List Char} :
    Convertible (byteOffsetToUtf16Column (encode line)) (utf16ColumnToByteOffset (encode line))
        (boundaries line) (utf16Columns line) ∧
      Convertible (byteOffsetToCodepointColumn (encode line)) (codepointColumnToByteOffset (encode line))
        (boundaries line) (codepointColumns line) ∧
      Convertible (fun column => byteOffsetToUtf16Column (encode line) (codepointColumnToByteOffset (encode line) column))
        (fun column => byteOffsetToCodepointColumn (encode line) (utf16ColumnToByteOffset (encode line) column))
        (codepointColumns line) (utf16Columns line) ∧
      (∀ before rest : Bytes, before = [] ∨ before.getLast? = some newline → '\n' ∉ line →
        ∀ i ∈ boundaries line,
          let s := LexerCursor.advances { source := before ++ (encode line ++ rest) } (before.length + i)
          s.position = before.length + i ∧ s.line = before.count newline + 1 ∧
            (s.column : Int) = byteOffsetToCodepointColumn (encode line) i + 1) ∧
      (∀ (i : Nat) (column : Int), (encode line).length ≤ i →
        byteOffsetToUtf16Column (encode line) i = utf16ColumnAt line line.length ∧
          byteOffsetToCodepointColumn (encode line) i = line.length ∧
          (utf16ColumnAt line line.length ≤ column →
            utf16ColumnToByteOffset (encode line) column = (encode line).length) ∧
          (line.length ≤ column → codepointColumnToByteOffset (encode line) column = (encode line).length)) ∧
      (∀ (e : PositionEncoder) (line0 : Int), e.Coherent → e.textOf line0 = encode line →
        (∀ column ∈ codepointColumns line,
          let sent := e.toUtf16 line0 column
          (sent.2.toCodepoint line0 sent.1).1 = column) ∧
        ∀ column ∈ utf16Columns line,
          let received := e.toCodepoint line0 column
          (received.2.toUtf16 line0 received.1).1 = column) := by
  have hbytes : StrictMonoOn (byteOffsetAt line) (Set.Iic line.length) := fun _ _ l hl hkl => byteOffsetAt_lt hkl hl
  have hunits : StrictMonoOn (utf16ColumnAt line) (Set.Iic line.length) := fun _ _ l hl hkl => utf16ColumnAt_lt hkl hl
  have hpoints : StrictMonoOn (Nat.cast : Nat → Int) (Set.Iic line.length) := fun _ _ _ _ hkl => Int.ofNat_lt.mpr hkl
  refine ⟨?_, ?_, ?_, ?_, fun i column hi => behind_line hi, ?_⟩
  · exact convertible_of_enumerations (fun k _ => byteOffsetToUtf16Column_at)
      (fun k hk => utf16ColumnToByteOffset_at hk) hbytes hunits
  · exact convertible_of_enumerations (fun k hk => byteOffsetToCodepointColumn_at hk)
      (fun k _ => codepointColumnToByteOffset_at) hbytes hpoints
  · refine convertible_of_enumerations (fun k _ => ?_) (fun k hk => ?_) hpoints hunits
    · rw [codepointColumnToByteOffset_at, byteOffsetToUtf16Column_at]
    · rw [utf16ColumnToByteOffset_at hk, byteOffsetToCodepointColumn_at hk]
  · rintro before rest hbefore hline _ ⟨k, hk, rfl⟩
    simp only [column_in_source hbefore hline hk, byteOffsetToCodepointColumn_at hk]
    exact ⟨trivial, trivial, by omega⟩
  · intro e line0 hcoherent htext
    constructor
    · rintro _ ⟨k, hk, rfl⟩
      obtain ⟨hcolumn, hcontinues⟩ := hcoherent.toUtf16_at htext hk
      simp only [hcolumn]
      exact (hcontinues.coherent.toCodepoint_at ((hcontinues.textOf_eq line0).trans htext) hk).1
    · rintro _ ⟨k, hk, rfl⟩
      obtain ⟨hcolumn, hcontinues⟩ := hcoherent.toCodepoint_at htext hk
      simp only [hcolumn]
      exact (hcontinues.coherent.toUtf16_at ((hcontinues.textOf_eq line0).trans htext) hk).1

end Luma.LanguageServer
