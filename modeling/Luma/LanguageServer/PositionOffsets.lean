-- SUMMARY: The store computes the byte offset of every position.
import Luma.LanguageServer.Positions

/-! # Position Offsets

In the bytes of a text, the lines that the store finds are those ended by a line feed,
by a carriage return before one, or by a carriage return at the end of the text; and a
column is resolved to the bytes of the characters before it. -/

namespace Luma.LanguageServer

open Codec Luma.Protocol Utf8

/-! ## Bytes of a character -/

theorem utf8CodepointLen_one {b : UInt8} (h : b.toNat < 0x80) : utf8CodepointLen b = 1 := by
  simp only [utf8CodepointLen, UInt8.le_iff_toNat_le, UInt8.reduceToNat]
  rw [if_neg (by omega), if_neg (by omega), if_neg (by omega)]

theorem utf8CodepointLen_two {b : UInt8} (h : 0xC2 ≤ b.toNat) (h' : b.toNat < 0xE0) : utf8CodepointLen b = 2 := by
  simp only [utf8CodepointLen, UInt8.le_iff_toNat_le, UInt8.reduceToNat]
  rw [if_pos (by omega)]

theorem utf8CodepointLen_three {b : UInt8} (h : 0xE0 ≤ b.toNat) (h' : b.toNat < 0xF0) :
    utf8CodepointLen b = 3 := by
  simp only [utf8CodepointLen, UInt8.le_iff_toNat_le, UInt8.reduceToNat]
  rw [if_neg (by omega), if_pos (by omega)]

theorem utf8CodepointLen_four {b : UInt8} (h : 0xF0 ≤ b.toNat) (h' : b.toNat < 0xF5) : utf8CodepointLen b = 4 := by
  simp only [utf8CodepointLen, UInt8.le_iff_toNat_le, UInt8.reduceToNat]
  rw [if_neg (by omega), if_neg (by omega), if_pos (by omega)]

theorem isUtf8Continuation_of_isTail {b : UInt8} (h : IsTail b) : isUtf8Continuation b = true := by
  have hall : ∀ n < 0x40, isUtf8Continuation (UInt8.ofNat (n + 0x80)) = true := by decide
  have hb := hall (b.toNat - 0x80) (by have hbelow := h.2; omega)
  rwa [Nat.sub_add_cancel h.1, UInt8.ofNat_toNat] at hb

theorem getD_append_add {pre rest : Bytes} {k : Nat} : (pre ++ rest).getD (pre.length + k) 0 = rest.getD k 0 := by
  rw [List.getD_eq_getElem?_getD, List.getD_eq_getElem?_getD, List.getElem?_append_right (by omega),
    Nat.add_sub_cancel_left]

/-- At the bytes of a character, the scan sees one sequence of the right length. -/
theorem utf8CodepointLen_char {pre post : Bytes} {c : Char} :
    utf8CodepointLen ((pre ++ (String.utf8EncodeChar c ++ post)).getD pre.length 0) =
      (String.utf8EncodeChar c).length := by
  rw [← Nat.add_zero pre.length, getD_append_add]
  have hbytes := charBytes c
  generalize String.utf8EncodeChar c = bytes at hbytes
  cases hbytes with
  | one hc ha => exact utf8CodepointLen_one (by rw [List.cons_append, List.getD_cons_zero]; omega)
  | two hc hc' ha ha' ht => exact utf8CodepointLen_two ha ha'
  | three hc hc' ha ha' ht ht' => exact utf8CodepointLen_three ha ha'
  | four hc ha ha' ht ht' ht'' => exact utf8CodepointLen_four ha ha'

theorem isValidUtf8Run_char {pre post : Bytes} {c : Char} :
    isValidUtf8Run (pre ++ (String.utf8EncodeChar c ++ post)) pre.length (String.utf8EncodeChar c).length = true := by
  simp only [isValidUtf8Run, List.all_eq_true, getD_append_add]
  have hbytes := charBytes c
  generalize String.utf8EncodeChar c = bytes at hbytes
  intro k hk
  rw [List.mem_range'_1] at hk
  cases hbytes with
  | one hc ha =>
    rw [List.length_singleton] at hk
    omega
  | two hc hc' ha ha' ht =>
    obtain rfl : k = 1 := by simp only [List.length_cons, List.length_nil] at hk; omega
    exact isUtf8Continuation_of_isTail ht
  | three hc hc' ha ha' ht ht' =>
    obtain rfl | rfl : k = 1 ∨ k = 2 := by simp only [List.length_cons, List.length_nil] at hk; omega
    · exact isUtf8Continuation_of_isTail ht
    · exact isUtf8Continuation_of_isTail ht'
  | four hc ha ha' ht ht' ht'' =>
    obtain rfl | rfl | rfl : k = 1 ∨ k = 2 ∨ k = 3 := by
      simp only [List.length_cons, List.length_nil] at hk; omega
    · exact isUtf8Continuation_of_isTail ht
    · exact isUtf8Continuation_of_isTail ht'
    · exact isUtf8Continuation_of_isTail ht''

theorem units_char {c : Char} :
    (if isSupplementarySequence (String.utf8EncodeChar c).length then (2 : Int) else 1) = utf16Units c := by
  have hbytes := charBytes c
  generalize String.utf8EncodeChar c = bytes at hbytes
  cases hbytes with
  | one hc ha =>
    rw [utf16Units, if_pos (show c.toNat < 0x10000 by omega)]
    rfl
  | two hc hc' ha ha' ht =>
    rw [utf16Units, if_pos hc']
    rfl
  | three hc hc' ha ha' ht ht' =>
    rw [utf16Units, if_pos hc']
    rfl
  | four hc ha ha' ht ht' ht'' =>
    rw [utf16Units, if_neg (show ¬ c.toNat < 0x10000 by omega)]
    rfl

/-! ## Columns -/

/-- The scan of a line goes over its characters one by one. -/
theorem utf16ColumnFrom_encode {line : List Char} {pre : Bytes} {rounds : Nat} {units target : Int}
    (hrounds : (encode line).length ≤ rounds) :
    utf16ColumnFrom (pre ++ encode line) target rounds pre.length units =
      pre.length + (encode (line.take (charactersBefore line (target - units).toNat))).length := by
  induction line generalizing pre rounds units with
  | nil =>
    cases rounds with
    | zero => simp [utf16ColumnFrom]
    | succ rounds => simp [utf16ColumnFrom]
  | cons c rest ih =>
    have hchar : 0 < (String.utf8EncodeChar c).length := List.length_pos_iff.2 utf8EncodeChar_ne_nil
    rw [encode_cons] at hrounds ⊢
    rw [List.length_append] at hrounds
    obtain ⟨rounds, rfl⟩ : ∃ n, rounds = n + 1 := ⟨rounds - 1, by omega⟩
    have hlength : (pre ++ (String.utf8EncodeChar c ++ encode rest)).length =
        pre.length + ((String.utf8EncodeChar c).length + (encode rest).length) := by
      rw [List.length_append, List.length_append]
    rw [utf16ColumnFrom, charactersBefore]
    by_cases hcolumn : (target - units).toNat = 0
    · rw [if_neg (by omega), if_pos hcolumn]
      simp
    · rw [if_pos (by omega), if_neg hcolumn]
      have hwhole : ¬ pre.length + (String.utf8EncodeChar c).length >
          (pre ++ (String.utf8EncodeChar c ++ encode rest)).length := by omega
      simp only [utf8CodepointLen_char, if_neg hwhole, isValidUtf8Run_char, units_char, Bool.true_eq_false,
        if_false]
      -- The rest of the line is scanned with the character as part of what is behind.
      have hrest : (target - (units + (utf16Units c : Int))).toNat = (target - units).toNat - utf16Units c := by
        omega
      have hscan : utf16ColumnFrom ((pre ++ String.utf8EncodeChar c) ++ encode rest) target rounds
          (pre ++ String.utf8EncodeChar c).length (units + utf16Units c) = _ := ih (by omega)
      rw [hrest, List.append_assoc, List.length_append] at hscan
      rw [hscan, List.take_succ_cons, encode_cons, List.length_append]
      omega

theorem utf16ColumnToByteOffset_encode {line : List Char} {column : Int} :
    utf16ColumnToByteOffset (encode line) column =
      (encode (line.take (charactersBefore line column.toNat))).length := by
  have hscan : utf16ColumnFrom ([] ++ encode line) column (encode line).length ([] : Bytes).length 0 = _ :=
    utf16ColumnFrom_encode (le_refl _)
  simpa [utf16ColumnToByteOffset] using hscan

/-! ## Lines -/

theorem mem_encode_of_lt {text : List Char} {b : UInt8} (h : b ∈ encode text) (hb : b.toNat < 0x80) :
    ∃ c ∈ text, c.toNat = b.toNat := by
  obtain ⟨c, hc, hmem⟩ := List.mem_flatMap.1 h
  exact ⟨c, hc, (eq_of_mem_of_lt hmem hb).2⟩

theorem newline_not_mem_encode {text : List Char} (h : '\n' ∉ text) : newline ∉ encode text := by
  intro hmem
  obtain ⟨c, hc, hcode⟩ := mem_encode_of_lt hmem (by decide)
  obtain rfl : c = '\n' := Char.toNat_inj.1 hcode
  exact h hc

theorem offsetsAfterNewlines_append {pre rest : Bytes} {i : Nat} (h : newline ∉ pre) :
    offsetsAfterNewlines (pre ++ rest) i = offsetsAfterNewlines rest (i + pre.length) := by
  induction pre generalizing i with
  | nil => rfl
  | cons byte pre ih =>
    rw [List.mem_cons, not_or] at h
    rw [List.cons_append, offsetsAfterNewlines, if_neg (Ne.symm h.1), ih h.2, List.length_cons]
    congr 1
    omega

theorem offsetsAfterNewlines_encode {line rest : List Char} {i : Nat} (h : '\n' ∉ line) :
    offsetsAfterNewlines (encode (line ++ '\n' :: rest)) i =
      (i + (encode line).length + 1) :: offsetsAfterNewlines (encode rest) (i + (encode line).length + 1) := by
  rw [encode_append, offsetsAfterNewlines_append (newline_not_mem_encode h), encode_cons]
  rfl

theorem offsetsAfterNewlines_encode_nil {line : List Char} {i : Nat} (h : '\n' ∉ line) :
    offsetsAfterNewlines (encode line) i = [] := by
  rw [← List.append_nil (encode line), offsetsAfterNewlines_append (newline_not_mem_encode h)]
  rfl

theorem lineContent_prefix {ends : LineEnds} {text : List Char} : lineContent ends text <+: text := by
  induction text with
  | nil => exact List.prefix_rfl
  | cons c rest ih =>
    rw [lineContent]
    split
    · exact List.nil_prefix
    · exact (List.prefix_cons_inj c).2 ih

/-- In a line without a line feed, only a carriage return at its end is a line end. -/
theorem beginsLineEnd_iff {c : Char} {line : List Char} (h : '\n' ∉ c :: line) :
    beginsLineEnd storeLineEnds c line = true ↔ c = '\r' ∧ line = [] := by
  rw [List.mem_cons, not_or] at h
  cases line with
  | nil => simp [beginsLineEnd, storeLineEnds, Ne.symm h.1]
  | cons c' line =>
    have hc' : c' ≠ '\n' := fun heq => h.2 (heq ▸ List.mem_cons_self)
    simp [beginsLineEnd, storeLineEnds, Ne.symm h.1, hc']

theorem beginsLineEnd_append_iff {c : Char} {line rest : List Char} (h : '\n' ∉ c :: line) :
    beginsLineEnd storeLineEnds c (line ++ '\n' :: rest) = true ↔ c = '\r' ∧ line = [] := by
  rw [List.mem_cons, not_or] at h
  cases line with
  | nil => simp [beginsLineEnd, storeLineEnds, Ne.symm h.1]
  | cons c' line =>
    have hc' : c' ≠ '\n' := fun heq => h.2 (heq ▸ List.mem_cons_self)
    simp [beginsLineEnd, storeLineEnds, Ne.symm h.1, hc']

theorem lineContent_append {line rest : List Char} (h : '\n' ∉ line) :
    lineContent storeLineEnds (line ++ '\n' :: rest) = lineContent storeLineEnds line := by
  induction line with
  | nil => rfl
  | cons c line ih =>
    have hbegins : beginsLineEnd storeLineEnds c (line ++ '\n' :: rest) = beginsLineEnd storeLineEnds c line :=
      Bool.eq_iff_iff.2 ((beginsLineEnd_append_iff h).trans (beginsLineEnd_iff h).symm)
    rw [List.cons_append, lineContent, lineContent, hbegins, ih fun hmem => h (List.mem_cons_of_mem c hmem)]

/-- The content of a line without a line feed is the line, but for a carriage return at
    its end. -/
theorem lineContent_cases {line : List Char} (h : '\n' ∉ line) :
    lineContent storeLineEnds line = line ∧ line.getLast? ≠ some '\r' ∨
      line = lineContent storeLineEnds line ++ ['\r'] := by
  induction line with
  | nil => exact Or.inl ⟨rfl, by simp⟩
  | cons c line ih =>
    rw [lineContent]
    by_cases hbegins : beginsLineEnd storeLineEnds c line = true
    · obtain ⟨rfl, rfl⟩ := (beginsLineEnd_iff h).1 hbegins
      rw [if_pos hbegins]
      exact Or.inr rfl
    · rw [if_neg hbegins]
      rcases ih fun hmem => h (List.mem_cons_of_mem c hmem) with ⟨hcontent, hlast⟩ | hreturn
      · refine Or.inl ⟨by rw [hcontent], ?_⟩
        cases line with
        | nil =>
          intro hr
          exact hbegins ((beginsLineEnd_iff h).2 ⟨Option.some.inj hr, rfl⟩)
        | cons c' line => rwa [List.getLast?_cons_cons]
      · exact Or.inr (congrArg (c :: ·) hreturn)

theorem fromLine_one_append {line rest : List Char} (h : '\n' ∉ line) :
    fromLine storeLineEnds (line ++ '\n' :: rest) 1 = rest := by
  induction line with
  | nil => simp [fromLine, completesLineEnd]
  | cons c line ih =>
    have hcompletes : ¬ completesLineEnd storeLineEnds c (line ++ '\n' :: rest) = true := by
      intro hcompletes
      obtain ⟨rfl, rfl⟩ := (beginsLineEnd_append_iff h).1 (beginsLineEnd_of_completes hcompletes)
      cases hcompletes
    rw [List.cons_append, fromLine, if_neg hcompletes]
    exact ih fun hmem => h (List.mem_cons_of_mem c hmem)

theorem fromLine_one_nil {line : List Char} (h : '\n' ∉ line) : fromLine storeLineEnds line 1 = [] := by
  induction line with
  | nil => rfl
  | cons c line ih =>
    rw [fromLine]
    split
    · rename_i hcompletes
      obtain ⟨rfl, rfl⟩ := (beginsLineEnd_iff h).1 (beginsLineEnd_of_completes hcompletes)
      rfl
    · exact ih fun hmem => h (List.mem_cons_of_mem c hmem)

theorem newline_split (text : List Char) :
    '\n' ∉ text ∨ ∃ line rest, text = line ++ '\n' :: rest ∧ '\n' ∉ line := by
  by_cases h : '\n' ∈ text
  · exact Or.inr (List.eq_append_cons_of_mem h)
  · exact Or.inl h

/-- The line starts from a line on: the offset of the line and those of the line feeds
    after it, or none when the text does not have the line. -/
theorem drop_lineStartsOf (text : List Char) (line : Nat) :
    (∃ start, (lineStartsOf (encode text)).drop line =
        start :: offsetsAfterNewlines (encode (fromLine storeLineEnds text line)) start ∧
        start + (encode (fromLine storeLineEnds text line)).length = (encode text).length) ∨
      (lineStartsOf (encode text)).drop line = [] ∧ fromLine storeLineEnds text line = [] := by
  induction line with
  | zero => exact Or.inl ⟨0, by simp [lineStartsOf], by simp⟩
  | succ line ih =>
    rw [fromLine_succ, ← List.tail_drop]
    rcases ih with ⟨start, hdrop, hlength⟩ | ⟨hdrop, hnone⟩
    · rw [hdrop, List.tail_cons]
      generalize fromLine storeLineEnds text line = current at hlength
      rcases newline_split current with hlast | ⟨content, rest, rfl, hcontent⟩
      · exact Or.inr ⟨offsetsAfterNewlines_encode_nil hlast, fromLine_one_nil hlast⟩
      · refine Or.inl ⟨start + (encode content).length + 1, ?_, ?_⟩
        · rw [offsetsAfterNewlines_encode hcontent, fromLine_one_append hcontent]
        · have hnewline : (String.utf8EncodeChar '\n').length = 1 := rfl
          rw [encode_append, encode_cons, List.length_append, List.length_append, hnewline] at hlength
          rw [fromLine_one_append hcontent]
          omega
    · rw [hdrop, hnone]
      exact Or.inr ⟨rfl, rfl⟩

/-! ## Offsets -/

theorem stripByte_append_singleton {b : UInt8} {pre line post : Bytes} :
    stripByte b (pre ++ (line ++ [b]) ++ post) pre.length (pre.length + (line.length + 1)) =
      pre.length + line.length := by
  have hlast : (pre ++ (line ++ [b]) ++ post)[pre.length + (line.length + 1) - 1]? = some b := by
    rw [List.append_assoc, List.getElem?_append_right (by omega), List.append_assoc,
      List.getElem?_append_right (by omega)]
    rw [show pre.length + (line.length + 1) - 1 - pre.length - line.length = 0 by omega]
    rfl
  rw [stripByte, if_pos ⟨by omega, hlast⟩]
  omega

theorem stripByte_of_getLast?_ne {b : UInt8} {pre line post : Bytes} (h : line.getLast? ≠ some b) :
    stripByte b (pre ++ line ++ post) pre.length (pre.length + line.length) = pre.length + line.length := by
  rw [stripByte, if_neg]
  rintro ⟨hpos, hlast⟩
  rw [List.append_assoc, List.getElem?_append_right (by omega),
    List.getElem?_append_left (by omega)] at hlast
  rw [List.getLast?_eq_getElem?] at h
  rw [show pre.length + line.length - 1 - pre.length = line.length - 1 by omega] at hlast
  exact h hlast

/-- The last byte of a text is an ASCII character only when that is its last character. -/
theorem getLast?_encode {line : List Char} {c : Char} {b : UInt8} (hb : b.toNat < 0x80) (hc : c.toNat = b.toNat)
    (h : line.getLast? ≠ some c) : (encode line).getLast? ≠ some b := by
  intro hlast
  rcases List.eq_nil_or_concat line with rfl | ⟨front, last, rfl⟩
  · cases hlast
  · rw [List.concat_eq_append, encode_append, encode_cons, encode_nil, List.append_nil,
      List.getLast?_append, List.getLast?_eq_some_getLast utf8EncodeChar_ne_nil, Option.some_or,
      ← List.getLast?_eq_some_getLast] at hlast
    obtain ⟨-, hcode⟩ := eq_of_mem_of_lt (List.mem_of_getLast? hlast) hb
    obtain rfl : last = c := Char.toNat_inj.1 (hcode.trans hc.symm)
    exact h (by simp)

/-- Without its end, a line has the bytes of its content. -/
theorem stripByte_line {pre post : Bytes} {line : List Char} (h : '\n' ∉ line) :
    stripByte carriageReturn (pre ++ encode line ++ post) pre.length (pre.length + (encode line).length) =
      pre.length + (encode (lineContent storeLineEnds line)).length := by
  rcases lineContent_cases h with ⟨hcontent, hlast⟩ | hreturn
  · rw [hcontent]
    exact stripByte_of_getLast?_ne (getLast?_encode (by decide) (by decide) hlast)
  · have hbytes : encode line = encode (lineContent storeLineEnds line) ++ [carriageReturn] := by
      rw [hreturn, encode_append, ← hreturn]
      rfl
    rw [hbytes, List.length_append]
    exact stripByte_append_singleton

/-- The end of a line that the store finds, from the line starts behind the line. -/
theorem stripByte_ends {pre : Bytes} {current : List Char} {size : Nat}
    (hsize : size = (pre ++ encode current).length) :
    stripByte carriageReturn (pre ++ encode current) pre.length
        (stripByte newline (pre ++ encode current) pre.length
          ((offsetsAfterNewlines (encode current) pre.length).headD size)) =
      pre.length + (encode (lineContent storeLineEnds current)).length := by
  rcases newline_split current with hlast | ⟨content, rest, rfl, hcontent⟩
  · have hstrip : stripByte newline (pre ++ encode current ++ []) pre.length (pre.length + (encode current).length) =
        pre.length + (encode current).length :=
      stripByte_of_getLast?_ne fun heq => newline_not_mem_encode hlast (List.mem_of_getLast? heq)
    rw [offsetsAfterNewlines_encode_nil hlast, List.headD_nil, hsize, List.length_append,
      ← List.append_nil (pre ++ encode current), hstrip, stripByte_line hlast]
  · have hbytes : pre ++ encode (content ++ '\n' :: rest) = pre ++ (encode content ++ [newline]) ++ encode rest := by
      rw [encode_append, encode_cons, List.append_assoc, List.append_assoc]
      rfl
    have hbytes' : pre ++ (encode content ++ [newline]) ++ encode rest =
        pre ++ encode content ++ (newline :: encode rest) := by
      simp only [List.append_assoc, List.singleton_append]
    rw [offsetsAfterNewlines_encode hcontent, List.headD_cons, hbytes, Nat.add_assoc, stripByte_append_singleton,
      hbytes', stripByte_line hcontent, lineContent_append hcontent]

/-- The bytes before a column of the line that a text continues with. -/
theorem column_in_line {before current : List Char} {column : Int} :
    min ((encode before).length + utf16ColumnToByteOffset
        (((encode (before ++ current)).drop (encode before).length).take
          (encode (lineContent storeLineEnds current)).length) column) (encode (before ++ current)).length =
      (encode ((before ++ current).take
        (before.length + charactersBefore (lineContent storeLineEnds current) column.toNat))).length := by
  obtain ⟨after, hcurrent⟩ : lineContent storeLineEnds current <+: current := lineContent_prefix
  generalize lineContent storeLineEnds current = content at *
  subst hcurrent
  have hcolumn : charactersBefore content column.toNat ≤ content.length := charactersBefore_le
  have hprefix : (encode (content.take (charactersBefore content column.toNat))).length ≤
      (encode (content ++ after)).length := by
    obtain ⟨rest, hrest⟩ := (List.take_prefix (charactersBefore content column.toNat) content).trans
      (List.prefix_append content after)
    rw [← hrest, encode_append, List.length_append]
    exact Nat.le_add_right _ _
  have hline : ((encode (before ++ (content ++ after))).drop (encode before).length).take (encode content).length =
      encode content := by
    rw [encode_append, List.drop_left, encode_append, List.take_left]
  rw [hline, utf16ColumnToByteOffset_encode, List.take_length_add_append, List.take_append_of_le_length hcolumn]
  simp only [encode_append, List.length_append] at hprefix ⊢
  exact min_eq_left (Nat.add_le_add_left hprefix _)

/-- The store resolves a position to the bytes of the characters before it. -/
theorem positionToOffset_encode {documents : Documents} {uri : Bytes} {doc : DocumentState} {text : List Char}
    {line character : Int} (hdoc : documents uri = some doc) (hstarts : doc.lineStarts = lineStartsOf (encode text))
    (hline : 0 ≤ line) :
    positionToOffset documents uri (encode text) line character =
      (encode (text.take (offsetOf storeLineEnds text ⟨line.toNat, character.toNat⟩))).length := by
  have hcached : (lineStartsOf (encode text)).isEmpty = false := rfl
  simp only [positionToOffset, hdoc, hstarts, hcached, Bool.false_eq_true, if_false]
  rcases drop_lineStartsOf text line.toNat with ⟨start, hdrop, hlength⟩ | ⟨hdrop, hnone⟩
  · have hshort : ¬ (lineStartsOf (encode text)).length ≤ line.toNat := by
      intro hlong
      rw [List.drop_eq_nil_of_le hlong] at hdrop
      cases hdrop
    have hstart : (lineStartsOf (encode text)).getD line.toNat 0 = start := by
      rw [List.getD_eq_getElem?_getD, ← List.head?_drop, hdrop]
      rfl
    have hnext : (lineStartsOf (encode text)).getD (line.toNat + 1) (encode text).length =
        (offsetsAfterNewlines (encode (fromLine storeLineEnds text line.toNat)) start).headD
          (encode text).length := by
      rw [List.getD_eq_getElem?_getD, ← List.head?_drop, ← List.tail_drop, hdrop, List.tail_cons,
        List.headD_eq_head?_getD]
    rw [if_neg (by omega), hstart, hnext, offsetOf]
    -- The text is what is before the line and what is from the line on.
    obtain ⟨before, htext⟩ : fromLine storeLineEnds text line.toNat <:+ text := fromLine_suffix
    generalize fromLine storeLineEnds text line.toNat = current at *
    subst htext
    obtain rfl : start = (encode before).length := by
      rw [encode_append, List.length_append] at hlength
      omega
    have hend := stripByte_ends (rfl : (encode before ++ encode current).length = _)
    rw [← encode_append] at hend
    have hbefore : (before ++ current).length - current.length = before.length := by
      rw [List.length_append, Nat.add_sub_cancel]
    rw [hend, Nat.add_sub_cancel_left, hbefore]
    exact column_in_line
  · have hlong : (lineStartsOf (encode text)).length ≤ line.toNat := List.drop_eq_nil_iff.1 hdrop
    rw [if_pos (Or.inr hlong), offsetOf, hnone, List.length_nil, Nat.sub_zero, List.take_of_length_le (by omega)]

end Luma.LanguageServer
