-- SUMMARY: The characters of a line and their bytes: boundaries between them, words and lower case.
import Luma.Library.CodedLine
import Luma.Repl.CharBoundaries
import Luma.Stdlib.HttpFraming

/-! # The text of a line

A line is a list of characters. Its bytes are well formed, and each place between two
characters is a boundary of them. -/

namespace Luma.Repl

open Codec LanguageServer Utf8Codec CodedLine Protocol Http

def charBytes (c : Char) : Bytes := utf8Encode c.toNat

/-! ## The bytes of a character -/

theorem isScalar_toNat (c : Char) : IsScalar c.toNat := by
  have hvalid := c.valid
  simp only [UInt32.isValidChar, Nat.isValidChar] at hvalid
  change c.val.toNat ≤ 0x10FFFF ∧ ¬ (0xD800 ≤ c.val.toNat ∧ c.val.toNat ≤ 0xDFFF)
  omega

theorem charBytes_sequence (c : Char) : Sequence (charBytes c) := .of_encode (isScalar_toNat c)

theorem charBytes_visible : Visible charBytes := by
  intro c hnil
  have hpos := (charBytes_sequence c).length_pos
  rw [hnil] at hpos
  exact Nat.lt_irrefl 0 hpos

/-- The sequences are the bytes of the characters. -/
theorem exists_charBytes {w : Bytes} (h : Sequence w) : ∃ c, charBytes c = w := by
  obtain ⟨⟨hlimit, hsurrogate⟩, hencode⟩ := h.encode
  have hvalid : (scalarOf w).isValidChar := by
    rw [Nat.isValidChar]
    omega
  exact ⟨Char.ofNatAux (scalarOf w) hvalid, hencode⟩

/-- The code point of the bytes of a character is its own. -/
theorem scalarOf_utf8Encode {cp : Nat} (h : IsScalar cp) : scalarOf (utf8Encode cp) = cp := by
  have hlimit := h.1
  have hcases : cp < 0x80 ∨ 0x80 ≤ cp ∧ cp < 0x800 ∨ 0x800 ≤ cp ∧ cp < 0x10000 ∨ 0x10000 ≤ cp := by omega
  rcases hcases with hone | ⟨hlow, htwo⟩ | ⟨hlow, hthree⟩ | hlow
  · rw [utf8Encode_one hone, scalarOf, toNat_of_lt (by omega)]
  · rw [utf8Encode_two hlow htwo, scalarOf, toNat_of_lt (by omega), toNat_of_lt (by omega)]
    omega
  · rw [utf8Encode_three hlow hthree h, scalarOf, toNat_of_lt (by omega), toNat_of_lt (by omega), toNat_of_lt (by omega)]
    omega
  · rw [utf8Encode_four hlow h, scalarOf, toNat_of_lt (by omega), toNat_of_lt (by omega), toNat_of_lt (by omega),
      toNat_of_lt (by omega)]
    omega

/-- The decoder tells the characters at the front of bytes apart. -/
theorem charBytes_instantaneous : Instantaneous charBytes := by
  intro a b x y heq
  have hscalar : scalarOf (charBytes a) = scalarOf (charBytes b) := by
    have hdecode := (charBytes_sequence a).decode x
    rw [heq, (charBytes_sequence b).decode y] at hdecode
    exact (congrArg Utf8Decoded.codepoint hdecode).symm
  rw [charBytes, charBytes, scalarOf_utf8Encode (isScalar_toNat a), scalarOf_utf8Encode (isScalar_toNat b)] at hscalar
  obtain rfl := Char.toNat_inj.mp hscalar
  exact ⟨rfl, List.append_cancel_left heq⟩

/-- What starts inside a character is a continuation byte. -/
theorem charBytes_synchronizing : Synchronizing charBytes := by
  intro a b x y z z' hb hx hy heq
  have hsequence := charBytes_sequence b
  rw [hb] at hsequence
  obtain ⟨c, x, rfl⟩ := List.exists_cons_of_ne_nil hx
  obtain ⟨d, y, rfl⟩ := List.exists_cons_of_ne_nil hy
  have htail := tail_of_mem hsequence (List.mem_append_right x (List.mem_cons_self))
  have hlead := charBytes_sequence a
  obtain ⟨e, w, hw⟩ := List.exists_cons_of_ne_nil (charBytes_visible a)
  rw [hw] at hlead heq
  obtain ⟨rfl, -⟩ := List.cons.inj heq
  exact lead_not_tail hlead htail

/-! ## Texts -/

/-- The well-formed texts are the bytes of lists of characters. -/
theorem wellFormedText_iff {s : Bytes} : WellFormedText s ↔ ∃ text, encode charBytes text = s := by
  constructor
  · rintro ⟨pieces, hpieces, rfl⟩
    induction pieces with
    | nil => exact ⟨[], rfl⟩
    | cons w pieces ih =>
      obtain ⟨text, htext⟩ := ih fun w' hw' => hpieces w' (.tail w hw')
      obtain ⟨c, hc⟩ := exists_charBytes (wellFormed_iff.mp (hpieces w (.head pieces)))
      exact ⟨c :: text, by rw [encode_cons, hc, htext, List.flatten_cons]⟩
  · rintro ⟨text, rfl⟩
    refine ⟨text.map charBytes, ?_, List.flatMap_def.symm⟩
    intro w hw
    obtain ⟨c, -, rfl⟩ := List.mem_map.mp hw
    exact wellFormed_iff.mpr (charBytes_sequence c)

/-- Every place between two characters is a boundary. -/
theorem boundary_encode (left right : List Char) :
    Boundary (encode charBytes left ++ encode charBytes right) (encode charBytes left).length := by
  induction left using List.reverseRecOn generalizing right with
  | nil => exact Boundary.start
  | append_singleton left c ih =>
    have hnext := Boundary.next (ih (c :: right))
    rw [encode_cons, ← List.append_assoc, nextCharBoundary_sequence (charBytes_sequence c)] at hnext
    rwa [encode_append, encode_singleton, List.length_append]

/-! ## Single bytes -/

theorem charBytes_ascii {c : Char} (hc : c.toNat < 0x80) : charBytes c = [UInt8.ofNat c.toNat] := utf8Encode_one hc

/-- All bytes of the other characters are high. -/
theorem high_of_mem_charBytes {c : Char} (hc : 0x80 ≤ c.toNat) {b : UInt8} (hb : b ∈ charBytes c) : 0x80 ≤ b.toNat := by
  have hsequence := charBytes_sequence c
  obtain ⟨a, w, hw⟩ := List.exists_cons_of_ne_nil (charBytes_visible c)
  have hscalar := scalarOf_utf8Encode (isScalar_toNat c)
  rw [hw] at hsequence hb
  rw [← charBytes, hw] at hscalar
  rcases List.mem_cons.mp hb with rfl | hb
  · cases hsequence with
    | one ha =>
      rw [scalarOf] at hscalar
      omega
    | two ha _ _ => omega
    | three ha _ _ _ => omega
    | four ha _ _ _ _ => omega
  · exact hsequence.tail_high hb

/-- An ASCII byte stands for its character only. -/
theorem ascii_mem_encode {text : List Char} {d : Char} (hd : d.toNat < 0x80)
    (h : UInt8.ofNat d.toNat ∈ encode charBytes text) : d ∈ text := by
  obtain ⟨c, hc, hmem⟩ := List.mem_flatMap.mp h
  have hbyte : (UInt8.ofNat d.toNat).toNat = d.toNat := toNat_of_lt (by omega)
  rcases Nat.lt_or_ge c.toNat 0x80 with hlow | hhigh
  · rw [charBytes_ascii hlow, List.mem_singleton] at hmem
    have hsame := congrArg UInt8.toNat hmem
    rw [hbyte, toNat_of_lt (by omega)] at hsame
    rwa [Char.toNat_inj.mp hsame]
  · have hmem := high_of_mem_charBytes hhigh hmem
    omega

theorem toLower_of_high {b : UInt8} (hb : 0x80 ≤ b.toNat) : toLower b = b := by
  rw [toLower, if_neg]
  rintro ⟨-, hle⟩
  rw [UInt8.le_iff_toNat_le] at hle
  change b.toNat ≤ 90 at hle
  omega

theorem charBytes_toLower (c : Char) : charBytes c.toLower = (charBytes c).map toLower := by
  rcases Nat.lt_or_ge c.toNat 0x80 with hlow | hhigh
  · have hall : ∀ n, n < 128 → charBytes (Char.ofNat n).toLower = [toLower (UInt8.ofNat n)] := by decide +kernel
    have hc := hall c.toNat hlow
    rwa [Char.ofNat_toNat, ← List.map_singleton (f := toLower), ← charBytes_ascii hlow] at hc
  · have hsame : c.toLower = c := by
      delta Char.toLower
      rw [dif_neg]
      rintro ⟨-, hle⟩
      rw [UInt32.le_iff_toNat_le] at hle
      change c.toNat ≤ 90 at hle
      omega
    rw [hsame, List.map_congr_left fun b hb => toLower_of_high (high_of_mem_charBytes hhigh hb), List.map_id']

theorem encode_map_toLower (text : List Char) :
    encode charBytes (text.map Char.toLower) = (encode charBytes text).map toLower := by
  induction text with
  | nil => rfl
  | cons c text ih => rw [List.map_cons, encode_cons, encode_cons, List.map_append, ih, charBytes_toLower]

/-- A text is found in another one, in lower case, exactly when its characters are. -/
theorem caseInsensitiveContains_encode {text word : List Char} (hword : word ≠ []) :
    caseInsensitiveContains (encode charBytes text) (encode charBytes word) = true ↔
      word.map Char.toLower <:+: text.map Char.toLower := by
  rw [caseInsensitiveContains, Scanning.isSome_splitAtMarker, ← encode_map_toLower, ← encode_map_toLower]
  apply charBytes_synchronizing.infix_iff charBytes_instantaneous charBytes_visible
  rwa [Ne, List.map_eq_nil_iff]

end Luma.Repl
