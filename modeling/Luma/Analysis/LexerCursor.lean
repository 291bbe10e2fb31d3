-- SUMMARY: The cursor of the lexer: the bytes of the source, the scanning position, and its line and column.
import Luma.Library.Utf8
import Luma.LanguageServer.PositionOffsets

/-! # The lexer's cursor

The cursor moves by one byte at a time. A line feed starts a line, and every other byte
that begins a code point starts a column. -/

namespace Luma.Lexer

open Codec Luma.Protocol Luma.LanguageServer Utf8

structure LexerCursor where
  source : Bytes
  position : Nat := 0
  line : Nat := 1
  column : Nat := 1

namespace LexerCursor

variable (s : LexerCursor)

/-- The byte at the position, and a zero at the end. -/
def current : UInt8 := s.source.getD s.position 0

def advance : UInt8 × LexerCursor :=
  let character := s.current
  let s := { s with position := s.position + 1 }
  if character = newline then (character, { s with line := s.line + 1, column := 1 })
  else if isUtf8Continuation character = false then (character, { s with column := s.column + 1 })
  else (character, s)

/-- The cursor after a number of steps. -/
def advances (n : Nat) : LexerCursor := (fun s => s.advance.2)^[n] s

end LexerCursor

/-! ## Lines and columns -/

/-- The line and the column after a byte. -/
def nextLocation (byte : UInt8) (location : Nat × Nat) : Nat × Nat :=
  if byte = newline then (location.1 + 1, 1)
  else if isUtf8Continuation byte = false then (location.1, location.2 + 1)
  else location

/-- The line and the column after some bytes. -/
def locationAfter (bytes : Bytes) (location : Nat × Nat) : Nat × Nat :=
  bytes.foldl (fun location byte => nextLocation byte location) location

section Locations

variable {s : LexerCursor} {pre bytes rest : Bytes} {location : Nat × Nat}

theorem LexerCursor.advance_eq {byte : UInt8} (hcurrent : s.current = byte) :
    s.advance.2 = { s with
      position := s.position + 1
      line := (nextLocation byte (s.line, s.column)).1
      column := (nextLocation byte (s.line, s.column)).2 } := by
  rw [advance, hcurrent, nextLocation]
  split
  · rfl
  · split <;> rfl

/-- The cursor goes over the bytes one by one. -/
theorem LexerCursor.advances_eq (hsource : s.source = pre ++ (bytes ++ rest)) (hposition : s.position = pre.length) :
    s.advances bytes.length = { s with
      position := pre.length + bytes.length
      line := (locationAfter bytes (s.line, s.column)).1
      column := (locationAfter bytes (s.line, s.column)).2 } := by
  induction bytes generalizing s pre with
  | nil =>
    rw [List.length_nil, Nat.add_zero, ← hposition]
    rfl
  | cons byte bytes ih =>
    have hcurrent : s.current = byte := by
      rw [current, hsource, hposition, ← Nat.add_zero pre.length, getD_append_add]
      rfl
    have hmoved := LexerCursor.advance_eq hcurrent
    have hsource' : s.advance.2.source = pre ++ [byte] ++ (bytes ++ rest) := by
      rw [hmoved, hsource, List.append_assoc]
      rfl
    have hposition' : s.advance.2.position = (pre ++ [byte]).length := by
      rw [hmoved, List.length_append, ← hposition]
      rfl
    have hrest := ih hsource' hposition'
    rw [List.length_cons, advances, Function.iterate_succ_apply, ← advances, hrest, hmoved]
    rw [List.length_append, List.length_singleton, Nat.add_assoc, Nat.add_comm 1]
    rfl

theorem locationAfter_append {bytes' : Bytes} :
    locationAfter (bytes ++ bytes') location = locationAfter bytes' (locationAfter bytes location) :=
  List.foldl_append

theorem nextLocation_tail {b : UInt8} (htail : IsTail b) : nextLocation b location = location := by
  have hnewline : b ≠ newline := by
    rintro rfl
    exact absurd htail.1 (by decide)
  rw [nextLocation, if_neg hnewline, isUtf8Continuation_of_isTail htail, if_neg (by decide)]

theorem nextLocation_lead {b : UInt8} (hnewline : b ≠ newline) (hlead : b.toNat < 0x80 ∨ 0xC0 ≤ b.toNat) :
    nextLocation b location = (location.1, location.2 + 1) := by
  have hall : ∀ n < 256, n < 0x80 ∨ 0xC0 ≤ n → isUtf8Continuation (UInt8.ofNat n) = false := by decide +kernel
  have hb := hall b.toNat (UInt8.toNat_lt b) hlead
  rw [UInt8.ofNat_toNat] at hb
  rw [nextLocation, if_neg hnewline, if_pos hb]

theorem locationAfter_tails (htails : ∀ b ∈ bytes, IsTail b) : locationAfter bytes location = location := by
  induction bytes with
  | nil => rfl
  | cons b bytes ih =>
    rw [List.forall_mem_cons] at htails
    rw [locationAfter, List.foldl_cons, nextLocation_tail htails.1]
    exact ih htails.2

theorem locationAfter_lead {b : UInt8} (hlead : 0xC0 ≤ b.toNat) :
    locationAfter (b :: bytes) location = locationAfter bytes (location.1, location.2 + 1) := by
  have hnewline : b ≠ newline := by
    rintro rfl
    exact absurd hlead (by decide)
  rw [locationAfter, List.foldl_cons, nextLocation_lead hnewline (Or.inr hlead)]
  rfl

/-- Every character but a line feed takes one column. -/
theorem locationAfter_char {c : Char} (hc : c ≠ '\n') :
    locationAfter (String.utf8EncodeChar c) location = (location.1, location.2 + 1) := by
  have hbytes := charBytes c
  generalize String.utf8EncodeChar c = bytes at hbytes
  cases hbytes with
  | one hcode ha =>
    refine nextLocation_lead ?_ (Or.inl (by omega))
    rintro rfl
    exact hc (Char.toNat_inj.1 ha.symm)
  | two hcode hcode' ha ha' ht =>
    rw [locationAfter_lead (by omega), locationAfter_tails (by simp [ht])]
  | three hcode hcode' ha ha' ht ht' =>
    rw [locationAfter_lead (by omega), locationAfter_tails (by simp [ht, ht'])]
  | four hcode ha ha' ht ht' ht'' =>
    rw [locationAfter_lead (by omega), locationAfter_tails (by simp [ht, ht', ht''])]

/-- A text without a line feed takes as many columns as it has characters. -/
theorem locationAfter_encode {text : List Char} (htext : '\n' ∉ text) :
    locationAfter (encode text) location = (location.1, location.2 + text.length) := by
  induction text generalizing location with
  | nil => rfl
  | cons c text ih =>
    rw [List.mem_cons, not_or] at htext
    rw [encode_cons, locationAfter_append, locationAfter_char (Ne.symm htext.1), ih htext.2, List.length_cons]
    rw [Nat.add_assoc, Nat.add_comm 1]

/-- After a line feed the column is the first one. -/
theorem locationAfter_newline : locationAfter (bytes ++ [newline]) location =
    ((locationAfter bytes location).1 + 1, 1) := by
  rw [locationAfter_append]
  rfl

theorem fst_locationAfter : (locationAfter bytes location).1 = location.1 + bytes.count newline := by
  induction bytes generalizing location with
  | nil => rfl
  | cons b bytes ih =>
    rw [locationAfter, List.foldl_cons, ← locationAfter, ih, nextLocation, List.count_cons]
    by_cases hb : b = newline
    · rw [if_pos hb, if_pos (beq_iff_eq.2 hb)]
      exact Nat.add_right_comm _ _ _
    · simp only [if_neg hb, beq_false_of_ne hb, Bool.false_eq_true, if_false, Nat.add_zero]
      split <;> rfl

/-- After whole lines the cursor is at the first column of the next one. -/
theorem locationAfter_lines (hbytes : bytes = [] ∨ bytes.getLast? = some newline) :
    locationAfter bytes (1, 1) = (bytes.count newline + 1, 1) := by
  rcases hbytes with rfl | hlast
  · rfl
  · obtain ⟨lines, rfl⟩ := List.getLast?_eq_some_iff.mp hlast
    have hlines : (locationAfter (lines ++ [newline]) (1, 1)).1 = 1 + (lines ++ [newline]).count newline :=
      fst_locationAfter
    rw [locationAfter_newline] at hlines ⊢
    rw [Prod.mk.injEq]
    exact ⟨hlines.trans (Nat.add_comm 1 _), rfl⟩

end Locations

end Luma.Lexer
