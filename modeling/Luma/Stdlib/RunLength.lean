-- SUMMARY: Run-length encoding under the limit on string sizes, and its round trip.
import Luma.Library.BigEndian
import Mathlib.Data.List.TakeWhile
import Mathlib.Tactic.Common

/-! # Run-length encoding

A run of equal bytes is written as entries of a digit from 1 to 9 and the byte. Both
directions stop when their output becomes longer than the limit on strings. -/

namespace Luma.RunLength

open Codec

/-- What a decoder reports in place of its output. -/
inductive DecodeError where
  | corrupt
  | truncated
  | unsupportedFormat
  | tooLarge
  deriving DecidableEq

structure RuntimeError where
  message : String
  hint : String
  deriving DecidableEq

def kMaxRleRunChunk : Nat := 9

/-- The limit on the size of a string, 256 MB. -/
def maxStringSize : Nat := 256 * 1024 * 1024

def encodedTooLarge : RuntimeError where
  message := "Compression.encode_rle: RLE encoded output exceeds maximum string size"
  hint := "reduce the input size"

/-! ## The codec -/

/-- Write `remaining` times the byte `ch`, at most nine of them in one entry. -/
def emitRun (out : Bytes) (ch : UInt8) (remaining : Nat) : Except RuntimeError Bytes :=
  if _h : remaining = 0 then .ok out
  else
    let chunk := min remaining kMaxRleRunChunk
    let out := out ++ [UInt8.ofNat (48 + chunk), ch]
    if out.length > maxStringSize then .error encodedTooLarge
    else emitRun out ch (remaining - chunk)
termination_by remaining
decreasing_by
  simp only [kMaxRleRunChunk]
  omega

/-- The bytes at the front of `rest` that go on with a run of `ch`. -/
def furtherRun (ch : UInt8) (rest : Bytes) : Nat := (rest.takeWhile (· == ch)).length

/-- The outer loop of `rleEncode`, run by run. -/
def rleEncodeFrom (out : Bytes) : Bytes → Except RuntimeError Bytes
  | [] => .ok out
  | ch :: rest => do
    let out ← emitRun out ch (1 + furtherRun ch rest)
    rleEncodeFrom out (rest.drop (furtherRun ch rest))
termination_by input => input.length
decreasing_by
  simp only [List.length_drop, List.length_cons]
  omega

def rleEncode (input : Bytes) : Except RuntimeError Bytes := rleEncodeFrom [] input

/-- The loop of `rleDecodeChecked`, entry by entry. -/
def rleDecodeFrom (out : Bytes) : Bytes → Except DecodeError Bytes
  | [] => .ok out
  | [digit] => if digit < 49 ∨ digit > 57 then .error .corrupt else .error .truncated
  | digit :: ch :: rest =>
    if digit < 49 ∨ digit > 57 then .error .corrupt
    else if out.length + (digit - 48).toNat > maxStringSize then .error .tooLarge
    else rleDecodeFrom (out ++ List.replicate (digit - 48).toNat ch) rest

def rleDecodeChecked (input : Bytes) : Except DecodeError Bytes := rleDecodeFrom [] input

def rleDecode (input : Bytes) : Option Bytes := (rleDecodeChecked input).toOption

/-! ## Entries -/

/-- A count that is written with one digit, and the byte that it counts. -/
structure Entry where
  count : Nat
  ch : UInt8
  pos : 0 < count
  digit : count ≤ 9

/-- The two bytes of an entry. -/
def Entry.written (e : Entry) : Bytes := [UInt8.ofNat (48 + e.count), e.ch]

def written (entries : List Entry) : Bytes := entries.flatMap Entry.written

/-- The bytes that the entries stand for. -/
def expand (entries : List Entry) : Bytes := entries.flatMap fun e => List.replicate e.count e.ch

/-- The entries of `remaining` times the byte `ch`. -/
def runEntries (ch : UInt8) (remaining : Nat) : List Entry :=
  if h : remaining = 0 then []
  else
    { count := min remaining 9, ch, pos := by omega, digit := by omega } ::
      runEntries ch (remaining - min remaining 9)
termination_by remaining
decreasing_by omega

/-- The entries of a text. -/
def rleEntries : Bytes → List Entry
  | [] => []
  | ch :: rest => runEntries ch (1 + furtherRun ch rest) ++ rleEntries (rest.drop (furtherRun ch rest))
termination_by input => input.length
decreasing_by
  simp only [List.length_drop, List.length_cons]
  omega

@[simp] theorem written_nil : written [] = [] := rfl

@[simp] theorem written_cons {e : Entry} {entries : List Entry} :
    written (e :: entries) = UInt8.ofNat (48 + e.count) :: e.ch :: written entries := rfl

@[simp] theorem written_append {entries entries' : List Entry} :
    written (entries ++ entries') = written entries ++ written entries' := List.flatMap_append

@[simp] theorem expand_nil : expand [] = [] := rfl

@[simp] theorem expand_cons {e : Entry} {entries : List Entry} :
    expand (e :: entries) = List.replicate e.count e.ch ++ expand entries := rfl

@[simp] theorem expand_append {entries entries' : List Entry} :
    expand (entries ++ entries') = expand entries ++ expand entries' := List.flatMap_append

theorem written_length {entries : List Entry} : (written entries).length = 2 * entries.length := by
  induction entries with
  | nil => rfl
  | cons e entries ih =>
    rw [written_cons, List.length_cons, List.length_cons, ih, List.length_cons]
    omega

theorem expand_runEntries {ch : UInt8} {remaining : Nat} :
    expand (runEntries ch remaining) = List.replicate remaining ch := by
  fun_induction runEntries ch remaining with
  | case1 => rfl
  | case2 remaining h ih =>
    have hsum : min remaining 9 + (remaining - min remaining 9) = remaining := by omega
    rw [expand_cons, ih, List.replicate_append_replicate, hsum]

/-- A run is what the text starts with. -/
theorem run_append {ch : UInt8} {rest : Bytes} :
    List.replicate (1 + furtherRun ch rest) ch ++ rest.drop (furtherRun ch rest) = ch :: rest := by
  have hrun : rest.takeWhile (· == ch) = List.replicate (furtherRun ch rest) ch := by
    refine List.eq_replicate_of_mem fun b hb => ?_
    exact beq_iff_eq.mp (List.mem_takeWhile_imp (p := (· == ch)) hb)
  have hdrop : rest.drop (furtherRun ch rest) = rest.dropWhile (· == ch) := by
    have hleft : (rest.takeWhile (· == ch) ++ rest.dropWhile (· == ch)).drop (furtherRun ch rest) =
        rest.dropWhile (· == ch) := List.drop_left
    rwa [List.takeWhile_append_dropWhile] at hleft
  rw [Nat.add_comm, List.replicate_succ, List.cons_append, ← hrun, hdrop, List.takeWhile_append_dropWhile]

theorem expand_rleEntries {input : Bytes} : expand (rleEntries input) = input := by
  fun_induction rleEntries input with
  | case1 => rfl
  | case2 ch rest ih => rw [expand_append, expand_runEntries, ih, run_append]

/-! ## The round trip -/

theorem emitRun_eq {out : Bytes} {ch : UInt8} {remaining : Nat} (hout : out.length ≤ maxStringSize) :
    emitRun out ch remaining =
      if (out ++ written (runEntries ch remaining)).length ≤ maxStringSize then
        .ok (out ++ written (runEntries ch remaining))
      else .error encodedTooLarge := by
  fun_induction emitRun out ch remaining with
  | case1 out =>
    rw [runEntries, dif_pos rfl, written_nil, List.append_nil, if_pos hout]
  | case2 out remaining h chunk next hlong =>
    have hentries : (next ++ written (runEntries ch (remaining - chunk))).length ≤
        (out ++ written (runEntries ch remaining)).length := by
      rw [runEntries.eq_def ch remaining, dif_neg h, written_cons]
      simp [next, chunk, kMaxRleRunChunk]
    have hlonger : ¬ (out ++ written (runEntries ch remaining)).length ≤ maxStringSize := by
      rw [List.length_append] at hentries
      omega
    rw [if_neg hlonger]
  | case3 out remaining h chunk next hshort ih =>
    have hentries : out ++ written (runEntries ch remaining) = next ++ written (runEntries ch (remaining - chunk)) := by
      rw [runEntries.eq_def ch remaining, dif_neg h, written_cons]
      simp [next, chunk, kMaxRleRunChunk]
    rw [ih (Nat.not_lt.mp hshort), hentries]

theorem rleEncodeFrom_eq {out input : Bytes} (hout : out.length ≤ maxStringSize) :
    rleEncodeFrom out input =
      if (out ++ written (rleEntries input)).length ≤ maxStringSize then
        .ok (out ++ written (rleEntries input))
      else .error encodedTooLarge := by
  fun_induction rleEntries input generalizing out with
  | case1 => rw [rleEncodeFrom, written_nil, List.append_nil, if_pos hout]
  | case2 ch rest ih =>
    rw [rleEncodeFrom, emitRun_eq hout, written_append, ← List.append_assoc]
    by_cases hrun : (out ++ written (runEntries ch (1 + furtherRun ch rest))).length ≤ maxStringSize
    · rw [if_pos hrun]
      exact ih hrun
    · have hlonger : ¬ (out ++ written (runEntries ch (1 + furtherRun ch rest)) ++
          written (rleEntries (rest.drop (furtherRun ch rest)))).length ≤ maxStringSize := by
        rw [List.length_append]
        omega
      rw [if_neg hrun, if_neg hlonger]
      rfl

/-- The encoder writes the entries of its input, or throws when they are too long. -/
theorem rleEncode_eq (input : Bytes) :
    rleEncode input =
      if (written (rleEntries input)).length ≤ maxStringSize then .ok (written (rleEntries input))
      else .error encodedTooLarge :=
  rleEncodeFrom_eq (Nat.zero_le _)

theorem Entry.digit_toNat {e : Entry} : (UInt8.ofNat (48 + e.count) - 48).toNat = e.count := by
  have hdigit := e.digit
  have hcode : (UInt8.ofNat (48 + e.count)).toNat = 48 + e.count := by
    rw [UInt8.toNat_ofNat']
    omega
  rw [UInt8.toNat_sub_of_le]
  · rw [hcode]
    exact Nat.add_sub_cancel_left _ _
  · rw [UInt8.le_iff_toNat_le, hcode]
    exact Nat.le_add_right _ _

theorem Entry.digit_inside {e : Entry} : ¬(UInt8.ofNat (48 + e.count) < 49 ∨ UInt8.ofNat (48 + e.count) > 57) := by
  have hpos := e.pos
  have hdigit := e.digit
  have hcode : (UInt8.ofNat (48 + e.count)).toNat = 48 + e.count := by
    rw [UInt8.toNat_ofNat']
    omega
  have h49 : (49 : UInt8).toNat = 49 := rfl
  have h57 : (57 : UInt8).toNat = 57 := rfl
  rw [gt_iff_lt, UInt8.lt_iff_toNat_lt, UInt8.lt_iff_toNat_lt, hcode, h49, h57]
  omega

theorem rleDecodeFrom_written {out : Bytes} {entries : List Entry} (hout : out.length ≤ maxStringSize) :
    rleDecodeFrom out (written entries) =
      if (out ++ expand entries).length ≤ maxStringSize then .ok (out ++ expand entries)
      else .error .tooLarge := by
  induction entries generalizing out with
  | nil => rw [written_nil, expand_nil, rleDecodeFrom, List.append_nil, if_pos hout]
  | cons e entries ih =>
    have hlength : (out ++ List.replicate e.count e.ch).length = out.length + e.count := by simp
    rw [written_cons, expand_cons, rleDecodeFrom, if_neg e.digit_inside, e.digit_toNat, ← List.append_assoc]
    by_cases hlong : out.length + e.count > maxStringSize
    · have hlonger : ¬ (out ++ List.replicate e.count e.ch ++ expand entries).length ≤ maxStringSize := by
        rw [List.length_append]
        omega
      rw [if_pos hlong, if_neg hlonger]
    · rw [if_neg hlong]
      exact ih (by omega)

/-- The decoder reads the entries of a text back as the text, up to the limit. -/
theorem rleDecodeChecked_written {input : Bytes} :
    rleDecodeChecked (written (rleEntries input)) =
      if input.length ≤ maxStringSize then .ok input else .error .tooLarge := by
  rw [rleDecodeChecked, rleDecodeFrom_written (Nat.zero_le _), List.nil_append, expand_rleEntries]

theorem rleDecode_of_rleEncode {input encoded : Bytes} (h : rleEncode input = .ok encoded) :
    rleDecode encoded = if input.length ≤ maxStringSize then some input else none := by
  rw [rleEncode_eq] at h
  split at h
  · rw [← Except.ok.inj h, rleDecode, rleDecodeChecked_written]
    split
    · rfl
    · rfl
  · exact nomatch h

/-- A text without two equal bytes in a row. -/
def alternating : Nat → Bytes
  | 0 => []
  | n + 1 => 97 :: 98 :: alternating n

theorem rleEntries_alternating_length {n : Nat} : (rleEntries (alternating n)).length = 2 * n := by
  have hsingle : ∀ ch, (runEntries ch 1).length = 1 := by
    intro ch
    rw [runEntries, dif_neg (by decide), runEntries, dif_pos (by decide)]
    rfl
  induction n with
  | zero => rw [alternating, rleEntries]; rfl
  | succ n ih =>
    have hfirst : furtherRun 97 (98 :: alternating n) = 0 := by simp [furtherRun]
    have hsecond : furtherRun 98 (alternating n) = 0 := by
      cases n with
      | zero => rfl
      | succ n => simp [furtherRun, alternating]
    rw [alternating, rleEntries, hfirst, List.drop_zero, rleEntries, hsecond, List.drop_zero,
      List.length_append, List.length_append, hsingle, hsingle, ih]
    omega

end Luma.RunLength
