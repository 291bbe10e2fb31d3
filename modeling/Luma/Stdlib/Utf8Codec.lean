-- SUMMARY: The strict UTF-8 decoder, the encoder and the iterator over code points.
import Luma.LanguageServer.DocumentStore
import Luma.Library.Segments
import Mathlib.Data.List.Forall2

/-! # UTF-8 Codec

Decoding one code point at a position, encoding a code point, and the scans that step
through a string by what the decoder reports. A byte that starts no well-formed sequence
is a piece of its own. -/

namespace Luma.Utf8Codec

open Codec LanguageServer

/-! ## Decoding -/

def utf8ReplacementChar : Nat := 0xFFFD

/-- A decoded code point and the number of bytes it occupied. -/
structure Utf8Decoded where
  codepoint : Nat
  length : Nat
  deriving DecidableEq, Repr

/-- What an ill-formed sequence decodes as. -/
def utf8Invalid : Utf8Decoded := ⟨utf8ReplacementChar, 1⟩

/-- The range of the second byte, which depends on the lead byte. -/
def secondRange (lead : UInt8) : UInt8 × UInt8 :=
  if lead = 0xE0 then (0xA0, 0xBF)
  else if lead = 0xED then (0x80, 0x9F)
  else if lead = 0xF0 then (0x90, 0xBF)
  else if lead = 0xF4 then (0x80, 0x8F)
  else (0x80, 0xBF)

/-- The payload of a lead byte. -/
def leadPayload (len : Nat) (lead : UInt8) : Nat :=
  if len = 2 then lead.toNat &&& 0x1F
  else if len = 3 then lead.toNat &&& 0x0F
  else lead.toNat &&& 0x07

def utf8Decode (s : Bytes) (pos : Nat) : Utf8Decoded :=
  let byteAt (offset : Nat) : UInt8 := s.getD (pos + offset) 0
  let lead := byteAt 0
  let len := utf8CodepointLen lead
  if s.length ≤ pos then ⟨utf8ReplacementChar, 0⟩
  else if lead < 0x80 then ⟨lead.toNat, 1⟩
  else if len = 1 ∨ s.length < pos + len then utf8Invalid
  else if byteAt 1 < (secondRange lead).1 ∨ (secondRange lead).2 < byteAt 1 then utf8Invalid
  else if (List.range' 2 (len - 2)).any fun k => !isUtf8Continuation (byteAt k) then utf8Invalid
  else
    let cp := (List.range' 1 (len - 1)).foldl
      (fun cp k => cp <<< 6 ||| ((byteAt k).toNat &&& 0x3F)) (leadPayload len lead)
    ⟨cp, len⟩

/-! ## Encoding -/

/-- The bytes of a code point, none for surrogates and for what is above U+10FFFF. -/
def utf8Encode (cp : Nat) : Bytes :=
  if 0x10FFFF < cp ∨ (0xD800 ≤ cp ∧ cp ≤ 0xDFFF) then []
  else if cp < 0x80 then [UInt8.ofNat cp]
  else if cp < 0x800 then [UInt8.ofNat (0xC0 ||| cp >>> 6), UInt8.ofNat (0x80 ||| (cp &&& 0x3F))]
  else if cp < 0x10000 then
    [UInt8.ofNat (0xE0 ||| cp >>> 12), UInt8.ofNat (0x80 ||| (cp >>> 6 &&& 0x3F)),
      UInt8.ofNat (0x80 ||| (cp &&& 0x3F))]
  else
    [UInt8.ofNat (0xF0 ||| cp >>> 18), UInt8.ofNat (0x80 ||| (cp >>> 12 &&& 0x3F)),
      UInt8.ofNat (0x80 ||| (cp >>> 6 &&& 0x3F)), UInt8.ofNat (0x80 ||| (cp &&& 0x3F))]

/-! ## Iterating -/

structure Utf8Iterator where
  text : Bytes
  byteOffset : Nat := 0
  codepointIndex : Nat := 0

namespace Utf8Iterator

def step (it : Utf8Iterator) (length : Nat) : Utf8Iterator :=
  if length = 0 then it
  else { it with byteOffset := it.byteOffset + length, codepointIndex := it.codepointIndex + 1 }

/-- The code point at the current position, and the iterator behind it. -/
def next (it : Utf8Iterator) : Nat × Utf8Iterator :=
  let decoded := utf8Decode it.text it.byteOffset
  (decoded.codepoint, it.step decoded.length)

def advance (it : Utf8Iterator) : Utf8Iterator :=
  it.step (utf8Decode it.text it.byteOffset).length

def atEnd (it : Utf8Iterator) : Bool := it.text.length ≤ it.byteOffset

/-- The loop `while (!it.at_end() && go(it)) it.advance()`. It moves on by a byte at least
    every round, so as many rounds as the text has bytes are enough. -/
def advanceWhile (go : Utf8Iterator → Bool) : Nat → Utf8Iterator → Utf8Iterator
  | 0, it => it
  | rounds + 1, it => if !it.atEnd && go it then advanceWhile go rounds it.advance else it

end Utf8Iterator

/-- The loop of `utf8CodepointCount`, over an `int` counter. -/
def codepointCountFrom (s : Bytes) : Nat → Nat → Int32 → Int32
  | 0, _, count => count
  | rounds + 1, pos, count =>
    if pos < s.length then codepointCountFrom s rounds (pos + (utf8Decode s pos).length) (count + 1)
    else count

def utf8CodepointCount (s : Bytes) : Int32 := codepointCountFrom s s.length 0 0

/-- The count as a 64-bit value. -/
def utf8Count (s : Bytes) : Int64 := (utf8CodepointCount s).toInt64

def utf8ByteOffset (s : Bytes) (n : Int) : Nat :=
  (Utf8Iterator.advanceWhile (fun it => decide ((it.codepointIndex : Int) < n)) s.length ⟨s, 0, 0⟩).byteOffset

def utf8CodepointIndex (s : Bytes) (bytePos : Nat) : Nat :=
  (Utf8Iterator.advanceWhile (fun it => decide (it.byteOffset < bytePos)) s.length ⟨s, 0, 0⟩).codepointIndex

def utf8SeekToCodepoint (s : Bytes) (codepointIdx : Nat) : Nat :=
  (Utf8Iterator.advanceWhile (fun it => decide (it.codepointIndex < codepointIdx)) s.length ⟨s, 0, 0⟩).byteOffset

/-! ## Well-formed sequences -/

/-- The well-formed sequences, as the ranges of their bytes: Unicode Table 3-7. -/
def wellFormedTable : List (List (Nat × Nat)) :=
  [[(0x00, 0x7F)],
    [(0xC2, 0xDF), (0x80, 0xBF)],
    [(0xE0, 0xE0), (0xA0, 0xBF), (0x80, 0xBF)],
    [(0xE1, 0xEC), (0x80, 0xBF), (0x80, 0xBF)],
    [(0xED, 0xED), (0x80, 0x9F), (0x80, 0xBF)],
    [(0xEE, 0xEF), (0x80, 0xBF), (0x80, 0xBF)],
    [(0xF0, 0xF0), (0x90, 0xBF), (0x80, 0xBF), (0x80, 0xBF)],
    [(0xF1, 0xF3), (0x80, 0xBF), (0x80, 0xBF), (0x80, 0xBF)],
    [(0xF4, 0xF4), (0x80, 0x8F), (0x80, 0xBF), (0x80, 0xBF)]]

def InRange (range : Nat × Nat) (byte : UInt8) : Prop := range.1 ≤ byte.toNat ∧ byte.toNat ≤ range.2

/-- A sequence that one row of the table describes. -/
def WellFormed (w : Bytes) : Prop := ∃ row ∈ wellFormedTable, List.Forall₂ InRange row w

/-- A continuation byte. -/
def Tail (b : UInt8) : Prop := 0x80 ≤ b.toNat ∧ b.toNat ≤ 0xBF

/-- What the decoder asks of a second byte. -/
def Second (lead b : UInt8) : Prop :=
  (secondRange lead).1.toNat ≤ b.toNat ∧ b.toNat ≤ (secondRange lead).2.toNat

instance (lead b : UInt8) : Decidable (Second lead b) := inferInstanceAs (Decidable (_ ∧ _))

/-- The sequences the decoder accepts, by their number of bytes. -/
inductive Sequence : Bytes → Prop where
  | one {a} (ha : a.toNat < 0x80) : Sequence [a]
  | two {a b} (ha : 0xC2 ≤ a.toNat) (ha' : a.toNat ≤ 0xDF) (hb : Tail b) : Sequence [a, b]
  | three {a b c} (ha : 0xE0 ≤ a.toNat) (ha' : a.toNat ≤ 0xEF) (hb : Second a b) (hc : Tail c) :
    Sequence [a, b, c]
  | four {a b c d} (ha : 0xF0 ≤ a.toNat) (ha' : a.toNat ≤ 0xF4) (hb : Second a b) (hc : Tail c)
    (hd : Tail d) : Sequence [a, b, c, d]

theorem second_iff {a b : UInt8} :
    Second a b ↔
      0x80 ≤ b.toNat ∧ b.toNat ≤ 0xBF ∧ (a.toNat = 0xE0 → 0xA0 ≤ b.toNat) ∧
        (a.toNat = 0xED → b.toNat ≤ 0x9F) ∧ (a.toNat = 0xF0 → 0x90 ≤ b.toNat) ∧
          (a.toNat = 0xF4 → b.toNat ≤ 0x8F) := by
  unfold Second secondRange
  simp only [← UInt8.toNat_inj]
  split
  · next h =>
    change a.toNat = 0xE0 at h
    change 0xA0 ≤ b.toNat ∧ b.toNat ≤ 0xBF ↔ _
    omega
  · next he0 =>
    change ¬ a.toNat = 0xE0 at he0
    split
    · next h =>
      change a.toNat = 0xED at h
      change 0x80 ≤ b.toNat ∧ b.toNat ≤ 0x9F ↔ _
      omega
    · next hed =>
      change ¬ a.toNat = 0xED at hed
      split
      · next h =>
        change a.toNat = 0xF0 at h
        change 0x90 ≤ b.toNat ∧ b.toNat ≤ 0xBF ↔ _
        omega
      · next hf0 =>
        change ¬ a.toNat = 0xF0 at hf0
        split
        · next h =>
          change a.toNat = 0xF4 at h
          change 0x80 ≤ b.toNat ∧ b.toNat ≤ 0x8F ↔ _
          omega
        · next hf4 =>
          change ¬ a.toNat = 0xF4 at hf4
          change 0x80 ≤ b.toNat ∧ b.toNat ≤ 0xBF ↔ _
          omega

/-- The rows of the table are the sequences the decoder accepts. -/
theorem wellFormed_iff {w : Bytes} : WellFormed w ↔ Sequence w := by
  unfold WellFormed wellFormedTable
  constructor
  · rintro ⟨row, hrow, hall⟩
    simp only [List.mem_cons, List.not_mem_nil, or_false] at hrow
    rcases hrow with rfl | rfl | rfl | rfl | rfl | rfl | rfl | rfl | rfl <;>
      simp only [List.forall₂_cons_left_iff, List.forall₂_nil_left_iff, InRange] at hall
    · obtain ⟨a, w, ha, rfl, rfl⟩ := hall
      exact .one (by omega)
    · obtain ⟨a, w, ha, ⟨b, w, hb, rfl, rfl⟩, rfl⟩ := hall
      exact .two ha.1 ha.2 hb
    -- three bytes: in each row the second byte is what the lead byte asks for
    iterate 4
      · obtain ⟨a, w, ha, ⟨b, w, hb, ⟨c, w, hc, rfl, rfl⟩, rfl⟩, rfl⟩ := hall
        exact .three (by omega) (by omega) (second_iff.mpr (by omega)) hc
    iterate 3
      · obtain ⟨a, w, ha, ⟨b, w, hb, ⟨c, w, hc, ⟨d, w, hd, rfl, rfl⟩, rfl⟩, rfl⟩, rfl⟩ := hall
        exact .four (by omega) (by omega) (second_iff.mpr (by omega)) hc hd
  · intro h
    have hrow (row : List (Nat × Nat)) {w : Bytes} (hrow : row ∈ wellFormedTable)
        (hall : List.Forall₂ InRange row w) : ∃ row ∈ wellFormedTable, List.Forall₂ InRange row w :=
      ⟨row, hrow, hall⟩
    cases h with
    | one ha => exact hrow _ (.head _) (.cons ⟨Nat.zero_le _, by omega⟩ .nil)
    | two ha ha' hb => exact hrow _ (.tail _ (.head _)) (.cons ⟨ha, ha'⟩ (.cons hb .nil))
    | @three a b c ha ha' hb hc =>
      rw [second_iff] at hb
      have hall {low high low' high' : Nat} (ha : low ≤ a.toNat ∧ a.toNat ≤ high)
          (hb : low' ≤ b.toNat ∧ b.toNat ≤ high') :
          List.Forall₂ InRange [(low, high), (low', high'), (0x80, 0xBF)] [a, b, c] :=
        .cons ha (.cons hb (.cons hc .nil))
      have hcases : a.toNat = 0xE0 ∨ a.toNat ≤ 0xEC ∧ a.toNat ≠ 0xE0 ∨ a.toNat = 0xED ∨
          0xEE ≤ a.toNat := by omega
      rcases hcases with he0 | ⟨hec, hne⟩ | hed | hee
      · exact hrow [(0xE0, 0xE0), (0xA0, 0xBF), (0x80, 0xBF)] (by decide) (hall (by omega) (by omega))
      · exact hrow [(0xE1, 0xEC), (0x80, 0xBF), (0x80, 0xBF)] (by decide) (hall (by omega) (by omega))
      · exact hrow [(0xED, 0xED), (0x80, 0x9F), (0x80, 0xBF)] (by decide) (hall (by omega) (by omega))
      · exact hrow [(0xEE, 0xEF), (0x80, 0xBF), (0x80, 0xBF)] (by decide) (hall (by omega) (by omega))
    | @four a b c d ha ha' hb hc hd =>
      rw [second_iff] at hb
      have hall {low high low' high' : Nat} (ha : low ≤ a.toNat ∧ a.toNat ≤ high)
          (hb : low' ≤ b.toNat ∧ b.toNat ≤ high') :
          List.Forall₂ InRange [(low, high), (low', high'), (0x80, 0xBF), (0x80, 0xBF)] [a, b, c, d] :=
        .cons ha (.cons hb (.cons hc (.cons hd .nil)))
      have hcases : a.toNat = 0xF0 ∨ a.toNat = 0xF4 ∨ a.toNat ≠ 0xF0 ∧ a.toNat ≤ 0xF3 := by omega
      rcases hcases with hf0 | hf4 | ⟨hne, hf3⟩
      · exact hrow [(0xF0, 0xF0), (0x90, 0xBF), (0x80, 0xBF), (0x80, 0xBF)] (by decide)
          (hall (by omega) (by omega))
      · exact hrow [(0xF4, 0xF4), (0x80, 0x8F), (0x80, 0xBF), (0x80, 0xBF)] (by decide)
          (hall (by omega) (by omega))
      · exact hrow [(0xF1, 0xF3), (0x80, 0xBF), (0x80, 0xBF), (0x80, 0xBF)] (by decide)
          (hall (by omega) (by omega))

/-! ## Well-formed texts -/

/-- Sequences of the table one behind another. -/
def WellFormedText (s : Bytes) : Prop := ∃ pieces : List Bytes, (∀ w ∈ pieces, WellFormed w) ∧ pieces.flatten = s

theorem WellFormed.text {w : Bytes} (h : WellFormed w) : WellFormedText w := by
  refine ⟨[w], ?_, List.flatten_singleton⟩
  intro w' hw'
  rwa [List.mem_singleton.mp hw']

theorem WellFormedText.append {s t : Bytes} (hs : WellFormedText s) (ht : WellFormedText t) : WellFormedText (s ++ t) := by
  obtain ⟨pieces, hpieces, rfl⟩ := hs
  obtain ⟨pieces', hpieces', rfl⟩ := ht
  refine ⟨pieces ++ pieces', ?_, List.flatten_append⟩
  intro w hw
  exact (List.mem_append.mp hw).elim (hpieces w) (hpieces' w)

/-! ## The decoder at the front of a string -/

theorem shiftLeft_or {a b k : Nat} (hb : b < 2 ^ k) : a <<< k ||| b = a * 2 ^ k + b := by
  rw [← Nat.shiftLeft_add_eq_or_of_lt hb, Nat.shiftLeft_eq]

/-- A byte's payload is put behind the code point so far. -/
theorem push_payload (cp : Nat) (b : UInt8) :
    cp <<< 6 ||| (b.toNat &&& 0x3F) = cp * 64 + b.toNat % 64 := by
  rw [show (0x3F : Nat) = 2 ^ 6 - 1 from rfl, Nat.and_two_pow_sub_one_eq_mod,
    shiftLeft_or (Nat.mod_lt _ (by decide))]
  rfl

/-- Decoding at a position looks at the rest of the string alone. -/
theorem utf8Decode_drop (s : Bytes) (pos : Nat) : utf8Decode s pos = utf8Decode (s.drop pos) 0 := by
  have hget (k : Nat) : (s.drop pos).getD (0 + k) 0 = s.getD (pos + k) 0 := by
    rw [Nat.zero_add, List.getD_eq_getElem?_getD, List.getD_eq_getElem?_getD, List.getElem?_drop]
  have hempty : s.length - pos ≤ 0 ↔ s.length ≤ pos := by omega
  unfold utf8Decode
  simp only [hget, List.length_drop, hempty]
  by_cases hend : s.length ≤ pos
  · simp only [hend, if_true]
  · have hlong (len : Nat) : s.length - pos < 0 + len ↔ s.length < pos + len := by omega
    simp only [hlong]

theorem isUtf8Continuation_iff {b : UInt8} : isUtf8Continuation b = true ↔ Tail b := by
  have hall : ∀ n, n < 256 →
      (isUtf8Continuation (UInt8.ofNat n) = true ↔ 0x80 ≤ n ∧ n ≤ 0xBF) := by decide +kernel
  have hb := hall b.toNat b.toNat_lt
  rwa [UInt8.ofNat_toNat] at hb

/-- The lead bytes by the length they announce. -/
inductive Announces (a : UInt8) : Nat → Prop where
  | one (ha : a.toNat < 0xC2 ∨ 0xF4 < a.toNat) : Announces a 1
  | two (ha : 0xC2 ≤ a.toNat) (ha' : a.toNat ≤ 0xDF) : Announces a 2
  | three (ha : 0xE0 ≤ a.toNat) (ha' : a.toNat ≤ 0xEF) : Announces a 3
  | four (ha : 0xF0 ≤ a.toNat) (ha' : a.toNat ≤ 0xF4) : Announces a 4

theorem announces (a : UInt8) : Announces a (utf8CodepointLen a) := by
  unfold utf8CodepointLen
  simp only [UInt8.le_iff_toNat_le]
  split
  · next h => exact .two h.1 h.2
  · next htwo =>
    change ¬ (0xC2 ≤ a.toNat ∧ a.toNat ≤ 0xDF) at htwo
    split
    · next h => exact .three h.1 h.2
    · next hthree =>
      change ¬ (0xE0 ≤ a.toNat ∧ a.toNat ≤ 0xEF) at hthree
      split
      · next h => exact .four h.1 h.2
      · next hfour =>
        change ¬ (0xF0 ≤ a.toNat ∧ a.toNat ≤ 0xF4) at hfour
        exact .one (by omega)

/-- The code point of a sequence. -/
def scalarOf : Bytes → Nat
  | [a] => a.toNat
  | [a, b] => a.toNat % 32 * 64 + b.toNat % 64
  | [a, b, c] => (a.toNat % 16 * 64 + b.toNat % 64) * 64 + c.toNat % 64
  | [a, b, c, d] => ((a.toNat % 8 * 64 + b.toNat % 64) * 64 + c.toNat % 64) * 64 + d.toNat % 64
  | _ => 0

-- The equations of the definitions are derived here, once for all proofs.
section
attribute [local simp] utf8Encode scalarOf Utf8Iterator.advanceWhile codepointCountFrom
end

/-- What the decoder checks behind a lead byte that is not ASCII, one check after another. -/
theorem utf8Decode_lead {a : UInt8} {s : Bytes} (ha : 0x80 ≤ a.toNat) :
    utf8Decode (a :: s) 0 =
      if utf8CodepointLen a = 1 ∨ s.length + 1 < utf8CodepointLen a then utf8Invalid
      else if ¬ Second a (s.getD 0 0) then utf8Invalid
      else if (List.range' 2 (utf8CodepointLen a - 2)).any fun k =>
          !isUtf8Continuation ((a :: s).getD k 0) then utf8Invalid
      else
        ⟨(List.range' 1 (utf8CodepointLen a - 1)).foldl
          (fun cp k => cp * 64 + ((a :: s).getD k 0).toNat % 64) (leadPayload (utf8CodepointLen a) a),
          utf8CodepointLen a⟩ := by
  have hascii : ¬ a < 0x80 := by
    rw [UInt8.lt_iff_toNat_lt]
    exact Nat.not_lt.mpr ha
  have hsecond (b : UInt8) : (b < (secondRange a).1 ∨ (secondRange a).2 < b) ↔ ¬ Second a b := by
    rw [UInt8.lt_iff_toNat_lt, UInt8.lt_iff_toNat_lt, Second, not_and_or, Nat.not_le, Nat.not_le]
  unfold utf8Decode
  simp only [Nat.zero_add, push_payload, List.getD_cons_zero, List.getD_cons_succ, List.length_cons,
    Nat.le_zero_eq, Nat.add_eq_zero_iff, Nat.one_ne_zero, and_false, if_false,
    hascii, hsecond]

/-- The decoder reads an ASCII byte as it is. -/
theorem utf8Decode_ascii {a : UInt8} {s : Bytes} (ha : a.toNat < 0x80) :
    utf8Decode (a :: s) 0 = ⟨a.toNat, 1⟩ := by
  have hascii : a < 0x80 := by
    rw [UInt8.lt_iff_toNat_lt]
    exact ha
  unfold utf8Decode
  simp [hascii]

theorem Announces.eq {a : UInt8} {len : Nat} (h : Announces a len) : utf8CodepointLen a = len := by
  have hlen := announces a
  generalize utf8CodepointLen a = len' at hlen
  cases h <;> cases hlen <;> first | rfl | omega

/-- The bits of a lead byte that are payload. -/
theorem leadPayload_eq {a : UInt8} :
    leadPayload 2 a = a.toNat % 32 ∧ leadPayload 3 a = a.toNat % 16 ∧ leadPayload 4 a = a.toNat % 8 := by
  refine ⟨?_, ?_, ?_⟩
  · change a.toNat &&& 2 ^ 5 - 1 = _
    rw [Nat.and_two_pow_sub_one_eq_mod]
  · change a.toNat &&& 2 ^ 4 - 1 = _
    rw [Nat.and_two_pow_sub_one_eq_mod]
  · change a.toNat &&& 2 ^ 3 - 1 = _
    rw [Nat.and_two_pow_sub_one_eq_mod]

/-- A lead byte of two asks nothing special of the second byte. -/
theorem second_of_two {a b : UInt8} (ha' : a.toNat ≤ 0xDF) : Second a b ↔ Tail b := by
  rw [second_iff, Tail]
  omega

/-- The decoder reads a sequence of the table whole, whatever comes behind it. -/
theorem Sequence.decode {w : Bytes} (h : Sequence w) (rest : Bytes) :
    utf8Decode (w ++ rest) 0 = ⟨scalarOf w, w.length⟩ := by
  cases h with
  | one ha => exact utf8Decode_ascii ha
  | @two a b ha ha' hb =>
    have hlen := (Announces.two ha ha').eq
    have hsecond := (second_of_two ha').mpr hb
    rw [List.cons_append, utf8Decode_lead (by omega), hlen]
    simp [hsecond, leadPayload_eq, scalarOf]
  | @three a b c ha ha' hb hc =>
    have hlen := (Announces.three ha ha').eq
    have hc := isUtf8Continuation_iff.mpr hc
    rw [List.cons_append, utf8Decode_lead (by omega), hlen]
    simp [hb, hc, leadPayload_eq, scalarOf, List.range']
  | @four a b c d ha ha' hb hc hd =>
    have hlen := (Announces.four ha ha').eq
    have hc := isUtf8Continuation_iff.mpr hc
    have hd := isUtf8Continuation_iff.mpr hd
    rw [List.cons_append, utf8Decode_lead (by omega), hlen]
    simp [hb, hc, hd, leadPayload_eq, scalarOf, List.range']

/-- Where no sequence of the table starts, the decoder reports one ill-formed byte. -/
theorem utf8Decode_illFormed {s : Bytes} (hs : s ≠ []) (hnone : ∀ w, Sequence w → ¬ w <+: s) :
    utf8Decode s 0 = utf8Invalid := by
  obtain ⟨a, s, rfl⟩ := List.exists_cons_of_ne_nil hs
  have hascii : 0x80 ≤ a.toNat := by
    by_contra hlow
    exact hnone [a] (.one (by omega)) ⟨s, rfl⟩
  rw [utf8Decode_lead hascii]
  have hlen := announces a
  generalize hn : utf8CodepointLen a = n at hlen
  cases hlen with
  | one _ => rw [if_pos (.inl rfl)]
  | two ha ha' =>
    match s with
    | [] => rfl
    | b :: s =>
      rw [if_neg (by simp), if_pos]
      intro hsecond
      exact hnone [a, b] (.two ha ha' ((second_of_two ha').mp hsecond)) ⟨s, rfl⟩
  | three ha ha' =>
    match s with
    | [] | [_] => rfl
    | b :: c :: s =>
      rw [if_neg (by simp)]
      split
      · rfl
      · next hsecond =>
        rw [not_not] at hsecond
        rw [if_pos]
        have hc : ¬ Tail c := fun hc => hnone [a, b, c] (.three ha ha' hsecond hc) ⟨s, rfl⟩
        rw [← isUtf8Continuation_iff] at hc
        simp [hc]
  | four ha ha' =>
    match s with
    | [] | [_] | [_, _] => rfl
    | b :: c :: d :: s =>
      rw [if_neg (by simp)]
      split
      · rfl
      · next hsecond =>
        rw [not_not] at hsecond
        rw [if_pos]
        have htails : ¬ (Tail c ∧ Tail d) := fun h =>
          hnone [a, b, c, d] (.four ha ha' hsecond h.1 h.2) ⟨s, rfl⟩
        rw [← isUtf8Continuation_iff, ← isUtf8Continuation_iff, not_and_or] at htails
        simpa [List.range'] using htails

/-! ## Encoded scalars -/

/-- The code points that have an encoding. -/
def IsScalar (cp : Nat) : Prop := cp ≤ 0x10FFFF ∧ ¬ (0xD800 ≤ cp ∧ cp ≤ 0xDFFF)

/-- The marker bits of a continuation byte are above its payload. -/
theorem continuation_byte (cp : Nat) : 0x80 ||| (cp &&& 0x3F) = 0x80 + cp % 64 := by
  rw [show (0x3F : Nat) = 2 ^ 6 - 1 from rfl, Nat.and_two_pow_sub_one_eq_mod]
  exact shiftLeft_or (a := 2) (k := 6) (Nat.mod_lt _ (by decide))

theorem utf8Encode_one {cp : Nat} (h : cp < 0x80) : utf8Encode cp = [UInt8.ofNat cp] := by
  rw [utf8Encode, if_neg (by omega), if_pos h]

theorem utf8Encode_two {cp : Nat} (h : 0x80 ≤ cp) (h' : cp < 0x800) :
    utf8Encode cp = [UInt8.ofNat (0xC0 + cp / 64), UInt8.ofNat (0x80 + cp % 64)] := by
  have hlead : 0xC0 ||| cp >>> 6 = 0xC0 + cp / 64 := by
    rw [Nat.shiftRight_eq_div_pow]
    exact shiftLeft_or (a := 3) (k := 6) (by omega)
  rw [utf8Encode, if_neg (by omega), if_neg (by omega), if_pos h', hlead, continuation_byte]

theorem utf8Encode_three {cp : Nat} (h : 0x800 ≤ cp) (h' : cp < 0x10000) (hscalar : IsScalar cp) :
    utf8Encode cp = [UInt8.ofNat (0xE0 + cp / 4096), UInt8.ofNat (0x80 + cp / 64 % 64),
      UInt8.ofNat (0x80 + cp % 64)] := by
  have hlead : 0xE0 ||| cp >>> 12 = 0xE0 + cp / 4096 := by
    rw [Nat.shiftRight_eq_div_pow]
    exact shiftLeft_or (a := 7) (k := 5) (by omega)
  unfold IsScalar at hscalar
  rw [utf8Encode, if_neg (by omega), if_neg (by omega), if_neg (by omega), if_pos h', hlead,
    continuation_byte, continuation_byte, Nat.shiftRight_eq_div_pow]

theorem utf8Encode_four {cp : Nat} (h : 0x10000 ≤ cp) (hscalar : IsScalar cp) :
    utf8Encode cp = [UInt8.ofNat (0xF0 + cp / 262144), UInt8.ofNat (0x80 + cp / 4096 % 64),
      UInt8.ofNat (0x80 + cp / 64 % 64), UInt8.ofNat (0x80 + cp % 64)] := by
  unfold IsScalar at hscalar
  have hlead : 0xF0 ||| cp >>> 18 = 0xF0 + cp / 262144 := by
    rw [Nat.shiftRight_eq_div_pow]
    exact shiftLeft_or (a := 15) (k := 4) (by omega)
  rw [utf8Encode, if_neg (by omega), if_neg (by omega), if_neg (by omega), if_neg (by omega), hlead,
    continuation_byte, continuation_byte, continuation_byte, Nat.shiftRight_eq_div_pow,
    Nat.shiftRight_eq_div_pow]

theorem ofNat_of_toNat {b : UInt8} {n : Nat} (h : n = b.toNat) : UInt8.ofNat n = b := by
  rw [h, UInt8.ofNat_toNat]

/-- Encoding the code point of a sequence gives back the sequence. -/
theorem Sequence.encode {w : Bytes} (h : Sequence w) :
    IsScalar (scalarOf w) ∧ utf8Encode (scalarOf w) = w := by
  cases h with
  | @one a ha =>
    refine ⟨⟨by rw [scalarOf]; omega, by rw [scalarOf]; omega⟩, ?_⟩
    rw [scalarOf, utf8Encode_one ha, UInt8.ofNat_toNat]
  | @two a b ha ha' hb =>
    unfold Tail at hb
    have hscalar : IsScalar (scalarOf [a, b]) := ⟨by rw [scalarOf]; omega, by rw [scalarOf]; omega⟩
    refine ⟨hscalar, ?_⟩
    rw [scalarOf, utf8Encode_two (by omega) (by omega), ofNat_of_toNat (b := a) (by omega),
      ofNat_of_toNat (b := b) (by omega)]
  | @three a b c ha ha' hb hc =>
    rw [second_iff] at hb
    unfold Tail at hc
    have hscalar : IsScalar (scalarOf [a, b, c]) := ⟨by rw [scalarOf]; omega, by rw [scalarOf]; omega⟩
    refine ⟨hscalar, ?_⟩
    rw [scalarOf] at hscalar ⊢
    rw [utf8Encode_three (by omega) (by omega) hscalar, ofNat_of_toNat (b := a) (by omega),
      ofNat_of_toNat (b := b) (by omega), ofNat_of_toNat (b := c) (by omega)]
  | @four a b c d ha ha' hb hc hd =>
    rw [second_iff] at hb
    unfold Tail at hc hd
    have hscalar : IsScalar (scalarOf [a, b, c, d]) := ⟨by rw [scalarOf]; omega, by rw [scalarOf]; omega⟩
    refine ⟨hscalar, ?_⟩
    rw [scalarOf] at hscalar ⊢
    rw [utf8Encode_four (by omega) hscalar, ofNat_of_toNat (b := a) (by omega),
      ofNat_of_toNat (b := b) (by omega), ofNat_of_toNat (b := c) (by omega),
      ofNat_of_toNat (b := d) (by omega)]

theorem toNat_of_lt {n : Nat} (h : n < 256) : (UInt8.ofNat n).toNat = n := UInt8.toNat_ofNat_of_lt h

/-- Every encoding is a sequence of the table: no other sequence stands for a code point. -/
theorem Sequence.of_encode {cp : Nat} (h : IsScalar cp) : Sequence (utf8Encode cp) := by
  unfold IsScalar at h
  have hcases : cp < 0x80 ∨ 0x80 ≤ cp ∧ cp < 0x800 ∨ 0x800 ≤ cp ∧ cp < 0x10000 ∨ 0x10000 ≤ cp := by omega
  have htail (n : Nat) : Tail (UInt8.ofNat (0x80 + n % 64)) := by
    rw [Tail, toNat_of_lt (by omega)]
    omega
  rcases hcases with hone | ⟨hlow, htwo⟩ | ⟨hlow, hthree⟩ | hlow
  · rw [utf8Encode_one hone]
    exact .one (by rw [toNat_of_lt (by omega)]; omega)
  · rw [utf8Encode_two hlow htwo]
    have hlead := toNat_of_lt (n := 0xC0 + cp / 64) (by omega)
    exact .two (by omega) (by omega) (htail cp)
  · rw [utf8Encode_three hlow hthree h]
    have hlead := toNat_of_lt (n := 0xE0 + cp / 4096) (by omega)
    have hsecond := toNat_of_lt (n := 0x80 + cp / 64 % 64) (by omega)
    exact .three (by omega) (by omega) (second_iff.mpr (by omega)) (htail cp)
  · rw [utf8Encode_four hlow h]
    have hlead := toNat_of_lt (n := 0xF0 + cp / 262144) (by omega)
    have hsecond := toNat_of_lt (n := 0x80 + cp / 4096 % 64) (by omega)
    exact .four (by omega) (by omega) (second_iff.mpr (by omega)) (htail (cp / 64)) (htail cp)

/-! ## Pieces -/

/-- The length of the piece at the front of a string. -/
def pieceSize (s : Bytes) : Nat := (utf8Decode s 0).length

/-- What the decoder reports at the front of a string that is not empty: the sequence of
    the table that starts there, or one ill-formed byte. -/
theorem utf8Decode_front {s : Bytes} (hs : s ≠ []) :
    (∃ w, Sequence w ∧ w <+: s ∧ utf8Decode s 0 = ⟨scalarOf w, w.length⟩) ∨
      (∀ w, Sequence w → ¬ w <+: s) ∧ utf8Decode s 0 = utf8Invalid := by
  by_cases h : ∃ w, Sequence w ∧ w <+: s
  · obtain ⟨w, hw, rest, rfl⟩ := h
    exact .inl ⟨w, hw, ⟨rest, rfl⟩, hw.decode rest⟩
  · have hnone : ∀ w, Sequence w → ¬ w <+: s := fun w hw hprefix => h ⟨w, hw, hprefix⟩
    exact .inr ⟨hnone, utf8Decode_illFormed hs hnone⟩

theorem Sequence.length_pos {w : Bytes} (h : Sequence w) : 0 < w.length := by
  cases h <;> exact Nat.succ_pos _

/-- Every step is by at least a byte and stays within the string. -/
theorem stepping : Segments.Stepping pieceSize where
  pos := by
    intro s hs
    rw [pieceSize]
    rcases utf8Decode_front hs with ⟨w, hw, -, hdecode⟩ | ⟨-, hdecode⟩
    · rw [hdecode]
      exact hw.length_pos
    · rw [hdecode]
      exact Nat.one_pos
  le := by
    intro s
    rw [pieceSize]
    by_cases hs : s = []
    · rw [hs]
      exact Nat.le_refl 0
    · rcases utf8Decode_front hs with ⟨w, -, hstart, hdecode⟩ | ⟨-, hdecode⟩
      · rw [hdecode]
        exact hstart.length_le
      · rw [hdecode]
        exact List.length_pos_iff.mpr hs

/-- A sequence in front of the end is there whatever comes behind it. -/
theorem pieceSize_local : Segments.Local pieceSize := by
  intro x y hx hsize
  rw [pieceSize] at hsize
  rw [pieceSize, pieceSize]
  rcases utf8Decode_front (List.append_ne_nil_of_left_ne_nil hx y) with ⟨w, hw, hprefix, hdecode⟩ | ⟨hnone, hdecode⟩
  · rw [hdecode] at hsize
    obtain ⟨rest, rfl⟩ := List.prefix_of_prefix_length_le hprefix (List.prefix_append x y) hsize
    rw [hdecode, hw.decode]
  · rw [hdecode, utf8Decode_illFormed hx fun w hw hstart => hnone w hw (hstart.trans (List.prefix_append x y))]

/-- The bytes of a sequence behind the first are not ASCII. -/
theorem Sequence.tail_high {a b : UInt8} {w : Bytes} (h : Sequence (a :: w)) (hb : b ∈ w) : 0x80 ≤ b.toNat := by
  cases h with
  | one _ => cases hb
  | two _ _ htail =>
    rw [List.mem_singleton] at hb
    exact hb ▸ htail.1
  | three _ _ hsecond htail =>
    rw [second_iff] at hsecond
    rcases List.mem_cons.mp hb with rfl | hb
    · exact hsecond.1
    · rw [List.mem_singleton] at hb
      exact hb ▸ htail.1
  | four _ _ hsecond hc hd =>
    rw [second_iff] at hsecond
    rcases List.mem_cons.mp hb with rfl | hb
    · exact hsecond.1
    · rcases List.mem_cons.mp hb with rfl | hb
      · exact hc.1
      · rw [List.mem_singleton] at hb
        exact hb ▸ hd.1

/-- The front piece of a string is its first byte and bytes that are not ASCII. -/
theorem take_pieceSize (a : UInt8) (s : Bytes) :
    ∃ w, (a :: s).take (pieceSize (a :: s)) = a :: w ∧ ∀ b ∈ w, 0x80 ≤ b.toNat := by
  rw [pieceSize]
  rcases utf8Decode_front (List.cons_ne_nil a s) with ⟨w, hw, ⟨rest, hrest⟩, hdecode⟩ | ⟨-, hdecode⟩
  · rw [hdecode, ← hrest, List.take_left]
    cases w with
    | nil => exact absurd hw.length_pos (Nat.lt_irrefl 0)
    | cons a' w =>
      obtain ⟨rfl, -⟩ := List.cons.inj hrest
      exact ⟨w, rfl, fun b hb => hw.tail_high hb⟩
  · rw [hdecode]
    exact ⟨[], rfl, fun b hb => absurd hb List.not_mem_nil⟩

/-- The pieces that stepping through a string cuts it into. -/
def codePoints (s : Bytes) : List Bytes := Segments.pieces pieceSize s

/-- Where piece `k` starts. -/
def boundary (s : Bytes) (k : Nat) : Nat := Segments.offset pieceSize s k

theorem utf8Decode_length (s : Bytes) (pos : Nat) : (utf8Decode s pos).length = pieceSize (s.drop pos) := by
  rw [utf8Decode_drop]
  rfl

theorem boundary_succ {s : Bytes} {k : Nat} (hk : k < (codePoints s).length) :
    boundary s (k + 1) = boundary s k + (utf8Decode s (boundary s k)).length := by
  rw [utf8Decode_length]
  exact stepping.offset_succ hk

theorem boundary_lt {s : Bytes} {k : Nat} (hk : k < (codePoints s).length) : boundary s k < s.length :=
  stepping.offset_lt hk

theorem boundary_end {s : Bytes} {k : Nat} (hk : (codePoints s).length ≤ k) : boundary s k = s.length :=
  stepping.offset_end hk

/-! ## Scans -/

/-- The iterator at the start of piece `k`. -/
def iteratorAt (s : Bytes) (k : Nat) : Utf8Iterator := ⟨s, boundary s k, k⟩

/-- One step goes from a piece to the next. -/
theorem advance_iteratorAt {s : Bytes} {k : Nat} (hk : k < (codePoints s).length) :
    (iteratorAt s k).advance = iteratorAt s (k + 1) := by
  have hpos : 0 < (utf8Decode s (boundary s k)).length := by
    rw [utf8Decode_length]
    apply stepping.pos
    rw [Ne, List.drop_eq_nil_iff]
    exact Nat.not_le.mpr (boundary_lt hk)
  rw [iteratorAt, iteratorAt, Utf8Iterator.advance, Utf8Iterator.step, if_neg (Nat.ne_of_gt hpos),
    boundary_succ hk]

/-- The end is behind the last piece. -/
theorem atEnd_iteratorAt {s : Bytes} {k : Nat} (hk : k ≤ (codePoints s).length) :
    (iteratorAt s k).atEnd = decide (k = (codePoints s).length) := by
  rw [Utf8Iterator.atEnd, iteratorAt, decide_eq_decide]
  constructor
  · intro hend
    by_contra hne
    exact Nat.not_le.mpr (boundary_lt (Nat.lt_of_le_of_ne hk hne)) hend
  · rintro rfl
    exact (boundary_end (Nat.le_refl _)).ge

/-- A loop that goes on to piece `j`, unless the string ends before, stops there. -/
theorem advanceWhile_iteratorAt {s : Bytes} {go : Utf8Iterator → Bool} {j : Nat}
    (hgo : ∀ k, k < j → k < (codePoints s).length → go (iteratorAt s k) = true)
    (hstop : j < (codePoints s).length → go (iteratorAt s j) = false) {rounds k : Nat}
    (hk : k ≤ min j (codePoints s).length) (hrounds : (codePoints s).length ≤ k + rounds) :
    (iteratorAt s k).advanceWhile go rounds = iteratorAt s (min j (codePoints s).length) := by
  induction rounds generalizing k with
  | zero =>
    have hlast : k = min j (codePoints s).length := by omega
    rw [← hlast]
    rfl
  | succ rounds ih =>
    rw [Utf8Iterator.advanceWhile, atEnd_iteratorAt (by omega)]
    by_cases hlast : k = min j (codePoints s).length
    · rw [if_neg, ← hlast]
      by_cases hend : k = (codePoints s).length
      · simp [hend]
      · have hj : k = j := by omega
        rw [hj, hstop (by omega), Bool.and_false]
        exact Bool.false_ne_true
    · have hnot : decide (k = (codePoints s).length) = false := by
        rw [decide_eq_false_iff_not]
        omega
      rw [if_pos (by rw [hnot, hgo k (by omega) (by omega)]; rfl), advance_iteratorAt (by omega)]
      exact ih (by omega) (by omega)

theorem length_codePoints_le (s : Bytes) : (codePoints s).length ≤ s.length :=
  stepping.length_pieces_le s

/-- The two scans to a code point go to where it starts. -/
theorem utf8ByteOffset_eq (s : Bytes) (k : Nat) : utf8ByteOffset s k = boundary s k := by
  have hend : boundary s (min k (codePoints s).length) = boundary s k := by
    rcases Nat.le_total k (codePoints s).length with hle | hge
    · rw [Nat.min_eq_left hle]
    · rw [Nat.min_eq_right hge, boundary_end hge, boundary_end (Nat.le_refl _)]
  rw [utf8ByteOffset, ← hend]
  change ((iteratorAt s 0).advanceWhile _ _).byteOffset = (iteratorAt s _).byteOffset
  rw [advanceWhile_iteratorAt (j := k) _ _ (Nat.zero_le _)]
  · rw [Nat.zero_add]
    exact length_codePoints_le s
  · intro i hi _
    simpa [iteratorAt] using hi
  · intro _
    simp [iteratorAt]

theorem utf8SeekToCodepoint_eq (s : Bytes) (k : Nat) : utf8SeekToCodepoint s k = boundary s k := by
  rw [← utf8ByteOffset_eq, utf8SeekToCodepoint, utf8ByteOffset]
  simp only [Nat.cast_lt]

/-- The scan to a boundary stops there, at the piece that starts there. -/
theorem utf8CodepointIndex_boundary {s : Bytes} {k : Nat} (hk : k ≤ (codePoints s).length) :
    utf8CodepointIndex s (boundary s k) = k := by
  rw [utf8CodepointIndex]
  change ((iteratorAt s 0).advanceWhile _ _).codepointIndex = k
  rw [advanceWhile_iteratorAt (j := k) _ _ (Nat.zero_le _), Nat.min_eq_left hk]
  · rfl
  · rw [Nat.zero_add]
    exact length_codePoints_le s
  · intro i hi _
    rw [decide_eq_true_eq]
    exact stepping.offset_strict hi hk
  · intro _
    simp [iteratorAt]

/-- The counting loop from piece `k` counts the pieces that are left. -/
theorem codepointCountFrom_eq {s : Bytes} {rounds k : Nat} (hk : k ≤ (codePoints s).length)
    (hrounds : (codePoints s).length ≤ k + rounds) :
    codepointCountFrom s rounds (boundary s k) (Int32.ofNat k) = Int32.ofNat (codePoints s).length := by
  induction rounds generalizing k with
  | zero =>
    have hlast : k = (codePoints s).length := by omega
    rw [codepointCountFrom, hlast]
  | succ rounds ih =>
    rw [codepointCountFrom]
    by_cases hlast : k = (codePoints s).length
    · rw [if_neg, hlast]
      rw [boundary_end (Nat.le_of_eq hlast.symm)]
      exact Nat.lt_irrefl _
    · have hlt : k < (codePoints s).length := by omega
      rw [if_pos (boundary_lt hlt), ← boundary_succ hlt]
      have hrest := ih (k := k + 1) (by omega) (by omega)
      rwa [Int32.ofNat_add] at hrest

theorem utf8CodepointCount_eq (s : Bytes) : utf8CodepointCount s = Int32.ofNat (codePoints s).length := by
  apply codepointCountFrom_eq (k := 0) (Nat.zero_le _)
  rw [Nat.zero_add]
  exact length_codePoints_le s

/-- The counter holds the count as long as it is within its positive range. -/
theorem utf8Count_toInt_iff (s : Bytes) :
    (utf8Count s).toInt = (codePoints s).length ↔ (codePoints s).length < 2 ^ 31 := by
  rw [utf8Count, Int32.toInt_toInt64, utf8CodepointCount_eq]
  constructor
  · intro h
    have hlt := Int32.toInt_lt (Int32.ofNat (codePoints s).length)
    omega
  · exact Int32.toInt_ofNat_of_lt

/-- Stepping from the start, the iterator meets the pieces one after another. -/
theorem iterate_advance {s : Bytes} {k : Nat} (hk : k ≤ (codePoints s).length) :
    Utf8Iterator.advance^[k] ⟨s, 0, 0⟩ = iteratorAt s k := by
  induction k with
  | zero => rfl
  | succ k ih => rw [Function.iterate_succ_apply', ih (by omega), advance_iteratorAt (by omega)]

/-! ## Agreement -/

/-- The decoder, the encoder and the scans agree on a string. -/
structure Utf8Agreement (s : Bytes) : Prop where
  /-- The decoder accepts the well-formed sequences, whose code point encodes back to them,
      and reports one ill-formed byte where none starts. -/
  accepts : ∀ pos, pos < s.length →
    (∃ w, WellFormed w ∧ w <+: s.drop pos ∧ (utf8Decode s pos).length = w.length ∧
        utf8Encode (utf8Decode s pos).codepoint = w) ∨
      (∀ w, WellFormed w → ¬ w <+: s.drop pos) ∧ utf8Decode s pos = utf8Invalid
  /-- The pieces are not empty and make up the string. -/
  covers : (∀ piece ∈ codePoints s, piece ≠ []) ∧ (codePoints s).flatten = s
  /-- Stepping meets every piece, at its boundary and under its index, and then the end. -/
  steps : ∀ k, k ≤ (codePoints s).length →
    Utf8Iterator.advance^[k] ⟨s, 0, 0⟩ = ⟨s, (((codePoints s).take k).flatten).length, k⟩ ∧
      ((Utf8Iterator.advance^[k] ⟨s, 0, 0⟩).atEnd = true ↔ k = (codePoints s).length)
  /-- The count is the number of pieces. -/
  count : (utf8Count s).toInt = (codePoints s).length
  /-- The offset of a code point is where its piece starts. -/
  offsets : ∀ k, k ≤ (codePoints s).length →
    utf8ByteOffset s k = (((codePoints s).take k).flatten).length ∧
      utf8SeekToCodepoint s k = (((codePoints s).take k).flatten).length
  /-- The two conversions undo each other on boundaries. -/
  inverse : ∀ k, k ≤ (codePoints s).length →
    utf8CodepointIndex s (utf8ByteOffset s k) = k ∧
      utf8ByteOffset s (utf8CodepointIndex s (((codePoints s).take k).flatten).length) =
        (((codePoints s).take k).flatten).length

/-- Well-formed sequences are the encodings of scalar values: no overlong forms, no
    surrogates, nothing above U+10FFFF. -/
theorem wellFormed_iff_encoding {w : Bytes} : WellFormed w ↔ ∃ cp, IsScalar cp ∧ utf8Encode cp = w := by
  rw [wellFormed_iff]
  constructor
  · intro h
    exact ⟨scalarOf w, h.encode⟩
  · rintro ⟨cp, hscalar, rfl⟩
    exact .of_encode hscalar

/-- Everything agrees on a string exactly when it has less than `2 ^ 31` code points: the
    count is kept in an `int`. -/
theorem utf8_agreement_iff (s : Bytes) : Utf8Agreement s ↔ (codePoints s).length < 2 ^ 31 := by
  constructor
  · intro h
    exact (utf8Count_toInt_iff s).mp h.count
  · intro hshort
    constructor
    case accepts =>
      intro pos hpos
      have hs : s.drop pos ≠ [] := by
        rw [Ne, List.drop_eq_nil_iff]
        omega
      simp only [wellFormed_iff, utf8Decode_drop s pos]
      rcases utf8Decode_front hs with ⟨w, hw, hprefix, hdecode⟩ | ⟨hnone, hdecode⟩
      · left
        exact ⟨w, hw, hprefix, by rw [hdecode], by rw [hdecode]; exact hw.encode.2⟩
      · exact .inr ⟨hnone, hdecode⟩
    case covers => exact ⟨fun piece => stepping.piece_ne_nil, stepping.flatten_pieces s⟩
    case steps =>
      intro k hk
      rw [iterate_advance hk, atEnd_iteratorAt hk, decide_eq_true_eq]
      exact ⟨rfl, Iff.rfl⟩
    case count => exact (utf8Count_toInt_iff s).mpr hshort
    case offsets =>
      intro k hk
      exact ⟨utf8ByteOffset_eq s k, utf8SeekToCodepoint_eq s k⟩
    case inverse =>
      intro k hk
      have hindex := utf8CodepointIndex_boundary hk
      refine ⟨by rw [utf8ByteOffset_eq, hindex], ?_⟩
      change utf8ByteOffset s (utf8CodepointIndex s (boundary s k)) = boundary s k
      rw [hindex, utf8ByteOffset_eq]

/-- A string of one ASCII character has as many code points as bytes. -/
theorem length_codePoints_replicate {a : UInt8} (ha : a.toNat < 0x80) (n : Nat) :
    (codePoints (List.replicate n a)).length = n := by
  induction n with
  | zero => rfl
  | succ n ih =>
    have hsize : pieceSize (List.replicate (n + 1) a) = 1 := by
      rw [pieceSize, List.replicate_succ, utf8Decode_ascii ha]
    rw [codePoints, stepping.pieces_eq (by simp), hsize, List.length_cons, List.replicate_succ,
      List.drop_succ_cons, List.drop_zero]
    exact congrArg (· + 1) ih

/-- Two gigabytes of the letter `a`: the count has wrapped around. -/
theorem count_of_long_string_wraps : ¬ Utf8Agreement (List.replicate (2 ^ 31) 97) := by
  intro h
  have hcount := (utf8Count_toInt_iff _).mp h.count
  rw [length_codePoints_replicate (by decide)] at hcount
  exact absurd hcount (Nat.lt_irrefl _)

end Luma.Utf8Codec
