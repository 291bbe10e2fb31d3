-- SUMMARY: The base64 codec, its round trip and the texts its decoder accepts.
import Luma.Library.BigEndian

/-! # Base64

Encoding three bytes at a time and decoding four characters at a time. The decoder is
lenient: it fills up a short tail with padding, and looks at each group of four
characters alone. -/

namespace Luma.Base64

open Codec

/-! ## Alphabets -/

/-- The padding character `=`. -/
def padding : UInt8 := 61

def base64Chars : Bytes :=
  [ 'A', 'B', 'C', 'D', 'E', 'F', 'G', 'H', 'I', 'J', 'K', 'L', 'M', 'N', 'O', 'P',
    'Q', 'R', 'S', 'T', 'U', 'V', 'W', 'X', 'Y', 'Z', 'a', 'b', 'c', 'd', 'e', 'f',
    'g', 'h', 'i', 'j', 'k', 'l', 'm', 'n', 'o', 'p', 'q', 'r', 's', 't', 'u', 'v',
    'w', 'x', 'y', 'z', '0', '1', '2', '3', '4', '5', '6', '7', '8', '9', '+', '/' ].map fun c => UInt8.ofNat c.toNat

/-- The URL-safe alphabet: `-` and `_` in place of the last two. -/
def base64urlChars : Bytes := (base64Chars.set 62 45).set 63 95

/-- The index of a character, `none` where it has none. -/
def base64DecodeChar (c char62 char63 : UInt8) : Option Nat :=
  if 65 ≤ c ∧ c ≤ 90 then some (c.toNat - 65)
  else if 97 ≤ c ∧ c ≤ 122 then some (c.toNat - 97 + 26)
  else if 48 ≤ c ∧ c ≤ 57 then some (c.toNat - 48 + 52)
  else if c = char62 then some 62
  else if c = char63 then some 63
  else none

/-! ## Encoding -/

/-- The characters of up to three bytes, `remaining` of which are left in the input. -/
def encodeTriplet (alphabet : Bytes) (usePadding : Bool) (remaining : Nat) (b0 b1 b2 : UInt8) :
    Bytes :=
  let at_ (i : Nat) : UInt8 := alphabet.getD i 0
  [at_ (b0.toNat >>> 2), at_ ((b0.toNat &&& 0x03) <<< 4 ||| b1.toNat >>> 4)] ++
    if remaining = 1 then if usePadding then [padding, padding] else []
    else if remaining = 2 then
      at_ ((b1.toNat &&& 0x0F) <<< 2) :: if usePadding then [padding] else []
    else
      [at_ ((b1.toNat &&& 0x0F) <<< 2 ||| b2.toNat >>> 6), at_ (b2.toNat &&& 0x3F)]

/-- The loop over the input, three bytes at a time; missing bytes are zero. -/
def encodeLoop (alphabet : Bytes) (usePadding : Bool) : Bytes → Bytes
  | [] => []
  | [b0] => encodeTriplet alphabet usePadding 1 b0 0 0
  | [b0, b1] => encodeTriplet alphabet usePadding 2 b0 b1 0
  | b0 :: b1 :: b2 :: rest =>
    encodeTriplet alphabet usePadding (rest.length + 3) b0 b1 b2 ++
      encodeLoop alphabet usePadding rest

def base64EncodeWith (maxStringSize : Nat) (input alphabet : Bytes) (usePadding : Bool) :
    Except String Bytes :=
  if maxStringSize < (input.length + 2) / 3 * 4 then
    .error "base64 output exceeds maximum string size"
  else .ok (encodeLoop alphabet usePadding input)

def base64Encode (maxStringSize : Nat) (input : Bytes) : Except String Bytes :=
  base64EncodeWith maxStringSize input base64Chars true

def base64urlEncode (maxStringSize : Nat) (input : Bytes) : Except String Bytes :=
  base64EncodeWith maxStringSize input base64urlChars false

/-! ## Decoding -/

/-- The bytes of one group of four characters. -/
def decodeQuad (decodeChar : UInt8 → Option Nat) (c0 c1 c2 c3 : UInt8) : Option Bytes := do
  let v0 ← decodeChar c0
  let v1 ← decodeChar c1
  let first := UInt8.ofNat (v0 <<< 2 ||| v1 >>> 4)
  if c2 ≠ padding then
    let v2 ← decodeChar c2
    let second := UInt8.ofNat ((v1 &&& 0x0F) <<< 4 ||| v2 >>> 2)
    if c3 ≠ padding then
      let v3 ← decodeChar c3
      return [first, second, UInt8.ofNat ((v2 &&& 0x03) <<< 6 ||| v3)]
    else return [first, second]
  else if c3 ≠ padding then
    -- padding in the third position requires the fourth to also be padding
    none
  else return [first]

/-- The loop over the filled-up input. -/
def decodeLoop (decodeChar : UInt8 → Option Nat) : Bytes → Option Bytes
  | c0 :: c1 :: c2 :: c3 :: rest => do
    let bytes ← decodeQuad decodeChar c0 c1 c2 c3
    let decoded ← decodeLoop decodeChar rest
    return bytes ++ decoded
  | _ => some []

/-- The input as the loop sees it: past its end every character is padding. -/
def padText (input : Bytes) : Bytes :=
  input ++ List.replicate ((4 - input.length % 4) % 4) padding

def base64DecodeWith (input : Bytes) (decodeChar : UInt8 → Option Nat) : Option Bytes :=
  decodeLoop decodeChar (padText input)

def base64Decode (input : Bytes) : Option Bytes :=
  base64DecodeWith input fun c => base64DecodeChar c 43 47

def base64urlDecode (input : Bytes) : Option Bytes :=
  base64DecodeWith input fun c => base64DecodeChar c 45 95

/-! ## Matching alphabets -/

/-- A decoder reads exactly the characters of an alphabet of 64, as their indices. -/
structure Reads (alphabet : Bytes) (decodeChar : UInt8 → Option Nat) : Prop where
  decode_char : ∀ i, i < 64 → decodeChar (alphabet.getD i 0) = some i
  char_decode : ∀ {c i}, decodeChar c = some i → i < 64 ∧ alphabet.getD i 0 = c
  padding_unread : decodeChar padding = none

-- The equations of the definitions are derived here, once for all proofs.
section
attribute [local simp] encodeLoop decodeLoop
end

/-- A property of every byte, checked byte by byte. -/
theorem forall_byte {p : UInt8 → Prop} (h : ∀ n : Nat, n < 256 → p (UInt8.ofNat n)) (c : UInt8) :
    p c := by
  have hc := h c.toNat c.toNat_lt
  rwa [UInt8.ofNat_toNat] at hc

/-- The conditions of a matching pair of alphabets, checked by running through them. -/
theorem Reads.of_tables {alphabet : Bytes} {decodeChar : UInt8 → Option Nat}
    (hdecode : ∀ i, i < 64 → decodeChar (alphabet.getD i 0) = some i)
    (hchar : ∀ n, n < 256 → ∀ i ∈ decodeChar (UInt8.ofNat n),
      i < 64 ∧ alphabet.getD i 0 = UInt8.ofNat n)
    (hpadding : decodeChar padding = none) : Reads alphabet decodeChar where
  decode_char := hdecode
  char_decode := by
    intro c i hi
    have hall := forall_byte (p := fun c => ∀ i ∈ decodeChar c, i < 64 ∧ alphabet.getD i 0 = c)
      hchar c
    exact hall i hi
  padding_unread := hpadding

theorem reads_base64 : Reads base64Chars fun c => base64DecodeChar c 43 47 :=
  .of_tables (by decide +kernel) (by decide +kernel) (by decide +kernel)

theorem reads_base64url : Reads base64urlChars fun c => base64DecodeChar c 45 95 :=
  .of_tables (by decide +kernel) (by decide +kernel) (by decide +kernel)

/-! ## Six-bit groups -/

theorem shift_or {a b k : Nat} (hb : b < 2 ^ k) : a <<< k ||| b = a * 2 ^ k + b := by
  rw [← Nat.shiftLeft_add_eq_or_of_lt hb, Nat.shiftLeft_eq]

/-- The second index: two bits of the first byte, four of the second. -/
theorem second_index {x y : Nat} (hy : y < 256) :
    (x &&& 0x03) <<< 4 ||| y >>> 4 = x % 4 * 16 + y / 16 := by
  rw [shift_or (by rw [Nat.shiftRight_eq_div_pow]; omega), Nat.shiftRight_eq_div_pow,
    show (0x03 : Nat) = 2 ^ 2 - 1 by rfl, Nat.and_two_pow_sub_one_eq_mod]
  rfl

/-- The third index: four bits of the second byte, two of the third. -/
theorem third_index {y z : Nat} (hz : z < 256) :
    (y &&& 0x0F) <<< 2 ||| z >>> 6 = y % 16 * 4 + z / 64 := by
  rw [shift_or (by rw [Nat.shiftRight_eq_div_pow]; omega), Nat.shiftRight_eq_div_pow,
    show (0x0F : Nat) = 2 ^ 4 - 1 by rfl, Nat.and_two_pow_sub_one_eq_mod]
  rfl

theorem last_index {y : Nat} : (y &&& 0x0F) <<< 2 = y % 16 * 4 := by
  rw [Nat.shiftLeft_eq, show (0x0F : Nat) = 2 ^ 4 - 1 by rfl, Nat.and_two_pow_sub_one_eq_mod]

theorem fourth_index {z : Nat} : z &&& 0x3F = z % 64 := by
  rw [show (0x3F : Nat) = 2 ^ 6 - 1 by rfl, Nat.and_two_pow_sub_one_eq_mod]

/-- The first byte of a group: six bits and two. -/
theorem first_byte {v0 v1 : Nat} (h1 : v1 < 64) : v0 <<< 2 ||| v1 >>> 4 = v0 * 4 + v1 / 16 := by
  rw [shift_or (by rw [Nat.shiftRight_eq_div_pow]; omega), Nat.shiftRight_eq_div_pow]
  rfl

theorem second_byte {v1 v2 : Nat} (h2 : v2 < 64) :
    (v1 &&& 0x0F) <<< 4 ||| v2 >>> 2 = v1 % 16 * 16 + v2 / 4 := by
  rw [shift_or (by rw [Nat.shiftRight_eq_div_pow]; omega), Nat.shiftRight_eq_div_pow,
    show (0x0F : Nat) = 2 ^ 4 - 1 by rfl, Nat.and_two_pow_sub_one_eq_mod]
  rfl

theorem third_byte {v2 v3 : Nat} (h3 : v3 < 64) :
    (v2 &&& 0x03) <<< 6 ||| v3 = v2 % 4 * 64 + v3 := by
  rw [shift_or (by omega), show (0x03 : Nat) = 2 ^ 2 - 1 by rfl, Nat.and_two_pow_sub_one_eq_mod]
  rfl

/-! ## Groups -/

/-- The character of an index. -/
def charAt (alphabet : Bytes) (i : Nat) : UInt8 := alphabet.getD i 0

/-- A text in groups of four characters of the alphabet, any of which may end in padding. -/
inductive Grouped (alphabet : Bytes) : Bytes → Prop where
  | nil : Grouped alphabet []
  | full {i0 i1 i2 i3 rest} (h0 : i0 < 64) (h1 : i1 < 64) (h2 : i2 < 64) (h3 : i3 < 64)
    (hrest : Grouped alphabet rest) :
    Grouped alphabet (charAt alphabet i0 :: charAt alphabet i1 :: charAt alphabet i2 ::
      charAt alphabet i3 :: rest)
  | onePadding {i0 i1 i2 rest} (h0 : i0 < 64) (h1 : i1 < 64) (h2 : i2 < 64)
    (hrest : Grouped alphabet rest) :
    Grouped alphabet (charAt alphabet i0 :: charAt alphabet i1 :: charAt alphabet i2 ::
      padding :: rest)
  | twoPadding {i0 i1 rest} (h0 : i0 < 64) (h1 : i1 < 64) (hrest : Grouped alphabet rest) :
    Grouped alphabet (charAt alphabet i0 :: charAt alphabet i1 :: padding :: padding :: rest)

/-- A text in groups of four with padding in the last group alone, where the bits that
    are not part of a byte are zero. -/
inductive Canonical (alphabet : Bytes) : Bytes → Prop where
  | nil : Canonical alphabet []
  | full {i0 i1 i2 i3 rest} (h0 : i0 < 64) (h1 : i1 < 64) (h2 : i2 < 64) (h3 : i3 < 64)
    (hrest : Canonical alphabet rest) :
    Canonical alphabet (charAt alphabet i0 :: charAt alphabet i1 :: charAt alphabet i2 ::
      charAt alphabet i3 :: rest)
  | onePadding {i0 i1 i2} (h0 : i0 < 64) (h1 : i1 < 64) (h2 : i2 < 64) (hbits : i2 % 4 = 0) :
    Canonical alphabet [charAt alphabet i0, charAt alphabet i1, charAt alphabet i2, padding]
  | twoPadding {i0 i1} (h0 : i0 < 64) (h1 : i1 < 64) (hbits : i1 % 16 = 0) :
    Canonical alphabet [charAt alphabet i0, charAt alphabet i1, padding, padding]

section Codec
variable {alphabet : Bytes} {decodeChar : UInt8 → Option Nat}

theorem Reads.read (h : Reads alphabet decodeChar) {i : Nat} (hi : i < 64) :
    decodeChar (charAt alphabet i) = some i := h.decode_char i hi

theorem Reads.not_padding (h : Reads alphabet decodeChar) {i : Nat} (hi : i < 64) :
    charAt alphabet i ≠ padding := by
  intro hpad
  have hread := h.read hi
  rw [hpad, h.padding_unread] at hread
  cases hread

theorem decodeQuad_full (h : Reads alphabet decodeChar) {i0 i1 i2 i3 : Nat} (h0 : i0 < 64)
    (h1 : i1 < 64) (h2 : i2 < 64) (h3 : i3 < 64) :
    decodeQuad decodeChar (charAt alphabet i0) (charAt alphabet i1) (charAt alphabet i2)
        (charAt alphabet i3) =
      some [UInt8.ofNat (i0 * 4 + i1 / 16), UInt8.ofNat (i1 % 16 * 16 + i2 / 4),
        UInt8.ofNat (i2 % 4 * 64 + i3)] := by
  rw [← first_byte h1, ← second_byte h2, ← third_byte h3]
  simp [decodeQuad, h.read h0, h.read h1, h.read h2, h.read h3, h.not_padding h2,
    h.not_padding h3]

theorem decodeQuad_onePadding (h : Reads alphabet decodeChar) {i0 i1 i2 : Nat} (h0 : i0 < 64)
    (h1 : i1 < 64) (h2 : i2 < 64) :
    decodeQuad decodeChar (charAt alphabet i0) (charAt alphabet i1) (charAt alphabet i2) padding =
      some [UInt8.ofNat (i0 * 4 + i1 / 16), UInt8.ofNat (i1 % 16 * 16 + i2 / 4)] := by
  rw [← first_byte h1, ← second_byte h2]
  simp [decodeQuad, h.read h0, h.read h1, h.read h2, h.not_padding h2]

theorem decodeQuad_twoPadding (h : Reads alphabet decodeChar) {i0 i1 : Nat} (h0 : i0 < 64)
    (h1 : i1 < 64) :
    decodeQuad decodeChar (charAt alphabet i0) (charAt alphabet i1) padding padding =
      some [UInt8.ofNat (i0 * 4 + i1 / 16)] := by
  rw [← first_byte h1]
  simp [decodeQuad, h.read h0, h.read h1]

/-- A group that decodes has one of the three shapes. -/
theorem decodeQuad_some (h : Reads alphabet decodeChar) {c0 c1 c2 c3 : UInt8} {bytes : Bytes}
    (hquad : decodeQuad decodeChar c0 c1 c2 c3 = some bytes) :
    ∃ i0 i1, i0 < 64 ∧ i1 < 64 ∧ c0 = charAt alphabet i0 ∧ c1 = charAt alphabet i1 ∧
      ((c2 = padding ∧ c3 = padding) ∨ ∃ i2, i2 < 64 ∧ c2 = charAt alphabet i2 ∧
        (c3 = padding ∨ ∃ i3, i3 < 64 ∧ c3 = charAt alphabet i3)) := by
  have hchar {c : UInt8} {i : Nat} (hi : decodeChar c = some i) :
      i < 64 ∧ c = charAt alphabet i := by
    obtain ⟨hlt, heq⟩ := h.char_decode hi
    exact ⟨hlt, heq.symm⟩
  rw [decodeQuad] at hquad
  simp only [Option.bind_eq_bind, Option.bind_eq_some_iff] at hquad
  obtain ⟨i0, h0, i1, h1, hquad⟩ := hquad
  obtain ⟨h0, heq0⟩ := hchar h0
  obtain ⟨h1, heq1⟩ := hchar h1
  refine ⟨i0, i1, h0, h1, heq0, heq1, ?_⟩
  by_cases h2 : c2 = padding
  · by_cases h3 : c3 = padding
    · exact .inl ⟨h2, h3⟩
    · simp [h2, h3] at hquad
  · rw [if_pos h2] at hquad
    simp only [Option.bind_eq_some_iff] at hquad
    obtain ⟨i2, hi2, hquad⟩ := hquad
    obtain ⟨hi2, heq2⟩ := hchar hi2
    refine .inr ⟨i2, hi2, heq2, ?_⟩
    by_cases h3 : c3 = padding
    · exact .inl h3
    · rw [if_pos h3] at hquad
      simp only [Option.bind_eq_some_iff] at hquad
      obtain ⟨i3, hi3, -⟩ := hquad
      exact .inr ⟨i3, hchar hi3⟩

/-! ## Acceptance -/

/-- The decoding loop succeeds on grouped texts. -/
theorem Grouped.decodes (h : Reads alphabet decodeChar) {text : Bytes}
    (htext : Grouped alphabet text) : ∃ bytes, decodeLoop decodeChar text = some bytes := by
  induction htext with
  | nil => exact ⟨[], rfl⟩
  | full h0 h1 h2 h3 _ ih =>
    obtain ⟨bytes, ih⟩ := ih
    rw [decodeLoop, decodeQuad_full h h0 h1 h2 h3, ih]
    exact ⟨_, rfl⟩
  | onePadding h0 h1 h2 _ ih =>
    obtain ⟨bytes, ih⟩ := ih
    rw [decodeLoop, decodeQuad_onePadding h h0 h1 h2, ih]
    exact ⟨_, rfl⟩
  | twoPadding h0 h1 _ ih =>
    obtain ⟨bytes, ih⟩ := ih
    rw [decodeLoop, decodeQuad_twoPadding h h0 h1, ih]
    exact ⟨_, rfl⟩

/-- A filled-up text that decodes is grouped. -/
theorem grouped_of_decodes (h : Reads alphabet decodeChar) {text bytes : Bytes}
    (hlength : text.length % 4 = 0) (hdecode : decodeLoop decodeChar text = some bytes) :
    Grouped alphabet text := by
  induction text using decodeLoop.induct generalizing bytes with
  | case1 c0 c1 c2 c3 rest ih =>
    rw [decodeLoop] at hdecode
    simp only [Option.bind_eq_bind, Option.bind_eq_some_iff] at hdecode
    obtain ⟨quad, hquad, decoded, hrest, -⟩ := hdecode
    have hgrouped : Grouped alphabet rest := by
      refine ih ?_ hrest
      simp only [List.length_cons] at hlength
      omega
    obtain ⟨i0, i1, h0, h1, rfl, rfl, hshape⟩ := decodeQuad_some h hquad
    rcases hshape with ⟨rfl, rfl⟩ | ⟨i2, h2, rfl, rfl | ⟨i3, h3, rfl⟩⟩
    · exact .twoPadding h0 h1 hgrouped
    · exact .onePadding h0 h1 h2 hgrouped
    · exact .full h0 h1 h2 h3 hgrouped
  | case2 text hshort =>
    match text with
    | [] => exact .nil
    | [_] | [_, _] | [_, _, _] => simp at hlength
    | c0 :: c1 :: c2 :: c3 :: rest => exact absurd rfl (hshort c0 c1 c2 c3 rest)

theorem padText_length (text : Bytes) : (padText text).length % 4 = 0 := by
  rw [padText, List.length_append, List.length_replicate]
  omega

/-! ## Encoded texts -/

theorem encodeLoop_one (b0 : UInt8) :
    encodeLoop alphabet true [b0] =
      [charAt alphabet (b0.toNat / 4), charAt alphabet (b0.toNat % 4 * 16), padding,
        padding] := by
  simp only [encodeLoop, encodeTriplet, if_true, List.cons_append, List.nil_append]
  rw [second_index (UInt8.toNat_lt 0), Nat.shiftRight_eq_div_pow]
  rfl

theorem encodeLoop_two (b0 b1 : UInt8) :
    encodeLoop alphabet true [b0, b1] =
      [charAt alphabet (b0.toNat / 4), charAt alphabet (b0.toNat % 4 * 16 + b1.toNat / 16),
        charAt alphabet (b1.toNat % 16 * 4), padding] := by
  simp only [encodeLoop, encodeTriplet, if_true, List.cons_append, List.nil_append]
  rw [if_neg (by omega), second_index b1.toNat_lt, last_index, Nat.shiftRight_eq_div_pow]
  rfl

theorem encodeLoop_three (usePadding : Bool) (b0 b1 b2 : UInt8) (rest : Bytes) :
    encodeLoop alphabet usePadding (b0 :: b1 :: b2 :: rest) =
      charAt alphabet (b0.toNat / 4) :: charAt alphabet (b0.toNat % 4 * 16 + b1.toNat / 16) ::
        charAt alphabet (b1.toNat % 16 * 4 + b2.toNat / 64) :: charAt alphabet (b2.toNat % 64) ::
        encodeLoop alphabet usePadding rest := by
  rw [encodeLoop, encodeTriplet]
  rw [if_neg (by omega), if_neg (by omega), second_index b1.toNat_lt, third_index b2.toNat_lt,
    fourth_index, Nat.shiftRight_eq_div_pow]
  rfl

/-- Filling up looks at the last group alone. -/
theorem padText_group (c0 c1 c2 c3 : UInt8) (text : Bytes) :
    padText (c0 :: c1 :: c2 :: c3 :: text) = c0 :: c1 :: c2 :: c3 :: padText text := by
  have hlength : (text.length + 1 + 1 + 1 + 1) % 4 = text.length % 4 := by omega
  simp only [padText, List.length_cons, List.cons_append, hlength]

/-- Filling up an encoding, with or without padding, gives the padded encoding. -/
theorem padText_encodeLoop (usePadding : Bool) (bytes : Bytes) :
    padText (encodeLoop alphabet usePadding bytes) = encodeLoop alphabet true bytes := by
  induction bytes using encodeLoop.induct with
  | case1 => simp [encodeLoop, padText]
  | case2 b0 => cases usePadding <;> simp [encodeLoop, encodeTriplet, padText]
  | case3 b0 b1 => cases usePadding <;> simp [encodeLoop, encodeTriplet, padText]
  | case4 b0 b1 b2 rest ih => rw [encodeLoop_three, encodeLoop_three, padText_group, ih]

theorem ofNat_eq (b : UInt8) {n : Nat} (h : n = b.toNat) : UInt8.ofNat n = b := by
  rw [h, UInt8.ofNat_toNat]

/-- Decoding undoes encoding. -/
theorem decodeLoop_encodeLoop (h : Reads alphabet decodeChar) (bytes : Bytes) :
    decodeLoop decodeChar (encodeLoop alphabet true bytes) = some bytes := by
  induction bytes using encodeLoop.induct with
  | case1 => rfl
  | case2 b0 =>
    have hb0 := b0.toNat_lt
    rw [encodeLoop_one, decodeLoop, decodeQuad_twoPadding h (by omega) (by omega),
      ofNat_eq b0 (by omega)]
    rfl
  | case3 b0 b1 =>
    have hb0 := b0.toNat_lt
    have hb1 := b1.toNat_lt
    rw [encodeLoop_two, decodeLoop, decodeQuad_onePadding h (by omega) (by omega) (by omega),
      ofNat_eq b0 (by omega), ofNat_eq b1 (by omega)]
    rfl
  | case4 b0 b1 b2 rest ih =>
    have hb0 := b0.toNat_lt
    have hb1 := b1.toNat_lt
    have hb2 := b2.toNat_lt
    rw [encodeLoop_three, decodeLoop,
      decodeQuad_full h (by omega) (by omega) (by omega) (by omega), ih,
      ofNat_eq b0 (by omega), ofNat_eq b1 (by omega), ofNat_eq b2 (by omega)]
    rfl

theorem encodeLoop_canonical (bytes : Bytes) :
    Canonical alphabet (encodeLoop alphabet true bytes) := by
  induction bytes using encodeLoop.induct with
  | case1 => exact .nil
  | case2 b0 =>
    have hb0 := b0.toNat_lt
    rw [encodeLoop_one]
    exact .twoPadding (by omega) (by omega) (by omega)
  | case3 b0 b1 =>
    have hb0 := b0.toNat_lt
    have hb1 := b1.toNat_lt
    rw [encodeLoop_two]
    exact .onePadding (by omega) (by omega) (by omega) (by omega)
  | case4 b0 b1 b2 rest ih =>
    have hb0 := b0.toNat_lt
    have hb1 := b1.toNat_lt
    have hb2 := b2.toNat_lt
    rw [encodeLoop_three]
    exact .full (by omega) (by omega) (by omega) (by omega) ih

theorem toNat_byte {n : Nat} (h : n < 256) : (UInt8.ofNat n).toNat = n :=
  UInt8.toNat_ofNat_of_lt h

/-- A canonical text is the encoding of some bytes. -/
theorem Canonical.encodes {text : Bytes} (htext : Canonical alphabet text) :
    ∃ bytes, encodeLoop alphabet true bytes = text := by
  induction htext with
  | nil => exact ⟨[], rfl⟩
  | @full i0 i1 i2 i3 rest h0 h1 h2 h3 _ ih =>
    obtain ⟨bytes, rfl⟩ := ih
    refine ⟨UInt8.ofNat (i0 * 4 + i1 / 16) :: UInt8.ofNat (i1 % 16 * 16 + i2 / 4) ::
      UInt8.ofNat (i2 % 4 * 64 + i3) :: bytes, ?_⟩
    rw [encodeLoop_three, toNat_byte (by omega), toNat_byte (by omega), toNat_byte (by omega)]
    rw [show (i0 * 4 + i1 / 16) / 4 = i0 by omega,
      show (i0 * 4 + i1 / 16) % 4 * 16 + (i1 % 16 * 16 + i2 / 4) / 16 = i1 by omega,
      show (i1 % 16 * 16 + i2 / 4) % 16 * 4 + (i2 % 4 * 64 + i3) / 64 = i2 by omega,
      show (i2 % 4 * 64 + i3) % 64 = i3 by omega]
  | @onePadding i0 i1 i2 h0 h1 h2 hbits =>
    refine ⟨[UInt8.ofNat (i0 * 4 + i1 / 16), UInt8.ofNat (i1 % 16 * 16 + i2 / 4)], ?_⟩
    rw [encodeLoop_two, toNat_byte (by omega), toNat_byte (by omega),
      show (i0 * 4 + i1 / 16) / 4 = i0 by omega,
      show (i0 * 4 + i1 / 16) % 4 * 16 + (i1 % 16 * 16 + i2 / 4) / 16 = i1 by omega,
      show (i1 % 16 * 16 + i2 / 4) % 16 * 4 = i2 by omega]
  | @twoPadding i0 i1 h0 h1 hbits =>
    refine ⟨[UInt8.ofNat (i0 * 4 + i1 / 16)], ?_⟩
    rw [encodeLoop_one, toNat_byte (by omega), show (i0 * 4 + i1 / 16) / 4 = i0 by omega,
      show (i0 * 4 + i1 / 16) % 4 * 16 = i1 by omega]

end Codec

/-! ## The codec -/

/-- What encoding and decoding over an alphabet guarantee. -/
structure Base64Codec (alphabet : Bytes) (decodeChar : UInt8 → Option Nat) : Prop where
  /-- Encoding fails on an output over the limit alone. -/
  encodes : ∀ {maxStringSize input} usePadding, (input.length + 2) / 3 * 4 ≤ maxStringSize →
    ∃ text, base64EncodeWith maxStringSize input alphabet usePadding = .ok text
  /-- Decoding an encoding, padded or not, gives back the input. -/
  round_trip : ∀ {maxStringSize input usePadding text},
    base64EncodeWith maxStringSize input alphabet usePadding = .ok text →
    base64DecodeWith text decodeChar = some input
  /-- A text is accepted when, filled up with padding, it falls into groups. -/
  accepts_iff : ∀ text,
    (∃ bytes, base64DecodeWith text decodeChar = some bytes) ↔ Grouped alphabet (padText text)
  /-- An accepted text is the encoding of what it decodes to, up to padding at its end,
      when only its last group has padding and no bits that are not zero are dropped. -/
  encoding_iff : ∀ {text bytes}, base64DecodeWith text decodeChar = some bytes →
    (padText text = encodeLoop alphabet true bytes ↔ Canonical alphabet (padText text))
  /-- On such texts decoding is injective, up to padding at the end. -/
  injective : ∀ {text other bytes}, Canonical alphabet (padText text) →
    Canonical alphabet (padText other) → base64DecodeWith text decodeChar = some bytes →
    base64DecodeWith other decodeChar = some bytes → padText text = padText other

theorem Reads.codec {alphabet : Bytes} {decodeChar : UInt8 → Option Nat}
    (h : Reads alphabet decodeChar) : Base64Codec alphabet decodeChar := by
  have hencoding {text bytes : Bytes} (hdecode : base64DecodeWith text decodeChar = some bytes) :
      padText text = encodeLoop alphabet true bytes ↔ Canonical alphabet (padText text) := by
    constructor
    · intro heq
      rw [heq]
      exact encodeLoop_canonical bytes
    · intro hcanonical
      obtain ⟨input, heq⟩ := hcanonical.encodes
      rw [base64DecodeWith, ← heq, decodeLoop_encodeLoop h] at hdecode
      cases hdecode
      exact heq.symm
  constructor
  case encodes =>
    intro maxStringSize input usePadding hfits
    exact ⟨_, if_neg (Nat.not_lt.mpr hfits)⟩
  case round_trip =>
    intro maxStringSize input usePadding text hencode
    rw [base64EncodeWith] at hencode
    split at hencode
    · cases hencode
    · cases hencode
      rw [base64DecodeWith, padText_encodeLoop, decodeLoop_encodeLoop h]
  case accepts_iff =>
    intro text
    constructor
    · rintro ⟨bytes, hdecode⟩
      exact grouped_of_decodes h (padText_length text) hdecode
    · intro hgrouped
      exact hgrouped.decodes h
  case encoding_iff => exact hencoding
  case injective =>
    intro text other bytes htext hother hdecode hdecodeOther
    rw [(hencoding hdecode).mpr htext, (hencoding hdecodeOther).mpr hother]

/-- Both alphabets: the round trip, and which texts are accepted. -/
theorem base64_lenient_codec :
    Base64Codec base64Chars (fun c => base64DecodeChar c 43 47) ∧
      Base64Codec base64urlChars (fun c => base64DecodeChar c 45 95) :=
  ⟨reads_base64.codec, reads_base64url.codec⟩

/-- The text `QR==` decodes, to `A`, and encodes nothing: the encoding of `A` is `QQ==`. -/
theorem accepted_text_not_encoding :
    ¬ ∀ text bytes : Bytes, base64Decode text = some bytes →
      ∃ (maxStringSize : Nat) (input : Bytes) (usePadding : Bool),
        base64EncodeWith maxStringSize input base64Chars usePadding = .ok text := by
  intro h
  obtain ⟨maxStringSize, input, usePadding, hencode⟩ := h [81, 82, 61, 61] [65] (by decide +kernel)
  have hinput : base64Decode [81, 82, 61, 61] = some input :=
    reads_base64.codec.round_trip hencode
  have hdecode : base64Decode [81, 82, 61, 61] = some [65] := by decide +kernel
  cases hinput.symm.trans hdecode
  rw [base64EncodeWith] at hencode
  split at hencode
  · cases hencode
  · revert hencode
    cases usePadding <;> decide +kernel

end Luma.Base64
