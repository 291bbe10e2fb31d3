-- SUMMARY: Text encodings: strings to arrays of bytes and back.
import Luma.Stdlib.Utf8Recognisers
import Luma.Value.Value

/-! # Text encodings

A string is encoded as an array of integers, one for each byte. ASCII and Latin-1 have one byte
for each code point, and refuse the code points that have none. -/

namespace Luma.Encoder

open Codec Utf8Codec

inductive TextEncoding where
  | utf8
  | ascii
  | latin1
  deriving DecidableEq, Repr

def bytesToArray (bytes : Bytes) : List Value := bytes.map fun c => .integer (Int64.ofNat c.toNat)

/-- The bytes of an array of integers, or what is wrong with it. -/
def readBytes (func : String) : List Value → Except String Bytes
  | [] => .ok []
  | .integer byte :: elements =>
    if byte.toInt < 0 ∨ 255 < byte.toInt then
      .error (func ++ ": byte " ++ toString byte.toInt ++ " is out of range (0–255)")
    else (readBytes func elements).map (UInt8.ofNat byte.toInt.toNat :: ·)
  | _ :: _ => .error (func ++ ": byte array must contain integers")

/-- A code point in hexadecimal, in four digits at least. -/
def hexCodePoint (cp : Nat) : String :=
  let digits := (Nat.toDigits 16 cp).map Char.toUpper
  String.ofList (List.replicate (4 - digits.length) '0' ++ digits)

/-- The loop over the code points, over the bytes that are left. Every round takes a byte at least. -/
def encodeFrom (maxCp : Nat) (label : String) : Nat → Bytes → Except String Bytes
  | _, [] => .ok []
  | 0, _ :: _ => .ok []
  | rounds + 1, lead :: rest =>
    let decoded := utf8Decode (lead :: rest) 0
    if maxCp < decoded.codepoint then
      .error ("Encoder.encode_text: codepoint U+" ++ hexCodePoint decoded.codepoint ++ " is not representable in " ++ label)
    else (encodeFrom maxCp label rounds ((lead :: rest).drop decoded.length)).map (UInt8.ofNat decoded.codepoint :: ·)

def encodeText (text : Bytes) (encoding : TextEncoding) : Except String (List Value) :=
  match encoding with
  | .utf8 => .ok (bytesToArray text)
  | .ascii => (encodeFrom 0x7F "ASCII" text.length text).map bytesToArray
  | .latin1 => (encodeFrom 0xFF "Latin-1" text.length text).map bytesToArray

def decodeText (elements : List Value) (encoding : TextEncoding) : Except String Bytes :=
  (readBytes "Encoder.decode_text" elements).bind fun bytes =>
    match encoding with
    | .utf8 => if isValidUtf8 bytes then .ok bytes else .error "Encoder.decode_text: bytes are not valid UTF-8"
    | .ascii =>
      if bytes.any fun c => 0x7F < c then .error "Encoder.decode_text: byte is not valid ASCII (0–127)" else .ok bytes
    | .latin1 => .ok (bytes.flatMap fun c => utf8Encode c.toNat)

/-! ## Round trips -/

theorem readBytes_bytesToArray (func : String) (bytes : Bytes) : readBytes func (bytesToArray bytes) = .ok bytes := by
  induction bytes with
  | nil => rfl
  | cons c bytes ih =>
    have hlt := c.toNat_lt
    have hbyte : (Int64.ofNat c.toNat).toInt = c.toNat := by
      rw [← Int64.ofInt_eq_ofNat, Int64.toInt_ofInt_of_le (by omega) (by omega)]
    rw [bytesToArray] at ih
    rw [bytesToArray, List.map_cons, readBytes, hbyte, if_neg (by omega), ih, Int.toNat_natCast, UInt8.ofNat_toNat]
    rfl

/-- The code points of a valid string fit into bytes that encode back to it. -/
theorem encodeFrom_spec {maxCp : Nat} {label : String} (hmax : maxCp ≤ 0xFF) {rounds : Nat} {ws : List Bytes}
    (hws : ∀ w ∈ ws, WellFormed w) (hrounds : ws.flatten.length ≤ rounds) {bytes : Bytes}
    (h : encodeFrom maxCp label rounds ws.flatten = .ok bytes) :
    (∀ c ∈ bytes, c.toNat ≤ maxCp) ∧ (bytes.flatMap fun c => utf8Encode c.toNat) = ws.flatten := by
  induction ws generalizing rounds bytes with
  | nil =>
    have hnil : encodeFrom maxCp label rounds [] = .ok [] := by cases rounds <;> rfl
    rw [List.flatten_nil, hnil] at h
    obtain rfl := Except.ok.inj h
    exact ⟨fun c hc => absurd hc List.not_mem_nil, rfl⟩
  | cons w ws ih =>
    have hw := wellFormed_iff.mp (hws w List.mem_cons_self)
    have hpos := hw.length_pos
    rw [List.flatten_cons, List.length_append] at hrounds
    obtain ⟨rounds, rfl⟩ : ∃ n, rounds = n + 1 := ⟨rounds - 1, by omega⟩
    obtain ⟨lead, tail, rfl⟩ := List.exists_cons_of_ne_nil (List.ne_nil_of_length_pos hpos)
    rw [List.flatten_cons, List.cons_append, encodeFrom, ← List.cons_append, hw.decode] at h
    simp only [List.drop_left] at h
    split at h
    · cases h
    next hcp =>
      cases hrest : encodeFrom maxCp label rounds ws.flatten with
      | error e =>
        rw [hrest] at h
        cases h
      | ok rest =>
        rw [hrest] at h
        obtain rfl := Except.ok.inj h
        obtain ⟨hbound, hencoded⟩ := ih (fun w' hw' => hws w' (List.mem_cons_of_mem _ hw')) (by omega) hrest
        have hbyte : (UInt8.ofNat (scalarOf (lead :: tail))).toNat = scalarOf (lead :: tail) := toNat_of_lt (by omega)
        refine ⟨?_, ?_⟩
        · intro c hc
          rcases List.mem_cons.mp hc with rfl | hmem
          · rw [hbyte]
            omega
          · exact hbound c hmem
        · rw [List.flatMap_cons, hbyte, hw.encode.2, hencoded, List.flatten_cons]

/-- ASCII bytes are code points of one byte. -/
theorem flatMap_utf8Encode_ascii {bytes : Bytes} (h : ∀ c ∈ bytes, c.toNat ≤ 0x7F) :
    (bytes.flatMap fun c => utf8Encode c.toNat) = bytes := by
  induction bytes with
  | nil => rfl
  | cons c bytes ih =>
    have hc := h c List.mem_cons_self
    rw [List.flatMap_cons, ih fun d hd => h d (List.mem_cons_of_mem _ hd), utf8Encode_one (by omega), UInt8.ofNat_toNat]
    rfl

/-- What was encoded from a valid string is decoded to it. -/
theorem decodeText_encodeText {text : Bytes} {encoding : TextEncoding} {elements : List Value} (hvalid : isValidUtf8 text = true)
    (h : encodeText text encoding = .ok elements) : decodeText elements encoding = .ok text := by
  obtain ⟨ws, hws, rfl⟩ := isValidUtf8_iff.mp hvalid
  have hbytes : ∀ {maxCp : Nat} {label : String}, maxCp ≤ 0xFF →
      (encodeFrom maxCp label ws.flatten.length ws.flatten).map bytesToArray = .ok elements →
      ∃ bytes, elements = bytesToArray bytes ∧ (∀ c ∈ bytes, c.toNat ≤ maxCp) ∧
        (bytes.flatMap fun c => utf8Encode c.toNat) = ws.flatten := by
    intro maxCp label hmax hmap
    cases hencoded : encodeFrom maxCp label ws.flatten.length ws.flatten with
    | error e =>
      rw [hencoded] at hmap
      cases hmap
    | ok bytes =>
      rw [hencoded] at hmap
      obtain rfl := Except.ok.inj hmap
      exact ⟨bytes, rfl, encodeFrom_spec hmax hws (Nat.le_refl _) hencoded⟩
  cases encoding with
  | utf8 =>
    obtain rfl := Except.ok.inj h
    rw [decodeText, readBytes_bytesToArray, Except.bind]
    simp only
    rw [if_pos hvalid]
  | ascii =>
    obtain ⟨bytes, rfl, hbound, hencoded⟩ := hbytes (by decide) h
    rw [flatMap_utf8Encode_ascii hbound] at hencoded
    have hascii : ¬ (bytes.any fun c => decide (0x7F < c)) = true := by
      rw [List.any_eq_true]
      rintro ⟨c, hc, hlarge⟩
      rw [decide_eq_true_eq, UInt8.lt_iff_toNat_lt] at hlarge
      exact absurd (hbound c hc) (Nat.not_le.mpr hlarge)
    rw [decodeText, readBytes_bytesToArray, Except.bind]
    simp only
    rw [if_neg hascii, hencoded]
  | latin1 =>
    obtain ⟨bytes, rfl, -, hencoded⟩ := hbytes (by decide) h
    rw [decodeText, readBytes_bytesToArray, Except.bind]
    simp only
    rw [hencoded]

/-- The recognisers find the same sequences and code points at every position of every string,
    the validator accepts just the strings made of such sequences, and what is encoded from a
    valid string is decoded to it. -/
theorem recognisers_agree :
    (∀ (s : Bytes) (pos : Nat), pos < s.length → (∃ cp len, Recognised s pos cp len) ∨ Refused s pos) ∧
    (∀ s : Bytes, isValidUtf8 s = true ↔ ∃ ws : List Bytes, (∀ w ∈ ws, WellFormed w) ∧ ws.flatten = s) ∧
    ∀ (text : Bytes) (encoding : TextEncoding) (elements : List Value), isValidUtf8 text = true →
      encodeText text encoding = .ok elements → decodeText elements encoding = .ok text :=
  ⟨fun _ _ => recognised_or_refused, fun _ => isValidUtf8_iff, fun _ _ _ => decodeText_encodeText⟩

end Luma.Encoder
