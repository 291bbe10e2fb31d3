-- SUMMARY: The recognisers of UTF-8 sequences written apart from the decoder, and their agreement with it.
import Luma.Stdlib.Utf8Codec
import Luma.Stdlib.Base64

/-! # UTF-8 recognisers

The analysis library looks up the bounds of the second byte by the lead byte, as the decoder
does. The encoder module reads a code point first and then rules out overlong forms,
surrogates and values that are too large. -/

namespace Luma.Utf8Codec

open Codec LanguageServer

/-! ## The analysis library -/

/-- The length of a sequence and the bounds of its second byte, by its lead byte. -/
def leadRow (lead : UInt8) : Option (Nat × UInt8 × UInt8) :=
  if 0xC2 ≤ lead ∧ lead ≤ 0xDF then some (2, 0x80, 0xBF)
  else if lead = 0xE0 then some (3, 0xA0, 0xBF)
  else if (0xE1 ≤ lead ∧ lead ≤ 0xEC) ∨ (0xEE ≤ lead ∧ lead ≤ 0xEF) then some (3, 0x80, 0xBF)
  else if lead = 0xED then some (3, 0x80, 0x9F)
  else if lead = 0xF0 then some (4, 0x90, 0xBF)
  else if 0xF1 ≤ lead ∧ lead ≤ 0xF3 then some (4, 0x80, 0xBF)
  else if lead = 0xF4 then some (4, 0x80, 0x8F)
  else none

/-- The length of the well-formed sequence at a position; 0 where there is none. -/
def wellFormedUtf8Length (text : Bytes) (pos : Nat) : Nat :=
  let byteAt (index : Nat) : UInt8 := text.getD index 0
  if text.length ≤ pos then 0
  else if byteAt pos < 0x80 then 1
  else
    match leadRow (byteAt pos) with
    | none => 0
    | some row =>
      if text.length < pos + row.1 ∨ ¬ (row.2.1 ≤ byteAt (pos + 1) ∧ byteAt (pos + 1) ≤ row.2.2) then 0
      else if (List.range' 2 (row.1 - 2)).any fun offset => !(0x80 ≤ byteAt (pos + offset) && byteAt (pos + offset) ≤ 0xBF)
      then 0
      else row.1

/-- The code point of a well-formed sequence of a given length. -/
def decodeWellFormedUtf8 (text : Bytes) (pos length : Nat) : Nat :=
  let lead := (text.getD pos 0).toNat &&& [0x7F, 0x1F, 0x0F, 0x07].getD (length - 1) 0
  (List.range' 1 (length - 1)).foldl (fun codePoint offset => codePoint <<< 6 ||| ((text.getD (pos + offset) 0).toNat &&& 0x3F)) lead

/-! ## The encoder module -/

/-- The length that a lead byte announces, its payload, and the least code point of that length. -/
def leadClass (lead : UInt8) : Option (Nat × Nat × Nat) :=
  if lead &&& 0xE0 = 0xC0 then some (2, lead.toNat &&& 0x1F, 0x80)
  else if lead &&& 0xF0 = 0xE0 then some (3, lead.toNat &&& 0x0F, 0x800)
  else if lead &&& 0xF8 = 0xF0 then some (4, lead.toNat &&& 0x07, 0x10000)
  else none

/-- The code point and the length of the sequence that the bytes start with. -/
def validSequence (bytes : Bytes) : Option (Nat × Nat) :=
  let lead := bytes.getD 0 0
  if lead < 0x80 then some (lead.toNat, 1)
  else
    (leadClass lead).bind fun announced =>
      let len := announced.1
      if bytes.length < len then none
      else if (List.range' 1 (len - 1)).any fun k => bytes.getD k 0 &&& 0xC0 ≠ 0x80 then none
      else
        let cp := (List.range' 1 (len - 1)).foldl (fun cp k => cp <<< 6 ||| ((bytes.getD k 0).toNat &&& 0x3F)) announced.2.1
        if cp < announced.2.2 ∨ 0x10FFFF < cp ∨ (0xD800 ≤ cp ∧ cp ≤ 0xDFFF) then none else some (cp, len)

/-- The loop of the validator over the bytes that are left. Every round takes a byte at least. -/
def isValidUtf8From : Nat → Bytes → Bool
  | _, [] => true
  | 0, _ :: _ => false
  | rounds + 1, lead :: rest =>
    match validSequence (lead :: rest) with
    | none => false
    | some found => isValidUtf8From rounds ((lead :: rest).drop found.2)

def isValidUtf8 (bytes : Bytes) : Bool := isValidUtf8From bytes.length bytes

/-! ## The analysis library agrees with the decoder -/

/-- The two tables of lead bytes are the same. -/
theorem leadRow_eq (lead : UInt8) (h : ¬ lead < 0x80) :
    leadRow lead = if utf8CodepointLen lead = 1 then none
      else some (utf8CodepointLen lead, (secondRange lead).1, (secondRange lead).2) := by
  have hall := Base64.forall_byte (p := fun lead => ¬ lead < 0x80 → leadRow lead = if utf8CodepointLen lead = 1 then none
    else some (utf8CodepointLen lead, (secondRange lead).1, (secondRange lead).2)) (by decide +kernel) lead
  exact hall h

theorem isUtf8Continuation_eq (b : UInt8) : (0x80 ≤ b && b ≤ 0xBF) = isUtf8Continuation b :=
  Base64.forall_byte (p := fun b => (0x80 ≤ b && b ≤ 0xBF) = isUtf8Continuation b) (by decide +kernel) b

theorem payload_eq {lead : UInt8} (h : utf8CodepointLen lead ≠ 1) :
    lead.toNat &&& [0x7F, 0x1F, 0x0F, 0x07].getD (utf8CodepointLen lead - 1) 0 = leadPayload (utf8CodepointLen lead) lead := by
  have hlen := announces lead
  generalize utf8CodepointLen lead = len at h hlen ⊢
  cases hlen with
  | one _ => exact absurd rfl h
  | two _ _ => rfl
  | three _ _ => rfl
  | four _ _ => rfl

/-- Where the analysis library finds a sequence, the decoder finds the same one, and elsewhere it
    reports an ill-formed byte. -/
theorem wellFormedUtf8Length_decode {text : Bytes} {pos : Nat} (hpos : pos < text.length) :
    (wellFormedUtf8Length text pos = 0 ∧ utf8Decode text pos = utf8Invalid) ∨
      (0 < wellFormedUtf8Length text pos ∧ utf8Decode text pos =
        ⟨decodeWellFormedUtf8 text pos (wellFormedUtf8Length text pos), wellFormedUtf8Length text pos⟩) := by
  rw [utf8Decode, wellFormedUtf8Length]
  simp only [Nat.add_zero, if_neg (Nat.not_le.mpr hpos)]
  by_cases hascii : text.getD pos 0 < 0x80
  · have hlow : (text.getD pos 0).toNat &&& 0x7F = (text.getD pos 0).toNat := by
      have hlt : (text.getD pos 0).toNat < 0x80 := UInt8.lt_iff_toNat_lt.mp hascii
      change _ &&& (2 ^ 7 - 1) = _
      rw [Nat.and_two_pow_sub_one_eq_mod, Nat.mod_eq_of_lt hlt]
    rw [if_pos hascii, if_pos hascii]
    exact Or.inr ⟨Nat.one_pos, congrArg (Utf8Decoded.mk · 1) hlow.symm⟩
  · rw [if_neg hascii, if_neg hascii, leadRow_eq _ hascii]
    by_cases hone : utf8CodepointLen (text.getD pos 0) = 1
    · rw [if_pos hone, if_pos (Or.inl hone)]
      exact Or.inl ⟨rfl, rfl⟩
    · rw [if_neg hone]
      simp only [isUtf8Continuation_eq]
      by_cases hshort : text.length < pos + utf8CodepointLen (text.getD pos 0)
      · rw [if_pos (Or.inl hshort), if_pos (Or.inr hshort)]
        exact Or.inl ⟨rfl, rfl⟩
      · rw [if_neg (not_or.mpr ⟨hone, hshort⟩)]
        by_cases hsecond : (secondRange (text.getD pos 0)).1 ≤ text.getD (pos + 1) 0 ∧
            text.getD (pos + 1) 0 ≤ (secondRange (text.getD pos 0)).2
        · rw [if_neg (not_or.mpr ⟨hshort, not_not.mpr hsecond⟩),
            if_neg (not_or.mpr ⟨UInt8.not_lt.mpr hsecond.1, UInt8.not_lt.mpr hsecond.2⟩)]
          by_cases htails : ((List.range' 2 (utf8CodepointLen (text.getD pos 0) - 2)).any fun k =>
              !isUtf8Continuation (text.getD (pos + k) 0)) = true
          · rw [if_pos htails, if_pos htails]
            exact Or.inl ⟨rfl, rfl⟩
          · rw [if_neg htails, if_neg htails, decodeWellFormedUtf8, payload_eq hone]
            refine Or.inr ⟨?_, rfl⟩
            have hlen := announces (text.getD pos 0)
            generalize utf8CodepointLen (text.getD pos 0) = len at hlen
            cases hlen <;> decide
        · rw [if_pos (Or.inr hsecond)]
          rw [not_and_or, UInt8.not_le, UInt8.not_le] at hsecond
          rw [if_pos hsecond]
          exact Or.inl ⟨rfl, rfl⟩

/-! ## The encoder module agrees with the decoder -/

/-- The lead bytes by the length that their high bits announce. -/
theorem leadClass_eq (a : UInt8) :
    leadClass a =
      if 0xC0 ≤ a.toNat ∧ a.toNat < 0xE0 then some (2, a.toNat % 32, 0x80)
      else if 0xE0 ≤ a.toNat ∧ a.toNat < 0xF0 then some (3, a.toNat % 16, 0x800)
      else if 0xF0 ≤ a.toNat ∧ a.toNat < 0xF8 then some (4, a.toNat % 8, 0x10000)
      else none :=
  Base64.forall_byte (p := fun a => leadClass a =
      if 0xC0 ≤ a.toNat ∧ a.toNat < 0xE0 then some (2, a.toNat % 32, 0x80)
      else if 0xE0 ≤ a.toNat ∧ a.toNat < 0xF0 then some (3, a.toNat % 16, 0x800)
      else if 0xF0 ≤ a.toNat ∧ a.toNat < 0xF8 then some (4, a.toNat % 8, 0x10000)
      else none) (by decide +kernel) a

theorem notContinuation_eq (b : UInt8) : decide (b &&& 0xC0 ≠ 0x80) = !isUtf8Continuation b := by
  rw [decide_not]
  rfl

/-- What the validator does behind a lead byte of two, three or four. -/
theorem validSequence_lead {a : UInt8} {s : Bytes} {len payload least : Nat} (ha : 0x80 ≤ a.toNat)
    (hclass : leadClass a = some (len, payload, least)) :
    validSequence (a :: s) =
      if s.length + 1 < len then none
      else if (List.range' 1 (len - 1)).any fun k => !isUtf8Continuation ((a :: s).getD k 0) then none
      else
        let cp := (List.range' 1 (len - 1)).foldl (fun cp k => cp * 64 + ((a :: s).getD k 0).toNat % 64) payload
        if cp < least ∨ 0x10FFFF < cp ∨ (0xD800 ≤ cp ∧ cp ≤ 0xDFFF) then none else some (cp, len) := by
  have hascii : ¬ a < 0x80 := by
    rw [UInt8.lt_iff_toNat_lt]
    exact Nat.not_lt.mpr ha
  rw [validSequence]
  simp only [List.getD_cons_zero, hascii, if_false, hclass, Option.bind_some, push_payload, notContinuation_eq,
    List.length_cons]

/-- The validator takes a sequence of the table whole, whatever comes behind it. -/
theorem Sequence.valid {w : Bytes} (h : Sequence w) (rest : Bytes) :
    validSequence (w ++ rest) = some (scalarOf w, w.length) := by
  cases h with
  | @one a ha =>
    have hascii : a < 0x80 := UInt8.lt_iff_toNat_lt.mpr ha
    rw [List.cons_append, validSequence]
    simp only [List.getD_cons_zero, hascii, if_true]
    rfl
  | @two a b ha ha' hb =>
    have hclass : leadClass a = some (2, a.toNat % 32, 0x80) := by rw [leadClass_eq, if_pos (by omega)]
    have htail := isUtf8Continuation_iff.mpr hb
    rw [Tail] at hb
    rw [List.cons_append, validSequence_lead (by omega) hclass]
    simp [htail, scalarOf]
    omega
  | @three a b c ha ha' hb hc =>
    have hclass : leadClass a = some (3, a.toNat % 16, 0x800) := by rw [leadClass_eq, if_neg (by omega), if_pos (by omega)]
    rw [second_iff] at hb
    have hsecond := isUtf8Continuation_iff.mpr (show Tail b from ⟨by omega, by omega⟩)
    have htail := isUtf8Continuation_iff.mpr hc
    rw [Tail] at hc
    rw [List.cons_append, validSequence_lead (by omega) hclass]
    simp [hsecond, htail, scalarOf, List.range']
    omega
  | @four a b c d ha ha' hb hc hd =>
    have hclass : leadClass a = some (4, a.toNat % 8, 0x10000) := by
      rw [leadClass_eq, if_neg (by omega), if_neg (by omega), if_pos (by omega)]
    rw [second_iff] at hb
    have hsecond := isUtf8Continuation_iff.mpr (show Tail b from ⟨by omega, by omega⟩)
    have hthird := isUtf8Continuation_iff.mpr hc
    have htail := isUtf8Continuation_iff.mpr hd
    rw [Tail] at hc hd
    rw [List.cons_append, validSequence_lead (by omega) hclass]
    simp [hsecond, hthird, htail, scalarOf, List.range']
    omega

/-- What the validator takes is a sequence of the table. -/
theorem validSequence_eq_some {s : Bytes} {found : Nat × Nat} (hs : s ≠ []) (h : validSequence s = some found) :
    ∃ w, Sequence w ∧ w <+: s := by
  obtain ⟨a, s, rfl⟩ := List.exists_cons_of_ne_nil hs
  by_cases hascii : a.toNat < 0x80
  · exact ⟨[a], .one hascii, s, rfl⟩
  · have hclass := leadClass_eq a
    by_cases htwo : 0xC0 ≤ a.toNat ∧ a.toNat < 0xE0
    · rw [if_pos htwo] at hclass
      rw [validSequence_lead (by omega) hclass] at h
      rcases s with _ | ⟨b, s⟩
      · cases h
      · simp [isUtf8Continuation_iff] at h
        obtain ⟨hb, ⟨hleast, -, -⟩, -⟩ := h
        rw [Tail] at hb
        exact ⟨[a, b], .two (by omega) (by omega) hb, s, rfl⟩
    rw [if_neg htwo] at hclass
    by_cases hthree : 0xE0 ≤ a.toNat ∧ a.toNat < 0xF0
    · rw [if_pos hthree] at hclass
      rw [validSequence_lead (by omega) hclass] at h
      rcases s with _ | ⟨b, _ | ⟨c, s⟩⟩
      · cases h
      · cases h
      · simp [isUtf8Continuation_iff, List.range'] at h
        obtain ⟨⟨hb, hc⟩, ⟨hleast, -, hsurrogate⟩, -⟩ := h
        rw [Tail] at hb
        have hsecond : Second a b := second_iff.mpr ⟨hb.1, hb.2, by omega, by omega, by omega, by omega⟩
        exact ⟨[a, b, c], .three hthree.1 (by omega) hsecond hc, s, rfl⟩
    rw [if_neg hthree] at hclass
    by_cases hfour : 0xF0 ≤ a.toNat ∧ a.toNat < 0xF8
    · rw [if_pos hfour] at hclass
      rw [validSequence_lead (by omega) hclass] at h
      rcases s with _ | ⟨b, _ | ⟨c, _ | ⟨d, s⟩⟩⟩
      · cases h
      · cases h
      · cases h
      · simp [isUtf8Continuation_iff, List.range'] at h
        obtain ⟨⟨hb, hc, hd⟩, ⟨hleast, hlimit, -⟩, -⟩ := h
        rw [Tail] at hb
        have hsecond : Second a b := second_iff.mpr ⟨hb.1, hb.2, by omega, by omega, by omega, by omega⟩
        exact ⟨[a, b, c, d], .four hfour.1 (by omega) hsecond hc hd, s, rfl⟩
    rw [if_neg hfour] at hclass
    rw [validSequence] at h
    have hnoAscii : ¬ a < 0x80 := by
      rw [UInt8.lt_iff_toNat_lt]
      exact hascii
    simp only [List.getD_cons_zero, hnoAscii, if_false, hclass] at h
    cases h

/-! ## Agreement -/

/-- What the three recognisers say about the bytes at a position. -/
structure Recognised (s : Bytes) (pos cp len : Nat) : Prop where
  valid : validSequence (s.drop pos) = some (cp, len)
  length : wellFormedUtf8Length s pos = len
  codePoint : decodeWellFormedUtf8 s pos len = cp
  decoded : utf8Decode s pos = ⟨cp, len⟩
  sequence : ∃ w, WellFormed w ∧ w <+: s.drop pos ∧ w.length = len ∧ scalarOf w = cp

/-- That all three refuse them. -/
structure Refused (s : Bytes) (pos : Nat) : Prop where
  valid : validSequence (s.drop pos) = none
  length : wellFormedUtf8Length s pos = 0
  decoded : utf8Decode s pos = utf8Invalid
  sequence : ∀ w, WellFormed w → ¬ w <+: s.drop pos

/-- No sequence is decoded as an ill-formed byte is. -/
theorem Sequence.ne_invalid {w : Bytes} (h : Sequence w) : (⟨scalarOf w, w.length⟩ : Utf8Decoded) ≠ utf8Invalid := by
  intro heq
  obtain ⟨hcp, hlen⟩ := Utf8Decoded.mk.inj heq
  cases h with
  | one ha =>
    change _ = 0xFFFD at hcp
    rw [scalarOf] at hcp
    omega
  | two ha ha' hb => cases hlen
  | three ha ha' hb hc => cases hlen
  | four ha ha' hb hc hd => cases hlen

/-- At every position the recognisers find the same sequence or none. -/
theorem recognised_or_refused {s : Bytes} {pos : Nat} (hpos : pos < s.length) :
    (∃ cp len, Recognised s pos cp len) ∨ Refused s pos := by
  have hne : s.drop pos ≠ [] := by
    rw [ne_eq, List.drop_eq_nil_iff]
    omega
  rcases utf8Decode_front hne with ⟨w, hw, ⟨rest, hrest⟩, hdecode⟩ | ⟨hnone, hdecode⟩
  · rw [← utf8Decode_drop] at hdecode
    rcases wellFormedUtf8Length_decode hpos with ⟨-, hinvalid⟩ | ⟨-, hlength⟩
    · exact absurd (hdecode.symm.trans hinvalid) hw.ne_invalid
    · obtain ⟨hcp, hlen⟩ := Utf8Decoded.mk.inj (hdecode.symm.trans hlength)
      have hvalid := hw.valid rest
      rw [hrest] at hvalid
      refine Or.inl ⟨scalarOf w, w.length, hvalid, hlen.symm, ?_, hdecode, w, wellFormed_iff.mpr hw, ⟨rest, hrest⟩, rfl, rfl⟩
      rw [hlen]
      exact hcp.symm
  · rw [← utf8Decode_drop] at hdecode
    refine Or.inr ⟨?_, ?_, hdecode, fun w hw => hnone w (wellFormed_iff.mp hw)⟩
    · cases hvalid : validSequence (s.drop pos) with
      | none => rfl
      | some found =>
        obtain ⟨w, hw, hprefix⟩ := validSequence_eq_some hne hvalid
        exact absurd hprefix (hnone w hw)
    · rcases wellFormedUtf8Length_decode hpos with ⟨hzero, -⟩ | ⟨-, hsome⟩
      · exact hzero
      · obtain ⟨hcp, hlen⟩ := Utf8Decoded.mk.inj (hsome.symm.trans hdecode)
        rw [hlen] at hcp
        have hlow : decodeWellFormedUtf8 s pos 1 ≤ 0x7F := Nat.and_le_right
        rw [hcp] at hlow
        exact absurd hlow (by decide)

theorem isValidUtf8From_iff {rounds : Nat} {s : Bytes} (h : s.length ≤ rounds) :
    isValidUtf8From rounds s = true ↔ ∃ ws : List Bytes, (∀ w ∈ ws, WellFormed w) ∧ ws.flatten = s := by
  induction rounds generalizing s with
  | zero =>
    obtain rfl := List.length_eq_zero_iff.mp (Nat.le_zero.mp h)
    exact iff_of_true rfl ⟨[], fun w hw => absurd hw List.not_mem_nil, rfl⟩
  | succ rounds ih =>
    cases s with
    | nil => exact iff_of_true rfl ⟨[], fun w hw => absurd hw List.not_mem_nil, rfl⟩
    | cons a s =>
      rw [isValidUtf8From]
      constructor
      · intro hvalid
        split at hvalid
        · cases hvalid
        next found hfound =>
          obtain ⟨w, hw, rest, hrest⟩ := validSequence_eq_some (List.cons_ne_nil a s) hfound
          have hpos := hw.length_pos
          rw [← hrest, hw.valid rest, Option.some.injEq] at hfound
          rw [← hrest, ← hfound, List.drop_left] at hvalid
          have hlength := congrArg List.length hrest
          rw [List.length_append] at hlength
          obtain ⟨ws, hws, hflatten⟩ := (ih (by omega)).mp hvalid
          refine ⟨w :: ws, ?_, ?_⟩
          · intro w' hw'
            rcases List.mem_cons.mp hw' with rfl | hmem
            · exact wellFormed_iff.mpr hw
            · exact hws w' hmem
          · rw [List.flatten_cons, hflatten, hrest]
      · rintro ⟨ws, hws, hflatten⟩
        cases ws with
        | nil => cases hflatten
        | cons w ws =>
          have hw := wellFormed_iff.mp (hws w List.mem_cons_self)
          have hpos := hw.length_pos
          have hlength := congrArg List.length hflatten
          rw [List.flatten_cons] at hflatten
          rw [List.flatten_cons, List.length_append] at hlength
          rw [← hflatten, hw.valid ws.flatten]
          simp only [List.drop_left]
          exact (ih (by omega)).mpr ⟨ws, fun w' hw' => hws w' (List.mem_cons_of_mem _ hw'), rfl⟩

/-- The validator accepts just the strings made of well-formed sequences. -/
theorem isValidUtf8_iff {s : Bytes} : isValidUtf8 s = true ↔ ∃ ws : List Bytes, (∀ w ∈ ws, WellFormed w) ∧ ws.flatten = s :=
  isValidUtf8From_iff (Nat.le_refl _)

end Luma.Utf8Codec
