-- SUMMARY: The conversions between byte offsets, UTF-16 columns and code-point columns of a line.
import Mathlib.Data.Int.ConditionallyCompleteOrder
import Mathlib.Order.Monotone.Basic
import Mathlib.Data.Set.Function
import Luma.Analysis.LexerCursor

/-! # Position encodings

A place in a line is given by the bytes, by the UTF-16 units or by the code points before
it. Four walks over the line convert between the bytes and the other two. On the places
between characters they are inverse to each other, and the column of the lexer is that of
code points. -/

namespace Luma.LanguageServer

open Codec Luma.Protocol Utf8

/-! ## The walks -/

/-- The loop of `byteOffsetToUtf16Column`. -/
def byteOffsetFrom (line : Bytes) (limit : Nat) : Nat → Nat → Int → Int
  | 0, pos, utf16 => utf16 + (limit - pos : Nat)
  | rounds + 1, pos, utf16 =>
    if pos < limit then
      let seqLen := utf8CodepointLen (line.getD pos 0)
      if pos + seqLen > limit then utf16 + (limit - pos : Nat)
      else if isValidUtf8Run line pos seqLen = false then byteOffsetFrom line limit rounds (pos + 1) (utf16 + 1)
      else byteOffsetFrom line limit rounds (pos + seqLen) (utf16 + if isSupplementarySequence seqLen then 2 else 1)
    else utf16 + (limit - pos : Nat)

def byteOffsetToUtf16Column (line : Bytes) (byteOffset : Nat) : Int :=
  byteOffsetFrom line (min byteOffset line.length) line.length 0 0

/-- The loop of `codepointColumnToByteOffset`. -/
def codepointColumnFrom (line : Bytes) (codepointCol : Int) : Nat → Nat → Int → Nat
  | 0, pos, _ => pos
  | rounds + 1, pos, cols =>
    if pos < line.length ∧ cols < codepointCol then
      codepointColumnFrom line codepointCol rounds (pos + utf8CodepointLen (line.getD pos 0)) (cols + 1)
    else pos

def codepointColumnToByteOffset (line : Bytes) (codepointCol : Int) : Nat :=
  min (codepointColumnFrom line codepointCol line.length 0 0) line.length

/-- The loop of `byteOffsetToCodepointColumn`. -/
def codepointsFrom (line : Bytes) (limit : Nat) : Nat → Nat → Int → Int
  | 0, pos, cols => cols + (limit - pos : Nat)
  | rounds + 1, pos, cols =>
    if pos < limit then
      let seqLen := utf8CodepointLen (line.getD pos 0)
      -- The bytes of a sequence that is cut off count as one column each.
      if pos + seqLen > limit then cols + (limit - pos : Nat)
      else codepointsFrom line limit rounds (pos + seqLen) (cols + 1)
    else cols + (limit - pos : Nat)

def byteOffsetToCodepointColumn (line : Bytes) (byteOffset : Nat) : Int :=
  codepointsFrom line (min byteOffset line.length) line.length 0 0

/-! ## The places between characters -/

/-- The UTF-16 units of a text. -/
def utf16Length (text : List Char) : Nat := (text.map utf16Units).sum

/-- The bytes and the units before the `k`-th character of a line. -/
def byteOffsetAt (line : List Char) (k : Nat) : Nat := (encode (line.take k)).length
def utf16ColumnAt (line : List Char) (k : Nat) : Int := utf16Length (line.take k)

/-- The places between the characters of a line, in the three encodings. -/
def boundaries (line : List Char) : Set Nat := byteOffsetAt line '' Set.Iic line.length
def utf16Columns (line : List Char) : Set Int := utf16ColumnAt line '' Set.Iic line.length
def codepointColumns (line : List Char) : Set Int := Nat.cast '' Set.Iic line.length

section Walks

variable {pre rest : Bytes} {line : List Char} {c : Char} {k rounds limit : Nat} {units target : Int}

theorem utf16Units_pos : 0 < utf16Units c := by
  unfold utf16Units
  split <;> decide

theorem char_length_pos : 0 < (String.utf8EncodeChar c).length :=
  List.length_pos_iff.2 utf8EncodeChar_ne_nil

/-- The walk to a place between characters counts the units of those before it. -/
theorem byteOffsetFrom_encode (hrounds : (encode line).length ≤ rounds)
    (hlimit : limit = pre.length + (encode line).length) :
    byteOffsetFrom (pre ++ (encode line ++ rest)) limit rounds pre.length units = units + utf16Length line := by
  induction line generalizing pre rounds units with
  | nil =>
    rw [encode_nil, List.length_nil, Nat.add_zero] at hlimit
    subst hlimit
    cases rounds <;> simp [byteOffsetFrom, utf16Length]
  | cons c line ih =>
    have hchar := char_length_pos (c := c)
    rw [encode_cons, List.length_append] at hrounds hlimit
    rw [encode_cons, List.append_assoc]
    obtain ⟨rounds, rfl⟩ : ∃ n, rounds = n + 1 := ⟨rounds - 1, by omega⟩
    have hwhole : ¬ pre.length + (String.utf8EncodeChar c).length > limit := by omega
    rw [byteOffsetFrom, if_pos (by omega)]
    simp only [utf8CodepointLen_char, if_neg hwhole, isValidUtf8Run_char, units_char, Bool.true_eq_false, if_false]
    have hwalk : byteOffsetFrom ((pre ++ String.utf8EncodeChar c) ++ (encode line ++ rest)) limit rounds
        (pre ++ String.utf8EncodeChar c).length (units + utf16Units c) = _ :=
      ih (by omega) (by rw [List.length_append]; omega)
    rw [List.append_assoc, List.length_append] at hwalk
    rw [hwalk, utf16Length, utf16Length, List.map_cons, List.sum_cons, Int.natCast_add, Int.add_assoc]

/-- The walk to a place between characters counts those before it. -/
theorem codepointsFrom_encode (hrounds : (encode line).length ≤ rounds)
    (hlimit : limit = pre.length + (encode line).length) :
    codepointsFrom (pre ++ (encode line ++ rest)) limit rounds pre.length units = units + line.length := by
  induction line generalizing pre rounds units with
  | nil =>
    rw [encode_nil, List.length_nil, Nat.add_zero] at hlimit
    subst hlimit
    cases rounds <;> simp [codepointsFrom]
  | cons c line ih =>
    have hchar := char_length_pos (c := c)
    rw [encode_cons, List.length_append] at hrounds hlimit
    rw [encode_cons, List.append_assoc]
    obtain ⟨rounds, rfl⟩ : ∃ n, rounds = n + 1 := ⟨rounds - 1, by omega⟩
    have hwhole : ¬ pre.length + (String.utf8EncodeChar c).length > limit := by omega
    rw [codepointsFrom, if_pos (by omega)]
    simp only [utf8CodepointLen_char, if_neg hwhole]
    have hwalk : codepointsFrom ((pre ++ String.utf8EncodeChar c) ++ (encode line ++ rest)) limit rounds
        (pre ++ String.utf8EncodeChar c).length (units + 1) = _ :=
      ih (by omega) (by rw [List.length_append]; omega)
    rw [List.append_assoc, List.length_append] at hwalk
    rw [hwalk, List.length_cons]
    omega

/-- The walk by columns goes over the characters one by one. -/
theorem codepointColumnFrom_encode (hrounds : (encode line).length ≤ rounds) :
    codepointColumnFrom (pre ++ encode line) target rounds pre.length units =
      pre.length + byteOffsetAt line (target - units).toNat := by
  induction line generalizing pre rounds units with
  | nil => cases rounds <;> simp [codepointColumnFrom, byteOffsetAt]
  | cons c line ih =>
    have hchar := char_length_pos (c := c)
    rw [encode_cons] at hrounds ⊢
    rw [List.length_append] at hrounds
    obtain ⟨rounds, rfl⟩ : ∃ n, rounds = n + 1 := ⟨rounds - 1, by omega⟩
    rw [codepointColumnFrom]
    by_cases hcolumn : (target - units).toNat = 0
    · rw [if_neg (by omega), hcolumn]
      simp [byteOffsetAt]
    · rw [if_pos (by simp only [List.length_append]; omega), utf8CodepointLen_char]
      have hrest : (target - units).toNat = (target - (units + 1)).toNat + 1 := by omega
      have hwalk : codepointColumnFrom ((pre ++ String.utf8EncodeChar c) ++ encode line) target rounds
          (pre ++ String.utf8EncodeChar c).length (units + 1) = _ := ih (by omega)
      rw [List.append_assoc, List.length_append] at hwalk
      rw [hwalk, hrest, byteOffsetAt, byteOffsetAt, List.take_succ_cons, encode_cons, List.length_append]
      omega

end Walks

section Conversions

variable {line : List Char} {c : Char} {k l : Nat}

theorem encode_take_append_drop : encode (line.take k) ++ encode (line.drop k) = encode line := by
  rw [← encode_append, List.take_append_drop]

theorem byteOffsetAt_le : byteOffsetAt line k ≤ (encode line).length := by
  have hsplit := congrArg List.length (encode_take_append_drop (k := k) : _ = encode line)
  rw [List.length_append] at hsplit
  rw [byteOffsetAt]
  omega

theorem byteOffsetToUtf16Column_at : byteOffsetToUtf16Column (encode line) (byteOffsetAt line k) = utf16ColumnAt line k := by
  have hwalk : byteOffsetFrom ([] ++ (encode (line.take k) ++ encode (line.drop k))) (byteOffsetAt line k)
      (encode line).length ([] : Bytes).length 0 = _ := byteOffsetFrom_encode byteOffsetAt_le (Nat.zero_add _).symm
  rw [List.nil_append, encode_take_append_drop, Int.zero_add] at hwalk
  rw [byteOffsetToUtf16Column, Nat.min_eq_left byteOffsetAt_le]
  exact hwalk

theorem byteOffsetToCodepointColumn_at (hk : k ≤ line.length) :
    byteOffsetToCodepointColumn (encode line) (byteOffsetAt line k) = k := by
  have hwalk : codepointsFrom ([] ++ (encode (line.take k) ++ encode (line.drop k))) (byteOffsetAt line k)
      (encode line).length ([] : Bytes).length 0 = _ := codepointsFrom_encode byteOffsetAt_le (Nat.zero_add _).symm
  rw [List.nil_append, encode_take_append_drop, Int.zero_add, List.length_take, Nat.min_eq_left hk] at hwalk
  rw [byteOffsetToCodepointColumn, Nat.min_eq_left byteOffsetAt_le]
  exact hwalk

theorem codepointColumnToByteOffset_at : codepointColumnToByteOffset (encode line) k = byteOffsetAt line k := by
  have hwalk : codepointColumnFrom ([] ++ encode line) k (encode line).length ([] : Bytes).length 0 = _ :=
    codepointColumnFrom_encode (le_refl _)
  rw [List.nil_append, List.length_nil, Nat.zero_add, Int.sub_zero, Int.toNat_natCast] at hwalk
  rw [codepointColumnToByteOffset, hwalk, Nat.min_eq_left byteOffsetAt_le]

theorem charactersBefore_utf16Length (hk : k ≤ line.length) :
    charactersBefore line (utf16Length (line.take k)) = k := by
  induction line generalizing k with
  | nil => rw [List.length_nil, Nat.le_zero] at hk; rw [hk]; rfl
  | cons c line ih =>
    cases k with
    | zero => rfl
    | succ k =>
      have hpos := utf16Units_pos (c := c)
      rw [List.take_succ_cons, utf16Length, List.map_cons, List.sum_cons, charactersBefore, if_neg (by omega),
        Nat.add_sub_cancel_left, ← utf16Length, ih (Nat.le_of_succ_le_succ hk)]

theorem utf16ColumnToByteOffset_at (hk : k ≤ line.length) :
    utf16ColumnToByteOffset (encode line) (utf16ColumnAt line k) = byteOffsetAt line k := by
  rw [utf16ColumnToByteOffset_encode, utf16ColumnAt, Int.toNat_natCast, charactersBefore_utf16Length hk, byteOffsetAt]

theorem byteOffsetAt_end (hk : line.length ≤ k) : byteOffsetAt line k = (encode line).length := by
  rw [byteOffsetAt, List.take_of_length_le hk]

theorem charactersBefore_of_le {column : Nat} (hcolumn : utf16Length line ≤ column) :
    charactersBefore line column = line.length := by
  induction line generalizing column with
  | nil => rfl
  | cons c line ih =>
    have hpos := utf16Units_pos (c := c)
    rw [utf16Length, List.map_cons, List.sum_cons, ← utf16Length] at hcolumn
    rw [charactersBefore, if_neg (by omega), ih (by omega), List.length_cons]

/-- Offsets and columns behind the line are taken to its end. -/
theorem behind_line {i : Nat} {column : Int} (hi : (encode line).length ≤ i) :
    byteOffsetToUtf16Column (encode line) i = utf16ColumnAt line line.length ∧
      byteOffsetToCodepointColumn (encode line) i = line.length ∧
      (utf16ColumnAt line line.length ≤ column → utf16ColumnToByteOffset (encode line) column = (encode line).length) ∧
      (line.length ≤ column → codepointColumnToByteOffset (encode line) column = (encode line).length) := by
  have hend : byteOffsetAt line line.length = (encode line).length := byteOffsetAt_end (le_refl _)
  have hclamp : min i (encode line).length = min (byteOffsetAt line line.length) (encode line).length := by
    rw [hend, Nat.min_eq_right hi, Nat.min_self]
  refine ⟨?_, ?_, fun hcolumn => ?_, fun hcolumn => ?_⟩
  · rw [← byteOffsetToUtf16Column_at, byteOffsetToUtf16Column, byteOffsetToUtf16Column, hclamp]
  · rw [← byteOffsetToCodepointColumn_at (le_refl _), byteOffsetToCodepointColumn, byteOffsetToCodepointColumn, hclamp]
  · rw [utf16ColumnAt, List.take_length] at hcolumn
    rw [utf16ColumnToByteOffset_encode, charactersBefore_of_le (by omega), List.take_length]
  · obtain ⟨k, rfl⟩ : ∃ k : Nat, column = k := ⟨column.toNat, by omega⟩
    rw [codepointColumnToByteOffset_at, byteOffsetAt_end (by omega)]

theorem take_of_lt {text : List Char} (hkl : k < l) (hl : l ≤ text.length) : ∃ c mid, text.take l = text.take k ++ c :: mid := by
  have hk : k < text.length := hkl.trans_le hl
  refine ⟨text[k], (text.drop (k + 1)).take (l - (k + 1)), ?_⟩
  obtain ⟨n, rfl⟩ : ∃ n, l = k + (n + 1) := ⟨l - (k + 1), by omega⟩
  have hn : k + (n + 1) - (k + 1) = n := by omega
  rw [List.take_add, List.drop_eq_getElem_cons hk, List.take_succ_cons, hn]

/-- The places come one after the other in all three encodings. -/
theorem byteOffsetAt_lt (hkl : k < l) (hl : l ≤ line.length) : byteOffsetAt line k < byteOffsetAt line l := by
  obtain ⟨c, mid, htake⟩ := take_of_lt hkl hl
  have hchar := char_length_pos (c := c)
  rw [byteOffsetAt, byteOffsetAt, htake, encode_append, encode_cons, List.length_append, List.length_append]
  omega

theorem utf16ColumnAt_lt (hkl : k < l) (hl : l ≤ line.length) : utf16ColumnAt line k < utf16ColumnAt line l := by
  obtain ⟨c, mid, htake⟩ := take_of_lt hkl hl
  have hpos := utf16Units_pos (c := c)
  rw [utf16ColumnAt, utf16ColumnAt, htake, utf16Length, utf16Length, List.map_append, List.sum_append, List.map_cons,
    List.sum_cons]
  omega

/-- What the conversions of a line have to be: inverse to each other between the places
    given in one encoding and those given in another, and increasing. -/
structure Convertible {α β : Type} [Preorder α] [Preorder β] (f : α → β) (g : β → α) (s : Set α) (t : Set β) : Prop where
  inverse : Set.InvOn g f s t
  mapsTo : Set.MapsTo f s t
  mapsTo' : Set.MapsTo g t s
  strictMono : StrictMonoOn f s
  strictMono' : StrictMonoOn g t

/-- Conversions that agree with two enumerations of the places are inverse and increasing. -/
theorem convertible_of_enumerations {α β : Type} [LinearOrder α] [LinearOrder β] {f : α → β} {g : β → α} {n : Nat}
    {a : Nat → α} {b : Nat → β} (hf : ∀ k ≤ n, f (a k) = b k) (hg : ∀ k ≤ n, g (b k) = a k)
    (ha : StrictMonoOn a (Set.Iic n)) (hb : StrictMonoOn b (Set.Iic n)) :
    Convertible f g (a '' Set.Iic n) (b '' Set.Iic n) where
  inverse := by
    constructor
    · rintro _ ⟨k, hk, rfl⟩
      rw [hf k hk, hg k hk]
    · rintro _ ⟨k, hk, rfl⟩
      rw [hg k hk, hf k hk]
  mapsTo := by
    rintro _ ⟨k, hk, rfl⟩
    exact ⟨k, hk, (hf k hk).symm⟩
  mapsTo' := by
    rintro _ ⟨k, hk, rfl⟩
    exact ⟨k, hk, (hg k hk).symm⟩
  strictMono := by
    rintro _ ⟨k, hk, rfl⟩ _ ⟨l, hl, rfl⟩ hlt
    rw [hf k hk, hf l hl]
    exact hb hk hl ((ha.lt_iff_lt hk hl).mp hlt)
  strictMono' := by
    rintro _ ⟨k, hk, rfl⟩ _ ⟨l, hl, rfl⟩ hlt
    rw [hg k hk, hg l hl]
    exact ha hk hl ((hb.lt_iff_lt hk hl).mp hlt)

end Conversions

end Luma.LanguageServer
