-- SUMMARY: Splitting a string at a delimiter, and joining the pieces back.
import Luma.Library.Scanning
import Luma.Stdlib.QueryString

/-! # Text Splitting

Splitting looks for a delimiter from the left and goes on behind each occurrence, so
overlapping occurrences count once. Joining adds up the sizes before it writes anything. -/

namespace Luma.TextSplitting

open Codec QueryString

/-! ## Splitting -/

def splitTooLarge (functionName : String) : ErrorMessage :=
  "String." ++ functionName ++ ": result exceeds maximum array size"

def joinTooLarge : ErrorMessage := "String.join: result exceeds maximum string size"

section Splitting

variable (maxArraySize : Nat) (functionName : String) (delim : Bytes) (maxParts : Option Int64)

/-- The loop on the text from `start` on, and the piece that is left behind it. A round moves
    on by a byte at least, so as many rounds as the text has bytes are enough. -/
def splitLoop : (rounds : Nat) → (parts : Int64) → (elements : List Value) → (rest : Bytes) →
    Except ErrorMessage (List Value)
  | 0, _, elements, rest => .ok (elements ++ [.string rest])
  | rounds + 1, parts, elements, rest =>
    if maxParts.all (parts < ·) then
      match Scanning.splitAtMarker delim rest with
      | none => .ok (elements ++ [.string rest])
      | some (piece, after) =>
        if elements.length ≥ maxArraySize then .error (splitTooLarge functionName)
        else splitLoop rounds (parts + 1) (elements ++ [.string piece]) after
    else .ok (elements ++ [.string rest])

def splitImpl (s : Bytes) : Except ErrorMessage (List Value) :=
  if delim = [] ∨ maxParts.any (· ≤ 1) then .ok [.string s]
  else splitLoop maxArraySize functionName delim maxParts s.length 1 [] s

end Splitting

def split (maxArraySize : Nat) (s delim : Bytes) : Except ErrorMessage (List Value) :=
  splitImpl maxArraySize "split" delim none s

def splitN (maxArraySize : Nat) (s delim : Bytes) (n : Int64) : Except ErrorMessage (List Value) :=
  splitImpl maxArraySize "split_n" delim (some n) s

/-- What is between the occurrences of a delimiter. -/
def piecesOf (s delim : Bytes) : List Bytes := Scanning.cutAtMarkers delim s.length s

/-- What is between the first occurrences of a delimiter, in `n` pieces at most. -/
def piecesOfN (s delim : Bytes) (n : Int64) : List Bytes :=
  Scanning.cutAtMarkers delim (min s.length (n.toInt - 1).toNat) s

/-! ## Joining -/

section Joining

variable (maxStringSize : Nat) (display : Value → Bytes) (sep : Bytes)

def addSize (total size : Nat) : Except ErrorMessage Nat :=
  if size > maxStringSize - total then .error joinTooLarge else .ok (total + size)

/-- The sizes of the elements and of the separators between them. -/
def joinSize : (first : Bool) → (total : Nat) → List Value → Except ErrorMessage Nat
  | _, total, [] => .ok total
  | first, total, elem :: elems => do
    let total ← if first then .ok total else addSize maxStringSize total sep.length
    let total ← addSize maxStringSize total (textOfValue display elem).length
    joinSize false total elems

def joinText : (first : Bool) → (result : Bytes) → List Value → Bytes
  | _, result, [] => result
  | first, result, elem :: elems =>
    joinText false ((if first then result else result ++ sep) ++ textOfValue display elem) elems

def join (elems : List Value) : Except ErrorMessage Bytes := do
  let _ ← joinSize maxStringSize display sep true 0 elems
  return joinText display sep true [] elems

end Joining

section Laws

variable {maxArraySize maxStringSize rounds total : Nat} {functionName : String} {delim rest s sep result piece : Bytes}
  {maxParts : Option Int64} {parts n : Int64} {elements : List Value} {pieces : List Bytes} {display : Value → Bytes}

/-! ## The loop cuts at the delimiters -/

/-- How many cuts may still be made. -/
def cutsLeft (maxParts : Option Int64) (parts : Int64) (rounds : Nat) : Nat :=
  match maxParts with
  | none => rounds
  | some n => min rounds (n.toInt - parts.toInt).toNat

theorem cutsLeft_zero : cutsLeft maxParts parts 0 = 0 := by
  cases maxParts with
  | none => rfl
  | some n => exact Nat.zero_min _

theorem cutsLeft_done (h : maxParts.all (parts < ·) = false) : cutsLeft maxParts parts rounds = 0 := by
  cases maxParts with
  | none => cases h
  | some n =>
    have hle := of_decide_eq_false h
    rw [Int64.lt_iff_toInt_lt] at hle
    rw [cutsLeft, Int.toNat_of_nonpos (by omega), Nat.min_zero]

theorem toInt_add_one (h : parts < n) : (parts + 1).toInt = parts.toInt + 1 := by
  rw [Int64.lt_iff_toInt_lt] at h
  have hn := n.toInt_lt
  have hparts := parts.le_toInt
  rw [Int64.toInt_add, Int64.toInt_one, Int.bmod_eq_of_le] <;> omega

theorem cutsLeft_succ (h : maxParts.all (parts < ·) = true) :
    cutsLeft maxParts parts (rounds + 1) = cutsLeft maxParts (parts + 1) rounds + 1 := by
  cases maxParts with
  | none => rfl
  | some n =>
    have hlt := of_decide_eq_true h
    have hparts := toInt_add_one hlt
    rw [Int64.lt_iff_toInt_lt] at hlt
    rw [cutsLeft, cutsLeft]
    omega

theorem splitLoop_eq (hsize : elements.length ≤ maxArraySize) :
    splitLoop maxArraySize functionName delim maxParts rounds parts elements rest =
      let pieces := Scanning.cutAtMarkers delim (cutsLeft maxParts parts rounds) rest
      if elements.length + pieces.length ≤ maxArraySize + 1 then .ok (elements ++ pieces.map .string)
      else .error (splitTooLarge functionName) := by
  have hlast : elements.length + [rest].length ≤ maxArraySize + 1 := Nat.succ_le_succ hsize
  induction rounds generalizing parts elements rest with
  | zero =>
    rw [cutsLeft_zero]
    exact (if_pos hlast).symm
  | succ rounds ih =>
    rw [splitLoop]
    split
    next hmore =>
      rw [cutsLeft_succ hmore]
      cases h : Scanning.splitAtMarker delim rest with
      | none =>
        rw [Scanning.cutAtMarkers_none h]
        exact (if_pos hlast).symm
      | some found =>
        obtain ⟨piece, after⟩ := found
        rw [Scanning.cutAtMarkers_some h]
        obtain ⟨piece', pieces', hcut, -⟩ := Scanning.cutAtMarkers_eq delim (cutsLeft maxParts (parts + 1) rounds) after
        dsimp only
        by_cases hfull : elements.length ≥ maxArraySize
        · rw [if_pos hfull, if_neg]
          rw [hcut, List.length_cons, List.length_cons]
          omega
        · have hpushed : (elements ++ [Value.string piece]).length = elements.length + 1 := List.length_append
          rw [if_neg hfull, ih (by omega) (by rw [hpushed, List.length_singleton]; omega)]
          simp only [hpushed, List.length_cons, List.map_cons, List.append_assoc, List.singleton_append]
          have hsame (k : Nat) : elements.length + 1 + k = elements.length + (k + 1) := by omega
          rw [hsame]
    next hdone =>
      rw [cutsLeft_done (Bool.eq_false_iff.mpr hdone)]
      exact (if_pos hlast).symm

theorem split_eq (hdelim : delim ≠ []) :
    split maxArraySize s delim =
      if (piecesOf s delim).length ≤ maxArraySize + 1 then .ok ((piecesOf s delim).map .string)
      else .error (splitTooLarge "split") := by
  rw [split, splitImpl, if_neg (by simp [hdelim]), splitLoop_eq (Nat.zero_le _)]
  simp only [List.length_nil, Nat.zero_add, List.nil_append]
  rfl

theorem splitN_eq (hdelim : delim ≠ []) (hn : 1 ≤ n.toInt) :
    splitN maxArraySize s delim n =
      if (piecesOfN s delim n).length ≤ maxArraySize + 1 then .ok ((piecesOfN s delim n).map .string)
      else .error (splitTooLarge "split_n") := by
  have hone : (1 : Int64).toInt = 1 := Int64.toInt_one
  rw [splitN, splitImpl]
  by_cases hsingle : n ≤ 1
  · have hcut : piecesOfN s delim n = [s] := by
      rw [Int64.le_iff_toInt_le, hone] at hsingle
      rw [piecesOfN, Int.toNat_of_nonpos (by omega), Nat.min_zero]
      rfl
    rw [if_pos (.inr (by simp [hsingle])), hcut, if_pos (by simp)]
    rfl
  · rw [if_neg (by simp [hdelim, hsingle]), splitLoop_eq (Nat.zero_le _)]
    simp only [List.length_nil, Nat.zero_add, List.nil_append, cutsLeft, hone]
    rfl

theorem length_piecesOfN_le (hn : 1 ≤ n.toInt) : ((piecesOfN s delim n).length : Int) ≤ n.toInt := by
  have hlength := Scanning.length_cutAtMarkers_le delim (min s.length (n.toInt - 1).toNat) s
  have hmin := Nat.min_le_right s.length (n.toInt - 1).toNat
  rw [piecesOfN]
  omega

/-! ## Joining writes the delimiters back -/

theorem joinText_false :
    joinText display sep false result (pieces.map .string) = result ++ pieces.flatMap (sep ++ ·) := by
  induction pieces generalizing result with
  | nil => exact (List.append_nil _).symm
  | cons piece pieces ih =>
    rw [List.map_cons, joinText, ih, List.flatMap_cons]
    simp only [Bool.false_eq_true, if_false, textOfValue, List.append_assoc]

theorem addSize_ok {size : Nat} (h : total + size ≤ maxStringSize) : addSize maxStringSize total size = .ok (total + size) := by
  rw [addSize, if_neg (by omega)]

theorem joinSize_false (h : total + (pieces.flatMap (sep ++ ·)).length ≤ maxStringSize) :
    joinSize maxStringSize display sep false total (pieces.map .string) =
      .ok (total + (pieces.flatMap (sep ++ ·)).length) := by
  induction pieces generalizing total with
  | nil => rfl
  | cons piece pieces ih =>
    rw [List.flatMap_cons, List.length_append, List.length_append] at h
    rw [List.map_cons, joinSize]
    simp only [Bool.false_eq_true, if_false, textOfValue]
    rw [addSize_ok (by omega)]
    simp only [bind, Except.bind]
    rw [addSize_ok (by omega)]
    dsimp only
    rw [ih (by omega), List.flatMap_cons, List.length_append, List.length_append]
    simp only [Nat.add_assoc]

/-- A text within the limit is joined from its pieces. -/
theorem join_pieces (hs : s = piece ++ pieces.flatMap (sep ++ ·)) (hlimit : s.length ≤ maxStringSize) :
    join maxStringSize display sep ((piece :: pieces).map .string) = .ok s := by
  have hlength : s.length = piece.length + (pieces.flatMap (sep ++ ·)).length := by rw [hs, List.length_append]
  rw [join, List.map_cons, joinSize]
  simp only [if_true, textOfValue, bind, Except.bind]
  rw [addSize_ok (by omega)]
  dsimp only
  rw [joinSize_false (by omega), joinText]
  simp only [if_true, textOfValue, List.nil_append]
  rw [joinText_false, ← hs]
  rfl

theorem join_cutAtMarkers (hlimit : s.length ≤ maxStringSize) :
    join maxStringSize display delim ((Scanning.cutAtMarkers delim rounds s).map .string) = .ok s := by
  obtain ⟨piece, pieces, hcut, hs⟩ := Scanning.cutAtMarkers_eq delim rounds s
  rw [hcut]
  exact join_pieces hs hlimit

end Laws

end Luma.TextSplitting
