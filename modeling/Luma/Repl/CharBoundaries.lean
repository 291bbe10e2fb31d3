-- SUMMARY: The character boundaries of an edit buffer, forwards by decoding and backwards by guessing the lead byte.
import Luma.Stdlib.Utf8Codec

/-! # Character boundaries

The editor moves to the right by what the decoder reports. To the left it walks back over
continuation bytes, and takes where it stops for a character if one starts there that ends
at the cursor. -/

namespace Luma.Repl

open Codec LanguageServer Utf8Codec

/-! ## The two steps -/

def nextCharBoundary (buf : Bytes) (pos : Nat) : Nat :=
  if buf.length ≤ pos then buf.length else pos + (utf8Decode buf pos).length

def maxContinuationBytes : Nat := 3

/-- The loop of `prevCharBoundary` from `start` downwards. -/
def walkBack (buf : Bytes) (pos : Nat) : Nat → Nat
  | 0 => 0
  | start + 1 =>
    if pos - (start + 1) ≤ maxContinuationBytes ∧ isUtf8Continuation (buf.getD (start + 1) 0) then
      walkBack buf pos start
    else start + 1

def prevCharBoundary (buf : Bytes) (pos : Nat) : Nat :=
  if pos = 0 then 0
  else
    let pos := min pos buf.length
    let start := walkBack buf pos (pos - 1)
    if start + (utf8Decode buf start).length = pos then start else pos - 1

/-- The positions that stepping forwards from the start of a buffer comes to. -/
inductive Boundary (buf : Bytes) : Nat → Prop where
  | start : Boundary buf 0
  | next {pos} (h : Boundary buf pos) : Boundary buf (nextCharBoundary buf pos)

/-! ## Sequences -/

theorem sequence_length_le {w : Bytes} (h : Sequence w) : w.length ≤ 4 := by
  cases h <;> simp

/-- A sequence starts with a byte that continues none. -/
theorem lead_not_tail {a : UInt8} {w : Bytes} (h : Sequence (a :: w)) : ¬ Tail a := by
  unfold Tail
  cases h <;> omega

/-- The bytes of a sequence behind the first are continuation bytes. -/
theorem tail_of_mem {a b : UInt8} {w : Bytes} (h : Sequence (a :: w)) (hb : b ∈ w) : Tail b := by
  have hsecond {c d : UInt8} (h : Second c d) : Tail d := by
    rw [second_iff] at h
    exact ⟨h.1, h.2.1⟩
  cases h with
  | one _ => cases hb
  | two _ _ hfirst =>
    rw [List.mem_singleton] at hb
    exact hb ▸ hfirst
  | three _ _ hfirst hc =>
    simp only [List.mem_cons, List.not_mem_nil, or_false] at hb
    rcases hb with rfl | rfl
    · exact hsecond hfirst
    · exact hc
  | four _ _ hfirst hc hd =>
    simp only [List.mem_cons, List.not_mem_nil, or_false] at hb
    rcases hb with rfl | rfl | rfl
    · exact hsecond hfirst
    · exact hc
    · exact hd

theorem lead_continuation {a : UInt8} {w : Bytes} (h : Sequence (a :: w)) : isUtf8Continuation a = false := by
  rw [← Bool.not_eq_true, isUtf8Continuation_iff]
  exact lead_not_tail h

variable {buf x w z : Bytes} {pos start : Nat}

theorem getD_middle {a : UInt8} {k : Nat} : (x ++ a :: (w ++ z)).getD (x.length + 1 + k) 0 = (w ++ z).getD k 0 := by
  rw [List.getD_eq_getElem?_getD, List.getD_eq_getElem?_getD, List.getElem?_append_right (by omega)]
  rw [show x.length + 1 + k - x.length = k + 1 by omega, List.getElem?_cons_succ]

/-- Behind a sequence, and within it, the walk stops at its lead byte. -/
theorem walkBack_sequence {a : UInt8} (h : Sequence (a :: w)) {k : Nat} (hk : k ≤ w.length) :
    walkBack (x ++ a :: (w ++ z)) (x.length + 1 + w.length) (x.length + k) = x.length := by
  have hshort := sequence_length_le h
  rw [List.length_cons] at hshort
  induction k with
  | zero =>
    cases hx : x.length with
    | zero => rfl
    | succ n =>
      have hlead : (x ++ a :: (w ++ z)).getD (n + 1) 0 = a := by
        rw [← hx, List.getD_eq_getElem?_getD, List.getElem?_append_right (Nat.le_refl _), Nat.sub_self]
        rfl
      rw [Nat.add_zero, walkBack, hlead, lead_continuation h, if_neg]
      exact fun hboth => Bool.false_ne_true hboth.2
  | succ k ih =>
    have hbyte : (x ++ a :: (w ++ z)).getD (x.length + k + 1) 0 ∈ w := by
      rw [Nat.add_right_comm, getD_middle, List.getD_eq_getElem?_getD, List.getElem?_append_left hk,
        List.getElem?_eq_getElem hk]
      exact List.getElem_mem hk
    have htail := isUtf8Continuation_iff.mpr (tail_of_mem h hbyte)
    have hnear : x.length + 1 + w.length - (x.length + k + 1) ≤ maxContinuationBytes := by
      rw [maxContinuationBytes]
      omega
    rw [← Nat.add_assoc, walkBack, if_pos ⟨hnear, htail⟩]
    exact ih (Nat.le_of_succ_le hk)

theorem walkBack_le : walkBack buf pos start ≤ start := by
  induction start with
  | zero => exact Nat.le_refl 0
  | succ start ih =>
    rw [walkBack]
    split
    · exact Nat.le_succ_of_le ih
    · exact Nat.le_refl _

/-! ## Steps over a sequence -/

theorem utf8Decode_sequence (h : Sequence w) : utf8Decode (x ++ w ++ z) x.length = ⟨scalarOf w, w.length⟩ := by
  rw [utf8Decode_drop, List.append_assoc, List.drop_left, h.decode]

theorem nextCharBoundary_sequence (h : Sequence w) :
    nextCharBoundary (x ++ w ++ z) x.length = x.length + w.length := by
  have hpos := h.length_pos
  rw [nextCharBoundary, if_neg, utf8Decode_sequence h]
  simp only [List.length_append]
  omega

theorem prevCharBoundary_sequence (h : Sequence w) :
    prevCharBoundary (x ++ w ++ z) (x.length + w.length) = x.length := by
  have hpos := h.length_pos
  have hmin : min (x.length + w.length) (x ++ w ++ z).length = x.length + w.length := by
    simp only [List.length_append]
    omega
  have hwalk : walkBack (x ++ w ++ z) (x.length + w.length) (x.length + w.length - 1) = x.length := by
    cases w with
    | nil => exact absurd hpos (Nat.lt_irrefl 0)
    | cons a w =>
      have hstop := walkBack_sequence (x := x) (z := z) h (Nat.le_refl _)
      rw [List.append_assoc, List.cons_append, List.length_cons, Nat.add_succ_sub_one]
      rwa [Nat.add_right_comm] at hstop
  rw [prevCharBoundary, if_neg (by omega)]
  simp only [hmin, hwalk, utf8Decode_sequence h, if_true]

/-! ## Steps over any bytes -/

/-- At the end of the buffer there is nowhere to go. -/
theorem nextCharBoundary_end (hend : buf.length ≤ pos) : nextCharBoundary buf pos = buf.length := if_pos hend

theorem nextCharBoundary_lt (hpos : pos < buf.length) :
    pos < nextCharBoundary buf pos ∧ nextCharBoundary buf pos ≤ buf.length := by
  have hsize := stepping.pos (s := buf.drop pos) (by rw [Ne, List.drop_eq_nil_iff]; omega)
  have hle := stepping.le (buf.drop pos)
  rw [List.length_drop] at hle
  rw [nextCharBoundary, if_neg (Nat.not_le.mpr hpos), utf8Decode_length]
  omega

theorem Boundary.le (h : Boundary buf pos) : pos ≤ buf.length := by
  induction h with
  | start => exact Nat.zero_le _
  | @next pos _ ih =>
    rcases Nat.lt_or_ge pos buf.length with hlt | hge
    · exact (nextCharBoundary_lt hlt).2
    · exact (nextCharBoundary_end hge).le

/-- What the decoder finds at a position: a sequence, or one ill-formed byte. -/
theorem decode_cases (hpos : pos < buf.length) :
    (∃ w z, Sequence w ∧ buf = buf.take pos ++ w ++ z ∧ (utf8Decode buf pos).length = w.length) ∨
      (∀ w, Sequence w → ¬ w <+: buf.drop pos) ∧ (utf8Decode buf pos).length = 1 := by
  have hrest : buf.drop pos ≠ [] := by
    rw [Ne, List.drop_eq_nil_iff]
    omega
  rw [utf8Decode_drop]
  rcases utf8Decode_front hrest with ⟨w, hw, ⟨z, hz⟩, hdecode⟩ | ⟨hnone, hdecode⟩
  · left
    refine ⟨w, z, hw, ?_, by rw [hdecode]⟩
    rw [List.append_assoc, hz, List.take_append_drop]
  · exact .inr ⟨hnone, by rw [hdecode]; rfl⟩

/-- A sequence that starts before a boundary does not reach beyond it. -/
theorem Boundary.not_within (h : Boundary buf pos) (hw : Sequence w) (hstart : start < pos)
    (hat : w <+: buf.drop start) : start + w.length ≤ pos := by
  induction h with
  | start => exact absurd hstart (Nat.not_lt_zero _)
  | @next pos _ ih =>
    have hfits := hat.length_le
    rw [List.length_drop] at hfits
    rcases Nat.lt_or_ge pos buf.length with hlt | hge
    · rcases Nat.lt_trichotomy start pos with hbefore | rfl | hbehind
      · exact Nat.le_trans (ih hbefore) (Nat.le_of_lt (nextCharBoundary_lt hlt).1)
      · obtain ⟨z, hz⟩ := hat
        rw [nextCharBoundary, if_neg (Nat.not_le.mpr hlt), utf8Decode_drop, ← hz, hw.decode]
      · -- the step from `pos` goes over a sequence, in which no other one starts
        rw [nextCharBoundary, if_neg (Nat.not_le.mpr hlt)] at hstart
        rcases decode_cases hlt with ⟨w', z', hw', hbuf, hlength⟩ | ⟨-, hlength⟩
        · rw [hlength] at hstart
          cases w with
          | nil => exact absurd hw.length_pos (Nat.lt_irrefl 0)
          | cons a w =>
            cases w' with
            | nil => exact absurd hw'.length_pos (Nat.lt_irrefl 0)
            | cons a' w' =>
              rw [List.length_cons] at hstart
              have hinside : start - pos - 1 < w'.length := by omega
              have hbyte : buf[start]? = some (w'[start - pos - 1]) := by
                rw [hbuf, List.append_assoc, List.getElem?_append_right (by rw [List.length_take]; omega),
                  List.length_take_of_le (Nat.le_of_lt hlt), List.getElem?_append_left (by rw [List.length_cons]; omega),
                  List.getElem?_cons, if_neg (by omega), List.getElem?_eq_getElem hinside]
              have hlead : buf[start]? = some a := by
                obtain ⟨z, hz⟩ := hat
                have hfirst := congrArg List.head? hz
                rw [List.head?_drop] at hfirst
                exact hfirst.symm
              have hsame := Option.some.inj (hlead.symm.trans hbyte)
              exact absurd (tail_of_mem hw' (hsame ▸ List.getElem_mem hinside)) (lead_not_tail hw)
        · omega
    · rw [nextCharBoundary_end hge] at hstart ⊢
      omega

/-- Stepping back from the boundary behind a boundary leads to it. -/
theorem prevCharBoundary_next (h : Boundary buf pos) (hpos : pos < buf.length) :
    prevCharBoundary buf (nextCharBoundary buf pos) = pos := by
  rcases decode_cases hpos with ⟨w, z, hw, hbuf, hlength⟩ | ⟨hnone, hlength⟩
  · have hfront : (buf.take pos).length = pos := List.length_take_of_le (Nat.le_of_lt hpos)
    rw [nextCharBoundary, if_neg (Nat.not_le.mpr hpos), hlength]
    have hback := prevCharBoundary_sequence (x := buf.take pos) (z := z) hw
    rwa [← hbuf, hfront] at hback
  · -- an ill-formed byte: no sequence that starts before it ends with it
    have hmin : min (pos + 1) buf.length = pos + 1 := Nat.min_eq_left hpos
    have hwalk : walkBack buf (pos + 1) pos ≤ pos := walkBack_le
    rw [nextCharBoundary, if_neg (Nat.not_le.mpr hpos), hlength, prevCharBoundary, if_neg (Nat.succ_ne_zero pos)]
    simp only [hmin, Nat.add_sub_cancel]
    split
    · next hends =>
      rcases Nat.lt_or_ge (walkBack buf (pos + 1) pos) pos with hbefore | hge
      · rcases decode_cases (Nat.lt_trans hbefore hpos) with ⟨w, z, hw, hbuf, hlength'⟩ | ⟨-, hlength'⟩
        · have hat : w <+: buf.drop (walkBack buf (pos + 1) pos) := by
            have hdrop := congrArg (List.drop (walkBack buf (pos + 1) pos)) hbuf
            rw [List.append_assoc, List.drop_left' (List.length_take_of_le (by omega))] at hdrop
            exact ⟨z, hdrop.symm⟩
          have hwithin := h.not_within hw hbefore hat
          omega
        · omega
      · omega
    · rfl

/-- Stepping back from a boundary that is not the start leads to the boundary before it. -/
theorem Boundary.prev (h : Boundary buf pos) (hpos : pos ≠ 0) :
    Boundary buf (prevCharBoundary buf pos) ∧ nextCharBoundary buf (prevCharBoundary buf pos) = pos := by
  induction h with
  | start => exact absurd rfl hpos
  | @next pos h ih =>
    rcases Nat.lt_or_ge pos buf.length with hlt | hge
    · rw [prevCharBoundary_next h hlt]
      exact ⟨h, rfl⟩
    · have hend := Nat.le_antisymm h.le hge
      rw [nextCharBoundary_end hge] at hpos ⊢
      rw [← hend] at hpos ⊢
      exact ih hpos

end Luma.Repl
