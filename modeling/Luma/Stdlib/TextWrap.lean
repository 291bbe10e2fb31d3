-- SUMMARY: Greedy wrapping of a text, which breaks a line at the last space written to it.
import Luma.Stdlib.QueryString
import Luma.Stdlib.Utf8Codec
import Mathlib.Data.List.DropRight

/-! # Text Wrapping

The wrapper copies the text and remembers where it wrote the last space of the line. When
the line is full that space, which is among the bytes already written, becomes a newline. -/

namespace Luma.TextWrap

open Codec QueryString Utf8Codec

def newline : UInt8 := 10

/-! ## The loop -/

/-- The variables of the loop. -/
structure Wrapping where
  result : Bytes := []
  col : Nat := 0
  lastSpaceByte : Option Nat := none
  lastSpaceCol : Nat := 0

namespace Wrapping

def writeNewline (st : Wrapping) : Wrapping :=
  { st with result := st.result ++ [newline], col := 0, lastSpaceByte := none }

def writeSpace (st : Wrapping) : Wrapping :=
  { result := st.result ++ [space], col := st.col + 1, lastSpaceByte := some st.result.length, lastSpaceCol := st.col }

/-- A full line is broken at its last space. -/
def breakLine (width : Nat) (st : Wrapping) : Wrapping :=
  match st.lastSpaceByte with
  | none => st
  | some k =>
    if st.col ≥ width then
      { st with result := st.result.set k newline, col := st.col - (st.lastSpaceCol + 1), lastSpaceByte := none }
    else st

def write (st : Wrapping) (piece : Bytes) : Wrapping := { st with result := st.result ++ piece, col := st.col + 1 }

end Wrapping

/-- The loop on the text from `i` on. A round moves on by a byte at least, so as many rounds as
    the text has bytes are enough. -/
def loop (width : Nat) : (rounds : Nat) → Wrapping → Bytes → Bytes
  | 0, st, _ => st.result
  | _ + 1, st, [] => st.result
  | rounds + 1, st, c :: rest =>
    if c = newline then loop width rounds st.writeNewline rest
    else if c = space then loop width rounds st.writeSpace rest
    else
      let cplen := (utf8Decode (c :: rest) 0).length
      loop width rounds ((st.breakLine width).write ((c :: rest).take cplen)) ((c :: rest).drop cplen)

/-- `String.wrap`, which reads the width as unsigned. -/
def wrap (s : Bytes) (width : Int64) : Bytes := loop width.toUInt64.toNat s.length {} s

/-! ## Lines that fit -/

/-- A line without the spaces at its end. -/
def trimSpaces (line : Bytes) : Bytes := line.rdropWhile (· = space)

/-- A line that is narrow enough, or has no space to break it at. -/
def Fits (width : Nat) (line : Bytes) : Prop := (codePoints (trimSpaces line)).length ≤ width ∨ space ∉ trimSpaces line

/-- A byte that was kept, or a space that became a newline. -/
def Kept (a b : UInt8) : Prop := b = a ∨ a = space ∧ b = newline

section Lines

variable {width start col lastCol : Nat} {rest line piece front tail : Bytes} {lines : List Bytes} {st : Wrapping}

theorem trimSpaces_space : trimSpaces (line ++ [space]) = trimSpaces line := List.rdropWhile_concat_pos _ _ _ (by simp)

theorem fits_of_no_space (h : space ∉ line) : Fits width line :=
  .inr fun hmem => h ((List.rdropWhile_prefix _ _).subset hmem)

/-- A line that ends in something else is not trimmed. -/
theorem trimSpaces_append (hne : piece ≠ []) (hspace : space ∉ piece) : trimSpaces (line ++ piece) = line ++ piece := by
  rw [trimSpaces, List.rdropWhile_eq_self_iff]
  intro hall hlast
  rw [List.getLast_append_of_ne_nil hall hne, decide_eq_true_eq] at hlast
  exact hspace (hlast ▸ List.getLast_mem hne)

/-- What is remembered of the last space of a line, which starts at byte `start` of the result
    and in front of `rest`. -/
inductive LastSpace (width start : Nat) (rest line : Bytes) (col lastCol : Nat) : Option Nat → Prop where
  | none (hfree : space ∉ line) : LastSpace width start rest line col lastCol none
  | some {front tail : Bytes} {tailCol : Nat} (hline : line = front ++ space :: tail) (hfree : space ∉ tail)
    (hfront : Fits width front) (htail : Segments.Reaches pieceSize rest tail tailCol)
    (hcol : col = lastCol + 1 + tailCol) :
    LastSpace width start rest line col lastCol (some (start + front.length))

/-- Lines that are finished. -/
def finished (lines : List Bytes) : Bytes := lines.flatMap (· ++ [newline])

theorem finished_snoc : finished (lines ++ [line]) = finished lines ++ (line ++ [newline]) := by
  rw [finished, List.flatMap_append, List.flatMap_singleton]
  rfl

/-- What has been written: lines that are finished, and the line that `col` is in. -/
structure Written (width : Nat) (rest : Bytes) (lines : List Bytes) (line : Bytes) (st : Wrapping) : Prop where
  result : st.result = finished lines ++ line
  fits : ∀ l ∈ lines, newline ∉ l ∧ Fits width l
  free : newline ∉ line
  fitsLine : Fits width line
  reaches : Segments.Reaches pieceSize rest line st.col
  last : LastSpace width (finished lines).length rest line st.col st.lastSpaceCol st.lastSpaceByte

theorem Written.writeNewline (h : Written width (newline :: rest) lines line st) :
    Written width rest (lines ++ [line]) [] st.writeNewline where
  result := by
    rw [finished_snoc, List.append_nil, ← List.append_assoc, ← h.result]
    rfl
  fits := by
    intro l hl
    rcases List.mem_append.mp hl with hl | hl
    · exact h.fits l hl
    · rw [List.mem_singleton.mp hl]
      exact ⟨h.free, h.fitsLine⟩
  free := List.not_mem_nil
  fitsLine := fits_of_no_space List.not_mem_nil
  reaches := .here
  last := .none List.not_mem_nil

theorem Written.writeSpace (h : Written width (space :: rest) lines line st) :
    Written width rest lines (line ++ [space]) st.writeSpace where
  result := by
    rw [← List.append_assoc, ← h.result]
    rfl
  fits := h.fits
  free := by
    rw [List.mem_append, List.mem_singleton]
    rintro (hmem | hsame)
    · exact h.free hmem
    · exact absurd hsame (by decide)
  fitsLine := by
    rw [Fits, trimSpaces_space]
    exact h.fitsLine
  reaches := by
    have hreaches : Segments.Reaches pieceSize ([space] ++ rest) line st.col := h.reaches
    exact hreaches.snoc (List.cons_ne_nil _ _) (congrArg Utf8Decoded.length (utf8Decode_ascii (by decide)))
  last := by
    have hbyte : st.writeSpace.lastSpaceByte = some ((finished lines).length + line.length) := by
      rw [← List.length_append, ← h.result]
      rfl
    rw [hbyte]
    exact .some rfl List.not_mem_nil h.fitsLine .here rfl

/-- Breaking a line leaves one that is not full, or has no space. -/
theorem Written.breakLine (h : Written width rest lines line st) :
    ∃ lines line, Written width rest lines line (st.breakLine width) ∧ ((st.breakLine width).col < width ∨ space ∉ line) := by
  rcases st with ⟨result, col, lastSpaceByte, lastSpaceCol⟩
  have hlast := h.last
  dsimp only at hlast
  cases hlast with
  | none hfree => exact ⟨lines, line, h, .inr hfree⟩
  | @some front tail tailCol hline hfree hfront htail hcol =>
    by_cases hfull : col ≥ width
    · refine ⟨lines ++ [front], tail, ?_, .inr hfree⟩
      rw [Wrapping.breakLine]
      simp only [if_pos hfull]
      have hresult : result = finished lines ++ line := h.result
      have hnewline := h.free
      rw [hline, List.mem_append, List.mem_cons, not_or, not_or] at hnewline
      refine ⟨?_, ?_, hnewline.2.2, fits_of_no_space hfree, ?_, .none hfree⟩
      · dsimp only
        rw [hresult, hline, finished_snoc]
        simp
      · intro l hl
        rcases List.mem_append.mp hl with hl | hl
        · exact h.fits l hl
        · rw [List.mem_singleton.mp hl]
          exact ⟨hnewline.1, hfront⟩
      · dsimp only
        have hsame : col - (lastSpaceCol + 1) = tailCol := by omega
        rw [hsame]
        exact htail
    · refine ⟨lines, line, ?_, .inl ?_⟩
      · rw [Wrapping.breakLine]
        simp only [if_neg hfull]
        exact h
      · rw [Wrapping.breakLine]
        simp only [if_neg hfull]
        omega

theorem Written.write (h : Written width (piece ++ rest) lines line st) (hroom : st.col < width ∨ space ∉ line)
    (hne : piece ≠ []) (hsize : pieceSize (piece ++ rest) = piece.length) (hspace : space ∉ piece)
    (hnewline : newline ∉ piece) : Written width rest lines (line ++ piece) (st.write piece) where
  result := by
    rw [← List.append_assoc, ← h.result]
    rfl
  fits := h.fits
  free := fun hmem => (List.mem_append.mp hmem).elim h.free hnewline
  fitsLine := by
    rcases hroom with hroom | hfree
    · have hreaches := h.reaches.snoc hne hsize
      refine .inl ?_
      rw [trimSpaces_append hne hspace, codePoints, hreaches.length_pieces stepping pieceSize_local]
      exact hroom
    · exact fits_of_no_space fun hmem => (List.mem_append.mp hmem).elim hfree hspace
  reaches := h.reaches.snoc hne hsize
  last := by
    rcases st with ⟨result, col, lastSpaceByte, lastSpaceCol⟩
    have hlast := h.last
    dsimp only [Wrapping.write] at hlast ⊢
    cases hlast with
    | none hfree => exact .none fun hmem => (List.mem_append.mp hmem).elim hfree hspace
    | @some front tail tailCol hline hfree hfront htail hcol =>
      have hline' : line ++ piece = front ++ space :: (tail ++ piece) := by
        rw [hline]
        simp
      have hfree' : space ∉ tail ++ piece := fun hmem => (List.mem_append.mp hmem).elim hfree hspace
      exact .some hline' hfree' hfront (htail.snoc hne hsize) (by omega)

/-! ## Bytes are kept -/

theorem kept_self (s : Bytes) : List.Forall₂ Kept s s := by
  induction s with
  | nil => exact .nil
  | cons c s ih => exact .cons (.inl rfl) ih

theorem kept_append {text result : Bytes} (h : List.Forall₂ Kept text result) (piece : Bytes) :
    List.Forall₂ Kept (text ++ piece) (result ++ piece) := List.rel_append h (kept_self piece)

/-- A space that was written may become a newline. -/
theorem kept_set {text result : Bytes} {k : Nat} (h : List.Forall₂ Kept text result) (hspace : result[k]? = some space) :
    List.Forall₂ Kept text (result.set k newline) := by
  induction h generalizing k with
  | nil => cases hspace
  | @cons a b text result hkept hrest ih =>
    cases k with
    | zero =>
      obtain rfl : b = space := Option.some.inj hspace
      refine .cons (.inr ⟨?_, rfl⟩) hrest
      rcases hkept with hsame | ⟨hsame, -⟩
      · exact hsame.symm
      · exact hsame
    | succ k => exact .cons hkept (ih hspace)

theorem Written.kept_breakLine {text : Bytes} (h : Written width rest lines line st) (hkept : List.Forall₂ Kept text st.result) :
    List.Forall₂ Kept text (st.breakLine width).result := by
  rcases st with ⟨result, col, lastSpaceByte, lastSpaceCol⟩
  have hlast := h.last
  have hresult : result = finished lines ++ line := h.result
  dsimp only at hlast
  cases hlast with
  | none hfree => exact hkept
  | @some front tail tailCol hline hfree hfront htail hcol =>
    rw [Wrapping.breakLine]
    dsimp only
    split
    · refine kept_set hkept ?_
      rw [hresult, hline, List.getElem?_append_right (Nat.le_add_right _ _), Nat.add_sub_cancel_left,
        List.getElem?_append_right (Nat.le_refl _), Nat.sub_self]
      rfl
    · exact hkept

/-! ## The whole loop -/

/-- What the wrapper makes of a text. -/
structure Wraps (width : Nat) (text result : Bytes) : Prop where
  kept : List.Forall₂ Kept text result
  fits : ∀ line ∈ result.splitOn newline, Fits width line

theorem splitOn_finished (hlines : ∀ l ∈ lines, newline ∉ l) (hline : newline ∉ line) :
    (finished lines ++ line).splitOn newline = lines ++ [line] := by
  induction lines with
  | nil => exact List.splitOn_eq_singleton hline
  | cons l lines ih =>
    have hcons : finished (l :: lines) ++ line = l ++ newline :: (finished lines ++ line) := by simp [finished]
    rw [hcons, List.splitOn_append_cons_self_of_not_mem (hlines l List.mem_cons_self),
      ih fun l hl => hlines l (List.mem_cons_of_mem _ hl)]
    rfl

/-- At the end of the text what was written is what is wanted. -/
theorem Written.wraps {text : Bytes} (h : Written width rest lines line st) (hkept : List.Forall₂ Kept text st.result) :
    Wraps width text st.result where
  kept := hkept
  fits := by
    intro l hl
    rw [h.result, splitOn_finished (fun l hl => (h.fits l hl).1) h.free] at hl
    rcases List.mem_append.mp hl with hl | hl
    · exact (h.fits l hl).2
    · rw [List.mem_singleton.mp hl]
      exact h.fitsLine

/-- The rounds that are left keep what was written in order. -/
theorem loop_wraps {text : Bytes} {rounds : Nat} (h : Written width rest lines line st)
    (hkept : List.Forall₂ Kept text st.result) (hrounds : rest.length ≤ rounds) :
    Wraps width (text ++ rest) (loop width rounds st rest) := by
  induction rounds generalizing text rest lines line st with
  | zero =>
    rw [List.length_eq_zero_iff.mp (Nat.le_zero.mp hrounds), List.append_nil]
    exact h.wraps hkept
  | succ rounds ih =>
    cases rest with
    | nil =>
      rw [List.append_nil]
      exact h.wraps hkept
    | cons c rest =>
      rw [List.length_cons] at hrounds
      have hcons : text ++ c :: rest = text ++ [c] ++ rest := by simp
      rw [loop]
      split
      next hc =>
        subst hc
        rw [hcons]
        exact ih h.writeNewline (kept_append hkept _) (by omega)
      next hnewline =>
        split
        next hc =>
          subst hc
          rw [hcons]
          exact ih h.writeSpace (kept_append hkept _) (by omega)
        next hspace =>
          obtain ⟨w, hpiece, hhigh⟩ := take_pieceSize c rest
          have hclean {b : UInt8} (hb : b.toNat < 0x80) (hc : c ≠ b) : b ∉ (c :: rest).take (pieceSize (c :: rest)) := by
            rw [hpiece, List.mem_cons, not_or]
            exact ⟨hc.symm, fun hmem => absurd (hhigh b hmem) (by omega)⟩
          have hle := stepping.le (c :: rest)
          have hpos := stepping.pos (List.cons_ne_nil c rest)
          have hsplit := List.take_append_drop (pieceSize (c :: rest)) (c :: rest)
          obtain ⟨lines, line, hwritten, hroom⟩ := h.breakLine
          rw [← hsplit] at hwritten
          have hnext := hwritten.write hroom (by rw [hpiece]; exact List.cons_ne_nil _ _)
            (by rw [hsplit, List.length_take_of_le hle]) (hclean (by decide) hspace) (hclean (by decide) hnewline)
          have hwraps := ih hnext (kept_append (h.kept_breakLine hkept) _)
            (by rw [List.length_drop, List.length_cons]; omega)
          rw [List.append_assoc, hsplit] at hwraps
          exact hwraps

/-- Wrapping replaces spaces by newlines, and leaves no line that could have been broken. -/
theorem wrap_wraps {s : Bytes} {width : Int64} (hwidth : 0 ≤ width.toInt) : Wraps width.toInt.toNat s (wrap s width) := by
  have hsame : width.toUInt64.toNat = width.toInt.toNat := by
    have hlt := width.toUInt64.toNat_lt
    have hsigned : width.toInt = (width.toUInt64.toNat : Int).bmod (2 ^ 64) := by
      rw [← Int64.toInt_toBitVec, BitVec.toInt_eq_toNat_bmod, Int64.toNat_toBitVec]
    rw [Int.bmod_def] at hsigned
    omega
  have hstart : Written width.toInt.toNat s [] [] {} :=
    ⟨rfl, fun l hl => absurd hl List.not_mem_nil, List.not_mem_nil, fits_of_no_space List.not_mem_nil, .here,
      .none List.not_mem_nil⟩
  rw [wrap, hsame]
  exact loop_wraps hstart .nil (Nat.le_refl _)

end Lines

end Luma.TextWrap
