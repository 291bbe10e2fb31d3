-- SUMMARY: The walks of compaction over a chunk read as dead bytes and whole instructions.
import Luma.Compiler.Compaction

/-! # Compaction of Pieces

A chunk is read as a sequence of pieces: dead bytes and whole live instructions. The
walks of compaction are functions of that sequence: offsets go to counts of live bytes,
and the only operands that change are those of jumps, which follow their targets. -/

namespace Luma

open Codec

namespace Optimizer

/-! ## Pieces -/

/-- A dead byte, or the bytes of a live instruction. -/
inductive Piece where
  | dead
  | live (bytes : Bytes)
  deriving DecidableEq, Repr

namespace Piece

def bytes : Piece → Bytes
  | dead => [deadByte]
  | live w => w

def mask : Piece → List Bool
  | dead => [true]
  | live w => List.replicate w.length false

end Piece

/-- The code that consists of the pieces. -/
def assemble (ps : List Piece) : Bytes := ps.flatMap Piece.bytes

/-- Which bytes of the pieces are dead. -/
def maskOf (ps : List Piece) : List Bool := ps.flatMap Piece.mask

/-- The live instructions, in order. -/
def liveOf (ps : List Piece) : List Bytes :=
  ps.filterMap fun
    | .dead => none
    | .live w => some w

/-- The bytes of exactly one instruction. -/
def Whole (w : Bytes) : Prop :=
  w ≠ [] ∧ isDeadByte (byteAt w 0) = false ∧ instructionSize w 0 = w.length

/-- The code reads as these pieces, and every live one is a whole instruction. -/
structure Reads (code : Bytes) (ps : List Piece) : Prop where
  code_eq : code = assemble ps
  whole : ∀ w, Piece.live w ∈ ps → Whole w

/-- The live instruction `w` starts at `offset`. -/
def LiveAt (ps : List Piece) (offset : Nat) (w : Bytes) : Prop :=
  ∃ pre post, ps = pre ++ .live w :: post ∧ (assemble pre).length = offset

/-- Some piece starts at `offset`, or the code ends there. -/
def StartsAt (ps : List Piece) (offset : Nat) : Prop :=
  ∃ pre post, ps = pre ++ post ∧ (assemble pre).length = offset

/-- How many live instructions start before `offset`. -/
def liveBefore : List Piece → (offset : Nat) → Nat
  | [], _ => 0
  | .dead :: ps, offset => liveBefore ps (offset - 1)
  | .live w :: ps, offset => if offset = 0 then 0 else 1 + liveBefore ps (offset - w.length)

/-- Where the first live instruction at or after `offset` starts, once the instructions
    `qs` stand for the live ones. -/
def imageOf (ps : List Piece) (qs : List Bytes) (offset : Nat) : Nat :=
  (qs.take (liveBefore ps offset)).flatten.length

/-- Where the instruction at `offset` jumps to, if it is a jump. -/
def targetAt (code : Bytes) (offset : Nat) : Option Int :=
  match Op.ofByte (byteAt code offset) with
  | some op => if op.isJump then some (BytecodeVerifier.jumpTarget op code offset) else none
  | none => none

/-- The same instruction, up to the operand of a jump. -/
def SameInstruction (w w' : Bytes) : Prop :=
  byteAt w' 0 = byteAt w 0 ∧ w'.length = w.length ∧ (targetAt w 0 = none → w' = w)

-- The equations of the definitions are derived here, once for all proofs.
section
attribute [local simp] Piece.bytes Piece.mask liveBefore targetAt
end

variable {ps : List Piece} {w : Bytes} {offset : Nat}

@[simp] theorem assemble_nil : assemble [] = [] := rfl

@[simp] theorem assemble_cons (p : Piece) : assemble (p :: ps) = p.bytes ++ assemble ps := rfl

@[simp] theorem maskOf_nil : maskOf [] = [] := rfl

@[simp] theorem maskOf_cons (p : Piece) : maskOf (p :: ps) = p.mask ++ maskOf ps := rfl

@[simp] theorem assemble_append (pre post : List Piece) :
    assemble (pre ++ post) = assemble pre ++ assemble post :=
  List.flatMap_append

@[simp] theorem maskOf_append (pre post : List Piece) : maskOf (pre ++ post) = maskOf pre ++ maskOf post :=
  List.flatMap_append

theorem Piece.length_mask (p : Piece) : p.mask.length = p.bytes.length := by
  cases p with
  | dead => rfl
  | live w => exact List.length_replicate

@[simp] theorem length_maskOf : (maskOf ps).length = (assemble ps).length := by
  induction ps with
  | nil => rfl
  | cons p ps ih => rw [maskOf_cons, assemble_cons, List.length_append, List.length_append, ih, p.length_mask]

@[simp] theorem liveOf_nil : liveOf [] = [] := rfl

@[simp] theorem liveOf_dead : liveOf (.dead :: ps) = liveOf ps := rfl

@[simp] theorem liveOf_live : liveOf (.live w :: ps) = w :: liveOf ps := rfl

theorem Whole.length_pos (h : Whole w) : 0 < w.length := List.length_pos_iff.mpr h.1

/-! ## Reading a piece where it stands -/

theorem byteAt_middle (a b : Bytes) {j : Nat} (h : j < w.length) :
    byteAt (a ++ w ++ b) (a.length + j) = byteAt w j := by
  rw [byteAt, byteAt, List.append_assoc, List.getD_append_right _ _ _ _ (by omega),
    List.getD_append _ _ _ _ (by omega)]
  congr 1
  omega

theorem readU32At_middle (a b : Bytes) {j : Nat} (h : j + 4 ≤ w.length) :
    readU32At (a ++ w ++ b) (a.length + j) = readU32At w j := by
  simp only [readU32At, readU16At, Nat.add_assoc]
  rw [byteAt_middle a b (by omega), byteAt_middle a b (by omega), byteAt_middle a b (by omega),
    byteAt_middle a b (by omega)]

/-- A whole instruction has the same size wherever it stands. -/
theorem Whole.instructionSize_middle (h : Whole w) (a b : Bytes) :
    instructionSize (a ++ w ++ b) a.length = w.length := by
  have hpos := h.length_pos
  have hsize := h.2.2
  have hhead : byteAt (a ++ w ++ b) a.length = byteAt w 0 := byteAt_middle a b hpos
  rw [← hsize]
  unfold instructionSize at hsize ⊢
  rw [hhead]
  cases hop : Op.ofByte (byteAt w 0) with
  | none => rfl
  | some op =>
    rw [hop] at hsize
    simp only at hsize ⊢
    unfold instructionSizeOf at hsize ⊢
    simp only [List.length_append]
    split
    · -- The count byte of a record literal lies inside the instruction.
      have hlong : 3 < w.length := by
        simp only at hsize
        split at hsize <;> omega
      rw [if_neg (by omega), if_neg (by omega), byteAt_middle a b hlong]
    · have hlong : 1 < w.length := by
        simp only at hsize
        split at hsize <;> omega
      rw [if_neg (by omega), if_neg (by omega), byteAt_middle a b hlong]
    · rfl

/-! ## Counting live bytes and live instructions -/

/-- How many live bytes lie before `offset`: its new offset. -/
def liveBytesBefore (ps : List Piece) (offset : Nat) : Nat :=
  ((maskOf ps).take offset).count false

theorem count_maskOf : (maskOf ps).count false = (liveOf ps).flatten.length := by
  induction ps with
  | nil => rfl
  | cons p ps ih =>
    rw [maskOf_cons, List.count_append, ih]
    cases p with
    | dead => simp [Piece.mask]
    | live w => simp [Piece.mask]

theorem liveBytesBefore_append (pre post : List Piece) (d : Nat) :
    liveBytesBefore (pre ++ post) ((assemble pre).length + d) =
      (liveOf pre).flatten.length + liveBytesBefore post d := by
  rw [liveBytesBefore, maskOf_append, ← length_maskOf, List.take_length_add_append,
    List.count_append, count_maskOf, liveBytesBefore]

theorem liveBytesBefore_mono {i j : Nat} (h : i ≤ j) : liveBytesBefore ps i ≤ liveBytesBefore ps j :=
  (List.take_sublist_take_left h).count_le false

/-- New offsets are no further apart than the old ones. -/
theorem liveBytesBefore_add_le (i d : Nat) : liveBytesBefore ps (i + d) ≤ liveBytesBefore ps i + d := by
  rw [liveBytesBefore, List.take_add, List.count_append]
  refine Nat.add_le_add_left ?_ _
  exact List.count_le_length.trans (List.length_take_le _ _)

theorem liveBytesBefore_succ (h : (maskOf ps)[offset]? = some false) :
    liveBytesBefore ps (offset + 1) = liveBytesBefore ps offset + 1 := by
  rw [liveBytesBefore, List.take_add_one, h, List.count_append]
  rfl

theorem liveBytesBefore_lt {i : Nat} (h : (maskOf ps)[offset]? = some false) (hlt : offset < i) :
    liveBytesBefore ps offset < liveBytesBefore ps i := by
  have hmono := @liveBytesBefore_mono ps _ _ (show offset + 1 ≤ i from hlt)
  rw [liveBytesBefore_succ h] at hmono
  exact hmono

theorem liveBytesBefore_all : liveBytesBefore ps (assemble ps).length = (liveOf ps).flatten.length := by
  rw [liveBytesBefore, ← length_maskOf, List.take_length, count_maskOf]

theorem liveBefore_zero : liveBefore ps 0 = 0 := by
  induction ps with
  | nil => rfl
  | cons p ps ih =>
    cases p with
    | dead => exact ih
    | live w => rfl

theorem liveBefore_append {pre : List Piece} (hwhole : ∀ w, Piece.live w ∈ pre → Whole w)
    (post : List Piece) (d : Nat) :
    liveBefore (pre ++ post) ((assemble pre).length + d) = (liveOf pre).length + liveBefore post d := by
  induction pre with
  | nil => simp
  | cons p pre ih =>
    have htail := ih fun w hw => hwhole w (List.mem_cons_of_mem _ hw)
    cases p with
    | dead =>
      rw [List.cons_append, liveBefore, assemble_cons, liveOf_dead, ← htail]
      congr 1
      simp only [Piece.bytes, List.length_append, List.length_singleton]
      omega
    | live w =>
      have hpos := (hwhole w List.mem_cons_self).length_pos
      rw [List.cons_append, liveBefore, assemble_cons, liveOf_live, List.length_cons, Nat.add_right_comm,
        ← htail, if_neg (by simp only [Piece.bytes, List.length_append]; omega), Nat.add_comm]
      congr 2
      simp only [Piece.bytes, List.length_append]
      omega

/-! ## Images of offsets -/

theorem flatten_take_length {ws qs : List Bytes} (hsame : List.Forall₂ SameInstruction ws qs) (n : Nat) :
    (qs.take n).flatten.length = (ws.take n).flatten.length := by
  have hlengths : qs.map List.length = ws.map List.length := by
    induction hsame with
    | nil => rfl
    | cons hhead _ ih => rw [List.map_cons, List.map_cons, hhead.2.1, ih]
  rw [List.length_flatten, List.length_flatten, List.map_take, List.map_take, hlengths]

theorem liveOf_append (pre post : List Piece) : liveOf (pre ++ post) = liveOf pre ++ liveOf post :=
  List.filterMap_append

/-- Every offset inside the code starts a piece or lies inside a live instruction. -/
theorem startsAt_or_inside {t : Nat} (ht : t ≤ (assemble ps).length) :
    StartsAt ps t ∨ ∃ pre w post d, ps = pre ++ .live w :: post ∧ t = (assemble pre).length + d ∧
      0 < d ∧ d < w.length := by
  induction ps generalizing t with
  | nil => exact .inl ⟨[], [], rfl, (Nat.le_zero.mp ht).symm⟩
  | cons p ps ih =>
    by_cases hzero : t = 0
    · exact .inl ⟨[], p :: ps, rfl, by simp [hzero]⟩
    by_cases hlt : t < p.bytes.length
    · cases p with
      | dead =>
        simp only [Piece.bytes, List.length_singleton] at hlt
        omega
      | live w => exact .inr ⟨[], w, ps, t, rfl, by simp, by omega, hlt⟩
    · rw [assemble_cons, List.length_append] at ht
      obtain ⟨pre, post, hps, hlen⟩ | ⟨pre, w, post, d, hps, hlen, hd, hdw⟩ :=
        ih (t := t - p.bytes.length) (by omega)
      · refine .inl ⟨p :: pre, post, by rw [hps]; rfl, ?_⟩
        rw [assemble_cons, List.length_append]
        omega
      · refine .inr ⟨p :: pre, w, post, d, by rw [hps]; rfl, ?_, hd, hdw⟩
        rw [assemble_cons, List.length_append]
        omega

section Images

variable {qs : List Bytes} (hwhole : ∀ w, Piece.live w ∈ ps → Whole w)
  (hsame : List.Forall₂ SameInstruction (liveOf ps) qs)

include hwhole hsame

/-- At a start, the image counts the live bytes before it. -/
theorem imageOf_start {t : Nat} (h : StartsAt ps t) : imageOf ps qs t = liveBytesBefore ps t := by
  obtain ⟨pre, post, rfl, rfl⟩ := h
  have hpre : ∀ w, Piece.live w ∈ pre → Whole w := fun w hw => hwhole w (List.mem_append_left _ hw)
  have hcount := liveBefore_append hpre post 0
  have hbytes := liveBytesBefore_append pre post 0
  rw [Nat.add_zero, liveBefore_zero, Nat.add_zero] at hcount
  rw [Nat.add_zero] at hbytes
  rw [imageOf, hcount, flatten_take_length hsame, liveOf_append, List.take_left, hbytes]
  rfl

/-- Inside an instruction, the image lies behind the live bytes before it. -/
theorem starts_of_imageOf_eq {t : Nat} (ht : t ≤ (assemble ps).length)
    (h : imageOf ps qs t = liveBytesBefore ps t) : StartsAt ps t := by
  obtain hstart | ⟨pre, w, post, d, rfl, rfl, hd, hdw⟩ := startsAt_or_inside ht
  · exact hstart
  have hpre : ∀ w, Piece.live w ∈ pre → Whole w := fun w hw => hwhole w (List.mem_append_left _ hw)
  have hcount := liveBefore_append hpre (.live w :: post) d
  have hbytes := liveBytesBefore_append pre (.live w :: post) d
  have hinside : liveBefore (.live w :: post) d = 1 := by
    rw [liveBefore, if_neg (by omega), show d - w.length = 0 by omega, liveBefore_zero]
  have hd' : liveBytesBefore (.live w :: post) d ≤ d := by
    have hle := @liveBytesBefore_add_le (.live w :: post) 0 d
    rw [Nat.zero_add] at hle
    exact hle.trans (by simp [liveBytesBefore])
  rw [imageOf, hcount, hinside, flatten_take_length hsame, liveOf_append, liveOf_live,
    List.take_length_add_append, List.flatten_append, List.length_append, hbytes] at h
  simp only [List.take_succ_cons, List.take_zero, List.flatten_cons, List.flatten_nil, List.append_nil] at h
  omega

end Images

theorem LiveAt.starts (h : LiveAt ps offset w) : StartsAt ps offset := by
  obtain ⟨pre, post, hps, hlen⟩ := h
  exact ⟨pre, .live w :: post, hps, hlen⟩

/-- The bytes of a live instruction are live. -/
theorem LiveAt.mask (h : LiveAt ps offset w) {d : Nat} (hd : d < w.length) :
    (maskOf ps)[offset + d]? = some false := by
  obtain ⟨pre, post, rfl, rfl⟩ := h
  rw [maskOf_append, maskOf_cons, ← length_maskOf, List.getElem?_append_right (Nat.le_add_right _ _),
    Nat.add_sub_cancel_left, List.getElem?_append_left (by simpa [Piece.mask] using hd)]
  simp [Piece.mask, hd]

/-! ## The passes over pieces -/

theorem isDeadByte_middle (hw : Whole w) (a b : Bytes) :
    isDeadByte (byteAt (a ++ w ++ b) a.length) = false := by
  have hhead : byteAt (a ++ w ++ b) a.length = byteAt w 0 := byteAt_middle a b hw.length_pos
  rw [hhead]
  exact hw.2.1

/-- The marking walk finds the dead pieces. -/
theorem markDead_assemble (pre : List Piece) (hwhole : ∀ w, Piece.live w ∈ ps → Whole w) {fuel : Nat}
    (hfuel : (assemble ps).length ≤ fuel) :
    markDead (assemble (pre ++ ps)) fuel (assemble pre).length
      (maskOf pre ++ List.replicate (assemble ps).length false) = maskOf (pre ++ ps) := by
  induction ps generalizing pre fuel with
  | nil =>
    cases fuel with
    | zero => simp [markDead]
    | succ fuel => simp [markDead]
  | cons p ps ih =>
    have htail : ∀ w, Piece.live w ∈ ps → Whole w := fun w hw => hwhole w (List.mem_cons_of_mem _ hw)
    have hcode : assemble (pre ++ p :: ps) = assemble pre ++ p.bytes ++ assemble ps := by
      rw [assemble_append, assemble_cons, List.append_assoc]
    have hstep := @ih (pre ++ [p]) htail (fuel - 1)
    rw [List.append_assoc, List.singleton_append] at hstep
    simp only [assemble_append, assemble_cons, assemble_nil, List.append_nil, List.length_append,
      maskOf_append, maskOf_cons, maskOf_nil] at hstep hfuel ⊢
    cases p with
    | dead =>
      simp only [Piece.bytes, Piece.mask, List.length_singleton] at hstep hfuel ⊢
      obtain ⟨fuel, rfl⟩ : ∃ n, fuel = n + 1 := ⟨fuel - 1, by omega⟩
      have hhead : byteAt (assemble pre ++ ([deadByte] ++ assemble ps)) (assemble pre).length = deadByte := by
        have hmiddle := byteAt_middle (w := [deadByte]) (assemble pre) (assemble ps) (j := 0) Nat.one_pos
        rw [List.append_assoc] at hmiddle
        exact hmiddle
      have hset : (maskOf pre ++ List.replicate (1 + (assemble ps).length) false).set (assemble pre).length true =
          maskOf pre ++ [true] ++ List.replicate (assemble ps).length false := by
        rw [List.set_append_right _ _ (by simp), length_maskOf, Nat.sub_self, Nat.add_comm,
          List.replicate_succ, List.set_cons_zero, List.append_assoc]
        rfl
      rw [markDead, if_pos (by simp), hhead, if_pos (by rfl), hset]
      exact hstep (by omega)
    | live w =>
      have hw : Whole w := hwhole w List.mem_cons_self
      have hpos := hw.length_pos
      simp only [Piece.bytes, Piece.mask] at hstep hfuel ⊢
      obtain ⟨fuel, rfl⟩ : ∃ n, fuel = n + 1 := ⟨fuel - 1, by omega⟩
      have hdead := isDeadByte_middle hw (assemble pre) (assemble ps)
      have hsize := hw.instructionSize_middle (assemble pre) (assemble ps)
      rw [List.append_assoc] at hdead hsize
      rw [markDead, if_pos (by simp only [List.length_append]; omega), hdead, if_neg Bool.false_ne_true, hsize,
        List.replicate_add, ← List.append_assoc (maskOf pre)]
      exact hstep (by omega)

theorem length_offsetMapFrom (dead : List Bool) (n : Nat) : (offsetMapFrom dead n).length = dead.length + 1 := by
  induction dead generalizing n with
  | nil => rfl
  | cons d dead ih => rw [offsetMapFrom, List.length_cons, ih, List.length_cons]

theorem offsetMapFrom_getD (dead : List Bool) (n : Nat) {t : Nat} (ht : t ≤ dead.length) :
    (offsetMapFrom dead n).getD t 0 = n + (dead.take t).count false := by
  induction dead generalizing n t with
  | nil =>
    obtain rfl : t = 0 := Nat.le_zero.mp ht
    rfl
  | cons d dead ih =>
    cases t with
    | zero => rfl
    | succ t =>
      rw [offsetMapFrom, List.getD_cons_succ, ih _ (Nat.le_of_succ_le_succ ht), List.take_succ_cons]
      cases d with
      | true => simp
      | false =>
        simp only [Bool.false_eq_true, if_false, List.count_cons_self]
        omega

/-- The offset map counts live bytes. -/
theorem offsetMap_getD {t : Nat} (ht : t ≤ (assemble ps).length) :
    (offsetMapFrom (maskOf ps) 0).getD t 0 = liveBytesBefore ps t := by
  rw [offsetMapFrom_getD _ _ (by simpa using ht), Nat.zero_add, liveBytesBefore]

@[simp] theorem length_offsetMap :
    (offsetMapFrom (maskOf ps) 0).length = (assemble ps).length + 1 := by
  rw [length_offsetMapFrom, length_maskOf]

/-! ## Relocated instructions -/

/-- The instruction `w` at `i`, with the operand the walk gives it. -/
def relocated (offsetMap : List Nat) (size i : Nat) (w : Bytes) : Bytes :=
  match Op.ofByte (byteAt w 0) with
  | some op =>
    match newOperand offsetMap size op i (readU32At w 1) with
    | some operand => patchU32Be w 1 operand
    | none => w
  | none => w

/-- The pieces from offset `i` on, with their operands. -/
def relocatePieces (offsetMap : List Nat) (size : Nat) : (i : Nat) → List Piece → List Piece
  | _, [] => []
  | i, .dead :: ps => .dead :: relocatePieces offsetMap size (i + 1) ps
  | i, .live w :: ps =>
    .live (relocated offsetMap size i w) :: relocatePieces offsetMap size (i + w.length) ps

/-- Only a jump gets a new operand. -/
theorem newOperand_eq_none {offsetMap : List Nat} {size : Nat} {op : Op} {i rel : Nat}
    (h : op.isJump = false) : newOperand offsetMap size op i rel = none := by
  have hno : ¬ (op.isForwardJump = true ∨ op = .loop) := fun hor => by
    rw [← Op.isJump_iff, h] at hor
    exact absurd hor Bool.false_ne_true
  rw [not_or] at hno
  rw [newOperand, if_neg hno.1, if_neg hno.2]

theorem Whole.length_of_jump {op : Op} (hw : Whole w) (hop : Op.ofByte (byteAt w 0) = some op)
    (hjump : op.isJump = true) : w.length = 5 := by
  have hsize := hw.2.2
  have hbase := Op.opcodeBaseSize_of_isJump hjump
  rw [instructionSize, hop] at hsize
  rw [← hsize, ← hbase]
  cases op <;> first | rfl | exact absurd hjump (by decide)

theorem patchU32Be_middle (a b : Bytes) (operand : Nat) (hlen : w.length = 5) :
    patchU32Be (a ++ w ++ b) (a.length + 1) operand = a ++ patchU32Be w 1 operand ++ b := by
  have htake : (a ++ w ++ b).take (a.length + 1) = a ++ w.take 1 := by
    rw [List.append_assoc, List.take_length_add_append, List.take_append_of_le_length (by omega)]
  have hdrop : (a ++ w ++ b).drop (a.length + 1 + 4) = b := by
    rw [show a.length + 1 + 4 = (a ++ w).length by rw [List.length_append]; omega, List.drop_left]
  have hnone : w.drop (1 + 4) = [] := List.drop_eq_nil_iff.mpr (by omega)
  rw [patchU32Be, patchU32Be, htake, hdrop, hnone]
  simp only [List.append_assoc, List.nil_append]

theorem length_patchU32Be (operand : Nat) (hlen : w.length = 5) : (patchU32Be w 1 operand).length = 5 := by
  simp only [patchU32Be, List.length_append, List.length_take, writeIntBe_length, List.length_drop]
  omega

theorem byteAt_patchU32Be (operand : Nat) (hlen : w.length = 5) :
    byteAt (patchU32Be w 1 operand) 0 = byteAt w 0 := by
  cases w with
  | nil => exact absurd hlen (by decide)
  | cons byte w => rfl

theorem readU32At_patchU32Be (operand : Nat) (hlen : w.length = 5) :
    readU32At (patchU32Be w 1 operand) 1 = operand % 4294967296 := by
  cases w with
  | nil => exact absurd hlen (by decide)
  | cons byte w =>
    simp only [patchU32Be, readU32At, readU16At, byteAt, writeIntBe, List.take_succ_cons, List.take_zero,
      List.cons_append, List.nil_append, List.getD_cons_succ, List.getD_cons_zero, UInt8.toNat_ofNat',
      Nat.shiftRight_eq_div_pow]
    omega

theorem readU32At_lt (code : Bytes) (offset : Nat) : readU32At code offset < 4294967296 := by
  have hbyte := fun i => (byteAt code i).toNat_lt
  have h0 := hbyte offset
  have h1 := hbyte (offset + 1)
  have h2 := hbyte (offset + 2)
  have h3 := hbyte (offset + 2 + 1)
  simp only [readU32At, readU16At]
  omega

theorem castU32_of_le {a b : Nat} (hle : b ≤ a) (hlt : a - b < 4294967296) :
    castU32 ((a : Int) - b) = a - b := by
  rw [castU32]
  omega

/-- A relocated instruction is the instruction, up to the operand of a jump. -/
theorem relocated_same (hw : Whole w) (offsetMap : List Nat) (size i : Nat) :
    SameInstruction w (relocated offsetMap size i w) ∧ Whole (relocated offsetMap size i w) := by
  have hself : SameInstruction w w := ⟨rfl, rfl, fun _ => rfl⟩
  unfold relocated
  cases hop : Op.ofByte (byteAt w 0) with
  | none => exact ⟨hself, hw⟩
  | some op =>
    simp only
    cases hnew : newOperand offsetMap size op i (readU32At w 1) with
    | none => exact ⟨hself, hw⟩
    | some operand =>
      have hjump : op.isJump = true := by
        by_contra hno
        rw [newOperand_eq_none (Bool.eq_false_iff.mpr hno)] at hnew
        cases hnew
      have hlen := hw.length_of_jump hop hjump
      have hhead := byteAt_patchU32Be operand hlen
      have hlength := length_patchU32Be operand hlen
      refine ⟨⟨hhead, hlength.trans hlen.symm, fun htarget => ?_⟩, ?_, ?_, ?_⟩
      · rw [targetAt, hop] at htarget
        simp only [hjump, if_true] at htarget
        cases htarget
      · rw [← List.length_pos_iff, hlength]
        exact Nat.succ_pos 4
      · rw [hhead]
        exact hw.2.1
      · have hsize := hw.2.2
        rw [instructionSize, hop] at hsize
        rw [instructionSize, hhead, hop, hlength, ← hlen, ← hsize]
        cases op <;> first | rfl | exact absurd hjump (by decide)

theorem fixJump_middle (hw : Whole w) (offsetMap : List Nat) (a b : Bytes) :
    fixJump offsetMap (a ++ w ++ b) a.length =
      a ++ relocated offsetMap (a ++ w ++ b).length a.length w ++ b := by
  have hhead : byteAt (a ++ w ++ b) a.length = byteAt w 0 := byteAt_middle a b hw.length_pos
  rw [fixJump, relocated, hhead]
  cases hop : Op.ofByte (byteAt w 0) with
  | none => rfl
  | some op =>
    simp only
    cases hjump : op.isJump with
    | false => rw [newOperand_eq_none hjump, newOperand_eq_none hjump]
    | true =>
      have hlen := hw.length_of_jump hop hjump
      rw [readU32At_middle a b (by omega)]
      cases newOperand offsetMap (a ++ w ++ b).length op a.length (readU32At w 1) with
      | none => rfl
      | some operand => exact patchU32Be_middle a b operand hlen

/-! ## The rewriting walk -/

/-- The rewriting walk relocates every piece. -/
theorem fixJumps_assemble (offsetMap : List Nat) (dead : List Bool) (done : Bytes)
    (hwhole : ∀ w, Piece.live w ∈ ps → Whole w) (hdead : dead.length = done.length) {fuel : Nat}
    (hfuel : (assemble ps).length ≤ fuel) :
    fixJumps offsetMap (dead ++ maskOf ps) fuel done.length (done ++ assemble ps) =
      done ++ assemble (relocatePieces offsetMap (done.length + (assemble ps).length) done.length ps) := by
  induction ps generalizing dead done fuel with
  | nil =>
    cases fuel with
    | zero => simp [fixJumps, relocatePieces]
    | succ fuel => simp [fixJumps, relocatePieces]
  | cons p ps ih =>
    have htail : ∀ w, Piece.live w ∈ ps → Whole w := fun w hw => hwhole w (List.mem_cons_of_mem _ hw)
    have hstep := fun done' hdone hfuel =>
      @ih (dead ++ p.mask) (done ++ done') htail (hdone : (dead ++ p.mask).length = (done ++ done').length)
        (fuel - 1) hfuel
    simp only [assemble_cons, maskOf_cons, List.length_append] at hstep hfuel ⊢
    cases p with
    | dead =>
      simp only [Piece.bytes, Piece.mask, List.length_singleton] at hstep hfuel ⊢
      obtain ⟨fuel, rfl⟩ : ∃ n, fuel = n + 1 := ⟨fuel - 1, by omega⟩
      have hmark : (dead ++ ([true] ++ maskOf ps)).getD done.length false = true := by
        rw [List.getD_append_right _ _ _ _ (by omega), hdead, Nat.sub_self]
        rfl
      have hnext := hstep [deadByte] (by simp [hdead]) (by omega)
      rw [fixJumps, if_pos (by simp only [List.length_append, List.length_singleton]; omega), hmark, if_pos rfl,
        ← List.append_assoc, ← List.append_assoc]
      simp only [List.length_singleton, Nat.add_sub_cancel, List.append_assoc, List.cons_append,
        List.nil_append] at hnext ⊢
      rw [hnext, relocatePieces, assemble_cons]
      simp only [Piece.bytes, List.cons_append, List.nil_append, Nat.add_assoc]
    | live w =>
      have hw : Whole w := hwhole w List.mem_cons_self
      have hpos := hw.length_pos
      simp only [Piece.bytes, Piece.mask] at hstep hfuel ⊢
      obtain ⟨fuel, rfl⟩ : ∃ n, fuel = n + 1 := ⟨fuel - 1, by omega⟩
      have hmark : (dead ++ (List.replicate w.length false ++ maskOf ps)).getD done.length false = false := by
        rw [List.getD_append_right _ _ _ _ (by omega), hdead, Nat.sub_self, List.getD_append _ _ _ _ (by simpa),
          List.getD_eq_getElem _ _ (by simpa), List.getElem_replicate]
      have hfix := fixJump_middle hw offsetMap done (assemble ps)
      have hlength : (done ++ w ++ assemble ps).length = done.length + (w.length + (assemble ps).length) := by
        simp only [List.length_append, Nat.add_assoc]
      rw [hlength] at hfix
      obtain ⟨hsame, hwhole'⟩ :=
        relocated_same hw offsetMap (done.length + (w.length + (assemble ps).length)) done.length
      have hsize := hwhole'.instructionSize_middle done (assemble ps)
      have hnext := hstep (relocated offsetMap (done.length + (w.length + (assemble ps).length)) done.length w)
        (by simp only [List.length_replicate, hdead, hsame.2.1]) (by omega)
      rw [fixJumps, if_pos (by simp only [List.length_append]; omega), hmark, if_neg Bool.false_ne_true,
        ← List.append_assoc done, hfix]
      dsimp only
      rw [hsize, hsame.2.1, ← List.append_assoc dead]
      simp only [hsame.2.1, Nat.add_sub_cancel] at hnext ⊢
      rw [hnext, relocatePieces, assemble_cons]
      simp only [Piece.bytes, List.append_assoc, Nat.add_assoc]

theorem maskOf_relocatePieces (offsetMap : List Nat) (size i : Nat) (hwhole : ∀ w, Piece.live w ∈ ps → Whole w) :
    maskOf (relocatePieces offsetMap size i ps) = maskOf ps := by
  induction ps generalizing i with
  | nil => rfl
  | cons p ps ih =>
    have htail : ∀ w, Piece.live w ∈ ps → Whole w := fun w hw => hwhole w (List.mem_cons_of_mem _ hw)
    cases p with
    | dead => rw [relocatePieces, maskOf_cons, maskOf_cons, ih _ htail]
    | live w =>
      have hsame := (relocated_same (hwhole w List.mem_cons_self) offsetMap size i).1
      rw [relocatePieces, maskOf_cons, maskOf_cons, ih _ htail, Piece.mask, Piece.mask, hsame.2.1]

theorem keepLive_append (w b : Bytes) (dead : List Bool) :
    keepLive (List.replicate w.length false ++ dead) (w ++ b) = w ++ keepLive dead b := by
  induction w with
  | nil => rfl
  | cons byte w ih =>
    rw [List.length_cons, List.replicate_succ, List.cons_append, List.cons_append, keepLive,
      if_neg Bool.false_ne_true, ih, List.cons_append]

/-- Dropping the dead bytes leaves the live instructions. -/
theorem keepLive_assemble : keepLive (maskOf ps) (assemble ps) = (liveOf ps).flatten := by
  induction ps with
  | nil => rfl
  | cons p ps ih =>
    rw [maskOf_cons, assemble_cons]
    cases p with
    | dead => exact ih
    | live w => rw [Piece.mask, Piece.bytes, keepLive_append, ih, liveOf_live, List.flatten_cons]

theorem relocatePieces_same (offsetMap : List Nat) (size i : Nat) (hwhole : ∀ w, Piece.live w ∈ ps → Whole w) :
    List.Forall₂ SameInstruction (liveOf ps) (liveOf (relocatePieces offsetMap size i ps)) ∧
      ∀ w ∈ liveOf (relocatePieces offsetMap size i ps), Whole w := by
  induction ps generalizing i with
  | nil => exact ⟨.nil, fun w hw => absurd hw List.not_mem_nil⟩
  | cons p ps ih =>
    have htail : ∀ w, Piece.live w ∈ ps → Whole w := fun w hw => hwhole w (List.mem_cons_of_mem _ hw)
    cases p with
    | dead => exact ih _ htail
    | live w =>
      obtain ⟨hsame, hw'⟩ := relocated_same (hwhole w List.mem_cons_self) offsetMap size i
      obtain ⟨hrest, hrest'⟩ := ih (i + w.length) htail
      refine ⟨.cons hsame hrest, fun q hq => ?_⟩
      obtain rfl | hq := List.mem_cons.mp hq
      · exact hw'
      · exact hrest' q hq

theorem relocatePieces_append (offsetMap : List Nat) (size i : Nat) (pre post : List Piece) :
    relocatePieces offsetMap size i (pre ++ post) =
      relocatePieces offsetMap size i pre ++
        relocatePieces offsetMap size (i + (assemble pre).length) post := by
  induction pre generalizing i with
  | nil => rfl
  | cons p pre ih =>
    cases p with
    | dead =>
      have hlen : i + (Piece.dead.bytes ++ assemble pre).length = i + 1 + (assemble pre).length := by
        rw [List.length_append, ← Nat.add_assoc]
        rfl
      rw [List.cons_append, relocatePieces, relocatePieces, ih, assemble_cons, hlen, List.cons_append]
    | live w =>
      rw [List.cons_append, relocatePieces, relocatePieces, ih, assemble_cons]
      simp only [Piece.bytes, List.length_append, List.cons_append, Nat.add_assoc]

/-! ## Targets -/

/-- Where the instruction `w` jumps to when it stands at `i`. -/
def targetOf (i : Nat) (w : Bytes) : Option Int :=
  match Op.ofByte (byteAt w 0) with
  | some op =>
    if op.isJump then
      some (if op = .loop then (i : Int) + 5 - readU32At w 1 else (i : Int) + 5 + readU32At w 1)
    else none
  | none => none

theorem targetAt_middle (hw : Whole w) (a b : Bytes) : targetAt (a ++ w ++ b) a.length = targetOf a.length w := by
  have hhead : byteAt (a ++ w ++ b) a.length = byteAt w 0 := byteAt_middle a b hw.length_pos
  rw [targetAt, targetOf, hhead]
  cases hop : Op.ofByte (byteAt w 0) with
  | none => rfl
  | some op =>
    simp only
    cases hjump : op.isJump with
    | false => rw [if_neg Bool.false_ne_true, if_neg Bool.false_ne_true]
    | true =>
      have hlen := hw.length_of_jump hop hjump
      rw [BytecodeVerifier.jumpTarget, readU32At_middle a b (by omega), resolveForwardJumpTarget]
      simp only [if_true]
      split
      · rfl
      · push_cast
        rfl

/-- A relocated jump leads to the new offset of its target. -/
theorem targetOf_relocated (hw : Whole w) {i t : Nat} (hlive : ∀ d < w.length, (maskOf ps)[i + d]? = some false)
    (ht : t ≤ (assemble ps).length) (htarget : targetOf i w = some (t : Int)) :
    targetOf (liveBytesBefore ps i)
        (relocated (offsetMapFrom (maskOf ps) 0) (assemble ps).length i w) =
      some (liveBytesBefore ps t : Int) := by
  rw [targetOf] at htarget
  cases hop : Op.ofByte (byteAt w 0) with
  | none =>
    rw [hop] at htarget
    cases htarget
  | some op =>
    rw [hop] at htarget
    simp only at htarget
    cases hjump : op.isJump with
    | false =>
      rw [hjump] at htarget
      cases htarget
    | true =>
      rw [hjump, if_pos rfl, Option.some.injEq] at htarget
      have hlen := hw.length_of_jump hop hjump
      have hrel := readU32At_lt w 1
      -- The five bytes of the jump are live, so they stay together.
      have hafter : liveBytesBefore ps (i + 5) = liveBytesBefore ps i + 5 := by
        have hsucc := fun d hd => liveBytesBefore_succ (hlive d (by omega : d < w.length))
        have h0 := hsucc 0 (by omega)
        have h1 := hsucc 1 (by omega)
        have h2 := hsucc 2 (by omega)
        have h3 := hsucc 3 (by omega)
        have h4 := hsucc 4 (by omega)
        simp only [Nat.add_zero, Nat.add_assoc, Nat.reduceAdd] at h0 h1 h2 h3 h4
        omega
      have hinside : i + 5 ≤ (assemble ps).length := by
        have hlast := hlive 4 (by omega)
        have hlt := (List.getElem?_eq_some_iff.mp hlast).1
        rw [length_maskOf] at hlt
        omega
      have hnew : ∃ operand, newOperand (offsetMapFrom (maskOf ps) 0) (assemble ps).length op i (readU32At w 1) =
            some operand ∧ operand < 4294967296 ∧
          (liveBytesBefore ps t : Int) =
            if op = .loop then (liveBytesBefore ps i : Int) + 5 - operand
            else (liveBytesBefore ps i : Int) + 5 + operand := by
        by_cases hloop : op = .loop
        · subst hloop
          rw [if_pos rfl] at htarget
          have ht' : i + 5 - readU32At w 1 = t := by omega
          have hmono := @liveBytesBefore_mono ps _ _ (show t ≤ i + 5 by omega)
          have hgap := @liveBytesBefore_add_le ps t (i + 5 - t)
          rw [Nat.add_sub_cancel' (by omega)] at hgap
          refine ⟨liveBytesBefore ps (i + 5) - liveBytesBefore ps t, ?_, by omega, ?_⟩
          · rw [newOperand, if_neg (by decide), if_pos rfl]
            simp only [ht', length_offsetMap]
            rw [if_pos (by omega), offsetMap_getD hinside, offsetMap_getD ht, castU32_of_le hmono (by omega)]
          · rw [if_pos rfl]
            omega
        · rw [if_neg hloop] at htarget
          have hforward : op.isForwardJump = true := ((Op.isJump_iff op).mp hjump).resolve_right hloop
          have ht' : i + 5 + readU32At w 1 = t := by omega
          have hmono := @liveBytesBefore_mono ps _ _ (show i + 5 ≤ t by omega)
          have hgap := @liveBytesBefore_add_le ps (i + 5) (t - (i + 5))
          rw [Nat.add_sub_cancel' (by omega)] at hgap
          refine ⟨liveBytesBefore ps t - liveBytesBefore ps (i + 5), ?_, by omega, ?_⟩
          · rw [newOperand, if_pos hforward]
            simp only [ht', length_offsetMap]
            rw [if_pos (by omega), offsetMap_getD hinside, offsetMap_getD ht, castU32_of_le hmono (by omega)]
          · rw [if_neg hloop]
            omega
      obtain ⟨operand, hnew, hlt, hlands⟩ := hnew
      have hread := readU32At_patchU32Be operand hlen
      rw [Nat.mod_eq_of_lt hlt] at hread
      rw [relocated, hop]
      simp only [hnew]
      rw [targetOf, byteAt_patchU32Be operand hlen, hop]
      simp only [hjump, if_true]
      rw [hread, hlands]

end Optimizer

end Luma
