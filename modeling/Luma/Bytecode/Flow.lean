-- SUMMARY: Where control can go in a chunk, and what acceptance by the verifier says about it.
import Luma.Bytecode.Verifier
import Mathlib.Data.List.TakeWhile

/-! # Control Flow of Verified Code

The offsets that control can reach from the start of a chunk, by the edges of its
instructions. In a chunk the verifier accepts, each of them holds a whole
instruction whose operands fit their tables. -/

namespace Luma

open Codec

namespace BytecodeVerifier

/-- Where control goes from the instruction `op` at `offset`. -/
def successors (op : Op) (code : Bytes) (offset : Nat) : List Nat :=
  let next := offset + instructionSizeOf op code offset
  let operand := readU32At code (offset + 1)
  match op with
  | .return_ | .getLocalReturn | .rethrow | .endModule => []
  | .jump => [resolveForwardJumpTarget offset operand]
  | .loop => if operand ≤ next then [resolveLoopJumpTarget offset operand] else []
  | .jumpIfFalse | .jumpIfTrue | .nullCoalesce | .tryCatch =>
    [next, resolveForwardJumpTarget offset operand]
  | _ => [next]

/-- The instruction boundaries of a chunk. -/
inductive IsBoundary (code : Bytes) : Nat → Prop where
  | start : IsBoundary code 0
  | next {offset : Nat} {op : Op} (hoffset : IsBoundary code offset) (hinside : offset < code.length)
      (hop : Op.ofByte (byteAt code offset) = some op) :
      IsBoundary code (offset + instructionSizeOf op code offset)

/-- The offsets control can reach. -/
inductive Reaches (code : Bytes) : Nat → Prop where
  | entry : Reaches code 0
  | edge {offset target : Nat} {op : Op} (hoffset : Reaches code offset)
      (hop : Op.ofByte (byteAt code offset) = some op) (htarget : target ∈ successors op code offset) :
      Reaches code target

/-- The index in the operand of an instruction lies in the table it is for. -/
def OperandInTable (func : CompiledFunction) (op : Op) (offset : Nat) : Prop :=
  let code := func.chunk.code
  let index := if op = .constantLong then readU32At code (offset + 1) else readU16At code (offset + 1)
  match op.operandCategory with
  | .none_ => True
  | .constant => index < func.chunk.constants.values.length
  | .name => index < func.chunk.names.names.length
  | .upvalue => index < func.upvalueCount
  | .local => index < CompilerLimits.maxLocals

/-- A whole instruction at a boundary inside the code, its operand in its table. -/
structure FetchableAt (func : CompiledFunction) (op : Op) (offset : Nat) : Prop where
  boundary : IsBoundary func.chunk.code offset
  inside : offset < func.chunk.code.length
  decodes : Op.ofByte (byteAt func.chunk.code offset) = some op
  whole : offset + instructionSizeOf op func.chunk.code offset ≤ func.chunk.code.length
  operand : OperandInTable func op offset

/-- The verifier accepts the function. What it reads past its table of depths is
    `pastEnd`. -/
def Accepts (func : CompiledFunction) : Prop := ∃ pastEnd, verify pastEnd func = []

/-- No loop leads to the end of the code, and no instruction ends the module: what
    the verifier accepts without looking at it. -/
def LeavesByReturning (code : Bytes) : Prop :=
  ∀ offset op, IsBoundary code offset → Op.ofByte (byteAt code offset) = some op →
    op ≠ .endModule ∧
      (op = .loop → resolveLoopJumpTarget offset (readU32At code (offset + 1)) ≠ code.length)

/-! ## The linear pass -/

/-- What the linear pass without errors says about the instruction at `offset`. -/
structure Scanned (func : CompiledFunction) (jumps : List JumpRecord) (op : Op) (offset : Nat) : Prop where
  decodes : Op.ofByte (byteAt func.chunk.code offset) = some op
  whole : offset + instructionSizeOf op func.chunk.code offset ≤ func.chunk.code.length
  operand : checkOperandBounds func op offset = []
  jump : (collectJumps func.chunk.code op offset).2 = []
  jumps_mem : ∀ j ∈ (collectJumps func.chunk.code op offset).1, j ∈ jumps

theorem Scanned.mono {func : CompiledFunction} {jumps jumps' : List JumpRecord} {op : Op} {offset : Nat}
    (h : Scanned func jumps op offset) (hsub : jumps ⊆ jumps') : Scanned func jumps' op offset :=
  { h with jumps_mem := fun j hj => hsub (h.jumps_mem j hj) }

/-- A boundary the linear pass went over. -/
def ScannedBoundary (func : CompiledFunction) (s : Scan) (b : Nat) : Prop :=
  b < func.chunk.code.length ∧ ∃ op, Scanned func s.jumps op b ∧
    (b + instructionSizeOf op func.chunk.code b < func.chunk.code.length →
      b + instructionSizeOf op func.chunk.code b ∈ s.boundaries)

/-- A linear pass without errors goes from boundary to boundary up to the end. -/
theorem scan_spec {func : CompiledFunction} {fuel : Nat} :
    ∀ {offset : Nat}, func.chunk.code.length ≤ offset + fuel → (scan func fuel offset).errors = [] →
      IsBoundary func.chunk.code offset →
      (offset < func.chunk.code.length → offset ∈ (scan func fuel offset).boundaries) ∧
        ∀ b ∈ (scan func fuel offset).boundaries, IsBoundary func.chunk.code b ∧
          ScannedBoundary func (scan func fuel offset) b := by
  induction fuel with
  | zero =>
    intro offset hfuel _ _
    refine ⟨fun hlt => absurd hlt (by omega), fun b hb => ?_⟩
    exact absurd hb List.not_mem_nil
  | succ fuel ih =>
    intro offset hfuel herrors hoffset
    by_cases hstart : offset < func.chunk.code.length
    · rw [scan, if_pos hstart] at herrors ⊢
      cases hop : Op.ofByte (byteAt func.chunk.code offset) with
      | none => simp only [hop, List.cons_ne_nil] at herrors
      | some op =>
        simp only [hop] at herrors ⊢
        by_cases hcut : func.chunk.code.length < offset + instructionSizeOf op func.chunk.code offset
        · simp only [hcut, if_true, List.cons_ne_nil] at herrors
        · simp only [hcut, if_false, List.append_eq_nil_iff] at herrors ⊢
          obtain ⟨⟨hoperand, hjump⟩, hrest⟩ := herrors
          have hpos := (Op.opcodeBaseSize_pos op).trans_le
            (instructionSizeOf_ge op func.chunk.code offset)
          obtain ⟨hnext, hothers⟩ := ih (by omega) hrest (hoffset.next hstart hop)
          refine ⟨fun _ => List.mem_cons_self, fun b hb => ?_⟩
          rcases List.mem_cons.mp hb with rfl | hb
          · refine ⟨hoffset, hstart, op, ⟨hop, Nat.not_lt.mp hcut, hoperand, hjump, ?_⟩, ?_⟩
            · exact fun j hj => List.mem_append_left _ hj
            · exact fun hlt => List.mem_cons_of_mem _ (hnext hlt)
          · obtain ⟨hboundary, hlt, op', hscanned, hafter⟩ := hothers b hb
            refine ⟨hboundary, hlt, op', hscanned.mono (List.subset_append_right _ _), ?_⟩
            exact fun hlt => List.mem_cons_of_mem _ (hafter hlt)
    · rw [scan, if_neg hstart]
      exact ⟨fun hlt => absurd hlt hstart, fun b hb => absurd hb List.not_mem_nil⟩

/-! ## The walk -/

/-- The edges the walk pushes lead to the successors. -/
theorem simulate_successors {code : Bytes} {boundaries : List Nat} {deepest : Deepest}
    {p : PendingInstruction} {op : Op} {pushed : List PendingInstruction}
    (h : simulate code boundaries deepest p op = .ok pushed) :
    pushed.map PendingInstruction.offset = successors op code p.offset ∧
      (alwaysTransfers op = false → p.offset + instructionSizeOf op code p.offset < code.length) := by
  unfold simulate at h
  dsimp only at h
  split at h
  · cases h
  split at h
  · cases h
  split at h
  · cases h
  next hfalls =>
    constructor
    · split at h
      case h_1 | h_2 | h_3 | h_4 | h_5 => cases h; rfl
      case h_6 =>
        rw [successors]
        split at h
        next hback =>
          rw [if_pos hback]
          split at h <;> cases h
          rfl
        next hback =>
          rw [if_neg hback]
          cases h
          rfl
      case h_7 | h_8 | h_9 =>
        split at h <;> split at h <;> cases h <;> rfl
      case h_10 => cases h; rfl
      case h_11 =>
        cases h
        unfold successors
        split <;> simp_all
    · intro htransfers
      simpa [htransfers] using hfalls

/-- Offsets the walk skips although nothing was simulated there: outside the code or
    between two boundaries. -/
def Unwalkable (code : Bytes) (boundaries : List Nat) (offset : Nat) : Prop :=
  code.length ≤ offset ∨ offset ∉ boundaries

/-- Every offset that `deepest` has a depth for was simulated: control stays inside the
    code, and goes where the walk was, will be, or cannot be. -/
def Closed (code : Bytes) (boundaries : List Nat) (deepest : Deepest)
    (pending : List PendingInstruction) : Prop :=
  ∀ offset, offset < code.length → 0 ≤ deepest offset →
    ∃ op, Op.ofByte (byteAt code offset) = some op ∧
      (alwaysTransfers op = false → offset + instructionSizeOf op code offset < code.length) ∧
      ∀ target ∈ successors op code offset, Unwalkable code boundaries target ∨
        0 ≤ deepest target ∨ target ∈ pending.map PendingInstruction.offset

/-- Whole instructions start at the boundaries. -/
def WholeAt (code : Bytes) (boundaries : List Nat) : Prop :=
  ∀ b ∈ boundaries, ∃ op, Op.ofByte (byteAt code b) = some op ∧
    b + instructionSizeOf op code b ≤ code.length

theorem skipped_cases {code : Bytes} {boundaries : List Nat} {deepest : Deepest}
    {p : PendingInstruction} (hwhole : WholeAt code boundaries)
    (hskipped : skipped code boundaries deepest p = true) :
    Unwalkable code boundaries p.offset ∨ (p.depth : Int) ≤ deepest p.offset := by
  simp only [skipped, Bool.or_eq_true, decide_eq_true_eq, Bool.not_eq_true', List.contains_eq_mem,
    decide_eq_false_iff_not] at hskipped
  obtain ((hend | hbetween) | hseen) | hcut := hskipped
  · exact Or.inl (Or.inl hend)
  · exact Or.inl (Or.inr hbetween)
  · exact Or.inr hseen
  · by_cases hmem : p.offset ∈ boundaries
    · obtain ⟨op, hop, hsize⟩ := hwhole p.offset hmem
      rw [hop] at hcut
      exact absurd (of_decide_eq_true hcut) (Nat.not_lt.mpr hsize)
    · exact Or.inl (Or.inr hmem)

/-- What the walk simulates is deeper than all it has seen at that boundary. -/
theorem unskipped_cases {code : Bytes} {boundaries : List Nat} {deepest : Deepest}
    {p : PendingInstruction} (h : skipped code boundaries deepest p = false) :
    p.offset < code.length ∧ p.offset ∈ boundaries ∧ deepest p.offset < p.depth := by
  simp only [skipped, Bool.or_eq_false_iff, decide_eq_false_iff_not, Bool.not_eq_false', List.contains_eq_mem,
    decide_eq_true_eq] at h
  obtain ⟨⟨⟨hend, hmem⟩, hseen⟩, -⟩ := h
  exact ⟨Nat.not_le.mp hend, hmem, Int.not_le.mp hseen⟩

/-- A pending instruction the walk skips is no longer needed. -/
theorem Closed.skip {code : Bytes} {boundaries : List Nat} {deepest : Deepest}
    {p : PendingInstruction} {rest : List PendingInstruction} (hwhole : WholeAt code boundaries)
    (hskipped : skipped code boundaries deepest p = true)
    (hclosed : Closed code boundaries deepest (p :: rest)) : Closed code boundaries deepest rest := by
  intro offset hlt hseen
  obtain ⟨op, hop, hinside, hsuccessors⟩ := hclosed offset hlt hseen
  refine ⟨op, hop, hinside, fun target htarget => ?_⟩
  obtain hunwalkable | hseen | hpending := hsuccessors target htarget
  · exact Or.inl hunwalkable
  · exact Or.inr (Or.inl hseen)
  · rcases List.mem_cons.mp hpending with rfl | hpending
    · exact (skipped_cases hwhole hskipped).imp_right fun h => Or.inl ((Int.natCast_nonneg _).trans h)
    · exact Or.inr (Or.inr hpending)

/-- Simulating a pending instruction keeps the walk closed. -/
theorem Closed.simulate {code : Bytes} {boundaries : List Nat} {deepest : Deepest}
    {p : PendingInstruction} {rest pushed : List PendingInstruction} {op : Op}
    (hclosed : Closed code boundaries deepest (p :: rest))
    (hop : Op.ofByte (byteAt code p.offset) = some op)
    (hpushed : simulate code boundaries (Function.update deepest p.offset p.depth) p op = .ok pushed) :
    Closed code boundaries (Function.update deepest p.offset p.depth) (pushed.reverse ++ rest) := by
  obtain ⟨hedges, hinside⟩ := simulate_successors hpushed
  have hmono : ∀ offset, 0 ≤ deepest offset →
      0 ≤ Function.update deepest p.offset (p.depth : Int) offset := by
    intro offset hseen
    rw [Function.update_apply]
    split
    · exact Int.natCast_nonneg _
    · exact hseen
  intro offset hlt hseen
  by_cases hp : offset = p.offset
  · subst hp
    refine ⟨op, hop, hinside, fun target htarget => Or.inr (Or.inr ?_)⟩
    rw [← hedges] at htarget
    simp only [List.map_append, List.map_reverse, List.mem_append, List.mem_reverse]
    exact Or.inl htarget
  · rw [Function.update_of_ne hp] at hseen
    obtain ⟨op', hop', hinside', hsuccessors⟩ := hclosed offset hlt hseen
    refine ⟨op', hop', hinside', fun target htarget => ?_⟩
    obtain hunwalkable | hseen | hpending := hsuccessors target htarget
    · exact Or.inl hunwalkable
    · exact Or.inr (Or.inl (hmono target hseen))
    · obtain rfl | hpending := List.mem_cons.mp hpending
      · refine Or.inr (Or.inl ?_)
        rw [Function.update_self]
        exact Int.natCast_nonneg _
      · rw [List.map_append, List.mem_append]
        exact Or.inr (Or.inr (Or.inr hpending))

/-- What skipping a pending instruction and simulating one preserve holds at the end of
    a walk without errors. -/
theorem walk_invariant {code : Bytes} {boundaries : List Nat}
    {I : Deepest → List PendingInstruction → Prop}
    (hskip : ∀ {deepest p rest}, skipped code boundaries deepest p = true → I deepest (p :: rest) →
      I deepest rest)
    (hsimulate : ∀ {deepest p rest op pushed}, skipped code boundaries deepest p = false →
      Op.ofByte (byteAt code p.offset) = some op →
      simulate code boundaries (Function.update deepest p.offset p.depth) p op = .ok pushed →
      I deepest (p :: rest) → I (Function.update deepest p.offset p.depth) (pushed.reverse ++ rest))
    {budget : Nat} {deepest : Deepest} {pending : List PendingInstruction}
    (hwalk : walk code boundaries budget deepest pending = []) (hinv : I deepest pending) :
    I (walkDepths code boundaries budget deepest pending) [] := by
  have hdropped : ∀ {deepest pending}, I deepest pending →
      I deepest (pending.dropWhile (skipped code boundaries deepest)) := by
    intro deepest pending hinv
    induction pending with
    | nil => exact hinv
    | cons p rest ih =>
      rw [List.dropWhile_cons]
      split
      next hskipped => exact ih (hskip hskipped hinv)
      · exact hinv
  induction budget generalizing deepest pending with
  | zero =>
    unfold walk at hwalk
    unfold walkDepths
    have hinv := hdropped hinv
    cases hpending : pending.dropWhile (skipped code boundaries deepest) with
    | nil =>
      rw [hpending] at hinv
      exact hinv
    | cons p rest => simp only [hpending, List.cons_ne_nil] at hwalk
  | succ budget ih =>
    unfold walk at hwalk
    unfold walkDepths
    have hinv := hdropped hinv
    cases hpending : pending.dropWhile (skipped code boundaries deepest) with
    | nil =>
      rw [hpending] at hinv
      exact hinv
    | cons p rest =>
      rw [hpending] at hinv
      simp only [hpending] at hwalk ⊢
      have hunskipped : skipped code boundaries deepest p = false := by
        have hhead := List.head_dropWhile_not (skipped code boundaries deepest)
          (hpending ▸ List.cons_ne_nil p rest)
        simpa only [hpending, List.head_cons] using hhead
      cases hop : Op.ofByte (byteAt code p.offset) with
      | none =>
        simp only [skipped, hop, Bool.or_true] at hunskipped
        cases hunskipped
      | some op =>
        simp only [hop] at hwalk ⊢
        cases hpushed : simulate code boundaries (Function.update deepest p.offset p.depth) p op with
        | error e => simp only [hpushed, List.cons_ne_nil] at hwalk
        | ok pushed =>
          simp only [hpushed] at hwalk ⊢
          exact ih hwalk (hsimulate hunskipped hop hpushed hinv)

/-- A pending instruction stays pending until the walk has been there, unless it cannot
    be walked. -/
def Attended (code : Bytes) (boundaries : List Nat) (p : PendingInstruction) (deepest : Deepest)
    (pending : List PendingInstruction) : Prop :=
  p ∈ pending ∨ Unwalkable code boundaries p.offset ∨ 0 ≤ deepest p.offset

/-- A walk without errors ends with a closed set of offsets that has the pending ones
    in it, but for those it cannot walk. -/
theorem walk_closed {code : Bytes} {boundaries : List Nat} (hwhole : WholeAt code boundaries)
    {budget : Nat} {deepest : Deepest} {pending : List PendingInstruction}
    (hwalk : walk code boundaries budget deepest pending = [])
    (hclosed : Closed code boundaries deepest pending) :
    Closed code boundaries (walkDepths code boundaries budget deepest pending) [] ∧
      ∀ p ∈ pending, Unwalkable code boundaries p.offset ∨
        0 ≤ walkDepths code boundaries budget deepest pending p.offset := by
  have hinv := walk_invariant (I := fun d q => Closed code boundaries d q ∧
    ∀ p ∈ pending, Attended code boundaries p d q) ?_ ?_ hwalk ⟨hclosed, fun p hp => Or.inl hp⟩
  · refine ⟨hinv.1, fun p hp => ?_⟩
    obtain hnil | hattended := hinv.2 p hp
    · exact absurd hnil List.not_mem_nil
    · exact hattended
  · rintro deepest p rest hskipped ⟨hclosed, hattended⟩
    refine ⟨hclosed.skip hwhole hskipped, fun q hq => ?_⟩
    obtain hmem | hdone := hattended q hq
    · rcases List.mem_cons.mp hmem with rfl | hmem
      · exact Or.inr ((skipped_cases hwhole hskipped).imp_right (Int.natCast_nonneg _).trans)
      · exact Or.inl hmem
    · exact Or.inr hdone
  · rintro deepest p rest op pushed - hop hpushed ⟨hclosed, hattended⟩
    refine ⟨hclosed.simulate hop hpushed, fun q hq => ?_⟩
    have hseen : q.offset = p.offset ∨ 0 ≤ deepest q.offset →
        0 ≤ Function.update deepest p.offset (p.depth : Int) q.offset := by
      intro h
      rw [Function.update_apply]
      split
      · exact Int.natCast_nonneg _
      next hne => exact h.resolve_left hne
    obtain hmem | hunwalkable | hdone := hattended q hq
    · rcases List.mem_cons.mp hmem with rfl | hmem
      · exact Or.inr (Or.inr (hseen (Or.inl rfl)))
      · exact Or.inl (List.mem_append_right _ hmem)
    · exact Or.inr (Or.inl hunwalkable)
    · exact Or.inr (Or.inr (hseen (Or.inr hdone)))

/-! ## Accepted code -/

theorem inBounds_of_le {code : Bytes} {offset size : Nat} (h : offset + size ≤ code.length) :
    inBounds code offset size = true := by
  simp only [inBounds, Bool.and_eq_true, decide_eq_true_eq]
  omega

/-- An instruction that indexes a table has room for the index. -/
theorem three_le_opcodeBaseSize {op : Op} (h : op.operandCategory ≠ .none_) : 3 ≤ op.opcodeBaseSize := by
  cases op <;> first | decide | exact absurd rfl h

theorem operandInTable_of_check {func : CompiledFunction} {op : Op} {offset : Nat}
    (hwhole : offset + instructionSizeOf op func.chunk.code offset ≤ func.chunk.code.length)
    (hcheck : checkOperandBounds func op offset = []) : OperandInTable func op offset := by
  have hsize := instructionSizeOf_ge op func.chunk.code offset
  by_cases hnone : op.operandCategory = .none_
  · simp only [OperandInTable, hnone]
  have hthree := three_le_opcodeBaseSize hnone
  by_cases hlong : op = .constantLong
  · subst hlong
    have hfive : Op.opcodeBaseSize .constantLong = 5 := rfl
    have hin : inBounds func.chunk.code offset 5 = true := inBounds_of_le (by omega)
    have hcategory : Op.operandCategory .constantLong = .constant := rfl
    simpa [checkOperandBounds, OperandInTable, hin, hcategory] using hcheck
  · have hin : inBounds func.chunk.code offset 3 = true := inBounds_of_le (by omega)
    simp only [checkOperandBounds, hnone, hlong, hin, if_false, Bool.not_true, Bool.false_eq_true] at hcheck
    simp only [OperandInTable, hlong, if_false]
    cases hcategory : op.operandCategory <;> simp only [hcategory, ite_eq_right_iff, List.cons_ne_nil,
      imp_false, Nat.not_le] at hcheck ⊢
    case upvalue => exact hcheck.trans_le (Nat.mod_le _ _)
    all_goals exact hcheck

theorem jump_of_collectJumps {code : Bytes} {op : Op} {offset : Nat} (hjump : op.isJump = true)
    (hwhole : offset + instructionSizeOf op code offset ≤ code.length)
    (herrors : (collectJumps code op offset).2 = []) :
    (op = .loop → resolveLoopJumpTarget offset (readU32At code (offset + 1)) ≤ code.length ∧
      ⟨offset, resolveLoopJumpTarget offset (readU32At code (offset + 1)), true⟩ ∈
        (collectJumps code op offset).1) ∧
    (op ≠ .loop → resolveForwardJumpTarget offset (readU32At code (offset + 1)) < code.length ∧
      ⟨offset, resolveForwardJumpTarget offset (readU32At code (offset + 1)), false⟩ ∈
        (collectJumps code op offset).1) := by
  have hsize := instructionSizeOf_ge op code offset
  rw [Op.opcodeBaseSize_of_isJump hjump] at hsize
  have hin : inBounds code offset 5 = true := inBounds_of_le (by omega)
  unfold collectJumps at herrors ⊢
  by_cases hloop : op = .loop
  · subst hloop
    have hforward : Op.isForwardJump .loop = false := rfl
    refine ⟨fun _ => ?_, fun hne => absurd rfl hne⟩
    simp only [hforward, hin, Bool.false_eq_true, if_false, if_true, Bool.not_true] at herrors ⊢
    split at herrors
    · exact absurd herrors (List.cons_ne_nil _ _)
    next hstart =>
      rw [if_neg hstart, resolveLoopJumpTarget]
      exact ⟨by omega, List.mem_singleton.mpr rfl⟩
  · have hforward : op.isForwardJump = true := ((Op.isJump_iff op).mp hjump).resolve_right hloop
    refine ⟨fun h => absurd h hloop, fun _ => ?_⟩
    simp only [hforward, hin, if_true, Bool.not_true, Bool.false_eq_true, if_false] at herrors ⊢
    split at herrors
    · exact absurd herrors (List.cons_ne_nil _ _)
    next hend =>
      rw [if_neg hend]
      exact ⟨Nat.not_le.mp hend, List.mem_singleton.mpr rfl⟩

theorem mem_boundaries_of_jump {code : Bytes} {s : Scan} {j : JumpRecord}
    (hjumps : checkJumpTargets code s = []) (hj : j ∈ s.jumps) (hlt : j.target < code.length) :
    j.target ∈ s.boundaries := by
  by_contra hbetween
  have hnil := List.flatMap_eq_nil_iff.mp hjumps j hj
  simp [hlt, hbetween] at hnil

/-- Control stays on the boundaries the linear pass went over. -/
theorem successors_mem_boundaries {func : CompiledFunction} {s : Scan} {op : Op} {offset target : Nat}
    (hscanned : Scanned func s.jumps op offset)
    (hafter : offset + instructionSizeOf op func.chunk.code offset < func.chunk.code.length →
      offset + instructionSizeOf op func.chunk.code offset ∈ s.boundaries)
    (hjumps : checkJumpTargets func.chunk.code s = [])
    (hinside : alwaysTransfers op = false →
      offset + instructionSizeOf op func.chunk.code offset < func.chunk.code.length)
    (hloop : op = .loop → resolveLoopJumpTarget offset (readU32At func.chunk.code (offset + 1)) ≠
      func.chunk.code.length)
    (htarget : target ∈ successors op func.chunk.code offset) : target ∈ s.boundaries := by
  have hforward : op.isJump = true → op ≠ .loop →
      resolveForwardJumpTarget offset (readU32At func.chunk.code (offset + 1)) ∈ s.boundaries := by
    intro hjump hne
    obtain ⟨hlt, hmem⟩ := (jump_of_collectJumps hjump hscanned.whole hscanned.jump).2 hne
    exact mem_boundaries_of_jump hjumps (hscanned.jumps_mem _ hmem) hlt
  have hnext : alwaysTransfers op = false →
      offset + instructionSizeOf op func.chunk.code offset ∈ s.boundaries :=
    fun htransfers => hafter (hinside htransfers)
  unfold successors at htarget
  dsimp only at htarget
  split at htarget
  case h_1 | h_2 | h_3 | h_4 => exact absurd htarget List.not_mem_nil
  case h_5 =>
    rw [List.mem_singleton.mp htarget]
    exact hforward rfl (by decide)
  case h_6 =>
    split at htarget
    · rw [List.mem_singleton.mp htarget]
      obtain ⟨hle, hmem⟩ := (jump_of_collectJumps rfl hscanned.whole hscanned.jump).1 rfl
      exact mem_boundaries_of_jump hjumps (hscanned.jumps_mem _ hmem) (lt_of_le_of_ne hle (hloop rfl))
    · exact absurd htarget List.not_mem_nil
  case h_7 | h_8 | h_9 | h_10 =>
    rcases List.mem_cons.mp htarget with rfl | htarget
    · exact hnext rfl
    · rw [List.mem_singleton.mp htarget]
      exact hforward rfl (by decide)
  case h_11 =>
    rw [List.mem_singleton.mp htarget]
    refine hnext ?_
    simp_all [alwaysTransfers]

/-- Control only reaches whole instructions of accepted code. -/
theorem Accepts.fetchable {func : CompiledFunction} (haccepts : Accepts func)
    (hleaves : LeavesByReturning func.chunk.code) {offset : Nat}
    (hreaches : Reaches func.chunk.code offset) : ∃ op, FetchableAt func op offset := by
  obtain ⟨pastEnd, hverify⟩ := haccepts
  unfold verify at hverify
  dsimp only at hverify
  split at hverify
  · exact absurd hverify (List.cons_ne_nil _ _)
  next hempty =>
    simp only [List.append_eq_nil_iff] at hverify
    obtain ⟨⟨hscan, hjumps⟩, hdepths⟩ := hverify
    have hnonempty : 0 < func.chunk.code.length := List.length_pos_iff.mpr fun h => hempty (h ▸ rfl)
    obtain ⟨hstart, hboundaries⟩ := scan_spec (Nat.zero_add _).ge hscan .start
    have hwhole : WholeAt func.chunk.code (scan func func.chunk.code.length 0).boundaries := by
      intro b hb
      obtain ⟨-, -, op, hscanned, -⟩ := hboundaries b hb
      exact ⟨op, hscanned.decodes, hscanned.whole⟩
    have hinitial : Closed func.chunk.code (scan func func.chunk.code.length 0).boundaries
        (initialDeepest func.chunk.code pastEnd) [⟨0, func.arity + CompilerLimits.firstParameterSlot⟩] := by
      intro o hlt hseen
      rw [initialDeepest, if_pos hlt] at hseen
      exact absurd hseen (by decide)
    obtain ⟨hfinal, hpending⟩ := walk_closed hwhole hdepths hinitial
    have hwalkable : ∀ {o}, o ∈ (scan func func.chunk.code.length 0).boundaries →
        ¬ Unwalkable func.chunk.code (scan func func.chunk.code.length 0).boundaries o := by
      rintro o ho (hend | hbetween)
      · exact absurd (hboundaries o ho).2.1 (Nat.not_lt.mpr hend)
      · exact hbetween ho
    have hseen : offset ∈ (scan func func.chunk.code.length 0).boundaries ∧
        0 ≤ recordedDepths pastEnd func offset := by
      induction hreaches with
      | entry =>
        have hzero := hstart hnonempty
        exact ⟨hzero, (hpending _ (List.mem_singleton_self _)).resolve_left (hwalkable hzero)⟩
      | edge hoffset hop htarget ih =>
        obtain ⟨hb, hvisited⟩ := ih
        obtain ⟨hboundary, hlt, op', hscanned, hafter⟩ := hboundaries _ hb
        obtain ⟨op'', hop'', hinside, hsuccessors⟩ := hfinal _ hlt hvisited
        cases Option.some.inj (hop.symm.trans hscanned.decodes)
        cases Option.some.inj (hop.symm.trans hop'')
        have hmem := successors_mem_boundaries hscanned hafter hjumps hinside
          ((hleaves _ _ hboundary hop).2) htarget
        obtain hunwalkable | hvisited | hnil := hsuccessors _ htarget
        · exact absurd hunwalkable (hwalkable hmem)
        · exact ⟨hmem, hvisited⟩
        · exact absurd hnil List.not_mem_nil
    obtain ⟨hboundary, hlt, op, hscanned, -⟩ := hboundaries offset hseen.1
    exact ⟨op, hboundary, hlt, hscanned.decodes, hscanned.whole,
      operandInTable_of_check hscanned.whole hscanned.operand⟩

end BytecodeVerifier

end Luma
