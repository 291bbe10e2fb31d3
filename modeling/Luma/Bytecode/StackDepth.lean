-- SUMMARY: Stack depths on the control-flow paths of a chunk, and the depths the verifier records.
import Luma.Bytecode.CheckedVerifier
import Mathlib.Logic.Relation

/-! # Stack Depths

The walk of the verifier records for each instruction the deepest stack it simulated
there. A path through a chunk follows its instructions as the VM executes them. Along
a path, the difference between the depth of the stack and the recorded depth never
grows; so no stack gets deeper than what is recorded, and none grows around a loop. -/

namespace Luma

open Codec

namespace BytecodeVerifier

/-! ## Paths -/

/-- A point of a path: the instruction that comes next, the depth of the stack above the
    base of the frame, and, when the instruction before was an iteration step, which one
    and whether its iterator was exhausted. -/
structure PathPoint where
  offset : Nat
  depth : Int
  stepped : Option (Op × Bool)
  deriving DecidableEq, Repr

/-- Where the instruction `op` at `p` can lead. -/
def pathSuccessors (op : Op) (code : Bytes) (p : PathPoint) : List PathPoint :=
  let effect := stackEffectOf op code p.offset
  let after : Int := p.depth - effect.pops + effect.pushes
  let next := p.offset + instructionSizeOf op code p.offset
  let operand := readU32At code (p.offset + 1)
  let target := resolveForwardJumpTarget p.offset operand
  match op with
  | .return_ | .getLocalReturn | .rethrow | .endModule => []
  | .jump => [⟨target, after, none⟩]
  | .loop => if operand ≤ next then [⟨resolveLoopJumpTarget p.offset operand, after, none⟩] else []
  | .jumpIfFalse =>
    -- On top is what an iteration step pushed: `true`, or `false` when it was exhausted.
    match p.stepped with
    | some (_, true) => [⟨target, after, none⟩]
    | some (_, false) => [⟨next, after, none⟩]
    | none => [⟨next, after, none⟩, ⟨target, after, none⟩]
  | .jumpIfTrue | .nullCoalesce => [⟨next, after, none⟩, ⟨target, after, none⟩]
  | .tryCatch =>
    -- An exception restores this depth, and the handler starts with the error value on it.
    [⟨next, after, none⟩, ⟨target, after + 1, none⟩]
  | .forIterStep | .forIterStepKV =>
    -- An exhausted iterator leaves only `false`.
    [⟨next, after, some (op, false)⟩, ⟨next, after - valuesMissingWhenExhausted op, some (op, true)⟩]
  | _ => [⟨next, after, none⟩]

/-- One instruction of a path. -/
def PathStep (code : Bytes) (p q : PathPoint) : Prop :=
  p.offset < code.length ∧ ∃ op, Op.ofByte (byteAt code p.offset) = some op ∧ q ∈ pathSuccessors op code p

/-- The parts of a path. -/
abbrev Path (code : Bytes) : PathPoint → PathPoint → Prop := Relation.ReflTransGen (PathStep code)

/-- A frame starts with the callee and its arguments. -/
def pathEntry (func : CompiledFunction) : PathPoint :=
  ⟨0, func.arity + CompilerLimits.firstParameterSlot, none⟩

/-- Where a jump, a loop or the start of a try block leads besides the next instruction. -/
def branchTarget (op : Op) (code : Bytes) (offset : Nat) : Option Nat :=
  let operand := readU32At code (offset + 1)
  if op.isForwardJump then some (resolveForwardJumpTarget offset operand)
  else if op = .loop then some (resolveLoopJumpTarget offset operand)
  else none

/-- The conditional jump that tests an iteration step is only reached from that step. -/
def TestsFollowSteps (code : Bytes) : Prop :=
  ∀ offset op target stepOffset step, IsBoundary code offset →
    Op.ofByte (byteAt code offset) = some op → branchTarget op code offset = some target →
    IsBoundary code stepOffset → Op.ofByte (byteAt code stepOffset) = some step →
    0 < valuesMissingWhenExhausted step → stepOffset + instructionSizeOf step code stepOffset = target →
    Op.ofByte (byteAt code target) ≠ some .jumpIfFalse

/-! ## Edges -/

/-- The values that a conditional jump does not find at its target. -/
def missingAt (op : Op) (code : Bytes) (boundaries : List Nat) (offset : Nat) : Nat :=
  match op, previousOp code boundaries offset with
  | .jumpIfFalse, some previous => valuesMissingWhenExhausted previous
  | _, _ => 0

/-- The edges of an instruction, each with the change of the depth along it. -/
def edges (op : Op) (code : Bytes) (boundaries : List Nat) (offset : Nat) : List (Nat × Int) :=
  let effect := stackEffectOf op code offset
  let change : Int := effect.pushes - effect.pops
  let next := offset + instructionSizeOf op code offset
  let operand := readU32At code (offset + 1)
  let target := resolveForwardJumpTarget offset operand
  match op with
  | .return_ | .getLocalReturn | .rethrow | .endModule => []
  | .jump => [(target, change)]
  | .loop => if operand ≤ next then [(resolveLoopJumpTarget offset operand, change)] else []
  | .jumpIfFalse | .jumpIfTrue | .nullCoalesce =>
    [(next, change), (target, change - missingAt op code boundaries offset)]
  | .tryCatch => [(next, change), (target, change + 1)]
  | _ => [(next, change)]

-- The equations of the definitions are derived here, once for all proofs.
section
attribute [local simp] pathSuccessors missingAt edges
end

/-- The walk pushes the edges, and only simulates what has enough to pop. -/
theorem simulate_edges {code : Bytes} {boundaries : List Nat} {deepest : Deepest}
    {p : PendingInstruction} {op : Op} {pushed : List PendingInstruction}
    (h : simulate code boundaries deepest p op = .ok pushed) :
    (stackEffectOf op code p.offset).pops ≤ p.depth ∧
      pushed.map (fun q => (q.offset, (q.depth : Int))) =
        (edges op code boundaries p.offset).map fun e => (e.1, (p.depth : Int) + e.2) := by
  unfold simulate at h
  dsimp only at h
  split at h
  · cases h
  next hpops =>
  have hafter : ((p.depth - (stackEffectOf op code p.offset).pops +
      (stackEffectOf op code p.offset).pushes : Nat) : Int) =
        p.depth + (((stackEffectOf op code p.offset).pushes : Int) - (stackEffectOf op code p.offset).pops) := by
    omega
  refine ⟨Nat.not_lt.mp hpops, ?_⟩
  split at h
  · cases h
  split at h
  · cases h
  split at h
  case h_1 | h_2 | h_3 | h_4 => cases h; rfl
  case h_5 =>
    cases h
    simp only [edges, List.map_cons, List.map_nil, hafter]
  case h_6 =>
    simp only [edges]
    split at h
    next hback =>
      split at h <;> cases h
      simp only [if_pos hback, List.map_cons, List.map_nil, hafter]
    next hback =>
      cases h
      simp only [if_neg hback, List.map_nil]
  case h_7 =>
    cases hprevious : previousOp code boundaries p.offset with
    | none =>
      simp only [hprevious, Nat.not_lt_zero, if_false] at h
      cases h
      simp only [edges, missingAt, hprevious, List.map_cons, List.map_nil, hafter, Nat.sub_zero, Int.sub_zero,
        Nat.cast_zero]
    | some previous =>
      simp only [hprevious] at h
      split at h <;> cases h
      next hmissing =>
        rw [Nat.not_lt] at hmissing
        simp only [edges, missingAt, hprevious, List.map_cons, List.map_nil, Nat.cast_sub hmissing, hafter,
          Int.add_sub_assoc]
  case h_8 | h_9 =>
    simp only [Nat.not_lt_zero, if_false] at h
    cases h
    simp only [edges, missingAt, List.map_cons, List.map_nil, hafter, Nat.sub_zero, Int.sub_zero, Nat.cast_zero]
  case h_10 =>
    cases h
    simp only [edges, List.map_cons, List.map_nil, Nat.cast_add, hafter, Nat.cast_one, Int.add_assoc]
  case h_11 =>
    cases h
    unfold edges
    split <;> first | contradiction | simp only [List.map_cons, List.map_nil, hafter]

/-! ## The recorded depths -/

/-- No edge leads from a recorded depth to more than what is recorded at its end, unless the
    walk still has to go there or cannot. -/
def DepthClosed (code : Bytes) (boundaries : List Nat) (deepest : Deepest)
    (pending : List PendingInstruction) : Prop :=
  ∀ offset, offset < code.length → 0 ≤ deepest offset →
    ∃ op, Op.ofByte (byteAt code offset) = some op ∧
      ((stackEffectOf op code offset).pops : Int) ≤ deepest offset ∧
      (alwaysTransfers op = false → offset + instructionSizeOf op code offset < code.length) ∧
      ∀ e ∈ edges op code boundaries offset, Unwalkable code boundaries e.1 ∨
        (0 ≤ deepest e.1 ∧ deepest offset + e.2 ≤ deepest e.1) ∨
          ∃ q ∈ pending, q.offset = e.1 ∧ deepest offset + e.2 ≤ q.depth

theorem DepthClosed.skip {code : Bytes} {boundaries : List Nat} {deepest : Deepest}
    {p : PendingInstruction} {rest : List PendingInstruction} (hwhole : WholeAt code boundaries)
    (hskipped : skipped code boundaries deepest p = true)
    (hclosed : DepthClosed code boundaries deepest (p :: rest)) : DepthClosed code boundaries deepest rest := by
  intro offset hlt hseen
  obtain ⟨op, hop, hpops, hinside, hedges⟩ := hclosed offset hlt hseen
  refine ⟨op, hop, hpops, hinside, fun e he => ?_⟩
  obtain hunwalkable | hle | ⟨q, hq, htarget, hle⟩ := hedges e he
  · exact Or.inl hunwalkable
  · exact Or.inr (Or.inl hle)
  · rcases List.mem_cons.mp hq with rfl | hq
    · rw [← htarget]
      exact (skipped_cases hwhole hskipped).imp_right fun hdepth =>
        Or.inl ⟨(Int.natCast_nonneg _).trans hdepth, hle.trans hdepth⟩
    · exact Or.inr (Or.inr ⟨q, hq, htarget, hle⟩)

theorem DepthClosed.simulate {code : Bytes} {boundaries : List Nat} {deepest : Deepest}
    {p : PendingInstruction} {rest pushed : List PendingInstruction} {op : Op}
    (hclosed : DepthClosed code boundaries deepest (p :: rest))
    (hunskipped : skipped code boundaries deepest p = false)
    (hop : Op.ofByte (byteAt code p.offset) = some op)
    (hpushed : simulate code boundaries (Function.update deepest p.offset p.depth) p op = .ok pushed) :
    DepthClosed code boundaries (Function.update deepest p.offset p.depth) (pushed.reverse ++ rest) := by
  obtain ⟨-, -, hdeeper⟩ := unskipped_cases hunskipped
  obtain ⟨hpops, hedges⟩ := simulate_edges hpushed
  have hmono : ∀ offset, deepest offset ≤ Function.update deepest p.offset (p.depth : Int) offset := by
    intro offset
    rw [Function.update_apply]
    split
    next heq => exact heq ▸ hdeeper.le
    · exact le_rfl
  intro offset hlt hseen
  by_cases hp : offset = p.offset
  · subst hp
    refine ⟨op, hop, by rw [Function.update_self]; exact_mod_cast hpops, (simulate_successors hpushed).2,
      fun e he => Or.inr (Or.inr ?_)⟩
    have hmem := List.mem_map_of_mem (f := fun e : Nat × Int => (e.1, (p.depth : Int) + e.2)) he
    rw [← hedges] at hmem
    obtain ⟨q, hq, heq⟩ := List.mem_map.mp hmem
    obtain ⟨htarget, hdepth⟩ := Prod.mk.inj heq
    refine ⟨q, List.mem_append_left _ (List.mem_reverse.mpr hq), htarget, ?_⟩
    rw [Function.update_self]
    exact hdepth.ge
  · rw [Function.update_of_ne hp] at hseen ⊢
    obtain ⟨op', hop', hpops', hinside', hedges'⟩ := hclosed offset hlt hseen
    refine ⟨op', hop', hpops', hinside', fun e he => ?_⟩
    obtain hunwalkable | hle | ⟨q, hq, htarget, hle⟩ := hedges' e he
    · exact Or.inl hunwalkable
    · exact Or.inr (Or.inl ⟨hle.1.trans (hmono _), hle.2.trans (hmono _)⟩)
    · rcases List.mem_cons.mp hq with rfl | hq
      · refine Or.inr (Or.inl ?_)
        rw [← htarget, Function.update_self]
        exact ⟨Int.natCast_nonneg _, hle⟩
      · exact Or.inr (Or.inr ⟨q, List.mem_append_right _ hq, htarget, hle⟩)

/-! ## The instruction before -/

section Previous

variable {code : Bytes} {boundaries : List Nat} {offset : Nat}

/-- No boundary lies inside the instruction at another. -/
abbrev Consecutive (code : Bytes) (boundaries : List Nat) : Prop :=
  boundaries.Pairwise fun b b' => b + instructionSize code b ≤ b'

theorem Consecutive.getLast?_filter (h : Consecutive code boundaries) (hmem : offset ∈ boundaries) :
    (boundaries.filter (· < offset + instructionSize code offset)).getLast? = some offset := by
  induction boundaries with
  | nil => exact absurd hmem List.not_mem_nil
  | cons b boundaries ih =>
    obtain ⟨hfirst, hrest⟩ := List.pairwise_cons.mp h
    have hpos := instructionSize_pos code offset
    rcases List.mem_cons.mp hmem with rfl | hmem
    · have hnil : boundaries.filter (· < offset + instructionSize code offset) = [] := by
        rw [List.filter_eq_nil_iff]
        intro b hb
        simpa using hfirst b hb
      rw [List.filter_cons_of_pos (by simpa using hpos), hnil]
      rfl
    · have hb := hfirst offset hmem
      have hsize := instructionSize_pos code b
      rw [List.filter_cons_of_pos (by simp only [decide_eq_true_eq]; omega), List.getLast?_cons, ih hrest hmem]
      rfl

/-- The instruction before the one that follows is the one at hand. -/
theorem Consecutive.previousOp_next (h : Consecutive code boundaries) (hmem : offset ∈ boundaries) :
    previousOp code boundaries (offset + instructionSize code offset) = Op.ofByte (byteAt code offset) := by
  rw [previousOp, h.getLast?_filter hmem]
  rfl

theorem Consecutive.le_of_getLast? (h : Consecutive code boundaries) {b b' : Nat} (hlast : boundaries.getLast? = some b)
    (hmem : b' ∈ boundaries) : b' ≤ b := by
  induction boundaries with
  | nil => exact absurd hmem List.not_mem_nil
  | cons c boundaries ih =>
    obtain ⟨hfirst, hrest⟩ := List.pairwise_cons.mp h
    rw [List.getLast?_cons] at hlast
    cases hafter : boundaries.getLast? with
    | none =>
      rw [hafter] at hlast
      rw [List.getLast?_eq_none_iff.mp hafter] at hmem
      rw [List.mem_singleton.mp hmem]
      exact (Option.some.inj hlast).le
    | some last =>
      rw [hafter] at hlast
      cases Option.some.inj hlast
      rcases List.mem_cons.mp hmem with rfl | hmem
      · have hle := hfirst last (List.mem_of_getLast? hafter)
        simp only [Option.getD_some]
        omega
      · exact ih hrest hafter hmem

theorem Consecutive.le_of_lt (h : Consecutive code boundaries) {b b' : Nat} (hb : b ∈ boundaries)
    (hb' : b' ∈ boundaries) (hlt : b < b') : b + instructionSize code b ≤ b' := by
  induction boundaries with
  | nil => exact absurd hb List.not_mem_nil
  | cons c boundaries ih =>
    obtain ⟨hfirst, hrest⟩ := List.pairwise_cons.mp h
    rcases List.mem_cons.mp hb with rfl | hmem <;> rcases List.mem_cons.mp hb' with rfl | hmem'
    · exact absurd hlt (Nat.lt_irrefl _)
    · exact hfirst b' hmem'
    · have hle := hfirst b hmem
      omega
    · exact ih hrest hmem hmem'

/-- The instruction before a boundary ends there. -/
theorem Consecutive.previous (h : Consecutive code boundaries) (hmem : offset ∈ boundaries)
    (hfollow : ∀ b ∈ boundaries, b + instructionSize code b < code.length → b + instructionSize code b ∈ boundaries)
    (hinside : offset < code.length) {previous : Op} (hprevious : previousOp code boundaries offset = some previous) :
    ∃ b ∈ boundaries, Op.ofByte (byteAt code b) = some previous ∧ b + instructionSize code b = offset := by
  rw [previousOp] at hprevious
  obtain ⟨b, hlast, hop⟩ := Option.bind_eq_some_iff.mp hprevious
  obtain ⟨hb, hlt⟩ := List.mem_filter.mp (List.mem_of_getLast? hlast)
  rw [decide_eq_true_eq] at hlt
  have hpos := instructionSize_pos code b
  refine ⟨b, hb, hop, ?_⟩
  have hle : b + instructionSize code b ≤ offset := h.le_of_lt hb hmem hlt
  by_contra hne
  have hnext : b + instructionSize code b ∈ boundaries.filter (· < offset) := by
    rw [List.mem_filter, decide_eq_true_eq]
    exact ⟨hfollow b hb (by omega), by omega⟩
  have hmax := Consecutive.le_of_getLast? (h.filter _) hlast hnext
  omega

end Previous

/-! ## Paths and edges -/

section Steps

variable {code : Bytes} {boundaries : List Nat} {op : Op} {p q : PathPoint}

/-- The depth the verifier simulates at a point: for an exhausted iterator as for the others. -/
def PathPoint.simulated (p : PathPoint) : Int :=
  match p.stepped with
  | some (op, true) => p.depth + valuesMissingWhenExhausted op
  | _ => p.depth

section
attribute [local simp] PathPoint.simulated
end

@[simp] theorem PathPoint.simulated_none (offset : Nat) (depth : Int) :
    PathPoint.simulated ⟨offset, depth, none⟩ = depth := rfl

@[simp] theorem PathPoint.simulated_stepped (offset : Nat) (depth : Int) (op : Op) :
    PathPoint.simulated ⟨offset, depth, some (op, false)⟩ = depth := rfl

@[simp] theorem PathPoint.simulated_exhausted (offset : Nat) (depth : Int) (op : Op) :
    PathPoint.simulated ⟨offset, depth, some (op, true)⟩ = depth + valuesMissingWhenExhausted op := rfl

theorem PathPoint.depth_le_simulated (p : PathPoint) : p.depth ≤ p.simulated := by
  unfold PathPoint.simulated
  split
  · omega
  · exact le_rfl

/-- What is known of the instruction before a point: it is the iteration step that the point
    remembers, and a test of an iteration step remembers it. -/
def PathPoint.Remembers (code : Bytes) (boundaries : List Nat) (p : PathPoint) : Prop :=
  (∀ step exhausted, p.stepped = some (step, exhausted) →
    previousOp code boundaries p.offset = some step ∧ 0 < valuesMissingWhenExhausted step) ∧
  (p.stepped = none → Op.ofByte (byteAt code p.offset) = some .jumpIfFalse →
    missingAt .jumpIfFalse code boundaries p.offset = 0)

/-- Every way on follows an edge, and does not get deeper than the verifier simulates. -/
theorem pathSuccessors_edge (hremembers : p.Remembers code boundaries)
    (hop : Op.ofByte (byteAt code p.offset) = some op) (hq : q ∈ pathSuccessors op code p) :
    ∃ e ∈ edges op code boundaries p.offset, e.1 = q.offset ∧ q.simulated ≤ p.simulated + e.2 := by
  have hdepth := p.depth_le_simulated
  unfold pathSuccessors at hq
  dsimp only at hq
  split at hq
  case h_1 | h_2 | h_3 | h_4 => exact absurd hq List.not_mem_nil
  case h_5 =>
    rw [List.mem_singleton.mp hq]
    refine ⟨_, List.mem_singleton_self _, rfl, ?_⟩
    simp only [PathPoint.simulated_none]
    omega
  case h_6 =>
    split at hq
    next hback =>
      rw [List.mem_singleton.mp hq]
      refine ⟨_, by rw [edges, if_pos hback]; exact List.mem_singleton_self _, rfl, ?_⟩
      simp only [PathPoint.simulated_none]
      omega
    · exact absurd hq List.not_mem_nil
  case h_7 =>
    split at hq
    next step hstepped =>
      -- The exhausted step left the missing values out, which the edge takes away.
      obtain ⟨hprevious, -⟩ := hremembers.1 step true hstepped
      rw [List.mem_singleton.mp hq]
      refine ⟨_, List.mem_cons_of_mem _ (List.mem_singleton_self _), rfl, ?_⟩
      have hsimulated : p.simulated = p.depth + valuesMissingWhenExhausted step := by
        rw [PathPoint.simulated, hstepped]
      have hmissing : missingAt .jumpIfFalse code boundaries p.offset = valuesMissingWhenExhausted step := by
        simp only [missingAt, hprevious]
      simp only [PathPoint.simulated_none, hsimulated, hmissing]
      omega
    next =>
      rw [List.mem_singleton.mp hq]
      refine ⟨_, List.mem_cons_self, rfl, ?_⟩
      simp only [PathPoint.simulated_none]
      omega
    next hstepped =>
      have hmissing := hremembers.2 hstepped hop
      rcases List.mem_cons.mp hq with rfl | hq
      · refine ⟨_, List.mem_cons_self, rfl, ?_⟩
        simp only [PathPoint.simulated_none]
        omega
      · rw [List.mem_singleton.mp hq]
        refine ⟨_, List.mem_cons_of_mem _ (List.mem_singleton_self _), rfl, ?_⟩
        simp only [PathPoint.simulated_none, hmissing]
        omega
  case h_8 | h_9 =>
    rcases List.mem_cons.mp hq with rfl | hq
    · refine ⟨_, List.mem_cons_self, rfl, ?_⟩
      simp only [PathPoint.simulated_none]
      omega
    · rw [List.mem_singleton.mp hq]
      refine ⟨_, List.mem_cons_of_mem _ (List.mem_singleton_self _), rfl, ?_⟩
      simp only [PathPoint.simulated_none, missingAt]
      omega
  case h_10 =>
    rcases List.mem_cons.mp hq with rfl | hq
    · refine ⟨_, List.mem_cons_self, rfl, ?_⟩
      simp only [PathPoint.simulated_none]
      omega
    · rw [List.mem_singleton.mp hq]
      refine ⟨_, List.mem_cons_of_mem _ (List.mem_singleton_self _), rfl, ?_⟩
      simp only [PathPoint.simulated_none]
      omega
  case h_11 | h_12 =>
    rcases List.mem_cons.mp hq with rfl | hq
    · refine ⟨_, List.mem_singleton_self _, rfl, ?_⟩
      simp only [PathPoint.simulated_stepped]
      omega
    · rw [List.mem_singleton.mp hq]
      refine ⟨_, List.mem_singleton_self _, rfl, ?_⟩
      simp only [PathPoint.simulated_exhausted]
      omega
  case h_13 =>
    rw [List.mem_singleton.mp hq]
    refine ⟨(p.offset + instructionSizeOf op code p.offset,
      (stackEffectOf op code p.offset).pushes - (stackEffectOf op code p.offset).pops), ?_, rfl, ?_⟩
    · unfold edges
      split <;> first | contradiction | exact List.mem_singleton_self _
    · simp only [PathPoint.simulated_none]
      omega

/-- A point is reached from the instruction before it, and remembers it if it is an
    iteration step, or by a branch. -/
theorem pathSuccessors_arrival (hq : q ∈ pathSuccessors op code p) :
    q.offset ∈ successors op code p.offset ∧
      (q.offset = p.offset + instructionSizeOf op code p.offset ∧
          (∀ step exhausted, q.stepped = some (step, exhausted) → step = op ∧ 0 < valuesMissingWhenExhausted op) ∧
          (q.stepped = none → valuesMissingWhenExhausted op = 0) ∨
        branchTarget op code p.offset = some q.offset ∧ q.stepped = none) := by
  have hplain : ∀ {depth : Int}, valuesMissingWhenExhausted op = 0 →
      q = ⟨p.offset + instructionSizeOf op code p.offset, depth, none⟩ →
        q.offset = p.offset + instructionSizeOf op code p.offset ∧
          (∀ step exhausted, q.stepped = some (step, exhausted) → step = op ∧ 0 < valuesMissingWhenExhausted op) ∧
          (q.stepped = none → valuesMissingWhenExhausted op = 0) := by
    rintro depth hzero rfl
    refine ⟨rfl, fun step exhausted h => ?_, fun _ => hzero⟩
    cases h
  have hstep : ∀ {depth : Int} {exhausted : Bool}, 0 < valuesMissingWhenExhausted op →
      q = ⟨p.offset + instructionSizeOf op code p.offset, depth, some (op, exhausted)⟩ →
        q.offset = p.offset + instructionSizeOf op code p.offset ∧
          (∀ step exhausted, q.stepped = some (step, exhausted) → step = op ∧ 0 < valuesMissingWhenExhausted op) ∧
          (q.stepped = none → valuesMissingWhenExhausted op = 0) := by
    rintro depth exhausted hpos rfl
    refine ⟨rfl, fun step exhausted h => ?_, fun h => ?_⟩
    · cases h
      exact ⟨rfl, hpos⟩
    · cases h
  unfold pathSuccessors at hq
  dsimp only at hq
  split at hq
  case h_1 | h_2 | h_3 | h_4 => exact absurd hq List.not_mem_nil
  case h_5 =>
    rw [List.mem_singleton.mp hq]
    exact ⟨List.mem_singleton_self _, Or.inr ⟨rfl, rfl⟩⟩
  case h_6 =>
    split at hq
    next hback =>
      rw [List.mem_singleton.mp hq, successors, if_pos hback]
      exact ⟨List.mem_singleton_self _, Or.inr ⟨rfl, rfl⟩⟩
    · exact absurd hq List.not_mem_nil
  case h_7 =>
    split at hq
    · rw [List.mem_singleton.mp hq]
      exact ⟨List.mem_cons_of_mem _ (List.mem_singleton_self _), Or.inr ⟨rfl, rfl⟩⟩
    · have heq := List.mem_singleton.mp hq
      exact ⟨heq ▸ List.mem_cons_self, Or.inl (hplain rfl heq)⟩
    · rcases List.mem_cons.mp hq with heq | hq
      · exact ⟨heq ▸ List.mem_cons_self, Or.inl (hplain rfl heq)⟩
      · rw [List.mem_singleton.mp hq]
        exact ⟨List.mem_cons_of_mem _ (List.mem_singleton_self _), Or.inr ⟨rfl, rfl⟩⟩
  case h_8 | h_9 | h_10 =>
    rcases List.mem_cons.mp hq with heq | hq
    · exact ⟨heq ▸ List.mem_cons_self, Or.inl (hplain rfl heq)⟩
    · rw [List.mem_singleton.mp hq]
      exact ⟨List.mem_cons_of_mem _ (List.mem_singleton_self _), Or.inr ⟨rfl, rfl⟩⟩
  case h_11 | h_12 =>
    rcases List.mem_cons.mp hq with heq | hq
    · exact ⟨heq ▸ List.mem_singleton_self _, Or.inl (hstep (by decide) heq)⟩
    · have heq := List.mem_singleton.mp hq
      exact ⟨heq ▸ List.mem_singleton_self _, Or.inl (hstep (by decide) heq)⟩
  case h_13 =>
    have heq := List.mem_singleton.mp hq
    refine ⟨?_, Or.inl (hplain ?_ heq)⟩
    · rw [heq]
      unfold successors
      split <;> first | contradiction | exact List.mem_singleton_self _
    · unfold valuesMissingWhenExhausted
      split <;> first | contradiction | rfl

/-- An edge of any other instruction is a way on from every point. -/
theorem edge_pathSuccessor {e : Nat × Int} (htest : op ≠ .jumpIfFalse) (hplain : valuesMissingWhenExhausted op = 0)
    (he : e ∈ edges op code boundaries p.offset) :
    ∃ q ∈ pathSuccessors op code p, q.stepped = none ∧ q.offset = e.1 ∧ q.depth = p.depth + e.2 := by
  unfold edges at he
  dsimp only at he
  split at he
  case h_1 | h_2 | h_3 | h_4 => exact absurd he List.not_mem_nil
  case h_5 =>
    rw [List.mem_singleton.mp he]
    exact ⟨_, List.mem_singleton_self _, rfl, rfl, by dsimp only; omega⟩
  case h_6 =>
    split at he
    next hback =>
      rw [List.mem_singleton.mp he, pathSuccessors, if_pos hback]
      exact ⟨_, List.mem_singleton_self _, rfl, rfl, by dsimp only; omega⟩
    · exact absurd he List.not_mem_nil
  case h_7 => exact absurd rfl htest
  case h_8 | h_9 =>
    rcases List.mem_cons.mp he with rfl | he
    · exact ⟨_, List.mem_cons_self, rfl, rfl, by dsimp only; omega⟩
    · rw [List.mem_singleton.mp he]
      exact ⟨_, List.mem_cons_of_mem _ (List.mem_singleton_self _), rfl, rfl, by dsimp only [missingAt]; omega⟩
  case h_10 =>
    rcases List.mem_cons.mp he with rfl | he
    · exact ⟨_, List.mem_cons_self, rfl, rfl, by dsimp only; omega⟩
    · rw [List.mem_singleton.mp he]
      exact ⟨_, List.mem_cons_of_mem _ (List.mem_singleton_self _), rfl, rfl, by dsimp only; omega⟩
  case h_11 =>
    rw [List.mem_singleton.mp he]
    refine ⟨⟨p.offset + instructionSizeOf op code p.offset,
      p.depth - (stackEffectOf op code p.offset).pops + (stackEffectOf op code p.offset).pushes, none⟩,
      ?_, rfl, rfl, by dsimp only; omega⟩
    unfold pathSuccessors
    split <;> first | contradiction | exact absurd hplain (by decide) | exact List.mem_singleton_self _

/-- An iteration step goes on with a value and, exhausted, without. -/
theorem iteration_successors (code : Bytes) (p : PathPoint) (boundaries : List Nat)
    (hop : 0 < valuesMissingWhenExhausted op) :
    let next := p.offset + instructionSizeOf op code p.offset
    let after : Int := p.depth - (stackEffectOf op code p.offset).pops + (stackEffectOf op code p.offset).pushes
    edges op code boundaries p.offset =
        [(next, ((stackEffectOf op code p.offset).pushes : Int) - (stackEffectOf op code p.offset).pops)] ∧
      ⟨next, after, some (op, false)⟩ ∈ pathSuccessors op code p ∧
      ⟨next, after - valuesMissingWhenExhausted op, some (op, true)⟩ ∈ pathSuccessors op code p := by
  unfold valuesMissingWhenExhausted at hop
  split at hop
  · exact ⟨rfl, List.mem_cons_self, List.mem_cons_of_mem _ (List.mem_singleton_self _)⟩
  · exact ⟨rfl, List.mem_cons_self, List.mem_cons_of_mem _ (List.mem_singleton_self _)⟩
  · exact absurd hop (Nat.lt_irrefl 0)

end Steps

/-! ## Accepted code -/

section Accepted

variable {pastEnd : Int} {func : CompiledFunction}

/-- What acceptance says: of the linear pass, of the jump targets and of the walk. -/
structure Analysed (pastEnd : Int) (func : CompiledFunction) : Prop where
  scanned : ∀ b ∈ (scan func func.chunk.code.length 0).boundaries,
    IsBoundary func.chunk.code b ∧ ScannedBoundary func (scan func func.chunk.code.length 0) b
  jumps : checkJumpTargets func.chunk.code (scan func func.chunk.code.length 0) = []
  start : 0 ∈ (scan func func.chunk.code.length 0).boundaries
  closed : DepthClosed func.chunk.code (scan func func.chunk.code.length 0).boundaries (recordedDepths pastEnd func) []
  entry : (pathEntry func).depth ≤ recordedDepths pastEnd func 0

theorem analysed_of_verify (hverify : verify pastEnd func = []) : Analysed pastEnd func := by
  unfold verify at hverify
  dsimp only at hverify
  split at hverify
  · exact absurd hverify (List.cons_ne_nil _ _)
  next hempty =>
    simp only [List.append_eq_nil_iff] at hverify
    obtain ⟨⟨hscan, hjumps⟩, hdepths⟩ := hverify
    have hnonempty : 0 < func.chunk.code.length := List.length_pos_iff.mpr fun h => hempty (h ▸ rfl)
    obtain ⟨hstart, hboundaries⟩ := scan_spec (Nat.zero_add _).ge hscan .start
    have hwhole : WholeAt func.chunk.code (scan func func.chunk.code.length 0).boundaries := by
      intro b hb
      obtain ⟨-, -, op, hscanned, -⟩ := hboundaries b hb
      exact ⟨op, hscanned.decodes, hscanned.whole⟩
    have hinitial : DepthClosed func.chunk.code (scan func func.chunk.code.length 0).boundaries
        (initialDeepest func.chunk.code pastEnd) [⟨0, func.arity + CompilerLimits.firstParameterSlot⟩] := by
      intro o hlt hseen
      rw [initialDeepest, if_pos hlt] at hseen
      exact absurd hseen (by decide)
    have hwalk := walk_invariant (I := fun deepest pending =>
      DepthClosed func.chunk.code (scan func func.chunk.code.length 0).boundaries deepest pending ∧
        (⟨0, func.arity + CompilerLimits.firstParameterSlot⟩ ∈ pending ∨ (pathEntry func).depth ≤ deepest 0))
      ?_ ?_ hdepths ⟨hinitial, Or.inl (List.mem_singleton_self _)⟩
    · exact ⟨hboundaries, hjumps, hstart hnonempty, hwalk.1, hwalk.2.resolve_left List.not_mem_nil⟩
    · rintro deepest p rest hskipped ⟨hclosed, hentry⟩
      refine ⟨hclosed.skip hwhole hskipped, ?_⟩
      rcases hentry with hmem | hdone
      · rcases List.mem_cons.mp hmem with rfl | hmem
        · obtain (hend | hbetween) | hdepth := skipped_cases hwhole hskipped
          · exact absurd hnonempty (Nat.not_lt.mpr hend)
          · exact absurd (hstart hnonempty) hbetween
          · exact Or.inr hdepth
        · exact Or.inl hmem
      · exact Or.inr hdone
    · rintro deepest p rest op pushed hunskipped hop hpushed ⟨hclosed, hentry⟩
      refine ⟨hclosed.simulate hunskipped hop hpushed, ?_⟩
      rcases hentry with hmem | hdone
      · rcases List.mem_cons.mp hmem with rfl | hmem
        · right
          simp [pathEntry]
        · exact Or.inl (List.mem_append_right _ hmem)
      · right
        rw [Function.update_apply]
        split
        next heq => exact hdone.trans (heq ▸ (unskipped_cases hunskipped).2.2.le)
        · exact hdone

theorem instructionSize_of_ofByte {code : Bytes} {op : Op} {offset : Nat}
    (hop : Op.ofByte (byteAt code offset) = some op) : instructionSize code offset = instructionSizeOf op code offset := by
  rw [instructionSize, hop]

theorem Analysed.follow (h : Analysed pastEnd func) {b : Nat} (hb : b ∈ (scan func func.chunk.code.length 0).boundaries)
    (hinside : b + instructionSize func.chunk.code b < func.chunk.code.length) :
    b + instructionSize func.chunk.code b ∈ (scan func func.chunk.code.length 0).boundaries := by
  obtain ⟨-, -, op, hscanned, hafter⟩ := h.scanned b hb
  rw [instructionSize_of_ofByte hscanned.decodes] at hinside ⊢
  exact hafter hinside

/-- The points after an instruction remember it as they should. -/
theorem Analysed.remembers (h : Analysed pastEnd func) (htests : TestsFollowSteps func.chunk.code) {op : Op}
    {p q : PathPoint} (hp : p.offset ∈ (scan func func.chunk.code.length 0).boundaries)
    (hop : Op.ofByte (byteAt func.chunk.code p.offset) = some op) (hq : q ∈ pathSuccessors op func.chunk.code p)
    (hboundary : q.offset ∈ (scan func func.chunk.code.length 0).boundaries) :
    q.Remembers func.chunk.code (scan func func.chunk.code.length 0).boundaries := by
  have hconsecutive : Consecutive func.chunk.code (scan func func.chunk.code.length 0).boundaries :=
    (Checked.scan_boundaries .start).1
  obtain ⟨-, ⟨hnext, hstepped, hplain⟩ | ⟨hbranch, hnone⟩⟩ := pathSuccessors_arrival hq
  · have hprevious : previousOp func.chunk.code (scan func func.chunk.code.length 0).boundaries q.offset = some op := by
      rw [hnext, ← instructionSize_of_ofByte hop, hconsecutive.previousOp_next hp, hop]
    constructor
    · intro step exhausted heq
      obtain ⟨rfl, hpos⟩ := hstepped step exhausted heq
      exact ⟨hprevious, hpos⟩
    · intro hnone _
      simp only [missingAt, hprevious, hplain hnone]
  · constructor
    · intro step exhausted heq
      rw [hnone] at heq
      cases heq
    · intro _ htest
      cases hprevious : previousOp func.chunk.code (scan func func.chunk.code.length 0).boundaries q.offset with
      | none => simp only [missingAt, hprevious]
      | some step =>
        simp only [missingAt, hprevious]
        by_contra hmissing
        obtain ⟨b, hb, hstep, hends⟩ := hconsecutive.previous hboundary (fun b hb => h.follow hb)
          (h.scanned _ hboundary).2.1 hprevious
        rw [instructionSize_of_ofByte hstep] at hends
        exact htests _ _ _ _ _ (h.scanned _ hp).1 hop hbranch (h.scanned _ hb).1 hstep (Nat.pos_of_ne_zero hmissing)
          hends htest

/-- The point is inside, and not deeper above the recorded depth than `bound`. -/
structure OnTrack (pastEnd : Int) (func : CompiledFunction) (bound : Int) (p : PathPoint) : Prop where
  boundary : p.offset ∈ (scan func func.chunk.code.length 0).boundaries
  remembers : p.Remembers func.chunk.code (scan func func.chunk.code.length 0).boundaries
  recorded : 0 ≤ recordedDepths pastEnd func p.offset
  within : p.simulated - recordedDepths pastEnd func p.offset ≤ bound

/-- An instruction of a path does not raise the depth above what is recorded. -/
theorem OnTrack.step (h : Analysed pastEnd func) (htests : TestsFollowSteps func.chunk.code) {bound : Int}
    {p q : PathPoint} (htrack : OnTrack pastEnd func bound p) (hstep : PathStep func.chunk.code p q)
    (hinside : q.offset < func.chunk.code.length) : OnTrack pastEnd func bound q := by
  obtain ⟨hp, op, hop, hq⟩ := hstep
  obtain ⟨op', hop', -, hnext, hedges⟩ := h.closed _ hp htrack.recorded
  cases Option.some.inj (hop.symm.trans hop')
  obtain ⟨-, -, op', hscanned, hafter⟩ := h.scanned _ htrack.boundary
  cases Option.some.inj (hop.symm.trans hscanned.decodes)
  have hboundary : q.offset ∈ (scan func func.chunk.code.length 0).boundaries := by
    have hsuccessor := (pathSuccessors_arrival hq).1
    refine successors_mem_boundaries hscanned hafter h.jumps hnext ?_ hsuccessor
    rintro rfl heq
    rw [successors] at hsuccessor
    split at hsuccessor
    · rw [List.mem_singleton.mp hsuccessor] at hinside
      omega
    · exact absurd hsuccessor List.not_mem_nil
  obtain ⟨e, he, htarget, hle⟩ := pathSuccessors_edge htrack.remembers hop hq
  obtain hunwalkable | ⟨hrecorded, hdepth⟩ | ⟨r, hr, -⟩ := hedges e he
  · rw [htarget] at hunwalkable
    exact absurd hunwalkable (by rintro (hend | hbetween); exacts [absurd hinside (Nat.not_lt.mpr hend), hbetween hboundary])
  · rw [htarget] at hrecorded hdepth
    have hwithin := htrack.within
    exact ⟨hboundary, h.remembers htests htrack.boundary hop hq hboundary, hrecorded, by omega⟩
  · exact absurd hr List.not_mem_nil

theorem OnTrack.path (h : Analysed pastEnd func) (htests : TestsFollowSteps func.chunk.code) {bound : Int}
    {p q : PathPoint} (htrack : OnTrack pastEnd func bound p) (hpath : Path func.chunk.code p q)
    (hinside : q.offset < func.chunk.code.length) : OnTrack pastEnd func bound q := by
  induction hpath with
  | refl => exact htrack
  | tail _ hstep ih => exact (ih hstep.1).step h htests hstep hinside

theorem Analysed.onTrack_entry (h : Analysed pastEnd func) : OnTrack pastEnd func 0 (pathEntry func) := by
  have hdepth := h.entry
  have hnonneg : 0 ≤ (pathEntry func).depth := by
    simp only [pathEntry]
    omega
  refine ⟨h.start, ⟨fun step exhausted heq => ?_, fun _ _ => ?_⟩, hnonneg.trans hdepth, ?_⟩
  · cases heq
  · have hnone : previousOp func.chunk.code (scan func func.chunk.code.length 0).boundaries 0 = none := by
      simp [previousOp]
    simp only [pathEntry, missingAt, hnone]
  · simpa [pathEntry] using hdepth

/-! ## Depths that paths attain -/

/-- A path comes to the offset with this depth; to the test of an iteration step also with
    what an exhausted iterator leaves of it. -/
def Attains (func : CompiledFunction) (offset : Nat) (depth : Int) : Prop :=
  (∃ p, Path func.chunk.code (pathEntry func) p ∧ p.offset = offset ∧ p.depth = depth ∧
    (∀ step, p.stepped ≠ some (step, true)) ∧
    p.Remembers func.chunk.code (scan func func.chunk.code.length 0).boundaries) ∧
  ∀ step, Op.ofByte (byteAt func.chunk.code offset) = some .jumpIfFalse →
    previousOp func.chunk.code (scan func func.chunk.code.length 0).boundaries offset = some step →
    0 < valuesMissingWhenExhausted step →
    ∃ p, Path func.chunk.code (pathEntry func) p ∧ p.offset = offset ∧
      p.depth = depth - valuesMissingWhenExhausted step ∧ p.stepped = some (step, true)

theorem attains_of_plain {p : PathPoint} (hpath : Path func.chunk.code (pathEntry func) p) (hplain : p.stepped = none)
    (hremembers : p.Remembers func.chunk.code (scan func func.chunk.code.length 0).boundaries) :
    Attains func p.offset p.depth := by
  refine ⟨⟨p, hpath, rfl, rfl, fun step heq => ?_, hremembers⟩, fun step htest hprevious hmissing => ?_⟩
  · rw [hplain] at heq
    cases heq
  · have hzero := hremembers.2 hplain htest
    simp only [missingAt, hprevious] at hzero
    omega

/-- A depth that is attained is passed on along an edge. -/
theorem Attains.edge (h : Analysed pastEnd func) (htests : TestsFollowSteps func.chunk.code) {op : Op}
    {offset : Nat} {depth : Int} (hattains : Attains func offset depth)
    (hoffset : offset ∈ (scan func func.chunk.code.length 0).boundaries)
    (hop : Op.ofByte (byteAt func.chunk.code offset) = some op) {e : Nat × Int}
    (he : e ∈ edges op func.chunk.code (scan func func.chunk.code.length 0).boundaries offset)
    (htarget : e.1 ∈ (scan func func.chunk.code.length 0).boundaries) : Attains func e.1 (depth + e.2) := by
  obtain ⟨⟨p, hpath, rfl, rfl, hgoing, hremembers⟩, hexhausted⟩ := hattains
  have hinside := (h.scanned _ hoffset).2.1
  -- A way on without an iteration step attains what its edge says.
  have hon : ∀ {p' : PathPoint}, Path func.chunk.code (pathEntry func) p' → p'.offset = p.offset →
      ∀ q ∈ pathSuccessors op func.chunk.code p', q.stepped = none → q.offset = e.1 → q.depth = p.depth + e.2 →
        Attains func e.1 (p.depth + e.2) := by
    intro p' hpath' hsame q hq hplain hqoffset hqdepth
    have hstep : PathStep func.chunk.code p' q := ⟨hsame ▸ hinside, op, hsame ▸ hop, hq⟩
    rw [← hqoffset, ← hqdepth]
    refine attains_of_plain (hpath'.tail hstep) hplain (h.remembers htests (hsame ▸ hoffset) (hsame ▸ hop) hq ?_)
    rw [hqoffset]
    exact htarget
  by_cases htest : op = .jumpIfFalse
  · subst htest
    simp only [edges, List.mem_cons, List.not_mem_nil, or_false] at he
    rcases he with rfl | rfl
    · refine hon hpath rfl ⟨_, p.depth - (stackEffectOf .jumpIfFalse func.chunk.code p.offset).pops +
        (stackEffectOf .jumpIfFalse func.chunk.code p.offset).pushes, none⟩ ?_ rfl rfl (by dsimp only; omega)
      rcases hstepped : p.stepped with _ | ⟨step, _ | _⟩
      · simp only [pathSuccessors, hstepped, List.mem_cons, true_or]
      · simp only [pathSuccessors, hstepped, List.mem_cons, true_or]
      · exact absurd hstepped (hgoing step)
    · rcases Nat.eq_zero_or_pos (missingAt .jumpIfFalse func.chunk.code
        (scan func func.chunk.code.length 0).boundaries p.offset) with hzero | hpos
      · -- Not the test of an iteration step: the path did not come from one.
        refine hon hpath rfl ⟨_, p.depth - (stackEffectOf .jumpIfFalse func.chunk.code p.offset).pops +
          (stackEffectOf .jumpIfFalse func.chunk.code p.offset).pushes, none⟩ ?_ rfl rfl
          (by dsimp only; rw [hzero]; omega)
        rcases hstepped : p.stepped with _ | ⟨step, exhausted⟩
        · simp only [pathSuccessors, hstepped, List.mem_cons, true_or, or_true]
        · obtain ⟨hprevious, hmissing⟩ := hremembers.1 step exhausted hstepped
          simp only [missingAt, hprevious] at hzero
          omega
      · cases hprevious : previousOp func.chunk.code (scan func func.chunk.code.length 0).boundaries p.offset with
        | none =>
          simp only [missingAt, hprevious] at hpos
          omega
        | some step =>
          have hmissing : missingAt .jumpIfFalse func.chunk.code
              (scan func func.chunk.code.length 0).boundaries p.offset = valuesMissingWhenExhausted step := by
            simp only [missingAt, hprevious]
          rw [hmissing] at hpos
          obtain ⟨p', hpath', hsame, hdepth, hstepped⟩ := hexhausted step hop hprevious hpos
          refine hon hpath' hsame ⟨_, p'.depth - (stackEffectOf .jumpIfFalse func.chunk.code p.offset).pops +
            (stackEffectOf .jumpIfFalse func.chunk.code p.offset).pushes, none⟩ ?_ rfl rfl
            (by dsimp only; rw [hmissing]; omega)
          simp only [pathSuccessors, hstepped, hsame, List.mem_cons, true_or]
  by_cases hplain : valuesMissingWhenExhausted op = 0
  · obtain ⟨q, hq, hnone, hqoffset, hqdepth⟩ := edge_pathSuccessor (p := p) htest hplain he
    exact hon hpath rfl q hq hnone hqoffset hqdepth
  · -- An iteration step goes on with and without a value.
    obtain ⟨hedge, hgoes, hends⟩ := iteration_successors func.chunk.code p
      (scan func func.chunk.code.length 0).boundaries (Nat.pos_of_ne_zero hplain)
    rw [hedge] at he
    cases List.mem_singleton.mp he
    have hpoint := hpath.tail ⟨hinside, op, hop, hgoes⟩
    refine ⟨⟨_, hpoint, rfl, by dsimp only; omega, fun step heq => ?_, h.remembers htests hoffset hop hgoes htarget⟩,
      fun step _ hprevious _ => ⟨_, hpath.tail ⟨hinside, op, hop, hends⟩, rfl, ?_, ?_⟩⟩
    · cases heq
    all_goals
      rw [((h.remembers htests hoffset hop hgoes htarget).1 op false rfl).1] at hprevious
      cases hprevious
    · dsimp only
      omega
    · rfl

theorem checkStackDepths_of_verify (hverify : verify pastEnd func = []) :
    checkStackDepths pastEnd func (scan func func.chunk.code.length 0).boundaries = [] := by
  unfold verify at hverify
  dsimp only at hverify
  split at hverify
  · exact absurd hverify (List.cons_ne_nil _ _)
  · exact (List.append_eq_nil_iff.mp hverify).2

/-- Some path comes to an instruction with the depth recorded for it. -/
theorem attains_recordedDepths (hverify : verify pastEnd func = []) (htests : TestsFollowSteps func.chunk.code)
    {offset : Nat} (hoffset : offset ∈ (scan func func.chunk.code.length 0).boundaries)
    (hrecorded : 0 ≤ recordedDepths pastEnd func offset) :
    Attains func offset (recordedDepths pastEnd func offset) := by
  have h := analysed_of_verify hverify
  have hwalk := walk_invariant (I := fun deepest pending =>
    (∀ o ∈ (scan func func.chunk.code.length 0).boundaries, 0 ≤ deepest o → Attains func o (deepest o)) ∧
      ∀ q ∈ pending, q.offset ∈ (scan func func.chunk.code.length 0).boundaries → Attains func q.offset q.depth)
    ?_ ?_ (checkStackDepths_of_verify hverify) ⟨?_, ?_⟩
  · exact hwalk.1 offset hoffset hrecorded
  · rintro deepest p rest - ⟨hdone, hpending⟩
    exact ⟨hdone, fun q hq => hpending q (List.mem_cons_of_mem _ hq)⟩
  · rintro deepest p rest op pushed hunskipped hop hpushed ⟨hdone, hpending⟩
    obtain ⟨-, hp, -⟩ := unskipped_cases hunskipped
    have hattains := hpending p List.mem_cons_self hp
    refine ⟨fun o ho hseen => ?_, fun q hq hboundary => ?_⟩
    · by_cases heq : o = p.offset
      · subst heq
        rw [Function.update_self]
        exact hattains
      · rw [Function.update_of_ne heq] at hseen ⊢
        exact hdone o ho hseen
    · rcases List.mem_append.mp hq with hq | hq
      · have hmem := List.mem_map_of_mem (f := fun q : PendingInstruction => (q.offset, (q.depth : Int)))
          (List.mem_reverse.mp hq)
        rw [(simulate_edges hpushed).2] at hmem
        obtain ⟨e, he, heq⟩ := List.mem_map.mp hmem
        obtain ⟨htarget, hdepth⟩ := Prod.mk.inj heq
        rw [← htarget] at hboundary ⊢
        rw [← hdepth]
        exact hattains.edge h htests hp hop he hboundary
      · exact hpending q (List.mem_cons_of_mem _ hq) hboundary
  · intro o ho hseen
    rw [initialDeepest, if_pos (h.scanned o ho).2.1] at hseen
    exact absurd hseen (by decide)
  · intro q hq _
    rw [List.mem_singleton.mp hq]
    exact attains_of_plain .refl rfl h.onTrack_entry.remembers

end Accepted

/-- One instruction of a path, checked by evaluation. -/
theorem PathStep.of_mem {code : Bytes} {p q : PathPoint} (op : Op) (hinside : p.offset < code.length)
    (hop : Op.ofByte (byteAt code p.offset) = some op) (hq : q ∈ pathSuccessors op code p) : PathStep code p q :=
  ⟨hinside, op, hop, hq⟩

/-- A loop over an iterator: the step at 1, its test at 2 with its exit at 14, the way back
    at 9. -/
def iterationCode : Bytes :=
  [Op.true_.toByte, Op.forIterStep.toByte, Op.jumpIfFalse.toByte, 0, 0, 0, 7, Op.pop.toByte, Op.pop.toByte,
    Op.loop.toByte, 0, 0, 0, 14, Op.return_.toByte]

theorem boundary_of_iterationCode {offset : Nat} (h : IsBoundary iterationCode offset) :
    offset = 0 ∨ offset = 1 ∨ offset = 2 ∨ offset = 7 ∨ offset = 8 ∨ offset = 9 ∨ offset = 14 ∨ offset = 15 := by
  induction h with
  | start => exact Or.inl rfl
  | next _ hinside hop ih =>
    rcases ih with rfl | rfl | rfl | rfl | rfl | rfl | rfl | rfl
    case inr.inr.inr.inr.inr.inr.inr => exact absurd hinside (by decide)
    all_goals
      cases hop
      decide

theorem testsFollowSteps_iterationCode : TestsFollowSteps iterationCode := by
  intro offset op target stepOffset step hoffset hop htarget hstepOffset hstep hmissing hends
  have hstepped : target = 2 := by
    rcases boundary_of_iterationCode hstepOffset with rfl | rfl | rfl | rfl | rfl | rfl | rfl | rfl <;> cases hstep
    case inr.inl => exact hends.symm
    all_goals exact absurd hmissing (by decide)
  subst hstepped
  rcases boundary_of_iterationCode hoffset with rfl | rfl | rfl | rfl | rfl | rfl | rfl | rfl <;> cases hop <;>
    exact absurd htarget (by decide)

/-- The path once around the loop. -/
theorem path_iterationCode : Path iterationCode (pathEntry (functionOf iterationCode)) ⟨0, 1, none⟩ := by
  have h1 : Path iterationCode (pathEntry (functionOf iterationCode)) ⟨1, 2, none⟩ :=
    .single (.of_mem .true_ (by decide) rfl (by decide))
  have h2 : Path iterationCode (pathEntry (functionOf iterationCode)) ⟨2, 3, some (.forIterStep, false)⟩ :=
    h1.tail (.of_mem .forIterStep (by decide) rfl (by decide))
  have h7 : Path iterationCode (pathEntry (functionOf iterationCode)) ⟨7, 3, none⟩ :=
    h2.tail (.of_mem .jumpIfFalse (by decide) rfl (by decide))
  have h8 : Path iterationCode (pathEntry (functionOf iterationCode)) ⟨8, 2, none⟩ :=
    h7.tail (.of_mem .pop (by decide) rfl (by decide))
  have h9 : Path iterationCode (pathEntry (functionOf iterationCode)) ⟨9, 1, none⟩ :=
    h8.tail (.of_mem .pop (by decide) rfl (by decide))
  exact h9.tail (.of_mem .loop (by decide) rfl (by decide))

/-- Two ways of different depth meet at 12, and three values are popped: the deeper way
    comes from the jump, which is simulated first. -/
def mergeCode : Bytes :=
  [Op.true_.toByte, Op.jumpIfFalse.toByte, 0, 0, 0, 5, Op.jump.toByte, 0, 0, 0, 1, Op.true_.toByte, Op.pop.toByte,
    Op.pop.toByte, Op.pop.toByte, Op.true_.toByte, Op.return_.toByte]

/-- A conditional jump at 13 after an iteration step at 12 that is also jumped to. -/
def sharedTestCode : Bytes :=
  [Op.true_.toByte, Op.jumpIfTrue.toByte, 0, 0, 0, 6, Op.true_.toByte, Op.jump.toByte, 0, 0, 0, 1,
    Op.forIterStep.toByte, Op.jumpIfFalse.toByte, 0, 0, 0, 1, Op.return_.toByte, Op.return_.toByte]

end BytecodeVerifier

end Luma
