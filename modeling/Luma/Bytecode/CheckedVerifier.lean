-- SUMMARY: The verifier with every read of the code and its tables checked, and when none fails.
import Luma.Bytecode.Flow

/-! # Reads of the Verifier

The verifier runs on code from untrusted files. Here each of its reads, of the code,
of the boundaries and of the depths, is an `Option`: `none` is a read outside the
table, or a pass that does not end. Only a loop without an operand at the end of the
code makes one fail. -/

namespace Luma

open Codec

namespace BytecodeVerifier

/-- The last instruction of the code is a loop with operand 0: its target is the end
    of the code. -/
def EndsInZeroLoop (code : Bytes) : Prop :=
  ∃ offset, IsBoundary code offset ∧ Op.ofByte (byteAt code offset) = some .loop ∧
    offset + 5 = code.length ∧ readU32At code (offset + 1) = 0

/-- Where a jump or a loop leads. -/
def jumpTarget (op : Op) (code : Bytes) (offset : Nat) : Int :=
  if op = .loop then (offset : Int) + 5 - readU32At code (offset + 1)
  else resolveForwardJumpTarget offset (readU32At code (offset + 1))

/-- Some jump or loop leads outside the code. -/
def HasBadTarget (code : Bytes) : Prop :=
  ∃ offset op, IsBoundary code offset ∧ offset < code.length ∧
    Op.ofByte (byteAt code offset) = some op ∧ op.isJump = true ∧
    ¬ (0 ≤ jumpTarget op code offset ∧ jumpTarget op code offset < code.length)

namespace Checked

/-! ## Checked reads -/

def readU16At (code : Bytes) (offset : Nat) : Option Nat := do
  let high ← code[offset]?
  let low ← code[offset + 1]?
  return high.toNat * 256 + low.toNat

def readU32At (code : Bytes) (offset : Nat) : Option Nat := do
  let high ← readU16At code offset
  let low ← readU16At code (offset + 2)
  return high * 65536 + low

def instructionSizeOf (op : Op) (code : Bytes) (offset : Nat) : Option Nat :=
  match op with
  | .makeRecord =>
    if code.length ≤ offset + 3 then some 4
    else code[offset + 3]?.map fun count => 4 + count.toNat * 2
  | .recordWith =>
    if code.length ≤ offset + 1 then some 2
    else code[offset + 1]?.map fun count => 2 + count.toNat * 2
  | op => some op.opcodeBaseSize

/-- The opcode of the last instruction before `offset`: the element before the first
    boundary that is not below `offset`. -/
def previousOp (code : Bytes) (boundaries : List Nat) (offset : Nat) : Option (Option Op) :=
  let lowerBound := (boundaries.takeWhile (· < offset)).length
  if lowerBound = 0 then some none
  else do
    let previous ← boundaries[lowerBound - 1]?
    let byte ← code[previous]?
    return Op.ofByte byte

/-! ## Linear pass -/

def checkOperandBounds (func : CompiledFunction) (op : Op) (offset : Nat) : Option (List VerifyError) :=
  let code := func.chunk.code
  if op.operandCategory = .none_ then some []
  else if op = .constantLong then
    if !inBounds code offset 5 then some []
    else do
      let idx ← readU32At code (offset + 1)
      let poolSize := func.chunk.constants.values.length
      return if poolSize ≤ idx then [.constantLongOutOfBounds offset idx poolSize] else []
  else if !inBounds code offset 3 then some []
  else do
    let idx ← readU16At code (offset + 1)
    match op.operandCategory with
    | .constant =>
      let poolSize := func.chunk.constants.values.length
      return if poolSize ≤ idx then [.constantOutOfBounds offset idx poolSize] else []
    | .name =>
      let namesSize := func.chunk.names.names.length
      return if namesSize ≤ idx then [.nameOutOfBounds offset op idx namesSize] else []
    | .upvalue =>
      return if func.upvalueCount % 65536 ≤ idx then
          [.upvalueOutOfBounds offset op idx func.upvalueCount]
        else []
    | .local => return if CompilerLimits.maxLocals ≤ idx then [.localOutOfBounds offset op idx] else []
    | .none_ => return []

def collectJumps (code : Bytes) (op : Op) (offset : Nat) : Option (List JumpRecord × List VerifyError) :=
  if op.isForwardJump then
    if !inBounds code offset 5 then some ([], [])
    else do
      let target := resolveForwardJumpTarget offset (← readU32At code (offset + 1))
      return if code.length ≤ target then ([], [.jumpTargetBeyondCode offset target code.length])
        else ([⟨offset, target, false⟩], [])
  else if op = .loop then
    if !inBounds code offset 5 then some ([], [])
    else do
      let loopOffset ← readU32At code (offset + 1)
      return if offset + 5 < loopOffset then ([], [.loopUnderflow offset loopOffset])
        else ([⟨offset, resolveLoopJumpTarget offset loopOffset, true⟩], [])
  else some ([], [])

def scan (func : CompiledFunction) : (fuel : Nat) → (offset : Nat) → Option Scan
  | 0, offset => if offset < func.chunk.code.length then none else some ⟨[], [], []⟩
  | fuel + 1, offset =>
    let code := func.chunk.code
    if offset < code.length then do
      let byte ← code[offset]?
      match Op.ofByte byte with
      | none => return ⟨[offset], [], [.invalidOpcode offset byte]⟩
      | some op =>
        let size ← instructionSizeOf op code offset
        if code.length < offset + size then
          return ⟨[offset], [], [.instructionTruncated offset op size (code.length - offset)]⟩
        else
          let operands ← checkOperandBounds func op offset
          let jump ← collectJumps code op offset
          let rest ← scan func fuel (offset + size)
          return ⟨offset :: rest.boundaries, jump.1 ++ rest.jumps, operands ++ jump.2 ++ rest.errors⟩
    else some ⟨[], [], []⟩

/-! ## Stack depths -/

def stackEffectOf (op : Op) (code : Bytes) (offset : Nat) : Option StackEffect :=
  let u8 (at_ : Nat) : Option Nat := code[offset + at_]?.map UInt8.toNat
  let u16 (at_ : Nat) : Option Nat := readU16At code (offset + at_)
  match op with
  | .interpolate | .print | .assert => (u8 1).map fun count => ⟨count, 1⟩
  | .makeArray | .makeTuple => (u16 1).map fun count => ⟨count, 1⟩
  | .makeDict => (u16 1).map fun count => ⟨2 * count, 1⟩
  | .makeRecord => (u8 3).map fun count => ⟨count, 1⟩
  | .recordWith | .call | .tailCall | .spawn => (u8 1).map fun count => ⟨count + 1, 1⟩
  | .callNamed => do
    let positional ← u8 1
    let named ← u8 2
    return ⟨positional + 2 * named + 1, 1⟩
  -- The other opcodes have an effect that no operand changes.
  | op => some (BytecodeVerifier.stackEffectOf op code offset)

def skipped (code : Bytes) (boundaries : List Nat) (deepest : List Int) (p : PendingInstruction) :
    Option Bool :=
  if code.length ≤ p.offset then some true
  else if !boundaries.contains p.offset then some true
  else do
    let known ← deepest[p.offset]?
    if (p.depth : Int) ≤ known then return true
    else
      let byte ← code[p.offset]?
      match Op.ofByte byte with
      | none => return true
      | some op => (instructionSizeOf op code p.offset).map fun size => decide (code.length < p.offset + size)

def dropSkipped (code : Bytes) (boundaries : List Nat) (deepest : List Int) :
    List PendingInstruction → Option (List PendingInstruction)
  | [] => some []
  | p :: rest => do
    if ← skipped code boundaries deepest p then dropSkipped code boundaries deepest rest
    else return p :: rest

def simulate (code : Bytes) (boundaries : List Nat) (deepest : List Int) (p : PendingInstruction)
    (op : Op) : Option (Except VerifyError (List PendingInstruction)) := do
  let offset := p.offset
  let effect ← stackEffectOf op code offset
  if p.depth < effect.pops then return .error (.stackUnderflow offset op)
  else
    let after := p.depth - effect.pops + effect.pushes
    if CompilerLimits.maxStackDepth < after then return .error (.stackOverflow offset after)
    else
      let next := offset + (← instructionSizeOf op code offset)
      if !alwaysTransfers op && decide (code.length ≤ next) then
        return .error (.fallsOffEnd offset code.length)
      else
        match op with
        | .return_ | .getLocalReturn | .rethrow | .endModule => return .ok []
        | .jump =>
          let target := resolveForwardJumpTarget offset (← readU32At code (offset + 1))
          return .ok [⟨target, after⟩]
        | .loop =>
          let back ← readU32At code (offset + 1)
          if back ≤ next then
            let header := resolveLoopJumpTarget offset back
            let known ← deepest[header]?
            return if 0 ≤ known ∧ known < after then .error (.loopStackGrowth offset (after - known))
              else .ok [⟨header, after⟩]
          else return .ok []
        | .jumpIfFalse | .jumpIfTrue | .nullCoalesce =>
          let previous ← previousOp code boundaries offset
          let missing :=
            match op, previous with
            | .jumpIfFalse, some previous => valuesMissingWhenExhausted previous
            | _, _ => 0
          if after < missing then return .error (.stackUnderflow offset op)
          else
            let target := resolveForwardJumpTarget offset (← readU32At code (offset + 1))
            return .ok [⟨next, after⟩, ⟨target, after - missing⟩]
        | .tryCatch =>
          let target := resolveForwardJumpTarget offset (← readU32At code (offset + 1))
          return .ok [⟨next, after⟩, ⟨target, after + 1⟩]
        | _ => return .ok [⟨next, after⟩]

def walk (code : Bytes) (boundaries : List Nat) :
    (budget : Nat) → (deepest : List Int) → List PendingInstruction → Option (List VerifyError)
  | budget, deepest, pending => do
    match ← dropSkipped code boundaries deepest pending with
    | [] => return []
    | p :: rest =>
      match budget with
      | 0 => return [.stackAnalysisBudget p.offset]
      | budget + 1 =>
        let byte ← code[p.offset]?
        match Op.ofByte byte with
        | none => return []
        | some op =>
          let deepest' := deepest.set p.offset p.depth
          match ← simulate code boundaries deepest' p op with
          | .error e => return [e]
          | .ok pushed => walk code boundaries budget deepest' (pushed.reverse ++ rest)

def checkStackDepths (func : CompiledFunction) (boundaries : List Nat) : Option (List VerifyError) :=
  let code := func.chunk.code
  walk code boundaries (boundaries.length * maxVisitsPerInstruction + 1) (List.replicate code.length (-1))
    [⟨0, func.arity + CompilerLimits.firstParameterSlot⟩]

def verify (func : CompiledFunction) : Option (List VerifyError) :=
  let code := func.chunk.code
  if code.isEmpty then some [.emptyBytecode]
  else do
    let s ← scan func code.length 0
    let depths ← checkStackDepths func s.boundaries
    return s.errors ++ checkJumpTargets code s ++ depths

/-! ## Reads that succeed -/

section Reads

variable {func : CompiledFunction} {code : Bytes} {op : Op} {offset : Nat} {boundaries : List Nat}

theorem getElem?_byteAt (h : offset < code.length) : code[offset]? = some (byteAt code offset) := by
  rw [byteAt, List.getD_eq_getElem?_getD, List.getElem?_eq_getElem h, Option.getD_some]

theorem readU16At_eq (h : offset + 2 ≤ code.length) :
    readU16At code offset = some (Luma.readU16At code offset) := by
  rw [readU16At, getElem?_byteAt (by omega), getElem?_byteAt (by omega)]
  rfl

theorem readU32At_eq (h : offset + 4 ≤ code.length) :
    readU32At code offset = some (Luma.readU32At code offset) := by
  rw [readU32At, readU16At_eq (by omega), readU16At_eq (by omega)]
  rfl

theorem instructionSizeOf_eq : instructionSizeOf op code offset = some (Luma.instructionSizeOf op code offset) := by
  cases op with
  | makeRecord =>
    simp only [instructionSizeOf, Luma.instructionSizeOf]
    split
    · rfl
    · rw [getElem?_byteAt (by omega), Option.map_some]
  | recordWith =>
    simp only [instructionSizeOf, Luma.instructionSizeOf]
    split
    · rfl
    · rw [getElem?_byteAt (by omega), Option.map_some]
  | _ => rfl

theorem inBounds_iff {size : Nat} :
    inBounds code offset size = true ↔ offset + size ≤ code.length ∧ offset ≤ code.length := by
  simp only [inBounds, Bool.and_eq_true, decide_eq_true_eq]
  omega

theorem checkOperandBounds_eq :
    checkOperandBounds func op offset = some (BytecodeVerifier.checkOperandBounds func op offset) := by
  unfold checkOperandBounds BytecodeVerifier.checkOperandBounds
  dsimp only
  split
  · rfl
  split
  · split
    · rfl
    next hin =>
      rw [Bool.not_eq_true, Bool.not_eq_false', inBounds_iff] at hin
      rw [readU32At_eq (by omega)]
      rfl
  split
  · rfl
  next hin =>
    rw [Bool.not_eq_true, Bool.not_eq_false', inBounds_iff] at hin
    rw [readU16At_eq (by omega)]
    cases op.operandCategory <;> rfl

theorem collectJumps_eq : collectJumps code op offset = some (BytecodeVerifier.collectJumps code op offset) := by
  unfold collectJumps BytecodeVerifier.collectJumps
  split
  · split
    · rfl
    next hin =>
      rw [Bool.not_eq_true, Bool.not_eq_false', inBounds_iff] at hin
      rw [readU32At_eq (by omega)]
      rfl
  split
  · split
    · rfl
    next hin =>
      rw [Bool.not_eq_true, Bool.not_eq_false', inBounds_iff] at hin
      rw [readU32At_eq (by omega)]
      rfl
  · rfl

/-- The linear pass reads inside the code and comes to its end. -/
theorem scan_eq {fuel : Nat} (hfuel : func.chunk.code.length ≤ offset + fuel) :
    scan func fuel offset = some (BytecodeVerifier.scan func fuel offset) := by
  induction fuel generalizing offset with
  | zero => rw [scan, if_neg (by omega), BytecodeVerifier.scan]
  | succ fuel ih =>
    rw [scan, BytecodeVerifier.scan]
    dsimp only
    split
    next hinside =>
      rw [getElem?_byteAt hinside]
      dsimp only [bind, Option.bind]
      cases hop : Op.ofByte (byteAt func.chunk.code offset) with
      | none => rfl
      | some op =>
        have hpos := (Op.opcodeBaseSize_pos op).trans_le (instructionSizeOf_ge op func.chunk.code offset)
        dsimp only
        rw [instructionSizeOf_eq]
        dsimp only
        split
        · rfl
        · rw [checkOperandBounds_eq, collectJumps_eq, ih (by omega)]
          rfl
    · rfl

/-- The operands that decide a stack effect lie in the instruction. -/
theorem stackEffectOf_eq (hwhole : offset + Luma.instructionSizeOf op code offset ≤ code.length) :
    stackEffectOf op code offset = some (BytecodeVerifier.stackEffectOf op code offset) := by
  have hsize : offset + op.opcodeBaseSize ≤ code.length :=
    (Nat.add_le_add_left (instructionSizeOf_ge op code offset) offset).trans hwhole
  have hu8 : ∀ at_, at_ < op.opcodeBaseSize → code[offset + at_]? = some (byteAt code (offset + at_)) :=
    fun at_ h => getElem?_byteAt (by omega)
  have hu16 : ∀ at_, at_ + 1 < op.opcodeBaseSize →
      readU16At code (offset + at_) = some (Luma.readU16At code (offset + at_)) :=
    fun at_ h => readU16At_eq (by omega)
  unfold stackEffectOf
  dsimp only
  split
  case h_4 | h_5 | h_6 => rw [hu16 1 (by decide)]; rfl
  case h_1 | h_2 | h_3 | h_8 | h_9 | h_10 | h_11 => rw [hu8 1 (by decide)]; rfl
  case h_7 => rw [hu8 3 (by decide)]; rfl
  case h_12 =>
    rw [hu8 1 (by decide), hu8 2 (by decide)]
    rfl
  case h_13 => rfl

/-- The boundaries of the linear pass are inside the code, in order, and the instruction at
    one ends before the next. -/
theorem scan_boundaries {fuel : Nat} (hoffset : IsBoundary func.chunk.code offset) :
    (BytecodeVerifier.scan func fuel offset).boundaries.Pairwise
        (fun b b' => b + instructionSize func.chunk.code b ≤ b') ∧
      ∀ b ∈ (BytecodeVerifier.scan func fuel offset).boundaries,
        offset ≤ b ∧ b < func.chunk.code.length ∧ IsBoundary func.chunk.code b := by
  induction fuel generalizing offset with
  | zero => exact ⟨List.Pairwise.nil, fun _ hb => absurd hb List.not_mem_nil⟩
  | succ fuel ih =>
    rw [BytecodeVerifier.scan]
    dsimp only
    split
    next hinside =>
      have hsingle : ∀ b ∈ [offset], offset ≤ b ∧ b < func.chunk.code.length ∧ IsBoundary func.chunk.code b := by
        intro b hb
        rw [List.mem_singleton.mp hb]
        exact ⟨Nat.le_refl _, hinside, hoffset⟩
      cases hop : Op.ofByte (byteAt func.chunk.code offset) with
      | none => exact ⟨List.pairwise_singleton _ _, hsingle⟩
      | some op =>
        dsimp only
        split
        · exact ⟨List.pairwise_singleton _ _, hsingle⟩
        · have hpos := (Op.opcodeBaseSize_pos op).trans_le (instructionSizeOf_ge op func.chunk.code offset)
          obtain ⟨hsorted, hothers⟩ := ih (hoffset.next hinside hop)
          refine ⟨List.pairwise_cons.mpr ⟨fun b hb => ?_, hsorted⟩, fun b hb => ?_⟩
          · rw [instructionSize, hop]
            exact (hothers b hb).1
          · rcases List.mem_cons.mp hb with rfl | hb
            · exact hsingle b (List.mem_singleton_self b)
            · exact ⟨(Nat.le_add_right _ _).trans (hothers b hb).1, (hothers b hb).2⟩
    · exact ⟨List.Pairwise.nil, fun _ hb => absurd hb List.not_mem_nil⟩

theorem scan_boundaries_sorted {fuel : Nat} (hoffset : IsBoundary func.chunk.code offset) :
    (BytecodeVerifier.scan func fuel offset).boundaries.Pairwise (· < ·) := by
  refine (scan_boundaries hoffset).1.imp fun {b b'} h => ?_
  have hpos := instructionSize_pos func.chunk.code b
  omega

theorem filter_eq_takeWhile (hsorted : boundaries.Pairwise (· < ·)) :
    boundaries.filter (· < offset) = boundaries.takeWhile (· < offset) := by
  induction boundaries with
  | nil => rfl
  | cons b boundaries ih =>
    obtain ⟨hfirst, hsorted⟩ := List.pairwise_cons.mp hsorted
    by_cases hb : b < offset
    · rw [List.filter_cons_of_pos (by simpa using hb), List.takeWhile_cons_of_pos (by simpa using hb), ih hsorted]
    · rw [List.filter_cons_of_neg (by simpa using hb), List.takeWhile_cons_of_neg (by simpa using hb),
        List.filter_eq_nil_iff]
      intro c hc
      have := hfirst c hc
      simp only [decide_eq_true_eq]
      omega

/-- The boundary before an instruction is found in the table, and its opcode in the code. -/
theorem previousOp_eq (hsorted : boundaries.Pairwise (· < ·)) (hinside : ∀ b ∈ boundaries, b < code.length) :
    previousOp code boundaries offset = some (BytecodeVerifier.previousOp code boundaries offset) := by
  have hprefix := List.takeWhile_prefix (l := boundaries) (· < offset)
  rw [previousOp, BytecodeVerifier.previousOp, filter_eq_takeWhile hsorted, List.getLast?_eq_getElem?]
  split
  next hzero =>
    rw [List.length_eq_zero_iff.mp hzero]
    rfl
  next hpos =>
    have hlast : (boundaries.takeWhile (· < offset)).length - 1 < (boundaries.takeWhile (· < offset)).length := by
      omega
    have hread : boundaries[(boundaries.takeWhile (· < offset)).length - 1]? =
        some ((boundaries.takeWhile (· < offset))[(boundaries.takeWhile (· < offset)).length - 1]) := by
      rw [List.getElem?_eq_getElem (hlast.trans_le hprefix.length_le), hprefix.getElem hlast]
    have hmem := hprefix.subset (List.getElem_mem hlast)
    rw [hread, List.getElem?_eq_getElem hlast]
    dsimp only [bind, Option.bind]
    rw [getElem?_byteAt (hinside _ hmem)]
    rfl

end Reads

/-! ## The walk -/

section Walk

variable {code : Bytes} {boundaries : List Nat} {known : List Int} {deepest : Deepest}
  {p : PendingInstruction} {op : Op}

/-- The table has the depth of every offset of the code. -/
structure Tabulates (code : Bytes) (known : List Int) (deepest : Deepest) : Prop where
  length_eq : known.length = code.length
  getElem? : ∀ offset, offset < code.length → known[offset]? = some (deepest offset)

theorem Tabulates.initial {pastEnd : Int} :
    Tabulates code (List.replicate code.length (-1)) (initialDeepest code pastEnd) where
  length_eq := List.length_replicate
  getElem? offset h := by rw [List.getElem?_replicate, if_pos h, initialDeepest, if_pos h]

theorem Tabulates.set (h : Tabulates code known deepest) (hinside : p.offset < code.length) :
    Tabulates code (known.set p.offset p.depth) (Function.update deepest p.offset p.depth) where
  length_eq := by rw [List.length_set, h.length_eq]
  getElem? offset hoffset := by
    rw [List.getElem?_set, Function.update_apply]
    by_cases heq : p.offset = offset
    · rw [if_pos heq, if_pos heq.symm, if_pos (by rw [h.length_eq]; omega)]
    · rw [if_neg heq, if_neg (Ne.symm heq), h.getElem? offset hoffset]

theorem skipped_eq (h : Tabulates code known deepest) :
    skipped code boundaries known p = some (BytecodeVerifier.skipped code boundaries deepest p) := by
  unfold skipped BytecodeVerifier.skipped
  by_cases hend : code.length ≤ p.offset
  · simp [hend]
  by_cases hbetween : p.offset ∈ boundaries
  swap
  · simp [hend, hbetween]
  rw [if_neg hend, if_neg (by simpa using hbetween), h.getElem? _ (by omega)]
  dsimp only [bind, Option.bind]
  by_cases hseen : (p.depth : Int) ≤ deepest p.offset
  · simp [hseen]
  rw [if_neg hseen, getElem?_byteAt (by omega)]
  dsimp only
  cases hop : Op.ofByte (byteAt code p.offset) with
  | none => simp
  | some op => simp [instructionSizeOf_eq, hend, hseen, hbetween]

theorem dropSkipped_eq (h : Tabulates code known deepest) (pending : List PendingInstruction) :
    dropSkipped code boundaries known pending =
      some (pending.dropWhile (BytecodeVerifier.skipped code boundaries deepest)) := by
  induction pending with
  | nil => rfl
  | cons p rest ih =>
    rw [dropSkipped, skipped_eq h, List.dropWhile_cons]
    dsimp only [bind, Option.bind]
    rw [ih]
    split <;> rfl

/-- Only the depth at the target of a loop is not known to be in the table: it is not
    when the loop is the last instruction and has no operand. -/
theorem simulate_eq (h : Tabulates code known deepest) (hsorted : boundaries.Pairwise (· < ·))
    (hinside : ∀ b ∈ boundaries, b < code.length)
    (hwhole : p.offset + Luma.instructionSizeOf op code p.offset ≤ code.length) :
    simulate code boundaries known p op = some (BytecodeVerifier.simulate code boundaries deepest p op) ∨
      simulate code boundaries known p op = none ∧ op = .loop ∧ p.offset + 5 = code.length ∧
        Luma.readU32At code (p.offset + 1) = 0 := by
  have hoperand : op.isJump = true →
      readU32At code (p.offset + 1) = some (Luma.readU32At code (p.offset + 1)) := by
    intro hjump
    have hsize := instructionSizeOf_ge op code p.offset
    rw [Op.opcodeBaseSize_of_isJump hjump] at hsize
    exact readU32At_eq (by omega)
  unfold simulate BytecodeVerifier.simulate
  dsimp only
  rw [stackEffectOf_eq hwhole]
  dsimp only [bind, Option.bind]
  split
  · exact Or.inl rfl
  split
  · exact Or.inl rfl
  rw [instructionSizeOf_eq]
  dsimp only
  split
  · exact Or.inl rfl
  split
  case h_1 | h_2 | h_3 | h_4 => exact Or.inl rfl
  case h_5 =>
    rw [hoperand rfl]
    exact Or.inl rfl
  case h_6 =>
    rw [hoperand rfl]
    dsimp only
    split
    next hback =>
      have hnext : Luma.instructionSizeOf .loop code p.offset = 5 := rfl
      rw [hnext] at hback hwhole
      by_cases hheader : resolveLoopJumpTarget p.offset (Luma.readU32At code (p.offset + 1)) < code.length
      · left
        rw [h.getElem? _ hheader]
        dsimp only
        split <;> rfl
      · right
        rw [resolveLoopJumpTarget] at hheader
        refine ⟨?_, rfl, by omega, by omega⟩
        rw [List.getElem?_eq_none (by rw [h.length_eq, resolveLoopJumpTarget]; omega)]
    · exact Or.inl rfl
  case h_7 | h_8 | h_9 =>
    left
    rw [previousOp_eq hsorted hinside, hoperand rfl]
    exact (apply_ite some _ _ _).symm
  case h_10 =>
    rw [hoperand rfl]
    exact Or.inl rfl
  case h_11 =>
    left
    first
      | rfl
      | split <;> first | rfl | contradiction

/-- The walk reads inside its tables until it comes to a loop without an operand at the
    end of the code. -/
theorem walk_eq {budget : Nat} {pending : List PendingInstruction} (h : Tabulates code known deepest)
    (hsorted : boundaries.Pairwise (· < ·)) (hinside : ∀ b ∈ boundaries, b < code.length)
    (hboundaries : ∀ b ∈ boundaries, IsBoundary code b) :
    walk code boundaries budget known pending = some (BytecodeVerifier.walk code boundaries budget deepest pending) ∨
      walk code boundaries budget known pending = none ∧ EndsInZeroLoop code := by
  induction budget generalizing known deepest pending with
  | zero =>
    left
    unfold walk BytecodeVerifier.walk
    rw [dropSkipped_eq h]
    dsimp only [bind, Option.bind]
    cases pending.dropWhile (BytecodeVerifier.skipped code boundaries deepest) <;> rfl
  | succ budget ih =>
    unfold walk BytecodeVerifier.walk
    rw [dropSkipped_eq h]
    dsimp only [bind, Option.bind]
    cases hpending : pending.dropWhile (BytecodeVerifier.skipped code boundaries deepest) with
    | nil => exact Or.inl rfl
    | cons p rest =>
      have hunskipped : BytecodeVerifier.skipped code boundaries deepest p = false := by
        have hhead := List.head_dropWhile_not (BytecodeVerifier.skipped code boundaries deepest)
          (hpending ▸ List.cons_ne_nil p rest)
        simpa only [hpending, List.head_cons] using hhead
      simp only [BytecodeVerifier.skipped, Bool.or_eq_false_iff, decide_eq_false_iff_not,
        Bool.not_eq_false', List.contains_eq_mem, decide_eq_true_eq] at hunskipped
      obtain ⟨⟨⟨hend, hboundary⟩, -⟩, hcut⟩ := hunskipped
      dsimp only
      rw [getElem?_byteAt (by omega)]
      dsimp only
      cases hop : Op.ofByte (byteAt code p.offset) with
      | none => exact Or.inl rfl
      | some op =>
        rw [hop, decide_eq_false_iff_not] at hcut
        have hset := h.set (Nat.not_le.mp hend)
        dsimp only
        obtain hsimulate | ⟨hsimulate, rfl, hlast, hoperand⟩ :=
          simulate_eq hset hsorted hinside (Nat.not_lt.mp hcut)
        · rw [hsimulate]
          dsimp only
          cases BytecodeVerifier.simulate code boundaries (Function.update deepest p.offset p.depth) p op with
          | error e => exact Or.inl rfl
          | ok pushed => exact ih hset
        · rw [hsimulate]
          exact Or.inr ⟨rfl, p.offset, hboundaries _ hboundary, hop, hlast, hoperand⟩

end Walk

/-- Whatever lies past the table of depths, the verifier finds the same when it does not
    read it; it only reads it in code that ends in a loop without an operand. -/
theorem verify_eq (pastEnd : Int) (func : CompiledFunction) :
    verify func = some (BytecodeVerifier.verify pastEnd func) ∨
      verify func = none ∧ EndsInZeroLoop func.chunk.code := by
  have hsorted : (BytecodeVerifier.scan func func.chunk.code.length 0).boundaries.Pairwise (· < ·) :=
    scan_boundaries_sorted .start
  have hboundaries : ∀ b ∈ (BytecodeVerifier.scan func func.chunk.code.length 0).boundaries,
      0 ≤ b ∧ b < func.chunk.code.length ∧ IsBoundary func.chunk.code b := (scan_boundaries .start).2
  unfold verify BytecodeVerifier.verify checkStackDepths BytecodeVerifier.checkStackDepths
  dsimp only
  split
  · exact Or.inl rfl
  · rw [scan_eq (by omega)]
    dsimp only [bind, Option.bind]
    have htable : Tabulates func.chunk.code (List.replicate func.chunk.code.length (-1))
        (initialDeepest func.chunk.code pastEnd) := .initial
    obtain hwalk | ⟨hwalk, hloop⟩ := walk_eq htable hsorted (fun b hb => (hboundaries b hb).2.1)
      (fun b hb => (hboundaries b hb).2.2)
    · rw [hwalk]
      exact Or.inl rfl
    · rw [hwalk]
      exact Or.inr ⟨rfl, hloop⟩

end Checked

/-! ## Jump targets -/

/-- The linear pass without errors goes over every boundary inside the code. -/
theorem mem_scan_boundaries {func : CompiledFunction} (herrors : (scan func func.chunk.code.length 0).errors = [])
    {b : Nat} (hb : IsBoundary func.chunk.code b) (hinside : b < func.chunk.code.length) :
    b ∈ (scan func func.chunk.code.length 0).boundaries := by
  obtain ⟨hstart, hothers⟩ := scan_spec (Nat.zero_add _).ge herrors .start
  induction hb with
  | start => exact hstart hinside
  | next _ hbefore hop ih =>
    obtain ⟨-, -, op, hscanned, hafter⟩ := hothers _ (ih hbefore)
    cases Option.some.inj (hop.symm.trans hscanned.decodes)
    exact hafter hinside

/-- Only a loop without an operand at the end of the code is accepted although it leads
    outside. -/
theorem Accepts.endsInZeroLoop {func : CompiledFunction} (haccepts : Accepts func)
    (hbad : HasBadTarget func.chunk.code) : EndsInZeroLoop func.chunk.code := by
  obtain ⟨pastEnd, hverify⟩ := haccepts
  obtain ⟨offset, op, hboundary, hinside, hop, hjump, htarget⟩ := hbad
  unfold verify at hverify
  dsimp only at hverify
  split at hverify
  · exact absurd hverify (List.cons_ne_nil _ _)
  simp only [List.append_eq_nil_iff] at hverify
  obtain ⟨⟨hscan, -⟩, -⟩ := hverify
  obtain ⟨-, hothers⟩ := scan_spec (Nat.zero_add _).ge hscan .start
  obtain ⟨-, -, op', hscanned, -⟩ := hothers _ (mem_scan_boundaries hscan hboundary hinside)
  cases Option.some.inj (hop.symm.trans hscanned.decodes)
  obtain ⟨hloop, hforward⟩ := jump_of_collectJumps hjump hscanned.whole hscanned.jump
  by_cases h : op = .loop
  · subst h
    have hstart : ¬ offset + 5 < readU32At func.chunk.code (offset + 1) := by
      have herrors := hscanned.jump
      have hforward : Op.isForwardJump .loop = false := rfl
      have hwhole : offset + 5 ≤ func.chunk.code.length := hscanned.whole
      intro hunderflow
      simp [collectJumps, hforward, inBounds_of_le hwhole, hunderflow] at herrors
    have hend := (hloop rfl).1
    rw [resolveLoopJumpTarget] at hend
    rw [jumpTarget, if_pos rfl] at htarget
    have hwhole : offset + 5 ≤ func.chunk.code.length := hscanned.whole
    exact ⟨offset, hboundary, hop, by omega, by omega⟩
  · obtain ⟨hlt, -⟩ := hforward h
    rw [jumpTarget, if_neg h] at htarget
    exact absurd ⟨Int.natCast_nonneg _, by exact_mod_cast hlt⟩ htarget

/-- The verifier comes to a verdict without a read outside the code or its tables, and
    the verdict on code with a target outside it is to reject it. -/
def ComesToVerdict (func : CompiledFunction) : Prop :=
  ∃ errors, Checked.verify func = some errors ∧ (HasBadTarget func.chunk.code → errors ≠ [])

/-- A function of nothing but code. -/
def functionOf (code : Bytes) : CompiledFunction where
  name := []
  chunk := { Chunk.empty with code }
  arity := 0
  requiredArity := 0
  upvalueCount := 0
  paramNames := []
  debugInfo := ⟨[], []⟩
  upvalues := []
  isMain := false
  isTest := false
  verified := false

end BytecodeVerifier

end Luma
