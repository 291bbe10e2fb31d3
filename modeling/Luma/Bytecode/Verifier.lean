-- SUMMARY: The bytecode verifier: a linear pass, deferred jump checks, and a walk of stack depths.
import Luma.Bytecode.Chunk

/-! # The Bytecode Verifier

A linear pass checks every instruction and collects the jumps; jump targets are
checked once all instruction boundaries are known; a walk of the control flow
graph then simulates the deepest stack that reaches each instruction. -/

namespace Luma

open Codec

/-- One complaint of the verifier. -/
structure VerifyError where
  offset : Nat
  message : String
  deriving DecidableEq, Repr

/-- A jump, kept until all instruction boundaries are known. -/
structure JumpRecord where
  offset : Nat
  target : Nat
  isLoop : Bool
  deriving DecidableEq, Repr

/-- How many values an instruction pops and then pushes, on the path that
    continues into its successors. -/
structure StackEffect where
  pops : Nat
  pushes : Nat
  deriving DecidableEq, Repr

/-! ## Errors -/

namespace VerifyError

def constantLongOutOfBounds (offset idx poolSize : Nat) : VerifyError :=
  ⟨offset, s!"constant long index {idx} at offset {offset} exceeds pool size {poolSize}"⟩

def constantOutOfBounds (offset idx poolSize : Nat) : VerifyError :=
  ⟨offset, s!"constant index {idx} at offset {offset} exceeds pool size {poolSize}"⟩

def nameOutOfBounds (offset : Nat) (op : Op) (idx namesSize : Nat) : VerifyError :=
  let name := op.opcodeName
  ⟨offset,
    s!"name index {idx} at offset {offset} for {name} exceeds name table size {namesSize}"⟩

def upvalueOutOfBounds (offset : Nat) (op : Op) (idx upvalueCount : Nat) : VerifyError :=
  let name := op.opcodeName
  ⟨offset,
    s!"upvalue index {idx} at offset {offset} for {name} exceeds upvalue count {upvalueCount}"⟩

def localOutOfBounds (offset : Nat) (op : Op) (idx : Nat) : VerifyError :=
  let name := op.opcodeName
  let limit := CompilerLimits.maxLocals - 1
  ⟨offset,
    s!"local slot {idx} at offset {offset} for {name} exceeds maximum slot index {limit}"⟩

def jumpTargetBeyondCode (offset target codeSize : Nat) : VerifyError :=
  ⟨offset, s!"jump at offset {offset} targets offset {target} " ++
    s!"which is at or beyond code size {codeSize}"⟩

def fallsOffEnd (offset codeSize : Nat) : VerifyError :=
  ⟨offset, s!"control flow from offset {offset} falls off the end of the code " ++
    s!"(size {codeSize}) without a Return"⟩

def loopUnderflow (offset loopOffset : Nat) : VerifyError :=
  ⟨offset, s!"loop at offset {offset} jumps back {loopOffset} bytes " ++
    "which underflows to before code start"⟩

def stackUnderflow (offset : Nat) (op : Op) : VerifyError :=
  let name := op.opcodeName
  ⟨offset, s!"stack underflow at offset {offset} after {name}"⟩

def stackOverflow (offset maxDepth : Nat) : VerifyError :=
  let limit := CompilerLimits.maxStackDepth
  ⟨offset, s!"stack depth {maxDepth} exceeds maximum allowed ({limit})"⟩

def emptyBytecode : VerifyError := ⟨0, "empty bytecode chunk"⟩

/-- Two upper-case hexadecimal digits. -/
def hexByte (byte : UInt8) : String :=
  let digit (n : Nat) : Char := if n < 10 then Char.ofNat (48 + n) else Char.ofNat (55 + n)
  String.ofList [digit (byte.toNat / 16), digit (byte.toNat % 16)]

def invalidOpcode (offset : Nat) (byte : UInt8) : VerifyError :=
  ⟨offset, "invalid opcode byte: 0x" ++ hexByte byte⟩

def instructionTruncated (offset : Nat) (op : Op) (size remaining : Nat) : VerifyError :=
  let name := op.opcodeName
  ⟨offset, s!"instruction {name} at offset {offset} truncated: " ++
    s!"needs {size} bytes but only {remaining} remain"⟩

def jumpNotOnBoundary (jump : JumpRecord) : VerifyError :=
  let kind := if jump.isLoop then "loop" else "jump"
  let offset := jump.offset
  let target := jump.target
  ⟨offset, s!"{kind} at offset {offset} targets offset {target} " ++
    "which is not an instruction boundary"⟩

def loopStackGrowth (offset : Nat) (growth : Int) : VerifyError :=
  ⟨offset, s!"stack grows by {growth} on every iteration of the loop at offset {offset}"⟩

def stackAnalysisBudget (offset : Nat) : VerifyError :=
  ⟨offset, s!"stack depth analysis exceeded its step budget at offset {offset}"⟩

end VerifyError

namespace BytecodeVerifier

/-! ## Linear pass -/

/-- Check the operand of the instruction at `offset` against the table it indexes. -/
def checkOperandBounds (func : CompiledFunction) (op : Op) (offset : Nat) : List VerifyError :=
  let code := func.chunk.code
  if op.operandCategory = .none_ then []
  else if op = .constantLong then
    if !inBounds code offset 5 then []
    else
      let idx := readU32At code (offset + 1)
      let poolSize := func.chunk.constants.values.length
      if poolSize ≤ idx then [.constantLongOutOfBounds offset idx poolSize] else []
  else if !inBounds code offset 3 then []
  else
    let idx := readU16At code (offset + 1)
    match op.operandCategory with
    | .constant =>
      let poolSize := func.chunk.constants.values.length
      if poolSize ≤ idx then [.constantOutOfBounds offset idx poolSize] else []
    | .name =>
      let namesSize := func.chunk.names.names.length
      if namesSize ≤ idx then [.nameOutOfBounds offset op idx namesSize] else []
    | .upvalue =>
      -- The count is cast to a u16 for the comparison.
      if func.upvalueCount % 65536 ≤ idx then
        [.upvalueOutOfBounds offset op idx func.upvalueCount]
      else []
    | .local =>
      if CompilerLimits.maxLocals ≤ idx then [.localOutOfBounds offset op idx] else []
    | .none_ => []

/-- The jump of the instruction at `offset`, or why it cannot be one. A forward
    target at or beyond the end is an error here; a loop target is only checked
    not to lie before the start. -/
def collectJumps (code : Bytes) (op : Op) (offset : Nat) : List JumpRecord × List VerifyError :=
  if op.isForwardJump then
    if !inBounds code offset 5 then ([], [])
    else
      let target := resolveForwardJumpTarget offset (readU32At code (offset + 1))
      if code.length ≤ target then ([], [.jumpTargetBeyondCode offset target code.length])
      else ([⟨offset, target, false⟩], [])
  else if op = .loop then
    if !inBounds code offset 5 then ([], [])
    else
      let loopOffset := readU32At code (offset + 1)
      if offset + 5 < loopOffset then ([], [.loopUnderflow offset loopOffset])
      else ([⟨offset, resolveLoopJumpTarget offset loopOffset, true⟩], [])
  else ([], [])

/-- What the linear pass collects. -/
structure Scan where
  boundaries : List Nat
  jumps : List JumpRecord
  errors : List VerifyError

/-- The linear pass from `offset`, one instruction for each unit of fuel. It stops
    at the end of the code and at an instruction it cannot step over. -/
def scan (func : CompiledFunction) : (fuel : Nat) → (offset : Nat) → Scan
  | 0, _ => ⟨[], [], []⟩
  | fuel + 1, offset =>
    let code := func.chunk.code
    if offset < code.length then
      match Op.ofByte (byteAt code offset) with
      | none => ⟨[offset], [], [.invalidOpcode offset (byteAt code offset)]⟩
      | some op =>
        let size := instructionSizeOf op code offset
        if code.length < offset + size then
          ⟨[offset], [], [.instructionTruncated offset op size (code.length - offset)]⟩
        else
          let jump := collectJumps code op offset
          let rest := scan func fuel (offset + size)
          ⟨offset :: rest.boundaries, jump.1 ++ rest.jumps,
            checkOperandBounds func op offset ++ jump.2 ++ rest.errors⟩
    else ⟨[], [], []⟩

/-- Targets inside the code must be instruction boundaries. -/
def checkJumpTargets (code : Bytes) (s : Scan) : List VerifyError :=
  s.jumps.flatMap fun jump =>
    if decide (jump.target < code.length) && !s.boundaries.contains jump.target then
      [.jumpNotOnBoundary jump]
    else []

/-! ## Stack depths -/

/-- Stack effect of the instruction `op` at `offset`. -/
def stackEffectOf (op : Op) (code : Bytes) (offset : Nat) : StackEffect :=
  let u8 (at_ : Nat) : Nat := (byteAt code (offset + at_)).toNat
  let u16 (at_ : Nat) : Nat := readU16At code (offset + at_)
  match op with
  | .constant | .constantLong | .getLocal | .getUpvalue | .getGlobal | .none_ | .true_
  | .false_ | .zero | .one | .makeClosure | .taskScopeEnd => ⟨0, 1⟩
  | .pop | .setLocalPop | .return_ | .rethrow => ⟨1, 0⟩
  | .dup => ⟨1, 2⟩
  | .dup2 => ⟨2, 4⟩
  | .swap => ⟨2, 2⟩
  | .setLocal | .setUpvalue | .setGlobal | .negate | .increment | .decrement | .not
  | .makeSuccess | .makeFailure | .makeSome | .unwrap | .resultInner | .isSuccess | .isSome
  | .ensureSuccess | .downcast | .trustedDowncast | .isType | .jumpIfFalse | .jumpIfTrue
  | .nullCoalesce | .getField | .getFieldOpt | .getFieldUnique | .await | .forIterInit
  | .typeOf | .intToNumber | .widenNumber | .clone => ⟨1, 1⟩
  | .add | .subtract | .multiply | .divide | .intDivide | .modulo | .equal | .notEqual
  | .less | .lessEqual | .greater | .greaterEqual | .and | .or | .concatenate | .makeRange
  | .makeRangeInc | .indexGet | .indexGetOpt | .indexGetUnique | .setField | .makeChoice
  | .makeChoiceConstructor | .pipe | .errorPipe | .contains => ⟨2, 1⟩
  | .indexSet => ⟨3, 1⟩
  | .interpolate | .print | .assert => ⟨u8 1, 1⟩
  | .makeArray | .makeTuple => ⟨u16 1, 1⟩
  | .makeDict => ⟨2 * u16 1, 1⟩
  | .makeRecord => ⟨u8 3, 1⟩
  | .recordWith | .call | .tailCall | .spawn => ⟨u8 1 + 1, 1⟩
  | .callNamed => ⟨u8 1 + 2 * u8 2 + 1, 1⟩
  | .forIterStep => ⟨1, 2⟩
  | .forIterStepKV => ⟨1, 3⟩
  | .jump | .loop | .tryCatch | .tryEnd | .matchStart | .matchArm | .matchEnd
  | .taskScopeBegin | .incrementLocal | .decrementLocal | .getLocalReturn | .uniqueLocal
  | .uniqueUpvalue | .uniqueGlobal | .endModule => ⟨0, 0⟩

-- The equations of the definitions are derived here, once for all proofs.
section
attribute [local simp] stackEffectOf
end

/-- A stack depth that reaches an instruction along some edge. -/
structure PendingInstruction where
  offset : Nat
  depth : Nat
  deriving DecidableEq, Repr

/-- Step budget of the walk, per instruction. -/
def maxVisitsPerInstruction : Nat := 64

/-- Values an iteration step does not push when the iterator is exhausted. -/
def valuesMissingWhenExhausted : Op → Nat
  | .forIterStep => 1
  | .forIterStepKV => 2
  | _ => 0

/-- Does every path through the opcode leave it elsewhere than at the next
    instruction? -/
def alwaysTransfers (op : Op) : Bool :=
  op = .return_ || op = .getLocalReturn || op = .rethrow || op = .endModule || op = .jump ||
    op = .loop

/-- The opcode of the last instruction before `offset`. -/
def previousOp (code : Bytes) (boundaries : List Nat) (offset : Nat) : Option Op :=
  (boundaries.filter (· < offset)).getLast?.bind fun previous => Op.ofByte (byteAt code previous)

/-- The deepest stack simulated at each offset so far; -1 where there is none. -/
abbrev Deepest := Nat → Int

/-- Is there nothing to simulate for this pending instruction? -/
def skipped (code : Bytes) (boundaries : List Nat) (deepest : Deepest)
    (p : PendingInstruction) : Bool :=
  decide (code.length ≤ p.offset) || !boundaries.contains p.offset ||
    decide ((p.depth : Int) ≤ deepest p.offset) ||
    (match Op.ofByte (byteAt code p.offset) with
      | none => true
      | some op => decide (code.length < p.offset + instructionSizeOf op code p.offset))

/-- Simulate the instruction `op` at `p`: the edges it pushes, in push order, or the
    error that stops the walk. -/
def simulate (code : Bytes) (boundaries : List Nat) (deepest : Deepest)
    (p : PendingInstruction) (op : Op) : Except VerifyError (List PendingInstruction) :=
  let offset := p.offset
  let effect := stackEffectOf op code offset
  if p.depth < effect.pops then .error (.stackUnderflow offset op)
  else
    let after := p.depth - effect.pops + effect.pushes
    if CompilerLimits.maxStackDepth < after then .error (.stackOverflow offset after)
    else
      let next := offset + instructionSizeOf op code offset
      if !alwaysTransfers op && decide (code.length ≤ next) then
        .error (.fallsOffEnd offset code.length)
      else
        let target := resolveForwardJumpTarget offset (readU32At code (offset + 1))
        match op with
        | .return_ | .getLocalReturn | .rethrow | .endModule => .ok []
        | .jump => .ok [⟨target, after⟩]
        | .loop =>
          let back := readU32At code (offset + 1)
          if back ≤ next then
            let header := resolveLoopJumpTarget offset back
            if 0 ≤ deepest header ∧ deepest header < after then
              .error (.loopStackGrowth offset (after - deepest header))
            else .ok [⟨header, after⟩]
          else .ok []
        | .jumpIfFalse | .jumpIfTrue | .nullCoalesce =>
          let missing :=
            match op, previousOp code boundaries offset with
            | .jumpIfFalse, some previous => valuesMissingWhenExhausted previous
            | _, _ => 0
          if after < missing then .error (.stackUnderflow offset op)
          else .ok [⟨next, after⟩, ⟨target, after - missing⟩]
        | .tryCatch => .ok [⟨next, after⟩, ⟨target, after + 1⟩]
        | _ => .ok [⟨next, after⟩]

/-- The walk: take the last pending instruction that is worth simulating, until
    none is left, an error stops it, or the budget is spent. -/
def walk (code : Bytes) (boundaries : List Nat) :
    (budget : Nat) → Deepest → List PendingInstruction → List VerifyError
  | budget, deepest, pending =>
    match pending.dropWhile (skipped code boundaries deepest) with
    | [] => []
    | p :: rest =>
      match budget with
      | 0 => [.stackAnalysisBudget p.offset]
      | budget + 1 =>
        match Op.ofByte (byteAt code p.offset) with
        | none => []
        | some op =>
          let deepest' := Function.update deepest p.offset p.depth
          match simulate code boundaries deepest' p op with
          | .error e => [e]
          | .ok pushed => walk code boundaries budget deepest' (pushed.reverse ++ rest)

/-- The depths recorded when the walk ends. -/
def walkDepths (code : Bytes) (boundaries : List Nat) :
    (budget : Nat) → Deepest → List PendingInstruction → Deepest
  | budget, deepest, pending =>
    match pending.dropWhile (skipped code boundaries deepest) with
    | [] => deepest
    | p :: rest =>
      match budget with
      | 0 => deepest
      | budget + 1 =>
        match Op.ofByte (byteAt code p.offset) with
        | none => deepest
        | some op =>
          let deepest' := Function.update deepest p.offset p.depth
          match simulate code boundaries deepest' p op with
          | .error _ => deepest'
          | .ok pushed => walkDepths code boundaries budget deepest' (pushed.reverse ++ rest)

/-- Nothing is simulated yet. A loop target can be the end of the code, one past
    the table of depths: what is read there is `pastEnd`. -/
def initialDeepest (code : Bytes) (pastEnd : Int) : Deepest := fun offset =>
  if offset < code.length then -1 else pastEnd

/-- Stack depths along every control-flow path. -/
def checkStackDepths (pastEnd : Int) (func : CompiledFunction) (boundaries : List Nat) :
    List VerifyError :=
  let code := func.chunk.code
  walk code boundaries (boundaries.length * maxVisitsPerInstruction + 1)
    (initialDeepest code pastEnd)
    [⟨0, func.arity + CompilerLimits.firstParameterSlot⟩]

/-- The depths recorded for a function. -/
def recordedDepths (pastEnd : Int) (func : CompiledFunction) : Deepest :=
  let code := func.chunk.code
  let boundaries := (scan func code.length 0).boundaries
  walkDepths code boundaries (boundaries.length * maxVisitsPerInstruction + 1) (initialDeepest code pastEnd)
    [⟨0, func.arity + CompilerLimits.firstParameterSlot⟩]

/-- Everything the verifier has to say about a function; empty when it accepts. -/
def verify (pastEnd : Int) (func : CompiledFunction) : List VerifyError :=
  let code := func.chunk.code
  if code.isEmpty then [.emptyBytecode]
  else
    let s := scan func code.length 0
    s.errors ++ checkJumpTargets code s ++ checkStackDepths pastEnd func s.boundaries

end BytecodeVerifier

end Luma
