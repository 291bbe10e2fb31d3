-- SUMMARY: The instructions of the VM.
import Luma.Bytecode.Verifier
import Luma.Vm.State

/-! # Instructions

One handler for each opcode, as the dispatch table has it. A handler reads its
operands through the instruction pointer of the current frame; for verified
functions the readers skip the check that the bytes are there. -/

namespace Luma.Vm

open Codec

variable {V N W α : Type}

/-! ## Errors and frames -/

def raise (e : Raised V) : Exec V N W α := throw (.raised e)

def runtimeError (message : ErrorMessage) : Exec V N W α := raise (.error message none)

/-- Reading outside the code or a table. -/
def fault : Exec V N W α := throw .fault

def currentFrame : Exec V N W (CallFrame V) := do
  match (← get).frames with
  | cf :: _ => return cf
  | [] => fault

/-- Move the instruction pointer of the current frame. -/
def setIp (ip : Nat) : Exec V N W Unit :=
  modify fun s => match s.frames with
    | [] => s
    | cf :: rest => { s with frames := { cf with ip } :: rest }

/-! ## The value stack -/

def push (v : V) : Exec V N W Unit := do
  let s ← get
  if maxStack ≤ s.stack.length then runtimeError "stack overflow"
  else set { s with stack := v :: s.stack }

def pop : Exec V N W V := do
  let s ← get
  match s.stack with
  | [] => runtimeError "stack underflow"
  | v :: stack =>
    set { s with stack }
    return v

/-- Pop values into source order: the first one pushed comes first. -/
def popSequence : Nat → Exec V N W (List V)
  | 0 => return []
  | n + 1 => do
    let last ← pop
    let front ← popSequence n
    return front ++ [last]

def pushAll : List V → Exec V N W Unit
  | [] => return
  | v :: vs => do
    push v
    pushAll vs

def peek (distance : Nat) : Exec V N W V := do
  let stack := (← get).stack
  let size := stack.length
  match stack[distance]? with
  | some v => return v
  | none => runtimeError s!"stack underflow on peek (distance {distance} with stack size {size})"

/-- Overwrite the top of the stack. -/
def setTop (v : V) : Exec V N W Unit :=
  modify fun s => { s with stack := s.stack.set 0 v }

def validateStackSpace (needed : Nat) : Exec V N W Unit := do
  let used := (← get).stack.length
  if maxStack < used + needed then
    let available := maxStack - used
    runtimeError s!"stack overflow: need {needed} slots but only {available} of {maxStack} available"
  else return

def validateStackDepth (required : Nat) (context : String) : Exec V N W Unit := do
  let size := (← get).stack.length
  if size < required then
    runtimeError s!"{context}: stack underflow (expected {required} values, got {size})"
  else return

section

variable (rt : Runtime V N W)

/-! ## Operands -/

def currentFunction : Exec V N W CompiledFunction := return rt.function (← currentFrame).function

def ensureBytecodeAvailable (count : Nat) : Exec V N W Unit := do
  let cf ← currentFrame
  if (rt.function cf.function).chunk.code.length < cf.ip + count then
    runtimeError "bytecode truncated: not enough bytes for operand"
  else return

/-- Read the byte at the instruction pointer and step over it. -/
def nextByte : Exec V N W Nat := do
  let cf ← currentFrame
  match (rt.function cf.function).chunk.code[cf.ip]? with
  | some byte =>
    setIp (cf.ip + 1)
    return byte.toNat
  | none => fault

/-- The check that verified functions do without. -/
def ensureOperands (count : Nat) : Exec V N W Unit := do
  if (← currentFunction rt).verified then return
  else ensureBytecodeAvailable rt count

def readByte : Exec V N W Nat := do
  ensureOperands rt 1
  nextByte rt

def readU16 : Exec V N W Nat := do
  ensureOperands rt 2
  let high ← nextByte rt
  let low ← nextByte rt
  return high * 256 + low

def readU32 : Exec V N W Nat := do
  ensureOperands rt 4
  let b0 ← nextByte rt
  let b1 ← nextByte rt
  let b2 ← nextByte rt
  let b3 ← nextByte rt
  return (b0 * 256 + b1) * 65536 + (b2 * 256 + b3)

def readNameIndices : Nat → Exec V N W (List Nat)
  | 0 => return []
  | n + 1 => do
    let index ← readU16 rt
    let indices ← readNameIndices n
    return index :: indices

def checkedName (index : Nat) : Exec V N W Unit := do
  let size := (← currentFunction rt).chunk.names.names.length
  if size ≤ index then runtimeError s!"name index {index} out of bounds (size {size})"
  else return

def readName : Exec V N W Nat := do
  let index ← readU16 rt
  checkedName rt index
  return index

/-! ## Values -/

/-- Compute on values, and change what else there is to change. -/
def compute (op : Op) (operands : List Nat) (values : List V) : Exec V N W V := do
  let cf ← currentFrame
  let s ← get
  let (result, world) := rt.compute op operands cf values s.world
  set { s with world }
  match result with
  | .ok v => return v
  | .error e => raise e

/-- Replace the values on top of the stack by what is computed from them. -/
def replaceTop (op : Op) (operands : List Nat) (count : Nat) : Exec V N W Unit := do
  let values ← popSequence count
  let result ← compute rt op operands values
  push result

/-- Compute on the top of the stack in place. -/
def inPlace (op : Op) (operands : List Nat) (context : String) : Exec V N W Unit := do
  validateStackDepth 1 context
  let value ← peek 0
  let result ← compute rt op operands [value]
  setTop result

/-- Pop the right operand and overwrite the left one. -/
def binary (op : Op) : Exec V N W Unit := do
  let right ← pop
  if (← get).stack.isEmpty then runtimeError "stack underflow"
  else
    let left ← peek 0
    let result ← compute rt op [] [left, right]
    setTop result

/-- Compute without values and push the result. -/
def produce (op : Op) (operands : List Nat) : Exec V N W Unit := do
  let result ← compute rt op operands []
  push result

/-- Hand the top of the stack to what stores it. -/
def store (op : Op) (operands : List Nat) : Exec V N W Unit := do
  let value ← peek 0
  let _ ← compute rt op operands [value]
  return

def handleConstant : Exec V N W Unit := do
  let index ← readU16 rt
  let func ← currentFunction rt
  let size := func.chunk.constants.values.length
  if !func.verified && decide (size ≤ index) then
    runtimeError s!"constant index {index} out of bounds (size {size})"
  else
    match func.chunk.constants.values[index]? with
    | some constant => push (rt.ofConstant constant)
    | none => fault

def handleConstantLong : Exec V N W Unit := do
  let index ← readU32 rt
  let func ← currentFunction rt
  let size := func.chunk.constants.values.length
  match func.chunk.constants.values[index]? with
  | some constant => push (rt.ofConstant constant)
  | none => runtimeError s!"constant index {index} out of bounds (size {size})"

def handleMakeRecord : Exec V N W Unit := do
  validateStackSpace 1
  let typeName ← readU16 rt
  let fieldCount ← readByte rt
  checkedName rt typeName
  let cf ← currentFrame
  if (rt.function cf.function).chunk.code.length < cf.ip + fieldCount * 2 then
    runtimeError "MakeRecord: bytecode truncated, not enough bytes for field names"
  else
    validateStackDepth fieldCount "MakeRecord"
    let names ← readNameIndices rt fieldCount
    replaceTop rt .makeRecord (typeName :: names) fieldCount

def handleRecordWith : Exec V N W Unit := do
  let overrideCount ← readByte rt
  let cf ← currentFrame
  if (rt.function cf.function).chunk.code.length < cf.ip + overrideCount * 2 then
    runtimeError "RecordWith: bytecode truncated, not enough bytes for field names"
  else
    let names ← readNameIndices rt overrideCount
    replaceTop rt .recordWith names (overrideCount + 1)

def handleMakeClosure : Exec V N W Unit := do
  let index ← readU16 rt
  let _ ← readByte rt
  let cf ← currentFrame
  if (rt.functionTable cf.function).length ≤ index then
    runtimeError s!"invalid function index {index}"
  else produce rt .makeClosure [index]

def handleInterpolate : Exec V N W Unit := do
  let partCount ← readByte rt
  validateStackDepth partCount "Interpolate"
  replaceTop rt .interpolate [] partCount

def handleAssert : Exec V N W Unit := do
  let argCount ← readByte rt
  replaceTop rt .assert [] (min argCount 2)

def iterate (op : Op) (iterator : V) : Exec V N W (IterStep V) := do
  let s ← get
  let (result, world) := rt.iterate op iterator s.world
  set { s with world }
  match result with
  | .ok step => return step
  | .error e => raise e

/-- Advance an iteration and push its element and whether there was one. -/
def dispatchIterStep (op : Op) : Exec V N W Unit := do
  let iterator ← pop
  match ← iterate rt op iterator with
  | .next value key =>
    pushAll (if op = .forIterStepKV then [value, key] else [value])
    push (rt.ofBool true)
  | .exhausted => push (rt.ofBool false)

/-! ## Locals -/

/-- The value at an index from the bottom of the stack. -/
def slotAt (stack : List V) (index : Nat) : Option V :=
  if index < stack.length then stack[stack.length - 1 - index]? else none

def setSlotAt (stack : List V) (index : Nat) (v : V) : List V := stack.set (stack.length - 1 - index) v

def getLocalSlot (slot : Nat) : Exec V N W V := do
  let offset := (← currentFrame).slotOffset
  match slotAt (← get).stack (offset + slot) with
  | some v => return v
  | none => runtimeError s!"local variable index out of bounds (slot {slot} at offset {offset})"

def setLocalSlot (slot : Nat) (v : V) : Exec V N W Unit := do
  let _ ← getLocalSlot slot
  let cf ← currentFrame
  modify fun s => { s with stack := setSlotAt s.stack (cf.slotOffset + slot) v }

def handleSetLocal : Exec V N W Unit := do
  let slot ← readU16 rt
  let value ← peek 0
  setLocalSlot slot value

def handleSetLocalPop : Exec V N W Unit := do
  let slot ← readU16 rt
  let value ← pop
  setLocalSlot slot value

/-- Increment or decrement a local in place. -/
def handleStepLocal (op : Op) : Exec V N W Unit := do
  let slot ← readU16 rt
  let value ← getLocalSlot slot
  let result ← compute rt op [slot] [value]
  setLocalSlot slot result

/-- Give a local a value that shares no storage. -/
def makeLocalExclusive (slot : Nat) : Exec V N W Unit := do
  let value ← getLocalSlot slot
  let s ← get
  let (value, world) := rt.makeExclusive value s.world
  set { s with world }
  setLocalSlot slot value

def handleUniqueLocal : Exec V N W Unit := do makeLocalExclusive rt (← readU16 rt)

/-! ## Jumps -/

def validateJumpTarget (message : ErrorMessage) : Exec V N W Unit := do
  let cf ← currentFrame
  if (rt.function cf.function).chunk.code.length < cf.ip then runtimeError message else return

def jumpBy (offset : Nat) (message : ErrorMessage) : Exec V N W Unit := do
  let cf ← currentFrame
  setIp (cf.ip + offset)
  validateJumpTarget rt message

def handleJump : Exec V N W Unit := do
  let offset ← readU32 rt
  jumpBy rt offset "jump target beyond bytecode bounds"

def jumpIf (jumpOnTruthy : Bool) : Exec V N W Unit := do
  let offset ← readU32 rt
  let top ← peek 0
  if rt.isTruthy top = jumpOnTruthy then jumpBy rt offset "jump target beyond bytecode bounds"
  else return

def handleNullCoalesce : Exec V N W Unit := do
  let offset ← readU32 rt
  let top ← peek 0
  match rt.coalesced top with
  | none => return
  | some inner =>
    setTop inner
    jumpBy rt offset "NullCoalesce jump target beyond bytecode bounds"

def checkCancellation : Exec V N W Unit := do
  let s ← get
  if rt.isCancelled s.world && s.shields.isEmpty then raise (.cancelled "task cancelled") else return

/-- Count an iteration of a loop against the limits. -/
def countIteration : Exec V N W Unit := do
  modify fun s => { s with loopIterations := s.loopIterations + 1 }
  let limit := rt.limits.maxWhileIterations
  if limit < (← get).loopIterations then
    modify fun s => { s with loopIterations := 0 }
    runtimeError s!"loop exceeded maximum iteration count ({limit})"
  else
    modify fun s => { s with totalLoopIterations := s.totalLoopIterations + 1 }
    let total := rt.limits.maxTotalLoopIterations
    if total < (← get).totalLoopIterations then
      runtimeError s!"loops exceeded the total iteration budget ({total})"
    else return

def handleLoop : Exec V N W Unit := do
  let offset ← readU32 rt
  let cf ← currentFrame
  if cf.ip < offset then runtimeError "loop target before bytecode start"
  else
    setIp (cf.ip - offset)
    checkCancellation rt
    countIteration rt

/-! ## Calls -/

def validateCallDepth : Exec V N W Unit := do
  let limit := rt.limits.maxCallDepth
  if limit ≤ (← get).frames.length then
    runtimeError s!"call stack overflow: maximum recursion depth ({limit}) exceeded"
  else return

/-- Check the number of arguments and pad missing optional ones. -/
def prepareArguments (func : CompiledFunction) (argCount : Nat) : Exec V N W Unit := do
  if argCount < func.requiredArity then
    runtimeError
      s!"too few arguments: function requires at least {func.requiredArity} but got {argCount}"
  else
    pushAll (List.replicate (func.arity - argCount) rt.none)
    if func.arity < argCount then
      runtimeError s!"too many arguments: function expects {func.arity} but got {argCount}"
    else return

/-- Push a frame whose slot 0 is the callee below `argCount` arguments. -/
def enterFunction (id : FunctionId) (argCount : Nat) : Exec V N W Unit :=
  modify fun s =>
    let base := s.stack.length - argCount - 1
    let closure := (slotAt s.stack base).filter fun v => match rt.callee v with
      | .function _ => true
      | _ => false
    { s with frames := { function := id, closure, ip := 0, slotOffset := base } :: s.frames }

def callFunction (id : FunctionId) (argCount : Nat) : Exec V N W Unit := do
  let func := rt.function id
  validateCallDepth rt
  checkCancellation rt
  prepareArguments rt func argCount
  enterFunction rt id func.arity

def callNative (start : N) (argCount : Nat) : Exec V N W Unit := do
  let args ← popSequence argCount
  let _ ← pop
  throw (.native start args)

def callValue (callee : V) (argCount : Nat) : Exec V N W Unit :=
  match rt.callee callee with
  | .function id => callFunction rt id argCount
  | .native start => callNative start argCount
  | .notCallable => runtimeError s!"cannot call '{rt.typeName callee}'"

def handleCall : Exec V N W Unit := do
  let argCount ← readByte rt
  let callee ← peek argCount
  callValue rt callee argCount

/-- Pop the name and value pairs of a named call, in source order. -/
def popPairs : Nat → Exec V N W (List (V × V))
  | 0 => return []
  | n + 1 => do
    let value ← pop
    let name ← pop
    let front ← popPairs n
    return front ++ [(name, value)]

def handleCallNamed : Exec V N W Unit := do
  let posCount ← readByte rt
  let namedCount ← readByte rt
  let callee ← peek (posCount + namedCount * 2)
  let named ← popPairs namedCount
  let positional ← popSequence posCount
  match rt.callee callee with
  | .function id =>
    let func := rt.function id
    match rt.bindArguments func positional named with
    | .error e => raise e
    | .ok args =>
      pushAll ((List.range func.arity).map args)
      callValue rt callee func.arity
  | _ =>
    pushAll positional
    pushAll (named.map Prod.snd)
    callValue rt callee (posCount + namedCount)

/-- Drop the handlers and shields of frames at an index and above. -/
def discardFramesFrom (frameCount : Nat) (s : State V W) : State V W :=
  { s with
    handlers := s.handlers.dropWhile fun h => frameCount ≤ h.frameIndex
    shields := s.shields.dropWhile fun sh => frameCount ≤ sh.frameIndex }

/-- Cut the stack down to a size; slots that were popped too far come back empty. -/
def truncateTo (none : V) (size : Nat) (stack : List V) : List V :=
  List.replicate (size - stack.length) none ++ stack.drop (stack.length - size)

/-- Reuse the current frame for a function: the callee and its arguments replace the
    slots of the frame. -/
def reuseFrame (id : FunctionId) (callee : V) (base : Nat) (s : State V W) : State V W :=
  let args := s.stack.take (rt.function id).arity
  let below := (setSlotAt s.stack base callee).drop (s.stack.length - (base + 1))
  let s := { s with stack := args ++ truncateTo rt.none (base + 1) below }
  let s := discardFramesFrom (s.frames.length - 1) s
  match s.frames with
  | [] => s
  | cf :: rest => { s with frames := { cf with function := id, ip := 0, closure := some callee } :: rest }

def handleTailCall : Exec V N W Unit := do
  let argCount ← readByte rt
  let callee ← peek argCount
  match rt.callee callee with
  | .function id =>
    checkCancellation rt
    prepareArguments rt (rt.function id) argCount
    let cf ← currentFrame
    modify (reuseFrame rt id callee cf.slotOffset)
  | _ => callValue rt callee argCount

/-- Leave the current frame, whose slots start at `slotOffset`. -/
def leaveFrame (slotOffset : Nat) (s : State V W) : State V W :=
  let s := { s with frames := s.frames.tail, stack := truncateTo rt.none slotOffset s.stack }
  discardFramesFrom s.frames.length s

/-- Leave the current frame with a result. -/
def completeReturn (result : V) (calleeSlotOffset : Nat) : Exec V N W Unit := do
  modify (leaveFrame rt calleeSlotOffset)
  let s ← get
  if s.frames.length ≤ s.baseDepth then throw (.returned result) else push result

def handleReturn : Exec V N W Unit := do
  let result ← pop
  let cf ← currentFrame
  completeReturn rt result cf.slotOffset

def handleGetLocalReturn : Exec V N W Unit := do
  let slot ← readU16 rt
  let result ← getLocalSlot slot
  let cf ← currentFrame
  completeReturn rt result cf.slotOffset

def handlePipe : Exec V N W Unit := do
  let callee ← pop
  let value ← pop
  push callee
  push value
  callValue rt callee 1

def handleErrorPipe : Exec V N W Unit := do
  let callee ← pop
  let value ← pop
  match rt.piped value with
  | none => push value
  | some inner =>
    push callee
    push inner
    callValue rt callee 1

/-! ## Exception handling and task scopes -/

def pushHandler (handler : ExceptionHandler) : Exec V N W Unit := do
  let s ← get
  if maxHandlers ≤ s.handlers.length then runtimeError "too many nested exception handlers"
  else set { s with handlers := handler :: s.handlers }

def handleTryCatch : Exec V N W Unit := do
  let catchOffset ← readU32 rt
  let cf ← currentFrame
  if (rt.function cf.function).chunk.code.length < cf.ip + catchOffset then
    runtimeError "TryCatch: catch offset points beyond bytecode end"
  else
    let s ← get
    pushHandler
      { function := cf.function
        catchIp := cf.ip + catchOffset
        frameIndex := s.frames.length - 1
        stackDepth := s.stack.length
        taskScopeDepth := s.taskScopes }

def handleTryEnd : Exec V N W Unit := do
  let s ← get
  match s.handlers with
  | [] => runtimeError "TryEnd without matching TryCatch"
  | _ :: handlers => set { s with handlers }

/-- End the shields at or above a place. -/
def endCancelShieldsFrom (frameIndex stackDepth : Nat) (s : State V W) : State V W :=
  { s with
    shields := s.shields.dropWhile fun sh =>
      frameIndex < sh.frameIndex || (sh.frameIndex = frameIndex && stackDepth ≤ sh.stackDepth) }

def handleRethrow : Exec V N W Unit := do
  let errorValue ← pop
  modify fun s => endCancelShieldsFrom (s.frames.length - 1) s.stack.length s
  raise (rt.rethrown errorValue)

def handleTaskScopeBegin : Exec V N W Unit :=
  modify fun s => { s with taskScopes := s.taskScopes + 1 }

/-- Join the tasks of the innermost scope. The scope is retired either way. -/
def handleTaskScopeEnd : Exec V N W Unit := do
  if (← get).taskScopes = 0 then runtimeError "TaskScopeEnd without matching TaskScopeBegin"
  else
    modify fun s => { s with taskScopes := s.taskScopes - 1 }
    produce rt .taskScopeEnd []

def handleForIterInit : Exec V N W Unit := do
  replaceTop rt .forIterInit [] 1
  modify fun s => { s with loopIterations := 0 }

def handleAwait : Exec V N W Unit := do
  checkCancellation rt
  replaceTop rt .await [] 1

/-! ## Dispatch -/

/-- Execute the instruction whose opcode byte was just read. -/
def execute (op : Op) : Exec V N W Unit :=
  match op with
  | .constant => handleConstant rt
  | .constantLong => handleConstantLong rt
  | .pop => do let _ ← pop
  | .dup => do
    validateStackDepth 1 "Dup"
    push (← peek 0)
  | .dup2 => do
    validateStackDepth 2 "Dup2"
    let b ← peek 1
    let a ← peek 0
    push b
    push a
  | .swap => do
    validateStackDepth 2 "Swap"
    modify fun s => match s.stack with
      | a :: b :: stack => { s with stack := b :: a :: stack }
      | _ => s
  | .getLocal => do push (← getLocalSlot (← readU16 rt))
  | .setLocal => handleSetLocal rt
  | .getUpvalue => do produce rt op [← readU16 rt]
  | .setUpvalue => do store rt op [← readU16 rt]
  | .getGlobal => do produce rt op [← readName rt]
  | .setGlobal => do store rt op [← readName rt]
  | .none_ => push rt.none
  | .true_ => push (rt.ofBool true)
  | .false_ => push (rt.ofBool false)
  | .zero => push (rt.ofConstant (.integer 0))
  | .one => push (rt.ofConstant (.integer 1))
  | .add | .subtract | .multiply | .divide | .intDivide | .modulo | .equal | .notEqual | .less
  | .lessEqual | .greater | .greaterEqual | .and | .or | .concatenate => binary rt op
  | .negate | .increment | .decrement | .not | .isSome | .ensureSuccess | .typeOf | .intToNumber
  | .clone => inPlace rt op [] op.opcodeName
  | .interpolate => handleInterpolate rt
  | .makeArray => do
    let count ← readU16 rt
    validateStackSpace 1
    replaceTop rt op [] count
  | .makeDict => do
    let count ← readU16 rt
    validateStackSpace 1
    replaceTop rt op [] (count * 2)
  | .makeTuple => do
    let count ← readU16 rt
    validateStackSpace 1
    replaceTop rt op [] count
  | .makeRange | .makeRangeInc | .indexGet | .indexGetOpt | .makeChoice | .contains =>
    replaceTop rt op [] 2
  | .indexSet => replaceTop rt op [] 3
  | .makeRecord => handleMakeRecord rt
  | .getField | .getFieldOpt | .downcast | .trustedDowncast | .isType => do
    replaceTop rt op [← readName rt] 1
  | .setField => do replaceTop rt op [← readName rt] 2
  | .recordWith => handleRecordWith rt
  | .makeChoiceConstructor => do replaceTop rt op [← readByte rt] 2
  | .makeSuccess | .makeFailure | .unwrap | .resultInner | .isSuccess => replaceTop rt op [] 1
  | .makeSome | .matchStart | .matchArm | .matchEnd => return
  | .jump => handleJump rt
  | .jumpIfFalse => jumpIf rt false
  | .jumpIfTrue => jumpIf rt true
  | .loop => handleLoop rt
  | .nullCoalesce => handleNullCoalesce rt
  | .call => handleCall rt
  | .callNamed => handleCallNamed rt
  | .tailCall => handleTailCall rt
  | .return_ => handleReturn rt
  | .makeClosure => handleMakeClosure rt
  | .pipe => handlePipe rt
  | .errorPipe => handleErrorPipe rt
  | .tryCatch => handleTryCatch rt
  | .tryEnd => handleTryEnd
  | .rethrow => handleRethrow rt
  | .spawn => do
    let argCount ← readByte rt
    replaceTop rt op [] (argCount + 1)
  | .await => handleAwait rt
  | .taskScopeBegin => handleTaskScopeBegin
  | .taskScopeEnd => handleTaskScopeEnd rt
  | .forIterInit => handleForIterInit rt
  | .forIterStep | .forIterStepKV => dispatchIterStep rt op
  | .print => do replaceTop rt op [] (← readByte rt)
  | .assert => handleAssert rt
  | .incrementLocal | .decrementLocal => handleStepLocal rt op
  | .setLocalPop => handleSetLocalPop rt
  | .getLocalReturn => handleGetLocalReturn rt
  | .widenNumber => do inPlace rt op [← readName rt] "WidenNumber"
  | .uniqueLocal => handleUniqueLocal rt
  | .uniqueUpvalue => do let _ ← compute rt op [← readU16 rt] []
  | .uniqueGlobal => do let _ ← compute rt op [← readName rt] []
  | .getFieldUnique => do
    let name ← readName rt
    validateStackDepth 1 "GetFieldUnique"
    replaceTop rt op [name] 1
  | .indexGetUnique => do
    validateStackDepth 2 "IndexGetUnique"
    replaceTop rt op [] 2
  | .endModule => throw (.returned rt.none)

/-- Fetch the next opcode and execute it. -/
def dispatch : Exec V N W Unit := do
  ensureBytecodeAvailable rt 1
  let byte ← nextByte rt
  match Op.ofByte (UInt8.ofNat byte) with
  | some op => execute rt op
  | none => runtimeError "VM dispatch: unknown or reserved opcode executed"

end

end Luma.Vm
