-- SUMMARY: The opcodes of the bytecode, their table of metadata and their byte encoding.
import Mathlib.Tactic.Common

/-! # Opcodes

The opcode enumeration in source order, and one row of metadata per opcode. An
opcode is stored in a chunk as the byte that is its position in the
enumeration. -/

namespace Luma

/-- Bytecode opcodes of the VM. -/
inductive Op where
  -- Stack manipulation
  | constant | constantLong | pop | dup | dup2 | swap
  -- Local variables (slot-indexed)
  | getLocal | setLocal | getUpvalue | setUpvalue | getGlobal | setGlobal
  -- Literals
  | none_ | true_ | false_ | zero | one
  -- Arithmetic
  | add | subtract | multiply | divide | intDivide | modulo | negate | increment | decrement
  -- Comparison
  | equal | notEqual | less | lessEqual | greater | greaterEqual
  -- Logical
  | not | and | or
  -- Strings
  | concatenate | interpolate
  -- Collections
  | makeArray | makeDict | makeTuple | makeRange | makeRangeInc | indexGet | indexSet
  | indexGetOpt
  -- Records
  | makeRecord | getField | setField | getFieldOpt | recordWith
  -- Choice types
  | makeChoice | makeChoiceConstructor
  -- Result / Optional
  | makeSuccess | makeFailure | makeSome | unwrap | resultInner | isSuccess | isSome
  | ensureSuccess
  -- Downcast / Is
  | downcast | trustedDowncast | isType
  -- Control flow
  | jump | jumpIfFalse | jumpIfTrue | loop | nullCoalesce
  -- Functions
  | call | callNamed | tailCall | return_ | makeClosure
  -- Pipe operators
  | pipe | errorPipe
  -- Exception handling
  | tryCatch | tryEnd | rethrow
  -- Match
  | matchStart | matchArm | matchEnd
  -- Containment
  | contains
  -- Concurrency
  | spawn | await | taskScopeBegin | taskScopeEnd
  -- Iteration
  | forIterInit | forIterStep | forIterStepKV
  -- Misc
  | print | assert | typeOf
  -- Fused
  | incrementLocal | decrementLocal | setLocalPop | getLocalReturn
  -- Conversions
  | intToNumber | widenNumber | clone
  -- Copy-on-write for in-place mutation
  | uniqueLocal | uniqueUpvalue | uniqueGlobal | getFieldUnique | indexGetUnique
  -- Module
  | endModule
  deriving DecidableEq, Repr

/-- What a `u16` operand indexes into. -/
inductive OperandCategory where
  | none_ | constant | name | upvalue | local
  deriving DecidableEq, Repr

/-- The semantic groups an opcode can belong to. -/
inductive OpFlag where
  | arithmetic | comparison | stackOp | loadStore | controlFlow | terminator
  | forwardJump | jump
  deriving DecidableEq, Repr

/-- One row of the opcode table. `baseSize` counts the opcode byte and the fixed
    operands; for `makeRecord` and `recordWith` it is the size of the prefix. -/
structure OpcodeInfo where
  name : String
  baseSize : Nat
  operandCategory : OperandCategory
  flags : List OpFlag

namespace Op

/-- The opcode table. -/
def info : Op → OpcodeInfo
  | .constant => ⟨"Constant", 3, .constant, [.stackOp]⟩
  | .constantLong => ⟨"ConstantLong", 5, .constant, [.stackOp]⟩
  | .pop => ⟨"Pop", 1, .none_, [.stackOp]⟩
  | .dup => ⟨"Dup", 1, .none_, [.stackOp]⟩
  | .dup2 => ⟨"Dup2", 1, .none_, [.stackOp]⟩
  | .swap => ⟨"Swap", 1, .none_, [.stackOp]⟩
  | .getLocal => ⟨"GetLocal", 3, .local, [.loadStore]⟩
  | .setLocal => ⟨"SetLocal", 3, .local, [.loadStore]⟩
  | .getUpvalue => ⟨"GetUpvalue", 3, .upvalue, [.loadStore]⟩
  | .setUpvalue => ⟨"SetUpvalue", 3, .upvalue, [.loadStore]⟩
  | .getGlobal => ⟨"GetGlobal", 3, .name, [.loadStore]⟩
  | .setGlobal => ⟨"SetGlobal", 3, .name, [.loadStore]⟩
  | .none_ => ⟨"None", 1, .none_, [.stackOp]⟩
  | .true_ => ⟨"True", 1, .none_, [.stackOp]⟩
  | .false_ => ⟨"False", 1, .none_, [.stackOp]⟩
  | .zero => ⟨"Zero", 1, .none_, [.stackOp]⟩
  | .one => ⟨"One", 1, .none_, [.stackOp]⟩
  | .add => ⟨"Add", 1, .none_, [.arithmetic]⟩
  | .subtract => ⟨"Subtract", 1, .none_, [.arithmetic]⟩
  | .multiply => ⟨"Multiply", 1, .none_, [.arithmetic]⟩
  | .divide => ⟨"Divide", 1, .none_, [.arithmetic]⟩
  | .intDivide => ⟨"IntDivide", 1, .none_, [.arithmetic]⟩
  | .modulo => ⟨"Modulo", 1, .none_, [.arithmetic]⟩
  | .negate => ⟨"Negate", 1, .none_, [.arithmetic]⟩
  | .increment => ⟨"Increment", 1, .none_, [.arithmetic]⟩
  | .decrement => ⟨"Decrement", 1, .none_, [.arithmetic]⟩
  | .equal => ⟨"Equal", 1, .none_, [.comparison]⟩
  | .notEqual => ⟨"NotEqual", 1, .none_, [.comparison]⟩
  | .less => ⟨"Less", 1, .none_, [.comparison]⟩
  | .lessEqual => ⟨"LessEqual", 1, .none_, [.comparison]⟩
  | .greater => ⟨"Greater", 1, .none_, [.comparison]⟩
  | .greaterEqual => ⟨"GreaterEqual", 1, .none_, [.comparison]⟩
  | .not => ⟨"Not", 1, .none_, []⟩
  | .and => ⟨"And", 1, .none_, []⟩
  | .or => ⟨"Or", 1, .none_, []⟩
  | .concatenate => ⟨"Concatenate", 1, .none_, []⟩
  | .interpolate => ⟨"Interpolate", 2, .none_, []⟩
  | .makeArray => ⟨"MakeArray", 3, .none_, []⟩
  | .makeDict => ⟨"MakeDict", 3, .none_, []⟩
  | .makeTuple => ⟨"MakeTuple", 3, .none_, []⟩
  | .makeRange => ⟨"MakeRange", 1, .none_, []⟩
  | .makeRangeInc => ⟨"MakeRangeInc", 1, .none_, []⟩
  | .indexGet => ⟨"IndexGet", 1, .none_, []⟩
  | .indexSet => ⟨"IndexSet", 1, .none_, []⟩
  | .indexGetOpt => ⟨"IndexGetOpt", 1, .none_, []⟩
  | .makeRecord => ⟨"MakeRecord", 4, .none_, []⟩
  | .getField => ⟨"GetField", 3, .name, []⟩
  | .setField => ⟨"SetField", 3, .name, []⟩
  | .getFieldOpt => ⟨"GetFieldOpt", 3, .name, []⟩
  | .recordWith => ⟨"RecordWith", 2, .none_, []⟩
  | .makeChoice => ⟨"MakeChoice", 1, .none_, []⟩
  | .makeChoiceConstructor => ⟨"MakeChoiceConstructor", 2, .none_, []⟩
  | .makeSuccess => ⟨"MakeSuccess", 1, .none_, []⟩
  | .makeFailure => ⟨"MakeFailure", 1, .none_, []⟩
  | .makeSome => ⟨"MakeSome", 1, .none_, []⟩
  | .unwrap => ⟨"Unwrap", 1, .none_, []⟩
  | .resultInner => ⟨"ResultInner", 1, .none_, []⟩
  | .isSuccess => ⟨"IsSuccess", 1, .none_, []⟩
  | .isSome => ⟨"IsSome", 1, .none_, []⟩
  | .ensureSuccess => ⟨"EnsureSuccess", 1, .none_, []⟩
  | .downcast => ⟨"Downcast", 3, .name, []⟩
  | .trustedDowncast => ⟨"TrustedDowncast", 3, .name, []⟩
  | .isType => ⟨"IsType", 3, .name, []⟩
  | .jump => ⟨"Jump", 5, .none_, [.controlFlow, .terminator, .forwardJump, .jump]⟩
  | .jumpIfFalse => ⟨"JumpIfFalse", 5, .none_, [.controlFlow, .forwardJump, .jump]⟩
  | .jumpIfTrue => ⟨"JumpIfTrue", 5, .none_, [.controlFlow, .forwardJump, .jump]⟩
  | .loop => ⟨"Loop", 5, .none_, [.controlFlow, .jump]⟩
  | .nullCoalesce => ⟨"NullCoalesce", 5, .none_, [.controlFlow, .forwardJump, .jump]⟩
  | .call => ⟨"Call", 2, .none_, [.controlFlow]⟩
  | .callNamed => ⟨"CallNamed", 3, .none_, [.controlFlow]⟩
  | .tailCall => ⟨"TailCall", 2, .none_, [.controlFlow]⟩
  | .return_ => ⟨"Return", 1, .none_, [.controlFlow, .terminator]⟩
  | .makeClosure => ⟨"MakeClosure", 4, .none_, []⟩
  | .pipe => ⟨"Pipe", 1, .none_, [.controlFlow]⟩
  | .errorPipe => ⟨"ErrorPipe", 1, .none_, [.controlFlow]⟩
  | .tryCatch => ⟨"TryCatch", 5, .none_, [.controlFlow, .forwardJump, .jump]⟩
  | .tryEnd => ⟨"TryEnd", 1, .none_, [.controlFlow]⟩
  | .rethrow => ⟨"Rethrow", 1, .none_, [.controlFlow]⟩
  | .matchStart => ⟨"MatchStart", 1, .none_, [.controlFlow]⟩
  | .matchArm => ⟨"MatchArm", 1, .none_, [.controlFlow]⟩
  | .matchEnd => ⟨"MatchEnd", 1, .none_, [.controlFlow]⟩
  | .contains => ⟨"Contains", 1, .none_, []⟩
  | .spawn => ⟨"Spawn", 2, .none_, []⟩
  | .await => ⟨"Await", 1, .none_, []⟩
  | .taskScopeBegin => ⟨"TaskScopeBegin", 1, .none_, []⟩
  | .taskScopeEnd => ⟨"TaskScopeEnd", 1, .none_, []⟩
  | .forIterInit => ⟨"ForIterInit", 1, .none_, []⟩
  | .forIterStep => ⟨"ForIterStep", 1, .none_, []⟩
  | .forIterStepKV => ⟨"ForIterStepKV", 1, .none_, []⟩
  | .print => ⟨"Print", 2, .none_, []⟩
  | .assert => ⟨"Assert", 2, .none_, []⟩
  | .typeOf => ⟨"TypeOf", 1, .none_, []⟩
  | .incrementLocal => ⟨"IncrementLocal", 3, .local, []⟩
  | .decrementLocal => ⟨"DecrementLocal", 3, .local, []⟩
  | .setLocalPop => ⟨"SetLocalPop", 3, .local, []⟩
  | .getLocalReturn => ⟨"GetLocalReturn", 3, .local, [.terminator]⟩
  | .intToNumber => ⟨"IntToNumber", 1, .none_, []⟩
  | .widenNumber => ⟨"WidenNumber", 3, .name, []⟩
  | .clone => ⟨"Clone", 1, .none_, []⟩
  | .uniqueLocal => ⟨"UniqueLocal", 3, .local, [.loadStore]⟩
  | .uniqueUpvalue => ⟨"UniqueUpvalue", 3, .upvalue, [.loadStore]⟩
  | .uniqueGlobal => ⟨"UniqueGlobal", 3, .name, [.loadStore]⟩
  | .getFieldUnique => ⟨"GetFieldUnique", 3, .name, []⟩
  | .indexGetUnique => ⟨"IndexGetUnique", 1, .none_, []⟩
  | .endModule => ⟨"EndModule", 1, .none_, []⟩

-- The equations of the definitions are derived here, once for all proofs.
section
attribute [local simp] info
end

/-- Name of the opcode in diagnostics. -/
def opcodeName (op : Op) : String := op.info.name

/-- Size in bytes of the opcode and its fixed operands. -/
def opcodeBaseSize (op : Op) : Nat := op.info.baseSize

/-- The table a `u16` operand of the opcode indexes. -/
def operandCategory (op : Op) : OperandCategory := op.info.operandCategory

/-- Does the opcode carry a forward branch offset? -/
def isForwardJump (op : Op) : Bool := op.info.flags.contains .forwardJump

/-- Does the opcode carry any branch offset, forward or backward? -/
def isJump (op : Op) : Bool := op.info.flags.contains .jump

/-- Does the opcode end its basic block unconditionally? -/
def isTerminator (op : Op) : Bool := op.info.flags.contains .terminator

/-- Every opcode, in enumeration order. -/
def all : List Op :=
  [.constant, .constantLong, .pop, .dup, .dup2, .swap, .getLocal, .setLocal, .getUpvalue,
   .setUpvalue, .getGlobal, .setGlobal, .none_, .true_, .false_, .zero, .one, .add,
   .subtract, .multiply, .divide, .intDivide, .modulo, .negate, .increment, .decrement,
   .equal, .notEqual, .less, .lessEqual, .greater, .greaterEqual, .not, .and, .or,
   .concatenate, .interpolate, .makeArray, .makeDict, .makeTuple, .makeRange, .makeRangeInc,
   .indexGet, .indexSet, .indexGetOpt, .makeRecord, .getField, .setField, .getFieldOpt,
   .recordWith, .makeChoice, .makeChoiceConstructor, .makeSuccess, .makeFailure, .makeSome,
   .unwrap, .resultInner, .isSuccess, .isSome, .ensureSuccess, .downcast, .trustedDowncast,
   .isType, .jump, .jumpIfFalse, .jumpIfTrue, .loop, .nullCoalesce, .call, .callNamed,
   .tailCall, .return_, .makeClosure, .pipe, .errorPipe, .tryCatch, .tryEnd, .rethrow,
   .matchStart, .matchArm, .matchEnd, .contains, .spawn, .await, .taskScopeBegin,
   .taskScopeEnd, .forIterInit, .forIterStep, .forIterStepKV, .print, .assert, .typeOf,
   .incrementLocal, .decrementLocal, .setLocalPop, .getLocalReturn, .intToNumber,
   .widenNumber, .clone, .uniqueLocal, .uniqueUpvalue, .uniqueGlobal, .getFieldUnique,
   .indexGetUnique, .endModule]

/-- The byte that encodes the opcode. -/
def toByte (op : Op) : UInt8 := UInt8.ofNat op.ctorIdx

/-- The opcode a byte encodes, if it encodes one. -/
def ofByte (byte : UInt8) : Option Op := all[byte.toNat]?

theorem all_getElem? (op : Op) : all[op.ctorIdx]? = some op := by
  cases op <;> rfl

theorem ctorIdx_lt (op : Op) : op.ctorIdx < 105 := by
  cases op <;> decide

@[simp] theorem toByte_toNat (op : Op) : op.toByte.toNat = op.ctorIdx := by
  have hlt := op.ctorIdx_lt
  rw [toByte, UInt8.toNat_ofNat']
  omega

@[simp] theorem ofByte_toByte (op : Op) : ofByte op.toByte = some op := by
  rw [ofByte, toByte_toNat, all_getElem?]

/-- No opcode is smaller than its opcode byte. -/
theorem opcodeBaseSize_pos (op : Op) : 0 < op.opcodeBaseSize := by
  cases op <;> decide

/-- Every jump is a five-byte instruction: the opcode and a `u32` offset. -/
theorem opcodeBaseSize_of_isJump {op : Op} (h : op.isJump = true) :
    op.opcodeBaseSize = 5 := by
  cases op <;> first | rfl | exact absurd h (by decide)

/-- The backward jump is the only jump that is not a forward jump. -/
theorem isJump_iff (op : Op) : op.isJump = true ↔ op.isForwardJump = true ∨ op = .loop := by
  cases op <;> decide

end Op

end Luma
