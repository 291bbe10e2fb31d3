-- SUMMARY: Chunks of bytecode, their tables, and compiled functions.
import Luma.Bytecode.Opcode
import Luma.Value.Value

/-! # Chunks and Compiled Functions

The output of the compiler and the input of the VM: a byte stream with its
constant pool, name table and source map, wrapped with the metadata of the
function it belongs to. Table size limits are invariants of the tables. -/

namespace Luma

open Codec

namespace CompilerLimits

/-- Maximum number of local variables per function. -/
def maxLocals : Nat := 65535

/-- Maximum number of arguments of a call. -/
def maxArguments : Nat := 255

/-- Maximum number of entries of a constant pool. -/
def maxConstants : Nat := 65535

/-- Maximum number of captured variables of a function. -/
def maxUpvalues : Nat := 255

/-- Maximum number of entries of a name table. -/
def maxNames : Nat := 65535

/-- Slot of the first parameter; slot 0 holds the function itself. -/
def firstParameterSlot : Nat := 1

/-- Maximum stack depth the verifier allows. -/
def maxStackDepth : Nat := 65536

end CompilerLimits

/-- A position in the source: the end of a token, and its start. -/
structure SourceLocation where
  fileId : Int32
  line : Int32
  column : Int32
  startLine : Int32
  startColumn : Int32
  deriving DecidableEq, Repr

/-- Source locations of the instructions, by byte offset, in emission order. -/
abbrev SourceMap := List (Nat × SourceLocation)

/-- The interned names of a chunk: no name twice, and no more than the limit. -/
structure NameTable where
  names : List Bytes
  nodup : names.Nodup
  size_le : names.length ≤ CompilerLimits.maxNames
  deriving DecidableEq

namespace NameTable

def empty : NameTable where
  names := []
  nodup := List.nodup_nil
  size_le := Nat.zero_le _

/-- Intern `name`: its index and the table with it, or nothing when the table is
    full. -/
def tryAdd (table : NameTable) (name : Bytes) : Option (Nat × NameTable) :=
  if hmem : name ∈ table.names then
    some (table.names.idxOf name, table)
  else if hfull : table.names.length < CompilerLimits.maxNames then
    some (table.names.length,
      { names := table.names ++ [name]
        nodup := by
          rw [List.nodup_append]
          refine ⟨table.nodup, List.nodup_singleton name, ?_⟩
          intro a ha b hb hab
          exact hmem (List.mem_singleton.mp hb ▸ hab ▸ ha)
        size_le := by
          rw [List.length_append]
          exact hfull })
  else
    none

end NameTable

/-- The constants of a chunk. -/
structure ConstantPool where
  values : List Value
  size_le : values.length ≤ CompilerLimits.maxConstants

namespace ConstantPool

def empty : ConstantPool where
  values := []
  size_le := Nat.zero_le _

/-- Append a constant without looking for an equal one. -/
def pushBack (pool : ConstantPool) (value : Value) : Option ConstantPool :=
  if hfull : pool.values.length < CompilerLimits.maxConstants then
    some
      { values := pool.values ++ [value]
        size_le := by
          rw [List.length_append]
          exact hfull }
  else
    none

/-- Do two constants share a deduplication key? Integers and strings are keyed by
    value, numbers by bit pattern; other values are never merged. -/
def sameKey : Value → Value → Bool
  | .integer a, .integer b => a == b
  | .string a, .string b => a == b
  | .number a, .number b => a == b
  | _, _ => false

/-- Add a constant, reusing an entry with the same key: its index and the pool with
    it, or nothing when the pool is full. -/
def tryAdd (pool : ConstantPool) (value : Value) : Option (Nat × ConstantPool) :=
  match pool.values.findIdx? (sameKey value) with
  | some index => some (index, pool)
  | none => (pool.pushBack value).map fun grown => (pool.values.length, grown)

end ConstantPool

/-- A chunk of bytecode. -/
structure Chunk where
  code : Bytes
  constants : ConstantPool
  sourceMap : SourceMap
  names : NameTable

namespace Chunk

def empty : Chunk where
  code := []
  constants := .empty
  sourceMap := []
  names := .empty

end Chunk

/-- How a closure captures a variable: from a slot of the enclosing frame, or from
    an upvalue of the enclosing closure. -/
structure Upvalue where
  index : UInt16
  isLocal : Bool
  isMutable : Bool
  deriving DecidableEq, Repr

/-- Names and mutability of the local slots. -/
structure FunctionDebugInfo where
  localNames : List Bytes
  localMutable : List Bool
  deriving DecidableEq, Repr

/-- A compiled function: its chunk, parameters, upvalue descriptors and flags. -/
structure CompiledFunction where
  name : Bytes
  chunk : Chunk
  arity : Nat
  requiredArity : Nat
  upvalueCount : Nat
  paramNames : List Bytes
  debugInfo : FunctionDebugInfo
  upvalues : List Upvalue
  isMain : Bool
  isTest : Bool
  verified : Bool

namespace CompiledFunction

def setIsVerified (func : CompiledFunction) (v : Bool) : CompiledFunction :=
  { func with verified := v }

end CompiledFunction

/-! ## Reading the byte stream -/

/-- The byte at an offset. Every caller is in bounds. -/
def byteAt (code : Bytes) (offset : Nat) : UInt8 := code.getD offset 0

/-- The big-endian `u16` at an offset. -/
def readU16At (code : Bytes) (offset : Nat) : Nat :=
  (byteAt code offset).toNat * 256 + (byteAt code (offset + 1)).toNat

/-- The big-endian `u32` at an offset. -/
def readU32At (code : Bytes) (offset : Nat) : Nat :=
  readU16At code offset * 65536 + readU16At code (offset + 2)

/-- Does `code[offset .. offset + size)` lie inside the code? -/
def inBounds (code : Bytes) (offset size : Nat) : Bool :=
  decide (offset ≤ code.length) && decide (size ≤ code.length - offset)

/-- The size of the instruction `op` at `offset`, with its variable part. A
    variable-size instruction cut off before its count has its base size. -/
def instructionSizeOf (op : Op) (code : Bytes) (offset : Nat) : Nat :=
  match op with
  | .makeRecord =>
    if code.length ≤ offset + 3 then 4 else 4 + (byteAt code (offset + 3)).toNat * 2
  | .recordWith =>
    if code.length ≤ offset + 1 then 2 else 2 + (byteAt code (offset + 1)).toNat * 2
  | op => op.opcodeBaseSize

/-- The size of the instruction at `offset`; a byte that is no opcode counts one. -/
def instructionSize (code : Bytes) (offset : Nat) : Nat :=
  match Op.ofByte (byteAt code offset) with
  | some op => instructionSizeOf op code offset
  | none => 1

/-- Target of the forward jump at `offset` with operand `relative`. -/
def resolveForwardJumpTarget (offset relative : Nat) : Nat := offset + 5 + relative

/-- Target of the backward jump at `offset` with operand `relative`. -/
def resolveLoopJumpTarget (offset relative : Nat) : Nat := offset + 5 - relative

theorem instructionSizeOf_ge (op : Op) (code : Bytes) (offset : Nat) :
    op.opcodeBaseSize ≤ instructionSizeOf op code offset := by
  unfold instructionSizeOf
  split
  · split
    · exact le_rfl
    · exact Nat.le_add_right 4 _
  · split
    · exact le_rfl
    · exact Nat.le_add_right 2 _
  · exact le_rfl

theorem instructionSize_pos (code : Bytes) (offset : Nat) : 0 < instructionSize code offset := by
  unfold instructionSize
  split
  · exact (Op.opcodeBaseSize_pos _).trans_le (instructionSizeOf_ge _ code offset)
  · exact Nat.one_pos

end Luma
