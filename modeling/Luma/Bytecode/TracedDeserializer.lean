-- SUMMARY: The deserializer over a raw buffer, with a record of the bytes it looks at and the loops it enters.
import Luma.Library.TracedReader
import Luma.Bytecode.Serializer

/-! # The Traced Deserializer

The deserializer as it runs over a raw pointer and a position. Before each loop over a
count from the file it notes the count and the number of bytes left, and it notes each
name that it interns. It refines the deserializer that only says what it returns. -/

namespace Luma.TracedDeserializer

open Codec Codec.Traced Walk
open BytecodeSerializer (Corrupt)

/-- The parts of a file that are read by a loop over a count. -/
inductive Table where
  | dependencies
  | functions
  | paramNames
  | localNames
  | localMutable
  | upvalues
  | code
  | constants
  | sourceMap
  | names
  deriving DecidableEq

inductive Note where
  | loop (table : Table) (count left : Nat)
  | interned (name : Bytes)

/-- The count of a loop is within the limit of its table, and the bytes that are left can
    hold so many elements. -/
def Table.Within (count left : Nat) : Table → Prop
  | dependencies => count ≤ SerializerLimits.maxDependencyCount ∧ count * SerializerLimits.minDependencyBytes ≤ left
  | functions => count < SerializerLimits.maxFunctionCount ∧ count * SerializerLimits.minFunctionBytes ≤ left
  | paramNames => count ≤ CompilerLimits.maxArguments ∧ count * SerializerLimits.stringLengthPrefixBytes ≤ left
  | localNames => count * SerializerLimits.stringLengthPrefixBytes ≤ left
  | localMutable => count * SerializerLimits.localMutableEntryBytes ≤ left
  | upvalues => count ≤ CompilerLimits.maxUpvalues ∧ count * SerializerLimits.upvalueEntryBytes ≤ left
  | code => count ≤ SerializerLimits.maxCodeSectionBytes ∧ count ≤ left
  | constants => count ≤ CompilerLimits.maxConstants
  | sourceMap => count * SerializerLimits.sourceMapEntryBytes ≤ left
  | names => count * SerializerLimits.stringLengthPrefixBytes ≤ left

def Note.Within : Note → Prop
  | loop table count left => table.Within count left
  | interned _ => True

/-! ## The deserializer -/

section Reading

variable {ε : Type}

def readU8 : Walk Note ε Nat := readInt 1
def readU16 : Walk Note ε Nat := readInt 2
def readU32 : Walk Note ε Nat := readInt 4
def readU64 : Walk Note ε UInt64 := return UInt64.ofNat (← readInt 8)
def readI64 : Walk Note ε Int64 := return (← readU64).toInt64
def readF64 : Walk Note ε Binary64 := return ⟨← readU64⟩

/-- A `u32`, cast to an `int`. -/
def readInt32 : Walk Note ε Int32 := return (UInt32.ofNat (← readU32)).toInt32

end Reading

/-- The payload of a constant, by its type tag. -/
def deserializePayload (type : Nat) : Walk Note Corrupt Value :=
  match type with
  | 0 => return .null
  | 1 => return .bool ((← readU8) != 0)
  | 2 => return .integer (← readI64)
  | 3 => return .number (← readF64)
  | 4 => return .string (← readString)
  | _ => abort .corrupt

def deserializeValue : Walk Note Corrupt Value := do
  let type ← readU8
  let error ← failed
  check (!error) .corrupt
  deserializePayload type

/-- Read an element count of `width` bytes, accept it if `withinLimit` does, and read
    that many elements. -/
def readBoundedArray {α : Type} (table : Table) (width : Nat) (withinLimit : Nat → Walk Note Corrupt Bool)
    (readElement : Walk Note Corrupt α) : Walk Note Corrupt (List α) := do
  let count ← readInt width
  let error ← failed
  check (!error) .corrupt
  let ok ← withinLimit count
  check ok .corrupt
  note (.loop table count)
  readMany count readElement

/-- Run an element reader and abort if it raised the error flag. -/
def checked {α : Type} (w : Walk Note Corrupt α) : Walk Note Corrupt α := do
  let x ← w
  let error ← failed
  check (!error) .corrupt
  return x

def deserializeLocation : Walk Note Corrupt (Nat × SourceLocation) := do
  let offset ← readU32
  let fileId ← readInt32
  let line ← readInt32
  let column ← readInt32
  let startLine ← readInt32
  let startColumn ← readInt32
  return (offset, ⟨fileId, line, column, startLine, startColumn⟩)

/-- A name of the name table, which is noted when it has been read. -/
def deserializeName : Walk Note Corrupt Bytes := do
  let name ← checked readString
  note fun _ => .interned name
  return name

/-- A full table aborts: it would overflow. -/
def orCorrupt {α : Type} : Option α → Walk Note Corrupt α
  | some x => pure x
  | none => abort .corrupt

def deserializeChunk : Walk Note Corrupt Chunk := do
  let codeSize ← readU32
  let error ← failed
  check (!error) .corrupt
  check (decide (codeSize ≤ SerializerLimits.maxCodeSectionBytes)) .corrupt
  let enough ← hasRemaining codeSize
  check enough .corrupt
  note (.loop .code codeSize)
  let code ← readBytes (List.replicate codeSize 0) codeSize
  let values ← readBoundedArray .constants 2
    (fun count => return decide (count ≤ CompilerLimits.maxConstants)) (checked deserializeValue)
  let constants ← orCorrupt (BytecodeSerializer.poolOfValues values .empty)
  let sourceMap ← readBoundedArray .sourceMap 4
    (fun count => hasRemaining (count * SerializerLimits.sourceMapEntryBytes)) (checked deserializeLocation)
  let names ← readBoundedArray .names 2
    (fun count => hasRemaining (count * SerializerLimits.stringLengthPrefixBytes)) deserializeName
  let names ← orCorrupt (BytecodeSerializer.tableOfNames names .empty)
  return ⟨code, constants, sourceMap, names⟩

def deserializeUpvalue : Walk Note Corrupt Upvalue := do
  let index ← readU16
  let flags ← readU8
  return ⟨UInt16.ofNat index, BytecodeSerializer.flagSet flags 0, BytecodeSerializer.flagSet flags 1⟩

/-- A count whose elements need at least `entryBytes` each of what is left. -/
def readCount (entryBytes : Nat) : Walk Note Corrupt Nat := do
  let count ← readU16
  let error ← failed
  check (!error) .corrupt
  let enough ← hasRemaining (count * entryBytes)
  check enough .corrupt
  return count

def deserializeFunction : Walk Note Corrupt CompiledFunction := do
  let name ← readString
  let arity ← readU16
  let requiredArity ← readU16
  let upvalueCount ← readU16
  let flags ← readU8
  let error ← failed
  check (!error) .corrupt
  check (decide (arity ≤ CompilerLimits.maxArguments) && decide (requiredArity ≤ CompilerLimits.maxArguments) &&
    decide (upvalueCount ≤ CompilerLimits.maxUpvalues)) .corrupt
  let paramCount ← readCount SerializerLimits.stringLengthPrefixBytes
  check (decide (paramCount ≤ arity)) .corrupt
  note (.loop .paramNames paramCount)
  let paramNames ← readMany paramCount readString
  let localCount ← readCount SerializerLimits.stringLengthPrefixBytes
  note (.loop .localNames localCount)
  let localNames ← readMany localCount readString
  let mutableCount ← readCount SerializerLimits.localMutableEntryBytes
  note (.loop .localMutable mutableCount)
  let localMutable ← readMany mutableCount (return (← readU8) != 0)
  let uvCount ← readU16
  check (decide (uvCount ≤ CompilerLimits.maxUpvalues)) .corrupt
  let error ← failed
  check (!error) .corrupt
  let enough ← hasRemaining (uvCount * SerializerLimits.upvalueEntryBytes)
  check enough .corrupt
  note (.loop .upvalues uvCount)
  let upvalues ← readMany uvCount deserializeUpvalue
  let error ← failed
  check (!error) .corrupt
  check (decide (upvalueCount = upvalues.length)) .corrupt
  let chunk ← deserializeChunk
  return {
    name, chunk, arity, requiredArity, upvalueCount, paramNames
    debugInfo := ⟨localNames, localMutable⟩
    upvalues
    isMain := BytecodeSerializer.flagSet flags 0
    isTest := BytecodeSerializer.flagSet flags 1
    verified := BytecodeSerializer.flagSet flags 2 }

def deserializeDependency (i : Nat) : Walk Note DeserializeFailure SourceDependency := do
  let path ← readString
  let contentHash ← readU64
  let error ← failed
  check (!error) ⟨.badDependencyTable, s!"bytecode_serializer: corrupt dependency {i}"⟩
  return ⟨path, contentHash⟩

/-- The function at index `i` of the function table after the top-level one. -/
def deserializeNthFunction (i : Nat) : Walk Note DeserializeFailure CompiledFunction :=
  deserializeFunction.orElseError ⟨.corruptFunction, s!"bytecode_serializer: corrupt function {i}"⟩

def deserializeFrom (pastEnd : Int) : Walk Note DeserializeFailure DeserializedBytecode := do
  let magic ← readBytes BytecodeSerializer.bytecodeMagic 4
  let version ← readU32
  let flags ← readU32
  let sourceHash ← readU64
  let timestamp ← readU64
  let error ← failed
  check (!error) ⟨.readError, "bytecode_serializer: header read failed"⟩
  check (decide (magic = BytecodeSerializer.bytecodeMagic)) ⟨.badMagic, "bytecode_serializer: invalid magic bytes"⟩
  check (decide (version = BytecodeSerializer.bytecodeFormatVersion)) ⟨.versionMismatch,
    s!"bytecode_serializer: expected version {BytecodeSerializer.bytecodeFormatVersion}, got {version}"⟩
  let dependencyCount ← readU32
  let error ← failed
  let enough ← hasRemaining (dependencyCount * SerializerLimits.minDependencyBytes)
  check (!error && decide (dependencyCount ≤ SerializerLimits.maxDependencyCount) && enough)
    ⟨.badDependencyTable, s!"bytecode_serializer: invalid dependency count {dependencyCount}"⟩
  note (.loop .dependencies dependencyCount)
  let dependencies ← readIndexed deserializeDependency 0 dependencyCount
  let funcCount ← readU32
  let error ← failed
  check (!error && decide (funcCount ≠ 0) && decide (funcCount ≤ SerializerLimits.maxFunctionCount))
    ⟨.badFunctionCount, s!"bytecode_serializer: invalid function count {funcCount}"⟩
  let topLevel ← deserializeFunction.orElseError
    ⟨.corruptFunction, "bytecode_serializer: corrupt top-level function"⟩
  let error ← failed
  let enough ← hasRemaining ((funcCount - 1) * SerializerLimits.minFunctionBytes)
  check (!error && enough) ⟨.badFunctionCount,
    s!"bytecode_serializer: function count {funcCount} exceeds remaining input"⟩
  note (.loop .functions (funcCount - 1))
  let functions ← readIndexed deserializeNthFunction 1 (funcCount - 1)
  return {
    header := ⟨magic, version, flags, sourceHash, timestamp⟩
    dependencies
    topLevel := BytecodeSerializer.reverify pastEnd topLevel
    functions := functions.map (BytecodeSerializer.reverify pastEnd) }

/-- Deserialize a buffer: what is returned, and the record of it. -/
def deserialize (pastEnd : Int) (data : Bytes) :
    Except DeserializeFailure DeserializedBytecode × List (Event Note) :=
  if data.length < BytecodeSerializer.sizeofBytecodeHeader then
    (.error ⟨.tooSmall, "bytecode_serializer: buffer smaller than header"⟩, [])
  else
    let (result, cursor) := deserializeFrom pastEnd data ⟨0, false, []⟩
    (result, cursor.log)

end Luma.TracedDeserializer
