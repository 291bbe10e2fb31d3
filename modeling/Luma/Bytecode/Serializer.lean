-- SUMMARY: The persistent .lumc format: serialization and validating deserialization.
import Luma.Library.ByteReader
import Luma.Bytecode.Verifier

/-! # The Bytecode Serializer

Header, dependency table, function count, then the functions, the top-level one
first. Every integer is big-endian. The reader checks each count against its
limit and against the bytes left before it trusts it. -/

namespace Luma

open Codec Parser

namespace SerializerLimits

/-- Maximum size of one function's code section in bytes. -/
def maxCodeSectionBytes : Nat := 10000000

/-- Maximum number of functions in a file. -/
def maxFunctionCount : Nat := 100000

/-- Size of one source-map entry. -/
def sourceMapEntryBytes : Nat := 24

/-- Least size of a string: its length prefix. -/
def stringLengthPrefixBytes : Nat := 4

/-- Size of one mutability flag. -/
def localMutableEntryBytes : Nat := 1

/-- Size of one upvalue descriptor. -/
def upvalueEntryBytes : Nat := 3

/-- Least size of a function. -/
def minFunctionBytes : Nat := 31

/-- Maximum number of dependencies in a file. -/
def maxDependencyCount : Nat := 10000

/-- Least size of a dependency. -/
def minDependencyBytes : Nat := 12

end SerializerLimits

/-- A source file a compiled program was built from. -/
structure SourceDependency where
  path : Bytes
  contentHash : UInt64
  deriving DecidableEq, Repr

/-- The header of a file. -/
structure BytecodeHeader where
  magic : Bytes
  version : Nat
  flags : Nat
  sourceHash : UInt64
  timestamp : UInt64
  deriving DecidableEq, Repr

/-- What deserialization yields. -/
structure DeserializedBytecode where
  header : BytecodeHeader
  dependencies : List SourceDependency
  topLevel : CompiledFunction
  functions : List CompiledFunction

/-- Why a buffer is rejected. -/
inductive DeserializeError where
  | tooSmall | readError | badMagic | versionMismatch | badDependencyTable | badFunctionCount
  | corruptFunction
  deriving DecidableEq, Repr

/-- An error code and its explanation. -/
structure DeserializeFailure where
  error : DeserializeError
  detail : String
  deriving DecidableEq, Repr

namespace BytecodeSerializer

/-- The bytes "LUMC". -/
def bytecodeMagic : Bytes := [0x4C, 0x55, 0x4D, 0x43]

def bytecodeFormatVersion : Nat := 10

/-- Size of the header structure in memory, with its padding. -/
def sizeofBytecodeHeader : Nat := 32

/-! ## Writing -/

def writeU8 (v : Nat) : Bytes := writeIntBe 1 v
def writeU16 (v : Nat) : Bytes := writeIntBe 2 v
def writeU32 (v : Nat) : Bytes := writeIntBe 4 v
def writeU64 (v : UInt64) : Bytes := writeIntBe 8 v.toNat
def writeI64 (v : Int64) : Bytes := writeU64 v.toUInt64
def writeF64 (v : Binary64) : Bytes := writeU64 v.bits

/-- An `int`, cast to a `u32`. -/
def writeInt32 (v : Int32) : Bytes := writeU32 v.toUInt32.toNat

/-- A constant behind its type tag; other values are stored as null. -/
def serializeValue : Value → Bytes
  | .null => writeU8 0
  | .bool b => writeU8 1 ++ writeU8 (if b then 1 else 0)
  | .integer n => writeU8 2 ++ writeI64 n
  | .number x => writeU8 3 ++ writeF64 x
  | .string s => writeU8 4 ++ writeString s
  | _ => writeU8 0

/-- An offset of the source map and its location. -/
def serializeLocation (entry : Nat × SourceLocation) : Bytes :=
  writeU32 entry.1 ++ writeInt32 entry.2.fileId ++ writeInt32 entry.2.line ++
    writeInt32 entry.2.column ++ writeInt32 entry.2.startLine ++ writeInt32 entry.2.startColumn

def serializeChunk (chunk : Chunk) : Bytes :=
  writeU32 chunk.code.length ++ chunk.code ++
    (writeU16 chunk.constants.values.length ++ chunk.constants.values.flatMap serializeValue) ++
    (writeU32 chunk.sourceMap.length ++ chunk.sourceMap.flatMap serializeLocation) ++
    (writeU16 chunk.names.names.length ++ chunk.names.names.flatMap writeString)

/-- A byte whose bits are the flags, the first one lowest. -/
def flagBits : List Bool → Nat
  | [] => 0
  | flag :: flags => (if flag then 1 else 0) + 2 * flagBits flags

/-- Is the bit `i` of a flag byte set? -/
def flagSet (flags i : Nat) : Bool := flags.testBit i

def serializeUpvalue (uv : Upvalue) : Bytes :=
  writeU16 uv.index.toNat ++ writeU8 (flagBits [uv.isLocal, uv.isMutable])

def serializeFunction (func : CompiledFunction) : Bytes :=
  writeString func.name ++ writeU16 func.arity ++ writeU16 func.requiredArity ++
    writeU16 func.upvalueCount ++ writeU8 (flagBits [func.isMain, func.isTest, func.verified]) ++
    (writeU16 func.paramNames.length ++ func.paramNames.flatMap writeString) ++
    (writeU16 func.debugInfo.localNames.length ++
      func.debugInfo.localNames.flatMap writeString) ++
    (writeU16 func.debugInfo.localMutable.length ++
      func.debugInfo.localMutable.flatMap fun m => writeU8 (if m then 1 else 0)) ++
    (writeU16 func.upvalues.length ++ func.upvalues.flatMap serializeUpvalue) ++
    serializeChunk func.chunk

def serializeDependency (dependency : SourceDependency) : Bytes :=
  writeString dependency.path ++ writeU64 dependency.contentHash

/-- The bytes of a compiled program. -/
def serialize (topLevel : CompiledFunction) (functions : List CompiledFunction)
    (sourceHash timestamp : UInt64) (dependencies : List SourceDependency) : Bytes :=
  bytecodeMagic ++ writeU32 bytecodeFormatVersion ++ writeU32 0 ++ writeU64 sourceHash ++
    writeU64 timestamp ++
    (writeU32 dependencies.length ++ dependencies.flatMap serializeDependency) ++
    writeU32 (1 + functions.length) ++ serializeFunction topLevel ++
    functions.flatMap serializeFunction

/-! ## Reading -/

section Reading

variable {ε : Type}

def readU8 : Parser ε Nat := readInt 1
def readU16 : Parser ε Nat := readInt 2
def readU32 : Parser ε Nat := readInt 4
def readU64 : Parser ε UInt64 := return UInt64.ofNat (← readInt 8)
def readI64 : Parser ε Int64 := return (← readU64).toInt64
def readF64 : Parser ε Binary64 := return ⟨← readU64⟩

/-- A `u32`, cast to an `int`. -/
def readInt32 : Parser ε Int32 := return (UInt32.ofNat (← readU32)).toInt32

end Reading

/-- Rejection of a function or one of its parts. -/
inductive Corrupt where
  | corrupt
  deriving DecidableEq, Repr

/-- The payload of a constant, by its type tag. -/
def deserializePayload (type : Nat) : Parser Corrupt Value :=
  match type with
  | 0 => return .null
  | 1 => return .bool ((← readU8) != 0)
  | 2 => return .integer (← readI64)
  | 3 => return .number (← readF64)
  | 4 => return .string (← readString)
  | _ => throw .corrupt

def deserializeValue : Parser Corrupt Value := do
  let type ← readU8
  let error ← failed
  check (!error) .corrupt
  deserializePayload type

/-- Read an element count of `width` bytes, accept it if `withinLimit` does, and read
    that many elements. -/
def readBoundedArray {α : Type} (width : Nat) (withinLimit : Nat → Parser Corrupt Bool)
    (readElement : Parser Corrupt α) : Parser Corrupt (List α) := do
  let count ← readInt width
  let error ← failed
  check (!error) .corrupt
  let ok ← withinLimit count
  check ok .corrupt
  readMany count readElement

/-- Run an element reader and abort if it raised the error flag. -/
def checked {α : Type} (p : Parser Corrupt α) : Parser Corrupt α := do
  let x ← p
  let error ← failed
  check (!error) .corrupt
  return x

def deserializeLocation : Parser Corrupt (Nat × SourceLocation) := do
  let offset ← readU32
  let fileId ← readInt32
  let line ← readInt32
  let column ← readInt32
  let startLine ← readInt32
  let startColumn ← readInt32
  return (offset, ⟨fileId, line, column, startLine, startColumn⟩)

/-- The pool with the constants read, one appended after the other. -/
def poolOfValues : List Value → ConstantPool → Option ConstantPool
  | [], pool => some pool
  | value :: values, pool => pool.pushBack value >>= poolOfValues values

/-- The table with the names read, interned one after the other. -/
def tableOfNames : List Bytes → NameTable → Option NameTable
  | [], table => some table
  | name :: names, table => table.tryAdd name >>= fun added => tableOfNames names added.2

/-- A full table aborts: it would overflow. -/
def orCorrupt {α : Type} : Option α → Parser Corrupt α
  | some x => pure x
  | none => throw .corrupt

def deserializeChunk : Parser Corrupt Chunk := do
  let codeSize ← readU32
  let error ← failed
  check (!error) .corrupt
  check (decide (codeSize ≤ SerializerLimits.maxCodeSectionBytes)) .corrupt
  let enough ← hasRemaining codeSize
  check enough .corrupt
  let code ← readBytes (List.replicate codeSize 0) codeSize
  let values ← readBoundedArray 2
    (fun count => return decide (count ≤ CompilerLimits.maxConstants)) (checked deserializeValue)
  let constants ← orCorrupt (poolOfValues values .empty)
  let sourceMap ← readBoundedArray 4
    (fun count => hasRemaining (count * SerializerLimits.sourceMapEntryBytes))
    (checked deserializeLocation)
  let names ← readBoundedArray 2
    (fun count => hasRemaining (count * SerializerLimits.stringLengthPrefixBytes))
    (checked readString)
  let names ← orCorrupt (tableOfNames names .empty)
  return ⟨code, constants, sourceMap, names⟩

def deserializeUpvalue : Parser Corrupt Upvalue := do
  let index ← readU16
  let flags ← readU8
  return ⟨UInt16.ofNat index, flagSet flags 0, flagSet flags 1⟩

/-- A count whose elements need at least `entryBytes` each of what is left. -/
def readCount (entryBytes : Nat) : Parser Corrupt Nat := do
  let count ← readU16
  let error ← failed
  check (!error) .corrupt
  let enough ← hasRemaining (count * entryBytes)
  check enough .corrupt
  return count

def deserializeFunction : Parser Corrupt CompiledFunction := do
  let name ← readString
  let arity ← readU16
  let requiredArity ← readU16
  let upvalueCount ← readU16
  let flags ← readU8
  let error ← failed
  check (!error) .corrupt
  check (decide (arity ≤ CompilerLimits.maxArguments) &&
    decide (requiredArity ≤ CompilerLimits.maxArguments) &&
    decide (upvalueCount ≤ CompilerLimits.maxUpvalues)) .corrupt
  let paramCount ← readCount SerializerLimits.stringLengthPrefixBytes
  check (decide (paramCount ≤ arity)) .corrupt
  let paramNames ← readMany paramCount readString
  let localCount ← readCount SerializerLimits.stringLengthPrefixBytes
  let localNames ← readMany localCount readString
  let mutableCount ← readCount SerializerLimits.localMutableEntryBytes
  let localMutable ← readMany mutableCount (return (← readU8) != 0)
  let uvCount ← readU16
  check (decide (uvCount ≤ CompilerLimits.maxUpvalues)) .corrupt
  let error ← failed
  check (!error) .corrupt
  let enough ← hasRemaining (uvCount * SerializerLimits.upvalueEntryBytes)
  check enough .corrupt
  let upvalues ← readMany uvCount deserializeUpvalue
  let error ← failed
  check (!error) .corrupt
  check (decide (upvalueCount = upvalues.length)) .corrupt
  let chunk ← deserializeChunk
  return {
    name, chunk, arity, requiredArity, upvalueCount, paramNames
    debugInfo := ⟨localNames, localMutable⟩
    upvalues
    isMain := flagSet flags 0
    isTest := flagSet flags 1
    verified := flagSet flags 2 }

def deserializeDependency (i : Nat) : Parser DeserializeFailure SourceDependency := do
  let path ← readString
  let contentHash ← readU64
  let error ← failed
  check (!error) ⟨.badDependencyTable, s!"bytecode_serializer: corrupt dependency {i}"⟩
  return ⟨path, contentHash⟩

/-- Give a function the verdict of the verifier, whatever the file claimed. -/
def reverify (pastEnd : Int) (func : CompiledFunction) : CompiledFunction :=
  func.setIsVerified (BytecodeVerifier.verify pastEnd func).isEmpty

/-- The function at index `i` of the function table after the top-level one. -/
def deserializeNthFunction (i : Nat) : Parser DeserializeFailure CompiledFunction :=
  deserializeFunction.orElseError ⟨.corruptFunction, s!"bytecode_serializer: corrupt function {i}"⟩

/-- The reader of a whole buffer. -/
def deserializeFrom (pastEnd : Int) : Parser DeserializeFailure DeserializedBytecode := do
  let magic ← readBytes bytecodeMagic 4
  let version ← readU32
  let flags ← readU32
  let sourceHash ← readU64
  let timestamp ← readU64
  let error ← failed
  check (!error) ⟨.readError, "bytecode_serializer: header read failed"⟩
  check (decide (magic = bytecodeMagic)) ⟨.badMagic, "bytecode_serializer: invalid magic bytes"⟩
  check (decide (version = bytecodeFormatVersion)) ⟨.versionMismatch,
    s!"bytecode_serializer: expected version {bytecodeFormatVersion}, got {version}"⟩
  let dependencyCount ← readU32
  let error ← failed
  let enough ← hasRemaining (dependencyCount * SerializerLimits.minDependencyBytes)
  check (!error && decide (dependencyCount ≤ SerializerLimits.maxDependencyCount) && enough)
    ⟨.badDependencyTable, s!"bytecode_serializer: invalid dependency count {dependencyCount}"⟩
  let dependencies ← readIndexed deserializeDependency 0 dependencyCount
  let funcCount ← readU32
  let error ← failed
  check (!error && decide (funcCount ≠ 0) &&
      decide (funcCount ≤ SerializerLimits.maxFunctionCount))
    ⟨.badFunctionCount, s!"bytecode_serializer: invalid function count {funcCount}"⟩
  let topLevel ← deserializeFunction.orElseError
    ⟨.corruptFunction, "bytecode_serializer: corrupt top-level function"⟩
  let error ← failed
  let enough ← hasRemaining ((funcCount - 1) * SerializerLimits.minFunctionBytes)
  check (!error && enough) ⟨.badFunctionCount,
    s!"bytecode_serializer: function count {funcCount} exceeds remaining input"⟩
  let functions ← readIndexed deserializeNthFunction 1 (funcCount - 1)
  return {
    header := ⟨magic, version, flags, sourceHash, timestamp⟩
    dependencies
    topLevel := reverify pastEnd topLevel
    functions := functions.map (reverify pastEnd) }

/-- Deserialize a buffer. -/
def deserialize (pastEnd : Int) (data : Bytes) :
    Except DeserializeFailure DeserializedBytecode :=
  if data.length < sizeofBytecodeHeader then
    .error ⟨.tooSmall, "bytecode_serializer: buffer smaller than header"⟩
  else ((deserializeFrom pastEnd).run ⟨data, false⟩).map Prod.fst

end BytecodeSerializer

end Luma
