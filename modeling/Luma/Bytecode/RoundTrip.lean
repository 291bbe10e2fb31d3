-- SUMMARY: Deserializing a serialized program gives it back, with the verifier's verdicts.
import Luma.Bytecode.Serializer

/-! # The Round Trip of the Bytecode Format

Every reader undoes its writer. The proofs follow the readers line by line with
the rules of `Parser.Reads`; what they need of the program is collected in
`FitsFormat`. -/

namespace Luma.BytecodeSerializer

open Codec Parser

/-! ## What the format can store -/

/-- The constants the format has a tag for, with strings short enough for their
    length prefix. -/
def FitsFormat.Constant : Value → Prop
  | .null | .bool _ | .integer _ | .number _ => True
  | .string s => s.length < 2 ^ 32
  | _ => False

/-- A chunk within the limits of the format. -/
structure FitsFormat.Chunk (chunk : Luma.Chunk) : Prop where
  code_le : chunk.code.length ≤ SerializerLimits.maxCodeSectionBytes
  constants : ∀ value ∈ chunk.constants.values, FitsFormat.Constant value
  sourceMap_lt : chunk.sourceMap.length < 2 ^ 32
  offsets_lt : ∀ entry ∈ chunk.sourceMap, entry.1 < 2 ^ 32
  names_lt : ∀ name ∈ chunk.names.names, name.length < 2 ^ 32

/-- A function within the limits of the format, whose counts agree. -/
structure FitsFormat.Function (func : CompiledFunction) : Prop where
  name_lt : func.name.length < 2 ^ 32
  arity_le : func.arity ≤ CompilerLimits.maxArguments
  requiredArity_le : func.requiredArity ≤ CompilerLimits.maxArguments
  upvalueCount_le : func.upvalueCount ≤ CompilerLimits.maxUpvalues
  upvalueCount_eq : func.upvalueCount = func.upvalues.length
  paramNames_le : func.paramNames.length ≤ func.arity
  paramName_lt : ∀ name ∈ func.paramNames, name.length < 2 ^ 32
  localNames_lt : func.debugInfo.localNames.length < 2 ^ 16
  localName_lt : ∀ name ∈ func.debugInfo.localNames, name.length < 2 ^ 32
  localMutable_lt : func.debugInfo.localMutable.length < 2 ^ 16
  chunk : FitsFormat.Chunk func.chunk

/-- A program within the limits of the format. -/
structure FitsFormat (topLevel : CompiledFunction) (functions : List CompiledFunction)
    (dependencies : List SourceDependency) : Prop where
  functions_le : 1 + functions.length ≤ SerializerLimits.maxFunctionCount
  topLevel : FitsFormat.Function topLevel
  function : ∀ func ∈ functions, FitsFormat.Function func
  dependencies_le : dependencies.length ≤ SerializerLimits.maxDependencyCount
  path_lt : ∀ dependency ∈ dependencies, dependency.path.length < 2 ^ 32

/-! ## Scalars -/

section Scalars

variable {ε : Type}

theorem reads_u8 {v : Nat} (hlt : v < 256) : Reads (readU8 : Parser ε Nat) (writeU8 v) v :=
  Reads.readInt (by simpa using hlt)

theorem reads_u16 {v : Nat} (hlt : v < 2 ^ 16) : Reads (readU16 : Parser ε Nat) (writeU16 v) v :=
  Reads.readInt (by simpa using hlt)

theorem reads_u32 {v : Nat} (hlt : v < 2 ^ 32) : Reads (readU32 : Parser ε Nat) (writeU32 v) v :=
  Reads.readInt (by simpa using hlt)

theorem reads_u64 (v : UInt64) : Reads (readU64 : Parser ε UInt64) (writeU64 v) v := by
  have hread : Reads (readInt 8 : Parser ε Nat) (writeIntBe 8 v.toNat) v.toNat :=
    Reads.readInt (by simpa using v.toNat_lt)
  have hmap := hread.map UInt64.ofNat
  rwa [UInt64.ofNat_toNat] at hmap

theorem reads_i64 (v : Int64) : Reads (readI64 : Parser ε Int64) (writeI64 v) v :=
  (reads_u64 v.toUInt64).map UInt64.toInt64

theorem reads_f64 (v : Binary64) : Reads (readF64 : Parser ε Binary64) (writeF64 v) v :=
  (reads_u64 v.bits).map Binary64.mk

theorem reads_int32 (v : Int32) : Reads (readInt32 : Parser ε Int32) (writeInt32 v) v := by
  have hread : Reads (readU32 : Parser ε Nat) (writeU32 v.toUInt32.toNat) v.toUInt32.toNat :=
    reads_u32 (by simpa using v.toUInt32.toNat_lt)
  have hmap := hread.map fun n => (UInt32.ofNat n).toInt32
  rwa [UInt32.ofNat_toNat] at hmap

/-- A flag stored as one byte. -/
theorem reads_bool (b : Bool) :
    Reads ((readU8 : Parser ε Nat) >>= fun byte => pure (byte != 0))
      (writeU8 (if b then 1 else 0)) b := by
  have hread : Reads (readU8 : Parser ε Nat) (writeU8 (if b then 1 else 0)) (if b then 1 else 0) :=
    reads_u8 (by cases b <;> decide)
  have hmap := hread.map fun byte => byte != 0
  cases b <;> exact hmap

theorem reads_string {s : Bytes} (hlt : s.length < 2 ^ 32) :
    Reads (readString : Parser ε Bytes) (writeString s) s :=
  Reads.readString (by simpa using hlt)

end Scalars

/-- Three flags of a flag byte come back, and the byte is small. -/
theorem flagBits_three (a b c : Bool) :
    flagBits [a, b, c] < 256 ∧ flagSet (flagBits [a, b, c]) 0 = a ∧
      flagSet (flagBits [a, b, c]) 1 = b ∧ flagSet (flagBits [a, b, c]) 2 = c := by
  cases a <;> cases b <;> cases c <;> decide

theorem flagBits_two (a b : Bool) :
    flagBits [a, b] < 256 ∧ flagSet (flagBits [a, b]) 0 = a ∧ flagSet (flagBits [a, b]) 1 = b := by
  cases a <;> cases b <;> decide

/-! ## Arrays and tables -/

/-- Past the check of a flag that no read has raised. -/
theorem Reads.notFailed {ε β : Type} {e : ε} {f : Unit → Parser ε β} {b : Bytes} {w : β}
    (hf : Reads (f ()) b w) :
    Reads (Parser.failed >>= fun error => Parser.check (!error) e >>= f) b w :=
  Reads.failed (Reads.check rfl hf)

theorem reads_checked {α : Type} {p : Parser Corrupt α} {b : Bytes} {v : α} (hp : Reads p b v) :
    Reads (checked p) b v := by
  rw [← List.append_nil b]
  exact Reads.bind hp (Reads.notFailed Reads.pure)

/-- Every element takes at least `n` bytes, so all of them take `n` times as many. -/
theorem length_flatMap_ge {α : Type} {encode : α → Bytes} {n : Nat} {xs : List α}
    (hlen : ∀ x ∈ xs, n ≤ (encode x).length) : xs.length * n ≤ (xs.flatMap encode).length := by
  induction xs with
  | nil => simp
  | cons x xs ih =>
    have hx := hlen x List.mem_cons_self
    have hxs := ih fun y hy => hlen y (List.mem_cons_of_mem x hy)
    simp only [List.length_cons, List.flatMap_cons, List.length_append, Nat.add_mul, Nat.one_mul]
    omega

/-- An array behind its count, when the count passes the section's own limit. -/
theorem reads_boundedArray {α : Type} {width : Nat} {withinLimit : Nat → Parser Corrupt Bool}
    {element : Parser Corrupt α} {encode : α → Bytes} {xs : List α}
    (hwidth : xs.length < 256 ^ width)
    (hlimit : ∀ (f : Bool → Parser Corrupt (List α)),
      Reads (f true) (xs.flatMap encode) xs →
      Reads (withinLimit xs.length >>= f) (xs.flatMap encode) xs)
    (helem : ∀ x ∈ xs, Reads element (encode x) x) :
    Reads (readBoundedArray width withinLimit element)
      (writeIntBe width xs.length ++ xs.flatMap encode) xs := by
  refine Reads.bind (Reads.readInt hwidth) ?_
  refine Reads.notFailed ?_
  refine hlimit _ ?_
  exact Reads.check rfl (Reads.readMany helem)

theorem poolOfValues_eq {values : List Value} {pool grown : ConstantPool}
    (hgrown : grown.values = pool.values ++ values) : poolOfValues values pool = some grown := by
  induction values generalizing pool with
  | nil =>
    rw [List.append_nil] at hgrown
    cases pool
    cases grown
    simp only at hgrown
    subst hgrown
    rfl
  | cons value values ih =>
    have hsize := grown.size_le
    rw [hgrown, List.length_append, List.length_cons] at hsize
    have hroom : pool.values.length < CompilerLimits.maxConstants := by omega
    simp only [poolOfValues, ConstantPool.pushBack, hroom, dite_true, Option.bind_eq_bind,
      Option.bind_some]
    exact ih (by simpa using hgrown)

theorem tableOfNames_eq {names : List Bytes} {table grown : NameTable}
    (hgrown : grown.names = table.names ++ names) : tableOfNames names table = some grown := by
  induction names generalizing table with
  | nil =>
    rw [List.append_nil] at hgrown
    cases table
    cases grown
    simp only at hgrown
    subst hgrown
    rfl
  | cons name names ih =>
    have hsize := grown.size_le
    have hnodup := grown.nodup
    rw [hgrown, List.length_append, List.length_cons] at hsize
    rw [hgrown, List.nodup_append] at hnodup
    have hfresh : name ∉ table.names := fun hmem =>
      hnodup.2.2 name hmem name List.mem_cons_self rfl
    have hroom : table.names.length < CompilerLimits.maxNames := by omega
    simp only [tableOfNames, NameTable.tryAdd, hfresh, hroom, dite_true, dite_false,
      Option.bind_eq_bind, Option.bind_some]
    exact ih (by simpa using hgrown)

/-! ## Chunks -/

theorem reads_value {value : Value} (hfits : FitsFormat.Constant value) :
    Reads deserializeValue (serializeValue value) value := by
  cases value with
  | null =>
    rw [serializeValue, ← List.append_nil (writeU8 0)]
    exact Reads.bind (reads_u8 (by decide)) (Reads.notFailed Reads.pure)
  | bool b =>
    refine Reads.bind (reads_u8 (by decide)) (Reads.notFailed ?_)
    exact (reads_bool b).map Value.bool
  | integer n =>
    refine Reads.bind (reads_u8 (by decide)) (Reads.notFailed ?_)
    exact (reads_i64 n).map Value.integer
  | number x =>
    refine Reads.bind (reads_u8 (by decide)) (Reads.notFailed ?_)
    exact (reads_f64 x).map Value.number
  | string s =>
    refine Reads.bind (reads_u8 (by decide)) (Reads.notFailed ?_)
    exact (reads_string hfits).map Value.string
  | _ => exact hfits.elim

theorem reads_location {entry : Nat × SourceLocation} (hlt : entry.1 < 2 ^ 32) :
    Reads deserializeLocation (serializeLocation entry) entry := by
  simp only [serializeLocation, List.append_assoc]
  refine Reads.bind (reads_u32 hlt) ?_
  refine Reads.bind (reads_int32 _) ?_
  refine Reads.bind (reads_int32 _) ?_
  refine Reads.bind (reads_int32 _) ?_
  refine Reads.bind (reads_int32 _) ?_
  exact (reads_int32 _).map fun startColumn => (entry.1, SourceLocation.mk _ _ _ _ startColumn)

theorem serializeLocation_length (entry : Nat × SourceLocation) :
    (serializeLocation entry).length = SerializerLimits.sourceMapEntryBytes := by
  simp [serializeLocation, writeInt32, writeU32, SerializerLimits.sourceMapEntryBytes]

theorem reads_constants {pool : ConstantPool}
    (hfits : ∀ value ∈ pool.values, FitsFormat.Constant value) :
    Reads (readBoundedArray 2 (fun count => return decide (count ≤ CompilerLimits.maxConstants))
      (checked deserializeValue))
      (writeU16 pool.values.length ++ pool.values.flatMap serializeValue) pool.values := by
  have hsize := pool.size_le
  refine reads_boundedArray (hsize.trans_lt (by decide)) ?_ ?_
  · intro f hf
    rw [pure_bind, decide_eq_true hsize]
    exact hf
  · intro value hmem
    exact reads_checked (reads_value (hfits value hmem))

theorem reads_sourceMap {sourceMap : SourceMap} (hlen : sourceMap.length < 2 ^ 32)
    (hoffsets : ∀ entry ∈ sourceMap, entry.1 < 2 ^ 32) :
    Reads (readBoundedArray 4
      (fun count => hasRemaining (count * SerializerLimits.sourceMapEntryBytes))
      (checked deserializeLocation))
      (writeU32 sourceMap.length ++ sourceMap.flatMap serializeLocation) sourceMap := by
  refine reads_boundedArray (by simpa using hlen) ?_ ?_
  · intro f hf
    refine Reads.hasRemaining (length_flatMap_ge ?_) hf
    intro entry _
    rw [serializeLocation_length]
  · intro entry hmem
    exact reads_checked (reads_location (hoffsets entry hmem))

theorem reads_names {table : NameTable} (hlen : ∀ name ∈ table.names, name.length < 2 ^ 32) :
    Reads (readBoundedArray 2
      (fun count => hasRemaining (count * SerializerLimits.stringLengthPrefixBytes))
      (checked readString))
      (writeU16 table.names.length ++ table.names.flatMap writeString) table.names := by
  have hsize := table.size_le
  refine reads_boundedArray (hsize.trans_lt (by decide)) ?_ ?_
  · intro f hf
    refine Reads.hasRemaining (length_flatMap_ge ?_) hf
    intro name _
    simp [SerializerLimits.stringLengthPrefixBytes]
  · intro name hmem
    exact reads_checked (reads_string (hlen name hmem))

theorem reads_orCorrupt {α : Type} {o : Option α} {x : α} (ho : o = some x) :
    Reads (orCorrupt o) [] x := by
  subst ho
  exact Reads.pure

theorem reads_chunk {chunk : Chunk} (hfits : FitsFormat.Chunk chunk) :
    Reads deserializeChunk (serializeChunk chunk) chunk := by
  have hcode : chunk.code.length < 2 ^ 32 := hfits.code_le.trans_lt (by decide)
  have hpool : poolOfValues chunk.constants.values .empty = some chunk.constants :=
    poolOfValues_eq rfl
  have htable : tableOfNames chunk.names.names .empty = some chunk.names := tableOfNames_eq rfl
  simp only [serializeChunk, List.append_assoc]
  refine Reads.bind (reads_u32 hcode) (Reads.notFailed ?_)
  refine Reads.check (decide_eq_true hfits.code_le) ?_
  refine Reads.hasRemaining (by simp) (Reads.check rfl ?_)
  refine Reads.bind Reads.readBytes ?_
  rw [← List.append_assoc (writeU16 chunk.constants.values.length)]
  refine Reads.bind (reads_constants hfits.constants) ?_
  refine Reads.bind_nil (reads_orCorrupt hpool) ?_
  rw [← List.append_assoc (writeU32 chunk.sourceMap.length)]
  refine Reads.bind (reads_sourceMap hfits.sourceMap_lt hfits.offsets_lt) ?_
  rw [← List.append_nil (writeU16 chunk.names.names.length ++ _)]
  refine Reads.bind (reads_names hfits.names_lt) ?_
  exact Reads.bind_nil (reads_orCorrupt htable) Reads.pure

/-! ## Functions -/

theorem reads_count {n entryBytes : Nat} {b : Bytes} {β : Type} {w : β}
    {f : Nat → Parser Corrupt β} (hlt : n < 2 ^ 16) (hbytes : n * entryBytes ≤ b.length)
    (hf : Reads (f n) b w) : Reads (readCount entryBytes >>= f) (writeU16 n ++ b) w := by
  simp only [readCount, bind_assoc, pure_bind]
  refine Reads.bind (reads_u16 hlt) (Reads.notFailed ?_)
  exact Reads.hasRemaining hbytes (Reads.check rfl hf)

/-- A list of strings behind its count. -/
theorem reads_stringList {names : List Bytes} {b : Bytes} {β : Type} {w : β}
    {f : List Bytes → Parser Corrupt β} {g : Nat → Parser Corrupt β}
    (hlen : names.length < 2 ^ 16) (hnames : ∀ name ∈ names, name.length < 2 ^ 32)
    (hg : ∀ rest, Reads (readMany names.length readString >>= f) rest w →
      Reads (g names.length) rest w)
    (hf : Reads (f names) b w) :
    Reads (readCount SerializerLimits.stringLengthPrefixBytes >>= g)
      (writeU16 names.length ++ (names.flatMap writeString ++ b)) w := by
  refine reads_count hlen ?_ (hg _ ?_)
  · have hge : names.length * 4 ≤ (names.flatMap writeString).length :=
      length_flatMap_ge fun name _ => by simp
    simp only [SerializerLimits.stringLengthPrefixBytes, List.length_append]
    omega
  · exact Reads.bind (Reads.readMany fun name hmem => reads_string (hnames name hmem)) hf

theorem reads_upvalue (uv : Upvalue) :
    Reads deserializeUpvalue (serializeUpvalue uv) uv := by
  obtain ⟨hlt, hlocal, hmutable⟩ := flagBits_two uv.isLocal uv.isMutable
  refine Reads.bind (reads_u16 (by simpa using uv.index.toNat_lt)) ?_
  have hmap := (reads_u8 (ε := Corrupt) hlt).map fun flags =>
    Upvalue.mk (UInt16.ofNat uv.index.toNat) (flagSet flags 0) (flagSet flags 1)
  simpa only [UInt16.ofNat_toNat, hlocal, hmutable] using hmap

theorem serializeUpvalue_length (uv : Upvalue) :
    (serializeUpvalue uv).length = SerializerLimits.upvalueEntryBytes := by
  simp [serializeUpvalue, writeU16, writeU8, SerializerLimits.upvalueEntryBytes]

theorem reads_function {func : CompiledFunction} (hfits : FitsFormat.Function func) :
    Reads deserializeFunction (serializeFunction func) func := by
  obtain ⟨hflags, hmain, htest, hverified⟩ := flagBits_three func.isMain func.isTest func.verified
  have harity := hfits.arity_le
  have hrequired := hfits.requiredArity_le
  have hupvalues := hfits.upvalueCount_le
  have hcount := hfits.upvalueCount_eq
  have hparams := hfits.paramNames_le
  simp only [CompilerLimits.maxArguments, CompilerLimits.maxUpvalues] at harity hrequired hupvalues
  simp only [serializeFunction, List.append_assoc]
  refine Reads.bind (reads_string hfits.name_lt) ?_
  refine Reads.bind (reads_u16 (by omega)) ?_
  refine Reads.bind (reads_u16 (by omega)) ?_
  refine Reads.bind (reads_u16 (by omega)) ?_
  refine Reads.bind (reads_u8 hflags) (Reads.notFailed ?_)
  refine Reads.check (by simp [CompilerLimits.maxArguments, CompilerLimits.maxUpvalues,
    harity, hrequired, hupvalues]) ?_
  refine reads_stringList (by omega) hfits.paramName_lt
    (fun rest hrest => Reads.check (decide_eq_true hparams) hrest) ?_
  refine reads_stringList hfits.localNames_lt hfits.localName_lt (fun rest hrest => hrest) ?_
  refine reads_count hfits.localMutable_lt ?_ ?_
  · have hge : func.debugInfo.localMutable.length * 1 ≤
        (func.debugInfo.localMutable.flatMap fun m => writeU8 (if m then 1 else 0)).length :=
      length_flatMap_ge fun m _ => by simp [writeU8]
    simp only [SerializerLimits.localMutableEntryBytes, List.length_append]
    omega
  refine Reads.bind (Reads.readMany fun m _ => reads_bool m) ?_
  refine Reads.bind (reads_u16 (by omega)) ?_
  refine Reads.check (decide_eq_true (by rw [← hcount]; exact hfits.upvalueCount_le))
    (Reads.notFailed ?_)
  refine Reads.hasRemaining ?_ (Reads.check rfl ?_)
  · have hge : func.upvalues.length * SerializerLimits.upvalueEntryBytes ≤
        (func.upvalues.flatMap serializeUpvalue).length :=
      length_flatMap_ge fun uv _ => (serializeUpvalue_length uv).ge
    rw [List.length_append]
    omega
  refine Reads.bind (Reads.readMany fun uv _ => reads_upvalue uv) (Reads.notFailed ?_)
  refine Reads.check (decide_eq_true hcount) ?_
  have hmap := (reads_chunk hfits.chunk).map fun chunk => ({ func with chunk } : CompiledFunction)
  simpa only [hmain, htest, hverified] using hmap

theorem minFunctionBytes_le (func : CompiledFunction) :
    SerializerLimits.minFunctionBytes ≤ (serializeFunction func).length := by
  simp only [serializeFunction, serializeChunk, writeU8, writeU16, writeU32, List.length_append,
    writeIntBe_length, writeString_length, SerializerLimits.minFunctionBytes]
  omega

/-! ## Programs -/

theorem reads_dependency {dependency : SourceDependency} (i : Nat)
    (hlt : dependency.path.length < 2 ^ 32) :
    Reads (deserializeDependency i) (serializeDependency dependency) dependency := by
  refine Reads.bind (reads_string hlt) ?_
  rw [← List.append_nil (writeU64 _)]
  exact Reads.bind (reads_u64 _) (Reads.notFailed Reads.pure)

theorem minDependencyBytes_le (dependency : SourceDependency) :
    SerializerLimits.minDependencyBytes ≤ (serializeDependency dependency).length := by
  simp only [serializeDependency, writeU64, List.length_append, writeIntBe_length,
    writeString_length, SerializerLimits.minDependencyBytes]
  omega

theorem reads_magic :
    Reads (readBytes bytecodeMagic 4 : Parser DeserializeFailure Bytes) bytecodeMagic
      bytecodeMagic := by
  have hread : Reads (readBytes bytecodeMagic bytecodeMagic.length :
      Parser DeserializeFailure Bytes) bytecodeMagic bytecodeMagic := Reads.readBytes
  exact hread

theorem reads_program {topLevel : CompiledFunction} {functions : List CompiledFunction}
    {dependencies : List SourceDependency} (pastEnd : Int) (sourceHash timestamp : UInt64)
    (hfits : FitsFormat topLevel functions dependencies) :
    Reads (deserializeFrom pastEnd)
      (serialize topLevel functions sourceHash timestamp dependencies)
      { header := ⟨bytecodeMagic, bytecodeFormatVersion, 0, sourceHash, timestamp⟩
        dependencies
        topLevel := reverify pastEnd topLevel
        functions := functions.map (reverify pastEnd) } := by
  have hcount := hfits.functions_le
  have hdeps := hfits.dependencies_le
  simp only [SerializerLimits.maxFunctionCount, SerializerLimits.maxDependencyCount] at hcount hdeps
  simp only [serialize, List.append_assoc]
  refine Reads.bind reads_magic ?_
  refine Reads.bind (reads_u32 (by decide)) ?_
  refine Reads.bind (reads_u32 (by decide)) ?_
  refine Reads.bind (reads_u64 _) ?_
  refine Reads.bind (reads_u64 _) (Reads.notFailed ?_)
  refine Reads.check rfl (Reads.check rfl ?_)
  refine Reads.bind (reads_u32 (by omega)) (Reads.failed ?_)
  refine Reads.hasRemaining ?_ ?_
  · have hge : dependencies.length * SerializerLimits.minDependencyBytes ≤
        (dependencies.flatMap serializeDependency).length :=
      length_flatMap_ge fun d _ => minDependencyBytes_le d
    rw [List.length_append]
    omega
  refine Reads.check (by simp [SerializerLimits.maxDependencyCount, hdeps]) ?_
  refine Reads.bind (Reads.readIndexed fun i d hmem => reads_dependency i (hfits.path_lt d hmem)) ?_
  refine Reads.bind (reads_u32 (by omega)) (Reads.failed ?_)
  refine Reads.check (by simp [SerializerLimits.maxFunctionCount, hcount]) ?_
  refine Reads.bind (Reads.orElseError (reads_function hfits.topLevel)) (Reads.failed ?_)
  rw [Nat.add_sub_cancel_left]
  refine Reads.hasRemaining (length_flatMap_ge fun f _ => minFunctionBytes_le f)
    (Reads.check rfl ?_)
  have hfunctions : Reads (readIndexed deserializeNthFunction 1 functions.length)
      (functions.flatMap serializeFunction) functions :=
    Reads.readIndexed fun i f hmem => Reads.orElseError (reads_function (hfits.function f hmem))
  exact hfunctions.map fun fs => DeserializedBytecode.mk _ _ _ (fs.map (reverify pastEnd))

theorem sizeofBytecodeHeader_le (topLevel : CompiledFunction) (functions : List CompiledFunction)
    (sourceHash timestamp : UInt64) (dependencies : List SourceDependency) :
    sizeofBytecodeHeader ≤
      (serialize topLevel functions sourceHash timestamp dependencies).length := by
  have hfunction := minFunctionBytes_le topLevel
  simp only [serialize, bytecodeMagic, writeU32, writeU64, List.length_append, writeIntBe_length,
    List.length_cons, List.length_nil, SerializerLimits.minFunctionBytes,
    sizeofBytecodeHeader] at hfunction ⊢
  omega

/-- A buffer that is long enough and that the reader consumes deserializes. -/
theorem deserialize_of_reads {pastEnd : Int} {data : Bytes} {result : DeserializedBytecode}
    (hsize : sizeofBytecodeHeader ≤ data.length)
    (hread : Reads (deserializeFrom pastEnd) data result) :
    deserialize pastEnd data = .ok result := by
  have hrun := hread []
  rw [List.append_nil] at hrun
  rw [deserialize, if_neg (by omega), StateT.run, hrun]
  rfl

/-- The round trip: what was serialized comes back whole, except that each function
    carries the verdict of the verifier instead of the flag it was stored with. -/
theorem deserialize_serialize {topLevel : CompiledFunction} {functions : List CompiledFunction}
    {dependencies : List SourceDependency} (pastEnd : Int) (sourceHash timestamp : UInt64)
    (hfits : FitsFormat topLevel functions dependencies) :
    deserialize pastEnd (serialize topLevel functions sourceHash timestamp dependencies) =
      .ok
        { header := ⟨bytecodeMagic, bytecodeFormatVersion, 0, sourceHash, timestamp⟩
          dependencies
          topLevel := reverify pastEnd topLevel
          functions := functions.map (reverify pastEnd) } :=
  deserialize_of_reads
    (sizeofBytecodeHeader_le topLevel functions sourceHash timestamp dependencies)
    (reads_program pastEnd sourceHash timestamp hfits)

/-- A top-level function that returns `none`, with a constant of every kind. -/
def sampleTopLevel (verified : Bool) : CompiledFunction where
  name := [0x66]
  chunk :=
    { code := [Op.none_.toByte, Op.return_.toByte]
      constants :=
        { values := [.null, .bool true, .integer (-7), .number ⟨0x7FF8000000000001⟩,
            .string [0x68, 0x69]]
          size_le := by decide }
      sourceMap := [(0, ⟨0, 3, 9, 3, 5⟩), (1, ⟨0, 3, 9, 3, 5⟩)]
      names := { names := [[0x78], [0x79]], nodup := by decide, size_le := by decide } }
  arity := 1
  requiredArity := 1
  upvalueCount := 1
  paramNames := [[0x61]]
  debugInfo := ⟨[[], [0x61]], [false, true]⟩
  upvalues := [⟨2, true, false⟩]
  isMain := true
  isTest := false
  verified := verified

theorem sampleTopLevel_fits : FitsFormat (sampleTopLevel false) [] [⟨[0x69], 17⟩] where
  functions_le := by decide
  topLevel :=
    { name_lt := by decide
      arity_le := by decide
      requiredArity_le := by decide
      upvalueCount_le := by decide
      upvalueCount_eq := by decide
      paramNames_le := by decide
      paramName_lt := by decide
      localNames_lt := by decide
      localName_lt := by decide
      localMutable_lt := by decide
      chunk :=
        { code_le := by decide
          constants := by simp [sampleTopLevel, FitsFormat.Constant]
          sourceMap_lt := by decide
          offsets_lt := by decide
          names_lt := by decide } }
  function func hmem := absurd hmem List.not_mem_nil
  dependencies_le := by decide
  path_lt := by decide

/-- The round trip of a small program that was stored unverified. -/
theorem deserialize_serialize_sample :
    deserialize (-1) (serialize (sampleTopLevel false) [] 5 6 [⟨[0x69], 17⟩]) =
      .ok
        { header := ⟨bytecodeMagic, 10, 0, 5, 6⟩
          dependencies := [⟨[0x69], 17⟩]
          topLevel := sampleTopLevel true
          functions := [] } := by
  have hverdict : reverify (-1) (sampleTopLevel false) = sampleTopLevel true := by
    have haccept : (BytecodeVerifier.verify (-1) (sampleTopLevel false)).isEmpty = true := by
      decide
    rw [reverify, haccept]
    rfl
  rw [deserialize_serialize (-1) 5 6 sampleTopLevel_fits, hverdict]
  rfl

/-- A function stored unverified does not come back equal: it is verified again. -/
theorem deserialize_serialize_rederives_flag :
    ¬ ∀ (pastEnd : Int) (topLevel : CompiledFunction) (functions : List CompiledFunction)
        (dependencies : List SourceDependency) (sourceHash timestamp : UInt64),
      FitsFormat topLevel functions dependencies →
      ∃ result,
        deserialize pastEnd (serialize topLevel functions sourceHash timestamp dependencies) =
          .ok result ∧
        result.dependencies = dependencies ∧ result.topLevel = topLevel ∧
        result.functions = functions := by
  intro hclaim
  obtain ⟨result, hresult, _, htop, _⟩ :=
    hclaim (-1) (sampleTopLevel false) [] [⟨[0x69], 17⟩] 5 6 sampleTopLevel_fits
  have hverified : (reverify (-1) (sampleTopLevel false)).verified = true := by decide
  rw [deserialize_of_reads (sizeofBytecodeHeader_le _ _ _ _ _)
    (reads_program (-1) 5 6 sampleTopLevel_fits)] at hresult
  have heq := congrArg DeserializedBytecode.topLevel (Except.ok.inj hresult)
  rw [← heq] at htop
  rw [show reverify (-1) (sampleTopLevel false) = sampleTopLevel false from htop] at hverified
  exact absurd hverified (by decide)

end Luma.BytecodeSerializer
