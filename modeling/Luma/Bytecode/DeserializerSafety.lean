-- SUMMARY: What the deserializer does with any buffer: it reads inside, stays within its limits, and its tables have the declared sizes.
import Luma.Bytecode.TracedDeserializer
import Mathlib.Data.List.Dedup

/-! # Deserializer safety

The traced deserializer refines the one that only says what it returns. On the way each
loop is shown to be within its limit, and the notes of a function are compared with the
tables that it ends up with. -/

namespace Luma.TracedDeserializer

open Codec Codec.Traced Walk
open BytecodeSerializer (Corrupt)

/-! ## Elements without notes -/

section Quiet

variable {ε : Type}

theorem quiet_abort {α : Type} {e : ε} : Quiet (abort e : Walk Note ε α) (throw e) :=
  fun _ _ _ => ⟨rfl, [], (List.append_nil _).symm, by simp⟩

theorem quiet_readU64 : Quiet (readU64 : Walk Note ε UInt64) BytecodeSerializer.readU64 :=
  Quiet.bind quiet_readInt fun _ => quiet_pure

theorem quiet_readI64 : Quiet (readI64 : Walk Note ε Int64) BytecodeSerializer.readI64 :=
  Quiet.bind quiet_readU64 fun _ => quiet_pure

theorem quiet_readF64 : Quiet (readF64 : Walk Note ε Binary64) BytecodeSerializer.readF64 :=
  Quiet.bind quiet_readU64 fun _ => quiet_pure

theorem quiet_readInt32 : Quiet (readInt32 : Walk Note ε Int32) BytecodeSerializer.readInt32 :=
  Quiet.bind quiet_readInt fun _ => quiet_pure

theorem quiet_checked {α : Type} {w : Walk Note Corrupt α} {p : Parser Corrupt α} (h : Quiet w p) :
    Quiet (checked w) (BytecodeSerializer.checked p) :=
  Quiet.bind h fun _ => Quiet.bind quiet_failed fun _ => Quiet.bind quiet_check fun _ => quiet_pure

theorem quiet_deserializePayload {type : Nat} :
    Quiet (deserializePayload type) (BytecodeSerializer.deserializePayload type) := by
  match type with
  | 0 => exact quiet_pure
  | 1 => exact Quiet.bind quiet_readInt fun _ => quiet_pure
  | 2 => exact Quiet.bind quiet_readI64 fun _ => quiet_pure
  | 3 => exact Quiet.bind quiet_readF64 fun _ => quiet_pure
  | 4 => exact Quiet.bind quiet_readString fun _ => quiet_pure
  | _ + 5 => exact quiet_abort

theorem quiet_deserializeValue : Quiet deserializeValue BytecodeSerializer.deserializeValue :=
  Quiet.bind quiet_readInt fun _ => Quiet.bind quiet_failed fun _ => Quiet.bind quiet_check fun _ =>
    quiet_deserializePayload

theorem quiet_deserializeLocation : Quiet deserializeLocation BytecodeSerializer.deserializeLocation :=
  Quiet.bind quiet_readInt fun _ => Quiet.bind quiet_readInt32 fun _ => Quiet.bind quiet_readInt32 fun _ =>
    Quiet.bind quiet_readInt32 fun _ => Quiet.bind quiet_readInt32 fun _ => Quiet.bind quiet_readInt32 fun _ =>
      quiet_pure

theorem quiet_deserializeUpvalue : Quiet deserializeUpvalue BytecodeSerializer.deserializeUpvalue :=
  Quiet.bind quiet_readInt fun _ => Quiet.bind quiet_readInt fun _ => quiet_pure

theorem quiet_deserializeDependency {i : Nat} :
    Quiet (deserializeDependency i) (BytecodeSerializer.deserializeDependency i) :=
  Quiet.bind quiet_readString fun _ => Quiet.bind quiet_readU64 fun _ => Quiet.bind quiet_failed fun _ =>
    Quiet.bind quiet_check fun _ => quiet_pure

end Quiet

/-! ## Loops -/

section Loops

variable {ε α β : Type} {P : Nat → Prop} {Q : β → List Note → Nat → Prop}

/-- The loop note of a table, whatever was left. -/
def IsLoop (table : Table) (count : Nat) (n : Note) : Prop := ∃ left, n = .loop table count left

/-- A loop over quiet elements, with its note before it. -/
theorem refines_loop {table : Table} {count start : Nat} {element : Nat → Walk Note ε α} {element' : Nat → Parser ε α}
    {f : List α → Walk Note ε β} {g : List α → Parser ε β} (hP : ∀ left, P left → table.Within count left)
    (helem : ∀ i, Quiet (element i) (element' i))
    (hf : ∀ xs n, xs.length = count → IsLoop table count n →
      Refines Note.Within (fun _ => True) (f xs) (g xs) fun b ns => Q b (n :: ns)) :
    Refines Note.Within P (do note (.loop table count); let xs ← readIndexed element start count; f xs)
      (Parser.readIndexed element' start count >>= g) Q := by
  refine .note hP fun left _ => ?_
  refine .bind (.readIndexed fun i => (helem i).refines) fun xs ns ⟨_, hlength, hnotes⟩ => ?_
  rw [hnotes.silent]
  exact (hf xs _ hlength ⟨left, rfl⟩).weaken (fun _ _ => trivial) fun _ _ _ h => h

theorem refines_readCount {entryBytes : Nat} {f : Nat → Walk Note Corrupt β} {g : Nat → Parser Corrupt β}
    (hf : ∀ count, Refines Note.Within (fun left => count * entryBytes ≤ left) (f count) (g count) Q) :
    Refines Note.Within P (readCount entryBytes >>= f) (BytecodeSerializer.readCount entryBytes >>= g) Q := by
  have hcount : Refines Note.Within P (readCount entryBytes) (BytecodeSerializer.readCount entryBytes)
      fun count ns left => ns = [] ∧ count * entryBytes ≤ left := by
    refine quiet_readInt.then fun count => ?_
    refine .failed fun error => ?_
    refine .check fun _ => ?_
    refine .hasRemaining fun enough => ?_
    refine .check fun henough => ?_
    exact .pure fun left hleft => ⟨rfl, of_decide_eq_true (hleft.2.symm.trans henough)⟩
  refine hcount.bind fun count ns ⟨_, hns, _⟩ => ?_
  rw [hns]
  exact (hf count).weaken (fun _ h => h.2) fun _ _ _ h => h

/-- An array whose limit is a condition on its count and the bytes left. -/
theorem refines_readBoundedArray {table : Table} {width : Nat} {withinLimit : Nat → Walk Note Corrupt Bool}
    {withinLimit' : Nat → Parser Corrupt Bool} {element : Walk Note Corrupt α} {element' : Parser Corrupt α}
    {R : α → List Note → Prop}
    (hlimit : ∀ count data (c : Cursor Note), ∃ ok, withinLimit count data c = (.ok ok, c) ∧
      withinLimit' count (c.reader data) = .ok (ok, c.reader data) ∧
      (ok = true → table.Within count (data.length - c.pos)))
    (helem : Refines Note.Within (fun _ => True) element element' fun x ns _ => R x ns) :
    Refines Note.Within P (readBoundedArray table width withinLimit element)
      (BytecodeSerializer.readBoundedArray width withinLimit' element') fun xs ns _ =>
        ∃ n rest, ns = n :: rest ∧ IsLoop table xs.length n ∧ EachNotes R xs rest := by
  refine quiet_readInt.then fun count => ?_
  refine .failed fun error => ?_
  refine .check fun _ => ?_
  refine .look (R := fun ok left => ok = true → table.Within count left) (fun data c _ => hlimit count data c) fun ok => ?_
  refine .check fun hok => ?_
  refine .note (fun left hleft => hleft hok) fun left _ => ?_
  refine (Refines.readIndexed fun _ => helem).weaken (fun _ h => h) fun xs ns _ ⟨hlength, hnotes⟩ => ?_
  exact ⟨_, ns, rfl, ⟨left, by rw [hlength]⟩, hnotes⟩

end Loops

/-! ## Tables -/

/-- The loops of a record, with the counts that the file declares. -/
def counts : List Note → List (Table × Nat)
  | [] => []
  | .loop table count _ :: ns => (table, count) :: counts ns
  | .interned _ :: ns => counts ns

/-- The names that were interned. -/
def internedNames : List Note → List Bytes
  | [] => []
  | .loop _ _ _ :: ns => internedNames ns
  | .interned name :: ns => name :: internedNames ns

/-- A constant of the kinds that a file can hold. -/
def IsScalar : Value → Prop
  | .null | .bool _ | .integer _ | .number _ | .string _ => True
  | _ => False

/-- A table of names has each of the declared names once, in their order. -/
structure KeepsDistinct (declared kept : List Bytes) : Prop where
  nodup : kept.Nodup
  sublist : kept.Sublist declared
  complete : ∀ name ∈ declared, name ∈ kept

def chunkCounts (chunk : Chunk) (declaredNames : Nat) : List (Table × Nat) :=
  [(.code, chunk.code.length), (.constants, chunk.constants.values.length), (.sourceMap, chunk.sourceMap.length),
    (.names, declaredNames)]

/-- The tables of a function, with their sizes. -/
def tableCounts (func : CompiledFunction) (declaredNames : Nat) : List (Table × Nat) :=
  (.paramNames, func.paramNames.length) :: (.localNames, func.debugInfo.localNames.length) ::
    (.localMutable, func.debugInfo.localMutable.length) :: (.upvalues, func.upvalues.length) ::
    chunkCounts func.chunk declaredNames

/-- What a chunk has to do with the notes of its reading. -/
structure ChunkDeclared (chunk : Chunk) (ns : List Note) : Prop where
  counts : counts ns = chunkCounts chunk (internedNames ns).length
  names : KeepsDistinct (internedNames ns) chunk.names.names
  code : chunk.code.length ≤ SerializerLimits.maxCodeSectionBytes
  constants : ∀ value ∈ chunk.constants.values, IsScalar value

section Tables

variable {ε α β : Type} {P : Nat → Prop}

theorem IsLoop.counts {table : Table} {count : Nat} {n : Note} {ns : List Note} (h : IsLoop table count n) :
    counts (n :: ns) = (table, count) :: TracedDeserializer.counts ns := by
  obtain ⟨left, rfl⟩ := h
  rfl

theorem IsLoop.internedNames {table : Table} {count : Nat} {n : Note} {ns : List Note} (h : IsLoop table count n) :
    internedNames (n :: ns) = TracedDeserializer.internedNames ns := by
  obtain ⟨left, rfl⟩ := h
  rfl

theorem counts_interned {names : List Bytes} : counts (names.flatMap fun name => [.interned name]) = [] := by
  induction names with
  | nil => rfl
  | cons name names ih => exact ih

theorem internedNames_interned {names : List Bytes} :
    internedNames (names.flatMap fun name => [.interned name]) = names := by
  induction names with
  | nil => rfl
  | cons name names ih =>
    rw [List.flatMap_cons, List.singleton_append, internedNames, ih]

theorem poolOfValues_values {values : List Value} {pool pool' : ConstantPool}
    (h : BytecodeSerializer.poolOfValues values pool = some pool') : pool'.values = pool.values ++ values := by
  induction values generalizing pool with
  | nil => rw [← Option.some.inj h, List.append_nil]
  | cons value values ih =>
    obtain ⟨pushed, hpush, h⟩ := Option.bind_eq_some_iff.mp h
    have hvalues : pushed.values = pool.values ++ [value] := by
      unfold ConstantPool.pushBack at hpush
      split at hpush
      · rw [← Option.some.inj hpush]
      · exact nomatch hpush
    rw [ih h, hvalues, List.append_assoc, List.singleton_append]

theorem tableOfNames_names {names : List Bytes} {table table' : NameTable}
    (h : BytecodeSerializer.tableOfNames names table = some table') :
    ∃ added, table'.names = table.names ++ added ∧ added.Sublist names ∧ ∀ name ∈ names, name ∈ table'.names := by
  induction names generalizing table with
  | nil => exact ⟨[], by rw [← Option.some.inj h, List.append_nil], List.Sublist.refl _, by simp⟩
  | cons name names ih =>
    obtain ⟨added, hadd, h⟩ := Option.bind_eq_some_iff.mp h
    obtain ⟨more, hmore, hsub, hall⟩ := ih h
    unfold NameTable.tryAdd at hadd
    split at hadd
    next hmem =>
      rw [← Option.some.inj hadd] at hmore
      refine ⟨more, hmore, hsub.cons name, ?_⟩
      intro name' hname'
      rcases List.mem_cons.mp hname' with rfl | hname'
      · rw [hmore]
        exact List.mem_append_left _ hmem
      · exact hall name' hname'
    next hmem =>
      split at hadd
      · rw [← Option.some.inj hadd] at hmore
        dsimp only at hmore
        rw [List.append_assoc, List.singleton_append] at hmore
        refine ⟨name :: more, hmore, hsub.cons_cons name, ?_⟩
        intro name' hname'
        rcases List.mem_cons.mp hname' with rfl | hname'
        · rw [hmore]
          exact List.mem_append_right _ List.mem_cons_self
        · exact hall name' hname'
      · exact nomatch hadd

theorem keepsDistinct_tableOfNames {names : List Bytes} {table : NameTable}
    (h : BytecodeSerializer.tableOfNames names .empty = some table) : KeepsDistinct names table.names := by
  obtain ⟨added, hadded, hsub, hall⟩ := tableOfNames_names h
  refine ⟨table.nodup, ?_, hall⟩
  rw [hadded]
  exact hsub

/-- A table that is not full goes on. -/
theorem refines_orCorrupt {x : Option α} {f : α → Walk Note Corrupt β} {g : α → Parser Corrupt β}
    {Q : β → List Note → Nat → Prop} (hf : ∀ a, x = some a → Refines Note.Within P (f a) (g a) Q) :
    Refines Note.Within P (orCorrupt x >>= f) (BytecodeSerializer.orCorrupt x >>= g) Q := by
  cases x with
  | none => exact .abort fun _ => rfl
  | some a => exact hf a rfl

theorem scalar_deserializeValue {r r' : Reader} {value : Value}
    (h : BytecodeSerializer.checked BytecodeSerializer.deserializeValue r = .ok (value, r')) : IsScalar value := by
  obtain ⟨value', _, hvalue, h⟩ := parser_bind_inv h
  obtain ⟨_, _, _, h⟩ := parser_bind_inv h
  obtain ⟨_, _, _, h⟩ := parser_bind_inv h
  obtain rfl : value' = value := congrArg Prod.fst (Except.ok.inj h)
  obtain ⟨type, _, _, hvalue⟩ := parser_bind_inv hvalue
  obtain ⟨_, _, _, hvalue⟩ := parser_bind_inv hvalue
  obtain ⟨_, _, _, hvalue⟩ := parser_bind_inv hvalue
  match type with
  | 0 =>
    cases hvalue
    trivial
  | 1 =>
    obtain ⟨_, _, _, hvalue⟩ := parser_bind_inv hvalue
    cases hvalue
    trivial
  | 2 =>
    obtain ⟨_, _, _, hvalue⟩ := parser_bind_inv hvalue
    cases hvalue
    trivial
  | 3 =>
    obtain ⟨_, _, _, hvalue⟩ := parser_bind_inv hvalue
    cases hvalue
    trivial
  | 4 =>
    obtain ⟨_, _, _, hvalue⟩ := parser_bind_inv hvalue
    cases hvalue
    trivial
  | _ + 5 => exact nomatch hvalue

theorem refines_deserializeName :
    Refines Note.Within P deserializeName (BytecodeSerializer.checked Parser.readString)
      fun name ns _ => ns = [.interned name] ∧ True := by
  rw [← bind_pure (BytecodeSerializer.checked Parser.readString)]
  refine (quiet_checked quiet_readString).then fun name => ?_
  refine .note (fun _ _ => trivial) fun left _ => ?_
  exact .pure fun _ _ => ⟨rfl, trivial⟩

theorem reader_hasRemaining {data : Bytes} {c : Cursor Note} {n : Nat} :
    Parser.hasRemaining (ε := ε) n (c.reader data) = .ok (decide (n ≤ data.length - c.pos), c.reader data) := by
  rw [Parser.hasRemaining, reader_length]

theorem readBytes_length {size : Nat} {r r' : Reader} {bytes : Bytes}
    (h : Parser.readBytes (ε := ε) (List.replicate size 0) size r = .ok (bytes, r')) : bytes.length = size := by
  unfold Parser.readBytes at h
  split at h
  next hfits =>
    cases h
    rw [List.length_take]
    exact Nat.min_eq_left hfits
  · cases h
    exact List.length_replicate

theorem refines_deserializeChunk :
    Refines Note.Within P deserializeChunk BytecodeSerializer.deserializeChunk fun chunk ns _ => ChunkDeclared chunk ns := by
  refine quiet_readInt.then fun codeSize => ?_
  refine .failed fun error => ?_
  refine .check fun _ => ?_
  refine .check fun hmax => ?_
  refine .hasRemaining fun enough => ?_
  refine .check fun henough => ?_
  refine .note (fun left hleft => ⟨of_decide_eq_true hmax, of_decide_eq_true (hleft.2.symm.trans henough)⟩) fun left _ => ?_
  refine .bind (Refines.also quiet_readBytes.refines fun _ _ _ h => readBytes_length h) fun code ns ⟨_, hns, hcode⟩ => ?_
  rw [hns]
  have hvalue : Refines Note.Within (fun _ => True) (checked deserializeValue)
      (BytecodeSerializer.checked BytecodeSerializer.deserializeValue) fun value ns _ => ns = [] ∧ IsScalar value :=
    Refines.also (quiet_checked quiet_deserializeValue).refines fun _ _ _ h => scalar_deserializeValue h
  have hlocation : Refines Note.Within (fun _ => True) (checked deserializeLocation)
      (BytecodeSerializer.checked BytecodeSerializer.deserializeLocation) fun _ ns _ => ns = [] :=
    (quiet_checked quiet_deserializeLocation).refines
  refine .bind (refines_readBoundedArray (fun count data c => ⟨_, rfl, rfl, of_decide_eq_true⟩) hvalue)
    fun values ns ⟨_, n₂, rest₂, hns₂, hloop₂, hrest₂⟩ => ?_
  refine refines_orCorrupt fun constants hconstants => ?_
  refine .bind (refines_readBoundedArray (fun count data c => ⟨_, rfl, reader_hasRemaining, of_decide_eq_true⟩) hlocation)
    fun sourceMap ns ⟨_, n₃, rest₃, hns₃, hloop₃, hrest₃⟩ => ?_
  refine .bind (refines_readBoundedArray (fun count data c => ⟨_, rfl, reader_hasRemaining, of_decide_eq_true⟩)
    refines_deserializeName) fun declared ns ⟨_, n₄, rest₄, hns₄, hloop₄, hrest₄⟩ => ?_
  refine refines_orCorrupt fun names hnames => ?_
  refine .pure fun _ _ => ?_
  have hpool := poolOfValues_values hconstants
  obtain ⟨hrest₂, hscalars⟩ := hrest₂.flatMap
  obtain ⟨hrest₄, -⟩ := hrest₄.flatMap
  have hloop₁ : IsLoop .code codeSize (.loop .code codeSize left) := ⟨left, rfl⟩
  have hall : Note.loop .code codeSize left :: ([] ++ (n₂ :: values.flatMap (fun _ => []) ++
      ([n₃] ++ (n₄ :: declared.flatMap (fun name => [.interned name]) ++ [])))) =
      .loop .code codeSize left :: n₂ :: n₃ :: n₄ :: declared.flatMap fun name => [.interned name] := by
    simp
  have hvalues : constants.values = values := hpool
  rw [hns₂, hns₃, hns₄, hrest₂, hrest₃.silent, hrest₄, hall]
  have hdeclared : internedNames (.loop .code codeSize left :: n₂ :: n₃ :: n₄ ::
      declared.flatMap fun name => [.interned name]) = declared := by
    rw [hloop₁.internedNames, hloop₂.internedNames, hloop₃.internedNames, hloop₄.internedNames,
      internedNames_interned]
  exact
    { counts := by
        rw [hdeclared, hloop₁.counts, hloop₂.counts, hloop₃.counts, hloop₄.counts, counts_interned, chunkCounts,
          hcode, hvalues]
      names := by
        rw [hdeclared]
        exact keepsDistinct_tableOfNames hnames
      code := by
        rw [hcode]
        exact of_decide_eq_true hmax
      constants := by
        rw [hvalues]
        exact hscalars }

end Tables

/-! ## Functions -/

/-- What the VM may rely on in a function from a file. -/
structure WellFormed (func : CompiledFunction) : Prop where
  arity : func.arity ≤ CompilerLimits.maxArguments
  requiredArity : func.requiredArity ≤ CompilerLimits.maxArguments
  upvalueCount : func.upvalueCount = func.upvalues.length
  upvalues : func.upvalues.length ≤ CompilerLimits.maxUpvalues
  paramNames : func.paramNames.length ≤ func.arity
  code : func.chunk.code.length ≤ SerializerLimits.maxCodeSectionBytes
  constants : ∀ value ∈ func.chunk.constants.values, IsScalar value

/-- The tables of a function have the sizes that the file declares, but that its name
    table leaves out names which the file repeats. -/
structure Declared (func : CompiledFunction) (ns : List Note) : Prop where
  counts : counts ns = tableCounts func (internedNames ns).length
  names : KeepsDistinct (internedNames ns) func.chunk.names.names

section Functions

variable {ε : Type} {P : Nat → Prop}

theorem refines_deserializeFunction :
    Refines Note.Within P deserializeFunction BytecodeSerializer.deserializeFunction
      fun func ns _ => Declared func ns ∧ WellFormed func := by
  refine quiet_readString.then fun name => ?_
  refine quiet_readInt.then fun arity => ?_
  refine quiet_readInt.then fun requiredArity => ?_
  refine quiet_readInt.then fun upvalueCount => ?_
  refine quiet_readInt.then fun flags => ?_
  refine .failed fun error => ?_
  refine .check fun _ => ?_
  refine .check fun hlimits => ?_
  rw [Bool.and_eq_true, Bool.and_eq_true, decide_eq_true_eq, decide_eq_true_eq, decide_eq_true_eq] at hlimits
  refine refines_readCount fun paramCount => ?_
  refine .check fun hparams => ?_
  have hparamCount : paramCount ≤ arity := of_decide_eq_true hparams
  refine refines_loop (fun left hleft => ⟨hparamCount.trans hlimits.1.1, hleft⟩) (fun _ => quiet_readString)
    fun paramNames n₁ hlength₁ hloop₁ => ?_
  refine refines_readCount fun localCount => ?_
  refine refines_loop (fun left hleft => hleft) (fun _ => quiet_readString) fun localNames n₂ hlength₂ hloop₂ => ?_
  refine refines_readCount fun mutableCount => ?_
  refine refines_loop (fun left hleft => hleft) (fun _ => Quiet.bind quiet_readInt fun _ => quiet_pure)
    fun localMutable n₃ hlength₃ hloop₃ => ?_
  refine quiet_readInt.then fun uvCount => ?_
  refine .check fun huv => ?_
  refine .failed fun error => ?_
  refine .check fun _ => ?_
  refine .hasRemaining fun enough => ?_
  refine .check fun henough => ?_
  refine refines_loop (fun left hleft => ⟨of_decide_eq_true huv, of_decide_eq_true (hleft.2.symm.trans henough)⟩)
    (fun _ => quiet_deserializeUpvalue) fun upvalues n₄ hlength₄ hloop₄ => ?_
  refine .failed fun error => ?_
  refine .check fun _ => ?_
  refine .check fun hagree => ?_
  refine .bind refines_deserializeChunk fun chunk ns ⟨_, hchunk⟩ => ?_
  refine .pure fun _ _ => ⟨?_, ?_⟩
  · have hdeclared : internedNames (n₁ :: n₂ :: n₃ :: n₄ :: (ns ++ [])) = internedNames ns := by
      rw [hloop₁.internedNames, hloop₂.internedNames, hloop₃.internedNames, hloop₄.internedNames, List.append_nil]
    exact
      { counts := by
          rw [hdeclared, hloop₁.counts, hloop₂.counts, hloop₃.counts, hloop₄.counts, List.append_nil, hchunk.counts,
            tableCounts, hlength₁, hlength₂, hlength₃, hlength₄]
        names := by
          rw [hdeclared]
          exact hchunk.names }
  · exact
      { arity := hlimits.1.1
        requiredArity := hlimits.1.2
        upvalueCount := of_decide_eq_true hagree
        upvalues := by
          rw [hlength₄]
          exact of_decide_eq_true huv
        paramNames := by
          rw [hlength₁]
          exact hparamCount
        code := hchunk.code
        constants := hchunk.constants }

end Functions

/-! ## Files -/

/-- What the result has to do with the notes of its reading: the loops over dependencies
    and functions have the sizes of these tables, every function is well formed and its
    tables have the sizes that the file declares, and it counts as verified just when the
    verifier itself finds no fault with it, whatever the file claims. -/
def ResultDeclared (pastEnd : Int) (result : DeserializedBytecode) (ns : List Note) : Prop :=
  ∃ (n₁ n₂ : Note) (top : List Note) (parts : List (List Note)),
    ns = n₁ :: (top ++ n₂ :: parts.flatten) ∧ IsLoop .dependencies result.dependencies.length n₁ ∧
      IsLoop .functions result.functions.length n₂ ∧
      List.Forall₂ (fun func ns => Declared func ns ∧ WellFormed func ∧
          ∃ claimed, func.verified = (BytecodeVerifier.verify pastEnd (func.setIsVerified claimed)).isEmpty)
        (result.topLevel :: result.functions) (top :: parts)

theorem reverify_declared {pastEnd : Int} {func : CompiledFunction} {ns : List Note}
    (h : Declared func ns ∧ WellFormed func) :
    Declared (BytecodeSerializer.reverify pastEnd func) ns ∧ WellFormed (BytecodeSerializer.reverify pastEnd func) ∧
      ∃ claimed, (BytecodeSerializer.reverify pastEnd func).verified =
        (BytecodeVerifier.verify pastEnd ((BytecodeSerializer.reverify pastEnd func).setIsVerified claimed)).isEmpty :=
  ⟨⟨h.1.counts, h.1.names⟩,
    ⟨h.2.arity, h.2.requiredArity, h.2.upvalueCount, h.2.upvalues, h.2.paramNames, h.2.code, h.2.constants⟩,
    func.verified, rfl⟩

theorem refines_deserializeFrom {P : Nat → Prop} {pastEnd : Int} :
    Refines Note.Within P (deserializeFrom pastEnd) (BytecodeSerializer.deserializeFrom pastEnd)
      fun result ns _ => ResultDeclared pastEnd result ns := by
  refine quiet_readBytes.then fun magic => ?_
  refine quiet_readInt.then fun version => ?_
  refine quiet_readInt.then fun flags => ?_
  refine quiet_readU64.then fun sourceHash => ?_
  refine quiet_readU64.then fun timestamp => ?_
  refine .failed fun error => ?_
  refine .check fun _ => ?_
  refine .check fun _ => ?_
  refine .check fun _ => ?_
  refine quiet_readInt.then fun dependencyCount => ?_
  refine .failed fun error => ?_
  refine .hasRemaining fun enough => ?_
  refine .check fun hdependencies => ?_
  rw [Bool.and_eq_true, Bool.and_eq_true, decide_eq_true_eq] at hdependencies
  refine refines_loop (fun left hleft => ⟨hdependencies.1.2, of_decide_eq_true (hleft.2.symm.trans hdependencies.2)⟩)
    (fun _ => quiet_deserializeDependency) fun dependencies n₁ hlength₁ hloop₁ => ?_
  refine quiet_readInt.then fun funcCount => ?_
  refine .failed fun error => ?_
  refine .check fun hcount => ?_
  rw [Bool.and_eq_true, Bool.and_eq_true, decide_eq_true_eq, decide_eq_true_eq] at hcount
  refine .bind (.orElseError refines_deserializeFunction) fun topLevel top ⟨_, htop⟩ => ?_
  refine .failed fun error => ?_
  refine .hasRemaining fun enough => ?_
  refine .check fun hfunctions => ?_
  rw [Bool.and_eq_true] at hfunctions
  have hwithin : funcCount - 1 < SerializerLimits.maxFunctionCount := by omega
  refine .note (fun left hleft => ⟨hwithin, of_decide_eq_true (hleft.2.symm.trans hfunctions.2)⟩) fun left _ => ?_
  refine .bind (.readIndexed fun _ => .orElseError refines_deserializeFunction)
    fun functions ns ⟨_, hlength, hnotes⟩ => ?_
  refine .pure fun _ _ => ?_
  obtain ⟨parts, hns, hparts⟩ := hnotes
  refine ⟨n₁, .loop .functions (funcCount - 1) left, top, parts, ?_, hlength₁.symm ▸ hloop₁, ⟨left, ?_⟩, ?_⟩
  · rw [List.append_nil, hns]
  · rw [List.length_map, hlength]
  · refine .cons (reverify_declared htop) ?_
    rw [List.forall₂_map_left_iff]
    exact hparts.imp fun _ _ h => reverify_declared h

/-! ## Whole buffers -/

/-- Whatever the buffer, the deserializer returns what the abstract one returns, which is
    an error or a result; it looks at bytes of the buffer only, enters no loop beyond the
    limit of its table, and the result agrees with the counts in the file. -/
theorem deserialize_safe (pastEnd : Int) (data : Bytes) :
    (deserialize pastEnd data).1 = BytecodeSerializer.deserialize pastEnd data ∧
      (∀ e ∈ (deserialize pastEnd data).2, e.Fine Note.Within data) ∧
      ∀ result, (deserialize pastEnd data).1 = .ok result →
        ResultDeclared pastEnd result (notes (deserialize pastEnd data).2) := by
  unfold deserialize BytecodeSerializer.deserialize
  split
  · exact ⟨rfl, by simp, fun _ h => nomatch h⟩
  · obtain ⟨hsame, new, hlog, hfine, hpost⟩ := refines_deserializeFrom (P := fun _ => True) data
      ⟨0, false, []⟩ (Nat.zero_le _) trivial
    rw [List.nil_append] at hlog
    have hstart : Cursor.reader data (⟨0, false, []⟩ : Cursor Note) = ⟨data, false⟩ := rfl
    rw [hstart] at hsame
    rcases hrun : deserializeFrom pastEnd data ⟨0, false, []⟩ with ⟨result, cursor⟩
    rw [hrun] at hsame hlog hpost
    dsimp only
    refine ⟨?_, ?_, ?_⟩
    · cases result with
      | ok result =>
        rw [StateT.run, hsame.2]
        rfl
      | error e =>
        have herror : BytecodeSerializer.deserializeFrom pastEnd ⟨data, false⟩ = .error e := hsame
        rw [StateT.run, herror]
        rfl
    · rw [hlog]
      exact hfine
    · intro declared hdeclared
      rw [hlog]
      exact hpost declared hdeclared

/-- The sizes that a file declares for the name tables of its functions. -/
def nameCounts (ns : List Note) : List Nat :=
  (counts ns).filterMap fun (table, count) => if table = .names then some count else none

/-- A file with one empty function, whose name table is the name `a` twice. -/
def repeatingFile : Bytes :=
  [0x4C, 0x55, 0x4D, 0x43, 0, 0, 0, 10, 0, 0, 0, 0, 0, 0, 0, 0, 0, 0, 0, 0, 0, 0, 0, 0, 0, 0, 0, 0,
    0, 0, 0, 0, 0, 0, 0, 1,
    0, 0, 0, 0, 0, 0, 0, 0, 0, 0, 0, 0, 0, 0, 0, 0, 0, 0, 0, 0, 0, 0, 0, 0, 0, 0, 0, 0, 0,
    0, 2, 0, 0, 0, 1, 97, 0, 0, 0, 1, 97]

/-- The name table can be smaller than the file declares. -/
theorem repeated_names_dropped :
    ¬ ∀ (pastEnd : Int) (data : Bytes) (result : DeserializedBytecode), (deserialize pastEnd data).1 = .ok result →
      (result.topLevel :: result.functions).map (·.chunk.names.names.length) =
        nameCounts (notes (deserialize pastEnd data).2) := by
  intro h
  have hdeclared : nameCounts (notes (deserialize (-1) repeatingFile).2) = [2] := by decide +kernel
  have hsizes : (deserialize (-1) repeatingFile).1.toOption.map
      (fun result => (result.topLevel :: result.functions).map (·.chunk.names.names.length)) = some [1] := by
    decide +kernel
  cases hrun : (deserialize (-1) repeatingFile).1 with
  | error e =>
    rw [hrun] at hsizes
    exact nomatch hsizes
  | ok result =>
    rw [hrun] at hsizes
    have hequal := h (-1) repeatingFile result hrun
    rw [hdeclared] at hequal
    rw [Except.toOption, Option.map_some, hequal] at hsizes
    exact nomatch hsizes

end Luma.TracedDeserializer
