-- SUMMARY: Runs that create and modify dictionaries, against runs on ordered maps.
import Luma.Value.DictionaryLaws

/-! # Runs over Dictionaries

The dictionaries of a running program are created by literals, by copying and by
widening, and change by the operations of `DictionaryValue`; native functions that
build or modify dictionaries are sequences of these. A run on dictionaries is
compared with the same run on ordered maps, where a literal inserts its pairs one
after another. -/

namespace Luma

open Codec OrderedMap

variable {V D : Type}

/-- How a new dictionary comes to be. Sources are named by creation order. -/
inductive DictionaryCreation (V : Type) where
  | makeDict (popped : List V)
  | makeShared
  | cloneDict (source : Nat)
  | makeExclusive (source : Nat)
  | deepCopy (source : Nat) (deepCopyValue : V → V)
  | widen (source : Nat) (widenImpl : V → Option V)

/-- What may be done with an existing dictionary. -/
inductive DictionaryUpdate (V : Type) where
  | rebuildIndex
  | get (key : Bytes)
  | set (key : Bytes) (value : V)
  | assignFound (key : Bytes) (value : V)
  | indexSet (index value : V)
  | erase (key : Bytes)
  | length

inductive DictionaryOp (V : Type) where
  | create (creation : DictionaryCreation V)
  | update (target : Nat) (update : DictionaryUpdate V)

/-- The answer of an operation. -/
inductive DictionaryOutput (V : Type) where
  | done
  | found (value : Option V)
  | length (n : Nat)
  deriving DecidableEq, Repr

/-- An implementation of dictionaries by a type `D`. -/
structure DictionaryModel (V D : Type) where
  create : List D → DictionaryCreation V → Except ErrorMessage (Option D)
  update : D → DictionaryUpdate V → Except ErrorMessage (DictionaryOutput V) × D

namespace DictionaryModel

/-- One operation on all dictionaries; a failing creation creates nothing. -/
def step (model : DictionaryModel V D) (heap : List D) :
    DictionaryOp V → Except ErrorMessage (DictionaryOutput V) × List D
  | .create creation =>
    match model.create heap creation with
    | .error e => (.error e, heap)
    | .ok none => (.ok .done, heap)
    | .ok (some dict) => (.ok .done, heap ++ [dict])
  | .update target update =>
    match heap[target]? with
    | none => (.ok .done, heap)
    | some dict =>
      let (output, dict) := model.update dict update
      (output, heap.set target dict)

/-- The answers and the dictionaries at the end of a run. -/
def run (model : DictionaryModel V D) (heap : List D) :
    List (DictionaryOp V) → List (Except ErrorMessage (DictionaryOutput V)) × List D
  | [] => ([], heap)
  | op :: ops =>
    let (output, heap) := model.step heap op
    let (outputs, heap) := model.run heap ops
    (output :: outputs, heap)

end DictionaryModel

section Models

variable (view : KeyView V) (maxDictionarySize : Nat)

/-- The dictionaries of the program. -/
def dictionaryModel : DictionaryModel V (DictionaryValue V) where
  create heap
    | .makeDict popped => (handleMakeDict view maxDictionarySize popped).map some
    | .makeShared => .ok (some {})
    | .cloneDict source => .ok (heap[source]?.map DictionaryValue.cloneDict)
    | .makeExclusive source => .ok (heap[source]?.map DictionaryValue.makeExclusive)
    | .deepCopy source copy => .ok (heap[source]?.map (DictionaryValue.deepCopyDictionary copy))
    | .widen source widenImpl => .ok (heap[source]?.bind (DictionaryValue.widen widenImpl))
  update dict
    | .rebuildIndex => (.ok .done, dict.rebuildIndex)
    | .get key => (.ok (.found (dict.get key).1), (dict.get key).2)
    | .set key value =>
      match dict.set key value with
      | .error e => (.error e, dict)
      | .ok dict => (.ok .done, dict)
    | .assignFound key value =>
      let (found, dict) := dict.find key
      (.ok .done, found.elim dict fun position => dict.assign position value)
    | .indexSet index value =>
      let (result, dict) := handleDictionaryIndexSet view maxDictionarySize dict index value
      (result.map fun _ => .done, dict)
    | .erase key => (.ok .done, dict.erase key)
    | .length => (.ok (.length dict.length), dict)

/-- Ordered maps, where the last write of a key wins, in literals too. -/
def orderedMapModel : DictionaryModel V (List (Bytes × V)) where
  create maps
    | .makeDict popped => do
      ensureDictionaryCapacity maxDictionarySize 0 (popped.length / 2) "dictionary literal"
      let pairs ← dictionaryPairs view popped
      return some (insertAll [] pairs)
    | .makeShared => .ok (some [])
    | .cloneDict source | .makeExclusive source => .ok maps[source]?
    | .deepCopy source copy =>
      .ok (maps[source]?.map fun entries => entries.map fun entry => (entry.1, copy entry.2))
    | .widen source widenImpl => .ok (maps[source]?.bind fun entries =>
        if entries.any fun entry => (widenImpl entry.2).isSome then
          some (entries.map fun entry => (entry.1, (widenImpl entry.2).getD entry.2))
        else none)
  update entries
    | .rebuildIndex => (.ok .done, entries)
    | .get key => (.ok (.found (lookup key entries)), entries)
    | .set key value => (.ok .done, insert key value entries)
    | .assignFound key value =>
      (.ok .done, if contains key entries then insert key value entries else entries)
    | .indexSet index value =>
      match view.asString index with
      | none =>
        (.error s!"dictionary index must be a string, got '{view.displayTypeName index}'", entries)
      | some key =>
        if contains key entries then (.ok .done, insert key value entries)
        else match ensureDictionaryCapacity maxDictionarySize entries.length 1
            "Dictionary index assignment" with
          | .error e => (.error e, entries)
          | .ok () => (.ok .done, insert key value entries)
    | .erase key => (.ok .done, remove key entries)
    | .length => (.ok (.length entries.length), entries)

/-- No key twice in a dictionary literal; nothing is asked of other operations. -/
def LiteralKeysDistinct : DictionaryOp V → Prop
  | .create (.makeDict popped) => ∀ pairs, dictionaryPairs view popped = .ok pairs → (keys pairs).Nodup
  | _ => True

end Models

/-! ## One step -/

/-- A valid dictionary with the entries of a map. -/
structure Represents (dict : DictionaryValue V) (entries : List (Bytes × V)) : Prop where
  valid : dict.Valid
  entries_eq : dict.entries = entries

/-- Two creations both fail, both create nothing, or create related dictionaries. -/
inductive CreatesAlike : Except ErrorMessage (Option (DictionaryValue V)) →
    Except ErrorMessage (Option (List (Bytes × V))) → Prop where
  | error (e : ErrorMessage) : CreatesAlike (.error e) (.error e)
  | none : CreatesAlike (.ok none) (.ok none)
  | some {dict : DictionaryValue V} {entries : List (Bytes × V)} (hrep : Represents dict entries) :
      CreatesAlike (.ok (some dict)) (.ok (some entries))

section Simulation

variable {view : KeyView V} {maxDictionarySize : Nat} {dict : DictionaryValue V}
  {entries : List (Bytes × V)} {heap : List (DictionaryValue V)} {maps : List (List (Bytes × V))}

/-- Looking an object up in related heaps finds related objects. -/
theorem getElem?_alike (hheap : List.Forall₂ Represents heap maps) (i : Nat) :
    (heap[i]? = none ∧ maps[i]? = none) ∨
      ∃ dict entries, heap[i]? = some dict ∧ maps[i]? = some entries ∧ Represents dict entries := by
  induction hheap generalizing i with
  | nil => exact .inl ⟨rfl, rfl⟩
  | cons hrep _ ih =>
    cases i with
    | zero => exact .inr ⟨_, _, rfl, rfl, hrep⟩
    | succ i => exact ih i

theorem handleMakeDict_alike {popped : List V}
    (hdistinct : ∀ pairs, dictionaryPairs view popped = .ok pairs → (keys pairs).Nodup) :
    CreatesAlike ((dictionaryModel view maxDictionarySize).create heap (.makeDict popped))
      ((orderedMapModel view maxDictionarySize).create maps (.makeDict popped)) := by
  simp only [dictionaryModel, orderedMapModel, handleMakeDict]
  cases ensureDictionaryCapacity maxDictionarySize 0 (popped.length / 2) "dictionary literal" with
  | error e => exact .error e
  | ok _ =>
    cases hpairs : dictionaryPairs view popped with
    | error e => exact .error e
    | ok pairs =>
      have hnodup := hdistinct pairs hpairs
      have hinsert : insertAll [] pairs = pairs := insertAll_of_nodup hnodup
      refine .some ⟨DictionaryValue.valid_of_stale hnodup, ?_⟩
      exact hinsert.symm

theorem create_alike (hheap : List.Forall₂ Represents heap maps)
    {creation : DictionaryCreation V} (hdistinct : LiteralKeysDistinct view (.create creation)) :
    CreatesAlike ((dictionaryModel view maxDictionarySize).create heap creation)
      ((orderedMapModel view maxDictionarySize).create maps creation) := by
  cases creation with
  | makeDict popped => exact handleMakeDict_alike hdistinct
  | makeShared => exact .some ⟨DictionaryValue.valid_of_stale List.nodup_nil, rfl⟩
  | cloneDict source =>
    rcases getElem?_alike hheap source with ⟨hsrc, hmap⟩ | ⟨dict, _, hsrc, hmap, hvalid, rfl⟩
    · simp only [dictionaryModel, orderedMapModel, hsrc, hmap]
      exact .none
    · simp only [dictionaryModel, orderedMapModel, hsrc, hmap]
      exact .some ⟨DictionaryValue.rebuildIndex_valid hvalid.nodup, rfl⟩
  | makeExclusive source =>
    rcases getElem?_alike hheap source with ⟨hsrc, hmap⟩ | ⟨dict, _, hsrc, hmap, hvalid, rfl⟩
    · simp only [dictionaryModel, orderedMapModel, hsrc, hmap]
      exact .none
    · simp only [dictionaryModel, orderedMapModel, hsrc, hmap]
      exact .some ⟨DictionaryValue.valid_of_stale hvalid.nodup, rfl⟩
  | deepCopy source copy =>
    rcases getElem?_alike hheap source with ⟨hsrc, hmap⟩ | ⟨dict, _, hsrc, hmap, hvalid, rfl⟩
    · simp only [dictionaryModel, orderedMapModel, hsrc, hmap]
      exact .none
    · simp only [dictionaryModel, orderedMapModel, hsrc, hmap]
      refine .some ⟨DictionaryValue.valid_of_stale ?_, rfl⟩
      rw [keys_mapValues]
      exact hvalid.nodup
  | widen source widenImpl =>
    rcases getElem?_alike hheap source with ⟨hsrc, hmap⟩ | ⟨dict, _, hsrc, hmap, hvalid, rfl⟩
    · simp only [dictionaryModel, orderedMapModel, hsrc, hmap]
      exact .none
    · simp only [dictionaryModel, orderedMapModel, hsrc, hmap, Option.bind_some,
        DictionaryValue.widen]
      split
      · refine .some ⟨DictionaryValue.valid_of_stale ?_, rfl⟩
        rw [keys_mapValues]
        exact hvalid.nodup
      · exact .none

theorem indexSet_alike (hvalid : dict.Valid) {index value : V} :
    ((dictionaryModel view maxDictionarySize).update dict (.indexSet index value)).1 =
        ((orderedMapModel view maxDictionarySize).update dict.entries (.indexSet index value)).1 ∧
      Represents ((dictionaryModel view maxDictionarySize).update dict (.indexSet index value)).2
        ((orderedMapModel view maxDictionarySize).update dict.entries (.indexSet index value)).2 := by
  simp only [dictionaryModel, orderedMapModel, handleDictionaryIndexSet]
  cases view.asString index with
  | none => exact ⟨rfl, hvalid, rfl⟩
  | some key =>
    have hfind : (dict.find key).2.Valid := DictionaryValue.find_valid hvalid
    cases hpos : position key dict.entries with
    | some i =>
      have hmem : contains key dict.entries = true := by rw [contains_eq_isSome, hpos]; rfl
      simp only [DictionaryValue.find_fst hvalid, hpos, if_pos hmem]
      exact ⟨rfl, DictionaryValue.assign_valid hfind, DictionaryValue.assign_entries hpos⟩
    | none =>
      have hnew : contains key dict.entries ≠ true := by rw [contains_eq_isSome, hpos]; simp
      simp only [DictionaryValue.find_fst hvalid, hpos, if_neg hnew, DictionaryValue.length,
        DictionaryValue.find_entries]
      cases ensureDictionaryCapacity maxDictionarySize dict.entries.length 1
        "Dictionary index assignment" with
      | error e => exact ⟨rfl, hfind, rfl⟩
      | ok _ =>
        obtain ⟨dict', hset, hentries, hvalid'⟩ :=
          DictionaryValue.set_spec hfind key value
        simp only [hset]
        exact ⟨rfl, hvalid', hentries⟩

/-- Updating a dictionary answers like updating the map it represents. -/
theorem update_alike (hvalid : dict.Valid) (update : DictionaryUpdate V) :
    ((dictionaryModel view maxDictionarySize).update dict update).1 =
        ((orderedMapModel view maxDictionarySize).update dict.entries update).1 ∧
      Represents ((dictionaryModel view maxDictionarySize).update dict update).2
        ((orderedMapModel view maxDictionarySize).update dict.entries update).2 := by
  cases update with
  | rebuildIndex => exact ⟨rfl, DictionaryValue.rebuildIndex_valid hvalid.nodup, rfl⟩
  | get key =>
    simp only [dictionaryModel, orderedMapModel, DictionaryValue.get_fst hvalid]
    exact ⟨trivial, DictionaryValue.find_valid hvalid, rfl⟩
  | set key value =>
    obtain ⟨dict', hset, hentries, hvalid'⟩ :=
      DictionaryValue.set_spec hvalid key value
    simp only [dictionaryModel, orderedMapModel, hset]
    exact ⟨trivial, hvalid', hentries⟩
  | assignFound key value =>
    have hfind : (dict.find key).2.Valid := DictionaryValue.find_valid hvalid
    simp only [dictionaryModel, orderedMapModel, DictionaryValue.find_fst hvalid]
    cases hpos : position key dict.entries with
    | some i =>
      rw [if_pos (by rw [contains_eq_isSome, hpos]; rfl)]
      exact ⟨trivial, DictionaryValue.assign_valid hfind, DictionaryValue.assign_entries hpos⟩
    | none =>
      rw [if_neg (by rw [contains_eq_isSome, hpos]; simp)]
      exact ⟨trivial, hfind, rfl⟩
  | indexSet index value => exact indexSet_alike hvalid
  | erase key => exact ⟨rfl, DictionaryValue.erase_valid hvalid, rfl⟩
  | length => exact ⟨rfl, hvalid, rfl⟩

theorem step_alike (hheap : List.Forall₂ Represents heap maps) {op : DictionaryOp V}
    (hdistinct : LiteralKeysDistinct view op) :
    ((dictionaryModel view maxDictionarySize).step heap op).1 =
        ((orderedMapModel view maxDictionarySize).step maps op).1 ∧
      List.Forall₂ Represents ((dictionaryModel view maxDictionarySize).step heap op).2
        ((orderedMapModel view maxDictionarySize).step maps op).2 := by
  cases op with
  | create creation =>
    have hcreate : CreatesAlike ((dictionaryModel view maxDictionarySize).create heap creation)
        ((orderedMapModel view maxDictionarySize).create maps creation) := create_alike hheap hdistinct
    simp only [DictionaryModel.step]
    generalize (dictionaryModel view maxDictionarySize).create heap creation = r at hcreate ⊢
    generalize (orderedMapModel view maxDictionarySize).create maps creation = s at hcreate ⊢
    cases hcreate with
    | error e => exact ⟨rfl, hheap⟩
    | none => exact ⟨rfl, hheap⟩
    | some hrep => exact ⟨rfl, List.rel_append hheap (.cons hrep .nil)⟩
  | update target update =>
    simp only [DictionaryModel.step]
    rcases getElem?_alike hheap target with ⟨hsrc, hmap⟩ | ⟨dict, _, hsrc, hmap, hvalid, rfl⟩
    · simp only [hsrc, hmap]
      exact ⟨trivial, hheap⟩
    · simp only [hsrc, hmap]
      exact ⟨(update_alike hvalid update).1, Matching.forall₂_set hheap (update_alike hvalid update).2⟩

theorem run_alike (hheap : List.Forall₂ Represents heap maps) {ops : List (DictionaryOp V)}
    (hdistinct : ∀ op ∈ ops, LiteralKeysDistinct view op) :
    ((dictionaryModel view maxDictionarySize).run heap ops).1 =
        ((orderedMapModel view maxDictionarySize).run maps ops).1 ∧
      List.Forall₂ Represents ((dictionaryModel view maxDictionarySize).run heap ops).2
        ((orderedMapModel view maxDictionarySize).run maps ops).2 := by
  induction ops generalizing heap maps with
  | nil => exact ⟨rfl, hheap⟩
  | cons op ops ih =>
    have hstep := hdistinct op List.mem_cons_self
    have hout : ((dictionaryModel view maxDictionarySize).step heap op).1 = _ :=
      (step_alike hheap hstep).1
    have hnext : List.Forall₂ Represents ((dictionaryModel view maxDictionarySize).step heap op).2 _ :=
      (step_alike hheap hstep).2
    obtain ⟨houts, hlast⟩ := ih hnext fun op' hop' => hdistinct op' (List.mem_cons_of_mem op hop')
    refine ⟨?_, hlast⟩
    simp only [DictionaryModel.run]
    rw [hout, houts]

end Simulation

/-! ## Every run -/

end Luma
