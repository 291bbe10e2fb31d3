-- SUMMARY: A for loop visits what indexing returns and containment accepts, in order and once.
import Luma.Vm.Iteration

/-! # Iteration Agrees With Indexing

Each iterator is in step with the list of what its loop is to visit: from the index of
element `k` it pushes that element and goes on to the index of element `k + 1`. The budget
of all iterations ends every loop before an index could overflow. -/

namespace Luma.Iteration

open Codec Utf8Codec OrderedMap

/-! ## What a loop is to visit -/

/-- Values with their positions as keys. -/
def withIndices (keyed : Bool) (values : List Value) : List (List Value) :=
  values.mapIdx fun k value => pushed keyed value (.integer (Int64.ofNat k))

def entryPushed (keyed : Bool) (entry : Bytes × Value) : List Value :=
  if keyed then [entry.2, .string entry.1] else [.string entry.1]

/-- The values that indexing returns for the integers, which are out of bounds beyond them. -/
def Indexed (container : Value) (values : List Value) : Prop :=
  ∀ i : Int64, (handleIndexGet container (.integer i)).toOption = if 0 ≤ i then values[asSize i]? else none

/-- What is to be visited, in the words of indexing and of containment. -/
inductive Visits (h : StdHash) (keyed : Bool) : Value → List (List Value) → Prop where
  | range {start stop : Int64} {inclusive : Bool} {ns : List Int64} (ascending : ns.Pairwise (· < ·))
    (contained : ∀ n, n ∈ ns ↔ handleContains h (.integer n) (.range start stop inclusive) = .ok true) :
    Visits h keyed (.range start stop inclusive) (withIndices keyed (ns.map .integer))
  | array {elems values : List Value} (indexed : Indexed (.array elems) values) :
    Visits h keyed (.array elems) (withIndices keyed values)
  | string {s : Bytes} {values : List Value} (indexed : Indexed (.string s) values) :
    Visits h keyed (.string s) (withIndices keyed values)
  | dictionary {entries : List (Bytes × Value)} (nodup : (keys entries).Nodup)
    (indexed : ∀ key value, handleIndexGet (.dictionary entries) (.string key) = .ok value ↔ (key, value) ∈ entries) :
    Visits h keyed (.dictionary entries) (entries.map (entryPushed keyed))

/-- Iterables of a size that memory can hold: the keys of a dictionary are distinct, and a string
    has fewer code points than an `int` can count. -/
inductive Iterable : Value → Prop where
  | range (start stop : Int64) (inclusive : Bool) : Iterable (.range start stop inclusive)
  | array {elems : List Value} (hsize : elems.length < 2 ^ 63) : Iterable (.array elems)
  | string {s : Bytes} (hsize : s.length < 2 ^ 63) (hcount : (codePoints s).length < 2 ^ 31) : Iterable (.string s)
  | dictionary {entries : List (Bytes × Value)} (hsize : entries.length < 2 ^ 63) (hnodup : (keys entries).Nodup) :
    Iterable (.dictionary entries)

/-! ## Iterators in step -/

/-- From the index of an element the step pushes it and goes on to the next. -/
def InStep (step : Int64 → IterStep) (indexAt : Nat → Int64) (elems : List (List Value)) : Prop :=
  ∀ k < 2 ^ 63, step (indexAt k) = elems[k]?.map fun values => (values, indexAt (k + 1))

section Steps

variable {keyed inclusive : Bool} {start stop n : Int64} {k : Nat} {elems : List Value} {entries : List (Bytes × Value)}
  {s : Bytes}

theorem asSize_ofNat (hk : k < 2 ^ 63) : asSize (Int64.ofNat k) = k := by
  rw [asSize, Int64.toUInt64_ofNat', UInt64.toNat_ofNat_of_lt' (by rw [UInt64.size]; omega)]

theorem ofNat_succ (k : Nat) : Int64.ofNat k + 1 = Int64.ofNat (k + 1) := (Int64.ofNat_add k 1).symm

theorem withIndices_getElem? {values : List Value} :
    (withIndices keyed values)[k]? = values[k]?.map fun value => pushed keyed value (.integer (Int64.ofNat k)) := by
  rw [withIndices, List.getElem?_mapIdx]

/-! ## Ranges -/

/-- How many integers a range has. -/
def rangeSize (start stop : Int64) (inclusive : Bool) : Nat :=
  (stop.toInt - start.toInt + if inclusive then 1 else 0).toNat

def rangeElements (start stop : Int64) (inclusive : Bool) : List Int64 :=
  (List.range (rangeSize start stop inclusive)).map fun (k : Nat) => Int64.ofInt (start.toInt + k)

theorem rangeInBounds_iff : rangeInBounds stop inclusive n = true ↔ n.toInt < stop.toInt + if inclusive then 1 else 0 := by
  cases inclusive with
  | false => simp [rangeInBounds, Int64.lt_iff_toInt_lt]
  | true =>
    simp only [rangeInBounds, if_true, decide_eq_true_eq, Int64.le_iff_toInt_le]
    omega

/-- The elements of a range fit. -/
theorem rangeElement_toInt (hk : k < rangeSize start stop inclusive) :
    (Int64.ofInt (start.toInt + k)).toInt = start.toInt + k := by
  have hstart := start.le_toInt
  have hstop := stop.toInt_lt
  rw [rangeSize] at hk
  apply Int64.toInt_ofInt_of_le
  · omega
  · split at hk <;> omega

theorem rangeElements_ascending : (rangeElements start stop inclusive).Pairwise (· < ·) := by
  rw [rangeElements, List.pairwise_map]
  refine List.pairwise_lt_range.imp_of_mem ?_
  intro j k hj hk hjk
  rw [List.mem_range] at hj hk
  rw [Int64.lt_iff_toInt_lt, rangeElement_toInt hj, rangeElement_toInt hk]
  omega

theorem mem_rangeElements :
    n ∈ rangeElements start stop inclusive ↔ start.toInt ≤ n.toInt ∧ rangeInBounds stop inclusive n = true := by
  rw [rangeElements, List.mem_map, rangeInBounds_iff]
  constructor
  · rintro ⟨k, hk, rfl⟩
    rw [List.mem_range] at hk
    rw [rangeElement_toInt hk]
    rw [rangeSize] at hk
    omega
  · rintro ⟨hlow, hhigh⟩
    refine ⟨(n.toInt - start.toInt).toNat, ?_, ?_⟩
    · rw [List.mem_range, rangeSize]
      omega
    · have hsame : start.toInt + ((n.toInt - start.toInt).toNat : Int) = n.toInt := by omega
      rw [hsame, Int64.ofInt_toInt]

/-- The elements of a range are the integers in it. -/
theorem mem_rangeElements_iff_contains (h : StdHash) :
    n ∈ rangeElements start stop inclusive ↔ handleContains h (.integer n) (.range start stop inclusive) = .ok true := by
  rw [mem_rangeElements, handleContains]
  simp [Int64.le_iff_toInt_le]

theorem visits_range (h : StdHash) :
    Visits h keyed (.range start stop inclusive) (withIndices keyed ((rangeElements start stop inclusive).map .integer)) :=
  .range rangeElements_ascending fun _ => mem_rangeElements_iff_contains h

theorem stepRange_inStep :
    InStep (stepRange keyed start stop inclusive) Int64.ofNat
      (withIndices keyed ((rangeElements start stop inclusive).map .integer)) := by
  intro k hk
  have hidx : (Int64.ofNat k).toInt = k := Int64.toInt_ofNat_of_lt hk
  have hstop := stop.toInt_lt
  rw [withIndices_getElem?, List.getElem?_map, rangeElements, List.getElem?_map, stepRange]
  by_cases hover : wouldOverflowAdd start (Int64.ofNat k) = true
  · have hfits := wouldOverflowAdd_iff.mp hover
    have hstart := start.le_toInt
    have hend : rangeSize start stop inclusive ≤ k := by
      rw [hidx, Fits] at hfits
      rw [rangeSize]
      split <;> omega
    rw [if_pos hover, List.getElem?_eq_none (by rwa [List.length_range])]
    rfl
  · have hfits : Fits (start.toInt + (Int64.ofNat k).toInt) := by
      by_contra hnot
      exact hover (wouldOverflowAdd_iff.mpr hnot)
    have hcurrent : (start + Int64.ofNat k).toInt = start.toInt + k := by rw [hfits.toInt_add, hidx]
    rw [if_neg hover]
    dsimp only
    by_cases hin : k < rangeSize start stop inclusive
    · have hbounds : rangeInBounds stop inclusive (start + Int64.ofNat k) = true := by
        rw [rangeInBounds_iff, hcurrent]
        rw [rangeSize] at hin
        omega
      have hsame : Int64.ofInt (start.toInt + k) = start + Int64.ofNat k := by rw [← hcurrent, Int64.ofInt_toInt]
      rw [hbounds, List.getElem?_range hin, ofNat_succ]
      simp only [Bool.not_true, Bool.false_eq_true, if_false, Option.map_some, hsame]
    · have hbounds : rangeInBounds stop inclusive (start + Int64.ofNat k) = false := by
        rw [Bool.eq_false_iff, Ne, rangeInBounds_iff, hcurrent]
        rw [rangeSize] at hin
        omega
      rw [hbounds, List.getElem?_eq_none (by rw [List.length_range]; omega)]
      rfl

/-! ## Arrays and dictionaries -/

theorem asSize_of_nonneg (hn : 0 ≤ n.toInt) : (asSize n : Int) = n.toInt := by
  have hlt := n.toUInt64.toNat_lt
  have hsigned : n.toInt = (n.toUInt64.toNat : Int).bmod (2 ^ 64) := by
    rw [← Int64.toInt_toBitVec, BitVec.toInt_eq_toNat_bmod, Int64.toNat_toBitVec]
  rw [Int.bmod_def] at hsigned
  rw [asSize]
  omega

theorem isIndexOutOfBounds_iff {size : Nat} (hsize : size < 2 ^ 63) :
    isIndexOutOfBounds n size = true ↔ n.toInt < 0 ∨ (size : Int) ≤ n.toInt := by
  simp [isIndexOutOfBounds, Int64.lt_iff_toInt_lt, Int64.le_iff_toInt_le, Int64.toInt_ofNat_of_lt hsize]

/-- An index that is resolved is the position of an element. -/
theorem resolveIndex_bind {size : Nat} {context : String} (hsize : size < 2 ^ 63) (get : Int64 → Value) :
    ((resolveIndex n size context).bind fun idx => .ok (get idx)).toOption =
      if 0 ≤ n.toInt ∧ n.toInt < size then some (get n) else none := by
  rw [resolveIndex]
  by_cases hout : isIndexOutOfBounds n size = true
  · have hbounds := (isIndexOutOfBounds_iff hsize).mp hout
    rw [if_pos hout, if_neg (by omega)]
    rfl
  · have hbounds := (isIndexOutOfBounds_iff hsize).not.mp hout
    rw [if_neg hout, if_pos (by omega)]
    rfl

theorem indexed_array (hsize : elems.length < 2 ^ 63) : Indexed (.array elems) elems := by
  intro i
  rw [handleIndexGet, handleArrayIndexGet, elementAtIndex]
  · change ((resolveIndex i elems.length "Index").bind fun idx => .ok (elems.getD (asSize idx) .null)).toOption = _
    rw [resolveIndex_bind hsize]
    simp only [Int64.le_iff_toInt_le, Int64.toInt_zero]
    by_cases hi : 0 ≤ i.toInt
    · have hsame := asSize_of_nonneg hi
      by_cases hlt : i.toInt < elems.length
      · have hget : asSize i < elems.length := by omega
        rw [if_pos ⟨hi, hlt⟩, if_pos hi, List.getD_eq_getElem _ _ hget, List.getElem?_eq_getElem hget]
      · rw [if_neg (by omega), if_pos hi, List.getElem?_eq_none (by omega)]
    · rw [if_neg (by omega), if_neg hi]
  · intro _ _ _ hrange
    cases hrange

theorem stepArray_inStep : InStep (stepArray keyed elems) Int64.ofNat (withIndices keyed elems) := by
  intro k hk
  rw [withIndices_getElem?, stepArray, asSize_ofNat hk]
  cases elems[k]? with
  | none => rfl
  | some elem =>
    dsimp only
    rw [ofNat_succ]
    rfl

theorem findEntry_eq (hnodup : (keys entries).Nodup) (key : Bytes) : findEntry entries key = lookup key entries :=
  DictionaryValue.get_fst ⟨hnodup, fun hbuilt => absurd hbuilt Bool.false_ne_true⟩

theorem visits_dictionary (h : StdHash) (hnodup : (keys entries).Nodup) :
    Visits h keyed (.dictionary entries) (entries.map (entryPushed keyed)) := by
  refine .dictionary hnodup fun key value => ?_
  rw [handleIndexGet, handleDictIndexGet, findEntry_eq hnodup]
  constructor
  · intro hget
    cases hlookup : lookup key entries with
    | none =>
      rw [hlookup] at hget
      cases hget
    | some found =>
      rw [hlookup] at hget
      cases hget
      exact mem_of_lookup hlookup
  · intro hmem
    rw [lookup_of_mem hnodup hmem]

theorem stepDict_inStep : InStep (stepDict keyed entries) Int64.ofNat (entries.map (entryPushed keyed)) := by
  intro k hk
  rw [List.getElem?_map, stepDict, asSize_ofNat hk]
  cases entries[k]? with
  | none => rfl
  | some entry =>
    dsimp only
    rw [ofNat_succ]
    rfl

/-! ## Strings -/

theorem charAtByte_boundary (hk : k < (codePoints s).length) : charAtByte s (boundary s k) = (codePoints s)[k] := by
  have hpieces : codePoints (s.drop (boundary s k)) = (codePoints s).drop k := stepping.pieces_drop k
  have hne : s.drop (boundary s k) ≠ [] := by
    rw [Ne, List.drop_eq_nil_iff]
    exact Nat.not_le.mpr (boundary_lt hk)
  rw [codePoints, stepping.pieces_eq hne, List.drop_eq_getElem_cons hk] at hpieces
  rw [charAtByte, utf8Decode_length]
  exact (List.cons.inj hpieces).1

/-- The characters of a string. -/
def characters (s : Bytes) : List Value := (codePoints s).map .string

theorem utf8Count_eq (hcount : (codePoints s).length < 2 ^ 31) : asSize (utf8Count s) = (codePoints s).length := by
  have hint := (utf8Count_toInt_iff s).mpr hcount
  have hsize := asSize_of_nonneg (n := utf8Count s) (by omega)
  omega

theorem indexed_string (hcount : (codePoints s).length < 2 ^ 31) : Indexed (.string s) (characters s) := by
  intro i
  rw [handleIndexGet, handleStringIndexGet]
  change ((resolveIndex i (asSize (utf8Count s)) "String index").bind fun idx =>
    .ok (Value.string (charAtByte s (utf8ByteOffset s idx.toInt)))).toOption = _
  rw [utf8Count_eq hcount, resolveIndex_bind (by omega)]
  simp only [Int64.le_iff_toInt_le, Int64.toInt_zero]
  by_cases hi : 0 ≤ i.toInt
  · have hsame := asSize_of_nonneg hi
    rw [if_pos hi, characters, List.getElem?_map]
    by_cases hlt : i.toInt < (codePoints s).length
    · have hget : asSize i < (codePoints s).length := by omega
      rw [if_pos ⟨hi, hlt⟩, ← hsame, utf8ByteOffset_eq, charAtByte_boundary hget, List.getElem?_eq_getElem hget]
      rfl
    · rw [if_neg (by omega), List.getElem?_eq_none (by omega)]
      rfl
  · rw [if_neg (by omega), if_neg hi]

theorem boundary_le (s : Bytes) (k : Nat) : boundary s k ≤ s.length := stepping.offset_le k

theorem stepString_inStep (hsize : s.length < 2 ^ 63) :
    InStep (stepString keyed s) (fun k => Int64.ofNat (boundary s k)) (withIndices keyed (characters s)) := by
  intro k _
  have hbound := boundary_le s k
  rw [withIndices_getElem?, characters, List.getElem?_map, stepString, asSize_ofNat (by omega)]
  dsimp only
  by_cases hk : k < (codePoints s).length
  · have hlt := boundary_lt hk
    rw [if_neg (by omega), utf8CodepointIndex_boundary (Nat.le_of_lt hk), ← Int64.ofNat_add, boundary_succ hk,
      charAtByte_boundary hk, List.getElem?_eq_getElem hk]
    rfl
  · have hend := boundary_end (s := s) (Nat.not_lt.mp hk)
    rw [if_pos (by omega), List.getElem?_eq_none (by omega)]
    rfl

end Steps

/-! ## The whole loop -/

/-- The step of a loop with one variable or with two. -/
def stepOf (keyed : Bool) : Value → Except VmError IterStep := if keyed then handleForIterStepPair else handleForIterStep

/-- Every iterable has elements that its loop is to visit, and its iterator is in step with them. -/
theorem Iterable.inStep {iterable : Value} (hiterable : Iterable iterable) (h : StdHash) (keyed : Bool) :
    ∃ (elems : List (List Value)) (indexAt : Nat → Int64), Visits h keyed iterable elems ∧ indexAt 0 = 0 ∧ ∀ k < 2 ^ 63,
      stepOf keyed (.tuple [iterable, .integer (indexAt k)]) =
        .ok (elems[k]?.map fun values => (values, indexAt (k + 1))) := by
  cases hiterable with
  | range start stop inclusive =>
    refine ⟨_, Int64.ofNat, visits_range h, rfl, fun k hk => ?_⟩
    rw [← stepRange_inStep k hk]
    cases keyed <;> rfl
  | @array elems hsize =>
    refine ⟨_, Int64.ofNat, .array (indexed_array hsize), rfl, fun k hk => ?_⟩
    rw [← stepArray_inStep k hk]
    cases keyed <;> rfl
  | @string s hsize hcount =>
    refine ⟨_, fun k => Int64.ofNat (boundary s k), .string (indexed_string hcount), rfl, fun k hk => ?_⟩
    rw [← stepString_inStep hsize k hk]
    cases keyed <;> rfl
  | @dictionary entries hsize hnodup =>
    refine ⟨_, Int64.ofNat, visits_dictionary h hnodup, rfl, fun k hk => ?_⟩
    rw [← stepDict_inStep k hk]
    cases keyed <;> rfl

/-- What is known of a loop from some round on: it visits what is left in order, all of it unless it
    is ended early, and it ends. -/
structure Visited (elems : List (List Value)) (budget : Int) (fuel : Nat) (run : LoopRun) : Prop where
  start : run.visited <+: elems
  all : run.ending = some .exhausted → run.visited = elems
  length : 0 ≤ budget → (run.visited.length : Int) ≤ budget + 1
  ends : budget < fuel → run.ending ≠ none

section Rounds

variable {keyed : Bool} {limits : LoopLimits} {body : Body} {iterable : Value} {iterableAt : Nat → Value}
  {elems : List (List Value)} {indexAt : Nat → Int64} {counters counters' : LoopCounters}

theorem handleLoop_ok (h : handleLoop limits counters = .ok counters') :
    counters'.totalLoopIterations = counters.totalLoopIterations + 1 ∧
      counters'.totalLoopIterations ≤ limits.maxTotalLoopIterations := by
  rw [handleLoop] at h
  split at h
  · cases h
  · split at h
    · cases h
    next htotal =>
      cases h
      exact ⟨rfl, Int.not_lt.mp htotal⟩

/-- Each round visits the next element. The rounds so far are among all iterations, so that their
    number stays within the budget. -/
theorem rounds_visited (hcap : limits.maxTotalLoopIterations ≤ 10 ^ 18) (hsame : ∀ round, iterableAt round = iterable)
    (hstep : ∀ k < 2 ^ 63, stepOf keyed (.tuple [iterable, .integer (indexAt k)]) =
      .ok (elems[k]?.map fun values => (values, indexAt (k + 1))))
    {fuel k : Nat} (hk : (k : Int) ≤ counters.totalLoopIterations)
    (htotal : counters.totalLoopIterations ≤ limits.maxTotalLoopIterations) :
    Visited (elems.drop k) (limits.maxTotalLoopIterations - counters.totalLoopIterations) fuel
      (rounds keyed limits body iterableAt fuel k (indexAt k) counters) := by
  induction fuel generalizing k counters with
  | zero =>
    refine ⟨List.nil_prefix, fun h => ?_, fun h => ?_, fun h => ?_⟩
    · cases h
    · change (0 : Int) ≤ _
      omega
    · rw [Nat.cast_zero] at h
      omega
  | succ fuel ih =>
    have hthis := hstep k (by omega)
    rw [stepOf] at hthis
    rw [rounds]
    dsimp only
    rw [hsame, hthis]
    by_cases hend : k < elems.length
    · rw [List.getElem?_eq_getElem hend, List.drop_eq_getElem_cons hend]
      dsimp only [Option.map_some]
      have hearly (ending : Ending) (hearly : ending ≠ .exhausted) :
          Visited (elems[k] :: elems.drop (k + 1)) (limits.maxTotalLoopIterations - counters.totalLoopIterations) (fuel + 1)
            ⟨[elems[k]], some ending⟩ := by
        refine ⟨List.prefix_append [elems[k]] _, fun h => ?_, fun h => ?_, fun _ h => ?_⟩
        · exact absurd (Option.some.inj h) hearly
        · change (1 : Int) ≤ _
          omega
        · cases h
      cases hbody : body.run k counters with
      | none => exact hearly .left (by simp)
      | some counters' =>
        have hmono := body.total_le hbody
        dsimp only
        cases hloop : handleLoop limits counters' with
        | error error => exact hearly (.raised error) (by simp)
        | ok counters'' =>
          obtain ⟨htotal', hlimit⟩ := handleLoop_ok hloop
          have hnext : ((k + 1 : Nat) : Int) ≤ counters''.totalLoopIterations := by
            push_cast
            omega
          obtain ⟨hstart, hall, hlength, hends⟩ := ih hnext hlimit
          refine ⟨?_, fun h => ?_, fun h => ?_, fun h => ?_⟩
          · exact List.cons_prefix_cons.mpr ⟨rfl, hstart⟩
          · exact congrArg _ (hall h)
          · have hrest := hlength (by omega)
            dsimp only
            rw [List.length_cons]
            push_cast
            omega
          · exact hends (by push_cast at h; omega)
    · have hnil : elems.drop k = [] := List.drop_eq_nil_of_le (Nat.not_lt.mp hend)
      rw [List.getElem?_eq_none (Nat.not_lt.mp hend), hnil]
      dsimp only [Option.map_none]
      refine ⟨List.nil_prefix, fun _ => rfl, fun h => ?_, fun _ h => ?_⟩
      · change (0 : Int) ≤ _
        omega
      · cases h

/-- A body that takes no back edge of its own. -/
def Body.Plain (body : Body) : Prop := ∀ round counters, body.run round counters = some counters

/-- A loop over no more elements than the budget has left is not ended early. -/
theorem rounds_exhausted (hplain : body.Plain) (hsame : ∀ round, iterableAt round = iterable)
    (hstep : ∀ k < 2 ^ 63, stepOf keyed (.tuple [iterable, .integer (indexAt k)]) =
      .ok (elems[k]?.map fun values => (values, indexAt (k + 1))))
    {fuel k : Nat} (hk : k ≤ elems.length) (hsize : elems.length < 2 ^ 63) (hfuel : elems.length - k < fuel)
    (hwhile : counters.loopIterations + (elems.length - k : Nat) ≤ limits.maxWhileIterations)
    (htotal : counters.totalLoopIterations + (elems.length - k : Nat) ≤ limits.maxTotalLoopIterations) :
    (rounds keyed limits body iterableAt fuel k (indexAt k) counters).ending = some .exhausted := by
  induction fuel generalizing k counters with
  | zero => omega
  | succ fuel ih =>
    have hthis := hstep k (by omega)
    rw [stepOf] at hthis
    rw [rounds]
    dsimp only
    rw [hsame, hthis]
    by_cases hend : k < elems.length
    · rw [List.getElem?_eq_getElem hend]
      dsimp only [Option.map_some]
      rw [hplain]
      dsimp only
      rw [handleLoop, if_neg (by omega), if_neg (by omega)]
      dsimp only
      refine ih hend (by omega) ?_ ?_ <;> dsimp only <;> omega
    · rw [List.getElem?_eq_none (Nat.not_lt.mp hend)]
      rfl

end Rounds

end Luma.Iteration
