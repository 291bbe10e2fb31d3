-- SUMMARY: The iterator protocol of for loops, indexing and containment.
import Luma.Library.Scanning
import Luma.Stdlib.Utf8Codec
import Luma.Types.TypeInfo
import Luma.Value.DictionaryLaws
import Luma.Vm.IntegerArithmetic

/-! # Iteration

A for loop keeps a pair of the iterable and an index on the stack. What the index means
depends on the iterable: an offset from the start of a range, the position of an element
or an entry, or a byte position in a string. Indexing and containment count on their own. -/

namespace Luma.Iteration

open Codec Utf8Codec

/-! ## Errors -/

inductive VmError where
  | invalidIteratorState
  | cannotIterateOver (type : String)
  | cannotIndexInto (type : String)
  | indexMustBeInteger (context type : String)
  | indexOutOfBounds (context : String) (idx : Int64) (size : Nat)
  | dictIndexMustBeString (type : String)
  | keyNotFound (key : Bytes)
  | inRangeRequiresInteger (type : String)
  | inDictRequiresString (type : String)
  | inStringRequiresString (type : String)
  | nestedTooDeep (message : ErrorMessage)
  | loopExceededMaxIterations (max : Int)
  | loopExceededTotalIterations (max : Int)

def VmError.message : VmError → Bytes
  | .invalidIteratorState => bytes "invalid iterator state"
  | .cannotIterateOver type => bytes s!"cannot iterate over '{type}'"
  | .cannotIndexInto type => bytes s!"cannot index into '{type}'"
  | .indexMustBeInteger context type => bytes s!"{context} must be an integer, got '{type}'"
  | .indexOutOfBounds context idx size => bytes s!"{context} {idx} out of bounds (size {size})"
  | .dictIndexMustBeString type => bytes s!"dictionary index must be a string, got '{type}'"
  | .keyNotFound key => bytes "key '" ++ key ++ bytes "' not found in dictionary"
  | .inRangeRequiresInteger type => bytes s!"'in' on a range requires an integer, got '{type}'"
  | .inDictRequiresString type => bytes s!"'in' on dictionary requires a string key, got '{type}'"
  | .inStringRequiresString type => bytes s!"'in' on string requires a string element, got '{type}'"
  | .nestedTooDeep message => bytes message
  | .loopExceededMaxIterations max => bytes s!"loop exceeded maximum iteration count ({max})"
  | .loopExceededTotalIterations max => bytes s!"loops exceeded the total iteration budget ({max})"

def VmError.hint : VmError → String
  | .indexMustBeInteger .. => "use Converter.to_integer() to convert the index"
  | .dictIndexMustBeString _ => "use Converter.to_string() to convert the index"
  | .loopExceededTotalIterations _ =>
    "raise LUMA_LIMIT_MAX_TOTAL_LOOP_ITERATIONS if this many loop iterations are intended"
  | _ => ""

/-! ## The steps of the iterators -/

/-- `static_cast<std::size_t>(idx)` -/
def asSize (idx : Int64) : Nat := idx.toUInt64.toNat

/-- What a step pushes below its flag, and the next index. `none` is the flag `false`. -/
abbrev IterStep := Option (List Value × Int64)

/-- A loop with one variable is given values, one with two is given values and keys. -/
def pushed (keyed : Bool) (value key : Value) : List Value := if keyed then [value, key] else [value]

def rangeInBounds (stop : Int64) (inclusive : Bool) (n : Int64) : Bool := if inclusive then n ≤ stop else n < stop

section Steps

variable (keyed : Bool)

def stepRange (start stop : Int64) (inclusive : Bool) (idx : Int64) : IterStep :=
  if wouldOverflowAdd start idx then none
  else
    let current := start + idx
    if !rangeInBounds stop inclusive current then none
    else some (pushed keyed (.integer current) (.integer idx), idx + 1)

def stepArray (elems : List Value) (idx : Int64) : IterStep :=
  match elems[asSize idx]? with
  | none => none
  | some elem => some (pushed keyed elem (.integer idx), idx + 1)

/-- `utf8_char_at_byte` -/
def charAtByte (s : Bytes) (pos : Nat) : Bytes := (s.drop pos).take (utf8Decode s pos).length

def stepString (s : Bytes) (idx : Int64) : IterStep :=
  let bytePos := asSize idx
  if bytePos ≥ s.length then none
  else
    some (pushed keyed (.string (charAtByte s bytePos)) (.integer (Int64.ofNat (utf8CodepointIndex s bytePos))),
      idx + Int64.ofNat (utf8Decode s bytePos).length)

/-- A dictionary gives its keys to a loop with one variable. -/
def stepDict (entries : List (Bytes × Value)) (idx : Int64) : IterStep :=
  match entries[asSize idx]? with
  | none => none
  | some entry => some (if keyed then [entry.2, .string entry.1] else [.string entry.1], idx + 1)

end Steps

def iterStepRange := stepRange false
def iterStepArray := stepArray false
def iterStepString := stepString false
def iterStepDict := stepDict false
def iterStepPairRange := stepRange true
def iterStepPairArray := stepArray true
def iterStepPairString := stepString true
def iterStepPairDict := stepDict true

/-- The step of each kind of iterable. -/
structure StepFunctions where
  range : Int64 → Int64 → Bool → Int64 → IterStep
  array : List Value → Int64 → IterStep
  dict : List (Bytes × Value) → Int64 → IterStep
  string : Bytes → Int64 → IterStep

def dispatchIterStep (steps : StepFunctions) : Value → Except VmError IterStep
  | .tuple (iterable :: .integer idx :: _) =>
    match iterable with
    | .range start stop inclusive => .ok (steps.range start stop inclusive idx)
    | .array elems => .ok (steps.array elems idx)
    | .dictionary entries => .ok (steps.dict entries idx)
    | .string s => .ok (steps.string s idx)
    | other => .error (.cannotIterateOver other.displayTypeName)
  | _ => .error .invalidIteratorState

def handleForIterStep : Value → Except VmError IterStep :=
  dispatchIterStep ⟨iterStepRange, iterStepArray, iterStepDict, iterStepString⟩

def handleForIterStepPair : Value → Except VmError IterStep :=
  dispatchIterStep ⟨iterStepPairRange, iterStepPairArray, iterStepPairDict, iterStepPairString⟩

/-! ## Indexing -/

def isIndexOutOfBounds (index : Int64) (size : Nat) : Bool := index < 0 || index ≥ Int64.ofNat size

def resolveIndex (idx : Int64) (size : Nat) (context : String) : Except VmError Int64 :=
  if isIndexOutOfBounds idx size then .error (.indexOutOfBounds context idx size) else .ok idx

def normalizeIndex (index size : Int64) : Int64 := if index < 0 then index + size else index

def computeSliceRange (rawStart rawEnd size : Int64) (inclusive : Bool) : Int64 × Int64 :=
  let start := normalizeIndex rawStart size
  let stop := normalizeIndex rawEnd size
  let stop := if inclusive && stop < Int64.maxValue then stop + 1 else stop
  (max start 0, if stop < 0 then 0 else if size < stop then size else stop)

def slice {α : Type} (elems : List α) (start stop : Nat) : List α := (elems.drop start).take (stop - start)

def elementAtIndex (elements : List Value) (index : Value) (context : String) : Except VmError Value :=
  match index with
  | .integer n => do
    let idx ← resolveIndex n elements.length context
    return elements.getD (asSize idx) .null
  | other => .error (.indexMustBeInteger context other.displayTypeName)

def handleArrayIndexGet (elems : List Value) (index : Value) : Except VmError Value :=
  match index with
  | .range start stop inclusive =>
    let (start, stop) := computeSliceRange start stop (Int64.ofNat elems.length) inclusive
    .ok (.array (if start < stop then slice elems (asSize start) (asSize stop) else []))
  | index => elementAtIndex elems index "Index"

/-- Looking up may build the index of the dictionary, which is a cache. -/
def findEntry (entries : List (Bytes × Value)) (key : Bytes) : Option Value :=
  (DictionaryValue.get { entries := entries : DictionaryValue Value } key).1

def handleDictIndexGet (entries : List (Bytes × Value)) (index : Value) : Except VmError Value :=
  match index with
  | .string key =>
    match findEntry entries key with
    | none => .error (.keyNotFound key)
    | some value => .ok value
  | other => .error (.dictIndexMustBeString other.displayTypeName)

def handleStringIndexGet (s : Bytes) (index : Value) : Except VmError Value :=
  match index with
  | .range start stop inclusive =>
    let (start, stop) := computeSliceRange start stop (utf8Count s) inclusive
    .ok (.string (if start ≥ stop then [] else slice s (utf8ByteOffset s start.toInt) (utf8ByteOffset s stop.toInt)))
  | .integer n => do
    let idx ← resolveIndex n (asSize (utf8Count s)) "String index"
    return .string (charAtByte s (utf8ByteOffset s idx.toInt))
  | other => .error (.indexMustBeInteger "String index" other.displayTypeName)

def handleIndexGet (container index : Value) : Except VmError Value :=
  match container with
  | .array elems => handleArrayIndexGet elems index
  | .dictionary entries => handleDictIndexGet entries index
  | .string s => handleStringIndexGet s index
  | .tuple elements => elementAtIndex elements index "Tuple index"
  | .choice _ _ fields => elementAtIndex fields index "Choice field index"
  | other => .error (.cannotIndexInto other.displayTypeName)

/-! ## Containment -/

/-- `std::ranges::any_of` with an equality that may raise. -/
def anyEquals (h : StdHash) (element : Value) : List Value → Except VmError Bool
  | [] => .ok false
  | elem :: elems =>
    match Value.equals h elem element with
    | .error message => .error (.nestedTooDeep message)
    | .ok true => .ok true
    | .ok false => anyEquals h element elems

def handleContains (h : StdHash) (element container : Value) : Except VmError Bool :=
  match container with
  | .range start stop inclusive =>
    match element with
    | .integer n => .ok (n ≥ start && rangeInBounds stop inclusive n)
    | other => .error (.inRangeRequiresInteger other.displayTypeName)
  | .array elems => anyEquals h element elems
  | .dictionary entries =>
    match element with
    | .string key => .ok (findEntry entries key).isSome
    | other => .error (.inDictRequiresString other.displayTypeName)
  | .string s =>
    match element with
    | .string text => .ok (Scanning.splitAtMarker text s).isSome
    | other => .error (.inStringRequiresString other.displayTypeName)
  | _ => .ok false

/-! ## The loop -/

/-- Limits on the back edges taken. -/
structure LoopLimits where
  maxWhileIterations : Int
  maxTotalLoopIterations : Int

structure LoopCounters where
  loopIterations : Int
  totalLoopIterations : Int

/-- The iterator state, and the counters of a loop that begins. -/
def handleForIterInit (iterable : Value) (counters : LoopCounters) : Value × LoopCounters :=
  (.tuple [iterable, .integer 0], { counters with loopIterations := 0 })

/-- The budget of a back edge. -/
def handleLoop (limits : LoopLimits) (counters : LoopCounters) : Except VmError LoopCounters :=
  if counters.loopIterations + 1 > limits.maxWhileIterations then
    .error (.loopExceededMaxIterations limits.maxWhileIterations)
  else if counters.totalLoopIterations + 1 > limits.maxTotalLoopIterations then
    .error (.loopExceededTotalIterations limits.maxTotalLoopIterations)
  else .ok ⟨counters.loopIterations + 1, counters.totalLoopIterations + 1⟩

/-- The body of a loop: what each round makes of the counters, unless it leaves the loop. The
    counter of all iterations is never reset. -/
structure Body where
  run : (round : Nat) → LoopCounters → Option LoopCounters
  total_le : ∀ {round counters counters'}, run round counters = some counters' →
    counters.totalLoopIterations ≤ counters'.totalLoopIterations

inductive Ending where
  | exhausted
  | left
  | raised (error : VmError)

/-- What was pushed in each round, and how the loop ended if it has. -/
structure LoopRun where
  visited : List (List Value)
  ending : Option Ending

section Loop

variable (keyed : Bool) (limits : LoopLimits) (body : Body) (iterableAt : Nat → Value)

/-- The rounds of a loop, where `iterableAt` is the iterable as a round finds it. -/
def rounds : (fuel round : Nat) → Int64 → LoopCounters → LoopRun
  | 0, _, _, _ => ⟨[], none⟩
  | fuel + 1, round, idx, counters =>
    let step := if keyed then handleForIterStepPair else handleForIterStep
    match step (.tuple [iterableAt round, .integer idx]) with
    | .error error => ⟨[], some (.raised error)⟩
    | .ok none => ⟨[], some .exhausted⟩
    | .ok (some (values, next)) =>
      match body.run round counters with
      | none => ⟨[values], some .left⟩
      | some counters =>
        match handleLoop limits counters with
        | .error error => ⟨[values], some (.raised error)⟩
        | .ok counters =>
          let rest := rounds fuel (round + 1) next counters
          ⟨values :: rest.visited, rest.ending⟩

def forLoop (fuel : Nat) (counters : LoopCounters) : LoopRun :=
  rounds keyed limits body iterableAt fuel 0 0 (handleForIterInit (iterableAt 0) counters).2

end Loop

end Luma.Iteration
