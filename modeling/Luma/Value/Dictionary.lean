-- SUMMARY: Dictionaries with their lazily built hash index.
import Luma.Library.OrderedMap
import Luma.Value.Equality

/-! # Dictionaries

A dictionary stores its entries in insertion order. Lookups scan a small dictionary
and consult a hash index in a larger one; the index is built by the first lookup
that wants it and dropped when an entry is erased. A lookup may therefore change
the representation, so it returns the dictionary it leaves behind. -/

namespace Luma

open Codec

variable {V : Type}

/-! ## The index -/

/-- An unordered map from keys to positions. -/
abbrev IndexMap := List (Bytes × Nat)

namespace IndexMap

def find (index : IndexMap) (key : Bytes) : Option Nat := OrderedMap.lookup key index

/-- Insert a key unless it is present. -/
def emplace (index : IndexMap) (key : Bytes) (position : Nat) : IndexMap :=
  match index.find key with
  | some _ => index
  | none => index ++ [(key, position)]

end IndexMap

/-- A hash index that is either current or stale. A stale one keeps its contents. -/
structure LazyHashIndex where
  index : IndexMap := []
  isBuilt : Bool := false
  deriving DecidableEq, Repr

namespace LazyHashIndex

def isStale (idx : LazyHashIndex) : Bool := !idx.isBuilt

def invalidate (idx : LazyHashIndex) : LazyHashIndex := { idx with isBuilt := false }

/-- Build the index if it is stale. -/
def ensureBuilt (idx : LazyHashIndex) (build : IndexMap → IndexMap) : LazyHashIndex :=
  if idx.isBuilt then idx else { index := build [], isBuilt := true }

def find (idx : LazyHashIndex) (key : Bytes) (build : IndexMap → IndexMap) :
    Option Nat × LazyHashIndex :=
  let idx := idx.ensureBuilt build
  (idx.index.find key, idx)

def insert (idx : LazyHashIndex) (key : Bytes) (position : Nat) :
    Except ErrorMessage LazyHashIndex :=
  if !idx.isBuilt then
    .error "LazyHashIndex::insert() called on stale index; call rebuild() first"
  else .ok { idx with index := idx.index.emplace key position }

/-- Replace the index by one built afresh. -/
def rebuild (build : IndexMap → IndexMap) : LazyHashIndex := { index := build [], isBuilt := true }

end LazyHashIndex

namespace EntryIndex

/-- Dictionaries up to this size are scanned unless they have an index already. -/
def linearScanThreshold : Nat := 8

/-- Add the positions of the entries from `start` on. -/
def buildFrom (start : Nat) : List (Bytes × V) → IndexMap → IndexMap
  | [], index => index
  | entry :: entries, index => buildFrom (start + 1) entries (index.emplace entry.1 start)

def build (entries : List (Bytes × V)) (index : IndexMap) : IndexMap := buildFrom 0 entries index

/-- The position of a key. -/
def find (idx : LazyHashIndex) (entries : List (Bytes × V)) (key : Bytes) :
    Option Nat × LazyHashIndex :=
  if idx.isStale && decide (entries.length ≤ linearScanThreshold) then
    (OrderedMap.position key entries, idx)
  else idx.find key (build entries)

def rebuild (entries : List (Bytes × V)) : LazyHashIndex := LazyHashIndex.rebuild (build entries)

/-- Write at the position a current index knows, or else at the first entry a scan
    finds; a key that is not present is appended. -/
def set (idx : LazyHashIndex) (entries : List (Bytes × V)) (key : Bytes) (value : V) :
    Except ErrorMessage (List (Bytes × V) × LazyHashIndex) :=
  if idx.isBuilt then
    match idx.index.find key with
    | some position => .ok (entries.modify position fun entry => (entry.1, value), idx)
    | none => do
      let idx ← idx.insert key entries.length
      return (entries ++ [(key, value)], idx)
  else .ok (OrderedMap.insert key value entries, idx)

def erase (idx : LazyHashIndex) (entries : List (Bytes × V)) (key : Bytes) :
    List (Bytes × V) × LazyHashIndex :=
  (OrderedMap.remove key entries, if idx.isBuilt then idx.invalidate else idx)

end EntryIndex

/-! ## Dictionaries -/

structure DictionaryValue (V : Type) where
  entries : List (Bytes × V) := []
  index : LazyHashIndex := {}
  deriving DecidableEq, Repr

namespace DictionaryValue

/-- Where the value of a key is stored. -/
def find (dict : DictionaryValue V) (key : Bytes) : Option Nat × DictionaryValue V :=
  let (found, index) := EntryIndex.find dict.index dict.entries key
  (found, { dict with index })

/-- Read the value a lookup found. -/
def valueAt (dict : DictionaryValue V) (position : Nat) : Option V :=
  dict.entries[position]?.map Prod.snd

/-- Overwrite the value a lookup found. -/
def assign (dict : DictionaryValue V) (position : Nat) (value : V) : DictionaryValue V :=
  { dict with entries := dict.entries.modify position fun entry => (entry.1, value) }

/-- Look up the value of a key. -/
def get (dict : DictionaryValue V) (key : Bytes) : Option V × DictionaryValue V :=
  let (found, dict) := dict.find key
  (found.bind dict.valueAt, dict)

def rebuildIndex (dict : DictionaryValue V) : DictionaryValue V :=
  { dict with index := EntryIndex.rebuild dict.entries }

def set (dict : DictionaryValue V) (key : Bytes) (value : V) :
    Except ErrorMessage (DictionaryValue V) := do
  let (entries, index) ← EntryIndex.set dict.index dict.entries key value
  return { entries, index }

def erase (dict : DictionaryValue V) (key : Bytes) : DictionaryValue V :=
  let (entries, index) := EntryIndex.erase dict.index dict.entries key
  { entries, index }

def length (dict : DictionaryValue V) : Nat := dict.entries.length

/-- The copy that natives modify: entries are copied and indexed. -/
def cloneDict (src : DictionaryValue V) : DictionaryValue V :=
  rebuildIndex { entries := src.entries }

/-- The copy made before a shared dictionary is written through a path. -/
def makeExclusive (src : DictionaryValue V) : DictionaryValue V := { entries := src.entries }

def deepCopyDictionary (deepCopy : V → V) (dictionary : DictionaryValue V) : DictionaryValue V :=
  { entries := dictionary.entries.map fun entry => (entry.1, deepCopy entry.2) }

/-- Widen the values of a dictionary; nothing is copied when no value changes. -/
def widen (widenImpl : V → Option V) (dictionary : DictionaryValue V) :
    Option (DictionaryValue V) :=
  if dictionary.entries.any fun entry => (widenImpl entry.2).isSome then
    some { entries := dictionary.entries.map fun entry =>
      (entry.1, (widenImpl entry.2).getD entry.2) }
  else none

end DictionaryValue

/-- What a dictionary operation asks of a value: its text if it is a string, and
    the name of its type in messages. -/
structure KeyView (V : Type) where
  asString : V → Option Bytes
  displayTypeName : V → String

/-- The characters of a byte string. -/
def textOf (s : Bytes) : String := String.ofList (s.map fun byte => Char.ofNat byte.toNat)

def Value.displayTypeName : Value → String
  | .null => "none"
  | .bool _ => "boolean"
  | .integer _ => "integer"
  | .number _ => "number"
  | .string _ => "string"
  | .array _ => "array"
  | .dictionary _ => "dictionary"
  | .tuple _ => "tuple"
  | .result .. => "result"
  | .record typeName _ => textOf typeName
  | .range .. => "range"
  | .choice typeName _ _ => textOf typeName
  | .function _ => "function"
  | .nativeFunction _ => "function"
  | .task _ => "task"
  | .channel _ => "channel"
  | .socket _ => "socket"
  | .queue _ => "queue"
  | .stack _ => "stack"
  | .set _ => "set"
  | .xml _ => "xml"
  | .keyValueStore _ => "key_value_store"
  | .reference _ => "reference"
  | .decimal _ => "decimal"

def Value.keyView : KeyView Value where
  asString
    | .string s => some s
    | _ => none
  displayTypeName := Value.displayTypeName

def ensureDictionaryCapacity (maxDictionarySize currentSize adding : Nat) (functionName : String) :
    Except ErrorMessage Unit :=
  if maxDictionarySize < adding ∨ maxDictionarySize - adding < currentSize then
    .error s!"{functionName}: result exceeds maximum dictionary size"
  else .ok ()

/-- Pair up the popped keys and values of a dictionary literal. -/
def dictionaryPairs (view : KeyView V) : List V → Except ErrorMessage (List (Bytes × V))
  | key :: value :: rest =>
    match view.asString key with
    | none => .error s!"dictionary key must be a string, got '{view.displayTypeName key}'"
    | some text => do
      let pairs ← dictionaryPairs view rest
      return (text, value) :: pairs
  | _ => .ok []

/-- The MakeDict instruction, given the keys and values it popped. The pairs become
    the entries as they are. -/
def handleMakeDict (view : KeyView V) (maxDictionarySize : Nat) (popped : List V) :
    Except ErrorMessage (DictionaryValue V) := do
  ensureDictionaryCapacity maxDictionarySize 0 (popped.length / 2) "dictionary literal"
  let pairs ← dictionaryPairs view popped
  return { entries := pairs }

/-- The IndexSet instruction on a dictionary. The index a lookup built stays even
    when the instruction fails. -/
def handleDictionaryIndexSet (view : KeyView V) (maxDictionarySize : Nat)
    (dict : DictionaryValue V) (index value : V) : Except ErrorMessage Unit × DictionaryValue V :=
  match view.asString index with
  | none =>
    (.error s!"dictionary index must be a string, got '{view.displayTypeName index}'", dict)
  | some key =>
    let (existing, dict) := dict.find key
    match existing with
    | some position => (.ok (), dict.assign position value)
    | none =>
      match ensureDictionaryCapacity maxDictionarySize dict.length 1
          "Dictionary index assignment" with
      | .error e => (.error e, dict)
      | .ok () =>
        match dict.set key value with
        | .error e => (.error e, dict)
        | .ok dict => (.ok (), dict)

end Luma
