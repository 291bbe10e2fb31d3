-- SUMMARY: The structural hash of values.
import Luma.Value.Value

/-! # Structural Hashing

Scalars hash by canonical representation, containers by combining the hashes of
their parts, down to a fixed depth below which only the type counts. Hashing of
builtin types is the standard library's and stays a parameter. -/

namespace Luma

open Codec

/-- The hash functions of the standard library on builtin types. -/
structure StdHash where
  bool : Bool → UInt64
  int : Nat → UInt64
  size : Nat → UInt64
  int64 : Int64 → UInt64
  uint64 : UInt64 → UInt64
  string : Bytes → UInt64

/-- Depth below which values are hashed by type only. -/
def maxHashDepth : Nat := 8

/-- Golden ratio constant of the mixing function. -/
def hashMix : UInt64 := 0x9e3779b97f4a7c15

def hashCombine (seed v : UInt64) : UInt64 :=
  seed ^^^ (v + hashMix + (seed <<< 6) + (seed >>> 2))

/-- The bit pattern of the quiet NaN. -/
def quietNanBits : UInt64 := 0x7FF8000000000000

/-- The bits a double is hashed by: one pattern for every NaN, one for both zeros. -/
def canonicalBits (d : Binary64) : UInt64 :=
  if d.isNan then quietNanBits else if d.isZero then 0 else d.bits

namespace StdHash

variable (h : StdHash)

def hashDouble (d : Binary64) : UInt64 := h.uint64 (canonicalBits d)

/-- The hash of a value hashed by its own representation. -/
def hashScalar : Value → Option UInt64
  | .null => some 0
  | .bool b => some (h.bool b)
  | .integer n => some (h.hashDouble (Binary64.ofInt n.toInt))
  | .number x => some (h.hashDouble x)
  | .string s => some (h.string s)
  | .decimal d => some (h.string d.canonical.toText)
  | _ => none

/-- Fold the hashes of a sequence into a seed, in order. -/
def combineAll (seed : UInt64) (hashes : List UInt64) : UInt64 := hashes.foldl hashCombine seed

/-- Combine hashes regardless of order. -/
def xorAll (hashes : List UInt64) : UInt64 := hashes.foldl (· ^^^ ·) 0

/-- The hash of a value with `remaining` levels of depth left. -/
def hashAt : (remaining : Nat) → Value → UInt64
  | 0, v => (h.hashScalar v).getD (h.int v.valueType)
  | remaining + 1, v =>
    match h.hashScalar v with
    | some hash => hash
    | none =>
      let typeSeed := h.int v.valueType
      match v with
      | .array elements | .tuple elements | .queue elements | .stack elements =>
        combineAll (hashCombine typeSeed (h.size elements.length)) (elements.map (hashAt remaining))
      | .dictionary entries =>
        let entryXor := xorAll (entries.map fun entry =>
          hashCombine (h.string entry.1) (hashAt remaining entry.2))
        hashCombine typeSeed (hashCombine (h.size entries.length) entryXor)
      | .result isSuccess inner _ _ =>
        hashCombine (hashCombine typeSeed (h.bool isSuccess)) (hashAt remaining inner)
      | .record typeName fields =>
        combineAll (hashCombine typeSeed (h.string typeName))
          (fields.flatMap fun field => [h.string field.1, hashAt remaining field.2])
      | .range start stop inclusive =>
        combineAll typeSeed [h.int64 start, h.int64 stop, h.bool inclusive]
      | .choice typeName variant fields =>
        combineAll (hashCombine (hashCombine typeSeed (h.string typeName)) (h.string variant))
          (fields.map (hashAt remaining))
      | .set elements =>
        hashCombine typeSeed (hashCombine (h.size elements.length)
          (xorAll (elements.map (hashAt remaining))))
      | _ => typeSeed

/-- The hash used by sets and hash indexes. -/
def valueHash (v : Value) : UInt64 := h.hashAt maxHashDepth v

end StdHash

end Luma
