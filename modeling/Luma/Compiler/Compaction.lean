-- SUMMARY: The compaction pass of the optimizer: dead bytes out, jumps and source map rewritten.
import Luma.Bytecode.CheckedVerifier

/-! # Compaction

The optimizer passes overwrite what they remove with a sentinel byte. The last step
drops those bytes: it maps every old offset to a new one, rewrites the operands of the
jumps through that map, and carries the entries of the source map over. -/

namespace Luma

open Codec

namespace SourceMap

/-- The binary search of `std::upper_bound`, over the `len` entries from `first`: the
    position of the first entry behind `offset`. -/
def upperBoundFrom (entries : SourceMap) (offset : Nat) : (fuel first len : Nat) → Nat
  | 0, first, _ => first
  | fuel + 1, first, len =>
    if len = 0 then first
    else
      let half := len / 2
      let middle := first + half
      match entries[middle]? with
      | some entry =>
        if offset < entry.1 then upperBoundFrom entries offset fuel first half
        else upperBoundFrom entries offset fuel (middle + 1) (len - half - 1)
      | none => first

def upperBound (entries : SourceMap) (offset : Nat) : Nat :=
  upperBoundFrom entries offset entries.length 0 entries.length

/-- The location of an empty map. -/
def noLocation : SourceLocation where
  fileId := 0
  line := 1
  column := 1
  startLine := 0
  startColumn := 0

/-- The source location of the instruction at `offset`: that of the last entry not
    behind it, or of the first entry when all are. -/
def locationAt (entries : SourceMap) (offset : Nat) : SourceLocation :=
  ((entries[upperBound entries offset - 1]?).map Prod.snd).getD noLocation

end SourceMap

namespace Optimizer

/-- The byte the passes leave in place of what they remove. -/
def deadByte : UInt8 := 0xFF

def isDeadByte (byte : UInt8) : Bool := byte == deadByte

/-- `static_cast<std::uint32_t>` of a difference of offsets. -/
def castU32 (difference : Int) : Nat := (difference % 4294967296).toNat

/-- Overwrite the four bytes at `offset` with `value`. -/
def patchU32Be (code : Bytes) (offset value : Nat) : Bytes :=
  code.take offset ++ writeIntBe 4 value ++ code.drop (offset + 4)

/-- The walk that marks the dead bytes, from offset `i`. -/
def markDead (code : Bytes) : (fuel i : Nat) → (dead : List Bool) → List Bool
  | 0, _, dead => dead
  | fuel + 1, i, dead =>
    if i < code.length then
      if isDeadByte (byteAt code i) then markDead code fuel (i + 1) (dead.set i true)
      else markDead code fuel (i + instructionSize code i) dead
    else dead

/-- The new offset of every old one, the end of the code included. -/
def offsetMapFrom : (dead : List Bool) → (newOffset : Nat) → List Nat
  | [], newOffset => [newOffset]
  | d :: dead, newOffset =>
    newOffset :: offsetMapFrom dead (if d then newOffset else newOffset + 1)

/-- The operand a jump at `i` gets in place of `oldOffset`, if it gets one. -/
def newOperand (offsetMap : List Nat) (size : Nat) (op : Op) (i oldOffset : Nat) : Option Nat :=
  let oldAfter := i + 5
  if op.isForwardJump then
    let oldTarget := oldAfter + oldOffset
    if oldTarget ≤ size ∧ oldAfter < offsetMap.length ∧ oldTarget < offsetMap.length then
      some (castU32 ((offsetMap.getD oldTarget 0 : Int) - offsetMap.getD oldAfter 0))
    else none
  else if op = .loop then
    let oldTarget := oldAfter - oldOffset
    -- A difference below zero wraps to an offset far behind every map.
    if oldOffset ≤ oldAfter ∧ oldAfter < offsetMap.length ∧ oldTarget < offsetMap.length then
      some (castU32 ((offsetMap.getD oldAfter 0 : Int) - offsetMap.getD oldTarget 0))
    else none
  else none

/-- Rewrite the operand of the instruction at `i`. -/
def fixJump (offsetMap : List Nat) (code : Bytes) (i : Nat) : Bytes :=
  match Op.ofByte (byteAt code i) with
  | some op =>
    match newOperand offsetMap code.length op i (readU32At code (i + 1)) with
    | some operand => patchU32Be code (i + 1) operand
    | none => code
  | none => code

/-- The walk that rewrites the jumps, from offset `i`. -/
def fixJumps (offsetMap : List Nat) (dead : List Bool) : (fuel i : Nat) → (code : Bytes) → Bytes
  | 0, _, code => code
  | fuel + 1, i, code =>
    if i < code.length then
      if dead.getD i false then fixJumps offsetMap dead fuel (i + 1) code
      else
        let fixed := fixJump offsetMap code i
        fixJumps offsetMap dead fuel (i + instructionSize fixed i) fixed
    else code

/-- The bytes that are not dead. -/
def keepLive : (dead : List Bool) → (code : Bytes) → Bytes
  | d :: dead, byte :: code => if d then keepLive dead code else byte :: keepLive dead code
  | _, _ => []

/-- The entries of live bytes, at their new offsets. -/
def moveEntries (offsetMap : List Nat) (dead : List Bool) (newSize : Nat) (entries : SourceMap) :
    SourceMap :=
  entries.filterMap fun entry =>
    if entry.1 < offsetMap.length ∧ offsetMap.getD entry.1 0 < newSize ∧
        entry.1 < dead.length ∧ dead.getD entry.1 false = false then
      some (offsetMap.getD entry.1 0, entry.2)
    else none

/-- Drop the dead bytes of a chunk: how many there were, and the chunk without them. -/
def compact (chunk : Chunk) : Nat × Chunk :=
  let size := chunk.code.length
  let dead := markDead chunk.code size 0 (List.replicate size false)
  let offsetMap := offsetMapFrom dead 0
  let newOffset := offsetMap.getD size 0
  let eliminated := size - newOffset
  if eliminated = 0 then (0, chunk)
  else
    let fixed := fixJumps offsetMap dead size 0 chunk.code
    (eliminated,
      { chunk with
        code := keepLive dead fixed
        sourceMap := moveEntries offsetMap dead newOffset chunk.sourceMap })

-- The equations of the definitions are derived here, once for all proofs.
section
attribute [local simp] SourceMap.upperBoundFrom SourceMap.locationAt markDead offsetMapFrom
  newOperand fixJump fixJumps keepLive
end

end Optimizer

end Luma
