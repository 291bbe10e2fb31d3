-- SUMMARY: The incremental decoder of a chunked HTTP body, with the arithmetic of size_t.
import Mathlib.Data.List.DropRight
import Luma.Library.BigEndian
import Luma.Library.Scanning

/-! # The chunked body decoder

The decoder is handed the whole response each time more of it has arrived, and goes on from
where it stopped. Positions and sizes are numbers of 64 bits. -/

namespace Luma.Http

open Codec

/-- The largest `size_t`, plus one. -/
def sizeRange : Nat := 2 ^ 64

def sizeAdd (a b : Nat) : Nat := (a + b) % sizeRange
def sizeSub (a b : Nat) : Nat := (a + (sizeRange - b)) % sizeRange

/-- `"\r\n"`. -/
def crlf : Bytes := [13, 10]

/-- `data.find("\r\n", pos)`. -/
def findCrlf (data : Bytes) (pos : Nat) : Option Nat :=
  (Scanning.splitAtMarker crlf (data.drop pos)).map fun found => pos + found.1.length

/-- `data.substr(pos, count)`. -/
def slice (data : Bytes) (pos count : Nat) : Bytes := (data.drop pos).take count

/-! ## Size fields -/

def hexDigit (c : UInt8) : Option Nat :=
  if 48 ≤ c ∧ c ≤ 57 then some (c.toNat - 48)
  else if 65 ≤ c ∧ c ≤ 70 then some (c.toNat - 55)
  else if 97 ≤ c ∧ c ≤ 102 then some (c.toNat - 87)
  else none

def hexValue (digits : Bytes) : Nat := digits.foldl (fun value c => value * 16 + (hexDigit c).getD 0) 0

/-- `std::from_chars` for a `uint64_t` in base 16: how much of the text it reads, and the
    number, if there is one and it fits. -/
def fromCharsHex (text : Bytes) : Nat × Option Nat :=
  let digits := text.takeWhile fun c => (hexDigit c).isSome
  (digits.length, if digits ≠ [] ∧ hexValue digits < sizeRange then some (hexValue digits) else none)

def isPadding (c : UInt8) : Bool := c = 32 || c = 9

/-- The size field of a line: what is before the chunk extensions, without the white space
    at its end. -/
def sizeField (line : Bytes) : Bytes := (line.takeWhile (· ≠ 59)).rdropWhile isPadding

/-- The size of a chunk, if the whole field is a number. -/
def chunkSize (field : Bytes) : Option Nat :=
  let parsed := fromCharsHex field
  if field.isEmpty ∨ parsed.1 ≠ field.length then none else parsed.2

/-! ## The decoder -/

inductive Status where
  | needMore
  | complete
  | malformed
  | tooLarge
  deriving DecidableEq

structure ChunkedBodyDecoder where
  pos : Nat
  maxBodySize : Nat
  body : Bytes
  status : Status
  deriving DecidableEq

/-- The decoder as it is constructed. -/
def ChunkedBodyDecoder.new (bodyStart maxBodySize : Nat) : ChunkedBodyDecoder where
  pos := bodyStart
  maxBodySize := maxBodySize
  body := []
  status := .needMore

/-- `k_max_chunk_header_line`. -/
def maxChunkHeaderLine : Nat := 4096

/-- How one round of the loop ends: with a `break`, or with the next round. -/
inductive Round where
  | stop (decoder : ChunkedBodyDecoder)
  | next (decoder : ChunkedBodyDecoder)

namespace ChunkedBodyDecoder

/-- One round of the loop of `feed`. -/
def round (data : Bytes) (decoder : ChunkedBodyDecoder) : Round :=
  match findCrlf data decoder.pos with
  | none =>
    if sizeSub data.length (min decoder.pos data.length) > maxChunkHeaderLine then
      .stop { decoder with status := .malformed }
    else .stop decoder
  | some lineEnd =>
    match chunkSize (sizeField (slice data decoder.pos (sizeSub lineEnd decoder.pos))) with
    | none => .stop { decoder with status := .malformed }
    | some size =>
      if size = 0 then .stop { decoder with status := .complete }
      else if size > sizeSub decoder.maxBodySize decoder.body.length then .stop { decoder with status := .tooLarge }
      else
        let dataStart := sizeAdd lineEnd 2
        if data.length < dataStart ∨ sizeSub data.length dataStart < sizeAdd size 2 then .stop decoder
        else if slice data (sizeAdd dataStart size) 2 ≠ crlf then .stop { decoder with status := .malformed }
        else .next { decoder with
          body := decoder.body ++ slice data dataStart size
          pos := sizeAdd (sizeAdd dataStart size) 2 }

/-- The loop of `feed`, for a number of rounds. -/
def loop (data : Bytes) : Nat → ChunkedBodyDecoder → Option ChunkedBodyDecoder
  | 0, _ => none
  | rounds + 1, decoder =>
    if decoder.status ≠ .needMore then some decoder
    else
      match round data decoder with
      | .stop decoder => some decoder
      | .next decoder => loop data rounds decoder

/-- The decoder after the response so far; nothing if the loop makes more rounds than the
    response has bytes. -/
def feed (data : Bytes) (decoder : ChunkedBodyDecoder) : Option ChunkedBodyDecoder := loop data (data.length + 1) decoder

/-- The reads of `read_response_chunks`: the response so far is fed, and again with each
    piece that arrives. -/
def feedPieces (data : Bytes) : List Bytes → ChunkedBodyDecoder → Option ChunkedBodyDecoder
  | [], decoder => feed data decoder
  | piece :: pieces, decoder => (feed data decoder).bind (feedPieces (data ++ piece) pieces)

end ChunkedBodyDecoder

end Luma.Http
