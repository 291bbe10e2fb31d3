-- SUMMARY: Content-Length framing, the transport over its two read primitives, and buffered reads.
import Luma.Library.BigEndian
import Luma.Library.Simulation
import Mathlib.Data.Nat.Digits.Defs

/-! # The Protocol Transport

Messages are framed by a header with the length of the body. The transport reads them
by lines and by counts; a buffered transport has both on top of raw reads that deliver
a few bytes at a time. -/

namespace Luma.Protocol

open Codec

/-! ## Message frames -/

/-- `'\r'`. -/
def carriageReturn : UInt8 := 13

/-- `'\n'`. -/
def newline : UInt8 := 10

def isDigit (c : UInt8) : Bool := decide (48 ≤ c) && decide (c ≤ 57)

/-- ASCII letters in lower case. -/
def toLower (c : UInt8) : UInt8 := if 65 ≤ c ∧ c ≤ 90 then c + 32 else c

def caseInsensitiveEqual (a b : Bytes) : Bool := a.map toLower == b.map toLower

/-- Does a header line start with the given header name? -/
def isHeaderName (line name : Bytes) : Bool :=
  decide (name.length ≤ line.length) && caseInsensitiveEqual (line.take name.length) name

/-- `"Content-Length: "`. -/
def contentLengthPrefix : Bytes := [67, 111, 110, 116, 101, 110, 116, 45, 76, 101, 110, 103, 116, 104, 58, 32]

/-- The largest `size_t`, plus one. -/
def sizeLimit : Nat := 2 ^ 64

/-- `std::from_chars` for a `size_t`, of a whole text. -/
def fromChars (text : Bytes) : Option Nat :=
  if text.all isDigit then
    let value := text.foldl (fun value c => value * 10 + (c.toNat - 48)) 0
    if value < sizeLimit then some value else none
  else none

def tryParseContentLength (headerLine : Bytes) : Option Nat :=
  if isHeaderName headerLine contentLengthPrefix then
    let value := headerLine.drop contentLengthPrefix.length
    if value.isEmpty then none else fromChars value
  else none

/-- The decimal digits of a size. -/
def sizeText (size : Nat) : Bytes :=
  if size = 0 then [48] else (Nat.digits 10 size).reverse.map fun d => UInt8.ofNat (48 + d)

def contentLengthHeader (bodySize : Nat) : Bytes :=
  contentLengthPrefix ++ sizeText bodySize ++ [carriageReturn, newline] ++ [carriageReturn, newline]

def writeFramedMessage (body : Bytes) : Bytes := contentLengthHeader body.length ++ body

/-! ## The transport -/

/-- The exceptions of a transport, with their messages. The fuel of `readMessage` never
    runs out. -/
inductive Failure where
  | parse (message : String)
  | connectionClosed (message : String)
  | resync (message : String)
  | outOfFuel
  deriving DecidableEq

def Failure.what : Failure → String
  | .parse message | .connectionClosed message | .resync message => message
  | .outOfFuel => ""

def headerTooLong (limit : Nat) : Failure := .parse s!"Header line exceeds {limit} byte limit"

def missingContentLength : Failure := .parse "Message missing Content-Length header"

def endOfInput (read count : Nat) : Failure := .connectionClosed s!"EOF after {read} of {count} bytes"

def resyncFailed (limit : Nat) : Failure :=
  .resync s!"Resync failed: no Content-Length header found after {limit} lines"

/-- All limits are of type `size_t`. -/
structure TransportLimits where
  maxMessageBytes : Nat
  maxHeaderLength : Nat
  maxResyncIterations : Nat
  messageBytes_lt : maxMessageBytes < sizeLimit

/-- What a transport is built on: a line without its end, or nothing at the end of the
    input; and an exact number of bytes. `remaining` bounds the lines that are left. -/
structure Primitives (σ : Type) where
  readLine : Stateful σ Failure (Option Bytes)
  readExact : Nat → Stateful σ Failure Bytes
  remaining : σ → Nat

/-- The state of a transport over an input in `σ`. -/
structure Transport (σ : Type) where
  input : σ
  bufferedHeaderLine : Option Bytes
  recoverableReadError : Bool
  /-- What the error callback was given. -/
  reported : List String

section Reading

variable {σ J : Type}

/-- A computation on the input of a transport. -/
def onInput {α : Type} (m : Stateful σ Failure α) : Stateful (Transport σ) Failure α :=
  ExceptT.mk fun t =>
    let (result, input) := m.runFrom t.input
    (result, { t with input })

def reportError (message : String) : Stateful (Transport σ) Failure Unit :=
  modify fun t => { t with reported := t.reported ++ [message] }

def setRecoverable (flag : Bool) : Stateful (Transport σ) Failure Unit :=
  modify fun t => { t with recoverableReadError := flag }

def setBufferedHeaderLine (line : Option Bytes) : Stateful (Transport σ) Failure Unit :=
  modify fun t => { t with bufferedHeaderLine := line }

variable (prims : Primitives σ) (limits : TransportLimits) (parseJson : Bytes → Except String J)

/-- A header line: the one that resyncing has found, or the next of the input. -/
def nextHeaderLine : Stateful (Transport σ) Failure (Option Bytes) := do
  let buffered ← Transport.bufferedHeaderLine <$> get
  if buffered.isSome then
    setBufferedHeaderLine none
    return buffered
  else onInput prims.readLine

/-- The header lines up to the empty one, with the last length among them. -/
def parseHeaderLines : (fuel : Nat) → (contentLength : Option Nat) → Stateful (Transport σ) Failure (Option Nat)
  | 0, _ => throw .outOfFuel
  | fuel + 1, contentLength => do
    match ← nextHeaderLine prims with
    | none => return none
    | some [] =>
      match contentLength with
      | none => throw missingContentLength
      | some length => return some length
    | some line => parseHeaderLines fuel ((tryParseContentLength line).or contentLength)

def parseHeaders : Stateful (Transport σ) Failure (Option Nat) := do
  let remaining ← (fun t => prims.remaining t.input) <$> get
  parseHeaderLines prims (remaining + 2) none

def discardChunkBytes : Nat := 64 * 1024

/-- Read and drop `count` bytes in bounded chunks. -/
def discardChunks : (fuel count : Nat) → Stateful (Transport σ) Failure Unit
  | 0, _ => return
  | fuel + 1, count => do
    if 0 < count then
      let chunk := min count discardChunkBytes
      let _ ← onInput (prims.readExact chunk)
      discardChunks fuel (count - chunk)

def discardExact (count : Nat) : Stateful (Transport σ) Failure Unit := discardChunks prims count count

def parseErrorReport (reason : String) : String := s!"luma: transport parse error: {reason}\n"

def skipMessage (reason : String) : Stateful (Transport σ) Failure (Option J) := do
  reportError (parseErrorReport reason)
  setRecoverable true
  return none

/-- Read lines until one is a Content-Length header, and keep that one. -/
def resyncFrom : (iterations : Nat) → Stateful (Transport σ) Failure Unit
  | 0 => throw (resyncFailed limits.maxResyncIterations)
  | iterations + 1 => do
    let line ← tryCatch (some <$> onInput prims.readLine) fun e =>
      match e with
      | .parse _ => return none
      | e => throw e
    match line with
    | none => resyncFrom iterations
    | some none => return
    | some (some line) =>
      if (tryParseContentLength line).isSome then setBufferedHeaderLine (some line)
      else resyncFrom iterations

def resyncToNextMessage : Stateful (Transport σ) Failure Unit :=
  resyncFrom prims limits limits.maxResyncIterations

/-- What reading the frame of a message comes to. -/
inductive FrameRead where
  | endOfInput
  | body (body : Bytes)
  | skipped

def oversized (limits : TransportLimits) (length : Nat) : String :=
  s!"Content-Length {length} exceeds limit of {limits.maxMessageBytes} bytes"

def readFrame : Stateful (Transport σ) Failure FrameRead := do
  match ← parseHeaders prims with
  | none => return .endOfInput
  | some contentLength =>
    if contentLength > limits.maxMessageBytes then
      discardExact prims contentLength
      reportError (parseErrorReport (oversized limits contentLength))
      setRecoverable true
      return .skipped
    else return .body (← onInput (prims.readExact contentLength))

/-- `Transport::read_message`. -/
def readMessage : Stateful (Transport σ) Failure (Option J) := do
  setRecoverable false
  let frame ← tryCatch (readFrame prims limits) fun e =>
    match e with
    | .connectionClosed _ | .outOfFuel => throw e
    | e => do
      reportError (parseErrorReport e.what)
      resyncToNextMessage prims limits
      setRecoverable true
      return .skipped
  match frame with
  | .endOfInput | .skipped => return none
  | .body body =>
    match parseJson body with
    | .ok message => return some message
    | .error reason => skipMessage reason

/-- What a caller sees of one call. -/
structure ReadOutcome (J : Type) where
  result : Except Failure (Option J)
  hadRecoverableReadError : Bool

/-- The outcomes of a number of calls. -/
def readMessages : (calls : Nat) → Transport σ → List (ReadOutcome J) × Transport σ
  | 0, t => ([], t)
  | calls + 1, t =>
    let (result, t) := (readMessage prims limits parseJson).runFrom t
    let rest := readMessages calls t
    (⟨result, t.recoverableReadError⟩ :: rest.1, rest.2)

end Reading

/-! ## Buffered reads -/

/-- The part of the buffer that is not handed out yet, and the chunks `read_raw` will
    still deliver before the end of the input. -/
structure BufferedInput where
  buffer : Bytes
  pending : List Bytes
  pending_ne_nil : ∀ chunk ∈ pending, chunk ≠ []

/-- All that is left to read. -/
def BufferedInput.stream (input : BufferedInput) : Bytes := input.buffer ++ input.pending.flatten

/-- A line as it is handed out: without its end. -/
def stripLineEnd (line : Bytes) : Bytes :=
  if [carriageReturn, newline] <:+ line then line.dropLast.dropLast
  else if [newline] <:+ line then line.dropLast
  else line

/-- Collect a line, buffer by buffer. -/
def readLineLoop (maxHeaderLength : Nat) (line buffer : Bytes) :
    (pending : List Bytes) → (∀ chunk ∈ pending, chunk ≠ []) → Except Failure (Option Bytes) × BufferedInput
  | pending, hpending =>
    if newline ∈ buffer then
      -- Everything up to and including the newline.
      let line := line ++ buffer.takeWhile (· ≠ newline) ++ [newline]
      let rest : BufferedInput := ⟨(buffer.dropWhile (· ≠ newline)).tail, pending, hpending⟩
      if line.length > maxHeaderLength then (.error (headerTooLong maxHeaderLength), rest)
      else (.ok (some (stripLineEnd line)), rest)
    else
      let line := line ++ buffer
      if line.length > maxHeaderLength then (.error (headerTooLong maxHeaderLength), ⟨[], pending, hpending⟩)
      else
        match pending, hpending with
        | [], hpending => (.ok (if line = [] then none else some line), ⟨[], [], hpending⟩)
        | chunk :: pending, hpending =>
          readLineLoop maxHeaderLength line chunk pending fun c hc => hpending c (List.mem_cons_of_mem _ hc)

/-- `BufferedTransport::read_line`. -/
def readLine (maxHeaderLength : Nat) : Stateful BufferedInput Failure (Option Bytes) :=
  ExceptT.mk fun input => readLineLoop maxHeaderLength [] input.buffer input.pending input.pending_ne_nil

/-- Collect bytes, buffer by buffer. -/
def readExactLoop (count : Nat) (result buffer : Bytes) :
    (pending : List Bytes) → (∀ chunk ∈ pending, chunk ≠ []) → Except Failure Bytes × BufferedInput
  | pending, hpending =>
    let chunk := min buffer.length (count - result.length)
    let result := result ++ buffer.take chunk
    if count ≤ result.length then (.ok result, ⟨buffer.drop chunk, pending, hpending⟩)
    else
      match pending, hpending with
      | [], hpending => (.error (endOfInput result.length count), ⟨[], [], hpending⟩)
      | next :: pending, hpending =>
        readExactLoop count result next pending fun c hc => hpending c (List.mem_cons_of_mem _ hc)

/-- `BufferedTransport::read_exact`. -/
def readExact (count : Nat) : Stateful BufferedInput Failure Bytes :=
  ExceptT.mk fun input => readExactLoop count [] input.buffer input.pending input.pending_ne_nil

/-- `BufferedTransport`. -/
def buffered (limits : TransportLimits) : Primitives BufferedInput where
  readLine := readLine limits.maxHeaderLength
  readExact := readExact
  remaining input := input.stream.length

-- The equations of the loops are derived here, once for all proofs.
section
attribute [local simp] parseHeaderLines discardChunks resyncFrom readMessages readLineLoop
  readExactLoop
end

end Luma.Protocol
