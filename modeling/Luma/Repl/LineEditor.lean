-- SUMMARY: The line editor: escape sequences, tab completion, history and the loop that reads a line.
import Luma.Library.CodedLine
import Luma.Repl.CharBoundaries
import Luma.Stdlib.HttpFraming

/-! # The line editor

The editor reads the terminal byte by byte and keeps the bytes of the line with an offset
into them. What it draws is left out: nothing it reads depends on it. -/

namespace Luma.Repl

open Codec LanguageServer Utf8Codec CodedLine Http

/-! ## The terminal -/

/-- What comes from the terminal: a byte, or nothing for longer than an escape sequence is waited for. -/
inductive Arrival where
  | byte (c : UInt8)
  | silence
  deriving DecidableEq, Repr

/-- A read that blocks: it does not notice a silence. -/
def readChar : List Arrival → Option (UInt8 × List Arrival)
  | [] => none
  | .byte c :: input => some (c, input)
  | .silence :: input => readChar input

/-- A read in timeout mode. -/
def readTimed : List Arrival → Option UInt8 × List Arrival
  | [] => (none, [])
  | .byte c :: input => (some c, input)
  | .silence :: input => (none, input)

/-- The first two bytes behind an escape; the second is only read behind a bracket. -/
def readEscapeSequenceBytes (input : List Arrival) : Option (UInt8 × UInt8) × List Arrival :=
  match readTimed input with
  | (none, input) => (none, input)
  | (some 91, input) =>
    match readTimed input with
    | (none, input) => (none, input)
    | (some c, input) => (some (91, c), input)
  | (some c, input) => (some (c, 0), input)

/-- The loop that reads the rest of a character, as long as bytes come. -/
def readRest : Nat → List Arrival → Bytes × List Arrival
  | 0, input => ([], input)
  | count + 1, input =>
    match readChar input with
    | none => ([], [])
    | some (c, input) =>
      let rest := readRest count input
      (c :: rest.1, rest.2)

/-! ## The editor -/

def maxHistorySize : Nat := 1000

/-- The history, oldest line first, and the completions. -/
structure LineEditor where
  history : List Bytes
  completions : List Bytes
  bounded : history.length ≤ maxHistorySize

/-- The history with a line behind it, without the oldest line when there are too many. -/
def appended {α : Type} (history : List α) (line : α) : List α :=
  if maxHistorySize < (history ++ [line]).length then (history ++ [line]).tail else history ++ [line]

theorem length_appended {α : Type} {history : List α} {line : α} (h : history.length ≤ maxHistorySize) :
    (appended history line).length ≤ maxHistorySize := by
  rw [appended]
  split
  · rw [List.length_tail, List.length_append, List.length_singleton, Nat.add_sub_cancel]
    exact h
  · next hfits => exact Nat.not_lt.mp hfits

namespace LineEditor

def addHistory (editor : LineEditor) (line : Bytes) : LineEditor :=
  if line = [] then editor
  else if editor.history.getLast? = some line then editor
  else { editor with history := appended editor.history line, bounded := length_appended editor.bounded }

def setCompletions (editor : LineEditor) (completions : List Bytes) : LineEditor :=
  { editor with completions := completions }

end LineEditor

/-- The completions that start with a prefix, or else those that contain it. -/
def matchCompletions (completions : List Bytes) (start : Bytes) : List Bytes :=
  if start = [] then []
  else
    let starting := completions.filter fun c => start.isPrefixOf c
    let found := if starting = [] then completions.filter fun c => caseInsensitiveContains c start else starting
    found.mergeSort fun a b => decide (a ≤ b)

/-- `std::string::rfind`: the last place of a byte, from a position downwards. -/
def rfind (s : Bytes) (c : UInt8) : Nat → Option Nat
  | 0 => if s[0]? = some c then some 0 else none
  | pos + 1 => if s[pos + 1]? = some c then some (pos + 1) else rfind s c pos

/-! ## Keys -/

structure LineState where
  buf : Bytes := []
  pos : Nat := 0
  historyIndex : Nat
  savedLine : Bytes := []
  deriving DecidableEq, Repr

variable (editor : LineEditor)

/-- Where the word before a position starts. -/
def wordStart (buf : Bytes) (pos : Nat) : Nat :=
  match rfind buf 32 (pos - 1) with
  | none => 0
  | some place => place + 1

def handleTabCompletion (st : LineState) : LineState :=
  if st.pos = 0 then st
  else
    let start := wordStart st.buf st.pos
    if st.pos < start then st
    else
      match matchCompletions editor.completions ((st.buf.drop start).take (st.pos - start)) with
      | [completion] =>
        { st with
          buf := replaceAt st.buf start (st.pos - start) completion
          pos := start + completion.length }
      | _ => st

def eraseNext (st : LineState) : LineState :=
  if st.pos < st.buf.length then
    { st with buf := eraseAt st.buf st.pos (nextCharBoundary st.buf st.pos - st.pos) }
  else st

def stepRight (st : LineState) : LineState :=
  if st.pos < st.buf.length then { st with pos := nextCharBoundary st.buf st.pos } else st

def stepLeft (st : LineState) : LineState :=
  if 0 < st.pos then { st with pos := prevCharBoundary st.buf st.pos } else st

def erasePrevious (st : LineState) : LineState :=
  if 0 < st.pos then
    let start := prevCharBoundary st.buf st.pos
    { st with buf := eraseAt st.buf start (st.pos - start), pos := start }
  else st

def historyUp (st : LineState) : LineState :=
  if editor.history ≠ [] ∧ 0 < st.historyIndex then
    let savedLine := if st.historyIndex = editor.history.length then st.buf else st.savedLine
    let buf := editor.history.getD (st.historyIndex - 1) []
    ⟨buf, buf.length, st.historyIndex - 1, savedLine⟩
  else st

def historyDown (st : LineState) : LineState :=
  if st.historyIndex < editor.history.length then
    let buf :=
      if st.historyIndex + 1 = editor.history.length then st.savedLine
      else editor.history.getD (st.historyIndex + 1) []
    ⟨buf, buf.length, st.historyIndex + 1, st.savedLine⟩
  else st

def handleEscapeSequence (st : LineState) (input : List Arrival) : LineState × List Arrival :=
  match readEscapeSequenceBytes input with
  | (none, input) => (st, input)
  | (some (91, 65), input) => (historyUp editor st, input)
  | (some (91, 66), input) => (historyDown editor st, input)
  | (some (91, 67), input) => (stepRight st, input)
  | (some (91, 68), input) => (stepLeft st, input)
  | (some (91, 72), input) => ({ st with pos := 0 }, input)
  | (some (91, 70), input) => ({ st with pos := st.buf.length }, input)
  | (some (91, 51), input) =>
    match readChar input with
    | none => (st, [])
    | some (tilde, input) => (if tilde = 126 then eraseNext st else st, input)
  | (some _, input) => (st, input)

/-- A printable character is read to its end and put in at the cursor. -/
def insertChar (c : UInt8) (st : LineState) (input : List Arrival) : LineState × List Arrival :=
  let rest := readRest (utf8CodepointLen c - 1) input
  let ch := c :: rest.1
  ({ st with buf := insertAt st.buf st.pos ch, pos := st.pos + ch.length }, rest.2)

/-! ## The loop -/

/-- What `readLine` returns, the result it leaves, and whether it was interrupted. -/
structure ReadLine where
  ok : Bool
  result : Bytes
  interrupted : Bool
  deriving DecidableEq, Repr

/-- What a round of the loop does: it goes on, or the line is at its end. -/
inductive Round where
  | again (st : LineState) (input : List Arrival)
  | done (read : ReadLine)

variable (result : Bytes)

/-- One round of the loop, with the byte read. -/
def handleByte (st : LineState) (c : UInt8) (input : List Arrival) : Round :=
  if c = 13 ∨ c = 10 then .done ⟨true, st.buf, false⟩
  else if c = 4 then
    if st.buf = [] then .done ⟨false, result, false⟩ else .again (eraseNext st) input
  else if c = 3 then .done ⟨true, [], true⟩
  else if c = 127 ∨ c = 8 then .again (erasePrevious st) input
  else if c = 1 then .again { st with pos := 0 } input
  else if c = 5 then .again { st with pos := st.buf.length } input
  else if c = 11 then .again { st with buf := st.buf.take st.pos } input
  else if c = 21 then .again { st with buf := eraseAt st.buf 0 st.pos, pos := 0 } input
  else if c = 12 then .again st input
  else if c = 9 then .again (handleTabCompletion editor st) input
  else if c = 27 then
    let handled := handleEscapeSequence editor st input
    .again handled.1 handled.2
  else if 32 ≤ c then
    let inserted := insertChar c st input
    .again inserted.1 inserted.2
  else .again st input

def round (st : LineState) (input : List Arrival) : Round :=
  match readChar input with
  | none => .done ⟨false, result, false⟩
  | some (c, input) => handleByte editor result st c input

/-- The states at the start of each round, and what is returned. A round takes something
    from the input, so as many rounds as there are arrivals and one more are enough. -/
def rounds : Nat → LineState → List Arrival → List LineState × ReadLine
  | 0, st, _ => ([st], ⟨false, result, false⟩)
  | count + 1, st, input =>
    match round editor result st input with
    | .done read => ([st], read)
    | .again st' input' =>
      let rest := rounds count st' input'
      (st :: rest.1, rest.2)

/-- `readLine` at a terminal, with the states it goes through. -/
def readLine (input : List Arrival) : List LineState × ReadLine :=
  rounds editor result (input.length + 1) { historyIndex := editor.history.length } input

end Luma.Repl
