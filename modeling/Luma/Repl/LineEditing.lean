-- SUMMARY: The line editor edits a list of characters at a cursor, key by key.
import Luma.Repl.LineEditor
import Luma.Repl.LineText
import Mathlib.Data.List.Infix

/-! # Editing characters

The editing of a line as its user sees it: a list of characters with a cursor, and the edit
of each key. The bytes that the editor keeps are always those of the characters. -/

namespace Luma.Repl

open Codec LanguageServer Utf8Codec CodedLine Http

/-! ## Keys -/

/-- A character that is not a control character of ASCII. -/
abbrev Printable := { c : Char // 32 ≤ c.toNat ∧ c.toNat ≠ 127 }

/-- A control byte that the editor gives no meaning. -/
abbrev Unassigned := { b : UInt8 // b < 32 ∧ b ∉ [1, 3, 4, 5, 8, 9, 10, 11, 12, 13, 21, 27] }

inductive Key where
  | char (c : Printable)
  | up | down | right | left | home | finish | delete
  | backspace | backspaceWindows
  | ctrlA | ctrlC | ctrlD | ctrlE | ctrlK | ctrlL | ctrlU
  | ctrl (b : Unassigned)
  | tab | enter | newline
  /-- Escape on its own, with a silence behind it. -/
  | escape

/-- What the terminal sends for a key. -/
def Key.code : Key → List Arrival
  | .char c => (charBytes c).map .byte
  | .up => [.byte 27, .byte 91, .byte 65]
  | .down => [.byte 27, .byte 91, .byte 66]
  | .right => [.byte 27, .byte 91, .byte 67]
  | .left => [.byte 27, .byte 91, .byte 68]
  | .home => [.byte 27, .byte 91, .byte 72]
  | .finish => [.byte 27, .byte 91, .byte 70]
  | .delete => [.byte 27, .byte 91, .byte 51, .byte 126]
  | .backspace => [.byte 127]
  | .backspaceWindows => [.byte 8]
  | .ctrlA => [.byte 1]
  | .ctrlC => [.byte 3]
  | .ctrlD => [.byte 4]
  | .ctrlE => [.byte 5]
  | .ctrlK => [.byte 11]
  | .ctrlL => [.byte 12]
  | .ctrlU => [.byte 21]
  | .ctrl b => [.byte b]
  | .tab => [.byte 9]
  | .enter => [.byte 13]
  | .newline => [.byte 10]
  | .escape => [.byte 27, .silence]

/-- A key pressed after any pause. -/
structure Stroke where
  pause : Nat
  key : Key

def Stroke.input (stroke : Stroke) : List Arrival := List.replicate stroke.pause .silence ++ stroke.key.code

/-! ## Edits -/

/-- History and completions of well-formed text. -/
structure Entries where
  history : List (List Char)
  completions : List (List Char)
  bounded : history.length ≤ maxHistorySize

def Entries.editor (entries : Entries) : LineEditor where
  history := entries.history.map (encode charBytes)
  completions := entries.completions.map (encode charBytes)
  bounded := by
    rw [List.length_map]
    exact entries.bounded

def Entries.addHistory (entries : Entries) (line : List Char) : Entries :=
  if line = [] then entries
  else if entries.history.getLast? = some line then entries
  else { entries with history := appended entries.history line, bounded := length_appended entries.bounded }

/-- The completions of a word: those that start with it, or else those that contain it
    whatever the case of letters. -/
def Entries.matching (entries : Entries) (word : List Char) : List (List Char) :=
  if word = [] then []
  else
    let starting := entries.completions.filter fun c => word.isPrefixOf c
    if starting = [] then
      entries.completions.filter fun c => decide (word.map Char.toLower <:+: c.map Char.toLower)
    else starting

/-- A line that is edited, the entry of the history it stands at, and the line left for it. -/
structure Draft where
  line : Line Char := {}
  historyIndex : Nat
  saved : List Char := []

namespace Draft

def edit (draft : Draft) (change : Line Char → Line Char) : Draft := { draft with line := change draft.line }

def up (entries : Entries) (draft : Draft) : Draft :=
  if entries.history ≠ [] ∧ 0 < draft.historyIndex then
    let saved := if draft.historyIndex = entries.history.length then draft.line.text else draft.saved
    ⟨.atEnd (entries.history.getD (draft.historyIndex - 1) []), draft.historyIndex - 1, saved⟩
  else draft

def down (entries : Entries) (draft : Draft) : Draft :=
  if draft.historyIndex < entries.history.length then
    let text :=
      if draft.historyIndex + 1 = entries.history.length then draft.saved
      else entries.history.getD (draft.historyIndex + 1) []
    ⟨.atEnd text, draft.historyIndex + 1, draft.saved⟩
  else draft

/-- The word before the cursor is replaced by its completion, if it has exactly one. -/
def complete (entries : Entries) (draft : Draft) : Draft :=
  match entries.matching (draft.line.word (· == ' ')) with
  | [completion] => draft.edit (·.replaceWord (· == ' ') completion)
  | _ => draft

end Draft

/-- How reading a line ends. -/
inductive Ending where
  | line (text : List Char)
  | interrupted
  | closed

def Ending.read (result : Bytes) : Ending → ReadLine
  | .line text => ⟨true, encode charBytes text, false⟩
  | .interrupted => ⟨true, [], true⟩
  | .closed => ⟨false, result, false⟩

inductive Effect where
  | draft (draft : Draft)
  | ended (ending : Ending)

/-- What a key does. -/
def press (entries : Entries) (draft : Draft) : Key → Effect
  | .char c => .draft (draft.edit (·.insert c))
  | .up => .draft (draft.up entries)
  | .down => .draft (draft.down entries)
  | .right => .draft (draft.edit .forward)
  | .left => .draft (draft.edit .back)
  | .home | .ctrlA => .draft (draft.edit .toStart)
  | .finish | .ctrlE => .draft (draft.edit .toEnd)
  | .delete => .draft (draft.edit .deleteAfter)
  | .backspace | .backspaceWindows => .draft (draft.edit .deleteBefore)
  | .ctrlD => if draft.line.text = [] then .ended .closed else .draft (draft.edit .deleteAfter)
  | .ctrlK => .draft (draft.edit .killAfter)
  | .ctrlU => .draft (draft.edit .killBefore)
  | .ctrlC => .ended .interrupted
  | .ctrlL | .ctrl _ | .escape => .draft draft
  | .tab => .draft (draft.complete entries)
  | .enter | .newline => .ended (.line draft.line.text)

/-- The drafts that the keys lead through, and the end; when the keys run out, the input is at its end. -/
def edits (entries : Entries) : List Key → Draft → List Draft × Ending
  | [], draft => ([draft], .closed)
  | key :: keys, draft =>
    match press entries draft key with
    | .ended ending => ([draft], ending)
    | .draft draft' =>
      let rest := edits entries keys draft'
      (draft :: rest.1, rest.2)

/-- The bytes and the offset that stand for a draft. -/
def Draft.state (draft : Draft) : LineState where
  buf := draft.line.buffer charBytes
  pos := draft.line.offset charBytes
  historyIndex := draft.historyIndex
  savedLine := encode charBytes draft.saved

/-! ## Edits of the bytes -/

section Edits

variable {line : Line Char} {draft : Draft} {entries : Entries}

theorem state_edit {change : Line Char → Line Char} :
    (draft.edit change).state =
      { draft.state with
        buf := (change draft.line).buffer charBytes
        pos := (change draft.line).offset charBytes } := rfl

/-- A line whose cursor is in front of a character. -/
theorem buffer_right {c : Char} {right : List Char} (h : line.right = c :: right) :
    line.buffer charBytes = encode charBytes line.left ++ charBytes c ++ encode charBytes right := by
  rw [Line.buffer_eq, h, encode_cons, List.append_assoc]

/-- A line whose cursor is behind a character. -/
theorem buffer_left {front : List Char} {c : Char} (h : line.left = front ++ [c]) :
    line.buffer charBytes = encode charBytes front ++ charBytes c ++ encode charBytes line.right := by
  rw [Line.buffer_eq, h, encode_append, encode_singleton]

theorem offset_left {front : List Char} {c : Char} (h : line.left = front ++ [c]) :
    line.offset charBytes = (encode charBytes front).length + (charBytes c).length := by
  rw [Line.offset, h, encode_append, encode_singleton, List.length_append]

theorem nextCharBoundary_right {c : Char} {right : List Char} (h : line.right = c :: right) :
    nextCharBoundary (line.buffer charBytes) (line.offset charBytes) =
      line.offset charBytes + (charBytes c).length := by
  rw [buffer_right h]
  exact nextCharBoundary_sequence (charBytes_sequence c)

theorem prevCharBoundary_left {front : List Char} {c : Char} (h : line.left = front ++ [c]) :
    prevCharBoundary (line.buffer charBytes) (line.offset charBytes) = (encode charBytes front).length := by
  rw [buffer_left h, offset_left h]
  exact prevCharBoundary_sequence (charBytes_sequence c)

theorem insertAt_line {c : Char} :
    insertAt (line.buffer charBytes) (line.offset charBytes) (charBytes c) = (line.insert c).buffer charBytes := by
  rw [Line.buffer_eq, Line.offset, insertAt_append, Line.buffer_eq, Line.insert, encode_append, encode_singleton]

theorem offset_insert {c : Char} :
    (line.insert c).offset charBytes = line.offset charBytes + (charBytes c).length :=
  offset_left rfl

/-- Delete and Ctrl+D erase the character behind the cursor. -/
theorem eraseNext_state : eraseNext draft.state = (draft.edit .deleteAfter).state := by
  rw [eraseNext]
  cases hright : draft.line.right with
  | nil =>
    rw [if_neg]
    · rw [state_edit, Line.deleteAfter, hright, List.tail_nil, ← hright]
      rfl
    · exact fun hlt => (Line.offset_lt_iff charBytes_visible).mp hlt hright
  | cons c right =>
    have hlt : draft.state.pos < draft.state.buf.length := by
      rw [Draft.state, Line.offset_lt_iff charBytes_visible, hright]
      exact List.cons_ne_nil c right
    have herase : eraseAt (draft.line.buffer charBytes) (draft.line.offset charBytes) (charBytes c).length =
        draft.line.deleteAfter.buffer charBytes := by
      rw [buffer_right hright, Line.offset, eraseAt_append, Line.buffer_eq, Line.deleteAfter, hright, List.tail_cons]
    rw [if_pos hlt, state_edit]
    simp only [Draft.state, nextCharBoundary_right hright, Nat.add_sub_cancel_left, herase]
    rfl

/-- The right arrow goes over the character behind the cursor. -/
theorem stepRight_state : stepRight draft.state = (draft.edit .forward).state := by
  rw [stepRight]
  cases hright : draft.line.right with
  | nil =>
    rw [if_neg]
    · rw [state_edit, Line.forward, hright, List.head?_nil, Option.toList_none, List.append_nil, List.tail_nil, ← hright]
      rfl
    · exact fun hlt => (Line.offset_lt_iff charBytes_visible).mp hlt hright
  | cons c right =>
    have hlt : draft.state.pos < draft.state.buf.length := by
      rw [Draft.state, Line.offset_lt_iff charBytes_visible, hright]
      exact List.cons_ne_nil c right
    have hforward : draft.line.forward = ⟨draft.line.left ++ [c], right⟩ := by
      rw [Line.forward, hright]
      rfl
    have hbuffer : draft.line.buffer charBytes = draft.line.forward.buffer charBytes := by
      rw [buffer_right hright, hforward, buffer_left rfl]
    rw [if_pos hlt, state_edit, ← hbuffer, hforward, offset_left rfl]
    simp only [Draft.state, nextCharBoundary_right hright]
    rfl

theorem behind_of_left {c : Char} {front : List Char} (h : draft.line.left = front ++ [c]) :
    draft.line.back = ⟨front, c :: draft.line.right⟩ ∧ draft.line.deleteBefore = ⟨front, draft.line.right⟩ := by
  rw [Line.back, Line.deleteBefore, h, List.dropLast_concat, List.getLast?_concat]
  exact ⟨rfl, rfl⟩

/-- The left arrow goes over the character before the cursor. -/
theorem stepLeft_state : stepLeft draft.state = (draft.edit .back).state := by
  rw [stepLeft]
  rcases List.eq_nil_or_concat' draft.line.left with hleft | ⟨front, c, hleft⟩
  · have hzero := (Line.offset_eq_zero_iff charBytes_visible).mpr hleft
    rw [if_neg (by rw [Draft.state, hzero]; exact Nat.lt_irrefl 0), state_edit, Line.back, hleft]
    rw [List.dropLast_nil, List.getLast?_nil, Option.toList_none, List.nil_append, ← hleft]
    rfl
  · have hpos : 0 < draft.state.pos := by
      rw [Draft.state, offset_left hleft]
      exact Nat.add_pos_right _ (charBytes_sequence c).length_pos
    obtain ⟨hback, -⟩ := behind_of_left hleft
    have hbuffer : draft.line.buffer charBytes = draft.line.back.buffer charBytes := by
      rw [buffer_left hleft, hback, buffer_right rfl]
    rw [if_pos hpos, state_edit, ← hbuffer, hback]
    simp only [Draft.state, prevCharBoundary_left hleft]
    rfl

/-- Backspace erases the character before the cursor. -/
theorem erasePrevious_state : erasePrevious draft.state = (draft.edit .deleteBefore).state := by
  rw [erasePrevious]
  rcases List.eq_nil_or_concat' draft.line.left with hleft | ⟨front, c, hleft⟩
  · have hzero := (Line.offset_eq_zero_iff charBytes_visible).mpr hleft
    rw [if_neg (by rw [Draft.state, hzero]; exact Nat.lt_irrefl 0), state_edit, Line.deleteBefore, hleft]
    rw [List.dropLast_nil, ← hleft]
    rfl
  · have hpos : 0 < draft.state.pos := by
      rw [Draft.state, offset_left hleft]
      exact Nat.add_pos_right _ (charBytes_sequence c).length_pos
    obtain ⟨-, hdelete⟩ := behind_of_left hleft
    have herase : eraseAt (draft.line.buffer charBytes) (encode charBytes front).length (charBytes c).length =
        draft.line.deleteBefore.buffer charBytes := by
      rw [buffer_left hleft, eraseAt_append, hdelete, Line.buffer_eq]
    have hcount : draft.line.offset charBytes - (encode charBytes front).length = (charBytes c).length := by
      rw [offset_left hleft, Nat.add_sub_cancel_left]
    rw [if_pos hpos, state_edit]
    simp only [Draft.state, prevCharBoundary_left hleft, hcount, herase]
    rw [hdelete]
    rfl

theorem toStart_state : { draft.state with pos := 0 } = (draft.edit .toStart).state := rfl

theorem toEnd_state : { draft.state with pos := draft.state.buf.length } = (draft.edit .toEnd).state := by
  rw [state_edit, Line.toEnd, Line.atEnd, Line.buffer, Line.text, List.append_nil]
  rfl

theorem killAfter_state :
    { draft.state with buf := draft.state.buf.take draft.state.pos } = (draft.edit .killAfter).state := by
  have htake : (draft.line.buffer charBytes).take (draft.line.offset charBytes) = draft.line.killAfter.buffer charBytes := by
    rw [Line.buffer_eq, Line.offset, List.take_left, Line.buffer_eq, Line.killAfter, encode_nil, List.append_nil]
  rw [state_edit, ← htake]
  rfl

theorem killBefore_state :
    { draft.state with buf := eraseAt draft.state.buf 0 draft.state.pos, pos := 0 } = (draft.edit .killBefore).state := by
  have herase : eraseAt (draft.line.buffer charBytes) 0 (draft.line.offset charBytes) = draft.line.killBefore.buffer charBytes := by
    rw [eraseAt, List.take_zero, Nat.zero_add, Line.buffer_eq, Line.offset, List.drop_left, Line.buffer_eq, Line.killBefore,
      encode_nil]
  rw [state_edit, ← herase]
  rfl

/-! ## History and completion -/

theorem buffer_atEnd (text : List Char) : (Line.atEnd text).buffer charBytes = encode charBytes text := by
  rw [Line.buffer, Line.text, Line.atEnd, List.append_nil]

/-- A line that is fetched stands in the buffer with the cursor behind it. -/
theorem state_atEnd {text saved : List Char} {index : Nat} :
    (⟨.atEnd text, index, saved⟩ : Draft).state =
      ⟨encode charBytes text, (encode charBytes text).length, index, encode charBytes saved⟩ := by
  rw [Draft.state, buffer_atEnd]
  rfl

theorem history_getD (i : Nat) :
    entries.editor.history.getD i [] = encode charBytes (entries.history.getD i []) := by
  rw [Entries.editor, List.getD_eq_getElem?_getD, List.getD_eq_getElem?_getD, List.getElem?_map]
  cases entries.history[i]? <;> rfl

theorem length_history : entries.editor.history.length = entries.history.length := List.length_map _

theorem historyUp_state : historyUp entries.editor draft.state = (draft.up entries).state := by
  have hnil : entries.editor.history ≠ [] ↔ entries.history ≠ [] := not_congr List.map_eq_nil_iff
  have hindex : draft.state.historyIndex = draft.historyIndex := rfl
  simp only [historyUp, Draft.up, hnil, length_history, hindex]
  split
  · simp only [history_getD, state_atEnd]
    split <;> rfl
  · rfl

theorem historyDown_state : historyDown entries.editor draft.state = (draft.down entries).state := by
  rw [historyDown, Draft.down, length_history]
  have hindex : draft.state.historyIndex = draft.historyIndex := rfl
  rw [hindex]
  split
  · simp only [history_getD, state_atEnd]
    split <;> rfl
  · rfl

/-- Spaces end words, and stand for themselves in the bytes. -/
theorem space_not_mem_word : (32 : UInt8) ∉ encode charBytes (line.word (· == ' ')) := by
  intro hmem
  have hspace := ascii_mem_encode (d := ' ') (by decide) hmem
  have hends := Line.ends_eq_false_of_mem_word hspace
  simp at hends

/-- The bytes of the characters are found where those characters match. -/
theorem matchCompletions_perm (word : List Char) :
    (matchCompletions entries.editor.completions (encode charBytes word)).Perm
      ((entries.matching word).map (encode charBytes)) := by
  by_cases hword : word = []
  · rw [hword, matchCompletions, encode_nil, if_pos rfl, Entries.matching, if_pos rfl]
    exact .nil
  · have hstart : ∀ c, (encode charBytes word).isPrefixOf (encode charBytes c) = word.isPrefixOf c := by
      intro c
      rw [Bool.eq_iff_iff, List.isPrefixOf_iff_prefix, List.isPrefixOf_iff_prefix]
      exact charBytes_instantaneous.prefix_iff charBytes_visible
    have hinside : ∀ c, caseInsensitiveContains (encode charBytes c) (encode charBytes word) =
        decide (word.map Char.toLower <:+: c.map Char.toLower) := by
      intro c
      rw [Bool.eq_iff_iff, decide_eq_true_eq, caseInsensitiveContains_encode hword]
    rw [matchCompletions, if_neg ((encode_eq_nil_iff charBytes_visible).not.mpr hword), Entries.matching, if_neg hword]
    refine (List.mergeSort_perm _ _).trans (List.Perm.of_eq ?_)
    rw [Entries.editor]
    simp only [List.filter_map, Function.comp_def, hstart, hinside, List.map_eq_nil_iff]
    split <;> rfl

/-- The last space before the cursor is the one in front of the word. -/
theorem rfind_append {x y z : Bytes} {c : UInt8} {k : Nat} (hy : c ∉ y) (hk : k ≤ y.length) :
    rfind (x ++ c :: (y ++ z)) c (x.length + k) = some x.length := by
  induction k with
  | zero =>
    have hfound : (x ++ c :: (y ++ z))[x.length]? = some c := by
      rw [List.getElem?_append_right (Nat.le_refl _), Nat.sub_self, List.getElem?_cons_zero]
    rw [Nat.add_zero]
    cases hx : x.length with
    | zero =>
      rw [hx] at hfound
      rw [rfind, if_pos hfound]
    | succ n =>
      rw [hx] at hfound
      rw [rfind, if_pos hfound]
  | succ k ih =>
    have hbyte : (x ++ c :: (y ++ z))[x.length + k + 1]? ≠ some c := by
      rw [List.getElem?_append_right (by omega), show x.length + k + 1 - x.length = k + 1 by omega,
        List.getElem?_cons_succ, List.getElem?_append_left hk]
      exact fun hfound => hy (List.mem_of_getElem? hfound)
    rw [← Nat.add_assoc, rfind, if_neg hbyte]
    exact ih (Nat.le_of_succ_le hk)

theorem rfind_none {y z : Bytes} {c : UInt8} {k : Nat} (hy : c ∉ y) (hk : k < y.length) : rfind (y ++ z) c k = none := by
  have hbyte {i : Nat} (hi : i < y.length) : (y ++ z)[i]? ≠ some c := by
    rw [List.getElem?_append_left hi]
    exact fun hfound => hy (List.mem_of_getElem? hfound)
  induction k with
  | zero => rw [rfind, if_neg (hbyte hk)]
  | succ k ih =>
    rw [rfind, if_neg (hbyte hk)]
    exact ih (Nat.lt_of_succ_lt hk)

/-- The word that is completed starts behind the last space before the cursor. -/
theorem wordStart_eq (hleft : line.left ≠ []) :
    wordStart (line.buffer charBytes) (line.offset charBytes) = (encode charBytes (line.beforeWord (· == ' '))).length := by
  have hspace : (32 : UInt8) ∉ encode charBytes (line.word (· == ' ')) := space_not_mem_word
  have hpos : 0 < line.offset charBytes := Nat.pos_of_ne_zero fun h => hleft ((Line.offset_eq_zero_iff charBytes_visible).mp h)
  have hsplit := Line.left_eq (· == ' ') line
  have hoffset : line.offset charBytes =
      (encode charBytes (line.beforeWord (· == ' '))).length + (encode charBytes (line.word (· == ' '))).length := by
    rw [Line.offset, ← List.length_append, ← encode_append, ← hsplit]
  have hbuffer : line.buffer charBytes = encode charBytes (line.beforeWord (· == ' ')) ++
      (encode charBytes (line.word (· == ' ')) ++ encode charBytes line.right) := by
    rw [Line.buffer_eq, hsplit, encode_append, List.append_assoc]
  rcases Line.beforeWord_cases (· == ' ') line with hfront | ⟨front, c, hfront, hends⟩
  · rw [hfront] at hoffset hbuffer ⊢
    rw [encode_nil, List.length_nil, Nat.zero_add] at hoffset
    rw [wordStart, hbuffer, encode_nil, List.nil_append, rfind_none hspace (by omega)]
    rfl
  · obtain rfl : c = ' ' := by simpa using hends
    have hbytes : encode charBytes (front ++ [' ']) = encode charBytes front ++ [32] := by
      rw [encode_append, encode_singleton]
      rfl
    rw [hfront, hbytes] at hoffset hbuffer ⊢
    rw [List.length_append, List.length_singleton] at hoffset ⊢
    rw [wordStart, hbuffer, hoffset, show (encode charBytes front).length + 1 + (encode charBytes (line.word (· == ' '))).length - 1 =
      (encode charBytes front).length + (encode charBytes (line.word (· == ' '))).length by omega]
    rw [List.append_assoc, List.singleton_append, rfind_append hspace (Nat.le_refl _)]

theorem handleTabCompletion_state : handleTabCompletion entries.editor draft.state = (draft.complete entries).state := by
  rcases List.eq_nil_or_concat' draft.line.left with hleft | ⟨front, c, hleft⟩
  · have hzero : draft.state.pos = 0 := (Line.offset_eq_zero_iff charBytes_visible).mpr hleft
    have hword : draft.line.word (· == ' ') = [] := by
      rw [Line.word, hleft]
      rfl
    rw [handleTabCompletion, if_pos hzero, Draft.complete, hword]
    rfl
  · have hne : draft.line.left ≠ [] := hleft ▸ List.append_ne_nil_of_right_ne_nil front (List.cons_ne_nil c [])
    have hpos : draft.state.pos ≠ 0 := fun h => hne ((Line.offset_eq_zero_iff charBytes_visible).mp h)
    have hsplit := Line.left_eq (· == ' ') draft.line
    have hoffset : draft.state.pos = (encode charBytes (draft.line.beforeWord (· == ' '))).length +
        (encode charBytes (draft.line.word (· == ' '))).length := by
      rw [Draft.state, Line.offset, ← List.length_append, ← encode_append, ← hsplit]
    have hbuffer : draft.state.buf = encode charBytes (draft.line.beforeWord (· == ' ')) ++
        encode charBytes (draft.line.word (· == ' ')) ++ encode charBytes draft.line.right := by
      rw [← encode_append, ← hsplit]
      exact Line.buffer_eq
    have hstart : wordStart draft.state.buf draft.state.pos = _ := wordStart_eq hne
    have hwithin : ¬ draft.state.pos < (encode charBytes (draft.line.beforeWord (· == ' '))).length := by omega
    have hlength : draft.state.pos - (encode charBytes (draft.line.beforeWord (· == ' '))).length =
        (encode charBytes (draft.line.word (· == ' '))).length := by omega
    have hcut : (draft.state.buf.drop (encode charBytes (draft.line.beforeWord (· == ' '))).length).take
        (encode charBytes (draft.line.word (· == ' '))).length = encode charBytes (draft.line.word (· == ' ')) := by
      rw [hbuffer, List.append_assoc, List.drop_left, List.take_left]
    have hmatches : List.Perm (matchCompletions entries.editor.completions _) _ :=
      matchCompletions_perm (draft.line.word (· == ' '))
    rw [handleTabCompletion, if_neg hpos]
    simp only [hstart, if_neg hwithin, hlength, hcut]
    rw [Draft.complete]
    cases hfound : entries.matching (draft.line.word (· == ' ')) with
    | nil =>
      rw [hfound, List.map_nil] at hmatches
      rw [hmatches.eq_nil]
    | cons first others =>
    cases others with
    | nil =>
      rw [hfound, List.map_singleton] at hmatches
      have hreplace : replaceAt draft.state.buf (encode charBytes (draft.line.beforeWord (· == ' '))).length
          (encode charBytes (draft.line.word (· == ' '))).length (encode charBytes first) =
          (draft.line.replaceWord (· == ' ') first).buffer charBytes := by
        rw [hbuffer, replaceAt_append, Line.buffer_eq, Line.replaceWord, encode_append]
      rw [hmatches.eq_singleton]
      simp only [hreplace]
      rw [state_edit, Line.offset, Line.replaceWord, encode_append, List.length_append]
    | cons second rest =>
      rw [hfound] at hmatches
      have hcount := hmatches.length_eq
      rw [List.map_cons, List.map_cons, List.length_cons, List.length_cons] at hcount
      cases hfirst : matchCompletions entries.editor.completions (encode charBytes (draft.line.word (· == ' '))) with
      | nil => rfl
      | cons one others =>
        cases others with
        | nil =>
          rw [hfirst] at hcount
          cases hcount
        | cons two more => rfl

/-! ## Characters -/

theorem readRest_bytes (w : Bytes) (input : List Arrival) : readRest w.length (w.map .byte ++ input) = (w, input) := by
  induction w with
  | nil => rfl
  | cons c w ih =>
    rw [List.length_cons, readRest, List.map_cons, List.cons_append, readChar]
    simp only [ih]

/-- The lead byte of a sequence says how many bytes follow. -/
theorem utf8CodepointLen_sequence {a : UInt8} {w : Bytes} (h : Sequence (a :: w)) : utf8CodepointLen a = w.length + 1 := by
  cases h with
  | one ha => exact (Announces.one (.inl (by omega))).eq
  | two ha ha' _ => exact (Announces.two ha ha').eq
  | three ha ha' _ _ => exact (Announces.three ha ha').eq
  | four ha ha' _ _ _ => exact (Announces.four ha ha').eq

theorem insertChar_state {c : Char} {a : UInt8} {w : Bytes} (hc : charBytes c = a :: w) (input : List Arrival) :
    insertChar a draft.state (w.map .byte ++ input) = ((draft.edit (·.insert c)).state, input) := by
  have hlen := utf8CodepointLen_sequence (hc ▸ charBytes_sequence c)
  have hbuffer : insertAt draft.state.buf draft.state.pos (a :: w) = (draft.line.insert c).buffer charBytes := by
    rw [← hc]
    exact insertAt_line
  have hoffset : draft.state.pos + (a :: w).length = (draft.line.insert c).offset charBytes := by
    rw [← hc, offset_insert]
    rfl
  rw [insertChar, hlen, Nat.add_sub_cancel, readRest_bytes]
  simp only [hbuffer, hoffset]
  rfl

/-! ## Rounds -/

/-- What a round of the loop does for the effect of a key. -/
def Effect.round (result : Bytes) (input : List Arrival) : Effect → Round
  | .draft draft => .again draft.state input
  | .ended ending => .done (ending.read result)

variable {result : Bytes} {input : List Arrival}

/-- Silence in front of a key is not noticed. -/
theorem readChar_pause (pause : Nat) : readChar (List.replicate pause .silence ++ input) = readChar input := by
  induction pause with
  | zero => rfl
  | succ pause ih =>
    rw [List.replicate_succ, List.cons_append, readChar]
    exact ih

/-- Bytes from the space on, but for 127, start a character. -/
theorem handleByte_printable {editor : LineEditor} {st : LineState} {c : UInt8} (hc : 32 ≤ c.toNat) (hdelete : c.toNat ≠ 127) :
    handleByte editor result st c input = .again (insertChar c st input).1 (insertChar c st input).2 := by
  have hne {d : UInt8} (hd : d.toNat < 32) : c ≠ d := by
    rintro rfl
    omega
  have hne127 : c ≠ 127 := fun h => hdelete (congrArg UInt8.toNat h)
  have hle : 32 ≤ c := by
    rw [UInt8.le_iff_toNat_le]
    exact hc
  rw [handleByte, if_neg, if_neg (hne (by decide)), if_neg (hne (by decide)), if_neg, if_neg (hne (by decide)),
    if_neg (hne (by decide)), if_neg (hne (by decide)), if_neg (hne (by decide)), if_neg (hne (by decide)),
    if_neg (hne (by decide)), if_neg (hne (by decide)), if_pos hle]
  · exact not_or.mpr ⟨hne127, hne (by decide)⟩
  · exact not_or.mpr ⟨hne (by decide), hne (by decide)⟩

theorem handleByte_unassigned {editor : LineEditor} {st : LineState} (b : Unassigned) :
    handleByte editor result st b input = .again st input := by
  obtain ⟨b, hlow, hfree⟩ := b
  simp only [List.mem_cons, List.not_mem_nil, or_false, not_or] at hfree
  obtain ⟨h1, h3, h4, h5, h8, h9, h10, h11, h12, h13, h21, h27⟩ := hfree
  have hne127 : b ≠ 127 := by
    rintro rfl
    exact absurd hlow (by decide)
  have hnot : ¬ 32 ≤ b := by
    rw [UInt8.not_le]
    exact hlow
  simp only [handleByte, h1, h3, h4, h5, h8, h9, h10, h11, h12, h13, h21, h27, hne127, hnot, or_self, if_false]

/-- A printable character has a lead byte from the space on, which is not 127. -/
theorem lead_of_printable (c : Printable) {a : UInt8} {w : Bytes} (hc : charBytes c = a :: w) : 32 ≤ a.toNat ∧ a.toNat ≠ 127 := by
  obtain ⟨c, hspace, hdelete⟩ := c
  rcases Nat.lt_or_ge c.toNat 0x80 with hlow | hhigh
  · rw [charBytes_ascii hlow] at hc
    obtain ⟨rfl, -⟩ := List.cons.inj hc
    rw [toNat_of_lt (by omega)]
    exact ⟨hspace, hdelete⟩
  · have hlead := high_of_mem_charBytes hhigh (hc ▸ List.mem_cons_self : a ∈ charBytes c)
    omega

/-- A round reads one key and has its effect. -/
theorem round_stroke (stroke : Stroke) :
    round entries.editor result draft.state (stroke.input ++ input) = (press entries draft stroke.key).round result input := by
  obtain ⟨pause, key⟩ := stroke
  rw [round, Stroke.input, List.append_assoc, readChar_pause]
  cases key with
  | char c =>
    obtain ⟨a, w, hc⟩ := List.exists_cons_of_ne_nil (charBytes_visible c)
    obtain ⟨hspace, hdelete⟩ := lead_of_printable c hc
    rw [Key.code, hc, List.map_cons, List.cons_append, readChar]
    simp only [handleByte_printable hspace hdelete, insertChar_state hc]
    rfl
  | up => exact congrArg (Round.again · input) historyUp_state
  | down => exact congrArg (Round.again · input) historyDown_state
  | right => exact congrArg (Round.again · input) stepRight_state
  | left => exact congrArg (Round.again · input) stepLeft_state
  | home => exact congrArg (Round.again · input) toStart_state
  | finish => exact congrArg (Round.again · input) toEnd_state
  | delete => exact congrArg (Round.again · input) eraseNext_state
  | backspace => exact congrArg (Round.again · input) erasePrevious_state
  | backspaceWindows => exact congrArg (Round.again · input) erasePrevious_state
  | ctrlA => exact congrArg (Round.again · input) toStart_state
  | ctrlC => rfl
  | ctrlD =>
    have hempty : draft.state.buf = [] ↔ draft.line.text = [] := encode_eq_nil_iff charBytes_visible
    change (if draft.state.buf = [] then Round.done ⟨false, result, false⟩ else .again (eraseNext draft.state) input) = _
    rw [press]
    by_cases htext : draft.line.text = []
    · rw [if_pos htext, if_pos (hempty.mpr htext)]
      rfl
    · rw [if_neg htext, if_neg (hempty.not.mpr htext), eraseNext_state]
      rfl
  | ctrlE => exact congrArg (Round.again · input) toEnd_state
  | ctrlK => exact congrArg (Round.again · input) killAfter_state
  | ctrlL => rfl
  | ctrlU => exact congrArg (Round.again · input) killBefore_state
  | ctrl b => exact handleByte_unassigned b
  | tab => exact congrArg (Round.again · input) handleTabCompletion_state
  | enter => rfl
  | newline => rfl
  | escape => rfl

theorem Stroke.input_pos (stroke : Stroke) : 0 < stroke.input.length := by
  have hcode : 0 < stroke.key.code.length := by
    cases stroke.key with
    | char c =>
      rw [Key.code, List.length_map]
      exact (charBytes_sequence c).length_pos
    | _ => exact Nat.succ_pos _
  rw [Stroke.input, List.length_append]
  exact Nat.add_pos_right _ hcode

/-- The rounds of the loop go through the drafts of the keys. -/
theorem rounds_strokes {strokes : List Stroke} {count : Nat} (hcount : (strokes.flatMap Stroke.input).length < count) :
    rounds entries.editor result count draft.state (strokes.flatMap Stroke.input) =
      ((edits entries (strokes.map Stroke.key) draft).1.map Draft.state,
        (edits entries (strokes.map Stroke.key) draft).2.read result) := by
  induction strokes generalizing count draft with
  | nil =>
    obtain ⟨count, rfl⟩ := Nat.exists_eq_succ_of_ne_zero (Nat.ne_of_gt hcount)
    rfl
  | cons stroke strokes ih =>
    have hpos := stroke.input_pos
    rw [List.flatMap_cons, List.length_append] at hcount
    obtain ⟨count, rfl⟩ := Nat.exists_eq_succ_of_ne_zero (Nat.ne_of_gt (Nat.zero_lt_of_lt hcount))
    rw [List.flatMap_cons, rounds, round_stroke, List.map_cons, edits]
    cases press entries draft stroke.key with
    | ended ending => rfl
    | draft draft' =>
      have hrest := @ih draft' count (by omega)
      simp only [Effect.round, hrest, List.map_cons]

end Edits

/-! ## Integrity -/

/-- A buffer of well-formed text, with the offset at one of its character boundaries. -/
def LineState.Sound (st : LineState) : Prop := WellFormedText st.buf ∧ Boundary st.buf st.pos

theorem Draft.state_sound (draft : Draft) : draft.state.Sound := by
  refine ⟨wellFormedText_iff.mpr ⟨draft.line.text, rfl⟩, ?_⟩
  rw [Draft.state, Line.buffer_eq]
  exact boundary_encode draft.line.left draft.line.right

/-- The empty line that reading starts with, behind the last line of the history. -/
def Entries.start (entries : Entries) : Draft := { historyIndex := entries.history.length }

/-- Reading a line goes through the drafts of the keys, and returns what they end with. -/
theorem readLine_strokes (entries : Entries) (result : Bytes) (strokes : List Stroke) :
    readLine entries.editor result (strokes.flatMap Stroke.input) =
      ((edits entries (strokes.map Stroke.key) entries.start).1.map Draft.state,
        (edits entries (strokes.map Stroke.key) entries.start).2.read result) := by
  have hstart : ({ historyIndex := entries.editor.history.length } : LineState) = entries.start.state := by
    rw [length_history]
    rfl
  rw [readLine, hstart]
  exact rounds_strokes (Nat.lt_succ_self _)

/-- Whatever keys are pressed, the editor edits characters, and its states are sound. On any
    bytes at all, a step back undoes a step forward, and the other way round. -/
theorem line_editor_integrity :
    (∀ (entries : Entries) (result : Bytes) (strokes : List Stroke),
      let keys := strokes.map Stroke.key
      let read := readLine entries.editor result (strokes.flatMap Stroke.input)
      read.1 = (edits entries keys entries.start).1.map Draft.state ∧
        read.2 = (edits entries keys entries.start).2.read result ∧ ∀ st ∈ read.1, st.Sound) ∧
      ∀ (buf : Bytes) (pos : Nat), Boundary buf pos →
        (prevCharBoundary buf (nextCharBoundary buf pos) = pos ∨ pos = buf.length ∧ nextCharBoundary buf pos = pos) ∧
          (pos ≠ 0 → Boundary buf (prevCharBoundary buf pos) ∧ nextCharBoundary buf (prevCharBoundary buf pos) = pos) := by
  constructor
  · intro entries result strokes keys read
    have hread : read = _ := readLine_strokes entries result strokes
    refine ⟨congrArg Prod.fst hread, congrArg Prod.snd hread, ?_⟩
    intro st hst
    rw [hread, List.mem_map] at hst
    obtain ⟨draft, -, rfl⟩ := hst
    exact draft.state_sound
  · intro buf pos h
    refine ⟨?_, h.prev⟩
    rcases Nat.lt_or_ge pos buf.length with hlt | hge
    · exact .inl (prevCharBoundary_next h hlt)
    · have hend := Nat.le_antisymm h.le hge
      exact .inr ⟨hend, (nextCharBoundary_end hge).trans hend.symm⟩

/-- Behind `é` a stray continuation byte is a character of its own, forwards and backwards. -/
theorem line_editor_integrity_stray : prevCharBoundary [0xC3, 0xA9, 0x80] 3 = 2 := by
  have hboundary : Boundary [0xC3, 0xA9, 0x80] 2 := Boundary.next .start
  rcases (line_editor_integrity.2 [0xC3, 0xA9, 0x80] 2 hboundary).1 with hback | ⟨hend, -⟩
  · exact hback
  · exact absurd hend (by decide)

end Luma.Repl
