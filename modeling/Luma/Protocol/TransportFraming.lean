-- SUMMARY: The transport reads a stream the same way however it is cut into chunks.
import Luma.Protocol.Transport
import Mathlib.Data.Nat.Digits.Lemmas
import Mathlib.Data.List.TakeWhile

/-! # Framing over Chunks

A stream in one piece is the specification of buffered reads: lines up to their
newline, and exact counts. The buffered transport agrees with it however the stream is
cut into chunks, until a line is met that is longer than the limit: there the piece
drops the line, and the buffered transport only the chunk it is in. -/

namespace Luma.Protocol

open Codec Stateful

/-! ## Streams in one piece -/

/-- A stream in one piece, and whether a line longer than the limit was met. -/
structure Contiguous where
  stream : Bytes
  overlong : Bool

/-- The first line with its newline, if it has one, and what comes after it. -/
def splitLine (s : Bytes) : Bytes × Bytes :=
  if newline ∈ s then (s.takeWhile (· ≠ newline) ++ [newline], (s.dropWhile (· ≠ newline)).tail) else (s, [])

/-- Reads on a stream in one piece. -/
def contiguous (limits : TransportLimits) : Primitives Contiguous where
  readLine := ExceptT.mk fun input =>
    let line := (splitLine input.stream).1
    let rest := (splitLine input.stream).2
    if line.length > limits.maxHeaderLength then
      (.error (headerTooLong limits.maxHeaderLength), ⟨rest, true⟩)
    else (.ok (if line = [] then none else some (stripLineEnd line)), ⟨rest, input.overlong⟩)
  readExact count := ExceptT.mk fun input =>
    if count ≤ input.stream.length then (.ok (input.stream.take count), ⟨input.stream.drop count, input.overlong⟩)
    else (.error (endOfInput input.stream.length count), ⟨[], input.overlong⟩)
  remaining input := input.stream.length

section Lines

variable {a s : Bytes}

theorem ne_newline_of_not_mem (h : newline ∉ a) : ∀ c ∈ a, decide (c ≠ newline) = true := by
  intro c hc
  rw [decide_eq_true_eq]
  rintro rfl
  exact h hc

/-- The line in front is split off. -/
theorem splitLine_line (h : newline ∉ a) : splitLine (a ++ newline :: s) = (a ++ [newline], s) := by
  have hall := ne_newline_of_not_mem h
  rw [splitLine, if_pos (by simp), List.takeWhile_append_of_pos hall, List.dropWhile_append_of_pos hall]
  simp

theorem splitLine_append_of_not_mem (h : newline ∉ a) :
    splitLine (a ++ s) = (a ++ (splitLine s).1, (splitLine s).2) := by
  by_cases hs : newline ∈ s
  · obtain ⟨b, c, rfl, hb⟩ := List.eq_append_cons_of_mem hs
    have hab : newline ∉ a ++ b := by
      rw [List.mem_append]
      rintro (ha | hb')
      · exact h ha
      · exact hb hb'
    rw [← List.append_assoc, splitLine_line hab, splitLine_line hb, List.append_assoc]
  · rw [splitLine, if_neg (by simp [h, hs]), splitLine, if_neg hs]

/-- A line without a newline is handed out as it is. -/
theorem stripLineEnd_of_not_mem (h : newline ∉ a) : stripLineEnd a = a := by
  have hcrlf : ¬ [carriageReturn, newline] <:+ a := fun hb => h (hb.subset (by simp))
  have hlf : ¬ [newline] <:+ a := fun hb => h (hb.subset (by simp))
  rw [stripLineEnd, if_neg hcrlf, if_neg hlf]

end Lines

/-! ## Buffered reads -/

section Loops

variable {limit : Nat} {line buffer : Bytes} {pending : List Bytes} {hpending : ∀ chunk ∈ pending, chunk ≠ []}

/-- A line collected so far is completed as the stream has it, or is too long. -/
def CompletesLine (limit : Nat) (line stream : Bytes) (read : Except Failure (Option Bytes) × BufferedInput) : Prop :=
  let whole := line ++ (splitLine stream).1
  if whole.length > limit then read.1 = .error (headerTooLong limit)
  else read.1 = .ok (if whole = [] then none else some (stripLineEnd whole)) ∧ read.2.stream = (splitLine stream).2

theorem readLineLoop_of_mem (hbuffer : newline ∈ buffer) :
    CompletesLine limit line (buffer ++ pending.flatten) (readLineLoop limit line buffer pending hpending) := by
  obtain ⟨a, s, rfl, ha⟩ := List.eq_append_cons_of_mem hbuffer
  have hall := ne_newline_of_not_mem ha
  have htake : (a ++ newline :: s).takeWhile (· ≠ newline) = a := by
    rw [List.takeWhile_append_of_pos hall]
    simp
  have hdrop : (a ++ newline :: s).dropWhile (· ≠ newline) = newline :: s := by
    rw [List.dropWhile_append_of_pos hall]
    simp
  have hsplit : splitLine (a ++ newline :: s ++ pending.flatten) = (a ++ [newline], s ++ pending.flatten) := by
    rw [List.append_assoc, List.cons_append, splitLine_line ha]
  unfold readLineLoop CompletesLine
  rw [if_pos hbuffer, htake, hdrop, hsplit, List.append_assoc]
  dsimp only
  split
  · rfl
  · exact ⟨by simp, rfl⟩

theorem readLineLoop_of_long (hbuffer : newline ∉ buffer) (hlong : (line ++ buffer).length > limit) :
    CompletesLine limit line (buffer ++ pending.flatten) (readLineLoop limit line buffer pending hpending) := by
  have hlonger : (line ++ (buffer ++ (splitLine pending.flatten).1)).length > limit := by
    rw [← List.append_assoc, List.length_append]
    omega
  unfold CompletesLine
  rw [splitLine_append_of_not_mem hbuffer, if_pos hlonger]
  unfold readLineLoop
  rw [if_neg hbuffer]
  dsimp only
  rw [if_pos hlong]

/-- Collecting a line buffer by buffer finds the line of the stream, or that it is too long. -/
theorem readLineLoop_spec (hline : newline ∉ line) :
    CompletesLine limit line (buffer ++ pending.flatten) (readLineLoop limit line buffer pending hpending) := by
  induction pending generalizing line buffer with
  | nil =>
    by_cases hbuffer : newline ∈ buffer
    · exact readLineLoop_of_mem hbuffer
    by_cases hlong : (line ++ buffer).length > limit
    · exact readLineLoop_of_long hbuffer hlong
    have hcollected : newline ∉ line ++ buffer := by
      rw [List.mem_append]
      exact fun h => h.elim hline hbuffer
    have hnil : splitLine (List.flatten []) = ([], []) := rfl
    unfold CompletesLine
    rw [splitLine_append_of_not_mem hbuffer, hnil, List.append_nil, if_neg hlong,
      stripLineEnd_of_not_mem hcollected]
    unfold readLineLoop
    rw [if_neg hbuffer]
    dsimp only
    rw [if_neg hlong]
    exact ⟨rfl, rfl⟩
  | cons chunk pending ih =>
    by_cases hbuffer : newline ∈ buffer
    · exact readLineLoop_of_mem hbuffer
    by_cases hlong : (line ++ buffer).length > limit
    · exact readLineLoop_of_long hbuffer hlong
    have hcollected : newline ∉ line ++ buffer := by
      rw [List.mem_append]
      exact fun h => h.elim hline hbuffer
    have hrest : CompletesLine limit (line ++ buffer) (chunk ++ pending.flatten)
        (readLineLoop limit (line ++ buffer) chunk pending fun c hc => hpending c (List.mem_cons_of_mem _ hc)) :=
      ih hcollected
    have hstep : readLineLoop limit line buffer (chunk :: pending) hpending =
        readLineLoop limit (line ++ buffer) chunk pending fun c hc => hpending c (List.mem_cons_of_mem _ hc) := by
      conv_lhs => unfold readLineLoop
      rw [if_neg hbuffer]
      dsimp only
      rw [if_neg hlong]
    unfold CompletesLine at hrest ⊢
    rw [hstep, splitLine_append_of_not_mem hbuffer, ← List.append_assoc]
    exact hrest

/-- Bytes collected so far are completed from the stream, unless it ends before. -/
def CompletesCount (count : Nat) (result stream : Bytes) (read : Except Failure Bytes × BufferedInput) : Prop :=
  if count ≤ result.length + stream.length then
    read.1 = .ok (result ++ stream.take (count - result.length)) ∧ read.2.stream = stream.drop (count - result.length)
  else read.1 = .error (endOfInput (result.length + stream.length) count) ∧ read.2.stream = []

theorem readExactLoop_of_le {count : Nat} {result : Bytes} (hbuffer : count ≤ result.length + buffer.length)
    (hresult : result.length ≤ count) :
    CompletesCount count result (buffer ++ pending.flatten) (readExactLoop count result buffer pending hpending) := by
  have hwhole : count ≤ result.length + (buffer ++ pending.flatten).length := by
    rw [List.length_append]
    omega
  have hchunk : min buffer.length (count - result.length) = count - result.length := by omega
  have hdone : count ≤ (result ++ buffer.take (count - result.length)).length := by
    simp only [List.length_append, List.length_take]
    omega
  unfold CompletesCount readExactLoop
  rw [if_pos hwhole, hchunk]
  dsimp only
  rw [if_pos hdone, List.take_append_of_le_length (by omega), List.drop_append_of_le_length (by omega)]
  exact ⟨rfl, rfl⟩

theorem readExactLoop_spec {count : Nat} {result : Bytes} (hresult : result.length ≤ count) :
    CompletesCount count result (buffer ++ pending.flatten) (readExactLoop count result buffer pending hpending) := by
  induction pending generalizing result buffer with
  | nil =>
    by_cases hbuffer : count ≤ result.length + buffer.length
    · exact readExactLoop_of_le hbuffer hresult
    have hchunk : min buffer.length (count - result.length) = buffer.length := by omega
    have hmore : ¬ count ≤ (result ++ buffer).length := by
      rw [List.length_append]
      exact hbuffer
    unfold CompletesCount readExactLoop
    rw [List.flatten_nil, List.append_nil, if_neg hbuffer, hchunk]
    dsimp only
    rw [List.take_length, if_neg hmore, List.length_append]
    exact ⟨rfl, rfl⟩
  | cons chunk pending ih =>
    by_cases hbuffer : count ≤ result.length + buffer.length
    · exact readExactLoop_of_le hbuffer hresult
    have hchunk : min buffer.length (count - result.length) = buffer.length := by omega
    have hmore : ¬ count ≤ (result ++ buffer).length := by
      rw [List.length_append]
      exact hbuffer
    have hstep : readExactLoop count result buffer (chunk :: pending) hpending =
        readExactLoop count (result ++ buffer) chunk pending fun c hc => hpending c (List.mem_cons_of_mem _ hc) := by
      conv_lhs => unfold readExactLoop
      rw [hchunk]
      dsimp only
      rw [List.take_length, if_neg hmore]
    have hrest : CompletesCount count (result ++ buffer) (chunk ++ pending.flatten)
        (readExactLoop count (result ++ buffer) chunk pending fun c hc => hpending c (List.mem_cons_of_mem _ hc)) :=
      ih (by omega)
    have hleft : count - (result ++ buffer).length = count - result.length - buffer.length := by
      rw [List.length_append]
      omega
    unfold CompletesCount at hrest ⊢
    rw [hleft] at hrest
    rw [hstep]
    have htake : (buffer ++ (chunk :: pending).flatten).take (count - result.length) =
        buffer ++ (chunk ++ pending.flatten).take (count - result.length - buffer.length) := by
      rw [List.flatten_cons, List.take_append, List.take_of_length_le (by omega)]
    have hdrop : (buffer ++ (chunk :: pending).flatten).drop (count - result.length) =
        (chunk ++ pending.flatten).drop (count - result.length - buffer.length) := by
      rw [List.flatten_cons, List.drop_append, List.drop_of_length_le (by omega), List.nil_append]
    have hlength : result.length + (buffer ++ (chunk :: pending).flatten).length =
        (result ++ buffer).length + (chunk ++ pending.flatten).length := by
      simp only [List.flatten_cons, List.length_append]
      omega
    rw [htake, hdrop, hlength, ← List.append_assoc]
    exact hrest

end Loops

/-! ## The transport over chunks and over the piece -/

section Simulation

variable {limits : TransportLimits} {J : Type} {parseJson : Bytes → Except String J}

/-- The chunks hold what is left of the stream. -/
def Delivers (input : BufferedInput) (piece : Contiguous) : Prop := input.stream = piece.stream

def MetLongLine (piece : Contiguous) : Prop := piece.overlong = true

theorem buffered_readLine (input : BufferedInput) : (buffered limits).readLine.runFrom input =
    readLineLoop limits.maxHeaderLength [] input.buffer input.pending input.pending_ne_nil := rfl

theorem buffered_readExact (count : Nat) (input : BufferedInput) : ((buffered limits).readExact count).runFrom input =
    readExactLoop count [] input.buffer input.pending input.pending_ne_nil := rfl

theorem contiguous_readLine (piece : Contiguous) : (contiguous limits).readLine.runFrom piece =
    if (splitLine piece.stream).1.length > limits.maxHeaderLength then
      (.error (headerTooLong limits.maxHeaderLength), ⟨(splitLine piece.stream).2, true⟩)
    else (.ok (if (splitLine piece.stream).1 = [] then none else some (stripLineEnd (splitLine piece.stream).1)),
      ⟨(splitLine piece.stream).2, piece.overlong⟩) := rfl

theorem contiguous_readExact (count : Nat) (piece : Contiguous) : ((contiguous limits).readExact count).runFrom piece =
    if count ≤ piece.stream.length then (.ok (piece.stream.take count), ⟨piece.stream.drop count, piece.overlong⟩)
    else (.error (endOfInput piece.stream.length count), ⟨[], piece.overlong⟩) := rfl

theorem readLine_simulates :
    Simulates Delivers MetLongLine (buffered limits).readLine (contiguous limits).readLine where
  agree {input piece} h := by
    have hspec : CompletesLine limits.maxHeaderLength [] (input.buffer ++ input.pending.flatten)
        (readLineLoop limits.maxHeaderLength [] input.buffer input.pending input.pending_ne_nil) :=
      readLineLoop_spec List.not_mem_nil
    have hstream : input.buffer ++ input.pending.flatten = piece.stream := h
    rw [hstream] at hspec
    unfold CompletesLine at hspec
    rw [buffered_readLine, contiguous_readLine]
    simp only [List.nil_append] at hspec
    split
    · exact Or.inl rfl
    next hfits =>
      rw [if_neg hfits] at hspec
      exact Or.inr hspec
  lost {piece} h := by
    rw [contiguous_readLine]
    split
    · rfl
    · exact h

theorem readExact_simulates (count : Nat) :
    Simulates Delivers MetLongLine ((buffered limits).readExact count) ((contiguous limits).readExact count) where
  agree {input piece} h := by
    have hspec : CompletesCount count [] (input.buffer ++ input.pending.flatten)
        (readExactLoop count [] input.buffer input.pending input.pending_ne_nil) :=
      readExactLoop_spec (Nat.zero_le _)
    have hstream : input.buffer ++ input.pending.flatten = piece.stream := h
    rw [hstream] at hspec
    unfold CompletesCount at hspec
    rw [buffered_readExact, contiguous_readExact]
    simp only [List.nil_append, List.length_nil, Nat.zero_add, Nat.sub_zero] at hspec
    right
    split
    next hle =>
      rw [if_pos hle] at hspec
      exact hspec
    next hgt =>
      rw [if_neg hgt] at hspec
      exact hspec
  lost {piece} h := by
    rw [contiguous_readExact]
    split <;> exact h

/-- Transports over the chunks and over the piece that agree in all else. -/
structure SameTransport (t : Transport BufferedInput) (u : Transport Contiguous) : Prop where
  input : Delivers t.input u.input
  bufferedHeaderLine : t.bufferedHeaderLine = u.bufferedHeaderLine
  recoverableReadError : t.recoverableReadError = u.recoverableReadError
  reported : t.reported = u.reported

def TransportLost (u : Transport Contiguous) : Prop := MetLongLine u.input

theorem onInput_simulates {α : Type} {m : Stateful BufferedInput Failure α} {m' : Stateful Contiguous Failure α}
    (h : Simulates Delivers MetLongLine m m') : Simulates SameTransport TransportLost (onInput m) (onInput m') where
  agree hsame := (h.agree hsame.input).imp id fun hend => ⟨hend.1, { hsame with input := hend.2 }⟩
  lost hlost := h.lost hlost

theorem reportError_simulates (message : String) :
    Simulates SameTransport TransportLost (reportError message) (reportError message) :=
  .modify (fun h => { h with reported := congrArg (· ++ [message]) h.reported }) id

theorem setRecoverable_simulates (flag : Bool) :
    Simulates SameTransport TransportLost (setRecoverable flag) (setRecoverable flag) :=
  .modify (fun h => { h with recoverableReadError := rfl }) id

theorem setBufferedHeaderLine_simulates (line : Option Bytes) :
    Simulates SameTransport TransportLost (setBufferedHeaderLine line) (setBufferedHeaderLine line) :=
  .modify (fun h => { h with bufferedHeaderLine := rfl }) id

theorem nextHeaderLine_simulates :
    Simulates SameTransport TransportLost (nextHeaderLine (buffered limits)) (nextHeaderLine (contiguous limits)) := by
  unfold nextHeaderLine
  refine .bind (.gets fun h => h.bufferedHeaderLine) fun line => .ite ?_ (onInput_simulates readLine_simulates)
  exact .bind (setBufferedHeaderLine_simulates none) fun _ => .pure

theorem parseHeaderLines_simulates (fuel : Nat) (contentLength : Option Nat) :
    Simulates SameTransport TransportLost (parseHeaderLines (buffered limits) fuel contentLength)
      (parseHeaderLines (contiguous limits) fuel contentLength) := by
  induction fuel generalizing contentLength with
  | zero => exact .throw
  | succ fuel ih =>
    unfold parseHeaderLines
    refine .bind nextHeaderLine_simulates fun line => ?_
    split
    · exact .pure
    · split
      · exact .throw
      · exact .pure
    · exact ih _

theorem parseHeaders_simulates :
    Simulates SameTransport TransportLost (parseHeaders (buffered limits)) (parseHeaders (contiguous limits)) := by
  unfold parseHeaders
  exact .bind (.gets fun h => congrArg List.length h.input) fun remaining => parseHeaderLines_simulates _ none

theorem discardChunks_simulates (fuel count : Nat) :
    Simulates SameTransport TransportLost (discardChunks (buffered limits) fuel count)
      (discardChunks (contiguous limits) fuel count) := by
  induction fuel generalizing count with
  | zero => exact .pure
  | succ fuel ih =>
    unfold discardChunks
    exact .ite (.bind (onInput_simulates (readExact_simulates _)) fun _ => ih _) .pure

theorem resyncFrom_simulates (iterations : Nat) :
    Simulates SameTransport TransportLost (resyncFrom (buffered limits) limits iterations)
      (resyncFrom (contiguous limits) limits iterations) := by
  induction iterations with
  | zero => exact .throw
  | succ iterations ih =>
    unfold resyncFrom
    refine .bind (.tryCatch ?_ fun e => ?_) fun line => ?_
    · exact .map (onInput_simulates readLine_simulates)
    · split
      · exact .pure
      · exact .throw
    · split
      · exact ih
      · exact .pure
      · exact .ite (setBufferedHeaderLine_simulates _) ih

theorem readFrame_simulates :
    Simulates SameTransport TransportLost (readFrame (buffered limits) limits) (readFrame (contiguous limits) limits) := by
  unfold readFrame
  refine .bind parseHeaders_simulates fun length => ?_
  split
  · exact .pure
  · refine .ite ?_ (.bind (onInput_simulates (readExact_simulates _)) fun _ => .pure)
    refine .bind (discardChunks_simulates _ _) fun _ => ?_
    exact .bind (reportError_simulates _) fun _ => .bind (setRecoverable_simulates _) fun _ => .pure

theorem readMessage_simulates :
    Simulates SameTransport TransportLost (readMessage (buffered limits) limits parseJson)
      (readMessage (contiguous limits) limits parseJson) := by
  unfold readMessage
  refine .bind (setRecoverable_simulates false) fun _ => .bind (.tryCatch readFrame_simulates fun e => ?_) fun frame => ?_
  · split
    · exact .throw
    · exact .throw
    · refine .bind (reportError_simulates _) fun _ => .bind (resyncFrom_simulates _) fun _ => ?_
      exact .bind (setRecoverable_simulates _) fun _ => .pure
  · split
    · exact .pure
    · exact .pure
    · split
      · exact .pure
      · exact .bind (reportError_simulates _) fun _ => .bind (setRecoverable_simulates _) fun _ => .pure

theorem readMessages_lost (calls : Nat) {u : Transport Contiguous} (h : TransportLost u) :
    TransportLost (readMessages (contiguous limits) limits parseJson calls u).2 := by
  induction calls generalizing u with
  | zero => exact h
  | succ calls ih => exact ih (readMessage_simulates.lost h)

/-- Calls on the chunks and on the piece have the same outcomes, unless a line is too long. -/
theorem readMessages_agree (calls : Nat) {t : Transport BufferedInput} {u : Transport Contiguous}
    (hsame : SameTransport t u) (hfits : ¬ TransportLost (readMessages (contiguous limits) limits parseJson calls u).2) :
    (readMessages (buffered limits) limits parseJson calls t).1 =
        (readMessages (contiguous limits) limits parseJson calls u).1 ∧
      SameTransport (readMessages (buffered limits) limits parseJson calls t).2
        (readMessages (contiguous limits) limits parseJson calls u).2 := by
  induction calls generalizing t u with
  | zero => exact ⟨rfl, hsame⟩
  | succ calls ih =>
    unfold readMessages at hfits ⊢
    have hread : Simulates SameTransport TransportLost (readMessage (buffered limits) limits parseJson)
        (readMessage (contiguous limits) limits parseJson) := readMessage_simulates
    obtain hlost | ⟨hresult, hstate⟩ := hread.agree hsame
    · exact absurd (readMessages_lost calls hlost) hfits
    · obtain ⟨houtcomes, hend⟩ := ih hstate hfits
      refine ⟨?_, hend⟩
      dsimp only
      rw [houtcomes, hresult, hstate.recoverableReadError]

end Simulation

/-! ## Frames -/

section Frames

variable {limits : TransportLimits} {J : Type} {parseJson : Bytes → Except String J} {size : Nat} {s : Bytes}

theorem sizeText_isDigit : ∀ c ∈ sizeText size, isDigit c = true := by
  unfold sizeText
  split
  · intro c hc
    rw [List.mem_singleton.mp hc]
    rfl
  · intro c hc
    obtain ⟨d, hd, rfl⟩ := List.mem_map.mp hc
    have hlt : d < 10 := Nat.digits_lt_base (by decide) (List.mem_reverse.mp hd)
    interval_cases d <;> decide

theorem sizeText_ne_nil : sizeText size ≠ [] := by
  unfold sizeText
  split
  · decide
  next h => simpa [Nat.digits_eq_nil_iff_eq_zero] using h

/-- The digits of a size denote it. -/
theorem fromChars_sizeText (h : size < sizeLimit) : fromChars (sizeText size) = some size := by
  have hvalue : (sizeText size).foldl (fun value c => value * 10 + (c.toNat - 48)) 0 = size := by
    unfold sizeText
    split
    next hzero => exact hzero.symm
    · rw [List.foldl_map, List.foldl_reverse]
      have hdigits : ∀ l : List Nat, (∀ d ∈ l, d < 10) →
          l.foldr (fun d value => value * 10 + ((UInt8.ofNat (48 + d)).toNat - 48)) 0 = Nat.ofDigits 10 l := by
        intro l hl
        induction l with
        | nil => rfl
        | cons d l ih =>
          have hd : d < 10 := hl d List.mem_cons_self
          rw [List.foldr_cons, ih fun e he => hl e (List.mem_cons_of_mem _ he), Nat.ofDigits_cons,
            UInt8.toNat_ofNat', Nat.mod_eq_of_lt (by omega)]
          omega
      rw [hdigits _ fun d hd => Nat.digits_lt_base (by decide) hd, Nat.ofDigits_digits]
  rw [fromChars, if_pos (List.all_eq_true.mpr sizeText_isDigit)]
  dsimp only
  rw [hvalue, if_pos h]

theorem tryParseContentLength_header (h : size < sizeLimit) :
    tryParseContentLength (contentLengthPrefix ++ sizeText size) = some size := by
  have hname : isHeaderName (contentLengthPrefix ++ sizeText size) contentLengthPrefix = true := by
    simp [isHeaderName, caseInsensitiveEqual]
  unfold tryParseContentLength
  rw [if_pos hname, List.drop_left]
  dsimp only
  rw [if_neg (by simpa using sizeText_ne_nil), fromChars_sizeText h]

/-- The line of a header, with its end. -/
def headerLine (size : Nat) : Bytes := contentLengthPrefix ++ sizeText size ++ [carriageReturn, newline]

theorem newline_not_mem_header : newline ∉ contentLengthPrefix ++ sizeText size := by
  rw [List.mem_append]
  rintro (h | h)
  · exact absurd h (by decide)
  · exact absurd (sizeText_isDigit _ h) (by decide)

/-- A line with `\r\n` at its end is handed out without it. -/
theorem splitLine_crlf {a : Bytes} (h : newline ∉ a) :
    splitLine (a ++ [carriageReturn, newline] ++ s) = (a ++ [carriageReturn, newline], s) := by
  have hcr : newline ∉ a ++ [carriageReturn] := by
    rw [List.mem_append]
    rintro (ha | hcr)
    · exact h ha
    · exact absurd hcr (by decide)
  have hline := splitLine_line (s := s) hcr
  simpa using hline

theorem stripLineEnd_crlf (a : Bytes) : stripLineEnd (a ++ [carriageReturn, newline]) = a := by
  rw [stripLineEnd, if_pos (List.suffix_append _ _)]
  simp

/-- A line of the piece that fits is read without its end. -/
theorem contiguous_readLine_crlf {a : Bytes} {overlong : Bool} (h : newline ∉ a)
    (hfits : (a ++ [carriageReturn, newline]).length ≤ limits.maxHeaderLength) :
    (contiguous limits).readLine.runFrom ⟨a ++ [carriageReturn, newline] ++ s, overlong⟩ =
      (.ok (some a), ⟨s, overlong⟩) := by
  rw [contiguous_readLine, splitLine_crlf h]
  dsimp only
  rw [if_neg (Nat.not_lt.mpr hfits), if_neg (by simp), stripLineEnd_crlf]

section Runs

variable {σ α : Type} {prims : Primitives σ}

theorem onInput_runFrom {m : Stateful σ Failure α} {u : Transport σ} : (onInput m).runFrom u =
    ((m.runFrom u.input).1, { u with input := (m.runFrom u.input).2 }) := rfl

theorem nextHeaderLine_runFrom {u : Transport σ} (h : u.bufferedHeaderLine = none) :
    (nextHeaderLine prims).runFrom u = (onInput prims.readLine).runFrom u := by
  unfold nextHeaderLine
  rw [runFrom_bind, runFrom_map, runFrom_get]
  dsimp only
  rw [h]
  rfl

/-- A header line is taken into account and the next one is read. -/
theorem parseHeaderLines_line {u u' : Transport σ} {fuel : Nat} {length : Option Nat} {line : Bytes}
    (hline : (nextHeaderLine prims).runFrom u = (.ok (some line), u')) (hne : line ≠ []) :
    (parseHeaderLines prims (fuel + 1) length).runFrom u =
      (parseHeaderLines prims fuel ((tryParseContentLength line).or length)).runFrom u' := by
  conv_lhs => unfold parseHeaderLines
  rw [runFrom_bind, hline]
  cases line with
  | nil => exact absurd rfl hne
  | cons c line => rfl

/-- The empty line ends the headers. -/
theorem parseHeaderLines_empty {u u' : Transport σ} {fuel length : Nat}
    (hline : (nextHeaderLine prims).runFrom u = (.ok (some []), u')) :
    (parseHeaderLines prims (fuel + 1) (some length)).runFrom u = (.ok (some length), u') := by
  unfold parseHeaderLines
  rw [runFrom_bind, hline]
  rfl

end Runs

/-- The headers of a frame are read up to its body. -/
theorem parseHeaders_frame {u : Transport Contiguous} {overlong : Bool} (hsize : size < sizeLimit)
    (hfits : (headerLine size).length ≤ limits.maxHeaderLength) (hbuffered : u.bufferedHeaderLine = none)
    (hinput : u.input = ⟨contentLengthHeader size ++ s, overlong⟩) :
    (parseHeaders (contiguous limits)).runFrom u = (.ok (some size), { u with input := ⟨s, overlong⟩ }) := by
  obtain ⟨input, line, flag, reported⟩ := u
  cases hbuffered
  cases hinput
  have hends : ([] ++ [carriageReturn, newline] : Bytes).length ≤ limits.maxHeaderLength := by
    rw [headerLine, List.length_append] at hfits
    exact (Nat.le_add_left _ _).trans hfits
  have hlength : (nextHeaderLine (contiguous limits)).runFrom
      ⟨⟨contentLengthHeader size ++ s, overlong⟩, none, flag, reported⟩ =
        (.ok (some (contentLengthPrefix ++ sizeText size)),
          ⟨⟨[carriageReturn, newline] ++ s, overlong⟩, none, flag, reported⟩) := by
    rw [nextHeaderLine_runFrom rfl, onInput_runFrom, contentLengthHeader,
      List.append_assoc _ [carriageReturn, newline] s, contiguous_readLine_crlf newline_not_mem_header hfits]
  have hempty : (nextHeaderLine (contiguous limits)).runFrom
      ⟨⟨[carriageReturn, newline] ++ s, overlong⟩, none, flag, reported⟩ =
        (.ok (some []), ⟨⟨s, overlong⟩, none, flag, reported⟩) := by
    rw [nextHeaderLine_runFrom rfl, onInput_runFrom, ← List.nil_append [carriageReturn, newline],
      contiguous_readLine_crlf List.not_mem_nil hends]
  have hne : contentLengthPrefix ++ sizeText size ≠ [] := by simp [contentLengthPrefix]
  unfold parseHeaders
  rw [runFrom_bind, runFrom_map, runFrom_get]
  dsimp only
  rw [parseHeaderLines_line hlength hne, tryParseContentLength_header hsize, Option.some_or]
  exact parseHeaderLines_empty hempty

theorem contiguous_readExact_body {body : Bytes} {overlong : Bool} {count : Nat} (hcount : count ≤ body.length) :
    ((contiguous limits).readExact count).runFrom ⟨body ++ s, overlong⟩ =
      (.ok (body.take count), ⟨body.drop count ++ s, overlong⟩) := by
  rw [contiguous_readExact]
  dsimp only
  rw [if_pos (by rw [List.length_append]; omega), List.take_append_of_le_length hcount,
    List.drop_append_of_le_length hcount]

/-- Discarding a body leaves what comes after it. -/
theorem discardChunks_body {overlong flag : Bool} {line : Option Bytes} {reported : List String} {body : Bytes}
    {fuel : Nat} (hfuel : body.length ≤ fuel) :
    (discardChunks (contiguous limits) fuel body.length).runFrom ⟨⟨body ++ s, overlong⟩, line, flag, reported⟩ =
      (.ok (), ⟨⟨s, overlong⟩, line, flag, reported⟩) := by
  induction fuel generalizing body with
  | zero =>
    rw [List.length_eq_zero_iff.mp (Nat.le_zero.mp hfuel)]
    rfl
  | succ fuel ih =>
    unfold discardChunks
    split
    next hpos =>
      have hchunk : min body.length discardChunkBytes ≤ body.length := Nat.min_le_left _ _
      have hsmaller : (body.drop (min body.length discardChunkBytes)).length ≤ fuel := by
        rw [List.length_drop, discardChunkBytes]
        omega
      have hrest := ih hsmaller
      rw [List.length_drop] at hrest
      rw [runFrom_bind, onInput_runFrom, contiguous_readExact_body hchunk]
      exact hrest
    next hzero =>
      rw [List.length_eq_zero_iff.mp (Nat.eq_zero_of_not_pos hzero)]
      rfl

/-- What a call makes of a frame. -/
def frameOutcome (limits : TransportLimits) (parseJson : Bytes → Except String J) (body : Bytes) : ReadOutcome J :=
  if body.length > limits.maxMessageBytes then ⟨.ok none, true⟩
  else
    match parseJson body with
    | .ok message => ⟨.ok (some message), false⟩
    | .error _ => ⟨.ok none, true⟩

/-- A call reads one frame, and leaves what comes after it. -/
theorem readMessage_frame {u : Transport Contiguous} {overlong : Bool} {body : Bytes} (hsize : body.length < sizeLimit)
    (hfits : (headerLine body.length).length ≤ limits.maxHeaderLength) (hbuffered : u.bufferedHeaderLine = none)
    (hinput : u.input = ⟨writeFramedMessage body ++ s, overlong⟩) :
    ∃ u' : Transport Contiguous, u'.input = ⟨s, overlong⟩ ∧ u'.bufferedHeaderLine = none ∧
      u'.recoverableReadError = (frameOutcome limits parseJson body).hadRecoverableReadError ∧
      (readMessage (contiguous limits) limits parseJson).runFrom u = ((frameOutcome limits parseJson body).result, u') := by
  obtain ⟨input, line, flag, reported⟩ := u
  cases hbuffered
  cases hinput
  have hheaders : (parseHeaders (contiguous limits)).runFrom
      ⟨⟨writeFramedMessage body ++ s, overlong⟩, none, false, reported⟩ =
        (.ok (some body.length), ⟨⟨body ++ s, overlong⟩, none, false, reported⟩) := by
    refine parseHeaders_frame hsize hfits rfl ?_
    rw [writeFramedMessage, List.append_assoc]
  have hflag : (setRecoverable false : Stateful (Transport Contiguous) Failure Unit).runFrom
      ⟨⟨writeFramedMessage body ++ s, overlong⟩, none, flag, reported⟩ =
        (.ok (), ⟨⟨writeFramedMessage body ++ s, overlong⟩, none, false, reported⟩) := rfl
  unfold readMessage
  rw [runFrom_bind, hflag]
  dsimp only
  rw [runFrom_bind, runFrom_tryCatch]
  unfold readFrame
  rw [runFrom_bind, hheaders]
  dsimp only
  unfold frameOutcome
  split
  next hlong =>
    refine ⟨⟨⟨s, overlong⟩, none, true, reported ++ [parseErrorReport (oversized limits body.length)]⟩, rfl, rfl, rfl, ?_⟩
    rw [runFrom_bind, discardExact, discardChunks_body (Nat.le_refl _)]
    rfl
  · rw [runFrom_bind, onInput_runFrom, contiguous_readExact_body (Nat.le_refl _)]
    dsimp only [runFrom_pure]
    rw [List.take_length, List.drop_length]
    cases hparse : parseJson body with
    | ok message => exact ⟨⟨⟨s, overlong⟩, none, false, reported⟩, rfl, rfl, rfl, rfl⟩
    | error reason =>
      exact ⟨⟨⟨s, overlong⟩, none, true, reported ++ [parseErrorReport reason]⟩, rfl, rfl, rfl, rfl⟩

end Frames

/-! ## Calls end -/

section Fuel

variable {limits : TransportLimits} {J : Type} {parseJson : Bytes → Except String J}

theorem splitLine_append (s : Bytes) : (splitLine s).1 ++ (splitLine s).2 = s := by
  by_cases h : newline ∈ s
  · obtain ⟨a, b, rfl, ha⟩ := List.eq_append_cons_of_mem h
    rw [splitLine_line ha]
    simp
  · rw [splitLine, if_neg h, List.append_nil]

/-- A line that is read is taken off the stream. -/
theorem readLine_remaining (limits : TransportLimits) (n : Nat) :
    Triple (fun input => input.stream.length = n) (buffered limits).readLine
      (fun line input => line ≠ none → input.stream.length < n) (fun e _ => e ≠ .outOfFuel) := by
  intro input hn
  have hspec : CompletesLine limits.maxHeaderLength [] (input.buffer ++ input.pending.flatten)
      (readLineLoop limits.maxHeaderLength [] input.buffer input.pending input.pending_ne_nil) :=
    readLineLoop_spec List.not_mem_nil
  rw [buffered_readLine]
  unfold CompletesLine at hspec
  cases hread : readLineLoop limits.maxHeaderLength [] input.buffer input.pending input.pending_ne_nil with
  | mk result rest =>
    rw [hread] at hspec
    simp only [List.nil_append] at hspec
    split at hspec
    · cases hspec
      exact fun h => nomatch h
    · obtain ⟨hresult, hrest⟩ := hspec
      subst hresult
      intro hsome
      have hne : (splitLine (input.buffer ++ input.pending.flatten)).1 ≠ [] := by
        intro hnil
        rw [if_pos hnil] at hsome
        exact hsome rfl
      have hlength := congrArg List.length (splitLine_append (input.buffer ++ input.pending.flatten))
      rw [List.length_append] at hlength
      have hpos := List.length_pos_iff.mpr hne
      have hn' : (input.buffer ++ input.pending.flatten).length = n := hn
      rw [hrest]
      omega

/-- What a transport still has to read: a header line found before counts one. -/
def unread (t : Transport BufferedInput) : Nat :=
  t.input.stream.length + if t.bufferedHeaderLine.isSome then 1 else 0

theorem nextHeaderLine_unread (n : Nat) :
    Triple (fun t => unread t = n) (nextHeaderLine (buffered limits))
      (fun line t => line ≠ none → unread t < n) (fun e _ => e ≠ .outOfFuel) := by
  rintro ⟨input, line, flag, reported⟩ hn
  cases line with
  | some line =>
    intro _
    simp only [unread, Option.isSome_some, if_true] at hn
    change input.stream.length + 0 < n
    omega
  | none =>
    rw [nextHeaderLine_runFrom rfl, onInput_runFrom]
    have hread := readLine_remaining limits n input (by simpa [unread] using hn)
    cases hrun : (buffered limits).readLine.runFrom input with
    | mk result rest =>
      rw [hrun] at hread
      cases result with
      | ok line =>
        intro hsome
        simpa [unread] using hread hsome
      | error e => exact hread

/-- The headers are read with fuel for all that is left. -/
theorem parseHeaderLines_fuel {fuel : Nat} {length : Option Nat} :
    Triple (fun t => unread t < fuel) (parseHeaderLines (buffered limits) fuel length)
      (fun _ _ => True) (fun e _ => e ≠ .outOfFuel) := by
  induction fuel generalizing length with
  | zero => exact fun t ht => absurd ht (Nat.not_lt_zero _)
  | succ fuel ih =>
    refine Triple.of_forall_state fun t ht => ?_
    unfold parseHeaderLines
    refine .bind ((nextHeaderLine_unread (unread t)).weaken_pre fun s hs => congrArg unread hs) fun line => ?_
    split
    · exact fun _ _ => trivial
    · split
      · intro _ _ h
        cases h
      · exact fun _ _ => trivial
    · refine ih.weaken_pre fun s hs => ?_
      have hless := hs (by simp)
      omega

/-- A computation whose fuel does not run out. -/
abbrev Ends {σ α : Type} (m : Stateful σ Failure α) : Prop :=
  Triple (fun _ => True) m (fun _ _ => True) (fun e _ => e ≠ .outOfFuel)

theorem onInput_ends {α : Type} {m : Stateful BufferedInput Failure α} (hm : Ends m) : Ends (onInput m) := by
  intro t _
  have hend := hm t.input trivial
  rw [onInput_runFrom]
  cases hrun : m.runFrom t.input with
  | mk result rest =>
    rw [hrun] at hend
    cases result <;> exact hend

theorem readLine_ends : Ends (buffered limits).readLine :=
  Triple.of_forall_state fun input _ => (readLine_remaining limits input.stream.length).conseq
    (fun _ h => congrArg (·.stream.length) h) (fun _ _ _ => trivial) fun _ _ h => h

theorem readExact_ends (count : Nat) : Ends ((buffered limits).readExact count) := by
  intro input _
  have hspec : CompletesCount count [] (input.buffer ++ input.pending.flatten)
      (readExactLoop count [] input.buffer input.pending input.pending_ne_nil) :=
    readExactLoop_spec (Nat.zero_le _)
  rw [buffered_readExact]
  unfold CompletesCount at hspec
  cases hread : readExactLoop count [] input.buffer input.pending input.pending_ne_nil with
  | mk result rest =>
    rw [hread] at hspec
    split at hspec
    · obtain ⟨rfl, -⟩ := hspec
      trivial
    · obtain ⟨rfl, -⟩ := hspec
      exact fun h => nomatch h

theorem parseHeaders_ends : Ends (parseHeaders (buffered limits)) := by
  refine Triple.of_forall_state fun t _ => ?_
  unfold parseHeaders
  have hbound : unread t < (buffered limits).remaining t.input + 2 := by
    unfold unread
    change t.input.stream.length + _ < t.input.stream.length + 2
    split <;> omega
  rintro s rfl
  rw [runFrom_bind, runFrom_map, runFrom_get]
  exact parseHeaderLines_fuel s hbound

theorem discardChunks_ends (fuel count : Nat) : Ends (discardChunks (buffered limits) fuel count) := by
  induction fuel generalizing count with
  | zero => exact fun _ _ => trivial
  | succ fuel ih =>
    unfold discardChunks
    exact .ite (fun _ => .bind (onInput_ends (readExact_ends _)) fun _ => ih _) fun _ _ _ => trivial

theorem resyncFrom_ends (iterations : Nat) : Ends (resyncFrom (buffered limits) limits iterations) := by
  induction iterations with
  | zero =>
    intro _ _ h
    cases h
  | succ iterations ih =>
    unfold resyncFrom
    have hline : Ends (some <$> onInput (buffered limits).readLine) := .map (onInput_ends readLine_ends)
    refine .bind (.tryCatch hline fun e => ?_) fun line => ?_
    · split
      · exact fun _ _ => trivial
      · exact fun _ h => h
    · split
      · exact ih
      · exact fun _ _ => trivial
      · exact .ite (fun _ _ _ => trivial) fun _ => ih

/-- Every call comes to an end. -/
theorem readMessage_ends : Ends (readMessage (buffered limits) limits parseJson) := by
  have hframe : Ends (readFrame (buffered limits) limits) := by
    unfold readFrame
    refine .bind parseHeaders_ends fun length => ?_
    split
    · exact fun _ _ => trivial
    · exact .ite (fun _ => .bind (discardChunks_ends _ _) fun _ _ _ => trivial) fun _ =>
        .bind (onInput_ends (readExact_ends _)) fun _ _ _ => trivial
  unfold readMessage
  have hstart : Ends (setRecoverable false : Stateful (Transport BufferedInput) Failure Unit) := fun _ _ => trivial
  refine .bind hstart fun _ => .bind (.tryCatch hframe fun e => ?_) fun frame => ?_
  · split
    · exact fun _ h => h
    · exact fun _ h => absurd rfl h
    · have hreport : Triple (fun _ => e ≠ .outOfFuel)
          (reportError (parseErrorReport e.what) : Stateful (Transport BufferedInput) Failure Unit)
          (fun _ _ => True) (fun e _ => e ≠ .outOfFuel) := fun _ _ => trivial
      exact .bind hreport fun _ => .bind (resyncFrom_ends _) fun _ _ _ => trivial
  · split
    · exact fun _ _ => trivial
    · exact fun _ _ => trivial
    · split <;> exact fun _ _ => trivial

end Fuel

/-! ## Reading a stream in chunks -/

section Chunks

variable {limits : TransportLimits} {J : Type} {parseJson : Bytes → Except String J}

/-- The transport over the stream in one piece. -/
def Transport.piece (t : Transport BufferedInput) : Transport Contiguous :=
  { t with input := ⟨t.input.stream, false⟩ }

theorem sameTransport_piece (t : Transport BufferedInput) : SameTransport t t.piece := ⟨rfl, rfl, rfl, rfl⟩

/-- No line that the calls read, as a header or while they look for one, is longer than the
    limit. -/
def LinesFit (limits : TransportLimits) (parseJson : Bytes → Except String J) (calls : Nat)
    (t : Transport BufferedInput) : Prop :=
  ¬ TransportLost (readMessages (contiguous limits) limits parseJson calls t.piece).2

/-- A body whose length is a `size_t` and has its header line within the limit. -/
structure FrameFits (limits : TransportLimits) (body : Bytes) : Prop where
  size_lt : body.length < sizeLimit
  header_le : (headerLine body.length).length ≤ limits.maxHeaderLength

theorem readMessages_frames {bodies : List Bytes} {rest : Bytes} {u : Transport Contiguous} {overlong : Bool}
    (hfits : ∀ body ∈ bodies, FrameFits limits body) (hbuffered : u.bufferedHeaderLine = none)
    (hinput : u.input = ⟨bodies.flatMap writeFramedMessage ++ rest, overlong⟩) :
    (readMessages (contiguous limits) limits parseJson bodies.length u).1 = bodies.map (frameOutcome limits parseJson) ∧
      (readMessages (contiguous limits) limits parseJson bodies.length u).2.input = ⟨rest, overlong⟩ := by
  induction bodies generalizing u with
  | nil => exact ⟨rfl, hinput⟩
  | cons body bodies ih =>
    have hbody := hfits body List.mem_cons_self
    rw [List.flatMap_cons, List.append_assoc] at hinput
    obtain ⟨u', hrest, hbuffered', hflag, hread⟩ : ∃ u' : Transport Contiguous,
        u'.input = ⟨bodies.flatMap writeFramedMessage ++ rest, overlong⟩ ∧ u'.bufferedHeaderLine = none ∧
        u'.recoverableReadError = (frameOutcome limits parseJson body).hadRecoverableReadError ∧
        (readMessage (contiguous limits) limits parseJson).runFrom u =
          ((frameOutcome limits parseJson body).result, u') :=
      readMessage_frame hbody.size_lt hbody.header_le hbuffered hinput
    obtain ⟨houtcomes, hend⟩ := ih (fun b hb => hfits b (List.mem_cons_of_mem _ hb)) hbuffered' hrest
    rw [List.length_cons, readMessages, hread]
    refine ⟨?_, hend⟩
    dsimp only
    rw [houtcomes, hflag, List.map_cons]

/-- However a stream is cut into chunks: its frames are read one by one, each from its first
    byte, also after one that is oversized or no JSON; calls that meet no line longer than
    the limit have the same outcomes for every way to cut it; and every call ends. -/
theorem transport_chunk_independent (limits : TransportLimits) (parseJson : Bytes → Except String J) :
    (∀ (bodies : List Bytes) (rest : Bytes) (t : Transport BufferedInput), t.bufferedHeaderLine = none →
      t.input.stream = bodies.flatMap writeFramedMessage ++ rest → (∀ body ∈ bodies, FrameFits limits body) →
        (readMessages (buffered limits) limits parseJson bodies.length t).1 =
            bodies.map (frameOutcome limits parseJson) ∧
          (readMessages (buffered limits) limits parseJson bodies.length t).2.input.stream = rest) ∧
    (∀ (calls : Nat) (t t' : Transport BufferedInput), t.piece = t'.piece → LinesFit limits parseJson calls t →
      (readMessages (buffered limits) limits parseJson calls t).1 =
        (readMessages (buffered limits) limits parseJson calls t').1) ∧
    ∀ t : Transport BufferedInput, ((readMessage (buffered limits) limits parseJson).runFrom t).1 ≠ .error .outOfFuel := by
  refine ⟨fun bodies rest t hbuffered hstream hfits => ?_, fun calls t t' hpiece hfits => ?_, fun t => ?_⟩
  · have hinput : t.piece.input = ⟨bodies.flatMap writeFramedMessage ++ rest, false⟩ := by
      rw [← hstream]
      rfl
    obtain ⟨houtcomes, hrest⟩ :
        (readMessages (contiguous limits) limits parseJson bodies.length t.piece).1 =
            bodies.map (frameOutcome limits parseJson) ∧
          (readMessages (contiguous limits) limits parseJson bodies.length t.piece).2.input = ⟨rest, false⟩ :=
      readMessages_frames hfits hbuffered hinput
    have hnotlost : ¬ TransportLost (readMessages (contiguous limits) limits parseJson bodies.length t.piece).2 := by
      rw [TransportLost, hrest]
      exact Bool.false_ne_true
    obtain ⟨hagree, hsame⟩ := readMessages_agree bodies.length (sameTransport_piece t) hnotlost
    refine ⟨hagree.trans houtcomes, ?_⟩
    have hinput := hsame.input
    rw [Delivers, hrest] at hinput
    exact hinput
  · have hsame' := sameTransport_piece t'
    rw [← hpiece] at hsame'
    rw [(readMessages_agree calls (sameTransport_piece t) hfits).1, (readMessages_agree calls hsame' hfits).1]
  · have hends : Ends (readMessage (buffered limits) limits parseJson) := readMessage_ends
    have hend := hends t trivial
    intro hresult
    cases hrun : (readMessage (buffered limits) limits parseJson).runFrom t with
    | mk result t' =>
      rw [hrun] at hend hresult
      cases hresult
      exact hend rfl

/-- A fresh transport on an input that arrives in these chunks. -/
def arriving (chunks : List Bytes) (h : ∀ chunk ∈ chunks, chunk ≠ []) : Transport BufferedInput where
  input := ⟨[], chunks, h⟩
  bufferedHeaderLine := none
  recoverableReadError := false
  reported := []

/-- Header lines of at most 20 bytes. -/
def shortLimits : TransportLimits where
  maxMessageBytes := 8
  maxHeaderLength := 20
  maxResyncIterations := 10
  messageBytes_lt := by decide

/-- The frames of `7` and `8`, cut within a header and within a line end. -/
theorem readMessages_two :
    (readMessages (buffered shortLimits) shortLimits Except.ok 2
      (arriving [[67, 111, 110], [116, 101, 110, 116, 45, 76, 101, 110, 103, 116, 104, 58, 32, 49, 13], [10, 13, 10, 55, 67],
        [111, 110, 116, 101, 110, 116, 45, 76, 101, 110, 103, 116, 104, 58, 32, 49, 13, 10, 13, 10, 56]]
        (by decide))).1 = [⟨.ok (some [55]), false⟩, ⟨.ok (some [56]), false⟩] := by
  refine ((transport_chunk_independent shortLimits Except.ok).1 [[55], [56]] [] _ rfl (by decide) ?_).1
  intro body hbody
  rcases List.mem_pair.mp hbody with rfl | rfl <;> exact ⟨by decide, by decide⟩

/-- A line of 21 `x` and a header, in one chunk or cut after the `x`: the header is dropped
    with the line, or read and followed by its message. -/
theorem longLine_depends_on_chunks :
    let line := List.replicate 21 120
    let frame := [67, 111, 110, 116, 101, 110, 116, 45, 76, 101, 110, 103, 116, 104, 58, 32, 49, 13, 10, 13, 10, 55]
    let results (t : Transport BufferedInput) : List (Option Bytes) :=
      (readMessages (buffered shortLimits) shortLimits Except.ok 2 t).1.map fun o => o.result.toOption.join
    results (arriving [line ++ frame] (by decide)) = [none, none] ∧
      results (arriving [line, frame] (by decide)) = [none, some [55]] := by
  decide +kernel

end Chunks

end Luma.Protocol
