-- SUMMARY: When a line feed at the end of a CSV text changes nothing.
import Luma.Stdlib.Csv

/-! # The Final Line Feed

The last record of a text is flushed by the end of the input, or by a line feed there.
The two agree unless the record is a single empty quoted field, the limit on rows is
reached, or the dialect gives line feeds another meaning. -/

namespace Luma.Csv

open Codec

section Parser

variable (maxArraySize : Nat) (opts : CsvOptions)

/-- The parser's loop on its own: the state and the offset when the input ends, or the
    failure that ended the loop before. -/
def readFrom : (i : Nat) → ParseState → Bytes → Except ParseResult (Nat × ParseState)
  | i, s, [] => .ok (i, s)
  | i, s, c :: rest =>
    if s.inQuotes then
      if c = opts.quote then
        match rest with
        | d :: rest' =>
          if d = opts.quote then readFrom (i + 2) { s with field := s.field ++ [opts.quote] } rest'
          else readFrom (i + 1) { s with inQuotes := false } (d :: rest')
        | [] => .ok (i + 1, { s with inQuotes := false })
      else readFrom (i + 1) { s with field := s.field ++ [c] } rest
    else if c = opts.quote then readFrom (i + 1) { s with inQuotes := true, quoteStart := i } rest
    else if c = opts.delimiter then
      let s := { s with currentRow := s.currentRow ++ [s.field], field := [] }
      if s.currentRow.length ≥ maxArraySize then .error (failure s "CSV has too many fields" i)
      else readFrom (i + 1) s rest
    else if c = cr then
      match finalizeRow maxArraySize s with
      | none => .error (failure s "CSV has too many rows" i)
      | some s =>
        match rest with
        | d :: rest' =>
          if d = lf then readFrom (i + 2) s rest' else readFrom (i + 1) s (d :: rest')
        | [] => .ok (i + 1, s)
    else if c = lf then
      match finalizeRow maxArraySize s with
      | none => .error (failure s "CSV has too many rows" i)
      | some s => readFrom (i + 1) s rest
    else readFrom (i + 1) { s with field := s.field ++ [c] } rest

end Parser

/-! ## Counting delimiters and line ends -/

/-- One more delimiter in the first record. -/
def addDelimiter : List Nat → List Nat
  | [] => []
  | n :: more => (n + 1) :: more

/-- The delimiters outside quotes in each record of a text, the last of which nothing ends. -/
def delimiterCounts (opts : CsvOptions) : (quoted : Bool) → Bytes → List Nat
  | _, [] => [0]
  | quoted, c :: rest =>
    if c = opts.quote then delimiterCounts opts (!quoted) rest
    else if quoted then delimiterCounts opts quoted rest
    else if c = opts.delimiter then addDelimiter (delimiterCounts opts quoted rest)
    else if c = cr then
      match rest with
      | d :: rest' =>
        if d = lf then 0 :: delimiterCounts opts quoted rest' else 0 :: delimiterCounts opts quoted (d :: rest')
      | [] => [0, 0]
    else if c = lf then 0 :: delimiterCounts opts quoted rest
    else delimiterCounts opts quoted rest

/-- The line ends outside quotes. -/
def lineEnds (opts : CsvOptions) (x : Bytes) : Nat := (delimiterCounts opts false x).length - 1

/-- With some rows read and some fields of the next one, what is left goes over a limit. -/
def Exceeds (maxArraySize rows fields : Nat) : List Nat → Prop
  | [] => False
  | n :: more =>
    (0 < n ∧ maxArraySize ≤ fields + n) ∨ (∃ m ∈ more, 0 < m ∧ maxArraySize ≤ m) ∨
      (0 < more.length ∧ maxArraySize < rows + more.length)

instance {maxArraySize rows fields : Nat} : {counts : List Nat} →
    Decidable (Exceeds maxArraySize rows fields counts)
  | [] => inferInstanceAs (Decidable False)
  | _ :: _ => inferInstanceAs (Decidable (_ ∨ _ ∨ _))

variable {maxArraySize : Nat} {opts : CsvOptions}

variable (opts) in
theorem delimiterCounts_cons (quoted : Bool) (x : Bytes) :
    ∃ n more, delimiterCounts opts quoted x = n :: more := by
  fun_induction delimiterCounts opts quoted x with
  | case4 _ _ _ _ ih =>
    obtain ⟨n, more, h⟩ := ih
    exact ⟨n + 1, more, by rw [h, addDelimiter]⟩
  | _ => first | exact ⟨_, _, rfl⟩ | assumption

theorem delimiterCounts_delimiter {rest : Bytes} (hquote : opts.delimiter ≠ opts.quote) :
    delimiterCounts opts false (opts.delimiter :: rest) = addDelimiter (delimiterCounts opts false rest) := by
  rw [delimiterCounts.eq_def]
  simp [hquote]

/-- A line end outside quotes starts a record without delimiters. -/
theorem delimiterCounts_lineEnd {c : UInt8} (hc : c = cr ∨ c = lf) (hquote : c ≠ opts.quote)
    (hdelimiter : c ≠ opts.delimiter) (rest : Bytes) :
    ∃ rest', delimiterCounts opts false (c :: rest) = 0 :: delimiterCounts opts false rest' := by
  rw [delimiterCounts.eq_def]
  rcases hc with rfl | rfl
  · cases rest with
    | nil => exact ⟨[], by simp [hquote, hdelimiter, delimiterCounts]⟩
    | cons d rest =>
      by_cases hd : d = lf
      · exact ⟨rest, by simp [hquote, hdelimiter, hd]⟩
      · exact ⟨d :: rest, by simp [hquote, hdelimiter, hd]⟩
  · have hcr : lf ≠ cr := by decide
    exact ⟨rest, by simp [hquote, hdelimiter, hcr]⟩

section Loop

variable {i : Nat} {s : ParseState} {x : Bytes}

@[simp] theorem readFrom_nil : readFrom maxArraySize opts i s [] = .ok (i, s) := by
  rw [readFrom.eq_def]

@[simp] theorem parseFrom_nil : parseFrom maxArraySize opts i s [] = finish s := by
  rw [parseFrom.eq_def]

/-- The parser is its loop and the end of the input. -/
theorem parseFrom_eq (i : Nat) (s : ParseState) (x : Bytes) :
    parseFrom maxArraySize opts i s x =
      match readFrom maxArraySize opts i s x with
      | .error r => r
      | .ok (_, s') => finish s' := by
  fun_induction readFrom maxArraySize opts i s x with
  | case1 => rw [parseFrom_nil]
  | case7 i s rest hopen s' hfull hne | case8 i s rest hopen s' hfull hne ih =>
    rw [parseFrom.eq_def]
    simp_all [s']
  | _ => rw [parseFrom.eq_def]; simp_all

/-! ## Single rounds -/

/-- The state behind a field that a delimiter ends. -/
def endField (s : ParseState) : ParseState :=
  { s with currentRow := s.currentRow ++ [s.field], field := [] }

/-- The state behind a row that a line end ends. -/
def endRow (s : ParseState) : ParseState :=
  { s with rows := s.rows ++ [s.currentRow ++ [s.field]], currentRow := [], field := [] }

variable (maxArraySize opts) in
/-- One round of the loop, which reads one or two characters: by what it takes them for. -/
inductive Round (i : Nat) (s : ParseState) : Bytes → Nat → ParseState → Bytes → Prop where
  | escaped {rest} (hquoted : s.inQuotes = true) :
    Round i s (opts.quote :: opts.quote :: rest) (i + 2) { s with field := s.field ++ [opts.quote] } rest
  | close {rest} (hquoted : s.inQuotes = true) (hnext : rest.head? ≠ some opts.quote) :
    Round i s (opts.quote :: rest) (i + 1) { s with inQuotes := false } rest
  | inside {c rest} (hquoted : s.inQuotes = true) (hc : c ≠ opts.quote) :
    Round i s (c :: rest) (i + 1) { s with field := s.field ++ [c] } rest
  | opening {rest} (hopen : s.inQuotes = false) :
    Round i s (opts.quote :: rest) (i + 1) { s with inQuotes := true, quoteStart := i } rest
  | delimiter {rest} (hopen : s.inQuotes = false) (hquote : opts.delimiter ≠ opts.quote)
    (hroom : (endField s).currentRow.length < maxArraySize) :
    Round i s (opts.delimiter :: rest) (i + 1) (endField s) rest
  | crlf {rest} (hopen : s.inQuotes = false) (hquote : cr ≠ opts.quote) (hdelimiter : cr ≠ opts.delimiter)
    (hroom : s.rows.length < maxArraySize) : Round i s (cr :: lf :: rest) (i + 2) (endRow s) rest
  | lineEnd {c rest} (hc : c = cr ∨ c = lf) (hopen : s.inQuotes = false) (hquote : c ≠ opts.quote)
    (hdelimiter : c ≠ opts.delimiter) (hroom : s.rows.length < maxArraySize)
    (hnext : c = cr → rest.head? ≠ some lf) : Round i s (c :: rest) (i + 1) (endRow s) rest
  | ordinary {c rest} (hopen : s.inQuotes = false) (hc : isQuoteTrigger opts c = false) :
    Round i s (c :: rest) (i + 1) { s with field := s.field ++ [c] } rest

variable {i' : Nat} {s' : ParseState} {x' : Bytes}

theorem finalizeRow_of_room (hroom : s.rows.length < maxArraySize) :
    finalizeRow maxArraySize s = some (endRow s) := by
  rw [finalizeRow, if_neg (Nat.not_le.mpr hroom)]
  rfl

/-- The loop goes on where a round leads. -/
theorem Round.readFrom_eq (h : Round maxArraySize opts i s x i' s' x') :
    readFrom maxArraySize opts i s x = readFrom maxArraySize opts i' s' x' := by
  cases h with
  | escaped hquoted => rw [readFrom.eq_def]; simp [hquoted]
  | close hquoted hnext =>
    cases x' with
    | nil => rw [readFrom.eq_def]; simp [hquoted]
    | cons d rest =>
      have hd : d ≠ opts.quote := fun h => hnext (congrArg some h)
      rw [readFrom.eq_def]
      simp [hquoted, hd]
  | inside hquoted hc => rw [readFrom.eq_def]; simp [hquoted, hc]
  | opening hopen => rw [readFrom.eq_def]; simp [hopen]
  | delimiter hopen hquote hroom =>
    have hroom' : ¬ (s.currentRow ++ [s.field]).length ≥ maxArraySize := Nat.not_le.mpr hroom
    rw [readFrom.eq_def]
    simp only [hopen, hquote, Bool.false_eq_true, if_false, if_true]
    rw [if_neg hroom', endField, hopen]
  | crlf hopen hquote hdelimiter hroom =>
    rw [readFrom.eq_def]
    simp [hopen, hquote, hdelimiter, finalizeRow_of_room hroom]
  | @lineEnd c rest hc hopen hquote hdelimiter hroom hnext =>
    rw [readFrom.eq_def]
    rcases hc with rfl | rfl
    · cases x' with
      | nil => simp [hopen, hquote, hdelimiter, finalizeRow_of_room hroom]
      | cons d rest =>
        have hd : d ≠ lf := fun h => hnext rfl (congrArg some h)
        simp [hopen, hquote, hdelimiter, finalizeRow_of_room hroom, hd]
    · have hcr : lf ≠ cr := by decide
      simp [hopen, hquote, hdelimiter, hcr, finalizeRow_of_room hroom]
  | ordinary hopen hc =>
    simp only [isQuoteTrigger, Bool.or_eq_false_iff, decide_eq_false_iff_not] at hc
    obtain ⟨⟨⟨hdelimiter, hquote⟩, hlf⟩, hcr⟩ := hc
    rw [readFrom.eq_def]
    simp [hopen, hdelimiter, hquote, hlf, hcr]

/-- A round reads something. -/
theorem Round.length_lt (h : Round maxArraySize opts i s x i' s' x') : x'.length < x.length := by
  cases h <;> simp only [List.length_cons] <;> omega

/-- What the text goes on to over a limit, at a state of the loop. -/
def OverLimit (maxArraySize : Nat) (opts : CsvOptions) (s : ParseState) (x : Bytes) : Prop :=
  Exceeds maxArraySize s.rows.length s.currentRow.length (delimiterCounts opts s.inQuotes x)

/-- The loop has a round for every character, or stops at a limit, whatever follows. -/
theorem round_or_stop (hx : x ≠ []) :
    (∃ i' s' x', Round maxArraySize opts i s x i' s' x') ∨
      OverLimit maxArraySize opts s x ∧ ∃ r, ∀ t, readFrom maxArraySize opts i s (x ++ t) = .error r := by
  obtain ⟨c, rest, rfl⟩ := List.exists_cons_of_ne_nil hx
  cases hquoted : s.inQuotes with
  | true =>
    left
    by_cases hc : c = opts.quote
    · subst hc
      by_cases hnext : rest.head? = some opts.quote
      · obtain ⟨rest', rfl⟩ := List.head?_eq_some_iff.mp hnext
        exact ⟨_, _, _, .escaped hquoted⟩
      · exact ⟨_, _, _, .close hquoted hnext⟩
    · exact ⟨_, _, _, .inside hquoted hc⟩
  | false =>
    by_cases hquote : c = opts.quote
    · subst hquote
      exact .inl ⟨_, _, _, .opening hquoted⟩
    by_cases hdelimiter : c = opts.delimiter
    · subst hdelimiter
      rcases Nat.lt_or_ge (endField s).currentRow.length maxArraySize with hroom | hfull
      · exact .inl ⟨_, _, _, .delimiter hquoted hquote hroom⟩
      · right
        refine ⟨?_, failure (endField s) "CSV has too many fields" i, fun t => ?_⟩
        · obtain ⟨n, more, hcounts⟩ := delimiterCounts_cons opts false rest
          have hlength : (endField s).currentRow.length = s.currentRow.length + 1 := by simp [endField]
          rw [OverLimit, hquoted, delimiterCounts_delimiter hquote, hcounts, addDelimiter, Exceeds]
          left
          omega
        rw [List.cons_append, readFrom.eq_def]
        simp only [hquoted, hquote, Bool.false_eq_true, if_false, if_true]
        exact if_pos hfull
    by_cases hline : c = cr ∨ c = lf
    · rcases Nat.lt_or_ge s.rows.length maxArraySize with hroom | hfull
      · left
        by_cases hnext : c = cr ∧ rest.head? = some lf
        · obtain ⟨rfl, hnext⟩ := hnext
          obtain ⟨rest', rfl⟩ := List.head?_eq_some_iff.mp hnext
          exact ⟨_, _, _, .crlf hquoted hquote hdelimiter hroom⟩
        · exact ⟨_, _, _, .lineEnd hline hquoted hquote hdelimiter hroom fun hcr hlf => hnext ⟨hcr, hlf⟩⟩
      · right
        refine ⟨?_, failure s "CSV has too many rows" i, fun t => ?_⟩
        · obtain ⟨more, hcounts⟩ := delimiterCounts_lineEnd hline hquote hdelimiter rest
          obtain ⟨n, more', hmore⟩ := delimiterCounts_cons opts false more
          rw [OverLimit, hquoted, hcounts, hmore, Exceeds, List.length_cons]
          right; right
          omega
        have hfinal : finalizeRow maxArraySize s = none := if_pos hfull
        rw [List.cons_append, readFrom.eq_def]
        rcases hline with rfl | rfl
        · simp [hquoted, hquote, hdelimiter, hfinal]
        · have hcr : lf ≠ cr := by decide
          simp [hquoted, hquote, hdelimiter, hcr, hfinal]
    · rw [not_or] at hline
      exact .inl ⟨_, _, _, .ordinary hquoted (by simp [isQuoteTrigger, hdelimiter, hquote, hline.1, hline.2])⟩

variable (maxArraySize opts) in
/-- Induction along the rounds of the loop. -/
theorem round_induction {motive : Nat → ParseState → Bytes → Prop} (nil : ∀ i s, motive i s [])
    (stop : ∀ i s x r, OverLimit maxArraySize opts s x →
      (∀ t, readFrom maxArraySize opts i s (x ++ t) = .error r) → motive i s x)
    (round : ∀ i s x i' s' x', Round maxArraySize opts i s x i' s' x' → motive i' s' x' → motive i s x)
    (i : Nat) (s : ParseState) (x : Bytes) : motive i s x := by
  by_cases hx : x = []
  · exact hx ▸ nil i s
  · rcases round_or_stop hx with ⟨i', s', x', h⟩ | ⟨hover, r, h⟩
    · exact round i s x i' s' x' h (round_induction nil stop round i' s' x')
    · exact stop i s x r hover h
  termination_by x.length
  decreasing_by exact h.length_lt

/-- What a round makes of the counts: nothing, a field of the record, or a row. -/
theorem Round.counts (h : Round maxArraySize opts i s x i' s' x') :
    (delimiterCounts opts s.inQuotes x = delimiterCounts opts s'.inQuotes x' ∧
        s'.rows.length = s.rows.length ∧ s'.currentRow.length = s.currentRow.length) ∨
      (delimiterCounts opts s.inQuotes x = addDelimiter (delimiterCounts opts s'.inQuotes x') ∧
        s'.rows.length = s.rows.length ∧ s'.currentRow.length = s.currentRow.length + 1 ∧
        s'.currentRow.length < maxArraySize) ∨
      (delimiterCounts opts s.inQuotes x = 0 :: delimiterCounts opts s'.inQuotes x' ∧
        s'.rows.length = s.rows.length + 1 ∧ s'.currentRow.length = 0 ∧ s.rows.length < maxArraySize) := by
  cases h with
  | escaped hquoted =>
    left
    simp [hquoted, delimiterCounts.eq_def opts true (_ :: _), delimiterCounts.eq_def opts false (_ :: _)]
  | close hquoted _ | opening hquoted =>
    left
    simp [hquoted, delimiterCounts.eq_def opts _ (_ :: _)]
  | inside hquoted hc =>
    left
    simp [hquoted, hc, delimiterCounts.eq_def opts _ (_ :: _)]
  | ordinary hopen hc =>
    left
    simp only [isQuoteTrigger, Bool.or_eq_false_iff, decide_eq_false_iff_not] at hc
    simp [hopen, hc, delimiterCounts.eq_def opts _ (_ :: _)]
  | delimiter hopen hquote hroom =>
    right; left
    refine ⟨?_, rfl, by simp [endField], hroom⟩
    rw [hopen, delimiterCounts_delimiter hquote, endField, hopen]
  | crlf hopen hquote hdelimiter hroom =>
    right; right
    refine ⟨?_, by simp [endRow], rfl, hroom⟩
    simp [endRow, hopen, hquote, hdelimiter, delimiterCounts.eq_def opts false (_ :: _)]
  | @lineEnd c rest hc hopen hquote hdelimiter hroom hnext =>
    right; right
    refine ⟨?_, by simp [endRow], rfl, hroom⟩
    rw [hopen, delimiterCounts.eq_def, endRow, hopen]
    rcases hc with rfl | rfl
    · cases x' with
      | nil => simp [hquote, hdelimiter, delimiterCounts]
      | cons d rest =>
        have hd : d ≠ lf := fun h => hnext rfl (congrArg some h)
        simp [hquote, hdelimiter, hd]
    · have hcr : lf ≠ cr := by decide
      simp [hquote, hdelimiter, hcr]

/-- A round neither leads over a limit nor away from one ahead. -/
theorem Round.overLimit_iff (h : Round maxArraySize opts i s x i' s' x') :
    OverLimit maxArraySize opts s x ↔ OverLimit maxArraySize opts s' x' := by
  obtain ⟨n, more, hmore⟩ := delimiterCounts_cons opts s'.inQuotes x'
  unfold OverLimit
  rcases h.counts with ⟨hcounts, hrows, hfields⟩ | ⟨hcounts, hrows, hfields, hroom⟩ |
    ⟨hcounts, hrows, hfields, hroom⟩
  · rw [hcounts, hrows, hfields]
  · rw [hcounts, hrows, hfields, hmore, addDelimiter, Exceeds, Exceeds]
    have hhere : (0 < n + 1 ∧ maxArraySize ≤ s.currentRow.length + (n + 1)) ↔
        (0 < n ∧ maxArraySize ≤ s.currentRow.length + 1 + n) := by omega
    rw [hhere]
  · rw [hcounts, hrows, hfields, hmore, Exceeds, Exceeds]
    have hended : (0 < (n :: more).length ∧ maxArraySize < s.rows.length + (n :: more).length) ↔
        (0 < more.length ∧ maxArraySize < s.rows.length + 1 + more.length) := by
      rw [List.length_cons]
      omega
    rw [hended, Nat.zero_add]
    simp [or_assoc]

/-- A round that meets a quote changes sides. -/
theorem Round.parity (h : Round maxArraySize opts i s x i' s' x') (hquote : opts.quote ≠ lf) :
    (s.inQuotes.toNat + x.count opts.quote) % 2 = (s'.inQuotes.toNat + x'.count opts.quote) % 2 := by
  cases h with
  | escaped hquoted =>
    rw [hquoted, List.count_cons_self, List.count_cons_self]
    omega
  | close hquoted =>
    rw [hquoted, List.count_cons_self, Bool.toNat_true, Bool.toNat_false]
    omega
  | opening hopen =>
    rw [hopen, List.count_cons_self, Bool.toNat_true, Bool.toNat_false]
    omega
  | inside _ hc => rw [List.count_cons_of_ne hc]
  | delimiter _ hc | lineEnd _ _ hc =>
    rw [List.count_cons_of_ne hc]
    rfl
  | crlf _ hc =>
    rw [List.count_cons_of_ne hc, List.count_cons_of_ne hquote.symm]
    rfl
  | ordinary _ hc =>
    simp only [isQuoteTrigger, Bool.or_eq_false_iff, decide_eq_false_iff_not] at hc
    rw [List.count_cons_of_ne hc.1.1.2]

theorem readFrom_of_overLimit (hover : OverLimit maxArraySize opts s x) :
    ∃ r, readFrom maxArraySize opts i s x = .error r := by
  induction i, s, x using round_induction maxArraySize opts with
  | nil i s => simp [OverLimit, delimiterCounts, Exceeds] at hover
  | stop i s x r _ hstop =>
    have hfront := hstop []
    rw [List.append_nil] at hfront
    exact ⟨r, hfront⟩
  | round i s x i' s' x' hround ih =>
    rw [hround.readFrom_eq]
    exact ih (hround.overLimit_iff.mp hover)

/-- A text that goes over no limit is read to its end, a row for every line end. -/
theorem readFrom_of_not_overLimit (hroom : ¬ OverLimit maxArraySize opts s x) :
    ∃ j s', readFrom maxArraySize opts i s x = .ok (j, s') ∧
      s'.rows.length + 1 = s.rows.length + (delimiterCounts opts s.inQuotes x).length ∧
      (opts.quote ≠ lf → s'.inQuotes.toNat = (s.inQuotes.toNat + x.count opts.quote) % 2) := by
  induction i, s, x using round_induction maxArraySize opts with
  | nil i s =>
    refine ⟨i, s, readFrom_nil, by simp [delimiterCounts], fun _ => ?_⟩
    cases s.inQuotes <;> rfl
  | stop i s x r hover _ => exact absurd hover hroom
  | round i s x i' s' x' hround ih =>
    obtain ⟨j, final, hread, hrows, hparity⟩ := ih (fun hover => hroom (hround.overLimit_iff.mpr hover))
    refine ⟨j, final, hround.readFrom_eq.trans hread, ?_, fun hquote => ?_⟩
    · obtain ⟨n, more, hmore⟩ := delimiterCounts_cons opts s'.inQuotes x'
      rw [hmore] at hrows
      rcases hround.counts with ⟨hcounts, hsame, _⟩ | ⟨hcounts, hsame, _⟩ | ⟨hcounts, hsame, _⟩
      · rw [hcounts, hmore, ← hsame]
        exact hrows
      · rw [hcounts, hmore, ← hsame]
        exact hrows
      · rw [hcounts, hmore]
        simp only [List.length_cons] at hrows ⊢
        omega
    · rw [hparity hquote, hround.parity hquote]

/-! ## Cuts -/

/-- No pair of characters that are read together lies across the cut between two texts. -/
def CutsCleanly (opts : CsvOptions) (x t : Bytes) : Prop :=
  ∀ c ∈ x.getLast?, ∀ d ∈ t.head?, ¬ (c = opts.quote ∧ d = opts.quote) ∧ ¬ (c = cr ∧ d = lf)

theorem CutsCleanly.suffix {t : Bytes} (hcut : CutsCleanly opts x t) (hsuffix : x' <:+ x) :
    CutsCleanly opts x' t := by
  obtain ⟨front, rfl⟩ := hsuffix
  intro c hc d hd
  refine hcut c ?_ d hd
  rw [Option.mem_def] at hc ⊢
  rw [List.getLast?_append, hc]
  rfl

theorem Round.suffix (h : Round maxArraySize opts i s x i' s' x') : x' <:+ x := by
  cases h with
  | escaped | crlf => exact ⟨[_, _], rfl⟩
  | _ => exact ⟨[_], rfl⟩

/-- A round reads the same when more text follows. -/
theorem Round.append {t : Bytes} (h : Round maxArraySize opts i s x i' s' x')
    (hcut : CutsCleanly opts x t) : Round maxArraySize opts i s (x ++ t) i' s' (x' ++ t) := by
  -- a round that ends the text looks at the front of what follows
  have hlook {c d : UInt8} {rest : Bytes} (hcut : CutsCleanly opts (c :: rest) t)
      (hpair : c = opts.quote ∧ d = opts.quote ∨ c = cr ∧ d = lf) (hnext : rest.head? ≠ some d) :
      (rest ++ t).head? ≠ some d := by
    cases rest with
    | nil =>
      intro hd
      have hboth := hcut c rfl d hd
      rcases hpair with hquotes | hends
      · exact hboth.1 hquotes
      · exact hboth.2 hends
    | cons e rest => exact hnext
  cases h with
  | escaped hquoted => exact .escaped hquoted
  | close hquoted hnext => exact .close hquoted (hlook hcut (.inl ⟨rfl, rfl⟩) hnext)
  | inside hquoted hc => exact .inside hquoted hc
  | opening hopen => exact .opening hopen
  | delimiter hopen hquote hroom => exact .delimiter hopen hquote hroom
  | crlf hopen hquote hdelimiter hroom => exact .crlf hopen hquote hdelimiter hroom
  | lineEnd hc hopen hquote hdelimiter hroom hnext =>
    exact .lineEnd hc hopen hquote hdelimiter hroom fun hcr => hlook hcut (.inr ⟨hcr, rfl⟩) (hnext hcr)
  | ordinary hopen hc => exact .ordinary hopen hc

/-- The loop over two texts is the loop over one and then over the other. -/
theorem readFrom_append {t : Bytes} (hcut : CutsCleanly opts x t) :
    readFrom maxArraySize opts i s (x ++ t) =
      match readFrom maxArraySize opts i s x with
      | .error r => .error r
      | .ok (j, s') => readFrom maxArraySize opts j s' t := by
  induction i, s, x using round_induction maxArraySize opts with
  | nil i s => rw [readFrom_nil, List.nil_append]
  | stop i s x r hover hstop =>
    have hfront := hstop []
    rw [List.append_nil] at hfront
    rw [hstop t, hfront]
  | round i s x i' s' x' hround ih =>
    rw [(hround.append hcut).readFrom_eq, hround.readFrom_eq]
    exact ih (hcut.suffix hround.suffix)

/-! ## Ends that leave nothing behind -/

/-- Between two records: nothing of the next one has been read. -/
def AtRecordStart (s : ParseState) : Prop := s.field = [] ∧ s.currentRow = []

/-- What ends a record outside quotes. -/
def LineEndIn (opts : CsvOptions) (c : UInt8) : Prop :=
  (c = cr ∨ c = lf) ∧ c ≠ opts.quote ∧ c ≠ opts.delimiter

/-- The text ends with an empty quoted field right behind a line end. -/
def AfterLine (opts : CsvOptions) (quoted : Bool) (x : Bytes) : Prop :=
  ∃ p c, x = p ++ [c, opts.quote, opts.quote] ∧ LineEndIn opts c ∧
    (quoted.toNat + p.count opts.quote) % 2 = 0

/-- No line break at the end of a text. -/
def EndsInLine (x : Bytes) : Prop := ∀ c ∈ x.getLast?, c ≠ cr ∧ c ≠ lf

theorem EndsInLine.suffix (hend : EndsInLine x) (hsuffix : x' <:+ x) : EndsInLine x' := by
  obtain ⟨front, rfl⟩ := hsuffix
  intro c hc
  refine hend c ?_
  rw [Option.mem_def] at hc ⊢
  rw [List.getLast?_append, hc]
  rfl

theorem AfterLine.quote {quoted : Bool} (h : AfterLine opts quoted x) :
    AfterLine opts (!quoted) (opts.quote :: x) := by
  obtain ⟨p, c, rfl, hc, heven⟩ := h
  refine ⟨opts.quote :: p, c, rfl, hc, ?_⟩
  rw [List.count_cons_self]
  cases quoted <;> simp only [Bool.toNat_true, Bool.toNat_false, Bool.not_true, Bool.not_false] at heven ⊢ <;>
    omega

theorem AfterLine.cons {quoted : Bool} {c : UInt8} (h : AfterLine opts quoted x) (hc : c ≠ opts.quote) :
    AfterLine opts quoted (c :: x) := by
  obtain ⟨p, d, rfl, hd, heven⟩ := h
  exact ⟨c :: p, d, rfl, hd, by rwa [List.count_cons_of_ne hc]⟩

/-- What is left to read ends with an empty quoted field, alone in its record. -/
def EndsEmpty (opts : CsvOptions) (s : ParseState) (x : Bytes) : Prop :=
  AfterLine opts s.inQuotes x ∨
    (AtRecordStart s ∧ (x = [] ∧ s.inQuotes = false ∨ x = [opts.quote] ∧ s.inQuotes = true ∨
      x = [opts.quote, opts.quote] ∧ s.inQuotes = false))

/-- A text that ends empty behind a line end ends empty after that line. -/
theorem EndsEmpty.afterLine {c : UInt8} (h : EndsEmpty opts (endRow s) x) (hopen : s.inQuotes = false)
    (hc : LineEndIn opts c) (hne : x ≠ []) : AfterLine opts false (c :: x) := by
  rcases h with hafter | ⟨_, hx | hx | hx⟩
  · rw [endRow, hopen] at hafter
    exact hafter.cons hc.2.1
  · exact absurd hx.1 hne
  · exact absurd (hopen.symm.trans hx.2) Bool.false_ne_true
  · exact ⟨[], c, by rw [hx.1, List.nil_append], hc, rfl⟩

/-- A record start at the end is behind an empty quoted field. -/
theorem endsEmpty_of_atRecordStart {j : Nat} {final : ParseState} (hquote : opts.quote ≠ lf)
    (hdelimiter : opts.delimiter ≠ lf) (hend : EndsInLine x) (hread : readFrom maxArraySize opts i s x = .ok (j, final))
    (hstart : AtRecordStart final) (hopen : final.inQuotes = false) : EndsEmpty opts s x := by
  induction i, s, x using round_induction maxArraySize opts with
  | nil i s =>
    rw [readFrom_nil] at hread
    cases hread
    exact .inr ⟨hstart, .inl ⟨rfl, hopen⟩⟩
  | stop i s x r _ hstop =>
    have hfront := hstop []
    rw [List.append_nil, hread] at hfront
    cases hfront
  | round i s x i' s' x' hround ih =>
    have hrest := ih (hend.suffix hround.suffix) (hround.readFrom_eq.symm.trans hread)
    -- every round but a line end or a quote leaves something of the record behind
    cases hround with
    | escaped hquoted =>
      rcases hrest with hafter | ⟨⟨hfield, _⟩, _⟩
      · left
        simpa using hafter.quote.quote
      · simp at hfield
    | close hquoted hnext =>
      rcases hrest with hafter | ⟨hs, hx | hx | hx⟩
      · left
        simpa [hquoted] using hafter.quote
      · exact .inr ⟨hs, .inr (.inl ⟨by rw [hx.1], hquoted⟩)⟩
      · cases hx.2
      · exact absurd (by rw [hx.1]; rfl) hnext
    | opening hopen =>
      rcases hrest with hafter | ⟨hs, hx | hx | hx⟩
      · left
        simpa [hopen] using hafter.quote
      · cases hx.2
      · exact .inr ⟨hs, .inr (.inr ⟨by rw [hx.1], hopen⟩)⟩
      · cases hx.2
    | inside hquoted hc =>
      rcases hrest with hafter | ⟨⟨hfield, _⟩, _⟩
      · exact .inl (hafter.cons hc)
      · simp at hfield
    | delimiter hopen hquote' hroom =>
      rcases hrest with hafter | ⟨⟨_, hrow⟩, _⟩
      · exact .inl (hafter.cons hquote')
      · simp [endField] at hrow
    | crlf hopen hquote' hdelimiter' hroom =>
      left
      have hne : x' ≠ [] := by
        rintro rfl
        exact (hend lf rfl).2 rfl
      rw [hopen]
      exact (hrest.afterLine hopen ⟨.inr rfl, hquote.symm, hdelimiter.symm⟩ hne).cons hquote'
    | @lineEnd c rest hc hopen hquote' hdelimiter' hroom hnext =>
      left
      have hne : x' ≠ [] := by
        rintro rfl
        rcases hc with rfl | rfl
        · exact (hend cr rfl).1 rfl
        · exact (hend lf rfl).2 rfl
      rw [hopen]
      exact hrest.afterLine hopen ⟨hc, hquote', hdelimiter'⟩ hne
    | ordinary hopen hc =>
      rcases hrest with hafter | ⟨⟨hfield, _⟩, _⟩
      · simp only [isQuoteTrigger, Bool.or_eq_false_iff, decide_eq_false_iff_not] at hc
        exact .inl (hafter.cons hc.1.1.2)
      · simp at hfield

/-- Behind a line end outside quotes the parser is at a record start. -/
theorem atRecordStart_of_lineEnd {j : Nat} {final : ParseState} {c : UInt8} (hc : LineEndIn opts c)
    (hlast : c ∈ x.getLast?) (hread : readFrom maxArraySize opts i s x = .ok (j, final))
    (hopen : final.inQuotes = false) : AtRecordStart final := by
  induction i, s, x using round_induction maxArraySize opts with
  | nil i s => cases hlast
  | stop i s x r _ hstop =>
    have hfront := hstop []
    rw [List.append_nil, hread] at hfront
    cases hfront
  | round i s x i' s' x' hround ih =>
    rw [hround.readFrom_eq] at hread
    by_cases hne : x' = []
    · -- the round is the last one
      subst hne
      rw [readFrom_nil] at hread
      cases hread
      cases hround with
      | escaped | close | opening => cases hlast; exact absurd rfl hc.2.1
      | inside hquoted => exact absurd (hopen.symm.trans hquoted) Bool.false_ne_true
      | delimiter => cases hlast; exact absurd rfl hc.2.2
      | crlf | lineEnd => exact ⟨rfl, rfl⟩
      | ordinary _ hordinary =>
        cases hlast
        simp only [isQuoteTrigger, Bool.or_eq_false_iff, decide_eq_false_iff_not] at hordinary
        rcases hc.1 with rfl | rfl
        · exact absurd rfl hordinary.2
        · exact absurd rfl hordinary.1.2
    · refine ih ?_ hread
      obtain ⟨front, hfront⟩ := hround.suffix
      rw [← hfront, List.getLast?_append, List.getLast?_eq_some_getLast hne] at hlast
      rw [List.getLast?_eq_some_getLast hne]
      exact hlast

variable (opts) in
/-- The last record of the text is nothing but an empty quoted field. -/
def LastRecordEmptyQuoted (x : Bytes) : Prop :=
  x = [opts.quote, opts.quote] ∨ AfterLine opts false x

/-- An empty quoted field adds nothing to the state. -/
theorem readFrom_emptyQuoted (hopen : s.inQuotes = false) :
    readFrom maxArraySize opts i s [opts.quote, opts.quote] =
      .ok (i + 1 + 1, { s with inQuotes := false, quoteStart := i }) := by
  have hfirst : Round maxArraySize opts i s [opts.quote, opts.quote] (i + 1)
      { s with inQuotes := true, quoteStart := i } [opts.quote] := .opening hopen
  have hsecond : Round maxArraySize opts (i + 1) { s with inQuotes := true, quoteStart := i } [opts.quote]
      (i + 1 + 1) { s with inQuotes := false, quoteStart := i } [] := .close rfl (by simp)
  rw [hfirst.readFrom_eq, hsecond.readFrom_eq, readFrom_nil]

theorem inQuotes_of_readFrom {j : Nat} {final : ParseState} (hquote : opts.quote ≠ lf)
    (hread : readFrom maxArraySize opts i s x = .ok (j, final)) :
    final.inQuotes.toNat = (s.inQuotes.toNat + x.count opts.quote) % 2 := by
  by_cases hover : OverLimit maxArraySize opts s x
  · obtain ⟨r, hfail⟩ := readFrom_of_overLimit hover (i := i)
    rw [hread] at hfail
    cases hfail
  · obtain ⟨j', final', hread', _, hparity⟩ := readFrom_of_not_overLimit hover (i := i)
    rw [hread] at hread'
    cases hread'
    exact hparity hquote

/-- A balanced text that does not end a line leaves the parser at a record start only behind
    an empty quoted field. -/
theorem atRecordStart_iff {j : Nat} {final : ParseState} (hquote : opts.quote ≠ lf)
    (hdelimiter : opts.delimiter ≠ lf) (hne : x ≠ []) (hend : EndsInLine x)
    (hread : readFrom maxArraySize opts 0 {} x = .ok (j, final)) (hopen : final.inQuotes = false) :
    AtRecordStart final ↔ LastRecordEmptyQuoted opts x := by
  constructor
  · intro hstart
    rcases endsEmpty_of_atRecordStart hquote hdelimiter hend hread hstart hopen with
      hafter | ⟨_, hx | hx | hx⟩
    · exact .inr hafter
    · exact absurd hx.1 hne
    · cases hx.2
    · exact .inl hx.1
  · rintro (rfl | ⟨p, c, rfl, hc, heven⟩)
    · rw [readFrom_emptyQuoted rfl] at hread
      cases hread
      exact ⟨rfl, rfl⟩
    · have hcut : CutsCleanly opts (p ++ [c]) [opts.quote, opts.quote] := by
        intro d hd e he
        rw [List.getLast?_append, List.getLast?_singleton] at hd
        cases hd
        cases he
        exact ⟨fun h => hc.2.1 h.1, fun h => hquote h.2⟩
      rw [List.append_cons, readFrom_append hcut] at hread
      cases hfront : readFrom maxArraySize opts 0 {} (p ++ [c]) with
      | error r =>
        rw [hfront] at hread
        cases hread
      | ok result =>
        obtain ⟨k, s'⟩ := result
        have hs' : s'.inQuotes = false := by
          have hparity := inQuotes_of_readFrom hquote hfront
          rw [List.count_append, List.count_cons_of_ne hc.2.1, List.count_nil, Nat.add_zero] at hparity
          exact Bool.toNat_eq_zero.mp (hparity.trans heven)
        have hstart := atRecordStart_of_lineEnd hc (by simp) hfront hs'
        rw [hfront] at hread
        simp only at hread
        rw [readFrom_emptyQuoted hs'] at hread
        cases hread
        exact hstart

/-! ## The line feed at the end -/

/-- The rows of two outcomes; a script gets none of a failure. -/
def SameRows (a b : ParseResult) : Prop := a.rows = b.rows ∧ a.success = b.success

/-- Every quoted section is closed. -/
def Balanced (opts : CsvOptions) (x : Bytes) : Prop := x.count opts.quote % 2 = 0

/-- The parser over two texts goes on where it stood behind the first. -/
theorem parseFrom_append {t : Bytes} (hcut : CutsCleanly opts x t) :
    parseFrom maxArraySize opts i s (x ++ t) =
      match readFrom maxArraySize opts i s x with
      | .error r => r
      | .ok (j, s') => parseFrom maxArraySize opts j s' t := by
  rw [parseFrom_eq, readFrom_append hcut]
  cases readFrom maxArraySize opts i s x with
  | error r => rfl
  | ok result => exact (parseFrom_eq result.1 result.2 t).symm

theorem cutsCleanly_lineFeed (hend : EndsInLine x) : CutsCleanly opts x [lf] := by
  intro c hc d hd
  cases hd
  exact ⟨fun h => (hend c hc).2 (h.1.trans h.2.symm), fun h => (hend c hc).1 h.1⟩

instance : Decidable (AtRecordStart s) := inferInstanceAs (Decidable (_ ∧ _))

/-- The end of the input flushes what has been read of a record. -/
theorem finish_rows :
    (finish s).rows = if AtRecordStart s then s.rows else s.rows ++ [s.currentRow ++ [s.field]] := by
  unfold finish AtRecordStart
  by_cases hfield : s.field = [] <;> by_cases hrow : s.currentRow = [] <;> cases s.inQuotes <;>
    simp [hfield, hrow]

/-- A line feed that is the quote opens a section or closes one: the outcome changes. -/
theorem not_sameRows_of_quote (hquote : opts.quote = lf) :
    ¬ SameRows (parseFrom maxArraySize opts i s [lf]) (finish s) := by
  rintro ⟨_, hsuccess⟩
  cases hopen : s.inQuotes with
  | false =>
    rw [← hquote, parseFrom_open hopen, parseFrom_nil] at hsuccess
    simp [finish, hopen] at hsuccess
  | true =>
    rw [← hquote, parseFrom_close hopen (by simp), parseFrom_nil] at hsuccess
    simp [finish, hopen] at hsuccess

/-- Outside quotes a line feed at the end does what the end does, in a dialect that has it for
    a line end, below the limit on rows and inside a record. -/
theorem sameRows_lineFeed_iff (hopen : s.inQuotes = false) (hquote : opts.quote ≠ lf) :
    SameRows (parseFrom maxArraySize opts i s [lf]) (finish s) ↔
      opts.delimiter ≠ lf ∧ s.rows.length < maxArraySize ∧ ¬ AtRecordStart s := by
  have hcr : lf ≠ cr := by decide
  have hsuccess : (finish s).success = true := by simp [finish, hopen]
  rw [parseFrom.eq_def]
  simp only [hopen, Bool.false_eq_true, if_false, hquote.symm, hcr, if_true]
  by_cases hdelimiter : lf = opts.delimiter
  · -- the line feed ends a field, and leaves another one behind
    rw [if_pos hdelimiter]
    refine iff_of_false ?_ fun h => h.1 hdelimiter.symm
    rintro ⟨hrows, hboth⟩
    split at hrows
    next hfull =>
      rw [if_pos hfull, hsuccess] at hboth
      cases hboth
    next =>
      rw [parseFrom_nil, finish_rows, finish_rows, if_neg (by simp [AtRecordStart])] at hrows
      have hlengths := congrArg (List.map List.length) hrows
      split at hlengths <;> simp at hlengths
  · rw [if_neg hdelimiter]
    have hdelimiter' : opts.delimiter ≠ lf := fun h => hdelimiter h.symm
    rcases Nat.lt_or_ge s.rows.length maxArraySize with hroom | hfull
    · rw [finalizeRow_of_room hroom]
      simp only [parseFrom_nil]
      have hflushed : (finish (endRow s)).rows = s.rows ++ [s.currentRow ++ [s.field]] := by
        rw [finish_rows, if_pos ⟨rfl, rfl⟩]
        rfl
      have hsuccess' : (finish (endRow s)).success = true := by simp [finish, endRow, hopen]
      rw [SameRows, hflushed, hsuccess, hsuccess', finish_rows]
      by_cases hstart : AtRecordStart s
      · rw [if_pos hstart]
        simp [hstart]
      · rw [if_neg hstart]
        simp [hstart, hdelimiter', hroom]
    · have hfinal : finalizeRow maxArraySize s = none := if_pos hfull
      rw [hfinal]
      refine iff_of_false ?_ fun h => Nat.not_le.mpr h.2.1 hfull
      rintro ⟨_, hboth⟩
      rw [hsuccess] at hboth
      cases hboth

/-- A line feed behind a text that does not end a line changes nothing, unless the dialect
    has it for a delimiter or a quote, the rows are at their limit already, or the last
    record is nothing but an empty quoted field. -/
theorem final_newline_iff (hne : x ≠ []) (hend : EndsInLine x) (hbalanced : Balanced opts x) :
    SameRows (parseCsv maxArraySize opts (x ++ [lf])) (parseCsv maxArraySize opts x) ↔
      Exceeds maxArraySize 0 0 (delimiterCounts opts false x) ∨
        (opts.quote ≠ lf ∧ opts.delimiter ≠ lf ∧ lineEnds opts x < maxArraySize ∧
          ¬ LastRecordEmptyQuoted opts x) := by
  have hwhole : parseCsv maxArraySize opts (x ++ [lf]) = _ := parseFrom_append (cutsCleanly_lineFeed hend)
  have hfront : parseCsv maxArraySize opts x = _ := parseFrom_eq 0 {} x
  rw [hwhole, hfront]
  by_cases hover : OverLimit maxArraySize opts {} x
  · obtain ⟨r, hfail⟩ := readFrom_of_overLimit hover (i := 0)
    rw [hfail]
    exact iff_of_true ⟨rfl, rfl⟩ (.inl hover)
  · obtain ⟨j, final, hread, hrows, hparity⟩ := readFrom_of_not_overLimit hover (i := 0)
    have hover' : ¬ Exceeds maxArraySize 0 0 (delimiterCounts opts false x) := hover
    rw [hread, or_iff_right hover']
    simp only
    by_cases hquote : opts.quote = lf
    · exact iff_of_false (not_sameRows_of_quote hquote) fun h => h.1 hquote
    have hopen : final.inQuotes = false := by
      have heven := hparity hquote
      rw [Bool.toNat_false, Nat.zero_add, hbalanced] at heven
      exact Bool.toNat_eq_zero.mp heven
    have hends : final.rows.length = lineEnds opts x := by
      rw [lineEnds]
      simp only [List.length_nil] at hrows
      omega
    rw [sameRows_lineFeed_iff hopen hquote, hends]
    constructor
    · rintro ⟨hdelimiter, hroom, hstart⟩
      exact ⟨hquote, hdelimiter, hroom,
        fun h => hstart ((atRecordStart_iff hquote hdelimiter hne hend hread hopen).mpr h)⟩
    · rintro ⟨_, hdelimiter, hroom, hlast⟩
      exact ⟨hdelimiter, hroom,
        fun h => hlast ((atRecordStart_iff hquote hdelimiter hne hend hread hopen).mp h)⟩

/-- `a,b` reads the same with a line feed behind it. -/
theorem final_newline_iff_two_fields :
    SameRows (parseCsv 10000000 {} ([97, 44, 98] ++ [lf])) (parseCsv 10000000 {} [97, 44, 98]) := by
  have hend : EndsInLine [97, 44, 98] := by
    intro c hc
    cases hc
    decide
  have hbalanced : Balanced {} [97, 44, 98] := rfl
  refine (final_newline_iff (by decide) hend hbalanced).mpr (.inr ⟨by decide, by decide, by decide, ?_⟩)
  rintro (h | ⟨p, c, h, _⟩)
  · cases h
  · have hlast := congrArg List.getLast? h
    rw [List.getLast?_append] at hlast
    cases hlast

/-- The text `""` holds no record, and the same text with a line feed behind it holds one. -/
theorem empty_quoted_text_dropped :
    ([34, 34] : Bytes) ≠ [] ∧ EndsInLine [34, 34] ∧ Balanced {} [34, 34] ∧
      (parseCsv 10000000 {} [34, 34]).rows = [] ∧ (parseCsv 10000000 {} ([34, 34] ++ [lf])).rows = [[[]]] ∧
      ¬ SameRows (parseCsv 10000000 {} ([34, 34] ++ [lf])) (parseCsv 10000000 {} [34, 34]) := by
  have hend : EndsInLine [34, 34] := by
    intro c hc
    cases hc
    decide
  have hshort : (parseCsv 10000000 {} [34, 34]).rows = [] := by decide
  have hlong : (parseCsv 10000000 {} ([34, 34] ++ [lf])).rows = [[[]]] := by decide
  refine ⟨by decide, hend, rfl, hshort, hlong, ?_⟩
  rintro ⟨hrows, _⟩
  rw [hshort, hlong] at hrows
  cases hrows

end Loop

end Luma.Csv
