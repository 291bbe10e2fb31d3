-- SUMMARY: Chunked bodies as texts, and when the decoder gives the same one however the response arrives.
import Luma.Stdlib.ChunkedSteps

/-! # Chunked bodies

A chunked body is chunks one after the other and a last size line for zero. The decoder
reads just these texts. It gives the same result however a response is cut, unless one of
the cuts leaves more than the longest size line without a line break. -/

namespace Luma.Http

open Codec

/-! ## Texts -/

/-- `1*HEXDIG`, white space and chunk extensions, for a size that fits 64 bits. -/
def SizeLine (line : Bytes) (size : Nat) : Prop :=
  ∃ digits padding extensions, line = digits ++ padding ++ extensions ∧ digits ≠ [] ∧
    (∀ c ∈ digits, (hexDigit c).isSome = true) ∧ (∀ c ∈ padding, isPadding c = true) ∧
      (∀ c ∈ extensions.head?, c = 59) ∧ hexValue digits = size ∧ size < sizeRange

/-- Chunks one after the other, with what they contain. -/
inductive Chunks : Bytes → Bytes → Prop
  | nil : Chunks [] []
  | snoc {chunks body line content : Bytes} : Chunks chunks body → ¬crlf <:+: line → SizeLine line content.length →
      content ≠ [] → Chunks (chunks ++ (line ++ crlf ++ content ++ crlf)) (body ++ content)

/-- A chunked body up to its first chunk of size zero. -/
def CompleteBody (text body : Bytes) : Prop :=
  ∃ chunks line trailers, text = chunks ++ (line ++ crlf ++ trailers) ∧ Chunks chunks body ∧ ¬crlf <:+: line ∧ SizeLine line 0

/-- At the front is no chunk: no line, no size, or no line break after the content. -/
def Rejected (room : Nat) (text : Bytes) : Prop :=
  ¬crlf <:+: text ∨ ∃ line more, text = line ++ crlf ++ more ∧ ¬crlf <:+: line ∧
    ((∀ size, ¬SizeLine line size) ∨ ∃ content tail, more = content ++ tail ∧ SizeLine line content.length ∧
      content ≠ [] ∧ content.length ≤ room ∧ 2 ≤ tail.length ∧ ¬crlf <+: tail)

section Texts

variable {line field digits padding text : Bytes} {size pos : Nat} {data : Bytes}

theorem ne_semicolon_of_hexDigit {c : UInt8} (h : (hexDigit c).isSome = true) : c ≠ 59 ∧ isPadding c = false := by
  constructor
  · rintro rfl
    cases h
  · rw [isPadding, Bool.or_eq_false_iff, decide_eq_false_iff_not, decide_eq_false_iff_not]
    constructor
    · rintro rfl
      cases h
    · rintro rfl
      cases h

theorem chunkSize_iff :
    chunkSize field = some size ↔
      field ≠ [] ∧ (∀ c ∈ field, (hexDigit c).isSome = true) ∧ hexValue field = size ∧ size < sizeRange := by
  have hall : (fromCharsHex field).1 = field.length ↔ ∀ c ∈ field, (hexDigit c).isSome = true := by
    rw [fromCharsHex, ← List.takeWhile_eq_self_iff]
    constructor
    · exact fun h => (List.takeWhile_prefix _).eq_of_length h
    · exact fun h => congrArg List.length h
  have hsize : chunkSize field =
      if field.isEmpty ∨ (fromCharsHex field).1 ≠ field.length then none else (fromCharsHex field).2 := rfl
  rw [hsize]
  split
  next hbad =>
    refine ⟨fun h => (Option.some_ne_none _ h.symm).elim, fun h => ?_⟩
    rcases hbad with hempty | hrest
    · exact absurd (List.isEmpty_iff.mp hempty) h.1
    · exact absurd (hall.mpr h.2.1) hrest
  next hgood =>
    rw [not_or, not_not, List.isEmpty_iff] at hgood
    have hfield := hall.mp hgood.2
    have htake : (field.takeWhile fun c => (hexDigit c).isSome) = field := List.takeWhile_eq_self_iff.mpr hfield
    rw [fromCharsHex, htake]
    simp only [Option.ite_none_right_eq_some, Option.some.injEq]
    constructor
    · rintro ⟨⟨-, hlt⟩, rfl⟩
      exact ⟨hgood.1, hfield, rfl, hlt⟩
    · rintro ⟨-, -, rfl, hlt⟩
      exact ⟨⟨hgood.1, hlt⟩, rfl⟩

/-- The decoder reads the sizes of size lines. -/
theorem chunkSize_sizeField : chunkSize (sizeField line) = some size ↔ SizeLine line size := by
  rw [chunkSize_iff]
  constructor
  · rintro ⟨hne, hhex, hvalue, hlt⟩
    refine ⟨sizeField line, (line.takeWhile (· ≠ 59)).rtakeWhile isPadding, line.dropWhile (· ≠ 59), ?_, hne, hhex, ?_, ?_,
      hvalue, hlt⟩
    · rw [sizeField, List.rdropWhile_append_rtakeWhile, List.takeWhile_append_dropWhile]
    · exact fun c hc => List.mem_rtakeWhile_imp hc
    · intro c hc
      have hhead := List.head?_dropWhile_not (fun c => decide (c ≠ 59)) line
      rw [Option.mem_def.mp hc] at hhead
      exact not_not.mp (of_decide_eq_false hhead)
  · rintro ⟨digits, padding, extensions, rfl, hne, hhex, hpadding, hhead, hvalue, hlt⟩
    have hfield : sizeField (digits ++ padding ++ extensions) = digits := by
      have hbefore : (digits ++ padding ++ extensions).takeWhile (· ≠ 59) = digits ++ padding := by
        refine Scanning.takeWhile_run (fun c hc => decide_eq_true ?_) fun c hc => decide_eq_false (not_not.mpr (hhead c hc))
        rcases List.mem_append.mp hc with hc | hc
        · exact (ne_semicolon_of_hexDigit (hhex c hc)).1
        · rintro rfl
          cases hpadding 59 hc
      have hstop : ∀ c ∈ digits.reverse.head?, isPadding c = false := by
        intro c hc
        rw [List.head?_reverse] at hc
        exact (ne_semicolon_of_hexDigit (hhex c (List.mem_of_getLast? hc))).2
      rw [sizeField, hbefore, List.rdropWhile, List.reverse_append,
        Scanning.dropWhile_run (fun c hc => hpadding c (List.mem_reverse.mp hc)) hstop, List.reverse_reverse]
    rw [hfield]
    exact ⟨hne, hhex, hvalue, hlt⟩

/-! ## Lines in a text -/

/-- The first line break is behind a line that has none in it. -/
theorem findCrlf_iff {lineEnd : Nat} :
    findCrlf data pos = some lineEnd ↔
      ∃ line more, data.drop pos = line ++ crlf ++ more ∧ ¬crlf <:+: line ∧ lineEnd = pos + line.length := by
  constructor
  · intro h
    obtain ⟨found, hfound, rfl⟩ := Option.map_eq_some_iff.mp h
    refine ⟨found.1, found.2, Scanning.splitAtMarker_eq hfound, ?_, rfl⟩
    rintro ⟨before, after, hline⟩
    have hdrop : data.drop pos = found.1 ++ crlf ++ found.2 := Scanning.splitAtMarker_eq hfound
    have hearlier : data.drop pos = before ++ crlf ++ (after ++ (crlf ++ found.2)) := by
      rw [hdrop, ← hline]
      simp only [List.append_assoc]
    have hfirst : found.1.length ≤ before.length := Scanning.splitAtMarker_first hfound hearlier
    have hlength := congrArg List.length hline
    simp only [List.length_append, crlf, List.length_cons, List.length_nil] at hlength
    omega
  · rintro ⟨line, more, hdrop, hline, rfl⟩
    have hwithin : crlf <:+: data.drop pos := by
      rw [hdrop]
      exact ⟨line, more, rfl⟩
    obtain ⟨found, hfound⟩ := Option.isSome_iff_exists.mp (Scanning.splitAtMarker_isSome hwithin)
    have hlength : found.1.length = line.length := by
      have hsplit : data.drop pos = found.1 ++ crlf ++ found.2 := Scanning.splitAtMarker_eq hfound
      have hfirst : found.1.length ≤ line.length := Scanning.splitAtMarker_first hfound hdrop
      by_contra hne
      rw [hdrop, List.append_assoc, List.append_assoc] at hsplit
      obtain ⟨middle, rfl, hmiddle⟩ : ∃ middle, line = found.1 ++ middle ∧ crlf ++ found.2 = middle ++ (crlf ++ more) := by
        rcases List.append_eq_append_iff.mp hsplit with ⟨middle, hfront, hback⟩ | ⟨middle, hfront, hback⟩
        · have hempty : middle = [] := by
            have hlen := congrArg List.length hfront
            rw [List.length_append] at hlen
            exact List.length_eq_zero_iff.mp (by omega)
          subst hempty
          exact ⟨[], by simpa using hfront.symm, by simpa using hback.symm⟩
        · exact ⟨middle, hfront, hback⟩
      -- A line break in the line itself, or one that starts with its last byte.
      cases middle with
      | nil => exact hne (by rw [List.append_nil])
      | cons c middle =>
        obtain ⟨rfl, hrest⟩ := List.cons.inj hmiddle
        cases middle with
        | nil => cases hrest
        | cons c middle =>
          obtain ⟨rfl, -⟩ := List.cons.inj hrest
          exact hline ⟨found.1, middle, by rw [List.append_assoc]; rfl⟩
    rw [findCrlf, hfound, Option.map_some, hlength]

end Texts

namespace ChunkedBodyDecoder

variable {data : Bytes} {decoder decoder' : ChunkedBodyDecoder} {bodyStart maxBodySize : Nat}

/-! ## What the steps have read -/

theorem lineAt_iff {lineEnd : Nat} {size : Option Nat} :
    LineAt data decoder lineEnd size ↔
      ∃ line more, data.drop decoder.pos = line ++ crlf ++ more ∧ ¬crlf <:+: line ∧
        lineEnd = decoder.pos + line.length ∧ chunkSize (sizeField line) = size := by
  have hslice : ∀ line more, data.drop decoder.pos = line ++ crlf ++ more →
      slice data decoder.pos (decoder.pos + line.length - decoder.pos) = line := by
    intro line more hdrop
    rw [slice, Nat.add_sub_cancel_left, hdrop, List.append_assoc, List.take_left]
  constructor
  · rintro ⟨hfind, hsize⟩
    obtain ⟨line, more, hdrop, hline, rfl⟩ := findCrlf_iff.mp hfind
    rw [hslice line more hdrop] at hsize
    exact ⟨line, more, hdrop, hline, rfl, hsize⟩
  · rintro ⟨line, more, hdrop, hline, rfl, hsize⟩
    refine ⟨findCrlf_iff.mpr ⟨line, more, hdrop, hline, rfl⟩, ?_⟩
    rw [hslice line more hdrop]
    exact hsize

/-- What is behind a line. -/
theorem drop_line {line more : Bytes} (hdrop : data.drop decoder.pos = line ++ crlf ++ more) :
    data.drop (decoder.pos + line.length + 2) = more := by
  have hlength : line.length + 2 = (line ++ crlf).length := by rw [List.length_append]; rfl
  rw [Nat.add_assoc, ← List.drop_drop, hdrop, hlength, List.drop_left]

/-- A chunk of the stream as a text. -/
theorem chunkAt_iff {lineEnd size : Nat} :
    ChunkAt data decoder lineEnd size ∧ slice data (lineEnd + 2 + size) 2 = crlf ↔
      ∃ line content more, data.drop decoder.pos = line ++ crlf ++ content ++ crlf ++ more ∧ ¬crlf <:+: line ∧
        lineEnd = decoder.pos + line.length ∧ size = content.length ∧ SizeLine line content.length ∧ content ≠ [] ∧
          decoder.body.length + content.length ≤ decoder.maxBodySize := by
  constructor
  · rintro ⟨⟨hline, hpos, hfits, harrived⟩, hterminator⟩
    obtain ⟨line, more, hdrop, hfree, rfl, hsize⟩ := lineAt_iff.mp hline
    have hmore := drop_line hdrop
    have hlength : size ≤ more.length := by
      rw [← hmore, List.length_drop]
      omega
    have hcontent : (more.take size).length = size := by rw [List.length_take, Nat.min_eq_left hlength]
    rw [slice, ← List.drop_drop, hmore] at hterminator
    refine ⟨line, more.take size, (more.drop size).drop 2, ?_, hfree, rfl, hcontent.symm, ?_, ?_, ?_⟩
    · rw [hdrop, List.append_assoc _ crlf ((more.drop size).drop 2), ← hterminator, List.take_append_drop,
        List.append_assoc _ (more.take size), List.take_append_drop]
    · rw [hcontent]
      exact chunkSize_sizeField.mp hsize
    · rintro hnil
      rw [hnil, List.length_nil] at hcontent
      omega
    · rw [hcontent]
      exact hfits
  · rintro ⟨line, content, more, hdrop, hfree, rfl, rfl, hsize, hne, hfits⟩
    have hdrop' : data.drop decoder.pos = line ++ crlf ++ (content ++ (crlf ++ more)) := by
      rw [hdrop]
      simp only [List.append_assoc]
    have hmore := drop_line hdrop'
    have hlength := congrArg List.length hmore
    rw [List.length_drop, List.length_append, List.length_append, crlf] at hlength
    simp only [List.length_cons, List.length_nil] at hlength
    have hpos := List.length_pos_iff.mpr hne
    refine ⟨⟨lineAt_iff.mpr ⟨line, _, hdrop', hfree, rfl, chunkSize_sizeField.mpr hsize⟩, hpos, hfits, by omega⟩, ?_⟩
    rw [slice, ← List.drop_drop, hmore, List.drop_left]
    rfl

/-- The decoder that has read some chunks. -/
def reading (bodyStart maxBodySize : Nat) (chunks body : Bytes) : ChunkedBodyDecoder where
  pos := bodyStart + chunks.length
  maxBodySize := maxBodySize
  body := body
  status := .needMore

/-- Steps read chunks. -/
theorem reaches_of_chunks {chunks body rest : Bytes} (hchunks : Chunks chunks body)
    (hdata : data.drop bodyStart = chunks ++ rest) (hfits : body.length ≤ maxBodySize) :
    Resumption.Reaches advance data (new bodyStart maxBodySize) (reading bodyStart maxBodySize chunks body) := by
  induction hchunks generalizing rest with
  | nil => exact .refl
  | @snoc chunks body line content hchunks hfree hsize hne ih =>
    rw [List.length_append] at hfits
    rw [List.append_assoc] at hdata
    refine (ih hdata (by omega)).trans (.head ?_ .refl)
    have hdrop : data.drop (bodyStart + chunks.length) = line ++ crlf ++ content ++ crlf ++ rest := by
      rw [← List.drop_drop, hdata, List.drop_left]
    obtain ⟨hchunk, hterminator⟩ := (@chunkAt_iff data (reading bodyStart maxBodySize chunks body) _ _).mpr
      ⟨line, content, rest, hdrop, hfree, rfl, rfl, hsize, hne, hfits⟩
    have hnext : reading bodyStart maxBodySize (chunks ++ (line ++ crlf ++ content ++ crlf)) (body ++ content) =
        behind data (reading bodyStart maxBodySize chunks body) (bodyStart + chunks.length + line.length) content.length := by
      have hcontent : slice data (bodyStart + chunks.length + line.length + 2) content.length = content := by
        have hdrop' : data.drop (reading bodyStart maxBodySize chunks body).pos = line ++ crlf ++ (content ++ (crlf ++ rest)) := by
          refine hdrop.trans ?_
          simp only [List.append_assoc]
        have hmore := drop_line hdrop'
        rw [slice]
        exact (congrArg (List.take content.length) hmore).trans List.take_left
      rw [reading, behind, reading, hcontent]
      simp only [List.length_append, crlf, List.length_cons, List.length_nil]
      congr 1
      omega
    rw [hnext]
    exact advance_iff.mpr ⟨rfl, .chunk hchunk hterminator⟩

/-- What the decoder has read, and what it has found at the end of it. -/
structure HasRead (data : Bytes) (bodyStart maxBodySize : Nat) (decoder : ChunkedBodyDecoder) : Prop where
  reading : decoder.status = .needMore → ∃ chunks rest, data.drop bodyStart = chunks ++ rest ∧ Chunks chunks decoder.body ∧
    decoder.body.length ≤ maxBodySize ∧ decoder = ChunkedBodyDecoder.reading bodyStart maxBodySize chunks decoder.body
  complete : decoder.status = .complete →
    CompleteBody (data.drop bodyStart) decoder.body ∧ decoder.body.length ≤ maxBodySize

theorem hasRead_of_reaches (h : Resumption.Reaches advance data (new bodyStart maxBodySize) decoder) :
    HasRead data bodyStart maxBodySize decoder := by
  refine h.invariant (P := HasRead data bodyStart maxBodySize) (fun decoder decoder' hread hstep => ?_) ?_
  · obtain ⟨hstatus, hadvances⟩ := advance_iff.mp hstep
    obtain ⟨chunks, rest, hdata, hchunks, hfits, hdecoder⟩ := hread.reading hstatus
    have hpos : decoder.pos = bodyStart + chunks.length := congrArg ChunkedBodyDecoder.pos hdecoder
    have hmax : decoder.maxBodySize = maxBodySize := congrArg ChunkedBodyDecoder.maxBodySize hdecoder
    have hdrop : data.drop decoder.pos = rest := by rw [hpos, ← List.drop_drop, hdata, List.drop_left]
    cases hadvances with
    | noSize => exact ⟨fun h => (by cases h), fun h => (by cases h)⟩
    | tooLarge => exact ⟨fun h => (by cases h), fun h => (by cases h)⟩
    | noTerminator => exact ⟨fun h => (by cases h), fun h => (by cases h)⟩
    | last hline =>
      refine ⟨fun h => (by cases h), fun _ => ⟨?_, hfits⟩⟩
      obtain ⟨line, more, hmore, hfree, -, hsize⟩ := lineAt_iff.mp hline
      rw [hdrop] at hmore
      rw [hdata, hmore]
      exact ⟨chunks, line, more, rfl, hchunks, hfree, chunkSize_sizeField.mp hsize⟩
    | @chunk lineEnd size hchunk hterminator =>
      refine ⟨fun _ => ?_, fun h => (by rw [behind] at h; exact absurd (hstatus.symm.trans h) (by decide))⟩
      obtain ⟨line, content, more, hmore, hfree, rfl, rfl, hsize, hne, hroom⟩ := chunkAt_iff.mp ⟨hchunk, hterminator⟩
      have hcontent : slice data (decoder.pos + line.length + 2) content.length = content := by
        have hmore' : data.drop decoder.pos = line ++ crlf ++ (content ++ (crlf ++ more)) := by
          rw [hmore]
          simp only [List.append_assoc]
        rw [slice, drop_line hmore', List.take_left]
      refine ⟨chunks ++ (line ++ crlf ++ content ++ crlf), more, ?_, ?_, ?_, ?_⟩
      · rw [hdata, ← hdrop, hmore]
        simp only [List.append_assoc]
      · rw [behind, hcontent]
        exact .snoc hchunks hfree hsize hne
      · rw [behind, hcontent, List.length_append]
        omega
      · rw [behind, hcontent, ChunkedBodyDecoder.reading, hstatus, hmax, hpos]
        simp only [List.length_append, crlf, List.length_cons, List.length_nil]
        congr 1
        omega
  · refine ⟨fun _ => ⟨[], data.drop bodyStart, rfl, .nil, Nat.zero_le _, rfl⟩, fun h => (by cases h)⟩

/-! ## What is rejected -/

/-- A step that rejects changes only the status. -/
theorem Advances.malformed (h : Advances data decoder decoder') (hstatus : decoder.status = .needMore)
    (hmalformed : decoder'.status = .malformed) : decoder' = { decoder with status := .malformed } := by
  cases h with
  | noSize => rfl
  | last => cases hmalformed
  | tooLarge => cases hmalformed
  | noTerminator => rfl
  | chunk =>
    rw [behind, hstatus] at hmalformed
    cases hmalformed

theorem rejected_iff {rest : Bytes} (hstatus : decoder.status = .needMore) (hdrop : data.drop decoder.pos = rest)
    (hbody : decoder.body.length ≤ decoder.maxBodySize) :
    Rejected (decoder.maxBodySize - decoder.body.length) rest ↔
      findCrlf data decoder.pos = none ∨ ∃ decoder', advance data decoder = some decoder' ∧ decoder'.status = .malformed := by
  constructor
  · rintro (hnone | ⟨line, more, hrest, hfree, hnosize | ⟨content, tail, hmore, hsize, hne, hroom, htail, hterminator⟩⟩)
    · refine Or.inl (Option.eq_none_iff_forall_not_mem.mpr fun lineEnd hline => hnone ?_)
      obtain ⟨line, more, hrest, -, -⟩ := findCrlf_iff.mp hline
      rw [← hdrop, hrest]
      exact ⟨line, more, rfl⟩
    · refine Or.inr ⟨_, advance_iff.mpr ⟨hstatus, .noSize (lineAt_iff.mpr ⟨line, more, hdrop.trans hrest, hfree, rfl, ?_⟩)⟩, rfl⟩
      rw [Option.eq_none_iff_forall_not_mem]
      exact fun size hsize => hnosize size (chunkSize_sizeField.mp hsize)
    · have hbehind := drop_line (hdrop.trans hrest)
      have hlength := congrArg List.length hbehind
      rw [List.length_drop, hmore, List.length_append] at hlength
      have hpos := List.length_pos_iff.mpr hne
      have hchunk : ChunkAt data decoder (decoder.pos + line.length) content.length :=
        ⟨lineAt_iff.mpr ⟨line, more, hdrop.trans hrest, hfree, rfl, chunkSize_sizeField.mpr hsize⟩, hpos, by omega, by omega⟩
      refine Or.inr ⟨_, advance_iff.mpr ⟨hstatus, .noTerminator hchunk fun hcrlf => hterminator ?_⟩, rfl⟩
      rw [slice, ← List.drop_drop, hbehind, hmore, List.drop_left] at hcrlf
      rw [← hcrlf]
      exact List.take_prefix 2 tail
  · rintro (hnone | ⟨decoder', hadvance, hmalformed⟩)
    · refine Or.inl fun hwithin => ?_
      rw [findCrlf, Option.map_eq_none_iff, hdrop] at hnone
      have hsome := Scanning.splitAtMarker_isSome hwithin
      rw [hnone] at hsome
      cases hsome
    · obtain ⟨-, hadvances⟩ := advance_iff.mp hadvance
      cases hadvances with
      | noSize hline =>
        obtain ⟨line, more, hrest, hfree, -, hsize⟩ := lineAt_iff.mp hline
        refine Or.inr ⟨line, more, hdrop.symm.trans hrest, hfree, Or.inl fun size hline => ?_⟩
        rw [chunkSize_sizeField.mpr hline] at hsize
        cases hsize
      | last => cases hmalformed
      | tooLarge => cases hmalformed
      | chunk =>
        rw [behind, hstatus] at hmalformed
        cases hmalformed
      | @noTerminator lineEnd size hchunk hterminator =>
        obtain ⟨hline, hpos, hfits, harrived⟩ := hchunk
        obtain ⟨line, more, hrest, hfree, rfl, hsize⟩ := lineAt_iff.mp hline
        have hbehind := drop_line hrest
        have hlength : size + 2 ≤ more.length := by
          rw [← hbehind, List.length_drop]
          omega
        have hcontent : (more.take size).length = size := by rw [List.length_take, Nat.min_eq_left (by omega)]
        refine Or.inr ⟨line, more, hdrop.symm.trans hrest, hfree, Or.inr ⟨more.take size, more.drop size,
          (List.take_append_drop size more).symm, ?_, ?_, ?_, ?_, ?_⟩⟩
        · rw [hcontent]
          exact chunkSize_sizeField.mp hsize
        · rintro hnil
          rw [hnil, List.length_nil] at hcontent
          omega
        · rw [hcontent]
          omega
        · rw [List.length_drop]
          omega
        · rintro ⟨tail, htail⟩
          rw [slice, ← List.drop_drop, hbehind, ← htail] at hterminator
          exact hterminator rfl

/-! ## One feed against several -/

theorem Advances.le (h : Advances data decoder decoder') :
    decoder.pos ≤ decoder'.pos ∧ decoder.body.length ≤ decoder'.body.length := by
  cases h with
  | noSize => exact ⟨Nat.le_refl _, Nat.le_refl _⟩
  | last => exact ⟨Nat.le_refl _, Nat.le_refl _⟩
  | tooLarge => exact ⟨Nat.le_refl _, Nat.le_refl _⟩
  | noTerminator => exact ⟨Nat.le_refl _, Nat.le_refl _⟩
  | @chunk lineEnd size hchunk hterminator =>
    obtain ⟨hpos, -, -⟩ := findCrlf_eq hchunk.line.1
    rw [behind, List.length_append]
    simp only
    omega

theorem reaches_le (h : Resumption.Reaches advance data decoder decoder') :
    decoder.pos ≤ decoder'.pos ∧ decoder.body.length ≤ decoder'.body.length := by
  refine h.invariant (P := fun reached => decoder.pos ≤ reached.pos ∧ decoder.body.length ≤ reached.body.length)
    (fun reached next hle hstep => ?_) ⟨Nat.le_refl _, Nat.le_refl _⟩
  have hnext := (advance_iff.mp hstep).2.le
  exact ⟨hle.1.trans hnext.1, hle.2.trans hnext.2⟩

theorem settle_body : (settle data decoder).body = decoder.body := by
  rw [settle]
  split <;> rfl

/-- The whole stream gives what an overlong line gives just where it is rejected, too. -/
theorem settle_malformed_iff {last : ChunkedBodyDecoder} (hstatus : decoder.status = .needMore)
    (hlong : decoder.pos + maxChunkHeaderLine < data.length) (hlast : Resumption.Halts advance data decoder last) :
    (settle data last).status = .malformed ∧ (settle data last).body = decoder.body ↔
      findCrlf data decoder.pos = none ∨ ∃ decoder', advance data decoder = some decoder' ∧ decoder'.status = .malformed := by
  rw [settle_body]
  cases hadvance : advance data decoder with
  | none =>
    obtain rfl := hlast.1.eq_of_none hadvance
    have hnone : ¬∃ decoder' : ChunkedBodyDecoder, none = some decoder' ∧ decoder'.status = .malformed := by
      rintro ⟨decoder', h, -⟩
      cases h
    rw [or_iff_left hnone, and_iff_left rfl, settle]
    constructor
    · intro hmalformed
      split at hmalformed
      next hoverlong => exact hoverlong.2.1
      next => rw [hstatus] at hmalformed; cases hmalformed
    · intro hline
      rw [if_pos ⟨hstatus, hline, hlong⟩]
  | some decoder' =>
    obtain ⟨-, hadvances⟩ := advance_iff.mp hadvance
    have hreach : Resumption.Reaches advance data decoder' last := by
      rcases Relation.ReflTransGen.cases_head hlast.1 with rfl | ⟨next, hnext, hrest⟩
      · rw [hlast.2] at hadvance
        cases hadvance
      · rw [hadvance] at hnext
        cases hnext
        exact hrest
    have hline : findCrlf data decoder.pos ≠ none := by
      intro hnone
      rw [advance, if_neg (not_not.mpr hstatus), hnone] at hadvance
      cases hadvance
    rw [or_iff_right hline]
    constructor
    · rintro ⟨hmalformed, hbody⟩
      by_cases hnext : decoder'.status = .needMore
      · -- Only a chunk is not the last step, and its content would be in the body.
        have hlonger : decoder.body.length < decoder'.body.length := by
          cases hadvances with
          | noSize => cases hnext
          | last => cases hnext
          | tooLarge => cases hnext
          | noTerminator => cases hnext
          | @chunk lineEnd size hchunk hterminator =>
            have hpos := hchunk.pos
            have harrived := hchunk.arrived
            rw [behind, List.length_append, slice, List.length_take, List.length_drop]
            omega
        have hle := (reaches_le hreach).2
        rw [hbody] at hle
        omega
      · have hend : advance data decoder' = none := by rw [advance, if_pos hnext]
        obtain rfl := hreach.eq_of_none hend
        rw [settle_of_ne hnext] at hmalformed
        exact ⟨last, rfl, hmalformed⟩
    · rintro ⟨next, hnext, hmalformed⟩
      cases hnext
      have hne : decoder'.status ≠ .needMore := by rw [hmalformed]; decide
      have hend : advance data decoder' = none := by rw [advance, if_pos hne]
      obtain rfl := hreach.eq_of_none hend
      rw [settle_of_ne hne, hadvances.malformed hstatus hmalformed]
      exact ⟨rfl, rfl⟩

end ChunkedBodyDecoder

end Luma.Http
