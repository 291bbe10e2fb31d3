-- SUMMARY: The rounds of the chunked decoder without overflow, and that they stay the same as data arrives.
import Luma.Library.Resumption
import Luma.Stdlib.ChunkedDecoder

/-! # Rounds of the chunked decoder

No number of a round overflows, so that a round is a step on positions of the stream. Where
such a step can be made it is the same step when more has arrived. The only other thing a
round does is to reject a size line that has become too long without an end. -/

namespace Luma.Http

open Codec

/-- The bytes of a `std::string`. -/
def FitsString (data : Bytes) : Prop := data.length < 2 ^ 63

namespace ChunkedBodyDecoder

/-- What a round does with the chunk at the position, if all of it has arrived. -/
def advance (data : Bytes) (decoder : ChunkedBodyDecoder) : Option ChunkedBodyDecoder :=
  if decoder.status ≠ .needMore then none
  else
    (findCrlf data decoder.pos).bind fun lineEnd =>
      match chunkSize (sizeField (slice data decoder.pos (lineEnd - decoder.pos))) with
      | none => some { decoder with status := .malformed }
      | some size =>
        if size = 0 then some { decoder with status := .complete }
        else if decoder.maxBodySize < decoder.body.length + size then some { decoder with status := .tooLarge }
        else if data.length < lineEnd + 2 + size + 2 then none
        else if slice data (lineEnd + 2 + size) 2 ≠ crlf then some { decoder with status := .malformed }
        else some { decoder with
          body := decoder.body ++ slice data (lineEnd + 2) size
          pos := lineEnd + 2 + size + 2 }

/-- A size line has no end yet and is too long already. -/
def overlong (data : Bytes) (decoder : ChunkedBodyDecoder) : Prop :=
  decoder.status = .needMore ∧ findCrlf data decoder.pos = none ∧ decoder.pos + maxChunkHeaderLine < data.length

instance {data : Bytes} {decoder : ChunkedBodyDecoder} : Decidable (overlong data decoder) :=
  inferInstanceAs (Decidable (_ ∧ _ ∧ _))

/-- A decoder that has stopped, with an overlong line rejected. -/
def settle (data : Bytes) (decoder : ChunkedBodyDecoder) : ChunkedBodyDecoder :=
  if overlong data decoder then { decoder with status := .malformed } else decoder

/-- The body is within the limit, and the limit is one that can be set. -/
structure Bounded (decoder : ChunkedBodyDecoder) : Prop where
  body : decoder.body.length ≤ decoder.maxBodySize
  limit : decoder.maxBodySize ≤ 2 ^ 32

end ChunkedBodyDecoder

section Sizes

variable {a b pos n e : Nat} {data data' line field : Bytes}

theorem sizeAdd_eq (h : a + b < sizeRange) : sizeAdd a b = a + b := Nat.mod_eq_of_lt h

theorem sizeSub_eq (hb : b ≤ a) (ha : a < sizeRange) : sizeSub a b = a - b := by
  rw [sizeSub]
  have hsum : a + (sizeRange - b) = a - b + sizeRange := by omega
  rw [hsum, Nat.add_mod_right, Nat.mod_eq_of_lt (by omega)]

/-! ## Line breaks in what has arrived -/

/-- The line and its break are where they were found. -/
theorem findCrlf_eq (h : findCrlf data pos = some e) :
    pos ≤ e ∧ e + 2 ≤ data.length ∧ data.drop pos = slice data pos (e - pos) ++ crlf ++ data.drop (e + 2) := by
  obtain ⟨found, hfound, rfl⟩ := Option.map_eq_some_iff.mp h
  have hdrop : data.drop pos = found.1 ++ crlf ++ found.2 := Scanning.splitAtMarker_eq hfound
  have hlength := congrArg List.length hdrop
  simp only [List.length_drop, List.length_append, crlf, List.length_cons, List.length_nil] at hlength
  have hline : slice data pos found.1.length = found.1 := by
    rw [slice, hdrop, List.append_assoc, List.take_left]
  have hrest : data.drop (pos + found.1.length + 2) = found.2 := by
    have hbreak : found.1.length + 2 = (found.1 ++ crlf).length := by rw [List.length_append]; rfl
    rw [Nat.add_assoc, ← List.drop_drop, hdrop, hbreak, List.drop_left]
  rw [Nat.add_sub_cancel_left, hline, hrest]
  exact ⟨Nat.le_add_right _ _, by omega, hdrop⟩

theorem slice_extends (hgrows : data <+: data') (h : pos + n ≤ data.length) : slice data' pos n = slice data pos n := by
  obtain ⟨more, rfl⟩ := hgrows
  rw [slice, slice, List.drop_append_of_le_length (by omega),
    List.take_append_of_le_length (by rw [List.length_drop]; omega)]

/-- A line that has its break keeps it. -/
theorem findCrlf_extends (hgrows : data <+: data') (h : findCrlf data pos = some e) : findCrlf data' pos = some e := by
  obtain ⟨more, rfl⟩ := hgrows
  obtain ⟨found, hfound, rfl⟩ := Option.map_eq_some_iff.mp h
  have hpos : pos ≤ data.length := by
    by_contra hlt
    rw [List.drop_eq_nil_of_le (by omega)] at hfound
    cases hfound
  have hmore : Scanning.splitAtMarker crlf (data.drop pos ++ more) = some (found.1, found.2 ++ more) :=
    Scanning.splitAtMarker_append hfound
  rw [findCrlf, List.drop_append_of_le_length hpos, hmore]
  rfl

/-- A line whose break has arrived has it in what has arrived. -/
theorem findCrlf_of_prefix (hgrows : data <+: data') (h : findCrlf data' pos = some e) (he : e + 2 ≤ data.length) :
    findCrlf data pos = some e := by
  obtain ⟨hpos, -, hdrop⟩ := findCrlf_eq h
  have hwithin : crlf <:+: data.drop pos := by
    have htake : data.drop pos = (data'.drop pos).take (data.length - pos) := by
      obtain ⟨more, rfl⟩ := hgrows
      rw [List.drop_append_of_le_length (by omega), List.take_left' (by rw [List.length_drop])]
    have hline : (slice data' pos (e - pos) ++ crlf).length ≤ data.length - pos := by
      rw [List.length_append, slice, List.length_take, crlf]
      simp only [List.length_cons, List.length_nil]
      omega
    rw [htake, hdrop, List.take_append, List.take_of_length_le hline]
    exact ⟨slice data' pos (e - pos), _, rfl⟩
  obtain ⟨found, hfound⟩ := Option.isSome_iff_exists.mp (Scanning.splitAtMarker_isSome hwithin)
  have hhere : findCrlf data pos = some (pos + found.1.length) := by rw [findCrlf, hfound]; rfl
  have hthere := findCrlf_extends hgrows hhere
  rw [h] at hthere
  rw [hhere, ← hthere]

end Sizes

namespace ChunkedBodyDecoder

variable {data data' : Bytes} {decoder decoder' : ChunkedBodyDecoder}

/-! ## Steps -/

/-- What is at the position: a line with its break, and what its size field says. -/
def LineAt (data : Bytes) (decoder : ChunkedBodyDecoder) (lineEnd : Nat) (size : Option Nat) : Prop :=
  findCrlf data decoder.pos = some lineEnd ∧
    chunkSize (sizeField (slice data decoder.pos (lineEnd - decoder.pos))) = size

/-- A chunk within the limit that has arrived with its terminator. -/
structure ChunkAt (data : Bytes) (decoder : ChunkedBodyDecoder) (lineEnd size : Nat) : Prop where
  line : LineAt data decoder lineEnd (some size)
  pos : 0 < size
  fits : decoder.body.length + size ≤ decoder.maxBodySize
  arrived : lineEnd + 2 + size + 2 ≤ data.length

/-- The decoder behind a chunk. -/
def behind (data : Bytes) (decoder : ChunkedBodyDecoder) (lineEnd size : Nat) : ChunkedBodyDecoder :=
  { decoder with
    body := decoder.body ++ slice data (lineEnd + 2) size
    pos := lineEnd + 2 + size + 2 }

/-- All that a step can do. -/
inductive Advances (data : Bytes) (decoder : ChunkedBodyDecoder) : ChunkedBodyDecoder → Prop
  | noSize {lineEnd} : LineAt data decoder lineEnd none → Advances data decoder { decoder with status := .malformed }
  | last {lineEnd} : LineAt data decoder lineEnd (some 0) → Advances data decoder { decoder with status := .complete }
  | tooLarge {lineEnd size} : LineAt data decoder lineEnd (some size) → 0 < size →
      decoder.maxBodySize < decoder.body.length + size → Advances data decoder { decoder with status := .tooLarge }
  | noTerminator {lineEnd size} : ChunkAt data decoder lineEnd size → slice data (lineEnd + 2 + size) 2 ≠ crlf →
      Advances data decoder { decoder with status := .malformed }
  | chunk {lineEnd size} : ChunkAt data decoder lineEnd size → slice data (lineEnd + 2 + size) 2 = crlf →
      Advances data decoder (behind data decoder lineEnd size)

theorem advance_iff : advance data decoder = some decoder' ↔ decoder.status = .needMore ∧ Advances data decoder decoder' := by
  constructor
  · intro h
    rw [advance] at h
    split at h
    · cases h
    next hstatus =>
      refine ⟨not_not.mp hstatus, ?_⟩
      obtain ⟨lineEnd, hline, h⟩ := Option.bind_eq_some_iff.mp h
      split at h
      next hsize =>
        cases h
        exact .noSize ⟨hline, hsize⟩
      next size hsize =>
        split at h
        next hzero =>
          cases h
          rw [hzero] at hsize
          exact .last ⟨hline, hsize⟩
        next hzero =>
          have hpos := Nat.pos_of_ne_zero hzero
          split at h
          next hlarge =>
            cases h
            exact .tooLarge ⟨hline, hsize⟩ hpos hlarge
          next hlarge =>
            split at h
            · cases h
            next harrived =>
              have hchunk : ChunkAt data decoder lineEnd size :=
                ⟨⟨hline, hsize⟩, hpos, Nat.not_lt.mp hlarge, Nat.not_lt.mp harrived⟩
              split at h
              next hterminator =>
                cases h
                exact .noTerminator hchunk hterminator
              next hterminator =>
                cases h
                exact .chunk hchunk (not_not.mp hterminator)
  · rintro ⟨hstatus, h⟩
    rw [advance, if_neg (not_not.mpr hstatus)]
    cases h with
    | noSize hline => rw [hline.1, Option.bind_some, hline.2]
    | last hline =>
      rw [hline.1, Option.bind_some, hline.2]
      exact if_pos rfl
    | tooLarge hline hpos hlarge =>
      rw [hline.1, Option.bind_some, hline.2]
      simp only [if_neg hpos.ne', if_pos hlarge]
    | noTerminator hchunk hterminator =>
      rw [hchunk.line.1, Option.bind_some, hchunk.line.2]
      simp only [if_neg hchunk.pos.ne', if_neg (Nat.not_lt.mpr hchunk.fits), if_neg (Nat.not_lt.mpr hchunk.arrived),
        if_pos hterminator]
    | chunk hchunk hterminator =>
      rw [hchunk.line.1, Option.bind_some, hchunk.line.2]
      simp only [if_neg hchunk.pos.ne', if_neg (Nat.not_lt.mpr hchunk.fits), if_neg (Nat.not_lt.mpr hchunk.arrived),
        if_neg (not_not.mpr hterminator)]
      rfl

theorem advance_of_no_line (hline : findCrlf data decoder.pos = none) : advance data decoder = none := by
  rw [advance, hline]
  split <;> rfl

theorem LineAt.extend {lineEnd : Nat} {size : Option Nat} (hgrows : data <+: data') (h : LineAt data decoder lineEnd size) :
    LineAt data' decoder lineEnd size := by
  obtain ⟨hpos, hend, -⟩ := findCrlf_eq h.1
  refine ⟨findCrlf_extends hgrows h.1, ?_⟩
  rw [slice_extends hgrows (by omega), h.2]

theorem ChunkAt.extend {lineEnd size : Nat} (hgrows : data <+: data') (h : ChunkAt data decoder lineEnd size) :
    ChunkAt data' decoder lineEnd size where
  line := h.line.extend hgrows
  pos := h.pos
  fits := h.fits
  arrived := h.arrived.trans hgrows.length_le

/-- A step stays what it is when more arrives. -/
theorem advance_monotone : Resumption.Monotone (· <+: ·) advance := by
  intro data data' decoder decoder' hgrows h
  obtain ⟨hstatus, h⟩ := advance_iff.mp h
  refine advance_iff.mpr ⟨hstatus, ?_⟩
  cases h with
  | noSize hline => exact .noSize (hline.extend hgrows)
  | last hline => exact .last (hline.extend hgrows)
  | tooLarge hline hpos hlarge => exact .tooLarge (hline.extend hgrows) hpos hlarge
  | noTerminator hchunk hterminator =>
    refine .noTerminator (hchunk.extend hgrows) ?_
    rw [slice_extends hgrows hchunk.arrived]
    exact hterminator
  | @chunk lineEnd size hchunk hterminator =>
    have hcontent := hchunk.arrived
    have hbehind : behind data decoder lineEnd size = behind data' decoder lineEnd size := by
      rw [behind, behind, slice_extends hgrows (by omega)]
    rw [hbehind]
    refine .chunk (hchunk.extend hgrows) ?_
    rw [slice_extends hgrows hchunk.arrived]
    exact hterminator

/-! ## Rounds -/

/-- A round with numbers that do not overflow. -/
def exactRound (data : Bytes) (decoder : ChunkedBodyDecoder) : Round :=
  match advance data decoder with
  | some decoder' => if decoder'.status = .needMore then .next decoder' else .stop decoder'
  | none => .stop (settle data decoder)

/-- No number of a round overflows. -/
theorem round_eq (hdata : FitsString data) (hdecoder : Bounded decoder) (hstatus : decoder.status = .needMore) :
    round data decoder = exactRound data decoder := by
  have hlength : data.length < 2 ^ 63 := hdata
  obtain ⟨hbody, hlimit⟩ := hdecoder
  rw [round, exactRound, advance, if_neg (not_not.mpr hstatus)]
  cases hline : findCrlf data decoder.pos with
  | none =>
    have hsize : sizeSub data.length (min decoder.pos data.length) = data.length - decoder.pos := by
      rw [sizeSub_eq (Nat.min_le_right _ _) (by rw [sizeRange]; omega)]
      omega
    have hoverlong : maxChunkHeaderLine < data.length - decoder.pos ↔ overlong data decoder := by
      rw [overlong, and_iff_right hstatus, and_iff_right hline]
      omega
    simp only [Option.bind_none, hsize, gt_iff_lt, hoverlong, settle]
    split <;> rfl
  | some lineEnd =>
    obtain ⟨hpos, hend, -⟩ := findCrlf_eq hline
    have hsub : sizeSub lineEnd decoder.pos = lineEnd - decoder.pos := sizeSub_eq hpos (by rw [sizeRange]; omega)
    have hstart : sizeAdd lineEnd 2 = lineEnd + 2 := sizeAdd_eq (by rw [sizeRange]; omega)
    have hroom : sizeSub decoder.maxBodySize decoder.body.length = decoder.maxBodySize - decoder.body.length :=
      sizeSub_eq hbody (by rw [sizeRange]; omega)
    have hleft : sizeSub data.length (lineEnd + 2) = data.length - (lineEnd + 2) :=
      sizeSub_eq hend (by rw [sizeRange]; omega)
    simp only [hsub, hstart, hroom, hleft, Option.bind_some]
    cases chunkSize (sizeField (slice data decoder.pos (lineEnd - decoder.pos))) with
    | none => rfl
    | some size =>
      by_cases hzero : size = 0
      · simp only [if_pos hzero]
        rfl
      · by_cases hlarge : decoder.maxBodySize < decoder.body.length + size
        · simp only [if_neg hzero, if_pos (show size > decoder.maxBodySize - decoder.body.length by omega), if_pos hlarge]
          rfl
        · have htotal : sizeAdd size 2 = size + 2 := sizeAdd_eq (by rw [sizeRange]; omega)
          have hcontent : sizeAdd (lineEnd + 2) size = lineEnd + 2 + size := sizeAdd_eq (by rw [sizeRange]; omega)
          have hnext : sizeAdd (lineEnd + 2 + size) 2 = lineEnd + 2 + size + 2 := sizeAdd_eq (by rw [sizeRange]; omega)
          have hwaits : (data.length < lineEnd + 2 ∨ data.length - (lineEnd + 2) < size + 2) ↔
              data.length < lineEnd + 2 + size + 2 := by omega
          simp only [if_neg hzero, if_neg (show ¬size > decoder.maxBodySize - decoder.body.length by omega), if_neg hlarge,
            htotal, hcontent, hnext, hwaits]
          split
          · have hkept : settle data decoder = decoder := by
              rw [settle, if_neg]
              rintro ⟨-, hnone, -⟩
              rw [hline] at hnone
              cases hnone
            rw [hkept]
          · split
            · rfl
            · simp only [hstatus, if_true]

theorem Advances.bounded (hdecoder : Bounded decoder) (h : Advances data decoder decoder') : Bounded decoder' := by
  cases h with
  | noSize => exact ⟨hdecoder.body, hdecoder.limit⟩
  | last => exact ⟨hdecoder.body, hdecoder.limit⟩
  | tooLarge => exact ⟨hdecoder.body, hdecoder.limit⟩
  | noTerminator => exact ⟨hdecoder.body, hdecoder.limit⟩
  | @chunk lineEnd size hchunk hterminator =>
    refine ⟨?_, hdecoder.limit⟩
    have hfits := hchunk.fits
    rw [behind, List.length_append, slice, List.length_take]
    simp only
    omega

/-- A chunk takes the position forward, and no further than what has arrived. -/
theorem Advances.pos_lt (h : Advances data decoder decoder') (hstatus : decoder'.status = .needMore) :
    decoder.pos < decoder'.pos ∧ decoder'.pos ≤ data.length := by
  cases h with
  | noSize => cases hstatus
  | last => cases hstatus
  | tooLarge => cases hstatus
  | noTerminator => cases hstatus
  | @chunk lineEnd size hchunk hterminator =>
    obtain ⟨hpos, -, -⟩ := findCrlf_eq hchunk.line.1
    have harrived := hchunk.arrived
    rw [behind]
    simp only
    omega

theorem settle_of_ne (hstatus : decoder.status ≠ .needMore) : settle data decoder = decoder := by
  rw [settle, if_neg fun h => hstatus h.1]

/-- The loop ends where the steps do. -/
theorem loop_eq (hdata : FitsString data) {rounds : Nat} (hrounds : data.length - decoder.pos < rounds)
    (hdecoder : Bounded decoder) :
    ∃ decoder', Resumption.Halts advance data decoder decoder' ∧ loop data rounds decoder = some (settle data decoder') := by
  induction rounds generalizing decoder with
  | zero => exact absurd hrounds (Nat.not_lt_zero _)
  | succ rounds ih =>
    rw [loop]
    by_cases hstatus : decoder.status = .needMore
    · rw [if_neg (not_not.mpr hstatus), round_eq hdata hdecoder hstatus, exactRound]
      cases hadvance : advance data decoder with
      | none => exact ⟨decoder, ⟨.refl, hadvance⟩, rfl⟩
      | some decoder' =>
        obtain ⟨-, hadvances⟩ := advance_iff.mp hadvance
        by_cases hnext : decoder'.status = .needMore
        · obtain ⟨hpos, hle⟩ := hadvances.pos_lt hnext
          obtain ⟨last, ⟨hreaches, hnone⟩, heq⟩ := ih (by omega : data.length - decoder'.pos < rounds) (hadvances.bounded hdecoder)
          refine ⟨last, ⟨.head hadvance hreaches, hnone⟩, ?_⟩
          simp only [if_pos hnext]
          exact heq
        · refine ⟨decoder', ⟨.head hadvance .refl, ?_⟩, ?_⟩
          · rw [advance, if_pos hnext]
          · simp only [if_neg hnext, settle_of_ne hnext]
    · refine ⟨decoder, ⟨.refl, ?_⟩, ?_⟩
      · rw [advance, if_pos hstatus]
      · rw [if_pos hstatus, settle_of_ne hstatus]

theorem feed_eq (hdata : FitsString data) (hdecoder : Bounded decoder) :
    ∃ decoder', Resumption.Halts advance data decoder decoder' ∧ feed data decoder = some (settle data decoder') :=
  loop_eq hdata (Nat.lt_succ_of_le (Nat.sub_le _ _)) hdecoder

end ChunkedBodyDecoder

end Luma.Http
