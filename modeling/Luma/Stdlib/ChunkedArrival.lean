-- SUMMARY: A chunked response that arrives in pieces against one that arrives at once.
import Luma.Stdlib.ChunkedBody

/-! # Arrival of a chunked response

A connection delivers a response in pieces, and the decoder is fed what has arrived after
each of them. The result is that of the whole response, unless a piece ends in a size line
that has become too long and that the whole response does not have to reject. -/

namespace Luma.Http

open Codec ChunkedBodyDecoder

/-- What a connection delivers: the response so far, and the pieces after that. All of it
    is kept in one string. -/
structure Delivery where
  arrived : Bytes
  pieces : List Bytes
  fits : FitsString (arrived ++ pieces.flatten)

def Delivery.stream (delivery : Delivery) : Bytes := delivery.arrived ++ delivery.pieces.flatten

/-- What has arrived after each of some pieces. -/
def prefixes (data : Bytes) : List Bytes → List Bytes
  | [] => [data]
  | piece :: pieces => data :: prefixes (data ++ piece) pieces

/-- A limit that `ResourceLimits` lets an environment set. -/
structure BodyLimit where
  value : Nat
  ceiling : value ≤ 2 ^ 32

/-- A prefix ends in more than the longest size line without a line break, and the whole
    response has no reason to reject what is there. -/
def LateLine (limit : BodyLimit) (bodyStart : Nat) (delivery : Delivery) : Prop :=
  ∃ data ∈ prefixes delivery.arrived delivery.pieces, ∃ chunks body part rest,
    data.drop bodyStart = chunks ++ part ∧ delivery.stream.drop bodyStart = chunks ++ rest ∧ Chunks chunks body ∧
      body.length ≤ limit.value ∧ maxChunkHeaderLine < part.length ∧ ¬crlf <:+: part ∧
        ¬Rejected (limit.value - body.length) rest

section Arrival

variable {data p p' : Bytes} {pieces : List Bytes} {decoder start last : ChunkedBodyDecoder} {bodyStart maxBodySize : Nat}

theorem prefix_of_mem (h : p ∈ prefixes data pieces) : data <+: p ∧ p <+: data ++ pieces.flatten := by
  induction pieces generalizing data with
  | nil =>
    obtain rfl := List.mem_singleton.mp h
    exact ⟨List.prefix_rfl, List.prefix_append _ _⟩
  | cons piece pieces ih =>
    rcases List.mem_cons.mp h with rfl | h
    · exact ⟨List.prefix_rfl, List.prefix_append _ _⟩
    · obtain ⟨hfront, hback⟩ := ih h
      rw [List.append_assoc] at hback
      exact ⟨(List.prefix_append _ _).trans hfront, hback⟩

theorem fitsString_start (hdata : FitsString data) (h : p <+: data) : FitsString p :=
  Nat.lt_of_le_of_lt h.length_le hdata

theorem stream_mem : data ++ pieces.flatten ∈ prefixes data pieces := by
  induction pieces generalizing data with
  | nil => exact List.mem_singleton.mpr (List.append_nil data)
  | cons piece pieces ih =>
    rw [List.flatten_cons, ← List.append_assoc]
    exact List.mem_cons_of_mem data ih

theorem bounded_new (hmax : maxBodySize ≤ 2 ^ 32) : Bounded (.new bodyStart maxBodySize) := ⟨Nat.zero_le _, hmax⟩

theorem bounded_of_reaches (h : Resumption.Reaches advance data start decoder) (hstart : Bounded start) : Bounded decoder :=
  h.invariant (P := Bounded) (fun _ _ hbounded hstep => (advance_iff.mp hstep).2.bounded hbounded) hstart

/-- A decoder that is done does not change. -/
theorem feed_done (hstatus : decoder.status ≠ .needMore) : feed data decoder = some decoder := by
  rw [feed, loop, if_pos hstatus]

theorem feedPieces_done (hstatus : decoder.status ≠ .needMore) : feedPieces data pieces decoder = some decoder := by
  induction pieces generalizing data with
  | nil => exact feed_done hstatus
  | cons piece pieces ih => rw [feedPieces, feed_done hstatus, Option.bind_some, ih]

/-- Either no prefix ends in an overlong line, or the first that does decides the result. -/
theorem feedPieces_cases (hstart : Bounded start) (hfits : FitsString (data ++ pieces.flatten))
    (hreach : Resumption.Reaches advance data start decoder) :
    (∃ last, feedPieces data pieces decoder = some last ∧ Resumption.Halts advance (data ++ pieces.flatten) start last ∧
      ∀ p ∈ prefixes data pieces, ∀ stopped, Resumption.Halts advance p start stopped → ¬overlong p stopped) ∨
    ∃ p ∈ prefixes data pieces, ∃ stopped, Resumption.Halts advance p start stopped ∧ overlong p stopped ∧
      feedPieces data pieces decoder = some { stopped with status := .malformed } ∧
        ∀ p' ∈ prefixes data pieces, ∀ stopped', Resumption.Halts advance p' start stopped' → overlong p' stopped' →
          p <+: p' := by
  induction pieces generalizing data decoder with
  | nil =>
    obtain ⟨stopped, hhalts, hfeed⟩ :=
      feed_eq (fitsString_start hfits (List.prefix_append _ _)) (bounded_of_reaches hreach hstart)
    have hstopped : Resumption.Halts advance data start stopped := ⟨hreach.trans hhalts.1, hhalts.2⟩
    rw [settle] at hfeed
    split at hfeed
    next hoverlong =>
      refine Or.inr ⟨data, List.mem_cons_self, stopped, hstopped, hoverlong, hfeed, fun p' hp' _ _ _ => ?_⟩
      exact (prefix_of_mem hp').1
    next hoverlong =>
      refine Or.inl ⟨stopped, hfeed, ?_, fun p hp stopped' hstopped' => ?_⟩
      · rw [List.flatten_nil, List.append_nil]
        exact hstopped
      · obtain rfl := List.mem_singleton.mp hp
        rw [hstopped'.unique hstopped]
        exact hoverlong
  | cons piece pieces ih =>
    obtain ⟨stopped, hhalts, hfeed⟩ :=
      feed_eq (fitsString_start hfits (List.prefix_append _ _)) (bounded_of_reaches hreach hstart)
    have hstopped : Resumption.Halts advance data start stopped := ⟨hreach.trans hhalts.1, hhalts.2⟩
    rw [settle] at hfeed
    rw [feedPieces, hfeed, Option.bind_some]
    split at hfeed
    next hoverlong =>
      rw [if_pos hoverlong]
      refine Or.inr ⟨data, List.mem_cons_self, stopped, hstopped, hoverlong, feedPieces_done (fun h => (by cases h)), ?_⟩
      exact fun p' hp' _ _ _ => (prefix_of_mem hp').1
    next hoverlong =>
      rw [if_neg hoverlong]
      have hhere : ∀ stopped', Resumption.Halts advance data start stopped' → ¬overlong data stopped' := by
        intro stopped' hstopped'
        rw [hstopped'.unique hstopped]
        exact hoverlong
      have hstream : data ++ piece ++ pieces.flatten = data ++ (piece :: pieces).flatten := by
        rw [List.flatten_cons, List.append_assoc]
      have hmore := advance_monotone.reaches (List.prefix_append data piece) hstopped.1
      rcases ih (hstream ▸ hfits) hmore with ⟨last, hlast, hend, hnone⟩ | ⟨p, hp, first, hfirst, hlong, hlast, hleast⟩
      · refine Or.inl ⟨last, hlast, hstream ▸ hend, fun p hp => ?_⟩
        rcases List.mem_cons.mp hp with rfl | hp
        · exact hhere
        · exact hnone p hp
      · refine Or.inr ⟨p, List.mem_cons_of_mem data hp, first, hfirst, hlong, hlast, fun p' hp' stopped' hstopped' hlong' => ?_⟩
        rcases List.mem_cons.mp hp' with rfl | hp'
        · exact absurd hlong' (hhere stopped' hstopped')
        · exact hleast p' hp' stopped' hstopped' hlong'

/-! ## Late lines -/

variable {limit : BodyLimit} {delivery : Delivery}

/-- Where a prefix ends in an overlong line, chunks are before it. -/
theorem overlong_text (hhalts : Resumption.Halts advance p (.new bodyStart limit.value) decoder) (hlong : overlong p decoder)
    (hp : p <+: data) :
    ∃ chunks part rest, p.drop bodyStart = chunks ++ part ∧ data.drop bodyStart = chunks ++ rest ∧
      Chunks chunks decoder.body ∧ decoder.body.length ≤ limit.value ∧ maxChunkHeaderLine < part.length ∧
        ¬crlf <:+: part ∧ decoder = reading bodyStart limit.value chunks decoder.body := by
  obtain ⟨hstatus, hline, hlength⟩ := hlong
  obtain ⟨chunks, part, hpart, hchunks, hfits, hdecoder⟩ := (hasRead_of_reaches hhalts.1).reading hstatus
  have hpos : decoder.pos = bodyStart + chunks.length := congrArg ChunkedBodyDecoder.pos hdecoder
  have hdrop : p.drop decoder.pos = part := by rw [hpos, ← List.drop_drop, hpart, List.drop_left]
  obtain ⟨more, rfl⟩ := hp
  refine ⟨chunks, part, part ++ more, hpart, ?_, hchunks, hfits, ?_, ?_, hdecoder⟩
  · rw [List.drop_append_of_le_length (by omega), hpart, List.append_assoc]
  · rw [← hdrop, List.length_drop]
    omega
  · intro hwithin
    rw [← hdrop] at hwithin
    rw [findCrlf, Option.map_eq_none_iff] at hline
    have hsome := Scanning.splitAtMarker_isSome hwithin
    rw [hline] at hsome
    cases hsome

/-- Behind the chunks of a late line, the decoder waits in an overlong line. -/
theorem overlong_of_text {chunks body part : Bytes} (hpart : p.drop bodyStart = chunks ++ part) (hchunks : Chunks chunks body)
    (hfits : body.length ≤ limit.value) (hlong : maxChunkHeaderLine < part.length) (hfree : ¬crlf <:+: part) :
    Resumption.Halts advance p (.new bodyStart limit.value) (reading bodyStart limit.value chunks body) ∧
      overlong p (reading bodyStart limit.value chunks body) := by
  have hdrop : p.drop (bodyStart + chunks.length) = part := by rw [← List.drop_drop, hpart, List.drop_left]
  have hline : findCrlf p (bodyStart + chunks.length) = none := by
    rw [Option.eq_none_iff_forall_not_mem]
    intro lineEnd hlineEnd
    obtain ⟨line, more, hmore, -, -⟩ := findCrlf_iff.mp hlineEnd
    rw [hdrop] at hmore
    exact hfree ⟨line, more, hmore.symm⟩
  have hlength := congrArg List.length hdrop
  rw [List.length_drop] at hlength
  refine ⟨⟨reaches_of_chunks hchunks hpart hfits, ?_⟩, rfl, hline, ?_⟩
  · exact advance_of_no_line hline
  · rw [reading]
    simp only
    omega

/-- An overlong line of a prefix decides as the whole response does just where the response
    rejects what is there. -/
theorem malformed_iff_rejected (hhalts : Resumption.Halts advance p (.new bodyStart limit.value) decoder)
    (hlong : overlong p decoder) (hp : p <+: data) (hlast : Resumption.Halts advance data (.new bodyStart limit.value) last)
    {rest : Bytes} (hrest : data.drop decoder.pos = rest) :
    (settle data last).status = .malformed ∧ (settle data last).body = decoder.body ↔
      Rejected (limit.value - decoder.body.length) rest := by
  obtain ⟨chunks, part, rest', hpart, -, hchunks, hfits, -, -, hdecoder⟩ := overlong_text hhalts hlong List.prefix_rfl
  have hmax : decoder.maxBodySize = limit.value := congrArg ChunkedBodyDecoder.maxBodySize hdecoder
  have hresumed := (advance_monotone.resume hp hhalts).mpr hlast
  rw [settle_malformed_iff hlong.1 (Nat.lt_of_lt_of_le hlong.2.2 hp.length_le) hresumed, ← hmax,
    rejected_iff hlong.1 hrest (by omega)]

/-- The first overlong line is the only one when the whole response rejects it. -/
theorem not_late_of_rejected (hhalts : Resumption.Halts advance p (.new bodyStart limit.value) decoder)
    (hlong : overlong p decoder) (hp : p <+: data) {rest : Bytes} (hrest : data.drop decoder.pos = rest)
    (hrejected : Rejected (limit.value - decoder.body.length) rest) (hp' : p' <+: data)
    (hleast : ∀ stopped, Resumption.Halts advance p' (.new bodyStart limit.value) stopped → overlong p' stopped → p <+: p') :
    ¬∃ chunks body part rest, p'.drop bodyStart = chunks ++ part ∧ data.drop bodyStart = chunks ++ rest ∧
      Chunks chunks body ∧ body.length ≤ limit.value ∧ maxChunkHeaderLine < part.length ∧ ¬crlf <:+: part ∧
        ¬Rejected (limit.value - body.length) rest := by
  rintro ⟨chunks, body, part, rest', hpart, hdata, hchunks, hfits, hlength, hfree, hnot⟩
  obtain ⟨hhalts', hlong'⟩ := overlong_of_text hpart hchunks hfits hlength hfree
  have hearlier := hleast _ hhalts' hlong'
  have hmax : decoder.maxBodySize = limit.value := by
    obtain ⟨_, _, _, _, _, _, _, _, _, hdecoder⟩ := overlong_text hhalts hlong List.prefix_rfl
    exact congrArg ChunkedBodyDecoder.maxBodySize hdecoder
  have hdrop : data.drop (bodyStart + chunks.length) = rest' := by rw [← List.drop_drop, hdata, List.drop_left]
  have hsame : decoder ≠ reading bodyStart limit.value chunks body := by
    intro heq
    have hrest' : rest = rest' := hrest.symm.trans ((congrArg (fun decoder => data.drop decoder.pos) heq).trans hdrop)
    have hbody : decoder.body = body := congrArg ChunkedBodyDecoder.body heq
    rw [← hrest', ← hbody] at hnot
    exact hnot hrejected
  rcases (advance_monotone.reaches hp hhalts.1).total (advance_monotone.reaches hp' hhalts'.1) with hreach | hreach
  · -- Nothing is behind a line that is rejected.
    rcases Relation.ReflTransGen.cases_head hreach with heq | ⟨next, hnext, hmore⟩
    · exact hsame heq
    · rw [← hmax] at hrejected
      obtain ⟨_, _, _, _, _, _, hfits', _, _, _⟩ := overlong_text hhalts hlong List.prefix_rfl
      rcases (rejected_iff hlong.1 hrest (by omega)).mp hrejected with hline | ⟨decoder', hadvance, hmalformed⟩
      · rw [advance_of_no_line hline] at hnext
        cases hnext
      · rw [hadvance] at hnext
        cases hnext
        have hend : advance data next = none := by
          rw [advance, if_pos (by rw [hmalformed]; decide)]
        have heq := Resumption.Reaches.eq_of_none hend hmore
        rw [← heq] at hmalformed
        cases hmalformed
  · -- A chunk before the first overlong line has its line in the prefix.
    rcases Relation.ReflTransGen.cases_head hreach with heq | ⟨next, hnext, hmore⟩
    · exact hsame heq.symm
    · obtain ⟨-, hadvances⟩ := advance_iff.mp hnext
      by_cases hstatus : next.status = .needMore
      · have hle := (reaches_le hmore).1
        have hin : decoder.pos ≤ p.length := by
          have := hlong.2.2
          omega
        have hlengths := hearlier.length_le
        cases hadvances with
        | noSize => cases hstatus
        | last => cases hstatus
        | tooLarge => cases hstatus
        | noTerminator => cases hstatus
        | @chunk lineEnd size hchunk hterminator =>
          have hbehind : lineEnd + 2 + size + 2 ≤ decoder.pos := hle
          have hfound := findCrlf_of_prefix hp' hchunk.line.1 (by omega)
          rw [hlong'.2.1] at hfound
          cases hfound
      · have hend : advance data next = none := by rw [advance, if_pos hstatus]
        have heq := Resumption.Reaches.eq_of_none hend hmore
        rw [← heq] at hstatus
        exact hstatus hlong.1

/-- However a response is cut, the loop of a feed ends, its numbers do not overflow and its
    position does not go back; a body that is complete is that of a chunked body and within
    the limit; and the result is that of the whole response but for a late line. -/
theorem chunked_decoding (limit : BodyLimit) (bodyStart : Nat) (delivery : Delivery) :
    (∀ data decoder, FitsString data → Bounded decoder →
      (decoder.status = .needMore → round data decoder = exactRound data decoder) ∧
        ∃ fed, feed data decoder = some fed ∧ decoder.pos ≤ fed.pos ∧ Bounded fed) ∧
    ∃ whole cut, feed delivery.stream (.new bodyStart limit.value) = some whole ∧
      feedPieces delivery.arrived delivery.pieces (.new bodyStart limit.value) = some cut ∧
      (cut.status = .complete →
        CompleteBody (delivery.stream.drop bodyStart) cut.body ∧ cut.body.length ≤ limit.value) ∧
      (cut.status = whole.status ∧ cut.body = whole.body ↔ ¬LateLine limit bodyStart delivery) := by
  refine ⟨fun data decoder hdata hdecoder => ⟨round_eq hdata hdecoder, ?_⟩, ?_⟩
  · obtain ⟨stopped, hhalts, hfeed⟩ := feed_eq hdata hdecoder
    have hsettled : (settle data stopped).pos = stopped.pos ∧ (settle data stopped).maxBodySize = stopped.maxBodySize := by
      rw [settle]
      split <;> exact ⟨rfl, rfl⟩
    have hbounded := bounded_of_reaches hhalts.1 hdecoder
    refine ⟨_, hfeed, hsettled.1 ▸ (reaches_le hhalts.1).1, ?_, ?_⟩
    · rw [settle_body, hsettled.2]
      exact hbounded.body
    · rw [hsettled.2]
      exact hbounded.limit
  · have hnew : Bounded (.new bodyStart limit.value) := bounded_new limit.ceiling
    obtain ⟨last, hlast, hwhole⟩ := feed_eq delivery.fits hnew
    refine ⟨settle delivery.stream last, ?_⟩
    rcases feedPieces_cases hnew delivery.fits (.refl) with
      ⟨cut, hcut, hend, hnone⟩ | ⟨p, hp, stopped, hstopped, hlong, hcut, hleast⟩
    · -- No prefix ends in an overlong line, and neither does the whole response.
      obtain rfl := hend.unique hlast
      have hsettled : settle delivery.stream cut = cut := if_neg (hnone _ stream_mem cut hend)
      refine ⟨cut, hwhole, hcut, (hasRead_of_reaches hend.1).complete, ?_⟩
      rw [hsettled]
      refine ⟨fun _ hlate => ?_, fun _ => ⟨rfl, rfl⟩⟩
      obtain ⟨data, hdata, chunks, body, part, rest, hpart, -, hchunks, hfits, hlength, hfree, -⟩ := hlate
      obtain ⟨hhalts, hlate⟩ := overlong_of_text hpart hchunks hfits hlength hfree
      exact hnone data hdata _ hhalts hlate
    · -- The first overlong line is rejected, and decides the result.
      have hprefix : p <+: delivery.stream := (prefix_of_mem hp).2
      refine ⟨{ stopped with status := .malformed }, hwhole, hcut, fun h => (by cases h), ?_⟩
      obtain ⟨chunks, part, rest, hpart, hstream, hchunks, hfits, hlength, hfree, hstopped'⟩ :=
        overlong_text hstopped hlong hprefix
      have hpos : stopped.pos = bodyStart + chunks.length := congrArg ChunkedBodyDecoder.pos hstopped'
      have hrest : delivery.stream.drop stopped.pos = rest := by rw [hpos, ← List.drop_drop, hstream, List.drop_left]
      have hrejected := malformed_iff_rejected hstopped hlong hprefix hlast hrest
      constructor
      · rintro ⟨hstatus, hbody⟩ ⟨data, hdata, late⟩
        exact not_late_of_rejected hstopped hlong hprefix hrest (hrejected.mp ⟨hstatus.symm, hbody.symm⟩)
          (prefix_of_mem hdata).2 (hleast data hdata) late
      · intro hlate
        obtain ⟨hstatus, hbody⟩ := hrejected.mpr (by
          by_contra hnot
          exact hlate ⟨p, hp, chunks, stopped.body, part, rest, hpart, hstream, hchunks, hfits, hlength, hfree, hnot⟩)
        exact ⟨hstatus.symm, hbody.symm⟩

/-! ## A response with a long size line -/

/-- What is behind the line: its break, the chunk `a` and the last chunk. -/
def behindLine : Bytes := [13, 10, 97, 13, 10, 48, 13, 10]

/-- A size line that is longer than the longest is rejected when the response is cut in it,
    and taken when it is not. -/
theorem long_line {line : Bytes} (hfree : ¬crlf <:+: line) (hsize : SizeLine line 1) (hlong : maxChunkHeaderLine < line.length)
    (hfits : FitsString (line ++ behindLine)) :
    (feedPieces line [behindLine] (.new 0 1024)).map (·.status) = some .malformed ∧
      (feed (line ++ behindLine) (.new 0 1024)).map (·.status) = some .complete := by
  have hnew : Bounded (.new 0 1024) := ⟨Nat.zero_le _, by decide⟩
  constructor
  · have hline : findCrlf line (new 0 1024).pos = none := by
      rw [Option.eq_none_iff_forall_not_mem]
      intro lineEnd hlineEnd
      obtain ⟨front, more, hmore, -, -⟩ := findCrlf_iff.mp hlineEnd
      exact hfree ⟨front, more, hmore.symm⟩
    obtain ⟨stopped, hhalts, hfeed⟩ := feed_eq (fitsString_start hfits (List.prefix_append _ _)) hnew
    obtain rfl := hhalts.1.eq_of_none (advance_of_no_line hline)
    have hoverlong : overlong line (.new 0 1024) := ⟨rfl, hline, (Nat.zero_add maxChunkHeaderLine).le.trans_lt hlong⟩
    rw [feedPieces, hfeed, settle, if_pos hoverlong, Option.bind_some, feedPieces_done (fun h => (by cases h))]
    rfl
  · obtain ⟨last, hlast, hfeed⟩ := feed_eq hfits hnew
    have hchunks : Chunks ([] ++ (line ++ crlf ++ [97] ++ crlf)) ([] ++ [97]) := .snoc .nil hfree hsize (by decide)
    have hdrop : (line ++ behindLine).drop 0 = [] ++ (line ++ crlf ++ [97] ++ crlf) ++ [48, 13, 10] := by
      rw [List.drop_zero, List.nil_append]
      simp only [List.append_assoc]
      rfl
    have hreach : Resumption.Reaches advance (line ++ behindLine) (new 0 1024) (reading 0 1024 _ ([] ++ [97])) :=
      reaches_of_chunks hchunks hdrop (by decide)
    have hline : LineAt (line ++ behindLine) (reading 0 1024 ([] ++ (line ++ crlf ++ [97] ++ crlf)) ([] ++ [97]))
        (0 + ([] ++ (line ++ crlf ++ [97] ++ crlf)).length + 1) (some 0) := by
      refine lineAt_iff.mpr ⟨[48], [], ?_, by decide, rfl, by decide⟩
      rw [reading, ← List.drop_drop, hdrop, List.drop_left]
      rfl
    have hstep := advance_iff.mpr ⟨rfl, Advances.last hline⟩
    obtain rfl := hlast.unique ⟨hreach.trans (.head hstep .refl), rfl⟩
    rw [hfeed, settle_of_ne (fun h => (by cases h))]
    rfl

/-- `"1;xx…"`, of 4098 bytes. -/
theorem rejected_when_cut :
    (feedPieces (49 :: 59 :: List.replicate 4096 120) [behindLine] (.new 0 1024)).map (·.status) = some .malformed ∧
      (feed (49 :: 59 :: List.replicate 4096 120 ++ behindLine) (.new 0 1024)).map (·.status) = some .complete := by
  refine long_line ?_ ?_ ?_ ?_
  · intro h
    have hmem : (13 : UInt8) ∈ 49 :: 59 :: List.replicate 4096 120 := h.subset (by decide)
    rw [List.mem_cons, List.mem_cons, List.mem_replicate] at hmem
    rcases hmem with h | h | ⟨-, h⟩
    · exact absurd h (by decide)
    · exact absurd h (by decide)
    · exact absurd h (by decide)
  · refine ⟨[49], [], 59 :: List.replicate 4096 120, rfl, List.cons_ne_nil _ _, fun c hc => ?_, fun c hc => ?_, fun c hc => ?_,
      rfl, by decide⟩
    · rw [List.mem_singleton.mp hc]
      rfl
    · cases hc
    · rw [List.head?_cons] at hc
      exact (Option.some.inj hc).symm
  · rw [List.length_cons, List.length_cons, List.length_replicate]
    decide
  · rw [FitsString, List.length_append, List.length_cons, List.length_cons, List.length_replicate]
    decide

end Arrival

end Luma.Http
