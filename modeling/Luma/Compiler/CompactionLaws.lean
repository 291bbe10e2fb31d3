-- SUMMARY: What compaction keeps of a chunk, and exactly when it keeps every source location.
import Luma.Compiler.CompactionPieces

/-! # Laws of Compaction

Compaction keeps the live instructions and leads their jumps to the images of their
targets. A source location is kept where the entry that gives it belongs to a live byte,
or where the live entry before that one names the same location. -/

namespace Luma

open Codec

namespace Optimizer

/-- The chunk `new` has the instructions `qs`: the live ones of `old`, its jumps led to
    the images of their targets, with their source locations. -/
structure Compacts (old : Chunk) (ps : List Piece) (new : Chunk) (qs : List Bytes) : Prop where
  code_eq : new.code = qs.flatten
  whole : ∀ w ∈ qs, Whole w
  same : List.Forall₂ SameInstruction (liveOf ps) qs
  jumps : ∀ offset w, LiveAt ps offset w → ∀ target : Nat, target ≤ old.code.length →
    targetAt old.code offset = some (target : Int) →
    targetAt new.code (imageOf ps qs offset) = some (imageOf ps qs target : Int)
  locations : ∀ offset w, LiveAt ps offset w →
    new.sourceMap.locationAt (imageOf ps qs offset) = old.sourceMap.locationAt offset
  constants : new.constants = old.constants
  names : new.names = old.names

/-- The entries of live bytes. -/
def liveEntries (ps : List Piece) (entries : SourceMap) : SourceMap :=
  entries.filter fun entry => (maskOf ps)[entry.1]? == some false

/-- Every jump that stays inside the code leads to the start of a piece. -/
def JumpsToStarts (code : Bytes) (ps : List Piece) : Prop :=
  ∀ offset w, LiveAt ps offset w → ∀ target : Nat, target ≤ code.length →
    targetAt code offset = some (target : Int) → StartsAt ps target

/-- Where a byte is dead, the entries of live bytes alone locate every live
    instruction. -/
def LocatedByLive (ps : List Piece) (entries : SourceMap) : Prop :=
  Piece.dead ∈ ps → ∀ offset w, LiveAt ps offset w →
    (liveEntries ps entries).locationAt offset = entries.locationAt offset

variable {ps : List Piece} {w : Bytes} {offset : Nat}

/-! ## The source map -/

/-- The search takes the same turns in a moved map, when every entry stays on its side
    of the offset. -/
theorem upperBoundFrom_map {entries : SourceMap} {move : Nat → Nat} {target : Nat}
    (hside : ∀ entry ∈ entries, target < move entry.1 ↔ offset < entry.1) (fuel first len : Nat) :
    SourceMap.upperBoundFrom (entries.map fun entry => (move entry.1, entry.2)) target fuel first len =
      SourceMap.upperBoundFrom entries offset fuel first len := by
  induction fuel generalizing first len with
  | zero => rfl
  | succ fuel ih =>
    rw [SourceMap.upperBoundFrom, SourceMap.upperBoundFrom]
    split
    · rfl
    · simp only [List.getElem?_map]
      cases hentry : entries[first + len / 2]? with
      | none => rfl
      | some entry =>
        simp only [Option.map_some, hside entry (List.mem_of_getElem? hentry), ih]

theorem locationAt_map {entries : SourceMap} {move : Nat → Nat} {target : Nat}
    (hside : ∀ entry ∈ entries, target < move entry.1 ↔ offset < entry.1) :
    SourceMap.locationAt (entries.map fun entry => (move entry.1, entry.2)) target =
      SourceMap.locationAt entries offset := by
  rw [SourceMap.locationAt, SourceMap.locationAt, SourceMap.upperBound, SourceMap.upperBound, List.length_map,
    upperBoundFrom_map hside, List.getElem?_map]
  cases entries[SourceMap.upperBoundFrom entries offset entries.length 0 entries.length - 1]? with
  | none => rfl
  | some entry => rfl

/-- The entries that move are those of live bytes. -/
theorem moveEntries_eq (entries : SourceMap) :
    moveEntries (offsetMapFrom (maskOf ps) 0) (maskOf ps) (liveBytesBefore ps (assemble ps).length) entries =
      (liveEntries ps entries).map fun entry => (liveBytesBefore ps entry.1, entry.2) := by
  induction entries with
  | nil => rfl
  | cons entry entries ih =>
    rw [moveEntries, List.filterMap_cons, liveEntries, List.filter_cons]
    rw [moveEntries, liveEntries] at ih
    cases hmask : (maskOf ps)[entry.1]? with
    | none =>
      have hout : ¬ entry.1 < (maskOf ps).length := by
        rw [List.getElem?_eq_none_iff] at hmask
        omega
      rw [if_neg fun h => hout h.2.2.1]
      simpa using ih
    | some d =>
      obtain ⟨hlt, hget⟩ := List.getElem?_eq_some_iff.mp hmask
      have hgetD : (maskOf ps).getD entry.1 false = d := by
        rw [List.getD_eq_getElem _ _ hlt, hget]
      cases d with
      | true =>
        rw [if_neg fun h => by rw [hgetD] at h; exact absurd h.2.2.2 (by decide)]
        simpa using ih
      | false =>
        have hinside : entry.1 < (assemble ps).length := by
          rw [length_maskOf] at hlt
          exact hlt
        have hmoves := offsetMap_getD hinside.le
        have hbelow := liveBytesBefore_lt hmask hinside
        rw [if_pos ⟨by rw [length_offsetMap]; omega, by rw [hmoves]; exact hbelow, hlt, hgetD⟩, hmoves]
        simpa using ih

/-- The moved map locates a live instruction as the entries of live bytes do. -/
theorem locationAt_moveEntries (hwhole : ∀ w, Piece.live w ∈ ps → Whole w) (h : LiveAt ps offset w)
    (entries : SourceMap) :
    (moveEntries (offsetMapFrom (maskOf ps) 0) (maskOf ps) (liveBytesBefore ps (assemble ps).length)
        entries).locationAt (liveBytesBefore ps offset) =
      (liveEntries ps entries).locationAt offset := by
  have hw : Whole w := by
    obtain ⟨pre, post, rfl, -⟩ := h
    exact hwhole w (List.mem_append_right _ List.mem_cons_self)
  have hlive := h.mask hw.length_pos
  rw [moveEntries_eq]
  refine locationAt_map fun entry _ => ⟨fun hlt => ?_, fun hlt => liveBytesBefore_lt hlive hlt⟩
  by_contra hle
  have hmono := @liveBytesBefore_mono ps _ _ (Nat.le_of_not_lt hle)
  omega

/-! ## The pass -/

theorem assemble_of_all_live (h : Piece.dead ∉ ps) : assemble ps = (liveOf ps).flatten := by
  induction ps with
  | nil => rfl
  | cons p ps ih =>
    have htail : Piece.dead ∉ ps := fun hmem => h (List.mem_cons_of_mem _ hmem)
    cases p with
    | dead => exact absurd List.mem_cons_self h
    | live w => rw [assemble_cons, liveOf_live, List.flatten_cons, ih htail, Piece.bytes]

theorem liveOf_length_le : (liveOf ps).flatten.length ≤ (assemble ps).length := by
  rw [← liveBytesBefore_all]
  have hle := @liveBytesBefore_add_le ps 0 (assemble ps).length
  rw [Nat.zero_add] at hle
  exact hle.trans (by simp [liveBytesBefore])

theorem liveOf_length_lt (h : Piece.dead ∈ ps) : (liveOf ps).flatten.length < (assemble ps).length := by
  obtain ⟨pre, post, rfl⟩ := List.append_of_mem h
  have hpre := @liveOf_length_le pre
  have hpost := @liveOf_length_le post
  rw [liveOf_append, liveOf_dead, List.flatten_append, List.length_append, assemble_append, assemble_cons,
    List.length_append, List.length_append]
  simp only [Piece.bytes, List.length_singleton]
  omega

/-- The new offsets in a code without dead bytes are the old ones. -/
theorem liveBytesBefore_of_all_live (h : Piece.dead ∉ ps) {t : Nat} (ht : t ≤ (assemble ps).length) :
    liveBytesBefore ps t = t := by
  have hall := @liveBytesBefore_all ps
  rw [← assemble_of_all_live h] at hall
  have hbelow := @liveBytesBefore_add_le ps 0 t
  have habove := @liveBytesBefore_add_le ps t ((assemble ps).length - t)
  have hzero : liveBytesBefore ps 0 = 0 := by simp [liveBytesBefore]
  rw [Nat.add_sub_cancel' ht] at habove
  rw [Nat.zero_add] at hbelow
  omega

/-- What the pass computes, piece by piece. -/
structure Output (chunk : Chunk) (ps : List Piece) (new : Chunk) (qs : List Bytes) : Prop where
  code_eq : new.code = qs.flatten
  whole : ∀ w ∈ qs, Whole w
  same : List.Forall₂ SameInstruction (liveOf ps) qs
  jumps : ∀ offset w, LiveAt ps offset w → ∀ target : Nat, target ≤ chunk.code.length →
    targetAt chunk.code offset = some (target : Int) →
    targetAt new.code (liveBytesBefore ps offset) = some (liveBytesBefore ps target : Int)
  locations : ∀ offset w, LiveAt ps offset w →
    new.sourceMap.locationAt (liveBytesBefore ps offset) =
      if Piece.dead ∈ ps then (liveEntries ps chunk.sourceMap).locationAt offset
      else chunk.sourceMap.locationAt offset
  constants : new.constants = chunk.constants
  names : new.names = chunk.names

section Pass

variable {chunk : Chunk} (h : Reads chunk.code ps)

include h

theorem markDead_reads :
    markDead chunk.code chunk.code.length 0 (List.replicate chunk.code.length false) = maskOf ps := by
  have hmark := markDead_assemble [] h.whole (le_refl _)
  rw [h.code_eq]
  simpa using hmark

/-- Nothing is dead: the chunk stays as it is. -/
theorem output_of_all_live (hlive : Piece.dead ∉ ps) : Output chunk ps chunk (liveOf ps) where
  code_eq := h.code_eq.trans (assemble_of_all_live hlive)
  whole w hw := by
    obtain ⟨p, hp, hw⟩ := List.mem_filterMap.mp hw
    cases p with
    | dead => cases hw
    | live v =>
      cases hw
      exact h.whole w hp
  same := List.forall₂_same.mpr fun w _ => ⟨rfl, rfl, fun _ => rfl⟩
  jumps offset w hw target ht htarget := by
    have hoffset : offset ≤ (assemble ps).length := by
      obtain ⟨pre, post, rfl, rfl⟩ := hw
      simp
    rw [liveBytesBefore_of_all_live hlive hoffset, liveBytesBefore_of_all_live hlive (h.code_eq ▸ ht)]
    exact htarget
  locations offset w hw := by
    have hoffset : offset ≤ (assemble ps).length := by
      obtain ⟨pre, post, rfl, rfl⟩ := hw
      simp
    rw [liveBytesBefore_of_all_live hlive hoffset, if_neg hlive]
  constants := rfl
  names := rfl

/-- Something is dead: the pieces are relocated and the dead ones dropped. -/
theorem output_of_dead (hdead : Piece.dead ∈ ps) :
    Output chunk ps
      { chunk with
        code := (liveOf (relocatePieces (offsetMapFrom (maskOf ps) 0) (assemble ps).length 0 ps)).flatten
        sourceMap := moveEntries (offsetMapFrom (maskOf ps) 0) (maskOf ps)
          (liveBytesBefore ps (assemble ps).length) chunk.sourceMap }
      (liveOf (relocatePieces (offsetMapFrom (maskOf ps) 0) (assemble ps).length 0 ps)) where
  code_eq := rfl
  whole := (relocatePieces_same _ _ 0 h.whole).2
  same := (relocatePieces_same _ _ 0 h.whole).1
  jumps offset w hw target ht htarget := by
    have hwhole : Whole w := by
      obtain ⟨pre, post, rfl, -⟩ := hw
      exact h.whole w (List.mem_append_right _ List.mem_cons_self)
    have hmask : ∀ d < w.length, (maskOf ps)[offset + d]? = some false := fun d hd => hw.mask hd
    obtain ⟨pre, post, hps, rfl⟩ := hw
    have hold : targetOf (assemble pre).length w = some (target : Int) := by
      rw [← targetAt_middle hwhole (assemble pre) (assemble post), ← htarget, h.code_eq, hps, assemble_append,
        assemble_cons, Piece.bytes, List.append_assoc]
    have hnew := targetOf_relocated hwhole hmask (h.code_eq ▸ ht) hold
    -- The survivors before this instruction are as long as the live bytes before it.
    have hpre : ∀ w, Piece.live w ∈ pre → Whole w := fun w hw => h.whole w (hps ▸ List.mem_append_left _ hw)
    have hlen : (liveOf (relocatePieces (offsetMapFrom (maskOf ps) 0) (assemble ps).length 0 pre)).flatten.length =
        liveBytesBefore ps (assemble pre).length := by
      have hcount := liveBytesBefore_append pre (.live w :: post) 0
      have hflat := flatten_take_length
        (relocatePieces_same (offsetMapFrom (maskOf ps) 0) (assemble ps).length 0 hpre).1 (liveOf pre).length
      have hcard := (relocatePieces_same (offsetMapFrom (maskOf ps) 0) (assemble ps).length 0 hpre).1.length_eq
      rw [hcard, List.take_length, ← hcard, List.take_length] at hflat
      rw [← hps, Nat.add_zero] at hcount
      rw [hflat, hcount]
      exact (Nat.add_zero _).symm
    have hsplit : ∀ offsetMap size, liveOf (relocatePieces offsetMap size 0 ps) =
        liveOf (relocatePieces offsetMap size 0 pre) ++
          relocated offsetMap size (assemble pre).length w ::
            liveOf (relocatePieces offsetMap size ((assemble pre).length + w.length) post) := by
      intro offsetMap size
      rw [hps, relocatePieces_append, Nat.zero_add, relocatePieces, liveOf_append, liveOf_live]
    dsimp only
    rw [hsplit, List.flatten_append, List.flatten_cons, ← List.append_assoc, ← hlen,
      targetAt_middle (relocated_same hwhole _ _ _).2, hlen]
    exact hnew
  locations offset w hw := by
    rw [if_pos hdead]
    exact locationAt_moveEntries h.whole hw chunk.sourceMap
  constants := rfl
  names := rfl

/-- The pass drops as many bytes as it reports, and its result is made of the relocated
    pieces. -/
theorem compact_output :
    (compact chunk).1 + (compact chunk).2.code.length = chunk.code.length ∧
      ∃ qs, Output chunk ps (compact chunk).2 qs := by
  have hmap := @offsetMap_getD ps _ (le_refl _)
  have hle := @liveOf_length_le ps
  have hcompact : compact chunk =
      if (assemble ps).length - (liveOf ps).flatten.length = 0 then (0, chunk)
      else ((assemble ps).length - (liveOf ps).flatten.length,
        { chunk with
          code := (liveOf (relocatePieces (offsetMapFrom (maskOf ps) 0) (assemble ps).length 0 ps)).flatten
          sourceMap := moveEntries (offsetMapFrom (maskOf ps) 0) (maskOf ps)
            (liveBytesBefore ps (assemble ps).length) chunk.sourceMap }) := by
    have hfix := fixJumps_assemble (offsetMapFrom (maskOf ps) 0) [] [] h.whole rfl (le_refl _)
    have hkeep := @keepLive_assemble
      (relocatePieces (offsetMapFrom (maskOf ps) 0) (assemble ps).length 0 ps)
    rw [maskOf_relocatePieces _ _ _ h.whole] at hkeep
    simp only [List.nil_append, List.length_nil, Nat.zero_add] at hfix
    simp only [compact, markDead_reads h]
    rw [h.code_eq, hmap, hfix, hkeep, liveBytesBefore_all]
  by_cases hdead : Piece.dead ∈ ps
  · have hlt := liveOf_length_lt hdead
    rw [if_neg (by omega)] at hcompact
    have hout := output_of_dead h hdead
    rw [hcompact]
    refine ⟨?_, _, hout⟩
    have hsame := flatten_take_length hout.same (liveOf ps).length
    have hcard := hout.same.length_eq
    rw [hcard, List.take_length, ← hcard, List.take_length] at hsame
    dsimp only
    rw [hsame, h.code_eq]
    omega
  · have hall := assemble_of_all_live hdead
    rw [if_pos (by rw [hall]; omega)] at hcompact
    rw [hcompact]
    exact ⟨Nat.zero_add _, _, output_of_all_live h hdead⟩

end Pass

/-! ## When compaction keeps everything -/

/-- Compaction drops exactly the dead bytes and leads every jump to the image of its
    target; it does all that is asked of it if and only if no jump leads into the middle
    of an instruction and no location is held by the entry of a dead byte alone. -/
theorem compact_iff {chunk : Chunk} (h : Reads chunk.code ps) :
    ((compact chunk).1 + (compact chunk).2.code.length = chunk.code.length ∧
        ∃ qs, Compacts chunk ps (compact chunk).2 qs) ↔
      JumpsToStarts chunk.code ps ∧ LocatedByLive ps chunk.sourceMap := by
  obtain ⟨hcount, qs, hout⟩ := compact_output h
  have hsize : chunk.code.length = (assemble ps).length := congrArg List.length h.code_eq
  constructor
  · rintro ⟨-, qs', hc⟩
    refine ⟨fun offset w hw target ht htarget => ?_, fun hdead offset w hw => ?_⟩
    · have hlands := hc.jumps offset w hw target ht htarget
      have hgoes := hout.jumps offset w hw target ht htarget
      rw [imageOf_start h.whole hc.same hw.starts, hgoes, Option.some.injEq, Int.natCast_inj] at hlands
      exact starts_of_imageOf_eq h.whole hc.same (hsize ▸ ht) hlands.symm
    · have hkeeps := hc.locations offset w hw
      rw [imageOf_start h.whole hc.same hw.starts, hout.locations offset w hw, if_pos hdead] at hkeeps
      exact hkeeps
  · rintro ⟨hjumps, hlocated⟩
    refine ⟨hcount, qs, hout.code_eq, hout.whole, hout.same, fun offset w hw target ht htarget => ?_,
      fun offset w hw => ?_, hout.constants, hout.names⟩
    · rw [imageOf_start h.whole hout.same hw.starts,
        imageOf_start h.whole hout.same (hjumps offset w hw target ht htarget)]
      exact hout.jumps offset w hw target ht htarget
    · rw [imageOf_start h.whole hout.same hw.starts, hout.locations offset w hw]
      split
      · exact hlocated (by assumption) offset w hw
      · rfl

/-- A dead pair, then `None Return`: what is left when a callee `None Pop None` has been
    copied over its call and its first pair removed. -/
def inlinedCallee (call ret : SourceLocation) : Chunk where
  code := [deadByte, deadByte, Op.none_.toByte, Op.return_.toByte]
  constants := .empty
  sourceMap := [(0, call), (3, ret)]
  names := .empty

def inlinedPieces : List Piece :=
  [.dead, .dead, .live [Op.none_.toByte], .live [Op.return_.toByte]]

theorem reads_inlinedCallee (call ret : SourceLocation) : Reads (inlinedCallee call ret).code inlinedPieces where
  code_eq := rfl
  whole w hw := by
    simp only [inlinedPieces, List.mem_cons, Piece.live.injEq, reduceCtorEq, List.not_mem_nil, false_or,
      or_false] at hw
    obtain rfl | rfl := hw
    · exact ⟨by decide, by decide, by decide⟩
    · exact ⟨by decide, by decide, by decide⟩

/-- With one location for both entries, nothing is lost. -/
theorem compact_iff_inlinedCallee :
    ((compact (inlinedCallee SourceMap.noLocation SourceMap.noLocation)).1 + 2 = 4 ∧
        ∃ qs, Compacts (inlinedCallee SourceMap.noLocation SourceMap.noLocation) inlinedPieces
          (compact (inlinedCallee SourceMap.noLocation SourceMap.noLocation)).2 qs) ↔
      JumpsToStarts (inlinedCallee SourceMap.noLocation SourceMap.noLocation).code inlinedPieces ∧
        LocatedByLive inlinedPieces (inlinedCallee SourceMap.noLocation SourceMap.noLocation).sourceMap :=
  compact_iff (reads_inlinedCallee SourceMap.noLocation SourceMap.noLocation)

/-- The `None` of an inlined callee has no entry of its own: it takes the location of
    the instruction behind it. -/
theorem compact_loses_location :
    ∃ call ret : SourceLocation, Reads (inlinedCallee call ret).code inlinedPieces ∧
      ¬ ∃ qs, Compacts (inlinedCallee call ret) inlinedPieces (compact (inlinedCallee call ret)).2 qs := by
  refine ⟨{ SourceMap.noLocation with line := 2 }, SourceMap.noLocation, reads_inlinedCallee _ _, ?_⟩
  rintro ⟨qs, hc⟩
  have hkeeps := hc.locations 2 [Op.none_.toByte]
    ⟨[.dead, .dead], [.live [Op.return_.toByte]], rfl, rfl⟩
  have hfirst : imageOf inlinedPieces qs 2 = 0 := rfl
  rw [hfirst] at hkeeps
  exact absurd hkeeps (by decide)

/-! ## An entry for every instruction -/

/-- The search finds the end of the entries not behind the offset, when they come
    first. -/
theorem upperBoundFrom_eq {entries : SourceMap} {k : Nat}
    (hpart : ∀ i entry, entries[i]? = some entry → (entry.1 ≤ offset ↔ i < k)) {fuel first len : Nat}
    (hfuel : len ≤ fuel) (hlen : first + len ≤ entries.length) (hfirst : first ≤ k) (hlast : k ≤ first + len) :
    SourceMap.upperBoundFrom entries offset fuel first len = k := by
  induction fuel generalizing first len with
  | zero =>
    rw [SourceMap.upperBoundFrom]
    omega
  | succ fuel ih =>
    rw [SourceMap.upperBoundFrom]
    split
    · omega
    · have hmiddle : first + len / 2 < entries.length := by omega
      have hget := List.getElem?_eq_getElem hmiddle
      have hside := hpart _ _ hget
      simp only [hget]
      split
      · exact ih (by omega) (by omega) hfirst (by omega)
      · exact ih (by omega) (by omega) (by omega) (by omega)

/-- The location is that of the last entry not behind the offset. -/
theorem locationAt_eq {front back : SourceMap} {entry : Nat × SourceLocation}
    (hfront : ∀ e ∈ front, e.1 ≤ offset) (hentry : entry.1 ≤ offset) (hback : ∀ e ∈ back, offset < e.1) :
    SourceMap.locationAt (front ++ entry :: back) offset = entry.2 := by
  have hpart : ∀ i e, (front ++ entry :: back)[i]? = some e → (e.1 ≤ offset ↔ i < front.length + 1) := by
    intro i e he
    obtain hlt | rfl | hgt := Nat.lt_trichotomy i front.length
    · rw [List.getElem?_append_left hlt] at he
      have hle := hfront e (List.mem_of_getElem? he)
      omega
    · rw [List.getElem?_append_right (le_refl _), Nat.sub_self, List.getElem?_cons_zero, Option.some.injEq] at he
      subst he
      omega
    · obtain ⟨j, rfl⟩ : ∃ j, i = front.length + (j + 1) := ⟨i - front.length - 1, by omega⟩
      rw [List.getElem?_append_right (by omega), Nat.add_sub_cancel_left, List.getElem?_cons_succ] at he
      have hlt := hback e (List.mem_of_getElem? he)
      omega
  have hbound : SourceMap.upperBound (front ++ entry :: back) offset = front.length + 1 :=
    upperBoundFrom_eq hpart (le_refl _) (by simp) (by simp) (by simp)
  rw [SourceMap.locationAt, hbound, Nat.add_sub_cancel, List.getElem?_append_right (le_refl _), Nat.sub_self]
  rfl

/-- The last entry of an offset in a map in order. -/
theorem exists_last_entry {entries : SourceMap} (horder : entries.Pairwise fun a b => a.1 ≤ b.1)
    (hown : ∃ e ∈ entries, e.1 = offset) :
    ∃ front entry back, entries = front ++ entry :: back ∧ entry.1 = offset ∧ ∀ e ∈ back, offset < e.1 := by
  induction entries with
  | nil =>
    obtain ⟨e, he, -⟩ := hown
    exact absurd he List.not_mem_nil
  | cons e entries ih =>
    obtain ⟨hhead, htail⟩ := List.pairwise_cons.mp horder
    by_cases hlater : ∃ e' ∈ entries, e'.1 = offset
    · obtain ⟨front, entry, back, rfl, hentry, hback⟩ := ih htail hlater
      exact ⟨e :: front, entry, back, rfl, hentry, hback⟩
    · obtain ⟨e', he', hoffset⟩ := hown
      obtain rfl | hmem := List.mem_cons.mp he'
      · refine ⟨[], e', entries, rfl, hoffset, fun b hb => ?_⟩
        have hle := hhead b hb
        have hne : b.1 ≠ offset := fun heq => hlater ⟨b, hb, heq⟩
        omega
      · exact absurd ⟨e', hmem, hoffset⟩ hlater

/-- A map in order with an entry for every live instruction loses no location. -/
theorem locatedByLive_of_entries {entries : SourceMap} (horder : entries.Pairwise fun a b => a.1 ≤ b.1)
    (hwhole : ∀ w, Piece.live w ∈ ps → Whole w)
    (hown : ∀ offset w, LiveAt ps offset w → ∃ e ∈ entries, e.1 = offset) : LocatedByLive ps entries := by
  intro _ offset w hw
  have hlive : (maskOf ps)[offset]? = some false := by
    obtain ⟨pre, post, rfl, -⟩ := id hw
    exact hw.mask (d := 0) (hwhole w (List.mem_append_right _ List.mem_cons_self)).length_pos
  obtain ⟨front, entry, back, rfl, hentry, hback⟩ := exists_last_entry horder (hown offset w hw)
  have hfront : ∀ e ∈ front, e.1 ≤ offset := fun e he =>
    hentry ▸ (List.pairwise_append.mp horder).2.2 e he entry List.mem_cons_self
  have hkeep : ((maskOf ps)[entry.1]? == some false) = true := by
    rw [hentry, hlive]
    rfl
  rw [locationAt_eq hfront hentry.le hback, liveEntries, List.filter_append, List.filter_cons, if_pos hkeep]
  exact locationAt_eq (fun e he => hfront e (List.mem_of_mem_filter he)) hentry.le
    fun e he => hback e (List.mem_of_mem_filter he)

end Optimizer

end Luma
