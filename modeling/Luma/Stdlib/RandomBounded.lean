-- SUMMARY: Bounded random integers by rejection sampling, and their uniformity.
import Mathlib.Data.Int.CardIntervalMod
import Mathlib.SetTheory.Cardinal.Finite
import Mathlib.Tactic.Ring

/-! # Bounded Random Integers

A draw from a closed range of 64-bit integers out of raw 64-bit values. Raw values below a
threshold are thrown away, so that what is left is a whole number of copies of the
range. All arithmetic wraps in unsigned 64-bit space. -/

namespace Luma

/-! ## The draw -/

/-- `hi - lo`, by wrapping subtraction. -/
def boundedRange (lo hi : Int64) : UInt64 := hi.toUInt64 - lo.toUInt64

/-- The smallest raw value that is accepted. -/
def boundedRejectThreshold (range : UInt64) : UInt64 :=
  let span := range + 1
  -- the span of the full range wraps to zero
  if span = 0 then 0 else (0 - span) % span

def boundedMap (lo : Int64) (range raw : UInt64) : Int64 :=
  let span := range + 1
  let reduced := if span = 0 then raw else raw % span
  (lo.toUInt64 + reduced).toInt64

/-- How a draw ends: with a value and the answers of the generator it did not ask for,
    with a failure, or still asking when the answers run out. -/
inductive Draw where
  | drawn (value : Int64) (rest : List (Option UInt64))
  | failed
  | starved
  deriving DecidableEq, Repr

/-- The loop: ask the generator until it fails or a raw value is accepted. -/
def drawLoop (lo : Int64) (range threshold : UInt64) : List (Option UInt64) → Draw
  | [] => .starved
  | none :: _ => .failed
  | some raw :: rest =>
    if raw < threshold then drawLoop lo range threshold rest
    else .drawn (boundedMap lo range raw) rest

/-- A uniform draw from `[lo, hi]`, given what the generator answers call by call. -/
def boundedUniform (lo hi : Int64) (answers : List (Option UInt64)) : Draw :=
  if hi < lo then .failed
  else if lo = hi then .drawn lo answers
  else
    let range := boundedRange lo hi
    drawLoop lo range (boundedRejectThreshold range) answers

/-! ## Wrapping arithmetic -/

theorem toUInt64_toNat (a : Int64) : (a.toUInt64.toNat : Int) = a.toInt % 2 ^ 64 := by
  have hlt := a.toUInt64.toNat_lt
  have hsigned : a.toInt = (a.toUInt64.toNat : Int).bmod (2 ^ 64) := by
    rw [← Int64.toInt_toBitVec, BitVec.toInt_eq_toNat_bmod, Int64.toNat_toBitVec]
  rw [hsigned, show (2 ^ 64 : Int) = ((2 ^ 64 : Nat) : Int) by norm_cast, Int.bmod_emod]
  omega

/-- The wrapping difference of an ordered pair is the difference. -/
theorem boundedRange_toNat {lo hi : Int64} (h : lo ≤ hi) :
    ((boundedRange lo hi).toNat : Int) = hi.toInt - lo.toInt := by
  rw [Int64.le_iff_toInt_le] at h
  have hlo := toUInt64_toNat lo
  have hhi := toUInt64_toNat hi
  have h1 := Int64.le_toInt lo
  have h2 := Int64.toInt_lt hi
  have h3 := lo.toUInt64.toNat_lt
  have h4 := hi.toUInt64.toNat_lt
  rw [boundedRange, UInt64.toNat_sub]
  omega

/-- An offset within the range gives the value at that offset. -/
theorem offset_toInt {lo hi : Int64} (h : lo ≤ hi) {offset : UInt64}
    (hoffset : offset ≤ boundedRange lo hi) :
    (lo.toUInt64 + offset).toInt64.toInt = lo.toInt + offset.toNat := by
  have hrange := boundedRange_toNat h
  rw [UInt64.le_iff_toNat_le] at hoffset
  have hlo := toUInt64_toNat lo
  have h1 := Int64.le_toInt lo
  have h2 := Int64.toInt_lt hi
  have hsum := toUInt64_toNat (lo.toUInt64 + offset).toInt64
  rw [UInt64.toUInt64_toInt64, UInt64.toNat_add] at hsum
  have h3 := Int64.le_toInt (lo.toUInt64 + offset).toInt64
  have h4 := Int64.toInt_lt (lo.toUInt64 + offset).toInt64
  omega

/-- A value is given by its own offset alone. -/
theorem offset_eq_iff {lo v : Int64} {offset : UInt64} :
    (lo.toUInt64 + offset).toInt64 = v ↔ offset = boundedRange lo v := by
  rw [boundedRange, UInt64.eq_sub_iff_add_eq, UInt64.add_comm offset]
  constructor
  · rintro rfl
    exact UInt64.toUInt64_toInt64 _
  · intro h
    rw [h, Int64.toInt64_toUInt64]

/-! ## Spans -/

/-- How many values the range has. -/
def width (range : UInt64) : Nat := range.toNat + 1

theorem span_eq_zero {range : UInt64} : range + 1 = 0 ↔ width range = 2 ^ 64 := by
  have hlt := range.toNat_lt
  rw [← UInt64.toNat_inj, UInt64.toNat_add, width]
  change (range.toNat + 1) % 2 ^ 64 = 0 ↔ _
  omega

theorem span_toNat {range : UInt64} (h : ¬ range + 1 = 0) : (range + 1).toNat = width range := by
  have hlt := range.toNat_lt
  rw [span_eq_zero, width] at h
  rw [UInt64.toNat_add, width]
  change (range.toNat + 1) % 2 ^ 64 = _
  omega

/-- What is rejected is the remainder of the raw values over the width. -/
theorem boundedRejectThreshold_toNat (range : UInt64) :
    (boundedRejectThreshold range).toNat = 2 ^ 64 % width range := by
  unfold boundedRejectThreshold
  by_cases hfull : range + 1 = 0
  · rw [if_pos hfull, span_eq_zero.mp hfull]
    rfl
  · have hspan := span_toNat hfull
    have hlt := (range + 1).toNat_lt
    have hpos : 0 < width range := Nat.succ_pos _
    rw [if_neg hfull, UInt64.toNat_mod, UInt64.toNat_sub, hspan]
    rw [hspan] at hlt
    -- 2 ^ 64 - span is 2 ^ 64 less one span, and has the same remainder
    change (2 ^ 64 - width range + 0) % 2 ^ 64 % width range = _
    rw [Nat.add_zero, Nat.mod_eq_of_lt (Nat.sub_lt (by decide) hpos),
      Nat.mod_eq_sub_mod (Nat.le_of_lt hlt)]

/-- The offset an accepted raw value is reduced to. -/
def boundedOffset (range raw : UInt64) : UInt64 :=
  if range + 1 = 0 then raw else raw % (range + 1)

theorem boundedMap_eq (lo : Int64) (range raw : UInt64) :
    boundedMap lo range raw = (lo.toUInt64 + boundedOffset range raw).toInt64 := rfl

theorem boundedOffset_toNat (range raw : UInt64) :
    (boundedOffset range raw).toNat = raw.toNat % width range := by
  unfold boundedOffset
  by_cases hfull : range + 1 = 0
  · rw [if_pos hfull, span_eq_zero.mp hfull, Nat.mod_eq_of_lt raw.toNat_lt]
  · rw [if_neg hfull, UInt64.toNat_mod, span_toNat hfull]

theorem boundedOffset_le (range raw : UInt64) : boundedOffset range raw ≤ range := by
  rw [UInt64.le_iff_toNat_le, boundedOffset_toNat]
  exact Nat.le_of_lt_succ (Nat.mod_lt _ (Nat.succ_pos _))

/-- A mapped raw value lies in the range. -/
theorem boundedMap_mem {lo hi : Int64} (h : lo ≤ hi) (raw : UInt64) :
    lo ≤ boundedMap lo (boundedRange lo hi) raw ∧ boundedMap lo (boundedRange lo hi) raw ≤ hi := by
  have hle := boundedOffset_le (boundedRange lo hi) raw
  have hvalue := offset_toInt h hle
  have hrange := boundedRange_toNat h
  rw [UInt64.le_iff_toNat_le] at hle
  rw [boundedMap_eq, Int64.le_iff_toInt_le, Int64.le_iff_toInt_le, hvalue]
  omega

/-! ## Counting -/

/-- Of the numbers from `n % m` to `n`, every residue takes `n / m`. -/
theorem card_residue (n m j : Nat) (hj : j < m) :
    ((Finset.Ico (n % m) n).filter (· % m = j)).card = n / m := by
  have hm : 0 < m := Nat.zero_lt_of_lt hj
  have hle : n % m ≤ n := Nat.mod_le n m
  have hresidue (x : Nat) : x % m = j ↔ x ≡ j [MOD m] := by
    rw [Nat.ModEq, Nat.mod_eq_of_lt hj]
  have hall := Nat.count_modEq_card n hm j
  have hlow := Nat.count_modEq_card (n % m) hm j
  rw [Nat.mod_mod, Nat.div_eq_of_lt (Nat.mod_lt n hm)] at hlow
  rw [Nat.count_eq_card_filter_range] at hall hlow
  have hsplit : Finset.range n = Finset.range (n % m) ∪ Finset.Ico (n % m) n := by
    rw [Finset.range_eq_Ico, Finset.range_eq_Ico, Finset.Ico_union_Ico_eq_Ico (Nat.zero_le _) hle]
  rw [hsplit, Finset.filter_union, Finset.card_union_of_disjoint, hlow] at hall
  · simp only [hresidue]
    omega
  · apply Finset.disjoint_filter_filter
    rw [Finset.range_eq_Ico]
    exact Finset.Ico_disjoint_Ico_consecutive 0 (n % m) n

/-- Raw values with a given property, counted by their numbers. -/
theorem card_raw (low : Nat) (p : Nat → Prop) [DecidablePred p] :
    Nat.card {raw : UInt64 // low ≤ raw.toNat ∧ p raw.toNat} =
      ((Finset.Ico low (2 ^ 64)).filter p).card := by
  rw [← Nat.card_eq_finsetCard]
  refine Nat.card_congr (Equiv.ofBijective (fun raw => ⟨raw.val.toNat, ?_⟩) ⟨?_, ?_⟩)
  · obtain ⟨raw, hlow, hp⟩ := raw
    rw [Finset.mem_filter, Finset.mem_Ico]
    exact ⟨⟨hlow, raw.toNat_lt⟩, hp⟩
  · rintro ⟨x, _⟩ ⟨y, _⟩ hsame
    rw [Subtype.mk.injEq, UInt64.toNat_inj] at hsame
    exact Subtype.ext hsame
  · rintro ⟨k, hk⟩
    rw [Finset.mem_filter, Finset.mem_Ico] at hk
    have hnat : (UInt64.ofNat k).toNat = k := UInt64.toNat_ofNat_of_lt hk.1.2
    exact ⟨⟨UInt64.ofNat k, by rw [hnat]; exact ⟨hk.1.1, hk.2⟩⟩, Subtype.ext hnat⟩

/-! ## Runs of the loop -/

/-- The loop ends with the first raw value that is not rejected. -/
theorem drawLoop_drawn {lo v : Int64} {range threshold : UInt64}
    {answers rest : List (Option UInt64)} :
    drawLoop lo range threshold answers = .drawn v rest ↔
      ∃ (rejected : List UInt64) (raw : UInt64),
        answers = rejected.map some ++ some raw :: rest ∧ (∀ r ∈ rejected, r < threshold) ∧
          ¬ raw < threshold ∧ boundedMap lo range raw = v := by
  induction answers with
  | nil =>
    constructor
    · intro h
      cases h
    · rintro ⟨rejected, raw, hanswers, -⟩
      simp at hanswers
  | cons answer answers ih =>
    cases answer with
    | none =>
      constructor
      · intro h
        cases h
      · rintro ⟨rejected, raw, hanswers, -⟩
        cases rejected <;> simp at hanswers
    | some first =>
      rw [drawLoop]
      by_cases hfirst : first < threshold
      · rw [if_pos hfirst, ih]
        constructor
        · rintro ⟨rejected, raw, rfl, hrejected, haccepted, hvalue⟩
          refine ⟨first :: rejected, raw, rfl, ?_, haccepted, hvalue⟩
          intro r hr
          rcases List.mem_cons.mp hr with rfl | hr
          · exact hfirst
          · exact hrejected r hr
        · rintro ⟨rejected, raw, hanswers, hrejected, haccepted, hvalue⟩
          cases rejected with
          | nil =>
            cases hanswers
            exact absurd hfirst haccepted
          | cons r rejected =>
            cases hanswers
            exact ⟨rejected, raw, rfl, fun x hx => hrejected x (List.mem_cons_of_mem _ hx),
              haccepted, hvalue⟩
      · rw [if_neg hfirst]
        constructor
        · intro h
          cases h
          exact ⟨[], first, rfl, fun _ h => absurd h (List.not_mem_nil), hfirst, rfl⟩
        · rintro ⟨rejected, raw, hanswers, hrejected, haccepted, hvalue⟩
          cases rejected with
          | nil =>
            cases hanswers
            rw [hvalue]
          | cons r rejected =>
            cases hanswers
            exact absurd (hrejected first List.mem_cons_self) hfirst
/-! ## Uniformity -/

/-- A raw value that ends the draw from `[lo, hi]` with `v`. -/
def Produces (lo hi v : Int64) (raw : UInt64) : Prop :=
  ∃ rest, boundedUniform lo hi [some raw] = .drawn v rest

/-- Below the threshold a raw value ends no draw, above it the one it maps to. -/
theorem produces_iff {lo hi : Int64} (h : lo < hi) {v : Int64} {raw : UInt64} :
    Produces lo hi v raw ↔
      ¬ raw < boundedRejectThreshold (boundedRange lo hi) ∧
        boundedMap lo (boundedRange lo hi) raw = v := by
  have hnot : ¬ hi < lo := Int64.not_lt.mpr (Int64.le_of_lt h)
  simp only [Produces, boundedUniform, hnot, Int64.ne_of_lt h, if_false, drawLoop]
  by_cases hrejected : raw < boundedRejectThreshold (boundedRange lo hi)
  · simp [hrejected]
  · simp [hrejected]

/-- The raw values that produce a value, by number: those at or above the threshold whose
    remainder is the offset of the value. -/
theorem produces_iff_residue {lo hi v : Int64} (h : lo ≤ hi) {raw : UInt64} :
    Produces lo hi v raw ↔
      2 ^ 64 % width (boundedRange lo hi) ≤ raw.toNat ∧
        raw.toNat % width (boundedRange lo hi) = (boundedRange lo v).toNat := by
  rcases Int64.lt_or_eq_of_le h with hlt | rfl
  · rw [produces_iff hlt, boundedMap_eq, offset_eq_iff, ← UInt64.toNat_inj, boundedOffset_toNat,
      UInt64.lt_iff_toNat_lt, boundedRejectThreshold_toNat, Nat.not_lt]
  · -- a single value needs no raw value, and every raw value has remainder zero
    have hself : boundedRange lo lo = 0 := UInt64.sub_self _
    have hwidth : width (boundedRange lo lo) = 1 := by
      rw [hself]
      rfl
    have hproduces : Produces lo lo v raw ↔ lo = v := by
      simp [Produces, boundedUniform, Int64.lt_irrefl]
    have hoffset : (lo.toUInt64 + 0).toInt64 = v ↔ 0 = boundedRange lo v := offset_eq_iff
    rw [UInt64.add_zero, Int64.toInt64_toUInt64] at hoffset
    rw [hproduces, hoffset, hwidth, Nat.mod_one, Nat.mod_one, ← UInt64.toNat_inj]
    simp

/-- What a draw from `[lo, hi]` guarantees. -/
structure UnbiasedDraw (lo hi : Int64) : Prop where
  /-- The span is the exact difference: nothing wraps. -/
  span_exact : ((boundedRange lo hi).toNat : Int) = hi.toInt - lo.toInt
  /-- No run returns a value outside the range. -/
  mem_range : ∀ {answers v rest}, boundedUniform lo hi answers = .drawn v rest → lo ≤ v ∧ v ≤ hi
  /-- A run over more than one value returns what the first raw value gives that gives any. -/
  first_accepted : lo ≠ hi → ∀ {answers v rest}, boundedUniform lo hi answers = .drawn v rest →
    ∃ (rejected : List UInt64) (raw : UInt64), answers = rejected.map some ++ some raw :: rest ∧
      (∀ r ∈ rejected, ∀ w, ¬ Produces lo hi w r) ∧ Produces lo hi v raw
  /-- Every value of the range has the same number of raw values. -/
  uniform : ∀ v, lo ≤ v → v ≤ hi →
    Nat.card {raw : UInt64 // Produces lo hi v raw} = 2 ^ 64 / width (boundedRange lo hi)

theorem bounded_uniform_unbiased {lo hi : Int64} (h : lo ≤ hi) : UnbiasedDraw lo hi where
  span_exact := boundedRange_toNat h
  mem_range := by
    intro answers v rest hdraw
    rw [boundedUniform, if_neg (Int64.not_lt.mpr h)] at hdraw
    by_cases hsingle : lo = hi
    · rw [if_pos hsingle] at hdraw
      cases hdraw
      exact ⟨Int64.le_refl lo, h⟩
    · rw [if_neg hsingle, drawLoop_drawn] at hdraw
      obtain ⟨rejected, raw, -, -, -, rfl⟩ := hdraw
      exact boundedMap_mem h raw
  first_accepted := by
    intro hne answers v rest hdraw
    have hlt : lo < hi := Int64.lt_of_le_of_ne h hne
    rw [boundedUniform, if_neg (Int64.not_lt.mpr h), if_neg hne, drawLoop_drawn] at hdraw
    obtain ⟨rejected, raw, hanswers, hrejected, haccepted, hvalue⟩ := hdraw
    refine ⟨rejected, raw, hanswers, ?_, (produces_iff hlt).mpr ⟨haccepted, hvalue⟩⟩
    intro r hr w hproduces
    exact ((produces_iff hlt).mp hproduces).1 (hrejected r hr)
  uniform := by
    intro v hlow hhigh
    have hoffset : (boundedRange lo v).toNat < width (boundedRange lo hi) := by
      have hv := boundedRange_toNat hlow
      have hrange := boundedRange_toNat h
      rw [Int64.le_iff_toInt_le] at hhigh
      unfold width
      omega
    simp only [produces_iff_residue h]
    rw [card_raw _ (· % width (boundedRange lo hi) = (boundedRange lo v).toNat),
      card_residue _ _ _ hoffset]

/-- A die: every face has the same number of raw values, and four are rejected. -/
theorem bounded_uniform_unbiased_die : UnbiasedDraw 1 6 ∧
    Nat.card {raw : UInt64 // Produces 1 6 5 raw} = 3074457345618258602 ∧
      boundedRejectThreshold (boundedRange 1 6) = 4 :=
  have hdie : UnbiasedDraw 1 6 := bounded_uniform_unbiased (by decide)
  ⟨hdie, hdie.uniform 5 (by decide) (by decide), by decide⟩

end Luma
