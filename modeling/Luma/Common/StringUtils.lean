-- SUMMARY: The bounded edit distance is the edit distance, and suggestions are the nearest names.
import Luma.Library.BigEndian
import Luma.Library.EditDistance

/-! # String Utilities

The distance of two strings is computed row by row; a row holds the distances of one prefix
of the first string to every prefix of the second. The bounded computation gives up as soon
as a row has no entry within the bound. -/

namespace Luma

open Codec EditDistance

/-- The largest size, which asks for the distance without a bound. -/
def npos : Nat := 2 ^ 64 - 1

/-- The entries of a row from one entry on: `left` is the entry before, and the row above
    starts with the entry above `left`. -/
def levenshteinRow (c : UInt8) : (b : Bytes) → (prev : List Nat) → (left : Nat) → List Nat
  | d :: b, diagonal :: above :: prev, left =>
    let cost := if c = d then 0 else 1
    let entry := min (min (above + 1) (left + 1)) (diagonal + cost)
    entry :: levenshteinRow c b (above :: prev) entry
  | _, _, _ => []

/-- The rows from the `i`-th character of the first string on. -/
def levenshteinRows (bounded : Bool) (maxDist : Nat) (b : Bytes) : (i : Nat) → (a : Bytes) → (prev : List Nat) → Nat
  | _, [], prev => prev.getD b.length 0
  | i, c :: a, prev =>
    let row := levenshteinRow c b prev i
    let rowMin := row.foldl min i
    if bounded ∧ rowMin > maxDist then maxDist + 1
    else levenshteinRows bounded maxDist b (i + 1) a (i :: row)

def levenshteinImpl (bounded : Bool) (a b : Bytes) (maxDist : Nat) : Nat :=
  let m := a.length
  let n := b.length
  if bounded ∧ (m > n ∧ m - n > maxDist ∨ n > m ∧ n - m > maxDist) then maxDist + 1
  else levenshteinRows bounded maxDist b 1 a (List.range (n + 1))

def levenshteinDistance (a b : Bytes) (maxDistance : Nat) : Nat :=
  if maxDistance = npos then levenshteinImpl false a b maxDistance else levenshteinImpl true a b maxDistance

/-- How far a suggestion may be from a name. -/
def suggestionBound (needle : Bytes) : Nat := if needle.length ≤ 4 then 1 else 2

/-- The candidate so far and its distance, after the candidates. -/
def suggestFrom (needle : Bytes) : (candidates : List Bytes) → (best : Bytes × Nat) → Bytes × Nat
  | [], best => best
  | candidate :: candidates, best =>
    if candidate = needle then suggestFrom needle candidates best
    else
      let d := levenshteinDistance needle candidate (suggestionBound needle)
      suggestFrom needle candidates (if d < best.2 then (candidate, d) else best)

/-- `did you mean '{}'?` -/
def didYouMean (name : Bytes) : Bytes :=
  "did you mean '".toUTF8.data.toList ++ name ++ "'?".toUTF8.data.toList

def suggestName (candidates : List Bytes) (needle : Bytes) : Bytes :=
  let best := suggestFrom needle candidates ([], suggestionBound needle + 1)
  if best.2 ≤ suggestionBound needle then didYouMean best.1 else []

-- The equations of the definitions are derived here, once for all proofs.
section
attribute [local simp] levenshteinRow levenshteinRows suggestFrom
end

/-! ## Rows -/

/-- The distances of `a` to the prefixes of `before ++ b` that hold `before`. -/
noncomputable def distances (a : Bytes) : (before b : Bytes) → List Nat
  | before, [] => [editDistance a before]
  | before, d :: b => editDistance a before :: distances a (before ++ [d]) b

variable {a b before : Bytes} {c : UInt8} {k n : Nat}

theorem distances_eq_cons (a before b : Bytes) : distances a before b = editDistance a before :: (distances a before b).tail := by
  cases b <;> rfl

theorem distances_last : (distances a before b).getD b.length 0 = editDistance a (before ++ b) := by
  induction b generalizing before with
  | nil => rw [distances, List.append_nil]; rfl
  | cons d b ih =>
    rw [distances, List.length_cons, List.getD_cons_succ, ih, List.append_assoc]
    rfl

theorem editDistance_mem_distances {b₁ b₂ : Bytes} : editDistance a (before ++ b₁) ∈ distances a before (b₁ ++ b₂) := by
  induction b₁ generalizing before with
  | nil =>
    rw [distances_eq_cons, List.append_nil]
    exact List.mem_cons_self
  | cons d b₁ ih =>
    have h := @ih (before ++ [d])
    rw [List.append_assoc] at h
    exact List.mem_cons_of_mem _ h

/-- The row of the empty string. -/
theorem distances_nil : distances [] before b = (List.range (b.length + 1)).map (before.length + ·) := by
  induction b generalizing before with
  | nil => simp [distances, editDistance_nil_left]
  | cons d b ih =>
    rw [distances, ih, editDistance_nil_left, List.length_append, List.length_singleton, List.length_cons]
    conv_rhs => rw [List.range_succ_eq_map, List.map_cons, List.map_map]
    refine congrArg _ (List.map_congr_left fun i _ => ?_)
    rw [Function.comp_apply]
    omega

/-- A row is computed from the row above and its first entry. -/
theorem levenshteinRow_eq : levenshteinRow c b (distances a before b) (editDistance (a ++ [c]) before) =
    (distances (a ++ [c]) before b).tail := by
  induction b generalizing before with
  | nil => rfl
  | cons d b ih =>
    rw [distances, distances_eq_cons a (before ++ [d]) b, levenshteinRow, distances, List.tail_cons]
    have hentry : min (min (editDistance a (before ++ [d]) + 1) (editDistance (a ++ [c]) before + 1))
        (editDistance a before + if c = d then 0 else 1) = editDistance (a ++ [c]) (before ++ [d]) :=
      editDistance_concat_concat.symm
    rw [hentry, ← distances_eq_cons a (before ++ [d]) b, ih, ← distances_eq_cons]

/-- The least entry of a row is at most the distance of all of the first string. -/
theorem foldl_min_le_iff {row : List Nat} {i : Nat} : k < row.foldl min i ↔ k < i ∧ ∀ entry ∈ row, k < entry := by
  induction row generalizing i with
  | nil => simp
  | cons entry row ih =>
    rw [List.foldl_cons, ih, Nat.lt_min, List.forall_mem_cons, and_assoc]

theorem editDistance_gt_of_row {rest : Bytes} (hrow : ∀ entry ∈ distances a [] b, k < entry) :
    k < editDistance (a ++ rest) b := by
  obtain ⟨b₁, b₂, rfl, hle⟩ := exists_prefix_le a rest b
  exact Nat.lt_of_lt_of_le (hrow _ editDistance_mem_distances) hle

/-! ## The distance -/

/-- What a bounded computation may return for a distance: the distance, unless it is beyond the bound. -/
def Within (bounded : Bool) (k distance result : Nat) : Prop :=
  result = distance ∨ bounded ∧ k < distance ∧ result = k + 1

/-- The rows that remain compute the distance. -/
theorem levenshteinRows_within {bounded : Bool} {rest : Bytes} :
    Within bounded k (editDistance (a ++ rest) b)
      (levenshteinRows bounded k b (a.length + 1) rest (distances a [] b)) := by
  induction rest generalizing a with
  | nil =>
    rw [levenshteinRows, distances_last, List.append_nil]
    exact .inl rfl
  | cons c rest ih =>
    have hfirst : editDistance (a ++ [c]) [] = a.length + 1 := by
      rw [editDistance_nil_right, List.length_append, List.length_singleton]
    have hrow : levenshteinRow c b (distances a [] b) (a.length + 1) = (distances (a ++ [c]) [] b).tail := by
      rw [← hfirst, levenshteinRow_eq]
    have hwhole : (a.length + 1) :: (distances (a ++ [c]) [] b).tail = distances (a ++ [c]) [] b := by
      rw [← hfirst, ← distances_eq_cons]
    rw [levenshteinRows, List.append_cons]
    simp only [hrow, hwhole]
    split
    · next hstop =>
      obtain ⟨hbounded, hmin⟩ := hstop
      refine .inr ⟨hbounded, editDistance_gt_of_row ?_, rfl⟩
      rw [← hwhole, List.forall_mem_cons]
      exact foldl_min_le_iff.mp hmin
    · have h := ih (a := a ++ [c])
      rwa [List.length_append, List.length_singleton] at h

theorem levenshteinImpl_within {bounded : Bool} : Within bounded k (editDistance a b) (levenshteinImpl bounded a b k) := by
  rw [levenshteinImpl]
  split
  · next hstop =>
    obtain ⟨hbounded, hlength⟩ := hstop
    have hless := length_sub_le_editDistance a b
    exact .inr ⟨hbounded, by omega, rfl⟩
  · have h := @levenshteinRows_within [] b k bounded a
    rw [distances_nil] at h
    simpa using h

theorem levenshteinDistance_eq (hle : editDistance a b ≤ k) (hk : k ≠ npos) :
    levenshteinDistance a b k = editDistance a b := by
  rw [levenshteinDistance, if_neg hk]
  obtain h | ⟨-, hgt, -⟩ := @levenshteinImpl_within a b k true
  · exact h
  · exact absurd hle (Nat.not_le.mpr hgt)

theorem levenshteinDistance_gt (hgt : k < editDistance a b) (hk : k ≠ npos) : k < levenshteinDistance a b k := by
  rw [levenshteinDistance, if_neg hk]
  obtain h | ⟨-, -, h⟩ := @levenshteinImpl_within a b k true
  · exact h ▸ hgt
  · exact h ▸ Nat.lt_succ_self k

theorem levenshteinDistance_npos : levenshteinDistance a b npos = editDistance a b := by
  rw [levenshteinDistance, if_pos rfl]
  obtain h | ⟨hbounded, -⟩ := @levenshteinImpl_within a b npos false
  · exact h
  · cases hbounded

/-! ## Suggestions -/

/-- A candidate that may be suggested. -/
def Near (needle candidate : Bytes) : Prop :=
  candidate ≠ needle ∧ editDistance needle candidate ≤ suggestionBound needle

/-- The first of the nearest candidates. -/
structure IsNearest (needle : Bytes) (front : List Bytes) (best : Bytes) (back : List Bytes) : Prop where
  near : Near needle best
  before : ∀ c ∈ front, Near needle c → editDistance needle best < editDistance needle c
  after : ∀ c ∈ back, Near needle c → editDistance needle best ≤ editDistance needle c

theorem suggestionBound_ne_npos (needle : Bytes) : suggestionBound needle ≠ npos := by
  rw [suggestionBound]
  split <;> decide

/-- What is known of the candidates that were looked at. -/
def BestOf (needle : Bytes) (seen : List Bytes) (best : Bytes × Nat) : Prop :=
  (best.2 = suggestionBound needle + 1 ∧ ∀ c ∈ seen, ¬ Near needle c) ∨
    ∃ front back, seen = front ++ best.1 :: back ∧ IsNearest needle front best.1 back ∧
      best.2 = editDistance needle best.1

theorem BestOf.step {needle : Bytes} {seen : List Bytes} {best : Bytes × Nat}
    (h : BestOf needle seen best) (candidate : Bytes) : BestOf needle (seen ++ [candidate])
      (if candidate = needle then best
        else if levenshteinDistance needle candidate (suggestionBound needle) < best.2 then
          (candidate, levenshteinDistance needle candidate (suggestionBound needle)) else best) := by
  have hskip (hnot : Near needle candidate → best.2 ≤ editDistance needle candidate) :
      BestOf needle (seen ++ [candidate]) best := by
    obtain ⟨hbest, hseen⟩ | ⟨front, back, rfl, hnearest, hbest⟩ := h
    · refine .inl ⟨hbest, fun c hc hnear => ?_⟩
      obtain hc | hc := List.mem_append.mp hc
      · exact hseen c hc hnear
      · obtain rfl := List.mem_singleton.mp hc
        have hle := hnot hnear
        have hbound := hnear.2
        omega
    · refine .inr ⟨front, back ++ [candidate], by simp, ⟨hnearest.near, hnearest.before, fun c hc hnear => ?_⟩, hbest⟩
      obtain hc | hc := List.mem_append.mp hc
      · exact hnearest.after c hc hnear
      · obtain rfl := List.mem_singleton.mp hc
        exact hbest ▸ hnot hnear
  split
  · next heq => exact hskip fun hnear => absurd heq hnear.1
  · next hne =>
    have hbound : best.2 ≤ suggestionBound needle + 1 := by
      obtain ⟨hbest, _⟩ | ⟨_, _, _, hnearest, hbest⟩ := h
      · exact Nat.le_of_eq hbest
      · exact hbest ▸ Nat.le_succ_of_le hnearest.near.2
    by_cases hle : editDistance needle candidate ≤ suggestionBound needle
    · rw [levenshteinDistance_eq hle (suggestionBound_ne_npos needle)]
      split
      · next hless =>
        refine .inr ⟨seen, [], rfl, ⟨⟨hne, hle⟩, fun c hc hnear => ?_, fun c hc => absurd hc List.not_mem_nil⟩, rfl⟩
        obtain ⟨-, hseen⟩ | ⟨front, back, rfl, hnearest, hbest⟩ := h
        · exact absurd hnear (hseen c hc)
        · rw [hbest] at hless
          obtain hc | hc := List.mem_append.mp hc
          · exact Nat.lt_trans hless (hnearest.before c hc hnear)
          · obtain rfl | hc := List.mem_cons.mp hc
            · exact hless
            · exact Nat.lt_of_lt_of_le hless (hnearest.after c hc hnear)
      · next hge => exact hskip fun _ => Nat.not_lt.mp hge
    · have hgt := levenshteinDistance_gt (Nat.not_le.mp hle) (suggestionBound_ne_npos needle)
      rw [if_neg (by omega)]
      exact hskip fun hnear => absurd hnear.2 hle

theorem suggestFrom_bestOf {needle : Bytes} {candidates seen : List Bytes} {best : Bytes × Nat}
    (h : BestOf needle seen best) : BestOf needle (seen ++ candidates) (suggestFrom needle candidates best) := by
  induction candidates generalizing seen best with
  | nil => rwa [List.append_nil]
  | cons candidate candidates ih =>
    have hnext := ih (h.step candidate)
    rw [List.append_assoc, List.singleton_append] at hnext
    rw [suggestFrom]
    split at hnext
    · next heq => rwa [if_pos heq]
    · next hne => rwa [if_neg hne]

/-- A suggestion is the first of the nearest candidates, and there is none exactly when no candidate is near. -/
theorem suggestName_cases (candidates : List Bytes) (needle : Bytes) :
    (suggestName candidates needle = [] ∧ ∀ c ∈ candidates, ¬ Near needle c) ∨
      ∃ front best back, candidates = front ++ best :: back ∧ IsNearest needle front best back ∧
        suggestName candidates needle = didYouMean best := by
  have h : BestOf needle candidates (suggestFrom needle candidates ([], suggestionBound needle + 1)) :=
    @suggestFrom_bestOf needle candidates [] _ (.inl ⟨rfl, fun _ hc => absurd hc List.not_mem_nil⟩)
  rw [suggestName]
  obtain ⟨hbest, hnone⟩ | ⟨front, back, hcandidates, hnearest, hbest⟩ := h
  · exact .inl ⟨if_neg (by omega), hnone⟩
  · refine .inr ⟨front, _, back, hcandidates, hnearest, if_pos ?_⟩
    exact hbest ▸ hnearest.near.2

theorem didYouMean_ne_nil (name : Bytes) : didYouMean name ≠ [] := by
  have hstart : "did you mean '".toUTF8.data.toList ≠ [] := by decide
  rw [didYouMean, List.append_assoc]
  exact List.append_ne_nil_of_left_ne_nil hstart _

/-- The bounded distance is the distance within the bound and beyond the bound otherwise, the
    unbounded one is always the distance, and a suggestion is the first of the nearest names. -/
theorem edit_distances_and_suggestions :
    (∀ a b : Bytes, ∀ k, k ≠ npos → (editDistance a b ≤ k → levenshteinDistance a b k = editDistance a b) ∧
      (k < editDistance a b → k + 1 ≤ levenshteinDistance a b k)) ∧
    (∀ a b : Bytes, levenshteinDistance a b npos = editDistance a b) ∧
    ∀ candidates needle,
      (suggestName candidates needle = [] ↔ ∀ c ∈ candidates, ¬ Near needle c) ∧
      ((∃ c ∈ candidates, Near needle c) → ∃ front best back, candidates = front ++ best :: back ∧
        IsNearest needle front best back ∧ suggestName candidates needle = didYouMean best) := by
  refine ⟨fun a b k hk => ⟨fun hle => levenshteinDistance_eq hle hk, fun hgt => levenshteinDistance_gt hgt hk⟩,
    fun a b => levenshteinDistance_npos, fun candidates needle => ?_⟩
  obtain ⟨hempty, hnone⟩ | ⟨front, best, back, hcandidates, hnearest, hsuggest⟩ := suggestName_cases candidates needle
  · refine ⟨iff_of_true hempty hnone, ?_⟩
    rintro ⟨c, hc, hnear⟩
    exact absurd hnear (hnone c hc)
  · refine ⟨iff_of_false (hsuggest ▸ didYouMean_ne_nil best) fun hnone => ?_, fun _ =>
      ⟨front, best, back, hcandidates, hnearest, hsuggest⟩⟩
    exact hnone best (hcandidates ▸ List.mem_append_right _ List.mem_cons_self) hnearest.near

end Luma
