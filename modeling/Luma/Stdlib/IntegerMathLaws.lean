-- SUMMARY: The integer functions are exact: no operation is undefined, and a result fails only when it does not fit.
import Luma.Stdlib.IntegerMath

/-! # Laws of the Integer Functions

The operations on integers that hold natural numbers first, then the rule of the loop, and
then one invariant for each loop. -/

namespace Luma.IntegerMath

open Divisors

variable {a b n k : Int64} {x y : Nat}

/-! ## Operations -/

@[simp] theorem ok_bind {α β : Type} (c : α) (f : α → Checked β) : (Except.ok c >>= f) = f c := rfl

theorem exactly_ok {z : Int} (h : Fits z) : ∃ c, exactly z = .ok c ∧ c.toInt = z :=
  ⟨Int64.ofInt z, if_pos h, Int64.toInt_ofInt_of_le h.1 h.2⟩

theorem fits_of_le (hle : x ≤ y) (hy : a.toInt = y) : Fits (x : Int) := by
  have hlt := Int64.toInt_lt a
  exact ⟨by omega, by omega⟩

theorem add_ok (ha : a.toInt = x) (hb : b.toInt = y) (hfits : Fits ((x + y : Nat) : Int)) :
    ∃ c, add a b = .ok c ∧ c.toInt = (x + y : Nat) := by
  have hsum : a.toInt + b.toInt = (x + y : Nat) := by omega
  rw [add, hsum]
  exact exactly_ok hfits

theorem sub_ok (ha : a.toInt = x) (hb : b.toInt = y) (hle : y ≤ x) :
    ∃ c, sub a b = .ok c ∧ c.toInt = (x - y : Nat) := by
  have hdifference : a.toInt - b.toInt = (x - y : Nat) := by omega
  rw [sub, hdifference]
  exact exactly_ok (fits_of_le (Nat.sub_le x y) ha)

theorem mul_ok (ha : a.toInt = x) (hb : b.toInt = y) (hfits : Fits ((x * y : Nat) : Int)) :
    ∃ c, mul a b = .ok c ∧ c.toInt = (x * y : Nat) := by
  have hproduct : a.toInt * b.toInt = (x * y : Nat) := by rw [ha, hb, Int.natCast_mul]
  rw [mul, hproduct]
  exact exactly_ok hfits

theorem ne_zero_of_pos (hb : b.toInt = y) (hy : 0 < y) : b ≠ 0 := by
  rw [Ne, toInt_eq_zero]
  omega

theorem div_ok (ha : a.toInt = x) (hb : b.toInt = y) (hy : 0 < y) :
    ∃ c, div a b = .ok c ∧ c.toInt = (x / y : Nat) := by
  have hquotient : a.toInt.tdiv b.toInt = (x / y : Nat) := by rw [ha, hb]; rfl
  rw [div, if_neg (ne_zero_of_pos hb hy), hquotient]
  exact exactly_ok (fits_of_le (Nat.div_le_self x y) ha)

theorem rem_ok (ha : a.toInt = x) (hb : b.toInt = y) (hy : 0 < y) :
    ∃ c, rem a b = .ok c ∧ c.toInt = (x % y : Nat) := by
  obtain ⟨q, hq, -⟩ := div_ok ha hb hy
  have hremainder : a.toInt.tmod b.toInt = (x % y : Nat) := by rw [ha, hb]; rfl
  rw [rem, hq, ok_bind, hremainder]
  exact exactly_ok (fits_of_le (Nat.mod_le x y) ha)

theorem abs_ok (ha : a ≠ Int64.minValue) : ∃ c, abs a = .ok c ∧ c.toInt = a.toInt.natAbs := by
  have hlow := Int64.le_toInt a
  have hhigh := Int64.toInt_lt a
  rw [Ne, eq_minValue] at ha
  exact exactly_ok ⟨by omega, by omega⟩

theorem ne_minValue (ha : a.toInt = x) : a ≠ Int64.minValue := by
  rw [Ne, eq_minValue]
  omega

theorem stdGcd_ok (ha : a.toInt = x) (hb : b.toInt = y) (hpos : 0 < y) :
    ∃ c, stdGcd a b = .ok c ∧ c.toInt = (x.gcd y : Nat) := by
  obtain ⟨c, hc, hc'⟩ := abs_ok (ne_minValue ha)
  obtain ⟨d, hd, hd'⟩ := abs_ok (ne_minValue hb)
  have hgcd : Int.gcd c.toInt d.toInt = x.gcd y := by
    rw [hc', hd', ha, hb, Int.natAbs_natCast, Int.natAbs_natCast, Int.gcd_natCast_natCast]
  rw [stdGcd, hc, ok_bind, hd, ok_bind, hgcd]
  exact exactly_ok (fits_of_le (Nat.le_of_dvd hpos (Nat.gcd_dvd_right x y)) hb)

/-! ## The overflow test -/

/-- A division that is defined is the machine's. -/
theorem div_eq (hb : b ≠ 0) (hsafe : wouldOverflowDiv a b = false) : div a b = .ok (a / b) := by
  have hquotient := toInt_div_of_safe hsafe
  have hfits : -2 ^ 63 ≤ a.toInt.tdiv b.toInt ∧ a.toInt.tdiv b.toInt < 2 ^ 63 := hquotient ▸ Fits.toInt (a / b)
  rw [div, if_neg hb, exactly, if_pos hfits, ← hquotient, Int64.ofInt_toInt]

/-- The divisions of the overflow test are defined. -/
theorem wouldOverflow_eq (a b : Int64) : wouldOverflow a b = .ok (wouldOverflowMul a b) := by
  rw [wouldOverflow, wouldOverflowMul]
  split_ifs with hzero hsign hpos hpos
  · rfl
  · have hb : b ≠ 0 := fun h => hzero (Or.inr h)
    rw [div_eq hb (decide_eq_false fun h => absurd h.1 (by decide))]
    rfl
  · have hb : b ≠ 0 := fun h => hzero (Or.inr h)
    rw [div_eq hb (decide_eq_false fun h => absurd h.1 (by decide))]
    rfl
  · have ha : a ≠ 0 := fun h => hzero (Or.inl h)
    have hsafe : wouldOverflowDiv Int64.minValue a = false := by
      refine decide_eq_false fun h => ?_
      rw [h.2] at hpos
      exact absurd hpos (by decide)
    rw [div_eq ha hsafe]
    rfl
  · have hb : b ≠ 0 := fun h => hzero (Or.inr h)
    have hbpos : 0 < b := by
      by_contra hneg
      exact hsign (propext ⟨fun h => absurd h hpos, fun h => absurd h hneg⟩)
    have hsafe : wouldOverflowDiv Int64.minValue b = false := by
      refine decide_eq_false fun h => ?_
      rw [h.2] at hbpos
      exact absurd hbpos (by decide)
    rw [div_eq hb hsafe]
    rfl

theorem wouldOverflowMul_natural_iff (ha : a.toInt = x) (hb : b.toInt = y) :
    wouldOverflowMul a b = true ↔ ¬ Fits ((x * y : Nat) : Int) := by
  rw [wouldOverflowMul_iff, ha, hb, Int.natCast_mul]

theorem wouldOverflow_fits (ha : a.toInt = x) (hb : b.toInt = y) (hfits : Fits ((x * y : Nat) : Int)) :
    wouldOverflow a b = .ok false := by
  have hfalse : wouldOverflowMul a b = false := by
    rw [← Bool.not_eq_true, wouldOverflowMul_natural_iff ha hb, not_not]
    exact hfits
  rw [wouldOverflow_eq, hfalse]

theorem wouldOverflow_not_fits (ha : a.toInt = x) (hb : b.toInt = y) (hfits : ¬ Fits ((x * y : Nat) : Int)) :
    wouldOverflow a b = .ok true := by
  rw [wouldOverflow_eq, (wouldOverflowMul_natural_iff ha hb).mpr hfits]

/-! ## The loop -/

/-- The rule of the loop: an invariant that every round keeps, or that leads to the
    postcondition where the loop ends or its body returns. -/
theorem forLoop_rule {σ ρ : Type} {condition : Int64 → Checked Bool} {stride : Int64} {hstride : 0 < stride.toInt}
    {body : Int64 → σ → Checked (Except ρ σ)} {I : Int64 → σ → Prop} {P : Except ρ σ → Prop}
    (hround : ∀ i s, I i s →
      (condition i = .ok false ∧ P (.ok s)) ∨
      (condition i = .ok true ∧ ∃ r, body i s = .ok (.error r) ∧ P (.error r)) ∨
      (condition i = .ok true ∧ ∃ s' next, body i s = .ok (.ok s') ∧ add i stride = .ok next ∧ I next s'))
    (i : Int64) (s : σ) (hstart : I i s) : ∃ r, forLoop condition stride hstride body i s = .ok r ∧ P r := by
  induction i, s using forLoop.induct condition stride hstride body with
  | case1 i s u hcond =>
    rcases hround i s hstart with ⟨h, -⟩ | ⟨h, -⟩ | ⟨h, -⟩ <;> exact absurd (hcond.symm.trans h) (by simp)
  | case2 i s hcond =>
    rcases hround i s hstart with ⟨-, hP⟩ | ⟨h, -⟩ | ⟨h, -⟩
    · refine ⟨.ok s, ?_, hP⟩
      rw [forLoop, hcond]
    · exact absurd (hcond.symm.trans h) (by simp)
    · exact absurd (hcond.symm.trans h) (by simp)
  | case3 i s hcond u hbody =>
    rcases hround i s hstart with ⟨h, -⟩ | ⟨-, r, h, -⟩ | ⟨-, s', next, h, -⟩
    · exact absurd (hcond.symm.trans h) (by simp)
    · exact absurd (hbody.symm.trans h) (by simp)
    · exact absurd (hbody.symm.trans h) (by simp)
  | case4 i s hcond r hbody =>
    rcases hround i s hstart with ⟨h, -⟩ | ⟨-, r', h, hP⟩ | ⟨-, s', next, h, -⟩
    · exact absurd (hcond.symm.trans h) (by simp)
    · refine ⟨.error r, ?_, ?_⟩
      · rw [forLoop, hcond]
        simp only [hbody]
      · rw [hbody] at h
        rw [Except.error.inj (Except.ok.inj h)]
        exact hP
    · exact absurd (hbody.symm.trans h) (by simp)
  | case5 i s hcond s' hbody u hnext =>
    rcases hround i s hstart with ⟨h, -⟩ | ⟨-, r, h, -⟩ | ⟨-, s'', next, -, h, -⟩
    · exact absurd (hcond.symm.trans h) (by simp)
    · exact absurd (hbody.symm.trans h) (by simp)
    · exact absurd (hnext.symm.trans h) (by simp)
  | case6 i s hcond s' hbody next hnext ih =>
    rcases hround i s hstart with ⟨h, -⟩ | ⟨-, r, h, -⟩ | ⟨-, s'', next', hbody', hnext', hI⟩
    · exact absurd (hcond.symm.trans h) (by simp)
    · exact absurd (hbody.symm.trans h) (by simp)
    · have hs : s' = s'' := Except.ok.inj (Except.ok.inj (hbody.symm.trans hbody'))
      have hn : next = next' := Except.ok.inj (hnext.symm.trans hnext')
      subst hs hn
      obtain ⟨r, hr, hP⟩ := ih hI
      refine ⟨r, ?_, hP⟩
      rw [forLoop, hcond]
      simp only [hbody]
      split
      next u h => exact absurd (hnext.symm.trans h) (by simp)
      next next'' h => rwa [← Except.ok.inj (hnext.symm.trans h)]

/-! ## Binomials and falling factorials -/

/-- A result is the number where it fits, and the failure where it does not. -/
structure ExactOrFails (z : Int) (failure : ErrorMessage) (r : Except ErrorMessage Int64) : Prop where
  fits : Fits z → ∃ v, r = .ok v ∧ v.toInt = z
  fails : ¬ Fits z → r = .error failure

theorem ExactOrFails.of_ok {z : Int} {failure : ErrorMessage} {v : Int64} (h : v.toInt = z) :
    ExactOrFails z failure (.ok v) where
  fits _ := ⟨v, rfl, h⟩
  fails hnot := absurd (h ▸ Fits.toInt v) hnot

theorem ExactOrFails.of_error {z : Int} {failure : ErrorMessage} (h : ¬ Fits z) :
    ExactOrFails z failure (.error failure) where
  fits hfits := absurd hfits h
  fails _ := rfl

theorem fits_of_natCast_le (hle : x ≤ y) (hy : Fits (y : Int)) : Fits (x : Int) :=
  ⟨by have := hy.1; omega, by have := hy.2; omega⟩

theorem le_iff_of_toInt (ha : a.toInt = x) (hb : b.toInt = y) : a ≤ b ↔ x ≤ y := by
  rw [Int64.le_iff_toInt_le, ha, hb, Int.ofNat_le]

theorem lt_iff_of_toInt (ha : a.toInt = x) (hb : b.toInt = y) : a < b ↔ x < y := by
  rw [Int64.lt_iff_toInt_lt, ha, hb, Int.ofNat_lt]

/-- One round takes a binomial to the next one on its diagonal, if that fits. -/
theorem combinationsStep_eq {i result : Int64} {N K j : Nat} (hn : n.toInt = N) (hk : k.toInt = K) (hle : K ≤ N)
    (hi : i.toInt = (j + 1 : Nat)) (hj : j + 1 ≤ K) (hresult : result.toInt = ((N - K + j).choose j : Nat)) :
    (Fits ((N - K + (j + 1)).choose (j + 1) : Nat) ∧ ∃ next, combinationsStep n k i result = .ok (.ok next) ∧
        next.toInt = ((N - K + (j + 1)).choose (j + 1) : Nat)) ∨
      (¬ Fits ((N - K + (j + 1)).choose (j + 1) : Nat) ∧
        combinationsStep n k i result = .ok (.error (errorMsg "combinations" "integer overflow"))) := by
  have hdiagonal := choose_diagonal (N - K) j
  have hpos : 0 < j + 1 := Nat.succ_pos j
  have hg : 0 < (N - K + (j + 1)).gcd (j + 1) := Nat.gcd_pos_of_pos_right _ hpos
  obtain ⟨difference, hdifference, hdifference'⟩ := sub_ok hn hk hle
  obtain ⟨numerator, hnumerator, hnumerator'⟩ := add_ok hdifference' hi (fits_of_le (by omega) hn)
  obtain ⟨common, hcommon, hcommon'⟩ := stdGcd_ok hnumerator' hi hpos
  obtain ⟨reduced, hreduced, hreduced'⟩ := div_ok hnumerator' hcommon' hg
  obtain ⟨divisor, hdivisor, hdivisor'⟩ := div_ok hi hcommon' hg
  have hdivisor_pos : 0 < (j + 1) / (N - K + (j + 1)).gcd (j + 1) :=
    Nat.div_pos (Nat.le_of_dvd hpos (Nat.gcd_dvd_right _ _)) hg
  obtain ⟨quotient, hquotient, hquotient'⟩ := div_ok hresult hdivisor' hdivisor_pos
  have hexact := cancelled_eq hpos hdiagonal
  rw [combinationsStep, hdifference, ok_bind, hnumerator, ok_bind, hcommon, ok_bind, hreduced, ok_bind, hdivisor,
    ok_bind, hquotient, ok_bind]
  by_cases hfits : Fits ((N - K + (j + 1)).choose (j + 1) : Nat)
  · have hfits' := hfits
    rw [← hexact] at hfits'
    obtain ⟨product, hproduct, hproduct'⟩ := mul_ok hquotient' hreduced' hfits'
    refine .inl ⟨hfits, product, ?_, hproduct'.trans (congrArg Nat.cast hexact)⟩
    rw [wouldOverflow_fits hquotient' hreduced' hfits', ok_bind, if_neg (by decide), hproduct]
    rfl
  · have hfits' := hfits
    rw [← hexact] at hfits'
    refine .inr ⟨hfits, ?_⟩
    rw [wouldOverflow_not_fits hquotient' hreduced' hfits', ok_bind, if_pos rfl]
    rfl

/-- The loop of `combinations`, for a selection of at most half. -/
theorem combinationsLoop_eq {N K : Nat} (hn : n.toInt = N) (hk : k.toInt = K) (hhalf : K ≤ N - K) :
    ∃ r, forLoop (fun i => .ok (decide (i ≤ k))) 1 (by decide) (combinationsStep n k) 1 1 = .ok r ∧
      ExactOrFails (N.choose K : Nat) (errorMsg "combinations" "integer overflow") r := by
  have hle : K ≤ N := Nat.le_trans hhalf (Nat.sub_le N K)
  refine forLoop_rule (I := fun (i result : Int64) => ∃ j : Nat, i.toInt = (j + 1 : Nat) ∧ j ≤ K ∧
    result.toInt = ((N - K + j).choose j : Nat)) ?_ 1 1 ⟨0, rfl, Nat.zero_le K, by rw [Nat.choose_zero_right]; rfl⟩
  rintro i result ⟨j, hi, hj, hresult⟩
  rcases Nat.lt_or_ge j K with hlt | hge
  · have hcond : decide (i ≤ k) = true := decide_eq_true ((le_iff_of_toInt hi hk).mpr hlt)
    rcases combinationsStep_eq hn hk hle hi hlt hresult with ⟨-, next, hstep, hnext⟩ | ⟨hnot, hstep⟩
    · obtain ⟨i', hi', hvalue⟩ := add_ok hi (b := 1) (y := 1) rfl (fits_of_le (by omega) hn)
      exact .inr (.inr ⟨congrArg _ hcond, next, i', hstep, hi', j + 1, hvalue, hlt, hnext⟩)
    · refine .inr (.inl ⟨congrArg _ hcond, _, hstep, .of_error fun hfits => hnot ?_⟩)
      have hmono := choose_diagonal_le (m := N - K) hlt
      rw [Nat.sub_add_cancel hle] at hmono
      exact fits_of_natCast_le hmono hfits
  · have hlast : j = K := Nat.le_antisymm hj hge
    have hcond : decide (i ≤ k) = false := decide_eq_false fun h => by
      have := (le_iff_of_toInt hi hk).mp h
      omega
    rw [hlast, Nat.sub_add_cancel hle] at hresult
    exact .inl ⟨congrArg _ hcond, .of_ok hresult⟩

theorem not_negative (ha : a.toInt = x) : ¬ a < 0 := by
  rw [toInt_negative]
  omega

theorem combinations_eq {N K : Nat} (hn : n.toInt = N) (hk : k.toInt = K) (hle : K ≤ N) :
    ∃ r, combinations n k = .ok r ∧
      ExactOrFails (N.choose K : Nat) (errorMsg "combinations" "integer overflow") r := by
  have hsign : ¬ (n < 0 ∨ k < 0) := not_or.mpr ⟨not_negative hn, not_negative hk⟩
  have horder : ¬ n < k := by
    rw [lt_iff_of_toInt hn hk]
    omega
  obtain ⟨rest, hrest, hrest'⟩ := sub_ok hn hk hle
  rw [combinations, if_neg hsign, if_neg horder, hrest, ok_bind]
  -- the smaller of the two selections
  split_ifs with hsmaller
  · have hlt := (lt_iff_of_toInt hrest' hk).mp hsmaller
    have hloop := combinationsLoop_eq hn hrest' (by omega)
    rwa [Nat.choose_symm hle] at hloop
  · have hge := mt (lt_iff_of_toInt hrest' hk).mpr hsmaller
    exact combinationsLoop_eq hn hk (by omega)

/-- One round takes a falling factorial to the next one, if that fits. -/
theorem permutationsStep_eq {i result : Int64} {N j : Nat} (hn : n.toInt = N) (hi : i.toInt = j) (hj : j ≤ N)
    (hresult : result.toInt = (N.descFactorial j : Nat)) :
    (Fits (N.descFactorial (j + 1) : Nat) ∧ ∃ next, permutationsStep n i result = .ok (.ok next) ∧
        next.toInt = (N.descFactorial (j + 1) : Nat)) ∨
      (¬ Fits (N.descFactorial (j + 1) : Nat) ∧
        permutationsStep n i result = .ok (.error (errorMsg "permutations" "integer overflow"))) := by
  have hnext : N.descFactorial j * (N - j) = N.descFactorial (j + 1) := by
    rw [Nat.descFactorial_succ, Nat.mul_comm]
  obtain ⟨factor, hfactor, hfactor'⟩ := sub_ok hn hi hj
  rw [permutationsStep, hfactor, ok_bind]
  by_cases hfits : Fits (N.descFactorial (j + 1) : Nat)
  · have hfits' := hfits
    rw [← hnext] at hfits'
    obtain ⟨product, hproduct, hproduct'⟩ := mul_ok hresult hfactor' hfits'
    refine .inl ⟨hfits, product, ?_, hproduct'.trans (congrArg Nat.cast hnext)⟩
    rw [wouldOverflow_fits hresult hfactor' hfits', ok_bind, if_neg (by decide), hproduct]
    rfl
  · have hfits' := hfits
    rw [← hnext] at hfits'
    refine .inr ⟨hfits, ?_⟩
    rw [wouldOverflow_not_fits hresult hfactor' hfits', ok_bind, if_pos rfl]
    rfl

theorem permutations_eq {N K : Nat} (hn : n.toInt = N) (hk : k.toInt = K) (hle : K ≤ N) :
    ∃ r, permutations n k = .ok r ∧
      ExactOrFails (N.descFactorial K : Nat) (errorMsg "permutations" "integer overflow") r := by
  have hsign : ¬ (n < 0 ∨ k < 0) := not_or.mpr ⟨not_negative hn, not_negative hk⟩
  have horder : ¬ n < k := by
    rw [lt_iff_of_toInt hn hk]
    omega
  rw [permutations, if_neg hsign, if_neg horder]
  refine forLoop_rule (I := fun (i result : Int64) => ∃ j : Nat, i.toInt = j ∧ j ≤ K ∧
    result.toInt = (N.descFactorial j : Nat)) ?_ 0 1 ⟨0, rfl, Nat.zero_le K, rfl⟩
  rintro i result ⟨j, hi, hj, hresult⟩
  rcases Nat.lt_or_ge j K with hlt | hge
  · have hcond : decide (i < k) = true := decide_eq_true ((lt_iff_of_toInt hi hk).mpr hlt)
    rcases permutationsStep_eq hn hi (Nat.le_trans hj hle) hresult with ⟨-, next, hstep, hnext⟩ | ⟨hnot, hstep⟩
    · obtain ⟨i', hi', hvalue⟩ := add_ok hi (b := 1) (y := 1) rfl (fits_of_le (by omega) hn)
      exact .inr (.inr ⟨congrArg _ hcond, next, i', hstep, hi', j + 1, hvalue, hlt, hnext⟩)
    · refine .inr (.inl ⟨congrArg _ hcond, _, hstep, .of_error fun hfits => hnot ?_⟩)
      exact fits_of_natCast_le (descFactorial_le_of_le hlt hle) hfits
  · have hlast : j = K := Nat.le_antisymm hj hge
    have hcond : decide (i < k) = false := decide_eq_false fun h => by
      have := (lt_iff_of_toInt hi hk).mp h
      omega
    rw [hlast] at hresult
    exact .inl ⟨congrArg _ hcond, .of_ok hresult⟩

/-! ## Divisors and multiples -/

theorem computeGcd_eq (ha : a.toInt = x) (hb : b.toInt = y) :
    ∃ c, computeGcd a b = .ok c ∧ c.toInt = (x.gcd y : Nat) := by
  induction y using Nat.strong_induction_on generalizing a b x with
  | _ y ih =>
    rw [computeGcd]
    rcases Nat.eq_zero_or_pos y with hzero | hpos
    · subst hzero
      have hbzero : b = 0 := toInt_eq_zero.mpr hb
      rw [if_pos hbzero, Nat.gcd_zero_right]
      exact ⟨a, rfl, ha⟩
    · obtain ⟨remainder, hremainder, hremainder'⟩ := rem_ok ha hb hpos
      obtain ⟨c, hc, hc'⟩ := ih (x % y) (Nat.mod_lt x hpos) hb hremainder'
      rw [if_neg (ne_zero_of_pos hb hpos)]
      refine ⟨c, ?_, by rw [hc', Nat.gcd_comm y, ← Nat.gcd_rec, Nat.gcd_comm]⟩
      split
      next u h => exact absurd (hremainder.symm.trans h) (by simp)
      next r h => rwa [← Except.ok.inj (hremainder.symm.trans h)]

theorem guardGcdOperands_eq_none {function : String} (ha : a ≠ Int64.minValue) (hb : b ≠ Int64.minValue) :
    guardGcdOperands a b function = none := if_neg (not_or.mpr ⟨ha, hb⟩)

theorem greatestCommonDivisor_eq (ha : a ≠ Int64.minValue) (hb : b ≠ Int64.minValue) :
    ∃ c, greatestCommonDivisor a b = .ok (.ok c) ∧ c.toInt = (Int.gcd a.toInt b.toInt : Nat) := by
  obtain ⟨first, hfirst, hfirst'⟩ := abs_ok ha
  obtain ⟨second, hsecond, hsecond'⟩ := abs_ok hb
  obtain ⟨c, hc, hc'⟩ := computeGcd_eq hfirst' hsecond'
  refine ⟨c, ?_, hc'⟩
  rw [greatestCommonDivisor, guardGcdOperands_eq_none ha hb]
  simp only [hfirst, hsecond, hc, ok_bind]
  rfl

/-- The quotient test of `leastCommonMultiple` tells whether the multiple fits. -/
theorem maxValue_lt_iff (hy : 0 < y) : (2 ^ 63 - 1) / y < x ↔ ¬ Fits ((x * y : Nat) : Int) := by
  rw [Nat.div_lt_iff_lt_mul hy, Fits]
  have hnonneg : (0 : Int) ≤ (x * y : Nat) := Int.natCast_nonneg _
  omega

theorem lcm_eq_quotient : x / x.gcd y * y = x.lcm y := by
  rw [Nat.lcm_eq_mul_div, Nat.div_mul_right_comm (Nat.gcd_dvd_left x y)]

theorem leastCommonMultiple_eq (ha : a ≠ Int64.minValue) (hb : b ≠ Int64.minValue) :
    ∃ r, leastCommonMultiple a b = .ok r ∧
      ExactOrFails (Int.lcm a.toInt b.toInt : Nat) (errorMsg "least_common_multiple" "integer overflow") r := by
  obtain ⟨first, hfirst, hfirst'⟩ := abs_ok ha
  obtain ⟨second, hsecond, hsecond'⟩ := abs_ok hb
  rw [Int.lcm]
  generalize a.toInt.natAbs = x at hfirst'
  generalize b.toInt.natAbs = y at hsecond'
  rw [leastCommonMultiple, guardGcdOperands_eq_none ha hb]
  simp only [hfirst, hsecond, ok_bind]
  rcases Nat.eq_zero_or_pos x with rfl | hx
  · rw [if_pos (Or.inl (toInt_eq_zero.mpr hfirst')), Nat.lcm_zero_left]
    exact ⟨_, rfl, .of_ok rfl⟩
  rcases Nat.eq_zero_or_pos y with rfl | hy
  · rw [if_pos (Or.inr (toInt_eq_zero.mpr hsecond')), Nat.lcm_zero_right]
    exact ⟨_, rfl, .of_ok rfl⟩
  rw [if_neg (not_or.mpr ⟨ne_zero_of_pos hfirst' hx, ne_zero_of_pos hsecond' hy⟩)]
  obtain ⟨divisor, hdivisor, hdivisor'⟩ := computeGcd_eq hfirst' hsecond'
  obtain ⟨quotient, hquotient, hquotient'⟩ := div_ok hfirst' hdivisor' (Nat.gcd_pos_of_pos_left y hx)
  obtain ⟨largest, hlargest, hlargest'⟩ := div_ok (a := Int64.maxValue) (x := 2 ^ 63 - 1) rfl hsecond' hy
  have htest := lt_iff_of_toInt hlargest' hquotient'
  rw [maxValue_lt_iff hy, lcm_eq_quotient] at htest
  rw [hdivisor, ok_bind, hquotient, ok_bind, hlargest, ok_bind]
  by_cases hfits : Fits (x.lcm y : Nat)
  · have hfits' := hfits
    rw [← lcm_eq_quotient] at hfits'
    obtain ⟨multiple, hmultiple, hmultiple'⟩ := mul_ok hquotient' hsecond' hfits'
    rw [if_neg fun h => htest.mp h hfits, hmultiple, ok_bind]
    exact ⟨_, rfl, .of_ok (hmultiple'.trans (congrArg Nat.cast (lcm_eq_quotient)))⟩
  · rw [if_pos (htest.mpr hfits)]
    exact ⟨_, rfl, .of_error hfits⟩

/-! ## Primality -/

theorem rem_eq_zero_iff {r : Int64} (hr : r.toInt = (x % y : Nat)) : r = 0 ↔ y ∣ x := by
  rw [toInt_eq_zero, hr, Int.natCast_eq_zero, Nat.dvd_iff_mod_eq_zero]

/-- One round returns false at a divisor, and goes on where neither candidate divides. -/
theorem isPrimeStep_eq {i : Int64} {N j : Nat} (hn : n.toInt = N) (hi : i.toInt = j) (hj : 0 < j)
    (hfits : Fits ((j + 2 : Nat) : Int)) :
    (isPrimeStep n i = .ok (.error false) ∧ (j ∣ N ∨ j + 2 ∣ N)) ∨
      (isPrimeStep n i = .ok (.ok ()) ∧ ¬ j ∣ N ∧ ¬ j + 2 ∣ N) := by
  obtain ⟨first, hfirst, hfirst'⟩ := rem_ok hn hi hj
  obtain ⟨candidate, hcandidate, hcandidate'⟩ := add_ok hi (b := 2) (y := 2) rfl hfits
  obtain ⟨second, hsecond, hsecond'⟩ := rem_ok hn hcandidate' (by omega)
  rw [isPrimeStep, hfirst, ok_bind]
  by_cases hdvd : j ∣ N
  · rw [if_pos ((rem_eq_zero_iff hfirst').mpr hdvd)]
    exact .inl ⟨rfl, .inl hdvd⟩
  rw [if_neg (mt (rem_eq_zero_iff hfirst').mp hdvd)]
  simp only [hcandidate, hsecond, ok_bind]
  by_cases hdvd' : j + 2 ∣ N
  · rw [if_pos ((rem_eq_zero_iff hsecond').mpr hdvd')]
    exact .inl ⟨rfl, .inr hdvd'⟩
  rw [if_neg (mt (rem_eq_zero_iff hsecond').mp hdvd')]
  exact .inr ⟨rfl, hdvd, hdvd'⟩

/-- The loop of `isPrime`: no divisor below the candidate, which is five modulo six. -/
theorem isPrimeLoop_eq {N : Nat} (hn : n.toInt = N) (hlow : 4 ≤ N) (h2 : ¬ 2 ∣ N) (h3 : ¬ 3 ∣ N) :
    ∃ r, forLoop (fun i => do return decide (i ≤ (← div n i))) 6 (by decide) (fun i _ => isPrimeStep n i) 5 () = .ok r ∧
      ((r = .ok () ∧ N.Prime) ∨ (r = .error false ∧ ¬ N.Prime)) := by
  refine forLoop_rule (I := fun (i : Int64) _ => ∃ j : Nat, i.toInt = j ∧ j % 6 = 5 ∧ Undivided N j) ?_ 5 ()
    ⟨5, rfl, rfl, undivided_five h2 h3⟩
  rintro i s ⟨j, hi, hmod, hbelow⟩
  have hj : 5 ≤ j := by omega
  obtain ⟨quotient, hquotient, hquotient'⟩ := div_ok hn hi (by omega)
  have hcond : (do return decide (i ≤ (← div n i)) : Checked Bool) = .ok (decide (i ≤ quotient)) := by
    rw [hquotient]
    rfl
  rw [hcond]
  by_cases hsquare : j * j ≤ N
  · have hle : j ≤ N / j := (Nat.le_div_iff_mul_le (by omega)).mpr hsquare
    have hgrows : 5 * j ≤ N := Nat.le_trans (Nat.mul_le_mul_right j hj) hsquare
    have hgoes : decide (i ≤ quotient) = true := decide_eq_true ((le_iff_of_toInt hi hquotient').mpr hle)
    rw [hgoes]
    rcases isPrimeStep_eq hn hi (by omega) (fits_of_le (by omega) hn) with ⟨hstep, hdvd⟩ | ⟨hstep, hfirst, hsecond⟩
    · refine .inr (.inl ⟨rfl, _, hstep, .inr ⟨rfl, ?_⟩⟩)
      rcases hdvd with h | h
      · exact not_prime_of_dvd (by omega) (by omega) h
      · exact not_prime_of_dvd (by omega) (by omega) h
    · obtain ⟨next, hnext, hnext'⟩ := add_ok hi (b := 6) (y := 6) rfl (fits_of_le (by omega) hn)
      exact .inr (.inr ⟨rfl, (), next, hstep, hnext, j + 6, hnext', by omega, hbelow.round h2 h3 hmod hfirst hsecond⟩)
  · have hstops : decide (i ≤ quotient) = false := decide_eq_false fun h => by
      have hle := (le_iff_of_toInt hi hquotient').mp h
      exact hsquare ((Nat.le_div_iff_mul_le (by omega)).mp hle)
    rw [hstops]
    exact .inl ⟨rfl, .inl ⟨rfl, hbelow.prime (by omega) (Nat.lt_of_not_le hsquare)⟩⟩

theorem isPrime_eq (n : Int64) : ∃ answer, isPrime n = .ok answer ∧ (answer = true ↔ 0 ≤ n.toInt ∧ n.toInt.toNat.Prime) := by
  have htwo : n < 2 ↔ n.toInt < 2 := Int64.lt_iff_toInt_lt
  have hfour : n < 4 ↔ n.toInt < 4 := Int64.lt_iff_toInt_lt
  rw [isPrime]
  by_cases hsmall : n < 2
  · rw [if_pos hsmall]
    refine ⟨false, rfl, ⟨fun h => absurd h (by decide), fun h => ?_⟩⟩
    have hprime := h.2.two_le
    rw [htwo] at hsmall
    omega
  rw [if_neg hsmall]
  rw [htwo] at hsmall
  have hn : n.toInt = n.toInt.toNat := by omega
  generalize n.toInt.toNat = N at hn
  have hlow : 2 ≤ N := by omega
  have hsign : (0 ≤ n.toInt ∧ N.Prime) ↔ N.Prime := and_iff_right (by omega)
  rw [hsign]
  by_cases hfew : n < 4
  · rw [if_pos hfew]
    rw [hfour] at hfew
    have hcases : N = 2 ∨ N = 3 := by omega
    refine ⟨true, rfl, ⟨fun _ => ?_, fun _ => rfl⟩⟩
    rcases hcases with rfl | rfl
    · exact Nat.prime_two
    · exact Nat.prime_three
  rw [if_neg hfew]
  rw [hfour] at hfew
  have hmany : 4 ≤ N := by omega
  obtain ⟨even, heven, heven'⟩ := rem_ok hn (b := 2) (y := 2) rfl (by decide)
  obtain ⟨triple, htriple, htriple'⟩ := rem_ok hn (b := 3) (y := 3) rfl (by decide)
  rw [heven, ok_bind]
  by_cases h2 : 2 ∣ N
  · rw [if_pos ((rem_eq_zero_iff heven').mpr h2)]
    exact ⟨false, rfl, ⟨fun h => absurd h (by decide), fun h => absurd h (not_prime_of_dvd (by omega) (by omega) h2)⟩⟩
  rw [if_neg (mt (rem_eq_zero_iff heven').mp h2)]
  rw [htriple, ok_bind]
  by_cases h3 : 3 ∣ N
  · rw [if_pos ((rem_eq_zero_iff htriple').mpr h3)]
    exact ⟨false, rfl, ⟨fun h => absurd h (by decide), fun h => absurd h (not_prime_of_dvd (by omega) (by omega) h3)⟩⟩
  rw [if_neg (mt (rem_eq_zero_iff htriple').mp h3)]
  obtain ⟨r, hr, ⟨rfl, hprime⟩ | ⟨rfl, hcomposite⟩⟩ := isPrimeLoop_eq hn hmany h2 h3
  · refine ⟨true, ?_, ⟨fun _ => hprime, fun _ => rfl⟩⟩
    rw [hr]
    rfl
  · refine ⟨false, ?_, ⟨fun h => absurd h (by decide), fun h => absurd h hcomposite⟩⟩
    rw [hr]
    rfl

/-! ## All functions -/

/-- Outside the domain of a selection the functions fail with a message of their own. -/
theorem outside_cases (h : ¬ (0 ≤ k.toInt ∧ k.toInt ≤ n.toInt)) : (n < 0 ∨ k < 0) ∨ ¬ (n < 0 ∨ k < 0) ∧ n < k := by
  rw [toInt_negative, toInt_negative, Int64.lt_iff_toInt_lt]
  omega

theorem combinations_outside (h : ¬ (0 ≤ k.toInt ∧ k.toInt ≤ n.toInt)) :
    ∃ message, combinations n k = .ok (.error message) := by
  rcases outside_cases h with hsign | ⟨hsign, horder⟩
  · exact ⟨_, by rw [combinations, if_pos hsign]; rfl⟩
  · exact ⟨_, by rw [combinations, if_neg hsign, if_pos horder]; rfl⟩

theorem permutations_outside (h : ¬ (0 ≤ k.toInt ∧ k.toInt ≤ n.toInt)) :
    ∃ message, permutations n k = .ok (.error message) := by
  rcases outside_cases h with hsign | ⟨hsign, horder⟩
  · exact ⟨_, by rw [permutations, if_pos hsign]; rfl⟩
  · exact ⟨_, by rw [permutations, if_neg hsign, if_pos horder]; rfl⟩

/-- What the integer functions do with two integers. Every `.ok` says that no operation on
    the way is undefined. -/
structure IntegerFunctionsExact (a b : Int64) : Prop where
  combinations_exact : 0 ≤ b.toInt → b.toInt ≤ a.toInt → ∃ r, combinations a b = .ok r ∧
    ExactOrFails (a.toInt.toNat.choose b.toInt.toNat : Nat) (errorMsg "combinations" "integer overflow") r
  combinations_fails : ¬ (0 ≤ b.toInt ∧ b.toInt ≤ a.toInt) → ∃ message, combinations a b = .ok (.error message)
  permutations_exact : 0 ≤ b.toInt → b.toInt ≤ a.toInt → ∃ r, permutations a b = .ok r ∧
    ExactOrFails (a.toInt.toNat.descFactorial b.toInt.toNat : Nat) (errorMsg "permutations" "integer overflow") r
  permutations_fails : ¬ (0 ≤ b.toInt ∧ b.toInt ≤ a.toInt) → ∃ message, permutations a b = .ok (.error message)
  gcd_exact : a ≠ Int64.minValue → b ≠ Int64.minValue →
    ∃ c, greatestCommonDivisor a b = .ok (.ok c) ∧ c.toInt = (Int.gcd a.toInt b.toInt : Nat)
  gcd_fails : a = Int64.minValue ∨ b = Int64.minValue →
    greatestCommonDivisor a b = .ok (.error (errorMsg "greatest_common_divisor" "integer overflow"))
  lcm_exact : a ≠ Int64.minValue → b ≠ Int64.minValue → ∃ r, leastCommonMultiple a b = .ok r ∧
    ExactOrFails (Int.lcm a.toInt b.toInt : Nat) (errorMsg "least_common_multiple" "integer overflow") r
  lcm_fails : a = Int64.minValue ∨ b = Int64.minValue →
    leastCommonMultiple a b = .ok (.error (errorMsg "least_common_multiple" "integer overflow"))
  isPrime_exact : ∃ answer, isPrime a = .ok answer ∧ (answer = true ↔ 0 ≤ a.toInt ∧ a.toInt.toNat.Prime)

theorem integer_functions_exact (a b : Int64) : IntegerFunctionsExact a b where
  combinations_exact hlow hle := combinations_eq (by omega) (by omega) (by omega)
  combinations_fails := combinations_outside
  permutations_exact hlow hle := permutations_eq (by omega) (by omega) (by omega)
  permutations_fails := permutations_outside
  gcd_exact := greatestCommonDivisor_eq
  gcd_fails h := by
    rw [greatestCommonDivisor, guardGcdOperands, if_pos h]
    rfl
  lcm_exact := leastCommonMultiple_eq
  lcm_fails h := by
    rw [leastCommonMultiple, guardGcdOperands, if_pos h]
    rfl
  isPrime_exact := isPrime_eq a

end Luma.IntegerMath
