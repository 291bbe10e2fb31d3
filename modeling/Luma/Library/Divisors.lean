-- SUMMARY: Cancelling a common divisor before multiplying, and trial division over a wheel.
import Mathlib.Data.Nat.Choose.Basic
import Mathlib.Data.Nat.Prime.Basic
import Mathlib.Tactic.Ring

/-! # Divisors

A quotient of products is computed without an intermediate fraction by cancelling the
greatest common divisor first. Trial division needs only the candidates that leave one of
the residues 1 and 5 modulo six. -/

namespace Divisors

/-! ## Cancelling -/

section Cancelling

variable {c d p q : Nat}

/-- What is left of the divisor divides the other factor. -/
theorem reduced_dvd (hq : 0 < q) (h : p * c = d * q) : q / p.gcd q ∣ c := by
  have hg : 0 < p.gcd q := Nat.gcd_pos_of_pos_right p hq
  have hcoprime : Nat.Coprime (q / p.gcd q) (p / p.gcd q) := (Nat.coprime_div_gcd_div_gcd hg).symm
  have hscaled : p / p.gcd q * c = d * (q / p.gcd q) := by
    apply Nat.eq_of_mul_eq_mul_left hg
    calc p.gcd q * (p / p.gcd q * c)
      _ = p.gcd q * (p / p.gcd q) * c := (Nat.mul_assoc _ _ _).symm
      _ = d * q := by rw [Nat.mul_div_cancel' (Nat.gcd_dvd_left p q), h]
      _ = d * (p.gcd q * (q / p.gcd q)) := by rw [Nat.mul_div_cancel' (Nat.gcd_dvd_right p q)]
      _ = p.gcd q * (d * (q / p.gcd q)) := Nat.mul_left_comm _ _ _
  have hdvd : q / p.gcd q ∣ p / p.gcd q * c := hscaled ▸ Dvd.intro_left d rfl
  exact hcoprime.dvd_of_dvd_mul_left hdvd

/-- Dividing by what is left of the divisor and multiplying by what is left of the factor
    is exact. -/
theorem cancelled_eq (hq : 0 < q) (h : p * c = d * q) : c / (q / p.gcd q) * (p / p.gcd q) = d := by
  have hg : 0 < p.gcd q := Nat.gcd_pos_of_pos_right p hq
  have hreduced : 0 < q / p.gcd q := Nat.div_pos (Nat.le_of_dvd hq (Nat.gcd_dvd_right p q)) hg
  obtain ⟨e, rfl⟩ := reduced_dvd hq h
  rw [Nat.mul_div_cancel_left e hreduced]
  apply Nat.eq_of_mul_eq_mul_right hq
  rw [← h]
  calc e * (p / p.gcd q) * q
    _ = e * (p / p.gcd q) * (p.gcd q * (q / p.gcd q)) := by rw [Nat.mul_div_cancel' (Nat.gcd_dvd_right p q)]
    _ = p.gcd q * (p / p.gcd q) * (q / p.gcd q * e) := by ring
    _ = p * (q / p.gcd q * e) := by rw [Nat.mul_div_cancel' (Nat.gcd_dvd_left p q)]

end Cancelling

/-- The binomials on one diagonal, each from the one before. -/
theorem choose_diagonal (m i : Nat) : (m + (i + 1)) * (m + i).choose i = (m + (i + 1)).choose (i + 1) * (i + 1) :=
  Nat.add_one_mul_choose_eq (m + i) i

/-- The binomials on a diagonal do not decrease. -/
theorem choose_diagonal_le {m i k : Nat} (h : i ≤ k) : (m + i).choose i ≤ (m + k).choose k := by
  rw [← Nat.choose_symm_add, ← Nat.choose_symm_add]
  exact Nat.choose_le_choose m (Nat.add_le_add_left h m)

/-- Falling factorials do not decrease as long as their factors are positive. -/
theorem descFactorial_le_of_le {n i k : Nat} (hi : i ≤ k) (hk : k ≤ n) : n.descFactorial i ≤ n.descFactorial k := by
  induction k, hi using Nat.le_induction with
  | base => exact Nat.le_refl _
  | succ k _ ih =>
    rw [Nat.descFactorial_succ]
    calc n.descFactorial i
      _ ≤ n.descFactorial k := ih (Nat.le_of_succ_le hk)
      _ ≤ (n - k) * n.descFactorial k := Nat.le_mul_of_pos_left _ (Nat.sub_pos_of_lt hk)

/-! ## Trial division -/

section Trial

variable {n i : Nat}

/-- No number from two on and below the bound divides. -/
def Undivided (n bound : Nat) : Prop := ∀ d, 2 ≤ d → d < bound → ¬ d ∣ n

theorem undivided_five (h2 : ¬ 2 ∣ n) (h3 : ¬ 3 ∣ n) : Undivided n 5 := by
  intro d hlow hhigh hdvd
  obtain rfl | rfl | rfl : d = 2 ∨ d = 3 ∨ d = 4 := by omega
  · exact h2 hdvd
  · exact h3 hdvd
  · exact h2 (Nat.dvd_trans (by decide) hdvd)

/-- One round of the wheel: of six numbers in a row four are multiples of two or three. -/
theorem Undivided.round (h2 : ¬ 2 ∣ n) (h3 : ¬ 3 ∣ n) (hi : i % 6 = 5) (hbelow : Undivided n i)
    (hfirst : ¬ i ∣ n) (hsecond : ¬ i + 2 ∣ n) : Undivided n (i + 6) := by
  intro d hlow hhigh hdvd
  rcases Nat.lt_or_ge d i with hlt | hge
  · exact hbelow d hlow hlt hdvd
  · have hcases : d = i ∨ d = i + 2 ∨ 2 ∣ d ∨ 3 ∣ d := by omega
    rcases hcases with rfl | rfl | h | h
    · exact hfirst hdvd
    · exact hsecond hdvd
    · exact h2 (Nat.dvd_trans h hdvd)
    · exact h3 (Nat.dvd_trans h hdvd)

/-- Without a divisor up to its square root a number is prime. -/
theorem Undivided.prime (hn : 2 ≤ n) (hbelow : Undivided n i) (hsquare : n < i * i) : n.Prime := by
  by_contra hcomposite
  have hleast := Nat.minFac_sq_le_self (by omega) hcomposite
  have htwo : 2 ≤ n.minFac := (Nat.minFac_prime (by omega)).two_le
  have hlt : n.minFac < i := by
    by_contra hge
    have hge' : i ≤ n.minFac := Nat.le_of_not_lt hge
    have hsq : i * i ≤ n.minFac ^ 2 := by
      rw [Nat.pow_two]
      exact Nat.mul_le_mul hge' hge'
    omega
  exact hbelow n.minFac htwo hlt n.minFac_dvd

theorem not_prime_of_dvd {d : Nat} (hlow : 2 ≤ d) (hlt : d < n) (hdvd : d ∣ n) : ¬ n.Prime :=
  fun hprime => (Nat.Prime.eq_one_or_self_of_dvd hprime d hdvd).elim (by omega) (by omega)

end Trial

end Divisors
