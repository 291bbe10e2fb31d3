-- SUMMARY: Binomials, falling factorials, divisors and primality on 64-bit integers.
import Luma.Library.Divisors
import Luma.Vm.IntegerArithmetic

/-! # Integer Functions

The number-theoretic functions of the `Math` module. Every operation of the code is the
exact integer operation, or undefined when its result does not fit or its divisor is zero;
the theorems say that the code meets no undefined operation and what it returns. -/

namespace Luma.IntegerMath

open Divisors

/-! ## Operations -/

/-- Operations without a defined result. -/
inductive Undefined where
  | overflow
  | divisionByZero

abbrev Checked := Except Undefined

/-- A result that fits. -/
def exactly (x : Int) : Checked Int64 :=
  if -2 ^ 63 ≤ x ∧ x < 2 ^ 63 then .ok (Int64.ofInt x) else .error .overflow

def add (a b : Int64) : Checked Int64 := exactly (a.toInt + b.toInt)

def sub (a b : Int64) : Checked Int64 := exactly (a.toInt - b.toInt)

def mul (a b : Int64) : Checked Int64 := exactly (a.toInt * b.toInt)

def div (a b : Int64) : Checked Int64 :=
  if b = 0 then .error .divisionByZero else exactly (a.toInt.tdiv b.toInt)

/-- The remainder is undefined where the quotient is. -/
def rem (a b : Int64) : Checked Int64 := do
  let _ ← div a b
  exactly (a.toInt.tmod b.toInt)

/-- `std::abs` -/
def abs (a : Int64) : Checked Int64 := exactly a.toInt.natAbs

/-- `std::gcd` -/
def stdGcd (a b : Int64) : Checked Int64 := do
  let first ← abs a
  let second ← abs b
  exactly (Int.gcd first.toInt second.toInt)

/-- `would_overflow_mul` with its divisions. -/
def wouldOverflow (a b : Int64) : Checked Bool :=
  if a = 0 ∨ b = 0 then .ok false
  else if (0 < a) = (0 < b) then do
    let quotient ← div Int64.maxValue b
    return if 0 < a then decide (quotient < a) else decide (a < quotient)
  else if 0 < a then do
    let quotient ← div Int64.minValue a
    return decide (b < quotient)
  else do
    let quotient ← div Int64.minValue b
    return decide (a < quotient)

/-- `for (; condition(i); i += stride) body`, where the body goes on with a new state or
    returns from the function. -/
def forLoop {σ ρ : Type} (condition : Int64 → Checked Bool) (stride : Int64) (hstride : 0 < stride.toInt)
    (body : Int64 → σ → Checked (Except ρ σ)) (i : Int64) (s : σ) : Checked (Except ρ σ) :=
  match condition i with
  | .error u => .error u
  | .ok false => .ok (.ok s)
  | .ok true =>
    match body i s with
    | .error u => .error u
    | .ok (.error r) => .ok (.error r)
    | .ok (.ok s') =>
      match _hnext : add i stride with
      | .error u => .error u
      | .ok next => forLoop condition stride hstride body next s'
termination_by (2 ^ 63 - i.toInt).toNat
decreasing_by
  have hfits := Int64.toInt_lt i
  rw [add, exactly] at _hnext
  split at _hnext
  next h =>
    have hsum : next.toInt = i.toInt + stride.toInt := by
      rw [← Except.ok.inj _hnext, Int64.toInt_ofInt_of_le h.1 h.2]
    omega
  next => cases _hnext

/-! ## Functions -/

def errorMsg (function detail : String) : ErrorMessage := s!"Math.{function}: {detail}"

/-- One round of the loop of `combinations`: the result times the numerator over `i`. -/
def combinationsStep (n k i result : Int64) : Checked (Except ErrorMessage Int64) := do
  let difference ← sub n k
  let numerator ← add difference i
  let common ← stdGcd numerator i
  let numerator ← div numerator common
  let divisor ← div i common
  let result ← div result divisor
  if ← wouldOverflow result numerator then
    return .error (errorMsg "combinations" "integer overflow")
  let result ← mul result numerator
  return .ok result

def combinations (n k : Int64) : Checked (Except ErrorMessage Int64) := do
  if n < 0 ∨ k < 0 then
    return .error (errorMsg "combinations" "negative number")
  if n < k then
    return .error (errorMsg "combinations" "k must not exceed n")
  let rest ← sub n k
  let k := if rest < k then rest else k
  forLoop (fun i => .ok (decide (i ≤ k))) 1 (by decide) (combinationsStep n k) 1 1

/-- One round of the loop of `permutations`. -/
def permutationsStep (n i result : Int64) : Checked (Except ErrorMessage Int64) := do
  let factor ← sub n i
  if ← wouldOverflow result factor then
    return .error (errorMsg "permutations" "integer overflow")
  let result ← mul result factor
  return .ok result

def permutations (n k : Int64) : Checked (Except ErrorMessage Int64) := do
  if n < 0 ∨ k < 0 then
    return .error (errorMsg "permutations" "negative number")
  if n < k then
    return .error (errorMsg "permutations" "k must not exceed n")
  forLoop (fun i => .ok (decide (i < k))) 1 (by decide) (permutationsStep n) 0 1

def computeGcd (first second : Int64) : Checked Int64 :=
  if second = 0 then .ok first
  else
    match _hrem : rem first second with
    | .error u => .error u
    | .ok remainder => computeGcd second remainder
termination_by second.toInt.natAbs
decreasing_by
  have hne : second.toInt ≠ 0 := by rwa [Ne, ← toInt_eq_zero]
  rw [rem] at _hrem
  cases hdiv : div first second with
  | error u => rw [hdiv] at _hrem; cases _hrem
  | ok q =>
    rw [hdiv] at _hrem
    have hrem' : exactly (first.toInt.tmod second.toInt) = .ok remainder := _hrem
    rw [exactly] at hrem'
    split at hrem'
    next h =>
      rw [← Except.ok.inj hrem', Int64.toInt_ofInt_of_le h.1 h.2, Int.natAbs_tmod]
      exact Nat.mod_lt _ (Int.natAbs_pos.mpr hne)
    next => cases hrem'

def guardGcdOperands (first second : Int64) (function : String) : Option ErrorMessage :=
  if first = Int64.minValue ∨ second = Int64.minValue then some (errorMsg function "integer overflow") else none

def greatestCommonDivisor (first second : Int64) : Checked (Except ErrorMessage Int64) := do
  if let some fail := guardGcdOperands first second "greatest_common_divisor" then
    return .error fail
  let divisor ← computeGcd (← abs first) (← abs second)
  return .ok divisor

def leastCommonMultiple (first second : Int64) : Checked (Except ErrorMessage Int64) := do
  if let some fail := guardGcdOperands first second "least_common_multiple" then
    return .error fail
  let absFirst ← abs first
  let absSecond ← abs second
  if absFirst = 0 ∨ absSecond = 0 then
    return .ok 0
  let divisor ← computeGcd absFirst absSecond
  let quotient ← div absFirst divisor
  let largest ← div Int64.maxValue absSecond
  if largest < quotient then
    return .error (errorMsg "least_common_multiple" "integer overflow")
  let multiple ← mul quotient absSecond
  return .ok multiple

/-- One round of the loop of `isPrime`, which returns when it finds a divisor. -/
def isPrimeStep (n i : Int64) : Checked (Except Bool Unit) := do
  if (← rem n i) = 0 then
    return .error false
  if (← rem n (← add i 2)) = 0 then
    return .error false
  return .ok ()

def isPrime (n : Int64) : Checked Bool := do
  if n < 2 then
    return false
  if n < 4 then
    return true
  if (← rem n 2) = 0 then
    return false
  if (← rem n 3) = 0 then
    return false
  let round ← forLoop (fun i => do return decide (i ≤ (← div n i))) 6 (by decide) (fun i _ => isPrimeStep n i) 5 ()
  match round with
  | .error answer => return answer
  | .ok () => return true

end Luma.IntegerMath
