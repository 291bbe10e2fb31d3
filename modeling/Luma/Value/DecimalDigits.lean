-- SUMMARY: Schoolbook arithmetic on base-10 magnitudes and the numbers it computes.
import Luma.Value.Decimal
import Mathlib.Data.Nat.Digits.Lemmas
import Mathlib.Tactic.Ring

/-! # Magnitudes

Grade-school addition, subtraction, multiplication and long division of
little-endian digit lists. A magnitude denotes `Nat.ofDigits 10`; each operation
is described by the number its result denotes. -/

namespace Luma

open Nat (ofDigits)

/-! ## Operations -/

/-- Remove the most significant zero digits. -/
def magTrim : Mag → Mag
  | [] => []
  | d :: digits =>
    match magTrim digits with
    | [] => if d = 0 then [] else [d]
    | e :: rest => d :: e :: rest

/-- Add digit by digit, from the given carry. -/
def magAddFrom : (carry : Nat) → Mag → Mag → Mag
  | carry, [], [] => if carry ≠ 0 then [carry] else []
  | carry, x :: a, [] => (carry + x) % 10 :: magAddFrom ((carry + x) / 10) a []
  | carry, [], y :: b => (carry + y) % 10 :: magAddFrom ((carry + y) / 10) [] b
  | carry, x :: a, y :: b => (carry + x + y) % 10 :: magAddFrom ((carry + x + y) / 10) a b

def magAdd (a b : Mag) : Mag := magAddFrom 0 a b

/-- Subtract digit by digit, from the given borrow. -/
def magSubFrom : (borrow : Nat) → Mag → Mag → Mag
  | _, [], _ => []
  | borrow, x :: a, [] =>
    if x < borrow then (x + 10 - borrow) :: magSubFrom 1 a []
    else (x - borrow) :: magSubFrom 0 a []
  | borrow, x :: a, y :: b =>
    if x < borrow + y then (x + 10 - (borrow + y)) :: magSubFrom 1 a b
    else (x - (borrow + y)) :: magSubFrom 0 a b

/-- `a - b`, for `a` not less than `b`. -/
def magSub (a b : Mag) : Mag := magTrim (magSubFrom 0 a b)

/-- Add a carry to the digits of a result. -/
def addCarry : (carry : Nat) → Mag → Mag
  | 0, result => result
  | _ + 1, [] => []
  | carry + 1, r :: result => (r + (carry + 1)) % 10 :: addCarry ((r + (carry + 1)) / 10) result

/-- Add one row of the schoolbook product: the digit `x` times `b`. -/
def mulRow (x : Nat) : (b : Mag) → (carry : Nat) → (result : Mag) → Mag
  | [], carry, result => addCarry carry result
  | _ :: _, _, [] => []
  | y :: b, carry, r :: result =>
    (r + x * y + carry) % 10 :: mulRow x b ((r + x * y + carry) / 10) result

/-- Add all rows. The lowest digit of the result is final after its row. -/
def mulRows : (a b result : Mag) → Mag
  | [], _, result => result
  | x :: a, b, result =>
    match mulRow x b 0 result with
    | [] => []
    | r :: rest => r :: mulRows a b rest

def magMul (a b : Mag) : Mag :=
  if a.isEmpty || b.isEmpty then []
  else magTrim (mulRows a b (List.replicate (a.length + b.length) 0))

/-- Multiply digit by digit with one factor, from the given carry. -/
def magMulSmallFrom (factor : Nat) : (carry : Nat) → Mag → Mag
  | carry, [] => Nat.digits 10 carry
  | carry, digit :: a =>
    (digit * factor + carry) % 10 :: magMulSmallFrom factor ((digit * factor + carry) / 10) a

/-- `a` times a factor from 0 to 9. -/
def magMulSmall (a : Mag) (factor : Nat) : Mag :=
  if factor = 0 || a.isEmpty then [] else magMulSmallFrom factor 0 a

/-- The binary search for a digit of the quotient. -/
def searchDigit (divisor rem : Mag) (low high : Int) (best : Nat) : Nat :=
  if low ≤ high then
    let mid := (low + high) / 2
    if magCompare (magMulSmall divisor mid.toNat) rem ≤ 0 then
      searchDigit divisor rem (mid + 1) high mid.toNat
    else searchDigit divisor rem low (mid - 1) best
  else best
termination_by (high + 1 - low).toNat

/-- Long division: the quotient's digits and the remainder. -/
def divideDigits (divisor : Mag) : (numerator : Mag) → Mag × Mag
  | [] => ([], [])
  | digit :: numerator =>
    let (quotient, rem) := divideDigits divisor numerator
    let rem := magTrim (digit :: rem)
    let best := searchDigit divisor rem 0 9 0
    (best :: quotient, magSub rem (magMulSmall divisor best))

/-- The quotient and the remainder, for a divisor that is not zero. -/
def magDivmod (numerator divisor : Mag) : Mag × Mag :=
  let (quotient, remainder) := divideDigits divisor numerator
  (magTrim quotient, remainder)

/-! ## Well-formed magnitudes -/

/-- Every element is a decimal digit. -/
def Mag.Digits (a : Mag) : Prop := ∀ d ∈ a, d < 10

/-- A magnitude in its unique form: digits, the most significant not zero. -/
structure Mag.Trimmed (a : Mag) : Prop where
  digits : a.Digits
  top : a.getLast? ≠ some 0

-- The equations of the definitions are derived here, once for all proofs.
section
attribute [local simp] magTrim magAddFrom magSubFrom addCarry mulRow mulRows magMulSmallFrom
  divideDigits
end

theorem Mag.Digits.cons {d : Nat} {a : Mag} (hd : d < 10) (ha : a.Digits) : Mag.Digits (d :: a) :=
  List.forall_mem_cons.mpr ⟨hd, ha⟩

theorem Mag.Digits.head {d : Nat} {a : Mag} (h : Mag.Digits (d :: a)) : d < 10 :=
  h d List.mem_cons_self

theorem Mag.Digits.tail {d : Nat} {a : Mag} (h : Mag.Digits (d :: a)) : a.Digits :=
  fun e he => h e (List.mem_cons_of_mem _ he)

theorem Mag.digits_nil : Mag.Digits [] := nofun

theorem Mag.Digits.ofDigits_lt {a : Mag} (h : a.Digits) : ofDigits 10 a < 10 ^ a.length :=
  Nat.ofDigits_lt_base_pow_length (by decide) h

theorem Mag.Trimmed.digits_ofDigits {a : Mag} (h : a.Trimmed) : Nat.digits 10 (ofDigits 10 a) = a := by
  refine Nat.digits_ofDigits 10 (by decide) a h.digits fun hne hzero => h.top ?_
  rw [List.getLast?_eq_some_getLast hne, hzero]

/-- The number of digits is bounded exactly when the number is. -/
theorem Mag.Trimmed.length_le {a : Mag} (h : a.Trimmed) {n : Nat} :
    a.length ≤ n ↔ ofDigits 10 a < 10 ^ n := by
  rw [← Nat.digits_length_le_iff (by decide), h.digits_ofDigits]

theorem Mag.Trimmed.ofDigits_eq_zero {a : Mag} (h : a.Trimmed) : ofDigits 10 a = 0 ↔ a = [] := by
  have hlength := h.length_le (n := 0)
  rw [Nat.le_zero, List.length_eq_zero_iff, pow_zero, Nat.lt_one_iff] at hlength
  exact hlength.symm

/-- Magnitudes that denote one number are the same digits. -/
theorem Mag.Trimmed.ext {a b : Mag} (ha : a.Trimmed) (hb : b.Trimmed)
    (h : ofDigits 10 a = ofDigits 10 b) : a = b := by
  rw [← ha.digits_ofDigits, h, hb.digits_ofDigits]

/-! ## What the operations compute -/

theorem magTrim_subset {a : Mag} : magTrim a ⊆ a := by
  induction a with
  | nil => exact List.Subset.refl []
  | cons d a ih =>
    rw [magTrim]
    split
    · split
      · exact List.nil_subset _
      · exact List.cons_subset_cons d (List.nil_subset a)
    next hrest => exact List.cons_subset_cons d (hrest ▸ ih)

theorem magTrim_digits {a : Mag} (h : a.Digits) : (magTrim a).Digits :=
  fun d hd => h d (magTrim_subset hd)

theorem magTrim_trimmed {a : Mag} (h : a.Digits) : (magTrim a).Trimmed := by
  refine ⟨magTrim_digits h, ?_⟩
  induction a with
  | nil => nofun
  | cons d a ih =>
    rw [magTrim]
    split
    · split
      · nofun
      next hd => simpa using hd
    next e rest hrest =>
      rw [List.getLast?_cons_cons, ← hrest]
      exact ih h.tail

@[simp] theorem ofDigits_magTrim {a : Mag} : ofDigits 10 (magTrim a) = ofDigits 10 a := by
  induction a with
  | nil => rfl
  | cons d a ih =>
    rw [magTrim, Nat.ofDigits_cons, ← ih]
    split
    next hnil =>
      rw [hnil]
      split
      next hzero => simp [hzero]
      next => simp
    next hrest => rw [hrest, Nat.ofDigits_cons]

theorem ofDigits_magAddFrom {carry : Nat} {a b : Mag} :
    ofDigits 10 (magAddFrom carry a b) = carry + ofDigits 10 a + ofDigits 10 b := by
  fun_induction magAddFrom carry a b with
  | case1 carry h => simp
  | case2 carry h => simp_all
  | case3 carry x a ih =>
    simp only [Nat.ofDigits_cons, Nat.ofDigits_nil] at ih ⊢
    omega
  | case4 carry y b ih =>
    simp only [Nat.ofDigits_cons, Nat.ofDigits_nil] at ih ⊢
    omega
  | case5 carry x a y b ih =>
    simp only [Nat.ofDigits_cons] at ih ⊢
    omega

@[simp] theorem ofDigits_magAdd {a b : Mag} :
    ofDigits 10 (magAdd a b) = ofDigits 10 a + ofDigits 10 b := by
  rw [magAdd, ofDigits_magAddFrom, Nat.zero_add]

theorem magAddFrom_digits {carry : Nat} {a b : Mag} (hcarry : carry < 10) (ha : a.Digits)
    (hb : b.Digits) : (magAddFrom carry a b).Digits := by
  fun_induction magAddFrom carry a b with
  | case1 carry h => exact Mag.digits_nil.cons hcarry
  | case2 carry h => exact Mag.digits_nil
  | case3 carry x a ih =>
    have hx := ha.head
    exact (ih (by omega) ha.tail hb).cons (Nat.mod_lt _ (by decide))
  | case4 carry y b ih =>
    have hy := hb.head
    exact (ih (by omega) ha hb.tail).cons (Nat.mod_lt _ (by decide))
  | case5 carry x a y b ih =>
    have hx := ha.head
    have hy := hb.head
    exact (ih (by omega) ha.tail hb.tail).cons (Nat.mod_lt _ (by decide))

theorem magAdd_digits {a b : Mag} (ha : a.Digits) (hb : b.Digits) : (magAdd a b).Digits :=
  magAddFrom_digits (by decide) ha hb

theorem magSubFrom_digits {borrow : Nat} {a b : Mag} (ha : a.Digits) :
    (magSubFrom borrow a b).Digits := by
  fun_induction magSubFrom borrow a b with
  | case1 => exact Mag.digits_nil
  | case2 borrow x a hlt ih =>
    have hx := ha.head
    exact (ih ha.tail).cons (by omega)
  | case3 borrow x a hle ih =>
    have hx := ha.head
    exact (ih ha.tail).cons (by omega)
  | case4 borrow x a y b hlt ih =>
    have hx := ha.head
    exact (ih ha.tail).cons (by omega)
  | case5 borrow x a y b hle ih =>
    have hx := ha.head
    exact (ih ha.tail).cons (by omega)

theorem ofDigits_magSubFrom {borrow : Nat} {a b : Mag} (hborrow : borrow ≤ 1) (ha : a.Digits)
    (hb : b.Digits)
    (hle : borrow + ofDigits 10 b ≤ ofDigits 10 a) :
    ofDigits 10 (magSubFrom borrow a b) + (borrow + ofDigits 10 b) = ofDigits 10 a := by
  fun_induction magSubFrom borrow a b with
  | case1 => simpa using hle
  | case2 borrow x a hlt ih =>
    simp only [Nat.ofDigits_cons, Nat.ofDigits_nil] at hle ih ⊢
    have := ih (by decide) ha.tail hb (by omega)
    omega
  | case3 borrow x a hge ih =>
    simp only [Nat.ofDigits_cons, Nat.ofDigits_nil] at hle ih ⊢
    have := ih (by decide) ha.tail hb (by omega)
    omega
  | case4 borrow x a y b hlt ih =>
    simp only [Nat.ofDigits_cons] at hle ih ⊢
    have hy := hb.head
    have := ih (by decide) ha.tail hb.tail (by omega)
    omega
  | case5 borrow x a y b hge ih =>
    simp only [Nat.ofDigits_cons] at hle ih ⊢
    have hx := ha.head
    have := ih (by decide) ha.tail hb.tail (by omega)
    omega

theorem magSub_trimmed {a b : Mag} (ha : a.Digits) : (magSub a b).Trimmed :=
  magTrim_trimmed (magSubFrom_digits ha)

theorem ofDigits_magSub {a b : Mag} (ha : a.Digits) (hb : b.Digits) (hle : ofDigits 10 b ≤ ofDigits 10 a) :
    ofDigits 10 (magSub a b) + ofDigits 10 b = ofDigits 10 a := by
  have := ofDigits_magSubFrom (Nat.zero_le 1) ha hb (by simpa using hle)
  rw [magSub, ofDigits_magTrim]
  omega

theorem addCarry_digits {carry : Nat} {a : Mag} (ha : a.Digits) : (addCarry carry a).Digits := by
  fun_induction addCarry carry a with
  | case1 a => exact ha
  | case2 carry => exact Mag.digits_nil
  | case3 carry r a ih => exact (ih ha.tail).cons (Nat.mod_lt _ (by decide))

theorem addCarry_length {carry : Nat} {a : Mag} : (addCarry carry a).length = a.length := by
  fun_induction addCarry carry a <;> simp_all

theorem ofDigits_addCarry {carry : Nat} {a : Mag} (hfits : carry + ofDigits 10 a < 10 ^ a.length) :
    ofDigits 10 (addCarry carry a) = carry + ofDigits 10 a := by
  fun_induction addCarry carry a with
  | case1 a => simp
  | case2 carry => simp at hfits
  | case3 carry r a ih =>
    simp only [Nat.ofDigits_cons, List.length_cons, pow_succ] at hfits ih ⊢
    rw [ih (by omega)]
    omega

theorem mulRow_digits {x carry : Nat} {b a : Mag} (ha : a.Digits) : (mulRow x b carry a).Digits := by
  fun_induction mulRow x b carry a with
  | case1 carry a => exact addCarry_digits ha
  | case2 => exact Mag.digits_nil
  | case3 y b carry r a ih => exact (ih ha.tail).cons (Nat.mod_lt _ (by decide))

/-- A row adds the multiple of `b`, as long as the result has room for it. -/
theorem ofDigits_mulRow (x carry : Nat) {b a : Mag} (hlength : b.length ≤ a.length)
    (hfits : carry + ofDigits 10 a + x * ofDigits 10 b < 10 ^ a.length) :
    ofDigits 10 (mulRow x b carry a) = carry + ofDigits 10 a + x * ofDigits 10 b ∧
      (mulRow x b carry a).length = a.length := by
  fun_induction mulRow x b carry a with
  | case1 carry a => exact ⟨by rw [ofDigits_addCarry (by simpa using hfits)]; simp, addCarry_length⟩
  | case2 => simp at hlength
  | case3 y b carry r a ih =>
    have hproduct : x * (y + 10 * ofDigits 10 b) = x * y + 10 * (x * ofDigits 10 b) := by ring
    simp only [Nat.ofDigits_cons, List.length_cons, pow_succ, hproduct] at hfits hlength ih ⊢
    obtain ⟨hvalue, hlen⟩ := ih (by omega) (by omega)
    exact ⟨by omega, by omega⟩

theorem mulRows_digits {a b c : Mag} (hc : c.Digits) : (mulRows a b c).Digits := by
  fun_induction mulRows a b c with
  | case1 b c => exact hc
  | case2 => exact Mag.digits_nil
  | case3 x a b c r rest hrow ih =>
    have hdigits : Mag.Digits (r :: rest) := hrow ▸ mulRow_digits hc
    exact (ih hdigits.tail).cons hdigits.head

theorem ofDigits_mulRows {a b c : Mag} (hlength : a.length + b.length ≤ c.length)
    (hfits : ofDigits 10 c + ofDigits 10 a * ofDigits 10 b < 10 ^ c.length) :
    ofDigits 10 (mulRows a b c) = ofDigits 10 c + ofDigits 10 a * ofDigits 10 b := by
  fun_induction mulRows a b c with
  | case1 b c => simp
  | case2 x a b c hrow =>
    have hproduct : (x + 10 * ofDigits 10 a) * ofDigits 10 b =
        x * ofDigits 10 b + 10 * (ofDigits 10 a * ofDigits 10 b) := by ring
    simp only [Nat.ofDigits_cons, List.length_cons, hproduct] at hfits hlength ⊢
    have hlen := (ofDigits_mulRow x 0 (b := b) (a := c) (by omega) (by omega)).2
    rw [hrow, List.length_nil] at hlen
    omega
  | case3 x a b c r rest hrow ih =>
    have hproduct : (x + 10 * ofDigits 10 a) * ofDigits 10 b =
        x * ofDigits 10 b + 10 * (ofDigits 10 a * ofDigits 10 b) := by ring
    simp only [Nat.ofDigits_cons, List.length_cons, hproduct] at hfits hlength ⊢
    obtain ⟨hvalue, hlen⟩ := ofDigits_mulRow x 0 (b := b) (a := c) (by omega) (by omega)
    rw [hrow] at hvalue hlen
    simp only [Nat.ofDigits_cons, List.length_cons] at hvalue hlen
    rw [← hlen, pow_succ] at hfits
    rw [ih (by omega) (by omega)]
    omega

theorem magMul_trimmed {a b : Mag} : (magMul a b).Trimmed := by
  unfold magMul
  split
  · exact ⟨Mag.digits_nil, nofun⟩
  · refine magTrim_trimmed (mulRows_digits fun d hd => ?_)
    rw [List.eq_of_mem_replicate hd]
    decide

theorem ofDigits_magMul {a b : Mag} (ha : a.Digits) (hb : b.Digits) :
    ofDigits 10 (magMul a b) = ofDigits 10 a * ofDigits 10 b := by
  unfold magMul
  split
  next hempty =>
    rw [Bool.or_eq_true, List.isEmpty_iff, List.isEmpty_iff] at hempty
    rcases hempty with rfl | rfl <;> simp
  · have hzeros : ofDigits 10 (List.replicate (a.length + b.length) 0) = 0 := by
      exact Nat.ofDigits_replicate_zero
    have hfits : ofDigits 10 a * ofDigits 10 b < 10 ^ (a.length + b.length) := by
      rw [pow_add]
      exact Nat.mul_lt_mul'' ha.ofDigits_lt hb.ofDigits_lt
    rw [ofDigits_magTrim, ofDigits_mulRows (by simp) (by simpa [hzeros] using hfits), hzeros, Nat.zero_add]

theorem ofDigits_magMulSmallFrom {factor carry : Nat} {a : Mag} :
    ofDigits 10 (magMulSmallFrom factor carry a) = carry + ofDigits 10 a * factor := by
  induction a generalizing carry with
  | nil => simp [magMulSmallFrom, Nat.ofDigits_digits]
  | cons digit a ih =>
    have hproduct : (digit + 10 * ofDigits 10 a) * factor =
        digit * factor + 10 * (ofDigits 10 a * factor) := by ring
    rw [magMulSmallFrom, Nat.ofDigits_cons, Nat.ofDigits_cons, ih, hproduct]
    omega

theorem ofDigits_magMulSmall {a : Mag} {factor : Nat} :
    ofDigits 10 (magMulSmall a factor) = ofDigits 10 a * factor := by
  unfold magMulSmall
  split
  next hempty =>
    rw [Bool.or_eq_true, decide_eq_true_eq, List.isEmpty_iff] at hempty
    rcases hempty with rfl | rfl <;> simp
  · rw [ofDigits_magMulSmallFrom, Nat.zero_add]

/-- With digits below ten and a carry, the top of a product by a small factor is not zero. -/
theorem magMulSmallFrom_trimmed {factor : Nat} {a : Mag} (ha : a.Trimmed) (hfactor : factor ≠ 0) (carry : Nat) :
    (magMulSmallFrom factor carry a).Trimmed := by
  induction a generalizing carry with
  | nil =>
    refine ⟨fun d hd => Nat.digits_lt_base (by decide) hd, fun hlast => ?_⟩
    have hne : Nat.digits 10 carry ≠ [] := fun hnil => by simp [magMulSmallFrom, hnil] at hlast
    have htop := Nat.getLast_digit_ne_zero 10 (m := carry) fun hzero => hne (by simp [hzero])
    rw [magMulSmallFrom, List.getLast?_eq_some_getLast hne] at hlast
    exact htop (Option.some.inj hlast)
  | cons digit a ih =>
    have hdigits : Mag.Digits (digit :: a) := ha.digits
    cases a with
    | nil =>
      have hdigit : digit ≠ 0 := fun hzero => ha.top (by simp [hzero])
      have hpositive : 0 < digit * factor + carry :=
        Nat.add_pos_left (Nat.mul_pos (Nat.pos_of_ne_zero hdigit) (Nat.pos_of_ne_zero hfactor)) carry
      have hstep : magMulSmallFrom factor carry [digit] = Nat.digits 10 (digit * factor + carry) := by
        rw [magMulSmallFrom, magMulSmallFrom, Nat.digits_def' (by decide) hpositive]
      refine ⟨fun d hd => Nat.digits_lt_base (by decide) (hstep ▸ hd), ?_⟩
      have hne : Nat.digits 10 (digit * factor + carry) ≠ [] :=
        Nat.digits_ne_nil_iff_ne_zero.mpr hpositive.ne'
      rw [hstep, List.getLast?_eq_some_getLast hne]
      exact fun hlast => Nat.getLast_digit_ne_zero 10 hpositive.ne' (Option.some.inj hlast)
    | cons e a =>
      have htail : Mag.Trimmed (e :: a) := ⟨hdigits.tail, by simpa [List.getLast?_cons_cons] using ha.top⟩
      have hrest := ih htail ((digit * factor + carry) / 10)
      refine ⟨hrest.digits.cons (Nat.mod_lt _ (by decide)), ?_⟩
      rw [magMulSmallFrom, magMulSmallFrom, List.getLast?_cons_cons, ← magMulSmallFrom]
      exact hrest.top

theorem magMulSmall_trimmed {a : Mag} {factor : Nat} (ha : a.Trimmed) : (magMulSmall a factor).Trimmed := by
  unfold magMulSmall
  split
  · exact ⟨Mag.digits_nil, nofun⟩
  next hne =>
    rw [Bool.or_eq_true, decide_eq_true_eq, not_or] at hne
    exact magMulSmallFrom_trimmed ha hne.1 0

theorem magShiftLeft_eq_nil {a : Mag} {shift : Nat} : magShiftLeft a shift = [] ↔ a = [] := by
  unfold magShiftLeft
  split <;> simp_all

theorem magShiftLeft_trimmed {a : Mag} {shift : Nat} (ha : a.Trimmed) : (magShiftLeft a shift).Trimmed := by
  unfold magShiftLeft
  split
  · exact ha
  next hne =>
    rw [List.isEmpty_iff] at hne
    refine ⟨fun d hd => ?_, ?_⟩
    · rcases List.mem_append.mp hd with hzero | hd
      · rw [List.eq_of_mem_replicate hzero]
        decide
      · exact ha.digits d hd
    · rw [List.getLast?_append_of_ne_nil _ hne]
      exact ha.top

@[simp] theorem ofDigits_magShiftLeft {a : Mag} {shift : Nat} :
    ofDigits 10 (magShiftLeft a shift) = ofDigits 10 a * 10 ^ shift := by
  unfold magShiftLeft
  split
  next hempty => simp [List.isEmpty_iff.mp hempty]
  · rw [Nat.ofDigits_append, Nat.ofDigits_replicate_zero, List.length_replicate, Nat.zero_add, Nat.mul_comm]

theorem magShiftLeft_length_le {a : Mag} {shift : Nat} : (magShiftLeft a shift).length ≤ a.length + shift := by
  unfold magShiftLeft
  split
  · omega
  · rw [List.length_append, List.length_replicate]
    omega

/-- Two lists of digits of one length compare as the numbers they denote. -/
theorem magCompareDigits_eq {a b : Mag} (ha : a.Digits) (hb : b.Digits) (hlen : a.length = b.length) :
    magCompareDigits a b = if ofDigits 10 a < ofDigits 10 b then -1
      else if ofDigits 10 a = ofDigits 10 b then 0 else 1 := by
  induction a generalizing b with
  | nil =>
    cases b with
    | nil => simp [magCompareDigits]
    | cons y b => simp at hlen
  | cons x a ih =>
    cases b with
    | nil => simp at hlen
    | cons y b =>
      have hx := ha.head
      have hy := hb.head
      rw [magCompareDigits, ih ha.tail hb.tail (by simpa using hlen), Nat.ofDigits_cons, Nat.ofDigits_cons]
      rcases Nat.lt_trichotomy (ofDigits 10 a) (ofDigits 10 b) with hlt | heq | hgt
      · have hsmaller : x + 10 * ofDigits 10 a < y + 10 * ofDigits 10 b := by omega
        rw [if_pos hlt, if_pos hsmaller]
        rfl
      · rw [heq, if_neg (Nat.lt_irrefl _), if_pos rfl]
        simp only [Nat.add_lt_add_iff_right, Nat.add_right_cancel_iff]
        split
        next hxy => rw [hxy, if_neg (Nat.lt_irrefl y)]
        · rfl
      · have hlarger : ¬ x + 10 * ofDigits 10 a < y + 10 * ofDigits 10 b := by omega
        have hne : x + 10 * ofDigits 10 a ≠ y + 10 * ofDigits 10 b := by omega
        rw [if_neg (Nat.lt_asymm hgt), if_neg hgt.ne', if_neg hlarger, if_neg hne]
        rfl

/-- Magnitudes compare as the numbers they denote. -/
theorem magCompare_eq {a b : Mag} (ha : a.Trimmed) (hb : b.Trimmed) :
    magCompare a b = if ofDigits 10 a < ofDigits 10 b then -1
      else if ofDigits 10 a = ofDigits 10 b then 0 else 1 := by
  unfold magCompare
  by_cases hlen : a.length = b.length
  · rw [if_neg (by simpa using hlen), magCompareDigits_eq ha.digits hb.digits hlen]
  · rw [if_pos hlen]
    by_cases hlt : a.length < b.length
    · have hsmall := ha.digits.ofDigits_lt
      have hlarge : ¬ ofDigits 10 b < 10 ^ a.length := fun h => by
        have := hb.length_le.mpr h
        omega
      rw [if_pos hlt, if_pos (by omega)]
    · have hsmall := hb.digits.ofDigits_lt
      have hlarge : ¬ ofDigits 10 a < 10 ^ b.length := fun h => by
        have := ha.length_le.mpr h
        omega
      rw [if_neg hlt, if_neg (by omega), if_neg (by omega)]

theorem magCompare_nonpos {a b : Mag} (ha : a.Trimmed) (hb : b.Trimmed) :
    magCompare a b ≤ 0 ↔ ofDigits 10 a ≤ ofDigits 10 b := by
  rw [magCompare_eq ha hb]
  split
  · omega
  · split <;> omega

theorem magCompare_nonneg {a b : Mag} (ha : a.Trimmed) (hb : b.Trimmed) :
    0 ≤ magCompare a b ↔ ofDigits 10 b ≤ ofDigits 10 a := by
  rw [magCompare_eq ha hb]
  split
  · omega
  · split <;> omega

/-- The search narrows in on the largest digit whose multiple fits. -/
theorem searchDigit_spec {divisor rem : Mag} {low high : Int} {best : Nat} (hd : divisor.Trimmed)
    (hr : rem.Trimmed) (hlow : 0 ≤ low) (hle : low ≤ high + 1) (hbest : (best : Int) = max (low - 1) 0)
    (hfits : ofDigits 10 divisor * best ≤ ofDigits 10 rem)
    (hbelow : ((ofDigits 10 rem : Nat) : Int) < (ofDigits 10 divisor : Nat) * (high + 1)) :
    ofDigits 10 divisor * searchDigit divisor rem low high best ≤ ofDigits 10 rem ∧
      ofDigits 10 rem < ofDigits 10 divisor * (searchDigit divisor rem low high best + 1) := by
  fun_induction searchDigit divisor rem low high best with
  | case1 low high best hrange mid hmid ih =>
    rw [magCompare_nonpos (magMulSmall_trimmed hd) hr, ofDigits_magMulSmall] at hmid
    exact ih (by omega) (by omega) (by omega) hmid hbelow
  | case2 low high best hrange mid hmid ih =>
    rw [magCompare_nonpos (magMulSmall_trimmed hd) hr, ofDigits_magMulSmall, Nat.not_le] at hmid
    have hmid' : ((ofDigits 10 rem : Nat) : Int) < (ofDigits 10 divisor : Nat) * (mid - 1 + 1) := by
      rw [Int.sub_add_cancel, ← Int.toNat_of_nonneg (show 0 ≤ mid by omega)]
      exact_mod_cast hmid
    refine ih hlow ?_ hbest hfits hmid'
    by_contra hlt
    omega
  | case3 low high best hrange =>
    refine ⟨hfits, ?_⟩
    have hpositive : 0 < high + 1 := by
      by_contra hneg
      have hzero : high + 1 = 0 := by omega
      rw [hzero, Int.mul_zero] at hbelow
      omega
    have hhigh : high = best := by omega
    rw [hhigh] at hbelow
    exact_mod_cast hbelow

/-- Long division leaves a remainder below the divisor. -/
theorem divideDigits_spec {numerator divisor : Mag} (hn : numerator.Digits) (hd : divisor.Trimmed)
    (hpositive : 0 < ofDigits 10 divisor) :
    ofDigits 10 numerator = ofDigits 10 divisor * ofDigits 10 (divideDigits divisor numerator).1 +
        ofDigits 10 (divideDigits divisor numerator).2 ∧
      ofDigits 10 (divideDigits divisor numerator).2 < ofDigits 10 divisor ∧
      (divideDigits divisor numerator).2.Trimmed := by
  induction numerator with
  | nil => exact ⟨by simp [divideDigits], by simpa [divideDigits] using hpositive, Mag.digits_nil, nofun⟩
  | cons digit numerator ih =>
    obtain ⟨hvalue, hlt, htrimmed⟩ := ih hn.tail
    have hdigit := hn.head
    rw [divideDigits]
    generalize hquotient : (divideDigits divisor numerator).1 = quotient at hvalue
    generalize hrem : (divideDigits divisor numerator).2 = rem at hvalue hlt htrimmed
    have hpair : divideDigits divisor numerator = (quotient, rem) := Prod.ext hquotient hrem
    rw [hpair]
    dsimp only
    have hnext : (magTrim (digit :: rem)).Trimmed := magTrim_trimmed (htrimmed.digits.cons hdigit)
    have hnextValue : ofDigits 10 (magTrim (digit :: rem)) = digit + 10 * ofDigits 10 rem := by
      rw [ofDigits_magTrim, Nat.ofDigits_cons]
    obtain ⟨hfits, hbelow⟩ := searchDigit_spec hd hnext (show (0 : Int) ≤ 0 by decide)
      (show (0 : Int) ≤ 9 + 1 by decide) (show ((0 : Nat) : Int) = _ by decide) (by simp)
      (by rw [hnextValue]; omega)
    generalize searchDigit divisor (magTrim (digit :: rem)) 0 9 0 = best at hfits hbelow ⊢
    have hsub := ofDigits_magSub (a := magTrim (digit :: rem)) (b := magMulSmall divisor best) hnext.digits
      (magMulSmall_trimmed hd).digits (by rw [ofDigits_magMulSmall]; exact hfits)
    rw [ofDigits_magMulSmall, hnextValue] at hsub
    rw [Nat.mul_add, Nat.mul_one, hnextValue] at hbelow
    refine ⟨?_, by omega, magSub_trimmed hnext.digits⟩
    rw [Nat.ofDigits_cons, Nat.ofDigits_cons, hvalue, Nat.mul_add, Nat.mul_add, Nat.mul_left_comm]
    omega

theorem searchDigit_lt {divisor rem : Mag} {low high : Int} {best : Nat} (hlow : 0 ≤ low) (hhigh : high < 10)
    (hbest : best < 10) : searchDigit divisor rem low high best < 10 := by
  fun_induction searchDigit divisor rem low high best with
  | case1 low high best hrange mid hmid ih => exact ih (by omega) hhigh (by omega)
  | case2 low high best hrange mid hmid ih => exact ih hlow (by omega) hbest
  | case3 low high best hrange => exact hbest

theorem divideDigits_digits {numerator divisor : Mag} : (divideDigits divisor numerator).1.Digits := by
  induction numerator with
  | nil => exact Mag.digits_nil
  | cons digit numerator ih => exact ih.cons (searchDigit_lt (by decide) (by decide) (by decide))

theorem magDivmod_trimmed {numerator divisor : Mag} : (magDivmod numerator divisor).1.Trimmed :=
  magTrim_trimmed divideDigits_digits

theorem magDivmod_spec {numerator divisor : Mag} (hn : numerator.Digits) (hd : divisor.Trimmed)
    (hne : divisor ≠ []) :
    ofDigits 10 numerator = ofDigits 10 divisor * ofDigits 10 (magDivmod numerator divisor).1 +
        ofDigits 10 (magDivmod numerator divisor).2 ∧
      ofDigits 10 (magDivmod numerator divisor).2 < ofDigits 10 divisor ∧
      (magDivmod numerator divisor).2.Trimmed := by
  have hpositive : 0 < ofDigits 10 divisor :=
    Nat.pos_of_ne_zero fun hzero => hne (hd.ofDigits_eq_zero.mp hzero)
  simpa [magDivmod] using divideDigits_spec hn hd hpositive

end Luma
