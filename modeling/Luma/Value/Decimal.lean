-- SUMMARY: Exact decimals: comparison by value, the canonical form, and their agreement.
import Luma.Library.BigEndian
import Mathlib.Tactic.Common

/-! # Decimals

A decimal is a sign, a base-10 coefficient stored least significant digit
first, and a scale: the number of digits after the point. Its invariants are
fields: digits are below ten, the most significant digit is not zero, and zero
is not negative. -/

namespace Luma

open Codec

/-- A base-10 magnitude, least significant digit first. -/
abbrev Mag := List Nat

/-- An exact decimal value. -/
structure Decimal where
  digits : Mag
  scale : Nat
  negative : Bool
  digit_lt : ∀ d ∈ digits, d < 10
  trimmed : digits.getLast? ≠ some 0
  zero_nonneg : digits = [] → negative = false
  deriving DecidableEq

/-- Compare two lists of one length from the most significant digit, that is from
    the back. -/
def magCompareDigits : (a b : Mag) → Int
  | x :: a, y :: b =>
    match magCompareDigits a b with
    | 0 => if x = y then 0 else if x < y then -1 else 1
    | c => c
  | _, _ => 0

/-- Compare two trimmed magnitudes: -1, 0 or 1. -/
def magCompare (a b : Mag) : Int :=
  if a.length ≠ b.length then (if a.length < b.length then -1 else 1)
  else magCompareDigits a b

/-- Multiply a magnitude by `10 ^ shift`. -/
def magShiftLeft (value : Mag) (shift : Nat) : Mag :=
  if value.isEmpty then value else List.replicate shift 0 ++ value

/-- Drop low-order zeros while there are digits after the point. -/
def stripZeros : (scale : Nat) → (digits : Mag) → Nat × Mag
  | scale + 1, 0 :: digits => stripZeros scale digits
  | scale, digits => (scale, digits)

-- The equations of the definitions are derived here, once for all proofs.
section
attribute [local simp] magCompareDigits stripZeros
end

theorem stripZeros_suffix (scale : Nat) (digits : Mag) :
    (stripZeros scale digits).2 <:+ digits := by
  fun_induction stripZeros scale digits with
  | case1 scale digits ih => exact ih.trans (List.suffix_cons 0 digits)
  | case2 scale digits h => exact List.suffix_refl digits

namespace Decimal

def isZero (d : Decimal) : Bool := d.digits.isEmpty

/-- -1, 0 or 1. -/
def sign (d : Decimal) : Int :=
  if d.isZero then 0 else if d.negative then -1 else 1

/-- Compare by value, whatever the two scales. -/
def compare (a b : Decimal) : Int :=
  if a.sign ≠ b.sign then (if a.sign < b.sign then -1 else 1)
  else if a.sign = 0 then 0
  else
    let commonScale := max a.scale b.scale
    let left := magShiftLeft a.digits (commonScale - a.scale)
    let right := magShiftLeft b.digits (commonScale - b.scale)
    let cmp := magCompare left right
    if a.sign > 0 then cmp else -cmp

/-- The same value without trailing zeros after the point. -/
def canonical (d : Decimal) : Decimal where
  digits := (stripZeros d.scale d.digits).2
  scale := if (stripZeros d.scale d.digits).2.isEmpty then 0 else (stripZeros d.scale d.digits).1
  negative := if (stripZeros d.scale d.digits).2.isEmpty then false else d.negative
  digit_lt x hx := d.digit_lt x ((stripZeros_suffix d.scale d.digits).subset hx)
  trimmed := by
    obtain ⟨front, hfront⟩ := stripZeros_suffix d.scale d.digits
    intro hlast
    apply d.trimmed
    rw [← hfront, List.getLast?_append, hlast]
    rfl
  zero_nonneg h := by simp [h]

/-- The bytes of a magnitude, most significant digit first. -/
def magnitudeText (digits : Mag) : Bytes := digits.reverse.map fun d => UInt8.ofNat (48 + d)

/-- Decimal text with exactly `scale` digits after the point. -/
def toText (d : Decimal) : Bytes :=
  let zero : UInt8 := 48
  let point : UInt8 := 46
  let minus : UInt8 := 45
  if d.isZero then
    if d.scale = 0 then [zero] else zero :: point :: List.replicate d.scale zero
  else
    let magnitude := magnitudeText d.digits
    let sign := if d.negative then [minus] else []
    if d.scale = 0 then sign ++ magnitude
    else
      let padded :=
        if magnitude.length ≤ d.scale then
          List.replicate (d.scale - magnitude.length + 1) zero ++ magnitude
        else magnitude
      let split := padded.length - d.scale
      sign ++ padded.take split ++ point :: padded.drop split

end Decimal

/-! ## Comparison and canonical form -/

theorem magCompareDigits_eq_zero {a b : Mag} (hlen : a.length = b.length) :
    magCompareDigits a b = 0 ↔ a = b := by
  induction a generalizing b with
  | nil =>
    cases b with
    | nil => simp [magCompareDigits]
    | cons y b => simp at hlen
  | cons x a ih =>
    cases b with
    | nil => simp at hlen
    | cons y b =>
      have htail := ih (b := b) (by simpa using hlen)
      simp only [magCompareDigits]
      split
      · next hzero =>
        have hab : a = b := htail.mp hzero
        subst hab
        by_cases hxy : x = y
        · simp [hxy]
        · simp only [hxy, if_false, List.cons.injEq, false_and, iff_false]
          split <;> omega
      · next hne =>
        constructor
        · intro h
          exact absurd h hne
        · intro h
          exact absurd (htail.mpr (List.cons.inj h).2) hne

/-- Magnitudes compare equal only when they are the same digits. -/
theorem magCompare_eq_zero {a b : Mag} : magCompare a b = 0 ↔ a = b := by
  unfold magCompare
  by_cases hlen : a.length = b.length
  · rw [if_neg (by simpa using hlen), magCompareDigits_eq_zero hlen]
  · have hne : a ≠ b := fun h => hlen (by rw [h])
    rw [if_pos hlen]
    simp only [hne, iff_false]
    split <;> omega

/-- Scaling up by zeros is undone by stripping. -/
theorem stripZeros_replicate (shift scale : Nat) (digits : Mag) :
    stripZeros (shift + scale) (List.replicate shift 0 ++ digits) = stripZeros scale digits := by
  induction shift with
  | zero => simp
  | succ shift ih =>
    rw [Nat.add_right_comm, List.replicate_succ, List.cons_append, stripZeros, ih]

/-- What stripping removed is zeros, one for each digit of scale given up. -/
theorem eq_replicate_stripZeros (scale : Nat) (digits : Mag) :
    (stripZeros scale digits).1 ≤ scale ∧
      digits = List.replicate (scale - (stripZeros scale digits).1) 0 ++
        (stripZeros scale digits).2 := by
  fun_induction stripZeros scale digits with
  | case1 scale digits ih =>
    obtain ⟨hle, heq⟩ := ih
    refine ⟨by omega, ?_⟩
    rw [Nat.succ_sub hle, List.replicate_succ, List.cons_append, ← heq]
  | case2 scale digits h => simp

namespace Decimal

theorem stripZeros_ne_nil {d : Decimal} (h : d.digits ≠ []) :
    (stripZeros d.scale d.digits).2 ≠ [] := by
  intro hnil
  obtain ⟨_, heq⟩ := eq_replicate_stripZeros d.scale d.digits
  rw [hnil, List.append_nil] at heq
  have hlen : 0 < d.scale - (stripZeros d.scale d.digits).1 := by
    by_contra hzero
    rw [Nat.eq_zero_of_not_pos hzero] at heq
    exact h heq
  apply d.trimmed
  rw [heq, List.getLast?_replicate, if_neg (by omega)]

@[ext] theorem ext_fields {a b : Decimal} (hdigits : a.digits = b.digits)
    (hscale : a.scale = b.scale) (hneg : a.negative = b.negative) : a = b := by
  cases a
  cases b
  simp only at hdigits hscale hneg
  subst hdigits hscale hneg
  rfl

theorem sign_eq_zero {d : Decimal} : d.sign = 0 ↔ d.digits = [] := by
  simp only [sign, isZero, List.isEmpty_iff]
  split
  · simpa
  · split <;> simpa

theorem canonical_digits_eq_nil {d : Decimal} : d.canonical.digits = [] ↔ d.digits = [] := by
  constructor
  · intro hnil
    by_contra hne
    exact stripZeros_ne_nil hne hnil
  · intro hnil
    exact List.suffix_nil.mp (hnil ▸ stripZeros_suffix d.scale d.digits)

theorem canonical_negative {d : Decimal} (h : d.digits ≠ []) :
    d.canonical.negative = d.negative := by
  simp [canonical, stripZeros_ne_nil h]

theorem canonical_scale {d : Decimal} (h : d.digits ≠ []) :
    d.canonical.scale = (stripZeros d.scale d.digits).1 := by
  simp [canonical, stripZeros_ne_nil h]

theorem sign_canonical (d : Decimal) : d.canonical.sign = d.sign := by
  by_cases h : d.digits = []
  · rw [sign_eq_zero.mpr h, sign_eq_zero, canonical_digits_eq_nil, h]
  · have hne : d.canonical.digits ≠ [] := fun hnil => h (canonical_digits_eq_nil.mp hnil)
    simp [sign, isZero, hne, h, canonical_negative h]

/-- Two zeros have one canonical form. -/
theorem canonical_eq_of_zero {a b : Decimal} (ha : a.digits = []) (hb : b.digits = []) :
    a.canonical = b.canonical := by
  have hstrip : ∀ d : Decimal, d.digits = [] → (stripZeros d.scale d.digits).2 = [] :=
    fun d hd => canonical_digits_eq_nil.mpr hd
  refine ext_fields ?_ ?_ ?_ <;> simp [canonical, hstrip a ha, hstrip b hb]

end Decimal

/-- Shifting both coefficients to a common scale makes them equal exactly when
    they strip to the same digits at the same scale. -/
theorem shift_eq_iff_strip_eq {a b : Mag} {sa sb : Nat} :
    List.replicate (max sa sb - sa) 0 ++ a = List.replicate (max sa sb - sb) 0 ++ b ↔
      stripZeros sa a = stripZeros sb b := by
  have hsa : max sa sb - sa + sa = max sa sb := Nat.sub_add_cancel (le_max_left sa sb)
  have hsb : max sa sb - sb + sb = max sa sb := Nat.sub_add_cancel (le_max_right sa sb)
  constructor
  · intro heq
    rw [← stripZeros_replicate (max sa sb - sa) sa a, hsa, heq,
      ← stripZeros_replicate (max sa sb - sb) sb b, hsb]
  · intro heq
    obtain ⟨hale, ha⟩ := eq_replicate_stripZeros sa a
    obtain ⟨hble, hb⟩ := eq_replicate_stripZeros sb b
    rw [← heq] at hble hb
    have hlen : max sa sb - sa + (sa - (stripZeros sa a).1) =
        max sa sb - sb + (sb - (stripZeros sa a).1) := by omega
    rw [ha, hb, ← List.append_assoc, ← List.append_assoc, List.replicate_append_replicate,
      List.replicate_append_replicate, hlen]

namespace Decimal

/-- Decimals compare equal exactly when they have one canonical form. -/
theorem compare_eq_zero {a b : Decimal} : a.compare b = 0 ↔ a.canonical = b.canonical := by
  by_cases hsign : a.sign = b.sign
  · by_cases hzero : a.sign = 0
    · have ha : a.digits = [] := sign_eq_zero.mp hzero
      have hb : b.digits = [] := sign_eq_zero.mp (hsign ▸ hzero)
      simp [compare, hsign, ← hzero, canonical_eq_of_zero ha hb]
    · have ha : a.digits ≠ [] := fun h => hzero (sign_eq_zero.mpr h)
      have hb : b.digits ≠ [] := fun h => hzero (hsign ▸ sign_eq_zero.mpr h)
      have hcmp : a.compare b = 0 ↔ stripZeros a.scale a.digits = stripZeros b.scale b.digits := by
        rw [← shift_eq_iff_strip_eq, ← magCompare_eq_zero]
        simp only [compare, hsign, ne_eq, not_true, if_false, magShiftLeft, List.isEmpty_iff, ha,
          hb, hsign ▸ hzero]
        split <;> simp
      rw [hcmp]
      constructor
      · intro hstrip
        refine ext_fields (congrArg Prod.snd hstrip) ?_ ?_
        · rw [canonical_scale ha, canonical_scale hb, hstrip]
        · rw [canonical_negative ha, canonical_negative hb]
          simp only [sign, isZero, List.isEmpty_iff, ha, hb, if_false] at hsign
          cases hna : a.negative <;> cases hnb : b.negative <;> simp [hna, hnb] at hsign ⊢
      · intro hcanon
        have hdigits := congrArg Decimal.digits hcanon
        have hscale := congrArg Decimal.scale hcanon
        rw [canonical_scale ha, canonical_scale hb] at hscale
        exact Prod.ext hscale hdigits
  · constructor
    · intro hcmp
      rw [compare, if_pos hsign] at hcmp
      split at hcmp <;> simp at hcmp
    · intro hcanon
      exact absurd (by rw [← sign_canonical a, hcanon, sign_canonical b]) hsign

end Decimal

end Luma
