-- SUMMARY: The comparison of values, and where it is a total preorder that agrees with equality.
import Luma.Library.Binary64Order
import Luma.Value.Dictionary
import Luma.Value.EqualityLaws

/-! # The order of values

Strings, booleans and numeric values are compared with their own kind. Two integers are
compared as such, but an integer and a number as doubles, so that an integer which is no
double is not told from the number that it is rounded to. Where no such pair meets, the
comparison is the order of what the values stand for. -/

namespace Luma.ValueOrder

open Codec Value

structure RuntimeError where
  message : String
  hint : String

/-! ## The comparison -/

/-- Negative, zero or positive as the first string is before, at or after the second. -/
def compareStrings : Bytes → Bytes → Int
  | [], [] => 0
  | [], _ :: _ => -1
  | _ :: _, [] => 1
  | a :: as, b :: bs => if a < b then -1 else if b < a then 1 else compareStrings as bs

def compareIntegers (a b : Int64) : Int := if a < b then -1 else if a > b then 1 else 0

def compareNumbers (context : String) (a b : Binary64) : Except RuntimeError Int :=
  if a.isNan || b.isNan then
    .error { message := s!"{context}: NaN is not comparable", hint := "NaN values cannot be compared" }
  else if a.ieeeLt b then .ok (-1)
  else if b.ieeeLt a then .ok 1
  else .ok 0

def compareBools (a b : Bool) : Int := (if a then 1 else 0) - (if b then 1 else 0)

def compareValues (context : String) : Value → Value → Except RuntimeError Int
  | .string a, .string b => .ok (compareStrings a b)
  | .integer a, .integer b => .ok (compareIntegers a b)
  | .integer a, .number b => compareNumbers context (.ofInt a.toInt) b
  | .number a, .integer b => compareNumbers context a (.ofInt b.toInt)
  | .number a, .number b => compareNumbers context a b
  | .bool a, .bool b => .ok (compareBools a b)
  | a, b => .error
    { message := s!"{context}: only comparable types (integer, number, string, boolean) are supported, " ++
        s!"got '{a.displayTypeName}' and '{b.displayTypeName}'"
      hint := "use integer, number, string, or boolean values" }

/-! ## What values stand for -/

/-- What the order of a value depends on: its text, its truth, or its exact amount in the
    units of a double. -/
inductive Rank where
  | text (s : Bytes)
  | truth (b : Bool)
  | amount (units : Int)

/-- The rank of a value that has one; a NaN has none. -/
def rank : Value → Option Rank
  | .string s => some (.text s)
  | .bool b => some (.truth b)
  | .integer n => some (.amount (n.toInt * Binary64.unitsPerOne))
  | .number x => if x.isNan then none else some (.amount x.units)
  | _ => none

def compareInts (i j : Int) : Int := if i < j then -1 else if j < i then 1 else 0

def Rank.kind : Rank → Int
  | .text _ => 0
  | .truth _ => 1
  | .amount _ => 2

/-- Ranks of one kind by their values, of two kinds by their kinds. -/
def Rank.compare : Rank → Rank → Int
  | .text s, .text t => compareStrings s t
  | .truth a, .truth b => compareBools a b
  | .amount i, .amount j => compareInts i j
  | r, s => compareInts r.kind s.kind

/-- A comparison by sign that is a strict linear order. -/
structure Linear {α : Type} (compare : α → α → Int) : Prop where
  antisymm : ∀ a b, compare a b < 0 ↔ 0 < compare b a
  zero_iff : ∀ a b, compare a b = 0 ↔ a = b
  trans : ∀ a b c, compare a b < 0 → compare b c < 0 → compare a c < 0

theorem compareInts_neg {i j : Int} : compareInts i j < 0 ↔ i < j := by
  unfold compareInts
  split
  · omega
  · split <;> omega

theorem compareInts_pos {i j : Int} : 0 < compareInts i j ↔ j < i := by
  unfold compareInts
  split
  · omega
  · split <;> omega

theorem compareInts_zero {i j : Int} : compareInts i j = 0 ↔ i = j := by
  unfold compareInts
  split
  · omega
  · split <;> omega

theorem linear_compareInts : Linear compareInts where
  antisymm := fun _ _ => compareInts_neg.trans compareInts_pos.symm
  zero_iff := fun _ _ => compareInts_zero
  trans := by
    intro i j k hij hjk
    rw [compareInts_neg] at hij hjk ⊢
    exact hij.trans hjk

theorem linear_compareBools : Linear compareBools where
  antisymm := by decide
  zero_iff := by decide
  trans := by decide

/-- Strings are compared at their first bytes, and after these when they are the same. -/
theorem compareStrings_cons {a b : UInt8} {as bs : Bytes} :
    compareStrings (a :: as) (b :: bs) = if a = b then compareStrings as bs else compareInts a.toNat b.toNat := by
  rw [compareStrings]
  simp only [UInt8.lt_iff_toNat_lt]
  by_cases h : a = b
  · rw [if_pos h, h, if_neg (Nat.lt_irrefl _), if_neg (Nat.lt_irrefl _)]
  · have hcodes : a.toNat ≠ b.toNat := fun hcodes => h (UInt8.toNat_inj.mp hcodes)
    rw [if_neg h, compareInts]
    by_cases hlt : a.toNat < b.toNat
    · rw [if_pos hlt, if_pos (Int.ofNat_lt.mpr hlt)]
    · have hgt : b.toNat < a.toNat := by omega
      rw [if_neg hlt, if_pos hgt, if_neg (by omega), if_pos (Int.ofNat_lt.mpr hgt)]

theorem linear_compareStrings : Linear compareStrings where
  antisymm := by
    intro s t
    induction s generalizing t with
    | nil => cases t <;> simp [compareStrings]
    | cons a as ih =>
      cases t with
      | nil => simp [compareStrings]
      | cons b bs =>
        rw [compareStrings_cons, compareStrings_cons]
        by_cases hab : a = b
        · rw [if_pos hab, if_pos hab.symm]
          exact ih bs
        · rw [if_neg hab, if_neg (Ne.symm hab)]
          exact linear_compareInts.antisymm _ _
  zero_iff := by
    intro s t
    induction s generalizing t with
    | nil => cases t <;> simp [compareStrings]
    | cons a as ih =>
      cases t with
      | nil => simp [compareStrings]
      | cons b bs =>
        rw [compareStrings_cons, List.cons.injEq]
        by_cases hab : a = b
        · rw [if_pos hab, ih bs]
          exact (and_iff_right hab).symm
        · have hcodes : (a.toNat : Int) ≠ b.toNat := fun hcodes => hab (UInt8.toNat_inj.mp (Int.ofNat.inj hcodes))
          rw [if_neg hab, compareInts_zero]
          exact ⟨fun h => absurd h hcodes, fun h => absurd h.1 hab⟩
  trans := by
    intro s t u
    induction s generalizing t u with
    | nil =>
      cases t with
      | nil => simp [compareStrings]
      | cons b bs => cases u <;> simp [compareStrings]
    | cons a as ih =>
      cases t with
      | nil => simp [compareStrings]
      | cons b bs =>
        cases u with
        | nil => simp [compareStrings]
        | cons c cs =>
          rw [compareStrings_cons, compareStrings_cons, compareStrings_cons]
          intro hst htu
          by_cases hab : a = b
          · subst hab
            rw [if_pos rfl] at hst
            split at htu
            next hac =>
              rw [if_pos hac]
              exact ih bs cs hst htu
            next hac =>
              rw [if_neg hac]
              exact htu
          · rw [if_neg hab, compareInts_neg] at hst
            by_cases hbc : b = c
            · subst hbc
              rw [if_neg hab, compareInts_neg]
              exact hst
            · rw [if_neg hbc, compareInts_neg] at htu
              have hac : a ≠ c := by
                intro hac
                rw [hac] at hst
                omega
              rw [if_neg hac, compareInts_neg]
              exact hst.trans htu

theorem linear_compare : Linear Rank.compare where
  antisymm := by
    intro r s
    cases r <;> cases s <;> simp only [Rank.compare]
    case text.text => exact linear_compareStrings.antisymm _ _
    case truth.truth => exact linear_compareBools.antisymm _ _
    all_goals exact linear_compareInts.antisymm _ _
  zero_iff := by
    intro r s
    cases r <;> cases s <;> simp only [Rank.compare]
    case text.text => rw [linear_compareStrings.zero_iff, Rank.text.injEq]
    case truth.truth => rw [linear_compareBools.zero_iff, Rank.truth.injEq]
    case amount.amount => rw [linear_compareInts.zero_iff, Rank.amount.injEq]
    all_goals simp [compareInts, Rank.kind]
  trans := by
    intro r s t
    cases r <;> cases s <;> cases t <;> simp only [Rank.compare]
    case text.text.text => exact linear_compareStrings.trans _ _ _
    case truth.truth.truth => exact linear_compareBools.trans _ _ _
    case amount.amount.amount => exact linear_compareInts.trans _ _ _
    all_goals simp [compareInts, Rank.kind]

/-! ## The comparison of ranks -/

/-- Values of kinds that are compared with each other. -/
def Comparable (a b : Value) : Prop := ∃ r s, rank a = some r ∧ rank b = some s ∧ r.kind = s.kind

/-- An integer is not compared with a number that it is only rounded to. -/
def Undistorted : Value → Value → Prop
  | .integer n, .number x => (Binary64.ofInt n.toInt).units = x.units → x.units = n.toInt * Binary64.unitsPerOne
  | .number x, .integer n => (Binary64.ofInt n.toInt).units = x.units → x.units = n.toInt * Binary64.unitsPerOne
  | _, _ => True

section Values

variable {context : String} {h : StdHash} {a b : Value} {r s : Rank}

theorem natAbs_toInt_le {n : Int64} : n.toInt.natAbs ≤ 2 ^ 63 := by
  have hlow : -2 ^ 63 ≤ n.toInt := n.le_toInt
  have hhigh : n.toInt < 2 ^ 63 := n.toInt_lt
  omega

/-- The order of the doubles that two numbers are. -/
theorem compareNumbers_eq {x y : Binary64} (hx : x.isNan = false) (hy : y.isNan = false) :
    compareNumbers context x y = .ok (compareInts x.units y.units) := by
  unfold compareNumbers compareInts
  simp only [hx, hy, Bool.or_self, Bool.false_eq_true, if_false, Binary64.ieeeLt_iff hx hy, Binary64.ieeeLt_iff hy hx]
  split
  · rfl
  · split <;> rfl

/-- An integer as a double is on its own side of a number, unless the number is that double. -/
theorem compareInts_ofInt {n : Int64} {x : Binary64}
    (hund : (Binary64.ofInt n.toInt).units = x.units → x.units = n.toInt * Binary64.unitsPerOne) :
    compareInts (Binary64.ofInt n.toInt).units x.units = compareInts (n.toInt * Binary64.unitsPerOne) x.units := by
  have hup := Binary64.units_ofInt_le (x := x) (natAbs_toInt_le (n := n))
  have hdown := Binary64.le_units_ofInt (x := x) (natAbs_toInt_le (n := n))
  unfold compareInts
  generalize (Binary64.ofInt n.toInt).units = rounded at hund hup hdown ⊢
  generalize n.toInt * (Binary64.unitsPerOne : Int) = exactly at hund hup hdown ⊢
  rcases Int.lt_trichotomy exactly x.units with hlt | heq | hgt
  · rw [if_pos hlt, if_pos (by omega)]
  · rw [if_neg (by omega), if_neg (by omega), if_neg (by omega), if_neg (by omega)]
  · rw [if_neg (by omega), if_pos (by omega), if_neg (by omega), if_pos (by omega)]

theorem compareInts_swap {i j k l : Int} (h : compareInts i j = compareInts k l) : compareInts j i = compareInts l k := by
  unfold compareInts at *
  split at h <;> split at h <;> split <;> split <;> omega

theorem compareIntegers_eq {m n : Int64} :
    compareIntegers m n = compareInts (m.toInt * Binary64.unitsPerOne) (n.toInt * Binary64.unitsPerOne) := by
  have hone : (0 : Int) < Binary64.unitsPerOne := Int.ofNat_lt.mpr Binary64.unitsPerOne_pos
  unfold compareIntegers compareInts
  simp only [gt_iff_lt, Int64.lt_iff_toInt_lt, Int.mul_lt_mul_right hone]

/-- The values that have a rank. -/
theorem rank_cases (ha : rank a = some r) :
    (∃ t, a = .string t ∧ r = .text t) ∨ (∃ b, a = .bool b ∧ r = .truth b) ∨
      (∃ n, a = .integer n ∧ r = .amount (n.toInt * Binary64.unitsPerOne)) ∨
      ∃ x, a = .number x ∧ x.isNan = false ∧ r = .amount x.units := by
  unfold rank at ha
  split at ha
  next t => exact Or.inl ⟨t, rfl, (Option.some.inj ha).symm⟩
  next b => exact Or.inr (Or.inl ⟨b, rfl, (Option.some.inj ha).symm⟩)
  next n => exact Or.inr (Or.inr (Or.inl ⟨n, rfl, (Option.some.inj ha).symm⟩))
  next x =>
    split at ha
    · cases ha
    next hx => exact Or.inr (Or.inr (Or.inr ⟨x, rfl, Bool.eq_false_iff.mpr hx, (Option.some.inj ha).symm⟩))
  · cases ha

theorem isNan_of_integer {n : Int64} : (Binary64.ofInt n.toInt).isNan = false := Binary64.isNan_ofInt natAbs_toInt_le

/-- The comparison of two values is that of their ranks. -/
theorem compareValues_eq (ha : rank a = some r) (hb : rank b = some s) (hkind : r.kind = s.kind)
    (hund : Undistorted a b) : compareValues context a b = .ok (r.compare s) := by
  rcases rank_cases ha with ⟨t, rfl, rfl⟩ | ⟨p, rfl, rfl⟩ | ⟨m, rfl, rfl⟩ | ⟨x, rfl, hx, rfl⟩
  · rcases rank_cases hb with ⟨t', rfl, rfl⟩ | ⟨p', rfl, rfl⟩ | ⟨m', rfl, rfl⟩ | ⟨x', rfl, hx', rfl⟩
    · rfl
    all_goals exact absurd hkind (by simp [Rank.kind])
  · rcases rank_cases hb with ⟨t', rfl, rfl⟩ | ⟨p', rfl, rfl⟩ | ⟨m', rfl, rfl⟩ | ⟨x', rfl, hx', rfl⟩
    · exact absurd hkind (by simp [Rank.kind])
    · rfl
    all_goals exact absurd hkind (by simp [Rank.kind])
  · rcases rank_cases hb with ⟨t', rfl, rfl⟩ | ⟨p', rfl, rfl⟩ | ⟨m', rfl, rfl⟩ | ⟨x', rfl, hx', rfl⟩
    · exact absurd hkind (by simp [Rank.kind])
    · exact absurd hkind (by simp [Rank.kind])
    · exact congrArg Except.ok compareIntegers_eq
    · rw [compareValues, compareNumbers_eq isNan_of_integer hx', compareInts_ofInt hund, Rank.compare]
  · rcases rank_cases hb with ⟨t', rfl, rfl⟩ | ⟨p', rfl, rfl⟩ | ⟨m', rfl, rfl⟩ | ⟨x', rfl, hx', rfl⟩
    · exact absurd hkind (by simp [Rank.kind])
    · exact absurd hkind (by simp [Rank.kind])
    · rw [compareValues, compareNumbers_eq hx isNan_of_integer, compareInts_swap (compareInts_ofInt hund), Rank.compare]
    · exact compareNumbers_eq hx hx'

theorem unitsPerOne_mul_inj {i j : Int} : i * (Binary64.unitsPerOne : Int) = j * Binary64.unitsPerOne ↔ i = j := by
  have hone : (Binary64.unitsPerOne : Int) ≠ 0 := by
    have hpos := Binary64.unitsPerOne_pos
    omega
  exact ⟨Int.eq_of_mul_eq_mul_right hone, fun h => by rw [h]⟩

/-- A number with the amount of an integer is finite. -/
theorem integerEqualsNumber_iff_units {n : Int64} {x : Binary64} :
    integerEqualsNumber n x = true ↔ x.units = n.toInt * Binary64.unitsPerOne := by
  rw [integerEqualsNumber_iff, Binary64.IsInteger]
  refine ⟨And.right, fun hunits => ⟨?_, hunits⟩⟩
  have hmagnitude : Binary64.unitsOf x.magnitude = n.toInt.natAbs * Binary64.unitsPerOne := by
    rw [Binary64.value_eq, Binary64.units] at hunits
    split at hunits <;> split at hunits <;> omega
  have hround := Binary64.magnitudeOfNat_eq hmagnitude
  rw [Binary64.isFinite, decide_eq_true_eq, ← hround]
  exact Binary64.magnitudeOfNat_lt natAbs_toInt_le

theorem numberEquals_iff_units {x y : Binary64} (hx : x.isNan = false) (hy : y.isNan = false) :
    numberEquals x y = true ↔ x.units = y.units := by
  rw [numberEquals, hx, Bool.false_and, Bool.false_or]
  exact Binary64.ieeeEq_iff_units hx hy

theorem equals_integer_number {n : Int64} {x : Binary64} :
    equals h (.integer n) (.number x) = .ok (integerEqualsNumber n x) := rfl

theorem equals_number_number {x y : Binary64} : equals h (.number x) (.number y) = .ok (numberEquals x y) := rfl

theorem equals_iff_of_false (hfalse : equals h a b = .ok false) (hne : r ≠ s) : equals h a b = .ok true ↔ r = s := by
  rw [hfalse, Except.ok.injEq]
  exact ⟨fun htrue => absurd htrue Bool.false_ne_true, fun heq => absurd heq hne⟩

/-- Two values are equal just when their ranks are. -/
theorem equals_iff (ha : rank a = some r) (hb : rank b = some s) : equals h a b = .ok true ↔ r = s := by
  rcases rank_cases ha with ⟨t, rfl, rfl⟩ | ⟨p, rfl, rfl⟩ | ⟨m, rfl, rfl⟩ | ⟨x, rfl, hx, rfl⟩
  · rcases rank_cases hb with ⟨t', rfl, rfl⟩ | ⟨p', rfl, rfl⟩ | ⟨m', rfl, rfl⟩ | ⟨x', rfl, hx', rfl⟩
    · have hequals : equals h (.string t) (.string t') = .ok (t == t') := rfl
      rw [hequals, Except.ok.injEq, beq_iff_eq, Rank.text.injEq]
    all_goals exact equals_iff_of_false rfl (fun heq => by cases heq)
  · rcases rank_cases hb with ⟨t', rfl, rfl⟩ | ⟨p', rfl, rfl⟩ | ⟨m', rfl, rfl⟩ | ⟨x', rfl, hx', rfl⟩
    · exact equals_iff_of_false rfl (fun heq => by cases heq)
    · have hequals : equals h (.bool p) (.bool p') = .ok (p == p') := rfl
      rw [hequals, Except.ok.injEq, beq_iff_eq, Rank.truth.injEq]
    all_goals exact equals_iff_of_false rfl (fun heq => by cases heq)
  · rcases rank_cases hb with ⟨t', rfl, rfl⟩ | ⟨p', rfl, rfl⟩ | ⟨m', rfl, rfl⟩ | ⟨x', rfl, hx', rfl⟩
    · exact equals_iff_of_false rfl (fun heq => by cases heq)
    · exact equals_iff_of_false rfl (fun heq => by cases heq)
    · have hequals : equals h (.integer m) (.integer m') = .ok (m == m') := rfl
      rw [hequals, Except.ok.injEq, beq_iff_eq, Rank.amount.injEq, unitsPerOne_mul_inj, Int64.toInt_inj]
    · rw [equals_integer_number, Except.ok.injEq, integerEqualsNumber_iff_units, Rank.amount.injEq]
      exact eq_comm
  · rcases rank_cases hb with ⟨t', rfl, rfl⟩ | ⟨p', rfl, rfl⟩ | ⟨m', rfl, rfl⟩ | ⟨x', rfl, hx', rfl⟩
    · exact equals_iff_of_false rfl (fun heq => by cases heq)
    · exact equals_iff_of_false rfl (fun heq => by cases heq)
    · have hequals : equals h (.number x) (.integer m') = .ok (integerEqualsNumber m' x) := rfl
      rw [hequals, Except.ok.injEq, integerEqualsNumber_iff_units, Rank.amount.injEq]
    · rw [equals_number_number, Except.ok.injEq, numberEquals_iff_units hx hx', Rank.amount.injEq]

end Values

end Luma.ValueOrder
