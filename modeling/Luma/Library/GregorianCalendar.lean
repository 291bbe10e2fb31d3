-- SUMMARY: The proleptic Gregorian calendar: months and days as integers, and the month of a day.
import Mathlib.Data.Int.ConditionallyCompleteOrder
import Mathlib.Order.SuccPred.Archimedean
import Mathlib.Data.Int.SuccPred

/-! # The Gregorian Calendar

Days are counted from the first of March of year 0, and months from January of
year 0, so that month `n` is in year `n / 12`. The calendar runs on in both
directions without an end. -/

namespace GregorianCalendar

def isLeap (year : Int) : Bool := (year % 4 = 0 && year % 100 ≠ 0) || year % 400 = 0

/-- The first of March of a year. A leap day is the last day before it. -/
def marchStart (year : Int) : Int := 365 * year + year / 4 - year / 100 + year / 400

/-- The first day of a month. -/
def monthStart (n : Int) : Int := marchStart ((n - 2) / 12) + (153 * ((n - 2) % 12) + 2) / 5

/-- The number of days in a month. -/
def monthLength (n : Int) : Int :=
  if n % 12 = 1 then if isLeap (n / 12) then 29 else 28
  else if n % 12 = 3 ∨ n % 12 = 5 ∨ n % 12 = 8 ∨ n % 12 = 10 then 30
  else 31

/-! ## Months follow each other -/

theorem isLeap_iff {year : Int} : isLeap year = true ↔ (year % 4 = 0 ∧ year % 100 ≠ 0) ∨ year % 400 = 0 := by
  rw [isLeap, Bool.or_eq_true, Bool.and_eq_true, decide_eq_true_eq, decide_eq_true_eq, decide_eq_true_eq]

theorem monthLength_bounds (n : Int) : 28 ≤ monthLength n ∧ monthLength n ≤ 31 := by
  rw [monthLength]
  split
  · split <;> omega
  · split <;> omega

theorem marchStart_succ (year : Int) :
    marchStart (year + 1) = marchStart year + 365 + if isLeap (year + 1) then 1 else 0 := by
  rw [marchStart, marchStart]
  by_cases hleap : isLeap (year + 1)
  · rw [if_pos hleap]
    rw [isLeap_iff] at hleap
    omega
  · rw [if_neg hleap]
    rw [isLeap_iff] at hleap
    omega

/-- A month by its year and its position, both counted from March. -/
theorem monthStart_eq {year m : Int} (hlo : 0 ≤ m) (hhi : m < 12) :
    monthStart (12 * year + m + 2) = marchStart year + (153 * m + 2) / 5 := by
  have hyear : (12 * year + m + 2 - 2) / 12 = year := by omega
  have hm : (12 * year + m + 2 - 2) % 12 = m := by omega
  rw [monthStart, hyear, hm]

theorem monthStart_succ (n : Int) : monthStart (n + 1) = monthStart n + monthLength n := by
  obtain ⟨year, m, hlo, hhi, rfl⟩ : ∃ year m : Int, 0 ≤ m ∧ m < 12 ∧ n = 12 * year + m + 2 :=
    ⟨(n - 2) / 12, (n - 2) % 12, by omega, by omega, by omega⟩
  rw [monthStart_eq hlo hhi, monthLength]
  by_cases hlast : m = 11
  · -- February is the last month, and the next one starts the next year.
    subst hlast
    have hnext : 12 * year + 11 + 2 + 1 = 12 * (year + 1) + 0 + 2 := by omega
    have hmod : (12 * year + 11 + 2) % 12 = 1 := by omega
    have hdiv : (12 * year + 11 + 2) / 12 = year + 1 := by omega
    rw [hnext, monthStart_eq (by omega) (by omega), marchStart_succ, hmod, hdiv, if_pos rfl]
    split <;> omega
  · have hnext : 12 * year + m + 2 + 1 = 12 * year + (m + 1) + 2 := by omega
    have hmod : (12 * year + m + 2) % 12 = (m + 2) % 12 := by omega
    rw [hnext, monthStart_eq (by omega) (by omega), hmod]
    obtain rfl | rfl | rfl | rfl | rfl | rfl | rfl | rfl | rfl | rfl | rfl :
        m = 0 ∨ m = 1 ∨ m = 2 ∨ m = 3 ∨ m = 4 ∨ m = 5 ∨ m = 6 ∨ m = 7 ∨ m = 8 ∨ m = 9 ∨ m = 10 := by omega
    all_goals
      rw [if_neg (by decide)]
      split <;> omega

theorem monthStart_lt_succ (n : Int) : monthStart n < monthStart (n + 1) := by
  have hlength := (monthLength_bounds n).1
  rw [monthStart_succ]
  omega

theorem monthStart_strictMono : StrictMono monthStart :=
  strictMono_of_lt_succ fun n _ => monthStart_lt_succ n

/-- The days of an earlier month are before the first of a later one. -/
theorem lt_monthStart {n k day : Int} (h : n < k) (hday : day < monthLength n) :
    monthStart n + day < monthStart k := by
  have hle : monthStart (n + 1) ≤ monthStart k := monthStart_strictMono.monotone (by omega)
  rw [monthStart_succ] at hle
  omega

/-! ## The month of a day -/

/-- The year from March to February that has a day, and the day's position in it. The year is
    found by its 400, 100, 4 and single years; the last of the hundreds and of the single
    years is one day longer than the others. -/
def marchYearOfDay (day : Int) : Int × Int :=
  let hundreds := min (day % 146097 / 36524) 3
  let inHundred := day % 146097 - 36524 * hundreds
  let inFour := inHundred % 1461
  let single := min (inFour / 365) 3
  (400 * (day / 146097) + 100 * hundreds + 4 * (inHundred / 1461) + single, inFour - 365 * single)

/-- The month that has a day. -/
def monthOfDay (day : Int) : Int :=
  12 * (marchYearOfDay day).1 + (5 * (marchYearOfDay day).2 + 2) / 153 + 2

/-- A year by its place among the 400, 100, 4 and single years. -/
theorem marchStart_parts {era hundreds fours single : Int} (hhundreds : 0 ≤ hundreds ∧ hundreds ≤ 3)
    (hfours : 0 ≤ fours ∧ fours ≤ 24) (hsingle : 0 ≤ single ∧ single ≤ 3) :
    marchStart (400 * era + 100 * hundreds + 4 * fours + single) =
      146097 * era + 36524 * hundreds + 1461 * fours + 365 * single := by
  rw [marchStart]
  omega

/-- The day after the last of a year whose place is known. -/
theorem marchStart_parts_succ {era hundreds fours single : Int} (hhundreds : 0 ≤ hundreds ∧ hundreds ≤ 3)
    (hfours : 0 ≤ fours ∧ fours ≤ 24) (hsingle : 0 ≤ single ∧ single ≤ 3) :
    marchStart (400 * era + 100 * hundreds + 4 * fours + single + 1) =
      if single < 3 then 146097 * era + 36524 * hundreds + 1461 * fours + 365 * (single + 1)
      else if fours < 24 then 146097 * era + 36524 * hundreds + 1461 * (fours + 1)
      else if hundreds < 3 then 146097 * era + 36524 * (hundreds + 1)
      else 146097 * (era + 1) := by
  rw [marchStart]
  split
  · omega
  · split
    · omega
    · split <;> omega

theorem marchYearOfDay_spec (day : Int) :
    marchStart (marchYearOfDay day).1 + (marchYearOfDay day).2 = day ∧ 0 ≤ (marchYearOfDay day).2 ∧
      day < marchStart ((marchYearOfDay day).1 + 1) := by
  simp only [marchYearOfDay]
  obtain ⟨hundreds, hhundreds⟩ : ∃ h, min (day % 146097 / 36524) 3 = h := ⟨_, rfl⟩
  obtain ⟨inHundred, hinHundred⟩ : ∃ r, day % 146097 - 36524 * hundreds = r := ⟨_, rfl⟩
  obtain ⟨single, hsingle⟩ : ∃ s, min (inHundred % 1461 / 365) 3 = s := ⟨_, rfl⟩
  rw [hhundreds, hinHundred, hsingle]
  have hrange : 0 ≤ hundreds ∧ hundreds ≤ 3 := by omega
  have hin : 0 ≤ inHundred ∧ inHundred ≤ 36524 ∧ (hundreds < 3 → inHundred < 36524) := by omega
  have hfours : 0 ≤ inHundred / 1461 ∧ inHundred / 1461 ≤ 24 := by omega
  have hyears : 0 ≤ single ∧ single ≤ 3 := by omega
  rw [marchStart_parts hrange hfours hyears, marchStart_parts_succ hrange hfours hyears]
  refine ⟨by omega, by omega, ?_⟩
  split
  · omega
  · split
    · omega
    · split <;> omega

theorem monthOfDay_spec (day : Int) : monthStart (monthOfDay day) ≤ day ∧ day < monthStart (monthOfDay day + 1) := by
  obtain ⟨hday, hpos, hnext⟩ := marchYearOfDay_spec day
  rw [monthOfDay]
  generalize (marchYearOfDay day).1 = year at *
  generalize (marchYearOfDay day).2 = rest at *
  have hlength : rest < 366 := by
    rw [marchStart_succ] at hnext
    split at hnext <;> omega
  rw [monthStart_eq (by omega) (by omega)]
  refine ⟨by omega, ?_⟩
  by_cases hlast : (5 * rest + 2) / 153 = 11
  · have hmonth : 12 * year + (5 * rest + 2) / 153 + 2 + 1 = 12 * (year + 1) + 0 + 2 := by omega
    rw [hmonth, monthStart_eq (by omega) (by omega)]
    omega
  · have hmonth : 12 * year + (5 * rest + 2) / 153 + 2 + 1 = 12 * year + ((5 * rest + 2) / 153 + 1) + 2 := by omega
    rw [hmonth, monthStart_eq (by omega) (by omega)]
    omega

end GregorianCalendar
