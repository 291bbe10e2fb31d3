-- SUMMARY: Broken-down UTC times and Unix timestamps in the supported years 0001 to 9999.
import Luma.Library.Binary64Whole
import Luma.Library.GregorianCalendar

/-! # Times and timestamps

A timestamp is a double, and a broken-down time counts years from 1900 and months from 0.
The way back from a broken-down time is the program's own calendar arithmetic; the way there
is the system's gmtime, which is only assumed to be its inverse. -/

namespace Luma.Datetime

open GregorianCalendar

/-- The fields of std::tm. -/
structure Tm where
  year : Int
  mon : Int
  mday : Int
  hour : Int := 0
  minute : Int := 0
  second : Int := 0
  deriving DecidableEq, Repr

def minUnixTimestamp : Binary64 := Binary64.ofInt (-62135596800)

def maxUnixTimestamp : Binary64 := Binary64.ofInt 253402300799

def isLeapYear (year : Int) : Bool := (year % 4 = 0 && year % 100 ≠ 0) || year % 400 = 0

/-- The length of a month counted from 1; 0 where there is no such month. -/
def daysInMonthFor (month year : Int) : Int :=
  if month < 1 ∨ 12 < month then 0
  else if month = 2 ∧ isLeapYear year then 29
  else [0, 31, 28, 31, 30, 31, 30, 31, 31, 30, 31, 30, 31].getD month.toNat 0

/-- The Unix time of a broken-down time in UTC. It does not look at the ranges of the fields. -/
def safeTimegm (tm : Tm) : Int :=
  let year := tm.year + 1900
  let month := tm.mon + 1
  let y := year - (if month ≤ 2 then 1 else 0)
  let era := (if 0 ≤ y then y else y - 399).tdiv 400
  let yearOfEra := y - era * 400
  let dayOfYear := (153 * (month + (if 2 < month then -3 else 9)) + 2).tdiv 5 + (tm.mday - 1)
  let dayOfEra := yearOfEra * 365 + yearOfEra.tdiv 4 - yearOfEra.tdiv 100 + dayOfYear
  let days := era * 146097 + dayOfEra - 719468
  days * 86400 + tm.hour * 3600 + tm.minute * 60 + tm.second

/-- A date of the calendar and a time of day. -/
structure Tm.Valid (tm : Tm) : Prop where
  month : 0 ≤ tm.mon ∧ tm.mon < 12
  day : 1 ≤ tm.mday ∧ tm.mday ≤ daysInMonthFor (tm.mon + 1) (tm.year + 1900)
  hour : 0 ≤ tm.hour ∧ tm.hour < 24
  minute : 0 ≤ tm.minute ∧ tm.minute < 60
  second : 0 ≤ tm.second ∧ tm.second < 60

/-- The Unix times of the years 0001 to 9999. -/
def InRange (t : Int) : Prop := -62135596800 ≤ t ∧ t ≤ 253402300799

instance {t : Int} : Decidable (InRange t) := inferInstanceAs (Decidable (_ ∧ _))

/-- The system's gmtime, an exact inverse of `safeTimegm` on the supported years. -/
structure Clock where
  gmtime : Int → Option Tm
  gmtime_spec : ∀ t, InRange t → ∃ tm, gmtime t = some tm ∧ tm.Valid ∧ safeTimegm tm = t

def toTm (clock : Clock) (ts : Binary64) : Option Tm :=
  if ts.isFinite = false ∨ ts.ieeeLt minUnixTimestamp = true ∨ maxUnixTimestamp.ieeeLt ts = true then none
  else clock.gmtime ts.toInt

def tmToUnix (tm : Tm) : Option Binary64 :=
  let ts := Binary64.ofInt (safeTimegm tm)
  if ts.ieeeLt minUnixTimestamp = true ∨ maxUnixTimestamp.ieeeLt ts = true then none else some ts

/-! ## The calendar -/

/-- The month of a broken-down time, counted from January of year 0. -/
def Tm.month (tm : Tm) : Int := 12 * (tm.year + 1900) + tm.mon

/-- Days since 1970-01-01. -/
def Tm.epochDay (tm : Tm) : Int := monthStart tm.month + (tm.mday - 1) - 719468

/-- Seconds since midnight. -/
def Tm.timeOfDay (tm : Tm) : Int := tm.hour * 3600 + tm.minute * 60 + tm.second

theorem daysInMonthFor_eq (n : Int) : daysInMonthFor (n % 12 + 1) (n / 12) = monthLength n := by
  rw [daysInMonthFor, if_neg (by omega), monthLength]
  have hleap : isLeapYear (n / 12) = isLeap (n / 12) := rfl
  rw [hleap]
  obtain h | h | h | h | h | h | h | h | h | h | h | h :
      n % 12 = 0 ∨ n % 12 = 1 ∨ n % 12 = 2 ∨ n % 12 = 3 ∨ n % 12 = 4 ∨ n % 12 = 5 ∨ n % 12 = 6 ∨ n % 12 = 7 ∨
        n % 12 = 8 ∨ n % 12 = 9 ∨ n % 12 = 10 ∨ n % 12 = 11 := by omega
  all_goals simp [h]

theorem daysInMonthFor_month {tm : Tm} (h : 0 ≤ tm.mon ∧ tm.mon < 12) :
    daysInMonthFor (tm.mon + 1) (tm.year + 1900) = monthLength tm.month := by
  have hmon : tm.month % 12 = tm.mon := by rw [Tm.month]; omega
  have hyear : tm.month / 12 = tm.year + 1900 := by rw [Tm.month]; omega
  rw [← daysInMonthFor_eq, hmon, hyear]

/-- The quotient that the source computes with a truncating division. -/
theorem era_eq (y : Int) : (if 0 ≤ y then y else y - 399).tdiv 400 = y / 400 := by
  by_cases hpos : 0 ≤ y
  · rw [if_pos hpos, Int.tdiv_eq_ediv_of_nonneg hpos]
  · have hneg : y - 399 = -(399 - y) := by omega
    rw [if_neg hpos, hneg, Int.neg_tdiv, Int.tdiv_eq_ediv_of_nonneg (by omega)]
    omega

theorem safeTimegm_eq {tm : Tm} (h : 0 ≤ tm.mon ∧ tm.mon < 12) :
    safeTimegm tm = tm.epochDay * 86400 + tm.timeOfDay := by
  rw [Tm.epochDay, monthStart, marchStart, Tm.month, Tm.timeOfDay, safeTimegm]
  simp only [era_eq]
  by_cases hmonth : tm.mon + 1 ≤ 2
  · have hyear : (12 * (tm.year + 1900) + tm.mon - 2) / 12 = tm.year + 1900 - 1 := by omega
    have hmon : (12 * (tm.year + 1900) + tm.mon - 2) % 12 = tm.mon + 10 := by omega
    rw [if_pos hmonth, if_neg (by omega), hyear, hmon, Int.tdiv_eq_ediv_of_nonneg (by omega),
      Int.tdiv_eq_ediv_of_nonneg (by omega), Int.tdiv_eq_ediv_of_nonneg (by omega)]
    omega
  · have hyear : (12 * (tm.year + 1900) + tm.mon - 2) / 12 = tm.year + 1900 := by omega
    have hmon : (12 * (tm.year + 1900) + tm.mon - 2) % 12 = tm.mon - 2 := by omega
    rw [if_neg hmonth, if_pos (by omega), hyear, hmon, Int.sub_zero, Int.tdiv_eq_ediv_of_nonneg (by omega),
      Int.tdiv_eq_ediv_of_nonneg (by omega), Int.tdiv_eq_ediv_of_nonneg (by omega)]
    omega

section Valid

variable {tm : Tm}

theorem Tm.Valid.timeOfDay (h : tm.Valid) : 0 ≤ tm.timeOfDay ∧ tm.timeOfDay < 86400 := by
  have hhour := h.hour
  have hminute := h.minute
  have hsecond := h.second
  rw [Tm.timeOfDay]
  omega

theorem Tm.Valid.mday (h : tm.Valid) : 1 ≤ tm.mday ∧ tm.mday ≤ monthLength tm.month := by
  have hday := h.day
  rwa [daysInMonthFor_month h.month] at hday

/-- A date in an earlier month has an earlier day number. -/
theorem Tm.Valid.epochDay_lt {tm' : Tm} (h : tm.Valid) (h' : tm'.Valid) (hmonth : tm.month < tm'.month) :
    tm.epochDay < tm'.epochDay := by
  have hday := h.mday
  have hday' := h'.mday
  have hlt : monthStart tm.month + (tm.mday - 1) < monthStart tm'.month := lt_monthStart hmonth (by omega)
  rw [Tm.epochDay, Tm.epochDay]
  omega

theorem monthStart_first : monthStart 12 = 306 := by decide

theorem monthStart_last : monthStart 120000 = 3652365 := by decide

/-- The dates of the years 0001 to 9999 are just those with a timestamp in the range. -/
theorem Tm.Valid.inRange_iff (h : tm.Valid) : InRange (safeTimegm tm) ↔ 1 ≤ tm.year + 1900 ∧ tm.year + 1900 ≤ 9999 := by
  have htime := h.timeOfDay
  have hday := h.mday
  have hmonth := h.month
  have hlength := monthLength_bounds tm.month
  rw [InRange, safeTimegm_eq h.month, Tm.epochDay]
  constructor
  · intro hrange
    constructor
    · by_contra hearly
      have hlt : monthStart tm.month + (tm.mday - 1) < monthStart 12 := lt_monthStart (by rw [Tm.month]; omega) (by omega)
      rw [monthStart_first] at hlt
      omega
    · by_contra hlate
      have hle : monthStart 120000 ≤ monthStart tm.month := monthStart_strictMono.monotone (by rw [Tm.month]; omega)
      rw [monthStart_last] at hle
      omega
  · intro hyears
    have hle : monthStart 12 ≤ monthStart tm.month := monthStart_strictMono.monotone (by rw [Tm.month]; omega)
    have hlt : monthStart tm.month + (tm.mday - 1) < monthStart 120000 := lt_monthStart (by rw [Tm.month]; omega) (by omega)
    rw [monthStart_first] at hle
    rw [monthStart_last] at hlt
    omega

end Valid

/-! ## Conversions -/

/-- A whole timestamp in the range has a broken-down time, which is a date of the calendar. -/
theorem toTm_of_inRange (clock : Clock) {ts : Binary64} {t : Int} (hts : ts.IsInteger t) (h : InRange t) :
    ∃ tm, toTm clock ts = some tm ∧ tm.Valid ∧ safeTimegm tm = t := by
  obtain ⟨tm, htm, hvalid, htime⟩ := clock.gmtime_spec t h
  have hnan := Binary64.isNan_of_isInteger hts
  have hpos := Binary64.unitsPerOne_pos'
  obtain ⟨hlow, hhigh⟩ := h
  have hnotBelow : ¬ ts.ieeeLt minUnixTimestamp = true := by
    rw [minUnixTimestamp, Binary64.ieeeLt_iff hnan (Binary64.isNan_ofInt (by decide)), hts.2,
      (Binary64.isInteger_ofInt (by decide)).2]
    exact Int.not_lt.mpr (Int.mul_le_mul_of_nonneg_right hlow hpos.le)
  have hnotAbove : ¬ maxUnixTimestamp.ieeeLt ts = true := by
    rw [maxUnixTimestamp, Binary64.ieeeLt_iff (Binary64.isNan_ofInt (by decide)) hnan, hts.2,
      (Binary64.isInteger_ofInt (by decide)).2]
    exact Int.not_lt.mpr (Int.mul_le_mul_of_nonneg_right hhigh hpos.le)
  have hfinite : ¬ ts.isFinite = false := by rw [hts.1]; decide
  refine ⟨tm, ?_, hvalid, htime⟩
  rw [toTm, if_neg (by rintro (h | h | h); exacts [hfinite h, hnotBelow h, hnotAbove h]), Binary64.toInt_of_isInteger hts]
  exact htm

/-- What a timestamp is broken down to is the date of a time in the range. -/
theorem toTm_spec {clock : Clock} {ts : Binary64} {tm : Tm} (h : toTm clock ts = some tm) :
    tm.Valid ∧ safeTimegm tm = ts.toInt ∧ InRange ts.toInt := by
  rw [toTm] at h
  split at h
  · cases h
  next hguards =>
    rw [not_or, not_or] at hguards
    obtain ⟨hfinite, hlow, hhigh⟩ := hguards
    have hnan : ts.isNan = false := by
      rw [Binary64.isNan, decide_eq_false_iff_not]
      rw [Bool.not_eq_false, Binary64.isFinite, decide_eq_true_eq] at hfinite
      omega
    have hrange : InRange ts.toInt :=
      Binary64.toInt_between hnan (by decide) (by decide) (Bool.eq_false_iff.mpr hlow) (Bool.eq_false_iff.mpr hhigh)
    obtain ⟨tm', htm', hvalid, htime⟩ := clock.gmtime_spec ts.toInt hrange
    obtain rfl : tm' = tm := Option.some.inj (htm'.symm.trans h)
    exact ⟨hvalid, htime, hrange⟩

/-- A broken-down time has a timestamp just where that is in the range. -/
theorem tmToUnix_eq {tm : Tm} (h : (safeTimegm tm).natAbs ≤ 2 ^ 63) :
    tmToUnix tm = if InRange (safeTimegm tm) then some (Binary64.ofInt (safeTimegm tm)) else none := by
  have hlow := Binary64.ofInt_lt_iff (j := -62135596800) h (by decide)
  have hhigh := Binary64.ofInt_gt_iff (j := 253402300799) h (by decide)
  rw [tmToUnix, minUnixTimestamp, maxUnixTimestamp]
  by_cases hrange : InRange (safeTimegm tm)
  · have hin := hrange
    rw [InRange] at hin
    rw [if_pos hrange, if_neg (by rw [hlow, hhigh]; omega)]
  · have hout := hrange
    rw [InRange] at hout
    rw [if_neg hrange, if_pos (by rw [hlow, hhigh]; omega)]

theorem tmToUnix_of_inRange {tm : Tm} (h : InRange (safeTimegm tm)) :
    tmToUnix tm = some (Binary64.ofInt (safeTimegm tm)) := by
  have hsize : (safeTimegm tm).natAbs ≤ 2 ^ 63 := by
    rw [InRange] at h
    omega
  rw [tmToUnix_eq hsize, if_pos h]

/-! ## A clock -/

/-- The broken-down time of a Unix time. -/
def civilTime (t : Int) : Tm :=
  let day := t / 86400 + 719468
  let month := monthOfDay day
  { year := month / 12 - 1900
    mon := month % 12
    mday := day - monthStart month + 1
    hour := t % 86400 / 3600
    minute := t % 3600 / 60
    second := t % 60 }

theorem civilTime_month (t : Int) : (civilTime t).month = monthOfDay (t / 86400 + 719468) := by
  rw [Tm.month, civilTime]
  simp only
  omega

theorem civilTime_mon (t : Int) : 0 ≤ (civilTime t).mon ∧ (civilTime t).mon < 12 := by
  rw [civilTime]
  simp only
  omega

theorem civilTime_valid (t : Int) : (civilTime t).Valid := by
  obtain ⟨hlow, hhigh⟩ := monthOfDay_spec (t / 86400 + 719468)
  rw [monthStart_succ] at hhigh
  have hmday : (civilTime t).mday = t / 86400 + 719468 - monthStart (monthOfDay (t / 86400 + 719468)) + 1 := rfl
  refine ⟨civilTime_mon t, ?_, ?_, ?_, ?_⟩
  · rw [daysInMonthFor_month (civilTime_mon t), civilTime_month, hmday]
    omega
  all_goals
    rw [civilTime]
    simp only
    omega

theorem safeTimegm_civilTime (t : Int) : safeTimegm (civilTime t) = t := by
  rw [safeTimegm_eq (civilTime_mon t), Tm.epochDay, civilTime_month, Tm.timeOfDay, civilTime]
  simp only
  omega

/-- The clock of the proleptic Gregorian calendar. -/
def civilClock : Clock where
  gmtime t := some (civilTime t)
  gmtime_spec t _ := ⟨civilTime t, rfl, civilTime_valid t, safeTimegm_civilTime t⟩

end Luma.Datetime
