-- SUMMARY: Calendar arithmetic on timestamps: months and periods added, and the period between two dates.
import Luma.Stdlib.Datetime
import Luma.Value.Value

/-! # Calendar arithmetic

Both ways to add months move a date to another month and keep its day where that month is
long enough; `Tm.shift` is the date they reach. -/

namespace Luma.Datetime

open GregorianCalendar Codec

/-- `years` -/
def yearsField : Bytes := [121, 101, 97, 114, 115]

/-- `months` -/
def monthsField : Bytes := [109, 111, 110, 116, 104, 115]

/-- `days` -/
def daysField : Bytes := [100, 97, 121, 115]

/-- `Period` -/
def periodType : Bytes := [80, 101, 114, 105, 111, 100]

def makePeriodRecord (years months days : Int) : Value :=
  .record periodType
    [(yearsField, .integer (Int64.ofInt years)), (monthsField, .integer (Int64.ofInt months)),
      (daysField, .integer (Int64.ofInt days))]

structure PeriodParts where
  years : Int
  months : Int
  days : Int
  deriving DecidableEq, Repr

/-- A count of a period; a number is cut to its integer part. -/
def readCount (fields : List (Bytes × Value)) (name : Bytes) : Option Int :=
  match fields.lookup name with
  | some (.integer n) => some n.toInt
  | some (.number x) => some x.toInt
  | _ => none

def readPeriod : Value → Option PeriodParts
  | .record _ fields => do
    let years ← readCount fields yearsField
    let months ← readCount fields monthsField
    let days ← readCount fields daysField
    some { years, months, days }
  | _ => none

def errorMsg (function detail : String) : String := "DateTime." ++ function ++ ": " ++ detail

def timestampRangeError : String := "timestamp out of supported range (year 0001-9999)"

def prolepticMonth (year month : Int) : Int := year * 12 + (month - 1)

/-- A total of months as a year and a month of it; the remainder is brought into 0..11. -/
def yearAndMonth (total : Int) : Int × Int :=
  if total.tmod 12 < 0 then (total.tdiv 12 - 1, total.tmod 12 + 12) else (total.tdiv 12, total.tmod 12)

/-- A date with its month counted from 1. -/
structure Ymd where
  year : Int
  month : Int
  day : Int
  deriving DecidableEq, Repr

def addMonthsToDate (year month day delta : Int) : Option Ymd :=
  let target := yearAndMonth (prolepticMonth year month + delta)
  if target.1 < 1 ∨ 9999 < target.1 then none
  else
    let monthOut := target.2 + 1
    some { year := target.1, month := monthOut, day := min day (daysInMonthFor monthOut target.1) }

/-- The day number of a date; a midnight is a whole number of days. -/
def epochDay (year month day : Int) : Option Int :=
  (tmToUnix { year := year - 1900, mon := month - 1, mday := day }).map fun unixTime => unixTime.toInt / 86400

def rebuildToUnix (newYear newMon newMday : Int) (timeOfDay : Tm) (funcName : String) : Except String Binary64 :=
  match tmToUnix { timeOfDay with year := newYear, mon := newMon, mday := newMday } with
  | some unixTime => .ok unixTime
  | none => .error (errorMsg funcName "resulting date is invalid")

/-- `try_narrow_int`: whether an integer is one of 32 bits. -/
def NarrowInt (n : Int) : Prop := -2 ^ 31 ≤ n ∧ n < 2 ^ 31

instance {n : Int} : Decidable (NarrowInt n) := inferInstanceAs (Decidable (_ ∧ _))

def addMonths (clock : Clock) (ts : Binary64) (monthsToAdd : Int) : Except String Binary64 :=
  match toTm clock ts with
  | none => .error (errorMsg "add_months" timestampRangeError)
  | some tm =>
    if ¬ NarrowInt monthsToAdd then .error (errorMsg "add_months" "month count out of 32-bit integer range")
    else
      let target := yearAndMonth (tm.year * 12 + tm.mon + monthsToAdd)
      if ¬ NarrowInt target.1 then .error (errorMsg "add_months" "resulting date is out of range")
      else
        let clampedDay := min tm.mday (daysInMonthFor (target.2 + 1) (target.1 + 1900))
        rebuildToUnix target.1 target.2 clampedDay tm "add_months"

def addPeriod (clock : Clock) (ts : Binary64) (period : Value) : Except String Binary64 :=
  match toTm clock ts with
  | none => .error (errorMsg "add_period" timestampRangeError)
  | some tm =>
    match readPeriod period with
    | none => .error (errorMsg "add_period" "expected a DateTime.Period record")
    | some period =>
      if 100000 < period.years.natAbs ∨ 1200000 < period.months.natAbs then
        .error (errorMsg "add_period" "resulting date is out of range")
      else
        match addMonthsToDate (tm.year + 1900) (tm.mon + 1) tm.mday (period.years * 12 + period.months) with
        | none => .error (errorMsg "add_period" "resulting date is out of range")
        | some shifted =>
          (rebuildToUnix (shifted.year - 1900) (shifted.month - 1) shifted.day tm "add_period").map fun unixTime =>
            unixTime.wholeSum ((Binary64.ofInt period.days).wholeProduct (Binary64.ofInt 86400))

def betweenDates (clock : Clock) (start finish : Binary64) : Except String Value :=
  match toTm clock start, toTm clock finish with
  | some start, some finish =>
    let startYear := start.year + 1900
    let endYear := finish.year + 1900
    let startMonth := start.mon + 1
    let endMonth := finish.mon + 1
    let totalMonths := prolepticMonth endYear endMonth - prolepticMonth startYear startMonth
    let days := finish.mday - start.mday
    if 0 < totalMonths ∧ days < 0 then
      -- A month is borrowed, and the days are counted from the date it starts at.
      let totalMonths := totalMonths - 1
      let anchorEpoch := (addMonthsToDate startYear startMonth start.mday totalMonths).bind fun anchor =>
        epochDay anchor.year anchor.month anchor.day
      match anchorEpoch, epochDay endYear endMonth finish.mday with
      | some anchorEpoch, some endEpoch =>
        .ok (makePeriodRecord (totalMonths.tdiv 12) (totalMonths.tmod 12) (endEpoch - anchorEpoch))
      | _, _ => .error (errorMsg "between_dates" "resulting span is out of range")
    else if totalMonths < 0 ∧ 0 < days then
      let totalMonths := totalMonths + 1
      .ok (makePeriodRecord (totalMonths.tdiv 12) (totalMonths.tmod 12) (days - daysInMonthFor endMonth endYear))
    else .ok (makePeriodRecord (totalMonths.tdiv 12) (totalMonths.tmod 12) days)
  | _, _ => .error (errorMsg "between_dates" timestampRangeError)

/-! ## Months -/

/-- A date moved to another month. -/
def Tm.shift (tm : Tm) (n : Int) : Tm :=
  { tm with year := n / 12 - 1900, mon := n % 12, mday := min tm.mday (monthLength n) }

theorem yearAndMonth_eq (total : Int) : yearAndMonth total = (total / 12, total % 12) := by
  rw [yearAndMonth]
  by_cases hpos : 0 ≤ total
  · rw [Int.tdiv_eq_ediv_of_nonneg hpos, Int.tmod_eq_emod_of_nonneg hpos, if_neg (by omega)]
  · obtain ⟨n, rfl⟩ : ∃ n : Int, total = -n := ⟨-total, by omega⟩
    rw [Int.neg_tdiv, Int.neg_tmod, Int.tdiv_eq_ediv_of_nonneg (by omega), Int.tmod_eq_emod_of_nonneg (by omega)]
    split
    · rw [Prod.mk.injEq]
      omega
    · rw [Prod.mk.injEq]
      omega

section Shift

variable {tm : Tm} {n : Int}

@[simp] theorem Tm.shift_month : (tm.shift n).month = n := by
  rw [Tm.month, Tm.shift]
  simp only
  omega

@[simp] theorem Tm.shift_mday : (tm.shift n).mday = min tm.mday (monthLength n) := rfl

@[simp] theorem Tm.shift_timeOfDay : (tm.shift n).timeOfDay = tm.timeOfDay := rfl

theorem Tm.Valid.shift (h : tm.Valid) : (tm.shift n).Valid := by
  have hmon : 0 ≤ (tm.shift n).mon ∧ (tm.shift n).mon < 12 := by
    rw [Tm.shift]
    simp only
    omega
  refine ⟨hmon, ?_, h.hour, h.minute, h.second⟩
  have hlength := (monthLength_bounds n).1
  have hday := h.day
  rw [daysInMonthFor_month hmon, Tm.shift_month, Tm.shift_mday]
  omega

theorem addMonthsToDate_eq {delta : Int} (hn : n = tm.month + delta) :
    addMonthsToDate (tm.year + 1900) (tm.mon + 1) tm.mday delta =
      if 1 ≤ n / 12 ∧ n / 12 ≤ 9999 then some ⟨n / 12, n % 12 + 1, min tm.mday (monthLength n)⟩ else none := by
  have htotal : prolepticMonth (tm.year + 1900) (tm.mon + 1) + delta = n := by
    rw [prolepticMonth, hn, Tm.month]
    omega
  rw [addMonthsToDate, htotal, yearAndMonth_eq]
  simp only [daysInMonthFor_eq]
  by_cases hrange : 1 ≤ n / 12 ∧ n / 12 ≤ 9999
  · rw [if_pos hrange, if_neg (by omega)]
  · rw [if_neg hrange, if_pos (by omega)]

/-- The date reached by both ways of adding months, in the place of the old one. -/
theorem rebuildToUnix_shift {func : String} :
    rebuildToUnix (n / 12 - 1900) (n % 12) (min tm.mday (monthLength n)) tm func =
      match tmToUnix (tm.shift n) with
      | some unixTime => .ok unixTime
      | none => .error (errorMsg func "resulting date is invalid") := by
  change (match tmToUnix (tm.shift n) with
    | some unixTime => Except.ok unixTime
    | none => .error (errorMsg func "resulting date is invalid")) = _
  cases tmToUnix (tm.shift n) with
  | some unixTime => rfl
  | none => rfl

/-- Where months can be added, the result is the time of the shifted date. -/
theorem addMonths_eq_ok {clock : Clock} {ts result : Binary64} {count : Int} (h : addMonths clock ts count = .ok result) :
    ∃ tm, toTm clock ts = some tm ∧ tmToUnix (tm.shift (tm.month + count)) = some result := by
  rw [addMonths] at h
  split at h
  · cases h
  next tm htm =>
    split at h
    · cases h
    · simp only at h
      split at h
      · cases h
      · have htotal : tm.year * 12 + tm.mon + count = tm.month + count - 22800 := by
          rw [Tm.month]
          omega
        have hyear : (tm.month + count - 22800) / 12 = (tm.month + count) / 12 - 1900 := by omega
        have hmonth : (tm.month + count - 22800) % 12 = (tm.month + count) % 12 := by omega
        rw [htotal, yearAndMonth_eq, hyear, hmonth] at h
        simp only [Int.sub_add_cancel, daysInMonthFor_eq] at h
        rw [rebuildToUnix_shift] at h
        split at h
        next unixTime hunix =>
          cases h
          exact ⟨tm, htm, hunix⟩
        · cases h

/-- Adding a period moves to the month it leads to, and then adds its days. -/
theorem addPeriod_eq {clock : Clock} {ts : Binary64} {period : Value} {parts : PeriodParts} (htm : toTm clock ts = some tm)
    (hread : readPeriod period = some parts) (hsize : parts.years.natAbs ≤ 100000 ∧ parts.months.natAbs ≤ 1200000)
    (hn : n = tm.month + (parts.years * 12 + parts.months)) :
    addPeriod clock ts period =
      if 1 ≤ n / 12 ∧ n / 12 ≤ 9999 then
        match tmToUnix (tm.shift n) with
        | some unixTime => .ok (unixTime.wholeSum ((Binary64.ofInt parts.days).wholeProduct (Binary64.ofInt 86400)))
        | none => .error (errorMsg "add_period" "resulting date is invalid")
      else .error (errorMsg "add_period" "resulting date is out of range") := by
  rw [addPeriod, htm]
  simp only [hread]
  rw [if_neg (by omega), addMonthsToDate_eq hn]
  by_cases hrange : 1 ≤ n / 12 ∧ n / 12 ≤ 9999
  · rw [if_pos hrange, if_pos hrange]
    simp only [Int.add_sub_cancel]
    rw [rebuildToUnix_shift]
    cases tmToUnix (tm.shift n) with
    | some unixTime => rfl
    | none => rfl
  · rw [if_neg hrange, if_neg hrange]

end Shift

/-- A period that both functions can add to a timestamp, without days, leads to where its
    months lead. -/
theorem addMonths_eq_addPeriod {clock : Clock} {ts a b : Binary64} {count : Int} {period : Value} {parts : PeriodParts}
    (hread : readPeriod period = some parts) (hdays : parts.days = 0) (hcount : parts.years * 12 + parts.months = count)
    (ha : addMonths clock ts count = .ok a) (hb : addPeriod clock ts period = .ok b) : a = b := by
  obtain ⟨tm, htm, hunix⟩ := addMonths_eq_ok ha
  obtain ⟨hvalid, -, -⟩ := toTm_spec htm
  have hsize : parts.years.natAbs ≤ 100000 ∧ parts.months.natAbs ≤ 1200000 := by
    by_contra hlarge
    rw [addPeriod, htm] at hb
    simp only [hread] at hb
    rw [if_pos (by omega)] at hb
    cases hb
  rw [addPeriod_eq htm hread hsize rfl, hcount, hunix] at hb
  split at hb
  next hyears =>
    simp only at hb
    have htime : InRange (safeTimegm (tm.shift (tm.month + count))) := by
      rw [hvalid.shift.inRange_iff]
      rw [Tm.shift]
      simp only [Int.sub_add_cancel]
      exact hyears
    have hexact := htime
    rw [InRange] at hexact
    rw [tmToUnix_of_inRange htime] at hunix
    have ha := Option.some.inj hunix
    have hb := Except.ok.inj hb
    rw [← hb, hdays, Binary64.wholeProduct_ofInt (by decide) (by decide), Int.zero_mul, ← ha,
      Binary64.wholeSum_ofInt (by omega) (by decide), Int.add_zero]
  · cases hb

/-! ## Periods -/

/-- The months and days from one date to another. -/
def spanBetween (start finish : Tm) : Int × Int :=
  let months := finish.month - start.month
  let days := finish.mday - start.mday
  if 0 < months ∧ days < 0 then
    (months - 1, finish.epochDay - (start.shift (start.month + (months - 1))).epochDay)
  else if months < 0 ∧ 0 < days then (months + 1, days - monthLength finish.month)
  else (months, days)

/-- The record of a number of months and a number of days. -/
def spanRecord (span : Int × Int) : Value := makePeriodRecord (span.1.tdiv 12) (span.1.tmod 12) span.2

section Periods

variable {start finish : Tm}

/-- The day number of a date whose year is supported. -/
theorem epochDay_eq {tm : Tm} (hvalid : tm.Valid) (hyear : 1 ≤ tm.year + 1900 ∧ tm.year + 1900 ≤ 9999) :
    epochDay (tm.year + 1900) (tm.mon + 1) tm.mday = some tm.epochDay := by
  have hmidnight : (0 : Int) ≤ 0 ∧ (0 : Int) < 24 ∧ (0 : Int) < 60 := by decide
  have hdate : Tm.Valid { year := tm.year, mon := tm.mon, mday := tm.mday } :=
    ⟨hvalid.month, hvalid.day, ⟨hmidnight.1, hmidnight.2.1⟩, ⟨hmidnight.1, hmidnight.2.2⟩, ⟨hmidnight.1, hmidnight.2.2⟩⟩
  have hrange := hdate.inRange_iff.mpr hyear
  have htime : safeTimegm { year := tm.year, mon := tm.mon, mday := tm.mday } = tm.epochDay * 86400 := by
    rw [safeTimegm_eq hdate.month]
    exact Int.add_zero _
  have hsize := hrange
  rw [InRange] at hsize
  rw [epochDay, Int.add_sub_cancel, Int.add_sub_cancel, tmToUnix_of_inRange hrange, Option.map_some,
    Binary64.toInt_ofInt (by omega), htime, Int.mul_ediv_cancel _ (by decide)]

theorem betweenDates_eq {clock : Clock} {startTs endTs : Binary64} (hstart : toTm clock startTs = some start)
    (hend : toTm clock endTs = some finish) :
    betweenDates clock startTs endTs = .ok (spanRecord (spanBetween start finish)) := by
  obtain ⟨hvalidStart, htimeStart, hrangeStart⟩ := toTm_spec hstart
  obtain ⟨hvalidEnd, htimeEnd, hrangeEnd⟩ := toTm_spec hend
  rw [← htimeStart, hvalidStart.inRange_iff] at hrangeStart
  rw [← htimeEnd, hvalidEnd.inRange_iff] at hrangeEnd
  have hmonStart := hvalidStart.month
  have hmonEnd := hvalidEnd.month
  have htotal : prolepticMonth (finish.year + 1900) (finish.mon + 1) - prolepticMonth (start.year + 1900) (start.mon + 1) =
      finish.month - start.month := by
    rw [prolepticMonth, prolepticMonth, Tm.month, Tm.month]
    omega
  rw [betweenDates, hstart, hend]
  simp only [htotal]
  rw [spanBetween]
  split
  next hborrow =>
    -- The anchor is in a month from the start's to the end's.
    have hanchor : 1 ≤ (start.month + (finish.month - start.month - 1)) / 12 ∧
        (start.month + (finish.month - start.month - 1)) / 12 ≤ 9999 := by
      rw [Tm.month, Tm.month] at hborrow ⊢
      omega
    have hday : epochDay ((start.month + (finish.month - start.month - 1)) / 12)
        ((start.month + (finish.month - start.month - 1)) % 12 + 1)
        (min start.mday (monthLength (start.month + (finish.month - start.month - 1)))) =
          some (start.shift (start.month + (finish.month - start.month - 1))).epochDay := by
      rw [← epochDay_eq hvalidStart.shift]
      · rw [Tm.shift_mday, Tm.shift]
        simp only [Int.sub_add_cancel]
      · rw [Tm.shift]
        simp only [Int.sub_add_cancel]
        exact hanchor
    rw [addMonthsToDate_eq rfl, if_pos hanchor, Option.bind_some, hday, epochDay_eq hvalidEnd hrangeEnd]
    rfl
  next =>
    split
    · rw [daysInMonthFor_month hmonEnd]
      rfl
    · rfl

/-- From an earlier date to a later one: the months lead to a date not after the later one, and
    the days are what is missing. -/
theorem spanBetween_of_le (hstart : start.Valid) (hend : finish.Valid) (hle : start.epochDay ≤ finish.epochDay) :
    0 ≤ (spanBetween start finish).1 ∧ start.month + (spanBetween start finish).1 ≤ finish.month ∧
      0 ≤ (spanBetween start finish).2 ∧ (spanBetween start finish).2 < 31 ∧
        (start.shift (start.month + (spanBetween start finish).1)).epochDay + (spanBetween start finish).2 = finish.epochDay := by
  have hmonths : start.month ≤ finish.month := by
    by_contra hlater
    have hlt := hend.epochDay_lt hstart (by omega)
    omega
  have hdayStart := hstart.mday
  have hdayEnd := hend.mday
  have hlengthStart := (monthLength_bounds start.month).2
  have hlengthEnd := (monthLength_bounds finish.month).2
  have hepoch : finish.epochDay = monthStart finish.month + (finish.mday - 1) - 719468 := rfl
  rw [spanBetween]
  split
  next hborrow =>
    -- The anchor is in the month before the end's, at the start's day or at the last one.
    have hanchor : (start.shift (start.month + (finish.month - start.month - 1))).epochDay =
        monthStart (finish.month - 1) + (min start.mday (monthLength (finish.month - 1)) - 1) - 719468 := by
      have hmonth : start.month + (finish.month - start.month - 1) = finish.month - 1 := by omega
      rw [Tm.epochDay, Tm.shift_month, Tm.shift_mday, hmonth]
    have hnext := monthStart_succ (finish.month - 1)
    rw [Int.sub_add_cancel] at hnext
    have hlength := (monthLength_bounds (finish.month - 1)).2
    simp only [hanchor, hepoch, hnext]
    refine ⟨by omega, by omega, ?_, ?_, by omega⟩
    · rcases le_total start.mday (monthLength (finish.month - 1)) with hkept | hcut
      · rw [min_eq_left hkept]
        omega
      · rw [min_eq_right hcut]
        omega
    · rcases le_total start.mday (monthLength (finish.month - 1)) with hkept | hcut
      · rw [min_eq_left hkept]
        omega
      · rw [min_eq_right hcut]
        omega
  next hnoBorrow =>
    rw [if_neg (by omega)]
    have hdays : 0 ≤ finish.mday - start.mday := by
      by_contra hneg
      have hsame : start.month = finish.month := by omega
      rw [Tm.epochDay, Tm.epochDay, hsame] at hle
      omega
    have hmonth : start.month + (finish.month - start.month) = finish.month := by omega
    have hkept : min start.mday (monthLength finish.month) = start.mday := min_eq_left (by omega)
    refine ⟨by omega, by omega, hdays, by omega, ?_⟩
    rw [hmonth, Tm.epochDay, Tm.shift_month, Tm.shift_mday, hkept, hepoch]
    omega

/-- From a later date to an earlier one nothing is positive. -/
theorem spanBetween_of_ge (hstart : start.Valid) (hend : finish.Valid) (hge : finish.epochDay ≤ start.epochDay) :
    (spanBetween start finish).1 ≤ 0 ∧ (spanBetween start finish).2 ≤ 0 := by
  have hmonths : finish.month ≤ start.month := by
    by_contra hlater
    have hlt := hstart.epochDay_lt hend (by omega)
    omega
  have hdayStart := hstart.mday
  have hdayEnd := hend.mday
  rw [spanBetween, if_neg (by omega)]
  split
  · omega
  · next hnoBorrow =>
    refine ⟨by omega, ?_⟩
    by_contra hpos
    have hsame : start.month = finish.month := by omega
    rw [Tm.epochDay, Tm.epochDay, hsame] at hge
    omega

/-- The months of a span between two supported dates. -/
theorem spanBetween_bounds (hstart : start.Valid) (hend : finish.Valid) (hstartYear : 1 ≤ start.year + 1900 ∧ start.year + 1900 ≤ 9999)
    (hendYear : 1 ≤ finish.year + 1900 ∧ finish.year + 1900 ≤ 9999) : (spanBetween start finish).1.natAbs < 120000 := by
  have hmonStart := hstart.month
  have hmonEnd := hend.month
  have hdistance : (finish.month - start.month).natAbs < 120000 := by
    rw [Tm.month, Tm.month]
    omega
  rw [spanBetween]
  split
  · simp only
    omega
  · split
    · simp only
      omega
    · exact hdistance

/-- Whole years and the months left over make up the months again. -/
theorem readPeriod_spanRecord {span : Int × Int} (hmonths : span.1.natAbs < 120000) (hdays : span.2.natAbs < 2 ^ 53) :
    readPeriod (spanRecord span) = some ⟨span.1.tdiv 12, span.1.tmod 12, span.2⟩ := by
  have hparts := Int.mul_tdiv_add_tmod span.1 12
  have hyears : (span.1.tdiv 12).natAbs ≤ span.1.natAbs := Int.natAbs_tdiv_le_natAbs _ _
  have hbelow : span.1.tmod 12 < 12 := Int.tmod_lt_of_pos _ (by decide)
  have habove : -12 < span.1.tmod 12 := Int.lt_tmod_of_pos _ (by decide)
  have hread : readPeriod (spanRecord span) =
      some ⟨(Int64.ofInt (span.1.tdiv 12)).toInt, (Int64.ofInt (span.1.tmod 12)).toInt, (Int64.ofInt span.2).toInt⟩ := rfl
  rw [hread, Int64.toInt_ofInt_of_le (by omega) (by omega), Int64.toInt_ofInt_of_le (by omega) (by omega),
    Int64.toInt_ofInt_of_le (by omega) (by omega)]

end Periods

/-! ## Midnights -/

/-- A timestamp that is the midnight a day starts at. -/
structure Midnight (ts : Binary64) (day : Int) : Prop where
  whole : ts.IsInteger (86400 * day)
  inRange : InRange (86400 * day)

section Midnights

variable {clock : Clock} {start finish : Binary64} {a b : Int}

/-- The date of a midnight. -/
theorem Midnight.date (h : Midnight start a) (clock : Clock) :
    ∃ tm, toTm clock start = some tm ∧ tm.Valid ∧ (1 ≤ tm.year + 1900 ∧ tm.year + 1900 ≤ 9999) ∧ tm.epochDay = a ∧ tm.timeOfDay = 0 := by
  obtain ⟨tm, htm, hvalid, htime⟩ := toTm_of_inRange clock h.whole h.inRange
  have hyears := h.inRange
  rw [← htime, hvalid.inRange_iff] at hyears
  have hrest := hvalid.timeOfDay
  rw [safeTimegm_eq hvalid.month] at htime
  exact ⟨tm, htm, hvalid, hyears, by omega, by omega⟩

/-- The period from a midnight to a later one is not negative, and leads to it. -/
theorem betweenDates_of_le (hstart : Midnight start a) (hend : Midnight finish b) (hle : a ≤ b) :
    ∃ p : PeriodParts, betweenDates clock start finish = .ok (makePeriodRecord p.years p.months p.days) ∧
      0 ≤ p.years ∧ 0 ≤ p.months ∧ p.months ≤ 11 ∧ 0 ≤ p.days ∧ p.days < 31 ∧
        ∃ result, addPeriod clock start (makePeriodRecord p.years p.months p.days) = .ok result ∧
          result.ieeeEq finish = true := by
  obtain ⟨tm, htm, hvalid, hyears, hday, htime⟩ := hstart.date clock
  obtain ⟨tm', htm', hvalid', hyears', hday', htime'⟩ := hend.date clock
  obtain ⟨hmonths, hbefore, hdays, hfew, hreach⟩ := spanBetween_of_le hvalid hvalid' (by omega)
  have hbound := spanBetween_bounds hvalid hvalid' hyears hyears'
  have hread := readPeriod_spanRecord hbound (by omega)
  have hparts := Int.mul_tdiv_add_tmod (spanBetween tm tm').1 12
  rw [Int.tdiv_eq_ediv_of_nonneg hmonths, Int.tmod_eq_emod_of_nonneg hmonths] at hparts hread
  have hrecord : spanRecord (spanBetween tm tm') =
      makePeriodRecord ((spanBetween tm tm').1 / 12) ((spanBetween tm tm').1 % 12) (spanBetween tm tm').2 := by
    rw [spanRecord, Int.tdiv_eq_ediv_of_nonneg hmonths, Int.tmod_eq_emod_of_nonneg hmonths]
  have hbetween := betweenDates_eq htm htm'
  rw [hrecord] at hread hbetween
  have hadd : addPeriod clock start (makePeriodRecord ((spanBetween tm tm').1 / 12) ((spanBetween tm tm').1 % 12)
      (spanBetween tm tm').2) = .ok (Binary64.ofInt (86400 * b)) := by
    generalize hspan : spanBetween tm tm' = span at *
    have hsize := hend.inRange
    rw [InRange] at hsize
    have htarget : 1 ≤ (tm.month + span.1) / 12 ∧ (tm.month + span.1) / 12 ≤ 9999 := by
      have hmon := hvalid.month
      have hmon' := hvalid'.month
      rw [Tm.month] at hbefore ⊢
      rw [Tm.month] at hbefore
      omega
    have hshift : InRange (safeTimegm (tm.shift (tm.month + span.1))) := by
      rw [hvalid.shift.inRange_iff, Tm.shift]
      simp only [Int.sub_add_cancel]
      exact htarget
    have hreached : safeTimegm (tm.shift (tm.month + span.1)) = (b - span.2) * 86400 := by
      rw [safeTimegm_eq hvalid.shift.month, Tm.shift_timeOfDay, htime]
      omega
    rw [addPeriod_eq htm hread (by simp only; omega) (n := tm.month + span.1) (by simp only; omega), if_pos htarget,
      tmToUnix_of_inRange hshift, hreached]
    simp only
    rw [Binary64.wholeProduct_ofInt (by omega) (by decide), Binary64.wholeSum_ofInt (by omega) (by omega)]
    have hsum : (b - span.2) * 86400 + span.2 * 86400 = 86400 * b := by omega
    rw [hsum]
  have hexact : (Binary64.ofInt (86400 * b)).IsInteger (86400 * b) := by
    have hsize := hend.inRange
    rw [InRange] at hsize
    exact Binary64.isInteger_ofInt (by omega)
  exact ⟨⟨_, _, _⟩, hbetween, by simp only; omega, by simp only; omega, by simp only; omega, hdays, hfew, _, hadd,
    Binary64.ieeeEq_of_isInteger hexact hend.whole⟩

/-- The period from a midnight to an earlier one is not positive. -/
theorem betweenDates_of_gt (hstart : Midnight start a) (hend : Midnight finish b) (hgt : b < a) :
    ∃ p : PeriodParts, betweenDates clock start finish = .ok (makePeriodRecord p.years p.months p.days) ∧
      p.years ≤ 0 ∧ p.months ≤ 0 ∧ p.days ≤ 0 := by
  obtain ⟨tm, htm, hvalid, -, hday, -⟩ := hstart.date clock
  obtain ⟨tm', htm', hvalid', -, hday', -⟩ := hend.date clock
  obtain ⟨hmonths, hdays⟩ := spanBetween_of_ge hvalid hvalid' (by omega)
  have hnonneg : 0 ≤ -(spanBetween tm tm').1 := by omega
  have hyears := Int.tdiv_nonneg hnonneg (by decide : (0 : Int) ≤ 12)
  have hrest := Int.tmod_nonneg 12 hnonneg
  rw [Int.neg_tdiv] at hyears
  rw [Int.neg_tmod] at hrest
  exact ⟨⟨(spanBetween tm tm').1.tdiv 12, (spanBetween tm tm').1.tmod 12, (spanBetween tm tm').2⟩,
    betweenDates_eq htm htm', Int.nonpos_of_neg_nonneg hyears, Int.nonpos_of_neg_nonneg hrest, hdays⟩

end Midnights

end Luma.Datetime
