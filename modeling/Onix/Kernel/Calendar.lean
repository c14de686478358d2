import Mathlib.Data.List.Basic
import Mathlib.Order.Monotone.Basic
import Onix.Kernel.Clock

/-! `mktime` against the calendar, and `localtime` against `mktime`. The kernel and the library
have the same text of `localtime`. -/

set_option autoImplicit false

namespace Onix

namespace Clock

/-- The days from 1970-01-01 to the date of the instant. -/
def Instant.days (d : Instant) : ℕ := daysToYear (d.year - 1970) + daysToMonth d.year d.mon + (d.mday - 1)

/-- 1970-01-01 was a Thursday, and Sunday is 0. -/
def Instant.weekday (d : Instant) : ℕ := (4 + d.days) % 7

/-- One instant is before another by the fields from the year to the second. -/
def Earlier (d e : Instant) : Prop :=
  [d.year, d.mon, d.mday, d.hour, d.min, d.sec] < [e.year, e.mon, e.mday, e.hour, e.min, e.sec]

/-- The second after an instant, within its minute or at the end of a minute, an hour, a day, a month or a year. -/
inductive Next (d e : Instant) : Prop
  | second (hsec : e.sec = d.sec + 1) (hmin : e.min = d.min) (hhour : e.hour = d.hour) (hday : e.mday = d.mday)
      (hmon : e.mon = d.mon) (hyear : e.year = d.year)
  | minute (hend : d.sec = 59) (hsec : e.sec = 0) (hmin : e.min = d.min + 1) (hhour : e.hour = d.hour)
      (hday : e.mday = d.mday) (hmon : e.mon = d.mon) (hyear : e.year = d.year)
  | hour (hend : d.min = 59 ∧ d.sec = 59) (hsec : e.sec = 0) (hmin : e.min = 0) (hhour : e.hour = d.hour + 1)
      (hday : e.mday = d.mday) (hmon : e.mon = d.mon) (hyear : e.year = d.year)
  | day (hend : d.hour = 23 ∧ d.min = 59 ∧ d.sec = 59) (hsec : e.sec = 0) (hmin : e.min = 0) (hhour : e.hour = 0)
      (hday : e.mday = d.mday + 1) (hmon : e.mon = d.mon) (hyear : e.year = d.year)
  | month (hend : d.mday = daysInMonth d.year d.mon ∧ d.hour = 23 ∧ d.min = 59 ∧ d.sec = 59) (hsec : e.sec = 0)
      (hmin : e.min = 0) (hhour : e.hour = 0) (hday : e.mday = 1) (hmon : e.mon = d.mon + 1) (hyear : e.year = d.year)
  | year (hend : d.mon = 12 ∧ d.mday = 31 ∧ d.hour = 23 ∧ d.min = 59 ∧ d.sec = 59) (hsec : e.sec = 0)
      (hmin : e.min = 0) (hhour : e.hour = 0) (hday : e.mday = 1) (hmon : e.mon = 1) (hyear : e.year = d.year + 1)

theorem daysToMonth_succ (y : ℕ) {m : ℕ} (hm : 1 ≤ m) : daysToMonth y (m + 1) = daysToMonth y m + daysInMonth y m := by
  obtain ⟨j, rfl⟩ := Nat.exists_eq_add_of_le' hm
  simp [daysToMonth, List.range_succ]

theorem daysToYear_mono : Monotone daysToYear :=
  monotone_nat_of_le_succ fun k => by rw [daysToYear_succ]; exact Nat.le_add_right _ _

theorem daysToMonth_mono (y : ℕ) : Monotone fun j => daysToMonth y (j + 1) :=
  monotone_nat_of_le_succ fun j => by
    show daysToMonth y (j + 1) ≤ daysToMonth y (j + 1 + 1)
    rw [daysToMonth_succ y (Nat.le_add_left 1 j)]
    exact Nat.le_add_right _ _

theorem Instant.seconds_eq (d : Instant) : d.seconds = 86400 * d.days + 3600 * d.hour + 60 * d.min + d.sec := rfl

/-- An earlier month ends before a later one starts. -/
theorem daysToMonth_of_lt (y : ℕ) {m m' : ℕ} (hm : 1 ≤ m) (h : m < m') :
    daysToMonth y m + daysInMonth y m ≤ daysToMonth y m' := by
  obtain ⟨j, rfl⟩ := Nat.exists_eq_add_of_lt h
  rw [← daysToMonth_succ y hm]
  exact daysToMonth_mono y (Nat.le_add_right m j)

theorem daysToYear_of_lt {y y' : ℕ} (hy : 1970 ≤ y) (h : y < y') :
    daysToYear (y - 1970) + daysInYear y ≤ daysToYear (y' - 1970) := by
  have hsucc := daysToYear_succ (y - 1970)
  rw [Nat.add_sub_cancel' hy] at hsucc
  rw [← hsucc]
  exact daysToYear_mono (by omega)

theorem seconds_of_day {d e : Instant} (h : d.days < e.days) : d.seconds < e.seconds := by
  have hhour := d.hour_lt
  have hmin := d.min_lt
  have hsec := d.sec_lt
  rw [d.seconds_eq, e.seconds_eq]
  omega

/-- The order of the fields is the order of the seconds. -/
theorem seconds_of_earlier {d e : Instant} (h : Earlier d e) : d.seconds < e.seconds := by
  have hday := d.mday_le
  have hday' := e.mday_le
  simp only [Earlier, List.cons_lt_cons_iff, List.not_lt_nil, and_false, or_false] at h
  rcases h with hy | ⟨hy, hm | ⟨hm, hd | ⟨hd, ht⟩⟩⟩
  · apply seconds_of_day
    have hyear := daysToYear_of_lt d.year_le.1 hy
    have hin := daysToMonth_lt d.year d.mon_le
    unfold Instant.days
    omega
  · apply seconds_of_day
    have hmon := daysToMonth_of_lt d.year d.mon_le.1 hm
    unfold Instant.days
    rw [hy] at hmon hday ⊢
    omega
  · apply seconds_of_day
    unfold Instant.days
    rw [hy, hm]
    omega
  · have hsame : d.days = e.days := by unfold Instant.days; rw [hy, hm, hd]
    have hmin := d.min_lt
    have hsec := d.sec_lt
    rw [d.seconds_eq, e.seconds_eq, hsame]
    omega

/-- The days of two dates of one month. -/
theorem days_of_month {d e : Instant} (hmon : e.mon = d.mon) (hyear : e.year = d.year) :
    e.days = d.days + e.mday - d.mday := by
  have hday := d.mday_le
  have hday' := e.mday_le
  unfold Instant.days
  rw [hmon, hyear]
  omega

theorem seconds_of_next {d e : Instant} (h : Next d e) : e.seconds = d.seconds + 1 := by
  have hday := d.mday_le
  rw [d.seconds_eq, e.seconds_eq]
  cases h with
  | second hsec hmin hhour hday hmon hyear =>
    have hdays := days_of_month hmon hyear
    omega
  | minute hend hsec hmin hhour hday hmon hyear =>
    have hdays := days_of_month hmon hyear
    omega
  | hour hend hsec hmin hhour hday hmon hyear =>
    have hdays := days_of_month hmon hyear
    omega
  | day hend hsec hmin hhour hday hmon hyear =>
    have hdays := days_of_month hmon hyear
    omega
  | month hend hsec hmin hhour hday' hmon hyear =>
    have hdays : e.days = d.days + 1 := by
      unfold Instant.days
      rw [hmon, hyear, hday', daysToMonth_succ _ d.mon_le.1]
      omega
    omega
  | year hend hsec hmin hhour hday' hmon hyear =>
    have hdays : e.days = d.days + 1 := by
      have hlen : daysToMonth d.year 12 + 31 = daysInYear d.year := by
        cases hl : isLeap d.year <;> simp [daysToMonth, daysInMonth, daysInYear, List.range_succ, hl]
      have hyears := daysToYear_succ (d.year - 1970)
      have hle := d.year_le.1
      rw [Nat.add_sub_cancel' hle] at hyears
      unfold Instant.days
      rw [hmon, hyear, hday', hend.1, show d.year + 1 - 1970 = d.year - 1970 + 1 by omega, hyears,
        show daysToMonth (d.year + 1) 1 = 0 from rfl]
      omega
    omega

/-- `mktime` counts the seconds of the calendar, one more from each second to the next and more for a later time. -/
theorem mktime_calendar {time time' : Tm} {d e : Instant} (h : Shows time d) (h' : Shows time' e) :
    (mktime time).toNat = d.seconds ∧ (Next d e → (mktime time').toNat = (mktime time).toNat + 1) ∧
      (Earlier d e → mktime time < mktime time') := by
  rw [UInt32.lt_iff_toNat_lt, mktime_right h, mktime_right h']
  exact ⟨rfl, seconds_of_next, seconds_of_earlier⟩

/-- The `tm` of an instant. -/
def broken (d : Instant) : Tm := ⟨d.sec, d.min, d.hour, d.mday, d.mon, (d.year % 100 : ℕ), 0, 0, -1⟩

theorem broken_shows (d : Instant) : Shows (broken d) d := ⟨rfl, rfl, rfl, rfl, rfl, rfl⟩

/-- 2000-02-28 23:59:59. -/
def leapEve : Instant :=
  ⟨2000, 2, 28, 23, 59, 59, by decide, by decide, by decide, by decide, by decide, by decide⟩

theorem midnight_hour : 0 < 24 := by
  decide

theorem midnight_sixty : 0 < 60 := by
  decide

/-- 2000-02-29 00:00:00. -/
def leapDay : Instant :=
  ⟨2000, 2, 29, 0, 0, 0, by decide, by decide, by decide, midnight_hour, midnight_sixty, midnight_sixty⟩

theorem mktime_calendar_leap : (mktime (broken leapEve)).toNat = leapEve.seconds ∧
    (mktime (broken leapDay)).toNat = (mktime (broken leapEve)).toNat + 1 ∧
      mktime (broken leapEve) < mktime (broken leapDay) := by
  have h := mktime_calendar (broken_shows leapEve) (broken_shows leapDay)
  exact ⟨h.1, h.2.1 (.day ⟨rfl, rfl, rfl⟩ rfl rfl rfl rfl rfl rfl), h.2.2 (by unfold Earlier; decide)⟩

/-! ### `localtime` -/

def elapsedLeapYears (year : ℤ) : ℤ :=
  let result := (year - 1).tdiv 4
  let result := result - (year - 1).tdiv 100
  let result := result + (year + 299).tdiv 400
  result - (1970 - 1900 : ℤ).tdiv 4

/-- A year since 1900. -/
def isLeapYear (year : ℤ) : Bool :=
  (year.tmod 4 = 0 && year.tmod 100 ≠ 0) || (year + 1900).tmod 400 = 0

/-- `mon` after the loop of `localtime`: the first month that starts after the day, else 13. -/
def searchMonth (offset yday : ℤ) : ℕ :=
  ((List.range' 1 12).find? fun mon : ℕ => decide (yday < monthAt mon - offset)).getD 13

/-- `localtime`, which leaves `tm_isdst` alone. -/
def localtime (stamp : UInt32) (time : Tm) : Tm :=
  let remain := stamp / 60
  let days := remain / 60 / 24
  let years : ℤ := (days / 365).toNat + 70
  let offset : ℤ := if isLeapYear years then 0 else 1
  let rest := days - UInt32.ofInt (elapsedLeapYears years)
  let yday : ℤ := (rest % UInt32.ofInt (366 - offset)).toNat
  let mon : ℤ := searchMonth offset yday - 1
  { time with
    sec := (stamp % 60).toNat
    min := (remain % 60).toNat
    hour := (remain / 60 % 24).toNat
    wday := ((days + 4) % 7).toNat
    year := years
    yday := yday
    mon := mon
    mday := yday - monthAt mon + offset + 1 }

/-- What `localtime` should give back for an instant. -/
structure Restores (time : Tm) (d : Instant) : Prop where
  sec : time.sec = d.sec
  min : time.min = d.min
  hour : time.hour = d.hour
  mday : time.mday = d.mday
  mon : time.mon = d.mon
  year : time.year % 100 = (d.year % 100 : ℕ)
  wday : time.wday = d.weekday

/-- The leap days before the year `1970 + k`. -/
theorem elapsedLeapYears_eq {k : ℕ} (hk : k ≤ 100) : elapsedLeapYears (k + 70) = ((k + 1) / 4 : ℕ) := by
  have h : ∀ k ≤ 100, elapsedLeapYears ((k : ℕ) + 70) = ((k + 1) / 4 : ℕ) := by decide
  exact h k hk

theorem isLeapYear_eq {k : ℕ} (hk : k ≤ 100) : isLeapYear (k + 70) = isLeap (1970 + k) := by
  have h : ∀ k ≤ 100, isLeapYear ((k : ℕ) + 70) = isLeap (1970 + k) := by decide
  exact h k hk

theorem Instant.days_eq (d : Instant) : d.days = 365 * (d.year - 1970) + (d.year - 1970 + 1) / 4 +
    (daysToMonth d.year d.mon + (d.mday - 1)) := by
  have hle := d.year_le
  rw [Instant.days, daysToYear_eq (by omega), Nat.add_assoc]

/-- The day of the year, from zero. -/
def Instant.dayOfYear (d : Instant) : ℕ := daysToMonth d.year d.mon + (d.mday - 1)

theorem Instant.dayOfYear_lt (d : Instant) : d.dayOfYear < daysInYear d.year := by
  have hlt := daysToMonth_lt d.year d.mon_le
  have hday := d.mday_le
  unfold Instant.dayOfYear
  omega

/-- The year that `localtime` estimates: that of the instant, or the next one when the leap days since 1970 and
the day of the year come to a year. -/
theorem Instant.estimate (d : Instant) : d.days / 365 =
    if (d.year - 1970 + 1) / 4 + d.dayOfYear < 365 then d.year - 1970 else d.year - 1970 + 1 := by
  have hle := d.year_le
  have hlt := d.dayOfYear_lt
  have hyear := daysInYear_le d.year
  have hdays := d.days_eq
  rw [← Instant.dayOfYear] at hdays
  split_ifs <;> omega

/-- `offset` of `localtime` in the year `1970 + k`. -/
def offsetOf (k : ℕ) : ℕ := if isLeap (1970 + k) then 0 else 1

/-- `tm_yday` as `localtime` finds it. -/
def ydayOf (days : ℕ) : ℕ := (days - (days / 365 + 1) / 4) % (366 - offsetOf (days / 365))

/-- What `localtime` finds for an instant: the time and the weekday are right. -/
theorem localtime_fields {stamp : UInt32} {d : Instant} (h : stamp.toNat = d.seconds) (time : Tm) :
    localtime stamp time = { time with
      sec := d.sec
      min := d.min
      hour := d.hour
      wday := d.weekday
      year := (d.days / 365 : ℕ) + 70
      yday := ydayOf d.days
      mon := searchMonth (offsetOf (d.days / 365)) (ydayOf d.days) - 1
      mday := ydayOf d.days - monthAt (searchMonth (offsetOf (d.days / 365)) (ydayOf d.days) - 1) +
        offsetOf (d.days / 365) + 1 } := by
  have hhour := d.hour_lt
  have hmin := d.min_lt
  have hsec := d.sec_lt
  have hle := d.year_le
  have hlt := d.dayOfYear_lt
  have hyear := daysInYear_le d.year
  have hdays := d.days_eq
  rw [← Instant.dayOfYear] at hdays
  rw [d.seconds_eq] at h
  have hd : (stamp / 60 / 60 / 24).toNat = d.days := by
    simp only [UInt32.toNat_div, UInt32.reduceToNat]
    omega
  have hk : (stamp / 60 / 60 / 24 / 365).toNat = d.days / 365 := by
    rw [UInt32.toNat_div, hd]
    rfl
  have hleap := isLeapYear_eq (k := d.days / 365) (by omega)
  have hoff : (if isLeapYear ((d.days / 365 : ℕ) + 70) then (0 : ℤ) else 1) = offsetOf (d.days / 365) := by
    rw [hleap, offsetOf]
    split_ifs <;> rfl
  have hrest : (stamp / 60 / 60 / 24 - UInt32.ofInt (elapsedLeapYears ((d.days / 365 : ℕ) + 70))).toNat =
      d.days - (d.days / 365 + 1) / 4 := by
    have he : (UInt32.ofInt (elapsedLeapYears ((d.days / 365 : ℕ) + 70))).toNat = (d.days / 365 + 1) / 4 := by
      rw [elapsedLeapYears_eq (by omega), UInt32.ofInt, UInt32.toNat_ofNat']
      omega
    rw [UInt32.toNat_sub_of_le _ _ (by rw [UInt32.le_iff_toNat_le]; omega), he, hd]
  have hmod : (UInt32.ofInt (366 - (offsetOf (d.days / 365) : ℤ))).toNat = 366 - offsetOf (d.days / 365) := by
    unfold offsetOf
    split_ifs <;> rfl
  have hyday : ((stamp / 60 / 60 / 24 - UInt32.ofInt (elapsedLeapYears ((d.days / 365 : ℕ) + 70))) %
      UInt32.ofInt (366 - (offsetOf (d.days / 365) : ℤ))).toNat = ydayOf d.days := by
    rw [UInt32.toNat_mod, hrest, hmod, ydayOf]
  have hs : (stamp % 60).toNat = d.sec := by
    rw [UInt32.toNat_mod]
    simp only [UInt32.reduceToNat]
    omega
  have hm : (stamp / 60 % 60).toNat = d.min := by
    rw [UInt32.toNat_mod, UInt32.toNat_div]
    simp only [UInt32.reduceToNat]
    omega
  have hh : (stamp / 60 / 60 % 24).toNat = d.hour := by
    rw [UInt32.toNat_mod, UInt32.toNat_div, UInt32.toNat_div]
    simp only [UInt32.reduceToNat]
    omega
  have hw : ((stamp / 60 / 60 / 24 + 4) % 7).toNat = d.weekday := by
    rw [UInt32.toNat_mod, UInt32.toNat_add, hd, Instant.weekday, Nat.add_comm 4]
    simp only [UInt32.reduceToNat]
    rw [Nat.mod_eq_of_lt (show d.days + 4 < 2 ^ 32 by omega)]
  simp only [localtime, hk, hoff, hyday, hs, hm, hh, hw]

/-- With the estimate right, only the years since 1970 are left in the day of the year. -/
theorem Instant.ydayOf_eq (d : Instant) (hest : d.days / 365 = d.year - 1970) :
    ydayOf d.days = (365 * (d.year - 1970) + d.dayOfYear) % (366 - offsetOf (d.year - 1970)) := by
  have hdays := d.days_eq
  rw [← Instant.dayOfYear] at hdays
  rw [ydayOf, hest]
  congr 1
  omega

/-- In a leap year the years since 1970 move the day of the year. -/
theorem yday_ne {k : ℕ} (hk : 0 < k) (hlt : k < 366) (doy : ℕ) : (365 * k + doy) % 366 ≠ doy := by
  omega

/-- Where the search ends: at the first month that starts after the day. -/
theorem searchMonth_eq {offset yday : ℤ} {m : ℕ} (hm : 1 ≤ m ∧ m ≤ 12) (hle : monthAt m - offset ≤ yday)
    (hlt : m < 12 → yday < monthAt (m + 1 : ℕ) - offset) : searchMonth offset yday = m + 1 := by
  have hmono : ∀ j ≤ 12, ∀ i ≤ j, monthAt (i : ℕ) ≤ monthAt (j : ℕ) := by decide
  unfold searchMonth
  by_cases h12 : m < 12
  · have hfind : (List.range' 1 12).find? (fun mon : ℕ => decide (yday < monthAt mon - offset)) = some (m + 1) := by
      rw [List.find?_range'_eq_some]
      refine ⟨by simpa using hlt h12, by simp; omega, fun j h1 hj => ?_⟩
      have := hmono m hm.2 j (by omega)
      simp only [Bool.not_eq_true', decide_eq_false_iff_not]
      omega
    rw [hfind]
    rfl
  · have hfind : (List.range' 1 12).find? (fun mon : ℕ => decide (yday < monthAt mon - offset)) = none := by
      rw [List.find?_range'_eq_none]
      intro j h1 hj
      have := hmono m hm.2 j (by omega)
      simp only [Bool.not_eq_true', decide_eq_false_iff_not]
      omega
    rw [hfind]
    show 13 = m + 1
    omega

/-- A common year from March on: the shifted table is right. -/
theorem localtime_restores {time : Tm} {d : Instant} (h : Shows time d) (time' : Tm) (hl : isLeap d.year = false)
    (hm : 3 ≤ d.mon) (hbefore : (d.year - 1970 + 1) / 4 + d.dayOfYear < 365) :
    Restores (localtime (mktime time) time') d := by
  have hle := d.year_le
  have hlt := d.dayOfYear_lt
  have hday := d.mday_le
  have hmon := d.mon_le
  have hdays := d.days_eq
  have hest := d.estimate
  have hmonth := daysToMonth_eq d.year d.mon_le
  rw [← Instant.dayOfYear] at hdays
  have hdoy : d.dayOfYear = daysToMonth d.year d.mon + (d.mday - 1) := rfl
  rw [localtime_fields (mktime_right h)]
  rw [if_pos hbefore] at hest
  have hyday := d.ydayOf_eq hest
  simp only [hl, and_true] at hmonth
  rw [if_pos (by omega)] at hmonth
  simp only [daysInYear, hl, Bool.false_eq_true, if_false] at hlt
  simp only [offsetOf, Nat.add_sub_cancel' hle.1, hl, Bool.false_eq_true, if_false] at hyday
  have hsame : ydayOf d.days = d.dayOfYear := by omega
  have hsearch : searchMonth (offsetOf (d.days / 365)) (ydayOf d.days) = d.mon + 1 := by
    rw [hsame, hest, offsetOf, Nat.add_sub_cancel' hle.1, hl]
    apply searchMonth_eq hmon
    · show monthAt d.mon - 1 ≤ (d.dayOfYear : ℤ)
      omega
    · intro h12
      have hnext := daysToMonth_eq d.year (m := d.mon + 1) (by omega)
      rw [if_pos ⟨by omega, hl⟩, daysToMonth_succ _ hmon.1] at hnext
      show (d.dayOfYear : ℤ) < monthAt (d.mon + 1 : ℕ) - 1
      omega
  have hmon' : ((searchMonth (offsetOf (d.days / 365)) (ydayOf d.days) : ℤ) - 1) = d.mon := by
    rw [hsearch]
    omega
  rw [hmon', hsame, hest]
  refine ⟨rfl, rfl, rfl, ?_, rfl, ?_, rfl⟩
  · show (d.dayOfYear : ℤ) - monthAt d.mon + offsetOf (d.year - 1970) + 1 = d.mday
    rw [offsetOf, Nat.add_sub_cancel' hle.1, hl]
    simp only [Bool.false_eq_true, if_false]
    omega
  · show ((d.year - 1970 : ℕ) + 70 : ℤ) % 100 = (d.year % 100 : ℕ)
    omega

/-- The days of `localtime` are right exactly in a common year from March on, before the leap days since 1970 push
the estimate into the next year. -/
theorem localtime_iff {time : Tm} {d : Instant} (h : Shows time d) (time' : Tm) :
    Restores (localtime (mktime time) time') d ↔
      isLeap d.year = false ∧ 3 ≤ d.mon ∧
        (d.year - 1970 + 1) / 4 + (daysToMonth d.year d.mon + (d.mday - 1)) < 365 := by
  have hle := d.year_le
  have hlt := d.dayOfYear_lt
  have hday := d.mday_le
  have hmon := d.mon_le
  have hdays := d.days_eq
  have hest := d.estimate
  have hleap := isLeap_iff (k := d.year - 1970) (by omega)
  have hmonth := daysToMonth_eq d.year d.mon_le
  rw [Nat.add_sub_cancel' hle.1] at hleap
  rw [← Instant.dayOfYear] at hdays ⊢
  have hdoy : d.dayOfYear = daysToMonth d.year d.mon + (d.mday - 1) := rfl
  constructor
  · intro hr
    rw [localtime_fields (mktime_right h)] at hr
    obtain ⟨-, -, -, hmday, hm, hy, -⟩ := hr
    simp only at hmday hm hy
    have hbefore : (d.year - 1970 + 1) / 4 + d.dayOfYear < 365 := by
      by_contra hc
      rw [if_neg hc] at hest
      omega
    rw [if_pos hbefore] at hest
    rw [hm, hest] at hmday
    have hyday := d.ydayOf_eq hest
    cases hl : isLeap d.year with
    | true =>
      -- the day of the year comes out as many days early as there are years since 1970
      have hfourth := hleap.mp hl
      have hyears : 0 < d.year - 1970 ∧ d.year - 1970 < 366 := by
        clear * - hfourth hle
        omega
      simp only [offsetOf, Nat.add_sub_cancel' hle.1, hl, if_true] at hmday hyday
      simp only [hl, Bool.true_eq_false, and_false, if_false] at hmonth
      refine absurd ?_ (yday_ne hyears.1 hyears.2 d.dayOfYear)
      rw [Nat.sub_zero] at hyday
      rw [← hyday]
      clear * - hmday hmonth hdoy hday
      omega
    | false =>
      simp only [offsetOf, Nat.add_sub_cancel' hle.1, hl, Bool.false_eq_true, if_false] at hmday hyday
      simp only [hl, and_true] at hmonth
      refine ⟨rfl, ?_, hbefore⟩
      by_contra hc
      rw [if_neg (by omega)] at hmonth
      simp only [daysInYear, hl, Bool.false_eq_true, if_false] at hlt
      omega
  · rintro ⟨hl, hm, hbefore⟩
    exact localtime_restores h time' hl hm hbefore

/-- 2023-03-01 12:30:45. -/
def march : Instant :=
  ⟨2023, 3, 1, 12, 30, 45, by decide, by decide, by decide, by decide, by decide, by decide⟩

theorem localtime_iff_march : Restores (localtime (mktime (broken march)) noTime) march :=
  (localtime_iff (broken_shows march) noTime).mpr (by decide)

/-- The leap day of 2000 comes back as the thirtieth of January. -/
theorem localtime_wrong : ¬∀ (time : Tm) (d : Instant), Shows time d → ∀ time',
    Restores (localtime (mktime time) time') d := by
  intro hall
  have h := (hall _ leapDay (broken_shows _) noTime).mday
  rw [show (localtime (mktime (broken leapDay)) noTime).mday = 30 by decide] at h
  exact absurd h (by decide)

end Clock

end Onix
