import Mathlib.Data.Nat.ModEq
import Mathlib.Tactic.IntervalCases
import Mathlib.Tactic.NormNum

/-! The clock that `time_init` reads at the start: the seven registers of the CMOS in
BCD, and the seconds since 1970 that time.c makes of them. -/

set_option autoImplicit false

namespace Onix

namespace Clock

def CMOS_SECOND : UInt8 := 0x00
def CMOS_MINUTE : UInt8 := 0x02
def CMOS_HOUR : UInt8 := 0x04
def CMOS_WEEKDAY : UInt8 := 0x06
def CMOS_DAY : UInt8 := 0x07
def CMOS_MONTH : UInt8 := 0x08
def CMOS_YEAR : UInt8 := 0x09
def CMOS_CENTURY : UInt8 := 0x32

def MINUTE : ℤ := 60
def HOUR : ℤ := 60 * MINUTE
def DAY : ℤ := 24 * HOUR
def YEAR : ℤ := 365 * DAY

/-- The days before each month of a leap year. -/
def month : List ℤ :=
  [0, 0, 31, 31 + 29, 31 + 29 + 31, 31 + 29 + 31 + 30, 31 + 29 + 31 + 30 + 31, 31 + 29 + 31 + 30 + 31 + 30,
    31 + 29 + 31 + 30 + 31 + 30 + 31, 31 + 29 + 31 + 30 + 31 + 30 + 31 + 31, 31 + 29 + 31 + 30 + 31 + 30 + 31 + 31 + 30,
    31 + 29 + 31 + 30 + 31 + 30 + 31 + 31 + 30 + 31, 31 + 29 + 31 + 30 + 31 + 30 + 31 + 31 + 30 + 31 + 30]

structure Tm where
  sec : ℤ
  min : ℤ
  hour : ℤ
  mday : ℤ
  mon : ℤ
  year : ℤ
  wday : ℤ
  yday : ℤ
  isdst : ℤ

/-- The years since 1970 of a two digit year. -/
def sinceSeventy (time : Tm) : ℤ := if 70 ≤ time.year then time.year - 70 else time.year - 70 + 100

/-- `month[i]`, of which the callers use the entries 1 to 12. -/
def monthAt (i : ℤ) : ℤ := month.getD i.toNat 0

/-- `mktime`; `time_t` and the `int` products wrap at 2^32. -/
def mktime (time : Tm) : UInt32 :=
  let year := sinceSeventy time
  let res := UInt32.ofInt (YEAR * year)
  let res := res + UInt32.ofInt (DAY * (year + 1).tdiv 4)
  let res := res + UInt32.ofInt (monthAt time.mon * DAY)
  let res := if 2 < time.mon ∧ (year + 2).tmod 4 ≠ 0 then res - UInt32.ofInt DAY else res
  let res := res + UInt32.ofInt (DAY * (time.mday - 1))
  let res := res + UInt32.ofInt (HOUR * time.hour)
  let res := res + UInt32.ofInt (MINUTE * time.min)
  res + UInt32.ofInt time.sec

def getYday (time : Tm) : ℤ :=
  let res := monthAt time.mon + time.mday
  if (sinceSeventy time + 2).tmod 4 ≠ 0 ∧ 2 < time.mon then res - 1 else res

/-- `bcd_to_bin` as C reads it: `&` binds weaker than `+`. -/
def bcdToBin (value : UInt8) : UInt8 := (((value >>> 4) &&& 0xf) * 10 + value) &&& 0xf

def binToBcd (value : UInt8) : UInt8 := ((value / 10) <<< 4) ||| (value % 10)

/-- The port of the CMOS: what each register shows when it is read the `n`-th time. -/
abbrev Cmos := ℕ → UInt8 → UInt8

/-- One round of the loop of `time_read_bcd`, from the `n`-th read on, with the century. -/
def readRound (cmos : Cmos) (time : Tm) (n : ℕ) : Tm × UInt8 :=
  ({ time with
      sec := (cmos n CMOS_SECOND).toNat
      min := (cmos (n + 1) CMOS_MINUTE).toNat
      hour := (cmos (n + 2) CMOS_HOUR).toNat
      wday := (cmos (n + 3) CMOS_WEEKDAY).toNat
      mday := (cmos (n + 4) CMOS_DAY).toNat
      mon := (cmos (n + 5) CMOS_MONTH).toNat
      year := (cmos (n + 6) CMOS_YEAR).toNat },
    cmos (n + 7) CMOS_CENTURY)

def timeReadBcd (cmos : Cmos) (time : Tm) : ℕ → ℕ → Option (Tm × UInt8)
  | 0, _ => none
  | fuel + 1, n =>
    let r := readRound cmos time n
    if r.1.sec ≠ (cmos (n + 8) CMOS_SECOND).toNat then timeReadBcd cmos r.1 fuel (n + 9) else some r

/-- A field of `tm` passed to `bcd_to_bin`. -/
def decode (field : ℤ) : ℤ := (bcdToBin (UInt8.ofInt field)).toNat

def timeRead (cmos : Cmos) (time : Tm) (fuel : ℕ) : Option (Tm × UInt8) := do
  let (time, century) ← timeReadBcd cmos time fuel 0
  let time := { time with
    sec := decode time.sec
    min := decode time.min
    hour := decode time.hour
    wday := decode time.wday
    mday := decode time.mday
    mon := decode time.mon
    year := decode time.year }
  some ({ time with yday := getYday time, isdst := -1 }, bcdToBin century)

/-- `startup_time` and `century` after `time_init`; `time` is the stack's garbage. -/
def timeInit (cmos : Cmos) (time : Tm) (fuel : ℕ) : Option (UInt32 × UInt8) := do
  let (time, century) ← timeRead cmos time fuel
  some (mktime time, century)

/-! ### The calendar -/

def isLeap (y : ℕ) : Bool := (y % 4 = 0 && y % 100 ≠ 0) || y % 400 = 0

def daysInMonth (y : ℕ) : ℕ → ℕ
  | 2 => if isLeap y then 29 else 28
  | 4 | 6 | 9 | 11 => 30
  | _ => 31

def daysInYear (y : ℕ) : ℕ := if isLeap y then 366 else 365

/-- The days from the start of 1970 to the start of `1970 + k`. -/
def daysToYear (k : ℕ) : ℕ := ((List.range k).map fun i => daysInYear (1970 + i)).sum

/-- The days of a year before its month `m`. -/
def daysToMonth (y m : ℕ) : ℕ := ((List.range (m - 1)).map fun i => daysInMonth y (i + 1)).sum

/-- A calendar date and time from 1970 to 2069. -/
structure Instant where
  year : ℕ
  mon : ℕ
  mday : ℕ
  hour : ℕ
  min : ℕ
  sec : ℕ
  year_le : 1970 ≤ year ∧ year ≤ 2069
  mon_le : 1 ≤ mon ∧ mon ≤ 12
  mday_le : 1 ≤ mday ∧ mday ≤ daysInMonth year mon
  hour_lt : hour < 24
  min_lt : min < 60
  sec_lt : sec < 60

/-- The seconds from 1970-01-01 00:00:00 to the instant. -/
def Instant.seconds (d : Instant) : ℕ :=
  86400 * (daysToYear (d.year - 1970) + daysToMonth d.year d.mon + (d.mday - 1)) + 3600 * d.hour + 60 * d.min + d.sec

/-- The registers show the instant in BCD, whatever the weekday and the century show, and stand still. -/
structure Presents (cmos : Cmos) (d : Instant) : Prop where
  sec : ∀ n, cmos n CMOS_SECOND = binToBcd (UInt8.ofNat d.sec)
  min : ∀ n, cmos n CMOS_MINUTE = binToBcd (UInt8.ofNat d.min)
  hour : ∀ n, cmos n CMOS_HOUR = binToBcd (UInt8.ofNat d.hour)
  mday : ∀ n, cmos n CMOS_DAY = binToBcd (UInt8.ofNat d.mday)
  mon : ∀ n, cmos n CMOS_MONTH = binToBcd (UInt8.ofNat d.mon)
  year : ∀ n, cmos n CMOS_YEAR = binToBcd (UInt8.ofNat (d.year % 100))

theorem isLeap_iff {k : ℕ} (hk : k < 100) : isLeap (1970 + k) = true ↔ (k + 2) % 4 = 0 := by
  have h : ∀ k < 100, isLeap (1970 + k) = true ↔ (k + 2) % 4 = 0 := by decide
  exact h k hk

theorem daysToYear_succ (k : ℕ) : daysToYear (k + 1) = daysToYear k + daysInYear (1970 + k) := by
  simp [daysToYear, List.range_succ]

theorem daysToYear_eq {k : ℕ} (hk : k < 100) : daysToYear k = 365 * k + (k + 1) / 4 := by
  induction k with
  | zero => rfl
  | succ k ih =>
    have hleap := isLeap_iff (k := k) (by omega)
    rw [daysToYear_succ, ih (by omega), daysInYear]
    split_ifs with h
    · have := hleap.mp h
      omega
    · have : (k + 2) % 4 ≠ 0 := fun hc => h (hleap.mpr hc)
      omega

/-- The table of time.c, less the leap day where `mktime` takes it off. -/
theorem daysToMonth_eq (y : ℕ) {m : ℕ} (hm : 1 ≤ m ∧ m ≤ 12) :
    (daysToMonth y m : ℤ) = monthAt m - (if 2 < m ∧ isLeap y = false then 1 else 0) := by
  obtain ⟨h1, h12⟩ := hm
  interval_cases m <;> cases h : isLeap y <;>
    simp [daysToMonth, daysInMonth, monthAt, month, List.range_succ, h]

theorem bcdToBin_binToBcd {v : ℕ} (hv : v < 100) : (bcdToBin (binToBcd (UInt8.ofNat v))).toNat = v % 16 := by
  have h : ∀ v < 100, (bcdToBin (binToBcd (UInt8.ofNat v))).toNat = v % 16 := by decide
  exact h v hv

theorem decode_toNat (b : UInt8) : decode b.toNat = (bcdToBin b).toNat := by
  have h : UInt8.ofInt b.toNat = b := by
    have := b.toNat_lt
    have hmod : ((b.toNat : ℤ) % 2 ^ 8).toNat = b.toNat := by omega
    rw [UInt8.ofInt, hmod, UInt8.ofNat_toNat]
  rw [decode, h]

/-- What `mktime` counts, before it wraps. -/
def count (time : Tm) : ℤ :=
  YEAR * sinceSeventy time + DAY * (sinceSeventy time + 1).tdiv 4 + monthAt time.mon * DAY -
    (if 2 < time.mon ∧ (sinceSeventy time + 2).tmod 4 ≠ 0 then DAY else 0) +
    DAY * (time.mday - 1) + HOUR * time.hour + MINUTE * time.min + time.sec

theorem ofInt_sub (x y : ℤ) : UInt32.ofInt (x - y) = UInt32.ofInt x - UInt32.ofInt y := by
  rw [Int.sub_eq_add_neg, UInt32.ofInt_add, UInt32.ofInt_neg, UInt32.sub_eq_add_neg]

theorem mktime_eq (time : Tm) : mktime time = UInt32.ofInt (count time) := by
  simp only [mktime, count, UInt32.ofInt_add, ofInt_sub]
  split_ifs
  · rfl
  · rw [show UInt32.ofInt 0 = 0 from rfl, UInt32.sub_zero]

theorem toNat_mktime {time : Tm} (h : 0 ≤ count time ∧ count time < 2 ^ 32) :
    ((mktime time).toNat : ℤ) = count time := by
  rw [mktime_eq, UInt32.ofInt, UInt32.toNat_ofNat']
  omega

/-- The fields of an instant, as `time_read` would find them if the BCD were right. -/
structure Shows (time : Tm) (d : Instant) : Prop where
  sec : time.sec = d.sec
  min : time.min = d.min
  hour : time.hour = d.hour
  mday : time.mday = d.mday
  mon : time.mon = d.mon
  year : time.year = (d.year % 100 : ℕ)

/-- The same with each field modulo sixteen, which is what `time_read` finds. -/
structure ShowsMod (time : Tm) (d : Instant) : Prop where
  sec : time.sec = (d.sec % 16 : ℕ)
  min : time.min = (d.min % 16 : ℕ)
  hour : time.hour = (d.hour % 16 : ℕ)
  mday : time.mday = (d.mday % 16 : ℕ)
  mon : time.mon = d.mon
  year : time.year = (d.year % 100 % 16 : ℕ)

theorem daysInMonth_le (y m : ℕ) : daysInMonth y m ≤ 31 := by
  unfold daysInMonth
  split
  · split_ifs <;> omega
  · omega
  · omega
  · omega
  · omega
  · omega

theorem timeRead_spec {cmos : Cmos} {d : Instant} (hp : Presents cmos d) (time : Tm) (fuel : ℕ) :
    ∃ r century, timeRead cmos time (fuel + 1) = some (r, century) ∧ ShowsMod r d := by
  have hday := daysInMonth_le d.year d.mon
  have hread : ∀ {b : UInt8} {v : ℕ}, v < 100 → b = binToBcd (UInt8.ofNat v) → decode b.toNat = (v % 16 : ℕ) := by
    intro b v hv hb
    rw [decode_toNat, hb, bcdToBin_binToBcd hv]
  have hsec := d.sec_lt
  have hmin := d.min_lt
  have hhour := d.hour_lt
  have hmday := d.mday_le
  have hmon := d.mon_le
  -- the second does not change, so that the loop ends after one round
  have hloop : timeReadBcd cmos time (fuel + 1) 0 = some (readRound cmos time 0) := by
    rw [timeReadBcd, if_neg]
    simp [readRound, hp.sec]
  refine ⟨_, _, by rw [timeRead, hloop]; rfl, ?_⟩
  refine ⟨hread (by omega) (hp.sec _), hread (by omega) (hp.min _), hread (by omega) (hp.hour _),
    hread (by omega) (hp.mday _), ?_, hread (by omega) (hp.year _)⟩
  apply (hread (by omega) (hp.mon _)).trans
  rw [Nat.mod_eq_of_lt (by omega)]

theorem tdiv_four {a : ℤ} {n : ℕ} (h : a = n) : a.tdiv 4 = (n / 4 : ℕ) := by
  subst h
  rfl

theorem tmod_four {a : ℤ} {n : ℕ} (h : a = n) : a.tmod 4 = (n % 4 : ℕ) := by
  subst h
  rfl

/-- What `mktime` counts for the year `1970 + k` of a sound month. -/
theorem count_eq {time : Tm} {k : ℕ} (hk : k < 100) (hy : sinceSeventy time = k) {m : ℕ} (hm : 1 ≤ m ∧ m ≤ 12)
    (hmon : time.mon = m) : count time = 86400 * (daysToYear k + daysToMonth (1970 + k) m + (time.mday - 1)) +
      3600 * time.hour + 60 * time.min + time.sec := by
  have hleap := isLeap_iff hk
  rw [count, hy, hmon, tdiv_four (n := k + 1) (by omega), tmod_four (n := k + 2) (by omega), daysToYear_eq hk,
    daysToMonth_eq _ hm]
  simp only [YEAR, DAY, HOUR, MINUTE]
  by_cases h : isLeap (1970 + k) = true
  · have := hleap.mp h
    rw [if_neg (by omega), if_neg (by simp [h])]
    omega
  · have : (k + 2) % 4 ≠ 0 := fun hc => h (hleap.mpr hc)
    have hb : isLeap (1970 + k) = false := by simpa using h
    by_cases h2 : 2 < m
    · rw [if_pos (by omega), if_pos ⟨h2, hb⟩]
      omega
    · rw [if_neg (by omega), if_neg (by omega)]
      omega

theorem daysToMonth_lt (y : ℕ) {m : ℕ} (hm : 1 ≤ m ∧ m ≤ 12) :
    daysToMonth y m + daysInMonth y m ≤ daysInYear y := by
  obtain ⟨h1, h12⟩ := hm
  interval_cases m <;> cases h : isLeap y <;>
    simp [daysToMonth, daysInMonth, daysInYear, List.range_succ, h]

theorem daysInYear_le (y : ℕ) : daysInYear y ≤ 366 := by
  unfold daysInYear
  split_ifs <;> omega

/-- An instant lies within its year. -/
theorem Instant.seconds_in (d : Instant) : 86400 * daysToYear (d.year - 1970) ≤ d.seconds ∧
    d.seconds < 86400 * (daysToYear (d.year - 1970) + 366) := by
  have hm := daysToMonth_lt d.year d.mon_le
  have hy := daysInYear_le d.year
  have hmday := d.mday_le
  have hhour := d.hour_lt
  have hmin := d.min_lt
  have hsec := d.sec_lt
  unfold Instant.seconds
  omega

theorem Instant.seconds_lt (d : Instant) : d.seconds < 4294967296 := by
  have hle := d.year_le
  have h := d.seconds_in.2
  have hdays : daysToYear (d.year - 1970) ≤ 36160 := by
    rw [daysToYear_eq (by omega)]
    omega
  calc d.seconds < 86400 * (daysToYear (d.year - 1970) + 366) := h
    _ ≤ 86400 * (36160 + 366) := Nat.mul_le_mul_left _ (Nat.add_le_add_right hdays _)
    _ < 4294967296 := by norm_num

/-- Below sixteen the fields that `time_read` finds are those of the instant. -/
def Small (d : Instant) : Prop := d.sec < 16 ∧ d.min < 16 ∧ d.hour < 16 ∧ d.mday < 16 ∧ d.year % 100 < 16

/-- `mktime` is right on the fields of an instant. -/
theorem mktime_right {time : Tm} {d : Instant} (h : Shows time d) : (mktime time).toNat = d.seconds := by
  obtain ⟨k, hk⟩ : ∃ k, d.year = 1970 + k := ⟨d.year - 1970, by have := d.year_le; omega⟩
  have hle := d.year_le
  have hday := d.mday_le
  have hcount : count time = d.seconds := by
    have hy : sinceSeventy time = k := by
      rw [sinceSeventy, h.year]
      split_ifs <;> omega
    rw [count_eq (by omega) hy d.mon_le h.mon, h.sec, h.min, h.hour, h.mday, Instant.seconds, hk,
      Nat.add_sub_cancel_left]
    omega
  have hlt := d.seconds_lt
  have := @toNat_mktime time (by omega)
  omega

/-- A two digit year of sixteen or more is read as one of 2000 to 2015, which is years away. -/
theorem year_of_mod {time : Tm} {d : Instant} (h : ShowsMod time d) :
    ∃ k', 30 ≤ k' ∧ k' < 100 ∧ sinceSeventy time = (k' : ℕ) ∧ (k' = d.year - 1970 ↔ d.year % 100 < 16) ∧
      (k' ≠ d.year - 1970 → k' + 16 ≤ d.year - 1970 ∨ d.year - 1970 + 4 ≤ k') := by
  obtain ⟨h1970, h2069⟩ := d.year_le
  have hyear : d.year % 100 = if d.year < 2000 then d.year - 1900 else d.year - 2000 := by
    split_ifs <;> omega
  refine ⟨d.year % 100 % 16 + 30, by omega, by omega, ?_, ?_, ?_⟩
  · rw [sinceSeventy, h.year]
    split_ifs <;> omega
  · rw [hyear]
    split_ifs <;> omega
  · rw [hyear]
    split_ifs <;> omega

/-- The fields that `time_read` finds give the instant only if all of them are small. -/
theorem mktime_mod {time : Tm} {d : Instant} (h : ShowsMod time d) : (mktime time).toNat = d.seconds ↔ Small d := by
  constructor
  · intro he
    obtain ⟨k', h30, hk', hy, hiff, hfar⟩ := year_of_mod h
    have hle := d.year_le
    have hin := d.seconds_in
    have hcount := count_eq hk' hy d.mon_le h.mon
    rw [h.sec, h.min, h.hour, h.mday] at hcount
    have hdm := daysToMonth_lt (1970 + k') d.mon_le
    have hdy := daysInYear_le (1970 + k')
    have hdays := daysToYear_eq hk'
    have hreal := daysToYear_eq (k := d.year - 1970) (by omega)
    have hnat := @toNat_mktime time (by omega)
    rw [he] at hnat
    have hsame : k' = d.year - 1970 := by
      by_contra hne
      have := hfar hne
      omega
    have hmon : daysToMonth (1970 + k') d.mon = daysToMonth d.year d.mon := by
      rw [hsame, Nat.add_sub_cancel' hle.1]
    have hmday := d.mday_le
    unfold Instant.seconds at hnat
    rw [hcount, hmon, hsame] at hnat
    refine ⟨?_, ?_, ?_, ?_, hiff.mp hsame⟩ <;> omega
  · rintro ⟨hs, hm, hh, hd, hy⟩
    refine mktime_right ⟨?_, ?_, ?_, ?_, h.mon, ?_⟩
    · rw [h.sec, Nat.mod_eq_of_lt hs]
    · rw [h.min, Nat.mod_eq_of_lt hm]
    · rw [h.hour, Nat.mod_eq_of_lt hh]
    · rw [h.mday, Nat.mod_eq_of_lt hd]
    · rw [h.year, Nat.mod_eq_of_lt hy]

/-- `time_init` sets the clock right exactly for the instants without a field of sixteen or more but the month. -/
theorem time_init_right_iff (cmos : Cmos) (d : Instant) (hp : Presents cmos d) (time : Tm) (fuel : ℕ) :
    (∃ t century, timeInit cmos time (fuel + 1) = some (t, century) ∧ t.toNat = d.seconds) ↔
      d.sec < 16 ∧ d.min < 16 ∧ d.hour < 16 ∧ d.mday < 16 ∧ d.year % 100 < 16 := by
  obtain ⟨r, c, hr, hs⟩ := timeRead_spec hp time fuel
  have hi : timeInit cmos time (fuel + 1) = some (mktime r, c) := by
    rw [timeInit, hr]
    rfl
  rw [hi, ← Small, ← mktime_mod hs]
  constructor
  · rintro ⟨t, century, ht, he⟩
    rw [Option.some.injEq, Prod.mk.injEq] at ht
    rw [ht.1]
    exact he
  · intro he
    exact ⟨_, _, rfl, he⟩

/-- The registers of an instant on a Sunday of the twenty-first century. -/
def registers (d : Instant) : Cmos := fun _ a =>
  if a = CMOS_SECOND then binToBcd (UInt8.ofNat d.sec) else if a = CMOS_MINUTE then binToBcd (UInt8.ofNat d.min)
  else if a = CMOS_HOUR then binToBcd (UInt8.ofNat d.hour) else if a = CMOS_DAY then binToBcd (UInt8.ofNat d.mday)
  else if a = CMOS_MONTH then binToBcd (UInt8.ofNat d.mon)
  else if a = CMOS_YEAR then binToBcd (UInt8.ofNat (d.year % 100))
  else if a = CMOS_WEEKDAY then 1 else 0x20

theorem registers_presents (d : Instant) : Presents (registers d) d :=
  ⟨fun _ => rfl, fun _ => rfl, fun _ => rfl, fun _ => rfl, fun _ => rfl, fun _ => rfl⟩

/-- 2015-12-15 07:15:09. -/
def december : Instant :=
  ⟨2015, 12, 15, 7, 15, 9, by decide, by decide, by decide, by decide, by decide, by decide⟩

/-- 2024-01-01 00:00:00. -/
def newYear : Instant :=
  ⟨2024, 1, 1, 0, 0, 0, by decide, by decide, by decide, by decide, by decide, by decide⟩

def noTime : Tm := ⟨0, 0, 0, 0, 0, 0, 0, 0, 0⟩

theorem time_init_right_december :
    ∃ t century, timeInit (registers december) noTime 1 = some (t, century) ∧ t.toNat = december.seconds :=
  (time_init_right_iff _ december (registers_presents _) noTime 0).mpr (by decide)

/-- At the start of 2024 the clock says 2008. -/
theorem time_init_wrong : ¬∀ (cmos : Cmos) (d : Instant), Presents cmos d → ∀ time fuel,
    ∃ t century, timeInit cmos time (fuel + 1) = some (t, century) ∧ t.toNat = d.seconds := by
  intro hall
  obtain ⟨t, century, hi, ht⟩ := hall _ newYear (registers_presents _) noTime 0
  have hread : timeInit (registers newYear) noTime 1 = some (1199145600, 4) := by decide
  have hnew : newYear.seconds = 1704067200 := by decide
  rw [hread, Option.some.injEq, Prod.mk.injEq] at hi
  rw [← hi.1, hnew] at ht
  exact absurd ht (by decide)

end Clock

end Onix
