import Mathlib.Data.Int.Notation
import Mathlib.Tactic.IntervalCases
import LampUserspace.Calendar.Civil

/-! # Calendar time

`localtime_r` and `mktime` of `libc_time.c`. `time_t` and `unsigned` are 32-bit
unsigned integers, `int` and `int64_t` are integers with the narrowing
conversions written out, and a null pointer is `none`.
-/

namespace LampUserspace.Time

open Calendar

structure Tm where
  tmSec : ℤ
  tmMin : ℤ
  tmHour : ℤ
  tmMday : ℤ
  tmMon : ℤ
  tmYear : ℤ
  tmWday : ℤ
  tmYday : ℤ
  tmIsdst : ℤ
  deriving DecidableEq, Repr

def toInt (x : ℤ) : ℤ := (x + 2 ^ 31) % 2 ^ 32 - 2 ^ 31

def localtimeR (timep : Option UInt32) (result : Option Tm) : Option Tm := do
  let time ← timep
  let _ ← result
  let seconds : ℤ := time.toNat
  let days := if seconds.tmod 86400 < 0 then seconds.tdiv 86400 - 1 else seconds.tdiv 86400
  let rem := if seconds.tmod 86400 < 0 then seconds.tmod 86400 + 86400 else seconds.tmod 86400
  let z := days + 719468
  let era := (if z ≥ 0 then z else z - 146096).tdiv 146097
  let doe := UInt32.ofInt (z - era * 146097)
  let yoe := (doe - doe / 1460 + doe / 36524 - doe / 146096) / 365
  let year := toInt (yoe.toNat + era * 400)
  let doy := doe - (365 * yoe + yoe / 4 - yoe / 100)
  let mp := (5 * doy + 2) / 153
  let month := mp + if mp < 10 then 3 else -9
  let wday := toInt ((days + 4).tmod 7)
  return {
    tmSec := toInt (rem.tmod 60)
    tmMin := toInt ((rem.tmod 3600).tdiv 60)
    tmHour := toInt (rem.tdiv 3600)
    tmMday := toInt (doy - (153 * mp + 2) / 5 + 1).toNat
    tmMon := toInt month.toNat - 1
    tmYear := year + (if month ≤ 2 then 1 else 0) - 1900
    tmWday := if wday < 0 then wday + 7 else wday
    tmYday := toInt doy.toNat
    tmIsdst := 0 }

def isLeap (year : ℤ) : Bool :=
  year.tmod 4 = 0 && (year.tmod 100 ≠ 0 || year.tmod 400 = 0)

/-- `for (y; y < year; y++) days += ...` -/
def addYears (year y days : ℤ) : ℤ :=
  if y < year then addYears year (y + 1) (days + if isLeap y then 366 else 365) else days
termination_by (year - y).toNat

/-- `for (y; y >= year; y--) days -= ...` -/
def subYears (year y days : ℤ) : ℤ :=
  if y ≥ year then subYears year (y - 1) (days - if isLeap y then 366 else 365) else days
termination_by (y + 1 - year).toNat

def daysInMonth : List ℤ := [31, 28, 31, 30, 31, 30, 31, 31, 30, 31, 30, 31]

/-- `for (month; month < tm_mon; month++) days += ...`, which reads outside the table when
`tm_mon` is greater than 12. -/
def addMonths (year tmMon : ℤ) (month : ℕ) (days : ℤ) : Option ℤ :=
  if month < tmMon then do
    let d ← daysInMonth[month]?
    addMonths year tmMon (month + 1) (days + (d + if month = 1 ∧ isLeap year then 1 else 0))
  else
    some days
termination_by (tmMon - month).toNat

/-- The returned time and the structure as it is left; `none` is a read outside the table. -/
def mktime (tm : Option Tm) : Option (UInt32 × Option Tm) :=
  match tm with
  | none => some (UInt32.ofInt (-1), none)
  | some tm => do
    let year := tm.tmYear + 1900
    let days ← addMonths year tm.tmMon 0 (subYears year 1969 (addYears year 1970 0))
    let days := days + (tm.tmMday - 1)
    let wday := toInt ((days + 4).tmod 7)
    return (UInt32.ofInt (days * 86400 + tm.tmHour * 3600 + tm.tmMin * 60 + tm.tmSec),
      some { tm with tmWday := if wday < 0 then wday + 7 else wday })

/-! ## The loops of `mktime` -/

theorem tdiv_natCast (m n : ℕ) : (m : ℤ).tdiv n = (m / n : ℕ) :=
  Int.tdiv_eq_ediv_of_nonneg (by omega)

theorem tmod_natCast (m n : ℕ) : (m : ℤ).tmod n = (m % n : ℕ) :=
  Int.tmod_eq_emod_of_nonneg (by omega)

theorem isLeap_iff (y : ℕ) : isLeap y = true ↔ Leap y := by
  unfold isLeap Leap
  rw [show (4 : ℤ) = (4 : ℕ) from rfl, show (100 : ℤ) = (100 : ℕ) from rfl,
    show (400 : ℤ) = (400 : ℕ) from rfl, tmod_natCast, tmod_natCast, tmod_natCast]
  simp only [Bool.and_eq_true, Bool.or_eq_true, decide_eq_true_eq]
  omega

theorem addYears_add (y n : ℕ) (days : ℤ) :
    addYears (y + 1 + n : ℕ) (y + 1 : ℕ) days = days + marchDays (y + n) - marchDays y := by
  induction n generalizing y days with
  | zero =>
    rw [addYears, if_neg (by omega)]
    simp
  | succ n ih =>
    rw [addYears, if_pos (by omega)]
    have hstep := ih (y + 1) (days + if isLeap (y + 1 : ℕ) then 366 else 365)
    have hlength : (if isLeap (y + 1 : ℕ) then 366 else 365 : ℤ) =
        marchDays (y + 1) - marchDays y := by
      rw [marchDays_succ]
      by_cases h : Leap (y + 1)
      · rw [if_pos h, if_pos ((isLeap_iff _).mpr h)]; omega
      · rw [if_neg h, if_neg (mt (isLeap_iff _).mp h)]; omega
    rw [show y + 1 + (n + 1) = y + 1 + 1 + n by omega,
      show ((y + 1 : ℕ) + 1 : ℤ) = (y + 1 + 1 : ℕ) by omega, hstep, hlength,
      show y + 1 + n = y + (n + 1) by omega]
    omega

theorem addYears_eq {year : ℕ} (h : 1970 ≤ year) :
    subYears year 1969 (addYears year 1970 0) = marchDays (year - 1) - marchDays 1969 := by
  obtain ⟨n, rfl⟩ := Nat.exists_eq_add_of_le h
  rw [subYears, if_neg (by omega)]
  have hsum := addYears_add 1969 n 0
  rw [show 1970 + n - 1 = 1969 + n by omega]
  simpa using hsum

def monthDays (year : ℤ) (mon : ℕ) : ℤ :=
  if mon < 2 then 31 * (mon : ℤ) else 59 + marchMonthDays (mon - 2) + if isLeap year then 1 else 0

theorem addMonths_eq (year days : ℤ) {mon : ℕ} (h : mon < 12) :
    addMonths year mon 0 days = some (days + monthDays year mon) := by
  have hstep : ∀ (m : ℕ) (d : ℤ) (days : ℤ), m < mon → daysInMonth[m]? = some d →
      addMonths year mon m days =
        addMonths year mon (m + 1) (days + (d + if m = 1 ∧ isLeap year then 1 else 0)) := by
    intro m d days hm hd
    rw [addMonths, if_pos (by omega), hd]
    rfl
  have hlast : ∀ days : ℤ, addMonths year mon mon days = some days := fun days => by
    rw [addMonths, if_neg (by omega)]
  interval_cases mon <;>
    simp (disch := decide) only [hstep 0 31, hstep 1 28, hstep 2 31, hstep 3 30, hstep 4 31,
      hstep 5 30, hstep 6 31, hstep 7 31, hstep 8 30, hstep 9 31, hstep 10 30, hlast,
      Nat.reduceAdd] <;>
    simp [monthDays, marchMonthDays] <;> omega

/-! ## The date of a day -/

section Unsigned

variable {doe : UInt32} (h : doe.toNat < 146097)
include h

theorem toNat_yoe :
    ((doe - doe / 1460 + doe / 36524 - doe / 146096) / 365).toNat = yearOfEra doe.toNat := by
  have h1 : (doe - doe / 1460).toNat = doe.toNat - doe.toNat / 1460 := by
    rw [UInt32.toNat_sub_of_le]
    · rfl
    · rw [UInt32.le_iff_toNat_le]; exact Nat.div_le_self _ _
  have h2 : (doe - doe / 1460 + doe / 36524).toNat =
      doe.toNat - doe.toNat / 1460 + doe.toNat / 36524 := by
    rw [UInt32.toNat_add, h1, UInt32.toNat_div]
    apply Nat.mod_eq_of_lt
    change _ + _ / 36524 < _
    omega
  have h3 : (doe - doe / 1460 + doe / 36524 - doe / 146096).toNat =
      doe.toNat - doe.toNat / 1460 + doe.toNat / 36524 - doe.toNat / 146096 := by
    rw [UInt32.toNat_sub_of_le, h2]
    · rfl
    · rw [UInt32.le_iff_toNat_le, h2, UInt32.toNat_div]
      change _ / 146096 ≤ _
      omega
  rw [UInt32.toNat_div, h3]
  rfl

theorem toNat_doy {yoe : UInt32} (hy : yoe.toNat = yearOfEra doe.toNat) :
    (doe - (365 * yoe + yoe / 4 - yoe / 100)).toNat =
      doe.toNat - marchDays (yearOfEra doe.toNat) := by
  obtain ⟨hlt, hle, -⟩ := yearOfEra_spec h
  rw [← hy] at hlt hle ⊢
  have hera : yoe.toNat / 400 = 0 := Nat.div_eq_of_lt hlt
  have hlength : (365 * yoe + yoe / 4 - yoe / 100).toNat = marchDays yoe.toNat := by
    have hsum : (365 * yoe + yoe / 4).toNat = 365 * yoe.toNat + yoe.toNat / 4 := by
      rw [UInt32.toNat_add, UInt32.toNat_mul, UInt32.toNat_div]
      change (365 * yoe.toNat % 2 ^ 32 + yoe.toNat / 4) % 2 ^ 32 = _
      omega
    rw [UInt32.toNat_sub_of_le, hsum, UInt32.toNat_div, marchDays, hera]
    · rfl
    · rw [UInt32.le_iff_toNat_le, hsum, UInt32.toNat_div]
      change yoe.toNat / 100 ≤ _
      omega
  rw [UInt32.toNat_sub_of_le, hlength]
  rw [UInt32.le_iff_toNat_le, hlength]
  exact hle

omit h in
theorem toNat_mp {doy : UInt32} (hd : doy.toNat ≤ 365) :
    ((5 * doy + 2) / 153).toNat = marchMonth doy.toNat := by
  rw [UInt32.toNat_div, UInt32.toNat_add, UInt32.toNat_mul]
  change (5 * doy.toNat % 2 ^ 32 + 2) % 2 ^ 32 / 153 = _
  unfold marchMonth
  omega

omit h in
theorem toNat_mday {doy mp : UInt32} (hd : doy.toNat ≤ 365)
    (hm : mp.toNat = marchMonth doy.toNat) :
    (doy - (153 * mp + 2) / 5 + 1).toNat =
      doy.toNat - marchMonthDays (marchMonth doy.toNat) + 1 := by
  obtain ⟨hlt, hle, -⟩ := marchMonth_spec hd
  rw [← hm] at hlt hle ⊢
  have hmonths : ((153 * mp + 2) / 5).toNat = marchMonthDays mp.toNat := by
    rw [UInt32.toNat_div, UInt32.toNat_add, UInt32.toNat_mul]
    change (153 * mp.toNat % 2 ^ 32 + 2) % 2 ^ 32 / 5 = _
    unfold marchMonthDays
    omega
  rw [UInt32.toNat_add, UInt32.toNat_sub_of_le, hmonths]
  · change (doy.toNat - marchMonthDays mp.toNat + 1) % 2 ^ 32 = _
    omega
  · rw [UInt32.le_iff_toNat_le, hmonths]
    exact hle

omit h in
theorem toNat_month {mp : UInt32} (hm : mp.toNat < 12) :
    (mp + if mp < 10 then 3 else -9).toNat =
      if mp.toNat < 10 then mp.toNat + 3 else mp.toNat - 9 := by
  have hiff : mp < 10 ↔ mp.toNat < 10 := UInt32.lt_iff_toNat_lt
  by_cases hlt : mp.toNat < 10
  · rw [if_pos hlt, if_pos (hiff.mpr hlt), UInt32.toNat_add]
    change (mp.toNat + 3) % 2 ^ 32 = _
    omega
  · rw [if_neg hlt, if_neg (mt hiff.mp hlt), UInt32.toNat_add]
    change (mp.toNat + 4294967287) % 2 ^ 32 = _
    omega

end Unsigned

/-- The structure holds the date `doy` days into the March year `y` and the time of day `secs`,
in the fields that `mktime` reads. -/
structure Tm.Shows (tm : Tm) (y doy secs : ℕ) : Prop where
  mday : tm.tmMday = doy - marchMonthDays (marchMonth doy) + 1
  mon : tm.tmMon = if marchMonth doy < 10 then (marchMonth doy + 2 : ℤ) else marchMonth doy - 10
  year : tm.tmYear = y + (if marchMonth doy < 10 then 0 else 1) - 1900
  hour : tm.tmHour = secs / 3600
  min : tm.tmMin = secs % 3600 / 60
  sec : tm.tmSec = secs % 60

theorem toInt_natCast {n : ℕ} (h : n < 2 ^ 31) : toInt n = n := by
  unfold toInt
  omega

theorem toNat_ofInt (x : ℤ) : (UInt32.ofInt x).toNat = (x % 2 ^ 32).toNat := by
  simp only [UInt32.ofInt, UInt32.toNat_ofNat']
  omega

/-- The day of the second `n` after the epoch, counted from 1 March of year 0. -/
def marchDate (n : ℕ) : ℕ := n / 86400 + 719468

/-- The structure for the second `n` after the epoch, computed in natural numbers. -/
def brokenDown (n : ℕ) : Tm where
  tmSec := (n % 86400 % 60 : ℕ)
  tmMin := (n % 86400 % 3600 / 60 : ℕ)
  tmHour := (n % 86400 / 3600 : ℕ)
  tmMday := civilDay (marchDate n)
  tmMon := civilMonth (marchDate n)
  tmYear := (civilYear (marchDate n) : ℤ) - 1900
  tmWday := weekday (n / 86400)
  tmYday := marchDay (marchDate n)
  tmIsdst := 0

theorem localtimeR_eq (time : UInt32) (result : Tm) :
    localtimeR (some time) (some result) = some (brokenDown time.toNat) := by
  have hn32 := time.toNat_lt
  generalize hn : time.toNat = n at hn32
  generalize hz : n / 86400 + 719468 = z
  have hday : (n : ℤ).tdiv 86400 = (n / 86400 : ℕ) := tdiv_natCast n 86400
  have hrem : (n : ℤ).tmod 86400 = (n % 86400 : ℕ) := tmod_natCast n 86400
  have hera : (((n / 86400 : ℕ) : ℤ) + 719468).tdiv 146097 = (z / 146097 : ℕ) := by
    rw [← tdiv_natCast, ← hz]; rfl
  have hdoe : (UInt32.ofInt (((n / 86400 : ℕ) : ℤ) + 719468 -
      (z / 146097 : ℕ) * 146097)).toNat = z % 146097 := by
    rw [toNat_ofInt]
    omega
  have hdlt : z % 146097 < 146097 := Nat.mod_lt _ (by decide)
  unfold localtimeR
  simp only [Option.bind_eq_bind, Option.bind_some, hn, hday, hrem, ge_iff_le]
  rw [if_neg (by omega), if_neg (by omega), if_pos (by omega), hera]
  -- each unsigned quantity is replaced by the natural number it holds
  generalize UInt32.ofInt (((n / 86400 : ℕ) : ℤ) + 719468 - (z / 146097 : ℕ) * 146097) = doe
    at hdoe ⊢
  rw [← hdoe] at hdlt
  have hyoe := toNat_yoe hdlt
  generalize (doe - doe / 1460 + doe / 36524 - doe / 146096) / 365 = yoe at hyoe ⊢
  have hdoy := toNat_doy hdlt hyoe
  generalize doe - (365 * yoe + yoe / 4 - yoe / 100) = doy at hdoy ⊢
  rw [hdoe] at hdoy hyoe
  change doy.toNat = marchDay z at hdoy
  have hdoy365 : doy.toNat ≤ 365 := hdoy ▸ marchDay_le z
  have hmp := toNat_mp hdoy365
  generalize (5 * doy + 2) / 153 = mp at hmp ⊢
  obtain ⟨hmp12, hmple, hmpge⟩ := marchMonth_spec hdoy365
  have hmonth := toNat_month (hmp ▸ hmp12)
  generalize (mp + if mp < 10 then 3 else -9) = month at hmonth ⊢
  have hle2 : month ≤ 2 ↔ month.toNat ≤ 2 := UInt32.le_iff_toNat_le
  have hyear : (yoe.toNat + (z / 146097 : ℕ) * 400 : ℤ) = marchYear z := by
    unfold marchYear
    omega
  have hylt : yoe.toNat < 400 := hyoe ▸ (yearOfEra_spec (Nat.mod_lt z (by decide))).1
  rw [brokenDown, marchDate, hz]
  apply congrArg some
  rw [Tm.mk.injEq]
  refine ⟨?_, ?_, ?_, ?_, ?_, ?_, ?_, ?_, rfl⟩
  · change toInt (((n % 86400 : ℕ) : ℤ).tmod (60 : ℕ)) = _
    rw [tmod_natCast, toInt_natCast (by omega)]
  · change toInt ((((n % 86400 : ℕ) : ℤ).tmod (3600 : ℕ)).tdiv (60 : ℕ)) = _
    rw [tmod_natCast, tdiv_natCast, toInt_natCast (by omega)]
  · change toInt (((n % 86400 : ℕ) : ℤ).tdiv (3600 : ℕ)) = _
    rw [tdiv_natCast, toInt_natCast (by omega)]
  · rw [toNat_mday hdoy365 hmp, toInt_natCast (by omega), civilDay, hdoy]
  · rw [hmonth, hmp, toInt_natCast (by split <;> omega), civilMonth, ← hdoy]
    split <;> omega
  · rw [hyear, toInt_natCast (by omega), civilYear, ← hdoy]
    simp only [hle2, hmonth, hmp]
    by_cases h10 : marchMonth doy.toNat < 10
    · rw [if_pos h10, if_pos h10, if_neg (by omega)]; omega
    · rw [if_neg h10, if_neg h10, if_pos (by omega)]; omega
  · have hweek : ((n / 86400 : ℕ) + 4 : ℤ).tmod 7 = weekday (n / 86400) :=
      tmod_natCast (n / 86400 + 4) 7
    rw [hweek, toInt_natCast (by unfold weekday; omega), if_neg (by omega)]
  · rw [hdoy, toInt_natCast (by have := marchDay_le z; omega)]

theorem brokenDown_shows (n : ℕ) :
    (brokenDown n).Shows (marchYear (marchDate n)) (marchDay (marchDate n)) (n % 86400) := by
  obtain ⟨hlt, hle, -⟩ := marchMonth_spec (marchDay_le (marchDate n))
  constructor
  · simp only [brokenDown, civilDay]
    omega
  · simp only [brokenDown, civilMonth]
    split <;> omega
  · simp only [brokenDown, civilYear]
    split <;> omega
  · simp [brokenDown]
  · simp [brokenDown]
  · simp [brokenDown]

theorem localtimeR_shows (time : UInt32) (result : Tm) :
    ∃ tm y doy, localtimeR (some time) (some result) = some tm ∧
      tm.Shows y doy (time.toNat % 86400) ∧ doy ≤ 365 ∧
      marchDays y + doy = time.toNat / 86400 + 719468 :=
  ⟨_, _, _, localtimeR_eq time result, brokenDown_shows _, marchDay_le _, marchDays_marchYear _⟩

theorem mktime_eq (tm : Tm) (year mon : ℕ) (hyear : tm.tmYear + 1900 = year)
    (hepoch : 1970 ≤ year) (hmon : tm.tmMon = mon) (hmon12 : mon < 12) :
    ∃ tm', mktime (some tm) = some (UInt32.ofInt
      ((marchDays (year - 1) - marchDays 1969 + monthDays year mon + (tm.tmMday - 1)) * 86400 +
        tm.tmHour * 3600 + tm.tmMin * 60 + tm.tmSec), some tm') := by
  unfold mktime
  simp only [hyear, hmon, addYears_eq hepoch, addMonths_eq _ _ hmon12]
  exact ⟨_, rfl⟩

/-- `mktime` counts the days from the epoch to a date that is not before it. -/
theorem mktime_shows {tm : Tm} {y doy secs : ℕ} (h : tm.Shows y doy secs) (hdoy : doy ≤ 365)
    (hy : 719468 ≤ marchDays y + doy) :
    ∃ tm', mktime (some tm) =
      some (UInt32.ofInt ((marchDays y + doy - 719468) * 86400 + secs), some tm') := by
  obtain ⟨hlt, hle, hge⟩ := marchMonth_spec hdoy
  have hy1969 : 1969 ≤ y := by
    by_contra hlt
    unfold marchDays at hy
    omega
  have hstart : marchDays 1969 = 719162 := rfl
  -- the seconds of the day are put together again, so only the days are left to compare
  have hsecs : ∀ days : ℤ, days * 86400 + tm.tmHour * 3600 + tm.tmMin * 60 + tm.tmSec =
      days * 86400 + secs := by
    intro days
    rw [h.hour, h.min, h.sec]
    omega
  simp only [← hsecs]
  by_cases h10 : marchMonth doy < 10
  · have hy1970 : 1970 ≤ y := by
      by_contra hlt'
      obtain rfl : y = 1969 := by omega
      unfold marchMonth at h10
      omega
    have hyear := h.year
    have hmon := h.mon
    rw [if_pos h10] at hyear hmon
    obtain ⟨tm', htm⟩ := mktime_eq tm y (marchMonth doy + 2) (by omega) hy1970
      (by omega) (by omega)
    refine ⟨tm', ?_⟩
    have hnext := marchDays_succ (y - 1)
    rw [Nat.sub_add_cancel (by omega)] at hnext
    rw [htm, h.mday, monthDays, if_neg (by omega), Nat.add_sub_cancel, hnext, hstart]
    simp only [isLeap_iff]
    congr 4
    split <;> omega
  · have hyear := h.year
    have hmon := h.mon
    rw [if_neg h10] at hyear hmon
    obtain ⟨tm', htm⟩ := mktime_eq tm (y + 1) (marchMonth doy - 10) (by omega)
      (by omega) (by omega) (by omega)
    refine ⟨tm', ?_⟩
    have hmonths :
        (marchMonthDays (marchMonth doy) : ℤ) = 306 + 31 * (marchMonth doy - 10 : ℕ) := by
      unfold marchMonthDays
      omega
    rw [htm, h.mday, monthDays, if_pos (by omega), hmonths, Nat.add_sub_cancel, hstart]
    congr 4
    omega

/-- A structure that holds the date and time of day of `time` is taken back to it. -/
theorem mktime_of_shows {time : UInt32} {tm : Tm} {y doy : ℕ}
    (h : tm.Shows y doy (time.toNat % 86400)) (hdoy : doy ≤ 365)
    (hday : marchDays y + doy = time.toNat / 86400 + 719468) :
    ∃ tm', mktime (some tm) = some (time, some tm') := by
  obtain ⟨tm', hmk⟩ := mktime_shows h hdoy (by omega)
  refine ⟨tm', ?_⟩
  rw [hmk]
  congr 2
  apply UInt32.toNat_inj.mp
  have hlt := time.toNat_lt
  rw [toNat_ofInt]
  omega

/-- The structure that `localtime_r` computes is taken back to its time. -/
theorem mktime_localtimeR (time : UInt32) (result : Tm) :
    ∃ tm tm', localtimeR (some time) (some result) = some tm ∧
      mktime (some tm) = some (time, some tm') := by
  obtain ⟨tm, y, doy, htm, hshows, hdoy, hday⟩ := localtimeR_shows time result
  obtain ⟨tm', hmk⟩ := mktime_of_shows hshows hdoy hday
  exact ⟨tm, tm', htm, hmk⟩

end LampUserspace.Time
