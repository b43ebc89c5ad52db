import LampUserspace.Calendar.Order
import LampUserspace.Time.Dates

/-! # The order of broken-down times

On structures whose fields are in their ranges, `mktime` is the inverse of
`localtime_r`, apart from the day of the year, and keeps the order.
-/

namespace LampUserspace.Time

open Calendar

/-- The fields of the structure are in their ranges, from 1970 on. -/
structure Tm.Proper (tm : Tm) : Prop where
  year : 1970 ≤ tm.tmYear + 1900
  mon : 0 ≤ tm.tmMon ∧ tm.tmMon ≤ 11
  mday : 1 ≤ tm.tmMday ∧ tm.tmMday ≤ monthLength tm.year tm.month
  hour : 0 ≤ tm.tmHour ∧ tm.tmHour ≤ 23
  min : 0 ≤ tm.tmMin ∧ tm.tmMin ≤ 59
  sec : 0 ≤ tm.tmSec ∧ tm.tmSec ≤ 59

def Tm.moment (tm : Tm) : ℕ :=
  dayNumber tm.year tm.month tm.day * 86400 +
    (tm.tmHour * 3600 + tm.tmMin * 60 + tm.tmSec).toNat

/-- The fields that `mktime` reads, the most significant first. -/
def Tm.fields (tm : Tm) : List ℤ :=
  [tm.tmYear, tm.tmMon, tm.tmMday, tm.tmHour, tm.tmMin, tm.tmSec]

def Tm.withWeekday (tm : Tm) : Tm :=
  { tm with tmWday := weekday (dayNumber tm.year tm.month tm.day) }

variable {tm tm' : Tm} {n : ℕ}

theorem brokenDown_proper (n : ℕ) : (brokenDown n).Proper := by
  have h := brokenDown_dates n
  exact ⟨h.year, h.mon, h.mday, h.hour, h.min, h.sec⟩

theorem Tm.moment_congr (h : tm.fields = tm'.fields) : tm.moment = tm'.moment := by
  simp only [Tm.fields, List.cons.injEq, and_true] at h
  obtain ⟨hyear, hmon, hmday, hhour, hmin, hsec⟩ := h
  unfold Tm.moment Tm.year Tm.month Tm.day
  rw [hyear, hmon, hmday, hhour, hmin, hsec]

namespace Tm.Proper

theorem date (h : tm.Proper) : ValidDate tm.year tm.month tm.day := by
  obtain ⟨hyear, hmon, hmday, -, -, -⟩ := h
  unfold Tm.day
  exact ⟨by unfold Tm.year; omega, by unfold Tm.month; omega, by omega, by omega⟩

theorem seconds_lt (h : tm.Proper) :
    0 ≤ tm.tmHour * 3600 + tm.tmMin * 60 + tm.tmSec ∧
      tm.tmHour * 3600 + tm.tmMin * 60 + tm.tmSec < 86400 := by
  obtain ⟨-, -, -, hhour, hmin, hsec⟩ := h
  omega

theorem moment_lt (h : tm.Proper) (h' : tm'.Proper) (hlt : tm.fields < tm'.fields) :
    tm.moment < tm'.moment := by
  have hseconds := h.seconds_lt
  have hseconds' := h'.seconds_lt
  have hdate : (tm.year < tm'.year ∨ tm.year = tm'.year ∧ (tm.month < tm'.month ∨
      tm.month = tm'.month ∧ tm.day < tm'.day)) → tm.moment < tm'.moment := by
    intro hfirst
    have hday := h.date.dayNumber_lt h'.date hfirst
    unfold Tm.moment
    omega
  have htime : tm.tmYear = tm'.tmYear → tm.tmMon = tm'.tmMon → tm.tmMday = tm'.tmMday →
      tm.tmHour * 3600 + tm.tmMin * 60 + tm.tmSec <
        tm'.tmHour * 3600 + tm'.tmMin * 60 + tm'.tmSec → tm.moment < tm'.moment := by
    intro hyear hmon hmday hlt
    unfold Tm.moment Tm.year Tm.month Tm.day
    rw [hyear, hmon, hmday]
    omega
  obtain ⟨hyear, hmon, hmday, hhour, hmin, hsec⟩ := h
  obtain ⟨hyear', hmon', hmday', hhour', hmin', hsec'⟩ := h'
  unfold Tm.year Tm.month Tm.day at hdate
  simp only [Tm.fields, List.cons_lt_cons_iff] at hlt
  rcases hlt with hlt | ⟨heq₁, hlt | ⟨heq₂, hlt | ⟨heq₃, hlt⟩⟩⟩
  · exact hdate (.inl (by omega))
  · exact hdate (.inr ⟨by omega, .inl (by omega)⟩)
  · exact hdate (.inr ⟨by omega, .inr ⟨by omega, by omega⟩⟩)
  · refine htime heq₁ heq₂ heq₃ ?_
    rcases hlt with hlt | ⟨heq₄, hlt | ⟨heq₅, hlt | ⟨-, hnil⟩⟩⟩
    · omega
    · omega
    · omega
    · exact absurd hnil (List.not_lt_nil _)

theorem moment_lt_iff (h : tm.Proper) (h' : tm'.Proper) :
    tm.moment < tm'.moment ↔ tm.fields < tm'.fields := by
  refine ⟨fun hlt => ?_, h.moment_lt h'⟩
  by_contra hnot
  rcases lt_or_eq_of_le (not_lt.mp hnot) with hgt | heq
  · exact absurd (h'.moment_lt h hgt) (not_lt.mpr hlt.le)
  · exact hlt.ne (Tm.moment_congr heq.symm)

end Tm.Proper

/-! ## The inverse -/

theorem monthDays_eq (y : ℕ) {mon : ℕ} (h : mon < 12) : monthDays y mon = daysBefore y mon := by
  unfold monthDays
  split
  · interval_cases mon <;> rfl
  · obtain ⟨mp, rfl⟩ := Nat.exists_eq_add_of_le' (show 2 ≤ mon by omega)
    rw [daysBefore_march y (by omega), Nat.add_sub_cancel]
    simp only [isLeap_iff]
    push_cast
    omega

theorem brokenDown_moment (n : ℕ) : (brokenDown n).moment = n := by
  have h := (brokenDown_dates n).moment
  have hseconds := (brokenDown_proper n).seconds_lt
  unfold Tm.moment
  omega

theorem mktime_proper (h : tm.Proper) :
    mktime (some tm) = some (UInt32.ofInt tm.moment, some tm.withWeekday) := by
  have hseconds := h.seconds_lt
  have hpos := h.date.pos
  obtain ⟨hyear, hmon, hmday, -, -, -⟩ := h
  have hy : tm.tmYear + 1900 = tm.year := by
    unfold Tm.year
    omega
  have hm : tm.tmMon = tm.month := by
    unfold Tm.month
    omega
  have hd : tm.tmMday = tm.day := by
    unfold Tm.day
    omega
  have hepoch : 1970 ≤ tm.year := by omega
  have hmonth : tm.month < 12 := by omega
  have hnew := newYear_add hepoch
  have hstart : marchDays 1969 = 719162 := rfl
  have hdays : (marchDays (tm.year - 1) - marchDays 1969 + monthDays tm.year tm.month +
      (tm.day - 1) : ℤ) = dayNumber tm.year tm.month tm.day := by
    rw [monthDays_eq _ hmonth, dayNumber, dayOfYear]
    omega
  have hweek : ((dayNumber tm.year tm.month tm.day : ℤ) + 4).tmod 7 =
      weekday (dayNumber tm.year tm.month tm.day) :=
    tmod_natCast (dayNumber tm.year tm.month tm.day + 4) 7
  have hsmall : weekday (dayNumber tm.year tm.month tm.day) < 2 ^ 31 := by
    unfold weekday
    omega
  unfold mktime
  simp only [hy, hm, hd, addYears_eq hepoch, addMonths_eq _ _ hmonth, Option.bind_eq_bind,
    Option.bind_some, hdays, hweek, toInt_natCast hsmall]
  rw [if_neg (by omega), ← hm, ← hd]
  have hmoment : (dayNumber tm.year tm.month tm.day : ℤ) * 86400 + tm.tmHour * 3600 +
      tm.tmMin * 60 + tm.tmSec = tm.moment := by
    unfold Tm.moment
    omega
  rw [hmoment]
  rfl

/-- `localtime_r` gives back what `mktime` leaves of a structure with its fields in range, but for
the day of the year and the flag for daylight saving time. -/
theorem localtimeR_mktime (h : tm.Proper) (hfit : tm.moment < 2 ^ 32) (result : Tm) :
    ∃ time yday, mktime (some tm) = some (time, some tm.withWeekday) ∧
      localtimeR (some time) (some result) =
        some { tm.withWeekday with tmYday := yday, tmIsdst := 0 } := by
  refine ⟨_, (brokenDown tm.moment).tmYday, mktime_proper h, ?_⟩
  have htime : (UInt32.ofInt tm.moment).toNat = tm.moment := by
    rw [toNat_ofInt]
    omega
  rw [localtimeR_eq, htime]
  have hmoment := brokenDown_moment tm.moment
  have hproper := brokenDown_proper tm.moment
  have hfields : (brokenDown tm.moment).fields = tm.fields := by
    by_contra hne
    rcases lt_or_gt_of_ne hne with hlt | hgt
    · exact (hproper.moment_lt h hlt).ne hmoment
    · exact (h.moment_lt hproper hgt).ne hmoment.symm
  have hwday := (brokenDown_dates tm.moment).wday
  simp only [Tm.fields, List.cons.injEq, and_true] at hfields
  obtain ⟨hyear, hmon, hmday, hhour, hmin, hsec⟩ := hfields
  refine congrArg some ?_
  rw [Tm.mk.injEq]
  refine ⟨hsec, hmin, hhour, hmday, hmon, hyear, ?_, rfl, rfl⟩
  rw [hwday]
  unfold Tm.withWeekday Tm.year Tm.month Tm.day
  rw [hyear, hmon, hmday]

/-- The last second of 1999, and the first of 2000. -/
def lastSecond : Tm := ⟨59, 59, 23, 31, 11, 99, 0, 0, 0⟩
def firstSecond : Tm := ⟨0, 0, 0, 1, 0, 100, 0, 0, 0⟩

theorem lastSecond_proper : lastSecond.Proper :=
  ⟨by decide, by decide, by decide, by decide, by decide, by decide⟩

theorem firstSecond_proper : firstSecond.Proper :=
  ⟨by decide, by decide, by decide, by decide, by decide, by decide⟩

theorem localtimeR_mktime_lastSecond :
    ∃ time yday, mktime (some lastSecond) = some (time, some lastSecond.withWeekday) ∧
      localtimeR (some time) (some lastSecond) =
        some { lastSecond.withWeekday with tmYday := yday, tmIsdst := 0 } :=
  localtimeR_mktime lastSecond_proper (by decide +kernel) lastSecond

/-- Times compare as the fields, from the year to the second. -/
theorem mktime_order (h : tm.Proper) (h' : tm'.Proper) (hfit : tm.moment < 2 ^ 32)
    (hfit' : tm'.moment < 2 ^ 32) :
    ∃ time time', mktime (some tm) = some (time, some tm.withWeekday) ∧
      mktime (some tm') = some (time', some tm'.withWeekday) ∧
      (time < time' ↔ tm.fields < tm'.fields) := by
  refine ⟨_, _, mktime_proper h, mktime_proper h', ?_⟩
  rw [← h.moment_lt_iff h', UInt32.lt_iff_toNat_lt, toNat_ofInt, toNat_ofInt]
  omega

theorem mktime_order_seconds :
    ∃ time time', mktime (some lastSecond) = some (time, some lastSecond.withWeekday) ∧
      mktime (some firstSecond) = some (time', some firstSecond.withWeekday) ∧
      (time < time' ↔ lastSecond.fields < firstSecond.fields) :=
  mktime_order lastSecond_proper firstSecond_proper (by decide +kernel) (by decide +kernel)

end LampUserspace.Time
