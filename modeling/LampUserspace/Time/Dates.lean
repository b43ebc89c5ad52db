import LampUserspace.Time.Localtime

/-! # The fields of `localtime_r`

The date, the time of day and the weekday are those of the given second. The day
of the year is counted from the first of March, so it is wrong on every day.
-/

namespace LampUserspace.Time

open Calendar

def Tm.year (tm : Tm) : ℕ := (tm.tmYear + 1900).toNat

def Tm.month (tm : Tm) : ℕ := tm.tmMon.toNat

def Tm.day (tm : Tm) : ℕ := tm.tmMday.toNat

/-- The structure holds the date, the time of day and the weekday of the second `time` after
the epoch. -/
structure Tm.Dates (tm : Tm) (time : ℕ) : Prop where
  year : 1970 ≤ tm.tmYear + 1900
  mon : 0 ≤ tm.tmMon ∧ tm.tmMon ≤ 11
  mday : 1 ≤ tm.tmMday ∧ tm.tmMday ≤ monthLength tm.year tm.month
  hour : 0 ≤ tm.tmHour ∧ tm.tmHour ≤ 23
  min : 0 ≤ tm.tmMin ∧ tm.tmMin ≤ 59
  sec : 0 ≤ tm.tmSec ∧ tm.tmSec ≤ 59
  wday : tm.tmWday = weekday (dayNumber tm.year tm.month tm.day)
  moment : dayNumber tm.year tm.month tm.day * 86400 + tm.tmHour * 3600 + tm.tmMin * 60 +
    tm.tmSec = time

/-- The structure is the broken-down time of the second `time`, the day of the year included. -/
structure Tm.Valid (tm : Tm) (time : ℕ) : Prop extends tm.Dates time where
  yday : tm.tmYday = dayOfYear tm.year tm.month tm.day

section BrokenDown

variable (n : ℕ)

theorem le_marchDate : 719468 ≤ marchDate n := Nat.le_add_left _ _

@[simp] theorem brokenDown_year : (brokenDown n).year = civilYear (marchDate n) := by
  change ((civilYear (marchDate n) : ℤ) - 1900 + 1900).toNat = _
  rw [Int.sub_add_cancel, Int.toNat_natCast]

@[simp] theorem brokenDown_month : (brokenDown n).month = civilMonth (marchDate n) :=
  Int.toNat_natCast _

@[simp] theorem brokenDown_day : (brokenDown n).day = civilDay (marchDate n) :=
  Int.toNat_natCast _

theorem dayNumber_brokenDown :
    dayNumber (brokenDown n).year (brokenDown n).month (brokenDown n).day = n / 86400 := by
  have hday := dayNumber_civil (le_marchDate n)
  rw [brokenDown_year, brokenDown_month, brokenDown_day]
  exact Nat.add_right_cancel hday

theorem brokenDown_dates : (brokenDown n).Dates n where
  year := by
    have hyear := le_civilYear (le_marchDate n)
    simp only [brokenDown]
    omega
  mon := by
    have hlt := civilMonth_lt (marchDate n)
    simp only [brokenDown]
    omega
  mday := by
    have hle := civilDay_le (marchDate n)
    have hpos : 1 ≤ civilDay (marchDate n) := Nat.le_add_left _ _
    rw [brokenDown_year, brokenDown_month]
    simp only [brokenDown]
    omega
  hour := by simp only [brokenDown]; omega
  min := by simp only [brokenDown]; omega
  sec := by simp only [brokenDown]; omega
  wday := by
    rw [dayNumber_brokenDown]
    rfl
  moment := by
    rw [dayNumber_brokenDown]
    simp only [brokenDown]
    omega

theorem brokenDown_not_valid : ¬ (brokenDown n).Valid n := by
  intro h
  have hyday := h.yday
  rw [brokenDown_year, brokenDown_month, brokenDown_day] at hyday
  change (marchDay (marchDate n) : ℤ) = _ at hyday
  rw [marchDay_civil] at hyday
  split at hyday
  · omega
  · split at hyday <;> omega

end BrokenDown

/-- Every field but the day of the year is right, and the day of the year never is. -/
theorem localtimeR_never_valid (time : UInt32) (result : Tm) :
    ∃ tm, localtimeR (some time) (some result) = some tm ∧ tm.Dates time.toNat ∧
      ¬ tm.Valid time.toNat :=
  ⟨_, localtimeR_eq time result, brokenDown_dates _, brokenDown_not_valid _⟩

/-- The first of January 1970 is reported as day 306 of its year. -/
theorem localtimeR_epoch :
    ¬ ∀ (time : UInt32) (result : Tm), ∃ tm, localtimeR (some time) (some result) = some tm ∧
      tm.Valid time.toNat := by
  intro h
  obtain ⟨tm, htm, hvalid⟩ := h 0 (brokenDown 0)
  rw [show localtimeR (some 0) (some (brokenDown 0)) = some
    ⟨0, 0, 0, 1, 0, 70, 4, 306, 0⟩ by decide +kernel] at htm
  obtain rfl := Option.some.inj htm
  have hyday := hvalid.yday
  rw [show dayOfYear (Tm.year ⟨0, 0, 0, 1, 0, 70, 4, 306, 0⟩)
    (Tm.month ⟨0, 0, 0, 1, 0, 70, 4, 306, 0⟩) (Tm.day ⟨0, 0, 0, 1, 0, 70, 4, 306, 0⟩) = 0 by
      decide +kernel] at hyday
  exact absurd hyday (by decide)

end LampUserspace.Time
