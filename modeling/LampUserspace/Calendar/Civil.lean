import Mathlib.Algebra.BigOperators.Intervals
import Mathlib.Tactic.IntervalCases
import LampUserspace.Calendar.Gregorian

/-! # Dates of the Gregorian calendar

A date is a year, a month counted from 0 in January, and a day of that month
counted from 1. Its day number is the sum of the lengths of the years and months
before it; the years that begin in March lead to the same number.
-/

namespace LampUserspace.Calendar

open Finset

def yearLength (y : ℕ) : ℕ := if Leap y then 366 else 365

def monthLength (y m : ℕ) : ℕ :=
  if m = 1 then if Leap y then 29 else 28
  else if m = 3 ∨ m = 5 ∨ m = 8 ∨ m = 10 then 30 else 31

/-- The days of a year before its month `m`. -/
def daysBefore (y m : ℕ) : ℕ := ∑ i ∈ range m, monthLength y i

/-- The days from the first of January 1970 to the one of year `y`. -/
def newYear (y : ℕ) : ℕ := ∑ i ∈ Ico 1970 y, yearLength i

def dayOfYear (y m d : ℕ) : ℕ := daysBefore y m + (d - 1)

def dayNumber (y m d : ℕ) : ℕ := newYear y + dayOfYear y m d

/-- Days of the week are counted from Sunday, and day 0 is a Thursday. -/
def weekday (n : ℕ) : ℕ := (n + 4) % 7

example : dayNumber 2000 1 29 = 11016 ∧ weekday 11016 = 2 := by decide +kernel

theorem newYear_add {y : ℕ} (h : 1970 ≤ y) : newYear y + 719468 = marchDays (y - 1) + 306 := by
  induction y, h using Nat.le_induction with
  | base => simp [newYear, marchDays]
  | succ y hy ih =>
    have hstep : newYear (y + 1) = newYear y + yearLength y := sum_Ico_succ_top hy _
    have hlength := marchDays_succ (y - 1)
    rw [Nat.sub_add_cancel (by omega)] at hlength
    rw [hstep, Nat.add_sub_cancel, hlength]
    by_cases hleap : Leap y
    · rw [yearLength, if_pos hleap, if_pos hleap]; omega
    · rw [yearLength, if_neg hleap, if_neg hleap]; omega

theorem daysBefore_march (y : ℕ) {mp : ℕ} (h : mp < 10) :
    daysBefore y (mp + 2) = 59 + (if Leap y then 1 else 0) + marchMonthDays mp := by
  induction mp with
  | zero =>
    have hsum : daysBefore y 2 = monthLength y 0 + monthLength y 1 := rfl
    have hjanuary : monthLength y 0 = 31 := rfl
    have hfebruary : monthLength y 1 = if Leap y then 29 else 28 := rfl
    have hstart : marchMonthDays 0 = 0 := rfl
    rw [Nat.zero_add, hsum, hjanuary, hfebruary, hstart]
    split <;> rfl
  | succ mp ih =>
    have hstep : daysBefore y (mp + 2 + 1) = daysBefore y (mp + 2) + monthLength y (mp + 2) :=
      sum_range_succ _ _
    have hmonth : marchMonthDays (mp + 1) = marchMonthDays mp + monthLength y (mp + 2) := by
      have hlt : mp < 9 := by omega
      interval_cases mp <;> rfl
    rw [Nat.add_right_comm, hstep, ih (by omega), hmonth, Nat.add_assoc]

/-! ## The date of a day -/

section Date

variable (z : ℕ)

def civilYear : ℕ := marchYear z + if marchMonth (marchDay z) < 10 then 0 else 1

def civilMonth : ℕ :=
  if marchMonth (marchDay z) < 10 then marchMonth (marchDay z) + 2
  else marchMonth (marchDay z) - 10

def civilDay : ℕ := marchDay z - marchMonthDays (marchMonth (marchDay z)) + 1

theorem civilMonth_lt : civilMonth z < 12 := by
  obtain ⟨hlt, -, -⟩ := marchMonth_spec (marchDay_le z)
  unfold civilMonth
  split <;> omega

theorem civilDay_le : civilDay z ≤ monthLength (civilYear z) (civilMonth z) := by
  obtain ⟨hlt, hle, -⟩ := marchMonth_spec (marchDay_le z)
  have hday := marchDay_lt z
  unfold civilDay civilYear civilMonth monthLength
  generalize marchDay z = doy at *
  by_cases h10 : marchMonth doy < 10
  · simp only [if_pos h10]
    rw [if_neg (by omega)]
    unfold marchMonthDays
    unfold marchMonth at *
    split <;> omega
  · simp only [if_neg h10]
    by_cases hmon : marchMonth doy - 10 = 1
    · -- February ends with the March year
      rw [if_pos hmon]
      have hmonths : marchMonthDays (marchMonth doy) = 337 := by
        rw [show marchMonth doy = 11 by omega]
        rfl
      rw [hmonths]
      split at hday <;> rename_i hleap
      · rw [if_pos hleap]; omega
      · rw [if_neg hleap]; omega
    · rw [if_neg hmon, if_neg (by omega)]
      unfold marchMonthDays
      unfold marchMonth at *
      omega

/-- The March year and the civil year count the same days up to a date. -/
theorem dayOfYear_civil :
    dayOfYear (civilYear z) (civilMonth z) (civilDay z) =
      if marchMonth (marchDay z) < 10 then
        marchDay z + 59 + if Leap (marchYear z) then 1 else 0
      else
        marchDay z - 306 := by
  obtain ⟨hlt, hle, -⟩ := marchMonth_spec (marchDay_le z)
  unfold dayOfYear civilDay
  rw [Nat.add_sub_cancel]
  by_cases h10 : marchMonth (marchDay z) < 10
  · have hyear : civilYear z = marchYear z := by rw [civilYear, if_pos h10, Nat.add_zero]
    have hmonth : civilMonth z = marchMonth (marchDay z) + 2 := by rw [civilMonth, if_pos h10]
    rw [if_pos h10, hyear, hmonth, daysBefore_march _ h10]
    omega
  · have hmonth : civilMonth z = marchMonth (marchDay z) - 10 := by rw [civilMonth, if_neg h10]
    rw [if_neg h10, hmonth]
    obtain h | h : marchMonth (marchDay z) = 10 ∨ marchMonth (marchDay z) = 11 := by omega
    · rw [h] at hle ⊢
      have hstart : marchMonthDays 10 = 306 := rfl
      have hjanuary : daysBefore (civilYear z) (10 - 10) = 0 := rfl
      omega
    · rw [h] at hle ⊢
      have hstart : marchMonthDays 11 = 337 := rfl
      have hfebruary : daysBefore (civilYear z) (11 - 10) = 31 := rfl
      omega

/-- The day of the March year is 59 or 60 too small from March on, and 306 too large before. -/
theorem marchDay_civil :
    (marchDay z : ℤ) = dayOfYear (civilYear z) (civilMonth z) (civilDay z) +
      if civilMonth z < 2 then 306 else if Leap (civilYear z) then -60 else -59 := by
  obtain ⟨hlt, -, -⟩ := marchMonth_spec (marchDay_le z)
  rw [dayOfYear_civil]
  by_cases h10 : marchMonth (marchDay z) < 10
  · have hyear : civilYear z = marchYear z := by rw [civilYear, if_pos h10, Nat.add_zero]
    have hmonth : civilMonth z = marchMonth (marchDay z) + 2 := by rw [civilMonth, if_pos h10]
    have hlate : ¬ civilMonth z < 2 := by omega
    rw [if_pos h10, if_neg hlate, hyear]
    split <;> omega
  · have hmonth : civilMonth z = marchMonth (marchDay z) - 10 := by rw [civilMonth, if_neg h10]
    have hlate : 306 ≤ marchDay z := by
      unfold marchMonth at h10
      omega
    rw [if_neg h10, if_pos (by omega)]
    omega

theorem le_marchYear {z : ℕ} (h : 719468 ≤ z) : 1969 ≤ marchYear z := by
  have hsum := marchDays_marchYear z
  have hle := marchDay_le z
  by_contra hlt
  unfold marchDays at hsum
  omega

theorem le_civilYear {z : ℕ} (h : 719468 ≤ z) : 1970 ≤ civilYear z := by
  have hyear := le_marchYear h
  have hsum := marchDays_marchYear z
  unfold civilYear
  split
  · by_contra hlt
    obtain heq : marchYear z = 1969 := by omega
    have hstart : marchDays 1969 = 719162 := rfl
    rw [heq, hstart] at hsum
    simp only [marchMonth] at *
    omega
  · omega

theorem dayNumber_civil {z : ℕ} (h : 719468 ≤ z) :
    dayNumber (civilYear z) (civilMonth z) (civilDay z) + 719468 = z := by
  have hsum := marchDays_marchYear z
  have hyear := le_civilYear h
  rw [dayNumber, dayOfYear_civil]
  by_cases h10 : marchMonth (marchDay z) < 10
  · have hcivil : civilYear z = marchYear z := by rw [civilYear, if_pos h10, Nat.add_zero]
    rw [hcivil] at hyear
    have hnew := newYear_add hyear
    have hnext := marchDays_succ (marchYear z - 1)
    rw [Nat.sub_add_cancel (by omega)] at hnext
    rw [if_pos h10, hcivil]
    omega
  · have hcivil : civilYear z = marchYear z + 1 := by rw [civilYear, if_neg h10]
    have hnew := newYear_add (hcivil ▸ hyear)
    rw [Nat.add_sub_cancel] at hnew
    have hlate : 306 ≤ marchDay z := by
      unfold marchMonth at h10
      omega
    rw [if_neg h10, hcivil]
    omega

end Date

end LampUserspace.Calendar
