import LampUserspace.Calendar.Civil

/-! # The order of dates

Day numbers increase along the dates, so a day has one date.
-/

namespace LampUserspace.Calendar

open Finset

variable {y y' m m' d d' : ℕ}

structure ValidDate (y m d : ℕ) : Prop where
  year : 1970 ≤ y
  month : m < 12
  pos : 1 ≤ d
  le : d ≤ monthLength y m

theorem newYear_succ (h : 1970 ≤ y) : newYear (y + 1) = newYear y + yearLength y :=
  sum_Ico_succ_top h _

theorem newYear_mono (h : 1970 ≤ y) (hle : y ≤ y') : newYear y ≤ newYear y' := by
  induction y', hle using Nat.le_induction with
  | base => exact Nat.le_refl _
  | succ z hz ih =>
    rw [newYear_succ (h.trans hz)]
    exact ih.trans (Nat.le_add_right _ _)

theorem daysBefore_succ (y m : ℕ) : daysBefore y (m + 1) = daysBefore y m + monthLength y m :=
  sum_range_succ _ _

theorem daysBefore_mono (y : ℕ) : Monotone (daysBefore y) :=
  monotone_nat_of_le_succ fun m => by
    rw [daysBefore_succ]
    exact Nat.le_add_right _ _

theorem daysBefore_year (y : ℕ) : daysBefore y 12 = yearLength y := by
  have hmonths := daysBefore_march y (show 9 < 10 by decide)
  have hdecember : monthLength y 11 = 31 := rfl
  have hlast : marchMonthDays 9 = 275 := rfl
  rw [daysBefore_succ, hmonths, hdecember, hlast, yearLength]
  split <;> rfl

namespace ValidDate

theorem dayOfYear_lt (h : ValidDate y m d) : dayOfYear y m d < daysBefore y (m + 1) := by
  have hpos := h.pos
  have hle := h.le
  rw [daysBefore_succ, dayOfYear]
  omega

theorem dayNumber_lt_newYear (h : ValidDate y m d) : dayNumber y m d < newYear (y + 1) := by
  rw [newYear_succ h.year, ← daysBefore_year, dayNumber]
  exact Nat.add_lt_add_left (h.dayOfYear_lt.trans_le (daysBefore_mono y h.month)) _

theorem dayNumber_lt (h : ValidDate y m d) (h' : ValidDate y' m' d')
    (hlt : y < y' ∨ y = y' ∧ (m < m' ∨ m = m' ∧ d < d')) :
    dayNumber y m d < dayNumber y' m' d' := by
  rcases hlt with hyear | ⟨rfl, hmonth | ⟨rfl, hday⟩⟩
  · have hnew := newYear_mono (h.year.trans (Nat.le_succ y)) hyear
    exact (h.dayNumber_lt_newYear.trans_le hnew).trans_le (Nat.le_add_right _ _)
  · have hlt := h.dayOfYear_lt.trans_le (daysBefore_mono y hmonth)
    exact Nat.add_lt_add_left (hlt.trans_le (Nat.le_add_right _ _)) _
  · have hpos := h.pos
    unfold dayNumber dayOfYear
    omega

end ValidDate

end LampUserspace.Calendar
