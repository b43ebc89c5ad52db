import Mathlib.Data.Nat.Notation

/-! # Day numbers of the Gregorian calendar

Days are counted from 1 March of year 0. Years that begin in March put the leap
day at their end, so the length of the first `y` years is a closed form in `y`,
and the year of a day is recovered inside its era of 400 years by one division.
-/

namespace LampUserspace.Calendar

def Leap (y : ℕ) : Prop := y % 4 = 0 ∧ (y % 100 ≠ 0 ∨ y % 400 = 0)

instance decidableLeap (y : ℕ) : Decidable (Leap y) := inferInstanceAs (Decidable (_ ∧ _))

/-- The days from 1 March of year 0 to 1 March of year `y`. -/
def marchDays (y : ℕ) : ℕ := 365 * y + y / 4 - y / 100 + y / 400

theorem marchDays_succ (y : ℕ) :
    marchDays (y + 1) = marchDays y + 365 + if Leap (y + 1) then 1 else 0 := by
  have hcentury : y / 100 ≤ y / 4 := Nat.div_le_div_left (by decide) (by decide)
  have hquarter : (y + 1) / 4 = y / 4 + if (y + 1) % 4 = 0 then 1 else 0 := by split <;> omega
  have hcentury' : (y + 1) / 100 = y / 100 + if (y + 1) % 100 = 0 then 1 else 0 := by
    split <;> omega
  have hera : (y + 1) / 400 = y / 400 + if (y + 1) % 400 = 0 then 1 else 0 := by
    split <;> omega
  have h100 : (y + 1) % 100 = 0 → (y + 1) % 4 = 0 := by omega
  have h400 : (y + 1) % 400 = 0 → (y + 1) % 100 = 0 := by omega
  unfold marchDays Leap
  rw [hquarter, hcentury', hera]
  by_cases h4 : (y + 1) % 4 = 0 <;> by_cases hc : (y + 1) % 100 = 0 <;>
    by_cases he : (y + 1) % 400 = 0 <;> simp_all <;> omega

theorem marchDays_era (era y : ℕ) :
    marchDays (y + era * 400) = era * 146097 + marchDays y := by
  unfold marchDays
  omega

/-- The year within its era of the day `doe` of that era. -/
def yearOfEra (doe : ℕ) : ℕ := (doe - doe / 1460 + doe / 36524 - doe / 146096) / 365

/-- Every day of an era falls on a day of a century, of a four-year cycle and of a year. -/
theorem exists_cycles {doe : ℕ} (h : doe < 146097) :
    ∃ c q a d : ℕ, c < 4 ∧ q < 25 ∧ a < 4 ∧ d ≤ 365 ∧ (d = 365 → a = 3) ∧
      (q = 24 → d = 365 → c = 3) ∧ doe = 36524 * c + 1461 * q + 365 * a + d := by
  -- the last century of an era and the last year of a cycle are one day longer
  generalize hc : min (doe / 36524) 3 = c
  have hc3 : c ≤ 3 := by omega
  have hle : 36524 * c ≤ doe := by omega
  have hlt : doe - 36524 * c ≤ 36524 := by omega
  have hlast : doe - 36524 * c = 36524 → c = 3 := by omega
  generalize hr : doe - 36524 * c = r at hlt hlast
  generalize ha : min (r % 1461 / 365) 3 = a
  exact ⟨c, r / 1461, a, r % 1461 - 365 * a, by omega⟩

theorem yearOfEra_cycles {c q a d : ℕ} (hc : c < 4) (hq : q < 25) (ha : a < 4) (hd : d ≤ 365)
    (ha3 : d = 365 → a = 3) (hc3 : q = 24 → d = 365 → c = 3) :
    yearOfEra (36524 * c + 1461 * q + 365 * a + d) = 100 * c + 4 * q + a := by
  generalize hdoe : 36524 * c + 1461 * q + 365 * a + d = doe
  unfold yearOfEra
  rcases Nat.lt_or_ge doe 146096 with hlt | hge
  · have hcentury : doe / 36524 = c := by
      have h : 1461 * q + 365 * a + d < 36524 := by omega
      omega
    have hera : doe / 146096 = 0 := by omega
    have hcycle : doe / 1460 = 25 * c + q + (24 * c + q + 365 * a + d) / 1460 := by omega
    have hlow : (24 * c + q + 365 * a + d) / 1460 ≤ d := by omega
    have hhigh : d ≤ 364 + (24 * c + q + 365 * a + d) / 1460 := by omega
    rw [hcentury, hera, hcycle]
    omega
  · -- only the last day of the era is left
    obtain rfl : c = 3 := by omega
    obtain rfl : q = 24 := by omega
    obtain rfl : a = 3 := by omega
    obtain rfl : d = 365 := by omega
    subst hdoe
    rfl

/-- The year of a day of an era begins on that day or within the 365 days before it. -/
theorem yearOfEra_spec {doe : ℕ} (h : doe < 146097) :
    yearOfEra doe < 400 ∧ marchDays (yearOfEra doe) ≤ doe ∧
      doe ≤ marchDays (yearOfEra doe) + 365 := by
  obtain ⟨c, q, a, d, hc, hq, ha, hd, ha3, hc3, rfl⟩ := exists_cycles h
  rw [yearOfEra_cycles hc hq ha hd ha3 hc3]
  have hquarter : (100 * c + 4 * q + a) / 4 = 25 * c + q := by omega
  have hcentury : (100 * c + 4 * q + a) / 100 = c := by omega
  have hera : (100 * c + 4 * q + a) / 400 = 0 := by omega
  unfold marchDays
  rw [hquarter, hcentury, hera]
  omega

theorem lt_marchDays_yearOfEra {doe : ℕ} (h : doe < 146097) :
    doe < marchDays (yearOfEra doe + 1) := by
  obtain ⟨c, q, a, d, hc, hq, ha, hd, ha3, hc3, rfl⟩ := exists_cycles h
  rw [yearOfEra_cycles hc hq ha hd ha3 hc3]
  have hcentury : (100 * c + 4 * q + a) / 100 = c := by omega
  have hquarter : (100 * c + 4 * q + a) / 4 = 25 * c + q := by omega
  have hera : (100 * c + 4 * q + a) / 400 = 0 := by omega
  have hyear : marchDays (100 * c + 4 * q + a) = 36524 * c + 1461 * q + 365 * a := by
    unfold marchDays
    rw [hquarter, hcentury, hera]
    omega
  rw [marchDays_succ, hyear]
  by_cases h365 : d = 365
  · have hleap : Leap (100 * c + 4 * q + a + 1) := by
      unfold Leap
      omega
    rw [if_pos hleap]
    omega
  · omega

def marchYear (z : ℕ) : ℕ := yearOfEra (z % 146097) + z / 146097 * 400

def marchDay (z : ℕ) : ℕ := z % 146097 - marchDays (yearOfEra (z % 146097))

theorem marchDays_marchYear (z : ℕ) : marchDays (marchYear z) + marchDay z = z := by
  obtain ⟨-, hle, -⟩ := yearOfEra_spec (Nat.mod_lt z (by decide : 0 < 146097))
  unfold marchYear marchDay
  rw [marchDays_era]
  omega

theorem marchDay_lt (z : ℕ) :
    marchDay z < 365 + if Leap (marchYear z + 1) then 1 else 0 := by
  have hlt := lt_marchDays_yearOfEra (Nat.mod_lt z (by decide : 0 < 146097))
  have hday := marchDays_marchYear z
  have hnext := marchDays_succ (marchYear z)
  have hera : marchDays (marchYear z + 1) =
      z / 146097 * 146097 + marchDays (yearOfEra (z % 146097) + 1) := by
    rw [← marchDays_era]
    congr 1
    unfold marchYear
    omega
  omega

theorem marchDay_le (z : ℕ) : marchDay z ≤ 365 := by
  have hlt := marchDay_lt z
  split at hlt <;> omega

/-- The month, counted from March, of a day of a March year. -/
def marchMonth (doy : ℕ) : ℕ := (5 * doy + 2) / 153

/-- The days of a March year before its month `mp`. -/
def marchMonthDays (mp : ℕ) : ℕ := (153 * mp + 2) / 5

theorem marchMonth_spec {doy : ℕ} (h : doy ≤ 365) :
    marchMonth doy < 12 ∧ marchMonthDays (marchMonth doy) ≤ doy ∧
      doy ≤ marchMonthDays (marchMonth doy) + 30 := by
  unfold marchMonth marchMonthDays
  omega

end LampUserspace.Calendar
