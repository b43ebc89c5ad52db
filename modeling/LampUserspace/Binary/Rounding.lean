import LampUserspace.Binary.Format

/-! # The rounding of nearby numbers

Rounding to nearest keeps the order, moves a number by at most half a unit of its
last place, and leaves every number of the format where it is. All numbers of a
format are multiples of the least one, and the difference of two that are at most
a factor two apart is again a number of the format.
-/

namespace LampUserspace.Binary

namespace Format

variable {F : Format} {x y : ℚ} {k l : ℕ}

/-! ## Order -/

/-- No value is closer to `x` than that of the pattern `k`, however ties are broken. -/
structure Nearest (F : Format) (x : ℚ) (k : ℕ) : Prop where
  le_inf : k ≤ F.inf
  eq_inf_iff : k = F.inf ↔ F.overflowBound ≤ x
  nearest : k < F.inf → ∀ j < F.inf, |x - F.value k| ≤ |x - F.value j|

theorem NearestEven.toNearest (h : F.NearestEven x k) : F.Nearest x k :=
  ⟨h.le_inf, h.eq_inf_iff, h.nearest⟩

theorem Nearest.next (h : F.Nearest x k) (hk : k + 1 < F.inf)
    (htie : |x - F.value (k + 1)| = |x - F.value k|) : F.Nearest x (k + 1) where
  le_inf := hk.le
  eq_inf_iff := iff_of_false hk.ne fun hx => by
    have := h.eq_inf_iff.mpr hx
    omega
  nearest _ j hj := htie ▸ h.nearest (by omega) j hj

theorem Nearest.mono (hx : F.Nearest x k) (hy : F.Nearest y l) (h : x < y) : k ≤ l := by
  by_contra hlt
  have hk := hx.le_inf
  have hlinf : l ≠ F.inf := by omega
  have hkinf : k ≠ F.inf := fun heq =>
    hlinf (hy.eq_inf_iff.mpr ((hx.eq_inf_iff.mp heq).trans h.le))
  have hvalue := F.value_strictMono (Nat.not_le.mp hlt)
  have hnearx := hx.nearest (by omega) l (by omega)
  have hneary := hy.nearest (by omega) k (by omega)
  -- both numbers lie in the middle of the two values
  have hmidx : F.value l + F.value k ≤ 2 * x := by
    rcases abs_cases (x - F.value k) with hk | hk <;>
      rcases abs_cases (x - F.value l) with hl | hl <;> linarith
  have hmidy : 2 * y ≤ F.value l + F.value k := by
    rcases abs_cases (y - F.value k) with hk | hk <;>
      rcases abs_cases (y - F.value l) with hl | hl <;> linarith
  linarith

theorem Nearest.zero (h : F.Nearest 0 k) : k = 0 := by
  have hk : k < F.inf := by
    refine lt_of_le_of_ne h.le_inf fun heq => ?_
    have hbound := F.value_lt_overflowBound F.inf_pos
    rw [value_zero] at hbound
    exact absurd (h.eq_inf_iff.mp heq) (not_le.mpr hbound)
  have hnear := h.nearest hk 0 F.inf_pos
  rw [value_zero, sub_zero, abs_zero, zero_sub, abs_neg] at hnear
  exact F.value_strictMono.injective ((abs_nonpos_iff.mp hnear).trans F.value_zero.symm)

theorem NearestEven.mono (hx : F.NearestEven x k) (hy : F.NearestEven y l) (h : x ≤ y) :
    k ≤ l := by
  rcases h.lt_or_eq with hlt | rfl
  · exact hx.toNearest.mono hy.toNearest hlt
  · exact (hx.unique hy).le

/-! ## Exact values -/

/-- A small multiple of any power of two of the format is one of its values. -/
theorem exists_value (F : Format) (j : ℕ) {n : ℕ} (hn : n ≤ 2 ^ (F.fractionBits + 1)) :
    ∃ k, F.value k = n * (2 : ℚ) ^ (F.minExponent + j) := by
  induction j generalizing n with
  | zero => exact ⟨0 * 2 ^ F.fractionBits + n, value_binade hn (.inl rfl)⟩
  | succ j ih =>
    rcases Nat.lt_or_ge n (2 ^ F.fractionBits) with hlt | hge
    · rw [Nat.pow_succ] at ih
      obtain ⟨k, hk⟩ := ih (n := n * 2) (by omega)
      refine ⟨k, hk.trans ?_⟩
      rw [Nat.cast_succ, ← add_assoc, two_zpow_succ]
      push_cast
      ring
    · exact ⟨_, value_binade hn (.inr hge)⟩

theorem value_multiple (F : Format) (k : ℕ) : ∃ m : ℕ, F.value k = m * (2 : ℚ) ^ F.minExponent := by
  rcases F.value_on_grid_or_lt 0 k with ⟨m, hm⟩ | ⟨hne, -⟩
  · exact ⟨m, by rwa [Nat.cast_zero, add_zero] at hm⟩
  · exact absurd rfl hne

theorem exists_value_sub (hle : F.value l ≤ F.value k) (hdouble : F.value k ≤ 2 * F.value l) :
    ∃ m ≤ l, F.value m = F.value k - F.value l := by
  obtain ⟨i, n, rfl, hn, hi⟩ := F.exists_binade l
  have hl := value_binade hn.le hi
  have hu := two_zpow_pos (F.minExponent + i)
  rcases F.value_on_grid_or_lt i k with ⟨m, hm⟩ | ⟨hne, hlt⟩
  · rw [hl, hm] at hle hdouble
    have hnm : n ≤ m := by exact_mod_cast le_of_mul_le_mul_right hle hu
    have hmn : m ≤ 2 * n := by
      rw [← mul_assoc] at hdouble
      exact_mod_cast le_of_mul_le_mul_right hdouble hu
    obtain ⟨p, hp⟩ := F.exists_value i (n := m - n) (by omega)
    have hsub : F.value p = F.value k - F.value (i * 2 ^ F.fractionBits + n) := by
      rw [hp, hl, hm, Nat.cast_sub hnm]
      ring
    refine ⟨p, F.value_strictMono.le_iff_le.mp ?_, hsub⟩
    rw [hsub, hl, hm]
    linarith
  · -- a value below the binade is no larger than one in it
    have hge : (2 ^ F.fractionBits : ℚ) ≤ n := by exact_mod_cast hi.resolve_left hne
    have hmul := mul_le_mul_of_nonneg_right hge hu.le
    linarith

/-- Values that are at most a factor two apart have a difference that is a value. -/
theorem exists_value_abs_sub (h : F.value k ≤ 2 * F.value l) (h' : F.value l ≤ 2 * F.value k) :
    ∃ m ≤ max k l, F.value m = |F.value k - F.value l| := by
  rcases le_total (F.value l) (F.value k) with hle | hle
  · obtain ⟨m, hm, heq⟩ := exists_value_sub hle h
    exact ⟨m, hm.trans (le_max_right k l), by rw [heq, abs_of_nonneg (by linarith)]⟩
  · obtain ⟨m, hm, heq⟩ := exists_value_sub hle h'
    exact ⟨m, hm.trans (le_max_left k l), by rw [heq, abs_of_nonpos (by linarith), neg_sub]⟩

/-! ## The error -/

/-- The error is at most half the step from a value that is not above the number. -/
theorem NearestEven.exists_error_le (h : F.NearestEven x k) (hk : k < F.inf) (hx : 0 ≤ x) :
    ∃ l, F.value l ≤ x ∧ |x - F.value k| ≤ 2 ^ F.exponent l / 2 := by
  rcases le_or_gt (F.value k) x with hle | hlt
  · refine ⟨k, hle, ?_⟩
    have hstep := F.value_succ k
    rw [abs_of_nonneg (by linarith)]
    rcases Nat.lt_or_ge (k + 1) F.inf with hnext | hlast
    · have hnear := h.nearest hk (k + 1) hnext
      have hu := two_zpow_pos (F.exponent k)
      rcases abs_cases (x - F.value k) with ha | ha <;>
        rcases abs_cases (x - F.value (k + 1)) with hb | hb <;> linarith
    · have hbound := not_le.mp (mt h.eq_inf_iff.mpr hk.ne)
      rw [overflowBound, show F.inf - 1 = k by omega] at hbound
      linarith
  · obtain ⟨l, rfl⟩ : ∃ l, k = l + 1 := by
      refine Nat.exists_eq_succ_of_ne_zero ?_
      rintro rfl
      rw [value_zero] at hlt
      linarith
    have hstep := F.value_succ l
    have hu := two_zpow_pos (F.exponent l)
    have hnear := h.nearest hk l (by omega)
    refine ⟨l, ?_, ?_⟩
    · rcases abs_cases (x - F.value (l + 1)) with ha | ha <;>
        rcases abs_cases (x - F.value l) with hb | hb <;> linarith
    · rcases abs_cases (x - F.value (l + 1)) with ha | ha <;>
        rcases abs_cases (x - F.value l) with hb | hb <;> linarith

/-- From the least normal number on the error is at most a `2 ^ (t + 1)`th of the number. -/
theorem NearestEven.error_le (h : F.NearestEven x k) (hk : k < F.inf)
    (hx : 2 ^ F.fractionBits * (2 : ℚ) ^ F.minExponent ≤ x) :
    |x - F.value k| * 2 ^ (F.fractionBits + 1) ≤ x := by
  have hu := two_zpow_pos F.minExponent
  have hpow : (0 : ℚ) < 2 ^ F.fractionBits := pow_pos two_pos _
  obtain ⟨l, hl, herror⟩ := h.exists_error_le hk (by nlinarith)
  have hbinade : 2 ^ F.fractionBits * (2 : ℚ) ^ F.exponent l ≤ x := by
    obtain ⟨j, n, rfl, hn, rfl | hge⟩ := F.exists_binade l
    · rw [exponent_binade hn (.inl rfl), Nat.cast_zero, add_zero]
      exact hx
    · rw [value_binade hn.le (.inr hge)] at hl
      rw [exponent_binade hn (.inr hge)]
      have hcast : (2 ^ F.fractionBits : ℚ) ≤ n := by exact_mod_cast hge
      exact (mul_le_mul_of_nonneg_right hcast (two_zpow_pos _).le).trans hl
  rw [pow_succ]
  nlinarith

/-- Below the least normal number the error is at most half the least number. -/
theorem NearestEven.error_le_max (h : F.NearestEven x k) (hk : k < F.inf) (hx : 0 ≤ x) :
    |x - F.value k| * 2 ^ (F.fractionBits + 1) ≤
      max x (2 ^ F.fractionBits * (2 : ℚ) ^ F.minExponent) := by
  rcases le_or_gt (2 ^ F.fractionBits * (2 : ℚ) ^ F.minExponent) x with hge | hlt
  · exact (h.error_le hk hge).trans (le_max_left ..)
  · have hpow : (0 : ℚ) < 2 ^ F.fractionBits := pow_pos two_pos _
    obtain ⟨l, hl, herror⟩ := h.exists_error_le hk hx
    have hexponent : F.exponent l = F.minExponent := by
      obtain ⟨j, n, rfl, hn, hj⟩ := F.exists_binade l
      rw [exponent_binade hn hj]
      rcases hj with rfl | hge
      · rw [Nat.cast_zero, add_zero]
      · -- a number of a higher binade is too large
        by_contra hne
        have hcast : (2 ^ F.fractionBits : ℚ) ≤ n := by exact_mod_cast hge
        rw [value_binade hn.le (.inr hge)] at hl
        have hmono : (2 : ℚ) ^ F.minExponent ≤ 2 ^ (F.minExponent + j) :=
          zpow_le_zpow_right₀ one_le_two (by omega)
        have hmul := mul_le_mul hcast hmono (two_zpow_pos _).le (hpow.le.trans hcast)
        linarith
    rw [hexponent] at herror
    refine le_max_of_le_right ?_
    rw [pow_succ]
    nlinarith

end Format

end LampUserspace.Binary
