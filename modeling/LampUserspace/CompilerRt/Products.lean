import LampUserspace.CompilerRt.Sums

/-! # Products and quotients in order

Rounded products and quotients keep or turn the order of their operands by the
sign of the other one, differ from the exact result by at most a
`2 ^ 53`rd of it or of the least normal number, and undo each other where they are
exact.
-/

namespace LampUserspace.CompilerRt

open Binary

variable {a b c r s : Dbits} {x y : ℚ} {z : Bool}

/-! ## Signs -/

theorem msb_of_neg (h : binary64.signedValue a < 0) : a.msb = true := by
  by_contra hmsb
  rw [Bool.not_eq_true] at hmsb
  rw [signedValue_eq_value hmsb] at h
  exact absurd (binary64.value_nonneg _) (not_le.mpr h)

theorem msb_of_pos (h : 0 < binary64.signedValue a) : a.msb = false := by
  by_contra hmsb
  rw [Bool.not_eq_false] at hmsb
  rw [signedValue_eq, if_pos hmsb] at h
  exact absurd (binary64.value_nonneg (magnitude a)) (by linarith)

theorem sumRounded_of_rounds
    (hneg : x < 0 → (0 < binary64.signedValue a ∧ binary64.signedValue b < 0) ∨
      (binary64.signedValue a < 0 ∧ 0 < binary64.signedValue b))
    (hpos : 0 < x → (0 < binary64.signedValue a ∧ 0 < binary64.signedValue b) ∨
      (binary64.signedValue a < 0 ∧ binary64.signedValue b < 0))
    (h : binary64.Rounds (a.msb ^^ b.msb) |x| r) : SumRounded x (a.msb ^^ b.msb) r where
  nearest := h.nearestEven
  neg hx := by
    rw [h.msb_eq]
    rcases hneg hx with ⟨ha, hb⟩ | ⟨ha, hb⟩
    · rw [msb_of_pos ha, msb_of_neg hb, Bool.false_xor]
    · rw [msb_of_neg ha, msb_of_pos hb, Bool.xor_false]
  pos hx := by
    rw [h.msb_eq]
    rcases hpos hx with ⟨ha, hb⟩ | ⟨ha, hb⟩
    · rw [msb_of_pos ha, msb_of_pos hb, Bool.xor_self]
    · rw [msb_of_neg ha, msb_of_neg hb, Bool.xor_self]
  zero _ := h.msb_eq

theorem muldf3_total (ha : binary64.IsFinite a) (hb : binary64.IsFinite b) :
    Total (muldf3 a b)
      (SumRounded (binary64.signedValue a * binary64.signedValue b) (a.msb ^^ b.msb)) := by
  refine (muldf3_magnitudes ha hb).mono fun r _ hr =>
    sumRounded_of_rounds mul_neg_iff.mp mul_pos_iff.mp ?_
  rwa [abs_mul, Format.abs_signedValue, Format.abs_signedValue]

theorem divdf3_total (ha : binary64.IsFinite a) (hb : binary64.IsFinite b)
    (hne : binary64.signedValue b ≠ 0) :
    Total (divdf3 a b)
      (SumRounded (binary64.signedValue a / binary64.signedValue b) (a.msb ^^ b.msb)) := by
  refine (divdf3_magnitudes ha hb hne).mono fun r _ hr =>
    sumRounded_of_rounds div_neg_iff.mp div_pos_iff.mp ?_
  rwa [abs_div, Format.abs_signedValue, Format.abs_signedValue]

/-! ## Comparisons -/

theorem ledf2_iff_value (ha : binary64.IsFinite a) (hb : binary64.IsFinite b) :
    ledf2 a b ≤ 0 ↔ binary64.signedValue a ≤ binary64.signedValue b := by
  rw [ledf2_iff (isFinite_not_isNan ha) (isFinite_not_isNan hb), signedValue_le_iff ha hb]

theorem ltdf2_iff_value (ha : binary64.IsFinite a) (hb : binary64.IsFinite b) :
    ltdf2 a b < 0 ↔ binary64.signedValue a < binary64.signedValue b := by
  rw [signedValue_lt_iff ha hb, ltdf2, dfCmp3way_eq (isFinite_not_isNan ha) (isFinite_not_isNan hb)]
  split_ifs <;> omega

theorem isFinite_zero : binary64.IsFinite (0 : Dbits) := binary64.inf_pos

theorem signedValue_zero : binary64.signedValue (0 : Dbits) = 0 := Format.signedValue_eq_zero rfl

theorem ledf2_of_le {u v : Option Dbits} {z z' : Bool} (hu : Total u (SumRounded x z))
    (hv : Total v (SumRounded y z')) (h : x ≤ y) :
    Total u fun r => Total v fun s => ledf2 r s ≤ 0 := by
  refine hu.mono fun r _ hr => hv.mono fun s _ hs => ?_
  rw [ledf2_iff hr.not_isNan hs.not_isNan]
  exact hr.signedMagnitude_le hs h

/-! ## The functions -/

/-- Products and quotients grow with their first operand when the second is positive, and fall when
it is negative. Quotients of a number that is not negative fall as a divisor of one sign grows. -/
theorem mul_div_monotone (ha : binary64.IsFinite a) (hb : binary64.IsFinite b)
    (hc : binary64.IsFinite c) (hle : ledf2 a b ≤ 0) :
    (ledf2 0 c ≤ 0 → Total (muldf3 a c) fun r => Total (muldf3 b c) fun s => ledf2 r s ≤ 0) ∧
    (ledf2 c 0 ≤ 0 → Total (muldf3 b c) fun r => Total (muldf3 a c) fun s => ledf2 r s ≤ 0) ∧
    (ltdf2 0 c < 0 → Total (divdf3 a c) fun r => Total (divdf3 b c) fun s => ledf2 r s ≤ 0) ∧
    (ltdf2 c 0 < 0 → Total (divdf3 b c) fun r => Total (divdf3 a c) fun s => ledf2 r s ≤ 0) ∧
    (ledf2 0 c ≤ 0 → ltdf2 0 a < 0 ∨ ltdf2 b 0 < 0 →
      Total (divdf3 c b) fun r => Total (divdf3 c a) fun s => ledf2 r s ≤ 0) := by
  rw [ledf2_iff_value ha hb] at hle
  rw [ledf2_iff_value isFinite_zero hc, ledf2_iff_value hc isFinite_zero,
    ltdf2_iff_value isFinite_zero hc, ltdf2_iff_value hc isFinite_zero,
    ltdf2_iff_value isFinite_zero ha, ltdf2_iff_value hb isFinite_zero, signedValue_zero]
  refine ⟨fun h => ?_, fun h => ?_, fun h => ?_, fun h => ?_, fun h hsign => ?_⟩
  · exact ledf2_of_le (muldf3_total ha hc) (muldf3_total hb hc) (mul_le_mul_of_nonneg_right hle h)
  · exact ledf2_of_le (muldf3_total hb hc) (muldf3_total ha hc) (mul_le_mul_of_nonpos_right hle h)
  · exact ledf2_of_le (divdf3_total ha hc h.ne') (divdf3_total hb hc h.ne')
      (div_le_div_of_nonneg_right hle h.le)
  · exact ledf2_of_le (divdf3_total hb hc h.ne) (divdf3_total ha hc h.ne)
      (div_le_div_of_nonpos_of_le h.le hle)
  · rcases hsign with hpos | hneg
    · exact ledf2_of_le (divdf3_total hc hb (hpos.trans_le hle).ne') (divdf3_total hc ha hpos.ne')
        (div_le_div_of_nonneg_left h hpos hle)
    · refine ledf2_of_le (divdf3_total hc hb hneg.ne) (divdf3_total hc ha (hle.trans_lt hneg).ne) ?_
      rw [div_eq_mul_one_div, div_eq_mul_one_div (binary64.signedValue c)]
      exact mul_le_mul_of_nonneg_left (one_div_le_one_div_of_neg_of_le hneg hle) h

/-- One and its successor, times the least positive number. -/
theorem mul_div_monotone_one :
    Total (muldf3 0x3FF0000000000000 1) fun r =>
      Total (muldf3 0x3FF0000000000001 1) fun s => ledf2 r s ≤ 0 :=
  (mul_div_monotone (by decide) (by decide) (by decide) (by decide)).1 (by decide)

/-- A product or quotient that does not overflow differs from the exact one by at most a `2 ^ 53`rd
of it, or of the least normal number. -/
theorem mul_div_error (ha : binary64.IsFinite a) (hb : binary64.IsFinite b) :
    (Total (muldf3 a b) fun r => binary64.IsFinite r →
      |binary64.signedValue r - binary64.signedValue a * binary64.signedValue b| * 2 ^ 53 ≤
        max |binary64.signedValue a * binary64.signedValue b| (2 ^ (-1022 : ℤ))) ∧
    (binary64.signedValue b ≠ 0 → Total (divdf3 a b) fun r => binary64.IsFinite r →
      |binary64.signedValue r - binary64.signedValue a / binary64.signedValue b| * 2 ^ 53 ≤
        max |binary64.signedValue a / binary64.signedValue b| (2 ^ (-1022 : ℤ))) := by
  have hleast : (2 : ℚ) ^ binary64.fractionBits * 2 ^ binary64.minExponent = 2 ^ (-1022 : ℤ) := by
    rw [← zpow_natCast, ← zpow_add₀ two_ne_zero]
    rfl
  have herror : ∀ {x : ℚ} {z : Bool} {r : Dbits}, SumRounded x z r → binary64.IsFinite r →
      |binary64.signedValue r - x| * 2 ^ 53 ≤ max |x| (2 ^ (-1022 : ℤ)) := by
    intro x z r hr hfin
    rw [hr.error_eq, ← hleast]
    exact hr.nearest.error_le_max hfin (abs_nonneg x)
  exact ⟨(muldf3_total ha hb).mono fun r _ hr hfin => herror hr hfin,
    fun hne => (divdf3_total ha hb hne).mono fun r _ hr hfin => herror hr hfin⟩

/-- The least positive number, halved and with its square. -/
theorem mul_div_error_least :
    Total (muldf3 1 1) fun r => binary64.IsFinite r →
      |binary64.signedValue r - binary64.signedValue (1 : Dbits) *
          binary64.signedValue (1 : Dbits)| * 2 ^ 53 ≤
        max |binary64.signedValue (1 : Dbits) * binary64.signedValue (1 : Dbits)|
          (2 ^ (-1022 : ℤ)) :=
  (mul_div_error (by decide) (by decide)).1

/-! ## Exact results -/

theorem exact_of_rounds {k : ℕ} (h : binary64.Rounds z x r) (hk : k < binary64.inf)
    (hx : binary64.value k = x) :
    binary64.IsFinite r ∧ binary64.value (magnitude r) = x := by
  obtain rfl : k = magnitude r :=
    (Format.NearestEven.of_value hk).unique (hx ▸ h.nearestEven)
  exact ⟨hk, hx⟩

theorem eq_of_rounds (ha : binary64.IsFinite a)
    (h : binary64.Rounds a.msb (binary64.value (magnitude a)) r) : r = a :=
  eq_of_sign_magnitude (by decide) h.msb_eq (h.nearestEven.unique (.of_value ha))

/-- Division undoes an exact multiplication, and multiplication an exact division, bit for bit, the
sign of a zero included. -/
theorem mul_div_undone (ha : binary64.IsFinite a) (hb : binary64.IsFinite b)
    (hne : binary64.signedValue b ≠ 0) :
    ((∃ k < binary64.inf,
        binary64.value k = |binary64.signedValue a * binary64.signedValue b|) →
      Total (muldf3 a b) fun r => Total (divdf3 r b) (· = a)) ∧
    ((∃ k < binary64.inf,
        binary64.value k = |binary64.signedValue a / binary64.signedValue b|) →
      Total (divdf3 a b) fun r => Total (muldf3 r b) (· = a)) := by
  have hsign : (a.msb ^^ b.msb ^^ b.msb) = a.msb := by
    rw [Bool.xor_assoc, Bool.xor_self, Bool.xor_false]
  have habs : binary64.value (magnitude b) ≠ 0 := by
    rw [← Format.abs_signedValue]
    exact abs_ne_zero.mpr hne
  rw [abs_mul, abs_div, Format.abs_signedValue, Format.abs_signedValue]
  constructor
  · rintro ⟨k, hk, hexact⟩
    refine (muldf3_magnitudes ha hb).mono fun r _ hr => ?_
    obtain ⟨hfin, hvalue⟩ := exact_of_rounds hr hk hexact
    refine (divdf3_magnitudes hfin hb hne).mono fun s _ hs => eq_of_rounds ha ?_
    rwa [hr.msb_eq, hsign, hvalue, mul_div_cancel_right₀ _ habs] at hs
  · rintro ⟨k, hk, hexact⟩
    refine (divdf3_magnitudes ha hb hne).mono fun r _ hr => ?_
    obtain ⟨hfin, hvalue⟩ := exact_of_rounds hr hk hexact
    refine (muldf3_magnitudes hfin hb).mono fun s _ hs => eq_of_rounds ha ?_
    rwa [hr.msb_eq, hsign, hvalue, div_mul_cancel₀ _ habs] at hs

/-- A zero with its sign, and one. -/
theorem mul_div_undone_zero :
    Total (muldf3 0x8000000000000000 0x3FF0000000000000) fun r =>
      Total (divdf3 r 0x3FF0000000000000) (· = 0x8000000000000000) := by
  have hzero : binary64.signedValue (0x8000000000000000 : Dbits) = 0 :=
    Format.signedValue_eq_zero (by decide)
  have hone : binary64.signedValue (0x3FF0000000000000 : Dbits) ≠ 0 := by
    rw [← abs_ne_zero, Format.abs_signedValue, value_of_magnitude (j := 1022) (n := 2 ^ 52)
      (by decide) (by decide) (by decide)]
    norm_num
  refine (mul_div_undone (by decide) (by decide) hone).1 ⟨0, by decide, ?_⟩
  rw [hzero, zero_mul, abs_zero, Format.value_zero]

end LampUserspace.CompilerRt
