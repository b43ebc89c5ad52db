import LampUserspace.Binary.Rounding
import LampUserspace.CompilerRt.Arithmetic
import LampUserspace.CompilerRt.Compare

/-! # Sums and differences in order

Rounded sums keep the order of their operands, as the comparisons see it, and a
difference is zero only for equal numbers. Differences of numbers close to each
other are exact, and no sum has a relative error above `2 ^ -53`.
-/

namespace LampUserspace.CompilerRt

open Binary

variable {a b c r s : Dbits} {x y : ℚ} {z z' : Bool}

/-! ## Operands -/

theorem subdf3_total (ha : binary64.IsFinite a) (hb : binary64.IsFinite b) :
    Total (subdf3 a b)
      (SumRounded (binary64.signedValue a - binary64.signedValue b) (a.msb && !b.msb)) := by
  obtain ⟨hsign, hmag⟩ := flip_sign b
  have hneg : binary64.signedValue (b ^^^ dSign) = -binary64.signedValue b := by
    rw [signedValue_eq, signedValue_eq, hsign, hmag]
    cases b.msb <;> simp
  have hsub := adddf3_total ha (show binary64.IsFinite (b ^^^ dSign) by rwa [Format.IsFinite, hmag])
  rwa [hneg, ← sub_eq_add_neg, hsign] at hsub

theorem isFinite_not_isNan (ha : binary64.IsFinite a) : ¬ binary64.IsNan a :=
  not_lt.mpr (le_of_lt ha)

theorem signedValue_le_iff (ha : binary64.IsFinite a) (hb : binary64.IsFinite b) :
    binary64.signedValue a ≤ binary64.signedValue b ↔ signedMagnitude a ≤ signedMagnitude b := by
  constructor
  · intro h
    by_contra hlt
    exact absurd (binary64.signedValue_lt_of_lt (not_le.mp hlt)) (not_lt.mpr h)
  · intro h
    rcases h.lt_or_eq with hlt | heq
    · exact (binary64.signedValue_lt_of_lt hlt).le
    · have hext := binary64.extended_eq_of_eq heq
      rw [Format.extended, Format.extended, if_neg (ne_of_lt ha), if_neg (ne_of_lt hb)] at hext
      exact (WithTop.coe_inj.mp (WithBot.coe_inj.mp hext)).le

theorem signedValue_lt_iff (ha : binary64.IsFinite a) (hb : binary64.IsFinite b) :
    binary64.signedValue a < binary64.signedValue b ↔ signedMagnitude a < signedMagnitude b := by
  rw [← not_le, signedValue_le_iff hb ha, not_le]

/-- The comparison of numbers is that of their magnitudes with their signs. -/
theorem dfCmp3way_eq (ha : ¬ binary64.IsNan a) (hb : ¬ binary64.IsNan b) (n : ℤ) :
    dfCmp3way a b n = if signedMagnitude a < signedMagnitude b then -1
      else if signedMagnitude b < signedMagnitude a then 1 else 0 := by
  have hnot : ¬ (dfIsNan a || dfIsNan b) = true := by
    rw [Bool.or_eq_true, dfIsNan_iff, dfIsNan_iff]
    exact not_or.mpr ⟨ha, hb⟩
  unfold dfCmp3way
  simp only [if_neg hnot, gt_iff_lt, dfKey_lt_iff]

theorem ledf2_iff (ha : ¬ binary64.IsNan a) (hb : ¬ binary64.IsNan b) :
    ledf2 a b ≤ 0 ↔ signedMagnitude a ≤ signedMagnitude b := by
  rw [ledf2, dfCmp3way_eq ha hb]
  split_ifs <;> omega

/-! ## Rounded sums -/

namespace SumRounded

theorem not_isNan (h : SumRounded x z r) : ¬ binary64.IsNan r := not_lt.mpr h.nearest.le_inf

theorem signedMagnitude_eq (h : SumRounded x z r) :
    signedMagnitude r = if x < 0 then -(magnitude r : ℤ) else magnitude r := by
  unfold signedMagnitude
  rcases lt_trichotomy x 0 with hneg | rfl | hpos
  · rw [if_pos (h.neg hneg), if_pos hneg]
  · have hzero : magnitude r = 0 := Format.NearestEven.zero_iff.mp (abs_zero (α := ℚ) ▸ h.nearest)
    rw [hzero, if_neg (lt_irrefl _)]
    split <;> rfl
  · rw [h.pos hpos, if_neg Bool.false_ne_true, if_neg hpos.not_gt]

theorem signedMagnitude_le (hx : SumRounded x z r) (hy : SumRounded y z' s) (h : x ≤ y) :
    signedMagnitude r ≤ signedMagnitude s := by
  rw [hx.signedMagnitude_eq, hy.signedMagnitude_eq]
  split_ifs with hx0 hy0 hy0
  · have hmag := hy.nearest.mono hx.nearest (by rw [abs_of_neg hx0, abs_of_neg hy0]; linarith)
    omega
  · omega
  · linarith
  · have hmag := hx.nearest.mono hy.nearest
      (by rw [abs_of_nonneg (by linarith), abs_of_nonneg (by linarith)]; exact h)
    omega

theorem exact {k : ℕ} (h : SumRounded x z r) (hk : k < binary64.inf)
    (hx : binary64.value k = |x|) : binary64.IsFinite r ∧ binary64.signedValue r = x := by
  obtain rfl : k = magnitude r := (Format.NearestEven.of_value hk).unique (hx ▸ h.nearest)
  refine ⟨hk, ?_⟩
  rw [signedValue_eq, hx]
  rcases lt_trichotomy x 0 with hneg | rfl | hpos
  · rw [if_pos (h.neg hneg), abs_of_neg hneg, neg_neg]
  · simp
  · rw [h.pos hpos, if_neg Bool.false_ne_true, abs_of_pos hpos]

end SumRounded

/-! ## Multiples of the least number -/

theorem signedValue_multiple (a : Dbits) :
    ∃ m : ℤ, binary64.signedValue a = m * (2 : ℚ) ^ binary64.minExponent := by
  obtain ⟨m, hm⟩ := binary64.value_multiple (magnitude a)
  rw [signedValue_eq, hm]
  split
  · exact ⟨-m, by push_cast; ring⟩
  · exact ⟨m, by push_cast; ring⟩

/-- A multiple of the least number is a value, or not smaller than the least normal number. -/
theorem exists_value_or_le {m : ℤ} (hx : x = m * (2 : ℚ) ^ binary64.minExponent) :
    (∃ k < binary64.inf, binary64.value k = |x|) ∨
      2 ^ binary64.fractionBits * (2 : ℚ) ^ binary64.minExponent ≤ |x| := by
  have hu := two_zpow_pos binary64.minExponent
  have habs : |x| = m.natAbs * (2 : ℚ) ^ binary64.minExponent := by
    rw [hx, abs_mul, abs_of_pos hu, Nat.cast_natAbs, Int.cast_abs]
  rcases Nat.lt_or_ge m.natAbs (2 ^ binary64.fractionBits) with hlt | hge
  · refine .inl ⟨0 * 2 ^ binary64.fractionBits + m.natAbs, ?_, ?_⟩
    · rw [Nat.zero_mul, Nat.zero_add, binary64_inf]
      exact hlt.trans (by decide)
    · rw [Format.value_binade (by rw [pow_succ]; omega) (.inl rfl), habs, Nat.cast_zero, add_zero]
  · refine .inr ?_
    rw [habs]
    exact mul_le_mul_of_nonneg_right (by exact_mod_cast hge) hu.le

theorem SumRounded.error_eq (h : SumRounded x z r) :
    |binary64.signedValue r - x| = abs (|x| - binary64.value (magnitude r)) := by
  rw [signedValue_eq]
  rcases lt_trichotomy x 0 with hneg | rfl | hpos
  · rw [if_pos (h.neg hneg), abs_of_neg hneg]
    congr 1
    ring
  · split <;> simp [abs_neg]
  · rw [h.pos hpos, if_neg Bool.false_ne_true, abs_of_pos hpos, abs_sub_comm]

theorem SumRounded.error_le {m : ℤ} (h : SumRounded x z r) (hr : binary64.IsFinite r)
    (hx : x = m * (2 : ℚ) ^ binary64.minExponent) :
    |binary64.signedValue r - x| * 2 ^ 53 ≤ |x| := by
  rcases exists_value_or_le hx with ⟨k, hk, hvalue⟩ | hge
  · rw [(h.exact hk hvalue).2, sub_self, abs_zero, zero_mul]
    exact abs_nonneg x
  · rw [h.error_eq]
    exact h.nearest.error_le hr hge

theorem SumRounded.ne_zero {m : ℤ} (h : SumRounded x z r)
    (hx : x = m * (2 : ℚ) ^ binary64.minExponent) (hne : x ≠ 0) : magnitude r ≠ 0 := by
  have hu := two_zpow_pos binary64.minExponent
  intro hzero
  rcases exists_value_or_le hx with ⟨k, hk, hvalue⟩ | hge
  · obtain ⟨-, heq⟩ := h.exact hk hvalue
    exact hne (heq.symm.trans (Format.signedValue_eq_zero hzero))
  · have hfin : binary64.IsFinite r := by
      rw [Format.IsFinite, hzero]
      exact binary64.inf_pos
    have herror := h.error_le hfin hx
    rw [Format.signedValue_eq_zero hzero, zero_sub, abs_neg] at herror
    have hpos := abs_pos.mpr hne
    linarith

/-! ## The functions -/

/-- Sums grow with both operands, and differences with the first and against the second. -/
theorem add_sub_monotone (ha : binary64.IsFinite a) (hb : binary64.IsFinite b)
    (hc : binary64.IsFinite c) (hle : ledf2 a b ≤ 0) :
    (Total (adddf3 a c) fun r => Total (adddf3 b c) fun s => ledf2 r s ≤ 0) ∧
    (Total (adddf3 c a) fun r => Total (adddf3 c b) fun s => ledf2 r s ≤ 0) ∧
    (Total (subdf3 a c) fun r => Total (subdf3 b c) fun s => ledf2 r s ≤ 0) ∧
    (Total (subdf3 c b) fun r => Total (subdf3 c a) fun s => ledf2 r s ≤ 0) := by
  have hvalue : binary64.signedValue a ≤ binary64.signedValue b := by
    rw [ledf2_iff (isFinite_not_isNan ha) (isFinite_not_isNan hb)] at hle
    exact (signedValue_le_iff ha hb).mpr hle
  have hboth : ∀ {u v : Option Dbits} {x y : ℚ} {z z' : Bool}, Total u (SumRounded x z) →
      Total v (SumRounded y z') → x ≤ y → Total u fun r => Total v fun s => ledf2 r s ≤ 0 := by
    intro u v x y z z' hu hv hxy
    refine hu.mono fun r _ hr => hv.mono fun s _ hs => ?_
    rw [ledf2_iff hr.not_isNan hs.not_isNan]
    exact hr.signedMagnitude_le hs hxy
  exact ⟨hboth (adddf3_total ha hc) (adddf3_total hb hc) (by linarith),
    hboth (adddf3_total hc ha) (adddf3_total hc hb) (by linarith),
    hboth (subdf3_total ha hc) (subdf3_total hb hc) (by linarith),
    hboth (subdf3_total hc hb) (subdf3_total hc ha) (by linarith)⟩

/-- One and its successor, with the least positive number added and subtracted. -/
theorem add_sub_monotone_one :
    Total (adddf3 0x3FF0000000000000 1) fun r =>
      Total (adddf3 0x3FF0000000000001 1) fun s => ledf2 r s ≤ 0 :=
  (add_sub_monotone (by decide) (by decide) (by decide) (by decide)).1

/-- A difference compares with zero as its operands do with each other, whatever is rounded. -/
theorem sub_compares (ha : binary64.IsFinite a) (hb : binary64.IsFinite b) (n : ℤ) :
    Total (subdf3 a b) fun r => dfCmp3way r 0 n = dfCmp3way a b n := by
  refine (subdf3_total ha hb).mono fun r _ hr => ?_
  have hzero : ¬ binary64.IsNan (0 : Dbits) := isFinite_not_isNan binary64.inf_pos
  have hless : signedMagnitude a < signedMagnitude b ↔
      binary64.signedValue a - binary64.signedValue b < 0 := by
    rw [← signedValue_lt_iff ha hb, sub_neg]
  have hgreater : signedMagnitude b < signedMagnitude a ↔
      0 < binary64.signedValue a - binary64.signedValue b := by
    rw [← signedValue_lt_iff hb ha, sub_pos]
  obtain ⟨m, hm⟩ := signedValue_multiple a
  obtain ⟨p, hp⟩ := signedValue_multiple b
  have hmultiple : binary64.signedValue a - binary64.signedValue b =
      (m - p : ℤ) * (2 : ℚ) ^ binary64.minExponent := by
    rw [hm, hp]
    push_cast
    ring
  have hne := hr.ne_zero hmultiple
  rw [dfCmp3way_eq hr.not_isNan hzero, dfCmp3way_eq (isFinite_not_isNan ha) (isFinite_not_isNan hb),
    hr.signedMagnitude_eq, show signedMagnitude (0 : Dbits) = 0 from rfl]
  rcases lt_trichotomy (binary64.signedValue a - binary64.signedValue b) 0 with hlt | heq | hgt
  · have hmag := hne hlt.ne
    rw [if_pos hlt, if_pos (by omega), if_pos (hless.mpr hlt)]
  · have hmag : magnitude r = 0 := by
      have hnear := hr.nearest
      rw [heq, abs_zero] at hnear
      exact Format.NearestEven.zero_iff.mp hnear
    rw [if_neg heq.not_lt, if_neg (by omega), if_neg (by omega), if_neg (mt hless.mp heq.not_lt),
      if_neg (mt hgreater.mp heq.not_gt)]
  · have hmag := hne hgt.ne'
    rw [if_neg hgt.not_gt, if_neg (by omega), if_pos (by omega), if_neg (mt hless.mp hgt.not_gt),
      if_pos (hgreater.mpr hgt)]

/-- The two least positive numbers differ. -/
theorem sub_compares_least : Total (subdf3 2 1) fun r => dfCmp3way r 0 1 = 1 :=
  sub_compares (a := 2) (b := 1) (by decide) (by decide) 1

/-- The difference of numbers at most a factor two apart is exact. -/
theorem sub_exact (ha : binary64.IsFinite a) (hb : binary64.IsFinite b)
    (hab : binary64.signedValue a ≤ 2 * binary64.signedValue b)
    (hba : binary64.signedValue b ≤ 2 * binary64.signedValue a) :
    Total (subdf3 a b) fun r => binary64.IsFinite r ∧
      binary64.signedValue r = binary64.signedValue a - binary64.signedValue b := by
  have hva : binary64.value (magnitude a) = binary64.signedValue a := by
    rw [← Format.abs_signedValue, abs_of_nonneg (by linarith)]
  have hvb : binary64.value (magnitude b) = binary64.signedValue b := by
    rw [← Format.abs_signedValue, abs_of_nonneg (by linarith)]
  obtain ⟨k, hk, hvalue⟩ := Format.exists_value_abs_sub (F := binary64) (k := magnitude a)
    (l := magnitude b) (by rwa [hva, hvb]) (by rwa [hva, hvb])
  rw [hva, hvb] at hvalue
  exact (subdf3_total ha hb).mono fun r _ hr => hr.exact (hk.trans_lt (max_lt ha hb)) hvalue

/-- One and a half minus one. -/
theorem sub_exact_half :
    Total (subdf3 0x3FF8000000000000 0x3FF0000000000000) fun r =>
      binary64.IsFinite r ∧ binary64.signedValue r =
        binary64.signedValue (0x3FF8000000000000 : Dbits) -
          binary64.signedValue (0x3FF0000000000000 : Dbits) := by
  have hone : binary64.signedValue (0x3FF0000000000000 : Dbits) = 1 := by
    rw [signedValue_eq_value (by decide),
      value_of_magnitude (j := 1022) (n := 2 ^ 52) (by decide) (by decide) (by decide)]
    norm_num
  have hhalf : binary64.signedValue (0x3FF8000000000000 : Dbits) = 3 / 2 := by
    rw [signedValue_eq_value (by decide),
      value_of_magnitude (j := 1022) (n := 2 ^ 52 + 2 ^ 51) (by decide) (by decide) (by decide)]
    norm_num
  exact sub_exact (by decide) (by decide) (by rw [hone, hhalf]; norm_num)
    (by rw [hone, hhalf]; norm_num)

/-- A sum or difference that does not overflow differs from the exact one by at most a
`2 ^ 53`rd of it. -/
theorem add_sub_error (ha : binary64.IsFinite a) (hb : binary64.IsFinite b) :
    (Total (adddf3 a b) fun r => binary64.IsFinite r →
      |binary64.signedValue r - (binary64.signedValue a + binary64.signedValue b)| * 2 ^ 53 ≤
        |binary64.signedValue a + binary64.signedValue b|) ∧
    (Total (subdf3 a b) fun r => binary64.IsFinite r →
      |binary64.signedValue r - (binary64.signedValue a - binary64.signedValue b)| * 2 ^ 53 ≤
        |binary64.signedValue a - binary64.signedValue b|) := by
  obtain ⟨m, hm⟩ := signedValue_multiple a
  obtain ⟨p, hp⟩ := signedValue_multiple b
  refine ⟨(adddf3_total ha hb).mono fun r _ hr hfin => hr.error_le hfin (m := m + p) ?_,
    (subdf3_total ha hb).mono fun r _ hr hfin => hr.error_le hfin (m := m - p) ?_⟩
  · rw [hm, hp]
    push_cast
    ring
  · rw [hm, hp]
    push_cast
    ring

/-- One and the least positive number. -/
theorem add_sub_error_one :
    Total (adddf3 0x3FF0000000000000 1) fun r => binary64.IsFinite r →
      |binary64.signedValue r -
          (binary64.signedValue (0x3FF0000000000000 : Dbits) + binary64.signedValue (1 : Dbits))| *
          2 ^ 53 ≤
        |binary64.signedValue (0x3FF0000000000000 : Dbits) + binary64.signedValue (1 : Dbits)| :=
  (add_sub_error (by decide) (by decide)).1

end LampUserspace.CompilerRt
