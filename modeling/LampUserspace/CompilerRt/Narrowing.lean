import LampUserspace.CompilerRt.Single
import LampUserspace.CompilerRt.Sums

/-! # Narrowing in order

Although narrowing breaks some ties the wrong way, no single is closer to the number
than its result, and the order of numbers is kept.
-/

namespace LampUserspace.CompilerRt

open Binary

variable {a b : Dbits} {v : ℚ}

theorem truncRound_tie {sign : F32bits} {neg : Bool} {q : Dbits} {re : ℤ}
    (hsign : sign.toNat = neg.toNat * 2 ^ 31) (hge : 2 ^ 23 ≤ q.toNat) (hlt : q.toNat < 2 ^ 24)
    (heven : q.toNat % 2 = 0) (hframe : Framed v (re - 24) (2 * q.toNat + 1) false)
    (hre : -126 ≤ re) (hre' : re ≤ 127) :
    (truncRound sign re q true true false).msb = neg ∧
      binary32.Nearest v (magnitude (truncRound sign re q true true false)) := by
  obtain ⟨j, rfl⟩ : ∃ j : ℕ, re = -126 + j := ⟨(re + 126).toNat, by omega⟩
  have hinf := binary32_inf
  have hround : (truncRound sign (-126 + j) q true true false).toNat = _ :=
    truncRound_toNat (j := j) hsign rfl hlt (fun h => absurd h Bool.false_ne_true) (fun _ => hge)
  obtain ⟨hmsb, hmag⟩ := sign_magnitude_of_toNat (show 0 < 32 by decide) hround (by omega)
  have hup : roundPoint q.toNat true true = q.toNat + 1 := rfl
  have hstay : roundPoint q.toNat true false = q.toNat := by simp [roundPoint, heven]
  have hframe' : Framed v (-149 + j - 1) (2 * q.toNat + (true : Bool).toNat) false := by
    rwa [show (-126 + j - 24 : ℤ) = -149 + j - 1 by omega] at hframe
  have hnear := Format.nearestEven_of_framed (F := binary32) (j := j) (q := q.toNat) (g := true)
    hframe' (by rw [binary32_fractionBits]; omega) (.inr (by rw [binary32_fractionBits]; omega))
  have hpos : j * 2 ^ 23 + q.toNat + 1 < binary32.inf := by
    rw [hinf]
    omega
  rw [hstay, binary32_fractionBits, min_eq_right (by omega)] at hnear
  rw [hup, ← Nat.add_assoc, min_eq_right hpos.le] at hmag
  refine ⟨hmsb, ?_⟩
  rw [hmag]
  refine hnear.toNearest.next hpos ?_
  have hlow : binary32.value (j * 2 ^ 23 + q.toNat) = q.toNat * (2 : ℚ) ^ (-149 + j : ℤ) :=
    Format.value_binade (by rw [binary32_fractionBits]; omega)
      (.inr (by rw [binary32_fractionBits]; omega))
  have hhigh : binary32.value (j * 2 ^ 23 + q.toNat + 1) =
      (q.toNat + 1 : ℕ) * (2 : ℚ) ^ (-149 + j : ℤ) := by
    rw [Nat.add_assoc (j * 2 ^ 23)]
    exact Format.value_binade (by rw [binary32_fractionBits]; omega)
      (.inr (by rw [binary32_fractionBits]; omega))
  have hv := hframe'.eq_of_not_sticky
  rw [two_zpow_sub_one] at hv
  have hu := two_zpow_pos (-149 + j)
  rw [hlow, hhigh, hv, Bool.toNat_true]
  push_cast
  generalize (2 : ℚ) ^ (-149 + j : ℤ) = u at hu ⊢
  rw [show (2 * q.toNat + 1 : ℚ) * (u / 2) - (q.toNat + 1) * u = -(u / 2) by ring,
    show (2 * q.toNat + 1 : ℚ) * (u / 2) - q.toNat * u = u / 2 by ring, abs_neg]

/-- The result has the sign of the number, and no other single is closer. -/
structure Narrows (a : Dbits) (r : F32bits) : Prop where
  msb_eq : r.msb = a.msb
  nearest : binary32.Nearest |binary64.signedValue a| (magnitude r)

theorem truncdfsf2_narrows (ha : binary64.IsFinite a) : Total (truncdfsf2 a) (Narrows a) := by
  by_cases htie : 897 ≤ expField a ∧ expField a ≤ 1150 ∧ a.toNat % 2 ^ 30 = 2 ^ 28
  · have hne : magnitude a ≠ 0 := by
      have hmag := magnitude_eq a
      omega
    obtain ⟨sign, q, g, s, re, hsign, hge, hlt, hframe, hnormal, -, hrun⟩ := truncdfsf2_eq ha hne
    obtain ⟨hre, hflags⟩ := hnormal (by omega)
    obtain ⟨rfl, rfl, heven⟩ := hflags.mpr htie.2.2
    rw [if_neg (by omega)] at hrun
    obtain ⟨hmsb, hnear⟩ := truncRound_tie hsign hge hlt heven hframe (by omega) (by omega)
    refine .intro hrun ⟨hmsb, ?_⟩
    rw [Format.abs_signedValue]
    exact hnear
  · refine (truncdfsf2_total ha).mono fun r _ hr => ?_
    have hrounds := hr.mpr htie
    exact ⟨hrounds.msb_eq, hrounds.nearestEven.toNearest⟩

namespace Narrows

variable {r s : F32bits}

theorem not_isNan (h : Narrows a r) : ¬ binary32.IsNan r := not_lt.mpr h.nearest.le_inf

theorem signedMagnitude_le (hr : Narrows a r) (hs : Narrows b s)
    (h : signedMagnitude a < signedMagnitude b) : signedMagnitude r ≤ signedMagnitude s := by
  have hvalue := binary64.signedValue_lt_of_lt h
  unfold signedMagnitude at h ⊢
  rw [hr.msb_eq, hs.msb_eq]
  cases ha : a.msb <;> cases hb : b.msb <;>
    simp only [ha, hb, Bool.false_eq_true, if_true, if_false] at h ⊢
  · have hmag := hr.nearest.mono hs.nearest (by
      rw [Format.abs_signedValue, Format.abs_signedValue]
      exact binary64.value_strictMono (by omega))
    omega
  · omega
  · omega
  · have hmag := hs.nearest.mono hr.nearest (by
      rw [Format.abs_signedValue, Format.abs_signedValue]
      exact binary64.value_strictMono (by omega))
    omega

theorem signedMagnitude_zero (h : Narrows a r) (hzero : magnitude a = 0) :
    signedMagnitude r = 0 := by
  have hnear := h.nearest
  rw [Format.signedValue_eq_zero hzero, abs_zero] at hnear
  unfold signedMagnitude
  rw [hnear.zero]
  split <;> rfl

theorem closest (h : Narrows a r) (hr : binary32.IsFinite r) (hs : binary32.IsFinite s) :
    |binary64.signedValue a - binary32.signedValue r| ≤
      |binary64.signedValue a - binary32.signedValue s| := by
  have hsame : |binary64.signedValue a - binary32.signedValue r| =
      abs (|binary64.signedValue a| - binary32.value (magnitude r)) := by
    rw [Format.abs_signedValue, signedValue_eq, Format.signedValue, h.msb_eq]
    cases a.msb
    · rfl
    · rw [if_pos rfl, if_pos rfl, ← abs_neg]
      congr 1
      ring
  rw [hsame]
  refine (h.nearest.nearest hr _ hs).trans ?_
  rw [← Format.abs_signedValue]
  exact abs_abs_sub_abs_le ..

end Narrows

theorem extended_le_of_le {r s : F32bits} (hr : ¬ binary32.IsNan r) (hs : ¬ binary32.IsNan s)
    (h : signedMagnitude r ≤ signedMagnitude s) : binary32.extended r ≤ binary32.extended s := by
  rcases h.lt_or_eq with hlt | heq
  · exact (Format.extended_lt_of_lt hr hs hlt).le
  · exact (binary32.extended_eq_of_eq heq).le

/-- Narrowing gives a single that no other is closer than, an infinity from the overflow bound on,
never a NaN, and keeps the order. -/
theorem narrowing_monotone (ha : binary64.IsFinite a) (hb : binary64.IsFinite b) :
    (Total (truncdfsf2 a) fun r => r.msb = a.msb ∧ ¬ binary32.IsNan r ∧
      (binary32.IsInf r ↔ binary32.overflowBound ≤ |binary64.signedValue a|) ∧
      (|binary64.signedValue a| < binary32.overflowBound → binary32.IsFinite r ∧
        ∀ s : F32bits, binary32.IsFinite s →
          |binary64.signedValue a - binary32.signedValue r| ≤
            |binary64.signedValue a - binary32.signedValue s|)) ∧
    (ledf2 a b ≤ 0 → Total (truncdfsf2 a) fun r => Total (truncdfsf2 b) fun s =>
      binary32.extended r ≤ binary32.extended s) := by
  refine ⟨(truncdfsf2_narrows ha).mono fun r _ hr => ⟨hr.msb_eq, hr.not_isNan,
    hr.nearest.eq_inf_iff, fun hlt => ?_⟩, fun hle => ?_⟩
  · -- what is neither a NaN nor an infinity is finite
    have hinf : ¬ binary32.IsInf r := fun h => absurd (hr.nearest.eq_inf_iff.mp h) (not_le.mpr hlt)
    have hfin : binary32.IsFinite r := lt_of_le_of_ne (not_lt.mp hr.not_isNan) hinf
    exact ⟨hfin, fun s hs => hr.closest hfin hs⟩
  rw [ledf2_iff (isFinite_not_isNan ha) (isFinite_not_isNan hb)] at hle
  refine (truncdfsf2_narrows ha).mono fun r hrun hr =>
    (truncdfsf2_narrows hb).mono fun s hrun' hs => extended_le_of_le hr.not_isNan hs.not_isNan ?_
  rcases hle.lt_or_eq with hlt | heq
  · exact hr.signedMagnitude_le hs hlt
  -- equal numbers are equal words, or zeros of any sign
  have hcases : a = b ∨ (magnitude a = 0 ∧ magnitude b = 0) := by
    unfold signedMagnitude at heq
    cases hamsb : a.msb <;> cases hbmsb : b.msb <;>
      simp only [hamsb, hbmsb, Bool.false_eq_true, if_true, if_false] at heq
    · exact .inl (eq_of_sign_magnitude (by decide) (hamsb.trans hbmsb.symm) (by omega))
    · exact .inr (by omega)
    · exact .inr (by omega)
    · exact .inl (eq_of_sign_magnitude (by decide) (hamsb.trans hbmsb.symm) (by omega))
  rcases hcases with rfl | ⟨hazero, hbzero⟩
  · rw [Option.some.inj (hrun.symm.trans hrun')]
  · rw [hr.signedMagnitude_zero hazero, hs.signedMagnitude_zero hbzero]

/-- One, and `1 + 2 ^ (-24)`, which is narrowed to the odd one of the two closest singles. -/
theorem narrowing_monotone_tie :
    Total (truncdfsf2 0x3FF0000000000000) fun r => Total (truncdfsf2 0x3FF0000010000000) fun s =>
      binary32.extended r ≤ binary32.extended s :=
  (narrowing_monotone (by decide) (by decide)).2 (by decide)

end LampUserspace.CompilerRt
