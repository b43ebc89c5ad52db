import LampUserspace.Libc.Digits
import LampUserspace.Stdio.Formatted

/-! # The digits of the formatter

`utoa_rev` produces the digits of a number in its base, and a number of 64 bits
fills at most 22 of the 32 characters of the buffer that it is given.
-/

namespace LampUserspace.Stdio

open Numerals

theorem utoaRev_reverse {base : ℕ} (hbase : 1 < base) (v : ℕ) (upper : Bool) :
    (utoaRev v base upper).reverse = numberText base upper v := by
  have hdigits : utoaRev v base upper =
      if v = 0 then [digitChar upper 0] else (Nat.digits base v).map (digitChar upper) := by
    fun_induction utoaRev v base upper with
    | case1 v d c h ih =>
      have hv : v ≠ 0 := by
        rintro rfl
        exact h.2 (Nat.zero_div base)
      rw [ih, if_neg h.2, if_neg hv, Nat.digits_eq_cons_digits_div hbase hv]
      rfl
    | case2 v d c h =>
      have hlt : v < base := by
        by_contra hle
        exact h ⟨hbase, (Nat.div_pos (Nat.le_of_not_lt hle) (by omega)).ne'⟩
      have hd : d = v := Nat.mod_eq_of_lt hlt
      by_cases hv : v = 0
      · subst hv
        rw [if_pos rfl]
        change [digitChar upper d] = _
        rw [hd]
      · rw [if_neg hv, Nat.digits_of_lt base v hv hlt]
        change [digitChar upper d] = _
        rw [hd]
        rfl
  rw [hdigits, numberText, write]
  split <;> simp

theorem digits_eq {base : ℕ} (hbase : 1 < base) (v : ℕ) (upper : Bool) (precision : ℤ) :
    digits v base upper precision =
      if precision = 0 ∧ v = 0 then [] else numberText base upper v := by
  unfold digits
  rw [utoaRev_reverse hbase]

theorem length_utoaRev_le {base : ℕ} (hbase : 8 ≤ base) {v : ℕ} (hv : v < 2 ^ 64)
    (upper : Bool) : (utoaRev v base upper).length ≤ 22 := by
  have hrev := congrArg List.length (utoaRev_reverse (by omega : 1 < base) v upper)
  rw [List.length_reverse] at hrev
  rw [hrev]
  apply length_numberText_le (by omega) (by decide)
  calc v < 2 ^ 64 := hv
    _ ≤ 8 ^ 22 := by norm_num
    _ ≤ base ^ 22 := Nat.pow_le_pow_left hbase 22

theorem head_numberText_ne {base : ℕ} (hbase : 1 < base) (hhigh : base ≤ 36) {v : ℕ} (hv : v ≠ 0)
    (upper : Bool) : (numberText base upper v).head? ≠ some (byte '0') := by
  intro h
  rw [numberText, write, if_neg hv, List.head?_reverse, List.getLast?_map] at h
  obtain ⟨d, hd, hchar⟩ := Option.map_eq_some_iff.mp h
  have hne : Nat.digits base v ≠ [] := Nat.digits_ne_nil_iff_ne_zero.mpr hv
  rw [List.getLast?_eq_some_getLast hne, Option.some.injEq] at hd
  have hlt : d < base := Nat.digits_lt_base hbase (hd ▸ List.getLast_mem hne)
  have hvalue := digitValue_digitChar upper d (hlt.trans_le hhigh)
  rw [hchar] at hvalue
  have hzero : digitValue (byte '0') = some 0 := by decide
  have hd0 : d = 0 := Option.some.inj (hvalue.symm.trans hzero)
  exact Nat.getLast_digit_ne_zero base hv (hd.trans hd0)

theorem numberText_zero (base : ℕ) (upper : Bool) : numberText base upper 0 = [byte '0'] := rfl

end LampUserspace.Stdio
