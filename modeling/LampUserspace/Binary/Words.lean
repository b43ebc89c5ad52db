import Mathlib.Algebra.Group.Nat.Defs
import Mathlib.Data.Nat.Bitwise

/-! # Machine words as numbers

The value of a word under shifts, masks and disjoint unions of bits.
-/

namespace LampUserspace.Binary

variable {w n : ℕ} {x y m : BitVec w}

theorem toNat_shiftRight (x : BitVec w) (n : ℕ) : (x >>> n).toNat = x.toNat / 2 ^ n := by
  rw [BitVec.toNat_ushiftRight, Nat.shiftRight_eq_div_pow]

theorem toNat_shiftLeft (x : BitVec w) (n : ℕ) : (x <<< n).toNat = x.toNat * 2 ^ n % 2 ^ w := by
  rw [BitVec.toNat_shiftLeft, Nat.shiftLeft_eq]

theorem toNat_shiftLeft_of_lt (h : x.toNat * 2 ^ n < 2 ^ w) :
    (x <<< n).toNat = x.toNat * 2 ^ n := by
  rw [toNat_shiftLeft, Nat.mod_eq_of_lt h]

theorem toNat_and_mask (x : BitVec w) (hm : m.toNat = 2 ^ n - 1) :
    (x &&& m).toNat = x.toNat % 2 ^ n := by
  rw [BitVec.toNat_and, hm, Nat.and_two_pow_sub_one_eq_mod]

theorem toNat_and_field {k : ℕ} (x : BitVec w) (hm : m.toNat = (2 ^ n - 1) * 2 ^ k) :
    (x &&& m).toNat = x.toNat / 2 ^ k % 2 ^ n * 2 ^ k := by
  have hpos := Nat.two_pow_pos k
  have hdiv : (x &&& m).toNat / 2 ^ k = x.toNat / 2 ^ k % 2 ^ n := by
    rw [BitVec.toNat_and, Nat.and_div_two_pow, hm, Nat.mul_div_cancel _ hpos,
      Nat.and_two_pow_sub_one_eq_mod]
  have hmod : (x &&& m).toNat % 2 ^ k = 0 := by
    rw [BitVec.toNat_and, Nat.and_mod_two_pow, hm, Nat.mul_mod_left, Nat.and_zero]
  rw [← hdiv, Nat.div_mul_cancel (Nat.dvd_of_mod_eq_zero hmod)]

theorem toNat_one_shiftLeft (h : n < w) : (1#w <<< n).toNat = 2 ^ n := by
  have hone : (1#w).toNat = 1 := by
    rw [BitVec.toNat_ofNat, Nat.mod_eq_of_lt (Nat.one_lt_two_pow (by omega))]
  rw [toNat_shiftLeft_of_lt, hone, Nat.one_mul]
  rw [hone, Nat.one_mul]
  exact Nat.pow_lt_pow_right (by omega) h

theorem toNat_one_shiftLeft_sub_one (h : n < w) : (1#w <<< n - 1#w).toNat = 2 ^ n - 1 := by
  have hpos : 0 < 2 ^ n := Nat.two_pow_pos n
  have hshift := toNat_one_shiftLeft h
  have hone : (1#w).toNat = 1 := by
    rw [BitVec.toNat_ofNat, Nat.mod_eq_of_lt (Nat.one_lt_two_pow (by omega))]
  rw [BitVec.toNat_sub_of_le (by rw [BitVec.le_def, hone, hshift]; omega), hshift, hone]

/-- Bits below the `n`-th joined to bits from the `n`-th on add up. -/
theorem toNat_or_of_dvd (hy : 2 ^ n ∣ y.toNat) (hx : x.toNat < 2 ^ n) :
    (y ||| x).toNat = y.toNat + x.toNat := by
  obtain ⟨k, hk⟩ := hy
  rw [BitVec.toNat_or, hk, Nat.two_pow_add_eq_or_of_lt hx]

theorem toNat_or_of_mul {k : ℕ} (hy : y.toNat = k * 2 ^ n) (hx : x.toNat < 2 ^ n) :
    (y ||| x).toNat = k * 2 ^ n + x.toNat := by
  rw [toNat_or_of_dvd ⟨k, by rw [hy, Nat.mul_comm]⟩ hx, hy]

theorem eq_zero_iff_toNat : x = 0 ↔ x.toNat = 0 := by
  rw [← BitVec.toNat_inj]
  simp

theorem lt_of_two_pow_le {k m : ℕ} (hle : 2 ^ k ≤ m) (hlt : m < 2 ^ n) : k < n :=
  (Nat.pow_lt_pow_iff_right Nat.one_lt_two).mp (hle.trans_lt hlt)

theorem lt_of_mul_two_pow_lt {k m : ℕ} (hm : 0 < m) (h : m * 2 ^ k < 2 ^ n) : k < n :=
  lt_of_two_pow_le (Nat.le_mul_of_pos_left _ hm) h

theorem mul_two_pow_bounds {m d : ℕ} (hge : 2 ^ n ≤ m) (hlt : m < 2 ^ (n + 1)) :
    2 ^ (n + d) ≤ m * 2 ^ d ∧ m * 2 ^ d < 2 ^ (n + d + 1) := by
  constructor
  · rw [Nat.pow_add]
    exact Nat.mul_le_mul_right _ hge
  · rw [Nat.add_right_comm, Nat.pow_add]
    exact Nat.mul_lt_mul_of_pos_right hlt (Nat.two_pow_pos d)

/-! ## Single bits -/

theorem and_single_eq_zero_iff (hm : m.toNat = 2 ^ n) :
    x &&& m = 0 ↔ x.toNat / 2 ^ n % 2 = 0 := by
  rw [eq_zero_iff_toNat, BitVec.toNat_and, hm, Nat.and_two_pow, Nat.testBit_eq_decide_div_mod_eq]
  rcases Nat.mod_two_eq_zero_or_one (x.toNat / 2 ^ n) with h | h <;>
    simp [h]

theorem shiftRight_and_one_bne_zero (x : BitVec w) (n : ℕ) (hw : 0 < w) :
    (x >>> n &&& 1 != 0) = decide (x.toNat / 2 ^ n % 2 = 1) := by
  have hone : (1 : BitVec w).toNat = 2 ^ 0 := by
    simp [Nat.mod_eq_of_lt (Nat.one_lt_two_pow (by omega : w ≠ 0))]
  have hbit := and_single_eq_zero_iff (x := x >>> n) hone
  rw [toNat_shiftRight, Nat.pow_zero, Nat.div_one] at hbit
  rw [bne, Bool.not_eq_eq_eq_not, ← decide_not, Bool.eq_iff_iff, beq_iff_eq, decide_eq_true_eq,
    hbit]
  omega

theorem and_one_bne_zero (x : BitVec w) (hw : 0 < w) : (x &&& 1 != 0) = (x.toNat % 2 == 1) := by
  have hbit := shiftRight_and_one_bne_zero x 0 hw
  rw [BitVec.ushiftRight_zero, Nat.pow_zero, Nat.div_one] at hbit
  rw [hbit, Bool.eq_iff_iff, decide_eq_true_eq, beq_iff_eq]

/-! ## Sign and magnitude -/

def magnitude (x : BitVec w) : ℕ := x.toNat % 2 ^ (w - 1)

def signedMagnitude (x : BitVec w) : ℤ := if x.msb then -(magnitude x : ℤ) else magnitude x

theorem toNat_eq_sign_add_magnitude (x : BitVec w) (hw : 0 < w) :
    x.toNat = x.msb.toNat * 2 ^ (w - 1) + magnitude x := by
  have hlt := x.isLt
  have hsucc : 2 ^ w = 2 * 2 ^ (w - 1) := by
    rw [← Nat.pow_succ', Nat.succ_eq_add_one, Nat.sub_add_cancel hw]
  have hmod := Nat.mod_add_div x.toNat (2 ^ (w - 1))
  rw [magnitude, BitVec.msb_eq_decide]
  by_cases h : 2 ^ (w - 1) ≤ x.toNat
  · have hdiv : x.toNat / 2 ^ (w - 1) = 1 := Nat.div_eq_of_lt_le (by omega) (by omega)
    rw [hdiv] at hmod
    simp only [h, decide_true, Bool.toNat_true]
    omega
  · rw [Nat.mod_eq_of_lt (by omega)]
    simp [h]

theorem magnitude_lt (x : BitVec w) : magnitude x < 2 ^ (w - 1) :=
  Nat.mod_lt _ (Nat.two_pow_pos _)

theorem magnitude_le_magnitude_or (x y : BitVec w) : magnitude x ≤ magnitude (x ||| y) := by
  rw [magnitude, magnitude, BitVec.toNat_or, Nat.or_mod_two_pow]
  exact Nat.left_le_or

theorem sign_magnitude_of_toNat {k : ℕ} {sign : Bool} (hw : 0 < w)
    (hx : x.toNat = sign.toNat * 2 ^ (w - 1) + k) (hk : k < 2 ^ (w - 1)) :
    x.msb = sign ∧ magnitude x = k := by
  have hself := toNat_eq_sign_add_magnitude x hw
  have hlt := magnitude_lt x
  cases hm : x.msb <;> cases sign <;>
    simp only [hm, Bool.toNat_true, Bool.toNat_false] at hself hx <;> simp <;> omega

theorem eq_of_sign_magnitude (hw : 0 < w) (hsign : x.msb = y.msb)
    (hmag : magnitude x = magnitude y) : x = y := by
  apply BitVec.eq_of_toNat_eq
  rw [toNat_eq_sign_add_magnitude x hw, toNat_eq_sign_add_magnitude y hw, hsign, hmag]

end LampUserspace.Binary
