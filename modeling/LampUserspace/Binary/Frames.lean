import Mathlib.Algebra.Order.Field.Basic
import Mathlib.Algebra.Order.Field.Power
import Mathlib.Algebra.Order.Ring.Abs
import Mathlib.Data.Rat.Cast.Order
import Mathlib.Tactic.Linarith
import Mathlib.Tactic.Ring

/-! # Exact values seen through a grid

A number is framed by the point of a grid of step `2 ^ e` below it and by a
sticky flag that says whether it lies strictly above that point. Dropping low
bits of the point coarsens the grid and folds the bits into the flag. From a
point with one guard bit and the flag the number is rounded to the nearest point
of the grid, ties to the even one.
-/

namespace LampUserspace.Binary

/-- The number `x` lies on the point `q` of the grid of step `2 ^ e`, or strictly between it and
the next point when `sticky`. -/
structure Framed (x : ℚ) (e : ℤ) (q : ℕ) (sticky : Bool) : Prop where
  le : q * (2 : ℚ) ^ e ≤ x
  lt : x < (q + 1) * (2 : ℚ) ^ e
  sticky_iff : sticky = true ↔ q * (2 : ℚ) ^ e < x

theorem two_zpow_pos (e : ℤ) : (0 : ℚ) < 2 ^ e := zpow_pos two_pos e

theorem two_zpow_add (e : ℤ) (k : ℕ) : (2 : ℚ) ^ (e + k) = 2 ^ k * 2 ^ e := by
  rw [zpow_add₀ two_ne_zero, zpow_natCast, mul_comm]

theorem two_zpow_succ (e : ℤ) : (2 : ℚ) ^ (e + 1) = 2 * 2 ^ e := by
  rw [zpow_add_one₀ two_ne_zero, mul_comm]

theorem two_zpow_sub_one (e : ℤ) : (2 : ℚ) ^ (e - 1) = 2 ^ e / 2 := by
  rw [zpow_sub_one₀ two_ne_zero, div_eq_mul_inv]

namespace Framed

variable {x : ℚ} {e : ℤ} {q k : ℕ} {g s : Bool}

theorem exact (q : ℕ) (e : ℤ) : Framed (q * (2 : ℚ) ^ e) e q false where
  le := le_refl _
  lt := by
    have := two_zpow_pos e
    linarith
  sticky_iff := by simp

theorem eq_of_not_sticky (h : Framed x e q false) : x = q * (2 : ℚ) ^ e :=
  le_antisymm (not_lt.mp (mt h.sticky_iff.mpr Bool.false_ne_true)) h.le

theorem mul_two_zpow (h : Framed x e q s) (d : ℤ) : Framed (x * (2 : ℚ) ^ d) (e + d) q s := by
  have hd := two_zpow_pos d
  have hmul : ∀ y : ℚ, y * (2 : ℚ) ^ (e + d) = y * 2 ^ e * 2 ^ d := fun y => by
    rw [zpow_add₀ two_ne_zero, mul_assoc]
  constructor
  · rw [hmul]
    exact mul_le_mul_of_nonneg_right h.le hd.le
  · rw [hmul]
    exact mul_lt_mul_of_pos_right h.lt hd
  · rw [hmul, h.sticky_iff]
    exact (mul_lt_mul_iff_left₀ hd).symm

/-- A coarser grid: the bits dropped from the point go into the flag. -/
theorem shift (h : Framed x e q s) (k : ℕ) :
    Framed x (e + k) (q / 2 ^ k) (s || decide (q % 2 ^ k ≠ 0)) := by
  have hu := two_zpow_pos e
  have hsplit : q / 2 ^ k * 2 ^ k + q % 2 ^ k = q := Nat.div_add_mod' q (2 ^ k)
  have hmod : q % 2 ^ k + 1 ≤ 2 ^ k := Nat.mod_lt q (Nat.two_pow_pos k)
  have hle : (q / 2 ^ k : ℕ) * (2 : ℚ) ^ k + (q % 2 ^ k : ℕ) = q := by exact_mod_cast hsplit
  have hlt : (q % 2 ^ k : ℕ) + 1 ≤ (2 : ℚ) ^ k := by exact_mod_cast hmod
  have hpoint : (q / 2 ^ k : ℕ) * (2 : ℚ) ^ (e + k) + (q % 2 ^ k : ℕ) * (2 : ℚ) ^ e =
      q * (2 : ℚ) ^ e := by
    rw [two_zpow_add, ← hle]
    ring
  have hrest : (0 : ℚ) ≤ (q % 2 ^ k : ℕ) * (2 : ℚ) ^ e := by positivity
  constructor
  · linarith [h.le]
  · have : ((q % 2 ^ k : ℕ) + 1) * (2 : ℚ) ^ e ≤ (2 : ℚ) ^ (e + k) := by
      rw [two_zpow_add]
      exact mul_le_mul_of_nonneg_right hlt hu.le
    linarith [h.lt]
  · rw [Bool.or_eq_true, decide_eq_true_eq, h.sticky_iff]
    constructor
    · rintro (hs | hs)
      · linarith
      · have : (0 : ℚ) < (q % 2 ^ k : ℕ) * (2 : ℚ) ^ e :=
          mul_pos (by exact_mod_cast Nat.pos_of_ne_zero hs) hu
        linarith [h.le]
    · intro hlow
      by_cases hzero : q % 2 ^ k = 0
      · rw [hzero, Nat.cast_zero, zero_mul] at hpoint
        exact Or.inl (by linarith)
      · exact Or.inr hzero

theorem drop_guard (h : Framed x (e - 1) (2 * q + g.toNat) s) : Framed x e q (s || g) := by
  have hshift := h.shift 1
  have hq : (2 * q + g.toNat) / 2 ^ 1 = q := by cases g <;> simp; omega
  have hg : decide ((2 * q + g.toNat) % 2 ^ 1 ≠ 0) = g := by cases g <;> simp [Nat.add_mod]
  rwa [hq, hg, Nat.cast_one, sub_add_cancel] at hshift

theorem split_guard (h : Framed x e q s) :
    Framed x e (2 * (q / 2) + (decide (q % 2 = 1)).toNat) s := by
  have hq : 2 * (q / 2) + (decide (q % 2 = 1)).toNat = q := by
    rcases Nat.mod_two_eq_zero_or_one q with hmod | hmod <;> simp [hmod] <;> omega
  rwa [hq]

theorem refine (h : Framed x e q false) (k : ℕ) : Framed x (e - k) (q * 2 ^ k) false := by
  have heq : x = (q * 2 ^ k : ℕ) * (2 : ℚ) ^ (e - k) := by
    rw [h.eq_of_not_sticky, Nat.cast_mul, mul_assoc, Nat.cast_pow, Nat.cast_two, ← two_zpow_add,
      sub_add_cancel]
  rw [heq]
  exact exact _ _

theorem point_add (h : Framed x e q s) (p : ℕ) :
    Framed (p * (2 : ℚ) ^ e + x) e (p + q) s := by
  obtain ⟨hle, hlt, hsticky⟩ := h
  constructor
  · push_cast
    linarith
  · push_cast
    linarith
  · rw [hsticky]
    push_cast
    constructor <;> intro <;> linarith

/-- Taking a number from a point of the grid: a tail borrows from the difference. -/
theorem point_sub (h : Framed x e q s) {p : ℕ} (hp : q + s.toNat ≤ p) :
    Framed (p * (2 : ℚ) ^ e - x) e (p - (q + s.toNat)) s := by
  have hu := two_zpow_pos e
  cases s with
  | false =>
    rw [Bool.toNat_false, Nat.add_zero] at hp ⊢
    have hx := h.eq_of_not_sticky
    have heq : p * (2 : ℚ) ^ e - x = (p - q : ℕ) * (2 : ℚ) ^ e := by
      rw [hx, Nat.cast_sub hp]
      ring
    rw [heq]
    exact exact _ _
  | true =>
    rw [Bool.toNat_true] at hp ⊢
    have hgt := h.sticky_iff.mp rfl
    have hlt := h.lt
    have hcast : ((p - (q + 1) : ℕ) : ℚ) = p - (q + 1) := by
      rw [Nat.cast_sub hp]
      push_cast
      ring
    constructor
    · rw [hcast]
      linarith
    · rw [hcast]
      linarith
    · rw [hcast]
      exact iff_of_true rfl (by linarith)

/-- A quotient lies on the integer quotient or above it by the remainder. -/
theorem div {b : ℕ} (hb : 0 < b) (a : ℕ) :
    Framed ((a : ℚ) / b) 0 (a / b) (decide (a % b ≠ 0)) := by
  have hb' : (0 : ℚ) < b := Nat.cast_pos.mpr hb
  have hsplit : (a : ℚ) = b * (a / b : ℕ) + (a % b : ℕ) := by
    exact_mod_cast (Nat.div_add_mod a b).symm
  have hquot : (a : ℚ) / b = (a / b : ℕ) + (a % b : ℕ) / b := by
    rw [hsplit, add_div, mul_div_cancel_left₀ _ hb'.ne']
  have hrest : ((a % b : ℕ) : ℚ) / b < 1 := by
    rw [div_lt_one hb']
    exact_mod_cast Nat.mod_lt a hb
  have hrest0 : (0 : ℚ) ≤ (a % b : ℕ) / b := div_nonneg (Nat.cast_nonneg _) hb'.le
  constructor
  · rw [zpow_zero, mul_one, hquot]
    linarith
  · rw [zpow_zero, mul_one, hquot]
    linarith
  · rw [zpow_zero, mul_one, hquot, decide_eq_true_eq, lt_add_iff_pos_right]
    constructor
    · intro hne
      exact div_pos (Nat.cast_pos.mpr (Nat.pos_of_ne_zero hne)) hb'
    · intro hlt heq
      rw [heq, Nat.cast_zero, zero_div] at hlt
      exact lt_irrefl _ hlt

end Framed

/-- The point to which a guard bit and a sticky flag round `q`. -/
def roundPoint (q : ℕ) (g s : Bool) : ℕ :=
  if g && (s || q % 2 == 1) then q + 1 else q

theorem le_roundPoint (q : ℕ) (g s : Bool) : q ≤ roundPoint q g s := by
  unfold roundPoint
  split <;> omega

theorem roundPoint_le (q : ℕ) (g s : Bool) : roundPoint q g s ≤ q + 1 := by
  unfold roundPoint
  split <;> omega

variable {x : ℚ} {e : ℤ} {q : ℕ} {g s : Bool}

/-- The rounded point is nearer than half a step, or the number is halfway and the point even. -/
theorem Framed.roundPoint_near_or_even (h : Framed x (e - 1) (2 * q + g.toNat) s) :
    |x - roundPoint q g s * (2 : ℚ) ^ e| < 2 ^ e / 2 ∨
      |x - roundPoint q g s * (2 : ℚ) ^ e| = 2 ^ e / 2 ∧ Even (roundPoint q g s) := by
  have hu := two_zpow_pos e
  obtain ⟨hle, hlt, hsticky⟩ := h
  rw [two_zpow_sub_one] at hle hlt hsticky
  cases g with
  | false =>
    have hpoint : roundPoint q false s = q := rfl
    push_cast [Bool.toNat_false] at hle hlt
    rw [hpoint, abs_lt]
    exact .inl ⟨by linarith, by linarith⟩
  | true =>
    push_cast [Bool.toNat_true] at hle hlt hsticky
    cases s with
    | true =>
      have hpoint : roundPoint q true true = q + 1 := rfl
      have hgt := hsticky.mp rfl
      rw [hpoint, abs_lt, Nat.cast_succ]
      exact .inl ⟨by linarith, by linarith⟩
    | false =>
      have heq : x = q * (2 : ℚ) ^ e + 2 ^ e / 2 := by
        have := not_lt.mp (mt hsticky.mpr Bool.false_ne_true)
        linarith
      right
      rcases Nat.mod_two_eq_zero_or_one q with hq | hq
      · have hpoint : roundPoint q true false = q := by simp [roundPoint, hq]
        rw [hpoint, heq, add_sub_cancel_left, abs_of_pos (by linarith)]
        exact ⟨rfl, Nat.even_iff.mpr hq⟩
      · have hpoint : roundPoint q true false = q + 1 := by simp [roundPoint, hq]
        rw [hpoint, heq, Nat.cast_succ, abs_of_neg (by linarith)]
        exact ⟨by ring, Nat.even_iff.mpr (by omega)⟩

theorem Framed.abs_sub_roundPoint_le (h : Framed x (e - 1) (2 * q + g.toNat) s) :
    |x - roundPoint q g s * (2 : ℚ) ^ e| ≤ 2 ^ e / 2 :=
  h.roundPoint_near_or_even.elim le_of_lt fun heven => heven.1.le

theorem Framed.even_roundPoint (h : Framed x (e - 1) (2 * q + g.toNat) s)
    (hhalf : |x - roundPoint q g s * (2 : ℚ) ^ e| = 2 ^ e / 2) : Even (roundPoint q g s) :=
  h.roundPoint_near_or_even.elim (fun hlt => absurd hhalf hlt.ne) And.right

/-- No other point is nearer, and a point as near is another neighbour of a halfway number. -/
theorem Framed.abs_sub_roundPoint_le_abs_sub (h : Framed x (e - 1) (2 * q + g.toNat) s) (m : ℕ) :
    |x - roundPoint q g s * (2 : ℚ) ^ e| ≤ |x - m * (2 : ℚ) ^ e| ∧
      (m ≠ roundPoint q g s → |x - m * (2 : ℚ) ^ e| = |x - roundPoint q g s * (2 : ℚ) ^ e| →
        Even (roundPoint q g s)) := by
  have hu := two_zpow_pos e
  have hnear := h.abs_sub_roundPoint_le
  set n := roundPoint q g s with hn
  rcases eq_or_ne m n with rfl | hne
  · exact ⟨le_refl _, fun hne => absurd rfl hne⟩
  · have hstep : (2 : ℚ) ^ e ≤ |n * (2 : ℚ) ^ e - m * (2 : ℚ) ^ e| := by
      have hint : (1 : ℚ) ≤ |(n : ℚ) - m| := by
        have : (1 : ℤ) ≤ |(n : ℤ) - m| := Int.one_le_abs (by omega)
        exact_mod_cast this
      rw [← sub_mul, abs_mul, abs_of_pos hu]
      nlinarith
    have htri := abs_sub_le (n * (2 : ℚ) ^ e) x (m * (2 : ℚ) ^ e)
    rw [abs_sub_comm (n * (2 : ℚ) ^ e) x] at htri
    exact ⟨by linarith, fun _ heq => h.even_roundPoint (by linarith)⟩

end LampUserspace.Binary
