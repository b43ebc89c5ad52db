import Mathlib.Algebra.BigOperators.Group.Finset.Basic
import Mathlib.Algebra.Ring.GeomSum
import Mathlib.Algebra.Ring.Int.Parity
import Mathlib.Data.Int.ConditionallyCompleteOrder
import Mathlib.Data.Int.Interval
import Mathlib.Data.Int.ModEq
import Mathlib.RingTheory.Coprime.Lemmas
import Mathlib.Tactic.LinearCombination

/-! # Congruential sequences

The map of `x` to `a * x + c` modulo a power of two. Where four divides `a - 1`
and `c` is odd, it goes through all residues in one cycle.
-/

namespace LampUserspace

namespace Congruential

open Finset Function

variable {a c x : ℤ} {k m n : ℕ}

def next (a c x : ℤ) : ℤ := a * x + c

/-- A state that follows the map modulo `M` does so after any number of steps. -/
theorem iterate_congr {α : Type*} {g : α → α} {v : α → ℤ} {M : ℤ}
    (h : ∀ s, v (g s) ≡ next a c (v s) [ZMOD M]) (s : α) (n : ℕ) :
    v (g^[n] s) ≡ (next a c)^[n] (v s) [ZMOD M] := by
  induction n with
  | zero => rfl
  | succ n ih =>
    rw [iterate_succ_apply', iterate_succ_apply']
    exact (h _).trans ((ih.mul_left a).add_right c)

theorem iterate_modEq {y M : ℤ} (h : x ≡ y [ZMOD M]) (n : ℕ) :
    (next a c)^[n] x ≡ (next a c)^[n] y [ZMOD M] := by
  induction n with
  | zero => exact h
  | succ n ih =>
    rw [iterate_succ_apply', iterate_succ_apply']
    exact (ih.mul_left a).add_right c

theorem iterate_next_sub (a c x : ℤ) (n : ℕ) :
    (next a c)^[n] x - x = (∑ i ∈ range n, a ^ i) * ((a - 1) * x + c) := by
  induction n with
  | zero => simp
  | succ n ih =>
    rw [iterate_succ_apply', geom_sum_succ, next]
    linear_combination a * ih

theorem geom_sum_double (a : ℤ) (m : ℕ) :
    ∑ i ∈ range (2 * m), a ^ i = (∑ i ∈ range m, a ^ i) * (a ^ m + 1) := by
  rw [two_mul, sum_range_add, mul_add, mul_one, add_comm, sum_mul]
  congr 1
  exact sum_congr rfl fun i _ => by rw [pow_add, mul_comm]

theorem two_pow_dvd_mul_odd (y t : ℤ) (k : ℕ) : 2 ^ k ∣ y * (2 * t + 1) ↔ 2 ^ k ∣ y := by
  have hcoprime : IsCoprime (2 ^ k) (2 * t + 1) := IsCoprime.pow_left ⟨-t, 1, by ring⟩
  exact ⟨hcoprime.dvd_of_dvd_mul_right, fun h => h.mul_right _⟩

/-- The sum of the first `n` powers has as many factors two as `n`. -/
theorem two_pow_dvd_geom_sum (ha : a ≡ 1 [ZMOD 4]) :
    2 ^ k ∣ ∑ i ∈ range n, a ^ i ↔ 2 ^ k ∣ n := by
  induction k generalizing n with
  | zero => simp
  | succ k ih =>
    have hdouble : ∀ m, ∃ t, ∑ i ∈ range (2 * m), a ^ i =
        2 * ((∑ i ∈ range m, a ^ i) * (2 * t + 1)) := by
      intro m
      obtain ⟨t, ht⟩ := (ha.pow m).symm.dvd
      refine ⟨t, ?_⟩
      rw [geom_sum_double]
      linear_combination (∑ i ∈ range m, a ^ i) * ht
    rcases Nat.even_or_odd' n with ⟨m, rfl | rfl⟩
    · obtain ⟨t, ht⟩ := hdouble m
      rw [ht, pow_succ', pow_succ', mul_dvd_mul_iff_left two_ne_zero,
        two_pow_dvd_mul_odd, ih, Nat.mul_dvd_mul_iff_left two_pos]
    · obtain ⟨t, ht⟩ := hdouble m
      rw [geom_sum_succ, ht, mul_left_comm]
      refine iff_of_false (fun h => ?_) fun h => ?_
      · have hdvd := (dvd_pow_self (2 : ℤ) k.succ_ne_zero).trans h
        omega
      · have hdvd := (dvd_pow_self 2 k.succ_ne_zero).trans h
        omega

/-- The sequence is at the same residue after `m` and after `n` steps only where these differ by a
multiple of the modulus. -/
theorem iterate_next_modEq (ha : a ≡ 1 [ZMOD 4]) (hc : Odd c) (x : ℤ) :
    (next a c)^[m] x ≡ (next a c)^[n] x [ZMOD 2 ^ k] ↔ m ≡ n [MOD 2 ^ k] := by
  wlog hle : n ≤ m generalizing m n
  · rw [Int.modEq_comm, Nat.ModEq.comm]
    exact this (Nat.le_of_not_le hle)
  obtain ⟨d, rfl⟩ := Nat.exists_eq_add_of_le hle
  obtain ⟨e, he⟩ := hc
  obtain ⟨b, hb⟩ := ha.symm.dvd
  let y := (next a c)^[n] x
  have hodd : (a - 1) * y + c = 2 * (2 * b * y + e) + 1 := by
    rw [hb, he]
    ring
  rw [Nat.add_comm, iterate_add_apply, Int.modEq_comm, Int.modEq_iff_dvd, iterate_next_sub, hodd,
    two_pow_dvd_mul_odd, two_pow_dvd_geom_sum ha, Nat.ModEq.comm,
    Nat.modEq_iff_dvd' (Nat.le_add_left n d), Nat.add_sub_cancel_right]

/-! ## Residues -/

theorem injOn_residues (ha : a ≡ 1 [ZMOD 4]) (hc : Odd c) (x : ℤ) (k : ℕ) :
    Set.InjOn (fun i => (next a c)^[i] x % 2 ^ k) (range (2 ^ k)) := fun _ hi _ hj h =>
  ((iterate_next_modEq ha hc x).mp h).eq_of_lt_of_lt (mem_range.mp hi) (mem_range.mp hj)

theorem image_residues (ha : a ≡ 1 [ZMOD 4]) (hc : Odd c) (x : ℤ) (k : ℕ) :
    (range (2 ^ k)).image (fun i => (next a c)^[i] x % 2 ^ k) = Ico 0 (2 ^ k) := by
  have hpos : (0 : ℤ) < 2 ^ k := pow_pos two_pos k
  refine eq_of_subset_of_card_le (fun y hy => ?_) ?_
  · obtain ⟨i, -, rfl⟩ := mem_image.mp hy
    exact mem_Ico.mpr ⟨Int.emod_nonneg _ hpos.ne', Int.emod_lt_of_pos _ hpos⟩
  · rw [card_image_of_injOn (injOn_residues ha hc x k), Int.card_Ico, card_range]
    simp

/-- So a property of residues holds in one cycle as often as there are residues with it. -/
theorem card_residues (ha : a ≡ 1 [ZMOD 4]) (hc : Odd c) (x : ℤ) (k : ℕ) (p : ℤ → Prop)
    [DecidablePred p] :
    #{i ∈ range (2 ^ k) | p ((next a c)^[i] x % 2 ^ k)} = #{y ∈ Ico (0 : ℤ) (2 ^ k) | p y} := by
  rw [← image_residues ha hc x k, filter_image]
  exact (card_image_of_injOn ((injOn_residues ha hc x k).mono (filter_subset _ _))).symm

end Congruential

end LampUserspace
