import Mathlib.Algebra.Ring.Periodic
import Mathlib.Data.Nat.Factorization.Basic
import LampUserspace.Congruential.Cycle

/-! # rand

`rand` and `srand` of `libc_stdlib.c`. The results are the bits 16 to 30 of a
congruential sequence modulo 2^32, and so of the same sequence modulo 2^31.
-/

namespace LampUserspace.Stdlib

open Congruential Finset Function

abbrev randMax : ℕ := 32767

def rand (gRandSeed : UInt32) : ℕ × UInt32 :=
  let gRandSeed := gRandSeed * 1103515245 + 12345
  ((gRandSeed / 65536 % .ofNat (randMax + 1)).toNat, gRandSeed)

def srand (seed : UInt32) : UInt32 := seed

/-- The result of call `i` of `rand` after a seed, from zero on. -/
def rands (gRandSeed : UInt32) (i : ℕ) : ℕ := (rand ((fun s => (rand s).2)^[i] gRandSeed)).1

/-- The sequence of the seeds, before any reduction. -/
abbrev seeds (seed : UInt32) (i : ℕ) : ℤ := (next 1103515245 12345)^[i] seed.toNat

variable {seed : UInt32} {m n i : ℕ}

theorem rand_modEq (s : UInt32) :
    ((rand s).2.toNat : ℤ) ≡ next 1103515245 12345 s.toNat [ZMOD 2 ^ 31] := by
  have hstep : (rand s).2.toNat = (s.toNat * 1103515245 + 12345) % 2 ^ 32 := by
    simp [rand]
  rw [hstep, next, Int.ModEq]
  omega

theorem rands_eq (seed : UInt32) (i : ℕ) :
    (rands seed i : ℤ) = seeds seed (i + 1) % 2 ^ 31 / 65536 := by
  have hrands : rands seed i = ((fun s => (rand s).2)^[i + 1] seed).toNat / 65536 % 32768 := by
    rw [iterate_succ_apply']
    exact UInt32.toNat_mod _ _
  have hmod := iterate_congr (v := fun s : UInt32 => (s.toNat : ℤ)) rand_modEq seed (i + 1)
  rw [Int.ModEq] at hmod
  rw [hrands, seeds, ← hmod]
  omega

theorem seeds_modEq (k : ℕ) : seeds seed m ≡ seeds seed n [ZMOD 2 ^ k] ↔ m ≡ n [MOD 2 ^ k] :=
  iterate_next_modEq (by decide) (by decide) _

/-- In 2^31 calls from any seed on every result up to `RAND_MAX` comes equally often. -/
theorem rand_uniform (seed : UInt32) (v : ℕ) :
    #{i ∈ range (2 ^ 31) | rands seed i = v} = if v ≤ randMax then 2 ^ 16 else 0 := by
  have hcard := card_residues (a := 1103515245) (c := 12345) (by decide) (by decide)
    (seeds seed 1) 31 fun y => y / 65536 = v
  have hseeds : ∀ i, (rands seed i = v) =
      ((next 1103515245 12345)^[i] (seeds seed 1) % 2 ^ 31 / 65536 = (v : ℤ)) := by
    intro i
    rw [seeds, ← iterate_add_apply, ← rands_eq, Int.natCast_inj]
  simp only [hseeds, hcard]
  split_ifs with hv
  · have hblock : (Ico (0 : ℤ) (2 ^ 31)).filter (fun y => y / 65536 = (v : ℤ)) =
        Ico (v * 65536 : ℤ) (v * 65536 + 2 ^ 16) := by
      ext y
      rw [mem_filter, mem_Ico, mem_Ico]
      unfold randMax at hv
      omega
    rw [hblock, Int.card_Ico, add_sub_cancel_left]
    rfl
  · refine card_eq_zero.mpr (filter_eq_empty_iff.mpr fun y hy => ?_)
    rw [mem_Ico] at hy
    unfold randMax at hv
    omega

/-- A repetition after an odd multiple of 2^30 calls would need the top bit of a result twice. -/
theorem rands_ne (hn : n ≡ 2 ^ 30 [MOD 2 ^ 31]) : rands seed n ≠ rands seed 0 := by
  have hlow : seeds seed (n + 1) ≡ seeds seed 1 [ZMOD 2 ^ 30] := by
    rw [seeds_modEq]
    unfold Nat.ModEq at hn ⊢
    omega
  have hhigh : ¬ seeds seed (n + 1) ≡ seeds seed 1 [ZMOD 2 ^ 31] := by
    rw [seeds_modEq]
    unfold Nat.ModEq at hn ⊢
    omega
  intro heq
  have heq := congrArg (Nat.cast (R := ℤ)) heq
  rw [rands_eq, rands_eq, Nat.zero_add] at heq
  unfold Int.ModEq at hlow hhigh
  omega

/-- The results repeat after a multiple of 2^31 calls, and only then. -/
theorem periodic_rands_iff (seed : UInt32) (n : ℕ) : Periodic (rands seed) n ↔ 2 ^ 31 ∣ n := by
  constructor
  · intro h
    by_contra hn
    have hne : n ≠ 0 := fun h0 => hn (h0 ▸ dvd_zero _)
    obtain ⟨k, m, hodd, rfl⟩ := Nat.exists_eq_two_pow_mul_odd hne
    have hk : k ≤ 30 := by
      by_contra hlt
      exact hn ((pow_dvd_pow 2 (by omega)).mul_right m)
    have hmul : 2 ^ (30 - k) * (2 ^ k * m) = 2 ^ 30 * m := by
      rw [← mul_assoc, ← pow_add, Nat.sub_add_cancel hk]
    have hmod : 2 ^ 30 * m ≡ 2 ^ 30 [MOD 2 ^ 31] := by
      obtain ⟨r, rfl⟩ := hodd
      unfold Nat.ModEq
      omega
    have hper := h.nsmul (2 ^ (30 - k)) 0
    rw [smul_eq_mul, Nat.zero_add, hmul] at hper
    exact rands_ne hmod hper
  · rintro ⟨r, rfl⟩ i
    have hmod : seeds seed (i + 2 ^ 31 * r + 1) ≡ seeds seed (i + 1) [ZMOD 2 ^ 31] := by
      rw [seeds_modEq]
      unfold Nat.ModEq
      omega
    rw [← Int.natCast_inj, rands_eq, rands_eq, hmod.eq]

/-- Whatever the seed, the shortest period of the results is 2^31; two seeds give the same results
if and only if they have the same lower 31 bits. -/
theorem rand_sequences :
    (∀ seed n, (∀ i, rands (srand seed) (i + n) = rands (srand seed) i) ↔ 2 ^ 31 ∣ n) ∧
      ∀ seed seed' : UInt32, (∀ i, rands (srand seed) i = rands (srand seed') i) ↔
        seed.toNat % 2 ^ 31 = seed'.toNat % 2 ^ 31 := by
  refine ⟨periodic_rands_iff, fun seed seed' => ?_⟩
  obtain ⟨n, hn, hmod⟩ : ∃ n < 2 ^ 31, seeds seed n % 2 ^ 31 = (seed'.toNat : ℤ) % 2 ^ 31 := by
    have hmem : (seed'.toNat : ℤ) % 2 ^ 31 ∈ Ico (0 : ℤ) (2 ^ 31) := by
      rw [mem_Ico]
      omega
    rw [← image_residues (a := 1103515245) (c := 12345) (by decide) (by decide) seed.toNat] at hmem
    obtain ⟨n, hn, h⟩ := mem_image.mp hmem
    exact ⟨n, mem_range.mp hn, h⟩
  -- the second seed gives the results of the first after `n` calls
  have hshift : ∀ i, rands seed' i = rands seed (i + n) := by
    intro i
    have hseeds : seeds seed' (i + 1) ≡ seeds seed (i + n + 1) [ZMOD 2 ^ 31] := by
      rw [Nat.add_right_comm, seeds, seeds, iterate_add_apply _ (i + 1) n]
      exact iterate_modEq hmod.symm (i + 1)
    rw [← Int.natCast_inj, rands_eq, rands_eq, hseeds.eq]
  constructor
  · intro h
    have hdvd := (periodic_rands_iff seed n).mp fun i => by
      rw [← hshift]
      exact (h i).symm
    obtain rfl := Nat.eq_zero_of_dvd_of_lt hdvd hn
    exact Int.natCast_inj.mp hmod
  · intro h i
    obtain rfl : n = 0 := by
      have hzero : seeds seed n ≡ seeds seed 0 [ZMOD 2 ^ 31] := hmod.trans (by
        simp only [seeds, iterate_zero, id_eq]
        omega)
      exact ((seeds_modEq 31).mp hzero).eq_of_lt_of_lt hn (by decide)
    exact (hshift i).symm

end LampUserspace.Stdlib
