import Mathlib.Algebra.Group.Nat.Defs
import LampUserspace.Search.Bisection

/-! # bsearch

`bsearch` of `libc_stdlib.c` on 32-bit sizes. Addresses are numbers; the elements
do not change during a search, so the comparison is a function of two addresses.
The addresses compared with the key are recorded.
-/

namespace LampUserspace.Stdlib

open Bisection

variable {compar : ℕ → ℕ → ℤ} {key base : ℕ} {nmemb size lo hi : UInt32}

theorem toNat_mid (h : lo < hi) : (lo + (hi - lo) / 2).toNat = middle lo.toNat hi.toNat := by
  have hlt := UInt32.lt_iff_toNat_lt.mp h
  have hhi := hi.toNat_lt
  have hle : lo ≤ hi := UInt32.le_iff_toNat_le.mpr (Nat.le_of_lt hlt)
  have hhalf : ((hi - lo) / 2).toNat = (hi.toNat - lo.toNat) / 2 := by
    rw [UInt32.toNat_div, UInt32.toNat_sub_of_le _ _ hle]
    rfl
  rw [middle, UInt32.toNat_add, hhalf, Nat.mod_eq_of_lt (by omega)]

theorem toNat_mid_succ (h : lo < hi) :
    (lo + (hi - lo) / 2 + 1).toNat = middle lo.toNat hi.toNat + 1 := by
  have hmid := middle_lt (UInt32.lt_iff_toNat_lt.mp h)
  have hhi := hi.toNat_lt
  rw [UInt32.toNat_add, toNat_mid h]
  exact Nat.mod_eq_of_lt (by simp only [UInt32.toNat_one]; omega)

def bsearchLoop (compar : ℕ → ℕ → ℤ) (key base : ℕ) (size lo hi : UInt32) : List ℕ × Option ℕ :=
  if lo < hi then
    let mid := lo + (hi - lo) / 2
    let elem := base + (mid * size).toNat
    let cmp := compar key elem
    if cmp < 0 then (bsearchLoop compar key base size lo mid).map (elem :: ·) id
    else if 0 < cmp then (bsearchLoop compar key base size (mid + 1) hi).map (elem :: ·) id
    else ([elem], some elem)
  else ([], none)
termination_by hi.toNat - lo.toNat
decreasing_by
  · have hlt := UInt32.lt_iff_toNat_lt.mp ‹lo < hi›
    have hmid := middle_lt hlt
    rw [toNat_mid ‹lo < hi›]
    omega
  · have hmid := le_middle lo.toNat hi.toNat
    have hlt := UInt32.lt_iff_toNat_lt.mp ‹lo < hi›
    rw [toNat_mid_succ ‹lo < hi›]
    omega

/-- `bsearch`: the compared addresses and the result, `none` for a null pointer. -/
def bsearch (compar : ℕ → ℕ → ℤ) (key base : ℕ) (nmemb size : UInt32) : List ℕ × Option ℕ :=
  bsearchLoop compar key base size 0 nmemb

def element (base : ℕ) (size : UInt32) (i : ℕ) : ℕ := base + i * size.toNat

def compareAt (compar : ℕ → ℕ → ℤ) (key base : ℕ) (size : UInt32) (i : ℕ) : ℤ :=
  compar key (element base size i)

/-- In an array of less than 2^32 bytes no product wraps, and the search bisects the indices. -/
theorem bsearchLoop_eq (compar : ℕ → ℕ → ℤ) (key base : ℕ) (lo hi : UInt32)
    (hsize : hi.toNat * size.toNat < 2 ^ 32) :
    bsearchLoop compar key base size lo hi =
      (bisect (compareAt compar key base size) lo.toNat hi.toNat).map
        (List.map (element base size)) (Option.map (element base size)) := by
  rw [bsearchLoop]
  by_cases hlt : lo < hi
  · have hlt' := UInt32.lt_iff_toNat_lt.mp hlt
    have hmid := middle_lt hlt'
    have hmul : middle lo.toNat hi.toNat * size.toNat < 2 ^ 32 :=
      Nat.lt_of_le_of_lt (Nat.mul_le_mul_right _ (Nat.le_of_lt hmid)) hsize
    have helem : base + ((lo + (hi - lo) / 2) * size).toNat =
        element base size (middle lo.toNat hi.toNat) := by
      rw [UInt32.toNat_mul, toNat_mid hlt, Nat.mod_eq_of_lt hmul]
      rfl
    have hcmp : compar key (element base size (middle lo.toNat hi.toNat)) =
        compareAt compar key base size (middle lo.toNat hi.toNat) := rfl
    simp only [if_pos hlt, helem, hcmp]
    rcases Int.lt_trichotomy (compareAt compar key base size (middle lo.toNat hi.toNat)) 0
      with hneg | heq | hpos
    · have ih := bsearchLoop_eq compar key base lo (lo + (hi - lo) / 2)
        (by rw [toNat_mid hlt]; exact hmul)
      rw [toNat_mid hlt] at ih
      rw [if_pos hneg, ih, bisect_smaller hlt' hneg]
      rfl
    · rw [bisect_equal hlt' heq, heq]
      rfl
    · have ih := bsearchLoop_eq compar key base (lo + (hi - lo) / 2 + 1) hi hsize
      rw [toNat_mid_succ hlt] at ih
      rw [if_neg (Int.not_lt.mpr (Int.le_of_lt hpos)), if_pos hpos, ih, bisect_greater hlt' hpos]
      rfl
  · rw [if_neg hlt, bisect_empty (Nat.le_of_not_lt fun h => hlt (UInt32.lt_iff_toNat_lt.mpr h))]
    rfl
termination_by hi.toNat - lo.toNat
decreasing_by
  · rw [toNat_mid hlt]
    omega
  · have hle := le_middle lo.toNat hi.toNat
    rw [toNat_mid_succ hlt]
    omega

/-- Every address that is compared is that of an element, and under the segment condition the
result is an element that compares equal to the key if there is one. -/
theorem bsearch_finds {p q : ℕ} (hsize : nmemb.toNat * size.toNat < 2 ^ 32)
    (hseg : Segments (compareAt compar key base size) nmemb.toNat p q) :
    (∀ a ∈ (bsearch compar key base nmemb size).1, ∃ i < nmemb.toNat, a = element base size i) ∧
      (∀ a, (bsearch compar key base nmemb size).2 = some a →
        (∃ i < nmemb.toNat, a = element base size i) ∧ compar key a = 0) ∧
      ((∃ i < nmemb.toNat, compareAt compar key base size i = 0) →
        (bsearch compar key base nmemb size).2 ≠ none) := by
  have heq := bsearchLoop_eq compar key base 0 nmemb hsize
  rw [UInt32.toNat_zero] at heq
  rw [bsearch, heq]
  refine ⟨fun a ha => ?_, fun a ha => ?_, fun ⟨i, hi, hzero⟩ hnone => ?_⟩
  · obtain ⟨i, hi, rfl⟩ := List.mem_map.mp ha
    exact ⟨i, (mem_bisect hi).2, rfl⟩
  · obtain ⟨i, hi, rfl⟩ := Option.map_eq_some_iff.mp ha
    obtain ⟨hmem, hzero⟩ := bisect_eq_some hi
    exact ⟨⟨i, (mem_bisect hmem).2, rfl⟩, hzero⟩
  · exact bisect_eq_none hseg (Nat.le_refl _) (Option.map_eq_none_iff.mp hnone) i (Nat.zero_le i)
      hi hzero

/-- Four words, of which the second and the third compare equal to the key. -/
theorem bsearch_finds_four :
    (∀ a ∈ (bsearch (fun _ a => if a < 104 then 1 else if a < 112 then 0 else -1) 0 100 4 4).1,
      ∃ i < (4 : UInt32).toNat, a = element 100 4 i) ∧
      (∀ a, (bsearch (fun _ a => if a < 104 then 1 else if a < 112 then 0 else -1) 0 100 4 4).2 =
          some a →
        (∃ i < (4 : UInt32).toNat, a = element 100 4 i) ∧
          (if a < 104 then (1 : ℤ) else if a < 112 then 0 else -1) = 0) ∧
      ((∃ i < (4 : UInt32).toNat, compareAt
          (fun _ a => if a < 104 then 1 else if a < 112 then 0 else -1) 0 100 4 i = 0) →
        (bsearch (fun _ a => if a < 104 then 1 else if a < 112 then 0 else -1) 0 100 4 4).2 ≠
          none) :=
  bsearch_finds (p := 1) (q := 3) (by decide)
    ⟨by decide, by decide, fun i hp hq => by
        have hi : i = 1 ∨ i = 2 := by omega
        rcases hi with rfl | rfl <;> decide,
      fun i hq hn => by
        have hi : i = 3 := Nat.le_antisymm (Nat.le_of_lt_succ hn) hq
        rw [hi]
        decide⟩

end LampUserspace.Stdlib
