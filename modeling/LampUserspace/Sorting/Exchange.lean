import Mathlib.Data.List.Nodup
import Mathlib.Logic.Equiv.Basic

/-! # Sorting by exchanges

An array is a function of positions. Exchanges of positions below a bound only
rearrange the elements there. A sort that compares the element at `i` with every
later one, and exchanges the two where they are out of order, leaves the least of
these elements at `i`.
-/

namespace LampUserspace

namespace Exchange

variable {α : Type*} {a a' a'' : ℕ → α} {i j n : ℕ}

def exchange (a : ℕ → α) (i j : ℕ) : ℕ → α := a ∘ Equiv.swap i j

theorem exchange_left (a : ℕ → α) (i j : ℕ) : exchange a i j i = a j := by
  simp [exchange]

theorem exchange_right (a : ℕ → α) (i j : ℕ) : exchange a i j j = a i := by
  simp [exchange]

theorem exchange_of_ne {k : ℕ} (a : ℕ → α) (hi : k ≠ i) (hj : k ≠ j) : exchange a i j k = a k := by
  simp [exchange, Equiv.swap_apply_of_ne_of_ne hi hj]

/-! ## Rearrangements -/

/-- The elements below `n` are rearranged, and the others stay. -/
def Rearranged (n : ℕ) (a a' : ℕ → α) : Prop :=
  ∃ π : Equiv.Perm ℕ, (∀ k, n ≤ k → π k = k) ∧ a' = a ∘ π

namespace Rearranged

theorem refl (a : ℕ → α) : Rearranged n a a := ⟨Equiv.refl ℕ, fun _ _ => rfl, rfl⟩

theorem trans (h : Rearranged n a a') (h' : Rearranged n a' a'') : Rearranged n a a'' := by
  obtain ⟨π, hπ, rfl⟩ := h
  obtain ⟨ρ, hρ, rfl⟩ := h'
  refine ⟨ρ.trans π, fun k hk => ?_, rfl⟩
  rw [Equiv.trans_apply, hρ k hk, hπ k hk]

theorem exchange (a : ℕ → α) (hi : i < n) (hj : j < n) :
    Rearranged n a (Exchange.exchange a i j) :=
  ⟨Equiv.swap i j, fun _ hk => Equiv.swap_apply_of_ne_of_ne (by omega) (by omega), rfl⟩

theorem perm (h : Rearranged n a a') : ((List.range n).map a').Perm ((List.range n).map a) := by
  obtain ⟨π, hπ, rfl⟩ := h
  have hlt : ∀ k, π k < n ↔ k < n := by
    intro k
    constructor
    · intro hk
      by_contra hge
      rw [hπ k (Nat.le_of_not_lt hge)] at hk
      exact hge hk
    · intro hk
      by_contra hge
      have hfix : π (π k) = π k := hπ _ (Nat.le_of_not_lt hge)
      rw [π.injective hfix] at hge
      exact hge hk
  have hrange : ((List.range n).map π).Perm (List.range n) := by
    refine (List.perm_ext_iff_of_nodup (List.nodup_range.map π.injective) List.nodup_range).mpr ?_
    intro k
    rw [List.mem_map, List.mem_range]
    constructor
    · rintro ⟨l, hl, rfl⟩
      exact (hlt l).mpr (List.mem_range.mp hl)
    · intro hk
      have heq : π (π.symm k) = k := π.apply_symm_apply k
      exact ⟨π.symm k, List.mem_range.mpr ((hlt _).mp (by rwa [heq])), heq⟩
  rw [← List.map_map]
  exact hrange.map a

end Rearranged

/-! ## The scan -/

section Scan

variable {le : α → α → Prop}

/-- Elements before `i` are not greater than any later one, and the element at `i` is not greater
than those behind it up to `j`. -/
structure Scanned (le : α → α → Prop) (n : ℕ) (a : ℕ → α) (i j : ℕ) : Prop where
  front : ∀ k l, k < i → k < l → l < n → le (a k) (a l)
  least : ∀ l, i < l → l < j → le (a i) (a l)

namespace Scanned

theorem start (a : ℕ → α) : Scanned le n a 0 1 where
  front _ _ hk := absurd hk (Nat.not_lt_zero _)
  least l hl hl' := absurd hl (by omega)

theorem keep (h : Scanned le n a i j) (hle : le (a i) (a j)) : Scanned le n a i (j + 1) where
  front := h.front
  least l hl hl' := by
    rcases Nat.lt_succ_iff_lt_or_eq.mp hl' with hlt | rfl
    · exact h.least l hl hlt
    · exact hle

/-- An exchange of elements out of order: the new element at `i` is not greater than the old one,
which none of the scanned elements is smaller than. -/
theorem exchange (htrans : ∀ x y z, le x y → le y z → le x z) (h : Scanned le n a i j)
    (hij : i < j) (hj : j < n) (hle : le (a j) (a i)) :
    Scanned le n (Exchange.exchange a i j) i (j + 1) where
  front k l hk hkl hl := by
    rw [exchange_of_ne a (by omega : k ≠ i) (by omega : k ≠ j)]
    by_cases hli : l = i
    · rw [hli, exchange_left]
      exact h.front k j hk (by omega) hj
    · by_cases hlj : l = j
      · rw [hlj, exchange_right]
        exact h.front k i hk (by omega) (by omega)
      · rw [exchange_of_ne a hli hlj]
        exact h.front k l hk hkl hl
  least l hl hl' := by
    rw [exchange_left]
    rcases Nat.lt_succ_iff_lt_or_eq.mp hl' with hlt | rfl
    · rw [exchange_of_ne a (by omega) (by omega)]
      exact htrans _ _ _ hle (h.least l hl hlt)
    · rw [exchange_right]
      exact hle

theorem next (h : Scanned le n a i j) (hj : n ≤ j) : Scanned le n a (i + 1) (i + 2) where
  front k l hk hkl hl := by
    rcases Nat.lt_succ_iff_lt_or_eq.mp hk with hlt | rfl
    · exact h.front k l hlt hkl hl
    · exact h.least l hkl (Nat.lt_of_lt_of_le hl hj)
  least l hl hl' := absurd hl (by omega)

end Scanned

end Scan

end Exchange

end LampUserspace
