import Mathlib.Data.Int.Notation
import Mathlib.Data.List.Basic
import Mathlib.Data.Nat.Find

/-! # Bisection

The search of a half-open interval of positions by a three-way comparison with a
key. The positions where the key is greater, equal and smaller are segments that
follow one another; no order of the positions themselves is needed.
-/

namespace LampUserspace

namespace Bisection

variable {cmp : ℕ → ℤ} {n lo hi i : ℕ}

def middle (lo hi : ℕ) : ℕ := lo + (hi - lo) / 2

theorem le_middle (lo hi : ℕ) : lo ≤ middle lo hi := Nat.le_add_right _ _

theorem middle_lt (h : lo < hi) : middle lo hi < hi := by
  unfold middle
  omega

/-- The positions probed, in order, and the position found. -/
def bisect (cmp : ℕ → ℤ) (lo hi : ℕ) : List ℕ × Option ℕ :=
  if lo < hi then
    let mid := middle lo hi
    if cmp mid < 0 then (bisect cmp lo mid).map (mid :: ·) id
    else if 0 < cmp mid then (bisect cmp (mid + 1) hi).map (mid :: ·) id
    else ([mid], some mid)
  else ([], none)
termination_by hi - lo
decreasing_by
  · have := middle_lt ‹lo < hi›
    omega
  · have := le_middle lo hi
    omega

theorem bisect_empty (h : hi ≤ lo) : bisect cmp lo hi = ([], none) := by
  rw [bisect, if_neg (Nat.not_lt_of_le h)]

theorem bisect_smaller (hlt : lo < hi) (h : cmp (middle lo hi) < 0) :
    bisect cmp lo hi = (bisect cmp lo (middle lo hi)).map (middle lo hi :: ·) id := by
  rw [bisect, if_pos hlt]
  exact if_pos h

theorem bisect_greater (hlt : lo < hi) (h : 0 < cmp (middle lo hi)) :
    bisect cmp lo hi = (bisect cmp (middle lo hi + 1) hi).map (middle lo hi :: ·) id := by
  rw [bisect, if_pos hlt]
  exact (if_neg (Int.not_lt.mpr (Int.le_of_lt h))).trans (if_pos h)

theorem bisect_equal (hlt : lo < hi) (h : cmp (middle lo hi) = 0) :
    bisect cmp lo hi = ([middle lo hi], some (middle lo hi)) := by
  rw [bisect, if_pos hlt]
  simp only [h, Int.lt_irrefl, if_false]

/-- The key is greater than what stands before `p`, equal to what stands from `p` to `q`, and
smaller than what stands from `q` on. -/
structure Segments (cmp : ℕ → ℤ) (n p q : ℕ) : Prop where
  le : p ≤ q
  greater : ∀ i < p, 0 < cmp i
  equal : ∀ i, p ≤ i → i < q → cmp i = 0
  smaller : ∀ i, q ≤ i → i < n → cmp i < 0

namespace Segments

variable {p q : ℕ}

theorem before (h : Segments cmp n p q) {mid : ℕ} (hmid : 0 < cmp mid) (hn : mid < n)
    (hi : i ≤ mid) : 0 < cmp i := by
  have hp : mid < p := by
    by_contra hle
    rcases Nat.lt_or_ge mid q with hq | hq
    · have heq := h.equal mid (Nat.le_of_not_lt hle) hq
      omega
    · have hlt := h.smaller mid hq hn
      omega
  exact h.greater i (Nat.lt_of_le_of_lt hi hp)

theorem after (h : Segments cmp n p q) {mid : ℕ} (hmid : cmp mid < 0) (hi : mid ≤ i) (hn : i < n) :
    cmp i < 0 := by
  have hq : q ≤ mid := by
    by_contra hlt
    rcases Nat.lt_or_ge mid p with hp | hp
    · have hgt := h.greater mid hp
      omega
    · have heq := h.equal mid hp (Nat.lt_of_not_le hlt)
      omega
  exact h.smaller i (Nat.le_trans hq hi) hn

/-- There are segments where the key stays as small as it has become. -/
theorem of_antitone (hle : ∀ i j, i ≤ j → j < n → cmp i ≤ 0 → cmp j ≤ 0)
    (hlt : ∀ i j, i ≤ j → j < n → cmp i < 0 → cmp j < 0) : ∃ p q, Segments cmp n p q := by
  have hp : ∃ k, n ≤ k ∨ cmp k ≤ 0 := ⟨n, Or.inl (Nat.le_refl n)⟩
  have hq : ∃ k, n ≤ k ∨ cmp k < 0 := ⟨n, Or.inl (Nat.le_refl n)⟩
  refine ⟨Nat.find hp, Nat.find hq, ?_, fun i hi => ?_, fun i hi hi' => ?_, fun i hi hn => ?_⟩
  · exact Nat.find_mono fun k => Or.imp_right Int.le_of_lt
  · have hmin := Nat.find_min hp hi
    omega
  · have hmin := Nat.find_min hq hi'
    have hnot : ¬ cmp i < 0 := fun h => hmin (Or.inr h)
    have hlen : i < n := Nat.lt_of_not_le fun h => hmin (Or.inl h)
    rcases Nat.find_spec hp with hend | hspec
    · omega
    · have hle := hle _ i hi hlen hspec
      omega
  · rcases Nat.find_spec hq with hend | hspec
    · omega
    · exact hlt _ i hi hn hspec

end Segments

/-- The induction of the search: on the interval, with one case for each outcome of a probe. -/
theorem bisect_induction (cmp : ℕ → ℤ) {motive : ℕ → ℕ → Prop}
    (empty : ∀ lo hi, hi ≤ lo → motive lo hi)
    (smaller : ∀ lo hi, lo < hi → cmp (middle lo hi) < 0 → motive lo (middle lo hi) →
      motive lo hi)
    (greater : ∀ lo hi, lo < hi → 0 < cmp (middle lo hi) → motive (middle lo hi + 1) hi →
      motive lo hi)
    (equal : ∀ lo hi, lo < hi → cmp (middle lo hi) = 0 → motive lo hi) (lo hi : ℕ) :
    motive lo hi := by
  induction lo, hi using bisect.induct cmp with
  | case1 lo hi hlt mid hneg ih => exact smaller lo hi hlt hneg ih
  | case2 lo hi hlt mid hneg hpos ih => exact greater lo hi hlt hpos ih
  | case3 lo hi hlt mid hneg hpos =>
    exact equal lo hi hlt (Int.le_antisymm (Int.not_lt.mp hpos) (Int.not_lt.mp hneg))
  | case4 lo hi hlt => exact empty lo hi (Nat.le_of_not_lt hlt)

theorem mem_bisect (h : i ∈ (bisect cmp lo hi).1) : lo ≤ i ∧ i < hi := by
  induction lo, hi using bisect_induction cmp with
  | empty lo hi hle =>
    rw [bisect_empty hle] at h
    exact absurd h List.not_mem_nil
  | smaller lo hi hlt hneg ih =>
    have hmid := middle_lt hlt
    rw [bisect_smaller hlt hneg] at h
    rcases List.mem_cons.mp h with rfl | h
    · exact ⟨le_middle lo hi, hmid⟩
    · exact ⟨(ih h).1, Nat.lt_trans (ih h).2 hmid⟩
  | greater lo hi hlt hpos ih =>
    have hmid := le_middle lo hi
    rw [bisect_greater hlt hpos] at h
    rcases List.mem_cons.mp h with rfl | h
    · exact ⟨hmid, middle_lt hlt⟩
    · exact ⟨by have := (ih h).1; omega, (ih h).2⟩
  | equal lo hi hlt heq =>
    rw [bisect_equal hlt heq] at h
    rw [List.mem_singleton.mp h]
    exact ⟨le_middle lo hi, middle_lt hlt⟩

theorem bisect_eq_some (h : (bisect cmp lo hi).2 = some i) :
    i ∈ (bisect cmp lo hi).1 ∧ cmp i = 0 := by
  induction lo, hi using bisect_induction cmp with
  | empty lo hi hle =>
    rw [bisect_empty hle] at h
    cases h
  | smaller lo hi hlt hneg ih =>
    rw [bisect_smaller hlt hneg] at h ⊢
    exact ⟨List.mem_cons_of_mem _ (ih h).1, (ih h).2⟩
  | greater lo hi hlt hpos ih =>
    rw [bisect_greater hlt hpos] at h ⊢
    exact ⟨List.mem_cons_of_mem _ (ih h).1, (ih h).2⟩
  | equal lo hi hlt heq =>
    rw [bisect_equal hlt heq] at h ⊢
    obtain rfl := Option.some.inj h
    exact ⟨List.mem_cons_self, heq⟩

/-- Under the segment condition a search without a result leaves out no position that compares
equal: such a position never leaves the interval. -/
theorem bisect_eq_none {p q : ℕ} (hseg : Segments cmp n p q) (hn : hi ≤ n)
    (h : (bisect cmp lo hi).2 = none) : ∀ i, lo ≤ i → i < hi → cmp i ≠ 0 := by
  induction lo, hi using bisect_induction cmp with
  | empty lo hi hle => exact fun i hlo hhi => by omega
  | smaller lo hi hlt hneg ih =>
    rw [bisect_smaller hlt hneg] at h
    have hmid := middle_lt hlt
    intro i hlo hhi
    rcases Nat.lt_or_ge i (middle lo hi) with him | him
    · exact ih (by omega) h i hlo him
    · have hafter := hseg.after hneg him (by omega)
      omega
  | greater lo hi hlt hpos ih =>
    rw [bisect_greater hlt hpos] at h
    have hmid := middle_lt hlt
    intro i hlo hhi
    rcases Nat.lt_or_ge (middle lo hi) i with him | him
    · exact ih hn h i him hhi
    · have hbefore := hseg.before hpos (by omega) him
      omega
  | equal lo hi hlt heq =>
    rw [bisect_equal hlt heq] at h
    cases h

end Bisection

end LampUserspace
