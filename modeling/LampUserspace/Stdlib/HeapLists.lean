import LampUserspace.Stdlib.HeapTiles

/-! # The heap as first fit

On a tiled heap, `malloc` and `realloc` are `allocate` and `resize` on the list of
blocks: the pointers that they return, and whether they refuse, depend on that list
alone and on no byte of a payload.
-/

namespace LampUserspace.Stdlib

open Tiling

def wantedSize (size : ℕ) : ℕ := align4 (if size ≠ 0 then size else 1)

/-- What `malloc` returns for a size, with the blocks then. -/
def Area.allocate (area : Area) (size : ℕ) (bs : List Block) : Option (ℕ × List Block) :=
  Tiling.allocate header (area.gHeap + heapSize) area.gHeap (wantedSize size) bs

/-- What `realloc` returns for a block and a size, with the blocks then. -/
def Area.resize (area : Area) (p size : ℕ) (bs : List Block) : Option (ℕ × List Block) :=
  Tiling.resize header (area.gHeap + heapSize) area.gHeap p size (wantedSize size) bs

variable {area : Area} {h : Heap} {live : ℕ → Option ℕ} {bs bs' : List Block} {b : Block}
  {p q n size : ℕ}

theorem malloc_refused (t : Tiled area h live bs) (hsize : size + 16 ≤ 2 ^ 32)
    (hnone : area.allocate size bs = none) : malloc area.gHeap h size = some (0, h) := by
  unfold Area.allocate allocate at hnone
  rcases malloc_lists t hsize rfl with ⟨xs, b, ys, hfound, -⟩ | ⟨hfirst, ⟨-, heq⟩ | ⟨hroom, -⟩⟩
  · rw [wantedSize, hfound] at hnone
    cases hnone
  · exact heq
  · rw [wantedSize, hfirst, ← t.ends] at hnone
    simp only [if_pos hroom] at hnone
    cases hnone

/-- A request that the list serves is served by `malloc`, and the list of blocks is then that. -/
theorem malloc_allocate (t : Tiled area h live bs) (hsize : size + 16 ≤ 2 ^ 32)
    (hserved : area.allocate size bs = some (q, bs')) :
    ∃ h', malloc area.gHeap h size = some (q, h') ∧
      Tiled area h' (Function.update live q (some size)) bs' ∧ q ≠ 0 ∧ live q = none := by
  obtain ⟨hfit, h4, hpos, -⟩ := wanted_spec hsize
  unfold Area.allocate allocate at hserved
  rcases malloc_lists t hsize rfl with
    ⟨xs, b, ys, hfound, heq⟩ | ⟨hfirst, ⟨hroom, -⟩ | ⟨hroom, heq⟩⟩
  · rw [wantedSize, hfound] at hserved
    obtain ⟨rfl, rfl⟩ := Prod.mk.inj (Option.some.inj hserved)
    obtain ⟨rfl, hfree, hlarge⟩ := firstFit_eq_some hfound
    exact ⟨_, heq, t.hand_over (Nat.le_trans hfit hlarge) (t.chain.mark 0),
      by unfold header; omega, t.not_live hfree⟩
  · rw [wantedSize, hfirst, ← t.ends] at hserved
    simp only [if_neg hroom] at hserved
    cases hserved
  · rw [wantedSize, hfirst, ← t.ends] at hserved
    simp only [if_pos hroom] at hserved
    obtain ⟨rfl, rfl⟩ := Prod.mk.inj (Option.some.inj hserved)
    exact ⟨_, heq, t.extend hfit ⟨h4, hpos⟩ hroom, by unfold header; omega, t.live_behind⟩

theorem Tiled.sizeAt_eq (t : Tiled area h live bs) (hp : live p = some n) :
    sizeAt header p area.gHeap bs = blockSize h.memory (p - header) := by
  obtain ⟨xs, b, ys, rfl, rfl, -, -, hsize⟩ := t.live_split hp
  rw [sizeAt_seam (by decide), hsize]

theorem Tiled.le_sizeAt (t : Tiled area h live bs) (hp : live p = some n) :
    n ≤ sizeAt header p area.gHeap bs := by
  obtain ⟨xs, b, ys, rfl, rfl, -, hfit, -⟩ := t.live_split hp
  rwa [sizeAt_seam (by decide)]

theorem realloc_refused (t : Tiled area h live bs) (hp : live p = some n) (hpos : 0 < size)
    (hsize : size + 16 ≤ 2 ^ 32) (hnone : area.resize p size bs = none) :
    realloc area.gHeap h p size = some (0, h) := by
  have hne := t.live_ne_null hp
  have hsmall : sizeAt header p area.gHeap bs < size := by
    by_contra hkeep
    rw [Area.resize, resize_of_le (Nat.not_lt.mp hkeep)] at hnone
    cases hnone
  rw [Area.resize, resize_of_lt hsmall, Option.map_eq_none_iff] at hnone
  have hmalloc := malloc_refused t hsize hnone
  have hkeep : ¬ blockSize h.memory (p - header) ≥ size := by
    rw [← t.sizeAt_eq hp]
    omega
  rw [realloc, if_neg hne, if_neg (Nat.ne_of_gt hpos)]
  dsimp only
  rw [if_neg hkeep, hmalloc]
  rfl

theorem realloc_resize (t : Tiled area h live bs) (hp : live p = some n) (hpos : 0 < size)
    (hsize : size + 16 ≤ 2 ^ 32) (hserved : area.resize p size bs = some (q, bs')) :
    ∃ h', realloc area.gHeap h p size = some (q, h') ∧
      Tiled area h' (Function.update (release live p) q (some size)) bs' ∧ q ≠ 0 ∧
      release live p q = none := by
  have hne := t.live_ne_null hp
  rw [realloc, if_neg hne, if_neg (Nat.ne_of_gt hpos)]
  by_cases hkeep : blockSize h.memory (p - header) ≥ size
  · rw [Area.resize, resize_of_le (by rwa [t.sizeAt_eq hp])] at hserved
    obtain ⟨rfl, rfl⟩ := Prod.mk.inj (Option.some.inj hserved)
    refine ⟨h, if_pos hkeep, ?_, hne, Function.update_self ..⟩
    rw [release, Function.update_idem]
    exact t.keep hp hkeep
  · rw [Area.resize, resize_of_lt (by rw [t.sizeAt_eq hp]; omega)] at hserved
    obtain ⟨r, hr, heq⟩ := Option.map_eq_some_iff.mp hserved
    obtain ⟨rfl, rfl⟩ := Prod.mk.inj heq
    obtain ⟨h₁, hmalloc, t₁, hq, hfresh⟩ := malloc_allocate t hsize hr
    have hpq : p ≠ r.1 := ne_of_fresh hp hfresh
    have hnew : Function.update live r.1 (some size) r.1 = some size := Function.update_self ..
    have hold : Function.update live r.1 (some size) p = some n := by
      rw [Function.update_of_ne hpq, hp]
    have hcopy : (if blockSize h₁.memory (p - header) < size then
        blockSize h₁.memory (p - header) else size) ≤ size := by
      split <;> omega
    obtain ⟨h', hfree, t', -⟩ := free_joins (t₁.copied hnew p hcopy) hold
    have hlive : release (Function.update live r.1 (some size)) p =
        Function.update (release live p) r.1 (some size) := Function.update_comm hpq.symm ..
    refine ⟨h', ?_, hlive ▸ t', hq, ?_⟩
    · dsimp only
      rw [if_neg hkeep, hmalloc]
      simp only [Option.bind_eq_bind, Option.bind_some, if_pos hq, hfree]
      rfl
    · rw [release, Function.update_of_ne hpq.symm, hfresh]

end LampUserspace.Stdlib
