import LampUserspace.Libc.Moving
import LampUserspace.Sorting.Exchange

/-! # qsort

`qsort` of `libc_stdlib.c` on a byte memory. A comparison is given the addresses
of two elements and the memory, and may keep a state of its own between calls; it
does not write to the memory. The array lies in an address space, so the products
of an index and the element size do not wrap.
-/

namespace LampUserspace.Stdlib

open Copying Exchange

def memcpy (m : Memory) (dst src : ℕ) : ℕ → Memory
  | 0 => m
  | n + 1 =>
    let m := memcpy m dst src n
    m.store8 (dst + n) (m (src + n))

/-- A comparison function: its result and its next state. -/
abbrev Compar (σ : Type) : Type := σ → ℕ → ℕ → Memory → ℤ × σ

/-- `sizeof(tmp)`. -/
abbrev sizeofTmp : ℕ := 64

section Code

variable {σ : Type} (compar : Compar σ) (b nmemb size : ℕ)

/-- The body of the two loops. -/
def qsortStep (i j : ℕ) (s : Memory × σ) : Memory × σ :=
  let r := compar s.2 (b + i * size) (b + j * size) s.1
  if 0 < r.1 then
    let tmp := s.1.read (b + i * size) size
    ((memcpy s.1 (b + i * size) (b + j * size) size).write (b + j * size) tmp, r.2)
  else (s.1, r.2)

def qsortInner (i j : ℕ) (s : Memory × σ) : Memory × σ :=
  if j < nmemb then qsortInner i (j + 1) (qsortStep compar b size i j s) else s
termination_by nmemb - j

def qsortOuter (i : ℕ) (s : Memory × σ) : Memory × σ :=
  if i < nmemb then qsortOuter (i + 1) (qsortInner compar b nmemb size i (i + 1) s) else s
termination_by nmemb - i

/-- `qsort`: the memory and the state of the comparison after it. -/
def qsort (s : Memory × σ) : Memory × σ :=
  if sizeofTmp < size then s else qsortOuter compar b nmemb size 0 s

end Code

/-! ## Copied bytes -/

section Copies

variable {m : Memory} {dst src n x t : ℕ}

theorem memcpy_eq (m : Memory) (dst src n : ℕ) :
    memcpy m dst src n = copyBytes dst src (List.range n) m := by
  induction n with
  | zero => rfl
  | succ n ih =>
    rw [memcpy, ih, List.range_succ, store8_eq_update]
    exact (copyEach_append (List.range n) [n] m).symm

theorem memcpy_frame (m : Memory) (dst src n : ℕ) (h : x < dst ∨ dst + n ≤ x) :
    memcpy m dst src n x = m x := by
  rw [memcpy_eq]
  refine copyEach_frame (fun i hi heq => ?_) m
  have hlt := List.mem_range.mp hi
  omega

theorem safe_of_disjoint (h : dst + n ≤ src ∨ src + n ≤ dst) :
    Safe (dst + ·) (src + ·) (List.range n) :=
  List.pairwise_lt_range.imp_of_mem fun hi hj hij => by
    have hin := List.mem_range.mp hi
    have hjn := List.mem_range.mp hj
    dsimp only
    omega

theorem memcpy_apply (h : dst + n ≤ src ∨ src + n ≤ dst) (ht : t < n) :
    memcpy m dst src n (dst + t) = m (src + t) := by
  rw [memcpy_eq]
  exact ((safe_of_disjoint h).copied m).copied t (List.mem_range.mpr ht)

end Copies

/-! ## Elements -/

def elements (b size : ℕ) (m : Memory) (k : ℕ) : Vector UInt8 size :=
  Vector.ofFn fun t => m (b + k * size + t)

/-- The addresses that do not belong to an array of `n` bytes. -/
def Outside (b n x : ℕ) : Prop := x < b ∨ b + n ≤ x

section Elements

variable {m m' : Memory} {b size i j k n : ℕ}

theorem elements_congr (h : ∀ t < size, m' (b + i * size + t) = m (b + j * size + t)) :
    elements b size m' i = elements b size m j := by
  refine Vector.ext fun t ht => ?_
  rw [elements, elements, Vector.getElem_ofFn, Vector.getElem_ofFn]
  exact h t ht

theorem block_le (size : ℕ) (h : i < j) : i * size + size ≤ j * size := by
  rw [← Nat.succ_mul]
  exact Nat.mul_le_mul_right size h

/-- The three copies of an exchange of the blocks at `p` and `q`. -/
theorem copies_apply (m : Memory) (p q : ℕ) {size : ℕ} (hpq : p + size ≤ q) :
    (∀ t < size, (memcpy m p q size).write q (m.read p size) (p + t) = m (q + t)) ∧
      (∀ t < size, (memcpy m p q size).write q (m.read p size) (q + t) = m (p + t)) ∧
      ∀ x, (x < p ∨ p + size ≤ x) → (x < q ∨ q + size ≤ x) →
        (memcpy m p q size).write q (m.read p size) x = m x := by
  obtain ⟨hwritten, hkept⟩ := Memory.write_read m (memcpy m p q size) p q size
  refine ⟨fun t ht => ?_, hwritten, fun x hp hq => ?_⟩
  · rw [hkept _ (by omega), memcpy_apply (Or.inl hpq) ht]
  · rw [hkept x hq, memcpy_frame m p q size hp]

/-- They exchange two elements and change nothing outside the array. -/
theorem copies_exchange (m : Memory) (b size : ℕ) (hij : i < j) (hj : j < n) :
    elements b size ((memcpy m (b + i * size) (b + j * size) size).write (b + j * size)
        (m.read (b + i * size) size)) = exchange (elements b size m) i j ∧
      ∀ x, Outside b (n * size) x →
        (memcpy m (b + i * size) (b + j * size) size).write (b + j * size)
          (m.read (b + i * size) size) x = m x := by
  have hblock := block_le size hij
  have hend := block_le size hj
  obtain ⟨hleft, hright, hframe⟩ := copies_apply m (b + i * size) (b + j * size)
    (show b + i * size + size ≤ b + j * size by omega)
  constructor
  · funext k
    by_cases hki : k = i
    · rw [hki, exchange_left]
      exact elements_congr hleft
    · by_cases hkj : k = j
      · rw [hkj, exchange_right]
        exact elements_congr hright
      · rw [exchange_of_ne _ hki hkj]
        refine elements_congr fun t ht => hframe _ ?_ ?_
        · rcases Nat.lt_or_gt_of_ne hki with hlt | hgt
          · have := block_le size hlt
            omega
          · have := block_le size hgt
            omega
        · rcases Nat.lt_or_gt_of_ne hkj with hlt | hgt
          · have := block_le size hlt
            omega
          · have := block_le size hgt
            omega
  · intro x hx
    rcases hx with hx | hx
    · exact hframe x (by omega) (by omega)
    · exact hframe x (by omega) (by omega)

end Elements

/-! ## Runs -/

section Runs

variable {σ : Type} {compar : Compar σ} {b nmemb size i j : ℕ} {m : Memory} {s : Memory × σ}

/-- What a comparison does: it leaves the memory, or exchanges two elements that it reported to be
out of order. -/
theorem qsortStep_cases (compar : Compar σ) (b size : ℕ) (s : Memory × σ) (hij : i < j)
    (hj : j < nmemb) :
    (∀ x, Outside b (nmemb * size) x → (qsortStep compar b size i j s).1 x = s.1 x) ∧
      ((compar s.2 (b + i * size) (b + j * size) s.1).1 ≤ 0 ∧
          elements b size (qsortStep compar b size i j s).1 = elements b size s.1 ∨
        0 < (compar s.2 (b + i * size) (b + j * size) s.1).1 ∧
          elements b size (qsortStep compar b size i j s).1 =
            exchange (elements b size s.1) i j) := by
  rw [qsortStep]
  by_cases hpos : 0 < (compar s.2 (b + i * size) (b + j * size) s.1).1
  · obtain ⟨helements, hframe⟩ := copies_exchange s.1 b size hij hj
    simp only [if_pos hpos]
    exact ⟨hframe, Or.inr ⟨hpos, helements⟩⟩
  · simp only [if_neg hpos]
    exact ⟨fun _ _ => trivial, Or.inl ⟨Int.not_lt.mp hpos, trivial⟩⟩

variable {P : ℕ → ℕ → Memory × σ → Prop}

/-- A property that every comparison keeps holds after the inner loop. -/
theorem qsortInner_keeps {i j : ℕ} {s : Memory × σ}
    (hstep : ∀ i j s, i < j → j < nmemb → P i j s → P i (j + 1) (qsortStep compar b size i j s))
    (hij : i < j) (h : P i j s) :
    ∃ k, nmemb ≤ k ∧ P i k (qsortInner compar b nmemb size i j s) := by
  rw [qsortInner]
  split
  · rename_i hj
    exact qsortInner_keeps hstep (Nat.lt_succ_of_lt hij) (hstep i j s hij hj h)
  · rename_i hj
    exact ⟨j, Nat.le_of_not_lt hj, h⟩
termination_by nmemb - j

/-- A property that every comparison keeps, and the passage from one scan to the next, holds at
the end. -/
theorem qsortOuter_keeps {i : ℕ} {s : Memory × σ}
    (hstep : ∀ i j s, i < j → j < nmemb → P i j s → P i (j + 1) (qsortStep compar b size i j s))
    (hnext : ∀ i j s, nmemb ≤ j → P i j s → P (i + 1) (i + 2) s) (h : P i (i + 1) s) :
    ∃ k, nmemb ≤ k ∧ P k (k + 1) (qsortOuter compar b nmemb size i s) := by
  rw [qsortOuter]
  split
  · obtain ⟨k, hk, hinner⟩ := qsortInner_keeps hstep (Nat.lt_succ_self i) h
    exact qsortOuter_keeps hstep hnext (hnext i k _ hk hinner)
  · rename_i hi
    exact ⟨i, Nat.le_of_not_lt hi, h⟩
termination_by nmemb - i

/-- The comparison orders the elements by `c`, a total preorder, in every memory that differs from
`m` in the array only. -/
structure Orders (compar : Compar σ) (m : Memory) (b nmemb size : ℕ)
    (c : Vector UInt8 size → Vector UInt8 size → ℤ) : Prop where
  total : ∀ x y, c x y ≤ 0 ∨ c y x ≤ 0
  trans : ∀ x y z, c x y ≤ 0 → c y z ≤ 0 → c x z ≤ 0
  compar_eq : ∀ s i j (m' : Memory), i < nmemb → j < nmemb →
    (∀ x, Outside b (nmemb * size) x → m' x = m x) →
    (compar s (b + i * size) (b + j * size) m').1 = c (elements b size m' i) (elements b size m' j)

/-- For every comparison the elements are rearranged, and nothing else changes. -/
theorem qsortOuter_rearranged (compar : Compar σ) (b nmemb size : ℕ) (s : Memory × σ) :
    Rearranged nmemb (elements b size s.1)
        (elements b size (qsortOuter compar b nmemb size 0 s).1) ∧
      ∀ x, Outside b (nmemb * size) x → (qsortOuter compar b nmemb size 0 s).1 x = s.1 x := by
  let P : ℕ → ℕ → Memory × σ → Prop := fun _ _ s' =>
    Rearranged nmemb (elements b size s.1) (elements b size s'.1) ∧
      ∀ x, Outside b (nmemb * size) x → s'.1 x = s.1 x
  have hstep : ∀ i j s', i < j → j < nmemb → P i j s' →
      P i (j + 1) (qsortStep compar b size i j s') := by
    intro i j s' hij hj h
    obtain ⟨hframe, hcases⟩ := qsortStep_cases compar b size s' hij hj
    refine ⟨?_, fun x hx => (hframe x hx).trans (h.2 x hx)⟩
    rcases hcases with ⟨-, heq⟩ | ⟨-, heq⟩
    · rw [heq]
      exact h.1
    · rw [heq]
      exact h.1.trans (.exchange _ (Nat.lt_trans hij hj) hj)
  obtain ⟨k, -, hk⟩ := qsortOuter_keeps (i := 0) (s := s) hstep (fun _ _ _ _ h => h)
    ⟨.refl _, fun _ _ => rfl⟩
  exact hk

/-- For a comparison by a total preorder no element is greater than a later one. -/
theorem qsortOuter_sorted {c : Vector UInt8 size → Vector UInt8 size → ℤ}
    (hc : Orders compar s.1 b nmemb size c) (hij : i < j) (hj : j < nmemb) :
    c (elements b size (qsortOuter compar b nmemb size 0 s).1 i)
      (elements b size (qsortOuter compar b nmemb size 0 s).1 j) ≤ 0 := by
  let P : ℕ → ℕ → Memory × σ → Prop := fun i j s' =>
    Scanned (fun x y => c x y ≤ 0) nmemb (elements b size s'.1) i j ∧
      ∀ x, Outside b (nmemb * size) x → s'.1 x = s.1 x
  have hstep : ∀ i j s', i < j → j < nmemb → P i j s' →
      P i (j + 1) (qsortStep compar b size i j s') := by
    intro i j s' hij hj h
    obtain ⟨hframe, hcases⟩ := qsortStep_cases compar b size s' hij hj
    have heq := hc.compar_eq s'.2 i j s'.1 (Nat.lt_trans hij hj) hj h.2
    refine ⟨?_, fun x hx => (hframe x hx).trans (h.2 x hx)⟩
    rcases hcases with ⟨hle, helements⟩ | ⟨hgt, helements⟩
    · rw [helements]
      exact h.1.keep (heq ▸ hle)
    · rw [helements]
      rw [heq] at hgt
      have hle := (hc.total _ _).resolve_left (Int.not_le.mpr hgt)
      exact h.1.exchange hc.trans hij hj hle
  obtain ⟨k, hk, hend⟩ := qsortOuter_keeps (i := 0) (s := s) hstep
    (fun i j s' hj h => ⟨h.1.next hj, h.2⟩) ⟨.start _, fun _ _ => rfl⟩
  exact hend.1.front i j (by omega) hij hj

/-- `qsort` leaves a permutation of the elements and nothing else changed, and it sorts them where
the comparison is a total preorder. -/
theorem qsort_sorts (hsize : size ≤ sizeofTmp) (compar : Compar σ) (b nmemb : ℕ)
    (s : Memory × σ) :
    ((List.range nmemb).map (elements b size (qsort compar b nmemb size s).1)).Perm
        ((List.range nmemb).map (elements b size s.1)) ∧
      (∀ x, Outside b (nmemb * size) x → (qsort compar b nmemb size s).1 x = s.1 x) ∧
      ∀ c, Orders compar s.1 b nmemb size c → ∀ i j, i < j → j < nmemb →
        c (elements b size (qsort compar b nmemb size s).1 i)
          (elements b size (qsort compar b nmemb size s).1 j) ≤ 0 := by
  rw [qsort, if_neg (Nat.not_lt_of_le hsize)]
  obtain ⟨hperm, hframe⟩ := qsortOuter_rearranged compar b nmemb size s
  exact ⟨hperm.perm, hframe, fun c hc i j hij hj => qsortOuter_sorted hc hij hj⟩

end Runs

def compareBytes : Compar Unit := fun s p q m => ((m p).toNat - (m q).toNat, s)

def byteOrder (x y : Vector UInt8 1) : ℤ := x[0].toNat - y[0].toNat

theorem compareBytes_orders (m : Memory) (b nmemb : ℕ) :
    Orders compareBytes m b nmemb 1 byteOrder where
  total x y := by
    unfold byteOrder
    omega
  trans x y z := by
    unfold byteOrder
    omega
  compar_eq _ i j m' _ _ _ := by
    simp [compareBytes, byteOrder, elements]

/-- The bytes 3, 2 and 1. -/
theorem qsort_sorts_three :
    ((List.range 3).map
        (elements 0 1 (qsort compareBytes 0 3 1 (fun x => .ofNat (3 - x), ())).1)).Perm
      ((List.range 3).map (elements 0 1 fun x => .ofNat (3 - x))) ∧
    byteOrder (elements 0 1 (qsort compareBytes 0 3 1 (fun x => .ofNat (3 - x), ())).1 0)
      (elements 0 1 (qsort compareBytes 0 3 1 (fun x => .ofNat (3 - x), ())).1 2) ≤ 0 :=
  have h := qsort_sorts (by decide) compareBytes 0 3 (fun x => .ofNat (3 - x), ())
  ⟨h.1, h.2.2 byteOrder (compareBytes_orders _ 0 3) 0 2 (by decide) (by decide)⟩

end LampUserspace.Stdlib
