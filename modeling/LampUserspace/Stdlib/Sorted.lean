import LampUserspace.Stdlib.Bsearch
import LampUserspace.Stdlib.Qsort

/-! # Sorting and searching

`bsearch` in an array that `qsort` sorted. The two comparisons need not be the
same function: the second compares a key, which may be of another kind, with an
element.
-/

namespace LampUserspace.Stdlib

open Bisection

variable {σ : Type} {b key : ℕ}

/-- The comparison tells by `d` where the key lies in the order `c` of the elements, in every memory
that differs from `m` in the array only. -/
structure Places (compar : Compar σ) (m : Memory) (b nmemb size key : ℕ)
    (c : Vector UInt8 size → Vector UInt8 size → ℤ) (d : Vector UInt8 size → ℤ) : Prop where
  le : ∀ x y, c x y ≤ 0 → d x ≤ 0 → d y ≤ 0
  lt : ∀ x y, c x y ≤ 0 → d x < 0 → d y < 0
  compar_eq : ∀ s i (m' : Memory), i < nmemb →
    (∀ x, Outside b (nmemb * size) x → m' x = m x) →
    (compar s key (b + i * size) m').1 = d (elements b size m' i)

/-- The elements compare with the key as `d` says, and after the sort in segments. -/
theorem qsort_segments {n size : ℕ} {c : Vector UInt8 size → Vector UInt8 size → ℤ}
    {d : Vector UInt8 size → ℤ} (hle : ∀ x y, c x y ≤ 0 → d x ≤ 0 → d y ≤ 0)
    (hlt : ∀ x y, c x y ≤ 0 → d x < 0 → d y < 0) {a : ℕ → Vector UInt8 size} {cmp : ℕ → ℤ}
    (hcmp : ∀ i < n, cmp i = d (a i)) (hsorted : ∀ i j, i < j → j < n → c (a i) (a j) ≤ 0) :
    ∃ p q, Segments cmp n p q := by
  refine Segments.of_antitone (fun i j hij hj h => ?_) fun i j hij hj h => ?_
  · rcases Nat.lt_or_eq_of_le hij with hij | rfl
    · rw [hcmp i (Nat.lt_trans hij hj)] at h
      rw [hcmp j hj]
      exact hle _ _ (hsorted i j hij hj) h
    · exact h
  · rcases Nat.lt_or_eq_of_le hij with hij | rfl
    · rw [hcmp i (Nat.lt_trans hij hj)] at h
      rw [hcmp j hj]
      exact hlt _ _ (hsorted i j hij hj) h
    · exact h

/-- After `qsort` a call of `bsearch` finds an element that compares equal to the key if and only if
the array had one before. -/
theorem qsort_bsearch {τ : Type} {compar : Compar σ} {keyCompar : Compar τ} {nmemb size : UInt32}
    {c : Vector UInt8 size.toNat → Vector UInt8 size.toNat → ℤ} {d : Vector UInt8 size.toNat → ℤ}
    {s : Memory × σ} (t : τ) (hsize : size.toNat ≤ sizeofTmp)
    (hbytes : nmemb.toNat * size.toNat < 2 ^ 32)
    (hc : Orders compar s.1 b nmemb.toNat size.toNat c)
    (hd : Places keyCompar s.1 b nmemb.toNat size.toNat key c d) :
    let m := (qsort compar b nmemb.toNat size.toNat s).1
    let found := (bsearch (fun k e => (keyCompar t k e m).1) key b nmemb size).2
    (∀ a, found = some a →
      ∃ i < nmemb.toNat, a = element b size i ∧ d (elements b size.toNat m i) = 0) ∧
    (found ≠ none ↔ ∃ i < nmemb.toNat, d (elements b size.toNat s.1 i) = 0) := by
  intro m found
  have hm : m = (qsortOuter compar b nmemb.toNat size.toNat 0 s).1 :=
    congrArg Prod.fst (if_neg (Nat.not_lt_of_le hsize))
  obtain ⟨hperm, hframe⟩ := qsortOuter_rearranged compar b nmemb.toNat size.toNat s
  rw [← hm] at hperm hframe
  let cmp := compareAt (fun k e => (keyCompar t k e m).1) key b size
  have hcmp : ∀ i < nmemb.toNat, cmp i = d (elements b size.toNat m i) := fun i hi =>
    hd.compar_eq t i m hi hframe
  obtain ⟨p, q, hseg⟩ : ∃ p q, Segments cmp nmemb.toNat p q := by
    refine qsort_segments hd.le hd.lt hcmp fun i j hij hj => ?_
    rw [hm]
    exact qsortOuter_sorted hc hij hj
  have hfound : found = (bisect cmp 0 nmemb.toNat).2.map (element b size) :=
    congrArg Prod.snd (bsearchLoop_eq _ key b 0 nmemb hbytes)
  -- the array before and after has the same elements
  have hmem : (∃ i < nmemb.toNat, d (elements b size.toNat s.1 i) = 0) ↔
      ∃ i < nmemb.toNat, cmp i = 0 := by
    have hiff : ∀ a : ℕ → Vector UInt8 size.toNat, (∃ i < nmemb.toNat, d (a i) = 0) ↔
        ∃ v ∈ (List.range nmemb.toNat).map a, d v = 0 := by
      simp
    rw [hiff, ← exists_congr fun v => and_congr_left' hperm.perm.mem_iff, ← hiff]
    exact exists_congr fun i => and_congr_right fun hi => by rw [hcmp i hi]
  rw [hmem, hfound]
  refine ⟨fun a ha => ?_, fun h => ?_, fun ⟨i, hi, hzero⟩ hnone => ?_⟩
  · obtain ⟨i, hi, rfl⟩ := Option.map_eq_some_iff.mp ha
    obtain ⟨hprobed, hzero⟩ := bisect_eq_some hi
    have hlt := (mem_bisect hprobed).2
    exact ⟨i, hlt, rfl, hcmp i hlt ▸ hzero⟩
  · obtain ⟨a, ha⟩ := Option.ne_none_iff_exists'.mp h
    obtain ⟨i, hi, -⟩ := Option.map_eq_some_iff.mp ha
    obtain ⟨hprobed, hzero⟩ := bisect_eq_some hi
    exact ⟨i, (mem_bisect hprobed).2, hzero⟩
  · exact bisect_eq_none hseg (Nat.le_refl _) (Option.map_eq_none_iff.mp hnone) i (Nat.zero_le i)
      hi hzero

/-- The bytes 3, 2 and 1 are sorted, and the byte 2 behind them is found. -/
theorem qsort_bsearch_three :
    let s : Memory × Unit := (fun x => if x = 3 then 2 else .ofNat (3 - x), ())
    let m := (qsort compareBytes 0 3 1 s).1
    (bsearch (fun k e => (compareBytes () k e m).1) 3 0 3 1).2 ≠ none := by
  have hplaces : Places compareBytes (fun x => if x = 3 then 2 else .ofNat (3 - x)) 0
      (3 : UInt32).toNat (1 : UInt32).toNat 3 byteOrder fun x => 2 - x[0].toNat := by
    refine ⟨fun x y hxy hx => ?_, fun x y hxy hx => ?_, fun _ i m' _ hm => ?_⟩
    · unfold byteOrder at hxy
      omega
    · unfold byteOrder at hxy
      omega
    · have hkey : m' 3 = 2 := hm 3 (Or.inr (by decide))
      simp [compareBytes, elements, hkey]
  have hbytes : (3 : UInt32).toNat * (1 : UInt32).toNat < 2 ^ 32 := by decide
  refine (qsort_bsearch () ?_ hbytes (compareBytes_orders _ 0 3) hplaces).2.mpr ?_
  · decide
  · exact ⟨1, by decide, by decide⟩

end LampUserspace.Stdlib
