import LampUserspace.Stdlib.HeapSizes

/-! # Moving a block

`realloc` allocates, copies and frees. Each of the three changes headers or the
new payload alone, so the bytes of the other payloads stay and those of the old
one are found in the new one.
-/

namespace LampUserspace.Stdlib

open Tiling

/-- What `realloc` is to return for the live pointer `p`, requested with size `m`: nothing and the
heap as it was, or a payload with the old bytes, every other one having kept its own. -/
def Reallocates (area : Area) (h : Heap) (live : ℕ → Option ℕ) (p m n : ℕ) (r : ℕ × Heap) : Prop :=
  r.1 = 0 ∧ r.2 = h ∨
    Granted area (release live p) n r ∧
      (∀ i < min m n, r.2.memory (r.1 + i) = h.memory (p + i)) ∧
      ∀ q k, live q = some k → q ≠ p →
        ∀ x, q ≤ x → x < q + blockSize h.memory (q - header) → r.2.memory x = h.memory x

variable {area : Area} {h : Heap} {live : ℕ → Option ℕ} {bs : List Block} {b c : Block}
  {p q m n k x size : ℕ}

theorem offHeaders_of_payload {a : ℕ} (hb : (q, b) ∈ payloads header a bs) (hlow : q ≤ x)
    (hhigh : x < q + b.size) : OffHeaders a bs x := by
  intro r c hc
  rcases payloads_apart hb hc with ⟨rfl, -⟩ | hbefore | hafter
  · exact Or.inr hlow
  · exact Or.inl (by omega)
  · exact Or.inr (by omega)

/-- `malloc` changes links and marks, and what lies behind the end of the heap. -/
theorem malloc_changes {r : ℕ × Heap} (t : Tiled area h live bs) (hsize : size + 16 ≤ 2 ^ 32)
    (hr : malloc area.gHeap h size = some r) (hx : r.2.memory x ≠ h.memory x) :
    h.gHeapEnd ≤ x ∨ ∃ q c, (q, c) ∈ payloads header area.gHeap bs ∧ q ≤ x + 8 ∧ x < q := by
  have h12 : header = 12 := rfl
  rcases malloc_cases t hsize with ⟨xs, b, ys, rfl, -, -, heq⟩ | heq | ⟨wanted, -, -, -, -, heq⟩
  · obtain rfl := Option.some.inj (heq.symm.trans hr)
    have hmark : x = stop header area.gHeap xs + 8 := by
      by_contra hne
      exact hx (Memory.store8_ne _ hne)
    exact Or.inr ⟨_, b, mem_payloads_seam.mpr (Or.inr (Or.inl ⟨rfl, rfl⟩)), by omega, by omega⟩
  · obtain rfl := Option.some.inj (heq.symm.trans hr)
    exact absurd rfl hx
  · obtain rfl := Option.some.inj (heq.symm.trans hr)
    by_contra hnone
    obtain ⟨hend, hlinks⟩ := not_or.mp hnone
    apply hx
    dsimp only
    rcases List.eq_nil_or_concat bs with rfl | ⟨xs, b, rfl⟩
    · exact storeHeader_frame (by omega)
    · rw [List.concat_eq_append] at *
      have hlow : area.gHeap ≤ stop header area.gHeap xs := le_stop _ xs
      have hpos := area.pos
      have hlast : ¬ (stop header area.gHeap xs + header ≤ x + 8 ∧
          x < stop header area.gHeap xs + header) := fun hlink =>
        hlinks ⟨_, b, mem_payloads_seam.mpr (Or.inr (Or.inl ⟨rfl, rfl⟩)), hlink⟩
      rw [lastBlock_append, if_pos (by omega), Memory.store32_frame _ (by omega),
        storeHeader_frame (by omega)]

theorem malloc_keeps {r : ℕ × Heap} (t : Tiled area h live bs) (hsize : size + 16 ≤ 2 ^ 32)
    (hr : malloc area.gHeap h size = some r) (hb : (q, b) ∈ payloads header area.gHeap bs) :
    blockSize r.2.memory (q - header) = b.size ∧
      ∀ x, q ≤ x → x < q + b.size → r.2.memory x = h.memory x := by
  have hbounds := payloads_bounds hb
  have hend := t.ends
  have h12 : header = 12 := rfl
  constructor
  · rw [← t.blockSize_eq hb]
    apply Memory.load32_congr
    intro x hlow hhigh
    by_contra hx
    rcases malloc_changes t hsize hr hx with hge | ⟨s, c, hc, hlow', hhigh'⟩
    · omega
    · rcases payloads_apart hb hc with ⟨rfl, -⟩ | hbefore | hafter <;> omega
  · intro x hlow hhigh
    by_contra hx
    rcases malloc_changes t hsize hr hx with hge | ⟨s, c, hc, hlow', hhigh'⟩
    · omega
    · rcases payloads_apart hb hc with ⟨rfl, -⟩ | hbefore | hafter <;> omega

theorem free_keeps {h' : Heap} (t : Tiled area h live bs) (hp : live p = some n)
    (hr : free area.gHeap h p = some h') (hx : OffHeaders area.gHeap bs x) :
    h'.memory x = h.memory x := by
  obtain ⟨h'', hfree, -, hframe⟩ := free_joins t hp
  obtain rfl := Option.some.inj (hfree.symm.trans hr)
  exact hframe x hx

/-- What the program holds apart from the old pointer is apart from the new one. -/
theorem Tiled.granted_reallocated {h' : Heap} {bs' : List Block}
    (t : Tiled area h' (reallocated live p n q) bs') (hp : p ≠ 0) (hq : q ≠ 0)
    (hfresh : release live p q = none) : Granted area (release live p) n (q, h') := by
  rw [reallocated, if_pos ⟨hp, Or.inr hq⟩] at t
  exact t.granted_new hq hfresh

theorem Tiled.reallocates_same (t : Tiled area h live bs) (hp : live p = some m)
    (hfit : n ≤ blockSize h.memory (p - header)) : Reallocates area h live p m n (p, h) := by
  have hne := t.live_ne_null hp
  have t' : Tiled area h (reallocated live p n p) bs := by
    rw [reallocated_live hne hne, release, Function.update_idem]
    exact t.keep hp hfit
  refine Or.inr ⟨t'.granted_reallocated hne hne ?_, ?_, ?_⟩
  · exact Function.update_self p none live
  · exact fun _ _ => rfl
  · exact fun _ _ _ _ _ _ _ => rfl

theorem moved_bytes {r : ℕ × Heap} {h' : Heap} {bs' : List Block} (t : Tiled area h live bs)
    (hsize : size + 16 ≤ 2 ^ 32) (hr : malloc area.gHeap h size = some r)
    (t' : Tiled area r.2 (grant live r.1 size) bs') (hq : r.1 ≠ 0) (hfresh : live r.1 = none)
    (hp : live p = some m) (hk : k ≤ size) (hmk : min m size ≤ k)
    (hfree : free area.gHeap { r.2 with memory := r.2.memory.write r.1 (r.2.memory.read p k) } p =
      some h') :
    (∀ i < min m size, h'.memory (r.1 + i) = h.memory (p + i)) ∧
      ∀ q n, live q = some n → q ≠ p →
        ∀ x, q ≤ x → x < q + blockSize h.memory (q - header) → h'.memory x = h.memory x := by
  have hnew : grant live r.1 size r.1 = some size := by
    rw [grant_ne_null live hq, Function.update_self]
  have hold : ∀ q n, live q = some n → q ≠ r.1 ∧ grant live r.1 size q = some n := by
    intro q n hn
    have hne := ne_of_fresh hn hfresh
    exact ⟨hne, by rw [grant_ne_null live hq, Function.update_of_ne hne, hn]⟩
  obtain ⟨hcopied, hkept⟩ := Memory.write_read r.2.memory r.2.memory p r.1 k
  have t'' := t'.copied hnew p hk
  obtain ⟨hne, hpold⟩ := hold p m hp
  -- the block of the new pointer, which no other one meets
  obtain ⟨c, hc, -, hfit⟩ := t''.owned _ _ hnew
  constructor
  · intro i hi
    have hoff := offHeaders_of_payload hc (Nat.le_add_right r.1 i) (by omega)
    obtain ⟨b, hb, -, hpfit⟩ := t.owned p m hp
    calc
      h'.memory (r.1 + i) = r.2.memory.write r.1 (r.2.memory.read p k) (r.1 + i) :=
        free_keeps t'' hpold hfree hoff
      _ = r.2.memory (p + i) := hcopied i (by omega)
      _ = h.memory (p + i) :=
        (malloc_keeps t hsize hr hb).2 _ (Nat.le_add_right _ _) (by omega)
  · intro q n hn hqp x hlow hhigh
    obtain ⟨b, hb, -, -⟩ := t.owned q n hn
    rw [t.blockSize_eq hb] at hhigh
    obtain ⟨hsame, hbytes⟩ := malloc_keeps t hsize hr hb
    obtain ⟨b', hb', -, -⟩ := t'.owned q n (hold q n hn).2
    rw [t'.blockSize_eq hb'] at hsame
    have hout : x < r.1 ∨ r.1 + k ≤ x := by
      rcases payloads_apart hb' hc with ⟨heq, -⟩ | hbefore | hafter
      · exact absurd heq (hold q n hn).1
      · exact Or.inl (by omega)
      · exact Or.inr (by omega)
    calc
      h'.memory x = r.2.memory.write r.1 (r.2.memory.read p k) x :=
        free_keeps t'' hpold hfree (offHeaders_of_payload hb' hlow (by omega))
      _ = r.2.memory x := hkept x hout
      _ = h.memory x := hbytes x hlow hhigh

/-- `realloc` of a live pointer keeps its bytes and those of the others. -/
theorem realloc_reallocates (t : Tiled area h live bs) (hp : live p = some m) (hn : 0 < n)
    (hsize : n + 16 ≤ 2 ^ 32) :
    Total (realloc area.gHeap h p n) (Reallocates area h live p m n) := by
  have hne := t.live_ne_null hp
  apply (realloc_spec t (Or.inr ⟨m, hp⟩) hsize).mono
  rintro r hr ⟨bs₃, t₃⟩
  rw [realloc, if_neg hne, if_neg (Nat.ne_of_gt hn)] at hr
  by_cases hkeep : blockSize h.memory (p - header) ≥ n
  · obtain rfl := Option.some.inj ((if_pos hkeep).symm.trans hr)
    exact t.reallocates_same hp hkeep
  dsimp only at hr
  rw [if_neg hkeep] at hr
  obtain ⟨r₁, hmalloc, ⟨bs₁, t₁⟩, hfresh⟩ := malloc_spec t hsize
  rw [hmalloc] at hr
  by_cases hq : r₁.1 = 0
  · obtain ⟨r', hr', hrefuse, hnull⟩ := malloc_null_iff t n
    obtain rfl := Option.some.inj (hmalloc.symm.trans hr')
    obtain rfl := hrefuse (hnull hq)
    obtain rfl := Option.some.inj hr
    exact Or.inl ⟨rfl, rfl⟩
  · obtain ⟨b, hb, -, hfit⟩ := t.owned p m hp
    have hsame := (malloc_keeps t hsize hmalloc hb).1
    simp only [Option.bind_eq_bind, Option.bind_some, hsame] at hr
    rw [if_pos hq] at hr
    generalize hk : (if b.size < n then b.size else n) = k at hr
    have hcopy : k ≤ n ∧ min m n ≤ k := by
      rw [← hk]
      split <;> omega
    obtain ⟨h', hfree, hret⟩ := Option.bind_eq_some_iff.mp hr
    obtain rfl := Option.some.inj hret
    have hnew : release live p r₁.1 = none := by
      by_cases hpq : r₁.1 = p
      · rw [release, hpq, Function.update_self]
      · rw [release, Function.update_of_ne hpq, hfresh]
    have hmoved := moved_bytes t hsize hmalloc t₁ hq hfresh hp hcopy.1 hcopy.2 hfree
    exact Or.inr ⟨t₃.granted_reallocated hne hq hnew, hmoved⟩

/-- After every run whose calls are accounted for, `realloc` of a live pointer moves its bytes and
leaves the others. -/
theorem heap_moves (area : Area) (memory : Memory) (calls : List Call)
    (hcalls : Total.Along (Process.step area) (Process.Accounted area)
      (Process.start area memory) calls) :
    Total (calls.foldlM (Process.step area) (Process.start area memory)) fun s =>
      ∀ p m, s.live p = some m → ∀ n, 1 ≤ n → n ≤ 262144 →
        Total (realloc area.gHeap s.heap p n) (Reallocates area s.heap s.live p m n) := by
  apply (accounted_run_tiled memory hcalls).mono
  rintro s - ⟨bs, t⟩ p m hp n hn hle
  exact realloc_reallocates t hp hn (by omega)

def oneRun : List Call := [.malloc 4]

theorem oneRun_moves :
    Total.Along (Process.step lowArea) (Process.Accounted lowArea)
        (Process.start lowArea fun _ => 0) oneRun ∧
      Total (oneRun.foldlM (Process.step lowArea) (Process.start lowArea fun _ => 0)) fun s =>
        ∀ p m, s.live p = some m → ∀ n, 1 ≤ n → n ≤ 262144 →
          Total (realloc lowArea.gHeap s.heap p n)
            (Reallocates lowArea s.heap s.live p m n) := by
  have hcalls : Total.Along (Process.step lowArea) (Process.Accounted lowArea)
      (Process.start lowArea fun _ => 0) oneRun :=
    ⟨⟨by decide, Or.inl (by decide)⟩, fun _ _ => trivial⟩
  exact ⟨hcalls, heap_moves lowArea (fun _ => 0) oneRun hcalls⟩

/-- A request whose second rounding wraps, and two small ones after it. -/
def wrappedRun : List Call := [.malloc (2 ^ 32 - 4), .malloc 4, .malloc 4, .store 36 7]

/-- The header of a small block lies inside the header of the wrapped one; `realloc` then finds no
byte to copy. -/
theorem wrappedRun_not_moves :
    ((wrappedRun.foldlM (Process.step lowArea) (Process.start lowArea fun _ => 0)).bind fun s =>
        (realloc lowArea.gHeap s.heap 36 8).map fun r =>
          (s.live 36, s.heap.memory 36, r.1, r.2.memory r.1)) = some (some 4, 7, 52, 0) ∧
      ¬ Total (wrappedRun.foldlM (Process.step lowArea) (Process.start lowArea fun _ => 0)) fun s =>
        ∀ p m, s.live p = some m → ∀ n, 1 ≤ n → n ≤ 262144 →
          Total (realloc lowArea.gHeap s.heap p n)
            (Reallocates lowArea s.heap s.live p m n) := by
  have hrun : ((wrappedRun.foldlM (Process.step lowArea)
      (Process.start lowArea fun _ => 0)).bind fun s =>
        (realloc lowArea.gHeap s.heap 36 8).map fun r =>
          (s.live 36, s.heap.memory 36, r.1, r.2.memory r.1)) = some (some 4, 7, 52, 0) := by
    decide +kernel
  refine ⟨hrun, ?_⟩
  rintro ⟨s, hs, hmoves⟩
  rw [hs, Option.bind_some] at hrun
  obtain ⟨r, hr, hvalues⟩ := Option.map_eq_some_iff.mp hrun
  simp only [Prod.mk.injEq] at hvalues
  obtain ⟨hlive, hold, hptr, hnew⟩ := hvalues
  obtain ⟨r', hr', ⟨h0, -⟩ | ⟨-, hbytes, -⟩⟩ := hmoves 36 4 hlive 8 (by decide) (by decide)
  · obtain rfl := Option.some.inj (hr.symm.trans hr')
    omega
  · obtain rfl := Option.some.inj (hr.symm.trans hr')
    have hbyte := hbytes 0 (by decide)
    rw [Nat.add_zero, Nat.add_zero, hold, hnew] at hbyte
    exact absurd hbyte (by decide)

end LampUserspace.Stdlib
