import Mathlib.Logic.Function.Basic
import LampUserspace.Partial.Total
import LampUserspace.Stdlib.Chain

/-! # The heap as a list of blocks

A list of blocks tiles the used part of the heap. The used blocks are those that the
program holds and no two neighbours are free. Handing a block to the program, taking
it back, growing the list and storing into live blocks keep it so.
-/

namespace LampUserspace.Stdlib

open Tiling

/-- Where `g_heap` lies in the address space. -/
structure Area where
  gHeap : ℕ
  pos : 0 < gHeap
  room : gHeap + heapSize ≤ 2 ^ 32

/-- The list `bs` of blocks tiles the used part of the heap; `live` has the sizes that were
requested for the pointers that the program holds. -/
structure Tiled (area : Area) (h : Heap) (live : ℕ → Option ℕ) (bs : List Block) : Prop where
  head : h.gHeapHead = link area.gHeap 0 bs
  chain : Chain h.memory 0 area.gHeap bs
  ends : h.gHeapEnd = stop header area.gHeap bs
  room : h.gHeapEnd ≤ area.gHeap + heapSize
  sizes : ∀ b ∈ bs, b.size % 4 = 0 ∧ 0 < b.size
  owned : ∀ p n, live p = some n →
    ∃ b, (p, b) ∈ payloads header area.gHeap bs ∧ b.free = false ∧ n ≤ b.size
  lives : ∀ p b, (p, b) ∈ payloads header area.gHeap bs → b.free = false → ∃ n, live p = some n
  separated : Separated bs

def grant (live : ℕ → Option ℕ) (p n : ℕ) : ℕ → Option ℕ :=
  if p = 0 then live else Function.update live p (some n)

def release (live : ℕ → Option ℕ) (p : ℕ) : ℕ → Option ℕ := Function.update live p none

variable {area : Area} {h : Heap} {live : ℕ → Option ℕ} {bs xs ys : List Block} {b c : Block}
  {p q n size : ℕ}

theorem grant_ne_null (live : ℕ → Option ℕ) (hp : p ≠ 0) :
    grant live p n = Function.update live p (some n) :=
  if_neg hp

theorem ne_of_fresh (hp : live p = some n) (hq : live q = none) : p ≠ q := by
  rintro rfl
  rw [hq] at hp
  cases hp

theorem OffHeaders.mark {a x : ℕ} (f : Bool) (hx : OffHeaders a (xs ++ b :: ys) x) :
    OffHeaders a (xs ++ ⟨b.size, f⟩ :: ys) x := by
  intro q c hc
  rcases mem_payloads_seam.mp hc with hc | ⟨rfl, -⟩ | hc
  · exact hx q c (mem_payloads_seam.mpr (Or.inl hc))
  · exact hx _ b (mem_payloads_seam.mpr (Or.inr (Or.inl ⟨rfl, rfl⟩)))
  · exact hx q c (mem_payloads_seam.mpr (Or.inr (Or.inr hc)))

namespace Tiled

theorem stop_le (t : Tiled area h live bs) : stop header area.gHeap bs ≤ area.gHeap + heapSize :=
  t.ends ▸ t.room

theorem stop_le_pow (t : Tiled area h live bs) : stop header area.gHeap bs ≤ 2 ^ 32 :=
  Nat.le_trans t.stop_le area.room

theorem length_lt (t : Tiled area h live bs) : bs.length < heapSize := by
  have hlen : area.gHeap + header * bs.length ≤ stop header area.gHeap bs := length_le_stop _ bs
  have hstop := t.stop_le
  unfold header heapSize at *
  omega

theorem live_bounds (t : Tiled area h live bs) (hp : live p = some n) :
    area.gHeap + header ≤ p ∧ p < h.gHeapEnd := by
  obtain ⟨b, hb, -, -⟩ := t.owned p n hp
  obtain ⟨xs, ys, rfl, -⟩ := exists_split hb
  have hpos := (t.sizes b (by simp)).2
  have hbounds := payloads_bounds hb
  rw [t.ends]
  omega

theorem live_end (t : Tiled area h live bs) (hp : live p = some n) :
    p + n ≤ area.gHeap + heapSize := by
  obtain ⟨b, hb, -, hfit⟩ := t.owned p n hp
  have hbounds := payloads_bounds hb
  have hstop := t.stop_le
  omega

theorem live_null (t : Tiled area h live bs) : live 0 = none := by
  by_contra hne
  obtain ⟨n, hn⟩ := Option.ne_none_iff_exists'.mp hne
  have := (t.live_bounds hn).1
  have := area.pos
  omega

theorem live_ne_null (t : Tiled area h live bs) (hp : live p = some n) : p ≠ 0 :=
  ne_of_fresh hp t.live_null

theorem live_behind (t : Tiled area h live bs) : live (h.gHeapEnd + header) = none := by
  by_contra hne
  obtain ⟨n, hn⟩ := Option.ne_none_iff_exists'.mp hne
  have := (t.live_bounds hn).2
  omega

theorem live_split (t : Tiled area h live bs) (hp : live p = some n) :
    ∃ xs b ys, bs = xs ++ b :: ys ∧ p = stop header area.gHeap xs + header ∧ b.free = false ∧
      n ≤ b.size ∧ blockSize h.memory (p - header) = b.size := by
  obtain ⟨b, hb, hfree, hfit⟩ := t.owned p n hp
  obtain ⟨xs, ys, rfl, rfl⟩ := exists_split hb
  refine ⟨xs, b, ys, rfl, rfl, hfree, hfit, ?_⟩
  rw [Nat.add_sub_cancel]
  exact (chain_append.mp t.chain).2.1

/-! ## Reusing and releasing a block -/

theorem ne_of_before {a : ℕ} (hq : (q, c) ∈ payloads header a xs) :
    q ≠ stop header a xs + header := by
  have := (payloads_bounds hq).2
  unfold header at *
  omega

theorem ne_of_after {a : ℕ} (hq : (q, c) ∈ payloads header (a + header + n) ys) :
    q ≠ a + header := by
  have := (payloads_bounds hq).1
  unfold header at *
  omega

/-- A block other than the one at the seam stays when that one is marked. -/
theorem mem_payloads_mark {a : ℕ} (f : Bool) (hne : q ≠ stop header a xs + header) :
    (q, c) ∈ payloads header a (xs ++ ⟨b.size, f⟩ :: ys) ↔
      (q, c) ∈ payloads header a (xs ++ b :: ys) := by
  simp only [mem_payloads_seam, hne, false_and, false_or]

theorem sizes_mark (t : Tiled area h live (xs ++ b :: ys)) (f : Bool) :
    ∀ c ∈ xs ++ ⟨b.size, f⟩ :: ys, c.size % 4 = 0 ∧ 0 < c.size := by
  intro c hc
  rcases List.mem_append.mp hc with hc | hc
  · exact t.sizes c (List.mem_append_left _ hc)
  · rcases List.mem_cons.mp hc with rfl | hc
    · exact t.sizes b (by simp)
    · exact t.sizes c (by simp [hc])

theorem link_mark (a : ℕ) (f : Bool) :
    link a 0 (xs ++ ⟨b.size, f⟩ :: ys) = link a 0 (xs ++ b :: ys) := by
  cases xs with
  | nil => rfl
  | cons x xs => rfl

theorem stop_mark (a : ℕ) (f : Bool) :
    stop header a (xs ++ ⟨b.size, f⟩ :: ys) = stop header a (xs ++ b :: ys) := by
  rw [stop_append, stop_append]
  rfl

/-- A block that is handed to the program, once it is marked as used. -/
theorem hand_over {m : Memory} (t : Tiled area h live (xs ++ b :: ys)) (hn : n ≤ b.size)
    (hm : Chain m 0 area.gHeap (xs ++ ⟨b.size, false⟩ :: ys)) :
    Tiled area { h with memory := m }
      (Function.update live (stop header area.gHeap xs + header) (some n))
      (xs ++ ⟨b.size, false⟩ :: ys) where
  head := t.head.trans (link_mark _ _).symm
  chain := hm
  ends := t.ends.trans (stop_mark _ _).symm
  room := t.room
  sizes := t.sizes_mark false
  owned q m hq := by
    by_cases hp : q = stop header area.gHeap xs + header
    · subst hp
      obtain rfl : n = m := by simpa using hq
      exact ⟨⟨b.size, false⟩, mem_payloads_seam.mpr (Or.inr (Or.inl ⟨rfl, rfl⟩)), rfl, hn⟩
    · rw [Function.update_of_ne hp] at hq
      obtain ⟨c, hc, hfree, hfit⟩ := t.owned q m hq
      exact ⟨c, (mem_payloads_mark false hp).mpr hc, hfree, hfit⟩
  lives q c hc hfree := by
    by_cases hp : q = stop header area.gHeap xs + header
    · subst hp
      exact ⟨n, by simp⟩
    · rw [Function.update_of_ne hp]
      exact t.lives q c ((mem_payloads_mark false hp).mp hc) hfree
  separated := separated_seam rfl t.separated.of_append.1 t.separated.of_append.2

theorem keep (t : Tiled area h live bs) (hp : live p = some n)
    (hfit : size ≤ blockSize h.memory (p - header)) :
    Tiled area h (Function.update live p (some size)) bs := by
  obtain ⟨xs, b, ys, rfl, rfl, hfree, -, hsize⟩ := t.live_split hp
  rw [hsize] at hfit
  obtain ⟨size', free⟩ := b
  subst hfree
  exact t.hand_over hfit t.chain

theorem sizes_join (hbs : ∀ c ∈ bs, c.size % 4 = 0 ∧ 0 < c.size) :
    ∀ c ∈ joinAll header bs, c.size % 4 = 0 ∧ 0 < c.size := by
  refine sizes_joinAll (P := fun n => n % 4 = 0 ∧ 0 < n) ?_ hbs
  intro m n hm hn
  unfold header
  omega

theorem link_join (a : ℕ) (bs : List Block) : link a 0 (joinAll header bs) = link a 0 bs := by
  cases bs with
  | nil => rfl
  | cons b bs =>
    obtain ⟨n, ys, hcons⟩ := coalesce_eq_cons header b bs
    rw [joinAll, hcons]
    rfl

/-- A block that the program gives back, once it is marked as free and joined with its free
neighbours. -/
theorem take_back {m : Memory} (t : Tiled area h live (xs ++ b :: ys))
    (hm : Chain m 0 area.gHeap (joinAll header (xs ++ ⟨b.size, true⟩ :: ys))) :
    Tiled area { h with memory := m } (release live (stop header area.gHeap xs + header))
      (joinAll header (xs ++ ⟨b.size, true⟩ :: ys)) where
  head := by rw [link_join, link_mark, t.head]
  chain := hm
  ends := by rw [stop_joinAll, stop_mark, t.ends]
  room := t.room
  sizes := sizes_join (t.sizes_mark true)
  owned q n hq := by
    have hne : q ≠ stop header area.gHeap xs + header := by
      rintro rfl
      simp [release] at hq
    rw [release, Function.update_of_ne hne] at hq
    obtain ⟨c, hc, hfree, hfit⟩ := t.owned q n hq
    exact ⟨c, (mem_payloads_joinAll hfree).mpr ((mem_payloads_mark true hne).mpr hc), hfree, hfit⟩
  lives q c hc hfree := by
    rw [mem_payloads_joinAll hfree] at hc
    have hne : q ≠ stop header area.gHeap xs + header := by
      rcases mem_payloads_seam.mp hc with hc | ⟨-, rfl⟩ | hc
      · exact ne_of_before hc
      · cases hfree
      · exact ne_of_after hc
    rw [release, Function.update_of_ne hne]
    exact t.lives q c ((mem_payloads_mark true hne).mp hc) hfree
  separated := separated_joinAll header _

/-- `free` joins the block that it is given with its free neighbours, and changes only headers. -/
theorem reclaim (t : Tiled area h live (xs ++ b :: ys)) :
    ∃ m, joinLoop heapSize (h.memory.store8 (stop header area.gHeap xs + 8) 1)
        h.gHeapHead 0 = some m ∧
      Tiled area { h with memory := m }
        (release live (stop header area.gHeap xs + header))
        (joinAll header (xs ++ ⟨b.size, true⟩ :: ys)) ∧
      ∀ x, OffHeaders area.gHeap (xs ++ b :: ys) x → m x = h.memory x := by
  have hlen : (xs ++ ⟨b.size, true⟩ :: ys).length < heapSize := by simpa using t.length_lt
  have hstop : stop header area.gHeap (xs ++ ⟨b.size, true⟩ :: ys) ≤ 2 ^ 32 := by
    rw [stop_mark]
    exact t.stop_le_pow
  obtain ⟨m, hloop, hjoined, hframe⟩ := (t.chain.mark 1).join_all area.pos hlen (by simp) hstop
    fun c hc => (t.sizes_mark true c hc).1
  have hhead : link area.gHeap 0 (xs ++ ⟨b.size, true⟩ :: ys) = h.gHeapHead := by
    rw [link_mark, t.head]
  rw [hhead] at hloop
  refine ⟨m, hloop, t.take_back hjoined, fun x hx => ?_⟩
  have hseam := hx _ b (mem_payloads_seam.mpr (Or.inr (Or.inl ⟨rfl, rfl⟩)))
  have h12 : header = 12 := rfl
  rw [hframe x (hx.mark true), Memory.store8_ne _ (by omega)]

theorem not_live (t : Tiled area h live (xs ++ b :: ys)) (hb : b.free = true) :
    live (stop header area.gHeap xs + header) = none := by
  by_contra hne
  obtain ⟨n, hn⟩ := Option.ne_none_iff_exists'.mp hne
  obtain ⟨c, hc, hfree, -⟩ := t.owned _ n hn
  rcases mem_payloads_seam.mp hc with hc | ⟨-, rfl⟩ | hc
  · exact ne_of_before hc rfl
  · rw [hb] at hfree
    cases hfree
  · exact ne_of_after hc rfl

/-! ## Growing the list -/

theorem extend {wanted : ℕ} (t : Tiled area h live bs) (hn : n ≤ wanted)
    (hwanted : wanted % 4 = 0 ∧ 0 < wanted)
    (hroom : h.gHeapEnd + header + wanted ≤ area.gHeap + heapSize) :
    Tiled area
      { memory := if lastBlock area.gHeap 0 bs ≠ 0 then
            (storeHeader h.memory h.gHeapEnd wanted).store32 (lastBlock area.gHeap 0 bs + 4)
              h.gHeapEnd
          else storeHeader h.memory h.gHeapEnd wanted
        gHeapHead := if lastBlock area.gHeap 0 bs ≠ 0 then h.gHeapHead else h.gHeapEnd
        gHeapEnd := h.gHeapEnd + header + wanted }
      (Function.update live (h.gHeapEnd + header) (some n)) (bs ++ [⟨wanted, false⟩]) where
  head := by
    cases bs with
    | nil => exact t.ends
    | cons b bs =>
      have hlast := (lastBlock_bounds area.gHeap 0 b bs).1
      have hpos := area.pos
      exact (if_pos (by omega)).trans t.head
  chain := by
    have h12 : header = 12 := rfl
    have hpow := area.room
    rw [t.ends] at hroom ⊢
    exact t.chain.append area.pos (by omega) (by omega)
  ends := by
    rw [stop_append, t.ends]
    rfl
  room := hroom
  sizes c hc := by
    rcases List.mem_append.mp hc with hc | hc
    · exact t.sizes c hc
    · obtain rfl := List.mem_singleton.mp hc
      exact hwanted
  owned q m hq := by
    by_cases hp : q = h.gHeapEnd + header
    · subst hp
      obtain rfl : n = m := by simpa using hq
      refine ⟨⟨wanted, false⟩, mem_payloads_seam.mpr (Or.inr (Or.inl ⟨?_, rfl⟩)), rfl, hn⟩
      rw [t.ends]
    · rw [Function.update_of_ne hp] at hq
      obtain ⟨c, hc, hfree, hfit⟩ := t.owned q m hq
      exact ⟨c, mem_payloads_seam.mpr (Or.inl hc), hfree, hfit⟩
  lives q c hc hfree := by
    rcases mem_payloads_seam.mp hc with hc | ⟨rfl, -⟩ | hc
    · rw [Function.update_of_ne (t.ends ▸ ne_of_before hc)]
      exact t.lives q c hc hfree
    · exact ⟨n, by rw [t.ends]; simp⟩
    · cases hc
  separated := separated_seam rfl t.separated List.isChain_nil

/-! ## Stores into live blocks -/

theorem write {a : ℕ} {bytes : List UInt8} (t : Tiled area h live bs) (hp : live p = some n)
    (hlow : p ≤ a) (hhigh : a + bytes.length ≤ p + n) :
    Tiled area { h with memory := h.memory.write a bytes } live bs := by
  obtain ⟨b, hb, -, hfit⟩ := t.owned p n hp
  have hframe : ∀ x, x < p ∨ p + b.size ≤ x → h.memory.write a bytes x = h.memory x := by
    rintro x (hx | hx)
    · exact Memory.write_of_lt (by omega)
    · exact Memory.write_of_ge (by omega)
  refine { t with chain := t.chain.congr_outside hframe fun q c hc => ?_ }
  rcases payloads_apart hb hc with ⟨rfl, -⟩ | hlow | hhigh
  · exact Or.inl (Nat.le_refl p)
  · exact Or.inr hlow
  · exact Or.inl (by omega)

theorem copied {k : ℕ} (t : Tiled area h live bs) (hq : live q = some n) (p : ℕ) (hk : k ≤ n) :
    Tiled area { h with memory := h.memory.write q (h.memory.read p k) } live bs := by
  apply t.write hq (Nat.le_refl q)
  rw [Memory.length_read]
  exact Nat.add_le_add_left hk q

end Tiled

theorem Tiled.congr {m : Memory} (t : Tiled area h live bs)
    (hm : ∀ x, area.gHeap ≤ x → x < area.gHeap + heapSize → m x = h.memory x) :
    Tiled area { h with memory := m } live bs := by
  refine { t with chain := t.chain.congr fun q c hc x hlow hhigh => hm x ?_ ?_ }
  · have := (payloads_bounds hc).1
    omega
  · have := (payloads_bounds hc).2
    have := t.stop_le
    omega

/-! ## The functions -/

theorem wanted_spec (hsize : size + 16 ≤ 2 ^ 32) :
    size ≤ align4 (if size ≠ 0 then size else 1) ∧
      align4 (if size ≠ 0 then size else 1) % 4 = 0 ∧
      0 < align4 (if size ≠ 0 then size else 1) ∧
      align4 (if size ≠ 0 then size else 1) + 16 ≤ 2 ^ 32 := by
  unfold align4
  split <;> omega

theorem malloc_of_found {block tail : ℕ} (gHeap : ℕ) (hblock : block ≠ 0)
    (hfind : mallocLoop h.memory (align4 (if size ≠ 0 then size else 1)) heapSize h.gHeapHead 0 =
      some (block, tail)) :
    malloc gHeap h size =
      some (block + header, { h with memory := h.memory.store8 (block + 8) 0 }) := by
  simp only [malloc, hfind, Option.bind_eq_bind, Option.bind_some]
  exact if_pos hblock

-- `block` stays a variable, so that the test of the room is never evaluated
theorem malloc_of_not_found {block tail wanted : ℕ} (gHeap : ℕ) (hblock : ¬ block ≠ 0)
    (hwanted : align4 (if size ≠ 0 then size else 1) = wanted)
    (hfind : mallocLoop h.memory wanted heapSize h.gHeapHead 0 = some (block, tail)) :
    malloc gHeap h size =
      if gHeap + heapSize - h.gHeapEnd < align4 ((header + wanted) % 2 ^ 32) then some (0, h)
      else some (h.gHeapEnd + header,
        { memory := if tail ≠ 0 then
              (storeHeader h.memory h.gHeapEnd wanted).store32 (tail + 4) h.gHeapEnd
            else storeHeader h.memory h.gHeapEnd wanted
          gHeapHead := if tail ≠ 0 then h.gHeapHead else h.gHeapEnd
          gHeapEnd := h.gHeapEnd + align4 ((header + wanted) % 2 ^ 32) }) := by
  subst hwanted
  simp only [malloc, hfind, Option.bind_eq_bind, Option.bind_some]
  exact if_neg hblock

/-- What `malloc` does, when its sums do not overflow: it reuses the block that `firstFit` finds,
fails, or grows the list. -/
theorem malloc_lists {wanted : ℕ} (t : Tiled area h live bs) (hsize : size + 16 ≤ 2 ^ 32)
    (hwanted : align4 (if size ≠ 0 then size else 1) = wanted) :
    (∃ xs b ys, firstFit wanted bs = some (xs, b, ys) ∧
      malloc area.gHeap h size = some (stop header area.gHeap xs + header,
        { h with memory := h.memory.store8 (stop header area.gHeap xs + 8) 0 })) ∨
    firstFit wanted bs = none ∧
      (¬ h.gHeapEnd + header + wanted ≤ area.gHeap + heapSize ∧
          malloc area.gHeap h size = some (0, h) ∨
        h.gHeapEnd + header + wanted ≤ area.gHeap + heapSize ∧
          malloc area.gHeap h size = some (h.gHeapEnd + header,
            { memory := if lastBlock area.gHeap 0 bs ≠ 0 then
                  (storeHeader h.memory h.gHeapEnd wanted).store32
                    (lastBlock area.gHeap 0 bs + 4) h.gHeapEnd
                else storeHeader h.memory h.gHeapEnd wanted
              gHeapHead := if lastBlock area.gHeap 0 bs ≠ 0 then h.gHeapHead else h.gHeapEnd
              gHeapEnd := h.gHeapEnd + header + wanted })) := by
  obtain ⟨hfit, h4, hpos, hmax⟩ := wanted_spec hsize
  rw [hwanted] at hfit h4 hpos hmax
  have h12 : header = 12 := rfl
  have hinner : (header + wanted) % 2 ^ 32 = header + wanted := Nat.mod_eq_of_lt (by omega)
  have halign : align4 ((header + wanted) % 2 ^ 32) = header + wanted := by
    rw [hinner, align4_of_dvd (by omega) (by omega)]
  have hwalk := mallocLoop_eq wanted 0 area.pos t.length_lt t.chain
  rw [← t.head] at hwalk
  rcases hwalk with ⟨xs, b, ys, tail, hfound, hfind⟩ | ⟨hnone, hfind⟩
  · have hxs : area.gHeap ≤ stop header area.gHeap xs := le_stop _ xs
    have hne : stop header area.gHeap xs ≠ 0 := by
      have := area.pos
      omega
    exact Or.inl ⟨xs, b, ys, hfound, malloc_of_found _ hne (hwanted ▸ hfind)⟩
  · have heq := malloc_of_not_found area.gHeap (fun hne => hne rfl) hwanted hfind
    have hend := t.room
    by_cases hroom : area.gHeap + heapSize - h.gHeapEnd < align4 ((header + wanted) % 2 ^ 32)
    · rw [if_pos hroom] at heq
      exact Or.inr ⟨hnone, Or.inl ⟨by omega, heq⟩⟩
    · rw [if_neg hroom, halign, ← Nat.add_assoc] at heq
      exact Or.inr ⟨hnone, Or.inr ⟨by omega, heq⟩⟩

theorem free_joins (t : Tiled area h live bs) (hp : live p = some n) :
    ∃ h', free area.gHeap h p = some h' ∧
      Tiled area h' (release live p) (joinAll header (unuse header p area.gHeap bs)) ∧
      ∀ x, OffHeaders area.gHeap bs x → h'.memory x = h.memory x := by
  obtain ⟨hlow, hhigh⟩ := t.live_bounds hp
  have hnull := t.live_ne_null hp
  obtain ⟨xs, b, ys, rfl, rfl, -, -, -⟩ := t.live_split hp
  obtain ⟨m, hloop, t', hframe⟩ := t.reclaim
  rw [unuse_seam (by decide)]
  refine ⟨_, ?_, t', hframe⟩
  rw [free, if_neg (by omega)]
  simp only [Nat.add_sub_cancel, hloop]
  rfl

end LampUserspace.Stdlib
