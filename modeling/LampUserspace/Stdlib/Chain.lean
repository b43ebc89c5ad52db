import LampUserspace.Stdlib.Malloc
import LampUserspace.Tiling.FirstFit

/-! # The list of blocks in memory

The headers in memory spell a list of blocks that lie one after another from an
address on. Walking, marking, appending and joining in memory are the same
operations on that list.
-/

namespace LampUserspace.Stdlib

open Tiling

/-- The address where `bs` starts, or `last` when there is no block. -/
def link (a last : ℕ) : List Block → ℕ
  | [] => last
  | _ :: _ => a

/-- The headers of the blocks `bs`, which lie from `a` on, with `last` in the final `next`. -/
def Chain (m : Memory) (last a : ℕ) : List Block → Prop
  | [] => True
  | b :: bs =>
    blockSize m a = b.size ∧ blockNext m a = link (a + header + b.size) last bs ∧
      blockFree m a = b.free ∧ Chain m last (a + header + b.size) bs

variable {m m' : Memory} {last a : ℕ} {b b' : Block} {bs xs ys : List Block}

theorem blockSize_congr {block : ℕ}
    (h : ∀ x, block ≤ x → x < block + header → m' x = m x) :
    blockSize m' block = blockSize m block :=
  Memory.load32_congr fun x hlow hhigh => h x hlow (by unfold header; omega)

theorem blockNext_congr {block : ℕ}
    (h : ∀ x, block ≤ x → x < block + header → m' x = m x) :
    blockNext m' block = blockNext m block :=
  Memory.load32_congr fun x hlow hhigh => h x (by omega) (by unfold header; omega)

theorem blockFree_congr {block : ℕ}
    (h : ∀ x, block ≤ x → x < block + header → m' x = m x) :
    blockFree m' block = blockFree m block := by
  unfold blockFree
  rw [h (block + 8) (by omega) (by unfold header; omega)]

theorem Chain.congr (hm : ∀ q c, (q, c) ∈ payloads header a bs →
      ∀ x, q ≤ x + header → x < q → m' x = m x)
    (h : Chain m last a bs) : Chain m' last a bs := by
  induction bs generalizing a with
  | nil => trivial
  | cons b bs ih =>
    obtain ⟨hsize, hnext, hfree, hrest⟩ := h
    have hhead : ∀ x, a ≤ x → x < a + header → m' x = m x := fun x hlow hhigh =>
      hm (a + header) b List.mem_cons_self x (by omega) hhigh
    exact ⟨(blockSize_congr hhead).trans hsize, (blockNext_congr hhead).trans hnext,
      (blockFree_congr hhead).trans hfree,
      ih (fun q c hc => hm q c (List.mem_cons_of_mem _ hc)) hrest⟩

theorem Chain.congr_outside {lo hi : ℕ} (hm : ∀ x, x < lo ∨ hi ≤ x → m' x = m x)
    (hbs : ∀ q c, (q, c) ∈ payloads header a bs → q ≤ lo ∨ hi + header ≤ q)
    (h : Chain m last a bs) : Chain m' last a bs := by
  refine h.congr fun q c hc x hlow hhigh => hm x ?_
  have := hbs q c hc
  omega

theorem link_append (a : ℕ) :
    link a last (xs ++ ys) = link a (link (stop header a xs) last ys) xs := by
  cases xs with
  | nil => rfl
  | cons x xs => rfl

theorem chain_append :
    Chain m last a (xs ++ ys) ↔
      Chain m (link (stop header a xs) last ys) a xs ∧ Chain m last (stop header a xs) ys := by
  induction xs generalizing a with
  | nil => simp [Chain, stop]
  | cons x xs ih =>
    simp only [List.cons_append, Chain, ih, link_append, stop]
    tauto

theorem Chain.mark (v : UInt8) (h : Chain m last a (xs ++ b :: ys)) :
    Chain (m.store8 (stop header a xs + 8) v) last a (xs ++ ⟨b.size, v ≠ 0⟩ :: ys) := by
  have hframe : ∀ x, x < stop header a xs + 8 ∨ stop header a xs + 9 ≤ x →
      m.store8 (stop header a xs + 8) v x = m x := fun x hx => Memory.store8_ne v (by omega)
  obtain ⟨hxs, hsize, hnext, hfree, hys⟩ := chain_append.mp h
  refine chain_append.mpr ⟨hxs.congr_outside hframe ?_, ?_, ?_, ?_, hys.congr_outside hframe ?_⟩
  · intro q c hc
    have := (payloads_bounds hc).2
    omega
  · exact (Memory.load32_congr fun x hlow hhigh => hframe x (by omega)).trans hsize
  · exact (Memory.load32_congr fun x hlow hhigh => hframe x (by omega)).trans hnext
  · simp [blockFree]
  · intro q c hc
    have := (payloads_bounds hc).1
    unfold header at this ⊢
    omega

/-! ## Walking -/

/-- The address of the last block, or `tail` when there is none. -/
def lastBlock (a tail : ℕ) : List Block → ℕ
  | [] => tail
  | b :: bs => lastBlock (a + header + b.size) a bs

theorem lastBlock_append (a tail : ℕ) : lastBlock a tail (xs ++ [b]) = stop header a xs := by
  induction xs generalizing a tail with
  | nil => rfl
  | cons x xs ih => exact ih _ _

theorem lastBlock_bounds (a tail : ℕ) (b : Block) (bs : List Block) :
    a ≤ lastBlock a tail (b :: bs) ∧
      lastBlock a tail (b :: bs) + header ≤ stop header a (b :: bs) := by
  induction bs generalizing a tail b with
  | nil => exact ⟨Nat.le_refl a, Nat.le_add_right _ _⟩
  | cons c bs ih =>
    obtain ⟨hlow, hhigh⟩ := ih (a + header + b.size) a c
    exact ⟨Nat.le_trans (by omega) hlow, hhigh⟩

/-- The walk of `malloc` finds what `firstFit` finds; else it ends at the last block. -/
theorem mallocLoop_eq (wanted : ℕ) {fuel : ℕ} (tail : ℕ) (ha : 0 < a) (hfuel : bs.length < fuel)
    (h : Chain m 0 a bs) :
    (∃ xs b ys tail', firstFit wanted bs = some (xs, b, ys) ∧
      mallocLoop m wanted fuel (link a 0 bs) tail = some (stop header a xs, tail')) ∨
    firstFit wanted bs = none ∧
      mallocLoop m wanted fuel (link a 0 bs) tail = some (0, lastBlock a tail bs) := by
  induction bs generalizing a fuel tail with
  | nil =>
    obtain ⟨fuel, rfl⟩ := Nat.exists_eq_succ_of_ne_zero (Nat.ne_of_gt hfuel)
    exact Or.inr ⟨rfl, if_pos rfl⟩
  | cons b bs ih =>
    obtain ⟨fuel, rfl⟩ := Nat.exists_eq_succ_of_ne_zero (Nat.ne_of_gt (Nat.zero_lt_of_lt hfuel))
    obtain ⟨hsize, hnext, hfree, hrest⟩ := h
    have hstep : mallocLoop m wanted (fuel + 1) (link a 0 (b :: bs)) tail =
        if b.free = true ∧ b.size ≥ wanted then some (a, tail)
        else mallocLoop m wanted fuel (link (a + header + b.size) 0 bs) a := by
      rw [mallocLoop, link, if_neg (by omega), hsize, hnext, hfree]
    rw [hstep]
    by_cases hfit : b.free = true ∧ b.size ≥ wanted
    · rw [if_pos hfit]
      exact Or.inl ⟨[], b, bs, tail, if_pos hfit, rfl⟩
    · have hfirst : firstFit wanted (b :: bs) =
          (firstFit wanted bs).map fun r => (b :: r.1, r.2) := if_neg hfit
      rw [if_neg hfit, hfirst]
      rcases ih a (by omega) (by simpa using hfuel) hrest with
        ⟨xs, c, ys, tail', hfound, heq⟩ | ⟨hnone, heq⟩
      · exact Or.inl ⟨b :: xs, c, ys, tail', by rw [hfound]; rfl, heq⟩
      · exact Or.inr ⟨by rw [hnone]; rfl, heq⟩

/-- The first free block that is large enough is found; else the walk ends at the last block. -/
theorem mallocLoop_spec (wanted : ℕ) {fuel : ℕ} (tail : ℕ) (ha : 0 < a) (hfuel : bs.length < fuel)
    (h : Chain m 0 a bs) :
    (∃ xs b ys tail', bs = xs ++ b :: ys ∧ b.free = true ∧ wanted ≤ b.size ∧
      mallocLoop m wanted fuel (link a 0 bs) tail = some (stop header a xs, tail')) ∨
    mallocLoop m wanted fuel (link a 0 bs) tail = some (0, lastBlock a tail bs) := by
  rcases mallocLoop_eq wanted tail ha hfuel h with ⟨xs, b, ys, tail', hfound, heq⟩ | ⟨-, heq⟩
  · obtain ⟨hbs, hfree, hlarge⟩ := firstFit_eq_some hfound
    exact Or.inl ⟨xs, b, ys, tail', hbs, hfree, hlarge, heq⟩
  · exact Or.inr heq

/-! ## Appending -/

def storeHeader (m : Memory) (block wanted : ℕ) : Memory :=
  ((m.store32 block wanted).store32 (block + 4) 0).store8 (block + 8) 0

theorem storeHeader_frame {block wanted x : ℕ} (h : x < block ∨ block + header ≤ x) :
    storeHeader m block wanted x = m x := by
  unfold header at h
  unfold storeHeader
  rw [Memory.store8_ne _ (by omega), Memory.store32_frame _ (by omega),
    Memory.store32_frame _ (by omega)]

theorem chain_storeHeader (block : ℕ) {wanted : ℕ} (h : wanted < 2 ^ 32) :
    Chain (storeHeader m block wanted) 0 block [⟨wanted, false⟩] := by
  refine ⟨?_, ?_, ?_, trivial⟩
  · unfold blockSize storeHeader
    rw [Memory.load32_congr fun x _ _ => Memory.store8_ne _ (by omega),
      Memory.load32_congr fun x _ _ => Memory.store32_frame _ (by omega),
      Memory.load32_store32 _ _ h]
  · unfold blockNext storeHeader
    rw [Memory.load32_congr fun x _ _ => Memory.store8_ne _ (by omega),
      Memory.load32_store32 _ _ (by decide)]
    rfl
  · simp [blockFree, storeHeader]

theorem Chain.append {wanted : ℕ} (ha : 0 < a) (hwanted : wanted < 2 ^ 32)
    (hstop : stop header a bs < 2 ^ 32) (h : Chain m 0 a bs) :
    Chain (if lastBlock a 0 bs ≠ 0 then
        (storeHeader m (stop header a bs) wanted).store32 (lastBlock a 0 bs + 4) (stop header a bs)
      else storeHeader m (stop header a bs) wanted) 0 a (bs ++ [⟨wanted, false⟩]) := by
  have hnew := chain_storeHeader (m := m) (stop header a bs) hwanted
  have hold : Chain (storeHeader m (stop header a bs) wanted) 0 a bs :=
    h.congr_outside (fun x hx => storeHeader_frame hx) fun q c hc => by
      have := (payloads_bounds hc).2
      omega
  rcases List.eq_nil_or_concat bs with rfl | ⟨xs, t, rfl⟩
  · rw [if_neg (by simp [lastBlock])]
    exact hnew
  · rw [List.concat_eq_append] at *
    have hlast : lastBlock a 0 (xs ++ [t]) = stop header a xs := lastBlock_append a 0
    have hpos : a ≤ stop header a xs := le_stop a xs
    have hend : stop header a (xs ++ [t]) = stop header a xs + header + t.size := stop_append a _ _
    rw [hlast, if_pos (by omega)]
    generalize storeHeader m (stop header a (xs ++ [t])) wanted = m₁ at hnew hold ⊢
    have hframe : ∀ x, x < stop header a xs + 4 ∨ stop header a xs + 8 ≤ x →
        m₁.store32 (stop header a xs + 4) (stop header a (xs ++ [t])) x = m₁ x :=
      fun x hx => Memory.store32_frame _ (by omega)
    obtain ⟨hxs, hsize, -, hfree, -⟩ := chain_append.mp hold
    refine chain_append.mpr ⟨chain_append.mpr ⟨hxs.congr_outside hframe ?_, ?_, ?_, ?_, trivial⟩,
      hnew.congr_outside hframe ?_⟩
    · intro q c hc
      have := (payloads_bounds hc).2
      omega
    · exact (Memory.load32_congr fun x _ _ => hframe x (by omega)).trans hsize
    · exact Memory.load32_store32 _ _ hstop
    · refine Eq.trans ?_ hfree
      unfold blockFree
      rw [hframe _ (by omega)]
    · intro q c hc
      have := (payloads_bounds hc).1
      unfold header at *
      omega

/-! ## Joining -/

theorem align4_of_dvd {n : ℕ} (h : n % 4 = 0) (hlt : n + 3 < 2 ^ 32) : align4 n = n := by
  unfold align4
  omega

theorem link_lt_stop {p : Block} (h : stop header a (p :: bs) ≤ 2 ^ 32) :
    link (a + header + p.size) 0 bs < 2 ^ 32 := by
  cases bs with
  | nil => exact Nat.two_pow_pos 32
  | cons b bs =>
    have hle : a + header + p.size + header + b.size ≤ stop header a (p :: b :: bs) := le_stop _ bs
    have h12 : header = 12 := rfl
    change a + header + p.size < 2 ^ 32
    omega

/-- The two stores that let a block take in the block after it. -/
def storeJoined (m : Memory) (a size next : ℕ) : Memory := (m.store32 a size).store32 (a + 4) next

theorem storeJoined_frame {size next x : ℕ} (h : x < a ∨ a + 8 ≤ x) :
    storeJoined m a size next x = m x := by
  unfold storeJoined
  rw [Memory.store32_frame _ (by omega), Memory.store32_frame _ (by omega)]

theorem Chain.absorb {p : Block} (hstop : stop header a (p :: b :: bs) ≤ 2 ^ 32)
    (h : Chain m 0 a (p :: b :: bs)) :
    Chain (storeJoined m a (p.size + (header + b.size))
      (link (a + header + p.size + header + b.size) 0 bs)) 0 a
      (⟨p.size + (header + b.size), p.free⟩ :: bs) := by
  obtain ⟨-, -, hfree, -, -, -, hrest⟩ := h
  have h12 : header = 12 := rfl
  have hroom : a + header + p.size + header + b.size ≤ stop header a (p :: b :: bs) := le_stop _ bs
  have hstart : a + header + (p.size + (header + b.size)) =
      a + header + p.size + header + b.size := by omega
  have hnext : link (a + header + p.size + header + b.size) 0 bs < 2 ^ 32 := link_lt_stop hstop
  refine ⟨?_, ?_, ?_, ?_⟩
  · unfold blockSize storeJoined
    rw [Memory.load32_congr fun x _ _ => Memory.store32_frame _ (by omega)]
    exact Memory.load32_store32 _ _ (by omega)
  · rw [hstart]
    exact Memory.load32_store32 _ _ hnext
  · refine Eq.trans ?_ hfree
    unfold blockFree
    rw [storeJoined_frame (by omega)]
  · rw [hstart]
    refine hrest.congr_outside (fun x hx => storeJoined_frame hx) fun q c hc => ?_
    have := (payloads_bounds hc).1
    omega

/-- The address lies in no header. -/
def OffHeaders (a : ℕ) (bs : List Block) (x : ℕ) : Prop :=
  ∀ q c, (q, c) ∈ payloads header a bs → x + header < q ∨ q ≤ x

theorem offHeaders_of_outside {x : ℕ} (h : x < a ∨ stop header a bs ≤ x) : OffHeaders a bs x := by
  intro q c hc
  have := payloads_bounds hc
  omega

theorem OffHeaders.head {x : ℕ} {p : Block} (h : OffHeaders a (p :: bs) x) :
    x < a ∨ a + header ≤ x := by
  have := h (a + header) p List.mem_cons_self
  omega

theorem OffHeaders.tail {x : ℕ} {p : Block} (h : OffHeaders a (p :: bs) x) :
    OffHeaders (a + header + p.size) bs x := fun q c hc => h q c (List.mem_cons_of_mem _ hc)

theorem OffHeaders.joined {x : ℕ} {p : Block} (f : Bool) (h : OffHeaders a (p :: b :: bs) x) :
    OffHeaders a (⟨p.size + (header + b.size), f⟩ :: bs) x := by
  intro q c hc
  rcases List.mem_cons.mp hc with heq | hc
  · obtain ⟨rfl, -⟩ := Prod.mk.inj heq
    exact h _ p List.mem_cons_self
  · refine h q c (List.mem_cons_of_mem _ (List.mem_cons_of_mem _ ?_))
    rwa [show a + header + (p.size + (header + b.size)) =
      a + header + p.size + header + b.size by omega] at hc

/-- The walk of `free` joins the free neighbours and changes nothing outside the headers. -/
theorem Chain.join {fuel : ℕ} {p : Block} (ha : 0 < a) (hfuel : bs.length < fuel)
    (hstop : stop header a (p :: bs) ≤ 2 ^ 32) (hsizes : ∀ b ∈ bs, b.size % 4 = 0)
    (h : Chain m 0 a (p :: bs)) :
    ∃ m', joinLoop fuel m (link (a + header + p.size) 0 bs) a = some m' ∧
      Chain m' 0 a (coalesce header p bs) ∧
      ∀ x, OffHeaders a (p :: bs) x → m' x = m x := by
  induction bs generalizing a fuel p m with
  | nil =>
    obtain ⟨fuel, rfl⟩ := Nat.exists_eq_succ_of_ne_zero (Nat.ne_of_gt hfuel)
    exact ⟨m, if_pos rfl, h, fun x _ => rfl⟩
  | cons b bs ih =>
    obtain ⟨fuel, rfl⟩ := Nat.exists_eq_succ_of_ne_zero (Nat.ne_of_gt (Nat.zero_lt_of_lt hfuel))
    have hjoined := h.absorb hstop
    obtain ⟨hsize, hnext, hfree, hbsize, hbnext, hbfree, hrest⟩ := h
    have h12 : header = 12 := rfl
    have hlink : link (a + header + p.size) 0 (b :: bs) = a + header + p.size := rfl
    have hroom : a + header + p.size + header + b.size ≤ stop header a (p :: b :: bs) :=
      le_stop _ bs
    have hfuel' : bs.length < fuel := by simpa using hfuel
    have hsizes' : ∀ c ∈ bs, c.size % 4 = 0 := fun c hc => hsizes c (List.mem_cons_of_mem _ hc)
    rw [hlink, joinLoop, if_neg (by omega), hfree, hbfree, coalesce]
    by_cases hboth : p.free = true ∧ b.free = true
    · have hb4 := hsizes b List.mem_cons_self
      have hinner : (header + b.size) % 2 ^ 32 = header + b.size := Nat.mod_eq_of_lt (by omega)
      have hn : (p.size + align4 ((header + b.size) % 2 ^ 32)) % 2 ^ 32 =
          p.size + (header + b.size) := by
        rw [hinner, align4_of_dvd (by omega) (by omega)]
        exact Nat.mod_eq_of_lt (by omega)
      have hbnext₁ : blockNext (m.store32 a (p.size + (header + b.size))) (a + header + p.size) =
          link (a + header + p.size + header + b.size) 0 bs := by
        rw [← hbnext]
        exact Memory.load32_congr fun x hlow _ => Memory.store32_frame _ (by omega)
      rw [if_pos ⟨by omega, hboth⟩, if_pos hboth]
      simp only [hsize, hbsize, hn, hbnext₁]
      change ∃ m',
        joinLoop fuel (storeJoined m a _ _) (blockNext (storeJoined m a _ _) a) a = _ ∧ _
      rw [hboth.1] at hjoined
      rw [hjoined.2.1]
      have hsame : stop header a (⟨p.size + (header + b.size), true⟩ :: bs) =
          stop header a (p :: b :: bs) := stop_joined a p b true bs
      obtain ⟨m', hloop, hchain, hframe⟩ := ih ha hfuel' (hsame ▸ hstop) hsizes' hjoined
      refine ⟨m', hloop, hchain, fun x hx => ?_⟩
      have hout := hx.head
      rw [hframe x (hx.joined true), storeJoined_frame (by omega)]
    · rw [if_neg (fun hcond => hboth hcond.2), if_neg hboth, hbnext]
      obtain ⟨m', hloop, hchain, hframe⟩ := ih (by omega) hfuel' hstop hsizes'
        ⟨hbsize, hbnext, hbfree, hrest⟩
      refine ⟨m', hloop, ?_, fun x hx => hframe x hx.tail⟩
      have hhead : ∀ x, a ≤ x → x < a + header → m' x = m x := fun x _ hx =>
        hframe x (offHeaders_of_outside (Or.inl (by omega)))
      obtain ⟨n, ys, heq⟩ := coalesce_eq_cons header b bs
      refine ⟨(blockSize_congr hhead).trans hsize, (blockNext_congr hhead).trans ?_,
        (blockFree_congr hhead).trans hfree, hchain⟩
      rw [hnext, heq]
      rfl

/-- The same from the head of the list, where there is no block before. -/
theorem Chain.join_all {fuel : ℕ} (ha : 0 < a) (hfuel : bs.length < fuel) (hne : bs ≠ [])
    (hstop : stop header a bs ≤ 2 ^ 32) (hsizes : ∀ b ∈ bs, b.size % 4 = 0) (h : Chain m 0 a bs) :
    ∃ m', joinLoop fuel m (link a 0 bs) 0 = some m' ∧ Chain m' 0 a (joinAll header bs) ∧
      ∀ x, OffHeaders a bs x → m' x = m x := by
  obtain ⟨fuel, rfl⟩ := Nat.exists_eq_succ_of_ne_zero (Nat.ne_of_gt (Nat.zero_lt_of_lt hfuel))
  cases bs with
  | nil => exact absurd rfl hne
  | cons p bs =>
    rw [List.length_cons] at hfuel
    have hlink : link a 0 (p :: bs) = a := rfl
    rw [hlink, joinLoop, if_neg (by omega), if_neg (fun hcond => hcond.1 rfl), h.2.1]
    exact h.join ha (by omega) hstop fun b hb => hsizes b (List.mem_cons_of_mem p hb)

end LampUserspace.Stdlib
