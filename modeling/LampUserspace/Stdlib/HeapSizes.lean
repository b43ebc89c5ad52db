import LampUserspace.Stdlib.HeapRuns

/-! # Requests of every size

Sizes are 32-bit words, and `malloc` rounds them up twice. In the top 15 sizes one
of the roundings wraps, and such a request is not refused unless the heap is
nearly full: it is served with a block that does not hold it.
-/

namespace LampUserspace.Stdlib

open Tiling

/-- No free block is large enough for the rounded request, and the rest of the heap is smaller than
what `malloc` compares it with. -/
def Refuses (area : Area) (h : Heap) (size : ℕ) : Prop :=
  (∃ tail, mallocLoop h.memory (wantedSize size) heapSize h.gHeapHead 0 = some (0, tail)) ∧
    area.gHeap + heapSize - h.gHeapEnd < align4 ((header + wantedSize size) % 2 ^ 32)

/-- Neither rounding wraps, or `malloc` refuses the request all the same. -/
def Accounts (area : Area) (h : Heap) (size : ℕ) : Prop := size + 16 ≤ 2 ^ 32 ∨ Refuses area h size

/-- A payload that holds `n` bytes, inside the heap and apart from what the program holds. -/
structure Granted (area : Area) (live : ℕ → Option ℕ) (n : ℕ) (r : ℕ × Heap) : Prop where
  fits : n ≤ blockSize r.2.memory (r.1 - header)
  low : area.gHeap + header ≤ r.1
  high : r.1 + blockSize r.2.memory (r.1 - header) ≤ area.gHeap + heapSize
  apart : ∀ q m, live q = some m →
    r.1 + blockSize r.2.memory (r.1 - header) ≤ q ∨ q + blockSize r.2.memory (q - header) ≤ r.1

/-- Either nothing and the heap as it was, or a payload. -/
def Allocates (area : Area) (h : Heap) (live : ℕ → Option ℕ) (n : ℕ) (r : ℕ × Heap) : Prop :=
  r.1 = 0 ∧ r.2 = h ∨ Granted area live n r

def AllocatesZeros (area : Area) (live : ℕ → Option ℕ) (n : ℕ) (r : ℕ × Heap) : Prop :=
  r.1 = 0 ∨ Granted area live n r ∧ ∀ i < n, r.2.memory (r.1 + i) = 0

variable {area : Area} {h : Heap} {live live' : ℕ → Option ℕ} {bs : List Block} {b : Block}
  {p n size nmemb : ℕ}

theorem Tiled.blockSize_eq (t : Tiled area h live bs)
    (hb : (p, b) ∈ payloads header area.gHeap bs) :
    blockSize h.memory (p - header) = b.size := by
  obtain ⟨xs, ys, rfl, rfl⟩ := exists_split hb
  rw [Nat.add_sub_cancel]
  exact (chain_append.mp t.chain).2.1

/-- A live pointer has a payload apart from those of the other ones. -/
theorem Tiled.granted (t : Tiled area h live bs) (hp : live p = some n)
    (hothers : ∀ q m, live' q = some m → q ≠ p ∧ live q = some m) :
    Granted area live' n (p, h) := by
  obtain ⟨b, hb, -, hfit⟩ := t.owned p n hp
  have hsize := t.blockSize_eq hb
  have hbounds := payloads_bounds hb
  have hstop := t.stop_le
  constructor
  · rwa [hsize]
  · exact hbounds.1
  · rw [hsize]
    exact Nat.le_trans hbounds.2 hstop
  · intro q m hq
    obtain ⟨hne, hq⟩ := hothers q m hq
    obtain ⟨c, hc, -, -⟩ := t.owned q m hq
    rw [hsize, t.blockSize_eq hc]
    rcases payloads_apart hb hc with ⟨heq, -⟩ | hlow | hhigh
    · exact absurd heq.symm hne
    · exact Or.inl (by omega)
    · exact Or.inr (by omega)

theorem Tiled.granted_new (t : Tiled area h (grant live p n) bs) (hp : p ≠ 0)
    (hfresh : live p = none) : Granted area live n (p, h) := by
  rw [grant_ne_null live hp] at t
  apply t.granted (Function.update_self p (some n) live)
  intro q m hq
  have hne : q ≠ p := by
    rintro rfl
    rw [hfresh] at hq
    cases hq
  exact ⟨hne, by rw [Function.update_of_ne hne, hq]⟩

theorem Granted.le_heapSize {r : ℕ × Heap} (g : Granted area live n r) : n + header ≤ heapSize := by
  have hfits := g.fits
  have hlow := g.low
  have hhigh := g.high
  omega

/-! ## `malloc` -/

theorem malloc_null_iff (t : Tiled area h live bs) (size : ℕ) :
    ∃ r, malloc area.gHeap h size = some r ∧ (Refuses area h size → r = (0, h)) ∧
      (r.1 = 0 → Refuses area h size) := by
  have hwalk := mallocLoop_spec (wantedSize size) 0 area.pos t.length_lt t.chain
  rw [← t.head] at hwalk
  rcases hwalk with ⟨xs, b, ys, tail, rfl, -, -, hfind⟩ | hfind
  · have hxs : area.gHeap ≤ stop header area.gHeap xs := le_stop _ xs
    have hne : stop header area.gHeap xs ≠ 0 := by
      have := area.pos
      omega
    refine ⟨_, malloc_of_found area.gHeap hne hfind, ?_, fun h0 => absurd h0 (Nat.succ_ne_zero _)⟩
    rintro ⟨⟨tail', hnone⟩, -⟩
    rw [hfind] at hnone
    exact absurd (Prod.mk.inj (Option.some.inj hnone)).1 hne
  · have heq := malloc_of_not_found area.gHeap (fun hne => hne rfl) rfl hfind
    by_cases hroom : area.gHeap + heapSize - h.gHeapEnd <
        align4 ((header + wantedSize size) % 2 ^ 32)
    · exact ⟨_, heq.trans (if_pos hroom), fun _ => rfl, fun _ => ⟨⟨_, hfind⟩, hroom⟩⟩
    · exact ⟨_, heq.trans (if_neg hroom), fun hrefuse => absurd hrefuse.2 hroom,
        fun h0 => absurd h0 (Nat.succ_ne_zero _)⟩

theorem malloc_allocates (t : Tiled area h live bs) (hsize : size + 16 ≤ 2 ^ 32) :
    Total (malloc area.gHeap h size) (Allocates area h live size) := by
  obtain ⟨r, hr, hrefuse, hnull⟩ := malloc_null_iff t size
  apply (malloc_spec t hsize).mono
  rintro r' hr' ⟨⟨bs', t'⟩, hfresh⟩
  obtain rfl := Option.some.inj (hr.symm.trans hr')
  by_cases h0 : r.1 = 0
  · obtain rfl := hrefuse (hnull h0)
    exact Or.inl ⟨rfl, rfl⟩
  · exact Or.inr (t'.granted_new h0 hfresh)

/-- `malloc` does what it should on the requests that it accounts for. -/
theorem malloc_iff (t : Tiled area h live bs) :
    Total (malloc area.gHeap h size) (Allocates area h live size) ↔ Accounts area h size := by
  by_cases hsize : size + 16 ≤ 2 ^ 32
  · exact ⟨fun _ => Or.inl hsize, fun _ => malloc_allocates t hsize⟩
  obtain ⟨r, hr, hrefuse, hnull⟩ := malloc_null_iff t size
  rw [Total.iff_of_eq hr]
  constructor
  · rintro (⟨h0, -⟩ | hgranted)
    · exact Or.inr (hnull h0)
    · have hle := hgranted.le_heapSize
      unfold heapSize at hle
      omega
  · intro haccount
    obtain rfl := hrefuse (haccount.resolve_left hsize)
    exact Or.inl ⟨rfl, rfl⟩

/-! ## `calloc` -/

/-- The product does not fit into a word, or it is a request that `malloc` accounts for. -/
def AccountsProduct (area : Area) (h : Heap) (nmemb size : ℕ) : Prop :=
  2 ^ 32 ≤ nmemb * size ∨ Accounts area h (nmemb * size)

theorem Tiled.granted_zeros (t : Tiled area h (grant live p n) bs) (hp : p ≠ 0)
    (hfresh : live p = none) :
    Granted area live n (p, { h with memory := h.memory.write p (List.replicate n 0) }) ∧
      ∀ i < n, h.memory.write p (List.replicate n 0) (p + i) = 0 := by
  have hheld : grant live p n p = some n := by rw [grant_ne_null live hp, Function.update_self]
  have hlen : (List.replicate n (0 : UInt8)).length = n := List.length_replicate
  constructor
  · exact (t.write hheld (Nat.le_refl p) (Nat.le_of_eq (by rw [hlen]))).granted_new hp hfresh
  · intro i hi
    rw [Memory.write_apply _ _ (hlen.symm ▸ hi), List.getElem_replicate]

theorem calloc_iff (t : Tiled area h live bs) :
    Total (calloc area.gHeap h nmemb size) (AllocatesZeros area live (nmemb * size)) ↔
      AccountsProduct area h nmemb size := by
  by_cases hover : 2 ^ 32 ≤ nmemb * size
  · rw [Total.iff_of_eq (calloc_of_overflow hover)]
    exact ⟨fun _ => Or.inl hover, fun _ => Or.inl rfl⟩
  obtain ⟨r, hr, hrefuse, hnull⟩ := malloc_null_iff t (nmemb * size)
  rw [Total.iff_of_eq (calloc_of_fits (Nat.not_le.mp hover) hr)]
  constructor
  · rintro (h0 | ⟨hgranted, -⟩)
    · exact Or.inr (Or.inr (hnull h0))
    · have hle := hgranted.le_heapSize
      unfold header heapSize at hle
      exact Or.inr (Or.inl (by omega))
  · intro haccount
    by_cases h0 : r.1 = 0
    · exact Or.inl h0
    · rcases haccount.resolve_left hover with hsize | hrefuses
      · obtain ⟨r', hr', ⟨bs', t'⟩, hfresh⟩ := malloc_spec t hsize
        obtain rfl := Option.some.inj (hr.symm.trans hr')
        rw [if_pos h0]
        exact Or.inr (t'.granted_zeros h0 hfresh)
      · exact absurd (congrArg Prod.fst (hrefuse hrefuses)) h0

/-! ## Runs -/

/-- The program gives 32-bit sizes that `malloc` accounts for, gives back only what it holds and
stores only into what it holds. -/
def Process.Accounted (area : Area) (s : Process) : Call → Prop
  | .malloc size => size < 2 ^ 32 ∧ Accounts area s.heap size
  | .free ptr => ptr = 0 ∨ ∃ n, s.live ptr = some n
  | .calloc nmemb size => nmemb < 2 ^ 32 ∧ size < 2 ^ 32 ∧ AccountsProduct area s.heap nmemb size
  | .realloc ptr size =>
    (ptr = 0 ∨ ∃ n, s.live ptr = some n) ∧ size < 2 ^ 32 ∧ Accounts area s.heap size
  | .store address _ => ∃ p n, s.live p = some n ∧ p ≤ address ∧ address < p + n

theorem malloc_accounted (t : Tiled area h live bs) (haccount : Accounts area h size) :
    Total (malloc area.gHeap h size) fun r => ∃ bs', Tiled area r.2 (grant live r.1 size) bs' := by
  rcases haccount with hsize | hrefuses
  · exact (malloc_spec t hsize).mono fun r _ hr => hr.1
  · obtain ⟨r, hr, hrefuse, -⟩ := malloc_null_iff t size
    obtain rfl := hrefuse hrefuses
    exact ⟨_, hr, bs, t⟩

theorem calloc_accounted (t : Tiled area h live bs)
    (haccount : AccountsProduct area h nmemb size) :
    Total (calloc area.gHeap h nmemb size) fun r =>
      ∃ bs', Tiled area r.2 (grant live r.1 (nmemb * size)) bs' := by
  by_cases hover : 2 ^ 32 ≤ nmemb * size
  · exact ⟨_, calloc_of_overflow hover, bs, t⟩
  obtain ⟨r, hr, bs', t'⟩ := malloc_accounted t (haccount.resolve_left hover)
  exact ⟨_, calloc_of_fits (Nat.not_le.mp hover) hr, bs', t'.zeroed⟩

theorem realloc_accounted (t : Tiled area h live bs) (hp : p = 0 ∨ ∃ n, live p = some n)
    (haccount : Accounts area h size) :
    Total (realloc area.gHeap h p size) fun r =>
      ∃ bs', Tiled area r.2 (reallocated live p size r.1) bs' := by
  by_cases hsize : size + 16 ≤ 2 ^ 32
  · exact realloc_spec t hp hsize
  have hne : size ≠ 0 := by omega
  rcases Nat.eq_zero_or_pos p with rfl | hpos
  · apply (malloc_accounted t haccount).mono
    rintro r - ht
    rw [reallocated, if_neg fun hcond => hcond.1 rfl]
    exact ht
  have hpne : p ≠ 0 := Nat.ne_of_gt hpos
  obtain ⟨n, hn⟩ := hp.resolve_left hpne
  obtain ⟨r, hr, hrefuse, -⟩ := malloc_null_iff t size
  obtain rfl := hrefuse (haccount.resolve_left hsize)
  rw [realloc, if_neg hpne, if_neg hne]
  apply Total.ite
  · intro hkeep
    refine Total.some ⟨bs, ?_⟩
    rw [reallocated_live hpne hpne, release, Function.update_idem]
    exact t.keep hn hkeep
  · intro _
    apply Total.intro (by rw [hr]; rfl)
    rw [reallocated, if_neg fun hcond => hcond.2.elim hne fun h0 => h0 rfl]
    exact ⟨bs, t⟩

/-- Every call that is accounted for returns and keeps the tiling. -/
theorem Process.step_accounted {s : Process} {call : Call}
    (t : ∃ bs, Tiled area s.heap s.live bs) (hcall : s.Accounted area call) :
    Total (s.step area call) fun s' => ∃ bs, Tiled area s'.heap s'.live bs := by
  obtain ⟨bs, t⟩ := t
  cases call with
  | malloc size => exact (malloc_accounted t hcall.2).bind fun r _ hr => Total.pure hr
  | free ptr => exact (free_spec t hcall).bind fun h' _ ht => Total.pure ht
  | calloc nmemb size => exact (calloc_accounted t hcall.2.2).bind fun r _ hr => Total.pure hr
  | realloc ptr size =>
    exact (realloc_accounted t hcall.1 hcall.2.2).bind fun r _ hr => Total.pure hr
  | store address byte =>
    obtain ⟨p, n, hp, hlow, hhigh⟩ := hcall
    have hlen : address + [byte].length ≤ p + n := hhigh
    exact Total.some ⟨bs, t.write hp hlow hlen⟩

/-- A run whose calls are accounted for returns, and leaves a tiled heap. -/
theorem accounted_run_tiled (memory : Memory) {calls : List Call}
    (hcalls : Total.Along (Process.step area) (Process.Accounted area)
      (Process.start area memory) calls) :
    Total (calls.foldlM (Process.step area) (Process.start area memory)) fun s =>
      ∃ bs, Tiled area s.heap s.live bs :=
  Total.foldlM (fun _ _ => Process.step_accounted) ⟨[], Process.start_tiled area memory⟩ hcalls

/-- After every run whose calls are accounted for, the next `malloc` or `calloc` does what it
should just when it is accounted for as well. -/
theorem heap_requests_iff (area : Area) (memory : Memory) (calls : List Call)
    (hcalls : Total.Along (Process.step area) (Process.Accounted area)
      (Process.start area memory) calls) :
    Total (calls.foldlM (Process.step area) (Process.start area memory)) fun s =>
      (∀ size < 2 ^ 32, Total (malloc area.gHeap s.heap size) (Allocates area s.heap s.live size) ↔
        Accounts area s.heap size) ∧
      ∀ nmemb < 2 ^ 32, ∀ size < 2 ^ 32,
        Total (calloc area.gHeap s.heap nmemb size)
            (AllocatesZeros area s.live (nmemb * size)) ↔
          AccountsProduct area s.heap nmemb size := by
  apply (accounted_run_tiled memory hcalls).mono
  rintro s - ⟨bs, t⟩
  exact ⟨fun size _ => malloc_iff t, fun nmemb _ size _ => calloc_iff t⟩

def smallRun : List Call := [.malloc 5]

theorem smallRun_requests :
    Total.Along (Process.step lowArea) (Process.Accounted lowArea)
        (Process.start lowArea fun _ => 0) smallRun ∧
      Total (smallRun.foldlM (Process.step lowArea) (Process.start lowArea fun _ => 0)) fun s =>
        (∀ size < 2 ^ 32,
          Total (malloc lowArea.gHeap s.heap size) (Allocates lowArea s.heap s.live size) ↔
            Accounts lowArea s.heap size) ∧
        ∀ nmemb < 2 ^ 32, ∀ size < 2 ^ 32,
          Total (calloc lowArea.gHeap s.heap nmemb size)
              (AllocatesZeros lowArea s.live (nmemb * size)) ↔
            AccountsProduct lowArea s.heap nmemb size := by
  have hcalls : Total.Along (Process.step lowArea) (Process.Accounted lowArea)
      (Process.start lowArea fun _ => 0) smallRun :=
    ⟨⟨by decide, Or.inl (by decide)⟩, fun _ _ => trivial⟩
  exact ⟨hcalls, heap_requests_iff lowArea (fun _ => 0) smallRun hcalls⟩

/-- On the empty heap the largest size is served with a block of no bytes. -/
theorem largest_request_not_allocated :
    ((malloc lowArea.gHeap (Process.start lowArea fun _ => 0).heap (2 ^ 32 - 1)).map
        fun r => (r.1, blockSize r.2.memory (r.1 - header))) = some (28, 0) ∧
      ¬ Total (malloc lowArea.gHeap (Process.start lowArea fun _ => 0).heap (2 ^ 32 - 1))
        (Allocates lowArea (Process.start lowArea fun _ => 0).heap (fun _ => none)
          (2 ^ 32 - 1)) := by
  constructor
  · decide +kernel
  · intro h
    rcases (malloc_iff (Process.start_tiled lowArea fun _ => 0)).mp h with hsize | ⟨-, hroom⟩
    · exact absurd hsize (by decide)
    · exact absurd hroom (by decide)

end LampUserspace.Stdlib
