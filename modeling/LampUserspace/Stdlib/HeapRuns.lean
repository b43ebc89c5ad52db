import LampUserspace.Stdlib.HeapLists

/-! # Runs of the heap

Every run of `malloc`, `free`, `calloc` and `realloc`, with stores of the program
into its own blocks in between, leaves a block list that tiles the used part of
the heap. The used blocks are those that the program holds and no two neighbours
are free.
-/

namespace LampUserspace.Stdlib

open Tiling

variable {area : Area} {h : Heap} {live : ℕ → Option ℕ} {bs xs ys : List Block} {b c : Block}
  {p q n size nmemb : ℕ}

/-- A request is reused, refused or served at the end, with room for it. -/
theorem malloc_cases (t : Tiled area h live bs) (hsize : size + 16 ≤ 2 ^ 32) :
    (∃ xs b ys, bs = xs ++ b :: ys ∧ b.free = true ∧ size ≤ b.size ∧
      malloc area.gHeap h size = some (stop header area.gHeap xs + header,
        { h with memory := h.memory.store8 (stop header area.gHeap xs + 8) 0 })) ∨
    malloc area.gHeap h size = some (0, h) ∨
    ∃ wanted, size ≤ wanted ∧ wanted % 4 = 0 ∧ 0 < wanted ∧
      h.gHeapEnd + header + wanted ≤ area.gHeap + heapSize ∧
      malloc area.gHeap h size = some (h.gHeapEnd + header,
        { memory := if lastBlock area.gHeap 0 bs ≠ 0 then
              (storeHeader h.memory h.gHeapEnd wanted).store32 (lastBlock area.gHeap 0 bs + 4)
                h.gHeapEnd
            else storeHeader h.memory h.gHeapEnd wanted
          gHeapHead := if lastBlock area.gHeap 0 bs ≠ 0 then h.gHeapHead else h.gHeapEnd
          gHeapEnd := h.gHeapEnd + header + wanted }) := by
  obtain ⟨hfit, h4, hpos, -⟩ := wanted_spec hsize
  rcases malloc_lists t hsize rfl with ⟨xs, b, ys, hfound, heq⟩ | ⟨-, ⟨-, heq⟩ | ⟨hroom, heq⟩⟩
  · obtain ⟨hbs, hfree, hlarge⟩ := firstFit_eq_some hfound
    exact Or.inl ⟨xs, b, ys, hbs, hfree, Nat.le_trans hfit hlarge, heq⟩
  · exact Or.inr (Or.inl heq)
  · exact Or.inr (Or.inr ⟨_, hfit, h4, hpos, hroom, heq⟩)

theorem malloc_spec (t : Tiled area h live bs) (hsize : size + 16 ≤ 2 ^ 32) :
    Total (malloc area.gHeap h size) fun r =>
      (∃ bs', Tiled area r.2 (grant live r.1 size) bs') ∧ live r.1 = none := by
  cases hserved : area.allocate size bs with
  | none => exact ⟨_, malloc_refused t hsize hserved, ⟨bs, t⟩, t.live_null⟩
  | some r =>
    obtain ⟨h', heq, t', hne, hfresh⟩ := malloc_allocate t hsize hserved
    refine ⟨_, heq, ⟨r.2, ?_⟩, hfresh⟩
    rw [grant_ne_null live hne]
    exact t'

theorem malloc_frame {r : ℕ × Heap} {x : ℕ} (t : Tiled area h live bs) (hsize : size + 16 ≤ 2 ^ 32)
    (hr : malloc area.gHeap h size = some r) (hx : x < area.gHeap ∨ area.gHeap + heapSize ≤ x) :
    r.2.memory x = h.memory x := by
  have h12 : header = 12 := rfl
  rcases malloc_cases t hsize with ⟨xs, b, ys, rfl, -, -, heq⟩ | heq |
    ⟨wanted, -, -, -, hroom, heq⟩
  · obtain rfl := Option.some.inj (heq.symm.trans hr)
    have hlow : area.gHeap ≤ stop header area.gHeap xs := le_stop _ _
    have hhigh : stop header (stop header area.gHeap xs) (b :: ys) ≤ area.gHeap + heapSize :=
      stop_append area.gHeap xs (b :: ys) ▸ t.stop_le
    have hseam : stop header area.gHeap xs + header + b.size ≤
        stop header (stop header area.gHeap xs) (b :: ys) := le_stop _ ys
    exact Memory.store8_ne _ (by omega)
  · obtain rfl := Option.some.inj (heq.symm.trans hr)
    rfl
  · obtain rfl := Option.some.inj (heq.symm.trans hr)
    have hlow : area.gHeap ≤ h.gHeapEnd := t.ends ▸ le_stop _ _
    cases bs with
    | nil => exact storeHeader_frame (by omega)
    | cons b bs =>
      obtain ⟨hfirst, hlast⟩ := lastBlock_bounds area.gHeap 0 b bs
      have hpos := area.pos
      rw [← t.ends] at hlast
      simp only [ne_eq, show lastBlock area.gHeap 0 (b :: bs) ≠ 0 by omega, not_false_eq_true,
        if_true]
      rw [Memory.store32_frame _ (by omega), storeHeader_frame (by omega)]

theorem free_spec (t : Tiled area h live bs) (hp : p = 0 ∨ ∃ n, live p = some n) :
    Total (free area.gHeap h p) fun h' => ∃ bs', Tiled area h' (release live p) bs' := by
  rcases hp with rfl | ⟨n, hp⟩
  · refine ⟨h, if_pos (Or.inl rfl), bs, ?_⟩
    rw [release, Function.update_eq_self_iff.mpr t.live_null.symm]
    exact t
  · obtain ⟨h', hfree, t', -⟩ := free_joins t hp
    exact ⟨h', hfree, _, t'⟩

theorem overflow_iff : size ≠ 0 ∧ nmemb > (2 ^ 32 - 1) / size ↔ 2 ^ 32 ≤ nmemb * size := by
  constructor
  · rintro ⟨hne, hlt⟩
    have := Nat.lt_mul_of_div_lt hlt (Nat.pos_of_ne_zero hne)
    omega
  · intro hle
    refine ⟨?_, Nat.div_lt_of_lt_mul (by rw [Nat.mul_comm]; omega)⟩
    rintro rfl
    omega

theorem calloc_of_overflow (hover : 2 ^ 32 ≤ nmemb * size) :
    calloc area.gHeap h nmemb size = some (0, h) :=
  if_pos (overflow_iff.mpr hover)

theorem calloc_of_fits {r : ℕ × Heap} (hfits : nmemb * size < 2 ^ 32)
    (hr : malloc area.gHeap h (nmemb * size) = some r) :
    calloc area.gHeap h nmemb size = some (r.1, if r.1 ≠ 0 then
      { r.2 with memory := r.2.memory.write r.1 (List.replicate (nmemb * size) 0) } else r.2) := by
  rw [calloc, if_neg (mt overflow_iff.mp (Nat.not_le.mpr hfits))]
  simp only [Nat.mod_eq_of_lt hfits, hr]
  rfl

/-- The zeros of `calloc` are stored into what `malloc` has granted. -/
theorem Tiled.zeroed {r : ℕ × Heap} (t : Tiled area r.2 (grant live r.1 n) bs) :
    Tiled area (if r.1 ≠ 0 then
        { r.2 with memory := r.2.memory.write r.1 (List.replicate n 0) } else r.2)
      (grant live r.1 n) bs := by
  split
  case isTrue hp =>
    refine t.write ?_ (Nat.le_refl r.1) (Nat.le_of_eq (by rw [List.length_replicate]))
    rw [grant_ne_null live hp, Function.update_self]
  case isFalse => exact t

theorem calloc_spec (t : Tiled area h live bs)
    (hsize : nmemb * size ≤ heapSize ∨ 2 ^ 32 ≤ nmemb * size) :
    Total (calloc area.gHeap h nmemb size) fun r =>
      ∃ bs', Tiled area r.2 (grant live r.1 (nmemb * size)) bs' := by
  by_cases hover : 2 ^ 32 ≤ nmemb * size
  · exact ⟨(0, h), calloc_of_overflow hover, bs, t⟩
  · have hfits := hsize.resolve_right hover
    obtain ⟨r, hr, ⟨bs', t'⟩, -⟩ := malloc_spec t (show nmemb * size + 16 ≤ 2 ^ 32 by
      unfold heapSize at hfits
      omega)
    exact ⟨_, calloc_of_fits (Nat.not_le.mp hover) hr, bs', t'.zeroed⟩

/-- What the program holds after `realloc` has returned `q` for `p`. -/
def reallocated (live : ℕ → Option ℕ) (p size q : ℕ) : ℕ → Option ℕ :=
  grant (if p ≠ 0 ∧ (size = 0 ∨ q ≠ 0) then release live p else live) q size

theorem reallocated_live (hp : p ≠ 0) (hq : q ≠ 0) :
    reallocated live p size q = Function.update (release live p) q (some size) := by
  rw [reallocated, if_pos ⟨hp, Or.inr hq⟩, grant_ne_null _ hq]

theorem realloc_spec (t : Tiled area h live bs) (hp : p = 0 ∨ ∃ n, live p = some n)
    (hsize : size + 16 ≤ 2 ^ 32) :
    Total (realloc area.gHeap h p size) fun r =>
      ∃ bs', Tiled area r.2 (reallocated live p size r.1) bs' := by
  rcases Nat.eq_zero_or_pos p with rfl | hpos
  · refine (malloc_spec t hsize).mono fun r _ hr => ?_
    rw [reallocated, if_neg (fun hcond => hcond.1 rfl)]
    exact hr.1
  have hne : p ≠ 0 := Nat.ne_of_gt hpos
  rcases Nat.eq_zero_or_pos size with rfl | hsizepos
  · rw [realloc, if_neg hne]
    refine Total.bind (free_spec t hp) fun h' _ ht => Total.pure ?_
    rw [reallocated, if_pos ⟨hne, Or.inl rfl⟩]
    exact ht
  obtain ⟨n, hn⟩ := hp.resolve_left hne
  cases hserved : area.resize p size bs with
  | none =>
    refine ⟨_, realloc_refused t hn hsizepos hsize hserved, bs, ?_⟩
    rw [reallocated, if_neg fun hcond => hcond.2.elim (Nat.ne_of_gt hsizepos) fun h0 => h0 rfl]
    exact t
  | some r =>
    obtain ⟨h', heq, t', hq, -⟩ := realloc_resize t hn hsizepos hsize hserved
    refine ⟨_, heq, r.2, ?_⟩
    rw [reallocated_live hne hq]
    exact t'

/-! ## Runs -/

/-- What a program does with the heap: it calls the functions and stores bytes. -/
inductive Call
  | malloc (size : ℕ)
  | free (ptr : ℕ)
  | calloc (nmemb size : ℕ)
  | realloc (ptr size : ℕ)
  | store (address : ℕ) (byte : UInt8)

/-- The heap of a process and the sizes requested for the pointers that the program holds. -/
structure Process where
  heap : Heap
  live : ℕ → Option ℕ

def Process.start (area : Area) (memory : Memory) : Process where
  heap := ⟨memory, 0, area.gHeap⟩
  live := fun _ => none

def Process.step (area : Area) (s : Process) : Call → Option Process
  | .malloc size => do
    let (p, h) ← malloc area.gHeap s.heap size
    return ⟨h, grant s.live p size⟩
  | .free ptr => do
    let h ← free area.gHeap s.heap ptr
    return ⟨h, release s.live ptr⟩
  | .calloc nmemb size => do
    let (p, h) ← calloc area.gHeap s.heap nmemb size
    return ⟨h, grant s.live p (nmemb * size)⟩
  | .realloc ptr size => do
    let (p, h) ← realloc area.gHeap s.heap ptr size
    return ⟨h, reallocated s.live ptr size p⟩
  | .store address byte => some { s with heap.memory := s.heap.memory.store8 address byte }

theorem no_overflow (hsize : size ≤ heapSize) : size + 16 ≤ 2 ^ 32 := by
  unfold heapSize at hsize
  omega

/-- The program asks for no more than the heap has, gives back only what it holds and stores
only into what it holds. A product that overflows is an error of `calloc`. -/
def Process.Permitted (s : Process) : Call → Prop
  | .malloc size => size ≤ heapSize
  | .free ptr => ptr = 0 ∨ ∃ n, s.live ptr = some n
  | .calloc nmemb size => nmemb * size ≤ heapSize ∨ 2 ^ 32 ≤ nmemb * size
  | .realloc ptr size => (ptr = 0 ∨ ∃ n, s.live ptr = some n) ∧ size ≤ heapSize
  | .store address _ => ∃ p n, s.live p = some n ∧ p ≤ address ∧ address < p + n

theorem Process.start_tiled (area : Area) (memory : Memory) :
    Tiled area (start area memory).heap (start area memory).live [] where
  head := rfl
  chain := trivial
  ends := rfl
  room := Nat.le_add_right _ _
  sizes b hb := by cases hb
  owned p n hp := by cases hp
  lives p b hb := by cases hb
  separated := List.isChain_nil

theorem Process.step_tiled {s : Process} {call : Call} (t : ∃ bs, Tiled area s.heap s.live bs)
    (hcall : s.Permitted call) :
    Total (s.step area call) fun s' => ∃ bs, Tiled area s'.heap s'.live bs := by
  obtain ⟨bs, t⟩ := t
  cases call with
  | malloc size =>
    exact Total.bind (malloc_spec t (no_overflow hcall)) fun r _ hr => Total.pure hr.1
  | free ptr => exact Total.bind (free_spec t hcall) fun h' _ ht => Total.pure ht
  | calloc nmemb size => exact Total.bind (calloc_spec t hcall) fun r _ hr => Total.pure hr
  | realloc ptr size =>
    exact Total.bind (realloc_spec t hcall.1 (no_overflow hcall.2)) fun r _ hr => Total.pure hr
  | store address byte =>
    obtain ⟨p, n, hp, hlow, hhigh⟩ := hcall
    have hlen : address + [byte].length ≤ p + n := hhigh
    exact Total.some ⟨bs, t.write hp hlow hlen⟩

/-- After every run the blocks tile the used part of the heap, the used blocks are the live
pointers with room for what was requested, their payloads are apart and no two neighbours are
free; with no live pointer there is at most one block. -/
theorem heap_run_tiled (area : Area) (memory : Memory) (calls : List Call)
    (hcalls : Total.Along (Process.step area) Process.Permitted (Process.start area memory) calls) :
    Total (calls.foldlM (Process.step area) (Process.start area memory)) fun s =>
      ∃ bs, Tiled area s.heap s.live bs ∧
        (∀ p b q c, (p, b) ∈ payloads header area.gHeap bs →
          (q, c) ∈ payloads header area.gHeap bs → p ≠ q → p + b.size ≤ q ∨ q + c.size ≤ p) ∧
        ((∀ p, s.live p = none) → bs = [] ∨
          ∃ n, bs = [⟨n, true⟩] ∧ area.gHeap + header + n = s.heap.gHeapEnd) := by
  refine (Total.foldlM (fun s call => Process.step_tiled) ⟨[], Process.start_tiled area memory⟩
    hcalls).mono fun s _ ht => ?_
  obtain ⟨bs, t⟩ := ht
  refine ⟨bs, t, ?_, ?_⟩
  · intro p b q c hb hc hne
    rcases payloads_apart hb hc with ⟨rfl, -⟩ | hlow | hhigh
    · exact absurd rfl hne
    · exact Or.inl (by omega)
    · exact Or.inr (by omega)
  · intro hnone
    have hfree : ∀ b ∈ bs, b.free = true := by
      intro b hb
      by_contra hused
      obtain ⟨xs, ys, rfl⟩ := List.append_of_mem hb
      obtain ⟨n, hn⟩ := t.lives _ b (mem_payloads_seam.mpr (Or.inr (Or.inl ⟨rfl, rfl⟩)))
        (by simpa using hused)
      rw [hnone] at hn
      cases hn
    rcases t.separated.all_free hfree with rfl | ⟨n, rfl⟩
    · exact Or.inl rfl
    · exact Or.inr ⟨n, rfl, t.ends.symm⟩

def lowArea : Area := ⟨16, by decide, by decide⟩

def growingRun : List Call := [.malloc 5, .store 28 7, .realloc 28 20, .free 48]

theorem growingRun_tiled :
    Total.Along (Process.step lowArea) Process.Permitted (Process.start lowArea fun _ => 0)
      growingRun ∧
    Total (growingRun.foldlM (Process.step lowArea) (Process.start lowArea fun _ => 0)) fun s =>
      ∃ bs, Tiled lowArea s.heap s.live bs ∧
        (∀ p b q c, (p, b) ∈ payloads header lowArea.gHeap bs →
          (q, c) ∈ payloads header lowArea.gHeap bs → p ≠ q → p + b.size ≤ q ∨ q + c.size ≤ p) ∧
        ((∀ p, s.live p = none) → bs = [] ∨
          ∃ n, bs = [⟨n, true⟩] ∧ lowArea.gHeap + header + n = s.heap.gHeapEnd) := by
  have hcalls : Total.Along (Process.step lowArea) Process.Permitted
      (Process.start lowArea fun _ => 0) growingRun := by
    refine ⟨(by decide : 5 ≤ heapSize), fun t ht => ?_⟩
    obtain rfl := Option.some.inj (Eq.trans (by rfl) ht)
    refine ⟨⟨28, 5, by rfl, by decide, by decide⟩, fun t ht => ?_⟩
    obtain rfl := Option.some.inj (Eq.trans (by rfl) ht)
    refine ⟨⟨Or.inr ⟨5, by rfl⟩, (by decide : 20 ≤ heapSize)⟩, fun t ht => ⟨Or.inr ⟨20, ?_⟩, ?_⟩⟩
    · have hlive := congrArg (fun r => r.bind (Process.live · 48)) ht
      exact hlive.symm.trans (by decide +kernel)
    · exact fun _ _ => trivial
  exact ⟨hcalls, heap_run_tiled lowArea (fun _ => 0) growingRun hcalls⟩

end LampUserspace.Stdlib
