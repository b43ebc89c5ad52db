import LampUserspace.Stdio.Filling

/-! # The outcomes of `getline`

A call that starts on a block of the caller, or on one that `malloc` accounts for,
refuses, meets the end of the file or delivers the line. When the size it asks for
wraps around, the capacity is never reached.
-/

namespace LampUserspace.Stdio

open Stdlib Tiling

/-- `*lineptr` is null, or a live block of at least `*n` bytes, one at least. -/
structure Usable (p : Process) (lineptr n : ℕ) : Prop where
  size : n < 2 ^ 32
  block : lineptr ≠ 0 → (∃ m, p.live lineptr = some m) ∧ 0 < n ∧
    n ≤ blockSize p.heap.memory (lineptr - header)

def starting (area : Area) (lineptr n : ℕ) (bs : List Block) : Option (ℕ × List Block) :=
  if lineptr ≠ 0 then some (lineptr, bs) else area.allocate (capacity n) bs

theorem capacity_pos (n : ℕ) : 0 < capacity n := by
  unfold capacity
  split <;> omega

/-- What the program holds besides the buffer: null is held by nobody. -/
theorem release_null {area : Area} {h : Heap} {live : ℕ → Option ℕ} {bs : List Block}
    (t : Tiled area h live bs) : release live 0 = live :=
  Function.update_eq_self_iff.mpr t.live_null.symm

section Calls

variable {area : Area} {p : Process} {bs : List Block} {lineptr n : ℕ} {s : Stream}

theorem getlineBuf_spec (t : Tiled area p.heap p.live bs) (hu : Usable p lineptr n)
    (haccount : lineptr ≠ 0 ∨ capacity n + 16 ≤ 2 ^ 32) :
    (starting area lineptr n bs = none ∧ lineptr = 0 ∧
        getlineBuf area.gHeap lineptr (capacity n) p = some (0, p)) ∨
      ∃ start p', starting area lineptr n bs = some start ∧ start.1 ≠ 0 ∧
        getlineBuf area.gHeap lineptr (capacity n) p = some (start.1, p') ∧
        (lineptr ≠ 0 → p' = p) ∧
        Doubled area (release p.live lineptr) (capacity n) start 0 start.2
          ⟨p', capacity n, start.1, 0, []⟩ [] := by
  by_cases hptr : lineptr ≠ 0
  · obtain ⟨⟨m, hm⟩, hpos, hfit⟩ := hu.block hptr
    have hcap : capacity n = n := if_pos (Nat.ne_of_gt hpos)
    have t' := t.keep hm (hcap.symm ▸ hfit)
    have hlive : Function.update (release p.live lineptr) lineptr (some (capacity n)) =
        Function.update p.live lineptr (some (capacity n)) := Function.update_idem ..
    rw [← hlive] at t'
    refine Or.inr ⟨(lineptr, bs), p, if_pos hptr, hptr, if_pos hptr, fun _ => rfl, ⟨?_, rfl, ?_⟩⟩
    · refine ⟨t', ⟨m, t.le_sizeAt hm, ?_⟩, Function.update_self .., rfl, capacity_pos n, ?_, ?_⟩
      · rw [release, Function.update_idem]
        exact (Function.update_eq_self_iff.mpr hm.symm).symm
      · exact fun i hi => absurd hi (Nat.not_lt_zero i)
      · exact fun x hx => absurd hx List.not_mem_nil
    · exact (Nat.mul_one _).symm
  · obtain rfl := not_not.mp hptr
    have hsize := haccount.resolve_left hptr
    have hstarting : starting area 0 n bs = area.allocate (capacity n) bs := if_neg hptr
    rw [hstarting, release_null t, getlineBuf, if_neg hptr]
    cases hserved : area.allocate (capacity n) bs with
    | none =>
      rw [malloc_refused t hsize hserved]
      exact Or.inl ⟨rfl, rfl, rfl⟩
    | some start =>
      obtain ⟨h', hmalloc, t', hq, hfresh⟩ := malloc_allocate t hsize hserved
      refine Or.inr ⟨start, ⟨h', Function.update p.live start.1 (some (capacity n))⟩, rfl, hq, ?_,
        fun h => absurd rfl h, ⟨?_, rfl, (Nat.mul_one _).symm⟩⟩
      · rw [hmalloc, Option.map_some, grant_ne_null _ hq]
      · refine ⟨t', ⟨_, t'.le_sizeAt (Function.update_self ..), rfl⟩, hfresh, rfl, capacity_pos n,
          ?_, ?_⟩
        · exact fun i hi => absurd hi (Nat.not_lt_zero i)
        · exact fun x hx => absurd hx List.not_mem_nil

/-- The call ends without a line, with the caller's variables as they were. -/
structure Fails (lineptr n : ℕ) (errno : Option Errno) (r : Got) : Prop where
  ret : r.ret = -1
  lineptr : r.lineptr = some lineptr
  n : r.n = some n
  errno : r.errno = errno

def RefusedCall (area : Area) (p : Process) (bs : List Block) (lineptr n : ℕ) (line : List UInt8)
    (r : Got) : Prop :=
  Fails lineptr n (some .ENOMEM) r ∧ ∃ start k bs' l text, starting area lineptr n bs = some start ∧
    Doubled area (release p.live lineptr) (capacity n) start k bs' l text ∧
    grown area (capacity n) start (k + 1) = none ∧ l.cap ≤ line.length ∧ r.process = l.process

def EmptyCall (p : Process) (lineptr n : ℕ) (s : Stream) (r : Got) : Prop :=
  Fails lineptr n none r ∧ s.bytes = [] ∧ r.process.live = p.live ∧ (lineptr ≠ 0 → r.process = p) ∧
    r.stores = [] ∧ Stream.Reads s r.stream 0

def FullCall (area : Area) (p : Process) (bs : List Block) (lineptr n : ℕ) (s : Stream)
    (r : Got) : Prop :=
  s.bytes ≠ [] ∧ r.ret = (Logical.line s.bytes).length ∧
    Stream.Reads s r.stream (Logical.line s.bytes).length ∧
    ∃ start k bs' l, starting area lineptr n bs = some start ∧
      Doubled area (release p.live lineptr) (capacity n) start k bs' l (Logical.line s.bytes) ∧
      r.process = (l.store 0).process ∧ r.lineptr = some l.buf ∧ r.n = some l.cap ∧
      r.stores = (l.store 0).stores

theorem getlineEnd_refused {e : Ending × Stream × Line} (he : e.1 = .refused) :
    getlineEnd area.gHeap lineptr n e.1 e.2.1 e.2.2 =
      some ⟨-1, some lineptr, some n, some .ENOMEM, e.2.2.process, e.2.1, e.2.2.stores⟩ :=
  if_pos he

theorem getlineEnd_full {e : Ending × Stream × Line} (he : e.1 ≠ .refused)
    (hlen : e.2.2.len ≠ 0) :
    getlineEnd area.gHeap lineptr n e.1 e.2.1 e.2.2 =
      some ⟨e.2.2.len, some e.2.2.buf, some e.2.2.cap, none, (e.2.2.store 0).process, e.2.1,
        (e.2.2.store 0).stores⟩ := by
  rw [getlineEnd, if_neg he, if_neg fun h => hlen h.1]

/-- At the end of the file, the buffer that the call itself obtained is given back. -/
theorem getlineEnd_empty (lineptr n : ℕ) {l : Line} {others : ℕ → Option ℕ} {bs' : List Block}
    (s' : Stream) (f : Filling area others bs' l []) :
    ∃ p', getlineEnd area.gHeap lineptr n .eof s' l =
        some ⟨-1, some lineptr, some n, none, p', s', l.stores⟩ ∧
      (lineptr ≠ 0 → p' = l.process) ∧ (lineptr = 0 → p'.live = others) ∧
      ∃ bs'', Tiled area p'.heap p'.live bs'' := by
  have hlen : l.len = 0 := f.length
  rw [getlineEnd, if_neg fun h => Ending.noConfusion h, if_pos ⟨hlen, rfl⟩]
  by_cases hptr : lineptr ≠ 0
  · exact ⟨_, if_pos hptr, fun _ => rfl, fun h => absurd h hptr, _, f.ledger⟩
  · obtain ⟨m, -, hm⟩ := f.held
    have hlive : l.process.live l.buf = some m := by rw [hm, Function.update_self]
    obtain ⟨h', hfree, t', -⟩ := free_joins f.ledger hlive
    refine ⟨⟨h', release l.process.live l.buf⟩, ?_, fun h => absurd h hptr, fun _ => ?_, _, t'⟩
    · rw [if_neg hptr, hfree]
      rfl
    · rw [hm, f.others_eq]

theorem getline_outcome (t : Tiled area p.heap p.live bs) (hs : s.WellFormed)
    (hu : Usable p lineptr n) (haccount : lineptr ≠ 0 ∨ capacity n + 16 ≤ 2 ^ 32) :
    Total (getline area.gHeap (some lineptr) (some n) s p) fun r =>
      (starting area lineptr n bs = none ∧ lineptr = 0 ∧ Fails lineptr n (some .ENOMEM) r ∧
        r.process = p) ∨
      RefusedCall area p bs lineptr n (Logical.line s.bytes) r ∨
      (EmptyCall p lineptr n s r ∧ ∃ bs', Tiled area r.process.heap r.process.live bs') ∨
      FullCall area p bs lineptr n s r := by
  unfold getline
  dsimp only
  rcases getlineBuf_spec t hu haccount with ⟨hnone, hptr, hbuf⟩ |
    ⟨start, p', hstart, hne, hbuf, hkept, d⟩
  · rw [hbuf]
    exact Total.intro rfl (Or.inl ⟨hnone, hptr, ⟨rfl, rfl, rfl, rfl⟩, rfl⟩)
  · obtain ⟨e, he, hend⟩ := getlineLoop_doubled hs d
    rw [hbuf, Option.bind_some, if_neg hne, he, Option.bind_some]
    rcases hend with ⟨hrefused, k, bs', l, text, d', hnone, hcap, hl⟩ |
      ⟨⟨hending, k, bs', d'⟩, hempty, hreads⟩
    · refine Total.intro (getlineEnd_refused hrefused) (Or.inr (Or.inl
        ⟨⟨rfl, rfl, rfl, rfl⟩, start, k, bs', l, text, hstart, d', hnone, hcap, ?_⟩))
      rw [hl]
    · by_cases hbytes : s.bytes = []
      · obtain ⟨heof, hl⟩ := hempty hbytes
        obtain ⟨p'', hend, hsame, hlive, htiled⟩ := getlineEnd_empty lineptr n e.2.1 d.filling
        rw [heof, hl]
        refine Total.intro hend (Or.inr (Or.inr (Or.inl ⟨⟨⟨rfl, rfl, rfl, rfl⟩, hbytes, ?_, ?_, rfl,
          ?_⟩, htiled⟩)))
        · by_cases hptr : lineptr = 0
          · rw [hlive hptr, hptr, release_null t]
          · rw [hsame hptr, hkept hptr]
        · exact fun hptr => (hsame hptr).trans (hkept hptr)
        · rw [hbytes] at hreads
          exact hreads
      · have hlen : e.2.2.len = (Logical.line s.bytes).length := d'.filling.length
        have hne : e.2.2.len ≠ 0 := by
          rw [hlen, ne_eq, List.length_eq_zero_iff]
          exact mt Stream.line_eq_nil.mp hbytes
        refine Total.intro (getlineEnd_full hending hne) (Or.inr (Or.inr (Or.inr ⟨hbytes, ?_,
          hreads, start, k, bs', e.2.2, hstart, d', rfl, rfl, rfl, rfl⟩)))
        rw [hlen]

theorem getline_tiled (t : Tiled area p.heap p.live bs) (hs : s.WellFormed)
    (hu : Usable p lineptr n) (haccount : lineptr ≠ 0 ∨ capacity n + 16 ≤ 2 ^ 32) :
    Total (getline area.gHeap (some lineptr) (some n) s p) fun r =>
      ∃ bs', Tiled area r.process.heap r.process.live bs' := by
  refine (getline_outcome t hs hu haccount).mono fun r _ hr => ?_
  rcases hr with ⟨-, -, -, hsame⟩ | ⟨-, start, k, bs', l, text, -, d, -, -, hprocess⟩ |
    ⟨-, htiled⟩ | ⟨-, -, -, start, k, bs', l, -, d, hprocess, -⟩
  · exact ⟨bs, hsame ▸ t⟩
  · exact ⟨bs', hprocess ▸ d.filling.ledger⟩
  · exact htiled
  · exact ⟨bs', hprocess ▸ (d.filling.store 0).1.ledger⟩

end Calls

/-! ## Sizes that wrap around -/

/-- In the top 15 sizes, what `malloc` does not refuse is fresh, and can be given back. -/
theorem malloc_wrapped {area : Area} {h : Heap} {live : ℕ → Option ℕ} {bs : List Block} {size : ℕ}
    (t : Tiled area h live bs) (hlt : size < 2 ^ 32) (hbig : ¬ size + 16 ≤ 2 ^ 32) :
    ∃ r, malloc area.gHeap h size = some r ∧
      (Refuses area h size ∧ r = (0, h) ∨
        ¬ Refuses area h size ∧ r.1 ≠ 0 ∧ live r.1 = none ∧
          ∃ h', free area.gHeap r.2 r.1 = some h') := by
  obtain ⟨r, hr, hrefuse, hnull⟩ := malloc_null_iff t size
  refine ⟨r, hr, ?_⟩
  by_cases hrefuses : Refuses area h size
  · exact Or.inl ⟨hrefuses, hrefuse hrefuses⟩
  have hne : r.1 ≠ 0 := fun h0 => hrefuses (hnull h0)
  refine Or.inr ⟨hrefuses, hne, ?_⟩
  have hwalk := mallocLoop_eq (wantedSize size) 0 area.pos t.length_lt t.chain
  rw [← t.head] at hwalk
  rcases hwalk with ⟨xs, b, ys, tail, hfound, hfind⟩ | ⟨-, hfind⟩
  · -- a free block is reused, and held with no byte asked for
    obtain ⟨rfl, hfree, -⟩ := firstFit_eq_some hfound
    have hxs : area.gHeap ≤ stop header area.gHeap xs := le_stop _ xs
    have hpos := area.pos
    obtain rfl := Option.some.inj
      ((malloc_of_found area.gHeap (by omega) hfind).symm.trans hr)
    have t' := t.hand_over (n := 0) (Nat.zero_le _) (t.chain.mark 0)
    obtain ⟨h', hfreed, -⟩ := free_spec t' (Or.inr ⟨0, Function.update_self ..⟩)
    exact ⟨t.not_live hfree, h', hfreed⟩
  · -- the heap grows by less than the header of the new block
    have heq := malloc_of_not_found area.gHeap (fun hne => hne rfl) rfl hfind
    have hgrowth : align4 ((header + align4 (if size ≠ 0 then size else 1)) % 2 ^ 32) ≤ header := by
      unfold align4 header
      split <;> omega
    have hroom : ¬ area.gHeap + heapSize - h.gHeapEnd <
        align4 ((header + align4 (if size ≠ 0 then size else 1)) % 2 ^ 32) := fun hroom =>
      hrefuses ⟨⟨_, hfind⟩, hroom⟩
    rw [if_neg hroom] at heq
    obtain rfl := Option.some.inj (heq.symm.trans hr)
    exact ⟨t.live_behind, _, if_pos (Or.inr (Or.inr (Nat.add_le_add_left hgrowth _)))⟩

theorem length_line_le (bytes : List UInt8) : (Logical.line bytes).length ≤ bytes.length := by
  induction bytes with
  | nil => exact Nat.le_refl _
  | cons c bytes ih =>
    unfold Logical.line
    split
    · simp
    · exact Nat.succ_le_succ ih

theorem getlineLoop_roomy (gHeap : ℕ) {s : Stream} {l : Line} (hs : s.WellFormed)
    (hroom : l.len + s.bytes.length + 1 < l.cap) :
    Total (getlineLoop gHeap s l) fun r =>
      r.1 ≠ .refused ∧ r.2.2.cap = l.cap ∧
        r.2.2.len = l.len + (Logical.line s.bytes).length ∧
        (s.bytes = [] → r.1 = .eof ∧ r.2.2 = l) ∧
        Stream.Reads s r.2.1 (Logical.line s.bytes).length := by
  have hline := length_line_le s.bytes
  have htakes : Takes gHeap (fun t l' => l'.cap = l.cap ∧ l'.len = l.len + t.length)
      (fun _ _ => False) (Logical.line s.bytes).length := by
    rintro t l' hlt ⟨hcap, hlen⟩
    refine Or.inr ⟨l', if_neg (by omega), fun c => ⟨hcap, ?_⟩⟩
    rw [List.length_append, ← Nat.add_assoc, ← hlen]
    rfl
  have hstart : l.cap = l.cap ∧ l.len = l.len + ([] : List UInt8).length := ⟨rfl, rfl⟩
  refine (getlineLoop_takes gHeap htakes hs hstart (Nat.le_refl _)).mono fun r _ hr => ?_
  rcases hr with ⟨-, t, -, hfalse⟩ | ⟨hending, ⟨hcap, hlen⟩, hrest⟩
  · exact absurd hfalse not_false
  · exact ⟨hending, hcap, hlen, hrest⟩

theorem length_bytes_le (s : Stream) : s.bytes.length ≤ 2 ^ 31 := by
  have hsize := s.kernel.size_lt
  have hahead : s.kernel.ahead.length ≤ s.kernel.file.length := by
    rw [Kernel.ahead, List.length_drop]
    exact Nat.sub_le _ _
  rw [Stream.bytes, List.length_append]
  split <;> simp <;> omega

/-- A call whose size wraps around is refused at once, meets the end of the file, or delivers the
line with a capacity that no block has. -/
theorem getline_wrapped {area : Area} {p : Process} {bs : List Block} {n : ℕ} {s : Stream}
    (t : Tiled area p.heap p.live bs) (hs : s.WellFormed) (hn : n < 2 ^ 32)
    (hbig : ¬ capacity n + 16 ≤ 2 ^ 32) :
    Total (getline area.gHeap (some 0) (some n) s p) fun r =>
      (Refuses area p.heap (capacity n) ∧ Fails 0 n (some .ENOMEM) r ∧ r.process = p) ∨
      EmptyCall p 0 n s r ∨
      (¬ Refuses area p.heap (capacity n) ∧ s.bytes ≠ [] ∧
        r.ret = (Logical.line s.bytes).length ∧ r.n = some (capacity n) ∧ r.errno = none) := by
  have hcap : capacity n < 2 ^ 32 := by
    unfold capacity
    split <;> omega
  have hlong := length_bytes_le s
  obtain ⟨m, hm, hcase⟩ := malloc_wrapped t hcap hbig
  have hbuf : getlineBuf area.gHeap 0 (capacity n) p =
      some (m.1, ⟨m.2, grant p.live m.1 (capacity n)⟩) := by
    rw [getlineBuf, if_neg fun h => h rfl, hm]
    rfl
  unfold getline
  dsimp only
  rw [hbuf, Option.bind_some]
  rcases hcase with ⟨hrefuses, rfl⟩ | ⟨haccepts, hne, hfresh, h', hfree⟩
  · exact Total.intro rfl (Or.inl ⟨hrefuses, ⟨rfl, rfl, rfl, rfl⟩, rfl⟩)
  · obtain ⟨e, he, hending, hecap, helen, hempty, hreads⟩ :=
      getlineLoop_roomy area.gHeap
        (l := ⟨⟨m.2, grant p.live m.1 (capacity n)⟩, capacity n, m.1, 0, []⟩) hs (by
          dsimp only
          omega)
    rw [if_neg hne, he, Option.bind_some]
    by_cases hbytes : s.bytes = []
    · obtain ⟨heof, hl⟩ := hempty hbytes
      rw [heof, hl, getlineEnd, if_neg fun h => Ending.noConfusion h, if_pos ⟨rfl, rfl⟩,
        if_neg fun h => h rfl]
      dsimp only
      rw [hfree]
      refine Total.intro rfl (Or.inr (Or.inl ⟨⟨rfl, rfl, rfl, rfl⟩, hbytes, ?_,
        fun h => absurd rfl h, rfl, ?_⟩))
      · rw [grant_ne_null _ hne, release, Function.update_idem]
        exact Function.update_eq_self_iff.mpr hfresh.symm
      · rw [hbytes] at hreads
        exact hreads
    · have hlen : e.2.2.len ≠ 0 := by
        rw [helen, Nat.zero_add, ne_eq, List.length_eq_zero_iff]
        exact mt Stream.line_eq_nil.mp hbytes
      refine Total.intro (getlineEnd_full hending hlen) (Or.inr (Or.inr
        ⟨haccepts, hbytes, ?_, ?_, rfl⟩))
      · rw [helen, Nat.zero_add]
      · rw [hecap]

end LampUserspace.Stdio
