import LampUserspace.Stdio.LineBuffer

/-! # Filling the buffer

The loop of `getline` keeps what it has read at the start of a block that the program
holds, with room for one more byte. The block doubles as `realloc` resizes it, and
which doublings are refused can be told from the list of blocks at the start.
-/

namespace LampUserspace.Stdio

open Stdlib Tiling

/-- The buffer, and the blocks, after so many doublings, or `none` when one of them is refused. -/
def grown (area : Area) (cap : ℕ) (start : ℕ × List Block) : ℕ → Option (ℕ × List Block)
  | 0 => some start
  | k + 1 => (grown area cap start k).bind fun r => area.resize r.1 (cap * 2 ^ (k + 1)) r.2

/-- The buffer holds the text, apart from what else the program holds, and has room for the text
and one more byte. -/
structure Filling (area : Area) (others : ℕ → Option ℕ) (bs : List Block) (l : Line)
    (text : List UInt8) : Prop where
  tiled : Tiled area l.process.heap (Function.update others l.buf (some l.cap)) bs
  held : ∃ m ≤ sizeAt header l.buf area.gHeap bs,
    l.process.live = Function.update others l.buf (some m)
  fresh : others l.buf = none
  length : l.len = text.length
  room : text.length < l.cap
  bytes : ∀ i (hi : i < text.length), l.process.heap.memory (l.buf + i) = text[i]
  inside : ∀ x ∈ l.stores, x.1 < x.2

variable {area : Area} {others : ℕ → Option ℕ} {bs bs' : List Block} {l : Line}
  {text : List UInt8} {q : ℕ}

namespace Filling

theorem live (_ : Filling area others bs l text) :
    Function.update others l.buf (some l.cap) l.buf = some l.cap := Function.update_self ..

theorem buf_ne_null (f : Filling area others bs l text) : l.buf ≠ 0 := f.tiled.live_ne_null f.live

theorem cap_le (f : Filling area others bs l text) :
    l.cap ≤ blockSize l.process.heap.memory (l.buf - header) := by
  obtain ⟨xs, b, ys, -, -, -, hfit, hsize⟩ := f.tiled.live_split f.live
  omega

theorem ledger (f : Filling area others bs l text) :
    Tiled area l.process.heap l.process.live bs := by
  obtain ⟨m, hm, hlive⟩ := f.held
  rw [f.tiled.sizeAt_eq f.live] at hm
  have t := f.tiled.keep f.live hm
  rw [Function.update_idem] at t
  rwa [hlive]

theorem cap_le_heapSize (f : Filling area others bs l text) : l.cap ≤ heapSize := by
  have hend := f.tiled.live_end f.live
  have hlow := (f.tiled.live_bounds f.live).1
  omega

/-- The block lies in the heap, apart from what else the program holds. -/
theorem granted (f : Filling area others bs l text) :
    Granted area others l.cap (l.buf, l.process.heap) := by
  have t := f.tiled
  rw [← grant_ne_null others f.buf_ne_null] at t
  exact t.granted_new f.buf_ne_null f.fresh

/-! ## A store -/

theorem store (f : Filling area others bs l text) (c : UInt8) :
    Filling area others bs (l.store c) text ∧
      (l.store c).process.heap.memory (l.buf + text.length) = c := by
  have hroom := f.room
  have hcap := f.cap_le
  have hat : l.buf + l.len = l.buf + text.length := by rw [f.length]
  constructor
  · constructor
    · have hend : l.buf + l.len + [c].length ≤ l.buf + l.cap := by
        rw [f.length, List.length_singleton]
        omega
      exact f.tiled.write f.live (Nat.le_add_right l.buf l.len) hend
    · exact f.held
    · exact f.fresh
    · exact f.length
    · exact f.room
    · intro i hi
      have hne : l.buf + i ≠ l.buf + l.len := by
        rw [hat]
        omega
      exact (Memory.store8_ne c hne).trans (f.bytes i hi)
    · intro x hx
      rcases List.mem_append.mp hx with hx | hx
      · exact f.inside x hx
      · obtain rfl := List.mem_singleton.mp hx
        rw [f.length]
        exact Nat.lt_of_lt_of_le hroom hcap
  · rw [← hat]
    exact Memory.store8_same ..

theorem bytes_store (f : Filling area others bs l text) (c : UInt8) :
    ∀ i (hi : i < (text ++ [c]).length),
      (l.store c).process.heap.memory (l.buf + i) = (text ++ [c])[i] := by
  obtain ⟨f', hlast⟩ := f.store c
  intro i hi
  rw [List.length_append, List.length_singleton] at hi
  by_cases hlt : i < text.length
  · rw [List.getElem_append_left hlt]
    exact f'.bytes i hlt
  · obtain rfl : i = text.length := by omega
    rw [List.getElem_concat_length rfl]
    exact hlast

theorem read_store (f : Filling area others bs l text) (c : UInt8) :
    (l.store c).process.heap.memory.read l.buf (text.length + 1) = text ++ [c] := by
  apply List.ext_getElem
  · rw [Memory.length_read, List.length_append, List.length_singleton]
  · intro i hi hi'
    exact (Memory.getElem_read _ _ _ hi).trans (f.bytes_store c i hi')

theorem put (f : Filling area others bs l text) (hroom : text.length + 1 < l.cap) (c : UInt8) :
    Filling area others bs (l.put c) (text ++ [c]) := by
  obtain ⟨f', -⟩ := f.store c
  refine ⟨f'.tiled, f'.held, f'.fresh, ?_, ?_, f.bytes_store c, f'.inside⟩
  · rw [List.length_append, List.length_singleton, ← f.length]
    rfl
  · rw [List.length_append, List.length_singleton]
    exact hroom

/-! ## A doubling -/

theorem others_eq (f : Filling area others bs l text) (k : Option ℕ) :
    release (Function.update others l.buf k) l.buf = others := by
  rw [release, Function.update_idem]
  exact Function.update_eq_self_iff.mpr f.fresh.symm

theorem doubled (f : Filling area others bs l text) :
    l.cap * 2 % 2 ^ 32 = l.cap * 2 ∧ 0 < l.cap * 2 ∧ l.cap * 2 + 16 ≤ 2 ^ 32 := by
  have hroom := f.room
  have hcap := f.cap_le_heapSize
  unfold heapSize at hcap
  omega

theorem grow_refused (f : Filling area others bs l text)
    (hnone : area.resize l.buf (l.cap * 2) bs = none) :
    l.grow area.gHeap = some (false, { l with cap := l.cap * 2 }) := by
  obtain ⟨hmod, hpos, hsize⟩ := f.doubled
  have hrealloc := realloc_refused f.tiled f.live hpos hsize hnone
  have hlive : reallocated l.process.live l.buf (l.cap * 2) 0 = l.process.live := by
    have hcond : ¬ (l.buf ≠ 0 ∧ (l.cap * 2 = 0 ∨ (0 : ℕ) ≠ 0)) := by omega
    rw [reallocated, if_neg hcond]
    rfl
  unfold Line.grow
  simp only [hmod, hrealloc, Option.bind_eq_bind, Option.bind_some, hlive]
  rfl

theorem grow_served (f : Filling area others bs l text)
    (hserved : area.resize l.buf (l.cap * 2) bs = some (q, bs')) :
    ∃ l', l.grow area.gHeap = some (true, l') ∧ Filling area others bs' l' text ∧ l'.buf = q ∧
      l'.cap = l.cap * 2 := by
  obtain ⟨hmod, hpos, hsize⟩ := f.doubled
  obtain ⟨h', hrealloc, t', hq, hfresh⟩ := realloc_resize f.tiled f.live hpos hsize hserved
  rw [f.others_eq] at t' hfresh
  have hlive : reallocated l.process.live l.buf (l.cap * 2) q =
      Function.update others q (some (l.cap * 2)) := by
    obtain ⟨m, -, hm⟩ := f.held
    rw [reallocated, if_pos ⟨f.buf_ne_null, Or.inr hq⟩, grant_ne_null _ hq, hm, f.others_eq]
  have hbytes : ∀ i < l.cap, h'.memory (q + i) = l.process.heap.memory (l.buf + i) := by
    obtain ⟨r, hr, ⟨h0, -⟩ | ⟨-, hkept, -⟩⟩ := realloc_reallocates f.tiled f.live hpos hsize
    · obtain rfl := Option.some.inj (hrealloc.symm.trans hr)
      exact absurd h0 hq
    · obtain rfl := Option.some.inj (hrealloc.symm.trans hr)
      exact fun i hi => hkept i (by omega)
  refine ⟨⟨⟨h', Function.update others q (some (l.cap * 2))⟩, l.cap * 2, q, l.len, l.stores⟩,
    ?_, ?_, rfl, rfl⟩
  · unfold Line.grow
    simp only [hmod, hrealloc, Option.bind_eq_bind, Option.bind_some, hlive, if_pos hq,
      decide_eq_true hq]
    rfl
  · have hroom := f.room
    have hfit : l.cap * 2 ≤ sizeAt header q area.gHeap bs' :=
      t'.le_sizeAt (Function.update_self ..)
    refine ⟨t', ⟨_, hfit, rfl⟩, hfresh, f.length, by dsimp only; omega, ?_, f.inside⟩
    intro i hi
    exact (hbytes i (by omega)).trans (f.bytes i hi)

end Filling

/-- A buffer that holds the text after `k` doublings of the capacity at the start. -/
structure Doubled (area : Area) (others : ℕ → Option ℕ) (cap : ℕ) (start : ℕ × List Block) (k : ℕ)
    (bs : List Block) (l : Line) (text : List UInt8) : Prop where
  filling : Filling area others bs l text
  grown : grown area cap start k = some (l.buf, bs)
  cap_eq : l.cap = cap * 2 ^ k

variable {cap k : ℕ} {start : ℕ × List Block}

namespace Doubled

theorem resize_eq (d : Doubled area others cap start k bs l text) :
    Stdio.grown area cap start (k + 1) = area.resize l.buf (l.cap * 2) bs := by
  rw [Stdio.grown, d.grown, d.cap_eq, Nat.mul_assoc, ← Nat.pow_succ]
  rfl

theorem put (d : Doubled area others cap start k bs l text) (hroom : text.length + 1 < l.cap)
    (c : UInt8) : Doubled area others cap start k bs (l.put c) (text ++ [c]) :=
  ⟨d.filling.put hroom c, d.grown, d.cap_eq⟩

/-- Before a byte is stored there is room for it and one more, unless the doubling is refused. -/
theorem ready (d : Doubled area others cap start k bs l text) :
    l.cap ≤ text.length + 1 ∧ Stdio.grown area cap start (k + 1) = none ∧
        l.ready area.gHeap = some (false, { l with cap := l.cap * 2 }) ∨
      ∃ k' bs' l', l.ready area.gHeap = some (true, l') ∧
        Doubled area others cap start k' bs' l' text ∧ text.length + 1 < l'.cap := by
  have hlen := d.filling.length
  have hroom := d.filling.room
  by_cases hgrow : l.len + 1 ≥ l.cap
  · cases hserved : area.resize l.buf (l.cap * 2) bs with
    | none =>
      refine Or.inl ⟨by omega, d.resize_eq.trans hserved, ?_⟩
      rw [Line.ready, if_pos hgrow, d.filling.grow_refused hserved]
    | some r =>
      obtain ⟨q, bs'⟩ := r
      obtain ⟨l', heq, f', rfl, hcap⟩ := d.filling.grow_served hserved
      refine Or.inr ⟨k + 1, bs', l', ?_, ⟨f', d.resize_eq.trans hserved, ?_⟩, by omega⟩
      · rw [Line.ready, if_pos hgrow, heq]
      · rw [hcap, d.cap_eq, Nat.mul_assoc, ← Nat.pow_succ]
  · exact Or.inr ⟨k, bs, l, if_neg hgrow, d, by omega⟩

end Doubled

/-- The loop stops at a doubling that is refused, before it has read the whole line. -/
def Stops (area : Area) (others : ℕ → Option ℕ) (cap : ℕ) (start : ℕ × List Block)
    (line : List UInt8) (r : Ending × Stream × Line) : Prop :=
  r.1 = .refused ∧ ∃ k bs l text, Doubled area others cap start k bs l text ∧
    Stdio.grown area cap start (k + 1) = none ∧ l.cap ≤ line.length ∧
    r.2.2 = { l with cap := l.cap * 2 }

def Finishes (area : Area) (others : ℕ → Option ℕ) (cap : ℕ) (start : ℕ × List Block)
    (line : List UInt8) (r : Ending × Stream × Line) : Prop :=
  r.1 ≠ .refused ∧ ∃ k bs, Doubled area others cap start k bs r.2.2 line

theorem getlineLoop_doubled {s : Stream} (hs : s.WellFormed)
    (d : Doubled area others cap start k bs l text) :
    Total (getlineLoop area.gHeap s l) fun r =>
      Stops area others cap start (text ++ Logical.line s.bytes) r ∨
      Finishes area others cap start (text ++ Logical.line s.bytes) r ∧
        (s.bytes = [] → r.1 = .eof ∧ r.2.2 = l) ∧
        Stream.Reads s r.2.1 (Logical.line s.bytes).length := by
  have htakes : Takes area.gHeap (fun t l => ∃ k bs, Doubled area others cap start k bs l t)
      (fun t l' => ∃ k bs l, Doubled area others cap start k bs l t ∧
        Stdio.grown area cap start (k + 1) = none ∧ l.cap ≤ t.length + 1 ∧
        l' = { l with cap := l.cap * 2 }) (text ++ Logical.line s.bytes).length := by
    rintro t l - ⟨k, bs, d⟩
    rcases d.ready with ⟨hfull, hnone, hready⟩ | ⟨k', bs', l', hready, d', hroom⟩
    · exact Or.inl ⟨_, hready, k, bs, l, d, hnone, hfull, rfl⟩
    · exact Or.inr ⟨l', hready, fun c => ⟨k', bs', d'.put hroom c⟩⟩
  refine (getlineLoop_takes area.gHeap htakes hs ⟨k, bs, d⟩ (Nat.le_refl _)).mono
    fun r _ hr => ?_
  rcases hr with ⟨hrefused, t, hlt, k', bs', l', d', hnone, hfull, hl⟩ | ⟨hending, hr, hrest⟩
  · exact Or.inl ⟨hrefused, k', bs', l', t, d', hnone, by omega, hl⟩
  · exact Or.inr ⟨⟨hending, hr⟩, hrest⟩

end LampUserspace.Stdio
