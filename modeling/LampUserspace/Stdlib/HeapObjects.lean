import LampUserspace.Memory.Objects
import LampUserspace.Stdlib.HeapMoves

/-! # Objects on the heap

The blocks that a program holds are objects beside those it has elsewhere, in
its data and on its stack. `malloc`, `free`, `calloc` and `realloc` make, remove,
clear and move one object and keep the known bytes of the others.
-/

namespace LampUserspace.Stdlib

open Tiling

def allocatedSize : Option Object → Option ℕ
  | some ⟨true, bytes⟩ => some bytes.length
  | _ => none

def sizes (c : Objects) : ℕ → Option ℕ := allocatedSize ∘ c

/-- An object that is not allocated lies outside the heap. -/
def OffHeap (area : Area) (c : Objects) : Prop :=
  ∀ p bytes, c p = some ⟨false, bytes⟩ → 0 < p ∧ p + bytes.length ≤ 2 ^ 32 ∧
    (p + bytes.length ≤ area.gHeap ∨ area.gHeap + heapSize ≤ p)

/-- The objects lie in memory: those allocated are the blocks of the heap that the program holds,
no two have an address in common, and the memory has their known bytes. -/
structure Laid (area : Area) (h : Heap) (c : Objects) : Prop where
  tiled : ∃ bs, Tiled area h (sizes c) bs
  outside : OffHeap area c
  apart : c.Apart
  shows : c.Shows h.memory

variable {area : Area} {h h' : Heap} {c : Objects} {p q n size nmemb : ℕ} {o : Object}
  {bytes : List (Option UInt8)} {bs : List Block}

theorem sizes_eq_some :
    sizes c p = some n ↔ ∃ bytes, c p = some ⟨true, bytes⟩ ∧ bytes.length = n := by
  unfold sizes
  rw [Function.comp_apply]
  constructor
  · intro hn
    match hp : c p, hn with
    | some ⟨true, bytes⟩, hn => exact ⟨bytes, rfl, Option.some.inj hn⟩
  · rintro ⟨bytes, hp, rfl⟩
    rw [hp]
    rfl

theorem sizes_update (c : Objects) (p : ℕ) (v : Option Object) :
    sizes (Function.update c p v) = Function.update (sizes c) p (allocatedSize v) :=
  Function.comp_update _ _ _ _

theorem OffHeap.update (hc : OffHeap area c) (p : ℕ) {v : Option Object}
    (hv : ∀ bytes, v = some ⟨false, bytes⟩ →
      ∃ bytes', c p = some ⟨false, bytes'⟩ ∧ bytes'.length = bytes.length) :
    OffHeap area (Function.update c p v) := by
  intro q bytes hq
  by_cases heq : q = p
  · subst heq
    rw [Function.update_self] at hq
    obtain ⟨bytes', hold, hlength⟩ := hv bytes hq
    exact hlength ▸ hc q bytes' hold
  · rw [Function.update_of_ne heq] at hq
    exact hc q bytes hq

theorem OffHeap.allocate (hc : OffHeap area c) (p : ℕ) (bytes : List (Option UInt8)) :
    OffHeap area (Function.update c p (some ⟨true, bytes⟩)) :=
  hc.update p fun _ h => by cases h

theorem OffHeap.erase (hc : OffHeap area c) (p : ℕ) : OffHeap area (Function.update c p none) :=
  hc.update p fun _ h => by cases h

theorem live_apart {live : ℕ → Option ℕ} {m : ℕ} (t : Tiled area h live bs) (hp : live p = some m)
    (hq : live q = some n) (hne : p ≠ q) : p + m ≤ q ∨ q + n ≤ p := by
  obtain ⟨b, hb, -, hm⟩ := t.owned p m hp
  obtain ⟨b', hb', -, hn⟩ := t.owned q n hq
  rcases payloads_apart hb hb' with ⟨heq, -⟩ | hbefore | hafter
  · exact absurd heq hne
  · exact Or.inl (by omega)
  · exact Or.inr (by omega)

theorem Laid.bounds (l : Laid area h c) (hp : c p = some o) :
    0 < p ∧ p + o.bytes.length ≤ 2 ^ 32 := by
  obtain ⟨_ | _, bytes⟩ := o
  · exact ⟨(l.outside p bytes hp).1, (l.outside p bytes hp).2.1⟩
  · obtain ⟨bs, t⟩ := l.tiled
    have hlive := sizes_eq_some.mpr ⟨bytes, hp, rfl⟩
    exact ⟨Nat.pos_of_ne_zero (t.live_ne_null hlive), Nat.le_trans (t.live_end hlive) area.room⟩

theorem Laid.address_ne_null (l : Laid area h c) {a : Place} (ha : c a.object = some o) :
    a.address ≠ 0 := by
  have hpos := (l.bounds ha).1
  unfold Place.address
  omega

/-! ## One object more or less -/

theorem laid_allocate (hout : OffHeap area c) (hapart : c.Apart) (hshows : c.Shows h.memory)
    (t : Tiled area h' (Function.update (sizes c) p (some bytes.length)) bs)
    (hfresh : sizes c p = none) (hkept : c.KeptOff p h.memory h'.memory)
    (hknown : Known h'.memory p bytes) :
    c p = none ∧ Laid area h' (Function.update c p (some ⟨true, bytes⟩)) := by
  have hself : Function.update (sizes c) p (some bytes.length) p = some bytes.length :=
    Function.update_self _ _ _
  have hlow := (t.live_bounds hself).1
  have hend := t.live_end hself
  have hbefore := t.room
  have hhigh := (t.live_bounds hself).2
  have h12 : header = 12 := rfl
  have hnone : c p = none := by
    match hp : c p with
    | none => rfl
    | some ⟨true, old⟩ => rw [sizes_eq_some.mpr ⟨old, hp, rfl⟩] at hfresh; cases hfresh
    | some ⟨false, old⟩ =>
      rcases (hout p old hp).2.2 with hle | hge <;> omega
  refine ⟨hnone, ⟨bs, ?_⟩, hout.allocate p bytes, hapart.update fun q o' hq hne => ?_,
    hshows.update hkept hknown⟩
  · rw [sizes_update]
    exact t
  · obtain ⟨_ | _, old⟩ := o'
    · rcases (hout q old hq).2.2 with hle | hge
      · exact Or.inr (by dsimp only; omega)
      · exact Or.inl (by dsimp only; omega)
    · have hlive : Function.update (sizes c) p (some bytes.length) q = some old.length := by
        rw [Function.update_of_ne hne]
        exact sizes_eq_some.mpr ⟨old, hq, rfl⟩
      exact live_apart t hself hlive hne.symm

theorem Laid.erase (l : Laid area h c) (t : Tiled area h' (release (sizes c) p) bs)
    (hkept : c.KeptOff p h.memory h'.memory) : Laid area h' (Function.update c p none) where
  tiled := ⟨bs, by rw [sizes_update]; exact t⟩
  outside := l.outside.erase p
  apart := l.apart.erase p
  shows := l.shows.erase hkept

/-! ## The functions -/

theorem Laid.malloc_kept (l : Laid area h c) (hsize : size + 16 ≤ 2 ^ 32) {r : ℕ × Heap}
    (hr : malloc area.gHeap h size = some r) : c.Kept h.memory r.2.memory := by
  obtain ⟨bs, t⟩ := l.tiled
  rintro p ⟨_ | _, bytes⟩ hp x hlow hhigh
  · refine malloc_frame t hsize hr ?_
    rcases (l.outside p bytes hp).2.2 with hle | hge
    · exact Or.inl (Nat.lt_of_lt_of_le hhigh hle)
    · exact Or.inr (Nat.le_trans hge hlow)
  · obtain ⟨b, hb, -, hfit⟩ := t.owned p _ (sizes_eq_some.mpr ⟨bytes, hp, rfl⟩)
    have hroom := Nat.add_le_add_left hfit p
    exact (malloc_keeps t hsize hr hb).2 x hlow (Nat.lt_of_lt_of_le hhigh hroom)

theorem Laid.malloc (l : Laid area h c) (hsize : size + 16 ≤ 2 ^ 32) :
    Total (malloc area.gHeap h size) fun r =>
      c.Kept h.memory r.2.memory ∧
        ∃ c', Objects.fresh c r.1 (List.replicate size none) = some c' ∧ Laid area r.2 c' := by
  obtain ⟨bs, t⟩ := l.tiled
  refine (malloc_spec t hsize).mono fun r hr ⟨⟨bs', t'⟩, hfresh⟩ => ?_
  have hkept := l.malloc_kept hsize hr
  refine ⟨hkept, ?_⟩
  by_cases hnull : r.1 = 0
  · rw [hnull, grant, if_pos rfl] at t'
    exact ⟨c, if_pos hnull, ⟨bs', t'⟩, l.outside, l.apart, l.shows.kept hkept⟩
  · have hlength : (List.replicate size (none : Option UInt8)).length = size :=
      List.length_replicate
    rw [grant_ne_null _ hnull, ← hlength] at t'
    obtain ⟨hnone, l'⟩ := laid_allocate l.outside l.apart l.shows t' hfresh (hkept.off _)
      (known_unknown _ _ _)
    exact ⟨_, Objects.fresh_eq hnull hnone, l'⟩

theorem Laid.free (l : Laid area h c) (hp : c p = some ⟨true, bytes⟩) :
    Total (free area.gHeap h p) fun h' => Laid area h' (Function.update c p none) := by
  obtain ⟨bs, t⟩ := l.tiled
  obtain ⟨h', hfree, t', hframe⟩ := free_joins t (sizes_eq_some.mpr ⟨bytes, hp, rfl⟩)
  refine ⟨h', hfree, l.erase t' fun q o hq hne x hlow hhigh => hframe x ?_⟩
  obtain ⟨_ | _, old⟩ := o
  · refine offHeaders_of_outside ?_
    have hstop := t.stop_le
    rcases (l.outside q old hq).2.2 with hle | hge
    · exact Or.inl (Nat.lt_of_lt_of_le hhigh hle)
    · exact Or.inr (by omega)
  · obtain ⟨b, hb, -, hfit⟩ := t.owned q _ (sizes_eq_some.mpr ⟨old, hq, rfl⟩)
    exact offHeaders_of_payload hb hlow (Nat.lt_of_lt_of_le hhigh (Nat.add_le_add_left hfit q))

theorem write_outside {live : ℕ → Option ℕ} {a : ℕ} {bytes : List UInt8} (t : Tiled area h live bs)
    (hout : a + bytes.length ≤ area.gHeap ∨ area.gHeap + heapSize ≤ a) :
    Tiled area { h with memory := h.memory.write a bytes } live bs := by
  have hstop := t.stop_le
  have hframe : ∀ x, x < a ∨ a + bytes.length ≤ x → h.memory.write a bytes x = h.memory x := by
    rintro x (hx | hx)
    · exact Memory.write_of_lt hx
    · exact Memory.write_of_ge hx
  refine { t with chain := t.chain.congr_outside hframe fun q c hc => ?_ }
  have hbounds := payloads_bounds hc
  rcases hout with hout | hout
  · exact Or.inr (by omega)
  · exact Or.inl (by omega)

theorem Laid.put (l : Laid area h c) {a : Place} {bytes : List UInt8} {c' : Objects}
    (hput : Objects.put c a bytes = some c') :
    Laid area { h with memory := h.memory.write a.address bytes } c' := by
  obtain ⟨o, ho, hput⟩ := Option.bind_eq_some_iff.mp hput
  split at hput
  case isFalse => cases hput
  case isTrue hfit =>
    obtain rfl := Option.some.inj hput
    obtain ⟨bs, t⟩ := l.tiled
    have hlength := length_overwrite hfit
    have hsame : allocatedSize (some { o with bytes := overwrite o.bytes a.offset bytes }) =
        allocatedSize (c a.object) := by
      rw [ho]
      obtain ⟨_ | _, old⟩ := o
      · rfl
      · exact congrArg some hlength
    have hsizes : sizes (Function.update c a.object
        (some { o with bytes := overwrite o.bytes a.offset bytes })) = sizes c := by
      rw [sizes_update, hsame]
      exact Function.update_eq_self _ _
    refine ⟨⟨bs, ?_⟩, l.outside.update _ fun new hnew => ?_,
      l.apart.update fun q o' hq hne => ?_, ?_⟩
    · rw [hsizes]
      obtain ⟨_ | _, old⟩ := o
      · refine write_outside t ?_
        have hout := (l.outside _ old ho).2.2
        unfold Place.address
        dsimp only at hfit
        omega
      · exact t.write (sizes_eq_some.mpr ⟨old, ho, rfl⟩) (Nat.le_add_right _ _)
          (by unfold Place.address; dsimp only at hfit; omega)
    · obtain ⟨_ | _, old⟩ := o
      · have hbytes : overwrite old a.offset bytes = new := by
          simpa using hnew
        exact ⟨old, ho, hbytes ▸ hlength.symm⟩
      · simp at hnew
    · rw [hlength]
      exact l.apart _ _ o o' ho hq hne.symm
    · exact l.shows.update (l.apart.keptOff_write ho h.memory hfit) ((l.shows _ o ho).write hfit)

theorem Laid.fill {c' : Objects} {bytes : List UInt8} (l : Laid area h c')
    (hfresh : Objects.fresh c q (List.replicate n none) = some c') (hq : q ≠ 0)
    (hlength : bytes.length = n) :
    ∃ c'', Objects.fresh c q (bytes.map some) = some c'' ∧
      Laid area { h with memory := h.memory.write q bytes } c'' := by
  rw [Objects.fresh, if_neg hq] at hfresh ⊢
  split at hfresh
  case isFalse => cases hfresh
  case isTrue hnone =>
    obtain rfl := Option.some.inj hfresh
    have hput : Objects.put (Function.update c q (some ⟨true, List.replicate n none⟩)) ⟨q, 0⟩
        bytes = some (Function.update c q (some ⟨true, bytes.map some⟩)) := by
      have hroom : 0 + bytes.length ≤ n := by omega
      simp only [Objects.put, Function.update_self, Option.bind_eq_bind, Option.bind_some,
        List.length_replicate, if_pos hroom, Function.update_idem,
        overwrite_replicate n none hlength]
    exact ⟨_, if_pos hnone, l.put hput⟩

theorem Laid.calloc (l : Laid area h c)
    (hsize : nmemb * size + 16 ≤ 2 ^ 32 ∨ 2 ^ 32 ≤ nmemb * size) :
    Total (calloc area.gHeap h nmemb size) fun r =>
      ∃ c', Objects.fresh c r.1 (List.replicate (nmemb * size) (some 0)) = some c' ∧
        Laid area r.2 c' := by
  by_cases hover : 2 ^ 32 ≤ nmemb * size
  · exact ⟨(0, h), calloc_of_overflow hover, c, rfl, l⟩
  · obtain ⟨r, hr, -, c', hfresh, l'⟩ := l.malloc (hsize.resolve_right hover)
    refine ⟨_, calloc_of_fits (Nat.not_le.mp hover) hr, ?_⟩
    by_cases hnull : r.1 = 0
    · rw [hnull] at hfresh ⊢
      exact ⟨c', hfresh, l'⟩
    · have hzeros := l'.fill hfresh hnull (List.length_replicate (n := nmemb * size) (a := 0))
      rw [List.map_replicate] at hzeros
      simp only [hnull, ne_eq, not_false_eq_true, if_true]
      exact hzeros

theorem realloc_frame {live : ℕ → Option ℕ} {m x : ℕ} {r : ℕ × Heap} (t : Tiled area h live bs)
    (hp : live p = some m) (hn : 0 < size) (hsize : size + 16 ≤ 2 ^ 32)
    (hr : realloc area.gHeap h p size = some r)
    (hx : x < area.gHeap ∨ area.gHeap + heapSize ≤ x) : r.2.memory x = h.memory x := by
  rw [realloc, if_neg (t.live_ne_null hp), if_neg (Nat.ne_of_gt hn)] at hr
  by_cases hkeep : blockSize h.memory (p - header) ≥ size
  · obtain rfl := Option.some.inj ((if_pos hkeep).symm.trans hr)
    rfl
  dsimp only at hr
  rw [if_neg hkeep] at hr
  obtain ⟨r₁, hmalloc, ⟨bs₁, t₁⟩, hfresh⟩ := malloc_spec t hsize
  have hframe := malloc_frame t hsize hmalloc hx
  rw [hmalloc] at hr
  by_cases hq : r₁.1 = 0
  · simp only [Option.bind_eq_bind, Option.bind_some, hq, ne_eq, not_true, if_false] at hr
    obtain rfl := Option.some.inj hr
    exact hframe
  · obtain ⟨b, hb, -, -⟩ := t.owned p m hp
    have hsame := (malloc_keeps t hsize hmalloc hb).1
    simp only [Option.bind_eq_bind, Option.bind_some, hsame] at hr
    rw [if_pos hq] at hr
    generalize hk : (if b.size < size then b.size else size) = k at hr
    have hle : k ≤ size := by
      rw [← hk]
      split <;> omega
    obtain ⟨h', hfree, hret⟩ := Option.bind_eq_some_iff.mp hr
    obtain rfl := Option.some.inj hret
    have hnew : grant live r₁.1 size r₁.1 = some size := by
      rw [grant_ne_null live hq, Function.update_self]
    have hold : grant live r₁.1 size p = some m := by
      rw [grant_ne_null live hq, Function.update_of_ne (ne_of_fresh hp hfresh), hp]
    -- the copy goes into the new block
    have t₂ := t₁.copied hnew p hle
    have hlow := (t₁.live_bounds hnew).1
    have hhigh := t₁.live_end hnew
    have hstop := t₂.stop_le
    calc
      h'.memory x = r₁.2.memory.write r₁.1 (r₁.2.memory.read p k) x :=
        free_keeps t₂ hold hfree (offHeaders_of_outside (by omega))
      _ = r₁.2.memory x :=
        (Memory.write_read r₁.2.memory r₁.2.memory p r₁.1 k).2 x (by omega)
      _ = h.memory x := hframe

/-- A block that is reallocated keeps its known bytes as far as it has them still. -/
theorem Laid.realloc (l : Laid area h c) (hp : c p = some ⟨true, bytes⟩) (hn : 0 < size)
    (hsize : size + 16 ≤ 2 ^ 32) :
    Total (realloc area.gHeap h p size) fun r =>
      r.1 = 0 ∧ Laid area r.2 c ∨ r.1 ≠ 0 ∧ ∃ c', Objects.fresh (Function.update c p none) r.1
        (bytes.take size ++ List.replicate (size - bytes.length) none) = some c' ∧
          Laid area r.2 c' := by
  obtain ⟨bs, t⟩ := l.tiled
  have hlive : sizes c p = some bytes.length := sizes_eq_some.mpr ⟨bytes, hp, rfl⟩
  obtain ⟨r, hr, hcases⟩ := realloc_reallocates t hlive hn hsize
  refine ⟨r, hr, ?_⟩
  rcases hcases with ⟨hnull, hsame⟩ | ⟨hgranted, hmoved, hothers⟩
  · exact Or.inl ⟨hnull, hsame ▸ l⟩
  obtain ⟨r', hr', bs', t'⟩ := realloc_spec t (Or.inr ⟨_, hlive⟩) hsize
  obtain rfl := Option.some.inj (hr.symm.trans hr')
  have hq : r.1 ≠ 0 := by
    have hlow := hgranted.low
    have hpos := area.pos
    omega
  refine Or.inr ⟨hq, ?_⟩
  have hsizes : sizes (Function.update c p none) = release (sizes c) p := sizes_update c p none
  have hlength : (bytes.take size ++
      List.replicate (size - bytes.length) (none : Option UInt8)).length = size := by
    rw [List.length_append, List.length_take, List.length_replicate]
    omega
  rw [reallocated_live (t.live_ne_null hlive) hq, ← hsizes, ← hlength] at t'
  -- the new block is none of those that stay
  have hfresh : sizes (Function.update c p none) r.1 = none := by
    by_contra hne
    obtain ⟨k, hk⟩ := Option.ne_none_iff_exists'.mp hne
    have hfits := hgranted.fits
    have hapart := hgranted.apart r.1 k (hsizes ▸ hk)
    omega
  have hkept : Objects.KeptOff (Function.update c p none) r.1 h.memory r.2.memory := by
    rintro q ⟨_ | _, old⟩ hq _ x hlow hhigh
    all_goals
      have hqp : q ≠ p := fun heq => by rw [heq, Function.update_self] at hq; cases hq
      rw [Function.update_of_ne hqp] at hq
    · refine realloc_frame t hlive hn hsize hr ?_
      rcases (l.outside q old hq).2.2 with hle | hge
      · exact Or.inl (Nat.lt_of_lt_of_le hhigh hle)
      · exact Or.inr (Nat.le_trans hge hlow)
    · have hold : sizes c q = some old.length := sizes_eq_some.mpr ⟨old, hq, rfl⟩
      obtain ⟨b, hb, -, hfit⟩ := t.owned q _ hold
      refine hothers q _ hold hqp x hlow ?_
      rw [t.blockSize_eq hb]
      exact Nat.lt_of_lt_of_le hhigh (Nat.add_le_add_left hfit q)
  have hknown : Known r.2.memory r.1
      (bytes.take size ++ List.replicate (size - bytes.length) none) := by
    refine known_append.mpr ⟨fun i b hb => ?_, known_unknown _ _ _⟩
    have hi := (List.getElem?_eq_some_iff.mp hb).1
    rw [List.length_take] at hi
    rw [hmoved i (by omega)]
    exact (l.shows p _ hp).take size i b hb
  obtain ⟨hnone, l'⟩ := laid_allocate (l.outside.erase p) (l.apart.erase p)
    (l.shows.erase fun _ _ _ _ _ _ _ => rfl) t' hfresh hkept hknown
  exact ⟨_, Objects.fresh_eq hq hnone, l'⟩

end LampUserspace.Stdlib
