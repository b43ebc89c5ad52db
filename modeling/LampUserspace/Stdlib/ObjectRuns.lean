import LampUserspace.Libc.Building
import LampUserspace.Stdlib.HeapObjects
import LampUserspace.Stdlib.Qsort

/-! # Runs over objects

A machine of objects says what the allocation functions and the functions that
build strings do, without addresses, headers or terminators to look for. In
every run that it permits the functions return what it accepts, and the memory
has the bytes that it knows.
-/

namespace LampUserspace.Stdlib

section Code

-- the address of the array
variable (gHeap : ℕ)

def strdup (h : Heap) (s : ℕ) : Option (ℕ × Heap) := do
  let len ← strlen h.memory s
  let n := (len + 1) % 2 ^ 32
  let (p, h) ← malloc gHeap h n
  return (p, if p ≠ 0 then { h with memory := memcpy h.memory p s n } else h)

def strndup (h : Heap) (s n : ℕ) : Option (ℕ × Heap) := do
  let len := strnlen h.memory s n
  let (p, h) ← malloc gHeap h ((len + 1) % 2 ^ 32)
  return (p, if p ≠ 0 then
    { h with memory := Memory.store8 (memcpy h.memory p s len) (p + len) 0 } else h)

end Code

/-! ## The machine -/

inductive ObjectCall
  | malloc (size : ℕ)
  | calloc (nmemb size : ℕ)
  | realloc (ptr size : ℕ)
  | free (ptr : ℕ)
  | store (dst : Place) (byte : UInt8)
  | load (src : Place)
  | strlen (s : Place)
  | strnlen (s : Place) (maxlen : ℕ)
  | strcpy (dst src : Place)
  | stpcpy (dst src : Place)
  | strncpy (dst src : Place) (n : ℕ)
  | strcat (dst src : Place)
  | strdup (s : Place)
  | strndup (s : Place) (n : ℕ)

/-- A call of the functions: what is returned, 0 where nothing is, and the heap. -/
def ObjectCall.run (gHeap : ℕ) (h : Heap) : ObjectCall → Option (ℕ × Heap)
  | .malloc size => Stdlib.malloc gHeap h size
  | .calloc nmemb size => Stdlib.calloc gHeap h nmemb size
  | .realloc ptr size => Stdlib.realloc gHeap h ptr size
  | .free ptr => (Stdlib.free gHeap h ptr).map fun h => (0, h)
  | .store dst byte => some (0, { h with memory := h.memory.store8 dst.address byte })
  | .load src => some ((h.memory src.address).toNat, h)
  | .strlen s => (LampUserspace.strlen h.memory s.address).map fun n => (n, h)
  | .strnlen s maxlen => some (LampUserspace.strnlen h.memory s.address maxlen, h)
  | .strcpy dst src => (LampUserspace.strcpy h.memory dst.address src.address).map fun r =>
      (r.1, { h with memory := r.2 })
  | .stpcpy dst src => (LampUserspace.stpcpy h.memory dst.address src.address).map fun r =>
      (r.1, { h with memory := r.2 })
  | .strncpy dst src n =>
    let r := LampUserspace.strncpy h.memory dst.address src.address n
    some (r.1, { h with memory := r.2 })
  | .strcat dst src => (LampUserspace.strcat h.memory dst.address src.address).map fun r =>
      (r.1, { h with memory := r.2 })
  | .strdup s => Stdlib.strdup gHeap h s.address
  | .strndup s n => Stdlib.strndup gHeap h s.address n

/-- The objects after a call that returned `ret`, or nothing when the call is not defined or does
not return that. -/
def ObjectCall.step (c : Objects) (ret : ℕ) : ObjectCall → Option Objects
  | .malloc size => c.fresh ret (List.replicate size none)
  | .calloc nmemb size => c.fresh ret (List.replicate (nmemb * size) (some 0))
  | .realloc ptr size =>
    if ptr = 0 then c.fresh ret (List.replicate size none)
    else
      match c ptr with
      | some ⟨true, bytes⟩ =>
        if size = 0 then if ret = 0 then some (Function.update c ptr none) else none
        else if ret = 0 then some c
        else Objects.fresh (Function.update c ptr none) ret
          (bytes.take size ++ List.replicate (size - bytes.length) none)
      | _ => none
  | .free ptr =>
    if ptr = 0 then some c
    else
      match c ptr with
      | some ⟨true, _⟩ => some (Function.update c ptr none)
      | _ => none
  | .store dst byte => c.put dst [byte]
  | .load src => do
    let o ← c src.object
    let byte ← o.bytes[src.offset]?.join
    if ret = byte.toNat then some c else none
  | .strlen s => do
    let text ← c.text s
    if ret = text.length then some c else none
  | .strnlen s maxlen => do
    let text ← c.prefixText s maxlen
    if ret = text.length then some c else none
  | .strcpy dst src => do
    let text ← c.text src
    if dst.Clear src (text.length + 1) ∧ ret = dst.address then c.put dst (text ++ [0]) else none
  | .stpcpy dst src => do
    let text ← c.text src
    if dst.Clear src (text.length + 1) ∧ ret = dst.address + text.length then
      c.put dst (text ++ [0])
    else none
  | .strncpy dst src n => do
    let text ← c.prefixText src n
    if dst.Clear src (min (text.length + 1) n) ∧ ret = dst.address then
      c.put dst (text ++ List.replicate (n - text.length) 0)
    else none
  | .strcat dst src => do
    let front ← c.text dst
    let text ← c.text src
    let back : Place := ⟨dst.object, dst.offset + front.length⟩
    if back.Clear src (text.length + 1) ∧ ret = dst.address then c.put back (text ++ [0]) else none
  | .strdup s => do
    let text ← c.text s
    c.fresh ret ((text ++ [0]).map some)
  | .strndup s n => do
    let text ← c.prefixText s n
    c.fresh ret ((text ++ [0]).map some)

/-- What a call requests does not wrap with its header, or is an error of `calloc`. -/
def ObjectCall.Fits (c : Objects) : ObjectCall → Prop
  | .malloc size => size + 16 ≤ 2 ^ 32
  | .calloc nmemb size => nmemb * size + 16 ≤ 2 ^ 32 ∨ 2 ^ 32 ≤ nmemb * size
  | .realloc _ size => size + 16 ≤ 2 ^ 32
  | .strdup s => ∀ text, c.text s = some text → text.length + 1 + 16 ≤ 2 ^ 32
  | .strndup s n => ∀ text, c.prefixText s n = some text → text.length + 1 + 16 ≤ 2 ^ 32
  | _ => True

variable {area : Area} {h : Heap} {c c₀ : Objects} {ret : ℕ} {dst src : Place} {n : ℕ}

/-- The call returns what the machine accepts, and the objects lie in memory after it. -/
def Answers (area : Area) (h : Heap) (c : Objects) (call : ObjectCall) : Prop :=
  Total (call.run area.gHeap h) fun r => ∃ c', call.step c r.1 = some c' ∧ Laid area r.2 c'

/-! ## Allocation -/

theorem answers_malloc {size : ℕ} (l : Laid area h c) (hfits : size + 16 ≤ 2 ^ 32) :
    Answers area h c (.malloc size) :=
  (l.malloc hfits).mono fun _ _ hr => hr.2

theorem answers_realloc {ptr size : ℕ} (l : Laid area h c)
    (hstep : (ObjectCall.realloc ptr size).step c ret = some c₀) (hfits : size + 16 ≤ 2 ^ 32) :
    Answers area h c (.realloc ptr size) := by
  by_cases hnull : ptr = 0
  · have hrun : (ObjectCall.realloc ptr size).run area.gHeap h = malloc area.gHeap h size :=
      if_pos hnull
    rw [Answers, hrun]
    refine (l.malloc hfits).mono fun r _ hr => ?_
    obtain ⟨-, c', hfresh, l'⟩ := hr
    exact ⟨c', (if_pos hnull).trans hfresh, l'⟩
  · obtain ⟨bytes, hp⟩ : ∃ bytes, c ptr = some ⟨true, bytes⟩ := by
      rw [ObjectCall.step, if_neg hnull] at hstep
      split at hstep
      · exact ⟨_, ‹_›⟩
      · cases hstep
    have hsteps : ∀ r, (ObjectCall.realloc ptr size).step c r =
        if size = 0 then if r = 0 then some (Function.update c ptr none) else none
        else if r = 0 then some c
        else Objects.fresh (Function.update c ptr none) r
          (bytes.take size ++ List.replicate (size - bytes.length) none) := by
      intro r
      rw [ObjectCall.step, if_neg hnull, hp]
    by_cases hsize : size = 0
    · obtain ⟨h', hfree, l'⟩ := l.free hp
      refine ⟨(0, h'), ?_, _, ?_, l'⟩
      · rw [ObjectCall.run, realloc, if_neg hnull, if_pos hsize, hfree]
        rfl
      · rw [hsteps, if_pos hsize, if_pos rfl]
    · refine (l.realloc hp (Nat.pos_of_ne_zero hsize) hfits).mono fun r _ hr => ?_
      rw [hsteps, if_neg hsize]
      rcases hr with ⟨hr, l'⟩ | ⟨hr, c', hfresh, l'⟩
      · exact ⟨c, if_pos hr, l'⟩
      · exact ⟨c', (if_neg hr).trans hfresh, l'⟩

theorem answers_free {ptr : ℕ} (l : Laid area h c)
    (hstep : (ObjectCall.free ptr).step c ret = some c₀) : Answers area h c (.free ptr) := by
  by_cases hnull : ptr = 0
  · refine ⟨(0, h), ?_, c, if_pos hnull, l⟩
    rw [ObjectCall.run, free, if_pos (Or.inl hnull)]
    rfl
  · obtain ⟨bytes, hp⟩ : ∃ bytes, c ptr = some ⟨true, bytes⟩ := by
      rw [ObjectCall.step, if_neg hnull] at hstep
      split at hstep
      · exact ⟨_, ‹_›⟩
      · cases hstep
    obtain ⟨h', hfree, l'⟩ := l.free hp
    refine ⟨(0, h'), ?_, _, ?_, l'⟩
    · rw [ObjectCall.run, hfree]
      rfl
    · rw [ObjectCall.step, if_neg hnull, hp]

/-! ## Bytes -/

theorem answers_store {byte : UInt8} (l : Laid area h c)
    (hstep : (ObjectCall.store dst byte).step c ret = some c₀) :
    Answers area h c (.store dst byte) :=
  ⟨_, rfl, c₀, hstep, l.put hstep⟩

theorem answers_load (l : Laid area h c) (hstep : (ObjectCall.load src).step c ret = some c₀) :
    Answers area h c (.load src) := by
  obtain ⟨o, ho, hstep⟩ := Option.bind_eq_some_iff.mp hstep
  obtain ⟨byte, hbyte, -⟩ := Option.bind_eq_some_iff.mp hstep
  have hshown : h.memory src.address = byte := l.shows _ o ho _ _ (Option.join_eq_some_iff.mp hbyte)
  refine ⟨_, rfl, c, ?_, l⟩
  simp [ObjectCall.step, ho, hbyte, hshown]

/-! ## Texts -/

/-- A text in an object is read by the functions up to its terminator. -/
structure Holds (h : Heap) (a : Place) (text : List UInt8) : Prop where
  ne_null : a.address ≠ 0
  short : text.length < 2 ^ 32
  nul_free : 0 ∉ text
  spells : h.memory.Spells a.address (text ++ [0])

theorem Laid.holds (l : Laid area h c) {a : Place} {text : List UInt8}
    (ht : c.text a = some text) : Holds h a text := by
  obtain ⟨o, ho, hlength, hzero, hspells⟩ := Objects.text_eq_some l.shows ht
  have hbounds := (l.bounds ho).2
  exact ⟨l.address_ne_null ho, by omega, hzero, hspells⟩

theorem Laid.clear (l : Laid area h c) {text bytes : List UInt8} (ht : c.text src = some text)
    (hput : c.put dst bytes = some c₀) (hclear : dst.Clear src (text.length + 1)) :
    dst.address ≤ src.address ∨ src.address + text.length + 1 ≤ dst.address := by
  obtain ⟨o, ho, hlength, -, -⟩ := Objects.text_eq_some l.shows ht
  obtain ⟨o', ho', hroom⟩ := Objects.put_eq_some hput
  exact hclear.address l.apart ho' ho (by omega) (by omega)

theorem answers_strlen (l : Laid area h c) (hstep : (ObjectCall.strlen src).step c ret = some c₀) :
    Answers area h c (.strlen src) := by
  obtain ⟨text, ht, -⟩ := Option.bind_eq_some_iff.mp hstep
  have hs := l.holds ht
  refine ⟨(text.length, h), ?_, c, ?_, l⟩
  · rw [ObjectCall.run, strlen_spells hs.ne_null hs.spells hs.nul_free hs.short]
    rfl
  · simp [ObjectCall.step, ht]

theorem answers_strnlen (l : Laid area h c)
    (hstep : (ObjectCall.strnlen src n).step c ret = some c₀) :
    Answers area h c (.strnlen src n) := by
  obtain ⟨text, ht, -⟩ := Option.bind_eq_some_iff.mp hstep
  obtain ⟨o, ho, hzero, hspells, hle, -, hend⟩ := Objects.prefixText_eq_some l.shows ht
  refine ⟨_, rfl, c, ?_, l⟩
  rw [strnlen_spells (l.address_ne_null ho) hspells hzero hle fun hlt => (hend hlt).1]
  simp [ObjectCall.step, ht]

theorem answers_strcpy (l : Laid area h c)
    (hstep : (ObjectCall.strcpy dst src).step c ret = some c₀) :
    Answers area h c (.strcpy dst src) := by
  obtain ⟨text, ht, hstep⟩ := Option.bind_eq_some_iff.mp hstep
  split at hstep
  case isFalse => cases hstep
  case isTrue hcond =>
    have hs := l.holds ht
    have hclear := l.clear ht hstep hcond.1
    refine ⟨(dst.address, _), ?_, c₀, ?_, l.put hstep⟩
    · rw [ObjectCall.run, strcpy_spells hs.spells hs.nul_free hs.short hclear]
      rfl
    · simp only [ObjectCall.step, ht, Option.bind_eq_bind, Option.bind_some]
      exact (if_pos ⟨hcond.1, trivial⟩).trans hstep

theorem answers_stpcpy (l : Laid area h c)
    (hstep : (ObjectCall.stpcpy dst src).step c ret = some c₀) :
    Answers area h c (.stpcpy dst src) := by
  obtain ⟨text, ht, hstep⟩ := Option.bind_eq_some_iff.mp hstep
  split at hstep
  case isFalse => cases hstep
  case isTrue hcond =>
    have hs := l.holds ht
    have hclear := l.clear ht hstep hcond.1
    refine ⟨(dst.address + text.length, _), ?_, c₀, ?_, l.put hstep⟩
    · rw [ObjectCall.run, LampUserspace.stpcpy,
        stpcpyLoop_spells hs.spells hs.nul_free hs.short hclear]
      rfl
    · simp only [ObjectCall.step, ht, Option.bind_eq_bind, Option.bind_some]
      exact (if_pos ⟨hcond.1, trivial⟩).trans hstep

theorem answers_strcat (l : Laid area h c)
    (hstep : (ObjectCall.strcat dst src).step c ret = some c₀) :
    Answers area h c (.strcat dst src) := by
  obtain ⟨front, hfront, hstep⟩ := Option.bind_eq_some_iff.mp hstep
  obtain ⟨text, ht, hstep⟩ := Option.bind_eq_some_iff.mp hstep
  dsimp only at hstep
  split at hstep
  case isFalse => cases hstep
  case isTrue hcond =>
    have hd := l.holds hfront
    have hs := l.holds ht
    have hback : Place.address ⟨dst.object, dst.offset + front.length⟩ =
        dst.address + front.length := (Nat.add_assoc _ _ _).symm
    have hclear := l.clear ht hstep hcond.1
    have l' := l.put hstep
    rw [hback] at hclear l'
    refine ⟨(dst.address, _), ?_, c₀, ?_, l'⟩
    · rw [ObjectCall.run, strcat_spells hd.ne_null hd.spells hd.nul_free hd.short hs.spells
        hs.nul_free hs.short hclear]
      rfl
    · simp only [ObjectCall.step, hfront, ht, Option.bind_eq_bind, Option.bind_some]
      exact (if_pos ⟨hcond.1, trivial⟩).trans hstep

theorem answers_strncpy (l : Laid area h c)
    (hstep : (ObjectCall.strncpy dst src n).step c ret = some c₀) :
    Answers area h c (.strncpy dst src n) := by
  obtain ⟨text, ht, hstep⟩ := Option.bind_eq_some_iff.mp hstep
  split at hstep
  case isFalse => cases hstep
  case isTrue hcond =>
    obtain ⟨o, ho, hzero, hspells, hle, hroom, hend⟩ := Objects.prefixText_eq_some l.shows ht
    obtain ⟨o', ho', hput⟩ := Objects.put_eq_some hstep
    have hclear : dst.address ≤ src.address ∨
        src.address + min (text.length + 1) n ≤ dst.address := by
      rcases Nat.eq_zero_or_pos n with rfl | hn
      · rw [Nat.min_zero, Nat.add_zero]
        exact Nat.le_total _ _
      · refine hcond.1.address l.apart ho' ho (by omega) ?_
        rcases Nat.lt_or_eq_of_le hle with hlt | heq
        · have := (hend hlt).2
          omega
        · have := hroom (by rintro rfl; simp at heq; omega)
          omega
    refine ⟨(dst.address, _), ?_, c₀, ?_, l.put hstep⟩
    · rw [ObjectCall.run, strncpy_spells hspells hzero hle (fun hlt => (hend hlt).1) hclear]
    · simp only [ObjectCall.step, ht, Option.bind_eq_bind, Option.bind_some]
      exact (if_pos ⟨hcond.1, trivial⟩).trans hstep

/-! ## Duplicates -/

theorem memcpy_spells {m : Memory} {d s : ℕ} {bytes : List UInt8} (h : m.Spells s bytes)
    (hd : d + bytes.length ≤ s ∨ s + bytes.length ≤ d) :
    memcpy m d s bytes.length = m.write d bytes := by
  funext x
  by_cases hx : x < d ∨ d + bytes.length ≤ x
  · rw [memcpy_frame m d s bytes.length hx]
    rcases hx with hx | hx
    · exact (Memory.write_of_lt hx).symm
    · exact (Memory.write_of_ge hx).symm
  · obtain ⟨i, rfl⟩ : ∃ i, x = d + i := ⟨x - d, by omega⟩
    have hi : i < bytes.length := by omega
    rw [memcpy_apply hd hi, h.getElem hi, Memory.write_apply m d hi]

theorem memcpy_fresh {r : ℕ × Heap} {c' : Objects} {bytes : List UInt8} {o : Object}
    (l' : Laid area r.2 c') (hkept : c.Kept h.memory r.2.memory)
    (hfresh : c.fresh r.1 (List.replicate n none) = some c') (hq : r.1 ≠ 0)
    (ho : c src.object = some o) (hfit : bytes ≠ [] → src.offset + bytes.length ≤ o.bytes.length)
    (hspells : h.memory.Spells src.address bytes) (hn : bytes.length ≤ n) :
    memcpy r.2.memory r.1 src.address bytes.length = r.2.memory.write r.1 bytes := by
  by_cases hnil : bytes = []
  · rw [hnil]
    rfl
  have hroom := hfit hnil
  obtain ⟨hnone, rfl⟩ := Objects.fresh_eq_some hq hfresh
  have hne : src.object ≠ r.1 := by
    intro heq
    rw [heq, hnone] at ho
    cases ho
  have hold := ho
  rw [← Function.update_of_ne hne (some ⟨true, List.replicate n none⟩) c] at hold
  have hapart := l'.apart _ _ _ _ (Function.update_self r.1 _ c) hold hne.symm
  rw [List.length_replicate] at hapart
  refine memcpy_spells (hspells.congr fun x hlow hhigh => hkept _ o ho x ?_ ?_) ?_
  all_goals
    unfold Place.address at *
    omega

theorem answers_strdup (l : Laid area h c) (hstep : (ObjectCall.strdup src).step c ret = some c₀)
    (hfits : (ObjectCall.strdup src).Fits c) : Answers area h c (.strdup src) := by
  obtain ⟨text, ht, -⟩ := Option.bind_eq_some_iff.mp hstep
  have hs := l.holds ht
  obtain ⟨o, ho, hroom, -, -⟩ := Objects.text_eq_some l.shows ht
  have hlength : (text ++ [0]).length = text.length + 1 := List.length_append
  obtain ⟨r, hr, hkept, c', hfresh, l'⟩ := l.malloc (hfits text ht)
  have hwrap : (text.length + 1) % 2 ^ 32 = text.length + 1 :=
    Nat.mod_eq_of_lt (by have := hfits text ht; omega)
  have hsteps : ∀ ret, (ObjectCall.strdup src).step c ret =
      c.fresh ret ((text ++ [0]).map some) := by
    intro ret
    simp [ObjectCall.step, ht]
  have hrun : (ObjectCall.strdup src).run area.gHeap h = some (r.1, if r.1 ≠ 0 then
      { r.2 with memory := memcpy r.2.memory r.1 src.address (text.length + 1) } else r.2) := by
    rw [ObjectCall.run, strdup, strlen_spells hs.ne_null hs.spells hs.nul_free hs.short]
    simp only [Option.bind_eq_bind, Option.bind_some, hwrap, hr]
    rfl
  refine ⟨_, hrun, ?_⟩
  dsimp only
  rw [hsteps]
  by_cases hnull : r.1 = 0
  · rw [if_neg fun hne => hne hnull]
    rw [hnull] at hfresh ⊢
    exact ⟨c', hfresh, l'⟩
  · have hcopy := memcpy_fresh l' hkept hfresh hnull ho (fun _ => by rw [hlength]; exact hroom)
      hs.spells hlength.le
    rw [hlength] at hcopy
    rw [if_pos hnull, hcopy]
    exact l'.fill hfresh hnull hlength

theorem answers_strndup (l : Laid area h c)
    (hstep : (ObjectCall.strndup src n).step c ret = some c₀)
    (hfits : (ObjectCall.strndup src n).Fits c) : Answers area h c (.strndup src n) := by
  obtain ⟨text, ht, -⟩ := Option.bind_eq_some_iff.mp hstep
  obtain ⟨o, ho, hzero, hspells, hle, hroom, hend⟩ := Objects.prefixText_eq_some l.shows ht
  obtain ⟨r, hr, hkept, c', hfresh, l'⟩ := l.malloc (hfits text ht)
  have hwrap : (text.length + 1) % 2 ^ 32 = text.length + 1 :=
    Nat.mod_eq_of_lt (by have := hfits text ht; omega)
  have hsteps : ∀ ret, (ObjectCall.strndup src n).step c ret =
      c.fresh ret ((text ++ [0]).map some) := by
    intro ret
    simp [ObjectCall.step, ht]
  have hlen := strnlen_spells (l.address_ne_null ho) hspells hzero hle fun hlt => (hend hlt).1
  have hrun : (ObjectCall.strndup src n).run area.gHeap h = some (r.1, if r.1 ≠ 0 then
      { r.2 with
        memory := Memory.store8 (memcpy r.2.memory r.1 src.address text.length)
          (r.1 + text.length) 0 } else r.2) := by
    rw [ObjectCall.run, strndup]
    simp only [hlen, Option.bind_eq_bind, Option.bind_some, hwrap, hr]
    rfl
  refine ⟨_, hrun, ?_⟩
  dsimp only
  rw [hsteps]
  by_cases hnull : r.1 = 0
  · rw [if_neg fun hne => hne hnull]
    rw [hnull] at hfresh ⊢
    exact ⟨c', hfresh, l'⟩
  · have hcopy := memcpy_fresh l' hkept hfresh hnull ho hroom hspells (Nat.le_succ _)
    have hwritten : (r.2.memory.write r.1 text).store8 (r.1 + text.length) 0 =
        r.2.memory.write r.1 (text ++ [0]) := (Memory.write_append r.2.memory r.1 text [0]).symm
    rw [if_pos hnull, hcopy, hwritten]
    exact l'.fill hfresh hnull List.length_append

/-! ## Runs -/

theorem answers {call : ObjectCall} (l : Laid area h c) (hstep : call.step c ret = some c₀)
    (hfits : call.Fits c) : Answers area h c call := by
  cases call with
  | malloc size => exact answers_malloc l hfits
  | calloc nmemb size => exact l.calloc hfits
  | realloc ptr size => exact answers_realloc l hstep hfits
  | free ptr => exact answers_free l hstep
  | store dst byte => exact answers_store l hstep
  | load src => exact answers_load l hstep
  | strlen s => exact answers_strlen l hstep
  | strnlen s maxlen => exact answers_strnlen l hstep
  | strcpy dst src => exact answers_strcpy l hstep
  | stpcpy dst src => exact answers_stpcpy l hstep
  | strncpy dst src n => exact answers_strncpy l hstep
  | strcat dst src => exact answers_strcat l hstep
  | strdup s => exact answers_strdup l hstep hfits
  | strndup s n => exact answers_strndup l hstep hfits

/-- A process with the objects that the machine has for it. -/
structure ObjectProcess where
  heap : Heap
  objects : Objects

def ObjectProcess.start (area : Area) (memory : Memory) (statics : Objects) : ObjectProcess where
  heap := ⟨memory, 0, area.gHeap⟩
  objects := statics

/-- The functions answer a call, and the machine accepts the answer or stops. -/
def ObjectProcess.step (area : Area) (s : ObjectProcess) (call : ObjectCall) :
    Option ObjectProcess := do
  let (ret, h) ← call.run area.gHeap s.heap
  let c ← call.step s.objects ret
  return ⟨h, c⟩

/-- The machine accepts some answer, and no request wraps. -/
def ObjectProcess.Permitted (s : ObjectProcess) (call : ObjectCall) : Prop :=
  (∃ ret c, call.step s.objects ret = some c) ∧ call.Fits s.objects

/-- The objects of a program that has allocated none yet. -/
structure Statics (area : Area) (memory : Memory) (c : Objects) : Prop where
  static : ∀ p, sizes c p = none
  offHeap : OffHeap area c
  apart : c.Apart
  shows : c.Shows memory

theorem Statics.laid {memory : Memory} (hs : Statics area memory c) :
    Laid area (ObjectProcess.start area memory c).heap c where
  tiled := by
    have hnone : sizes c = fun _ => none := funext hs.static
    exact ⟨[], hnone ▸ Process.start_tiled area memory⟩
  outside := hs.offHeap
  apart := hs.apart
  shows := hs.shows

/-- In every permitted run the functions return, with an answer that the machine accepts, and after
it the memory has every byte of the objects that the machine knows. -/
theorem objects_run (area : Area) (memory : Memory) (statics : Objects)
    (hstatics : Statics area memory statics) (calls : List ObjectCall)
    (hcalls : Total.Along (ObjectProcess.step area) ObjectProcess.Permitted
      (.start area memory statics) calls) :
    Total (calls.foldlM (ObjectProcess.step area) (.start area memory statics)) fun s =>
      s.objects.Shows s.heap.memory ∧ s.objects.Apart := by
  have hstep : ∀ (s : ObjectProcess) call, Laid area s.heap s.objects → s.Permitted call →
      Total (s.step area call) fun t => Laid area t.heap t.objects := by
    rintro s call l ⟨⟨ret, c₀, hstep⟩, hfits⟩
    refine Total.bind (answers l hstep hfits) fun r _ hr => ?_
    obtain ⟨c', hc', l'⟩ := hr
    exact Total.bind ⟨c', hc', rfl⟩ fun c _ hc => .pure (hc ▸ l')
  exact (Total.foldlM hstep hstatics.laid hcalls).mono fun s _ l => ⟨l.shows, l.apart⟩

def literal : Objects := fun p => if p = 4 then some ⟨false, [some 97, some 98, some 0]⟩ else none

def literalMemory : Memory := Memory.write (fun _ => 0) 4 [97, 98, 0]

theorem literal_statics : Statics lowArea literalMemory literal where
  static p := by
    unfold sizes literal
    rw [Function.comp_apply]
    split <;> rfl
  offHeap p bytes hp := by
    unfold literal at hp
    split at hp
    · obtain rfl := (Object.mk.inj (Option.some.inj hp)).2
      subst p
      decide
    · cases hp
  apart p q o o' hp hq hne := by
    unfold literal at hp hq
    split at hp
    · split at hq
      · omega
      · cases hq
    · cases hp
  shows p o hp := by
    unfold literal at hp
    split at hp
    · obtain rfl := Option.some.inj hp
      subst p
      exact known_write (fun _ => 0) 4 [97, 98, 0]
    · cases hp

/-- The text is put twice into a block, and the whole duplicated. -/
def buildingRun : List ObjectCall :=
  [.malloc 5, .strcpy ⟨28, 0⟩ ⟨4, 0⟩, .strcat ⟨28, 0⟩ ⟨4, 0⟩, .strdup ⟨28, 0⟩]

theorem buildingRun_shown :
    Total (buildingRun.foldlM (ObjectProcess.step lowArea) (.start lowArea literalMemory literal))
      fun s => s.objects.Shows s.heap.memory ∧ s.objects.Apart := by
  refine objects_run lowArea literalMemory literal literal_statics buildingRun
    ⟨⟨⟨28, _, rfl⟩, (by decide : 5 + 16 ≤ 2 ^ 32)⟩, fun t ht => ?_⟩
  obtain rfl := Option.some.inj (Eq.trans (by rfl) ht)
  refine ⟨⟨⟨28, _, by rfl⟩, trivial⟩, fun t ht => ?_⟩
  obtain rfl := Option.some.inj (Eq.trans (by rfl) ht)
  refine ⟨⟨⟨28, _, by rfl⟩, trivial⟩, fun t ht => ?_⟩
  obtain rfl := Option.some.inj (Eq.trans (by rfl) ht)
  refine ⟨⟨⟨0, _, by rfl⟩, fun text htext => ?_⟩, fun t ht => trivial⟩
  obtain rfl := Option.some.inj (Eq.trans (by rfl) htext)
  decide

end LampUserspace.Stdlib
