import LampUserspace.Stdlib.HeapRuns
import LampUserspace.Stdlib.Bindings

/-! # The vector behind `environ`

The environment functions over the memory of a process: `environ` is an address,
its vector is read from memory, and new entries and vectors come from the heap.
The vector that `start_c` installs, the static default and the one of `clearenv`
do not. `realloc` is asked only for pointers that it may be asked for exactly as
long as no call adds a variable.
-/

namespace LampUserspace.Stdlib

open Tiling

def stringAt (m : Memory) : (fuel p : ℕ) → Option CString
  | 0, _ => none
  | fuel + 1, p =>
    if h : m p = 0 then some ⟨[], List.not_mem_nil⟩
    else do
      let s ← stringAt m fuel (p + 1)
      return ⟨m p :: s.bytes, by simp [s.nul_free, Ne.symm h]⟩

def vectorAt (m : Memory) : (fuel p : ℕ) → Option (List (Option CString))
  | 0, _ => none
  | fuel + 1, p =>
    if m.load32 p = 0 then some [none]
    else do
      let entry ← stringAt m (2 ^ 32) (m.load32 p)
      let rest ← vectorAt m fuel (p + 4)
      return some entry :: rest

def environAt (m : Memory) (environ : ℕ) : Option Environ :=
  if environ = 0 then some none else (vectorAt m (2 ^ 32) environ).map some

/-- `environ` as `start_c` sets it, behind `argc` and the vector of the arguments. -/
def startEnviron (m : Memory) (sp : ℕ) : ℕ := sp + 4 + 4 * (m.load32 sp + 1)

/-- A process, with the sizes of the pointers that the heap has handed out and the pointers that
`realloc` was asked for, each with what was live at that moment. -/
structure EnvProcess where
  heap : Heap
  environ : ℕ
  live : ℕ → Option ℕ
  requests : List (ℕ × (ℕ → Option ℕ))

namespace EnvProcess

variable (area : Area)

def setenv (s : EnvProcess) (name value : Option CString) (overwrite : Bool) :
    Option (EnvProcess × Except Errno Unit) :=
  match name, value, envValidName name with
  | some name, some value, .ok nameLen => do
    let index ← envFind (← environAt s.heap.memory s.environ) name nameLen
    if index.isSome ∧ ¬ overwrite then return (s, .ok ())
    else
      let size := nameLen + value.strlen + 2
      let (entry, h) ← malloc area.gHeap s.heap size
      if entry = 0 then return ({ s with heap := h }, .error .ENOMEM)
      else
        let m := h.memory.write entry (assignment name value).memory
        let s := { s with heap := { h with memory := m }, live := grant s.live entry size }
        match index with
        | some index =>
          return ({ s with heap.memory := m.store32 (s.environ + 4 * index) entry }, .ok ())
        | none =>
          let count ← envCount (← environAt m s.environ)
          let size := (count + 2) * 4
          let (next, h) ← realloc area.gHeap s.heap s.environ size
          let s :=
            { s with
              heap := h
              live := reallocated s.live s.environ size next
              requests := s.requests ++ [(s.environ, s.live)] }
          if next = 0 then return (s, .error .ENOMEM)
          else
            let m := (h.memory.store32 (next + 4 * count) entry).store32 (next + 4 * (count + 1)) 0
            return ({ s with heap.memory := m, environ := next }, .ok ())
  | _, _, _ => return (s, .error .EINVAL)

def putenv (s : EnvProcess) (string : Option CString) : Option (EnvProcess × Except Errno Unit) :=
  match string with
  | none => return (s, .error .EINVAL)
  | some string =>
    match strchr (byte '=') string.bytes with
    | none => return (s, .error .EINVAL)
    | some nameLen =>
      if nameLen = 0 ∨ nameLen ≥ 128 then return (s, .error .EINVAL)
      else setenv area s (some (string.take nameLen)) (some (string.drop (nameLen + 1))) true

/-- The loop of `unsetenv`, with `count - index` steps to go. -/
def shiftWords (environ : ℕ) : ℕ → ℕ → Memory → Memory
  | 0, _, m => m
  | n + 1, index, m =>
    shiftWords environ n (index + 1)
      (m.store32 (environ + 4 * index) (m.load32 (environ + 4 * (index + 1))))

def unsetenv (s : EnvProcess) (name : Option CString) : Option (EnvProcess × Except Errno Unit) :=
  match name, envValidName name with
  | some name, .ok nameLen => do
    let array ← environAt s.heap.memory s.environ
    let index ← envFind array name nameLen
    match index with
    | none => return (s, .ok ())
    | some index =>
      let count ← envCount array
      return ({ s with heap.memory := shiftWords s.environ (count - index) index s.heap.memory },
        .ok ())
  | _, _ => return (s, .error .EINVAL)

/-- `empty` is the address of the static vector. -/
def clearenv (empty : ℕ) (s : EnvProcess) : EnvProcess × Except Errno Unit :=
  ({ s with environ := empty }, .ok ())

/-- The call adds a variable: its arguments are accepted, the name is not in the environment and
there is memory for the entry. -/
def Adds (s : EnvProcess) (name value : Option CString) : Prop :=
  ∃ n v array r, name = some n ∧ value = some v ∧ ValidName n ∧
    environAt s.heap.memory s.environ = some array ∧ envFind array n n.strlen = some none ∧
    malloc area.gHeap s.heap (n.strlen + v.strlen + 2) = some r ∧ r.1 ≠ 0

end EnvProcess

/-! ## Reading the vector -/

variable {m : Memory} {fuel p : ℕ} {array : List (Option CString)}

theorem vectorAt_spec (h : vectorAt m fuel p = some array) :
    ∃ es : List CString, array = es.map some ++ [none] ∧
      ∀ k, m.load32 (p + 4 * k) = 0 → es.length ≤ k := by
  induction fuel generalizing p array with
  | zero => cases h
  | succ fuel ih =>
    rw [vectorAt] at h
    split at h
    · obtain rfl := Option.some.inj h
      exact ⟨[], rfl, fun k _ => Nat.zero_le k⟩
    · rename_i hne
      obtain ⟨e, he, h⟩ := Option.bind_eq_some_iff.mp h
      obtain ⟨rest, hrest, h⟩ := Option.bind_eq_some_iff.mp h
      obtain rfl := Option.some.inj h
      obtain ⟨es, rfl, hes⟩ := ih hrest
      refine ⟨e :: es, rfl, fun k hk => ?_⟩
      cases k with
      | zero => exact absurd hk hne
      | succ k =>
        refine Nat.succ_le_succ (hes k ?_)
        rwa [show p + 4 * (k + 1) = p + 4 + 4 * k by omega] at hk

theorem envFindLoop_lt {n : CString} {len : ℕ} {es : List CString} {i j : ℕ}
    (h : envFindLoop n len (es.map some ++ [none]) i = some (some j)) : j < i + es.length := by
  induction es generalizing i with
  | nil => cases h
  | cons e es ih =>
    rw [List.map_cons, List.cons_append, envFindLoop] at h
    split at h
    · obtain rfl := Option.some.inj (Option.some.inj h)
      exact Nat.lt_add_of_pos_right (Nat.succ_pos _)
    · have := ih h
      rw [List.length_cons]
      omega

/-- An index that was found, and the number of entries, stay below a null pointer. -/
theorem environAt_bounds {array : Environ} {n : CString} {len environ k index : ℕ}
    (harray : environAt m environ = some array) (hne : environ ≠ 0)
    (hk : m.load32 (environ + 4 * k) = 0) (hfind : envFind array n len = some (some index)) :
    index < k ∧ ∃ count, envCount array = some count ∧ count ≤ k := by
  rw [environAt, if_neg hne] at harray
  obtain ⟨words, hwords, rfl⟩ := Option.map_eq_some_iff.mp harray
  obtain ⟨es, rfl, hes⟩ := vectorAt_spec hwords
  have hlt := envFindLoop_lt hfind
  have hle := hes k hk
  refine ⟨by omega, es.length, ?_, hle⟩
  rw [envCount, envCountLoop_spec, Nat.zero_add]

theorem shiftWords_frame {environ x : ℕ} (n index : ℕ) (m : Memory)
    (hx : x < environ + 4 * index ∨ environ + 4 * (index + n) ≤ x) :
    EnvProcess.shiftWords environ n index m x = m x := by
  induction n generalizing index m with
  | zero => rfl
  | succ n ih =>
    rw [EnvProcess.shiftWords, ih _ _ (by omega), Memory.store32_frame _ (by omega)]

/-! ## Starting and running -/

/-- A process before its first call: a vector of `count` entries and the static vector of
`clearenv`, both ending with a null pointer, apart from each other and from the heap. -/
structure Boot (area : Area) where
  memory : Memory
  environ : ℕ
  count : ℕ
  empty : ℕ
  environ_ne : environ ≠ 0
  empty_ne : empty ≠ 0
  environ_null : memory.load32 (environ + 4 * count) = 0
  empty_null : memory.load32 empty = 0
  environ_outside : environ + 4 * (count + 1) ≤ area.gHeap ∨ area.gHeap + heapSize ≤ environ
  empty_outside : empty + 4 ≤ area.gHeap ∨ area.gHeap + heapSize ≤ empty
  apart : environ + 4 * (count + 1) ≤ empty ∨ empty + 4 ≤ environ

/-- The bytes that the environment functions have no reason to change: those outside the heap and
the vector. -/
def Boot.Kept {area : Area} (boot : Boot area) (x : ℕ) : Prop :=
  (x < area.gHeap ∨ area.gHeap + heapSize ≤ x) ∧
    (x < boot.environ ∨ boot.environ + 4 * boot.count ≤ x)

def Boot.start {area : Area} (boot : Boot area) : EnvProcess where
  heap := ⟨boot.memory, 0, area.gHeap⟩
  environ := boot.environ
  live := fun _ => none
  requests := []

def entrySize (name value : Option CString) : ℕ :=
  (name.map CString.strlen).getD 0 + (value.map CString.strlen).getD 0 + 2

/-- A call whose strings fit into the address space beside the heap. -/
inductive VectorCall
  | setenv (name value : Option CString) (overwrite : Bool)
    (fits : entrySize name value + heapSize ≤ 2 ^ 32)
  | putenv (string : Option CString) (fits : entrySize string none + heapSize ≤ 2 ^ 32)
  | unsetenv (name : Option CString)
  | clearenv

namespace VectorCall

variable {area : Area}

def step (boot : Boot area) (s : EnvProcess) (call : VectorCall) : Option EnvProcess :=
  Option.map Prod.fst <|
    match call with
    | .setenv name value overwrite _ => s.setenv area name value overwrite
    | .putenv string _ => s.putenv area string
    | .unsetenv name => s.unsetenv name
    | .clearenv => some (s.clearenv boot.empty)

def Adds (area : Area) (s : EnvProcess) : VectorCall → Prop
  | .setenv name value _ _ => s.Adds area name value
  | .putenv string _ => ∃ text nameLen, string = some text ∧
      strchr (byte '=') text.bytes = some nameLen ∧ ¬ (nameLen = 0 ∨ nameLen ≥ 128) ∧
      s.Adds area (some (text.take nameLen)) (some (text.drop (nameLen + 1)))
  | .unsetenv _ | .clearenv => False

end VectorCall

/-- What holds as long as no call adds a variable. -/
structure Quiet {area : Area} (boot : Boot area) (s : EnvProcess) : Prop where
  tiled : ∃ bs, Tiled area s.heap s.live bs
  vector : s.environ = boot.environ ∨ s.environ = boot.empty
  kept : ∀ x, boot.Kept x → s.heap.memory x = boot.memory x
  requests : s.requests = []

variable {area : Area} {boot : Boot area} {s s' : EnvProcess}

theorem Boot.start_quiet (boot : Boot area) : Quiet boot boot.start where
  tiled := ⟨[], Process.start_tiled area boot.memory⟩
  vector := Or.inl rfl
  kept _ _ := rfl
  requests := rfl

namespace Quiet

theorem environ_ne (q : Quiet boot s) : s.environ ≠ 0 := by
  rcases q.vector with heq | heq
  · exact heq ▸ boot.environ_ne
  · exact heq ▸ boot.empty_ne

/-- The vector in use ends with a null pointer outside the heap, and its entries are those of the
first vector. -/
theorem null (q : Quiet boot s) :
    ∃ k, s.heap.memory.load32 (s.environ + 4 * k) = 0 ∧
      (k = 0 ∨ s.environ = boot.environ ∧ k = boot.count) := by
  have hout := boot.environ_outside
  have hempty := boot.empty_outside
  have hapart := boot.apart
  rcases q.vector with heq | heq
  · refine ⟨boot.count, ?_, Or.inr ⟨heq, rfl⟩⟩
    rw [heq, Memory.load32_congr fun x hlow hhigh => q.kept x ⟨by omega, by omega⟩]
    exact boot.environ_null
  · refine ⟨0, ?_, Or.inl rfl⟩
    rw [heq, Memory.load32_congr fun x hlow hhigh => q.kept x ⟨by omega, by omega⟩]
    exact boot.empty_null

theorem not_live {h : Heap} {live : ℕ → Option ℕ} {bs : List Block} (q : Quiet boot s)
    (t : Tiled area h live bs) : live s.environ = none := by
  by_contra hne
  obtain ⟨n, hn⟩ := Option.ne_none_iff_exists'.mp hne
  have hbounds := t.live_bounds hn
  have hroom := t.room
  have hout := boot.environ_outside
  have hempty := boot.empty_outside
  rcases q.vector with heq | heq <;> omega

theorem store {h : Heap} {live : ℕ → Option ℕ} {bs : List Block} {index n : ℕ} {m : Memory}
    (q : Quiet boot s) (t : Tiled area h live bs)
    (hkept : ∀ x, boot.Kept x → h.memory x = boot.memory x)
    (hbound : index + n ≤ boot.count ∧ s.environ = boot.environ)
    (hm : ∀ x, x < s.environ + 4 * index ∨ s.environ + 4 * (index + n) ≤ x → m x = h.memory x) :
    Quiet boot { s with heap := { h with memory := m }, live := live } where
  tiled := by
    refine ⟨bs, t.congr fun x hlow hhigh => hm x ?_⟩
    have hout := boot.environ_outside
    omega
  vector := q.vector
  kept x hx := by
    have := hx.2
    exact (hm x (by omega)).trans (hkept x hx)
  requests := q.requests

end Quiet

/-! ## Steps -/

theorem envValidName_ok {n : CString} {len : ℕ} (h : envValidName (some n) = .ok len) :
    ValidName n ∧ len = n.strlen := by
  by_cases hn : ValidName n
  · rw [envValidName_of_valid hn] at h
    exact ⟨hn, (Except.ok.inj h).symm⟩
  · rw [envValidName_of_not_valid hn] at h
    cases h

/-- What a call of `setenv` does: nothing, a failed allocation, the replacement of an entry or
the addition of a variable. -/
theorem setenv_cases {name value : Option CString} {overwrite : Bool}
    {r : EnvProcess × Except Errno Unit} (h : s.setenv area name value overwrite = some r) :
    r.1 = s ∨ ∃ n v array index res, name = some n ∧ value = some v ∧
      environAt s.heap.memory s.environ = some array ∧
      envFind array n n.strlen = some index ∧
      malloc area.gHeap s.heap (n.strlen + v.strlen + 2) = some res ∧
      (res.1 = 0 ∧ r.1 = { s with heap := res.2 } ∨
      (∃ i, index = some i ∧ res.1 ≠ 0 ∧
        r.1 = { s with
          heap := { res.2 with memory :=
            (res.2.memory.write res.1 (assignment n v).memory).store32 (s.environ + 4 * i) res.1 }
          live := grant s.live res.1 (n.strlen + v.strlen + 2) }) ∨
      s.Adds area name value) := by
  unfold EnvProcess.setenv at h
  split at h
  · rename_i n v nameLen hvalid
    obtain ⟨hn, rfl⟩ := envValidName_ok hvalid
    obtain ⟨array, harray, h⟩ := Option.bind_eq_some_iff.mp h
    obtain ⟨index, hfind, h⟩ := Option.bind_eq_some_iff.mp h
    split at h
    · obtain rfl := Option.some.inj h
      exact Or.inl rfl
    obtain ⟨⟨entry, heap⟩, hres, h⟩ := Option.bind_eq_some_iff.mp h
    refine Or.inr ⟨n, v, array, index, (entry, heap), rfl, rfl, harray, hfind, hres, ?_⟩
    dsimp only at h
    split at h
    · rename_i hnull
      obtain rfl := Option.some.inj h
      exact Or.inl ⟨hnull, rfl⟩
    rename_i hentry
    cases index with
    | some i =>
      obtain rfl := Option.some.inj h
      exact Or.inr (Or.inl ⟨i, rfl, hentry, rfl⟩)
    | none =>
      exact Or.inr (Or.inr ⟨n, v, array, _, rfl, rfl, hn, harray, hfind, hres, hentry⟩)
  · obtain rfl := Option.some.inj h
    exact Or.inl rfl

theorem setenv_of_adds {name value : Option CString} {overwrite : Bool}
    {r : EnvProcess × Except Errno Unit} (hadds : s.Adds area name value)
    (h : s.setenv area name value overwrite = some r) :
    ∃ n v res, name = some n ∧ value = some v ∧
      malloc area.gHeap s.heap (n.strlen + v.strlen + 2) = some res ∧
      r.1.requests = s.requests ++ [(s.environ, grant s.live res.1 (n.strlen + v.strlen + 2))] := by
  obtain ⟨n, v, array, ⟨entry, heap⟩, rfl, rfl, hn, harray, hfind, hres, hentry⟩ := hadds
  refine ⟨n, v, (entry, heap), rfl, rfl, hres, ?_⟩
  simp only [EnvProcess.setenv, envValidName_of_valid hn, harray, hfind, hres,
    Option.bind_eq_bind, Option.bind_some, Option.isSome_none, Bool.false_eq_true, false_and,
    if_false, if_neg hentry] at h
  obtain ⟨array', -, h⟩ := Option.bind_eq_some_iff.mp h
  obtain ⟨count, -, h⟩ := Option.bind_eq_some_iff.mp h
  obtain ⟨⟨next, heap'⟩, -, h⟩ := Option.bind_eq_some_iff.mp h
  dsimp only at h
  split at h
  · obtain rfl := Option.some.inj h
    rfl
  · obtain rfl := Option.some.inj h
    rfl

theorem setenv_requests {name value : Option CString} {overwrite : Bool}
    {r : EnvProcess × Except Errno Unit} (h : s.setenv area name value overwrite = some r) :
    s.requests ⊆ r.1.requests := by
  by_cases hadds : s.Adds area name value
  · obtain ⟨n, v, res, -, -, -, hrequests⟩ := setenv_of_adds hadds h
    rw [hrequests]
    exact List.subset_append_left _ _
  · rcases setenv_cases h with heq | ⟨n, v, array, index, res, -, -, -, -, -, hcases⟩
    · rw [heq]
      exact List.Subset.refl _
    · rcases hcases with ⟨-, heq⟩ | ⟨i, -, -, heq⟩ | hadds'
      · rw [heq]
        exact List.Subset.refl _
      · rw [heq]
        exact List.Subset.refl _
      · exact absurd hadds' hadds

theorem putenv_cases {string : Option CString} {r : EnvProcess × Except Errno Unit}
    (h : s.putenv area string = some r) :
    r.1 = s ∧ (∀ fits, ¬ VectorCall.Adds area s (.putenv string fits)) ∨
    ∃ text nameLen, string = some text ∧ strchr (byte '=') text.bytes = some nameLen ∧
      ¬ (nameLen = 0 ∨ nameLen ≥ 128) ∧
      s.setenv area (some (text.take nameLen)) (some (text.drop (nameLen + 1))) true =
        some r := by
  unfold EnvProcess.putenv at h
  split at h
  · obtain rfl := Option.some.inj h
    exact Or.inl ⟨rfl, fun fits ⟨text, nameLen, heq, _⟩ => by cases heq⟩
  · rename_i text
    split at h
    · rename_i hnone
      obtain rfl := Option.some.inj h
      refine Or.inl ⟨rfl, fun fits ⟨text', nameLen, heq, hsome, _⟩ => ?_⟩
      obtain rfl := Option.some.inj heq
      cases hnone.symm.trans hsome
    · rename_i nameLen hsome
      split at h
      · rename_i hlen
        obtain rfl := Option.some.inj h
        refine Or.inl ⟨rfl, fun fits ⟨text', nameLen', heq, hsome', hlen', _⟩ => ?_⟩
        obtain rfl := Option.some.inj heq
        obtain rfl := Option.some.inj (hsome.symm.trans hsome')
        exact hlen' hlen
      · rename_i hlen
        exact Or.inr ⟨text, nameLen, rfl, hsome, hlen, h⟩

/-- What a call of `unsetenv` does: nothing or the shift of the entries behind the one found. -/
theorem unsetenv_cases {name : Option CString} {r : EnvProcess × Except Errno Unit}
    (h : s.unsetenv name = some r) :
    r.1 = s ∨ ∃ n len array index count, environAt s.heap.memory s.environ = some array ∧
      envFind array n len = some (some index) ∧ envCount array = some count ∧
      r.1 = { s with
        heap.memory := EnvProcess.shiftWords s.environ (count - index) index s.heap.memory } := by
  unfold EnvProcess.unsetenv at h
  split at h
  · rename_i n nameLen hvalid
    obtain ⟨array, harray, h⟩ := Option.bind_eq_some_iff.mp h
    obtain ⟨index, hfind, h⟩ := Option.bind_eq_some_iff.mp h
    cases index with
    | none =>
      obtain rfl := Option.some.inj h
      exact Or.inl rfl
    | some index =>
      obtain ⟨count, hcount, h⟩ := Option.bind_eq_some_iff.mp h
      obtain rfl := Option.some.inj h
      exact Or.inr ⟨n, nameLen, array, index, count, harray, hfind, hcount, rfl⟩
  · obtain rfl := Option.some.inj h
    exact Or.inl rfl

theorem entrySize_split (text : CString) (k : ℕ) :
    entrySize (some (text.take k)) (some (text.drop (k + 1))) ≤ entrySize (some text) none := by
  simp only [entrySize, Option.map_some, Option.map_none, Option.getD_some, Option.getD_none,
    CString.strlen, CString.take, CString.drop, List.length_take, List.length_drop]
  omega

theorem VectorCall.step_requests {call : VectorCall} (h : call.step boot s = some s') :
    s.requests ⊆ s'.requests := by
  obtain ⟨r, hr, rfl⟩ := Option.map_eq_some_iff.mp h
  cases call with
  | setenv name value overwrite fits => exact setenv_requests hr
  | putenv string fits =>
    rcases putenv_cases hr with ⟨heq, -⟩ | ⟨text, nameLen, -, -, -, hset⟩
    · rw [heq]
      exact List.Subset.refl _
    · exact setenv_requests hset
  | unsetenv name =>
    rcases unsetenv_cases hr with heq | ⟨n, len, array, index, count, -, -, -, heq⟩
    · rw [heq]
      exact List.Subset.refl _
    · rw [heq]
      exact List.Subset.refl _
  | clearenv =>
    obtain rfl := Option.some.inj hr
    exact List.Subset.refl _

/-- A pointer that `realloc` may be asked for. -/
def MayAsk (request : ℕ × (ℕ → Option ℕ)) : Prop :=
  request.1 = 0 ∨ ∃ n, request.2 request.1 = some n

theorem entrySize_no_overflow {n v : CString}
    (hfits : entrySize (some n) (some v) + heapSize ≤ 2 ^ 32) :
    n.strlen + v.strlen + 2 + 16 ≤ 2 ^ 32 := by
  unfold heapSize at hfits
  simp only [entrySize, Option.map_some, Option.getD_some] at hfits
  omega

namespace Quiet

theorem setenv_adds {name value : Option CString} {overwrite : Bool}
    {r : EnvProcess × Except Errno Unit} (q : Quiet boot s)
    (hfits : entrySize name value + heapSize ≤ 2 ^ 32) (hadds : s.Adds area name value)
    (h : s.setenv area name value overwrite = some r) :
    ∃ request ∈ r.1.requests, ¬ MayAsk request := by
  obtain ⟨n, v, res, rfl, rfl, hres, hrequests⟩ := setenv_of_adds hadds h
  obtain ⟨bs, t⟩ := q.tiled
  obtain ⟨res', hres', ⟨bs', t'⟩, -⟩ := malloc_spec t (entrySize_no_overflow hfits)
  obtain rfl := Option.some.inj (hres.symm.trans hres')
  refine ⟨_, hrequests ▸ List.mem_append_right _ List.mem_cons_self, ?_⟩
  rintro (hnull | ⟨k, hk⟩)
  · exact q.environ_ne hnull
  · cases (q.not_live t').symm.trans hk

theorem setenv {name value : Option CString} {overwrite : Bool}
    {r : EnvProcess × Except Errno Unit} (q : Quiet boot s)
    (hfits : entrySize name value + heapSize ≤ 2 ^ 32) (hadds : ¬ s.Adds area name value)
    (h : s.setenv area name value overwrite = some r) : Quiet boot r.1 := by
  rcases setenv_cases h with heq | ⟨n, v, array, index, res, rfl, rfl, harray, hfind, hres, hcases⟩
  · exact heq ▸ q
  have hsize := entrySize_no_overflow hfits
  obtain ⟨bs, t⟩ := q.tiled
  obtain ⟨res', hres', ⟨bs', t'⟩, -⟩ := malloc_spec t hsize
  obtain rfl := Option.some.inj (hres.symm.trans hres')
  have hkept : ∀ x, boot.Kept x → res.2.memory x = boot.memory x := fun x hx =>
    (malloc_frame t hsize hres hx.1).trans (q.kept x hx)
  rcases hcases with ⟨hnull, heq⟩ | ⟨i, rfl, hne, heq⟩ | hadds'
  · rw [hnull] at t'
    rw [heq]
    exact ⟨⟨bs', t'⟩, q.vector, hkept, q.requests⟩
  · obtain ⟨k, hnull, hk⟩ := q.null
    have hlt := (environAt_bounds harray q.environ_ne hnull hfind).1
    obtain ⟨hvector, rfl⟩ := hk.resolve_left (by omega)
    have hheld : grant s.live res.1 (n.strlen + v.strlen + 2) res.1 =
        some (n.strlen + v.strlen + 2) := by
      rw [grant_ne_null s.live hne, Function.update_self]
    have hlen : (assignment n v).memory.length = n.strlen + v.strlen + 2 := by
      simp [assignment, CString.memory, CString.strlen, Nat.add_assoc]
    have hlow := (t'.live_bounds hheld).1
    have hend := t'.live_end hheld
    have hfit : res.1 + (assignment n v).memory.length ≤ res.1 + (n.strlen + v.strlen + 2) :=
      Nat.le_of_eq (by rw [hlen])
    have hwritten := t'.write hheld (Nat.le_refl _) hfit
    have hkept' : ∀ x, boot.Kept x →
        res.2.memory.write res.1 (assignment n v).memory x = boot.memory x := by
      intro x hx
      refine Eq.trans ?_ (hkept x hx)
      rcases hx.1 with hx | hx
      · exact Memory.write_of_lt (by omega)
      · exact Memory.write_of_ge (by omega)
    have hstore : ∀ x, x < s.environ + 4 * i ∨ s.environ + 4 * (i + 1) ≤ x →
        (res.2.memory.write res.1 (assignment n v).memory).store32 (s.environ + 4 * i) res.1 x =
          res.2.memory.write res.1 (assignment n v).memory x :=
      fun x hx => Memory.store32_frame _ (by omega)
    have hstep := q.store hwritten hkept' ⟨hlt, hvector⟩ hstore
    exact heq ▸ hstep
  · exact absurd hadds' hadds

theorem unsetenv {name : Option CString} {r : EnvProcess × Except Errno Unit} (q : Quiet boot s)
    (h : s.unsetenv name = some r) : Quiet boot r.1 := by
  rcases unsetenv_cases h with heq | ⟨n, len, array, index, count, harray, hfind, hcount, heq⟩
  · exact heq ▸ q
  · obtain ⟨bs, t⟩ := q.tiled
    obtain ⟨k, hnull, hk⟩ := q.null
    obtain ⟨hlt, count', hcount', hle⟩ := environAt_bounds harray q.environ_ne hnull hfind
    obtain rfl := Option.some.inj (hcount.symm.trans hcount')
    obtain ⟨hvector, rfl⟩ := hk.resolve_left (by omega)
    have hstep := q.store t q.kept ⟨by omega, hvector⟩ fun x hx =>
      shiftWords_frame (count - index) index s.heap.memory hx
    exact heq ▸ hstep

theorem step {call : VectorCall} (q : Quiet boot s) (hadds : ¬ call.Adds area s)
    (h : call.step boot s = some s') : Quiet boot s' := by
  obtain ⟨r, hr, rfl⟩ := Option.map_eq_some_iff.mp h
  cases call with
  | setenv name value overwrite fits => exact q.setenv fits hadds hr
  | putenv string fits =>
    rcases putenv_cases hr with ⟨heq, -⟩ | ⟨text, nameLen, rfl, hsome, hlen, hset⟩
    · exact heq ▸ q
    · have hsize := Nat.le_trans (Nat.add_le_add_right (entrySize_split text nameLen) _) fits
      exact q.setenv hsize (fun h' => hadds ⟨text, nameLen, rfl, hsome, hlen, h'⟩) hset
  | unsetenv name => exact q.unsetenv hr
  | clearenv =>
    obtain rfl := Option.some.inj hr
    exact ⟨q.tiled, Or.inr rfl, q.kept, q.requests⟩

/-- A call that adds a variable asks `realloc` for a pointer that is not its own. -/
theorem step_adds {call : VectorCall} (q : Quiet boot s) (hadds : call.Adds area s)
    (h : call.step boot s = some s') : ∃ request ∈ s'.requests, ¬ MayAsk request := by
  obtain ⟨r, hr, rfl⟩ := Option.map_eq_some_iff.mp h
  cases call with
  | setenv name value overwrite fits => exact q.setenv_adds fits hadds hr
  | putenv string fits =>
    rcases putenv_cases hr with ⟨-, hnot⟩ | ⟨text, nameLen, rfl, hsome, -, hset⟩
    · exact absurd hadds (hnot fits)
    · obtain ⟨text', nameLen', heq, hsome', -, hadds⟩ := hadds
      obtain rfl := Option.some.inj heq
      obtain rfl := Option.some.inj (hsome.symm.trans hsome')
      have hsize := Nat.le_trans (Nat.add_le_add_right (entrySize_split text nameLen) _) fits
      exact q.setenv_adds hsize hadds hset
  | unsetenv name => cases hadds
  | clearenv => cases hadds

end Quiet

/-! ## Runs -/

theorem run_requests {calls : List VectorCall}
    (h : calls.foldlM (VectorCall.step boot) s = some s') : s.requests ⊆ s'.requests := by
  induction calls generalizing s with
  | nil =>
    obtain rfl := Option.some.inj h
    exact List.Subset.refl _
  | cons call calls ih =>
    obtain ⟨t, ht, h⟩ := Option.bind_eq_some_iff.mp h
    exact fun request hmem => ih h (VectorCall.step_requests ht hmem)

theorem Quiet.run {calls : List VectorCall} (q : Quiet boot s)
    (hcalls : Total.Along (VectorCall.step boot) (fun s call => ¬ call.Adds area s) s calls)
    (h : calls.foldlM (VectorCall.step boot) s = some s') : Quiet boot s' := by
  induction calls generalizing s with
  | nil =>
    obtain rfl := Option.some.inj h
    exact q
  | cons call calls ih =>
    obtain ⟨t, ht, h⟩ := Option.bind_eq_some_iff.mp h
    exact ih (q.step hcalls.1 ht) (hcalls.2 t ht) h

theorem Quiet.along {calls : List VectorCall} (q : Quiet boot s)
    (h : calls.foldlM (VectorCall.step boot) s = some s')
    (hask : ∀ request ∈ s'.requests, MayAsk request) :
    Total.Along (VectorCall.step boot) (fun s call => ¬ call.Adds area s) s calls := by
  induction calls generalizing s with
  | nil => trivial
  | cons call calls ih =>
    obtain ⟨t, ht, h⟩ := Option.bind_eq_some_iff.mp h
    have hadds : ¬ call.Adds area s := by
      intro hadds
      obtain ⟨request, hmem, hnot⟩ := q.step_adds hadds ht
      exact hnot (hask request (run_requests h hmem))
    refine ⟨hadds, fun t' ht' => ?_⟩
    obtain rfl := Option.some.inj (ht.symm.trans ht')
    exact ih (q.step hadds ht) h

/-- Every pointer that `realloc` is asked for is null or live, and no byte outside the heap and
the vector changes, exactly in the runs in which no call adds a variable. -/
theorem environ_requests_iff (area : Area) (boot : Boot area) (calls : List VectorCall)
    (s : EnvProcess) (hrun : calls.foldlM (VectorCall.step boot) boot.start = some s) :
    ((∀ request ∈ s.requests, MayAsk request) ∧
        ∀ x, boot.Kept x → s.heap.memory x = boot.memory x) ↔
      Total.Along (VectorCall.step boot) (fun s call => ¬ call.Adds area s) boot.start calls := by
  constructor
  · rintro ⟨hask, -⟩
    exact boot.start_quiet.along hrun hask
  · intro hcalls
    have q := boot.start_quiet.run hcalls hrun
    refine ⟨fun request hmem => ?_, q.kept⟩
    rw [q.requests] at hmem
    cases hmem

/-- The stack of a process that was started with one argument and the variable `V=1`. -/
def startedStack : Memory :=
  ((Memory.store32 (fun _ => 0) 1024 1).store32 1028 2048 |>.store32 1036 2064).write 2064
    [byte 'V', byte '=', byte '1', 0]

def startedArea : Area := ⟨65536, by decide, by decide⟩

def startedBoot : Boot startedArea where
  memory := startedStack
  environ := startEnviron startedStack 1024
  count := 1
  empty := 3072
  environ_ne := by decide
  empty_ne := by decide
  environ_null := by decide
  empty_null := by decide
  environ_outside := by decide
  empty_outside := by decide
  apart := by decide

/-- `setenv("W", "2", 1)` -/
def addingCall : VectorCall :=
  .setenv (some nameW) (some valueTwo) true (by decide)

/-- The first new variable makes `realloc` read `argc` as the size of the vector: it copies one
byte of the first entry. -/
theorem addingCall_asks :
    ∃ s, [addingCall].foldlM (VectorCall.step startedBoot) startedBoot.start = some s ∧
      (¬ ∀ request ∈ s.requests, MayAsk request) ∧
      startedStack.load32 startedBoot.environ = 2064 ∧ s.heap.memory.load32 s.environ = 16 := by
  have hdata : ([addingCall].foldlM (VectorCall.step startedBoot) startedBoot.start).map
      (fun s => (s.requests.map fun r => (r.1, r.2 r.1), s.heap.memory.load32 s.environ)) =
        some ([(1036, none)], 16) := by decide +kernel
  obtain ⟨s, hs, hdata⟩ := Option.map_eq_some_iff.mp hdata
  obtain ⟨hrequests, hfirst⟩ := Prod.mk.inj hdata
  refine ⟨s, hs, fun hask => ?_, by decide, hfirst⟩
  have hmem : (1036, none) ∈ s.requests.map fun r => (r.1, r.2 r.1) := by simp [hrequests]
  obtain ⟨request, hrequest, heq⟩ := List.mem_map.mp hmem
  obtain ⟨hptr, hlive⟩ := Prod.mk.inj heq
  rcases hask request hrequest with hnull | ⟨n, hn⟩
  · cases hptr.symm.trans hnull
  · cases hlive.symm.trans hn

/-- Another value for the variable, its removal and an empty environment. -/
def keepingCalls : List VectorCall :=
  [.setenv (some nameV) (some valueTwo) true (by decide), .unsetenv (some nameV), .clearenv]

theorem keepingCalls_requests :
    ∃ s, keepingCalls.foldlM (VectorCall.step startedBoot) startedBoot.start = some s ∧
      (((∀ request ∈ s.requests, MayAsk request) ∧
          ∀ x, startedBoot.Kept x → s.heap.memory x = startedBoot.memory x) ↔
        Total.Along (VectorCall.step startedBoot) (fun s call => ¬ call.Adds startedArea s)
          startedBoot.start keepingCalls) := by
  obtain ⟨s, hs⟩ := Option.isSome_iff_exists.mp
    (show (keepingCalls.foldlM (VectorCall.step startedBoot) startedBoot.start).isSome = true by
      decide +kernel)
  exact ⟨s, hs, environ_requests_iff startedArea startedBoot keepingCalls s hs⟩

end LampUserspace.Stdlib
