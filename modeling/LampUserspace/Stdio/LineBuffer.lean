import LampUserspace.Stdio.Logical
import LampUserspace.Stdlib.Environ
import LampUserspace.Stdlib.HeapMoves

/-! # `getline` on the heap

`getline` of `libc_stdio.c` with the buffer that `malloc` and `realloc` of
`libc_stdlib.c` give it. Besides the heap, what the program holds is carried along,
and every store into the buffer leaves its offset and the size that the header of the
block has then.
-/

namespace LampUserspace.Stdio

open Stdlib

/-- The variables of `getline` that its loop changes, and the stores that were made. -/
structure Line where
  process : Process
  cap : ℕ
  buf : ℕ
  len : ℕ
  stores : List (ℕ × ℕ)

/-- Why the loop ended: at `EOF`, behind a newline, or because the buffer could not grow. -/
inductive Ending
  | eof
  | newline
  | refused
  deriving DecidableEq

namespace Line

/-- `buf[len] = c` -/
def store (l : Line) (c : UInt8) : Line :=
  { l with
    process.heap.memory := l.process.heap.memory.store8 (l.buf + l.len) c
    stores := l.stores ++ [(l.len, blockSize l.process.heap.memory (l.buf - header))] }

section

-- the address of the heap
variable (gHeap : ℕ)

/-- The doubling of the capacity. The flag tells whether `realloc` returned a buffer. -/
def grow (l : Line) : Option (Bool × Line) := do
  let cap := l.cap * 2 % 2 ^ 32
  let (nb, heap) ← realloc gHeap l.process.heap l.buf cap
  let process : Process := ⟨heap, reallocated l.process.live l.buf cap nb⟩
  return (nb ≠ 0, { l with process := process, cap := cap, buf := if nb ≠ 0 then nb else l.buf })

def ready (l : Line) : Option (Bool × Line) :=
  if l.len + 1 ≥ l.cap then l.grow gHeap else some (true, l)

end

/-- `buf[len++] = c` -/
def put (l : Line) (c : UInt8) : Line := { l.store c with len := l.len + 1 }

end Line

section

variable (gHeap : ℕ)

def getlineLoop (s : Stream) (l : Line) : Option (Ending × Stream × Line) :=
  if _hc : s.fgetc.1 = -1 then some (.eof, s.fgetc.2, l)
  else
    (l.ready gHeap).bind fun r =>
      if ¬ r.1 then some (.refused, s.fgetc.2, r.2)
      else if s.fgetc.1 = (byte '\n').toNat then
        some (.newline, s.fgetc.2, r.2.put (UInt8.ofInt s.fgetc.1))
      else getlineLoop s.fgetc.2 (r.2.put (UInt8.ofInt s.fgetc.1))
termination_by s.bytes.length
decreasing_by
  rw [Stream.bytes_fgetc _hc]
  exact Nat.lt_succ_self _

theorem getlineLoop_nil {s : Stream} (hs : s.WellFormed) (h : s.bytes = []) (l : Line) :
    getlineLoop gHeap s l = some (.eof, s.fgetc.2, l) ∧ Stream.Reads s s.fgetc.2 0 := by
  obtain ⟨hc, hreads⟩ := Stream.fgetc_nil hs h
  exact ⟨by rw [getlineLoop, dif_pos hc], hreads⟩

theorem getlineLoop_cons {s : Stream} {c : UInt8} {rest : List UInt8} (hs : s.WellFormed)
    (h : s.bytes = c :: rest) (l : Line) :
    getlineLoop gHeap s l = ((l.ready gHeap).bind fun r =>
        if ¬ r.1 then some (.refused, s.fgetc.2, r.2)
        else if c = byte '\n' then some (.newline, s.fgetc.2, r.2.put c)
        else getlineLoop gHeap s.fgetc.2 (r.2.put c)) ∧
      s.fgetc.2.bytes = rest ∧ s.fgetc.2.WellFormed ∧ Stream.Reads s s.fgetc.2 1 := by
  obtain ⟨hc, hreads⟩ := Stream.fgetc_cons hs h
  have hne : ¬ s.fgetc.1 = -1 := by omega
  have hnl : s.fgetc.1 = (byte '\n').toNat ↔ c = byte '\n' := by
    rw [hc, ← UInt8.toNat_inj]
    omega
  have hbyte : UInt8.ofInt s.fgetc.1 = c := by
    rw [hc]
    exact Stream.ofInt_toNat c
  refine ⟨?_, ?_, Or.inl hreads.pushback, hreads⟩
  · rw [getlineLoop, dif_neg hne]
    simp only [hnl, hbyte]
  · have hcons := Stream.bytes_fgetc hne
    rw [h] at hcons
    exact (List.cons.inj hcons).2.symm

theorem line_newline (rest : List UInt8) :
    Logical.line (byte '\n' :: rest) = [byte '\n'] := if_pos rfl

theorem line_cons {c : UInt8} (hc : c ≠ byte '\n') (rest : List UInt8) :
    Logical.line (c :: rest) = c :: Logical.line rest := if_neg hc

/-- As long as the line is not complete, a buffer in which `I` holds of the text read so far takes
one more byte, or is refused and leaves `F`. -/
def Takes (I F : List UInt8 → Line → Prop) (size : ℕ) : Prop :=
  ∀ text l, text.length < size → I text l →
    (∃ l', l.ready gHeap = some (false, l') ∧ F text l') ∨
      ∃ l', l.ready gHeap = some (true, l') ∧ ∀ c, I (text ++ [c]) (l'.put c)

/-- The loop reads the line, or stops inside it where the buffer is refused. -/
theorem getlineLoop_takes {I F : List UInt8 → Line → Prop} {size : ℕ}
    (htakes : Takes gHeap I F size) {s : Stream} (hs : s.WellFormed) {l : Line}
    {text : List UInt8} (h : I text l) (hsize : (text ++ Logical.line s.bytes).length ≤ size) :
    Total (getlineLoop gHeap s l) fun r =>
      (r.1 = .refused ∧ ∃ t, t.length < (text ++ Logical.line s.bytes).length ∧ F t r.2.2) ∨
      r.1 ≠ .refused ∧ I (text ++ Logical.line s.bytes) r.2.2 ∧
        (s.bytes = [] → r.1 = .eof ∧ r.2.2 = l) ∧
        Stream.Reads s r.2.1 (Logical.line s.bytes).length := by
  induction hbytes : s.bytes generalizing s l text with
  | nil =>
    obtain ⟨hend, hreads⟩ := getlineLoop_nil gHeap hs hbytes l
    refine Total.intro hend (Or.inr ⟨fun h => Ending.noConfusion h, ?_, fun _ => ⟨rfl, rfl⟩,
      hreads⟩)
    rwa [Logical.line, List.append_nil]
  | cons c rest ih =>
    obtain ⟨hloop, hrest, hwf, hreads⟩ := getlineLoop_cons gHeap hs hbytes l
    have hlong : text.length < (text ++ Logical.line (c :: rest)).length := by
      rw [Logical.line]
      split <;> simp
    rw [hbytes] at hsize
    rw [hloop]
    rcases htakes text l (Nat.lt_of_lt_of_le hlong hsize) h with
      ⟨l', hready, hrefused⟩ | ⟨l', hready, hput⟩
    · rw [hready]
      exact Total.intro rfl (Or.inl ⟨rfl, text, hlong, hrefused⟩)
    · rw [hready]
      simp only [Option.bind_some, Bool.not_eq_true, Bool.true_eq_false, if_false]
      apply Total.ite
      · rintro rfl
        rw [line_newline]
        exact Total.some (Or.inr ⟨fun h => Ending.noConfusion h, hput _,
          fun hnil => absurd hnil (List.cons_ne_nil _ _), hreads⟩)
      · intro hc
        have happ : text ++ Logical.line (c :: rest) = text ++ [c] ++ Logical.line rest := by
          rw [line_cons hc, List.append_assoc]
          rfl
        rw [happ] at hsize ⊢
        refine (ih hwf (hput c) (hrest.symm ▸ hsize) hrest).mono fun r _ hr => ?_
        rcases hr with hr | ⟨hending, hr, -, hreads'⟩
        · exact Or.inl hr
        · refine Or.inr ⟨hending, hr, fun hnil => absurd hnil (List.cons_ne_nil _ _), ?_⟩
          have htrans := hreads.trans hreads'
          rwa [line_cons hc, List.length_cons, Nat.add_comm]

/-- The returned value, `*lineptr` and `*n` where these pointers are not null, the error stored in
`errno`, if any, and what the call has left. -/
structure Got where
  ret : ℤ
  lineptr : Option ℕ
  n : Option ℕ
  errno : Option Errno
  process : Process
  stream : Stream
  stores : List (ℕ × ℕ)

/-- `*n ? *n : 128` -/
def capacity (n : ℕ) : ℕ := if n ≠ 0 then n else 128

/-- `*lineptr ? *lineptr : malloc(cap)` -/
def getlineBuf (lineptr cap : ℕ) (p : Process) : Option (ℕ × Process) :=
  if lineptr ≠ 0 then some (lineptr, p)
  else (malloc gHeap p.heap cap).map fun r => (r.1, ⟨r.2, grant p.live r.1 cap⟩)

def getlineEnd (lineptr n : ℕ) (ending : Ending) (s : Stream) (l : Line) : Option Got :=
  if ending = .refused then
    some ⟨-1, some lineptr, some n, some .ENOMEM, l.process, s, l.stores⟩
  else if l.len = 0 ∧ ending = .eof then
    if lineptr ≠ 0 then some ⟨-1, some lineptr, some n, none, l.process, s, l.stores⟩
    else (free gHeap l.process.heap l.buf).map fun h =>
      ⟨-1, some lineptr, some n, none, ⟨h, release l.process.live l.buf⟩, s, l.stores⟩
  else
    some ⟨l.len, some l.buf, some l.cap, none, (l.store 0).process, s, (l.store 0).stores⟩

/-- `lineptr` and `n` are null or hold a value. -/
def getline (lineptr n : Option ℕ) (s : Stream) (p : Process) : Option Got :=
  match lineptr, n with
  | some lineptr, some n =>
    (getlineBuf gHeap lineptr (capacity n) p).bind fun r =>
      if r.1 = 0 then some ⟨-1, some lineptr, some n, some .ENOMEM, r.2, s, []⟩
      else (getlineLoop gHeap s ⟨r.2, capacity n, r.1, 0, []⟩).bind fun e =>
        getlineEnd gHeap lineptr n e.1 e.2.1 e.2.2
  | lineptr, n => some ⟨-1, lineptr, n, some .EINVAL, p, s, []⟩

end

end LampUserspace.Stdio
