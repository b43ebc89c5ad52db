import LampUserspace.Partial.Total
import LampUserspace.Stdio.Logical

/-! # Streams over any descriptor

The functions of `libc_stdio.c` on a stream whose descriptor need not be a
regular file: a `read` or a `write` may fail, and what a `read` returns after the
end of the file is open. Over a regular file they are the functions of a `Stream`.
-/

namespace LampUserspace.Stdio

open Kernel

universe u

/-- The kernel's side of a descriptor: what the system calls answer, where `none` is `-1`. -/
structure Device (κ : Type u) where
  read : κ → ℕ → Option (List UInt8) × κ
  write : κ → List UInt8 → Option ℕ × κ
  lseek : κ → Int32 → Whence → Option ℕ × κ
  read_le : ∀ k n bytes, (read k n).1 = some bytes → bytes.length ≤ n
  write_le : ∀ k bytes n, (write k bytes).1 = some n → n ≤ bytes.length

/-- What happens on a stream: the answers of the kernel, and the calls that clear an indicator. -/
inductive Event where
  | read (answer : Option (List UInt8))
  | write (answer : Option ℕ)
  | seek
  | ungetc
  | clearerr

/-- A stream with its descriptor, and what has happened on it, the latest first. -/
structure Channel (κ : Type u) where
  stream : FILE
  kernel : κ
  log : List Event

namespace Channel

variable {κ : Type u} (dev : Device κ)

def sysRead (n : ℕ) (c : Channel κ) : Option (List UInt8) × Channel κ :=
  let (answer, kernel) := dev.read c.kernel n
  (answer, { c with kernel := kernel, log := .read answer :: c.log })

def sysWrite (bytes : List UInt8) (c : Channel κ) : Option ℕ × Channel κ :=
  let (answer, kernel) := dev.write c.kernel bytes
  (answer, { c with kernel := kernel, log := .write answer :: c.log })

def feof (c : Channel κ) : Bool := c.stream.eof
def ferror (c : Channel κ) : Bool := c.stream.err

def clearerr (c : Channel κ) : Channel κ :=
  { c with stream.eof := false, stream.err := false, log := .clearerr :: c.log }

def fgetc (c : Channel κ) : ℤ × Channel κ :=
  if c.stream.pushback ≥ 0 then (c.stream.pushback, { c with stream.pushback := -1 })
  else
    match (c.sysRead dev 1).1 with
    | some [ch] => (ch.toNat, (c.sysRead dev 1).2)
    | _ => (-1, { (c.sysRead dev 1).2 with stream.eof := true })

def ungetc (ch : Int32) (c : Channel κ) : ℤ × Channel κ :=
  if ch = -1 ∨ c.stream.pushback ≥ 0 then (-1, c)
  else
    let pushed := UInt8.ofInt ch.toInt
    (pushed.toNat,
      { c with stream.pushback := pushed.toNat, stream.eof := false, log := .ungetc :: c.log })

/-- The offset that `fseeko` passes on. -/
def adjusted (c : Channel κ) (offset : Int32) : Whence → Int32
  | .cur => if c.stream.pushback ≥ 0 then offset - 1 else offset
  | _ => offset

def fseeko (offset : Int32) (whence : Whence) (c : Channel κ) : ℤ × Channel κ :=
  match dev.lseek c.kernel (c.adjusted offset whence) whence with
  | (none, kernel) => (-1, { c with kernel := kernel })
  | (some _, kernel) =>
    (0, { stream := { c.stream with pushback := -1, eof := false }, kernel := kernel,
          log := .seek :: c.log })

def rewind (c : Channel κ) : Channel κ := (fseeko dev 0 .set c).2.clearerr

/-- The loop of `fread`, which stores the bytes `out` so far. -/
def freadLoop (total : ℕ) (out : List UInt8) (c : Channel κ) : List UInt8 × Channel κ :=
  if out.length < total then
    if c.stream.pushback ≥ 0 then
      freadLoop total (out ++ [UInt8.ofInt c.stream.pushback]) { c with stream.pushback := -1 }
    else
      match (c.sysRead dev (total - out.length)).1 with
      | some (ch :: got) =>
        freadLoop total (out ++ ch :: got) (c.sysRead dev (total - out.length)).2
      | _ => (out, { (c.sysRead dev (total - out.length)).2 with stream.eof := true })
  else (out, c)
termination_by total - out.length
decreasing_by all_goals simp only [List.length_append, List.length_cons, List.length_nil]; omega

/-- The number of items read and the bytes stored. -/
def fread (size nmemb : ℕ) (c : Channel κ) : ℕ × List UInt8 × Channel κ :=
  if size = 0 ∨ nmemb = 0 then (0, [], c)
  else
    let (out, c) := freadLoop dev (size * nmemb % 2 ^ 32) [] c
    (out.length / size, out, c)

/-- The number of items written; `bytes` are the `size * nmemb` bytes at the pointer. -/
def fwrite (bytes : List UInt8) (size : ℕ) (c : Channel κ) : ℕ × Channel κ :=
  let (answer, c) := c.sysWrite dev bytes
  match answer with
  | some (n + 1) => ((n + 1) / size, c)
  | _ => (0, c)

/-- The loop of `fgets` with room for so many more bytes. -/
def fgetsLoop : ℕ → List UInt8 → Channel κ → List UInt8 × Channel κ
  | 0, s, c => (s, c)
  | room + 1, s, c =>
    match (c.sysRead dev 1).1 with
    | some [ch] =>
      if ch = byte '\n' then (s ++ [ch], (c.sysRead dev 1).2)
      else fgetsLoop room (s ++ [ch]) (c.sysRead dev 1).2
    | _ => (s, (c.sysRead dev 1).2)

/-- The line, before the NUL that ends it, or `none` for a null pointer. -/
def fgets (size : ℤ) (c : Channel κ) : Option (List UInt8) × Channel κ :=
  if size ≤ 0 then (none, c)
  else
    let (s, c) := fgetsLoop dev (size.toNat - 1) [] c
    (if s = [] then none else some s, c)

/-- The loop of `getline`, for at most `rounds` rounds, with the line `buf` so far: whether it
stopped at `EOF`, the capacity and the line, or `none` when the buffer could not grow. -/
def getlineLoop (alloc : ℕ → Bool) :
    ℕ → ℕ → List UInt8 → Channel κ → Option (Option (Bool × ℕ × List UInt8) × Channel κ)
  | 0, _, _, _ => none
  | rounds + 1, cap, buf, c =>
    if (fgetc dev c).1 = -1 then some (some (true, cap, buf), (fgetc dev c).2)
    else
      let grow := buf.length + 1 ≥ cap
      let cap := if grow then cap * 2 % 2 ^ 32 else cap
      if grow ∧ ¬ alloc cap then some (none, (fgetc dev c).2)
      else
        let buf := buf ++ [UInt8.ofInt (fgetc dev c).1]
        if (fgetc dev c).1 = (byte '\n').toNat then some (some (false, cap, buf), (fgetc dev c).2)
        else getlineLoop alloc rounds cap buf (fgetc dev c).2

/-- The returned value, the line and the capacity. `lineptr` tells whether there is a buffer of
`n` bytes already; `alloc` says which allocations succeed. -/
def getline (alloc : ℕ → Bool) (rounds : ℕ) (lineptr : Bool) (n : ℕ) (c : Channel κ) :
    Option (ℤ × List UInt8 × ℕ × Channel κ) :=
  let cap := if n ≠ 0 then n else 128
  if ¬ lineptr ∧ ¬ alloc cap then some (-1, [], n, c)
  else do
    match ← getlineLoop dev alloc rounds cap [] c with
    | (none, c) => return (-1, [], n, c)
    | (some (eof, cap, buf), c) =>
      return if buf.length = 0 ∧ eof then (-1, [], n, c) else (buf.length, buf, cap, c)

/-- `s` is the text without its NUL. -/
def fputs (s : List UInt8) (c : Channel κ) : ℤ × Channel κ :=
  let (answer, c) := c.sysWrite dev s
  (if answer = none then -1 else 0, c)

def fputc (ch : Int32) (c : Channel κ) : ℤ × Channel κ :=
  let (answer, c) := c.sysWrite dev [UInt8.ofInt ch.toInt]
  (if answer = some 1 then ch.toInt else -1, c)

/-! ## Regular files -/

def fileDevice : Device Kernel where
  read k n := (some (k.read n).1, (k.read n).2)
  write k _ := (none, k)
  lseek k offset whence :=
    let (pos, k) := k.lseek offset whence
    (if pos < 0 then none else some pos.toNat, k)
  read_le k n := by
    rintro bytes ⟨⟩
    exact (read_spec k n).2.1
  write_le := nofun

def toStream (c : Channel Kernel) : Stream := ⟨c.stream, c.kernel⟩

@[simp] theorem toStream_stream (c : Channel Kernel) : c.toStream.stream = c.stream := rfl
@[simp] theorem toStream_kernel (c : Channel Kernel) : c.toStream.kernel = c.kernel := rfl

section

variable (c : Channel Kernel)

theorem fgetc_file : (fgetc fileDevice c).map id toStream = c.toStream.fgetc := by
  obtain ⟨stream, kernel, log⟩ := c
  have hlength := (read_spec kernel 1).2.1
  by_cases h : stream.pushback ≥ 0
  · simp [fgetc, Stream.fgetc, toStream, h]
  · rcases hread : kernel.read 1 with ⟨got, k⟩
    rw [hread] at hlength
    rcases got with _ | ⟨ch, _ | ⟨ch', got⟩⟩
    · simp [fgetc, Stream.fgetc, toStream, h, sysRead, fileDevice, hread]
    · simp [fgetc, Stream.fgetc, toStream, h, sysRead, fileDevice, hread]
    · simp at hlength

theorem ungetc_file (ch : Int32) : (ungetc ch c).map id toStream = c.toStream.ungetc ch := by
  unfold ungetc Stream.ungetc
  by_cases h : ch = -1 ∨ c.stream.pushback ≥ 0 <;> simp [toStream, h]

theorem fseeko_file (offset : Int32) (whence : Whence) :
    (fseeko fileDevice offset whence c).map id toStream = c.toStream.fseeko offset whence := by
  have hadjusted : c.adjusted offset whence = c.toStream.adjusted offset whence := by
    cases whence <;> rfl
  unfold fseeko Stream.fseeko
  rw [hadjusted, toStream_kernel]
  generalize c.toStream.adjusted offset whence = offset
  rcases hseek : c.kernel.lseek offset whence with ⟨pos, k⟩
  by_cases h : pos < 0 <;> simp [fileDevice, hseek, h, toStream]

theorem rewind_file : (rewind fileDevice c).toStream = c.toStream.rewind := by
  have hseek := congrArg Prod.snd (fseeko_file c 0 .set)
  rw [Stream.rewind, ← hseek]
  rfl

theorem freadLoop_file (total : ℕ) (out : List UInt8) :
    (freadLoop fileDevice total out c).map id toStream =
      Stream.freadLoop total out c.toStream := by
  fun_induction freadLoop fileDevice total out c with
  | case1 out c hlt hpush ih =>
    rw [ih, Stream.freadLoop.eq_1 total out, if_pos hlt, toStream_stream, if_pos hpush]
    rfl
  | case2 out c hlt hpush ch got hread ih =>
    have hgot : (c.kernel.read (total - out.length)).1 = ch :: got := Option.some.inj hread
    rw [ih, Stream.freadLoop.eq_1 total out, if_pos hlt, toStream_stream, if_neg hpush]
    simp [toStream, hgot, sysRead, fileDevice]
  | case3 out c hlt hpush hread =>
    have hgot : (c.kernel.read (total - out.length)).1 = [] := by
      cases hnil : (c.kernel.read (total - out.length)).1 with
      | nil => rfl
      | cons ch got => exact absurd (congrArg some hnil) (hread ch got)
    rw [Stream.freadLoop.eq_1, if_pos hlt, toStream_stream, if_neg hpush]
    simp [toStream, hgot, sysRead, fileDevice]
  | case4 out c hlt =>
    rw [Stream.freadLoop.eq_1, if_neg hlt]
    rfl

theorem getlineLoop_file (alloc : ℕ → Bool) {rounds : ℕ} (cap : ℕ) (buf : List UInt8)
    (h : c.toStream.bytes.length < rounds) :
    (getlineLoop fileDevice alloc rounds cap buf c).map (Prod.map id toStream) =
      some (Stream.getlineLoop alloc cap buf c.toStream) := by
  induction rounds generalizing c cap buf with
  | zero => omega
  | succ rounds ih =>
    have hget := congrArg Prod.fst (fgetc_file c)
    have hnext := congrArg Prod.snd (fgetc_file c)
    dsimp only [Prod.map_fst, Prod.map_snd, id] at hget hnext
    rw [getlineLoop, Stream.getlineLoop, hget]
    by_cases hc : c.toStream.fgetc.1 = -1
    · simp [hc, hnext]
    · have hlt := congrArg List.length (Stream.bytes_fgetc hc)
      rw [List.length_cons, ← hnext] at hlt
      rw [if_neg hc, dif_neg hc, ← hnext]
      dsimp only
      generalize (if buf.length + 1 ≥ cap then cap * 2 % 2 ^ 32 else cap) = cap'
      by_cases hgrow : buf.length + 1 ≥ cap ∧ ¬ alloc cap'
      · rw [if_pos hgrow, if_pos hgrow]
        rfl
      · rw [if_neg hgrow, if_neg hgrow]
        split
        · rfl
        · exact ih _ _ _ (by omega)

theorem fread_file (size nmemb : ℕ) :
    (fread fileDevice size nmemb c).map id (Prod.map id toStream) =
      c.toStream.fread size nmemb := by
  unfold fread Stream.fread
  dsimp only
  rw [← freadLoop_file]
  split <;> rfl

theorem getline_file (alloc : ℕ → Bool) {rounds : ℕ} (lineptr : Bool) (n : ℕ)
    (h : c.toStream.bytes.length < rounds) :
    (getline fileDevice alloc rounds lineptr n c).map
      (Prod.map id (Prod.map id (Prod.map id toStream))) =
        some (c.toStream.getline alloc lineptr n) := by
  unfold getline Stream.getline
  dsimp only
  generalize (if n ≠ 0 then n else 128) = cap
  obtain ⟨⟨line, c'⟩, hline, hsame⟩ :=
    Option.map_eq_some_iff.mp (getlineLoop_file c alloc cap [] h)
  rw [hline, ← hsame]
  by_cases halloc : ¬ lineptr ∧ ¬ alloc cap
  · rw [if_pos halloc, if_pos halloc]
    rfl
  · rw [if_neg halloc, if_neg halloc]
    rcases line with _ | ⟨eof, cap, buf⟩
    · rfl
    · cases buf <;> cases eof <;> rfl

end

end Channel

end LampUserspace.Stdio
