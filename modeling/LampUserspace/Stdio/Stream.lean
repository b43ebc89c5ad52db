import Mathlib.Algebra.Group.Nat.Defs
import Mathlib.Data.Int.Notation
import LampUserspace.Libc.Ctype
import LampUserspace.Refinement.Runs

/-! # Streams

The reading and positioning functions of `libc_stdio.c` on a stream over a
regular file. The kernel keeps the file and its offset; a `read` that is not at
the end of the file returns one byte at least and any number up to the request,
as its schedule says. Streams are not null.
-/

namespace LampUserspace.Stdio

/-- `struct FILE`; a `pushback` below 0 is none. -/
structure FILE where
  fd : ℤ
  eof : Bool
  err : Bool
  pushback : ℤ

/-- The descriptor of a stream, that of the standard output for the null pointer. -/
def fileFd : Option FILE → ℤ
  | some stream => stream.fd
  | none => 1

/-- An open regular file: its bytes, the offset, and how many bytes the coming reads want to
return. Sizes and offsets of files are `off_t` values. -/
structure Kernel where
  file : List UInt8
  offset : ℕ
  short : ℕ → ℕ
  size_lt : file.length < 2 ^ 31
  offset_lt : offset < 2 ^ 31

namespace Kernel

def ahead (k : Kernel) : List UInt8 := k.file.drop k.offset

/-- The bytes that `read` puts into a buffer of `n` bytes. -/
def read (k : Kernel) (n : ℕ) : List UInt8 × Kernel :=
  let count := min (max 1 (k.short 0)) (min n k.ahead.length)
  (k.ahead.take count,
    { k with
      offset := k.offset + count
      short := fun i => k.short (i + 1)
      offset_lt := by
        have hsize := k.size_lt
        have hoffset := k.offset_lt
        have hahead : k.ahead.length = k.file.length - k.offset := List.length_drop
        omega })

/-- A read takes some of the bytes ahead, and none only when there are none. -/
theorem read_spec (k : Kernel) (n : ℕ) :
    k.ahead = (k.read n).1 ++ (k.read n).2.ahead ∧ (k.read n).1.length ≤ n ∧
      (k.read n).2.file = k.file ∧ (k.read n).2.offset = k.offset + (k.read n).1.length ∧
      (0 < n → (k.read n).1 = [] → k.ahead = []) := by
  generalize hcount : min (max 1 (k.short 0)) (min n k.ahead.length) = count
  have hgot : (k.read n).1 = k.ahead.take count := by rw [← hcount]; rfl
  have hoffset : (k.read n).2.offset = k.offset + count := by rw [← hcount]; rfl
  have hahead : (k.read n).2.ahead = k.ahead.drop count := by
    change k.file.drop (k.read n).2.offset = (k.file.drop k.offset).drop count
    rw [hoffset, List.drop_drop]
  rw [hgot, hahead, hoffset, List.length_take]
  refine ⟨(List.take_append_drop _ _).symm, by omega, rfl, by omega, fun hn hnil => ?_⟩
  rcases List.take_eq_nil_iff.mp hnil with h0 | h0
  · exact List.length_eq_zero_iff.mp (by omega)
  · exact h0

inductive Whence where
  | set
  | cur
  | ends
  | other

def target (k : Kernel) (offset : ℤ) : Whence → Option ℤ
  | .set => some offset
  | .cur => some (k.offset + offset)
  | .ends => some (k.file.length + offset)
  | .other => none

/-- `lseek`; an offset that is not an `off_t` is refused. -/
def lseek (k : Kernel) (offset : Int32) (whence : Whence) : ℤ × Kernel :=
  match k.target offset.toInt whence with
  | some pos =>
    if h : 0 ≤ pos ∧ pos.toNat < 2 ^ 31 then
      (pos, { k with offset := pos.toNat, offset_lt := h.2 })
    else (-1, k)
  | none => (-1, k)

theorem lseek_of_target {k : Kernel} {offset : Int32} {whence : Whence} {pos : ℕ}
    (h : k.target offset.toInt whence = some (pos : ℤ)) (hpos : pos < 2 ^ 31) :
    k.lseek offset whence = ((pos : ℤ), { k with offset := pos, offset_lt := hpos }) := by
  unfold lseek
  rw [h]
  exact dif_pos ⟨Int.natCast_nonneg pos, hpos⟩

theorem lseek_of_refused {k : Kernel} {offset : Int32} {whence : Whence}
    (h : ∀ pos, k.target offset.toInt whence = some pos → ¬ (0 ≤ pos ∧ pos.toNat < 2 ^ 31)) :
    k.lseek offset whence = (-1, k) := by
  unfold lseek
  split
  · rename_i pos hpos
    exact dif_neg (h pos hpos)
  · rfl

end Kernel

open Kernel

/-- A stream with the kernel's side of it. -/
structure Stream where
  stream : FILE
  kernel : Kernel

namespace Stream

def fgetc (s : Stream) : ℤ × Stream :=
  if s.stream.pushback ≥ 0 then
    (s.stream.pushback, { s with stream.pushback := -1 })
  else
    let (got, kernel) := s.kernel.read 1
    match got with
    | ch :: _ => (ch.toNat, { s with kernel := kernel })
    | [] => (-1, { s with stream.eof := true, kernel := kernel })

def ungetc (c : Int32) (s : Stream) : ℤ × Stream :=
  if c = -1 ∨ s.stream.pushback ≥ 0 then (-1, s)
  else
    let ch := UInt8.ofInt c.toInt
    (ch.toNat, { s with stream.pushback := ch.toNat, stream.eof := false })

def clearerr (s : Stream) : Stream := { s with stream.eof := false, stream.err := false }

def adjusted (s : Stream) (offset : Int32) : Whence → Int32
  | .cur => if s.stream.pushback ≥ 0 then offset - 1 else offset
  | _ => offset

def fseeko (offset : Int32) (whence : Whence) (s : Stream) : ℤ × Stream :=
  let (pos, kernel) := s.kernel.lseek (s.adjusted offset whence) whence
  if pos < 0 then (-1, { s with kernel := kernel })
  else (0, { s with kernel := kernel, stream.pushback := -1, stream.eof := false })

def fseek (offset : Int32) (whence : Whence) (s : Stream) : ℤ × Stream := fseeko offset whence s

def ftell (s : Stream) : ℤ × Stream :=
  let (pos, kernel) := s.kernel.lseek 0 .cur
  if pos < 0 then (-1, { s with kernel := kernel })
  else (if s.stream.pushback ≥ 0 then pos - 1 else pos, { s with kernel := kernel })

def rewind (s : Stream) : Stream := (fseeko 0 .set s).2.clearerr

/-- The loop of `fread`, which stores the bytes `out` so far. -/
def freadLoop (total : ℕ) (out : List UInt8) (s : Stream) : List UInt8 × Stream :=
  if out.length < total then
    if s.stream.pushback ≥ 0 then
      freadLoop total (out ++ [UInt8.ofInt s.stream.pushback]) { s with stream.pushback := -1 }
    else if (s.kernel.read (total - out.length)).1 = [] then
      (out, { s with stream.eof := true, kernel := (s.kernel.read (total - out.length)).2 })
    else
      freadLoop total (out ++ (s.kernel.read (total - out.length)).1)
        { s with kernel := (s.kernel.read (total - out.length)).2 }
  else (out, s)
termination_by total - out.length
decreasing_by
  · simp only [List.length_append, List.length_cons, List.length_nil]
    omega
  · rename_i h
    have hpos := List.length_pos_iff.mpr h
    simp only [List.length_append]
    omega

/-- The number of items read and the bytes stored. -/
def fread (size nmemb : ℕ) (s : Stream) : ℕ × List UInt8 × Stream :=
  let total := size * nmemb % 2 ^ 32
  if size = 0 ∨ nmemb = 0 then (0, [], s)
  else
    let (out, s) := freadLoop total [] s
    (out.length / size, out, s)

theorem ofInt_toNat (c : UInt8) : UInt8.ofInt c.toNat = c := by
  apply UInt8.toNat_inj.mp
  have hlt := c.toNat_lt
  simp only [UInt8.ofInt, UInt8.toNat_ofNat']
  omega

/-- The logical stream: the pushed-back byte, if any, then the file from the offset on. -/
def bytes (s : Stream) : List UInt8 :=
  (if s.stream.pushback ≥ 0 then [UInt8.ofInt s.stream.pushback] else []) ++ s.kernel.ahead

theorem bytes_fgetc {s : Stream} (hc : s.fgetc.1 ≠ -1) :
    s.bytes = UInt8.ofInt s.fgetc.1 :: s.fgetc.2.bytes := by
  unfold fgetc at hc ⊢
  by_cases hpush : s.stream.pushback ≥ 0
  · simp [bytes, hpush]
  · rw [if_neg hpush] at hc ⊢
    have hread := read_spec s.kernel 1
    generalize s.kernel.read 1 = r at hc hread ⊢
    obtain ⟨got, kernel⟩ := r
    cases got with
    | nil => exact absurd rfl hc
    | cons ch got =>
      obtain ⟨hahead, hlength, -⟩ := hread
      obtain rfl : got = [] := List.length_eq_zero_iff.mp (by simpa using hlength)
      simp [bytes, hpush, hahead, ofInt_toNat]

/-- The loop of `getline` with the line `buf` so far: whether it stopped at the end of the file,
the capacity and the line, or `none` when the buffer could not grow. -/
def getlineLoop (alloc : ℕ → Bool) (cap : ℕ) (buf : List UInt8) (s : Stream) :
    Option (Bool × ℕ × List UInt8) × Stream :=
  if _hc : s.fgetc.1 = -1 then (some (true, cap, buf), s.fgetc.2)
  else
    let grow := buf.length + 1 ≥ cap
    let cap := if grow then cap * 2 % 2 ^ 32 else cap
    if grow ∧ ¬ alloc cap then (none, s.fgetc.2)
    else
      let buf := buf ++ [UInt8.ofInt s.fgetc.1]
      if s.fgetc.1 = (byte '\n').toNat then (some (false, cap, buf), s.fgetc.2)
      else getlineLoop alloc cap buf s.fgetc.2
termination_by s.bytes.length
decreasing_by
  rw [bytes_fgetc _hc]
  exact Nat.lt_succ_self _

/-- What `getline` asks of its buffer: a block has at least `n` bytes, one at least, and without one
`malloc` can account for the size. -/
def BufferFits (lineptr : Bool) (n : ℕ) : Prop := (lineptr = true → 0 < n) ∧ n + 16 ≤ 2 ^ 32

/-- The returned value, the line and the capacity. `lineptr` tells whether there is a buffer of `n`
bytes or more already; `alloc` says which allocations succeed. -/
def getline (alloc : ℕ → Bool) (lineptr : Bool) (n : ℕ) (s : Stream) :
    ℤ × List UInt8 × ℕ × Stream :=
  let cap := if n ≠ 0 then n else 128
  if ¬ lineptr ∧ ¬ alloc cap then (-1, [], n, s)
  else
    match getlineLoop alloc cap [] s with
    | (none, s) => (-1, [], n, s)
    | (some (eof, cap, buf), s) =>
      if buf.length = 0 ∧ eof then (-1, [], n, s) else (buf.length, buf, cap, s)

end Stream

end LampUserspace.Stdio
