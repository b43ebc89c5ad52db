import Mathlib.Data.Finset.Option
import LampUserspace.Libc.Ctype

/-! # Compiled programs and the compiler's buffer

The instruction format of `libc_regex.c`, the compiler state, and the three
operations that grow a program: `re_emit`, `re_insert` and `re_copy_block`.
Each asks the allocator for room first; what it then does to the instructions
is a pure operation on lists, stated on its own.
-/

namespace LampUserspace.Regex

inductive ReOp
  | reChar | reAny | reClass | reSplit | reJmp | reSave
  | reBol | reEol | reWordb | reNotWordb | reMatch
  deriving DecidableEq, Repr

/-- The status codes of `regex.h`; `ok` is the zero the functions return on success. -/
inductive RegCode
  | ok | regNomatch | regBadpat | regEcollate | regEctype | regEescape | regEsubreg
  | regEbrack | regEparen | regEbrace | regBadbr | regErange | regEspace
  deriving DecidableEq, Repr

def regExtended : UInt32 := 1

def regIcase : UInt32 := 2

def regNewline : UInt32 := 4

def regNosub : UInt32 := 8

def regNotbol : UInt32 := 1

def regNoteol : UInt32 := 2

/-- `flags & bit` as a C condition. -/
def hasFlag (flags bit : UInt32) : Bool := flags &&& bit != 0

/-- The 32-byte bitmap of a bracket expression. -/
abbrev ByteSet := Vector UInt8 32

def ByteSet.empty : ByteSet := Vector.replicate 32 0

/-- One instruction; `x` and `y` are branch targets, a capture slot, or unused. -/
structure ReInst where
  op : ReOp
  ch : UInt8 := 0
  set : ByteSet := ByteSet.empty
  x : Int := 0
  y : Int := 0
  deriving DecidableEq

/-- An instruction cleared by `memset`; opcode zero is `RE_CHAR`. -/
def ReInst.zero : ReInst := { op := .reChar }

/-! ## The allocator -/

/--
The allocator as the compiler sees it. `grants n` says whether request `n` succeeds;
the block it returns is named by the number of the request.
-/
structure Heap where
  live : Finset ℕ
  next : ℕ
  lt_next : ∀ b ∈ live, b < next
  grants : ℕ → Bool

namespace Heap

/-- A granted `realloc` moves to a fresh block; a refused one leaves the old block live. -/
def realloc (h : Heap) (ptr : Option ℕ) : Option ℕ × Heap :=
  if h.grants h.next then
    (some h.next,
      { h with
        live := insert h.next (h.live \ ptr.toFinset)
        next := h.next + 1
        lt_next := by
          intro b hb
          rcases Finset.mem_insert.mp hb with rfl | hb
          · exact Nat.lt_succ_self _
          · exact Nat.lt_succ_of_lt (h.lt_next b (Finset.mem_sdiff.mp hb).1) })
  else
    (none,
      { h with
        next := h.next + 1
        lt_next := fun b hb => Nat.lt_succ_of_lt (h.lt_next b hb) })

def free (h : Heap) (ptr : Option ℕ) : Heap :=
  { h with
    live := h.live \ ptr.toFinset
    lt_next := fun b hb => h.lt_next b (Finset.mem_sdiff.mp hb).1 }

def unlimited : Heap := ⟨∅, 0, by simp, fun _ => true⟩

end Heap

/-! ## The compiler state -/

/--
`re_compiler`. The list `program` is the first `length` instructions of the heap block
`block`, and `cursor` is the rest of the pattern, its NUL included.
-/
structure ReCompiler where
  program : List ReInst := []
  block : Option ℕ := none
  capacity : ℕ := 0
  cursor : List UInt8
  cflags : UInt32
  extended : Bool
  groups : ℕ := 0
  error : RegCode := .ok
  heap : Heap

namespace ReCompiler

def length (c : ReCompiler) : ℕ := c.program.length

/-- `c->program[index]` updated in place. -/
def modifyInst (c : ReCompiler) (index : ℕ) (f : ReInst → ReInst) : ReCompiler :=
  { c with program := c.program.modify index f }

/-- The `realloc` of the program to `capacity` instructions, with its error path. -/
def grow (c : ReCompiler) (capacity : ℕ) : Bool × ReCompiler :=
  match c.heap.realloc c.block with
  | (none, heap) => (false, { c with heap := heap, error := .regEspace })
  | (some block, heap) =>
    (true, { c with heap := heap, block := some block, capacity := capacity })

/-- The room check that opens `re_emit` and `re_insert`. -/
def reserve (c : ReCompiler) : Bool × ReCompiler :=
  if c.length = c.capacity then c.grow (if c.capacity = 0 then 32 else c.capacity * 2)
  else (true, c)

end ReCompiler

/-! ## Emitting, inserting and copying

The functions return the index they wrote at, or `none` where the source returns `-1`.
-/

def reEmit (c : ReCompiler) (op : ReOp) : Option ℕ × ReCompiler :=
  match c.reserve with
  | (false, c) => (none, c)
  | (true, c) => (some c.length, { c with program := c.program ++ [{ op := op }] })

/-- The relocation loop of `re_insert` on one instruction. -/
def ReInst.shiftFrom (index : ℕ) (i : ReInst) : ReInst :=
  { i with
    x := if i.x ≥ index then i.x + 1 else i.x
    y := if i.y ≥ index then i.y + 1 else i.y }

/-- Open a cleared slot at `index` and relocate the whole program. -/
def insertAt (program : List ReInst) (index : ℕ) : List ReInst :=
  (program.take index ++ ReInst.zero :: program.drop index).map (ReInst.shiftFrom index)

def reInsert (c : ReCompiler) (index : ℕ) : Option ℕ × ReCompiler :=
  match c.reserve with
  | (false, c) => (none, c)
  | (true, c) => (some index, { c with program := insertAt c.program index })

/-- The relocation loop of `re_copy_block` on one copied instruction. -/
def ReInst.moveWithin (start stop delta : Int) (i : ReInst) : ReInst :=
  { i with
    x := if i.x ≥ start ∧ i.x ≤ stop then i.x + delta else i.x
    y := if i.y ≥ start ∧ i.y ≤ stop then i.y + delta else i.y }

/-- Append a copy of the instructions `start, …, stop - 1`. -/
def copyBlock (program : List ReInst) (start stop : ℕ) : List ReInst :=
  program ++ ((program.drop start).take (stop - start)).map
    (ReInst.moveWithin start stop (program.length - start))

/-- The loop of `re_copy_block` that doubles a capacity until it is at least `need`. -/
def doubleUntil : ℕ → ℕ → ℕ → ℕ
  | 0, capacity, _ => capacity
  | n + 1, capacity, need =>
    if capacity < need then doubleUntil n (if capacity = 0 then 32 else capacity * 2) need
    else capacity

def reCopyBlock (c : ReCompiler) (start stop : ℕ) : Option ℕ × ReCompiler :=
  let count := stop - start
  if count = 0 ∨ c.error ≠ .ok then (some c.length, c)
  else
    let room : Bool × ReCompiler :=
      if c.length + count > c.capacity then
        c.grow (doubleUntil (c.length + count) c.capacity (c.length + count))
      else (true, c)
    match room with
    | (false, c) => (none, c)
    | (true, c) => (some c.length, { c with program := copyBlock c.program start stop })

end LampUserspace.Regex
