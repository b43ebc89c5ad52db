import LampUserspace.Memory.Bytes
import LampUserspace.Tiling.Blocks

/-! # The heap

`malloc`, `free`, `calloc` and `realloc` of `libc_stdlib.c`. The blocks and their
headers live in memory: the payload size, the address of the next header and the
free mark, 12 bytes on the 32-bit target. Addresses are natural numbers and 0 is
the null pointer; sizes wrap at `2 ^ 32`. A walk along the list is `none` when
it does not end after as many steps as the heap has bytes.
-/

namespace LampUserspace.Stdlib

/-- `sizeof(heap_block_t)` -/
def header : ℕ := 12

/-- `sizeof(g_heap)` -/
def heapSize : ℕ := 256 * 1024

structure Heap where
  memory : Memory
  gHeapHead : ℕ
  gHeapEnd : ℕ

def align4 (n : ℕ) : ℕ := (n + 3) % 2 ^ 32 / 4 * 4

section Fields

variable (m : Memory) (block : ℕ)

/-- `block->size` -/
def blockSize : ℕ := m.load32 block

/-- `block->next` -/
def blockNext : ℕ := m.load32 (block + 4)

/-- `block->free` -/
def blockFree : Bool := m (block + 8) ≠ 0

end Fields

/-- The loop of `malloc`: the first free block of the wanted size, 0 when there is none, and the
block before it. -/
def mallocLoop (m : Memory) (wanted : ℕ) : (fuel block tail : ℕ) → Option (ℕ × ℕ)
  | 0, _, _ => none
  | fuel + 1, block, tail =>
    if block = 0 then some (0, tail)
    else if blockFree m block ∧ blockSize m block ≥ wanted then some (block, tail)
    else mallocLoop m wanted fuel (blockNext m block) block

/-- The loop of `free`, which joins free neighbours in the list that it walks. -/
def joinLoop : (fuel : ℕ) → Memory → (block previous : ℕ) → Option Memory
  | 0, _, _, _ => none
  | fuel + 1, m, block, previous =>
    if block = 0 then some m
    else if previous ≠ 0 ∧ blockFree m previous ∧ blockFree m block then
      let m := m.store32 previous
        ((blockSize m previous + align4 ((header + blockSize m block) % 2 ^ 32)) % 2 ^ 32)
      let m := m.store32 (previous + 4) (blockNext m block)
      joinLoop fuel m (blockNext m previous) previous
    else joinLoop fuel m (blockNext m block) block

section

-- the address of the array
variable (gHeap : ℕ)

/-- The returned pointer and the heap. -/
def malloc (h : Heap) (size : ℕ) : Option (ℕ × Heap) := do
  let wanted := align4 (if size ≠ 0 then size else 1)
  let (block, tail) ← mallocLoop h.memory wanted heapSize h.gHeapHead 0
  if block ≠ 0 then
    return (block + header, { h with memory := h.memory.store8 (block + 8) 0 })
  else if gHeap + heapSize - h.gHeapEnd < align4 ((header + wanted) % 2 ^ 32) then
    return (0, h)
  else
    let block := h.gHeapEnd
    let m := ((h.memory.store32 block wanted).store32 (block + 4) 0).store8 (block + 8) 0
    return (block + header,
      { memory := if tail ≠ 0 then m.store32 (tail + 4) block else m
        gHeapHead := if tail ≠ 0 then h.gHeapHead else block
        gHeapEnd := h.gHeapEnd + align4 ((header + wanted) % 2 ^ 32) })

def free (h : Heap) (ptr : ℕ) : Option Heap :=
  if ptr = 0 ∨ ptr < gHeap + header ∨ ptr ≥ h.gHeapEnd then some h
  else do
    let block := ptr - header
    let m ← joinLoop heapSize (h.memory.store8 (block + 8) 1) h.gHeapHead 0
    return { h with memory := m }

def calloc (h : Heap) (nmemb size : ℕ) : Option (ℕ × Heap) :=
  if size ≠ 0 ∧ nmemb > (2 ^ 32 - 1) / size then some (0, h)
  else do
    let total := nmemb * size % 2 ^ 32
    let (p, h) ← malloc gHeap h total
    return (p, if p ≠ 0 then { h with memory := h.memory.write p (List.replicate total 0) } else h)

def realloc (h : Heap) (ptr size : ℕ) : Option (ℕ × Heap) :=
  if ptr = 0 then malloc gHeap h size
  else if size = 0 then do
    let h ← free gHeap h ptr
    return (0, h)
  else
    let block := ptr - header
    if blockSize h.memory block ≥ size then some (ptr, h)
    else do
      let (p, h) ← malloc gHeap h size
      if p ≠ 0 then
        let copy := if blockSize h.memory block < size then blockSize h.memory block else size
        let h := { h with memory := h.memory.write p (h.memory.read ptr copy) }
        let h ← free gHeap h ptr
        return (p, h)
      else return (p, h)

end

end LampUserspace.Stdlib
