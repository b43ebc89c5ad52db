import LampUserspace.Stdio.Format
import LampUserspace.Stdlib.Strtol

/-! # The scanner

`sscanf` of `libc_stdio.c` and its helpers. The input and the format are the lists of
the bytes that are left before their NULs. The further arguments are pointers, and
reading one that was not passed is `none`; what is stored through them is kept in the
order of the stores.
-/

namespace LampUserspace.Stdio

/-- The digit of a byte, `none` for -1. -/
def scanDigit (c : UInt8) : Option ℕ :=
  if byte '0' ≤ c ∧ c ≤ byte '9' then some (c - byte '0').toNat
  else if byte 'a' ≤ c ∧ c ≤ byte 'f' then some ((c - byte 'a').toNat + 10)
  else if byte 'A' ≤ c ∧ c ≤ byte 'F' then some ((c - byte 'A').toNat + 10)
  else none

def scanSpace (c : UInt8) : Bool :=
  c = byte ' ' || c = byte '\t' || c = byte '\n' || c = byte '\r' || c = byte '\x0c' ||
    c = byte '\x0b'

/-- The loop of `scan_unsigned`: the value, the digits consumed and the position where it stops. -/
def scanLoop (width base : ℤ) (value : UInt64) (consumed : ℕ) :
    List UInt8 → UInt64 × ℕ × List UInt8
  | [] => (value, consumed, [])
  | c :: p =>
    if width = 0 ∨ consumed < width then
      match scanDigit c with
      | none => (value, consumed, c :: p)
      | some digit =>
        if digit ≥ base then (value, consumed, c :: p)
        else scanLoop width base (value * .ofInt base + .ofNat digit) (consumed + 1) p
    else (value, consumed, c :: p)

/-- The base and the digits are found as in `strtoul`. The result is the value and the input behind
it, or `none` for 0. -/
def scanUnsigned (input : List UInt8) (width base : ℤ) : Option (UInt64 × List UInt8) :=
  let p := input.dropWhile scanSpace
  let p := if p.head? = some (byte '+') then p.tail else p
  let (base, p) := Stdlib.strtoulBase base p
  let (value, consumed, p) := scanLoop width base 0 0 p
  if consumed = 0 then none else some (value, p)

/-- What is stored through a pointer: a word, two words, or bytes from its address on. -/
inductive Store where
  | word (v : UInt32)
  | dword (v : UInt64)
  | bytes (s : List UInt8)
  deriving DecidableEq

/-- The variables of `sscanf` that its rounds change, and the stores that they made. -/
@[ext]
structure Scan where
  input : List UInt8
  assigned : ℕ
  ap : List ℕ
  stores : List (ℕ × Store)
  deriving DecidableEq

/-- `va_arg` of a pointer. -/
def Scan.vaArg (s : Scan) : Option (ℕ × Scan) :=
  match s.ap with
  | [] => none
  | p :: ap => some (p, { s with ap := ap })

/-- Store `v` through the next pointer, unless the assignment is suppressed. -/
def Scan.store (s : Scan) (suppress : Bool) (v : Store) : Option Scan :=
  if suppress then some s
  else do
    let (p, s) ← s.vaArg
    return { s with stores := s.stores ++ [(p, v)] }

def Scan.count (s : Scan) (suppress : Bool) : Scan :=
  if suppress then s else { s with assigned := s.assigned + 1 }

/-- A value in the size that `int`, `long` or `long long` has. -/
def stored (length : ℕ) (value : UInt64) : Store :=
  if length = 2 then .dword value else .word value.toUInt32

/-- `%c`: with too few bytes left those that are there are stored. A negative count, as a wrapped
width gives it, moves the input back, and `none` would move it before the text `str`. -/
def scanChars (str : List UInt8) (suppress : Bool) (width : ℤ) (s : Scan) :
    Option (Bool × Scan) := do
  let count := if width ≠ 0 then width else 1
  let s' ← s.store suppress (.bytes (s.input.take count.toNat))
  if s.input.length < count then return (false, s')
  else if 0 ≤ count then
    return (true, { s'.count suppress with input := s.input.drop count.toNat })
  else
    let back := s.input.length + count.natAbs
    guard (back ≤ str.length)
    return (true, { s'.count suppress with input := str.drop (str.length - back) })

/-- `%s` -/
def scanString (suppress : Bool) (width : ℤ) (s : Scan) : Option (Bool × Scan) := do
  let input := s.input.dropWhile scanSpace
  let word := input.takeWhile fun c => !scanSpace c
  let word := if width = 0 then word else word.take width.toNat
  if word = [] then
    let s' ← if suppress then some s else s.vaArg.map (·.2)
    return (false, { s' with input := input })
  else
    let s' ← s.store suppress (.bytes (word ++ [0]))
    return (true, { s'.count suppress with input := input.drop word.length })

/-- `%d`, `%i`, `%u`, `%x`, `%X`, `%o` and `%p` -/
def scanInteger (spec : UInt8) (suppress : Bool) (width : ℤ) (length : ℕ) (s : Scan) :
    Option (Bool × Scan) :=
  let base := if spec = byte 'o' then 8
    else if spec = byte 'x' ∨ spec = byte 'X' ∨ spec = byte 'p' then 16
    else if spec = byte 'i' then 0 else 10
  let signed := spec = byte 'd' ∨ spec = byte 'i'
  let input := s.input.dropWhile scanSpace
  let negative := signed ∧ input.head? = some (byte '-')
  let input := if signed ∧ (input.head? = some (byte '-') ∨ input.head? = some (byte '+'))
    then input.tail else input
  match scanUnsigned input width base with
  | none => some (false, { s with input := input })
  | some (value, input) => do
    let value := if negative then -value else value
    let s' ← s.store suppress (stored (if spec = byte 'p' then 0 else length) value)
    return (true, { s'.count suppress with input := input })

/-- A conversion with its character; `str` is the start of the input. The flag tells whether the
scan goes on. -/
def scanConversion (str : List UInt8) (spec : UInt8) (suppress : Bool) (width : ℤ)
    (length : ℕ) (s : Scan) : Option (Bool × Scan) :=
  if spec = byte '%' then
    if s.input.head? ≠ some (byte '%') then some (false, s)
    else some (true, { s with input := s.input.tail })
  else if spec = byte 'c' then scanChars str suppress width s
  else if spec = byte 's' then scanString suppress width s
  else if spec = byte 'n' then
    (s.store suppress (stored length (.ofNat (str.length - s.input.length)))).map fun s => (true, s)
  else if spec ∈ [byte 'd', byte 'i', byte 'u', byte 'x', byte 'X', byte 'o', byte 'p'] then
    scanInteger spec suppress width length s
  else some (false, s)

def scanLength (fmt : List UInt8) : ℕ × List UInt8 :=
  if fmt.head? = some (byte 'l') then
    if fmt.tail.head? = some (byte 'l') then (2, fmt.tail.tail) else (1, fmt.tail)
  else (0, fmt)

/-- One conversion of the format, from the byte after its `%` on. -/
def scanDirective (str fmt : List UInt8) (s : Scan) : Option (Bool × List UInt8 × Scan) := do
  let suppress := fmt.head? = some (byte '*')
  let fmt := if suppress then fmt.tail else fmt
  let (width, fmt) := readNumber 0 fmt
  let (length, fmt) := scanLength fmt
  let (more, s) ← scanConversion str (fmt.head?.getD 0) suppress width length s
  return (more, fmt.tail, s)

/-- The format behind an assignment suppressing `*`. -/
def unstarred (fmt : List UInt8) : List UInt8 :=
  if fmt.head? = some (byte '*') then fmt.tail else fmt

theorem scanDirective_eq (str fmt : List UInt8) (s : Scan) :
    scanDirective str fmt s =
      (scanConversion str ((scanLength (readNumber 0 (unstarred fmt)).2).2.head?.getD 0)
        (fmt.head? = some (byte '*')) (readNumber 0 (unstarred fmt)).1
        (scanLength (readNumber 0 (unstarred fmt)).2).1 s).map fun r =>
          (r.1, (scanLength (readNumber 0 (unstarred fmt)).2).2.tail, r.2) := by
  unfold scanDirective unstarred
  simp only [Option.bind_eq_bind, Option.pure_def, Option.map_eq_bind]
  rfl

theorem length_scanDirective {str fmt fmt' : List UInt8} {s s' : Scan} {more : Bool}
    (h : scanDirective str fmt s = some (more, fmt', s')) : fmt'.length ≤ fmt.length := by
  have hlength : ∀ fmt : List UInt8, (scanLength fmt).2.length ≤ fmt.length := by
    intro fmt
    unfold scanLength
    split
    · split <;> simp only [List.length_tail] <;> omega
    · exact Nat.le_refl _
  have hstar : (unstarred fmt).length ≤ fmt.length := by
    unfold unstarred
    split
    · simp
    · exact Nat.le_refl _
  rw [scanDirective_eq] at h
  obtain ⟨r, -, h⟩ := Option.map_eq_some_iff.mp h
  simp only [Prod.mk.injEq] at h
  have hnumber := length_readNumber 0 (unstarred fmt)
  have hbehind := hlength (readNumber 0 (unstarred fmt)).2
  rw [← h.2.1, List.length_tail]
  omega

def sscanfLoop (str fmt : List UInt8) (s : Scan) : Option Scan :=
  match fmt with
  | [] => some s
  | c :: fmt =>
    if scanSpace c then
      sscanfLoop str (fmt.dropWhile scanSpace)
        { s with input := s.input.dropWhile scanSpace }
    else if c ≠ byte '%' then
      if s.input.head? ≠ some c then some s
      else sscanfLoop str fmt { s with input := s.input.tail }
    else
      match _h : scanDirective str fmt s with
      | none => none
      | some (more, fmt', s') => if more then sscanfLoop str fmt' s' else some s'
termination_by fmt.length
decreasing_by
  · exact Nat.lt_succ_of_le (List.dropWhile_suffix _).length_le
  · exact Nat.lt_succ_self _
  · exact Nat.lt_succ_of_le (length_scanDirective _h)

structure Scanned where
  ret : ℕ
  stores : List (ℕ × Store)
  deriving DecidableEq

def sscanf (str fmt : Option (List UInt8)) (ap : List ℕ) : Option Scanned :=
  match str, fmt with
  | some str, some fmt =>
    (sscanfLoop str fmt ⟨str, 0, ap, []⟩).map fun s => ⟨s.assigned, s.stores⟩
  | _, _ => some ⟨0, []⟩

end LampUserspace.Stdio
