import Mathlib.Data.Int.Notation
import LampUserspace.Libc.Ctype
import LampUserspace.Memory.Bytes

/-! # The formatter

`vsnprintf` of `libc_stdio.c` and its output helpers. The target is a 32-bit
machine: an argument is one word (`int`, `long`, `size_t`, a pointer), two words
(`long long`) or a string, and reading an argument of another kind, or one that
was not passed, is `none`. An `int` wraps around, but for the count of the bytes
produced, which is exact below `2 ^ 31`.
-/

namespace LampUserspace.Stdio

inductive Arg where
  | word (v : UInt32)
  | dword (v : UInt64)
  | str (s : Option CString)

/-- The `int` that an operation leaves whose exact result is `n`. -/
def wrapInt (n : ℤ) : ℤ := n.bmod (2 ^ 32)

theorem wrapInt_eq {n : ℤ} (h : -2 ^ 31 ≤ n) (h' : n < 2 ^ 31) : wrapInt n = n :=
  Int.bmod_eq_of_le (by omega) (by omega)

@[simp] theorem wrapInt_zero : wrapInt 0 = 0 := rfl

theorem wrapInt_of_ge {n : ℤ} (h : 2 ^ 31 ≤ n) (h' : n < 3 * 2 ^ 31) :
    wrapInt n = n - 2 ^ 32 := by
  have hshift : wrapInt n = wrapInt (n - 2 ^ 32) := (Int.sub_bmod_right n (2 ^ 32)).symm
  rw [hshift, wrapInt_eq (by omega) (by omega)]

theorem wrapInt_range (n : ℤ) : -2 ^ 31 ≤ wrapInt n ∧ wrapInt n < 2 ^ 31 := by
  have hlow : -((2 ^ 32 : ℕ) / 2 : ℤ) ≤ n.bmod (2 ^ 32) := Int.le_bmod (by decide)
  have hhigh : n.bmod (2 ^ 32) < ((2 ^ 32 : ℕ) + 1) / 2 := Int.bmod_lt (by decide)
  unfold wrapInt
  omega

/-- An `int` that is not the exact result is smaller by a multiple of 2^32. -/
theorem wrapInt_eq_or_le {n : ℤ} (h : -2 ^ 31 ≤ n) : wrapInt n = n ∨ wrapInt n ≤ n - 2 ^ 32 := by
  have hdvd : ((2 ^ 32 : ℕ) : ℤ) ∣ n - wrapInt n :=
    ⟨n.bdiv (2 ^ 32), by rw [wrapInt, Int.bmod_eq_self_sub_mul_bdiv]; omega⟩
  have hrange := wrapInt_range n
  omega

theorem wrapInt_mul_add (n m k : ℤ) : wrapInt (wrapInt n * m + k) = wrapInt (n * m + k) := by
  rw [wrapInt, wrapInt, ← Int.bmod_add_bmod, Int.bmod_mul_bmod, Int.bmod_add_bmod]
  rfl

/-- What the output helpers reach through their pointers: the memory with the write pointer
`*buf`, the room `*left`, the number of bytes produced `*count`, and the bytes passed to `write`
with their descriptor. -/
@[ext]
structure Out where
  memory : Memory
  buf : ℕ
  left : ℕ
  count : ℕ
  writes : List (ℤ × UInt8)

section Helpers

-- `buf` tells whether the pointer of that name is not null
variable (buf : Bool) (fd : ℤ)

def outChar (c : UInt8) (o : Out) : Out :=
  let o :=
    if buf then
      if o.left > 1 then
        { o with memory := o.memory.store8 o.buf c, buf := o.buf + 1, left := o.left - 1 }
      else o
    else { o with writes := o.writes ++ [(fd, c)] }
  { o with count := o.count + 1 }

def outMem : List UInt8 → Out → Out
  | [], o => o
  | c :: s, o => outMem s (outChar buf fd c o)

def outRepeat (c : UInt8) : ℕ → Out → Out
  | 0, o => o
  | n + 1, o => outRepeat c n (outChar buf fd c o)

/-- `s` is the text of length `len`. -/
def outPadded (s : List UInt8) (width : ℤ) (leftAdjust : Bool) (pad : UInt8) (o : Out) : Out :=
  let len := wrapInt s.length
  let padding := if width > len then wrapInt (width - len) else 0
  let o := if leftAdjust then o else outRepeat buf fd pad padding.toNat o
  let o := outMem buf fd s o
  if leftAdjust then outRepeat buf fd (byte ' ') padding.toNat o else o

/-- The digit characters of a value, the least significant first. -/
def utoaRev (v base : ℕ) (upper : Bool) : List UInt8 :=
  let d := v % base
  let c := if d < 10 then byte '0' + .ofNat d else
    (if upper then byte 'A' else byte 'a') + .ofNat d - 10
  if 2 ≤ base ∧ v / base ≠ 0 then c :: utoaRev (v / base) base upper else [c]
termination_by v
decreasing_by
  rename_i h
  exact Nat.div_lt_self (Nat.pos_of_ne_zero fun h0 => h.2 (by simp [h0])) h.1

/-- The byte 0 is no sign, and an empty `pfx` no prefix. -/
def outUintFmt (v base : ℕ) (sign : UInt8) (upper : Bool) (width : ℤ)
    (leftAdjust zeroPad : Bool) (precision : ℤ) (pfx : List UInt8) (o : Out) : Out :=
  let digits := if precision = 0 ∧ v = 0 then [] else utoaRev v base upper
  let zeroes := if precision > digits.length then precision - digits.length else 0
  let signLen := if sign ≠ 0 then 1 else 0
  let total := wrapInt (signLen + pfx.length + zeroes + digits.length)
  let padCount := if width > total then wrapInt (width - total) else 0
  let pad := if zeroPad ∧ ¬ leftAdjust ∧ precision < 0 then byte '0' else byte ' '
  if pad = byte '0' then
    let o := if sign ≠ 0 then outChar buf fd sign o else o
    let o := outMem buf fd pfx o
    let o := outRepeat buf fd (byte '0') padCount.toNat o
    let o := outRepeat buf fd (byte '0') zeroes.toNat o
    outMem buf fd digits.reverse o
  else
    let o := if leftAdjust then o else outRepeat buf fd (byte ' ') padCount.toNat o
    let o := if sign ≠ 0 then outChar buf fd sign o else o
    let o := outMem buf fd pfx o
    let o := outRepeat buf fd (byte '0') zeroes.toNat o
    let o := outMem buf fd digits.reverse o
    if leftAdjust then outRepeat buf fd (byte ' ') padCount.toNat o else o

end Helpers

/-! ## Conversion specifications

The format is the list of the bytes that are left before its NUL, so that `head?` is `none` where
the source reads the NUL. -/

/-- The flags and numbers of a conversion specification, with the values they start from. -/
structure Spec where
  leftAdjust : Bool := false
  zeroPad : Bool := false
  alt : Bool := false
  plus : Bool := false
  space : Bool := false
  width : ℤ := 0
  precision : ℤ := -1
  length : ℕ := 0

/-- `va_arg(ap, int)`. -/
def vaInt : List Arg → Option (ℤ × List Arg)
  | .word v :: ap => some (v.toBitVec.toInt, ap)
  | _ => none

def readFlags (spec : Spec) : List UInt8 → Spec × List UInt8
  | [] => (spec, [])
  | c :: fmt =>
    if c = byte '-' then readFlags { spec with leftAdjust := true } fmt
    else if c = byte '0' then readFlags { spec with zeroPad := true } fmt
    else if c = byte '#' then readFlags { spec with alt := true } fmt
    else if c = byte '+' then readFlags { spec with plus := true } fmt
    else if c = byte ' ' then readFlags { spec with space := true } fmt
    else (spec, c :: fmt)

/-- A decimal number of the format, added on to `n`. -/
def readNumber (n : ℤ) : List UInt8 → ℤ × List UInt8
  | [] => (n, [])
  | c :: fmt =>
    if byte '0' ≤ c ∧ c ≤ byte '9' then readNumber (wrapInt (n * 10 + (c - byte '0').toNat)) fmt
    else (n, c :: fmt)

def readWidth (spec : Spec) (fmt : List UInt8) (ap : List Arg) :
    Option (Spec × List UInt8 × List Arg) :=
  if fmt.head? = some (byte '*') then do
    let (width, ap) ← vaInt ap
    let spec := if width < 0 then { spec with leftAdjust := true, width := wrapInt (-width) }
      else { spec with width := width }
    return (spec, fmt.tail, ap)
  else
    let (width, fmt) := readNumber 0 fmt
    some ({ spec with width := width }, fmt, ap)

def readPrecision (spec : Spec) (fmt : List UInt8) (ap : List Arg) :
    Option (Spec × List UInt8 × List Arg) :=
  if fmt.head? = some (byte '.') then
    if fmt.tail.head? = some (byte '*') then do
      let (precision, ap) ← vaInt ap
      return ({ spec with precision := precision }, fmt.tail.tail, ap)
    else
      let (precision, fmt) := readNumber 0 fmt.tail
      some ({ spec with precision := precision }, fmt, ap)
  else some (spec, fmt, ap)

def readLength (spec : Spec) (fmt : List UInt8) : Spec × List UInt8 :=
  if fmt.head? = some (byte 'l') then
    if fmt.tail.head? = some (byte 'l') then ({ spec with length := 2 }, fmt.tail.tail)
    else ({ spec with length := 1 }, fmt.tail)
  else if fmt.head? = some (byte 'z') then ({ spec with length := 1 }, fmt.tail)
  else (spec, fmt)

/-- The call of an output helper that a conversion, or a byte copied from the format, comes to. -/
inductive Piece where
  | char (c : UInt8)
  | padded (s : List UInt8) (width : ℤ) (leftAdjust : Bool)
  | uint (v base : ℕ) (sign : UInt8) (upper : Bool) (width : ℤ) (leftAdjust zeroPad : Bool)
    (precision : ℤ) (pfx : List UInt8)

/-- The bytes of a string literal of the source. -/
def literal (s : String) : List UInt8 := s.toList.map byte

/-- `%d` and `%i`: the argument widened to `long long`. -/
def vaSigned (length : ℕ) : List Arg → Option (ℤ × List Arg)
  | .word v :: ap => if length = 2 then none else some (v.toBitVec.toInt, ap)
  | .dword v :: ap => if length = 2 then some (v.toBitVec.toInt, ap) else none
  | _ => none

/-- `%u`, `%x`, `%X` and `%o`: the argument widened to `unsigned long long`. -/
def vaUnsigned (length : ℕ) : List Arg → Option (ℕ × List Arg)
  | .word v :: ap => if length = 2 then none else some (v.toNat, ap)
  | .dword v :: ap => if length = 2 then some (v.toNat, ap) else none
  | _ => none

/-- The conversion character `c`, which is the NUL when the format ends inside a specification. -/
def readConversion (spec : Spec) (c : UInt8) (ap : List Arg) : Option (Piece × List Arg) :=
  if c = byte 's' then
    match ap with
    | .str s :: ap =>
      let s := match s with
        | none => literal "(null)"
        | some s => s.bytes
      let len := if 0 ≤ spec.precision ∧ spec.precision < wrapInt s.length then
          spec.precision.toNat
        else s.length
      some (.padded (s.take len) spec.width spec.leftAdjust, ap)
    | _ => none
  else if c = byte 'c' then do
    let (v, ap) ← vaInt ap
    return (.padded [.ofInt v] spec.width spec.leftAdjust, ap)
  else if c = byte 'd' ∨ c = byte 'i' then do
    let (v, ap) ← vaSigned spec.length ap
    let sign := if v < 0 then byte '-' else if spec.plus then byte '+' else
      if spec.space then byte ' ' else 0
    return (
      .uint v.natAbs 10 sign false spec.width spec.leftAdjust spec.zeroPad spec.precision [], ap)
  else if c = byte 'u' ∨ c = byte 'x' ∨ c = byte 'X' ∨ c = byte 'o' then do
    let base := if c = byte 'o' then 8 else if c = byte 'u' then 10 else 16
    let upper := decide (c = byte 'X')
    let (v, ap) ← vaUnsigned spec.length ap
    let pfx := if spec.alt ∧ v ≠ 0 ∧ (c = byte 'x' ∨ c = byte 'X') then
        literal (if upper then "0X" else "0x")
      else if spec.alt ∧ v ≠ 0 ∧ c = byte 'o' then literal "0" else []
    return (.uint v base 0 upper spec.width spec.leftAdjust spec.zeroPad spec.precision pfx, ap)
  else if c = byte 'p' then
    match ap with
    | .word v :: ap =>
      let width := if spec.width ≠ 0 then spec.width else 1
      some (.uint v.toNat 16 0 false width spec.leftAdjust spec.zeroPad spec.precision
        (literal "0x"), ap)
    | _ => none
  else if c = byte '%' then some (.char (byte '%'), ap)
  else some (.char c, ap)

/-- One conversion, from the byte after its `%` on. -/
def readPiece (fmt : List UInt8) (ap : List Arg) : Option (Piece × List UInt8 × List Arg) := do
  let (spec, fmt) := readFlags {} fmt
  let (spec, fmt, ap) ← readWidth spec fmt ap
  let (spec, fmt, ap) ← readPrecision spec fmt ap
  let (spec, fmt) := readLength spec fmt
  let (piece, ap) ← readConversion spec (fmt.head?.getD 0) ap
  return (piece, fmt.tail, ap)

theorem length_readFlags (spec : Spec) (fmt : List UInt8) :
    (readFlags spec fmt).2.length ≤ fmt.length := by
  fun_induction readFlags spec fmt <;> simp_all <;> omega

theorem length_readNumber (n : ℤ) (fmt : List UInt8) :
    (readNumber n fmt).2.length ≤ fmt.length := by
  fun_induction readNumber n fmt <;> simp_all; omega

theorem length_readWidth {spec spec' : Spec} {fmt fmt' : List UInt8} {ap ap' : List Arg}
    (h : readWidth spec fmt ap = some (spec', fmt', ap')) : fmt'.length ≤ fmt.length := by
  unfold readWidth at h
  split at h
  · obtain ⟨⟨width, ap₁⟩, -, h⟩ := Option.bind_eq_some_iff.mp h
    simp only [Option.pure_def, Option.some.injEq, Prod.mk.injEq] at h
    rw [← h.2.1]
    simp
  · simp only [Option.some.injEq, Prod.mk.injEq] at h
    rw [← h.2.1]
    exact length_readNumber _ _

theorem length_readPrecision {spec spec' : Spec} {fmt fmt' : List UInt8} {ap ap' : List Arg}
    (h : readPrecision spec fmt ap = some (spec', fmt', ap')) : fmt'.length ≤ fmt.length := by
  unfold readPrecision at h
  split at h
  · split at h
    · obtain ⟨⟨precision, ap₁⟩, -, h⟩ := Option.bind_eq_some_iff.mp h
      simp only [Option.pure_def, Option.some.injEq, Prod.mk.injEq] at h
      rw [← h.2.1]
      simp only [List.length_tail]
      omega
    · simp only [Option.some.injEq, Prod.mk.injEq] at h
      rw [← h.2.1]
      have hnumber := length_readNumber 0 fmt.tail
      simp only [List.length_tail] at hnumber
      omega
  · simp only [Option.some.injEq, Prod.mk.injEq] at h
    exact Nat.le_of_eq (congrArg _ h.2.1.symm)

theorem length_readLength (spec : Spec) (fmt : List UInt8) :
    (readLength spec fmt).2.length ≤ fmt.length := by
  unfold readLength
  split
  · split <;> simp only [List.length_tail] <;> omega
  · split
    · simp
    · exact Nat.le_refl _

/-- A conversion takes nothing before its own specification from the format. -/
theorem length_readPiece {fmt fmt' : List UInt8} {ap ap' : List Arg} {piece : Piece}
    (h : readPiece fmt ap = some (piece, fmt', ap')) : fmt'.length ≤ fmt.length := by
  obtain ⟨⟨spec, fmt₁, ap₁⟩, hwidth, h⟩ := Option.bind_eq_some_iff.mp h
  obtain ⟨⟨spec₂, fmt₂, ap₂⟩, hprecision, h⟩ := Option.bind_eq_some_iff.mp h
  obtain ⟨⟨piece₃, ap₃⟩, -, h⟩ := Option.bind_eq_some_iff.mp h
  simp only [Option.pure_def, Option.some.injEq, Prod.mk.injEq] at h
  have hrest : fmt' = (readLength spec₂ fmt₂).2.tail := h.2.1.symm
  have hflags := length_readFlags {} fmt
  have hwidth := length_readWidth hwidth
  have hprecision := length_readPrecision hprecision
  have hlength := length_readLength spec₂ fmt₂
  rw [hrest, List.length_tail]
  omega

/-! ## `vsnprintf` -/

/-- The output call of a piece, with the descriptor -1 that `vsnprintf` passes. -/
def outPiece (buf : Bool) : Piece → Out → Out
  | .char c => outChar buf (-1) c
  | .padded s width leftAdjust => outPadded buf (-1) s width leftAdjust (byte ' ')
  | .uint v base sign upper width leftAdjust zeroPad precision pfx =>
    outUintFmt buf (-1) v base sign upper width leftAdjust zeroPad precision pfx

def vsnprintfLoop (buf : Bool) (fmt : List UInt8) (ap : List Arg) (o : Out) : Option Out :=
  match fmt with
  | [] => some o
  | c :: fmt =>
    if c ≠ byte '%' then vsnprintfLoop buf fmt ap (outChar buf (-1) c o)
    else
      match _h : readPiece fmt ap with
      | none => none
      | some (piece, fmt', ap') => vsnprintfLoop buf fmt' ap' (outPiece buf piece o)
termination_by fmt.length
decreasing_by
  · exact Nat.lt_succ_self _
  · exact Nat.lt_succ_of_le (length_readPiece _h)

/-- The memory that a call leaves, the value it returns and the bytes it passed to `write`. -/
structure Printed where
  memory : Memory
  ret : ℕ
  writes : List (ℤ × UInt8)

def vsnprintf (memory : Memory) (str : Option ℕ) (size : ℕ) (fmt : CString) (ap : List Arg) :
    Option Printed := do
  let o ← vsnprintfLoop str.isSome fmt.bytes ap ⟨memory, str.getD 0, size, 0, []⟩
  let memory := if str.isSome ∧ size ≠ 0 then o.memory.store8 o.buf 0 else o.memory
  return ⟨memory, o.count, o.writes⟩

/-- The returned value and, after the second pass, the memory and the address in `*strp`.
`strp` tells whether the pointer of that name is not null. -/
def vasprintf (malloc : ℕ → Option ℕ) (memory : Memory) (strp : Bool) (fmt : CString)
    (ap : List Arg) : Option (ℤ × Option (Memory × ℕ)) :=
  if ¬ strp then some (-1, none)
  else do
    let first ← vsnprintf memory none 0 fmt ap
    match malloc (first.ret + 1) with
    | none => return (-1, none)
    | some block =>
      let second ← vsnprintf first.memory (some block) (first.ret + 1) fmt ap
      return (second.ret, some (second.memory, block))

end LampUserspace.Stdio
