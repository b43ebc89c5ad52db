import LampUserspace.Libc.Digits
import LampUserspace.Stdlib.Environ

/-! # Numbers from strings

`strtol`, `strtoul`, `strtoll` and `strtoull` of `libc_stdlib.c`, where `long` has
32 bits. A pointer into a string is the list of the bytes that are left before
its NUL.
-/

namespace LampUserspace.Stdlib

open Numerals

/-- The returned value, the pointer stored through `endptr`, `none` being null, and the error
stored in `errno`, if any. -/
structure Converted (α : Type) where
  ret : α
  endptr : Option (List UInt8)
  errno : Option Errno

/-- The digit `d` of a byte; `none` where the loop of `strtoul` breaks. -/
def strtoulDigit (c : UInt8) : Option ℕ :=
  if byte '0' ≤ c ∧ c ≤ byte '9' then some (c - byte '0').toNat
  else if byte 'a' ≤ c ∧ c ≤ byte 'z' then some ((c - byte 'a').toNat + 10)
  else if byte 'A' ≤ c ∧ c ≤ byte 'Z' then some ((c - byte 'A').toNat + 10)
  else none

/-- The loop of `strtoul`: the value, the number of digits and the pointer where it stops. -/
def strtoulLoop (base : ℤ) (v : UInt32) (digits : ℕ) :
    List UInt8 → UInt32 × ℕ × List UInt8
  | [] => (v, digits, [])
  | c :: nptr =>
    match strtoulDigit c with
    | none => (v, digits, c :: nptr)
    | some d =>
      if d ≥ base then (v, digits, c :: nptr)
      else strtoulLoop base (v * .ofInt base + .ofNat d) (digits + 1) nptr

/-- `nptr[0] == '0' && (nptr[1] == 'x' || nptr[1] == 'X')` -/
def hexPrefixed (nptr : List UInt8) : Bool :=
  nptr.head? = some (byte '0') &&
    (nptr.tail.head? = some (byte 'x') || nptr.tail.head? = some (byte 'X'))

/-- The base and the pointer at which `strtoul` starts to read digits. -/
def strtoulBase (base : ℤ) (nptr : List UInt8) : ℤ × List UInt8 :=
  if base = 0 then
    if nptr.head? = some (byte '0') then
      if hexPrefixed nptr then (16, nptr.drop 2) else (8, nptr)
    else (10, nptr)
  else if base = 16 ∧ hexPrefixed nptr then (base, nptr.drop 2)
  else (base, nptr)

def strtoul (nptr : Option (List UInt8)) (base : ℤ) : Converted UInt32 :=
  match nptr with
  | none => ⟨0, none, some .EINVAL⟩
  | some start =>
    let (base, nptr) := strtoulBase base (start.dropWhile isspace)
    if base < 2 ∨ base > 36 then ⟨0, some start, some .EINVAL⟩
    else
      let (v, digits, nptr) := strtoulLoop base 0 0 nptr
      ⟨v, some (if digits ≠ 0 then nptr else start), if digits = 0 then some .EINVAL else none⟩

def strtol (nptr : List UInt8) (base : ℤ) : Converted Int32 :=
  let nptr := nptr.dropWhile isspace
  let neg := nptr.head? = some (byte '-')
  let nptr := if neg ∨ nptr.head? = some (byte '+') then nptr.tail else nptr
  let v := strtoul (some nptr) base
  ⟨if neg then -v.ret.toInt32 else v.ret.toInt32, v.endptr, v.errno⟩

def strtoll (nptr : List UInt8) (base : ℤ) : Converted Int64 :=
  let v := strtol nptr base
  ⟨v.ret.toInt64, v.endptr, v.errno⟩

def strtoull (nptr : Option (List UInt8)) (base : ℤ) : Converted UInt64 :=
  let v := strtoul nptr base
  ⟨v.ret.toUInt64, v.endptr, v.errno⟩

/-! ## The loop -/

theorem strtoulDigit_eq : ∀ c, strtoulDigit c = digitValue c := by decide +kernel

theorem ofInt_natCast (n : ℕ) : UInt32.ofInt n = .ofNat n := by
  apply UInt32.toNat_inj.mp
  simp [UInt32.ofInt]
  omega

/-- The loop reads the run of digits at the start of its text, modulo `2 ^ 32`. -/
theorem strtoulLoop_eq (b n digits : ℕ) (nptr : List UInt8) :
    strtoulLoop b (.ofNat n) digits nptr =
      (.ofNat (extend digitValue b n (digitRun digitValue b nptr)),
        digits + (digitRun digitValue b nptr).length, afterRun digitValue b nptr) := by
  induction nptr generalizing n digits with
  | nil => rfl
  | cons c nptr ih =>
    have hstop : isDigit digitValue b c = false →
        (.ofNat n, digits, c :: nptr) =
          (UInt32.ofNat (extend digitValue b n (digitRun digitValue b (c :: nptr))),
            digits + (digitRun digitValue b (c :: nptr)).length,
            afterRun digitValue b (c :: nptr)) := by
      intro h
      rw [digitRun_stop h, afterRun_stop h]
      rfl
    rw [strtoulLoop, strtoulDigit_eq]
    cases hc : digitValue c with
    | none => exact hstop (by simp [isDigit, hc])
    | some d =>
      by_cases hd : d < b
      · have hdigit : isDigit digitValue b c = true := isDigit_iff.mpr ⟨d, hc, hd⟩
        have hv : UInt32.ofNat n * .ofInt b + .ofNat d = .ofNat (n * b + d) := by
          rw [UInt32.ofNat_add, UInt32.ofNat_mul, ofInt_natCast]
        simp only [if_neg (show ¬ (d : ℤ) ≥ b by omega)]
        rw [hv, ih, digitRun_cons hdigit, afterRun_cons hdigit, extend_cons, hc, List.length_cons,
          Nat.add_assoc, Nat.add_comm 1]
        rfl
      · simp only [if_pos (show (d : ℤ) ≥ b by omega)]
        exact hstop (by simp [isDigit, hc, hd])

theorem strtoul_eq {base b : ℕ} {start nptr : List UInt8}
    (h : strtoulBase base (start.dropWhile isspace) = ((b : ℤ), nptr)) (hb : 2 ≤ b)
    (hb' : b ≤ 36) :
    strtoul (some start) base =
      ⟨.ofNat (number digitValue b (digitRun digitValue b nptr)),
        some (if digitRun digitValue b nptr = [] then start else afterRun digitValue b nptr),
        if digitRun digitValue b nptr = [] then some .EINVAL else none⟩ := by
  have hloop := strtoulLoop_eq b 0 0 nptr
  have hrange : ¬ ((b : ℤ) < 2 ∨ (b : ℤ) > 36) := by omega
  have hzero : UInt32.ofNat 0 = 0 := rfl
  rw [hzero] at hloop
  simp only [strtoul, h, if_neg hrange, hloop, Nat.zero_add, List.length_eq_zero_iff, ne_eq,
    ite_not]
  rfl

theorem strtoul_ten (start : List UInt8) :
    strtoul (some start) 10 =
      ⟨.ofNat (number digitValue 10 (digitRun digitValue 10 (start.dropWhile isspace))),
        some (if digitRun digitValue 10 (start.dropWhile isspace) = [] then start
          else afterRun digitValue 10 (start.dropWhile isspace)),
        if digitRun digitValue 10 (start.dropWhile isspace) = [] then some .EINVAL else none⟩ :=
  have hstart : strtoulBase (10 : ℕ) (start.dropWhile isspace) =
      (((10 : ℕ) : ℤ), start.dropWhile isspace) := rfl
  strtoul_eq hstart (by decide) (by decide)

theorem strtoul_digits {s t : List UInt8} (hs : ∀ c ∈ s, isdigit c = true) (hne : s ≠ [])
    (ht : ∀ c, t.head? = some c → isdigit c = false) :
    strtoul (some (s ++ t)) 10 = ⟨.ofNat (number digitValue 10 s), some t, none⟩ := by
  have hspace : (s ++ t).dropWhile isspace = s ++ t := by
    obtain ⟨c, s', rfl⟩ := List.exists_cons_of_ne_nil hne
    have hstop : ∀ c, isdigit c = true → isspace c = false := by decide +kernel
    exact List.dropWhile_cons_of_neg (by simp [hstop c (hs c (List.mem_cons_self ..))])
  have hdigits : ∀ c ∈ s, isDigit digitValue 10 c = true := fun c hc => isDigit_ten c ▸ hs c hc
  have hstop : digitRun digitValue 10 t = [] :=
    digitRun_eq_nil_iff.mpr fun c hc => isDigit_ten c ▸ ht c hc
  rw [strtoul_ten, hspace, digitRun_append hdigits hstop, afterRun_append hdigits hstop,
    if_neg hne, if_neg hne]

end LampUserspace.Stdlib
