import Mathlib.Data.List.Basic

/-! # Bytes, strings and character classification

A C string is the list of the bytes before its terminating NUL. The
classification functions are those of `libc_string.c`, on unsigned characters.
-/

namespace LampUserspace

/-- A NUL-terminated string: its bytes up to, and without, the terminator. -/
@[ext]
structure CString where
  bytes : List UInt8
  nul_free : 0 ∉ bytes
  deriving DecidableEq

namespace CString

/-- The memory of the string from its first byte to its NUL inclusive. -/
def memory (s : CString) : List UInt8 := s.bytes ++ [0]

def strlen (s : CString) : ℕ := s.bytes.length

end CString

abbrev byte (c : Char) : UInt8 := c.toUInt8

def isdigit (c : UInt8) : Bool := byte '0' ≤ c && c ≤ byte '9'

def isupper (c : UInt8) : Bool := byte 'A' ≤ c && c ≤ byte 'Z'

def islower (c : UInt8) : Bool := byte 'a' ≤ c && c ≤ byte 'z'

def isalpha (c : UInt8) : Bool := islower c || isupper c

def isalnum (c : UInt8) : Bool := isalpha c || isdigit c

def isspace (c : UInt8) : Bool :=
  c = byte ' ' || c = byte '\t' || c = byte '\n' || c = byte '\r' || c = byte '\x0b' ||
    c = byte '\x0c'

def tolower (c : UInt8) : UInt8 := if isupper c then c + (byte 'a' - byte 'A') else c

def toupper (c : UInt8) : UInt8 := if islower c then c - (byte 'a' - byte 'A') else c

/-! ## Letters in two cases -/

instance decidableForallByte {P : UInt8 → Prop} [DecidablePred P] : Decidable (∀ c, P c) :=
  decidable_of_iff (∀ n : Fin 256, P (UInt8.ofNat n))
    ⟨fun h c => by simpa using h ⟨c.toNat, c.toNat_lt⟩, fun h n => h _⟩

theorem toupper_tolower : ∀ c, toupper (tolower c) = toupper c := by decide +kernel

theorem isalnum_tolower : ∀ c, isalnum (tolower c) = isalnum c := by decide +kernel

theorem eq_tolower_or_eq_toupper : ∀ c, c = tolower c ∨ c = toupper c := by decide +kernel

theorem isalpha_tolower : ∀ c, isalpha (tolower c) = isalpha c := by decide +kernel

/-- Folding the case keeps every byte that is not a letter apart from the others. -/
theorem tolower_eq_iff {m : UInt8} (hm : isalpha m = false) (c : UInt8) :
    tolower c = m ↔ c = m := by
  have hself : ∀ {d : UInt8}, isalpha d = false → tolower d = d := by
    intro d hd
    exact if_neg (by simp [(Bool.or_eq_false_iff.mp hd).2])
  constructor
  · rintro rfl
    rw [isalpha_tolower] at hm
    exact (hself hm).symm
  · rintro rfl
    exact hself hm

theorem toupper_congr {c d : UInt8} (h : tolower c = tolower d) : toupper c = toupper d := by
  rw [← toupper_tolower c, h, toupper_tolower]

end LampUserspace
