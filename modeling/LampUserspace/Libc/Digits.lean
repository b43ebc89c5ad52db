import LampUserspace.Libc.Ctype
import LampUserspace.Numerals.Positional

/-! # Digit characters

The digits of the bases up to 36 in ASCII: the value of a character, and the
character of a value in one of the two cases.
-/

namespace LampUserspace

open Numerals

/-- The value of a digit or a letter, in either case. -/
def digitValue (c : UInt8) : Option ℕ :=
  if isdigit c then some (c - byte '0').toNat
  else if isalpha c then some ((tolower c - byte 'a').toNat + 10)
  else none

def digitChar (upper : Bool) (d : ℕ) : UInt8 :=
  if d < 10 then byte '0' + .ofNat d
  else (if upper then byte 'A' else byte 'a') + .ofNat d - 10

theorem digitValue_digitChar :
    ∀ upper : Bool, ∀ d < 36, digitValue (digitChar upper d) = some d := by decide +kernel

theorem digitValue_of_isspace : ∀ c, isspace c = true → digitValue c = none := by decide +kernel

theorem isDigit_ten : ∀ c, isDigit digitValue 10 c = isdigit c := by decide +kernel

/-- The digits of a number in a base of at most 36. -/
def numberText (base : ℕ) (upper : Bool) (v : ℕ) : List UInt8 := write base (digitChar upper) v

section NumberText

variable {base : ℕ} {upper : Bool}

theorem numberText_ne_nil (v : ℕ) : numberText base upper v ≠ [] := write_ne_nil v

theorem length_numberText_le (hbase : 1 < base) {v k : ℕ} (hk : 0 < k) (hv : v < base ^ k) :
    (numberText base upper v).length ≤ k := by
  unfold numberText write
  split
  · exact hk
  · rw [List.length_reverse, List.length_map]
    exact (Nat.digits_length_le_iff hbase v).mpr hv

variable (hlow : 1 < base) (hhigh : base ≤ 36)
include hlow hhigh

theorem isDigit_of_mem_numberText {v : ℕ} {c : UInt8} (h : c ∈ numberText base upper v) :
    isDigit digitValue base c = true :=
  isDigit_of_mem_write hlow (fun d hd => digitValue_digitChar upper d (hd.trans_le hhigh)) h

theorem number_numberText (v : ℕ) : number digitValue base (numberText base upper v) = v :=
  number_write hlow (fun d hd => digitValue_digitChar upper d (hd.trans_le hhigh)) v

end NumberText

end LampUserspace
