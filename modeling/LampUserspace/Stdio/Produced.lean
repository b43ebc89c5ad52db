import LampUserspace.Stdio.Prescribed
import LampUserspace.Stdio.Printf

/-! # Strings that a call produces

What `snprintf` leaves in a buffer that is large enough, and the strings of the
integer conversions without a width and a precision.
-/

namespace LampUserspace.Stdio

open Numerals

/-- In a buffer with room for it and its NUL, the call leaves the string `out`. -/
def Produces (fmt : CString) (ap : List Arg) (out : List UInt8) : Prop :=
  0 ∉ out ∧ ∀ memory str size, out.length < size →
    ∃ r, vsnprintf memory (some str) size fmt ap = some r ∧ r.ret = out.length ∧
      Terminated memory r.memory str out

theorem produces_of_formatted {fmt : CString} {ap : List Arg} {out : List UInt8}
    (h : formatted fmt ap = some out) (hnul : 0 ∉ out) : Produces fmt ap out := by
  refine ⟨hnul, fun memory str size hsize => ⟨printed memory (some str) size out, ?_, rfl, ?_⟩⟩
  · rw [vsnprintf_eq, h]
    rfl
  · have hpos : ¬ size = 0 := by omega
    have htake : out.take (size - 1) = out := List.take_of_length_le (by omega)
    simp only [printed, if_neg hpos, htake]
    exact terminated_write memory str out

/-- A conversion without a width and a precision. -/
def plain (flags : List Flag) (length : Length) (conv : Conv) : Directive where
  flags := flags
  width := .absent
  precision := none
  length := length
  conv := conv
  width_head := Count.absent_head

section Plain

variable (flags : List Flag) (length : Length) (conv : Conv) (v : UInt64)

/-- The sign, or the prefix, and the digits of the value. -/
def plainText : List UInt8 :=
  lead ((plain flags length conv).sign v) ((plain flags length conv).pfx v) ++
    numberText conv.base (conv = .X) ((plain flags length conv).value v).natAbs

theorem bytes_plain :
    ((plain flags length conv).piece v).bytes = plainText flags length conv v := by
  have hne : numberText conv.base (conv = .X) ((plain flags length conv).value v).natAbs ≠ [] :=
    numberText_ne_nil _
  have hpos := List.length_pos_of_ne_nil hne
  have hnone : (plain flags length conv).precision = none := rfl
  have hconv : (plain flags length conv).conv = conv := rfl
  have hwidth : ∀ n, (plain flags length conv).width.value - n = 0 := fun n => Nat.zero_sub n
  have hshort : ¬ (plain flags length conv).Overlong v := by
    rintro ⟨-, -, -, -, hprecision⟩
    exact absurd (show 1 = 2 ^ 31 - 1 from hprecision) (by decide)
  rw [Directive.bytes_piece hshort, Directive.layout, Directive.emittedDigits_eq]
  simp only [hwidth, hnone, hconv, Option.elim_none, Nat.sub_eq_zero_of_le hpos,
    List.replicate_zero, List.append_nil, List.nil_append, ite_self, one_ne_zero, false_and,
    if_false]
  rfl

theorem formatted_plain :
    formatted ((plain flags length conv).format ⟨[], List.not_mem_nil⟩)
        [(plain flags length conv).arg v] =
      some (plainText flags length conv v) := by
  have hempty : formatted ⟨[], List.not_mem_nil⟩ [] = some [] := by
    rw [formatted, pieces_nil]
    rfl
  have hargs : (plain flags length conv).args v ++ [] = [(plain flags length conv).arg v] := rfl
  rw [← hargs, Directive.formatted_format, hempty, Option.map_some, List.append_nil, bytes_plain]

theorem nul_free_plainText : 0 ∉ plainText flags length conv v := by
  have hpfx : 0 ∉ (plain flags length conv).pfx v := by
    have hliteral : ∀ s ∈ [literal "0x", literal "0X", literal "0", []], (0 : UInt8) ∉ s := by
      decide
    apply hliteral
    unfold Directive.pfx
    split
    · simp
    · split
      · split
        · simp
        · split
          · simp
          · split <;> simp
      · simp
  have hbase : 0 < conv.base ∧ conv.base ≤ 16 := by cases conv <;> decide
  have hordinary : ((plain flags length conv).piece v).Ordinary := ⟨hbase.1, hbase.2, hpfx⟩
  rw [← bytes_plain, zero_mem_bytes hordinary]
  exact not_false

theorem produces_plain :
    Produces ((plain flags length conv).format ⟨[], List.not_mem_nil⟩)
      [(plain flags length conv).arg v] (plainText flags length conv v) :=
  produces_of_formatted (formatted_plain flags length conv v)
    (nul_free_plainText flags length conv v)

end Plain

end LampUserspace.Stdio
