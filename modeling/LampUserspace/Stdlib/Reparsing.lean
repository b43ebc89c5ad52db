import LampUserspace.Stdio.Produced
import LampUserspace.Stdlib.Conversions

/-! # Long numbers printed and read back

`snprintf` prints 64 bits, and `strtoull` and `strtoll` read the 32 bits of `long`:
the numbers that come back are those of `long`.
-/

namespace LampUserspace.Stdlib

open Numerals Stdio

/-- `"%llu"` -/
def lluFormat : CString := ⟨[byte '%', byte 'l', byte 'l', byte 'u'], by decide⟩

/-- `"%lld"` -/
def lldFormat : CString := ⟨[byte '%', byte 'l', byte 'l', byte 'd'], by decide⟩

theorem produces_llu (v : UInt64) :
    Produces lluFormat [.dword v] (numberText 10 false v.toNat) :=
  produces_plain [] .ll .u v

theorem produces_lld (w : Int64) :
    Produces lldFormat [.dword w.toUInt64]
      ((if w.toInt < 0 then [byte '-'] else []) ++ numberText 10 false w.toInt.natAbs) := by
  have hproduces := produces_plain [] .ll .d w.toUInt64
  have htext : plainText [] .ll .d w.toUInt64 =
      (if w.toInt < 0 then [byte '-'] else []) ++ numberText 10 false w.toInt.natAbs := by
    have hvalue : (plain [] .ll .d).value w.toUInt64 = w.toInt := rfl
    have hsign : (plain [] .ll .d).sign w.toUInt64 = if w.toInt < 0 then byte '-' else 0 := rfl
    rw [plainText, hvalue, hsign]
    split <;> rfl
  rw [htext] at hproduces
  exact hproduces

theorem isdigit_of_mem_numberText {n : ℕ} {c : UInt8} (h : c ∈ numberText 10 false n) :
    isdigit c = true :=
  isDigit_ten c ▸ isDigit_of_mem_numberText (by decide) (by decide) h

theorem strtoul_numberText (n : ℕ) :
    strtoul (some (numberText 10 false n)) 10 = ⟨.ofNat n, some [], none⟩ := by
  have hread := strtoul_digits (t := []) (fun c hc => isdigit_of_mem_numberText hc)
    (numberText_ne_nil n) (by simp)
  rwa [List.append_nil, number_numberText (by decide) (by decide)] at hread

theorem strtol_numberText (n : ℕ) (negative : Bool) :
    strtol ((if negative then [byte '-'] else []) ++ numberText 10 false n) 10 =
      ⟨if negative then -(UInt32.ofNat n).toInt32 else (UInt32.ofNat n).toInt32, some [],
        none⟩ := by
  obtain ⟨c, t, htext⟩ := List.exists_cons_of_ne_nil
    (numberText_ne_nil n : numberText 10 false n ≠ [])
  have hc : isdigit c = true :=
    isdigit_of_mem_numberText (by rw [htext]; exact List.mem_cons_self ..)
  have hdigit : ∀ c, isdigit c = true → isspace c = false ∧ c ≠ byte '-' ∧ c ≠ byte '+' := by
    decide +kernel
  obtain ⟨hspace, hminus, hplus⟩ := hdigit c hc
  have hread := strtoul_numberText n
  rw [strtol_eq]
  cases negative with
  | true =>
    have hunspaced : unspaced ([byte '-'] ++ numberText 10 false n) =
        byte '-' :: numberText 10 false n := rfl
    have hunsigned : unsigned ([byte '-'] ++ numberText 10 false n) = numberText 10 false n := rfl
    simp only [if_true, hunspaced, hunsigned, hread, List.head?_cons]
  | false =>
    have hunspaced : unspaced (numberText 10 false n) = numberText 10 false n := by
      rw [htext]
      exact List.dropWhile_cons_of_neg (by simp [hspace])
    have hunsigned : unsigned (numberText 10 false n) = numberText 10 false n := by
      rw [unsigned, hunspaced, if_neg]
      rw [htext]
      rintro (h | h)
      · exact hminus (Option.some.inj h)
      · exact hplus (Option.some.inj h)
    have hsign : (numberText 10 false n).head? ≠ some (byte '-') := by
      rw [htext]
      exact fun h => hminus (Option.some.inj h)
    simp only [Bool.false_eq_true, if_false, List.nil_append, hunspaced, hunsigned, hread, hsign]

theorem strtoull_numberText_iff (v : UInt64) :
    (strtoull (some (numberText 10 false v.toNat)) 10).ret = v ∧
      (strtoull (some (numberText 10 false v.toNat)) 10).endptr = some [] ↔
    v.toNat < 2 ^ 32 := by
  rw [strtoull, strtoul_numberText]
  have hret : (UInt32.ofNat v.toNat).toUInt64.toNat = v.toNat % 2 ^ 32 := by simp
  constructor
  · rintro ⟨hv, -⟩
    have htoNat := congrArg UInt64.toNat hv
    dsimp only at htoNat
    omega
  · intro hlt
    refine ⟨UInt64.toNat_inj.mp ?_, rfl⟩
    dsimp only
    omega

theorem strtoll_numberText_iff (w : Int64) :
    (strtoll ((if w.toInt < 0 then [byte '-'] else []) ++ numberText 10 false w.toInt.natAbs)
      10).ret = w ↔ -2 ^ 31 ≤ w.toInt ∧ w.toInt < 2 ^ 31 := by
  have hvalue : (if decide (w.toInt < 0) then -(w.toInt.natAbs : ℤ) else w.toInt.natAbs) =
      w.toInt := by
    simp only [decide_eq_true_eq]
    split <;> omega
  have hread := strtol_numberText w.toInt.natAbs (decide (w.toInt < 0))
  have hsigned := toInt_signed w.toInt.natAbs (decide (w.toInt < 0))
  rw [hvalue] at hsigned
  simp only [decide_eq_true_eq] at hread hsigned
  rw [strtoll, hread, ← Int64.toInt_inj, Int32.toInt_toInt64]
  constructor
  · intro h
    rw [← h]
    exact ⟨Int32.le_toInt _, Int32.toInt_lt _⟩
  · rintro ⟨hlow, hhigh⟩
    exact hsigned hlow hhigh

/-- A number is printed and read back as itself exactly when it is one of `long`. -/
theorem reparsed_iff (v : UInt64) (w : Int64) :
    (∃ out, Produces lluFormat [.dword v] out ∧
      ((strtoull (some out) 10).ret = v ∧ (strtoull (some out) 10).endptr = some [] ↔
        v.toNat < 2 ^ 32)) ∧
    ∃ out, Produces lldFormat [.dword w.toUInt64] out ∧
      ((strtoll out 10).ret = w ↔ -2 ^ 31 ≤ w.toInt ∧ w.toInt < 2 ^ 31) :=
  ⟨⟨_, produces_llu v, strtoull_numberText_iff v⟩, ⟨_, produces_lld w, strtoll_numberText_iff w⟩⟩

/-- The number `2 ^ 32` comes back as 0. -/
theorem not_reparsed_two_pow :
    ¬ ∀ (v : UInt64) out, Produces lluFormat [.dword v] out →
      (strtoull (some out) 10).ret = v ∧ (strtoull (some out) 10).endptr = some [] := by
  intro h
  have hlt := (strtoull_numberText_iff 4294967296).mp (h _ _ (produces_llu 4294967296))
  exact absurd hlt (by decide)

end LampUserspace.Stdlib
