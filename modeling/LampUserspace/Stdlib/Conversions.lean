import LampUserspace.Stdlib.Subject

/-! # When the subject sequence is converted

`strtol` and `strtoul` convert the subject sequence of every string but a few
kinds: a bare `0x`, for `strtoul` a sign, and for `strtol` white space or a sign
that no subject sequence follows.
-/

namespace LampUserspace.Stdlib

open Numerals

section Conversions

variable {base : ℕ} (hbase : base = 0 ∨ 2 ≤ base ∧ base ≤ 36) {s : List UInt8}

theorem strtol_eq (s : List UInt8) (base : ℤ) :
    strtol s base =
      ⟨if (unspaced s).head? = some (byte '-') then
          -(strtoul (some (unsigned s)) base).ret.toInt32
        else (strtoul (some (unsigned s)) base).ret.toInt32,
        (strtoul (some (unsigned s)) base).endptr, (strtoul (some (unsigned s)) base).errno⟩ :=
  rfl

/-- The conversion of a magnitude to `long` and its negation wrap around. -/
theorem toInt_signed (m : ℕ) (negative : Bool)
    (hlow : -2 ^ 31 ≤ if negative then -(m : ℤ) else m)
    (hhigh : (if negative then -(m : ℤ) else m) < 2 ^ 31) :
    (if negative then -(UInt32.ofNat m).toInt32 else (UInt32.ofNat m).toInt32).toInt =
      if negative then -(m : ℤ) else m := by
  have hmagnitude : (UInt32.ofNat m).toInt32.toInt = (m : ℤ).bmod (2 ^ 32) := by
    rw [UInt32.toInt32_ofNat', Int32.toInt_ofNat']
    rfl
  cases negative with
  | false =>
    simp only [Bool.false_eq_true, if_false] at hlow hhigh ⊢
    rw [hmagnitude]
    exact Int.bmod_eq_of_le (by omega) (by omega)
  | true =>
    simp only [if_true] at hlow hhigh ⊢
    rw [Int32.toInt_neg, hmagnitude, Int.bmod_neg_bmod]
    exact Int.bmod_eq_of_le (by omega) (by omega)

include hbase

/-- `strtoul` converts the number of a text without white space and sign. -/
theorem strtoul_unsigned {t : Subject} (ht : subject base s = some t)
    (hbare : ¬ BareHex base (unsigned s)) :
    strtoul (some (unsigned s)) base = ⟨.ofNat t.magnitude, some t.rest, none⟩ := by
  obtain ⟨hdigits, rfl⟩ := subject_eq_some_iff.mp ht
  have hspace := unspaced_of_digits hdigits
  rw [strtoul_of_digits hbase (hspace.symm ▸ hbare) (hspace.symm ▸ hdigits), hspace]
  rfl

theorem length_endptr {e : List UInt8} (h : (strtoul (some s) base).endptr = some e) :
    e.length ≤ s.length := by
  by_cases hread : BareHex base (unspaced s) ∨ digitsAt base (unspaced s) = []
  · rw [strtoul_of_no_digits hbase hread] at h
    obtain rfl := Option.some.inj h
    exact Nat.le_refl _
  · obtain ⟨hbare, hdigits⟩ := not_or.mp hread
    rw [strtoul_of_digits hbase hbare hdigits] at h
    obtain rfl := Option.some.inj h
    have hlt := length_restAt hdigits
    have hle := length_unspaced s
    omega

/-- `strtol` does what the standard asks, except for a bare `0x` and for strings without a subject
sequence in which it skips white space or a sign. -/
theorem strtol_prescribed :
    StrtolPrescribed base s ↔
      ¬ BareHex base (unsigned s) ∧ (subject base s = none → unsigned s = s) := by
  constructor
  · rintro ⟨hsome, hnone⟩
    constructor
    · intro hbare
      obtain ⟨t, ht, hzero⟩ := subject_bare hbare
      have hspace := unspaced_of_digits (subject_eq_some_iff.mp ht).1
      have hread := strtoul_of_no_digits hbase (Or.inl (hspace.symm ▸ hbare))
      have hfits : FitsLong t := by
        rw [FitsLong, Subject.value_of_zero hzero]
        decide
      have hend := (hsome t ht hfits).2
      rw [strtol_eq, hread] at hend
      exact absurd (congrArg List.length (Option.some.inj hend)) (Nat.ne_of_gt (length_rest ht))
    · intro ht
      have hend := (hnone ht).2
      exact (unsigned_suffix s).eq_of_length_le (length_endptr hbase hend)
  · rintro ⟨hbare, hskip⟩
    constructor
    · intro t ht hfits
      rw [strtol_eq, strtoul_unsigned hbase ht hbare]
      obtain ⟨-, rfl⟩ := subject_eq_some_iff.mp ht
      refine ⟨?_, rfl⟩
      have hvalue := toInt_signed _ _ hfits.1 hfits.2
      simpa [Subject.value] using hvalue
    · intro ht
      have hself := hskip ht
      have hnone := subject_eq_none_iff.mp ht
      have hspace := unspaced_of_unsigned hself
      rw [hself] at hnone
      rw [strtol_eq, hself, strtoul_of_no_digits hbase (Or.inr (hspace.symm ▸ hnone))]
      refine ⟨?_, rfl⟩
      dsimp only
      split <;> rfl

/-- `strtoul` does what the standard asks, except for a bare `0x` and for a subject sequence with
a sign. -/
theorem strtoul_prescribed :
    StrtoulPrescribed base s ↔
      ¬ BareHex base (unspaced s) ∧
        ∀ t, subject base s = some t → FitsUnsigned t → ¬ Signed (unspaced s) := by
  have hplain : ¬ Signed (unspaced s) → unsigned s = unspaced s := fun h => if_neg h
  constructor
  · rintro ⟨hsome, hnone⟩
    have hend : ∀ t, subject base s = some t → FitsUnsigned t →
        (strtoul (some s) base).endptr ≠ some s := by
      intro t ht hfits hself
      have hrest := (hsome t ht hfits).2
      have hlength := congrArg List.length (Option.some.inj (hrest.symm.trans hself))
      have hlt := length_rest ht
      have hle := (unsigned_suffix s).length_le
      omega
    constructor
    · intro hbare
      have hunsigned := hplain (not_signed_of_zero hbare.head)
      obtain ⟨t, ht, hzero⟩ := subject_bare (hunsigned.symm ▸ hbare)
      have hfits : FitsUnsigned t := by
        rw [FitsUnsigned, hzero]
        decide
      apply hend t ht hfits
      rw [strtoul_of_no_digits hbase (Or.inl hbare)]
    · intro t ht hfits hsigned
      apply hend t ht hfits
      rw [strtoul_of_no_digits hbase (Or.inr (digitsAt_of_signed hsigned))]
  · rintro ⟨hbare, hsign⟩
    constructor
    · intro t ht hfits
      have hunsigned := hplain (hsign t ht hfits)
      obtain ⟨hdigits, rfl⟩ := subject_eq_some_iff.mp ht
      have hneg : ¬ (unspaced s).head? = some (byte '-') := fun h => hsign _ ht hfits (Or.inl h)
      rw [hunsigned] at hdigits
      rw [strtoul_of_digits hbase hbare hdigits]
      simp [Subject.value, Subject.magnitude, hneg, hunsigned, ofInt_natCast]
    · intro ht
      have hnone : digitsAt base (unspaced s) = [] := by
        by_cases hsigned : Signed (unspaced s)
        · exact digitsAt_of_signed hsigned
        · rw [← hplain hsigned]
          exact subject_eq_none_iff.mp ht
      rw [strtoul_of_no_digits hbase (Or.inr hnone)]
      exact ⟨rfl, rfl⟩

end Conversions

theorem conversions_prescribed_iff (s : CString) (base : ℕ)
    (hbase : base = 0 ∨ 2 ≤ base ∧ base ≤ 36) :
    (StrtolPrescribed base s.bytes ↔
      ¬ BareHex base (unsigned s.bytes) ∧
        (subject base s.bytes = none → unsigned s.bytes = s.bytes)) ∧
    (StrtoulPrescribed base s.bytes ↔
      ¬ BareHex base (unspaced s.bytes) ∧
        ∀ t, subject base s.bytes = some t → FitsUnsigned t → ¬ Signed (unspaced s.bytes)) :=
  ⟨strtol_prescribed hbase, strtoul_prescribed hbase⟩

/-- The string `0x1f` is converted by both in base 0. -/
theorem conversions_prescribed_hex :
    StrtolPrescribed 0 [byte '0', byte 'x', byte '1', byte 'f'] ∧
      StrtoulPrescribed 0 [byte '0', byte 'x', byte '1', byte 'f'] := by
  obtain ⟨hl, hul⟩ := conversions_prescribed_iff
    ⟨[byte '0', byte 'x', byte '1', byte 'f'], by decide⟩ 0 (by decide)
  constructor
  · exact hl.mpr ⟨by decide +kernel, fun _ => by decide +kernel⟩
  · exact hul.mpr ⟨by decide +kernel, fun _ _ _ => by decide +kernel⟩

/-- `strtoul` does not take the sign of `+5`. -/
theorem strtoul_plus_not_prescribed :
    ¬ ∀ (s : CString) (base : ℕ), base = 0 ∨ 2 ≤ base ∧ base ≤ 36 →
      StrtolPrescribed base s.bytes ∧ StrtoulPrescribed base s.bytes := by
  intro h
  obtain ⟨-, hul⟩ := h ⟨[byte '+', byte '5'], by decide⟩ 10 (by decide)
  have hsubject : subject 10 [byte '+', byte '5'] = some ⟨false, 10, [byte '5'], []⟩ := by
    decide +kernel
  exact ((strtoul_prescribed (by decide)).mp hul).2 _ hsubject
    (show number digitValue 10 [byte '5'] < 2 ^ 32 by decide +kernel) (by decide)

end LampUserspace.Stdlib
