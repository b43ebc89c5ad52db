import LampUserspace.Binary.Truncation
import LampUserspace.CompilerRt.Compare
import LampUserspace.CompilerRt.Pack
import Mathlib.Algebra.Order.Floor.Semifield
import Mathlib.Data.Rat.Floor

/-! # Doubles and integers

Every 32-bit integer becomes a double exactly. Back from a double the number is
truncated toward zero. Numbers below `2 ^ 53` saturate at the bounds of the signed
integers; the unsigned conversion never saturates at its own bounds.
-/

namespace LampUserspace.CompilerRt
open Binary

/-! ## The conversions -/

def dfFromMag (mag : Dbits) (sign : Bool) : Option Dbits :=
  if mag = 0 then some (signWord sign)
  else do
    let tm ← dfMsb mag
    let q := mag <<< (52 - tm).toNat
    return signWord sign ||| BitVec.ofInt 64 (tm + dBias) <<< 52 ||| q &&& dFrac

def floatsidf (v : BitVec 32) : Option Dbits :=
  if v.toInt < 0 then
    -- safe for the least integer
    let mag := -(v + 1).signExtend 64 + 1
    dfFromMag mag true
  else dfFromMag (v.signExtend 64) false

def floatunsidf (v : BitVec 32) : Option Dbits := dfFromMag (v.setWidth 64) false

/-- The result of `df_to_i` for numbers that it finds too large. -/
def dfOverflow (isSigned : Bool) : BitVec 32 := if isSigned then 0x80000000#32 else 0x7FFFFFFF#32

/-- The end of `df_to_i`: give the truncated magnitude its sign. -/
def dfSaturate (sign : Bool) (ip : Dbits) (isSigned : Bool) : BitVec 32 :=
  if isSigned then
    if sign then
      if ip > 0x80000000#64 then 0x80000000#32
      else (-ip).setWidth 32
    else if ip > 0x7FFFFFFF#64 then 0x7FFFFFFF#32
    else ip.setWidth 32
  else if sign || ip > 0xFFFFFFFF#64 then dfOverflow isSigned
  else ip.setWidth 32

def dfToI (a : Dbits) (isSigned : Bool) : BitVec 32 :=
  let sign := a >>> 63 != 0
  let e := expField a
  let m := a &&& dFrac
  if e = 0x7FF then dfOverflow isSigned
  else if e = 0 then 0
  else
    let q := m ||| dImpl
    let re := e - dBias
    if re < 0 then 0
    else if re ≤ 52 then dfSaturate sign (q >>> (52 - re).toNat) isSigned
    else
      let sh2 := (re - 52).toNat
      if sh2 ≥ 32 ∨ q <<< sh2 >>> 32 ≠ 0 then dfOverflow isSigned
      else dfSaturate sign (q <<< sh2) isSigned

def fixdfsi (a : Dbits) : BitVec 32 := dfToI a true
def fixunsdfsi (a : Dbits) : BitVec 32 := dfToI a false

/-! ## The integer part -/

section IntegerPart

variable {a : Dbits} {e i k : ℕ}

/-- The integer part of the magnitude; an infinity is taken for the value of its pattern. -/
def integerPart (a : Dbits) : ℕ := ⌊|binary64.signedValue a|⌋₊

theorem value_lt_two_pow_iff (i k : ℕ) : binary64.value k < 2 ^ i ↔ k < (1023 + i) * 2 ^ 52 := by
  have hpow : binary64.value ((1023 + i) * 2 ^ 52) = 2 ^ i := by
    have hbinade := Format.value_binade (F := binary64) (j := 1022 + i) (n := 2 ^ 52)
      (Nat.pow_le_pow_right Nat.two_pos (by decide)) (.inr le_rfl)
    rw [binary64_fractionBits, binary64_minExponent, ← Nat.succ_mul] at hbinade
    rw [show (1023 + i) = (1022 + i).succ by omega, hbinade, Nat.cast_pow, Nat.cast_two,
      show (-1074 + (1022 + i : ℕ) : ℤ) = i - (52 : ℕ) by omega, ← two_zpow_add, sub_add_cancel,
      zpow_natCast]
  rw [← hpow, binary64.value_strictMono.lt_iff_lt]

theorem integerPart_lt_two_pow_iff (a : Dbits) (i : ℕ) :
    integerPart a < 2 ^ i ↔ magnitude a < (1023 + i) * 2 ^ 52 := by
  rw [integerPart, Format.abs_signedValue, Nat.floor_lt (binary64.value_nonneg _),
    ← value_lt_two_pow_iff, Nat.cast_pow, Nat.cast_two]

/-- The implicit bit and the fraction, at the place of the last bit. -/
theorem abs_signedValue_eq (ha : binary64.IsFinite a) (he : expField a ≠ 0) :
    |binary64.signedValue a| =
      (a &&& dFrac ||| dImpl).toNat * (2 : ℚ) ^ (expField a - 1075 : ℤ) := by
  have hmag := magnitude_eq a
  have hlow := toNat_and_dFrac a
  unfold Format.IsFinite at ha
  rw [binary64_inf] at ha
  rw [Format.abs_signedValue]
  exact (unpacksFinite_normal hmag (by omega) he (by omega)).value_eq rfl

theorem integerPart_shiftRight (ha : binary64.IsFinite a) (he : expField a ≠ 0)
    (hk : expField a + k = 1075) : integerPart a = (a &&& dFrac ||| dImpl).toNat / 2 ^ k := by
  rw [integerPart, abs_signedValue_eq ha he, show (expField a - 1075 : ℤ) = -k by omega, zpow_neg,
    ← div_eq_mul_inv, zpow_natCast]
  exact_mod_cast Nat.floor_div_eq_div (K := ℚ) (a &&& dFrac ||| dImpl).toNat (2 ^ k)

theorem integerPart_shiftLeft (ha : binary64.IsFinite a) (hk : expField a = 1075 + k) :
    integerPart a = (a &&& dFrac ||| dImpl).toNat * 2 ^ k := by
  rw [integerPart, abs_signedValue_eq ha (by omega), show (expField a - 1075 : ℤ) = k by omega,
    zpow_natCast]
  exact_mod_cast Nat.floor_natCast (R := ℚ) _

end IntegerPart

/-! ## Routes of the conversion -/

section Routes

variable {a : Dbits}

/-- The significand shifted in either direction is the integer part, as far as it fits. -/
theorem dfToI_normal (ha : binary64.IsFinite a) (he : 1023 ≤ expField a) (isSigned : Bool) :
    dfToI a isSigned =
      if integerPart a < 2 ^ 53 ∨ integerPart a < 2 ^ 84 ∧ integerPart a % 2 ^ 64 < 2 ^ 32 then
        dfSaturate a.msb (BitVec.ofNat 64 (integerPart a)) isSigned
      else dfOverflow isSigned := by
  have hmag := magnitude_eq a
  have hlow := toNat_and_dFrac a
  have h53 := integerPart_lt_two_pow_iff a 53
  have h84 := integerPart_lt_two_pow_iff a 84
  have hfield := mt (expField_eq_iff a).mp (not_le.mpr ha)
  unfold dfToI
  dsimp only
  rw [shiftRight_bne_zero_eq_msb, if_neg hfield, if_neg (by omega),
    if_neg (by unfold dBias; omega)]
  rcases le_or_gt (expField a) 1075 with hle | hlt
  · obtain ⟨k, hk⟩ := Nat.exists_eq_add_of_le hle
    have hpart := integerPart_shiftRight ha (by omega) hk.symm
    have hword : (a &&& dFrac ||| dImpl) >>> k = BitVec.ofNat 64 (integerPart a) := by
      apply BitVec.eq_of_toNat_eq
      rw [toNat_shiftRight, BitVec.toNat_ofNat, ← hpart, Nat.mod_eq_of_lt (by omega)]
    have hshift : (52 - (expField a - dBias)).toNat = k := by
      unfold dBias
      omega
    rw [if_pos (by unfold dBias; omega), if_pos (.inl (by omega)), hshift, hword]
  · obtain ⟨k, hk⟩ := Nat.exists_eq_add_of_lt hlt
    have hpart := integerPart_shiftLeft ha (k := k + 1) hk
    have hword : (a &&& dFrac ||| dImpl) <<< (k + 1) = BitVec.ofNat 64 (integerPart a) := by
      apply BitVec.eq_of_toNat_eq
      rw [toNat_shiftLeft, BitVec.toNat_ofNat, ← hpart]
    have hshift : (expField a - dBias - 52).toNat = k + 1 := by
      unfold dBias
      omega
    have hhigh : BitVec.ofNat 64 (integerPart a) >>> 32 = 0 ↔ integerPart a % 2 ^ 64 < 2 ^ 32 := by
      rw [eq_zero_iff_toNat, toNat_shiftRight, BitVec.toNat_ofNat,
        Nat.div_eq_zero_iff_lt (Nat.two_pow_pos 32)]
    have htest : (k + 1 ≥ 32 ∨ BitVec.ofNat 64 (integerPart a) >>> 32 ≠ 0) ↔
        ¬ (integerPart a < 2 ^ 53 ∨
          integerPart a < 2 ^ 84 ∧ integerPart a % 2 ^ 64 < 2 ^ 32) := by
      rw [ne_eq, hhigh]
      omega
    rw [if_neg (by unfold dBias; omega), hshift, hword, ite_congr (propext htest) (fun _ => rfl)
      (fun _ => rfl), ite_not]

theorem dfToI_eq (a : Dbits) (isSigned : Bool) :
    dfToI a isSigned =
      if integerPart a = 0 then 0
      else if integerPart a < 2 ^ 53 ∨
          integerPart a < 2 ^ 84 ∧ integerPart a % 2 ^ 64 < 2 ^ 32 then
        dfSaturate a.msb (BitVec.ofNat 64 (integerPart a)) isSigned
      else dfOverflow isSigned := by
  have hmag := magnitude_eq a
  have hlow := toNat_and_dFrac a
  have h0 := integerPart_lt_two_pow_iff a 0
  have h53 := integerPart_lt_two_pow_iff a 53
  have h84 := integerPart_lt_two_pow_iff a 84
  by_cases hfin : binary64.IsFinite a
  · rcases Nat.lt_or_ge (expField a) 1023 with hlt | hge
    · have hfield := mt (expField_eq_iff a).mp (not_le.mpr hfin)
      rw [if_pos (by omega)]
      unfold dfToI
      dsimp only
      rw [if_neg hfield]
      split
      · rfl
      · rw [if_pos (by unfold dBias; omega)]
    · rw [if_neg (by omega), dfToI_normal hfin hge]
  · have hfield := (expField_eq_iff a).mpr (not_lt.mp hfin)
    rw [if_neg (by omega), if_neg (by omega)]
    unfold dfToI
    dsimp only
    rw [if_pos hfield]

theorem integerPart_mod_two (hge : 2 ^ 53 ≤ integerPart a) (hlt : integerPart a < 2 ^ 84) :
    integerPart a % 2 = 0 := by
  have hmag := magnitude_eq a
  have hlow := toNat_and_dFrac a
  have h53 := integerPart_lt_two_pow_iff a 53
  have h84 := integerPart_lt_two_pow_iff a 84
  have hfin : binary64.IsFinite a := by
    rw [Format.IsFinite, binary64_inf]
    omega
  obtain ⟨k, hk⟩ := Nat.exists_eq_add_of_lt (show 1075 < expField a by omega)
  rw [integerPart_shiftLeft hfin (k := k + 1) hk, Nat.pow_succ, ← Nat.mul_assoc, Nat.mul_mod_left]

end Routes

/-! ## Saturation -/

section Saturation

variable {a : Dbits} {lo hi : ℤ}

def signedPart (a : Dbits) : ℤ := if a.msb then -(integerPart a : ℤ) else integerPart a

theorem truncate_signedValue (a : Dbits) : truncate (binary64.signedValue a) = signedPart a := by
  have hpart : truncate (binary64.value (magnitude a)) = integerPart a := by
    rw [truncate_of_nonneg (binary64.value_nonneg _), integerPart, Format.abs_signedValue]
  unfold Format.signedValue signedPart
  split
  · rw [truncate_neg, hpart]
  · exact hpart

/-- The infinities lie beyond the bounds, as the values of their patterns do. -/
theorem saturate_extended (a : Dbits) (hlo : -2 ^ 84 ≤ lo) (h : lo ≤ hi) (hhi : hi ≤ 2 ^ 84) :
    saturate lo hi (binary64.extended a) = max lo (min hi (signedPart a)) := by
  unfold Format.extended
  split
  case isTrue hinf =>
    have h84 := integerPart_lt_two_pow_iff a 84
    rw [hinf, binary64_inf] at h84
    unfold signedPart
    split
    · rw [saturate_bot, min_eq_right (by omega), max_eq_left (by omega)]
    · rw [saturate_top, min_eq_left (by omega), max_eq_right h]
  case isFalse => rw [saturate_coe, truncate_signedValue]

theorem toInt_dfSaturate (neg : Bool) (ip : Dbits) :
    (dfSaturate neg ip true).toInt =
      max (-2 ^ 31) (min (2 ^ 31 - 1) (if neg then -(ip.toNat : ℤ) else ip.toNat)) := by
  have hlt := ip.isLt
  have hleast : (0x80000000#32).toInt = -2 ^ 31 := by decide
  have hgreatest : (0x7FFFFFFF#32).toInt = 2 ^ 31 - 1 := by decide
  unfold dfSaturate
  rw [if_pos rfl]
  cases neg with
  | true =>
    have hbound : (0x80000000#64).toNat = 2 ^ 31 := rfl
    rw [if_pos rfl, if_pos rfl]
    split
    case isTrue h =>
      rw [gt_iff_lt, BitVec.lt_def, hbound] at h
      rw [hleast, min_eq_right (by omega), max_eq_left (by omega)]
    case isFalse h =>
      rw [gt_iff_lt, BitVec.lt_def, hbound] at h
      rw [BitVec.toInt_eq_toNat_cond, BitVec.toNat_setWidth, BitVec.toNat_neg,
        min_eq_right (by omega), max_eq_right (by omega)]
      split <;> omega
  | false =>
    have hbound : (0x7FFFFFFF#64).toNat = 2 ^ 31 - 1 := rfl
    rw [if_neg Bool.false_ne_true, if_neg Bool.false_ne_true]
    split
    case isTrue h =>
      rw [gt_iff_lt, BitVec.lt_def, hbound] at h
      rw [hgreatest, min_eq_left (by omega), max_eq_right (by omega)]
    case isFalse h =>
      rw [gt_iff_lt, BitVec.lt_def, hbound] at h
      rw [BitVec.toInt_eq_toNat_cond, BitVec.toNat_setWidth, min_eq_right (by omega),
        max_eq_right (by omega)]
      split <;> omega

theorem toNat_dfSaturate (neg : Bool) (ip : Dbits) :
    (dfSaturate neg ip false).toNat =
      if neg ∨ 2 ^ 32 ≤ ip.toNat then 2 ^ 31 - 1 else ip.toNat := by
  have hbound : (0xFFFFFFFF#64).toNat = 2 ^ 32 - 1 := rfl
  have htest : (neg || decide (ip > 0xFFFFFFFF#64)) = true ↔ neg = true ∨ 2 ^ 32 ≤ ip.toNat := by
    rw [Bool.or_eq_true, decide_eq_true_eq, gt_iff_lt, BitVec.lt_def, hbound]
    exact or_congr_right (by omega)
  unfold dfSaturate
  rw [if_neg Bool.false_ne_true, ite_congr (propext htest) (fun _ => rfl) (fun _ => rfl)]
  split
  case isTrue => rfl
  case isFalse h =>
    rw [BitVec.toNat_setWidth, Nat.mod_eq_of_lt (by omega)]

end Saturation

/-! ## Truncation -/

section Truncation

variable {a b : Dbits}

def FixesSigned (a : Dbits) : Prop :=
  (fixdfsi a).toInt = saturate (-2 ^ 31) (2 ^ 31 - 1) (binary64.extended a)

def FixesUnsigned (a : Dbits) : Prop :=
  ((fixunsdfsi a).toNat : ℤ) = saturate 0 (2 ^ 32 - 1) (binary64.extended a)

/-- Below `2 ^ 53` the signed conversion saturates. From there on a negative number has to fail the
test of the shifted significand or leave the least integer's bit in its low word, and a positive
one has to pass the test with that bit. -/
def SignedRange (a : Dbits) : Prop :=
  integerPart a < 2 ^ 53 ∨
    if a.msb then 2 ^ 84 ≤ integerPart a ∨ 2 ^ 31 ≤ integerPart a % 2 ^ 64
    else integerPart a < 2 ^ 84 ∧ 2 ^ 31 ≤ integerPart a % 2 ^ 64 ∧
      integerPart a % 2 ^ 64 < 2 ^ 32

def UnsignedRange (a : Dbits) : Prop :=
  binary64.IsFinite a ∧ -1 < binary64.signedValue a ∧ binary64.signedValue a < 2 ^ 32

theorem unsignedRange_iff (a : Dbits) :
    UnsignedRange a ↔ 0 ≤ signedPart a ∧ signedPart a < 2 ^ 32 := by
  have h32 := integerPart_lt_two_pow_iff a 32
  have hlt : signedPart a < 2 ^ 32 ↔ binary64.signedValue a < 2 ^ 32 := by
    rw [← truncate_signedValue, truncate_lt_iff (by decide), Int.cast_pow, Int.cast_two]
  have hge : 0 ≤ signedPart a ↔ -1 < binary64.signedValue a := by
    rw [← truncate_signedValue, truncate_nonneg_iff]
  rw [UnsignedRange, hlt, hge, and_iff_right_iff_imp]
  intro h
  rw [← hlt, ← hge] at h
  rw [Format.IsFinite, binary64_inf]
  unfold signedPart at h
  split at h <;> omega

theorem fixesUnsigned_iff (a : Dbits) : FixesUnsigned a ↔ UnsignedRange a := by
  have hword : (BitVec.ofNat 64 (integerPart a)).toNat = integerPart a % 2 ^ 64 :=
    BitVec.toNat_ofNat ..
  have heven := integerPart_mod_two (a := a)
  have hlarge : (dfOverflow false).toNat = 2 ^ 31 - 1 := rfl
  unfold FixesUnsigned fixunsdfsi
  rw [unsignedRange_iff, saturate_extended a (by decide) (by decide) (by decide), dfToI_eq]
  unfold signedPart
  split
  case isTrue h0 =>
    have hzero : (0 : BitVec 32).toNat = 0 := rfl
    rw [hzero]
    split <;> omega
  case isFalse h0 =>
    split
    case isTrue hroute =>
      rw [toNat_dfSaturate, hword]
      cases a.msb with
      | true =>
        simp only [true_or, if_true]
        omega
      | false =>
        simp only [Bool.false_eq_true, false_or, if_false]
        split <;> omega
    case isFalse hroute =>
      rw [hlarge]
      split <;> omega

theorem fixesSigned_iff (a : Dbits) : FixesSigned a ↔ SignedRange a := by
  have hword : (BitVec.ofNat 64 (integerPart a)).toNat = integerPart a % 2 ^ 64 :=
    BitVec.toNat_ofNat ..
  have heven := integerPart_mod_two (a := a)
  have hleast : (dfOverflow true).toInt = -2 ^ 31 := by decide
  unfold FixesSigned fixdfsi
  rw [saturate_extended a (by decide) (by decide) (by decide), dfToI_eq]
  unfold signedPart SignedRange
  split
  case isTrue h0 =>
    have hzero : (0 : BitVec 32).toInt = 0 := rfl
    rw [hzero]
    split <;> omega
  case isFalse h0 =>
    split
    case isTrue hroute =>
      rw [toInt_dfSaturate, hword]
      split <;> omega
    case isFalse hroute =>
      rw [hleast]
      split <;> omega

theorem UnsignedRange.signedRange (h : UnsignedRange a) : SignedRange a := by
  rw [unsignedRange_iff] at h
  unfold signedPart at h
  left
  split at h <;> omega

/-- The signed conversion is right in its range, the unsigned one for the numbers whose truncation
is an unsigned integer, and there they keep the order. -/
theorem fix_correct_iff (a : Dbits) :
    (FixesSigned a ∧ FixesUnsigned a ↔ UnsignedRange a) ∧
    (FixesSigned a ↔ SignedRange a) ∧ (FixesUnsigned a ↔ UnsignedRange a) ∧
    ∀ b, binary64.extended a ≤ binary64.extended b →
      (SignedRange a → SignedRange b → (fixdfsi a).toInt ≤ (fixdfsi b).toInt) ∧
      (UnsignedRange a → UnsignedRange b → (fixunsdfsi a).toNat ≤ (fixunsdfsi b).toNat) := by
  rw [fixesSigned_iff, fixesUnsigned_iff]
  refine ⟨and_iff_right_of_imp UnsignedRange.signedRange, Iff.rfl, Iff.rfl, fun b hle => ⟨?_, ?_⟩⟩
  · intro ha hb
    rw [← fixesSigned_iff] at ha hb
    rw [ha, hb]
    exact saturate_le_saturate (by decide) hle
  · intro ha hb
    rw [← fixesUnsigned_iff] at ha hb
    rw [← Int.ofNat_le, ha, hb]
    exact saturate_le_saturate (by decide) hle

/-- The unsigned conversion takes `-1` to the greatest signed integer, above what it takes zero to,
and the signed conversion takes positive infinity to the least integer. -/
theorem minus_one_fixed_above_zero :
    ¬ FixesUnsigned 0xBFF0000000000000#64 ∧
      binary64.extended 0xBFF0000000000000#64 ≤ binary64.extended 0#64 ∧
      ¬ (fixunsdfsi 0xBFF0000000000000#64).toNat ≤ (fixunsdfsi 0#64).toNat ∧
      ¬ FixesSigned dExp := by
  unfold FixesUnsigned FixesSigned
  decide +kernel

end Truncation

/-! ## From integers -/

section FromInteger

variable {r s mag : Dbits} {neg : Bool} {i j : ℤ}

/-- The double is the integer. Zero is positive. -/
structure Encodes (r : Dbits) (i : ℤ) : Prop where
  isFinite : binary64.IsFinite r
  signedValue_eq : binary64.signedValue r = i
  msb_eq : r.msb = decide (i < 0)

theorem encodes_of_value {k : ℕ} (hr : r.toNat = neg.toNat * 2 ^ 63 + k) (hk : k < binary64.inf)
    (hvalue : binary64.value k = mag.toNat) (hneg : neg = true → mag ≠ 0) :
    Encodes r (if neg then -(mag.toNat : ℤ) else mag.toNat) := by
  rw [binary64_inf] at hk
  obtain ⟨hmsb, hmag⟩ := sign_magnitude_of_toNat (show 0 < 64 by decide) hr (by omega)
  constructor
  · rw [Format.IsFinite, hmag, binary64_inf]
    exact hk
  · rw [Format.signedValue, hmsb, hmag, hvalue]
    split
    · rw [Int.cast_neg, Int.cast_natCast]
    · rw [Int.cast_natCast]
  · rw [hmsb]
    cases neg with
    | true =>
      have hpos : mag.toNat ≠ 0 := fun h => hneg rfl (eq_zero_iff_toNat.mpr h)
      rw [if_pos rfl, eq_comm, decide_eq_true_eq]
      omega
    | false => simp

theorem encodes_of_normalized {n d : ℕ} (hd : n + d = 52) (hge : 2 ^ n ≤ mag.toNat)
    (hlt : mag.toNat < 2 ^ (n + 1)) (hneg : neg = true → mag ≠ 0) :
    Encodes (signWord neg ||| BitVec.ofInt 64 (n + 1023 : ℕ) <<< 52 ||| mag <<< d &&& dFrac)
      (if neg then -(mag.toNat : ℤ) else mag.toNat) := by
  obtain ⟨hge', hlt'⟩ := mul_two_pow_bounds (d := d) hge hlt
  rw [hd] at hge' hlt'
  have hshift : (mag <<< d).toNat = mag.toNat * 2 ^ d := toNat_shiftLeft_of_lt (by omega)
  have hfields := toNat_encode neg (mag <<< d) (f := n + 1023) (by omega)
  rw [hshift] at hfields
  have hpat : (n + 1023) * 2 ^ 52 + mag.toNat * 2 ^ d % 2 ^ 52 =
      (n + 1022) * 2 ^ 52 + mag.toNat * 2 ^ d := by omega
  rw [hpat] at hfields
  have hvalue := Format.value_binade (F := binary64) (j := n + 1022) hlt'.le (.inr hge')
  have hscale := two_zpow_add (-(d : ℤ)) d
  rw [neg_add_cancel, zpow_zero] at hscale
  apply encodes_of_value hfields
  · rw [binary64_inf]
    omega
  · rw [binary64_fractionBits, binary64_minExponent,
      show (-1074 + (n + 1022 : ℕ) : ℤ) = -d by omega] at hvalue
    rw [hvalue, Nat.cast_mul, Nat.cast_pow, Nat.cast_two, mul_assoc, ← hscale, mul_one]
  · exact hneg

theorem dfFromMag_encodes (mag : Dbits) (neg : Bool) (hlt : mag.toNat < 2 ^ 53)
    (hneg : neg = true → mag ≠ 0) : Total (dfFromMag mag neg) fun r =>
      Encodes r (if neg then -(mag.toNat : ℤ) else mag.toNat) := by
  unfold dfFromMag
  apply Total.ite
  · intro hzero
    obtain rfl : neg = false := Bool.eq_false_iff.mpr fun h => hneg h hzero
    rw [hzero]
    exact .some ⟨by decide, Format.signedValue_eq_zero rfl, by decide⟩
  · intro hmag
    apply (dfMsb_total hmag).bind
    rintro - - ⟨n, rfl, hge, hlt'⟩
    have hn : n ≤ 52 := Nat.lt_succ_iff.mp (lt_of_two_pow_le hge hlt)
    obtain ⟨d, hd⟩ := Nat.exists_eq_add_of_le hn
    have hshift : (52 - (n : ℤ)).toNat = d := by omega
    have hfield : n + dBias = (n + 1023 : ℕ) := by
      unfold dBias
      omega
    rw [hshift, hfield]
    exact .pure (encodes_of_normalized hd.symm hge hlt' hneg)

theorem toNat_signExtend_of_nonneg {v : BitVec 32} (hv : 0 ≤ v.toInt) :
    ((v.signExtend 64).toNat : ℤ) = v.toInt := by
  have hlt := BitVec.toInt_lt (x := v)
  rw [BitVec.signExtend, BitVec.toNat_ofInt]
  omega

/-- The negation does not overflow, for the least integer either. -/
theorem toNat_negated {v : BitVec 32} (hv : v.toInt < 0) :
    ((-(v + 1).signExtend 64 + 1).toNat : ℤ) = -v.toInt := by
  have hge := BitVec.le_toInt v
  have hsucc : (v + 1).toInt = v.toInt + 1 := by
    rw [BitVec.toInt_eq_toNat_cond] at hv ⊢
    rw [BitVec.toInt_eq_toNat_cond, BitVec.toNat_add]
    have hone : (1 : BitVec 32).toNat = 1 := rfl
    rw [hone]
    split at hv <;> split <;> omega
  rw [BitVec.signExtend, hsucc, BitVec.toNat_add, BitVec.toNat_neg, BitVec.toNat_ofInt]
  have hone : (1 : BitVec 64).toNat = 1 := rfl
  rw [hone]
  omega

theorem floatsidf_encodes (v : BitVec 32) : Total (floatsidf v) fun r => Encodes r v.toInt := by
  have hge := BitVec.le_toInt v
  have hlt := BitVec.toInt_lt (x := v)
  unfold floatsidf
  apply Total.ite
  · intro hneg
    have hmag := toNat_negated hneg
    have hfrom := dfFromMag_encodes (-(v + 1).signExtend 64 + 1) true (by omega)
      (fun _ h => by rw [eq_zero_iff_toNat] at h; omega)
    rwa [if_pos rfl, hmag, neg_neg] at hfrom
  · intro hpos
    have hmag := toNat_signExtend_of_nonneg (not_lt.mp hpos)
    have hfrom := dfFromMag_encodes (v.signExtend 64) false (by omega)
      (fun h => absurd h Bool.false_ne_true)
    rwa [if_neg Bool.false_ne_true, hmag] at hfrom

theorem floatunsidf_encodes (v : BitVec 32) :
    Total (floatunsidf v) fun r => Encodes r v.toNat := by
  have hlt := v.isLt
  have hmag : (v.setWidth 64).toNat = v.toNat := by
    rw [BitVec.toNat_setWidth, Nat.mod_eq_of_lt (by omega)]
  have hfrom := dfFromMag_encodes (v.setWidth 64) false (by omega)
    (fun h => absurd h Bool.false_ne_true)
  rwa [if_neg Bool.false_ne_true, hmag] at hfrom

/-! ## There and back -/

namespace Encodes

theorem extended_eq (h : Encodes r i) :
    binary64.extended r = (((i : ℚ) : WithTop ℚ) : WithBot (WithTop ℚ)) := by
  rw [Format.extended, if_neg (ne_of_lt h.isFinite), h.signedValue_eq]

theorem saturate_extended (h : Encodes r i) (lo hi : ℤ) :
    saturate lo hi (binary64.extended r) = max lo (min hi i) := by
  rw [h.extended_eq, saturate_coe, truncate_intCast]

theorem integerPart_eq (h : Encodes r i) : integerPart r = i.natAbs := by
  rw [integerPart, h.signedValue_eq, ← Int.cast_abs, ← Nat.cast_natAbs]
  exact Nat.floor_natCast _

theorem fixdfsi_eq {v : BitVec 32} (h : Encodes r v.toInt) : fixdfsi r = v := by
  have hge := BitVec.le_toInt v
  have hlt := BitVec.toInt_lt (x := v)
  have hrange : SignedRange r := by
    left
    rw [h.integerPart_eq]
    omega
  have hfix := (fixesSigned_iff r).mpr hrange
  rw [FixesSigned, h.saturate_extended] at hfix
  apply BitVec.eq_of_toInt_eq
  omega

theorem fixunsdfsi_eq {v : BitVec 32} (h : Encodes r v.toNat) : fixunsdfsi r = v := by
  have hlt := v.isLt
  have hrange : UnsignedRange r := by
    rw [unsignedRange_iff, ← truncate_signedValue, h.signedValue_eq, truncate_intCast]
    omega
  have hfix := (fixesUnsigned_iff r).mpr hrange
  rw [FixesUnsigned, h.saturate_extended] at hfix
  apply BitVec.eq_of_toNat_eq
  omega

theorem dfCmp3way_iff (hr : Encodes r i) (hs : Encodes s j) (n : ℤ) :
    (dfCmp3way r s n = -1 ↔ i < j) ∧ (dfCmp3way r s n = 0 ↔ i = j) ∧
      (dfCmp3way r s n = 1 ↔ j < i) := by
  have hspec := dfCmp3way_spec hr.isFinite.asymm hs.isFinite.asymm n
  rw [hr.extended_eq, hs.extended_eq] at hspec
  simpa only [WithBot.coe_lt_coe, WithTop.coe_lt_coe, WithBot.coe_inj, WithTop.coe_inj,
    Int.cast_lt, Int.cast_inj] using hspec

end Encodes

/-- Both conversions return and the comparison of their results is that of the integers. -/
def OrdersAs (x y : Option Dbits) (i j : ℤ) : Prop :=
  Total x fun r => Total y fun s => ∀ n, (dfCmp3way r s n = -1 ↔ i < j) ∧
    (dfCmp3way r s n = 0 ↔ i = j) ∧ (dfCmp3way r s n = 1 ↔ j < i)

theorem ordersAs_of_encodes {x y : Option Dbits} (hx : Total x fun r => Encodes r i)
    (hy : Total y fun s => Encodes s j) : OrdersAs x y i j := by
  apply hx.mono
  rintro r - hr
  apply hy.mono
  rintro s - hs
  exact hr.dfCmp3way_iff hs

/-- Every integer becomes the double of the same value and comes back from it, and the doubles are
ordered as the integers. -/
theorem integers_exact (v w : BitVec 32) :
    (Total (floatsidf v) fun r => Encodes r v.toInt ∧ fixdfsi r = v) ∧
    (Total (floatunsidf v) fun r => Encodes r v.toNat ∧ fixunsdfsi r = v) ∧
    OrdersAs (floatsidf v) (floatsidf w) v.toInt w.toInt ∧
    OrdersAs (floatunsidf v) (floatunsidf w) v.toNat w.toNat ∧
    OrdersAs (floatsidf v) (floatunsidf w) v.toInt w.toNat ∧
    OrdersAs (floatunsidf v) (floatsidf w) v.toNat w.toInt := by
  have hsv := floatsidf_encodes v
  have huv := floatunsidf_encodes v
  have hsw := floatsidf_encodes w
  have huw := floatunsidf_encodes w
  refine ⟨?_, ?_, ordersAs_of_encodes hsv hsw, ordersAs_of_encodes huv huw,
    ordersAs_of_encodes hsv huw, ordersAs_of_encodes huv hsw⟩
  · apply hsv.mono
    rintro r - hr
    exact ⟨hr, hr.fixdfsi_eq⟩
  · apply huv.mono
    rintro r - hr
    exact ⟨hr, hr.fixunsdfsi_eq⟩

end FromInteger

end LampUserspace.CompilerRt
