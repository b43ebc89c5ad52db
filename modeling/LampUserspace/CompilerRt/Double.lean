import LampUserspace.Binary.Format
import LampUserspace.Partial.Loops

/-! # Doubles as bit patterns

A double is a 64-bit word. Unpacking gives its sign, the significand with the
implicit bit and the exponent of the significand's last bit; subnormal numbers
are shifted up until the implicit bit is set.
-/

namespace LampUserspace.CompilerRt
open Binary

abbrev Dbits := BitVec 64

def dSign : Dbits := 0x8000000000000000
def dExp : Dbits := 0x7FF0000000000000
def dFrac : Dbits := 0x000FFFFFFFFFFFFF
def dImpl : Dbits := 0x0010000000000000
def dQuiet : Dbits := 0x0008000000000000
def dBias : ℤ := 1023

def binary64 : Format where
  fractionBits := 52
  minExponent := -1074
  specialField := 2047
  fractionBits_pos := by decide
  one_lt_specialField := by decide

def expField (x : Dbits) : ℕ := (x >>> 52 &&& 0x7FF).toNat

/-- `(dbits)sign << 63`. -/
def signWord (sign : Bool) : Dbits := BitVec.ofNat 64 sign.toNat <<< 63

/-- What `df_unpack` stores through its pointers, and the flag it returns. -/
structure Unpacked where
  sign : Bool
  exp : ℤ
  sig : Dbits
  zero : Bool

/-- Shift a significand up until the implicit bit `impl` is set; the second component counts the
shifts. -/
def normalize {w : ℕ} (impl m : BitVec w) : Option (BitVec w × ℕ) :=
  whileDo (fun s => s.1 &&& impl == 0) (fun s => (s.1 <<< 1, s.2 + 1)) w (m, 0)

def dfUnpack (x : Dbits) : Option Unpacked :=
  let sign := x >>> 63 != 0
  let f := expField x
  let m := x &&& dFrac
  if f = 0x7FF then some ⟨sign, 0x7FFF, m, false⟩
  else if f = 0 then
    if m = 0 then some ⟨sign, 0, 0, true⟩
    else do
      let (sig, k) ← normalize dImpl m
      return ⟨sign, -1074 - k, sig, false⟩
  else some ⟨sign, f - 1075, m ||| dImpl, false⟩

/-- The position of the highest set bit, `-1` for zero. -/
def dfMsb (v : Dbits) : Option ℤ := do
  let s ← whileDo (fun s : Dbits × ℤ => s.1 != 0) (fun s => (s.1 >>> 1, s.2 + 1)) 64 (v, -1)
  return s.2

/-! ## The fields of a double -/

section Fields

variable {x m : Dbits} {k : ℕ}

@[simp] theorem binary64_fractionBits : binary64.fractionBits = 52 := rfl
@[simp] theorem binary64_minExponent : binary64.minExponent = -1074 := rfl

theorem binary64_inf : binary64.inf = 2047 * 2 ^ 52 := rfl

theorem toNat_and_dFrac (x : Dbits) : (x &&& dFrac).toNat = x.toNat % 2 ^ 52 :=
  toNat_and_mask x rfl

theorem expField_eq (x : Dbits) : expField x = x.toNat / 2 ^ 52 % 2 ^ 11 := by
  rw [expField, toNat_and_mask (n := 11) _ rfl, toNat_shiftRight]

theorem toNat_succ {q : Dbits} (hq : q.toNat < 2 ^ 63) : (q + 1).toNat = q.toNat + 1 := by
  rw [BitVec.toNat_add]
  exact Nat.mod_eq_of_lt (by change q.toNat + 1 < 2 ^ 64; omega)

/-- The magnitude of a double is its exponent field and its fraction. -/
theorem magnitude_eq (x : Dbits) : magnitude x = expField x * 2 ^ 52 + (x &&& dFrac).toNat := by
  rw [expField_eq, toNat_and_dFrac, magnitude]
  omega

theorem expField_eq_iff (x : Dbits) : expField x = 0x7FF ↔ binary64.inf ≤ magnitude x := by
  have hmag := magnitude_eq x
  have hlow := toNat_and_dFrac x
  have hlt := magnitude_lt x
  rw [binary64_inf]
  omega

theorem frac_eq_zero_iff (hx : binary64.inf ≤ magnitude x) :
    x &&& dFrac = 0 ↔ binary64.IsInf x := by
  have hmag := magnitude_eq x
  have hlow := toNat_and_dFrac x
  have hlt := magnitude_lt x
  rw [Format.IsInf, eq_zero_iff_toNat]
  rw [binary64_inf] at hx ⊢
  omega

theorem toNat_signWord (sign : Bool) : (signWord sign).toNat = sign.toNat * 2 ^ 63 := by
  cases sign <;> rfl

theorem shiftRight_bne_zero_eq_msb (x : Dbits) : (x >>> 63 != 0) = x.msb := by
  have hx := x.isLt
  rw [bne, Bool.not_eq_eq_eq_not, BitVec.msb_eq_decide, ← decide_not, Bool.eq_iff_iff, beq_iff_eq,
    decide_eq_true_eq, eq_zero_iff_toNat, toNat_shiftRight]
  omega

theorem toNat_or_dImpl (hm : m.toNat < 2 ^ 52) : (m ||| dImpl).toNat = 2 ^ 52 + m.toNat := by
  rw [BitVec.or_comm, toNat_or_of_dvd (n := 52) ⟨1, rfl⟩ hm]
  rfl

theorem flip_sign (b : Dbits) :
    (b ^^^ dSign).msb = !b.msb ∧ magnitude (b ^^^ dSign) = magnitude b := by
  have hsign : dSign.msb = true := by decide
  have hzero : dSign.toNat % 2 ^ 63 = 0 := by decide
  constructor
  · rw [BitVec.msb_xor, hsign, Bool.xor_true]
  · rw [magnitude, BitVec.toNat_xor, Nat.xor_mod_two_pow, hzero, Nat.xor_zero, magnitude]

/-- The value of a double whose magnitude is a point of a binade. -/
theorem value_of_magnitude {j n : ℕ} (hx : magnitude x = j * 2 ^ 52 + n) (hn : n ≤ 2 ^ 53)
    (hj : j = 0 ∨ 2 ^ 52 ≤ n) : binary64.value (magnitude x) = n * (2 : ℚ) ^ (-1074 + j : ℤ) := by
  rw [hx]
  exact Format.value_binade hn hj

end Fields

/-! ## Unpacking -/

section Unpack

variable {x m v : Dbits}

theorem and_single_eq_zero_iff_lt {w n : ℕ} {d impl : BitVec w} (himpl : impl.toNat = 2 ^ n)
    (hd : d.toNat < 2 ^ (n + 1)) : d &&& impl = 0 ↔ d.toNat < 2 ^ n := by
  rw [Nat.pow_succ] at hd
  have hdiv := Nat.div_lt_of_lt_mul hd
  rw [and_single_eq_zero_iff himpl, Nat.mod_eq_of_lt hdiv,
    Nat.div_eq_zero_iff_lt (Nat.two_pow_pos n)]

theorem normalize_total {w n : ℕ} {impl m : BitVec w} (himpl : impl.toNat = 2 ^ n) (hm : m ≠ 0)
    (hlt : m.toNat < 2 ^ n) :
    Total (normalize impl m) fun s =>
      s.1.toNat = m.toNat * 2 ^ s.2 ∧ 2 ^ n ≤ s.1.toNat ∧ s.1.toNat < 2 ^ (n + 1) := by
  have hpos : 0 < m.toNat := Nat.pos_of_ne_zero fun h => hm (eq_zero_iff_toNat.mpr h)
  have hnw : n < w := (Nat.pow_lt_pow_iff_right Nat.one_lt_two).mp (himpl ▸ impl.isLt)
  have hsucc : 2 ^ (n + 1) = 2 ^ n * 2 := Nat.pow_succ ..
  unfold normalize
  apply Total.mono (whileDo_total (fun s => s.1.toNat = m.toNat * 2 ^ s.2 ∧ s.1.toNat < 2 ^ (n + 1))
    (fun s => w - s.2) ?_ ⟨by simp, by dsimp only; omega⟩ (Nat.sub_le _ _))
  · rintro ⟨d, k⟩ - ⟨⟨hd, hlt⟩, hstop⟩
    rw [beq_eq_false_iff_ne, ne_eq, and_single_eq_zero_iff_lt himpl hlt, Nat.not_lt] at hstop
    exact ⟨hd, hstop, hlt⟩
  · rintro ⟨d, k⟩ ⟨hd, hlt⟩ htest
    rw [beq_iff_eq, and_single_eq_zero_iff_lt himpl hlt] at htest
    dsimp only at hd htest ⊢
    have hk : k < n := lt_of_mul_two_pow_lt hpos (hd ▸ htest)
    have hfit : d.toNat * 2 < 2 ^ w := calc
      d.toNat * 2 < 2 ^ n * 2 := by omega
      _ = 2 ^ (n + 1) := hsucc.symm
      _ ≤ 2 ^ w := Nat.pow_le_pow_right Nat.two_pos hnw
    have hshift : (d <<< 1).toNat = d.toNat * 2 := toNat_shiftLeft_of_lt hfit
    rw [hshift, Nat.pow_succ 2 k, ← Nat.mul_assoc, ← hd]
    exact ⟨⟨rfl, by omega⟩, by omega⟩

theorem dfMsb_total (hv : v ≠ 0) :
    Total (dfMsb v) fun t => ∃ n : ℕ, t = n ∧ 2 ^ n ≤ v.toNat ∧ v.toNat < 2 ^ (n + 1) := by
  have hpos : 0 < v.toNat := Nat.pos_of_ne_zero fun h => hv (eq_zero_iff_toNat.mpr h)
  unfold dfMsb
  apply Total.bind (whileDo_total
    (fun s : Dbits × ℤ =>
      ∃ k : ℕ, s.2 = k - 1 ∧ s.1.toNat = v.toNat / 2 ^ k ∧ 2 ^ k ≤ 2 * v.toNat)
    (fun s => 64 - (s.2 + 1).toNat) ?_ ⟨0, by simp, by simp, by simp; omega⟩ (Nat.sub_le _ _))
  · rintro ⟨d, t⟩ - ⟨⟨k, ht, hd, hle⟩, hstop⟩
    dsimp only at ht hd hstop ⊢
    rw [bne_eq_false_iff_eq, eq_zero_iff_toNat, hd, Nat.div_eq_zero_iff_lt (Nat.two_pow_pos k)]
      at hstop
    obtain ⟨n, rfl⟩ : ∃ n, k = n + 1 := Nat.exists_eq_succ_of_ne_zero (by rintro rfl; omega)
    rw [Nat.pow_succ] at hle
    exact .pure ⟨n, by rw [ht]; push_cast; ring, by omega, hstop⟩
  · rintro ⟨d, t⟩ ⟨k, ht, hd, hle⟩ htest
    dsimp only at ht hd htest ⊢
    rw [bne_iff_ne, ne_eq, eq_zero_iff_toNat, hd, Nat.div_eq_zero_iff_lt (Nat.two_pow_pos k),
      Nat.not_lt] at htest
    have hk : k < 64 := lt_of_two_pow_le htest v.isLt
    refine ⟨⟨k + 1, by rw [ht]; push_cast; ring, ?_, by rw [Nat.pow_succ]; omega⟩, by omega⟩
    rw [toNat_shiftRight, hd, Nat.div_div_eq_div_mul, ← Nat.pow_add]

structure UnpacksFinite (x : Dbits) (u : Unpacked) : Prop where
  sign_eq : u.sign = x.msb
  lt_exp : -1127 < u.exp
  exp_le : u.exp ≤ 971
  zero_iff : u.zero = true ↔ magnitude x = 0
  sig_ge : u.zero = false → 2 ^ 52 ≤ u.sig.toNat
  sig_lt : u.zero = false → u.sig.toNat < 2 ^ 53
  value_eq : u.zero = false → binary64.value (magnitude x) = u.sig.toNat * (2 : ℚ) ^ u.exp
  exponent_eq : u.zero = false → -1074 ≤ u.exp → binary64.exponent (magnitude x) = u.exp

structure UnpacksSpecial (x : Dbits) (u : Unpacked) : Prop where
  sign_eq : u.sign = x.msb
  exp_eq : u.exp = 0x7FFF
  zero_eq : u.zero = false
  sig_eq_zero_iff : u.sig = 0 ↔ binary64.IsInf x

theorem unpacksFinite_subnormal {sig : Dbits} {k : ℕ} (hx : magnitude x = m.toNat) (hm : m ≠ 0)
    (hlt : m.toNat < 2 ^ 52) (hsig : sig.toNat = m.toNat * 2 ^ k) (hge : 2 ^ 52 ≤ sig.toNat)
    (hlt' : sig.toNat < 2 ^ 53) : UnpacksFinite x ⟨x.msb, -1074 - k, sig, false⟩ := by
  have hm0 : m.toNat ≠ 0 := fun h => hm (eq_zero_iff_toNat.mpr h)
  have hk0 : k ≠ 0 := by
    rintro rfl
    omega
  have hk : k < 53 := lt_of_mul_two_pow_lt (Nat.pos_of_ne_zero hm0) (hsig ▸ hlt')
  refine ⟨rfl, by dsimp only; omega, by dsimp only; omega, by simp [hx, hm0], fun _ => hge,
    fun _ => hlt', fun _ => ?_, fun _ h => absurd h (by dsimp only; omega)⟩
  have hvalue := Format.value_binade (F := binary64) (j := 0) (n := m.toNat)
    (by rw [binary64_fractionBits]; omega) (.inl rfl)
  rw [Nat.zero_mul, Nat.zero_add] at hvalue
  have hscale := two_zpow_add (-1074 - k) k
  rw [hx, hvalue, binary64_minExponent, hsig, Nat.cast_zero, add_zero]
  rw [sub_add_cancel] at hscale
  rw [hscale]
  push_cast
  ring

theorem unpacksFinite_normal {f : ℕ} (hx : magnitude x = f * 2 ^ 52 + m.toNat)
    (hlt : m.toNat < 2 ^ 52) (hf0 : f ≠ 0) (hf : f < 2047) :
    UnpacksFinite x ⟨x.msb, f - 1075, m ||| dImpl, false⟩ := by
  have hsig := toNat_or_dImpl hlt
  obtain ⟨j, rfl⟩ := Nat.exists_eq_succ_of_ne_zero hf0
  have hpat : magnitude x = j * 2 ^ binary64.fractionBits + (2 ^ 52 + m.toNat) := by
    rw [hx, binary64_fractionBits]
    omega
  have hexp : ((j + 1 : ℕ) : ℤ) - 1075 = -1074 + j := by omega
  refine ⟨rfl, by dsimp only; omega, by dsimp only; omega, ?_, fun _ => by dsimp only; omega,
    fun _ => by dsimp only; omega, fun _ => ?_, fun _ _ => ?_⟩
  · have : magnitude x ≠ 0 := by omega
    simp [this]
  · dsimp only
    rw [hpat, Format.value_binade (by rw [binary64_fractionBits]; omega) (.inr (by simp)), hsig,
      hexp, binary64_minExponent]
  · dsimp only
    rw [hexp, Format.exponent, hx, binary64_fractionBits, binary64_minExponent]
    omega

theorem dfUnpack_finite (hx : binary64.IsFinite x) : Total (dfUnpack x) (UnpacksFinite x) := by
  have hmag := magnitude_eq x
  have hfrac : (x &&& dFrac).toNat < 2 ^ 52 := by
    rw [toNat_and_dFrac]
    omega
  unfold Format.IsFinite at hx
  rw [binary64_inf] at hx
  unfold dfUnpack
  rw [shiftRight_bne_zero_eq_msb]
  dsimp only
  generalize expField x = f at hmag ⊢
  generalize x &&& dFrac = m at hmag hfrac ⊢
  rw [if_neg (by omega)]
  apply Total.ite
  · rintro rfl
    rw [Nat.zero_mul, Nat.zero_add] at hmag
    apply Total.ite
    · rintro rfl
      exact .some ⟨rfl, by norm_num, by norm_num, iff_of_true rfl hmag, nofun, nofun, nofun, nofun⟩
    · intro hm
      apply (normalize_total (n := 52) rfl hm hfrac).bind
      rintro ⟨sig, k⟩ - ⟨hsig, hge, hlt⟩
      exact .pure (unpacksFinite_subnormal hmag hm hfrac hsig hge hlt)
  · intro hf
    exact .some (unpacksFinite_normal hmag hfrac hf (by omega))

theorem dfUnpack_special (hx : ¬ binary64.IsFinite x) :
    Total (dfUnpack x) (UnpacksSpecial x) := by
  have hinf : binary64.inf ≤ magnitude x := not_lt.mp hx
  unfold dfUnpack
  rw [shiftRight_bne_zero_eq_msb]
  dsimp only
  rw [if_pos ((expField_eq_iff x).mpr hinf)]
  exact .some ⟨rfl, rfl, rfl, frac_eq_zero_iff hinf⟩

/-- What unpacking gives for every word, as far as special operands are concerned. -/
structure Unpacks (x : Dbits) (u : Unpacked) : Prop where
  sign_eq : u.sign = x.msb
  exp_eq_iff : u.exp = 0x7FFF ↔ ¬ binary64.IsFinite x
  sig_eq_zero_iff : ¬ binary64.IsFinite x → (u.sig = 0 ↔ binary64.IsInf x)
  zero_iff : u.zero = true ↔ magnitude x = 0

theorem dfUnpack_total (x : Dbits) : Total (dfUnpack x) (Unpacks x) := by
  by_cases hx : binary64.IsFinite x
  · apply (dfUnpack_finite hx).mono
    rintro u - hu
    have hexp := hu.exp_le
    exact ⟨hu.sign_eq, iff_of_false (by omega) (not_not.mpr hx), fun h => absurd hx h, hu.zero_iff⟩
  · apply (dfUnpack_special hx).mono
    rintro u - hu
    have hne : magnitude x ≠ 0 := fun h => hx (by rw [Format.IsFinite, h]; decide)
    refine ⟨hu.sign_eq, iff_of_true hu.exp_eq hx, fun _ => hu.sig_eq_zero_iff, ?_⟩
    rw [hu.zero_eq]
    exact iff_of_false Bool.false_ne_true hne

end Unpack

end LampUserspace.CompilerRt
