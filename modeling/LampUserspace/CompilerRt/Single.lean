import LampUserspace.CompilerRt.Pack

/-! # Doubles and singles

Every single is widened exactly. Narrowing rounds; its sticky flag is taken with
a mask that covers the guard bit, so that in the normal range a number halfway
between two singles is always rounded up.
-/

namespace LampUserspace.CompilerRt
open Binary

abbrev F32bits := BitVec 32

def binary32 : Format where
  fractionBits := 23
  minExponent := -149
  specialField := 255
  fractionBits_pos := by decide
  one_lt_specialField := by decide

/-! ## The conversions -/

def extendsfdf2 (a : F32bits) : Option Dbits :=
  let sign := a &&& 0x80000000#32
  let exp := a >>> 23 &&& 0xFF#32
  let frac := a &&& 0x007FFFFF#32
  let rSign := sign.setWidth 64 <<< 32
  if exp = 0xFF#32 then
    if frac = 0 then some (rSign ||| dExp)
    else some (rSign ||| dExp ||| frac.setWidth 64 <<< 29 ||| dQuiet)
  else if exp = 0 ∧ frac = 0 then some rSign
  else if exp = 0 then do
    let (frac, shift) ← normalize 0x00800000#32 frac
    let frac := frac &&& 0x007FFFFF#32
    let dexp : ℤ := -126 - shift + 1023
    return rSign ||| BitVec.ofInt 64 dexp <<< 52 ||| frac.setWidth 64 <<< 29
  else
    let dexp := exp + (1023#32 - 127#32)
    some (rSign ||| dexp.setWidth 64 <<< 52 ||| frac.setWidth 64 <<< 29)

/-- The significand with its implicit bit and the exponent of that bit. -/
def truncUnpack (e : ℕ) (m : Dbits) : Option (Dbits × ℤ) :=
  if e = 0 then do
    let (q53, k) ← normalize dImpl m
    return (q53, 1 - dBias - k)
  else some (m ||| dImpl, e - dBias)

/-- One more bit shifted out of a subnormal result: significand, guard bit and sticky flag. -/
def truncShift (s : Dbits × Bool × Bool) : Dbits × Bool × Bool :=
  (s.1 >>> 1, s.1 &&& 1 != 0, s.2.2 || s.2.1)

/-- The end of `__truncdfsf2`: encode the rounded significand. -/
def truncEncode (sign : F32bits) (fe : ℤ) (q24 : Dbits) (subnormalOut : Bool) : F32bits :=
  if fe > 127 then sign ||| 0x7F800000#32
  else if subnormalOut then
    if q24 = 0 then sign
    else sign ||| q24.setWidth 32
  else if q24 = 0 then sign
  else sign ||| BitVec.ofInt 32 (fe + 127) <<< 23 ||| (q24 &&& 0x007FFFFF#64).setWidth 32

/-- Round to nearest, ties to even, by the guard bit and the flag. -/
def truncRound (sign : F32bits) (fe : ℤ) (q24 : Dbits) (g s subnormalOut : Bool) : F32bits :=
  if g && (s || q24 &&& 1 != 0) then
    let q24 := q24 + 1
    if q24 = 1#64 <<< 24 then
      let q24 := q24 >>> 1
      if subnormalOut then truncEncode sign (-126) q24 false
      else truncEncode sign (fe + 1) q24 false
    else truncEncode sign fe q24 subnormalOut
  else truncEncode sign fe q24 subnormalOut

def truncdfsf2 (a : Dbits) : Option F32bits :=
  let sign := (a >>> 32).setWidth 32 &&& 0x80000000#32
  let e := expField a
  let m := a &&& dFrac
  if e = 0x7FF then
    if m = 0 then some (sign ||| 0x7F800000#32)
    else
      let keep := ((m ||| a >>> 32) >>> 21 &&& 0x003FFFFF#64).setWidth 32
      some (sign ||| 0x7FC00000#32 ||| if keep ≠ 0 then keep else 0x400000#32)
  else if e = 0 ∧ m = 0 then some sign
  else do
    let (q53, re) ← truncUnpack e m
    let t ← dfMsb q53
    let sh := (t - 23).toNat
    let mask := if sh ≥ 64 then ~~~0 else lowMask sh
    let g := q53 >>> (sh - 1) &&& 1 != 0
    let s := q53 &&& mask != 0
    let q24 := q53 >>> sh
    let fe := re + sh - 29
    if fe < -126 then
      let (q24, g, s) := truncShift^[(-126 - fe).toNat] (q24, g, s)
      return truncRound sign (-126) q24 g s true
    else return truncRound sign fe q24 g s false

/-! ## Encoding singles -/

@[simp] theorem binary32_fractionBits : binary32.fractionBits = 23 := rfl

theorem binary32_inf : binary32.inf = 255 * 2 ^ 23 := rfl

section Encode

variable {sign x : F32bits} {neg g s : Bool} {q : Dbits} {fe : ℤ} {f j k : ℕ}

theorem rounds32_of_toNat {v : ℚ} (hx : x.toNat = neg.toNat * 2 ^ 31 + k)
    (hk : binary32.NearestEven v k) : binary32.Rounds neg v x :=
  .of_toNat (by decide) (by decide) hx hk

theorem truncEncode_toNat {subnormalOut : Bool} (hsign : sign.toNat = neg.toNat * 2 ^ 31)
    (he : fe = -126 + j) (hq : q.toNat < 2 ^ 24)
    (hsub : subnormalOut = true → j = 0 ∧ q.toNat ≤ 2 ^ 23)
    (hnorm : subnormalOut = false → 2 ^ 23 ≤ q.toNat) :
    (truncEncode sign fe q subnormalOut).toNat =
      neg.toNat * 2 ^ 31 + min binary32.inf (j * 2 ^ 23 + q.toNat) := by
  have hlow : (q.setWidth 32).toNat = q.toNat := by
    rw [BitVec.toNat_setWidth, Nat.mod_eq_of_lt (by omega)]
  rw [binary32_inf]
  unfold truncEncode
  split
  · have hge := hnorm (Bool.eq_false_iff.mpr fun h => by have := (hsub h).1; omega)
    have hinf : (0x7F800000#32).toNat = 255 * 2 ^ 23 := rfl
    rw [toNat_or_of_mul hsign (by omega), hinf, min_eq_left (by omega)]
  · rw [min_eq_right (by omega)]
    cases subnormalOut with
    | true =>
      obtain ⟨rfl, hle⟩ := hsub rfl
      rw [Nat.zero_mul, Nat.zero_add, if_pos rfl]
      split
      case isTrue hq0 => rw [hsign, eq_zero_iff_toNat.mp hq0, Nat.add_zero]
      case isFalse => rw [toNat_or_of_mul hsign (by omega), hlow]
    | false =>
      have hge := hnorm rfl
      have hne : q ≠ 0 := fun h => by rw [eq_zero_iff_toNat] at h; omega
      have hfield : (BitVec.ofInt 32 (fe + 127) <<< 23).toNat = (j + 1) * 2 ^ 23 := by
        rw [show fe + 127 = (j + 1 : ℕ) by omega, BitVec.ofInt_natCast, toNat_shiftLeft_of_lt,
          BitVec.toNat_ofNat, Nat.mod_eq_of_lt (by omega)]
        rw [BitVec.toNat_ofNat, Nat.mod_eq_of_lt (by omega)]
        omega
      have hfrac : ((q &&& 0x007FFFFF#64).setWidth 32).toNat = q.toNat - 2 ^ 23 := by
        rw [BitVec.toNat_setWidth, toNat_and_mask (n := 23) q rfl]
        omega
      have hfields : (BitVec.ofInt 32 (fe + 127) <<< 23 |||
          (q &&& 0x007FFFFF#64).setWidth 32).toNat = (j + 1) * 2 ^ 23 + (q.toNat - 2 ^ 23) := by
        rw [toNat_or_of_mul hfield (by omega), hfrac]
      rw [if_neg Bool.false_ne_true, if_neg hne, BitVec.or_assoc, toNat_or_of_mul hsign (by omega),
        hfields]
      omega

theorem truncRound_toNat {subnormalOut : Bool} (hsign : sign.toNat = neg.toNat * 2 ^ 31)
    (he : fe = -126 + j) (hq : q.toNat < 2 ^ 24)
    (hsub : subnormalOut = true → j = 0 ∧ q.toNat < 2 ^ 23)
    (hnorm : subnormalOut = false → 2 ^ 23 ≤ q.toNat) :
    (truncRound sign fe q g s subnormalOut).toNat =
      neg.toNat * 2 ^ 31 + min binary32.inf (j * 2 ^ 23 + roundPoint q.toNat g s) := by
  have hsucc : (q + 1).toNat = q.toNat + 1 := toNat_succ (by omega)
  unfold truncRound roundPoint
  rw [and_one_bne_zero q (by decide)]
  dsimp only
  split
  · split
    case isTrue hcarry =>
      -- a subnormal result has too few bits to carry here
      have hq' : q.toNat + 1 = 2 ^ 24 := hsucc ▸ congrArg BitVec.toNat hcarry
      have hhalf : ((q + 1) >>> 1).toNat = 2 ^ 23 := by
        rw [toNat_shiftRight, hsucc, hq', Nat.pow_div (by omega) Nat.two_pos]
      have hnot : ¬ subnormalOut = true := fun h => by
        have := (hsub h).2
        omega
      have hpat : (j + 1) * 2 ^ 23 + 2 ^ 23 = j * 2 ^ 23 + (q.toNat + 1) := by omega
      rw [if_neg hnot, truncEncode_toNat (j := j + 1) hsign (by omega) (by omega)
        (fun h => absurd h Bool.false_ne_true) (fun _ => hhalf.ge), hhalf, hpat]
    case isFalse hcarry =>
      have hq' : q.toNat + 1 ≠ 2 ^ 24 := fun h => hcarry (BitVec.eq_of_toNat_eq (hsucc.trans h))
      rw [truncEncode_toNat hsign he (by omega)
        (fun h => ⟨(hsub h).1, by have := (hsub h).2; omega⟩)
        (fun h => by have := hnorm h; omega), hsucc]
  · exact truncEncode_toNat hsign he hq (fun h => ⟨(hsub h).1, (hsub h).2.le⟩) hnorm

end Encode

/-! ## Narrowing -/

section Narrowing

variable {a : Dbits} {v : ℚ} {f : ℤ} {t : Dbits × Bool × Bool}

theorem truncShift_framed (h : Framed v f (2 * t.1.toNat + t.2.1.toNat) t.2.2) :
    Framed v (f + 1) (2 * (truncShift t).1.toNat + (truncShift t).2.1.toNat)
      (truncShift t).2.2 := by
  have hnext := (Framed.drop_guard (e := f + 1) (by rwa [add_sub_cancel_right])).split_guard
  have hhalf : (t.1 >>> 1).toNat = t.1.toNat / 2 := toNat_shiftRight t.1 1
  have hbit : (t.1 &&& 1 != 0) = decide (t.1.toNat % 2 = 1) := and_one_bne_zero t.1 (by decide)
  unfold truncShift
  rw [hhalf, hbit]
  exact hnext

theorem truncShift_iterate_framed (h : Framed v f (2 * t.1.toNat + t.2.1.toNat) t.2.2) (i : ℕ) :
    Framed v (f + i) (2 * (truncShift^[i] t).1.toNat + (truncShift^[i] t).2.1.toNat)
      (truncShift^[i] t).2.2 := by
  induction i with
  | zero => rwa [Nat.cast_zero, add_zero]
  | succ i ih =>
    rw [Function.iterate_succ_apply', Nat.cast_succ, ← add_assoc]
    exact truncShift_framed ih

theorem truncShift_iterate_toNat (t : Dbits × Bool × Bool) (i : ℕ) :
    (truncShift^[i] t).1.toNat = t.1.toNat / 2 ^ i := by
  induction i with
  | zero => rw [Nat.pow_zero, Nat.div_one]; rfl
  | succ i ih =>
    rw [Function.iterate_succ_apply', Nat.pow_succ, ← Nat.div_div_eq_div_mul, ← ih]
    exact toNat_shiftRight _ 1

/-- One shift folds the guard bit into the flag, so it may stand there before. -/
theorem truncShift_iterate_guard (q : Dbits) (g s : Bool) {i : ℕ} (hi : 0 < i) :
    truncShift^[i] (q, g, s || g) = truncShift^[i] (q, g, s) := by
  obtain ⟨i, rfl⟩ := Nat.exists_eq_succ_of_ne_zero hi.ne'
  have hstep : truncShift (q, g, s || g) = truncShift (q, g, s) := by
    unfold truncShift
    rw [Bool.or_assoc, Bool.or_self]
  rw [Function.iterate_succ_apply, Function.iterate_succ_apply, hstep]

/-- The significand that narrowing starts from. -/
structure TruncUnpacks (a q : Dbits) (re : ℤ) : Prop where
  ge : 2 ^ 52 ≤ q.toNat
  lt : q.toNat < 2 ^ 53
  value_eq : binary64.value (magnitude a) = q.toNat * (2 : ℚ) ^ (re - 52)
  normal : expField a ≠ 0 → re = expField a - 1023 ∧ q.toNat = 2 ^ 52 + a.toNat % 2 ^ 52
  subnormal : expField a = 0 → re < -1022

theorem truncUnpack_total (ha : binary64.IsFinite a) (hne : magnitude a ≠ 0) :
    Total (truncUnpack (expField a) (a &&& dFrac)) fun p => TruncUnpacks a p.1 p.2 := by
  have hmag := magnitude_eq a
  have hfrac := toNat_and_dFrac a
  have hlt : (a &&& dFrac).toNat < 2 ^ 52 := by omega
  unfold Format.IsFinite at ha
  rw [binary64_inf] at ha
  unfold truncUnpack
  apply Total.ite
  · intro hzero
    rw [hzero, Nat.zero_mul, Nat.zero_add] at hmag
    have hm : a &&& dFrac ≠ 0 := fun h => hne (hmag.trans (eq_zero_iff_toNat.mp h))
    apply (normalize_total (n := 52) rfl hm hlt).bind
    rintro ⟨q, k⟩ - ⟨hq, hge, hlt'⟩
    dsimp only at hq hge hlt'
    have hu := unpacksFinite_subnormal hmag hm hlt hq hge hlt'
    have hexp : (1 - dBias - k - 52 : ℤ) = -1074 - k := by
      unfold dBias
      omega
    refine .pure ⟨hge, hlt', ?_, fun h => absurd hzero h, fun _ => ?_⟩
    · rw [hexp]
      exact hu.value_eq rfl
    · have hk : k ≠ 0 := by
        rintro rfl
        omega
      unfold dBias
      omega
  · intro hfield
    have hu := unpacksFinite_normal hmag hlt hfield (by omega)
    have hexp : (expField a - dBias - 52 : ℤ) = expField a - 1075 := by
      unfold dBias
      omega
    refine .some ⟨hu.sig_ge rfl, hu.sig_lt rfl, ?_, fun _ => ⟨rfl, ?_⟩, fun h => absurd h hfield⟩
    · rw [hexp]
      exact hu.value_eq rfl
    · rw [← hfrac]
      exact toNat_or_dImpl hlt

theorem toNat_sign (a : Dbits) :
    ((a >>> 32).setWidth 32 &&& 0x80000000#32).toNat = a.msb.toNat * 2 ^ 31 := by
  have hself := toNat_eq_sign_add_magnitude a (show 0 < 64 by decide)
  have hlt := magnitude_lt a
  rw [toNat_and_field (n := 1) (k := 31) _ rfl, BitVec.toNat_setWidth, toNat_shiftRight]
  omega

/-- The run of `__truncdfsf2` on a nonzero finite number, after its significand. -/
theorem truncdfsf2_run {q : Dbits} {re : ℤ} (ha : binary64.IsFinite a) (hne : magnitude a ≠ 0)
    (hunpack : truncUnpack (expField a) (a &&& dFrac) = some (q, re)) (hge : 2 ^ 52 ≤ q.toNat)
    (hlt : q.toNat < 2 ^ 53) :
    truncdfsf2 a =
      let sign := (a >>> 32).setWidth 32 &&& 0x80000000#32
      let g := q >>> 28 &&& 1 != 0
      let s := q &&& lowMask 29 != 0
      some (if re < -126 then
          let t := truncShift^[(-126 - re).toNat] (q >>> 29, g, s)
          truncRound sign (-126) t.1 t.2.1 t.2.2 true
        else truncRound sign re (q >>> 29) g s false) := by
  have hmag := magnitude_eq a
  have hfield := mt (expField_eq_iff a).mp (not_le.mpr ha)
  have hnot : ¬ (expField a = 0 ∧ a &&& dFrac = 0) := by
    rintro ⟨he, hm⟩
    rw [eq_zero_iff_toNat] at hm
    omega
  obtain ⟨t, hmsb, n, rfl, hn, hn'⟩ := dfMsb_total (v := q) (fun h => by
    rw [eq_zero_iff_toNat] at h
    omega)
  obtain rfl : n = 52 := by
    have h53 := lt_of_two_pow_le hn hlt
    have h52 := lt_of_two_pow_le hge hn'
    omega
  have hsh : (((52 : ℕ) : ℤ) - 23).toNat = 29 := rfl
  have hre : re + (29 : ℕ) - 29 = re := by omega
  have hmask : (if 29 ≥ 64 then ~~~0 else lowMask 29) = lowMask 29 := if_neg (by decide)
  unfold truncdfsf2
  dsimp only
  rw [if_neg hfield, if_neg hnot, hunpack]
  simp only [hmsb, Option.bind_eq_bind, Option.bind_some]
  rw [hsh, hre, hmask]
  split
  · rfl
  · rfl

/-- Narrowing a nonzero finite number: its significand with the guard bit and a flag that also
covers the guard bit. -/
theorem truncdfsf2_eq (ha : binary64.IsFinite a) (hne : magnitude a ≠ 0) :
    ∃ (sign : F32bits) (q : Dbits) (g s : Bool) (re : ℤ),
      sign.toNat = a.msb.toNat * 2 ^ 31 ∧
      2 ^ 23 ≤ q.toNat ∧ q.toNat < 2 ^ 24 ∧
      Framed (binary64.value (magnitude a)) (re - 24) (2 * q.toNat + g.toNat) s ∧
      (expField a ≠ 0 → re = expField a - 1023 ∧
        (g = true ∧ s = false ∧ q.toNat % 2 = 0 ↔ a.toNat % 2 ^ 30 = 2 ^ 28)) ∧
      (expField a = 0 → re < -1022) ∧
      truncdfsf2 a = some (if re < -126 then
          let t := truncShift^[(-126 - re).toNat] (q, g, s || g)
          truncRound sign (-126) t.1 t.2.1 t.2.2 true
        else truncRound sign re q g (s || g) false) := by
  obtain ⟨⟨q, re⟩, hunpack, hq⟩ := truncUnpack_total ha hne
  have hge := hq.ge
  have hlt := hq.lt
  dsimp only at hge hlt
  have hhigh : (q >>> 29).toNat = q.toNat / 2 ^ 29 := toNat_shiftRight q 29
  refine ⟨(a >>> 32).setWidth 32 &&& 0x80000000#32, q >>> 29, decide (q.toNat / 2 ^ 28 % 2 = 1),
    decide (q.toNat % 2 ^ 28 ≠ 0), re, toNat_sign a, by omega, by omega, ?_, ?_,
    hq.subnormal, ?_⟩
  · have hframe := ((Framed.exact q.toNat (re - 52)).shift 28).split_guard
    rw [← hq.value_eq, Bool.false_or, show re - 52 + (28 : ℕ) = re - 24 by omega] at hframe
    rwa [hhigh, show q.toNat / 2 ^ 29 = q.toNat / 2 ^ 28 / 2 by omega]
  · intro he
    obtain ⟨hre, hfrac⟩ := hq.normal he
    dsimp only at hre hfrac
    refine ⟨hre, ?_⟩
    rw [decide_eq_true_eq, decide_eq_false_iff_not, hhigh]
    omega
  · have hsticky : (q &&& lowMask 29 != 0) =
        (decide (q.toNat % 2 ^ 28 ≠ 0) || decide (q.toNat / 2 ^ 28 % 2 = 1)) := by
      rw [and_lowMask_bne_zero q (by decide), ← Bool.decide_or, decide_eq_decide]
      omega
    have hguard := shiftRight_and_one_bne_zero q 28 (by decide)
    rw [truncdfsf2_run ha hne hunpack hge hlt, hsticky, hguard]

/-- In the subnormal range the first shift folds the guard bit into the flag. -/
theorem truncRound_subnormal {sign : F32bits} {neg g s : Bool} {q : Dbits} {re : ℤ}
    (hsign : sign.toNat = neg.toNat * 2 ^ 31) (hlt : q.toNat < 2 ^ 24)
    (hframe : Framed v (re - 24) (2 * q.toNat + g.toNat) s) (hre : re < -126)
    (ht : t = truncShift^[(-126 - re).toNat] (q, g, s || g)) :
    binary32.Rounds neg v (truncRound sign (-126) t.1 t.2.1 t.2.2 true) := by
  obtain ⟨k, hk⟩ : ∃ k : ℕ, (-126 - re).toNat = k + 1 := ⟨(-126 - re).toNat - 1, by omega⟩
  rw [hk, truncShift_iterate_guard q g s (Nat.succ_pos k)] at ht
  have hshift := truncShift_iterate_framed (t := (q, g, s)) hframe (k + 1)
  have hsmall := truncShift_iterate_toNat (q, g, s) (k + 1)
  rw [← ht] at hshift hsmall
  have htop : t.1.toNat < 2 ^ 23 := by
    have := Nat.div_le_self (q.toNat / 2) (2 ^ k)
    rw [hsmall, Nat.pow_succ', ← Nat.div_div_eq_div_mul]
    dsimp only
    omega
  rw [show re - 24 + (k + 1 : ℕ) = -149 + (0 : ℕ) - 1 by omega] at hshift
  have hround : (truncRound sign (-126) t.1 t.2.1 t.2.2 true).toNat = _ :=
    truncRound_toNat (j := 0) hsign (by omega) (by omega) (fun _ => ⟨rfl, htop⟩)
      (fun h => absurd h.symm Bool.false_ne_true)
  exact rounds32_of_toNat hround
    (Format.nearestEven_of_framed hshift (by rw [binary32_fractionBits]; omega) (.inl rfl))

/-- In the normal range the flag matters for halfway numbers with an even significand. -/
theorem truncRound_normal {sign : F32bits} {neg g s : Bool} {q : Dbits} {re : ℤ}
    (hsign : sign.toNat = neg.toNat * 2 ^ 31) (hge : 2 ^ 23 ≤ q.toNat) (hlt : q.toNat < 2 ^ 24)
    (hframe : Framed v (re - 24) (2 * q.toNat + g.toNat) s) (hre : -126 ≤ re) :
    binary32.Rounds neg v (truncRound sign re q g (s || g) false) ↔
      ¬ ((g = true ∧ s = false ∧ q.toNat % 2 = 0) ∧ re ≤ 127) := by
  obtain ⟨j, rfl⟩ : ∃ j : ℕ, re = -126 + j := ⟨(re + 126).toNat, by omega⟩
  have hinf := binary32_inf
  have hround : (truncRound sign (-126 + j) q g (s || g) false).toNat = _ :=
    truncRound_toNat (j := j) hsign rfl hlt (fun h => absurd h Bool.false_ne_true) (fun _ => hge)
  obtain ⟨hmsb, hmag⟩ := sign_magnitude_of_toNat (show 0 < 32 by decide) hround (by omega)
  rw [show (-126 + j - 24 : ℤ) = -149 + j - 1 by omega] at hframe
  have hnear := Format.nearestEven_of_framed (F := binary32) hframe
    (by rw [binary32_fractionBits]; omega) (.inr (by rw [binary32_fractionBits]; omega))
  have hiff : binary32.Rounds neg v (truncRound sign (-126 + j) q g (s || g) false) ↔
      min binary32.inf (j * 2 ^ 23 + roundPoint q.toNat g (s || g)) =
        min binary32.inf (j * 2 ^ 23 + roundPoint q.toNat g s) := by
    constructor
    · intro h
      exact (hmag ▸ h.nearestEven).unique hnear
    · intro h
      exact ⟨hmsb, hmag.symm ▸ h.symm ▸ hnear⟩
  have hle := roundPoint_le q.toNat g (s || g)
  have hle' := roundPoint_le q.toNat g s
  have hge' := le_roundPoint q.toNat g (s || g)
  have hge'' := le_roundPoint q.toNat g s
  rw [hiff, hinf]
  rcases Nat.lt_or_ge 253 j with hj | hj
  · rw [min_eq_left (by omega), min_eq_left (by omega)]
    exact iff_of_true rfl fun h => by have := h.2; omega
  · by_cases htie : g = true ∧ s = false ∧ q.toNat % 2 = 0
    · obtain ⟨rfl, rfl, heven⟩ := htie
      have hup : roundPoint q.toNat true (false || true) = q.toNat + 1 := rfl
      have hstay : roundPoint q.toNat true false = q.toNat := by simp [roundPoint, heven]
      rw [hup, hstay, min_eq_right (by omega), min_eq_right (by omega)]
      exact iff_of_false (by omega) fun h => h ⟨⟨rfl, rfl, heven⟩, by omega⟩
    · have hsame : roundPoint q.toNat g (s || g) = roundPoint q.toNat g s := by
        rcases Nat.mod_two_eq_zero_or_one q.toNat with hq | hq <;> cases g <;> cases s <;>
          simp_all [roundPoint]
      rw [hsame]
      exact iff_of_true rfl fun h => htie h.1

/-- Narrowing returns, and what it returns is the rounding of the value except in the halfway
cases of the normal range with an even significand. -/
theorem truncdfsf2_total (ha : binary64.IsFinite a) :
    Total (truncdfsf2 a) fun r => binary32.Rounds a.msb |binary64.signedValue a| r ↔
      ¬ (897 ≤ expField a ∧ expField a ≤ 1150 ∧ a.toNat % 2 ^ 30 = 2 ^ 28) := by
  rw [Format.abs_signedValue]
  by_cases hne : magnitude a = 0
  · have hmag := magnitude_eq a
    have hfield : expField a = 0 := by omega
    have hfrac : a &&& dFrac = 0 := by
      rw [eq_zero_iff_toNat]
      omega
    have hrun : truncdfsf2 a = some ((a >>> 32).setWidth 32 &&& 0x80000000#32) := by
      unfold truncdfsf2
      dsimp only
      rw [hfield, if_neg (by decide), if_pos ⟨rfl, hfrac⟩]
    rw [hne, Format.value_zero]
    apply Total.intro hrun
    apply iff_of_true
    · exact rounds32_of_toNat ((toNat_sign a).trans (Nat.add_zero _).symm)
        (Format.NearestEven.zero_iff.mpr rfl)
    · omega
  · obtain ⟨sign, q, g, s, re, hsign, hge, hlt, hframe, hnormal, hsub, hrun⟩ := truncdfsf2_eq ha hne
    apply Total.intro hrun
    by_cases hre : re < -126
    · rw [if_pos hre]
      apply iff_of_true
      · exact truncRound_subnormal hsign hlt hframe hre rfl
      · rintro ⟨hlow, -, -⟩
        have := (hnormal (by omega)).1
        omega
    · have hfield : expField a ≠ 0 := fun h => by
        have := hsub h
        omega
      obtain ⟨hre', htie⟩ := hnormal hfield
      rw [if_neg hre, truncRound_normal hsign hge hlt hframe (by omega), htie]
      omega

/-- Narrowing is the rounding of the value exactly when the guard bit in the flag does not
matter: outside the halfway cases of the normal range with an even significand. -/
theorem truncdfsf2_rounds_iff (a : Dbits) (ha : binary64.IsFinite a) :
    Total (truncdfsf2 a) (binary32.Rounds a.msb |binary64.signedValue a|) ↔
      ¬ (897 ≤ expField a ∧ expField a ≤ 1150 ∧ a.toNat % 2 ^ 30 = 2 ^ 28) := by
  obtain ⟨r, hr, hrounds⟩ := truncdfsf2_total ha
  rwa [Total.iff_of_eq hr]

/-- The number one is narrowed exactly. -/
theorem truncdfsf2_rounds_one :
    Total (truncdfsf2 0x3FF0000000000000#64)
      (binary32.Rounds false |binary64.signedValue 0x3FF0000000000000#64|) :=
  (truncdfsf2_rounds_iff 0x3FF0000000000000#64 (by decide)).mpr (by decide)

/-- `1 + 2 ^ (-24)` lies halfway between the singles `1` and `1 + 2 ^ (-23)`, and the first of
them is even, but narrowing gives the second. -/
theorem halfway_narrowed_up :
    binary64.IsFinite 0x3FF0000010000000#64 ∧
      ¬ Total (truncdfsf2 0x3FF0000010000000#64)
        (binary32.Rounds false |binary64.signedValue 0x3FF0000010000000#64|) := by
  have hrun : truncdfsf2 0x3FF0000010000000#64 = some 0x3F800001#32 := by decide
  have hmag : magnitude 0x3FF0000010000000#64 = 0x3FF0000010000000 := by decide
  have hmag' : magnitude 0x3F800001#32 = 0x3F800001 := by decide
  have hvalue : binary64.value 0x3FF0000010000000 = 1 + 1 / 2 ^ 24 := by
    norm_num [Format.value, Format.significand, Format.exponent, binary64]
  have hone : binary32.value 0x3F800000 = 1 := by
    norm_num [Format.value, Format.significand, Format.exponent, binary32]
  have hnext : binary32.value 0x3F800001 = 1 + 1 / 2 ^ 23 := by
    norm_num [Format.value, Format.significand, Format.exponent, binary32]
  refine ⟨by decide, ?_⟩
  rw [Total.iff_of_eq hrun, Format.abs_signedValue, hmag, hvalue]
  intro hrounds
  have hnear := hrounds.nearestEven
  rw [hmag'] at hnear
  have heven := hnear.even (by decide) 0x3F800000 (by decide) (by decide)
    (by rw [hone, hnext]; norm_num)
  exact absurd heven (by decide)

end Narrowing

/-! ## Widening -/

section Widening

variable {x : F32bits} {r : Dbits}

structure Widens (x : F32bits) (r : Dbits) : Prop where
  msb_eq : r.msb = x.msb
  isFinite : binary64.IsFinite r
  value_eq : binary64.value (magnitude r) = binary32.value (magnitude x)
  low_bits : r.toNat % 2 ^ 29 = 0

theorem toNat_signBit (x : F32bits) :
    ((x &&& 0x80000000#32).setWidth 64 <<< 32).toNat = x.msb.toNat * 2 ^ 63 := by
  have hself := toNat_eq_sign_add_magnitude x (show 0 < 32 by decide)
  have hlt := magnitude_lt x
  have hbit := toNat_and_field (n := 1) (k := 31) x (m := 0x80000000#32) rfl
  rw [toNat_shiftLeft, BitVec.toNat_setWidth, hbit]
  omega

theorem toNat_widened {sign d : Dbits} {f : F32bits} {neg : Bool} {j n : ℕ}
    (hsign : sign.toNat = neg.toNat * 2 ^ 63) (hd : d.toNat = j + 1) (hj : j < 2046)
    (hf : f.toNat + 2 ^ 23 = n) (hn : n < 2 ^ 24) :
    (sign ||| d <<< 52 ||| f.setWidth 64 <<< 29).toNat =
      neg.toNat * 2 ^ 63 + (j * 2 ^ 52 + n * 2 ^ 29) := by
  have hfield : (d <<< 52).toNat = (j + 1) * 2 ^ 52 := by
    rw [toNat_shiftLeft, hd]
    omega
  have hfrac : (f.setWidth 64 <<< 29).toNat = f.toNat * 2 ^ 29 := by
    rw [toNat_shiftLeft, BitVec.toNat_setWidth]
    omega
  have hlow : (d <<< 52 ||| f.setWidth 64 <<< 29).toNat = (j + 1) * 2 ^ 52 + f.toNat * 2 ^ 29 := by
    rw [toNat_or_of_mul hfield (by omega), hfrac]
  rw [BitVec.or_assoc, toNat_or_of_mul hsign (by omega), hlow]
  omega

/-- A point of a binade of singles is a point of a binade of doubles. -/
theorem widens_of_toNat {j n : ℕ} (hr : r.toNat = x.msb.toNat * 2 ^ 63 + (j * 2 ^ 52 + n * 2 ^ 29))
    (hj : j < 2045) (hge : 2 ^ 23 ≤ n) (hlt : n < 2 ^ 24)
    (hvalue : binary32.value (magnitude x) = n * (2 : ℚ) ^ (j - 1045 : ℤ)) : Widens x r := by
  obtain ⟨hmsb, hmag⟩ := sign_magnitude_of_toNat (show 0 < 64 by decide) hr (by omega)
  refine ⟨hmsb, ?_, ?_, by omega⟩
  · rw [Format.IsFinite, hmag, binary64_inf]
    omega
  · rw [value_of_magnitude hmag (by omega) (.inr (by omega)), hvalue,
      show (-1074 + j : ℤ) = j - 1045 - (29 : ℕ) by omega, Nat.cast_mul, Nat.cast_pow, Nat.cast_two,
      mul_assoc, ← two_zpow_add, sub_add_cancel]

/-- The magnitude of a single is its exponent field and its fraction. -/
theorem magnitude32_eq (x : F32bits) :
    magnitude x = (x >>> 23 &&& 0xFF#32).toNat * 2 ^ 23 + (x &&& 0x007FFFFF#32).toNat := by
  rw [toNat_and_mask (n := 8) _ rfl, toNat_and_mask (n := 23) x rfl, toNat_shiftRight, magnitude]
  omega

theorem field32_eq_iff (x : F32bits) :
    x >>> 23 &&& 0xFF#32 = 0xFF#32 ↔ binary32.inf ≤ magnitude x := by
  have hmag := magnitude32_eq x
  have hfield := toNat_and_mask (n := 8) (x >>> 23) (m := 0xFF#32) rfl
  have hlow := toNat_and_mask (n := 23) x (m := 0x007FFFFF#32) rfl
  have hones : (0xFF#32).toNat = 255 := rfl
  rw [binary32_inf, ← BitVec.toNat_inj]
  omega

theorem frac32_eq_zero_iff (hx : binary32.inf ≤ magnitude x) :
    x &&& 0x007FFFFF#32 = 0 ↔ binary32.IsInf x := by
  have hmag := magnitude32_eq x
  have hlt := magnitude_lt x
  have hlow := toNat_and_mask (n := 23) x (m := 0x007FFFFF#32) rfl
  rw [Format.IsInf, eq_zero_iff_toNat]
  rw [binary32_inf] at hx ⊢
  omega

theorem value32_of_magnitude {j n : ℕ} (hx : magnitude x = j * 2 ^ 23 + n) (hn : n ≤ 2 ^ 24)
    (hj : j = 0 ∨ 2 ^ 23 ≤ n) : binary32.value (magnitude x) = n * (2 : ℚ) ^ (-149 + j : ℤ) := by
  rw [hx]
  exact Format.value_binade hn hj

/-- The highest bit of a subnormal single becomes the implicit bit. -/
theorem widens_subnormal {sign : Dbits} {f q : F32bits} {k : ℕ} (hx : magnitude x = f.toNat)
    (hf : f ≠ 0) (hlow : f.toNat < 2 ^ 23) (hsign : sign.toNat = x.msb.toNat * 2 ^ 63)
    (hq : q.toNat = f.toNat * 2 ^ k)
    (hge : 2 ^ 23 ≤ q.toNat) (hlt : q.toNat < 2 ^ 24) :
    Widens x (sign ||| BitVec.ofInt 64 (-126 - k + 1023) <<< 52 |||
      (q &&& 0x007FFFFF#32).setWidth 64 <<< 29) := by
  have hpos : 0 < f.toNat := Nat.pos_of_ne_zero fun h => hf (eq_zero_iff_toNat.mpr h)
  have hk : k < 24 := lt_of_mul_two_pow_lt hpos (hq ▸ hlt)
  have hfrac : (q &&& 0x007FFFFF#32).toNat + 2 ^ 23 = q.toNat := by
    rw [toNat_and_mask (n := 23) q rfl]
    omega
  have hfield : (BitVec.ofInt 64 (-126 - k + 1023)).toNat = 896 - k + 1 := by
    rw [show (-126 - k + 1023 : ℤ) = (896 - k + 1 : ℕ) by omega, BitVec.ofInt_natCast,
      BitVec.toNat_ofNat, Nat.mod_eq_of_lt (by omega)]
  apply widens_of_toNat (toNat_widened hsign hfield (by omega) hfrac hlt) (by omega) hge hlt
  have hvalue := value32_of_magnitude (x := x) (j := 0) (n := f.toNat) (by omega) (by omega)
    (.inl rfl)
  rw [hvalue, hq, show (-149 + (0 : ℕ) : ℤ) = (896 - k : ℕ) - 1045 + k by omega, two_zpow_add]
  push_cast
  ring

theorem widens_normal {sign : Dbits} {e f : F32bits}
    (hx : magnitude x = e.toNat * 2 ^ 23 + f.toNat) (hf : f.toNat < 2 ^ 23)
    (hsign : sign.toNat = x.msb.toNat * 2 ^ 63) (he0 : e.toNat ≠ 0) (he : e.toNat < 255) :
    Widens x (sign ||| (e + (1023#32 - 127#32)).setWidth 64 <<< 52 ||| f.setWidth 64 <<< 29) := by
  obtain ⟨j, hj⟩ := Nat.exists_eq_succ_of_ne_zero he0
  have hpat : magnitude x = j * 2 ^ 23 + (f.toNat + 2 ^ 23) := by
    rw [hx, hj, Nat.succ_mul, Nat.add_assoc, Nat.add_comm (2 ^ 23)]
  have hbias : (1023#32 - 127#32).toNat = 896 := by decide
  have hfield : ((e + (1023#32 - 127#32)).setWidth 64).toNat = j + 896 + 1 := by
    rw [BitVec.toNat_setWidth, BitVec.toNat_add, hbias]
    omega
  apply widens_of_toNat (toNat_widened hsign hfield (by omega) rfl (by omega)) (by omega) (by omega)
    (by omega)
  rw [value32_of_magnitude hpat (by omega) (.inr (Nat.le_add_left _ _)),
    show (-149 + j : ℤ) = (j + 896 : ℕ) - 1045 by omega]

theorem extendsfdf2_finite (hx : binary32.IsFinite x) : Total (extendsfdf2 x) (Widens x) := by
  have hmag := magnitude32_eq x
  have hsign := toNat_signBit x
  have hlow : (x &&& 0x007FFFFF#32).toNat < 2 ^ 23 := by
    rw [toNat_and_mask (n := 23) x rfl]
    omega
  have hspecial := mt (field32_eq_iff x).mp (not_le.mpr hx)
  unfold Format.IsFinite at hx
  rw [binary32_inf] at hx
  unfold extendsfdf2
  dsimp only
  generalize x >>> 23 &&& 0xFF#32 = e at hmag hspecial ⊢
  generalize x &&& 0x007FFFFF#32 = f at hmag hlow ⊢
  rw [if_neg hspecial]
  apply Total.ite
  · rintro ⟨rfl, rfl⟩
    have hzero : magnitude x = 0 := hmag
    obtain ⟨hmsb, hmag'⟩ := sign_magnitude_of_toNat (show 0 < 64 by decide)
      (hsign.trans (Nat.add_zero _).symm) (Nat.two_pow_pos _)
    refine .some ⟨hmsb, ?_, ?_, ?_⟩
    · rw [Format.IsFinite, hmag']
      decide
    · rw [hmag', hzero, Format.value_zero, Format.value_zero]
    · omega
  · intro hne
    apply Total.ite
    · rintro rfl
      have hf : f ≠ 0 := fun h => hne ⟨rfl, h⟩
      have hfrac : magnitude x = f.toNat := hmag.trans (by simp)
      apply (normalize_total (n := 23) rfl hf hlow).bind
      rintro ⟨q, k⟩ - ⟨hq, hge, hlt⟩
      exact .pure (widens_subnormal hfrac hf hlow hsign hq hge hlt)
    · intro he
      have he0 : e.toNat ≠ 0 := fun h => he (eq_zero_iff_toNat.mpr h)
      exact .some (widens_normal hmag hlow hsign he0 (by omega))

theorem Widens.extended_eq (h : Widens x r) (hx : binary32.IsFinite x) :
    binary64.extended r = binary32.extended x := by
  have hsigned : binary64.signedValue r = binary32.signedValue x := by
    rw [Format.signedValue, Format.signedValue, h.msb_eq, h.value_eq]
  rw [Format.extended, Format.extended, if_neg (ne_of_lt h.isFinite), if_neg (ne_of_lt hx), hsigned]

/-- The low bits that widening leaves clear keep narrowing away from the halfway cases. -/
theorem Widens.truncdfsf2_eq (h : Widens x r) (hx : binary32.IsFinite x) :
    truncdfsf2 r = some x := by
  obtain ⟨y, hy, hrounds⟩ := truncdfsf2_total h.isFinite
  have hlow := h.low_bits
  obtain ⟨hmsb, hnear⟩ := hrounds.mpr fun htie => by
    have := htie.2.2
    omega
  rw [Format.abs_signedValue, h.value_eq] at hnear
  have hmag := hnear.unique (Format.NearestEven.of_value hx)
  rw [hy, eq_of_sign_magnitude (by decide) (hmsb.trans h.msb_eq) hmag]

theorem extendsfdf2_isInf (hx : binary32.IsInf x) :
    Total (extendsfdf2 x) fun r => r.msb = x.msb ∧ binary64.IsInf r := by
  have hword := toNat_or_of_mul (x := dExp) (toNat_signBit x) (by decide)
  unfold extendsfdf2
  dsimp only
  rw [if_pos ((field32_eq_iff x).mpr hx.ge), if_pos ((frac32_eq_zero_iff hx.ge).mpr hx)]
  exact .some (sign_magnitude_of_toNat (by decide) hword (by decide))

theorem extendsfdf2_isNan (hx : binary32.IsNan x) : Total (extendsfdf2 x) binary64.IsNan := by
  have hnan : binary64.IsNan (dExp ||| dQuiet) := by decide
  unfold extendsfdf2
  dsimp only
  rw [if_pos ((field32_eq_iff x).mpr hx.le), if_neg (mt (frac32_eq_zero_iff hx.le).mp hx.ne')]
  apply Total.some
  rw [BitVec.or_comm _ dExp, BitVec.or_assoc dExp, BitVec.or_assoc dExp, BitVec.or_comm _ dQuiet,
    ← BitVec.or_assoc]
  exact hnan.trans_le (magnitude_le_magnitude_or _ _)

end Widening

/-! ## There and back -/

section RoundTrip

variable {a : Dbits}

theorem truncdfsf2_isInf (ha : binary64.IsInf a) :
    Total (truncdfsf2 a) fun y => y.msb = a.msb ∧ binary32.IsInf y := by
  have hinf : (0x7F800000#32).toNat = binary32.inf := rfl
  have hword := toNat_or_of_mul (toNat_sign a) (x := 0x7F800000#32) (by decide)
  unfold truncdfsf2
  dsimp only
  rw [if_pos ((expField_eq_iff a).mpr ha.ge), if_pos ((frac_eq_zero_iff ha.ge).mpr ha)]
  exact .some (sign_magnitude_of_toNat (by decide) hword (by decide))

theorem truncdfsf2_isNan (ha : binary64.IsNan a) : Total (truncdfsf2 a) binary32.IsNan := by
  have hnan : binary32.IsNan 0x7FC00000#32 := by decide
  unfold truncdfsf2
  dsimp only
  rw [if_pos ((expField_eq_iff a).mpr ha.le), if_neg (mt (frac_eq_zero_iff ha.le).mp ha.ne')]
  apply Total.some
  rw [BitVec.or_comm _ 0x7FC00000#32, BitVec.or_assoc]
  exact hnan.trans_le (magnitude_le_magnitude_or _ _)

/-- Widening keeps the number and narrowing gives the single back; a word that is no number stays
none in both directions. -/
theorem extendsfdf2_exact (x : F32bits) :
    (¬ binary32.IsNan x → Total (extendsfdf2 x) fun r =>
      ¬ binary64.IsNan r ∧ r.msb = x.msb ∧ binary64.extended r = binary32.extended x ∧
        truncdfsf2 r = some x) ∧
    (binary32.IsNan x → Total (extendsfdf2 x) fun r =>
      binary64.IsNan r ∧ Total (truncdfsf2 r) binary32.IsNan) := by
  constructor
  · intro hnan
    rcases lt_trichotomy (magnitude x) binary32.inf with hfin | hinf | hnan'
    · apply (extendsfdf2_finite hfin).mono
      rintro r - hr
      exact ⟨hr.isFinite.asymm, hr.msb_eq, hr.extended_eq hfin, hr.truncdfsf2_eq hfin⟩
    · apply (extendsfdf2_isInf hinf).mono
      rintro r - ⟨hmsb, hr⟩
      obtain ⟨y, hy, hmsb', hy'⟩ := truncdfsf2_isInf hr
      refine ⟨hr.not_gt, hmsb, ?_, ?_⟩
      · unfold Format.IsInf at hr
        rw [Format.extended, Format.extended, if_pos hr, if_pos hinf, hmsb]
      · rw [hy, eq_of_sign_magnitude (by decide) (hmsb'.trans hmsb) (hy'.trans hinf.symm)]
    · exact absurd hnan' hnan
  · intro hnan
    apply (extendsfdf2_isNan hnan).mono
    rintro r - hr
    exact ⟨hr, truncdfsf2_isNan hr⟩

end RoundTrip

end LampUserspace.CompilerRt
