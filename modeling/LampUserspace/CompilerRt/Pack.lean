import LampUserspace.CompilerRt.Double

/-! # Rounding and packing doubles

The packer takes a significand with a guard bit and a sticky flag, shifts it into
the subnormal range where it has to, rounds to nearest even and encodes the
fields. Two normalizers bring a wider window down to it.
-/

namespace LampUserspace.CompilerRt
open Binary

/-- `(1ull << n) - 1ull`. -/
def lowMask (n : ℕ) : Dbits := 1#64 <<< n - 1#64

/-- The end of `df_pack`: encode the rounded significand. -/
def dfEncode (sign : Bool) (e : ℤ) (q : Dbits) (wasSubnormal : Bool) : Dbits :=
  if e > 971 then signWord sign ||| dExp
  else if wasSubnormal then
    if q = 0 then signWord sign
    else if q = dImpl then signWord sign ||| dImpl
    else signWord sign ||| q
  else signWord sign ||| BitVec.ofInt 64 (e + 1075) <<< 52 ||| q &&& dFrac

/-- The middle of `df_pack`: round to nearest, ties to even. -/
def dfRound (sign : Bool) (e : ℤ) (q : Dbits) (g s wasSubnormal : Bool) : Dbits :=
  if g && (s || q &&& 1 != 0) then
    let q := q + 1
    if q = dImpl <<< 1 then dfEncode sign (e + 1) (q >>> 1) wasSubnormal
    else dfEncode sign e q wasSubnormal
  else dfEncode sign e q wasSubnormal

def dfPack (sign : Bool) (e : ℤ) (q : Dbits) (g s : Bool) : Dbits :=
  if e < -1074 then
    -- shift right first, so that the guard bit ends up just below the last bit
    let shift := (-1074 - e).toNat
    if shift > 54 then signWord sign
    else
      let ng := q >>> (shift - 1) &&& 1 != 0
      dfRound sign (e + shift) (q >>> shift) ng (s || (g || q &&& lowMask (shift - 1) != 0)) true
  else dfRound sign e q g s false

/-- The position of the highest set bit of a window of two words. -/
def dfMsb128 (whi wlo : Dbits) : Option ℤ :=
  if whi ≠ 0 then do return (← dfMsb whi) + 64 else dfMsb wlo

/-- Normalize the window `whi`, `wlo` of 128 bits. -/
def dfNormPack128 (sign : Bool) (whi wlo : Dbits) (e : ℤ) (sExtra : Bool) : Option Dbits := do
  let tp ← dfMsb128 whi wlo
  if tp < 0 then
    return if sExtra then signWord sign ||| 1 else signWord sign
  else
    let cut := tp - 52
    if cut ≥ 64 then
      let sh2 := (cut - 64).toNat
      return dfPack sign (e + cut) (whi >>> sh2) (whi >>> (sh2 - 1) &&& 1 != 0)
        (sExtra || (whi &&& lowMask (sh2 - 1) != 0 || wlo != 0))
    else if cut > 0 then
      let c := cut.toNat
      let w := wlo >>> c ||| (whi &&& lowMask c) <<< (64 - c)
      return dfPack sign (e + cut) w (wlo >>> (c - 1) &&& 1 != 0)
        (sExtra || wlo &&& lowMask (c - 1) != 0)
    else
      -- there is nothing below the last bit but the caller's flag
      return dfPack sign (e + cut) (wlo <<< (-cut).toNat) false sExtra

/-- Normalize the window `w` of 64 bits with its guard bit and flag. -/
def dfNormPack (sign : Bool) (w : Dbits) (e : ℤ) (g s : Bool) : Option Dbits := do
  let t ← dfMsb w
  if t < 0 then return signWord sign
  else if t < 52 then
    let sh := (52 - t).toNat
    return dfPack sign (e - (52 - t)) (w <<< sh &&& (dFrac ||| dImpl)) g s
  else if t > 52 then
    let sh := (t - 52).toNat
    let mask := if sh ≥ 64 then ~~~0 else lowMask (sh - 1)
    let ng := w >>> (sh - 1) &&& 1 != 0
    return dfPack sign (e + sh) (w >>> sh &&& (dFrac ||| dImpl)) ng (s || (g || w &&& mask != 0))
  else return dfPack sign e (w &&& (dFrac ||| dImpl)) g s

/-! ## Encoding -/

section Encode

variable {sign g s : Bool} {q : Dbits} {e : ℤ} {f j : ℕ} {x : ℚ}

theorem toNat_signWord_or (sign : Bool) (hq : q.toNat < 2 ^ 63) :
    (signWord sign ||| q).toNat = sign.toNat * 2 ^ 63 + q.toNat := by
  exact toNat_or_of_mul (toNat_signWord sign) hq

theorem toNat_encode (sign : Bool) (q : Dbits) (hf : f < 2 ^ 11) :
    (signWord sign ||| BitVec.ofInt 64 f <<< 52 ||| q &&& dFrac).toNat =
      sign.toNat * 2 ^ 63 + (f * 2 ^ 52 + q.toNat % 2 ^ 52) := by
  have hfield : (BitVec.ofInt 64 f <<< 52).toNat = f * 2 ^ 52 := by
    rw [BitVec.ofInt_natCast, toNat_shiftLeft_of_lt, BitVec.toNat_ofNat,
      Nat.mod_eq_of_lt (by omega)]
    rw [BitVec.toNat_ofNat, Nat.mod_eq_of_lt (by omega)]
    omega
  have hfrac := toNat_and_dFrac q
  have hlow : (BitVec.ofInt 64 f <<< 52 ||| q &&& dFrac).toNat = f * 2 ^ 52 + q.toNat % 2 ^ 52 := by
    rw [toNat_or_of_mul hfield (by omega), hfrac]
  rw [BitVec.or_assoc, toNat_signWord_or _ (by omega), hlow]

theorem dExp_eq_inf : dExp.toNat = binary64.inf := rfl

theorem dfEncode_toNat {wasSubnormal : Bool} (he : e = -1074 + j) (hq : q.toNat < 2 ^ 53)
    (hsub : wasSubnormal = true → j = 0 ∧ q.toNat ≤ 2 ^ 52)
    (hnorm : wasSubnormal = false → 2 ^ 52 ≤ q.toNat) :
    (dfEncode sign e q wasSubnormal).toNat =
      sign.toNat * 2 ^ 63 + min binary64.inf (j * 2 ^ 52 + q.toNat) := by
  rw [binary64_inf]
  unfold dfEncode
  split
  · have hge := hnorm (Bool.eq_false_iff.mpr fun h => by have := (hsub h).1; omega)
    have hdExp : dExp.toNat < 2 ^ 63 := by rw [dExp_eq_inf, binary64_inf]; omega
    rw [toNat_signWord_or _ hdExp, dExp_eq_inf, binary64_inf, min_eq_left (by omega)]
  · rw [min_eq_right (by omega)]
    cases wasSubnormal with
    | true =>
      obtain ⟨rfl, hle⟩ := hsub rfl
      rw [Nat.zero_mul, Nat.zero_add, if_pos rfl]
      split
      case isTrue hq0 => rw [toNat_signWord, eq_zero_iff_toNat.mp hq0, Nat.add_zero]
      case isFalse =>
        split
        case isTrue himpl => rw [← himpl, toNat_signWord_or sign (by omega)]
        case isFalse => exact toNat_signWord_or sign (by omega)
    | false =>
      have hge := hnorm rfl
      have hfield : e + 1075 = (j + 1 : ℕ) := by omega
      rw [if_neg Bool.false_ne_true, hfield, toNat_encode sign q (by omega)]
      omega

theorem dfRound_toNat {wasSubnormal : Bool} (he : e = -1074 + j) (hq : q.toNat < 2 ^ 53)
    (hsub : wasSubnormal = true → j = 0 ∧ q.toNat < 2 ^ 52)
    (hnorm : wasSubnormal = false → 2 ^ 52 ≤ q.toNat) :
    (dfRound sign e q g s wasSubnormal).toNat =
      sign.toNat * 2 ^ 63 + min binary64.inf (j * 2 ^ 52 + roundPoint q.toNat g s) := by
  have hsucc : (q + 1).toNat = q.toNat + 1 := toNat_succ (by omega)
  unfold dfRound roundPoint
  rw [and_one_bne_zero q (by decide)]
  dsimp only
  split
  · split
    case isTrue hcarry =>
      -- the carry out of the significand starts the next binade
      have hq' : q.toNat + 1 = 2 ^ 53 := hsucc ▸ congrArg BitVec.toNat hcarry
      have hhalf : ((q + 1) >>> 1).toNat = 2 ^ 52 := by
        rw [toNat_shiftRight, hsucc, hq', Nat.pow_div (by omega) Nat.two_pos]
      have hnot : wasSubnormal = false := by
        cases wasSubnormal with
        | true => have := (hsub rfl).2; omega
        | false => rfl
      have hpat : (j + 1) * 2 ^ 52 + 2 ^ 52 = j * 2 ^ 52 + (q.toNat + 1) := by omega
      subst hnot
      rw [dfEncode_toNat (j := j + 1) (by omega) (by omega) (fun h => absurd h Bool.false_ne_true)
        (fun _ => hhalf.ge), hhalf, hpat]
    case isFalse hcarry =>
      have hq' : q.toNat + 1 ≠ 2 ^ 53 := fun h =>
        hcarry (BitVec.eq_of_toNat_eq (hsucc.trans h))
      rw [dfEncode_toNat he (by omega) (fun h => ⟨(hsub h).1, by have := (hsub h).2; omega⟩)
        (fun h => by have := hnorm h; omega), hsucc]
  · exact dfEncode_toNat he hq (fun h => ⟨(hsub h).1, (hsub h).2.le⟩) hnorm

theorem toNat_and_lowMask {n : ℕ} (x : Dbits) (hn : n < 64) :
    (x &&& lowMask n).toNat = x.toNat % 2 ^ n :=
  toNat_and_mask x (toNat_one_shiftLeft_sub_one hn)

theorem and_lowMask_bne_zero {n : ℕ} (x : Dbits) (hn : n < 64) :
    (x &&& lowMask n != 0) = decide (x.toNat % 2 ^ n ≠ 0) := by
  rw [bne, Bool.not_eq_eq_eq_not, ← decide_not, Bool.eq_iff_iff, beq_iff_eq, eq_zero_iff_toNat,
    toNat_and_lowMask x hn]
  simp

theorem rounds_of_toNat {r : Dbits} {k : ℕ} (hr : r.toNat = sign.toNat * 2 ^ 63 + k)
    (hk : binary64.NearestEven x k) : binary64.Rounds sign x r :=
  .of_toNat (by decide) (by decide) hr hk

theorem dfPack_rounds (hx : Framed x (e - 1) (2 * q.toNat + g.toNat) s) (hge : 2 ^ 52 ≤ q.toNat)
    (hlt : q.toNat < 2 ^ 53) : binary64.Rounds sign x (dfPack sign e q g s) := by
  unfold dfPack
  split
  case isFalse he =>
    obtain ⟨j, hj⟩ : ∃ j : ℕ, e = -1074 + j := ⟨(e + 1074).toNat, by omega⟩
    refine rounds_of_toNat (dfRound_toNat hj hlt (fun h => absurd h Bool.false_ne_true)
      fun _ => hge) ?_
    rw [hj] at hx
    exact Format.nearestEven_of_framed hx hlt (.inr hge)
  case isTrue he =>
    obtain ⟨k, hk⟩ : ∃ k : ℕ, -1074 - e = (k + 1 : ℕ) := ⟨(-1074 - e).toNat - 1, by omega⟩
    have hframe := hx.drop_guard.shift k
    have hexp : e + k = -1074 - 1 := by omega
    rw [hexp, Bool.or_assoc] at hframe
    rw [hk, Int.toNat_natCast]
    dsimp only
    rw [Nat.add_sub_cancel]
    split
    case isTrue hfar =>
      -- the number is below half of the least subnormal
      have hpow : 2 ^ 53 ≤ 2 ^ k := Nat.pow_le_pow_right Nat.two_pos (by omega)
      rw [Nat.div_eq_of_lt (by omega)] at hframe
      refine rounds_of_toNat (k := 0) (by rw [toNat_signWord, Nat.add_zero]) ?_
      have hzero := Format.nearestEven_of_framed (F := binary64) (j := 0) (q := 0) (g := false)
        (by simpa using hframe) (Nat.two_pow_pos _) (.inl rfl)
      simpa [roundPoint] using hzero
    case isFalse hnear =>
      have hguard := hframe.split_guard
      have hhalf : q.toNat / 2 ^ k / 2 = (q >>> (k + 1)).toNat := by
        rw [toNat_shiftRight, Nat.pow_succ, Nat.div_div_eq_div_mul]
      have hsmall : (q >>> (k + 1)).toNat < 2 ^ 52 := by
        have := Nat.div_le_self q.toNat (2 ^ k)
        omega
      rw [hhalf] at hguard
      rw [shiftRight_and_one_bne_zero q k (by decide), and_lowMask_bne_zero q (by omega)]
      refine rounds_of_toNat (dfRound_toNat (j := 0) (by omega) (by omega) (fun _ => ⟨rfl, hsmall⟩)
        (fun h => absurd h (by decide))) ?_
      refine Format.nearestEven_of_framed (by simpa using hguard) ?_ (.inl rfl)
      rw [binary64_fractionBits]
      omega

end Encode

/-! ## Windows -/

section Windows

variable {sign g s : Bool} {w whi wlo : Dbits} {e : ℤ} {x : ℚ}

theorem window_bounds {W k : ℕ} (hge : 2 ^ (53 + k) ≤ W) (hlt : W < 2 ^ (53 + k + 1)) :
    2 ^ 52 ≤ W / 2 ^ (k + 1) ∧ W / 2 ^ (k + 1) < 2 ^ 53 := by
  have hpos := Nat.two_pow_pos (k + 1)
  constructor
  · rw [Nat.le_div_iff_mul_le hpos, ← Nat.pow_add]
    exact (Nat.pow_le_pow_right Nat.two_pos (by omega)).trans hge
  · rw [Nat.div_lt_iff_lt_mul hpos, ← Nat.pow_add]
    exact hlt.trans_le (Nat.pow_le_pow_right Nat.two_pos (by omega))

theorem dfMsb128_total (hpos : 0 < whi.toNat * 2 ^ 64 + wlo.toNat) :
    Total (dfMsb128 whi wlo) fun t => ∃ n : ℕ, t = n ∧
      2 ^ n ≤ whi.toNat * 2 ^ 64 + wlo.toNat ∧ whi.toNat * 2 ^ 64 + wlo.toNat < 2 ^ (n + 1) := by
  have hlo := wlo.isLt
  unfold dfMsb128
  apply Total.ite
  · intro hhi
    apply (dfMsb_total hhi).bind
    rintro t - ⟨n, rfl, hge, hlt⟩
    refine .pure ⟨n + 64, by push_cast; rfl, ?_, ?_⟩
    · rw [Nat.pow_add]
      exact (Nat.mul_le_mul_right _ hge).trans (Nat.le_add_right _ _)
    · rw [Nat.add_right_comm, Nat.pow_add]
      have := Nat.mul_le_mul_right (2 ^ 64) hlt
      rw [Nat.succ_mul] at this
      omega
  · intro hhi
    rw [not_not] at hhi
    subst hhi
    have hzero : (0 : Dbits).toNat = 0 := rfl
    rw [hzero, Nat.zero_mul, Nat.zero_add] at hpos ⊢
    refine dfMsb_total ?_
    rintro rfl
    exact absurd hpos (by decide)

section Cut

variable {k : ℕ}

theorem two_pow_split (hk : k < 64) : 2 ^ 64 = 2 ^ k * 2 ^ (64 - k) := by
  rw [← Nat.pow_add, Nat.add_sub_cancel' hk.le]

theorem window_div (hk : k < 64) :
    (whi.toNat * 2 ^ 64 + wlo.toNat) / 2 ^ k = whi.toNat * 2 ^ (64 - k) + wlo.toNat / 2 ^ k := by
  rw [two_pow_split hk, Nat.mul_left_comm, Nat.mul_add_div (Nat.two_pow_pos k)]

theorem window_mod (whi wlo : Dbits) (hk : k < 64) :
    (whi.toNat * 2 ^ 64 + wlo.toNat) % 2 ^ k = wlo.toNat % 2 ^ k := by
  rw [two_pow_split hk, Nat.mul_left_comm, Nat.mul_add_mod]

/-- The bits of the window from the `k`-th on, when they fit a word. -/
theorem toNat_window_shiftRight (wlo : Dbits) (hk : k < 64) (hhi : whi.toNat < 2 ^ k) :
    (wlo >>> k ||| (whi &&& lowMask k) <<< (64 - k)).toNat =
      (whi.toNat * 2 ^ 64 + wlo.toNat) / 2 ^ k := by
  have hmask : (whi &&& lowMask k).toNat = whi.toNat := by
    rw [toNat_and_lowMask whi hk, Nat.mod_eq_of_lt hhi]
  have hfit : whi.toNat * 2 ^ (64 - k) < 2 ^ 64 := by
    rw [two_pow_split hk]
    exact Nat.mul_lt_mul_of_pos_right hhi (Nat.two_pow_pos _)
  have hupper : ((whi &&& lowMask k) <<< (64 - k)).toNat = whi.toNat * 2 ^ (64 - k) := by
    rw [toNat_shiftLeft_of_lt (hmask.symm ▸ hfit), hmask]
  have hlower : (wlo >>> k).toNat < 2 ^ (64 - k) := by
    rw [toNat_shiftRight, Nat.div_lt_iff_lt_mul (Nat.two_pow_pos k), Nat.mul_comm,
      ← two_pow_split hk]
    exact wlo.isLt
  rw [BitVec.or_comm, toNat_or_of_mul hupper hlower, toNat_shiftRight, window_div hk]

/-- A window that is cut below its 53 top bits: the kept bits, the bit below them and the flag for
the others frame the number. -/
theorem cut_framed (hx : Framed x e (whi.toNat * 2 ^ 64 + wlo.toNat) s)
    (hlt : whi.toNat * 2 ^ 64 + wlo.toNat < 2 ^ (53 + k + 1)) (hk : k + 1 < 64) :
    (wlo >>> (k + 1) ||| (whi &&& lowMask (k + 1)) <<< (64 - (k + 1))).toNat =
        (whi.toNat * 2 ^ 64 + wlo.toNat) / 2 ^ (k + 1) ∧
      (wlo >>> k &&& 1 != 0) = decide ((whi.toNat * 2 ^ 64 + wlo.toNat) / 2 ^ k % 2 = 1) ∧
      (wlo &&& lowMask k != 0) = decide ((whi.toNat * 2 ^ 64 + wlo.toNat) % 2 ^ k ≠ 0) ∧
      Framed x (e + k) (2 * ((whi.toNat * 2 ^ 64 + wlo.toNat) / 2 ^ (k + 1)) +
          (decide ((whi.toNat * 2 ^ 64 + wlo.toNat) / 2 ^ k % 2 = 1)).toNat)
        (s || decide ((whi.toNat * 2 ^ 64 + wlo.toNat) % 2 ^ k ≠ 0)) := by
  have hhi : whi.toNat < 2 ^ (k + 1) := by
    have hlarge : whi.toNat * 2 ^ 64 < 2 ^ (k + 1) * 2 ^ 64 := calc
      whi.toNat * 2 ^ 64 ≤ _ := Nat.le_add_right _ _
      _ < 2 ^ (53 + k + 1) := hlt
      _ ≤ 2 ^ (k + 1 + 64) := Nat.pow_le_pow_right Nat.two_pos (by omega)
      _ = 2 ^ (k + 1) * 2 ^ 64 := Nat.pow_add ..
    exact Nat.lt_of_mul_lt_mul_right hlarge
  have hbit : wlo.toNat / 2 ^ k % 2 = (whi.toNat * 2 ^ 64 + wlo.toNat) / 2 ^ k % 2 := by
    have heven : 2 ^ (64 - k) = 2 * 2 ^ (63 - k) := by
      rw [← Nat.pow_succ']
      congr 1
      omega
    rw [window_div (by omega), heven, Nat.mul_left_comm, Nat.mul_add_mod]
  have hframe := (hx.shift k).split_guard
  rw [Nat.div_div_eq_div_mul, ← Nat.pow_succ] at hframe
  refine ⟨toNat_window_shiftRight wlo hk hhi, ?_, ?_, hframe⟩
  · rw [shiftRight_and_one_bne_zero wlo k (by decide), hbit]
  · rw [and_lowMask_bne_zero wlo (by omega), ← window_mod whi wlo (show k < 64 by omega)]

end Cut

/-- A window that is exact: a finer grid brings its top bit to bit 52. -/
theorem fill_framed {n d : ℕ} (hx : Framed x e wlo.toNat false) (hge : 2 ^ n ≤ wlo.toNat)
    (hlt : wlo.toNat < 2 ^ (n + 1)) (hd : n + d = 52) :
    (wlo <<< d).toNat = wlo.toNat * 2 ^ d ∧ 2 ^ 52 ≤ (wlo <<< d).toNat ∧
      (wlo <<< d).toNat < 2 ^ 53 ∧ Framed x (e - d - 1) (2 * (wlo <<< d).toNat) false := by
  obtain ⟨hge', hlt'⟩ := mul_two_pow_bounds (d := d) hge hlt
  rw [hd] at hge' hlt'
  have hq : (wlo <<< d).toNat = wlo.toNat * 2 ^ d := toNat_shiftLeft_of_lt (by omega)
  have hexp : e - d - 1 = e - (d + 1 : ℕ) := by omega
  have hfine := hx.refine (d + 1)
  rw [← hexp, Nat.pow_succ', Nat.mul_left_comm, ← hq] at hfine
  exact ⟨hq, hq.symm ▸ hge', hq.symm ▸ hlt', hfine⟩

/-- The window of one word is rounded when its top bit is above bit 52. -/
theorem dfNormPack_rounds (hx : Framed x e w.toNat (s || g)) (hw : 2 ^ 53 ≤ w.toNat) :
    Total (dfNormPack sign w e g s) (binary64.Rounds sign x) := by
  have hne : w ≠ 0 := by
    rintro rfl
    exact absurd hw (by decide)
  unfold dfNormPack
  apply (dfMsb_total hne).bind
  rintro t - ⟨n, rfl, hn, hn'⟩
  have h53 : 53 ≤ n := by
    have := lt_of_two_pow_le hw hn'
    omega
  have h64 : n < 64 := lt_of_two_pow_le hn w.isLt
  obtain ⟨k, rfl⟩ := Nat.exists_eq_add_of_le h53
  have hsh : (((53 + k : ℕ) : ℤ) - 52).toNat = k + 1 := by omega
  rw [if_neg (by omega), if_neg (by omega), if_pos (by omega), hsh]
  dsimp only
  rw [if_neg (by omega), Nat.add_sub_cancel]
  apply Total.pure
  have hkeep := window_bounds hn hn'
  have hq : (w >>> (k + 1) &&& (dFrac ||| dImpl)).toNat = w.toNat / 2 ^ k / 2 := by
    rw [toNat_and_mask (n := 53) _ rfl, toNat_shiftRight, Nat.mod_eq_of_lt hkeep.2, Nat.pow_succ,
      Nat.div_div_eq_div_mul]
  have hframe := (hx.shift k).split_guard
  rw [← hq] at hframe
  rw [shiftRight_and_one_bne_zero w k (by decide), and_lowMask_bne_zero w (by omega)]
  refine dfPack_rounds ?_ ?_ ?_
  · have hexp : e + (k + 1 : ℕ) - 1 = e + k := by omega
    rw [hexp, ← Bool.or_assoc]
    exact hframe
  · rw [hq, Nat.div_div_eq_div_mul, ← Nat.pow_succ]
    exact hkeep.1
  · rw [hq, Nat.div_div_eq_div_mul, ← Nat.pow_succ]
    exact hkeep.2

end Windows

end LampUserspace.CompilerRt
