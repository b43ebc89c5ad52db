import LampUserspace.CompilerRt.Divmod
import Mathlib.Data.Nat.ModEq
import Mathlib.Data.Nat.Size

/-! # 64-bit shifts and multiplication from 32-bit pieces

A shift by a variable count is put together from shifts of the two halves. In C
a 32-bit shift by 32 or more is undefined, so each of them returns nothing here,
and a total routine is one whose shifts are all defined.
-/

namespace LampUserspace.CompilerRt
open Binary

/-- `unsigned`, and `int` with its bits read as two's complement. -/
abbrev Word := BitVec 32

def shl (v count : Word) : Option Word :=
  if count.toNat < 32 then some (v <<< count.toNat) else none

def shr (v count : Word) : Option Word :=
  if count.toNat < 32 then some (v >>> count.toNat) else none

def diSplit (v : DuInt) : Word × Word := ((v &&& 0xFFFFFFFF).setWidth 32, (v >>> 32).setWidth 32)

def diJoin (lo hi : Word) : DuInt := lo.setWidth 64 ||| hi.setWidth 64 <<< 32

def ashldi3 (a : DuInt) (b : Word) : Option DuInt := do
  let (lo, hi) := diSplit a
  if 64 ≤ b then return 0
  else if 32 ≤ b then return diJoin 0 (← shl lo (b - 32))
  else if b = 0 then return a
  else return diJoin (← shl lo b) ((← shl hi b) ||| (← shr lo (32 - b)))

def lshrdi3 (a : DuInt) (b : Word) : Option DuInt := do
  let (lo, hi) := diSplit a
  if 64 ≤ b then return 0
  else if 32 ≤ b then return diJoin (← shr hi (b - 32)) 0
  else if b = 0 then return a
  else return diJoin ((← shr lo b) ||| (← shl hi (32 - b))) (← shr hi b)

/-- The sign fill: the top `sh` bits of the word are set, under the guard `sh < 32`. -/
def signFill (v fill sh : Word) : Option Word := do
  if sh < 32 then return v ||| (← shl fill (32 - sh)) else return v

def ashrdi3 (a : DuInt) (b : Word) : Option DuInt := do
  let (lo, hi) := diSplit a
  if 64 ≤ b then return if hi &&& 0x80000000 ≠ 0 then -1 else 0
  else if 32 ≤ b then
    let fill : Word := if hi &&& 0x80000000 ≠ 0 then 0xFFFFFFFF else 0
    let newlo ← shr hi (b - 32)
    let newlo ← if fill ≠ 0 then signFill newlo fill (b - 32) else pure newlo
    return diJoin newlo fill
  else if b = 0 then return a
  else
    let newlo := (← shr lo b) ||| (← shl hi (32 - b))
    let newhi ← shr hi b
    let newhi ← if hi &&& 0x80000000 ≠ 0 then signFill newhi 0xFFFFFFFF b else pure newhi
    return diJoin newlo newhi

/-- The shift-and-add loop over the product so far and the two factors. -/
def muldi3 (a b : DuInt) : Option DuInt := do
  let (r, _, _) ← whileDo (fun s : DuInt × DuInt × DuInt => s.2.2 ≠ 0)
    (fun s => (if s.2.2 &&& 1 ≠ 0 then s.1 + s.2.1 else s.1, s.2.1 <<< 1, s.2.2 >>> 1)) 64 (0, a, b)
  return r

/-! ## Halves -/

section Halves

variable {a : DuInt} {b v count lo hi : Word} {i : ℕ}

theorem shl_of_lt (v : Word) {count : Word} (h : count.toNat < 32) :
    shl v count = some (v <<< count.toNat) := if_pos h

theorem shr_of_lt (v : Word) {count : Word} (h : count.toNat < 32) :
    shr v count = some (v >>> count.toNat) := if_pos h

theorem diJoin_eq (hlo : ∀ i < 32, lo.getLsbD i = a.getLsbD i)
    (hhi : ∀ i < 32, hi.getLsbD i = a.getLsbD (32 + i)) : diJoin lo hi = a := by
  apply BitVec.eq_of_getLsbD_eq
  intro i hi64
  rw [diJoin, BitVec.getLsbD_or, BitVec.getLsbD_shiftLeft, BitVec.getLsbD_setWidth,
    BitVec.getLsbD_setWidth]
  by_cases h : i < 32
  · rw [hlo i h]
    simp [h, hi64]
  · have hlo' : lo.getLsbD i = false := BitVec.getLsbD_of_ge _ _ (Nat.not_lt.mp h)
    rw [hhi (i - 32) (by omega), hlo', show 32 + (i - 32) = i by omega]
    simp [h, hi64, show i - 32 < 64 by omega]

theorem getLsbD_ones {w : ℕ} {m : BitVec w} {n : ℕ} (hm : m.toNat = 2 ^ n - 1) (i : ℕ) :
    m.getLsbD i = decide (i < n) := by
  rw [BitVec.getLsbD, hm, Nat.testBit_two_pow_sub_one]

@[simp]
theorem getLsbD_diSplit_lo : (diSplit a).1.getLsbD i = (decide (i < 32) && a.getLsbD i) := by
  have hmask : (0xFFFFFFFF : DuInt).getLsbD i = decide (i < 32) := getLsbD_ones (n := 32) rfl i
  simp only [diSplit, BitVec.getLsbD_setWidth, BitVec.getLsbD_and, hmask]
  cases decide (i < 32) <;> simp

@[simp]
theorem getLsbD_diSplit_hi : (diSplit a).2.getLsbD i = (decide (i < 32) && a.getLsbD (32 + i)) := by
  simp [diSplit]

theorem diSplit_sign_iff : (diSplit a).2 &&& 0x80000000 ≠ 0 ↔ a.msb = true := by
  have hbit := and_single_eq_zero_iff (x := (diSplit a).2) (m := 0x80000000) (n := 31) rfl
  have hmsb : a.msb = decide ((diSplit a).2.toNat / 2 ^ 31 % 2 = 1) := by
    rw [← Nat.testBit_eq_decide_div_mod_eq, BitVec.testBit_toNat, getLsbD_diSplit_hi,
      BitVec.msb_eq_getLsbD_last]
    rfl
  rw [Ne, hbit, hmsb, decide_eq_true_eq]
  omega

/-- The low half of a right shift: what is left of it and what comes down from the high half. -/
theorem getLsbD_low_half {n : ℕ} (hn : n < 32) (hi : i < 32) :
    ((diSplit a).1 >>> n ||| (diSplit a).2 <<< (32 - n)).getLsbD i = a.getLsbD (n + i) := by
  simp only [BitVec.getLsbD_or, BitVec.getLsbD_shiftLeft, BitVec.getLsbD_ushiftRight,
    getLsbD_diSplit_lo, getLsbD_diSplit_hi]
  by_cases h : n + i < 32
  · simp [h, show i < 32 - n by omega]
  · simp [h, hi, show ¬ i < 32 - n by omega, show i - (32 - n) < 32 by omega,
      show 32 + (i - (32 - n)) = n + i by omega]

end Halves

/-! ## Shifts -/

section Shifts

variable {a : DuInt} {b : Word}

theorem count_cases (hb : b.toNat < 64) :
    ¬ 64 ≤ b ∧ ((32 ≤ b ∧ 32 ≤ b.toNat ∧ (b - 32).toNat = b.toNat - 32) ∨ (¬ 32 ≤ b ∧ b = 0) ∨
      (¬ 32 ≤ b ∧ b ≠ 0 ∧ 0 < b.toNat ∧ b.toNat < 32 ∧ (32 - b).toNat = 32 - b.toNat)) := by
  bv_omega

theorem ashldi3_eq (hb : b.toNat < 64) : ashldi3 a b = some (a <<< b.toNat) := by
  obtain ⟨h64, ⟨h32, hle, hsub⟩ | ⟨h32, rfl⟩ | ⟨h32, h0, hpos, hlt, hsub⟩⟩ := count_cases hb
  · have hshl := shl_of_lt (diSplit a).1 (show (b - 32).toNat < 32 by omega)
    simp only [ashldi3, if_neg h64, if_pos h32, hshl, hsub]
    apply congrArg some
    apply diJoin_eq
    · intro i hi
      simp only [BitVec.getLsbD_shiftLeft]
      grind
    · intro i hi
      simp only [BitVec.getLsbD_shiftLeft, getLsbD_diSplit_lo]
      grind
  · simp [ashldi3]
  · have hlo := shl_of_lt (diSplit a).1 hlt
    have hhi := shl_of_lt (diSplit a).2 hlt
    have hcarry := shr_of_lt (diSplit a).1 (show (32 - b).toNat < 32 by omega)
    simp only [ashldi3, if_neg h64, if_neg h32, if_neg h0, hlo, hhi, hcarry, hsub]
    apply congrArg some
    apply diJoin_eq
    · intro i hi
      simp only [BitVec.getLsbD_shiftLeft, getLsbD_diSplit_lo]
      grind
    · intro i hi
      simp only [BitVec.getLsbD_or, BitVec.getLsbD_shiftLeft, BitVec.getLsbD_ushiftRight,
        getLsbD_diSplit_lo, getLsbD_diSplit_hi]
      grind

theorem lshrdi3_eq (hb : b.toNat < 64) : lshrdi3 a b = some (a >>> b.toNat) := by
  obtain ⟨h64, ⟨h32, hle, hsub⟩ | ⟨h32, rfl⟩ | ⟨h32, h0, hpos, hlt, hsub⟩⟩ := count_cases hb
  · have hshr := shr_of_lt (diSplit a).2 (show (b - 32).toNat < 32 by omega)
    simp only [lshrdi3, if_neg h64, if_pos h32, hshr, hsub]
    apply congrArg some
    apply diJoin_eq
    · intro i hi
      simp only [BitVec.getLsbD_ushiftRight, getLsbD_diSplit_hi]
      grind
    · intro i hi
      simp only [BitVec.getLsbD_ushiftRight]
      grind
  · simp [lshrdi3]
  · have hlo := shr_of_lt (diSplit a).1 hlt
    have hhi := shr_of_lt (diSplit a).2 hlt
    have hcarry := shl_of_lt (diSplit a).2 (show (32 - b).toNat < 32 by omega)
    simp only [lshrdi3, if_neg h64, if_neg h32, if_neg h0, hlo, hhi, hcarry, hsub]
    apply congrArg some
    apply diJoin_eq
    · intro i hi
      rw [getLsbD_low_half hlt hi, BitVec.getLsbD_ushiftRight]
    · intro i hi
      simp only [BitVec.getLsbD_ushiftRight, getLsbD_diSplit_hi]
      grind

/-- Below the guard the fill sets the top bits, but for a count of zero, whose shift is by 32. -/
theorem signFill_ones (v : Word) {sh : Word} (hlt : sh.toNat < 32) :
    signFill v 0xFFFFFFFF sh =
      if sh = 0 then none else some (v ||| (0xFFFFFFFF : Word) <<< (32 - sh.toNat)) := by
  have hguard : sh < 32 := by bv_omega
  rw [signFill, if_pos hguard]
  split
  case isTrue h =>
    subst h
    rfl
  case isFalse h =>
    have hsub : (32 - sh).toNat = 32 - sh.toNat := by bv_omega
    rw [shl_of_lt _ (by bv_omega), hsub]
    rfl

theorem getLsbD_or_fill (v : Word) {sh i : ℕ} (hi : i < 32) :
    (v ||| (0xFFFFFFFF : Word) <<< (32 - sh)).getLsbD i =
      (v.getLsbD i || decide (32 - sh ≤ i)) := by
  have hones := getLsbD_ones (m := (0xFFFFFFFF : Word)) (n := 32) rfl (i - (32 - sh))
  simp only [BitVec.getLsbD_or, BitVec.getLsbD_shiftLeft, hones]
  grind

theorem ashrdi3_of_ge_32 (h64 : b.toNat < 64) (h32 : 32 ≤ b) :
    ashrdi3 a b = if b = 32 ∧ a.msb = true then none else some (a.sshiftRight b.toNat) := by
  have hsub : (b - 32).toNat = b.toNat - 32 := by bv_omega
  have hshr := shr_of_lt (diSplit a).2 (show (b - 32).toNat < 32 by omega)
  have hzero : b - 32 = 0 ↔ b = 32 := by bv_omega
  have h64' : ¬ 64 ≤ b := by bv_omega
  by_cases hneg : a.msb = true
  · have hfill := signFill_ones ((diSplit a).2 >>> (b.toNat - 32))
      (show (b - 32).toNat < 32 by omega)
    simp only [ashrdi3, if_neg h64', if_pos h32, hshr, hsub, if_pos (diSplit_sign_iff.mpr hneg),
      Option.bind_eq_bind, Option.bind_some]
    rw [if_pos (by decide), hfill]
    simp only [hzero, hneg, and_true]
    split
    case isTrue => rfl
    case isFalse h =>
      apply congrArg some
      apply diJoin_eq
      · intro i hi
        rw [hsub, getLsbD_or_fill _ hi]
        simp only [BitVec.getLsbD_ushiftRight, getLsbD_diSplit_hi, BitVec.getLsbD_sshiftRight, hneg]
        grind
      · intro i hi
        rw [getLsbD_ones (n := 32) rfl, BitVec.getLsbD_sshiftRight]
        grind
  · rw [if_neg fun h => hneg h.2]
    simp only [ashrdi3, if_neg h64', if_pos h32, hshr, hsub, if_neg (mt diSplit_sign_iff.mp hneg),
      Option.bind_eq_bind, Option.bind_some, ne_eq, not_true_eq_false, if_false, Option.pure_def]
    apply congrArg some
    apply diJoin_eq
    · intro i hi
      simp only [BitVec.getLsbD_ushiftRight, getLsbD_diSplit_hi, BitVec.getLsbD_sshiftRight]
      grind
    · intro i hi
      simp only [BitVec.getLsbD_sshiftRight]
      grind

theorem ashrdi3_of_lt_32 (h32 : b.toNat < 32) : ashrdi3 a b = some (a.sshiftRight b.toNat) := by
  have h64' : ¬ 64 ≤ b := by bv_omega
  have h32' : ¬ 32 ≤ b := by bv_omega
  by_cases h0 : b = 0
  · subst h0
    simp [ashrdi3]
  have hsub : (32 - b).toNat = 32 - b.toNat := by bv_omega
  have hpos : 0 < b.toNat := by bv_omega
  have hlo := shr_of_lt (diSplit a).1 h32
  have hhi := shr_of_lt (diSplit a).2 h32
  have hcarry := shl_of_lt (diSplit a).2 (show (32 - b).toNat < 32 by omega)
  simp only [ashrdi3, if_neg h64', if_neg h32', if_neg h0, hlo, hhi, hcarry, hsub,
    Option.bind_eq_bind, Option.bind_some]
  have hlow (newhi : Word) (hnew : ∀ i < 32, newhi.getLsbD i =
      (a.sshiftRight b.toNat).getLsbD (32 + i)) :
      diJoin ((diSplit a).1 >>> b.toNat ||| (diSplit a).2 <<< (32 - b.toNat)) newhi =
        a.sshiftRight b.toNat := by
    apply diJoin_eq _ hnew
    intro i hi
    rw [getLsbD_low_half h32 hi, BitVec.getLsbD_sshiftRight]
    grind
  by_cases hneg : a.msb = true
  · rw [if_pos (diSplit_sign_iff.mpr hneg), signFill_ones _ h32, if_neg h0]
    apply congrArg some
    apply hlow
    intro i hi
    rw [getLsbD_or_fill _ hi]
    simp only [BitVec.getLsbD_ushiftRight, getLsbD_diSplit_hi, BitVec.getLsbD_sshiftRight, hneg]
    grind
  · rw [if_neg (mt diSplit_sign_iff.mp hneg)]
    apply congrArg some
    apply hlow
    intro i hi
    simp only [BitVec.getLsbD_ushiftRight, getLsbD_diSplit_hi, BitVec.getLsbD_sshiftRight]
    grind

theorem ashrdi3_eq (hb : b.toNat < 64) :
    ashrdi3 a b = if b = 32 ∧ a.msb = true then none else some (a.sshiftRight b.toNat) := by
  by_cases h32 : b.toNat < 32
  · rw [ashrdi3_of_lt_32 h32, if_neg]
    rintro ⟨rfl, -⟩
    exact absurd h32 (by decide)
  · exact ashrdi3_of_ge_32 hb (by bv_omega)

end Shifts

/-! ## Multiplication -/

theorem size_half_lt {n : ℕ} (hn : 0 < n) : (n / 2).size < n.size := by
  obtain ⟨k, hk⟩ := Nat.exists_eq_succ_of_ne_zero (Nat.size_pos.mpr hn).ne'
  have hlt := Nat.lt_size_self n
  rw [hk, Nat.pow_succ] at hlt
  rw [hk, Nat.lt_succ_iff, Nat.size_le]
  omega

/-- A round keeps the product so far plus the product that is left, modulo `2 ^ 64`. -/
theorem muldi3_round (r f g : DuInt) :
    (if g &&& 1 ≠ 0 then r + f else r).toNat + (f <<< 1).toNat * (g >>> 1).toNat ≡
      r.toNat + f.toNat * g.toNat [MOD 2 ^ 64] := by
  have hsum : (if g &&& 1 ≠ 0 then r + f else r).toNat ≡
      r.toNat + f.toNat * (g.toNat % 2) [MOD 2 ^ 64] := by
    have hodd : g &&& 1 ≠ 0 ↔ g.toNat % 2 = 1 := by
      rw [← bne_iff_ne, and_one_bne_zero g (by decide), beq_iff_eq]
    split
    case isTrue h =>
      rw [hodd.mp h, Nat.mul_one, BitVec.toNat_add]
      exact Nat.mod_modEq _ _
    case isFalse h =>
      rw [Nat.mod_two_ne_one.mp (mt hodd.mpr h), Nat.mul_zero]
      exact Nat.ModEq.rfl
  have hshift : (f <<< 1).toNat ≡ f.toNat * 2 [MOD 2 ^ 64] := by
    rw [toNat_shiftLeft, Nat.pow_one]
    exact Nat.mod_modEq _ _
  calc
    _ ≡ r.toNat + f.toNat * (g.toNat % 2) + f.toNat * 2 * (g.toNat / 2) [MOD 2 ^ 64] := by
      rw [toNat_shiftRight, Nat.pow_one]
      exact hsum.add (hshift.mul_right _)
    _ = r.toNat + f.toNat * g.toNat := by
      rw [Nat.add_assoc, Nat.mul_assoc, ← Nat.mul_add, Nat.mod_add_div]

/-- The product so far and the product that is left add up to the product, modulo `2 ^ 64`. -/
theorem muldi3_total (a b : DuInt) :
    Total (muldi3 a b) fun r => r.toNat = a.toNat * b.toNat % 2 ^ 64 := by
  apply (whileDo_total
    (fun s => s.1.toNat + s.2.1.toNat * s.2.2.toNat ≡ a.toNat * b.toNat [MOD 2 ^ 64])
    (fun s => s.2.2.toNat.size) ?_ (by simp [Nat.ModEq]) (Nat.size_le.mpr b.isLt)).bind
  · rintro ⟨r, f, g⟩ - ⟨hinv, hstop⟩
    have hzero : g.toNat = 0 := eq_zero_iff_toNat.mp (by simpa using hstop)
    dsimp only at hinv
    rw [hzero, Nat.mul_zero, Nat.add_zero] at hinv
    apply Total.pure
    rw [← hinv, Nat.mod_eq_of_lt r.isLt]
  · rintro ⟨r, f, g⟩ hinv htest
    have hg : g ≠ 0 := by simpa using htest
    refine ⟨(muldi3_round r f g).trans hinv, ?_⟩
    dsimp only
    rw [toNat_shiftRight, Nat.pow_one]
    exact size_half_lt (toNat_pos hg)

/-! ## All four routines -/

/-- Every shift is defined and the results are those of integer arithmetic, rounded down. -/
structure ShiftsCorrect (a c : DuInt) (b : Word) : Prop where
  ashldi3 : Total (ashldi3 a b) fun r => r.toNat = a.toNat * 2 ^ b.toNat % 2 ^ 64
  lshrdi3 : Total (lshrdi3 a b) fun r => r.toNat = a.toNat / 2 ^ b.toNat
  ashrdi3 : Total (ashrdi3 a b) fun r => r.toInt = a.toInt.fdiv (2 ^ b.toNat)
  muldi3 : Total (muldi3 a c) fun r => r.toNat = a.toNat * c.toNat % 2 ^ 64

/-- The fill of a shift by exactly 32 is itself a shift by 32. -/
theorem shiftsCorrect_iff (a c : DuInt) (b : Word) (hb : b.toNat < 64) :
    ShiftsCorrect a c b ↔ ¬ (b = 32 ∧ a.toInt < 0) := by
  have hsign : a.msb = true ↔ a.toInt < 0 := by rw [BitVec.msb_eq_toInt, decide_eq_true_eq]
  rw [← hsign]
  constructor
  · rintro ⟨-, -, ⟨r, hr, -⟩, -⟩ h
    rw [ashrdi3_eq hb, if_pos h] at hr
    exact absurd hr nofun
  · intro h
    constructor
    · exact .intro (ashldi3_eq hb) (toNat_shiftLeft a b.toNat)
    · exact .intro (lshrdi3_eq hb) (toNat_shiftRight a b.toNat)
    · apply Total.intro ((ashrdi3_eq hb).trans (if_neg h))
      rw [BitVec.toInt_sshiftRight, Int.shiftRight_eq_div_pow]
      exact (Int.fdiv_eq_ediv_of_nonneg _ (Int.natCast_nonneg (2 ^ b.toNat))).symm
    · exact muldi3_total a c

/-- Minus one shifted by one: the fill is defined. -/
theorem minus_one_shifted : ShiftsCorrect (-1) 3 1 ↔ ¬ ((1 : Word) = 32 ∧ (-1 : DuInt).toInt < 0) :=
  shiftsCorrect_iff (-1) 3 1 (by decide)

/-- Minus one shifted by 32 has no defined result. -/
theorem minus_one_shifted_by_word :
    ashrdi3 (-1) 32 = none ∧ ¬ ∀ (a c : DuInt) (b : Word), b.toNat < 64 → ShiftsCorrect a c b := by
  have hnone : ashrdi3 (-1) 32 = none := by decide
  refine ⟨hnone, fun h => ?_⟩
  obtain ⟨r, hr, -⟩ := (h (-1) 0 32 (by decide)).ashrdi3
  exact absurd (hnone.symm.trans hr) nofun

end LampUserspace.CompilerRt
