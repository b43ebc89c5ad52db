import LampUserspace.Binary.Words
import LampUserspace.Partial.Loops
import Mathlib.Algebra.Order.Ring.Int
import Mathlib.Tactic.Ring

/-! # 64-bit division without a divide instruction

The divisor is shifted left until it is the largest multiple by a power of two
that the dividend holds; one subtraction for each shift back then gives a bit of
the quotient. The signed routines divide the magnitudes and negate.
-/

namespace LampUserspace.CompilerRt
open Binary

/-- `du_int`, and `di_int` with its bits read as two's complement. -/
abbrev DuInt := BitVec 64

def uabsdi (v : DuInt) : DuInt := if v.toInt < 0 then 0 - v else v

/-! ## Unsigned division -/

/-- Shift the divisor left while twice it is at most the dividend and its top bit is clear. -/
def alignDivisor (a b : DuInt) : Option (DuInt × ℕ) :=
  whileDo (fun s => s.1 >>> 63 = 0 && s.1 ≤ a >>> 1) (fun s => (s.1 <<< 1, s.2 + 1)) 64 (b, 0)

/-- One round of the subtract loop: the dividend that is left and the quotient so far. -/
def subtractOnce (a div quot : DuInt) : DuInt × DuInt :=
  if div ≤ a then (a - div, quot <<< 1 ||| 1) else (a, quot <<< 1)

def subtractLoop : ℕ → DuInt → DuInt → DuInt → DuInt × DuInt
  | 0, a, div, quot => subtractOnce a div quot
  | shift + 1, a, div, quot =>
    let r := subtractOnce a div quot
    subtractLoop shift r.1 (div >>> 1) r.2

/-- The quotient, and the remainder that is stored through `rem`. -/
def udivmoddi4 (a b : DuInt) : Option (DuInt × DuInt) :=
  if b = 0 then some (0, 0)
  else if a < b then some (0, a)
  else do
    let (div, shift) ← alignDivisor a b
    let (rem, quot) := subtractLoop shift a div 0
    return (quot, rem)

def udivdi3 (a b : DuInt) : Option DuInt := do
  let r ← udivmoddi4 a b
  return r.1

def umoddi3 (a b : DuInt) : Option DuInt := do
  let r ← udivmoddi4 a b
  return r.2

def divdi3 (a b : DuInt) : Option DuInt :=
  if b = 0 then some 0
  else do
    let neg := (a.toInt < 0) ^^ (b.toInt < 0)
    let uq ← udivdi3 (uabsdi a) (uabsdi b)
    return if neg then -uq else uq

def moddi3 (a b : DuInt) : Option DuInt :=
  if b = 0 then some 0
  else do
    let ur ← umoddi3 (uabsdi a) (uabsdi b)
    return if a.toInt < 0 then -ur else ur

section Unsigned

variable {a b div quot : DuInt} {shift : ℕ}

theorem toNat_pos (hb : b ≠ 0) : 0 < b.toNat :=
  Nat.pos_of_ne_zero fun h => hb (eq_zero_iff_toNat.mpr h)

/-- The aligned divisor is the divisor shifted, at most the dividend and more than half of it. -/
theorem alignDivisor_total (hb : b ≠ 0) (hba : b ≤ a) :
    Total (alignDivisor a b) fun s =>
      s.1.toNat = b.toNat * 2 ^ s.2 ∧ a.toNat < 2 * s.1.toNat := by
  have hpos := toNat_pos hb
  unfold alignDivisor
  apply Total.mono (whileDo_total (fun s => s.1.toNat = b.toNat * 2 ^ s.2 ∧ s.1.toNat ≤ a.toNat)
    (fun s => 64 - s.2) ?_ ⟨by simp, hba⟩ (Nat.sub_le _ _))
  · rintro ⟨d, k⟩ - ⟨⟨hd, hle⟩, hstop⟩
    simp only [Bool.and_eq_false_iff, decide_eq_false_iff_not, eq_zero_iff_toNat,
      toNat_shiftRight, BitVec.le_def] at hstop hd hle ⊢
    exact ⟨hd, by omega⟩
  · rintro ⟨d, k⟩ ⟨hd, hle⟩ htest
    simp only [Bool.and_eq_true, decide_eq_true_eq, eq_zero_iff_toNat, toNat_shiftRight,
      BitVec.le_def] at htest hd hle ⊢
    have hk : k < 64 := lt_of_mul_two_pow_lt hpos (hd ▸ d.isLt)
    have hshift : (d <<< 1).toNat = d.toNat * 2 := toNat_shiftLeft_of_lt (by omega)
    rw [hshift, Nat.pow_succ, ← Nat.mul_assoc, ← hd]
    omega

/-- A round doubles the quotient and accounts for what it takes from the dividend. -/
theorem subtractOnce_spec (hdiv : 0 < div.toNat) (ha : a.toNat < 2 * div.toNat)
    (hq : 2 * quot.toNat * div.toNat + a.toNat < 2 ^ 64) :
    (subtractOnce a div quot).1.toNat < div.toNat ∧
      (subtractOnce a div quot).2.toNat * div.toNat + (subtractOnce a div quot).1.toNat =
        2 * quot.toNat * div.toNat + a.toNat := by
  have hle : 2 * quot.toNat ≤ 2 * quot.toNat * div.toNat := Nat.le_mul_of_pos_right _ hdiv
  have hshift : (quot <<< 1).toNat = 2 * quot.toNat := by
    rw [toNat_shiftLeft_of_lt (by omega), Nat.pow_one, Nat.mul_comm]
  unfold subtractOnce
  split
  case isTrue hda =>
    have hor : (quot <<< 1 ||| 1).toNat = 2 * quot.toNat + 1 := by
      rw [toNat_or_of_dvd (n := 1) ⟨_, hshift⟩ (by decide), hshift]
      rfl
    have hsub := BitVec.toNat_sub_of_le hda
    rw [BitVec.le_def] at hda
    simp only [hor, hsub, Nat.add_mul]
    omega
  case isFalse hda =>
    rw [BitVec.le_def] at hda
    dsimp only
    rw [hshift]
    exact ⟨by omega, rfl⟩

/-- The subtract loop divides: the quotient times the divisor and the rest are what it was given. -/
theorem subtractLoop_spec (hb : 0 < b.toNat) (hdiv : div.toNat = b.toNat * 2 ^ shift)
    (ha : a.toNat < 2 * div.toNat) (hq : 2 * quot.toNat * div.toNat + a.toNat < 2 ^ 64) :
    (subtractLoop shift a div quot).1.toNat < b.toNat ∧
      (subtractLoop shift a div quot).2.toNat * b.toNat + (subtractLoop shift a div quot).1.toNat =
        2 * quot.toNat * div.toNat + a.toNat := by
  have hpos : 0 < div.toNat := hdiv ▸ Nat.mul_pos hb (Nat.two_pow_pos _)
  obtain ⟨hlt, heq⟩ := subtractOnce_spec hpos ha hq
  induction shift generalizing a div quot with
  | zero =>
    rw [Nat.pow_zero, Nat.mul_one] at hdiv
    rw [← hdiv]
    exact ⟨hlt, heq⟩
  | succ shift ih =>
    set r := subtractOnce a div quot with hr
    have hhalf : (div >>> 1).toNat = b.toNat * 2 ^ shift := by
      rw [toNat_shiftRight, hdiv, Nat.pow_succ, ← Nat.mul_assoc, Nat.pow_one,
        Nat.mul_div_cancel _ Nat.two_pos]
    have hdouble : div.toNat = 2 * (div >>> 1).toNat := by
      rw [hhalf, hdiv, Nat.pow_succ, ← Nat.mul_assoc, Nat.mul_comm]
    have hkeep : 2 * r.2.toNat * (div >>> 1).toNat + r.1.toNat =
        2 * quot.toNat * div.toNat + a.toNat := by
      rw [← heq, hdouble]
      ring
    have hpos' : 0 < (div >>> 1).toNat := by omega
    have hrec := subtractOnce_spec hpos' (hdouble ▸ hlt) (hkeep ▸ hq)
    rw [← hkeep]
    exact ih hhalf (hdouble ▸ hlt) (hkeep ▸ hq) hpos' hrec.1 hrec.2

theorem udivmoddi4_total (a : DuInt) (hb : b ≠ 0) :
    Total (udivmoddi4 a b) fun r =>
      r.1.toNat = a.toNat / b.toNat ∧ r.2.toNat = a.toNat % b.toNat := by
  have hpos := toNat_pos hb
  rw [udivmoddi4, if_neg hb]
  apply Total.ite
  · intro hlt
    rw [BitVec.lt_def] at hlt
    exact .some ⟨(Nat.div_eq_of_lt hlt).symm, (Nat.mod_eq_of_lt hlt).symm⟩
  · intro hge
    apply (alignDivisor_total hb (BitVec.not_lt.mp hge)).bind
    rintro ⟨div, shift⟩ - ⟨hdiv, ha⟩
    have hfit : 2 * (0 : DuInt).toNat * div.toNat + a.toNat < 2 ^ 64 := by simpa using a.isLt
    obtain ⟨hlt, heq⟩ := subtractLoop_spec hpos hdiv ha hfit
    have heq' : _ = 0 + a.toNat := heq.trans (by simp)
    rw [Nat.zero_add, Nat.mul_comm, Nat.add_comm] at heq'
    have hdm := (Nat.div_mod_unique hpos).mpr ⟨heq', hlt⟩
    exact .pure ⟨hdm.1.symm, hdm.2.symm⟩

theorem udivdi3_total (a : DuInt) (hb : b ≠ 0) :
    Total (udivdi3 a b) fun q => q.toNat = a.toNat / b.toNat :=
  (udivmoddi4_total a hb).bind fun _ _ h => .pure h.1

theorem umoddi3_total (a : DuInt) (hb : b ≠ 0) :
    Total (umoddi3 a b) fun r => r.toNat = a.toNat % b.toNat :=
  (udivmoddi4_total a hb).bind fun _ _ h => .pure h.2

end Unsigned

/-! ## Signed division -/

section Signed

variable {a b : DuInt}

theorem uabsdi_toNat (v : DuInt) : (uabsdi v).toNat = v.toInt.natAbs := by
  have hv := v.isLt
  have hneg := BitVec.toInt_neg_iff (x := v)
  have hcond := BitVec.toInt_eq_toNat_cond v
  unfold uabsdi
  split
  case isTrue hlt =>
    have := hneg.mp hlt
    rw [if_neg (by omega)] at hcond
    have hsub : 0 - v = -v := BitVec.zero_sub v
    rw [hsub, BitVec.toNat_neg]
    omega
  case isFalse hge =>
    have := mt hneg.mpr hge
    rw [if_pos (by omega)] at hcond
    omega

theorem uabsdi_ne_zero (hb : b ≠ 0) : uabsdi b ≠ 0 := by
  intro h
  have habs := uabsdi_toNat b
  rw [h] at habs
  exact hb (BitVec.eq_of_toInt_eq (by simpa using habs.symm))

theorem eq_neg_natAbs_or (m : ℤ) :
    m < 0 ∧ m = -(m.natAbs : ℤ) ∨ ¬ m < 0 ∧ m = (m.natAbs : ℤ) := by
  omega

theorem tdiv_eq (m n : ℤ) :
    m.tdiv n = if (m < 0) ^^ (n < 0) then -((m.natAbs / n.natAbs : ℕ) : ℤ)
      else (m.natAbs / n.natAbs : ℕ) := by
  rw [Int.ofNat_tdiv]
  obtain ⟨hm, heqm⟩ | ⟨hm, heqm⟩ := eq_neg_natAbs_or m <;>
    obtain ⟨hn, heqn⟩ | ⟨hn, heqn⟩ := eq_neg_natAbs_or n <;>
    conv_lhs => rw [heqm, heqn]
  all_goals simp [hm, hn]

theorem tmod_eq (m n : ℤ) :
    m.tmod n =
      if m < 0 then -((m.natAbs % n.natAbs : ℕ) : ℤ) else (m.natAbs % n.natAbs : ℕ) := by
  rw [Int.ofNat_tmod]
  obtain ⟨hm, heqm⟩ | ⟨hm, heqm⟩ := eq_neg_natAbs_or m <;>
    obtain ⟨-, heqn⟩ | ⟨-, heqn⟩ := eq_neg_natAbs_or n <;>
    conv_lhs => rw [heqm, heqn]
  all_goals simp [hm]

theorem signed_eq_ofInt {u : DuInt} {k : ℕ} (hu : u.toNat = k) (c : Prop) [Decidable c] :
    (if c then -u else u) = BitVec.ofInt 64 (if c then -(k : ℤ) else k) := by
  have hk : u = BitVec.ofInt 64 k := by rw [BitVec.ofInt_natCast, ← hu, BitVec.ofNat_toNat]; simp
  split
  · rw [BitVec.ofInt_neg, ← hk]
  · exact hk

theorem divdi3_total (a : DuInt) (hb : b ≠ 0) :
    Total (divdi3 a b) fun q => q = BitVec.ofInt 64 (a.toInt.tdiv b.toInt) := by
  rw [divdi3, if_neg hb]
  apply (udivdi3_total (uabsdi a) (uabsdi_ne_zero hb)).bind
  rintro uq - huq
  rw [uabsdi_toNat, uabsdi_toNat] at huq
  apply Total.pure
  rw [tdiv_eq]
  exact signed_eq_ofInt huq _

theorem moddi3_total (a : DuInt) (hb : b ≠ 0) :
    Total (moddi3 a b) fun r => r = BitVec.ofInt 64 (a.toInt.tmod b.toInt) := by
  rw [moddi3, if_neg hb]
  apply (umoddi3_total (uabsdi a) (uabsdi_ne_zero hb)).bind
  rintro ur - hur
  rw [uabsdi_toNat, uabsdi_toNat] at hur
  apply Total.pure
  rw [tmod_eq]
  exact signed_eq_ofInt hur _

theorem toInt_ofInt_tmod (a : DuInt) (hb : b ≠ 0) :
    (BitVec.ofInt 64 (a.toInt.tmod b.toInt)).toInt = a.toInt.tmod b.toInt ∧
      (a.toInt.tmod b.toInt).natAbs < b.toInt.natAbs := by
  have hpos : 0 < b.toInt.natAbs := uabsdi_toNat b ▸ toNat_pos (uabsdi_ne_zero hb)
  have hlt : (a.toInt.tmod b.toInt).natAbs < b.toInt.natAbs := by
    rw [Int.natAbs_tmod]
    exact Nat.mod_lt _ hpos
  have hlow := BitVec.le_toInt b
  have hhigh := BitVec.toInt_lt (x := b)
  exact ⟨BitVec.toInt_ofInt_eq_self (by omega) (by omega) (by omega), hlt⟩

/-- A signed number is its quotient times the divisor and the remainder, as words. -/
theorem ofInt_tdiv_mul_add_tmod (a b : DuInt) :
    BitVec.ofInt 64 (a.toInt.tdiv b.toInt) * b + BitVec.ofInt 64 (a.toInt.tmod b.toInt) = a :=
  calc
    _ = BitVec.ofInt 64 (a.toInt.tdiv b.toInt) * BitVec.ofInt 64 b.toInt +
          BitVec.ofInt 64 (a.toInt.tmod b.toInt) := by rw [BitVec.ofInt_toInt (x := b)]
    _ = BitVec.ofInt 64 a.toInt := by
      rw [← BitVec.ofInt_mul, ← BitVec.ofInt_add, Int.tdiv_mul_add_tmod]
    _ = a := BitVec.ofInt_toInt

/-- Every routine returns, with the quotient and the remainder of its operands. -/
theorem divmod_correct (a : DuInt) (hb : b ≠ 0) :
    Total (udivmoddi4 a b) (fun r =>
      r.1.toNat = a.toNat / b.toNat ∧ r.2.toNat = a.toNat % b.toNat) ∧
    Total (udivdi3 a b) (fun q => q.toNat = a.toNat / b.toNat) ∧
    Total (umoddi3 a b) (fun r => r.toNat = a.toNat % b.toNat) ∧
    Total (do return (← divdi3 a b, ← moddi3 a b)) fun p =>
      p.1 = BitVec.ofInt 64 (a.toInt.tdiv b.toInt) ∧ p.2.toInt = a.toInt.tmod b.toInt ∧
        a = p.1 * b + p.2 ∧ p.2.toInt.natAbs < b.toInt.natAbs := by
  refine ⟨udivmoddi4_total a hb, udivdi3_total a hb, umoddi3_total a hb, ?_⟩
  apply (divdi3_total a hb).bind
  rintro q - rfl
  apply (moddi3_total a hb).bind
  rintro r - rfl
  obtain ⟨hself, hlt⟩ := toInt_ofInt_tmod a hb
  exact .pure ⟨rfl, hself, (ofInt_tdiv_mul_add_tmod a b).symm, hself.symm ▸ hlt⟩

/-- The least signed number divided by minus one wraps to itself. -/
theorem divmod_correct_minInt :
    Total (do return (← divdi3 (BitVec.intMin 64) (-1), ← moddi3 (BitVec.intMin 64) (-1)))
      fun p => p.1 = BitVec.intMin 64 ∧ p.2 = 0 := by
  apply (divmod_correct (b := -1) (BitVec.intMin 64) (by decide)).2.2.2.mono
  rintro ⟨q, r⟩ - ⟨hq, hr, -, -⟩
  exact ⟨hq.trans (by decide), BitVec.eq_of_toInt_eq (hr.trans (by decide))⟩

end Signed

end LampUserspace.CompilerRt
