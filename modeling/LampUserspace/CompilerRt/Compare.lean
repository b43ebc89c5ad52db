import LampUserspace.CompilerRt.Double

/-! # Comparing doubles

A comparison turns each operand into a key whose unsigned order is the order of
the numbers. Words that are no number give the result the predicate asks for, so
that every ordered predicate fails on them.
-/

namespace LampUserspace.CompilerRt
open Binary

def dfIsNan (x : Dbits) : Bool :=
  let hi := (x >>> 32).setWidth 32
  if hi &&& 0x7FF00000#32 != 0x7FF00000#32 then false
  else hi &&& 0x000FFFFF#32 != 0 || x.setWidth 32 != 0

/-- The key of an operand; the zeros share one. -/
def dfKey (u : Dbits) : Dbits :=
  let u := if u <<< 1 = 0 then 0 else u
  if u >>> 63 != 0 then ~~~u else u ^^^ dSign

def dfCmp3way (ua ub : Dbits) (nanResult : ℤ) : ℤ :=
  if dfIsNan ua || dfIsNan ub then nanResult
  else if dfKey ua < dfKey ub then -1
  else if dfKey ua > dfKey ub then 1
  else 0

def eqdf2 (a b : Dbits) : ℤ := dfCmp3way a b 1
def nedf2 (a b : Dbits) : ℤ := dfCmp3way a b 1
def ltdf2 (a b : Dbits) : ℤ := dfCmp3way a b 1
def ledf2 (a b : Dbits) : ℤ := dfCmp3way a b 1
def gtdf2 (a b : Dbits) : ℤ := dfCmp3way a b (-1)
def gedf2 (a b : Dbits) : ℤ := dfCmp3way a b (-1)
def unorddf2 (a b : Dbits) : ℤ := if dfIsNan a || dfIsNan b then 1 else 0

variable {a b x : Dbits}

theorem dfIsNan_iff (x : Dbits) : dfIsNan x = true ↔ binary64.IsNan x := by
  have hx := x.isLt
  have hhi : ((x >>> 32).setWidth 32).toNat = x.toNat / 2 ^ 32 := by
    rw [BitVec.toNat_setWidth, toNat_shiftRight, Nat.mod_eq_of_lt (by omega)]
  have hlo : (x.setWidth 32).toNat = x.toNat % 2 ^ 32 := BitVec.toNat_setWidth ..
  unfold dfIsNan
  dsimp only
  generalize (x >>> 32).setWidth 32 = hi at hhi ⊢
  generalize x.setWidth 32 = lo at hlo ⊢
  have hexp := toNat_and_field (n := 11) (k := 20) hi (m := 0x7FF00000#32) rfl
  have hfrac := toNat_and_mask (n := 20) hi (m := 0x000FFFFF#32) rfl
  have hones : (0x7FF00000#32).toNat = (2 ^ 11 - 1) * 2 ^ 20 := rfl
  rw [Format.IsNan, binary64_inf, magnitude]
  split
  case isTrue hne =>
    rw [bne_iff_ne, ne_eq, ← BitVec.toNat_inj, hexp, hones] at hne
    apply iff_of_false Bool.false_ne_true
    omega
  case isFalse heq =>
    rw [bne_iff_ne, not_not, ← BitVec.toNat_inj, hexp, hones] at heq
    rw [Bool.or_eq_true, bne_iff_ne, bne_iff_ne, ne_eq, ne_eq, eq_zero_iff_toNat,
      eq_zero_iff_toNat, hfrac]
    omega

/-- The key is the magnitude with its sign, one less for negative numbers. -/
theorem dfKey_toNat (u : Dbits) :
    ((dfKey u).toNat : ℤ) =
      2 ^ 63 + signedMagnitude u - if signedMagnitude u < 0 then 1 else 0 := by
  have hself := toNat_eq_sign_add_magnitude u (show 0 < 64 by decide)
  have hlt := magnitude_lt u
  have hshift : u <<< 1 = 0 ↔ magnitude u = 0 := by
    rw [eq_zero_iff_toNat, toNat_shiftLeft, magnitude]
    omega
  unfold dfKey
  dsimp only
  rw [ite_congr (propext hshift) (fun _ => rfl) (fun _ => rfl)]
  by_cases hzero : magnitude u = 0
  · have hsigned : signedMagnitude u = 0 := by
      rw [signedMagnitude, hzero, Nat.cast_zero, neg_zero, ite_self]
    rw [if_pos hzero, hsigned]
    rfl
  · rw [if_neg hzero, shiftRight_bne_zero_eq_msb]
    cases hmsb : u.msb with
    | true =>
      have hsigned : signedMagnitude u = -(magnitude u : ℤ) := by
        rw [signedMagnitude, hmsb, if_pos rfl]
      rw [hmsb, Bool.toNat_true] at hself
      rw [if_pos rfl, BitVec.toNat_not, hsigned, if_pos (by omega)]
      omega
    | false =>
      have hsigned : signedMagnitude u = magnitude u := by
        rw [signedMagnitude, hmsb, if_neg Bool.false_ne_true]
      obtain ⟨hsign, hmag⟩ := flip_sign u
      have hflip := toNat_eq_sign_add_magnitude (u ^^^ dSign) (show 0 < 64 by decide)
      rw [hsign, hmag, hmsb, Bool.not_false, Bool.toNat_true] at hflip
      rw [if_neg Bool.false_ne_true, hflip, hsigned, if_neg (by omega)]
      omega

theorem dfKey_lt_iff (a b : Dbits) : dfKey a < dfKey b ↔ signedMagnitude a < signedMagnitude b := by
  have ha := dfKey_toNat a
  have hb := dfKey_toNat b
  rw [BitVec.lt_def]
  split at ha <;> split at hb <;> omega

theorem dfCmp3way_spec (ha : ¬ binary64.IsNan a) (hb : ¬ binary64.IsNan b) (n : ℤ) :
    (dfCmp3way a b n = -1 ↔ binary64.extended a < binary64.extended b) ∧
      (dfCmp3way a b n = 0 ↔ binary64.extended a = binary64.extended b) ∧
      (dfCmp3way a b n = 1 ↔ binary64.extended b < binary64.extended a) := by
  have hnot : ¬ (dfIsNan a || dfIsNan b) = true := by
    rw [Bool.or_eq_true, dfIsNan_iff, dfIsNan_iff]
    exact not_or.mpr ⟨ha, hb⟩
  unfold dfCmp3way
  simp only [if_neg hnot, gt_iff_lt, dfKey_lt_iff]
  rcases lt_trichotomy (signedMagnitude a) (signedMagnitude b) with hlt | heq | hgt
  · have hext := Format.extended_lt_of_lt ha hb hlt
    rw [if_pos hlt]
    exact ⟨iff_of_true rfl hext, iff_of_false (by decide) hext.ne,
      iff_of_false (by decide) hext.not_gt⟩
  · have hext := binary64.extended_eq_of_eq heq
    rw [if_neg heq.not_lt, if_neg heq.not_gt]
    exact ⟨iff_of_false (by decide) hext.not_lt, iff_of_true rfl hext,
      iff_of_false (by decide) hext.not_gt⟩
  · have hext := Format.extended_lt_of_lt hb ha hgt
    rw [if_neg hgt.not_gt, if_pos hgt]
    exact ⟨iff_of_false (by decide) hext.not_gt, iff_of_false (by decide) hext.ne',
      iff_of_true rfl hext⟩

/-- The comparison returns the result it was given for words that are no number. -/
theorem dfCmp3way_of_nan (h : binary64.IsNan a ∨ binary64.IsNan b) (n : ℤ) :
    dfCmp3way a b n = n := by
  unfold dfCmp3way
  rw [if_pos]
  rwa [Bool.or_eq_true, dfIsNan_iff, dfIsNan_iff]

/-- The comparison is the order of the numbers; with a word that is no number every ordered
predicate fails, and the operands are unordered exactly then. -/
theorem compare_correct (a b : Dbits) :
    (¬ binary64.IsNan a ∧ ¬ binary64.IsNan b → ∀ n,
      (dfCmp3way a b n = -1 ↔ binary64.extended a < binary64.extended b) ∧
      (dfCmp3way a b n = 0 ↔ binary64.extended a = binary64.extended b) ∧
      (dfCmp3way a b n = 1 ↔ binary64.extended b < binary64.extended a)) ∧
    (binary64.IsNan a ∨ binary64.IsNan b →
      ¬ ltdf2 a b < 0 ∧ ¬ ledf2 a b ≤ 0 ∧ ¬ eqdf2 a b = 0 ∧ ¬ gtdf2 a b > 0 ∧ ¬ gedf2 a b ≥ 0 ∧
        nedf2 a b ≠ 0) ∧
    (unorddf2 a b ≠ 0 ↔ binary64.IsNan a ∨ binary64.IsNan b) := by
  refine ⟨fun h n => dfCmp3way_spec h.1 h.2 n, fun h => ?_, ?_⟩
  · unfold ltdf2 ledf2 eqdf2 gtdf2 gedf2 nedf2
    simp only [dfCmp3way_of_nan h]
    decide
  · rw [← dfIsNan_iff, ← dfIsNan_iff, ← Bool.or_eq_true, unorddf2]
    split
    case isTrue h => exact iff_of_true (by decide) h
    case isFalse h => exact iff_of_false (by decide) h

end LampUserspace.CompilerRt
