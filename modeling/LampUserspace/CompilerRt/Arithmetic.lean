import LampUserspace.CompilerRt.Normalizer

/-! # Addition, subtraction, multiplication and division of doubles

Every operation unpacks its operands, settles the special cases and zeros, forms
the exact result in a window with a flag for what lies below it, and leaves the
rounding to the packer.
-/

namespace LampUserspace.CompilerRt
open Binary

/-! ## The operations -/

/-- The significand of the smaller operand, shifted to the exponent of the larger one, and the
flag for what falls off. -/
def alignLow (bl : Dbits) (align : ℤ) : Dbits × Bool :=
  if align ≥ 64 then (0, bl != 0)
  else if align > 0 then (bl >>> align.toNat, bl &&& lowMask align.toNat != 0)
  else (bl, false)

/-- Operands of one sign: the high word keeps a carry. -/
def addSame (rs : Bool) (ga bl : Dbits) (e : ℤ) (sExtra : Bool) : Option Dbits :=
  let tl := ga + bl
  let th := if tl < ga then 1 else 0
  dfNormPack128 rs th tl e sExtra

/-- Operands of opposite signs: the dropped tail of the smaller one borrows from the difference. -/
def addOpposite (rs : Bool) (ga bl : Dbits) (e : ℤ) (sExtra : Bool) : Option Dbits :=
  let tl := ga - bl
  let borrow := sExtra && tl != 0
  let resZero := decide (ga < bl) || !borrow && tl == 0
  let tl := if borrow then tl - 1 else tl
  if resZero then some 0
  else dfNormPack128 rs 0 tl e sExtra

/-- The sum of two nonzero finite numbers of which `a` is at least as large as `b`; `larger` is
the encoding of `a`. -/
def addAligned (a b : Unpacked) (larger : Dbits) : Option Dbits :=
  let align := a.exp - b.exp
  if align > 122 then some larger
  else
    let (bl, sExtra) := alignLow (b.sig <<< 6) align
    if a.sign = b.sign then addSame a.sign (a.sig <<< 6) bl (a.exp - 6) sExtra
    else addOpposite a.sign (a.sig <<< 6) bl (a.exp - 6) sExtra

def adddf3 (a b : Dbits) : Option Dbits := do
  let ua ← dfUnpack a
  let ub ← dfUnpack b
  if ua.exp = 0x7FFF then
    if ua.sig ≠ 0 then return a ||| dQuiet
    else if ub.exp = 0x7FFF ∧ ub.sign ≠ ua.sign then return dExp ||| dQuiet
    else return a
  else if ub.exp = 0x7FFF then
    if ub.sig ≠ 0 then return b ||| dQuiet
    else return b
  else if ua.zero then
    if ub.zero then return signWord (ua.sign && ub.sign)
    else return b
  else if ub.zero then return a
  else if ua.exp < ub.exp ∨ ua.exp = ub.exp ∧ ua.sig < ub.sig then addAligned ub ua b
  else addAligned ua ub a

def subdf3 (a b : Dbits) : Option Dbits := adddf3 a (b ^^^ dSign)

/-- One round of the product: shift the accumulator, then add `a` for a set top bit of `b`. -/
def umulStep (a : Dbits) (s : Dbits × Dbits × Dbits) : Dbits × Dbits × Dbits :=
  let (h, l, b) := s
  let nh := h <<< 1 ||| l >>> 63
  let nl := l <<< 1
  if b >>> 63 &&& 1 != 0 then
    let sum := nl + a
    (if sum < nl then nh + 1 else nh, sum, b <<< 1)
  else (nh, nl, b <<< 1)

/-- The 128-bit product, high word first. -/
def dfUmul128 (a b : Dbits) : Dbits × Dbits :=
  let (h, l, _) := (umulStep a)^[64] (0, 0, b)
  (h, l)

def muldf3 (a b : Dbits) : Option Dbits := do
  let ua ← dfUnpack a
  let ub ← dfUnpack b
  let rs := ua.sign ^^ ub.sign
  if ua.exp = 0x7FFF ∨ ub.exp = 0x7FFF then
    if ua.exp = 0x7FFF ∧ ua.sig ≠ 0 ∨ ub.exp = 0x7FFF ∧ ub.sig ≠ 0 then return dExp ||| dQuiet
    else if ua.exp = 0x7FFF ∧ ub.zero ∨ ub.exp = 0x7FFF ∧ ua.zero then return dExp ||| dQuiet
    else return signWord rs ||| dExp
  else if ua.zero || ub.zero then return signWord rs
  else
    let (hi, lo) := dfUmul128 ua.sig ub.sig
    dfNormPack128 rs hi lo (ua.exp + ub.exp) false

/-- The restoring division from bit `i - 1` down to bit 0: the quotient and the remainder. -/
def divLoop (mb : Dbits) : ℕ → Dbits → Dbits → Dbits × Dbits
  | 0, q, r => (q, r)
  | i + 1, q, r =>
    let r := r <<< 1
    if mb ≤ r then divLoop mb i (q ||| 1#64 <<< i) (r - mb) else divLoop mb i q r

def divdf3 (a b : Dbits) : Option Dbits := do
  let ua ← dfUnpack a
  let ub ← dfUnpack b
  let rs := ua.sign ^^ ub.sign
  if ua.exp = 0x7FFF ∨ ub.exp = 0x7FFF then
    if ua.exp = 0x7FFF ∧ ua.sig ≠ 0 ∨ ub.exp = 0x7FFF ∧ ub.sig ≠ 0 then return dExp ||| dQuiet
    else if ua.exp = 0x7FFF then
      if ub.exp = 0x7FFF then return dExp ||| dQuiet
      else return signWord rs ||| dExp
    else if !ub.zero then return signWord rs
    else return dExp ||| dQuiet
  else if ub.zero then
    if ua.zero then return dExp ||| dQuiet
    else return signWord rs ||| dExp
  else if ua.zero then return signWord rs
  else
    let (q, r) :=
      if ub.sig ≤ ua.sig then divLoop ub.sig 54 (1#64 <<< 54) (ua.sig - ub.sig)
      else divLoop ub.sig 54 0 ua.sig
    dfNormPack rs q (ua.exp - ub.exp - 54) false (r != 0)

/-! ## Addition -/

section Addition

variable {a b bl : Dbits} {ua ub : Unpacked} {k : ℕ}

theorem alignLow_eq (bl : Dbits) (k : ℕ) :
    (alignLow bl k).1.toNat = bl.toNat / 2 ^ k ∧
      (alignLow bl k).2 = decide (bl.toNat % 2 ^ k ≠ 0) := by
  unfold alignLow
  split
  · have hlt : bl.toNat < 2 ^ k :=
      bl.isLt.trans_le (Nat.pow_le_pow_right Nat.two_pos (by omega))
    have hbne : (bl != 0) = decide (bl.toNat ≠ 0) := by
      rw [Bool.eq_iff_iff, bne_iff_ne, decide_eq_true_eq, ne_eq, eq_zero_iff_toNat]
    rw [Nat.div_eq_of_lt hlt, Nat.mod_eq_of_lt hlt]
    exact ⟨rfl, hbne⟩
  · split
    · rw [Int.toNat_natCast]
      exact ⟨toNat_shiftRight bl k, and_lowMask_bne_zero bl (by omega)⟩
    · obtain rfl : k = 0 := by omega
      simp [Nat.mod_one]

/-- What the significands of two unpacked numbers are, seen from the larger one. -/
structure Aligned (ua ub : Unpacked) (ga : Dbits) (low : Dbits × Bool) : Prop where
  ga_ge : 2 ^ 58 ≤ ga.toNat
  ga_lt : ga.toNat < 2 ^ 59
  low_le : low.1.toNat ≤ ga.toNat
  low_lt : low.2 = true → low.1.toNat < 2 ^ 52
  larger_eq : ua.sig.toNat * (2 : ℚ) ^ ua.exp = ga.toNat * (2 : ℚ) ^ (ua.exp - 6)
  framed : Framed (ub.sig.toNat * (2 : ℚ) ^ ub.exp) (ua.exp - 6) low.1.toNat low.2

theorem toNat_shiftLeft_six (ha : ua.sig.toNat < 2 ^ 53) :
    (ua.sig <<< 6).toNat = ua.sig.toNat * 2 ^ 6 :=
  toNat_shiftLeft_of_lt (by omega)

theorem mul_two_zpow_eq (m : ℕ) (e : ℤ) :
    m * (2 : ℚ) ^ e = (m * 2 ^ 6 : ℕ) * (2 : ℚ) ^ (e - 6) := by
  have hscale := two_zpow_add (e - 6) 6
  rw [Nat.cast_ofNat, sub_add_cancel] at hscale
  rw [hscale]
  push_cast
  ring

theorem aligned_of_le (hage : 2 ^ 52 ≤ ua.sig.toNat) (halt : ua.sig.toNat < 2 ^ 53)
    (hblt : ub.sig.toNat < 2 ^ 53) (hk : ua.exp = ub.exp + k)
    (hle : k = 0 → ub.sig.toNat ≤ ua.sig.toNat) :
    Aligned ua ub (ua.sig <<< 6) (alignLow (ub.sig <<< 6) k) := by
  have hga := toNat_shiftLeft_six halt
  have hbl := toNat_shiftLeft_six hblt
  obtain ⟨hlow, hflag⟩ := alignLow_eq (ub.sig <<< 6) k
  rw [hbl] at hlow hflag
  have hframe := (Framed.exact (ub.sig.toNat * 2 ^ 6) (ub.exp - 6)).shift k
  rw [← mul_two_zpow_eq, Bool.false_or, ← hlow, ← hflag,
    show ub.exp - 6 + k = ua.exp - 6 by omega] at hframe
  refine ⟨by omega, by omega, ?_, ?_, hga.symm ▸ mul_two_zpow_eq _ _, hframe⟩
  · rw [hlow, hga]
    rcases Nat.eq_zero_or_pos k with rfl | hpos
    · have := hle rfl
      omega
    · have hpow : 2 ≤ 2 ^ k := Nat.le_self_pow (by omega) 2
      have hhalf := Nat.div_le_div_left (a := ub.sig.toNat * 2 ^ 6) hpow Nat.two_pos
      omega
  · intro hset
    rw [hflag, decide_eq_true_eq] at hset
    -- the six low bits are clear, so only a longer shift drops something
    have hk6 : 7 ≤ k := by
      by_contra hsmall
      exact hset (Nat.mod_eq_zero_of_dvd
        ((Nat.pow_dvd_pow 2 (show k ≤ 6 by omega)).trans (Nat.dvd_mul_left _ _)))
    have hpow : 2 ^ 7 ≤ 2 ^ k := Nat.pow_le_pow_right Nat.two_pos hk6
    have hsmall := Nat.div_le_div_left (a := ub.sig.toNat * 2 ^ 6) hpow (Nat.two_pow_pos 7)
    rw [hlow]
    omega

/-- Far below the larger operand, the smaller one does not change the rounding. -/
theorem far_rounds (ha : UnpacksFinite a ua) (hfin : binary64.IsFinite a) (hz : ua.zero = false)
    (hexp : -1127 < ub.exp) (hblt : ub.sig.toNat < 2 ^ 53) (hfar : 122 < ua.exp - ub.exp) {x : ℚ}
    (hx : |x - binary64.value (magnitude a)| = ub.sig.toNat * (2 : ℚ) ^ ub.exp) :
    binary64.Rounds ua.sign x a := by
  refine ⟨ha.sign_eq.symm, Format.nearestEven_of_abs_sub_lt hfin ?_⟩
  obtain ⟨k, hk⟩ : ∃ k : ℕ, ua.exp = ub.exp + 123 + k := ⟨(ua.exp - ub.exp - 123).toNat, by omega⟩
  have hu := two_zpow_pos ub.exp
  have hsig : (ub.sig.toNat : ℚ) < 2 ^ 53 := by exact_mod_cast hblt
  have hpow : (1 : ℚ) ≤ 2 ^ k := one_le_pow₀ one_le_two
  have hscale := two_zpow_add ub.exp 123
  rw [hx, ha.exponent_eq hz (by omega), hk, two_zpow_add, show (123 : ℤ) = (123 : ℕ) by rfl, hscale]
  nlinarith

/-- The result of adding two nonzero numbers, the larger first: with opposite signs equal
magnitudes cancel to zero. -/
structure AddsTo (sa sb : Bool) (va vb : ℚ) (r : Dbits) : Prop where
  same : sa = sb → binary64.Rounds sa (va + vb) r
  cancel : sa ≠ sb → va = vb → r = 0
  opposite : sa ≠ sb → va ≠ vb → binary64.Rounds sa (va - vb) r

section Pair

variable (ha : UnpacksFinite a ua) (hb : UnpacksFinite b ub) (haz : ua.zero = false)
  (hbz : ub.zero = false)

include hb hbz in
theorem value_pos_of_unpacked : 0 < binary64.value (magnitude b) := by
  have hge := hb.sig_ge hbz
  rw [hb.value_eq hbz]
  exact mul_pos (Nat.cast_pos.mpr (by omega)) (two_zpow_pos _)

include ha hb haz hbz in
theorem value_lt_of_exp_lt (h : ub.exp < ua.exp) :
    binary64.value (magnitude b) < binary64.value (magnitude a) := by
  have hu := two_zpow_pos ub.exp
  have hage : (2 ^ 52 : ℚ) ≤ ua.sig.toNat := by exact_mod_cast ha.sig_ge haz
  have hblt : (ub.sig.toNat : ℚ) < 2 ^ 53 := by exact_mod_cast hb.sig_lt hbz
  have hpow : (2 : ℚ) ^ (ub.exp + 1) ≤ 2 ^ ua.exp := zpow_le_zpow_right₀ one_le_two (by omega)
  rw [two_zpow_succ] at hpow
  rw [ha.value_eq haz, hb.value_eq hbz]
  calc
    ub.sig.toNat * (2 : ℚ) ^ ub.exp < 2 ^ 53 * 2 ^ ub.exp := mul_lt_mul_of_pos_right hblt hu
    _ = 2 ^ 52 * (2 * 2 ^ ub.exp) := by ring
    _ ≤ ua.sig.toNat * 2 ^ ua.exp := mul_le_mul hage hpow (by positivity) (by positivity)

/-- The order in which the operands are added. -/
def Larger (ua ub : Unpacked) : Prop :=
  ub.exp < ua.exp ∨ ub.exp = ua.exp ∧ ub.sig.toNat ≤ ua.sig.toNat

include ha hb haz hbz in
theorem value_le_of_larger (h : Larger ua ub) :
    binary64.value (magnitude b) ≤ binary64.value (magnitude a) := by
  rcases h with hlt | ⟨heq, hsig⟩
  · exact (value_lt_of_exp_lt ha hb haz hbz hlt).le
  · rw [ha.value_eq haz, hb.value_eq hbz, heq]
    exact mul_le_mul_of_nonneg_right (Nat.cast_le.mpr hsig) (two_zpow_pos _).le

section Windows

variable {ga bl : Dbits} {s sign : Bool} {va vb : ℚ} {e : ℤ}

theorem addSame_normalizable (hge : 2 ^ 58 ≤ ga.toNat) (hlt : ga.toNat < 2 ^ 59)
    (hlow : bl.toNat ≤ ga.toNat) (hva : va = ga.toNat * (2 : ℚ) ^ e)
    (hvb : Framed vb e bl.toNat s) :
    Normalizable (va + vb) ⟨sign, if ga + bl < ga then 1 else 0, ga + bl, e, s⟩ := by
  have hsum : (ga + bl).toNat = ga.toNat + bl.toNat := BitVec.toNat_add_of_lt (by omega)
  have hcarry : ¬ ga + bl < ga := by
    rw [BitVec.lt_def, hsum]
    omega
  rw [if_neg hcarry]
  apply Normalizable.low <;> rw [hsum]
  · rw [hva]
    exact hvb.point_add _
  · omega
  · omega

theorem addSame_total (hge : 2 ^ 58 ≤ ga.toNat) (hlt : ga.toNat < 2 ^ 59)
    (hlow : bl.toNat ≤ ga.toNat) (hva : va = ga.toNat * (2 : ℚ) ^ e)
    (hvb : Framed vb e bl.toNat s) :
    Total (addSame sign ga bl e s) (binary64.Rounds sign (va + vb)) :=
  norm_rounds (addSame_normalizable hge hlt hlow hva hvb)

/-- The window of a difference, one less where the dropped tail borrows; it is empty exactly for
equal magnitudes. -/
theorem addOpposite_normalizable (hge : 2 ^ 58 ≤ ga.toNat) (hlt : ga.toNat < 2 ^ 59)
    (hlow : bl.toNat ≤ ga.toNat) (htail : s = true → bl.toNat < 2 ^ 52)
    (hva : va = ga.toNat * (2 : ℚ) ^ e) (hvb : Framed vb e bl.toNat s) :
    (decide (ga < bl) || !(s && ga - bl != 0) && ga - bl == 0) = true ∧ va = vb ∨
      (decide (ga < bl) || !(s && ga - bl != 0) && ga - bl == 0) = false ∧ va ≠ vb ∧
        Normalizable (va - vb)
          ⟨sign, 0, if s && ga - bl != 0 then ga - bl - 1 else ga - bl, e, s⟩ := by
  have hsub : (ga - bl).toNat = ga.toNat - bl.toNat := BitVec.toNat_sub_of_le hlow
  have hnot : ¬ ga < bl := by
    rw [BitVec.lt_def]
    omega
  have hframe := hvb.point_sub (p := ga.toNat)
  rw [← hva] at hframe
  rw [decide_eq_false hnot, Bool.false_or]
  cases s with
  | true =>
    have hsmall := htail rfl
    have htail' := hframe (by rw [Bool.toNat_true]; omega)
    have hne : (ga - bl != 0) = true := by
      rw [bne_iff_ne, ne_eq, eq_zero_iff_toNat]
      omega
    have hdec : (ga - bl - 1).toNat = ga.toNat - (bl.toNat + true.toNat) := by
      have hone : (1 : Dbits).toNat = true.toNat := rfl
      rw [BitVec.toNat_sub_of_le (by rw [BitVec.le_def, hone, Bool.toNat_true]; omega), hsub, hone,
        Nat.sub_sub]
    have hlt' : vb < va := by
      have hpoint := htail'.sticky_iff.mp rfl
      have hnonneg : (0 : ℚ) ≤ (ga.toNat - (bl.toNat + true.toNat) : ℕ) * (2 : ℚ) ^ e :=
        mul_nonneg (Nat.cast_nonneg _) (two_zpow_pos e).le
      linarith
    rw [hne, Bool.and_self, if_pos (rfl : true = true)]
    rw [← hdec] at htail'
    rw [Bool.toNat_true] at hdec
    exact Or.inr ⟨rfl, hlt'.ne', .low htail' (by omega) (fun _ => by omega)⟩
  | false =>
    have hexact := hvb.eq_of_not_sticky
    have hdiff := hframe hlow
    rw [Bool.toNat_false, Nat.add_zero, ← hsub] at hdiff
    rw [Bool.false_and, Bool.not_false, Bool.true_and]
    by_cases hzero : ga - bl = 0
    · have hnat := eq_zero_iff_toNat.mp hzero
      exact Or.inl ⟨beq_iff_eq.mpr hzero, by rw [hva, hexact, show ga.toNat = bl.toNat by omega]⟩
    · refine Or.inr ⟨beq_eq_false_iff_ne.mpr hzero, fun heq => ?_,
        .low hdiff ?_ fun h => absurd h Bool.false_ne_true⟩
      · rw [hva, hexact] at heq
        have hcast := Nat.cast_injective (mul_right_cancel₀ (two_zpow_pos e).ne' heq)
        rw [eq_zero_iff_toNat] at hzero
        omega
      · exact Nat.pos_of_ne_zero (mt eq_zero_iff_toNat.mpr hzero)

theorem addOpposite_total (hge : 2 ^ 58 ≤ ga.toNat) (hlt : ga.toNat < 2 ^ 59)
    (hlow : bl.toNat ≤ ga.toNat) (htail : s = true → bl.toNat < 2 ^ 52)
    (hva : va = ga.toNat * (2 : ℚ) ^ e) (hvb : Framed vb e bl.toNat s) :
    Total (addOpposite sign ga bl e s) fun r =>
      (va = vb → r = 0) ∧ (va ≠ vb → binary64.Rounds sign (va - vb) r) := by
  unfold addOpposite
  dsimp only
  rcases addOpposite_normalizable hge hlt hlow htail hva hvb with ⟨hzero, heq⟩ | ⟨hzero, hne, h⟩
  · rw [if_pos hzero]
    exact .some ⟨fun _ => rfl, fun hne => absurd heq hne⟩
  · rw [if_neg (Bool.eq_false_iff.mp hzero)]
    apply (norm_rounds h).mono
    rintro r - hr
    exact ⟨fun heq => absurd heq hne, fun _ => hr⟩

end Windows

include ha hb haz hbz in
theorem addAligned_total (hfin : binary64.IsFinite a) (hle : Larger ua ub) :
    Total (addAligned ua ub a)
      (AddsTo ua.sign ub.sign (binary64.value (magnitude a)) (binary64.value (magnitude b))) := by
  have hvb := hb.value_eq hbz
  have hvb0 := value_pos_of_unpacked hb hbz
  obtain ⟨k, hk⟩ : ∃ k : ℕ, ua.exp = ub.exp + k :=
    ⟨(ua.exp - ub.exp).toNat, by unfold Larger at hle; omega⟩
  unfold addAligned
  dsimp only
  apply Total.ite
  · intro hfar
    have hround : ∀ x : ℚ, |x - binary64.value (magnitude a)| = binary64.value (magnitude b) →
        binary64.Rounds ua.sign x a := fun x hx =>
      far_rounds ha hfin haz hb.lt_exp (hb.sig_lt hbz) hfar (hx.trans hvb)
    have hne := (value_lt_of_exp_lt ha hb haz hbz (by omega)).ne'
    refine .some ⟨fun _ => hround _ ?_, fun _ heq => absurd heq hne, fun _ _ => hround _ ?_⟩
    · rw [add_sub_cancel_left, abs_of_pos hvb0]
    · rw [sub_sub_cancel_left, abs_neg, abs_of_pos hvb0]
  · intro hnear
    have hal := aligned_of_le (ha.sig_ge haz) (ha.sig_lt haz) (hb.sig_lt hbz) hk
      (by unfold Larger at hle; omega)
    have hva := (ha.value_eq haz).trans hal.larger_eq
    rw [show ua.exp - ub.exp = k by omega]
    apply Total.ite
    · intro hsame
      apply (addSame_total hal.ga_ge hal.ga_lt hal.low_le hva (hvb.symm ▸ hal.framed)).mono
      rintro r - hr
      exact ⟨fun _ => hr, fun hne => absurd hsame hne, fun hne => absurd hsame hne⟩
    · intro hdiff
      apply (addOpposite_total hal.ga_ge hal.ga_lt hal.low_le hal.low_lt hva
        (hvb.symm ▸ hal.framed)).mono
      rintro r - ⟨hzero, hr⟩
      exact ⟨fun hsame => absurd hsame hdiff, fun _ => hzero, fun _ => hr⟩

end Pair

/-- The exact number `x` is rounded with its sign, and with the sign given when it is zero. -/
structure SumRounded (x : ℚ) (zeroSign : Bool) (r : Dbits) : Prop where
  nearest : binary64.NearestEven |x| (magnitude r)
  neg : x < 0 → r.msb = true
  pos : 0 < x → r.msb = false
  zero : x = 0 → r.msb = zeroSign

theorem signedValue_eq (x : Dbits) :
    binary64.signedValue x = if x.msb then -binary64.value (magnitude x)
      else binary64.value (magnitude x) := rfl

theorem signedValue_eq_value {x : Dbits} (h : x.msb = false) :
    binary64.signedValue x = binary64.value (magnitude x) := by
  rw [signedValue_eq, h, if_neg Bool.false_ne_true]

theorem SumRounded.of_rounds {sign zeroSign : Bool} {y : ℚ} {r : Dbits} (hy : 0 < y)
    (h : binary64.Rounds sign y r) : SumRounded (if sign then -y else y) zeroSign r := by
  obtain ⟨hmsb, hnear⟩ := h
  cases sign with
  | true =>
    rw [if_pos rfl]
    refine ⟨?_, fun _ => hmsb, fun hpos => ?_, fun hzero => ?_⟩
    · rwa [abs_neg, abs_of_pos hy]
    · linarith
    · linarith
  | false =>
    rw [if_neg Bool.false_ne_true]
    refine ⟨?_, fun hneg => ?_, fun _ => hmsb, fun hzero => ?_⟩
    · rwa [abs_of_pos hy]
    · linarith
    · linarith

theorem SumRounded.of_addsTo {r : Dbits}
    (hpos : 0 < binary64.value (magnitude b))
    (hle : binary64.value (magnitude b) ≤ binary64.value (magnitude a))
    (h : AddsTo a.msb b.msb (binary64.value (magnitude a)) (binary64.value (magnitude b)) r) :
    SumRounded (binary64.signedValue a + binary64.signedValue b) (a.msb && b.msb) r := by
  rw [signedValue_eq, signedValue_eq]
  generalize binary64.value (magnitude a) = va at *
  generalize binary64.value (magnitude b) = vb at *
  rcases eq_or_ne a.msb b.msb with hsame | hdiff
  · have hx : (if a.msb then -va else va) + (if b.msb then -vb else vb) =
        if a.msb then -(va + vb) else va + vb := by
      rw [← hsame]
      split
      · ring
      · rfl
    rw [hx]
    exact .of_rounds (by linarith) (h.same hsame)
  · have hx : (if a.msb then -va else va) + (if b.msb then -vb else vb) =
        if a.msb then -(va - vb) else va - vb := by
      cases ha : a.msb <;> cases hb : b.msb <;> simp_all <;> ring
    rw [hx]
    rcases eq_or_ne va vb with heq | hne
    · obtain rfl := h.cancel hdiff heq
      have hsign : (a.msb && b.msb) = false := by
        cases ha : a.msb <;> cases hb : b.msb <;> simp_all
      rw [heq, sub_self, neg_zero, ite_self, hsign]
      refine ⟨?_, fun h => absurd h (lt_irrefl _), fun h => absurd h (lt_irrefl _), fun _ => rfl⟩
      rw [abs_zero]
      exact Format.NearestEven.zero_iff.mpr rfl
    · exact .of_rounds (sub_pos.mpr (lt_of_le_of_ne hle hne.symm)) (h.opposite hdiff hne)

theorem SumRounded.swap {x y : ℚ} {r : Dbits} (h : SumRounded (x + y) (a.msb && b.msb) r) :
    SumRounded (y + x) (b.msb && a.msb) r := by
  rwa [add_comm, Bool.and_comm]

theorem SumRounded.self {zeroSign : Bool} (ha : binary64.IsFinite a) (hne : magnitude a ≠ 0) :
    SumRounded (binary64.signedValue a) zeroSign a := by
  have hpos : 0 < binary64.value (magnitude a) := by
    rw [← Format.value_zero binary64]
    exact binary64.value_strictMono (Nat.pos_of_ne_zero hne)
  rw [signedValue_eq]
  exact .of_rounds hpos ⟨rfl, .of_value ha⟩

theorem SumRounded.signWord (sign : Bool) : SumRounded 0 sign (signWord sign) := by
  obtain ⟨hmsb, hmag⟩ := sign_magnitude_of_toNat (k := 0) (show 0 < 64 by decide)
    (by rw [toNat_signWord, Nat.add_zero]) (Nat.two_pow_pos _)
  refine ⟨?_, fun h => absurd h (lt_irrefl _), fun h => absurd h (lt_irrefl _), fun _ => hmsb⟩
  rw [abs_zero]
  exact Format.NearestEven.zero_iff.mpr hmag

theorem adddf3_total (ha : binary64.IsFinite a) (hb : binary64.IsFinite b) :
    Total (adddf3 a b)
      (SumRounded (binary64.signedValue a + binary64.signedValue b) (a.msb && b.msb)) := by
  unfold adddf3
  apply (dfUnpack_finite ha).bind
  rintro ua - hua
  apply (dfUnpack_finite hb).bind
  rintro ub - hub
  have hea := hua.exp_le
  have heb := hub.exp_le
  rw [if_neg (by omega), if_neg (by omega)]
  apply Total.ite
  · intro haz
    rw [Format.signedValue_eq_zero (hua.zero_iff.mp haz), zero_add]
    apply Total.ite
    · intro hbz
      rw [Format.signedValue_eq_zero (hub.zero_iff.mp hbz), hua.sign_eq, hub.sign_eq]
      exact .pure (.signWord _)
    · intro hbz
      exact .pure (.self hb (mt hub.zero_iff.mpr hbz))
  · intro haz
    apply Total.ite
    · intro hbz
      rw [Format.signedValue_eq_zero (hub.zero_iff.mp hbz), add_zero]
      exact .pure (.self ha (mt hua.zero_iff.mpr haz))
    · intro hbz
      rw [Bool.not_eq_true] at haz hbz
      apply Total.ite
      · intro hswap
        have hlarger : Larger ub ua := hswap.imp id fun h => ⟨h.1, (BitVec.lt_def.mp h.2).le⟩
        apply (addAligned_total hub hua hbz haz hb hlarger).mono
        rintro r - hr
        rw [hua.sign_eq, hub.sign_eq] at hr
        exact (SumRounded.of_addsTo (value_pos_of_unpacked hua haz)
          (value_le_of_larger hub hua hbz haz hlarger) hr).swap
      · intro hkeep
        rw [BitVec.lt_def] at hkeep
        have hlarger : Larger ua ub := by
          unfold Larger
          omega
        apply (addAligned_total hua hub haz hbz ha hlarger).mono
        rintro r - hr
        rw [hua.sign_eq, hub.sign_eq] at hr
        exact .of_addsTo (value_pos_of_unpacked hub hbz)
          (value_le_of_larger hua hub haz hbz hlarger) hr

/-- Addition and subtraction round the exact result. -/
theorem add_sub_rounded (a b : Dbits) (ha : binary64.IsFinite a) (hb : binary64.IsFinite b) :
    Total (adddf3 a b)
      (SumRounded (binary64.signedValue a + binary64.signedValue b) (a.msb && b.msb)) ∧
    Total (subdf3 a b)
      (SumRounded (binary64.signedValue a - binary64.signedValue b) (a.msb && !b.msb)) := by
  obtain ⟨hsign, hmag⟩ := flip_sign b
  have hneg : binary64.signedValue (b ^^^ dSign) = -binary64.signedValue b := by
    rw [signedValue_eq, signedValue_eq, hsign, hmag]
    cases b.msb <;> simp
  have hb' : binary64.IsFinite (b ^^^ dSign) := by rwa [Format.IsFinite, hmag]
  refine ⟨adddf3_total ha hb, ?_⟩
  have hsub := adddf3_total ha hb'
  rwa [hneg, ← sub_eq_add_neg, hsign] at hsub

/-- A halfway sum goes to the even neighbour, and the difference is exact. -/
theorem add_sub_rounded_halfway :
    Total (adddf3 0x3FF0000000000000 0x3CA0000000000000) (· = 0x3FF0000000000000) ∧
      Total (subdf3 0x3FF0000000000000 0x3CA0000000000000) (· = 0x3FEFFFFFFFFFFFFF) := by
  have hone : binary64.signedValue (0x3FF0000000000000 : Dbits) = 1 := by
    rw [signedValue_eq_value (by decide), value_of_magnitude (j := 1022) (n := 2 ^ 52) (by decide)
      (by decide) (by decide)]
    norm_num
  have hstep : binary64.signedValue (0x3CA0000000000000 : Dbits) = 2 ^ (-53 : ℤ) := by
    rw [signedValue_eq_value (by decide), value_of_magnitude (j := 969) (n := 2 ^ 52) (by decide)
      (by decide) (by decide)]
    norm_num
  obtain ⟨hadd, hsub⟩ := add_sub_rounded 0x3FF0000000000000 0x3CA0000000000000 (by decide)
    (by decide)
  rw [hone, hstep] at hadd hsub
  constructor
  · apply hadd.mono
    rintro r - hr
    -- the sum lies halfway between two points of its binade
    have hnear := Format.nearestEven_of_framed (F := binary64) (j := 1022) (q := 2 ^ 52) (g := true)
      (Framed.exact (2 * 2 ^ 52 + 1) (-1074 + 1022 - 1)) (by decide) (by decide)
    have hsum : ((2 * 2 ^ 52 + 1 : ℕ) : ℚ) * 2 ^ (-1074 + 1022 - 1 : ℤ) = |1 + 2 ^ (-53 : ℤ)| := by
      norm_num
    rw [hsum] at hnear
    exact eq_of_sign_magnitude (by decide) (hr.pos (by positivity)) (hr.nearest.unique hnear)
  · apply hsub.mono
    rintro r - hr
    have hnear := Format.NearestEven.of_value (F := binary64)
      (show magnitude (0x3FEFFFFFFFFFFFFF : Dbits) < binary64.inf by decide)
    have hdiff : binary64.value (magnitude (0x3FEFFFFFFFFFFFFF : Dbits)) = |1 - 2 ^ (-53 : ℤ)| := by
      rw [value_of_magnitude (j := 1021) (n := 2 ^ 53 - 1) (by decide) (by decide) (by decide)]
      norm_num
    rw [hdiff] at hnear
    exact eq_of_sign_magnitude (by decide) (hr.pos (by norm_num)) (hr.nearest.unique hnear)

end Addition

/-! ## Multiplication -/

section Multiplication

variable {a b h l : Dbits}

/-- A round doubles the accumulator and adds `a` for a set top bit. -/
theorem umulStep_spec
    (hfit : 2 * (h.toNat * 2 ^ 64 + l.toNat) + a.toNat * (b.toNat / 2 ^ 63) < 2 ^ 128) :
    (umulStep a (h, l, b)).1.toNat * 2 ^ 64 + (umulStep a (h, l, b)).2.1.toNat =
        2 * (h.toNat * 2 ^ 64 + l.toNat) + a.toNat * (b.toNat / 2 ^ 63) ∧
      (umulStep a (h, l, b)).2.2.toNat = b.toNat * 2 % 2 ^ 64 := by
  have hl := l.isLt
  have hb := b.isLt
  have hupper : (h <<< 1).toNat = 2 * h.toNat := by
    rw [toNat_shiftLeft_of_lt (by omega), Nat.pow_one, Nat.mul_comm]
  have hhigh : (h <<< 1 ||| l >>> 63).toNat = 2 * h.toNat + l.toNat / 2 ^ 63 := by
    have hcarry := toNat_shiftRight l 63
    rw [toNat_or_of_dvd (n := 1) ⟨h.toNat, hupper⟩ (by omega), hupper, hcarry]
  have hlow : (l <<< 1).toNat = 2 * l.toNat % 2 ^ 64 := by
    rw [toNat_shiftLeft, Nat.pow_one, Nat.mul_comm]
  have hnext : (b <<< 1).toNat = b.toNat * 2 % 2 ^ 64 := by rw [toNat_shiftLeft, Nat.pow_one]
  have hbit : (b >>> 63 &&& 1 != 0) = decide (b.toNat / 2 ^ 63 = 1) := by
    rw [shiftRight_and_one_bne_zero b 63 (by decide), Nat.mod_eq_of_lt (by omega)]
  unfold umulStep
  dsimp only
  rw [hbit]
  generalize h <<< 1 ||| l >>> 63 = nh at hhigh ⊢
  generalize l <<< 1 = nl at hlow ⊢
  split
  case isTrue hset =>
    rw [decide_eq_true_eq] at hset
    rw [hset, Nat.mul_one] at hfit ⊢
    have ha := a.isLt
    have hsum := BitVec.toNat_add nl a
    have hinc : (nh + 1).toNat = (nh.toNat + 1) % 2 ^ 64 := BitVec.toNat_add nh 1
    refine ⟨?_, hnext⟩
    dsimp only
    split
    case isTrue hlt =>
      rw [BitVec.lt_def] at hlt
      omega
    case isFalse hge =>
      rw [BitVec.lt_def] at hge
      omega
  case isFalse hclear =>
    rw [decide_eq_true_eq] at hclear
    have hzero : b.toNat / 2 ^ 63 = 0 := by omega
    rw [hzero, Nat.mul_zero]
    refine ⟨?_, hnext⟩
    dsimp only
    omega

theorem top_bit_of_shifted (n : ℕ) {i : ℕ} (hi : i < 64) :
    n * 2 ^ i % 2 ^ 64 / 2 ^ 63 = n / 2 ^ (63 - i) % 2 := by
  obtain ⟨j, hj⟩ := Nat.exists_eq_add_of_le (show i ≤ 63 by omega)
  have h63 : 2 ^ 63 = 2 ^ j * 2 ^ i := by rw [← Nat.pow_add, Nat.add_comm, ← hj]
  have h64 : 2 ^ 64 = 2 * 2 ^ j * 2 ^ i := by rw [Nat.mul_assoc, ← h63, ← Nat.pow_succ']
  rw [h64, h63, Nat.mul_mod_mul_right, Nat.mul_div_mul_right _ _ (Nat.two_pow_pos i),
    Nat.mod_mul_left_div_self, hj, Nat.add_sub_cancel_left]

theorem umul_iterate (a b : Dbits) {i : ℕ} (hi : i ≤ 64) :
    ((umulStep a)^[i] (0, 0, b)).1.toNat * 2 ^ 64 + ((umulStep a)^[i] (0, 0, b)).2.1.toNat =
        a.toNat * (b.toNat / 2 ^ (64 - i)) ∧
      ((umulStep a)^[i] (0, 0, b)).2.2.toNat = b.toNat * 2 ^ i % 2 ^ 64 := by
  induction i with
  | zero =>
    have hb := b.isLt
    have hzero : (0 : Dbits).toNat = 0 := rfl
    rw [Function.iterate_zero, id, hzero, Nat.sub_zero, Nat.div_eq_of_lt hb, Nat.pow_zero,
      Nat.mul_one, Nat.mod_eq_of_lt hb]
    simp
  | succ i ih =>
    obtain ⟨hacc, hrest⟩ := ih (by omega)
    rw [Function.iterate_succ_apply']
    generalize (umulStep a)^[i] (0, 0, b) = t at hacc hrest ⊢
    obtain ⟨h, l, c⟩ := t
    dsimp only at hacc hrest
    -- the top bit of what is left of `b` is its next bit
    have htop : c.toNat / 2 ^ 63 = b.toNat / 2 ^ (63 - i) % 2 := by
      rw [hrest, top_bit_of_shifted _ (by omega)]
    have hnext : 2 * (b.toNat / 2 ^ (64 - i)) + c.toNat / 2 ^ 63 = b.toNat / 2 ^ (63 - i) := by
      rw [htop, show 64 - i = 63 - i + 1 by omega, Nat.pow_succ, ← Nat.div_div_eq_div_mul]
      omega
    have hvalue : 2 * (h.toNat * 2 ^ 64 + l.toNat) + a.toNat * (c.toNat / 2 ^ 63) =
        a.toNat * (b.toNat / 2 ^ (63 - i)) := by
      rw [hacc, ← hnext]
      ring
    have hfit : a.toNat * (b.toNat / 2 ^ (63 - i)) < 2 ^ 128 := calc
      _ ≤ a.toNat * b.toNat := Nat.mul_le_mul_left _ (Nat.div_le_self _ _)
      _ < 2 ^ 64 * 2 ^ 64 := Nat.mul_lt_mul'' a.isLt b.isLt
      _ = 2 ^ 128 := (Nat.pow_add 2 64 64).symm
    obtain ⟨hacc', hrest'⟩ := umulStep_spec (hvalue ▸ hfit)
    rw [hacc', hvalue, hrest', hrest, show 64 - (i + 1) = 63 - i by omega, Nat.mod_mul_mod,
      Nat.mul_assoc, ← Nat.pow_succ]
    exact ⟨rfl, rfl⟩

theorem dfUmul128_spec (a b : Dbits) :
    (dfUmul128 a b).1.toNat * 2 ^ 64 + (dfUmul128 a b).2.toNat = a.toNat * b.toNat := by
  have hloop := (umul_iterate a b (Nat.le_refl 64)).1
  rw [Nat.sub_self, Nat.pow_zero, Nat.div_one] at hloop
  unfold dfUmul128
  generalize (umulStep a)^[64] (0, 0, b) = t at hloop ⊢
  exact hloop

theorem rounds_signWord (sign : Bool) : binary64.Rounds sign 0 (signWord sign) :=
  rounds_of_toNat (by rw [toNat_signWord, Nat.add_zero]) (Format.NearestEven.zero_iff.mpr rfl)

theorem mul_normalizable (sign : Bool) {ua ub : Unpacked} (ha : UnpacksFinite a ua)
    (hb : UnpacksFinite b ub) (haz : ua.zero = false) (hbz : ub.zero = false) :
    Normalizable (binary64.value (magnitude a) * binary64.value (magnitude b))
      ⟨sign, (dfUmul128 ua.sig ub.sig).1, (dfUmul128 ua.sig ub.sig).2, ua.exp + ub.exp, false⟩ := by
  have hwindow := dfUmul128_spec ua.sig ub.sig
  generalize dfUmul128 ua.sig ub.sig = w at hwindow ⊢
  have hlow := Nat.mul_le_mul (ha.sig_ge haz) (hb.sig_ge hbz)
  have hhigh := Nat.mul_lt_mul'' (ha.sig_lt haz) (hb.sig_lt hbz)
  have hframe := Framed.exact (ua.sig.toNat * ub.sig.toNat) (ua.exp + ub.exp)
  rw [Nat.cast_mul, zpow_add₀ two_ne_zero, mul_mul_mul_comm, ← ha.value_eq haz,
    ← hb.value_eq hbz, ← hwindow] at hframe
  rw [← hwindow] at hlow hhigh
  refine ⟨hframe, ?_, ?_, fun h => absurd h Bool.false_ne_true⟩
  · exact Nat.lt_of_lt_of_le (by decide) hlow
  · exact Nat.lt_of_lt_of_le hhigh (by decide)

theorem muldf3_magnitudes (ha : binary64.IsFinite a) (hb : binary64.IsFinite b) :
    Total (muldf3 a b) (binary64.Rounds (a.msb ^^ b.msb)
      (binary64.value (magnitude a) * binary64.value (magnitude b))) := by
  unfold muldf3
  apply (dfUnpack_finite ha).bind
  rintro ua - hua
  apply (dfUnpack_finite hb).bind
  rintro ub - hub
  have hea := hua.exp_le
  have heb := hub.exp_le
  rw [← hua.sign_eq, ← hub.sign_eq]
  dsimp only
  rw [if_neg (by omega)]
  apply Total.ite
  · intro hzero
    have hprod : binary64.value (magnitude a) * binary64.value (magnitude b) = 0 := by
      rcases (Bool.or_eq_true _ _).mp hzero with haz | hbz
      · rw [hua.zero_iff.mp haz, Format.value_zero, zero_mul]
      · rw [hub.zero_iff.mp hbz, Format.value_zero, mul_zero]
    rw [hprod]
    exact .pure (rounds_signWord _)
  · intro hne
    rw [Bool.or_eq_true, not_or, Bool.not_eq_true, Bool.not_eq_true] at hne
    obtain ⟨haz, hbz⟩ := hne
    have h := mul_normalizable (ua.sign ^^ ub.sign) hua hub haz hbz
    generalize dfUmul128 ua.sig ub.sig = w at h ⊢
    exact norm_rounds h

/-- Multiplication rounds the exact product; its sign is the exclusive or of the signs. -/
theorem mul_rounded (a b : Dbits) (ha : binary64.IsFinite a) (hb : binary64.IsFinite b) :
    Total (muldf3 a b) (binary64.Rounds (a.msb ^^ b.msb)
      |binary64.signedValue a * binary64.signedValue b|) := by
  rw [abs_mul, Format.abs_signedValue, Format.abs_signedValue]
  exact muldf3_magnitudes ha hb

/-- The least positive number times `-1`. -/
theorem mul_rounded_least :
    Total (muldf3 0x0000000000000001 0xBFF0000000000000) (· = 0x8000000000000001) := by
  apply (mul_rounded 0x0000000000000001 0xBFF0000000000000 (by decide) (by decide)).mono
  rintro r - ⟨hsign, hnear⟩
  have hone : binary64.value (magnitude (0xBFF0000000000000 : Dbits)) = 1 := by
    rw [value_of_magnitude (j := 1022) (n := 2 ^ 52) (by decide) (by decide) (by decide)]
    norm_num
  rw [abs_mul, Format.abs_signedValue, Format.abs_signedValue, hone, mul_one] at hnear
  exact eq_of_sign_magnitude (by decide) hsign
    (hnear.unique (Format.NearestEven.of_value (F := binary64) (by decide)))

end Multiplication

/-! ## Division -/

section Division

variable {a b mb q r : Dbits} {i : ℕ}

theorem divLoop_spec (hmb : mb.toNat < 2 ^ 63) (hi : i ≤ 63) (hq : 2 ^ i ∣ q.toNat)
    (hr : r.toNat < mb.toNat) :
    (divLoop mb i q r).2.toNat < mb.toNat ∧
      (divLoop mb i q r).1.toNat * mb.toNat + (divLoop mb i q r).2.toNat =
        q.toNat * mb.toNat + r.toNat * 2 ^ i := by
  induction i generalizing q r with
  | zero => exact ⟨hr, by rw [Nat.pow_zero, Nat.mul_one]; rfl⟩
  | succ i ih =>
    have hdouble : (r <<< 1).toNat = 2 * r.toNat := by
      rw [toNat_shiftLeft_of_lt (by omega), Nat.pow_one, Nat.mul_comm]
    have hdvd : 2 ^ i ∣ q.toNat := (Nat.pow_dvd_pow 2 (Nat.le_succ i)).trans hq
    unfold divLoop
    dsimp only
    split
    case isTrue hle =>
      have hsub := BitVec.toNat_sub_of_le hle
      rw [BitVec.le_def] at hle
      have hbit := toNat_one_shiftLeft (show i < 64 by omega)
      have hset : (q ||| 1#64 <<< i).toNat = q.toNat + 2 ^ i := by
        rw [toNat_or_of_dvd hq (by rw [hbit, Nat.pow_succ]; have := Nat.two_pow_pos i; omega), hbit]
      obtain ⟨hlt, heq⟩ := ih (q := q ||| 1#64 <<< i) (r := r <<< 1 - mb) (by omega)
        (hset ▸ Nat.dvd_add hdvd (Nat.dvd_refl _)) (by omega)
      refine ⟨hlt, heq.trans ?_⟩
      rw [hset, hsub, hdouble, Nat.add_mul, Nat.mul_comm (2 ^ i), Nat.pow_succ, Nat.add_assoc,
        ← Nat.add_mul, Nat.add_sub_cancel' (hdouble ▸ hle)]
      ring
    case isFalse hlt =>
      rw [BitVec.le_def, Nat.not_le] at hlt
      obtain ⟨hlt', heq⟩ := ih (by omega) hdvd hlt
      refine ⟨hlt', heq.trans ?_⟩
      rw [hdouble, Nat.pow_succ]
      ring

/-- Division of normalized significands: the quotient with 54 bits below the binary point. -/
theorem div_significands {ma : Dbits} (hage : 2 ^ 52 ≤ ma.toNat) (halt : ma.toNat < 2 ^ 53)
    (hbge : 2 ^ 52 ≤ mb.toNat) (hblt : mb.toNat < 2 ^ 53) {d : Dbits × Dbits}
    (hd : d = if mb ≤ ma then divLoop mb 54 (1#64 <<< 54) (ma - mb) else divLoop mb 54 0 ma) :
    d.1.toNat = ma.toNat * 2 ^ 54 / mb.toNat ∧ d.2.toNat = ma.toNat * 2 ^ 54 % mb.toNat := by
  have hpos : 0 < mb.toNat := by omega
  have hloop : d.2.toNat < mb.toNat ∧
      d.1.toNat * mb.toNat + d.2.toNat = ma.toNat * 2 ^ 54 := by
    rw [hd]
    split
    case isTrue hle =>
      have hsub := BitVec.toNat_sub_of_le hle
      have hlead := toNat_one_shiftLeft (show 54 < 64 by omega)
      rw [BitVec.le_def] at hle
      obtain ⟨hlt, heq⟩ := divLoop_spec (q := 1#64 <<< 54) (r := ma - mb) (i := 54)
        (show mb.toNat < 2 ^ 63 by omega) (by omega) (hlead ▸ Nat.dvd_refl _) (by omega)
      refine ⟨hlt, heq.trans ?_⟩
      rw [hlead, hsub, Nat.mul_comm (2 ^ 54), ← Nat.add_mul, Nat.add_sub_cancel' hle]
    case isFalse hlt =>
      rw [BitVec.le_def, Nat.not_le] at hlt
      have hzero : (0 : Dbits).toNat = 0 := rfl
      obtain ⟨hlt, heq⟩ := divLoop_spec (q := 0) (r := ma) (i := 54)
        (show mb.toNat < 2 ^ 63 by omega) (by omega) (hzero ▸ Nat.dvd_zero _) hlt
      refine ⟨hlt, heq.trans ?_⟩
      rw [hzero, Nat.zero_mul, Nat.zero_add]
  have hdm := (Nat.div_mod_unique hpos).mpr
    ⟨(Nat.add_comm _ _).trans ((congrArg (· + _) (Nat.mul_comm _ _)).trans hloop.2), hloop.1⟩
  exact ⟨hdm.1.symm, hdm.2.symm⟩

/-- The quotient of two significands with 54 bits below the point frames that of the numbers. -/
theorem div_framed {ua ub : Unpacked} (hua : UnpacksFinite a ua) (hub : UnpacksFinite b ub)
    (haz : ua.zero = false) (hbz : ub.zero = false) {d : Dbits × Dbits}
    (hd : d = if ub.sig ≤ ua.sig then divLoop ub.sig 54 (1#64 <<< 54) (ua.sig - ub.sig)
      else divLoop ub.sig 54 0 ua.sig) :
    Framed (binary64.value (magnitude a) / binary64.value (magnitude b)) (ua.exp - ub.exp - 54)
      d.1.toNat (d.2 != 0) ∧ 2 ^ 53 ≤ d.1.toNat := by
  have hage := hua.sig_ge haz
  have hbge := hub.sig_ge hbz
  have hblt := hub.sig_lt hbz
  have hmb : 0 < ub.sig.toNat := by omega
  obtain ⟨hq, hr⟩ := div_significands hage (hua.sig_lt haz) hbge hblt hd
  have hframe := (Framed.div hmb (ua.sig.toNat * 2 ^ 54)).mul_two_zpow (ua.exp - ub.exp - 54)
  have hsticky : (d.2 != 0) = decide (ua.sig.toNat * 2 ^ 54 % ub.sig.toNat ≠ 0) := by
    rw [← hr, Bool.eq_iff_iff, bne_iff_ne, decide_eq_true_eq, ne_eq, eq_zero_iff_toNat]
  have hscale := two_zpow_add (ua.exp - ub.exp - 54) 54
  rw [Nat.cast_ofNat, sub_add_cancel] at hscale
  have hvalue : ((ua.sig.toNat * 2 ^ 54 : ℕ) : ℚ) / ub.sig.toNat * 2 ^ (ua.exp - ub.exp - 54) =
      binary64.value (magnitude a) / binary64.value (magnitude b) := by
    rw [hua.value_eq haz, hub.value_eq hbz, mul_div_mul_comm, ← zpow_sub₀ two_ne_zero, hscale]
    push_cast
    ring
  rw [hvalue, zero_add, ← hq, ← hsticky] at hframe
  refine ⟨hframe, ?_⟩
  rw [hq, Nat.le_div_iff_mul_le hmb]
  omega

theorem divdf3_magnitudes (ha : binary64.IsFinite a) (hb : binary64.IsFinite b)
    (hne : binary64.signedValue b ≠ 0) :
    Total (divdf3 a b) (binary64.Rounds (a.msb ^^ b.msb)
      (binary64.value (magnitude a) / binary64.value (magnitude b))) := by
  unfold divdf3
  apply (dfUnpack_finite ha).bind
  rintro ua - hua
  apply (dfUnpack_finite hb).bind
  rintro ub - hub
  have hea := hua.exp_le
  have heb := hub.exp_le
  have hbz : ub.zero = false :=
    Bool.eq_false_iff.mpr fun h => hne (Format.signedValue_eq_zero (hub.zero_iff.mp h))
  rw [← hua.sign_eq, ← hub.sign_eq]
  dsimp only
  rw [if_neg (by omega), if_neg (Bool.eq_false_iff.mp hbz)]
  apply Total.ite
  · intro haz
    rw [hua.zero_iff.mp haz, Format.value_zero, zero_div]
    exact .pure (rounds_signWord _)
  · intro haz
    generalize hd : (if ub.sig ≤ ua.sig then _ else _) = d
    obtain ⟨hframe, hlarge⟩ := div_framed hua hub (Bool.not_eq_true _ ▸ haz) hbz hd.symm
    exact dfNormPack_rounds (by rwa [Bool.or_false]) hlarge

/-- Division rounds the exact quotient; its sign is the exclusive or of the signs. -/
theorem div_rounded (a b : Dbits) (ha : binary64.IsFinite a) (hb : binary64.IsFinite b)
    (hne : binary64.signedValue b ≠ 0) :
    Total (divdf3 a b) (binary64.Rounds (a.msb ^^ b.msb)
      |binary64.signedValue a / binary64.signedValue b|) := by
  rw [abs_div, Format.abs_signedValue, Format.abs_signedValue]
  exact divdf3_magnitudes ha hb hne

/-- The least positive number divided by `-1`. -/
theorem div_rounded_least :
    Total (divdf3 0x0000000000000001 0xBFF0000000000000) (· = 0x8000000000000001) := by
  have hone : binary64.value (magnitude (0xBFF0000000000000 : Dbits)) = 1 := by
    rw [value_of_magnitude (j := 1022) (n := 2 ^ 52) (by decide) (by decide) (by decide)]
    norm_num
  have hne : binary64.signedValue (0xBFF0000000000000 : Dbits) ≠ 0 := by
    rw [← abs_ne_zero, Format.abs_signedValue, hone]
    exact one_ne_zero
  apply (div_rounded 0x0000000000000001 0xBFF0000000000000 (by decide) (by decide) hne).mono
  rintro r - ⟨hsign, hnear⟩
  rw [abs_div, Format.abs_signedValue, Format.abs_signedValue, hone, div_one] at hnear
  exact eq_of_sign_magnitude (by decide) hsign
    (hnear.unique (Format.NearestEven.of_value (F := binary64) (by decide)))

end Division

end LampUserspace.CompilerRt
