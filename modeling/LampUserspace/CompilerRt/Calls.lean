import LampUserspace.CompilerRt.Arithmetic

/-! # The calls of the normalizer

Addition and multiplication end in a result or in a call of the normalizer. Their
windows lie within what it can take, subnormal operands and cancellation included.
-/

namespace LampUserspace.CompilerRt
open Binary

/-! ## The calls -/

def addSameCall (rs : Bool) (ga bl : Dbits) (e : ℤ) (sExtra : Bool) : NormCall :=
  ⟨rs, if ga + bl < ga then 1 else 0, ga + bl, e, sExtra⟩

def addOppositeCall (rs : Bool) (ga bl : Dbits) (e : ℤ) (sExtra : Bool) : Dbits ⊕ NormCall :=
  let tl := ga - bl
  let borrow := sExtra && tl != 0
  if decide (ga < bl) || !borrow && tl == 0 then .inl 0
  else .inr ⟨rs, 0, if borrow then tl - 1 else tl, e, sExtra⟩

def addAlignedCall (a b : Unpacked) (larger : Dbits) : Dbits ⊕ NormCall :=
  let align := a.exp - b.exp
  if align > 122 then .inl larger
  else
    let (bl, sExtra) := alignLow (b.sig <<< 6) align
    if a.sign = b.sign then .inr (addSameCall a.sign (a.sig <<< 6) bl (a.exp - 6) sExtra)
    else addOppositeCall a.sign (a.sig <<< 6) bl (a.exp - 6) sExtra

/-- The result or the call in `adddf3`. -/
def adddf3Call (a b : Dbits) : Option (Dbits ⊕ NormCall) := do
  let ua ← dfUnpack a
  let ub ← dfUnpack b
  if ua.exp = 0x7FFF then
    if ua.sig ≠ 0 then return .inl (a ||| dQuiet)
    else if ub.exp = 0x7FFF ∧ ub.sign ≠ ua.sign then return .inl (dExp ||| dQuiet)
    else return .inl a
  else if ub.exp = 0x7FFF then
    if ub.sig ≠ 0 then return .inl (b ||| dQuiet)
    else return .inl b
  else if ua.zero then
    if ub.zero then return .inl (signWord (ua.sign && ub.sign))
    else return .inl b
  else if ub.zero then return .inl a
  else if ua.exp < ub.exp ∨ ua.exp = ub.exp ∧ ua.sig < ub.sig then return addAlignedCall ub ua b
  else return addAlignedCall ua ub a

def muldf3Call (a b : Dbits) : Option (Dbits ⊕ NormCall) := do
  let ua ← dfUnpack a
  let ub ← dfUnpack b
  let rs := ua.sign ^^ ub.sign
  if ua.exp = 0x7FFF ∨ ub.exp = 0x7FFF then
    if ua.exp = 0x7FFF ∧ ua.sig ≠ 0 ∨ ub.exp = 0x7FFF ∧ ub.sig ≠ 0 then
      return .inl (dExp ||| dQuiet)
    else if ua.exp = 0x7FFF ∧ ub.zero ∨ ub.exp = 0x7FFF ∧ ua.zero then return .inl (dExp ||| dQuiet)
    else return .inl (signWord rs ||| dExp)
  else if ua.zero || ub.zero then return .inl (signWord rs)
  else
    let (hi, lo) := dfUmul128 ua.sig ub.sig
    return .inr ⟨rs, hi, lo, ua.exp + ub.exp, false⟩

def finish : Dbits ⊕ NormCall → Option Dbits := Sum.elim some NormCall.run

theorem addOpposite_eq (rs : Bool) (ga bl : Dbits) (e : ℤ) (sExtra : Bool) :
    addOpposite rs ga bl e sExtra = finish (addOppositeCall rs ga bl e sExtra) := by
  unfold addOpposite addOppositeCall
  dsimp only
  split <;> rfl

theorem addAligned_eq (a b : Unpacked) (larger : Dbits) :
    addAligned a b larger = finish (addAlignedCall a b larger) := by
  unfold addAligned addAlignedCall
  dsimp only
  split
  · rfl
  · split
    · rfl
    · exact addOpposite_eq _ _ _ _ _

theorem adddf3_eq (a b : Dbits) : adddf3 a b = (adddf3Call a b).bind finish := by
  unfold adddf3 adddf3Call
  cases dfUnpack a with
  | none => rfl
  | some ua =>
    cases dfUnpack b with
    | none => rfl
    | some ub =>
      simp only [Option.bind_eq_bind, Option.bind_some, addAligned_eq]
      repeat' split
      all_goals rfl

theorem muldf3_eq (a b : Dbits) : muldf3 a b = (muldf3Call a b).bind finish := by
  unfold muldf3 muldf3Call
  cases dfUnpack a with
  | none => rfl
  | some ua =>
    cases dfUnpack b with
    | none => rfl
    | some ub =>
      simp only [Option.bind_eq_bind, Option.bind_some]
      generalize dfUmul128 ua.sig ub.sig = w
      repeat' split
      all_goals rfl

/-! ## The windows of addition and multiplication -/

section Calls

variable {a b : Dbits} {ua ub : Unpacked}

theorem abs_signedValue_add
    (hpos : 0 < binary64.value (magnitude b))
    (hle : binary64.value (magnitude b) ≤ binary64.value (magnitude a)) :
    |binary64.signedValue a + binary64.signedValue b| =
      if a.msb = b.msb then binary64.value (magnitude a) + binary64.value (magnitude b)
      else binary64.value (magnitude a) - binary64.value (magnitude b) := by
  rw [signedValue_eq, signedValue_eq]
  generalize binary64.value (magnitude a) = va at *
  generalize binary64.value (magnitude b) = vb at *
  have hsum : |va + vb| = va + vb := abs_of_pos (by linarith)
  have hdiff : |va - vb| = va - vb := abs_of_nonneg (by linarith)
  cases a.msb <;> cases b.msb
  · exact hsum
  · exact (congrArg abs (sub_eq_add_neg va vb).symm).trans hdiff
  · exact (congrArg abs (neg_add_eq_sub va vb)).trans ((abs_sub_comm vb va).trans hdiff)
  · exact (congrArg abs (neg_add va vb).symm).trans ((abs_neg _).trans hsum)

theorem addAlignedCall_normalizable (ha : UnpacksFinite a ua) (hb : UnpacksFinite b ub)
    (haz : ua.zero = false) (hbz : ub.zero = false) (hle : Larger ua ub) {c : NormCall}
    (hc : addAlignedCall ua ub a = .inr c) :
    Normalizable |binary64.signedValue a + binary64.signedValue b| c := by
  have hvb := hb.value_eq hbz
  obtain ⟨k, hk⟩ : ∃ k : ℕ, ua.exp = ub.exp + k :=
    ⟨(ua.exp - ub.exp).toNat, by unfold Larger at hle; omega⟩
  have hal := aligned_of_le (ha.sig_ge haz) (ha.sig_lt haz) (hb.sig_lt hbz) hk
    (by unfold Larger at hle; omega)
  have hva := (ha.value_eq haz).trans hal.larger_eq
  have hframe := hal.framed
  rw [← hvb] at hframe
  rw [abs_signedValue_add (value_pos_of_unpacked hb hbz) (value_le_of_larger ha hb haz hbz hle),
    ← ha.sign_eq, ← hb.sign_eq]
  unfold addAlignedCall at hc
  dsimp only at hc
  rw [show ua.exp - ub.exp = k by omega] at hc
  split at hc
  · exact absurd hc Sum.inl_ne_inr
  split at hc
  case isTrue hsame =>
    obtain rfl := Sum.inr.inj hc
    rw [if_pos hsame]
    exact addSame_normalizable hal.ga_ge hal.ga_lt hal.low_le hva hframe
  case isFalse hdiff =>
    rw [if_neg hdiff]
    unfold addOppositeCall at hc
    dsimp only at hc
    rcases addOpposite_normalizable hal.ga_ge hal.ga_lt hal.low_le hal.low_lt hva hframe with
      ⟨hzero, -⟩ | ⟨hzero, -, h⟩
    · rw [if_pos hzero] at hc
      exact absurd hc Sum.inl_ne_inr
    · rw [if_neg (Bool.eq_false_iff.mp hzero)] at hc
      obtain rfl := Sum.inr.inj hc
      exact h

theorem adddf3Call_normalizable (ha : binary64.IsFinite a) (hb : binary64.IsFinite b)
    (ha0 : magnitude a ≠ 0) (hb0 : magnitude b ≠ 0) :
    Total (adddf3Call a b) fun r => ∀ c, r = .inr c →
      Normalizable |binary64.signedValue a + binary64.signedValue b| c := by
  unfold adddf3Call
  apply (dfUnpack_finite ha).bind
  rintro ua - hua
  apply (dfUnpack_finite hb).bind
  rintro ub - hub
  have hea := hua.exp_le
  have heb := hub.exp_le
  have haz : ua.zero = false := Bool.eq_false_iff.mpr (mt hua.zero_iff.mp ha0)
  have hbz : ub.zero = false := Bool.eq_false_iff.mpr (mt hub.zero_iff.mp hb0)
  rw [if_neg (by omega), if_neg (by omega), haz, hbz, if_neg Bool.false_ne_true,
    if_neg Bool.false_ne_true]
  apply Total.ite
  · intro hswap
    have hlarger : Larger ub ua := hswap.imp id fun h => ⟨h.1, (BitVec.lt_def.mp h.2).le⟩
    refine .pure fun c hc => ?_
    rw [add_comm]
    exact addAlignedCall_normalizable hub hua hbz haz hlarger hc
  · intro hkeep
    rw [BitVec.lt_def] at hkeep
    have hlarger : Larger ua ub := by
      unfold Larger
      omega
    exact .pure fun c hc => addAlignedCall_normalizable hua hub haz hbz hlarger hc

theorem muldf3Call_normalizable (ha : binary64.IsFinite a) (hb : binary64.IsFinite b)
    (ha0 : magnitude a ≠ 0) (hb0 : magnitude b ≠ 0) :
    Total (muldf3Call a b) fun r => ∃ c, r = .inr c ∧
      Normalizable |binary64.signedValue a * binary64.signedValue b| c := by
  unfold muldf3Call
  apply (dfUnpack_finite ha).bind
  rintro ua - hua
  apply (dfUnpack_finite hb).bind
  rintro ub - hub
  have hea := hua.exp_le
  have heb := hub.exp_le
  have haz : ua.zero = false := Bool.eq_false_iff.mpr (mt hua.zero_iff.mp ha0)
  have hbz : ub.zero = false := Bool.eq_false_iff.mpr (mt hub.zero_iff.mp hb0)
  rw [abs_mul, Format.abs_signedValue, Format.abs_signedValue]
  dsimp only
  rw [if_neg (by omega), haz, hbz, Bool.or_false, if_neg Bool.false_ne_true]
  have h := mul_normalizable (ua.sign ^^ ub.sign) hua hub haz hbz
  generalize dfUmul128 ua.sig ub.sig = w at h ⊢
  exact .pure ⟨_, rfl, h⟩

/-- An operation gives a result or calls the normalizer, which calls the packer for `x`. -/
structure PacksThrough (x : ℚ) (result : Option Dbits) (call : Option (Dbits ⊕ NormCall)) :
    Prop where
  result_eq : result = call.bind finish
  isSome : call.isSome
  packs : ∀ c, call = some (.inr c) →
    ∃ p, c.packCall = some (.inr p) ∧ c.run = some p.run ∧ Packable x c p

/-- The wide product is exact, and on nonzero finite operands the normalizer packs the exact sum
and the exact product. -/
theorem normalizer_packs :
    (∀ x y : Dbits,
      (dfUmul128 x y).1.toNat * 2 ^ 64 + (dfUmul128 x y).2.toNat = x.toNat * y.toNat) ∧
    ∀ a b : Dbits, binary64.IsFinite a → binary64.IsFinite b → magnitude a ≠ 0 → magnitude b ≠ 0 →
      PacksThrough |binary64.signedValue a + binary64.signedValue b| (adddf3 a b)
        (adddf3Call a b) ∧
      PacksThrough |binary64.signedValue a * binary64.signedValue b| (muldf3 a b)
        (muldf3Call a b) ∧
      ∃ c, muldf3Call a b = some (.inr c) := by
  refine ⟨dfUmul128_spec, fun a b ha hb ha0 hb0 => ?_⟩
  obtain ⟨r, hr, hadd⟩ := adddf3Call_normalizable ha hb ha0 hb0
  obtain ⟨_, hmul, c, rfl, hc⟩ := muldf3Call_normalizable ha hb ha0 hb0
  refine ⟨⟨adddf3_eq a b, by rw [hr]; rfl, fun d hd => ?_⟩,
    ⟨muldf3_eq a b, by rw [hmul]; rfl, fun d hd => ?_⟩, c, hmul⟩
  · exact packCall_packable (hadd d (Option.some.inj (hr.symm.trans hd)))
  · obtain rfl := Sum.inr.inj (Option.some.inj (hmul.symm.trans hd))
    exact packCall_packable hc

/-- One less its predecessor: the cancellation leaves one bit, which moves up to bit 52. -/
theorem normalizer_packs_cancellation :
    ∃ p, NormCall.packCall ⟨false, 0, 32, -58, false⟩ = some (.inr p) ∧
      NormCall.run ⟨false, 0, 32, -58, false⟩ = some p.run ∧
      Packable |binary64.signedValue (0x3FF0000000000000 : Dbits) +
        binary64.signedValue (0xBFEFFFFFFFFFFFFF : Dbits)| ⟨false, 0, 32, -58, false⟩ p :=
  (normalizer_packs.2 0x3FF0000000000000 0xBFEFFFFFFFFFFFFF (by decide) (by decide) (by decide)
    (by decide)).1.packs ⟨false, 0, 32, -58, false⟩ (by decide)

end Calls

end LampUserspace.CompilerRt
