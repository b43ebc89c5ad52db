import LampUserspace.CompilerRt.Arithmetic

/-! # Infinities and words that are no number

What the four operations do when an operand is an infinity or no number, beside
what the standard asks of them. Multiplication and division agree with it.
Addition looks at an infinite first operand before it looks at the second, and
takes the infinity for the sum even where the second is no number.
-/

namespace LampUserspace.CompilerRt
open Binary

/-- The result of an operation on special operands: no number in the invalid cases, and otherwise
an infinity or a zero with the sign given. -/
structure SpecialResult (invalid infinite : Prop) (sign : Bool) (r : Dbits) : Prop where
  isNan : invalid → binary64.IsNan r
  isInf : ¬ invalid → infinite → binary64.IsInf r ∧ r.msb = sign
  isZero : ¬ invalid → ¬ infinite → magnitude r = 0 ∧ r.msb = sign

section

variable (a b r : Dbits)

/-- The sum by the standard: infinities of opposite signs have none. -/
def SpecialSum : Prop :=
  SpecialResult
    (binary64.IsNan a ∨ binary64.IsNan b ∨ binary64.IsInf a ∧ binary64.IsInf b ∧ a.msb ≠ b.msb)
    True (if binary64.IsInf a then a.msb else b.msb) r

/-- The difference by the standard: infinities of one sign have none. -/
def SpecialDifference : Prop :=
  SpecialResult
    (binary64.IsNan a ∨ binary64.IsNan b ∨ binary64.IsInf a ∧ binary64.IsInf b ∧ a.msb = b.msb)
    True (if binary64.IsInf a then a.msb else !b.msb) r

/-- The product by the standard: an infinity and a zero have none. -/
def SpecialProduct : Prop :=
  SpecialResult
    (binary64.IsNan a ∨ binary64.IsNan b ∨ binary64.IsInf a ∧ magnitude b = 0 ∨
      magnitude a = 0 ∧ binary64.IsInf b)
    True (a.msb ^^ b.msb) r

/-- The quotient by the standard: two infinities have none, and an infinite divisor gives zero. -/
def SpecialQuotient : Prop :=
  SpecialResult
    (binary64.IsNan a ∨ binary64.IsNan b ∨ binary64.IsInf a ∧ binary64.IsInf b)
    (binary64.IsInf a) (a.msb ^^ b.msb) r

end

/-! ## Kinds of words -/

section Kinds

variable {a b x : Dbits}

theorem kind_cases (x : Dbits) :
    binary64.IsFinite x ∨ binary64.IsInf x ∨ binary64.IsNan x :=
  Nat.lt_trichotomy _ _

theorem not_isFinite_of_isInf (h : binary64.IsInf x) : ¬ binary64.IsFinite x := fun hfin =>
  absurd h hfin.ne

theorem not_isFinite_of_isNan (h : binary64.IsNan x) : ¬ binary64.IsFinite x := fun hfin =>
  absurd h hfin.asymm

theorem not_isNan_of_isInf (h : binary64.IsInf x) : ¬ binary64.IsNan x := fun hnan =>
  absurd h hnan.ne'

theorem isNan_iff (x : Dbits) :
    binary64.IsNan x ↔ ¬ binary64.IsFinite x ∧ ¬ binary64.IsInf x := by
  unfold Format.IsNan Format.IsFinite Format.IsInf
  omega

/-- An operand is no number when its exponent is the marker and its fraction is not zero. -/
theorem Unpacks.isNan_iff {u : Unpacked} (h : Unpacks x u) :
    u.exp = 0x7FFF ∧ u.sig ≠ 0 ↔ binary64.IsNan x := by
  rw [CompilerRt.isNan_iff, h.exp_eq_iff]
  exact and_congr_right fun hx => not_congr (h.sig_eq_zero_iff hx)

theorem isNan_or_dQuiet (h : binary64.IsNan x) : binary64.IsNan (x ||| dQuiet) :=
  lt_of_lt_of_le h (magnitude_le_magnitude_or x dQuiet)

theorem isNan_default : binary64.IsNan (dExp ||| dQuiet) := by decide

theorem isInf_signWord (sign : Bool) :
    binary64.IsInf (signWord sign ||| dExp) ∧ (signWord sign ||| dExp).msb = sign := by
  cases sign <;> decide

theorem zero_signWord (sign : Bool) :
    magnitude (signWord sign) = 0 ∧ (signWord sign).msb = sign := by
  cases sign <;> decide

theorem isInf_of_not (hfin : ¬ binary64.IsFinite x) (hnan : ¬ binary64.IsNan x) :
    binary64.IsInf x :=
  ((kind_cases x).resolve_left hfin).resolve_right hnan

theorem isFinite_of_zero (h : magnitude x = 0) : binary64.IsFinite x := by
  rw [Format.IsFinite, h]
  decide

namespace SpecialResult

variable {invalid infinite : Prop} {sign : Bool} {r : Dbits}

theorem of_invalid (h : invalid) (hr : binary64.IsNan r) : SpecialResult invalid infinite sign r :=
  ⟨fun _ => hr, fun hvalid => absurd h hvalid, fun hvalid => absurd h hvalid⟩

theorem of_infinite (h : ¬ invalid) (hinf : infinite) (hr : binary64.IsInf r ∧ r.msb = sign) :
    SpecialResult invalid infinite sign r :=
  ⟨fun hinvalid => absurd hinvalid h, fun _ _ => hr, fun _ hnot => absurd hinf hnot⟩

theorem of_zero (h : ¬ invalid) (hinf : ¬ infinite) (hr : magnitude r = 0 ∧ r.msb = sign) :
    SpecialResult invalid infinite sign r :=
  ⟨fun hinvalid => absurd hinvalid h, fun _ hinf' => absurd hinf' hinf, fun _ _ => hr⟩

end SpecialResult

end Kinds

/-! ## Multiplication and division -/

section Agreeing

variable {a b : Dbits}

theorem muldf3_special (h : ¬ binary64.IsFinite a ∨ ¬ binary64.IsFinite b) :
    Total (muldf3 a b) (SpecialProduct a b) := by
  unfold muldf3
  apply (dfUnpack_total a).bind
  rintro ua - hua
  apply (dfUnpack_total b).bind
  rintro ub - hub
  dsimp only
  simp only [hua.isNan_iff, hub.isNan_iff, hua.zero_iff, hub.zero_iff, hua.sign_eq, hub.sign_eq]
  simp only [hua.exp_eq_iff, hub.exp_eq_iff]
  rw [if_pos h]
  apply Total.ite
  · intro hnan
    exact .pure (.of_invalid (hnan.imp_right .inl) isNan_default)
  · intro hnan
    obtain ⟨ha, hb⟩ := not_or.mp hnan
    apply Total.ite
    · rintro (⟨hfa, hzero⟩ | ⟨hfb, hzero⟩)
      · exact .pure (.of_invalid (.inr (.inr (.inl ⟨isInf_of_not hfa ha, hzero⟩))) isNan_default)
      · exact .pure (.of_invalid (.inr (.inr (.inr ⟨hzero, isInf_of_not hfb hb⟩))) isNan_default)
    · intro hzero
      refine .pure (.of_infinite ?_ trivial (isInf_signWord _))
      rintro (hnan | hnan | ⟨hinf, hmag⟩ | ⟨hmag, hinf⟩)
      · exact ha hnan
      · exact hb hnan
      · exact hzero (.inl ⟨not_isFinite_of_isInf hinf, hmag⟩)
      · exact hzero (.inr ⟨not_isFinite_of_isInf hinf, hmag⟩)

theorem divdf3_special (h : ¬ binary64.IsFinite a ∨ ¬ binary64.IsFinite b) :
    Total (divdf3 a b) (SpecialQuotient a b) := by
  unfold divdf3
  apply (dfUnpack_total a).bind
  rintro ua - hua
  apply (dfUnpack_total b).bind
  rintro ub - hub
  dsimp only
  simp only [hua.isNan_iff, hub.isNan_iff, hua.sign_eq, hub.sign_eq]
  simp only [hua.exp_eq_iff, hub.exp_eq_iff]
  rw [if_pos h]
  apply Total.ite
  · intro hnan
    exact .pure (.of_invalid (hnan.imp_right .inl) isNan_default)
  · intro hnan
    obtain ⟨ha, hb⟩ := not_or.mp hnan
    apply Total.ite
    · intro hfa
      have hinf := isInf_of_not hfa ha
      apply Total.ite
      · intro hfb
        exact .pure (.of_invalid (.inr (.inr ⟨hinf, isInf_of_not hfb hb⟩)) isNan_default)
      · intro hfb
        refine .pure (.of_infinite ?_ hinf (isInf_signWord _))
        rintro (hnan | hnan | ⟨-, hinf'⟩)
        · exact ha hnan
        · exact hb hnan
        · exact hfb (not_isFinite_of_isInf hinf')
    · intro hfa
      have hninf : ¬ binary64.IsInf a := fun hinf => hfa (not_isFinite_of_isInf hinf)
      have hzero : ub.zero = false := Bool.eq_false_iff.mpr fun hz =>
        h.elim hfa fun hfb => hfb (isFinite_of_zero (hub.zero_iff.mp hz))
      rw [hzero]
      refine .pure (.of_zero ?_ hninf (zero_signWord _))
      rintro (hnan | hnan | ⟨hinf, -⟩)
      · exact ha hnan
      · exact hb hnan
      · exact hninf hinf

end Agreeing

/-! ## Addition -/

section Addition

variable {a b : Dbits}

/-- What addition does with special operands: an infinite first operand is the sum unless the
second one is special and has the other sign. -/
structure AddsSpecial (a b r : Dbits) : Prop where
  left_nan : binary64.IsNan a → binary64.IsNan r
  left_opposite : binary64.IsInf a → ¬ binary64.IsFinite b → b.msb ≠ a.msb → binary64.IsNan r
  left_inf : binary64.IsInf a → binary64.IsFinite b ∨ b.msb = a.msb → r = a
  right_nan : binary64.IsFinite a → binary64.IsNan b → binary64.IsNan r
  right_inf : binary64.IsFinite a → binary64.IsInf b → r = b

theorem adddf3_special (h : ¬ binary64.IsFinite a ∨ ¬ binary64.IsFinite b) :
    Total (adddf3 a b) (AddsSpecial a b) := by
  unfold adddf3
  apply (dfUnpack_total a).bind
  rintro ua - hua
  apply (dfUnpack_total b).bind
  rintro ub - hub
  simp only [hua.exp_eq_iff, hub.exp_eq_iff, hua.sign_eq, hub.sign_eq]
  apply Total.ite
  · intro hfa
    have hnfin : ∀ {P : Prop}, binary64.IsFinite a → P := fun hfin => absurd hfin hfa
    apply Total.ite
    · intro hsig
      have hinf := mt (hua.sig_eq_zero_iff hfa).mpr hsig
      exact .pure ⟨isNan_or_dQuiet, fun h => absurd h hinf, fun h => absurd h hinf, hnfin, hnfin⟩
    · intro hsig
      have hinf := (hua.sig_eq_zero_iff hfa).mp (not_not.mp hsig)
      have hnan : ∀ {P : Prop}, binary64.IsNan a → P := fun h =>
        absurd h (not_isNan_of_isInf hinf)
      apply Total.ite
      · rintro ⟨hfb, hsign⟩
        exact .pure ⟨hnan, fun _ _ _ => isNan_default,
          fun _ hb => absurd hb (not_or.mpr ⟨hfb, hsign⟩), hnfin, hnfin⟩
      · intro hsame
        exact .pure ⟨hnan, fun _ hfb hsign => absurd ⟨hfb, hsign⟩ hsame, fun _ _ => rfl, hnfin,
          hnfin⟩
  · intro hfa
    rw [not_not] at hfa
    have hfb := h.resolve_left (not_not.mpr hfa)
    have hnan : ∀ {P : Prop}, binary64.IsNan a → P := fun h =>
      absurd hfa (not_isFinite_of_isNan h)
    have hinf : ∀ {P : Prop}, binary64.IsInf a → P := fun h =>
      absurd hfa (not_isFinite_of_isInf h)
    rw [if_pos hfb]
    apply Total.ite
    · intro hsig
      have hninf := mt (hub.sig_eq_zero_iff hfb).mpr hsig
      exact .pure ⟨hnan, hinf, hinf, fun _ => isNan_or_dQuiet, fun _ h => absurd h hninf⟩
    · intro hsig
      have hbinf := (hub.sig_eq_zero_iff hfb).mp (not_not.mp hsig)
      exact .pure ⟨hnan, hinf, hinf, fun _ h => absurd h (not_isNan_of_isInf hbinf), fun _ _ => rfl⟩

/-- Addition agrees with the standard unless an infinity of the same sign swallows a second
operand that is no number. -/
theorem adddf3_special_iff (h : ¬ binary64.IsFinite a ∨ ¬ binary64.IsFinite b) :
    Total (adddf3 a b) (SpecialSum a b) ↔
      ¬ (binary64.IsInf a ∧ binary64.IsNan b ∧ b.msb = a.msb) := by
  obtain ⟨r, hr, hadds⟩ := adddf3_special h
  rw [Total.iff_of_eq hr]
  constructor
  · rintro hsum ⟨hinf, hnan, hsign⟩
    have hra := hadds.left_inf hinf (.inr hsign)
    exact not_isNan_of_isInf hinf (hra ▸ hsum.isNan (.inr (.inl hnan)))
  · intro hswallow
    rcases kind_cases a with hfa | hinf | hnan
    · have hne : ¬ binary64.IsInf a := fun hinf => not_isFinite_of_isInf hinf hfa
      rcases kind_cases b with hfb | hbinf | hbnan
      · exact absurd h (not_or.mpr ⟨not_not.mpr hfa, not_not.mpr hfb⟩)
      · refine .of_infinite ?_ trivial ?_
        · rintro (h | h | ⟨h, -⟩)
          · exact not_isFinite_of_isNan h hfa
          · exact not_isNan_of_isInf hbinf h
          · exact not_isFinite_of_isInf h hfa
        · rw [hadds.right_inf hfa hbinf, if_neg hne]
          exact ⟨hbinf, rfl⟩
      · exact .of_invalid (.inr (.inl hbnan)) (hadds.right_nan hfa hbnan)
    · by_cases hb : binary64.IsFinite b ∨ b.msb = a.msb
      · have hra := hadds.left_inf hinf hb
        refine .of_infinite ?_ trivial ?_
        · rintro (h | h | ⟨-, h, hsign⟩)
          · exact not_isNan_of_isInf hinf h
          · exact hb.elim (not_isFinite_of_isNan h) fun hsign => hswallow ⟨hinf, h, hsign⟩
          · exact hb.elim (not_isFinite_of_isInf h) fun hsame => hsign hsame.symm
        · rw [hra, if_pos hinf]
          exact ⟨hinf, rfl⟩
      · obtain ⟨hfb, hsign⟩ := not_or.mp hb
        refine .of_invalid ?_ (hadds.left_opposite hinf hfb hsign)
        rcases (kind_cases b).resolve_left hfb with hbinf | hbnan
        · exact .inr (.inr ⟨hinf, hbinf, Ne.symm hsign⟩)
        · exact .inr (.inl hbnan)
    · exact .of_invalid (.inl hnan) (hadds.left_nan hnan)

theorem isFinite_flip (b : Dbits) : binary64.IsFinite (b ^^^ dSign) ↔ binary64.IsFinite b := by
  rw [Format.IsFinite, (flip_sign b).2, Format.IsFinite]

theorem isNan_flip (b : Dbits) : binary64.IsNan (b ^^^ dSign) ↔ binary64.IsNan b := by
  rw [Format.IsNan, (flip_sign b).2, Format.IsNan]

theorem isInf_flip (b : Dbits) : binary64.IsInf (b ^^^ dSign) ↔ binary64.IsInf b := by
  rw [Format.IsInf, (flip_sign b).2, Format.IsInf]

theorem specialDifference_iff (a b r : Dbits) :
    SpecialDifference a b r ↔ SpecialSum a (b ^^^ dSign) r := by
  have hne : a.msb ≠ !b.msb ↔ a.msb = b.msb := by cases a.msb <;> cases b.msb <;> decide
  unfold SpecialDifference SpecialSum
  rw [isNan_flip, isInf_flip, (flip_sign b).1, hne]

theorem subdf3_special_iff (h : ¬ binary64.IsFinite a ∨ ¬ binary64.IsFinite b) :
    Total (subdf3 a b) (SpecialDifference a b) ↔
      ¬ (binary64.IsInf a ∧ binary64.IsNan b ∧ b.msb ≠ a.msb) := by
  have hflip := adddf3_special_iff (b := b ^^^ dSign) (h.imp_right (mt (isFinite_flip b).mp))
  have hne : (!b.msb) = a.msb ↔ b.msb ≠ a.msb := by cases a.msb <;> cases b.msb <;> decide
  rw [isNan_flip, (flip_sign b).1, hne] at hflip
  rw [← hflip, funext fun r => propext (specialDifference_iff a b r)]
  rfl

/-- On special operands the four operations follow the standard exactly when an infinite first
operand does not meet a second operand that is no number. -/
theorem special_correct_iff (a b : Dbits) (h : ¬ binary64.IsFinite a ∨ ¬ binary64.IsFinite b) :
    (Total (adddf3 a b) (SpecialSum a b) ∧ Total (subdf3 a b) (SpecialDifference a b) ∧
      Total (muldf3 a b) (SpecialProduct a b) ∧ Total (divdf3 a b) (SpecialQuotient a b)) ↔
    ¬ (binary64.IsInf a ∧ binary64.IsNan b) := by
  rw [adddf3_special_iff h, subdf3_special_iff h]
  constructor
  · rintro ⟨hadd, hsub, -, -⟩ ⟨hinf, hnan⟩
    exact hsub ⟨hinf, hnan, fun hsign => hadd ⟨hinf, hnan, hsign⟩⟩
  · intro hswallow
    exact ⟨fun hadd => hswallow ⟨hadd.1, hadd.2.1⟩, fun hsub => hswallow ⟨hsub.1, hsub.2.1⟩,
      muldf3_special h, divdf3_special h⟩

/-- A word that is no number and an infinity, in this order, give no number. -/
theorem special_correct_nan_inf :
    Total (adddf3 (dExp ||| dQuiet) dExp) (SpecialSum (dExp ||| dQuiet) dExp) :=
  ((special_correct_iff (dExp ||| dQuiet) dExp (.inl (by decide))).mpr (by decide)).1

/-- An infinity and a word that is no number give the infinity. -/
theorem infinity_swallows_nan :
    ¬ Total (adddf3 dExp (dExp ||| dQuiet)) (SpecialSum dExp (dExp ||| dQuiet)) := by
  have hsame : adddf3 dExp (dExp ||| dQuiet) = some dExp := by decide
  rw [Total.iff_of_eq hsame]
  intro hsum
  exact absurd (hsum.isNan (.inr (.inl (by decide)))) (by decide)

end Addition

end LampUserspace.CompilerRt
