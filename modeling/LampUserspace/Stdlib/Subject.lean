import LampUserspace.Stdlib.Strtol

/-! # Subject sequences

The subject sequence that the C standard defines for the conversion of a string,
and the strings for which `strtol` and `strtoul` convert theirs.
-/

namespace LampUserspace.Stdlib

open Numerals

def unspaced (s : List UInt8) : List UInt8 := s.dropWhile isspace

def Signed (s : List UInt8) : Prop := s.head? = some (byte '-') ∨ s.head? = some (byte '+')

instance decidableSigned (s : List UInt8) : Decidable (Signed s) :=
  inferInstanceAs (Decidable (_ ∨ _))

def unsigned (s : List UInt8) : List UInt8 :=
  if Signed (unspaced s) then (unspaced s).tail else unspaced s

/-- The text begins with `0x`, which a number in this base may. -/
def HexMarked (base : ℕ) (s : List UInt8) : Prop := (base = 0 ∨ base = 16) ∧ hexPrefixed s = true

instance decidableHexMarked (base : ℕ) (s : List UInt8) : Decidable (HexMarked base s) :=
  inferInstanceAs (Decidable (_ ∧ _))

/-- No hexadecimal digit follows the two first bytes. -/
def Bare (s : List UInt8) : Prop := digitRun digitValue 16 (s.drop 2) = []

instance decidableBare (s : List UInt8) : Decidable (Bare s) := inferInstanceAs (Decidable (_ = _))

/-- The base of the number that an unsigned text writes, and the text of its digits. -/
def basis (base : ℕ) (s : List UInt8) : ℕ × List UInt8 :=
  if HexMarked base s ∧ ¬ Bare s then (16, s.drop 2)
  else if base = 0 then (if s.head? = some (byte '0') then 8 else 10, s)
  else (base, s)

/-- The digits of the number that an unsigned text begins with. -/
def digitsAt (base : ℕ) (s : List UInt8) : List UInt8 :=
  digitRun digitValue (basis base s).1 (basis base s).2

def restAt (base : ℕ) (s : List UInt8) : List UInt8 :=
  afterRun digitValue (basis base s).1 (basis base s).2

/-- A subject sequence and the text behind it. -/
structure Subject where
  negative : Bool
  base : ℕ
  digits : List UInt8
  rest : List UInt8
  deriving DecidableEq

def subject (base : ℕ) (s : List UInt8) : Option Subject :=
  if digitsAt base (unsigned s) = [] then none
  else some ⟨(unspaced s).head? = some (byte '-'), (basis base (unsigned s)).1,
    digitsAt base (unsigned s), restAt base (unsigned s)⟩

def Subject.magnitude (t : Subject) : ℕ := number digitValue t.base t.digits

def Subject.value (t : Subject) : ℤ := if t.negative then -t.magnitude else t.magnitude

/-- What the standard asks of the conversion of `s`: the value of its subject sequence, when that
fits, with the pointer behind the sequence, or 0 with the pointer `s` when there is none. -/
def Prescribed {α : Type} (fits : Subject → Prop) (returns : α → ℤ → Prop) (base : ℕ)
    (s : List UInt8) (r : Converted α) : Prop :=
  (∀ t, subject base s = some t → fits t → returns r.ret t.value ∧ r.endptr = some t.rest) ∧
    (subject base s = none → returns r.ret 0 ∧ r.endptr = some s)

def FitsLong (t : Subject) : Prop := -2 ^ 31 ≤ t.value ∧ t.value < 2 ^ 31

/-- The magnitude is one of `unsigned long`, in which it is negated after a minus sign. -/
def FitsUnsigned (t : Subject) : Prop := t.magnitude < 2 ^ 32

def StrtolPrescribed (base : ℕ) (s : List UInt8) : Prop :=
  Prescribed FitsLong (fun r v => r.toInt = v) base s (strtol s base)

def StrtoulPrescribed (base : ℕ) (s : List UInt8) : Prop :=
  Prescribed FitsUnsigned (fun r v => r = .ofInt v) base s (strtoul (some s) base)

/-! ## The base of a text -/

/-- The text is marked as hexadecimal by the two bytes `0x` alone. -/
def BareHex (base : ℕ) (s : List UInt8) : Prop := HexMarked base s ∧ Bare s

instance decidableBareHex (base : ℕ) (s : List UInt8) : Decidable (BareHex base s) :=
  inferInstanceAs (Decidable (_ ∧ _))

theorem hexPrefixed_iff {s : List UInt8} :
    hexPrefixed s = true ↔
      ∃ x t, (x = byte 'x' ∨ x = byte 'X') ∧ s = byte '0' :: x :: t := by
  unfold hexPrefixed
  constructor
  · intro h
    rcases s with - | ⟨c, - | ⟨x, t⟩⟩
    · simp at h
    · simp at h
    · simp only [List.head?_cons, List.tail_cons, Option.some.injEq, Bool.and_eq_true,
        Bool.or_eq_true, decide_eq_true_eq] at h
      exact ⟨x, t, h.2, by rw [h.1]⟩
  · rintro ⟨x, t, rfl | rfl, rfl⟩ <;> rfl

theorem basis_of_not_marked {base : ℕ} {s : List UInt8} (h : ¬ HexMarked base s) :
    basis base s =
      if base = 0 then (if s.head? = some (byte '0') then 8 else 10, s) else (base, s) :=
  if_neg fun hmarked => h hmarked.1

theorem basis_text_of_not_marked {base : ℕ} {s : List UInt8} (h : ¬ HexMarked base s) :
    (basis base s).2 = s := by
  rw [basis_of_not_marked h]
  split <;> rfl

theorem strtoulBase_eq {base : ℕ} {s : List UInt8} (h : ¬ BareHex base s) :
    strtoulBase base s = (((basis base s).1 : ℤ), (basis base s).2) := by
  unfold strtoulBase
  by_cases hm : HexMarked base s
  · have hbasis : basis base s = (16, s.drop 2) := if_pos ⟨hm, fun hbare => h ⟨hm, hbare⟩⟩
    obtain ⟨hbase, hhex⟩ := hm
    have hzero : s.head? = some (byte '0') := by
      obtain ⟨x, t, -, rfl⟩ := hexPrefixed_iff.mp hhex
      rfl
    rw [hbasis]
    rcases hbase with rfl | rfl
    · simp [hhex, hzero]
    · simp [hhex]
  · rw [basis_of_not_marked hm]
    by_cases h0 : base = 0
    · have hhex : ¬ hexPrefixed s = true := fun hhex => hm ⟨Or.inl h0, hhex⟩
      subst h0
      by_cases hz : s.head? = some (byte '0')
      · simp [hz, hhex]
      · simp [hz]
    · have h16 : ¬ ((base : ℤ) = 16 ∧ hexPrefixed s = true) := by
        rintro ⟨hb, hhex⟩
        exact hm ⟨Or.inr (by omega), hhex⟩
      simp [h0, h16]

theorem strtoulBase_bare {base : ℕ} {s : List UInt8} (h : BareHex base s) :
    strtoulBase base s = (((16 : ℕ) : ℤ), s.drop 2) := by
  obtain ⟨⟨hbase, hhex⟩, -⟩ := h
  obtain ⟨x, t, -, rfl⟩ := hexPrefixed_iff.mp hhex
  unfold strtoulBase
  rcases hbase with rfl | rfl
  · simp [hhex]
  · simp [hhex]

/-- The number that the standard reads from a bare `0x` is its zero. -/
theorem digitsAt_bare {base : ℕ} {s : List UInt8} (h : BareHex base s) :
    digitsAt base s = [byte '0'] ∧ restAt base s = s.tail := by
  obtain ⟨hm, hbare⟩ := h
  obtain ⟨x, t, hx, rfl⟩ := hexPrefixed_iff.mp hm.2
  have hbasis : basis base (byte '0' :: x :: t) = (8, byte '0' :: x :: t) ∨
      basis base (byte '0' :: x :: t) = (16, byte '0' :: x :: t) := by
    unfold basis
    rw [if_neg (fun hand => hand.2 hbare)]
    rcases hm.1 with rfl | rfl
    · exact Or.inl rfl
    · exact Or.inr rfl
  have hzero : isDigit digitValue 8 (byte '0') = true := by decide
  have hzero' : isDigit digitValue 16 (byte '0') = true := by decide
  have hmark : isDigit digitValue 8 x = false ∧ isDigit digitValue 16 x = false := by
    rcases hx with rfl | rfl <;> decide
  unfold digitsAt restAt
  rcases hbasis with hb | hb
  · rw [hb, digitRun_cons hzero, afterRun_cons hzero, digitRun_stop hmark.1, afterRun_stop hmark.1]
    exact ⟨rfl, rfl⟩
  · rw [hb, digitRun_cons hzero', afterRun_cons hzero', digitRun_stop hmark.2,
      afterRun_stop hmark.2]
    exact ⟨rfl, rfl⟩

theorem basis_range {base : ℕ} (h : base = 0 ∨ 2 ≤ base ∧ base ≤ 36) (s : List UInt8) :
    2 ≤ (basis base s).1 ∧ (basis base s).1 ≤ 36 := by
  unfold basis
  by_cases hm : HexMarked base s ∧ ¬ Bare s
  · rw [if_pos hm]
    exact (by decide : 2 ≤ 16 ∧ 16 ≤ 36)
  · rw [if_neg hm]
    by_cases h0 : base = 0
    · rw [if_pos h0]
      dsimp only
      split <;> decide
    · rw [if_neg h0]
      exact h.resolve_left h0

/-! ## What `strtoul` returns -/

section Strtoul

variable {base : ℕ} (hbase : base = 0 ∨ 2 ≤ base ∧ base ≤ 36) {s : List UInt8}
include hbase

theorem strtoul_of_digits (h : ¬ BareHex base (unspaced s)) (hd : digitsAt base (unspaced s) ≠ []) :
    strtoul (some s) base =
      ⟨.ofNat (number digitValue (basis base (unspaced s)).1 (digitsAt base (unspaced s))),
        some (restAt base (unspaced s)), none⟩ := by
  obtain ⟨hlow, hhigh⟩ := basis_range hbase (unspaced s)
  have hstart : strtoulBase base (s.dropWhile isspace) =
      (((basis base (unspaced s)).1 : ℤ), (basis base (unspaced s)).2) := strtoulBase_eq h
  rw [strtoul_eq hstart hlow hhigh]
  unfold digitsAt at hd
  rw [if_neg hd, if_neg hd]
  rfl

theorem strtoul_of_no_digits (h : BareHex base (unspaced s) ∨ digitsAt base (unspaced s) = []) :
    strtoul (some s) base = ⟨0, some s, some .EINVAL⟩ := by
  by_cases hbare : BareHex base (unspaced s)
  · have hrun : digitRun digitValue 16 ((unspaced s).drop 2) = [] := hbare.2
    have hstart : strtoulBase base (s.dropWhile isspace) =
        (((16 : ℕ) : ℤ), (unspaced s).drop 2) := strtoulBase_bare hbare
    rw [strtoul_eq hstart (by decide) (by decide), hrun]
    rfl
  · have hrun := h.resolve_left hbare
    obtain ⟨hlow, hhigh⟩ := basis_range hbase (unspaced s)
    have hstart : strtoulBase base (s.dropWhile isspace) =
        (((basis base (unspaced s)).1 : ℤ), (basis base (unspaced s)).2) := strtoulBase_eq hbare
    rw [strtoul_eq hstart hlow hhigh]
    unfold digitsAt at hrun
    rw [hrun]
    rfl

end Strtoul

/-! ## Positions in the string -/

theorem length_unspaced (s : List UInt8) : (unspaced s).length ≤ s.length :=
  (List.dropWhile_suffix _).length_le

theorem unspaced_suffix (s : List UInt8) : unspaced s <:+ s := List.dropWhile_suffix _

theorem unsigned_suffix (s : List UInt8) : unsigned s <:+ s := by
  unfold unsigned
  split
  · exact (List.tail_suffix _).trans (unspaced_suffix s)
  · exact unspaced_suffix s

theorem unspaced_of_head {s : List UInt8} (h : ∀ c, s.head? = some c → isspace c = false) :
    unspaced s = s := by
  cases s with
  | nil => rfl
  | cons c s => exact List.dropWhile_cons_of_neg (by simp [h c rfl])

theorem unspaced_unspaced (s : List UInt8) : unspaced (unspaced s) = unspaced s := by
  apply unspaced_of_head
  intro c hc
  have hne : unspaced s ≠ [] := by
    intro hnil
    rw [hnil] at hc
    simp at hc
  have hstop := List.head_dropWhile_not isspace hne
  rw [List.head?_eq_some_head hne, Option.some.injEq] at hc
  rw [← hc]
  exact hstop

theorem unspaced_of_unsigned {s : List UInt8} (h : unsigned s = s) : unspaced s = s := by
  apply (unspaced_suffix s).eq_of_length_le
  have hsame : unsigned (unspaced s) = unsigned s := by
    unfold unsigned
    rw [unspaced_unspaced]
  have hle := (unsigned_suffix (unspaced s)).length_le
  rw [hsame, h] at hle
  exact hle

theorem unspaced_of_digits {base : ℕ} {s : List UInt8} (h : digitsAt base s ≠ []) :
    unspaced s = s := by
  apply unspaced_of_head
  intro c hc
  apply Bool.eq_false_of_not_eq_true
  intro hspace
  have hnone := digitValue_of_isspace c hspace
  by_cases hm : HexMarked base s
  · obtain ⟨x, t, -, rfl⟩ := hexPrefixed_iff.mp hm.2
    obtain rfl := Option.some.inj hc
    exact absurd hspace (by decide)
  · rw [digitsAt, basis_text_of_not_marked hm, ne_eq, digitRun_eq_nil_iff] at h
    apply h
    intro c' hc'
    obtain rfl := Option.some.inj (hc.symm.trans hc')
    rw [isDigit, hnone]
    rfl

theorem length_restAt {base : ℕ} {s : List UInt8} (h : digitsAt base s ≠ []) :
    (restAt base s).length < s.length := by
  have hle : (basis base s).2.length ≤ s.length := by
    unfold basis
    split
    · simp
    · split <;> exact Nat.le_refl _
  have happ : digitsAt base s ++ restAt base s = (basis base s).2 := digitRun_append_afterRun _
  have hlength := congrArg List.length happ
  have hpos := List.length_pos_of_ne_nil h
  rw [List.length_append] at hlength
  omega

theorem not_signed_of_zero {s : List UInt8} (h : s.head? = some (byte '0')) : ¬ Signed s := by
  rintro (h' | h') <;> exact absurd (h.symm.trans h') (by decide)

theorem BareHex.head {base : ℕ} {s : List UInt8} (h : BareHex base s) :
    s.head? = some (byte '0') := by
  obtain ⟨x, t, -, rfl⟩ := hexPrefixed_iff.mp h.1.2
  rfl

theorem digitsAt_of_signed {base : ℕ} {s : List UInt8} (h : Signed s) : digitsAt base s = [] := by
  have hm : ¬ HexMarked base s := by
    intro hm
    obtain ⟨x, t, -, rfl⟩ := hexPrefixed_iff.mp hm.2
    exact not_signed_of_zero rfl h
  rw [digitsAt, basis_text_of_not_marked hm, digitRun_eq_nil_iff]
  intro c hc
  have hsign : ∀ c, c = byte '-' ∨ c = byte '+' → digitValue c = none := by decide +kernel
  have hnone := hsign c (by
    rcases h with h | h
    · exact Or.inl (Option.some.inj (hc.symm.trans h))
    · exact Or.inr (Option.some.inj (hc.symm.trans h)))
  rw [isDigit, hnone]
  rfl

theorem subject_eq_none_iff {base : ℕ} {s : List UInt8} :
    subject base s = none ↔ digitsAt base (unsigned s) = [] := by
  unfold subject
  split <;> simp [*]

theorem subject_eq_some_iff {base : ℕ} {s : List UInt8} {t : Subject} :
    subject base s = some t ↔ digitsAt base (unsigned s) ≠ [] ∧
      t = ⟨(unspaced s).head? = some (byte '-'), (basis base (unsigned s)).1,
        digitsAt base (unsigned s), restAt base (unsigned s)⟩ := by
  unfold subject
  by_cases h : digitsAt base (unsigned s) = []
  · simp [h]
  · rw [if_neg h, Option.some.injEq]
    constructor
    · rintro rfl
      exact ⟨h, rfl⟩
    · rintro ⟨-, rfl⟩
      rfl

theorem length_rest {base : ℕ} {s : List UInt8} {t : Subject} (ht : subject base s = some t) :
    t.rest.length < (unsigned s).length := by
  obtain ⟨hdigits, rfl⟩ := subject_eq_some_iff.mp ht
  exact length_restAt hdigits

theorem subject_bare {base : ℕ} {s : List UInt8} (h : BareHex base (unsigned s)) :
    ∃ t, subject base s = some t ∧ t.magnitude = 0 := by
  obtain ⟨hdigits, -⟩ := digitsAt_bare h
  refine ⟨_, subject_eq_some_iff.mpr ⟨by simp [hdigits], rfl⟩, ?_⟩
  rw [Subject.magnitude, hdigits, number_eq_ofDigits]
  have hzero : digitValue (byte '0') = some 0 := by decide
  simp [hzero]

theorem Subject.value_of_zero {t : Subject} (h : t.magnitude = 0) : t.value = 0 := by
  simp [value, h]

end LampUserspace.Stdlib
