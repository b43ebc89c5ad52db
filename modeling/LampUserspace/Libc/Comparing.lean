import LampUserspace.Libc.Strings

/-! # Comparing strings

`strcmp`, `strncmp`, `strcasecmp` and `strncasecmp` of `libc_string.c`. Each is
the difference at the first place where the two strings, or what is left of them
by the bound and by the folding of case, are not the same, and so its sign is
their lexicographic order. `strcmp` and `strncmp` compare the bytes unsigned; the
other two compare them as plain characters, whose sign is the compiler's choice.
-/

namespace LampUserspace

def charValue (signed : Bool) (x : UInt8) : ℤ := if signed then x.toInt8.toInt else x.toNat

/-- `strcmp` on the bytes of two strings, with their terminators. -/
def strcmp : List UInt8 → List UInt8 → ℤ
  | x :: a, y :: b => if x ≠ 0 ∧ x = y then strcmp a b else x.toNat - y.toNat
  | _, _ => 0

section Folding

variable (signed : Bool)

/-- `tolower` of a plain `char`; the folding leaves all bytes from 128 on alone. -/
def loweredValue (x : UInt8) : ℤ := charValue signed (tolower x)

def strcasecmp : List UInt8 → List UInt8 → ℤ
  | x :: a, y :: b =>
    let d := loweredValue signed x - loweredValue signed y
    if x ≠ 0 ∧ y ≠ 0 then if d ≠ 0 then d else strcasecmp a b
    else d
  | _, _ => 0

def strncasecmp : List UInt8 → List UInt8 → ℕ → ℤ
  | _, _, 0 => 0
  | x :: a, y :: b, n + 1 =>
    let d := loweredValue signed x - loweredValue signed y
    if x ≠ 0 ∧ y ≠ 0 then if d ≠ 0 then d else strncasecmp a b n
    else d
  | _, _, _ => 0

end Folding

structure Compares {α : Type*} [LT α] (d : ℤ) (u v : α) : Prop where
  lt : d < 0 ↔ u < v
  eq : d = 0 ↔ u = v
  gt : 0 < d ↔ v < u

/-- The unsigned values of a string's bytes and its terminator. -/
def values (s : CString) : List ℤ := s.memory.map fun x => x.toNat

def lowered (signed : Bool) (s : CString) : List ℤ := s.memory.map (loweredValue signed)

/-! ## The first difference -/

section Difference

variable {f : UInt8 → ℤ} {a b : List UInt8} {n : ℕ} {signed : Bool}

/-- The difference of `f` at the first bytes for which it differs, or at the terminators. -/
def difference (f : UInt8 → ℤ) : List UInt8 → List UInt8 → ℤ
  | x :: a, y :: b => if x ≠ 0 ∧ f x = f y then difference f a b else f x - f y
  | _, _ => 0

theorem difference_compares (hf : ∀ x, f x = 0 ↔ x = 0) (ha : 0 ∉ a) (hb : 0 ∉ b) :
    Compares (difference f (a ++ [0]) (b ++ [0])) ((a ++ [0]).map f) ((b ++ [0]).map f) := by
  have hzero : f 0 = 0 := (hf 0).mpr rfl
  induction a generalizing b with
  | nil =>
    cases b with
    | nil => exact ⟨by simp [difference], by simp [difference], by simp [difference]⟩
    | cons y b =>
      have hy : f y ≠ 0 := fun heq => hb ((hf y).mp heq ▸ List.mem_cons_self)
      refine ⟨?_, ?_, ?_⟩ <;> simp [difference, hzero, List.cons_lt_cons_iff] <;> omega
  | cons x a ih =>
    obtain ⟨hx, ha⟩ : x ≠ 0 ∧ 0 ∉ a := by
      simpa [eq_comm] using ha
    have hfx : f x ≠ 0 := fun heq => hx ((hf x).mp heq)
    cases b with
    | nil =>
      refine ⟨?_, ?_, ?_⟩ <;> simp [difference, hzero, hfx, Ne.symm hfx, List.cons_lt_cons_iff]
    | cons y b =>
      obtain ⟨hy, hb⟩ : y ≠ 0 ∧ 0 ∉ b := by
        simpa [eq_comm] using hb
      obtain ⟨hlt, heq, hgt⟩ := ih ha hb
      simp only [List.cons_append, List.map_cons, difference]
      by_cases hxy : f x = f y
      · rw [if_pos ⟨hx, hxy⟩, hxy]
        refine ⟨?_, ?_, ?_⟩
        · rw [hlt, List.cons_lt_cons_iff]
          simp
        · rw [heq]
          simp
        · rw [hgt, List.cons_lt_cons_iff]
          simp
      · rw [if_neg fun h => hxy h.2]
        refine ⟨?_, ?_, ?_⟩
        · rw [List.cons_lt_cons_iff]
          omega
        · rw [List.cons.injEq]
          omega
        · rw [List.cons_lt_cons_iff]
          omega

theorem toNat_eq_zero (x : UInt8) : (x.toNat : ℤ) = 0 ↔ x = 0 := by
  rw [← UInt8.toNat_inj, Int.natCast_eq_zero]
  rfl

theorem charValue_eq_zero (x : UInt8) : charValue signed x = 0 ↔ x = 0 := by
  cases signed with
  | false => exact toNat_eq_zero x
  | true =>
    rw [charValue, if_pos rfl, ← Int8.toInt_zero, Int8.toInt_inj, ← Int8.toBitVec_inj,
      UInt8.toBitVec_toInt8, ← UInt8.toBitVec_inj]
    rfl

theorem loweredValue_eq_zero (x : UInt8) : loweredValue signed x = 0 ↔ x = 0 := by
  rw [loweredValue, charValue_eq_zero, tolower_eq_iff rfl]

/-! ## The functions -/

theorem strcmp_eq_difference (a b : List UInt8) :
    strcmp a b = difference (fun x => x.toNat) a b := by
  induction a generalizing b with
  | nil => rfl
  | cons x a ih =>
    cases b with
    | nil => rfl
    | cons y b => simp only [strcmp, difference, ih, Int.natCast_inj, UInt8.toNat_inj]

theorem strcasecmp_eq_difference (a b : List UInt8) :
    strcasecmp signed a b = difference (loweredValue signed) a b := by
  induction a generalizing b with
  | nil => rfl
  | cons x a ih =>
    cases b with
    | nil => rfl
    | cons y b =>
      have hx : loweredValue signed x = 0 ↔ x = 0 := loweredValue_eq_zero x
      have hy : loweredValue signed y = 0 ↔ y = 0 := loweredValue_eq_zero y
      simp only [strcasecmp, difference, ih]
      by_cases hzero : x = 0
      · rw [if_neg fun h => h.1 hzero, if_neg fun h => h.1 hzero]
      · by_cases hxy : loweredValue signed x = loweredValue signed y
        · have hne : y ≠ 0 := fun heq => hzero (hx.mp (hxy.trans (hy.mpr heq)))
          rw [if_pos ⟨hzero, hne⟩, if_neg (by omega), if_pos ⟨hzero, hxy⟩]
        · rw [if_neg (c := x ≠ 0 ∧ loweredValue signed x = loweredValue signed y) fun h => hxy h.2,
            if_pos (c := _ ≠ 0) (by omega), ite_self]

theorem strncmp_eq_difference (ha : 0 ∉ a) (hb : 0 ∉ b) :
    strncmp (a ++ [0]) (b ++ [0]) n =
      difference (fun x => x.toNat) (a.take n ++ [0]) (b.take n ++ [0]) := by
  induction n generalizing a b with
  | zero => simp [strncmp, difference]
  | succ n ih =>
    cases a with
    | nil => cases b <;> simp [strncmp, difference]
    | cons x a =>
      have hx : x ≠ 0 := fun heq => ha (heq ▸ List.mem_cons_self)
      cases b with
      | nil => simp [strncmp, difference, hx]
      | cons y b =>
        have hy : y ≠ 0 := fun heq => hb (heq ▸ List.mem_cons_self)
        have ih := ih (fun h => ha (List.mem_cons_of_mem _ h))
          fun h => hb (List.mem_cons_of_mem _ h)
        simp only [List.cons_append, List.take_succ_cons, strncmp, difference, ih, hx, hy,
          Int.natCast_inj, UInt8.toNat_inj, ne_eq, or_false, not_false_eq_true, true_and, ite_not]

theorem strncasecmp_eq_difference (ha : 0 ∉ a) (hb : 0 ∉ b) :
    strncasecmp signed (a ++ [0]) (b ++ [0]) n =
      difference (loweredValue signed) (a.take n ++ [0]) (b.take n ++ [0]) := by
  induction n generalizing a b with
  | zero => simp [strncasecmp, difference]
  | succ n ih =>
    cases a with
    | nil => cases b <;> simp [strncasecmp, difference]
    | cons x a =>
      have hx : x ≠ 0 := fun heq => ha (heq ▸ List.mem_cons_self)
      cases b with
      | nil =>
        have hne : loweredValue signed x ≠ loweredValue signed 0 := fun heq =>
          hx ((loweredValue_eq_zero x).mp (heq.trans ((loweredValue_eq_zero 0).mpr rfl)))
        simp [strncasecmp, difference, hx, hne]
      | cons y b =>
        have hy : y ≠ 0 := fun heq => hb (heq ▸ List.mem_cons_self)
        have ih := ih (fun h => ha (List.mem_cons_of_mem _ h))
          fun h => hb (List.mem_cons_of_mem _ h)
        simp only [List.cons_append, List.take_succ_cons, strncasecmp, difference, ih, hx, hy,
          ne_eq, not_false_eq_true, and_self, true_and, if_true]
        split_ifs <;> first | rfl | omega

end Difference

/-- The comparison functions tell the lexicographic order of the strings, of their beginnings and
of their lower-case forms. -/
theorem comparisons_order (signed : Bool) (s t : CString) (n : ℕ) :
    Compares (strcmp s.memory t.memory) (values s) (values t) ∧
      Compares (strncmp s.memory t.memory n) (values (s.take n)) (values (t.take n)) ∧
      Compares (strcasecmp signed s.memory t.memory) (lowered signed s) (lowered signed t) ∧
      Compares (strncasecmp signed s.memory t.memory n) (lowered signed (s.take n))
        (lowered signed (t.take n)) := by
  refine ⟨?_, ?_, ?_, ?_⟩
  · rw [strcmp_eq_difference]
    exact difference_compares toNat_eq_zero s.nul_free t.nul_free
  · rw [CString.memory, CString.memory, strncmp_eq_difference s.nul_free t.nul_free]
    exact difference_compares toNat_eq_zero (s.take n).nul_free (t.take n).nul_free
  · rw [strcasecmp_eq_difference]
    exact difference_compares loweredValue_eq_zero s.nul_free t.nul_free
  · rw [CString.memory, CString.memory, strncasecmp_eq_difference s.nul_free t.nul_free]
    exact difference_compares loweredValue_eq_zero (s.take n).nul_free (t.take n).nul_free

end LampUserspace
