import Mathlib.Data.Int.Notation
import LampUserspace.Libc.Ctype

/-! # String functions

Functions of `libc_string.c` on the bytes of strings. A pointer into a string is
the number of bytes before it.
-/

namespace LampUserspace

/-- `strchr` on the bytes before the terminator. -/
def strchr (c : UInt8) : List UInt8 → Option ℕ
  | [] => if c = 0 then some 0 else none
  | x :: s => if x = c then some 0 else (strchr c s).map (· + 1)

def strncmp : List UInt8 → List UInt8 → ℕ → ℤ
  | _, _, 0 => 0
  | x :: a, y :: b, n + 1 =>
    if x ≠ y ∨ x = 0 ∨ y = 0 then x.toNat - y.toNat else strncmp a b n
  | _, _, _ => 0

/-- The string at a pointer into an object of bytes. -/
def stringFrom (buf : List UInt8) (p : ℕ) : List UInt8 := (buf.drop p).takeWhile (· ≠ 0)

namespace CString

def take (s : CString) (n : ℕ) : CString where
  bytes := s.bytes.take n
  nul_free := fun h => s.nul_free (List.mem_of_mem_take h)

def drop (s : CString) (n : ℕ) : CString where
  bytes := s.bytes.drop n
  nul_free := fun h => s.nul_free (List.mem_of_mem_drop h)

end CString

variable {c : UInt8} {s a b : List UInt8} {i : ℕ}

theorem strchr_eq_some (h : strchr c s = some i) (hc : c ≠ 0) :
    ∃ xs ys, s = xs ++ c :: ys ∧ c ∉ xs ∧ i = xs.length := by
  induction s generalizing i with
  | nil =>
    rw [strchr, if_neg hc] at h
    cases h
  | cons x s ih =>
    rw [strchr] at h
    split at h
    · rename_i hx
      exact ⟨[], s, by rw [hx]; rfl, List.not_mem_nil, (Option.some.inj h).symm⟩
    · rename_i hx
      obtain ⟨j, hj, rfl⟩ := Option.map_eq_some_iff.mp h
      obtain ⟨xs, ys, rfl, hxs, rfl⟩ := ih hj
      exact ⟨x :: xs, ys, rfl, by simp [hxs, Ne.symm hx], rfl⟩

theorem strchr_append (h : c ∉ a) : strchr c (a ++ c :: s) = some a.length := by
  induction a with
  | nil => exact if_pos rfl
  | cons x a ih =>
    have hx : x ≠ c := fun heq => h (heq ▸ List.mem_cons_self)
    rw [List.cons_append, strchr, if_neg hx, ih fun hmem => h (List.mem_cons_of_mem _ hmem)]
    rfl

theorem strchr_eq_none (hc : c ≠ 0) : strchr c s = none ↔ c ∉ s := by
  constructor
  · intro h hmem
    obtain ⟨xs, ys, rfl, hxs⟩ := List.eq_append_cons_of_mem hmem
    rw [strchr_append hxs] at h
    cases h
  · intro h
    by_contra hne
    obtain ⟨i, hi⟩ := Option.ne_none_iff_exists'.mp hne
    obtain ⟨xs, ys, rfl, -⟩ := strchr_eq_some hi hc
    exact h (by simp)

theorem stringFrom_append (ha : 0 ∉ a) : stringFrom (b ++ (a ++ 0 :: s)) b.length = a := by
  have hbytes : ∀ x ∈ a, decide (x ≠ 0) = true := fun x hx =>
    decide_eq_true fun heq => ha (heq ▸ hx)
  rw [stringFrom, List.drop_left, List.takeWhile_append_of_pos hbytes]
  simp

/-- Comparing as many bytes as a string has says whether it is a prefix. -/
theorem strncmp_eq_zero (hb : 0 ∉ b) : strncmp (a ++ [0]) (b ++ [0]) b.length = 0 ↔ b <+: a := by
  induction b generalizing a with
  | nil => simp [strncmp]
  | cons y b ih =>
    have hy : y ≠ 0 := fun heq => hb (heq ▸ List.mem_cons_self)
    cases a with
    | nil =>
      have hpos : y.toNat ≠ 0 := fun heq => hy (UInt8.toNat_inj.mp heq)
      simp [strncmp, Ne.symm hy, hpos]
    | cons x a =>
      simp only [List.cons_append, List.length_cons, strncmp, List.cons_prefix_cons]
      by_cases hxy : x = y
      · subst hxy
        rw [if_neg (by simp [hy]), ih fun hmem => hb (List.mem_cons_of_mem _ hmem)]
        simp
      · have hne : x.toNat ≠ y.toNat := fun heq => hxy (UInt8.toNat_inj.mp heq)
        rw [if_pos (Or.inl hxy)]
        simp only [Ne.symm hxy, false_and, iff_false]
        omega

end LampUserspace
