import Mathlib.Data.List.TakeWhile
import Mathlib.Data.Nat.Digits.Lemmas

/-! # Positional numerals

Numbers written with characters of any kind, the most significant digit first. A
reader is given the digit that a character stands for, a writer the character of
a digit; a reader that reads back the writer's characters reads its numbers.
-/

namespace LampUserspace.Numerals

variable {α : Type*} (value : α → Option ℕ) (b : ℕ)

def isDigit (c : α) : Bool := (value c).any (· < b)

def digitRun (s : List α) : List α := s.takeWhile (isDigit value b)

def afterRun (s : List α) : List α := s.dropWhile (isDigit value b)

/-- The number `n` followed by the digits `s`. -/
def extend (n : ℕ) (s : List α) : ℕ := s.foldl (fun n c => n * b + (value c).getD 0) n

def number (s : List α) : ℕ := extend value b 0 s

@[simp] theorem extend_nil (n : ℕ) : extend value b n [] = n := rfl

@[simp] theorem extend_cons (n : ℕ) (c : α) (s : List α) :
    extend value b n (c :: s) = extend value b (n * b + (value c).getD 0) s := rfl

theorem extend_eq (n : ℕ) (s : List α) :
    extend value b n s = n * b ^ s.length + number value b s := by
  induction s generalizing n with
  | nil => simp [number]
  | cons c s ih =>
    have hnumber : number value b (c :: s) =
        (0 * b + (value c).getD 0) * b ^ s.length + number value b s := ih _
    rw [extend_cons, ih, hnumber, List.length_cons, pow_succ]
    ring

theorem le_extend (hb : 0 < b) (n : ℕ) (s : List α) : n ≤ extend value b n s := by
  rw [extend_eq]
  exact Nat.le_add_right_of_le (Nat.le_mul_of_pos_right n (Nat.pow_pos hb))

theorem number_eq_ofDigits (s : List α) :
    number value b s = Nat.ofDigits b (s.map fun c => (value c).getD 0).reverse := by
  induction s with
  | nil => rfl
  | cons c s ih =>
    rw [number, extend_cons, extend_eq, ih, List.map_cons, List.reverse_cons, Nat.ofDigits_append,
      Nat.ofDigits_singleton, List.length_reverse, List.length_map]
    ring

section Runs

variable {value b} {c : α}

theorem isDigit_iff : isDigit value b c = true ↔ ∃ d, value c = some d ∧ d < b := by
  simp [isDigit, Option.any_eq_true]

theorem digitRun_cons (h : isDigit value b c = true) (s : List α) :
    digitRun value b (c :: s) = c :: digitRun value b s :=
  List.takeWhile_cons_of_pos h

theorem digitRun_stop (h : isDigit value b c = false) (s : List α) :
    digitRun value b (c :: s) = [] :=
  List.takeWhile_cons_of_neg (by simp [h])

theorem afterRun_cons (h : isDigit value b c = true) (s : List α) :
    afterRun value b (c :: s) = afterRun value b s :=
  List.dropWhile_cons_of_pos h

theorem afterRun_stop (h : isDigit value b c = false) (s : List α) :
    afterRun value b (c :: s) = c :: s :=
  List.dropWhile_cons_of_neg (by simp [h])

theorem digitRun_append_afterRun (s : List α) : digitRun value b s ++ afterRun value b s = s :=
  List.takeWhile_append_dropWhile

theorem digitRun_eq_nil_iff {s : List α} :
    digitRun value b s = [] ↔ ∀ c, s.head? = some c → isDigit value b c = false := by
  cases s with
  | nil => simp [digitRun]
  | cons c s =>
    by_cases h : isDigit value b c = true
    · simp [digitRun_cons h, h]
    · simp [digitRun_stop (Bool.not_eq_true _ ▸ h), h]

theorem afterRun_eq_self {s : List α} (h : digitRun value b s = []) : afterRun value b s = s := by
  have happ : digitRun value b s ++ afterRun value b s = s := digitRun_append_afterRun s
  rwa [h, List.nil_append] at happ

theorem mem_digitRun {s : List α} (h : c ∈ digitRun value b s) : isDigit value b c = true :=
  List.mem_takeWhile_imp h

theorem digitRun_append {s t : List α} (hs : ∀ c ∈ s, isDigit value b c = true)
    (ht : digitRun value b t = []) : digitRun value b (s ++ t) = s := by
  rw [digitRun, List.takeWhile_append_of_pos hs]
  change s ++ digitRun value b t = s
  rw [ht, List.append_nil]

theorem afterRun_append {s t : List α} (hs : ∀ c ∈ s, isDigit value b c = true)
    (ht : digitRun value b t = []) : afterRun value b (s ++ t) = t := by
  rw [afterRun, List.dropWhile_append_of_pos hs]
  exact afterRun_eq_self ht

end Runs

/-! ## Writing -/

/-- The number `v`, with the characters that `char` gives its digits. -/
def write (char : ℕ → α) (v : ℕ) : List α :=
  if v = 0 then [char 0] else ((Nat.digits b v).map char).reverse

section Write

variable {value b} {char : ℕ → α}

theorem write_ne_nil (v : ℕ) : write b char v ≠ [] := by
  unfold write
  split
  · simp
  · simpa [Nat.digits_ne_nil_iff_ne_zero]

variable (hb : 1 < b) (hchar : ∀ d < b, value (char d) = some d)
include hb hchar

theorem isDigit_of_mem_write {v : ℕ} {c : α} (h : c ∈ write b char v) :
    isDigit value b c = true := by
  unfold write at h
  split at h
  · obtain rfl := List.mem_singleton.mp h
    exact isDigit_iff.mpr ⟨0, hchar 0 (by omega), by omega⟩
  · obtain ⟨d, hd, rfl⟩ := List.mem_map.mp (List.mem_reverse.mp h)
    have hlt := Nat.digits_lt_base hb hd
    exact isDigit_iff.mpr ⟨d, hchar d hlt, hlt⟩

theorem number_write (v : ℕ) : number value b (write b char v) = v := by
  unfold write
  split
  · rename_i h
    simp [number, hchar 0 (by omega), h]
  · have hback : ((Nat.digits b v).map char).map (fun c => (value c).getD 0) =
        Nat.digits b v := by
      rw [List.map_map]
      conv_rhs => rw [← List.map_id (Nat.digits b v)]
      apply List.map_congr_left
      intro d hd
      simp [hchar d (Nat.digits_lt_base hb hd)]
    rw [number_eq_ofDigits, List.map_reverse, List.reverse_reverse, hback, Nat.ofDigits_digits]

end Write

end LampUserspace.Numerals
