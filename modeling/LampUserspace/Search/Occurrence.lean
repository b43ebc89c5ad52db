import Mathlib.Data.List.Basic
import Mathlib.Data.List.Infix

/-! # First occurrences

A pattern occurs in a list at the positions where it begins the rest of the
list. A search reports the first of them; a left-to-right scan over the
nonempty rests of a list is such a search for every nonempty pattern.
-/

namespace LampUserspace

namespace Occurrence

variable {α β : Type*} {n h : List α} {i j : ℕ} {r r' : Option ℕ}

/-- The pattern `n` occurs at `i` and nowhere before. -/
structure First (n h : List α) (i : ℕ) : Prop where
  le : i ≤ h.length
  here : n <+: h.drop i
  least : ∀ j < i, ¬ n <+: h.drop j

/-- A search result: the first occurrence, or nothing exactly when there is none. -/
structure Finds (n h : List α) (r : Option ℕ) : Prop where
  position : ∀ i, r = some i ↔ First n h i
  absent : r = none ↔ ¬ n <:+: h

theorem First.unique (hi : First n h i) (hj : First n h j) : i = j := by
  rcases Nat.lt_trichotomy i j with hlt | heq | hgt
  · exact absurd hi.here (hj.least i hlt)
  · exact heq
  · exact absurd hj.here (hi.least j hgt)

theorem First.infix (hi : First n h i) : n <:+: h :=
  hi.here.isInfix.trans (List.drop_suffix i h).isInfix

theorem infix_iff : n <:+: h ↔ ∃ i ≤ h.length, n <+: h.drop i := by
  constructor
  · rintro ⟨s, t, rfl⟩
    exact ⟨s.length, by simp, t, by simp⟩
  · rintro ⟨i, -, hi⟩
    exact hi.isInfix.trans (List.drop_suffix i h).isInfix

theorem Finds.some (hi : First n h i) : Finds n h (some i) where
  position _ := ⟨fun heq => Option.some.inj heq ▸ hi, fun hj => congrArg _ (hi.unique hj)⟩
  absent := ⟨fun heq => (Option.some_ne_none i heq).elim, fun hn => absurd hi.infix hn⟩

theorem Finds.none (hn : ¬ n <:+: h) : Finds n h none where
  position _ := ⟨fun heq => (Option.some_ne_none _ heq.symm).elim, fun hi => absurd hi.infix hn⟩
  absent := ⟨fun _ => hn, fun _ => rfl⟩

theorem Finds.unique (hr : Finds n h r) (hr' : Finds n h r') : r = r' := by
  cases r with
  | none => exact (hr'.absent.mpr (hr.absent.mp rfl)).symm
  | some i => exact ((hr'.position i).mpr ((hr.position i).mp rfl)).symm

theorem first_nil (h : List α) : First [] h 0 where
  le := Nat.zero_le _
  here := List.nil_prefix
  least j hj := absurd hj j.not_lt_zero

theorem First.cons {x : α} (hx : ¬ n <+: x :: h) (hi : First n h i) : First n (x :: h) (i + 1) where
  le := Nat.succ_le_succ hi.le
  here := hi.here
  least j hj := by
    cases j with
    | zero => exact hx
    | succ j => exact hi.least j (Nat.lt_of_succ_lt_succ hj)

theorem Finds.cons {x : α} (hx : ¬ n <+: x :: h) (hr : Finds n h r) :
    Finds n (x :: h) (r.map (· + 1)) := by
  cases r with
  | none =>
    refine .none fun hin => ?_
    rcases List.infix_cons_iff.mp hin with hpre | hin
    · exact hx hpre
    · exact hr.absent.mp rfl hin
  | some i => exact .some (((hr.position i).mp rfl).cons hx)

/-- The position of the first nonempty rest of a list that passes a test. -/
def firstRest (p : List β → Bool) : List β → Option ℕ
  | [] => none
  | x :: h => if p (x :: h) then some 0 else (firstRest p h).map (· + 1)

/-- A scan that tests the image of every nonempty rest for a nonempty prefix. -/
theorem firstRest_finds {p : List β → Bool} (f : β → α) (hn : n ≠ [])
    (hp : ∀ l, p l ↔ n <+: l.map f) (h : List β) : Finds n (h.map f) (firstRest p h) := by
  induction h with
  | nil => exact .none fun hin => hn (List.infix_nil.mp hin)
  | cons x h ih =>
    rw [firstRest]
    split
    · rename_i hx
      exact .some ⟨Nat.zero_le _, (hp _).mp hx, fun j hj => absurd hj j.not_lt_zero⟩
    · rename_i hx
      exact ih.cons fun hpre => hx ((hp _).mpr hpre)

end Occurrence

end LampUserspace
