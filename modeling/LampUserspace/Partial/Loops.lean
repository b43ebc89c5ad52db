import LampUserspace.Partial.Total
import Mathlib.Data.Nat.Notation

/-! # Loops that test before each round

`whileDo test body n s` runs `while (test) body` from the state `s`, at most `n`
rounds. It returns a state in which the test fails, or nothing when the rounds
are used up. An invariant and a measure that every round decreases make it total.
-/

namespace LampUserspace

universe u

variable {σ : Type u} {test : σ → Bool} {body : σ → σ}

/-- Run the body while the test holds, at most the given number of rounds. -/
def whileDo (test : σ → Bool) (body : σ → σ) : ℕ → σ → Option σ
  | 0, s => if test s then none else some s
  | n + 1, s => if test s then whileDo test body n (body s) else some s

/-- A loop whose rounds keep an invariant and decrease a measure returns within the measure. -/
theorem whileDo_total (inv : σ → Prop) (measure : σ → ℕ)
    (hbody : ∀ s, inv s → test s → inv (body s) ∧ measure (body s) < measure s) {n : ℕ} {s : σ}
    (hs : inv s) (hn : measure s ≤ n) :
    Total (whileDo test body n s) fun t => inv t ∧ test t = false := by
  induction n generalizing s with
  | zero =>
    have hstop : ¬ test s = true := fun htest => by
      have := (hbody s hs htest).2
      omega
    rw [whileDo, if_neg hstop]
    exact .some ⟨hs, Bool.eq_false_iff.mpr hstop⟩
  | succ n ih =>
    by_cases htest : test s = true
    · obtain ⟨hinv, hlt⟩ := hbody s hs htest
      rw [whileDo, if_pos htest]
      exact ih hinv (by omega)
    · rw [whileDo, if_neg htest]
      exact .some ⟨hs, Bool.eq_false_iff.mpr htest⟩

end LampUserspace
