import Mathlib.Data.Option.Basic

/-! # Total correctness of partial computations

`Total x P` says that the computation `x` returns, with a value in `P`. Bounded
recursion in the `Option` monad is shown to be total by following its binds.
-/

namespace LampUserspace

universe u v

variable {α β : Type u}

/-- The computation returns a value that satisfies `P`. -/
def Total (x : Option α) (P : α → Prop) : Prop := ∃ a, x = some a ∧ P a

namespace Total

variable {x : Option α} {f : α → Option β} {P Q : α → Prop} {R : β → Prop}

theorem intro {a : α} (hx : x = some a) (ha : P a) : Total x P := ⟨a, hx, ha⟩

theorem pure {a : α} (ha : P a) : Total (pure a) P := ⟨a, rfl, ha⟩

theorem some {a : α} (ha : P a) : Total (some a) P := ⟨a, rfl, ha⟩

theorem bind (hx : Total x P) (hf : ∀ a, x = Option.some a → P a → Total (f a) R) :
    Total (x >>= f) R := by
  obtain ⟨a, rfl, ha⟩ := hx
  exact hf a rfl ha

theorem mono (hx : Total x P) (h : ∀ a, x = Option.some a → P a → Q a) : Total x Q := by
  obtain ⟨a, rfl, ha⟩ := hx
  exact ⟨a, rfl, h a rfl ha⟩

theorem iff_of_eq {a : α} (hx : x = Option.some a) : Total x P ↔ P a := by
  constructor
  · rintro ⟨b, hb, hP⟩
    rwa [Option.some.inj (hx.symm.trans hb)]
  · exact intro hx

theorem ite {c : Prop} [Decidable c] {y : Option α} (hx : c → Total x P) (hy : ¬ c → Total y P) :
    Total (if c then x else y) P := by
  split
  · exact hx ‹_›
  · exact hy ‹_›

/-! ## Runs -/

section Runs

variable {σ : Type u} {ι : Type v} {step : σ → ι → Option σ} {permitted : σ → ι → Prop}
  {inv : σ → Prop}

/-- Every input of the list is permitted in the state in which it is taken. -/
def Along (step : σ → ι → Option σ) (permitted : σ → ι → Prop) (s : σ) : List ι → Prop
  | [] => True
  | i :: is => permitted s i ∧ ∀ t, step s i = Option.some t → Along step permitted t is

/-- Permitted steps that return and keep an invariant make permitted runs that do. -/
theorem foldlM (hstep : ∀ s i, inv s → permitted s i → Total (step s i) inv) {s : σ} {is : List ι}
    (hs : inv s) (his : Along step permitted s is) : Total (is.foldlM step s) inv := by
  induction is generalizing s with
  | nil => exact pure hs
  | cons i is ih => exact bind (hstep s i hs his.1) fun t heq ht => ih ht (his.2 t heq)

end Runs

end Total

end LampUserspace
