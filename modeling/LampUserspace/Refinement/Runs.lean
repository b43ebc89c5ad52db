import Mathlib.Data.Nat.Notation

/-! # Runs of a machine and refinement

A machine takes a state and an input to a state and an outcome. It refines
another when, under an invariant that permitted steps keep, every permitted step
of the first is the step of the second on the abstracted states, with the same
outcome.
-/

namespace LampUserspace.Refinement

universe u v w x

variable {σ : Type u} {α : Type v} {ι : Type w} {ω : Type x}

/-- The state after a list of inputs and the outcomes, in order. -/
def run (step : σ → ι → σ × ω) (s : σ) : List ι → σ × List ω
  | [] => (s, [])
  | i :: is =>
    let r := step s i
    let rest := run step r.1 is
    (rest.1, r.2 :: rest.2)

/-- Every input of the list is permitted in the state in which it is taken. -/
def Along (step : σ → ι → σ × ω) (permitted : σ → ι → Prop) (s : σ) : List ι → Prop
  | [] => True
  | i :: is => permitted s i ∧ Along step permitted (step s i).1 is

variable {step : σ → ι → σ × ω} {permitted : σ → ι → Prop} {inv : σ → Prop}

/-- The machine `step` refines `spec` through the abstraction `abs`. -/
structure Refines (step : σ → ι → σ × ω) (spec : α → ι → α × ω) (abs : σ → α) (inv : σ → Prop)
    (permitted : σ → ι → Prop) : Prop where
  keeps : ∀ s i, inv s → permitted s i → inv (step s i).1
  simulates : ∀ s i, inv s → permitted s i →
    spec (abs s) i = (abs (step s i).1, (step s i).2)

/-- Whole runs have the outcomes, and end in the states, of the refined machine. -/
theorem Refines.run {spec : α → ι → α × ω} {abs : σ → α}
    (h : Refines step spec abs inv permitted) {s : σ} {is : List ι} (hs : inv s)
    (his : Along step permitted s is) :
    run spec (abs s) is = (abs (run step s is).1, (run step s is).2) := by
  induction is generalizing s with
  | nil => rfl
  | cons i is ih =>
    have hrest := ih (h.keeps s i hs his.1) his.2
    simp only [Refinement.run, h.simulates s i hs his.1, hrest]

end LampUserspace.Refinement
