import Mathlib.Logic.Function.Basic

/-! # Copies one after the other

A store of values is copied from place to place, one copy after the other. The
copies may read and write one store, so their order matters: where none of them
overwrites what a later one reads or wrote, they do what copying all at once does.
-/

namespace LampUserspace

namespace Copying

variable {ι α β : Type*} {dst src : ι → α} {is : List ι} {x : α} {m m' : α → β}

/-- The places are copied all at once, and the others are left as they were. -/
structure Copied (dst src : ι → α) (is : List ι) (m m' : α → β) : Prop where
  copied : ∀ i ∈ is, m' (dst i) = m (src i)
  frame : ∀ x, (∀ i ∈ is, x ≠ dst i) → m' x = m x

/-- No copy overwrites what a later one reads or writes. -/
def Safe (dst src : ι → α) (is : List ι) : Prop :=
  is.Pairwise fun i j => dst i ≠ src j ∧ dst i ≠ dst j

variable [DecidableEq α]

/-- Copy the place `src i` to the place `dst i` for the indices in order. -/
def copyEach (dst src : ι → α) : List ι → (α → β) → α → β
  | [], m => m
  | i :: is, m => copyEach dst src is (Function.update m (dst i) (m (src i)))

theorem copyEach_append (is js : List ι) (m : α → β) :
    copyEach dst src (is ++ js) m = copyEach dst src js (copyEach dst src is m) := by
  induction is generalizing m with
  | nil => rfl
  | cons i is ih => exact ih _

theorem copyEach_frame (h : ∀ i ∈ is, x ≠ dst i) (m : α → β) : copyEach dst src is m x = m x := by
  induction is generalizing m with
  | nil => rfl
  | cons i is ih =>
    obtain ⟨hi, his⟩ := List.forall_mem_cons.mp h
    rw [copyEach, ih his, Function.update_of_ne hi]

theorem Safe.copied (h : Safe dst src is) (m : α → β) :
    Copied dst src is m (copyEach dst src is m) := by
  refine ⟨?_, fun x hx => copyEach_frame hx m⟩
  induction is generalizing m with
  | nil => exact fun i hi => absurd hi List.not_mem_nil
  | cons i is ih =>
    obtain ⟨hi, his⟩ := List.pairwise_cons.mp h
    refine List.forall_mem_cons.mpr ⟨?_, fun j hj => ?_⟩
    · rw [copyEach, copyEach_frame fun j hj => (hi j hj).2, Function.update_self]
    · -- the copy to `dst i` leaves the source of a later copy as it was
      rw [copyEach, ih his _ j hj, Function.update_of_ne (hi j hj).1.symm]

end Copying

end LampUserspace
