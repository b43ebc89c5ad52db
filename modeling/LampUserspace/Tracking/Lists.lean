import Mathlib.Data.List.Forall2
import Mathlib.Order.Basic

/-! # Lists whose entries only grow

A list that is edited in place is compared with the list it would be if the
edits had left its entries alone. When an edit can only make an entry larger,
the two agree in the end exactly when no edit has changed an entry.
-/

namespace LampUserspace.Tracking

variable {α : Type*}

/-- Both entries are empty, or the first has grown from the second. -/
inductive Grown [LE α] : Option α → Option α → Prop

  | none : Grown none none

  | some {x y : α} : y ≤ x → Grown (some x) (some y)

/-- The entries of `X` have grown from those of `I`. -/
def Dominates [LE α] (X I : List (Option α)) : Prop := List.Forall₂ Grown X I

/-- From `X` and `I` to `X'` and `I'` by an edit that leaves the entries alone if `C` holds. -/
structure Tracks [LE α] (X I : List (Option α)) (C : Prop) (X' I' : List (Option α)) :
    Prop where
  dominates : Dominates X' I'
  eq_iff : X' = I' ↔ X = I ∧ C

variable [PartialOrder α] {f : α → α} {X X' X'' I I' I'' : List (Option α)} {C C' : Prop}

theorem Grown.refl : (a : Option α) → Grown a a
  | .none => .none
  | .some _ => .some le_rfl

namespace Dominates

theorem refl (X : List (Option α)) : Dominates X X :=
  List.forall₂_same.mpr fun a _ => Grown.refl a

theorem length_eq (h : Dominates X I) : X.length = I.length := List.Forall₂.length_eq h

theorem append (h : Dominates X I) (h' : Dominates X' I') : Dominates (X ++ X') (I ++ I') :=
  List.rel_append h h'

theorem take (h : Dominates X I) (n : ℕ) : Dominates (X.take n) (I.take n) :=
  List.forall₂_take n h

theorem drop (h : Dominates X I) (n : ℕ) : Dominates (X.drop n) (I.drop n) :=
  List.forall₂_drop n h

theorem getElem?_none (h : Dominates X I) {k : ℕ} (hk : I[k]? = some none) :
    X[k]? = some none := by
  induction h generalizing k with
  | nil => exact hk
  | cons hg _ ih =>
    cases k with
    | zero =>
      cases hg with
      | none => rfl
      | some _ => exact nomatch hk
    | succ k => exact ih hk

theorem map (h : Dominates X I) (hf : ∀ x, x ≤ f x) : Dominates (X.map (Option.map f)) I := by
  induction h with
  | nil => exact .nil
  | cons hg _ ih =>
    refine .cons ?_ ih
    cases hg with
    | none => exact .none
    | some hle => exact .some (hle.trans (hf _))

theorem map_eq_iff (h : Dominates X I) (hf : ∀ x, x ≤ f x) :
    X.map (Option.map f) = I ↔ X = I ∧ ∀ x, some x ∈ I → f x = x := by
  induction h with
  | nil => simp
  | @cons a b X I hg _ ih =>
    rw [List.map_cons, List.cons.injEq, List.cons.injEq, ih]
    cases hg with
    | none => simp
    | @some x y hle =>
      simp only [Option.map_some, Option.some.injEq, List.mem_cons]
      constructor
      · rintro ⟨rfl, rfl, hI⟩
        have hx : x = f x := le_antisymm (hf x) hle
        refine ⟨⟨hx, rfl⟩, fun z hz => ?_⟩
        rcases hz with rfl | hz
        · exact congrArg f hx.symm
        · exact hI z hz
      · rintro ⟨⟨rfl, rfl⟩, hI⟩
        exact ⟨hI x (.inl rfl), rfl, fun z hz => hI z (.inr hz)⟩

end Dominates

namespace Tracks

theorem refl (h : Dominates X I) : Tracks X I True X I := ⟨h, by simp⟩

theorem trans (h : Tracks X I C X' I') (h' : Tracks X' I' C' X'' I'') :
    Tracks X I (C ∧ C') X'' I'' :=
  ⟨h'.dominates, by rw [h'.eq_iff, h.eq_iff, and_assoc]⟩

theorem congr (h : Tracks X I C X' I') (hC : C ↔ C') : Tracks X I C' X' I' :=
  ⟨h.dominates, by rw [h.eq_iff, hC]⟩

theorem append (h : Tracks X I C X' I') (Z : List (Option α)) :
    Tracks X I C (X' ++ Z) (I' ++ Z) :=
  ⟨h.dominates.append (.refl Z), by rw [List.append_left_inj, h.eq_iff]⟩

theorem insert (h : Dominates X I) (hf : ∀ x, x ≤ f x) (k : ℕ) :
    Tracks X I (∀ x, some x ∈ I → f x = x)
      ((X.take k ++ none :: X.drop k).map (Option.map f)) (I.take k ++ none :: I.drop k) := by
  have hins : Dominates (X.take k ++ none :: X.drop k) (I.take k ++ none :: I.drop k) :=
    (h.take k).append (.cons .none (h.drop k))
  refine ⟨hins.map hf, ?_⟩
  rw [hins.map_eq_iff hf]
  have hmem : ∀ x, some x ∈ I.take k ++ none :: I.drop k ↔ some x ∈ I := by
    intro x
    rw [List.mem_append, List.mem_cons]
    simp only [reduceCtorEq, false_or]
    rw [← List.mem_append, List.take_append_drop]
  simp only [hmem]
  refine and_congr_left fun _ => ?_
  constructor
  · intro he
    obtain ⟨ht, hd⟩ := List.append_inj he (h.take k).length_eq
    rw [← List.take_append_drop k X, ht, (List.cons.inj hd).2, List.take_append_drop]
  · rintro rfl
    rfl

theorem copy (h : Dominates X I) (hf : ∀ x, x ≤ f x) (k n : ℕ) :
    Tracks X I (∀ x, some x ∈ (I.drop k).take n → f x = x)
      (X ++ ((X.drop k).take n).map (Option.map f)) (I ++ (I.drop k).take n) := by
  have hw := (h.drop k).take n
  refine ⟨h.append (hw.map hf), ?_⟩
  constructor
  · intro he
    obtain ⟨rfl, hwin⟩ := List.append_inj he h.length_eq
    exact ⟨rfl, ((hw.map_eq_iff hf).mp hwin).2⟩
  · rintro ⟨rfl, hfix⟩
    rw [(hw.map_eq_iff hf).mpr ⟨rfl, hfix⟩]

end Tracks

end LampUserspace.Tracking
