import Mathlib.Algebra.Order.Floor.Ring
import Mathlib.Algebra.Order.Floor.Semiring
import Mathlib.Order.WithBot

/-! # Truncation with saturation

A number is converted to an integer by truncation toward zero. What lies beyond
the bounds of the integer type, the infinities among them, goes to the bound.
Both keep the order.
-/

namespace LampUserspace.Binary

section Truncation

variable {α : Type*} [Ring α] [LinearOrder α] [FloorRing α]

/-- The integer part toward zero. -/
def truncate (x : α) : ℤ := if x < 0 then ⌈x⌉ else ⌊x⌋

/-- The truncation of a number or an infinity, kept within the bounds. -/
def saturate (lo hi : ℤ) (x : WithBot (WithTop α)) : ℤ :=
  x.recBotCoe lo (WithTop.recTopCoe hi fun x => max lo (min hi (truncate x)))

variable {lo hi : ℤ} {x y : α}

@[simp] theorem saturate_bot : saturate lo hi (⊥ : WithBot (WithTop α)) = lo := rfl

@[simp] theorem saturate_top :
    saturate lo hi ((⊤ : WithTop α) : WithBot (WithTop α)) = hi := rfl

@[simp] theorem saturate_coe :
    saturate lo hi ((x : WithTop α) : WithBot (WithTop α)) = max lo (min hi (truncate x)) := rfl

theorem truncate_of_nonneg (hx : 0 ≤ x) : truncate x = ⌊x⌋₊ := by
  rw [truncate, if_neg (not_lt.mpr hx), Int.natCast_floor_eq_floor hx]

theorem truncate_le_truncate (h : x ≤ y) : truncate x ≤ truncate y := by
  unfold truncate
  split
  case isTrue hx =>
    split
    case isTrue => exact Int.ceil_le_ceil h
    case isFalse hy =>
      calc
        ⌈x⌉ ≤ 0 := Int.ceil_le.mpr (by simpa using hx.le)
        _ ≤ ⌊y⌋ := Int.floor_nonneg.mpr (not_lt.mp hy)
  case isFalse hx =>
    rw [if_neg (not_lt.mpr ((not_lt.mp hx).trans h))]
    exact Int.floor_le_floor h

theorem saturate_le_saturate (h : lo ≤ hi) {x y : WithBot (WithTop α)} (hxy : x ≤ y) :
    saturate lo hi x ≤ saturate lo hi y := by
  induction x with
  | bot =>
    induction y with
    | bot => exact le_refl _
    | coe y =>
      induction y with
      | top => exact h
      | coe y => exact le_max_left _ _
  | coe x =>
    induction y with
    | bot => exact absurd hxy (WithBot.not_coe_le_bot x)
    | coe y =>
      rw [WithBot.coe_le_coe] at hxy
      induction y with
      | top =>
        induction x with
        | top => exact le_refl _
        | coe x => exact max_le h (min_le_left _ _)
      | coe y =>
        induction x with
        | top => exact absurd hxy (WithTop.not_top_le_coe y)
        | coe x =>
          rw [WithTop.coe_le_coe] at hxy
          exact max_le_max_left lo (min_le_min_left hi (truncate_le_truncate hxy))

variable [IsStrictOrderedRing α]

@[simp] theorem truncate_intCast (n : ℤ) : truncate (n : α) = n := by
  unfold truncate
  split
  · exact Int.ceil_intCast n
  · exact Int.floor_intCast n

theorem truncate_nonneg_iff : 0 ≤ truncate x ↔ -1 < x := by
  unfold truncate
  split
  case isTrue =>
    rw [← Int.sub_one_lt_iff, Int.lt_ceil]
    simp
  case isFalse hx =>
    rw [not_lt] at hx
    exact iff_of_true (Int.floor_nonneg.mpr hx) ((neg_one_lt_zero).trans_le hx)

theorem truncate_lt_iff {n : ℤ} (hn : 0 < n) : truncate x < n ↔ x < n := by
  unfold truncate
  split
  case isTrue hx =>
    have hceil : ⌈x⌉ ≤ 0 := Int.ceil_le.mpr (by simpa using hx.le)
    exact iff_of_true (hceil.trans_lt hn) (hx.trans (Int.cast_pos.mpr hn))
  case isFalse => exact Int.floor_lt

theorem truncate_neg (x : α) : truncate (-x) = -truncate x := by
  unfold truncate
  rcases lt_trichotomy x 0 with hneg | rfl | hpos
  · rw [if_neg (by simpa using hneg.le), if_pos hneg, Int.floor_neg]
  · simp
  · rw [if_pos (by simpa using hpos), if_neg hpos.not_gt, Int.ceil_neg]

end Truncation

end LampUserspace.Binary
