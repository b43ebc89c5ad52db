import Mathlib.Data.List.Chain
import Mathlib.Data.Nat.Notation

/-! # Blocks that tile an interval of addresses

A list of blocks, each a header of a fixed size and a payload, laid out one after
another from a first address. Payloads of different blocks are apart; joining a
free block with a free neighbour, its header included, keeps the interval and
the used blocks.
-/

namespace LampUserspace.Tiling

/-- A block: the size of its payload and whether it is free. -/
structure Block where
  size : ℕ
  free : Bool
  deriving DecidableEq

section

-- the size of a header
variable (hd : ℕ)

def stop (a : ℕ) : List Block → ℕ
  | [] => a
  | b :: bs => stop (a + hd + b.size) bs

def payloads (a : ℕ) : List Block → List (ℕ × Block)
  | [] => []
  | b :: bs => (a + hd, b) :: payloads (a + hd + b.size) bs

/-- Join every free block with the free blocks that follow it, `p` being the block before `bs`. -/
def coalesce (p : Block) : List Block → List Block
  | [] => [p]
  | b :: bs =>
    if p.free ∧ b.free then coalesce ⟨p.size + (hd + b.size), true⟩ bs else p :: coalesce b bs

variable {hd} {a q r : ℕ} {b c p : Block} {bs xs ys : List Block}

theorem stop_append (a : ℕ) (xs ys : List Block) :
    stop hd a (xs ++ ys) = stop hd (stop hd a xs) ys := by
  induction xs generalizing a with
  | nil => rfl
  | cons x xs ih => exact ih _

theorem le_stop (a : ℕ) (bs : List Block) : a ≤ stop hd a bs := by
  induction bs generalizing a with
  | nil => exact Nat.le_refl a
  | cons b bs ih => exact Nat.le_trans (by omega) (ih _)

theorem length_le_stop (a : ℕ) (bs : List Block) : a + hd * bs.length ≤ stop hd a bs := by
  induction bs generalizing a with
  | nil => exact Nat.le_refl a
  | cons b bs ih =>
    have hrest := ih (a + hd + b.size)
    rw [List.length_cons, Nat.mul_succ]
    exact Nat.le_trans (by omega) hrest

theorem payloads_append (a : ℕ) (xs ys : List Block) :
    payloads hd a (xs ++ ys) = payloads hd a xs ++ payloads hd (stop hd a xs) ys := by
  induction xs generalizing a with
  | nil => rfl
  | cons x xs ih => exact congrArg (_ :: ·) (ih _)

theorem payloads_bounds (h : (q, c) ∈ payloads hd a bs) :
    a + hd ≤ q ∧ q + c.size ≤ stop hd a bs := by
  induction bs generalizing a with
  | nil => cases h
  | cons b bs ih =>
    rcases List.mem_cons.mp h with heq | hmem
    · obtain ⟨rfl, rfl⟩ := Prod.mk.inj heq
      exact ⟨Nat.le_refl _, le_stop _ _⟩
    · obtain ⟨hlow, hhigh⟩ := ih hmem
      exact ⟨by omega, hhigh⟩

theorem exists_split (h : (q, c) ∈ payloads hd a bs) :
    ∃ xs ys, bs = xs ++ c :: ys ∧ q = stop hd a xs + hd := by
  induction bs generalizing a with
  | nil => cases h
  | cons b bs ih =>
    rcases List.mem_cons.mp h with heq | hmem
    · obtain ⟨rfl, rfl⟩ := Prod.mk.inj heq
      exact ⟨[], bs, rfl, rfl⟩
    · obtain ⟨xs, ys, rfl, hq⟩ := ih hmem
      exact ⟨b :: xs, ys, rfl, hq⟩

theorem payloads_apart (hb : (q, b) ∈ payloads hd a bs) (hc : (r, c) ∈ payloads hd a bs) :
    q = r ∧ b = c ∨ q + b.size + hd ≤ r ∨ r + c.size + hd ≤ q := by
  induction bs generalizing a with
  | nil => cases hb
  | cons x bs ih =>
    rcases List.mem_cons.mp hb with heq | hb
    · obtain ⟨rfl, rfl⟩ := Prod.mk.inj heq
      rcases List.mem_cons.mp hc with heq | hc
      · obtain ⟨rfl, rfl⟩ := Prod.mk.inj heq
        exact Or.inl ⟨rfl, rfl⟩
      · exact Or.inr (Or.inl (payloads_bounds hc).1)
    · rcases List.mem_cons.mp hc with heq | hc
      · obtain ⟨rfl, rfl⟩ := Prod.mk.inj heq
        exact Or.inr (Or.inr (payloads_bounds hb).1)
      · exact ih hb hc

/-- The block at the seam of two lists is the only one with its address. -/
theorem mem_payloads_seam :
    (q, c) ∈ payloads hd a (xs ++ b :: ys) ↔
      (q, c) ∈ payloads hd a xs ∨ (q = stop hd a xs + hd ∧ c = b) ∨
        (q, c) ∈ payloads hd (stop hd a xs + hd + b.size) ys := by
  rw [payloads_append, List.mem_append, payloads, List.mem_cons, Prod.mk.injEq]

/-! ## Joining free blocks -/

/-- No two neighbours are both free. -/
def Separated (bs : List Block) : Prop :=
  bs.IsChain fun b c => ¬ (b.free = true ∧ c.free = true)

theorem Separated.of_append (h : Separated (xs ++ b :: ys)) : Separated xs ∧ Separated ys :=
  ⟨h.left_of_append, (h.right_of_append).tail⟩

/-- A used block separates whatever is before it from whatever is after it. -/
theorem separated_seam (hb : b.free = false) (hxs : Separated xs) (hys : Separated ys) :
    Separated (xs ++ b :: ys) := by
  refine List.isChain_append.mpr ⟨hxs, List.isChain_cons.mpr ⟨?_, hys⟩, ?_⟩
  · intro c _ hfree
    simp [hb] at hfree
  · intro c _ d hd hfree
    obtain rfl : b = d := by simpa using hd
    simp [hb] at hfree

theorem stop_joined (a : ℕ) (p b : Block) (f : Bool) (bs : List Block) :
    stop hd a (⟨p.size + (hd + b.size), f⟩ :: bs) = stop hd a (p :: b :: bs) := by
  change stop hd (a + hd + (p.size + (hd + b.size))) bs =
    stop hd (a + hd + p.size + hd + b.size) bs
  congr 1
  omega

theorem stop_coalesce (a : ℕ) (p : Block) (bs : List Block) :
    stop hd a (coalesce hd p bs) = stop hd a (p :: bs) := by
  induction bs generalizing a p with
  | nil => rfl
  | cons b bs ih =>
    unfold coalesce
    split
    · rw [ih, stop_joined]
    · exact ih _ _

theorem coalesce_eq_cons (hd : ℕ) (p : Block) (bs : List Block) :
    ∃ n ys, coalesce hd p bs = ⟨n, p.free⟩ :: ys := by
  induction bs generalizing p with
  | nil => exact ⟨p.size, [], rfl⟩
  | cons b bs ih =>
    unfold coalesce
    split
    · rename_i h
      obtain ⟨n, ys, heq⟩ := ih ⟨p.size + (hd + b.size), true⟩
      exact ⟨n, ys, by rw [heq, h.1]⟩
    · exact ⟨p.size, _, rfl⟩

theorem separated_coalesce (p : Block) (bs : List Block) : Separated (coalesce hd p bs) := by
  induction bs generalizing p with
  | nil => exact List.isChain_singleton _
  | cons b bs ih =>
    unfold coalesce
    split
    · exact ih _
    · rename_i h
      have hrest := ih b
      obtain ⟨n, ys, heq⟩ := coalesce_eq_cons hd b bs
      rw [heq] at hrest ⊢
      exact List.isChain_cons_cons.mpr ⟨h, hrest⟩

theorem mem_payloads_coalesce (hc : c.free = false) :
    (q, c) ∈ payloads hd a (coalesce hd p bs) ↔ (q, c) ∈ payloads hd a (p :: bs) := by
  induction bs generalizing a p with
  | nil => rfl
  | cons b bs ih =>
    unfold coalesce
    split
    · rename_i h
      have hp : c ≠ p := fun heq => by simp [heq, h.1] at hc
      have hb : c ≠ b := fun heq => by simp [heq, h.2] at hc
      have hj : c ≠ ⟨p.size + (hd + b.size), true⟩ := fun heq => by simp [heq] at hc
      rw [ih]
      simp only [payloads, List.mem_cons, Prod.mk.injEq, hp, hb, hj, and_false, false_or]
      rw [show a + hd + (p.size + (hd + b.size)) = a + hd + p.size + hd + b.size by omega]
    · simp only [payloads, List.mem_cons] at ih ⊢
      rw [ih]

theorem sizes_coalesce {P : ℕ → Prop} (hadd : ∀ m n, P m → P n → P (m + (hd + n)))
    (hp : P p.size) (hbs : ∀ b ∈ bs, P b.size) : ∀ b ∈ coalesce hd p bs, P b.size := by
  induction bs generalizing p with
  | nil => simpa [coalesce] using hp
  | cons b bs ih =>
    have hb := hbs b List.mem_cons_self
    have hrest : ∀ c ∈ bs, P c.size := fun c hc => hbs c (List.mem_cons_of_mem _ hc)
    unfold coalesce
    split
    · exact ih (hadd _ _ hp hb) hrest
    · intro c hc
      rcases List.mem_cons.mp hc with rfl | hc
      · exact hp
      · exact ih hb hrest c hc

theorem Separated.all_free (h : Separated bs) (hfree : ∀ b ∈ bs, b.free = true) :
    bs = [] ∨ ∃ n, bs = [⟨n, true⟩] := by
  match bs, h with
  | [], _ => exact Or.inl rfl
  | [b], _ => exact Or.inr ⟨b.size, by rw [← hfree b (by simp)]⟩
  | b :: c :: bs, h =>
    exact absurd ⟨hfree b (by simp), hfree c (by simp)⟩ (List.isChain_cons_cons.mp h).1

end

end LampUserspace.Tiling
