import LampUserspace.Tiling.Blocks

/-! # First fit on a list of blocks

Allocation and release as functions of the list of blocks that tiles an interval.
A request is served by the first free block that is large enough, as a whole, and
else by a new block behind the last one, up to a limit. A block is named by the
address of its payload.
-/

namespace LampUserspace.Tiling

/-- The first free block of the wanted size, with the blocks before and behind it. -/
def firstFit (wanted : ℕ) : List Block → Option (List Block × Block × List Block)
  | [] => none
  | b :: bs =>
    if b.free = true ∧ b.size ≥ wanted then some ([], b, bs)
    else (firstFit wanted bs).map fun r => (b :: r.1, r.2)

section

-- the size of a header and the limit
variable (hd limit : ℕ)

/-- The address that serves the request and the blocks then, or `none` when it is refused. -/
def allocate (a wanted : ℕ) (bs : List Block) : Option (ℕ × List Block) :=
  match firstFit wanted bs with
  | some (xs, b, ys) => some (stop hd a xs + hd, xs ++ ⟨b.size, false⟩ :: ys)
  | none =>
    if stop hd a bs + hd + wanted ≤ limit then
      some (stop hd a bs + hd, bs ++ [⟨wanted, false⟩])
    else none

def unuse (p a : ℕ) : List Block → List Block
  | [] => []
  | b :: bs => if a + hd = p then ⟨b.size, true⟩ :: bs else b :: unuse p (a + hd + b.size) bs

def joinAll : List Block → List Block
  | [] => []
  | b :: bs => coalesce hd b bs

def sizeAt (p a : ℕ) : List Block → ℕ
  | [] => 0
  | b :: bs => if a + hd = p then b.size else sizeAt p (a + hd + b.size) bs

/-- Give a block `n` bytes, of which `wanted` are asked for when it has to move. -/
def resize (a p n wanted : ℕ) (bs : List Block) : Option (ℕ × List Block) :=
  if sizeAt hd p a bs ≥ n then some (p, bs)
  else (allocate hd limit a wanted bs).map fun r => (r.1, joinAll hd (unuse hd p a r.2))

end

variable {hd limit a p q n wanted : ℕ} {b c : Block} {bs xs ys : List Block}

theorem firstFit_eq_some (h : firstFit wanted bs = some (xs, b, ys)) :
    bs = xs ++ b :: ys ∧ b.free = true ∧ wanted ≤ b.size := by
  induction bs generalizing xs with
  | nil => cases h
  | cons c bs ih =>
    unfold firstFit at h
    split at h
    · rename_i hfit
      cases h
      exact ⟨rfl, hfit⟩
    · obtain ⟨r, hr, heq⟩ := Option.map_eq_some_iff.mp h
      obtain ⟨xs', b', ys'⟩ := r
      cases heq
      obtain ⟨rfl, hfit⟩ := ih hr
      exact ⟨rfl, hfit⟩

theorem firstFit_eq_none :
    firstFit wanted bs = none ↔ ∀ b ∈ bs, b.free = true → b.size < wanted := by
  induction bs with
  | nil => exact iff_of_true rfl nofun
  | cons b bs ih =>
    unfold firstFit
    rw [List.forall_mem_cons]
    split
    · rename_i hfit
      exact iff_of_false nofun fun hall => Nat.not_lt.mpr hfit.2 (hall.1 hfit.1)
    · rename_i hfit
      rw [Option.map_eq_none_iff, ih]
      exact ⟨fun h => ⟨fun hfree => Nat.not_le.mp fun hle => hfit ⟨hfree, hle⟩, h⟩, And.right⟩

/-- A request is refused where it fits neither into a free block nor behind the last block. -/
theorem allocate_eq_none :
    allocate hd limit a wanted bs = none ↔
      (∀ b ∈ bs, b.free = true → b.size < wanted) ∧ limit < stop hd a bs + hd + wanted := by
  rw [← firstFit_eq_none]
  unfold allocate
  split
  · rename_i h
    exact iff_of_false nofun fun hboth => by rw [h] at hboth; exact nomatch hboth.1
  · rename_i h
    split
    · rename_i hle
      exact iff_of_false nofun fun hboth => Nat.not_lt.mpr hle hboth.2
    · rename_i hle
      exact iff_of_true rfl ⟨h, Nat.not_le.mp hle⟩

section Seam

-- no payload before the seam has the address of the block at the seam
theorem ne_seam (hhd : 0 < hd) (a : ℕ) (x : Block) (xs : List Block) :
    a + hd ≠ stop hd a (x :: xs) + hd := by
  have hle : a + hd + x.size ≤ stop hd a (x :: xs) := le_stop _ xs
  omega

theorem unuse_seam (hhd : 0 < hd) (a : ℕ) (xs : List Block) (b : Block) (ys : List Block) :
    unuse hd (stop hd a xs + hd) a (xs ++ b :: ys) = xs ++ ⟨b.size, true⟩ :: ys := by
  induction xs generalizing a with
  | nil => exact if_pos rfl
  | cons x xs ih =>
    have hne := ne_seam hhd a x xs
    rw [List.cons_append, unuse, if_neg hne]
    exact congrArg (x :: ·) (ih _)

theorem sizeAt_seam (hhd : 0 < hd) (a : ℕ) (xs : List Block) (b : Block) (ys : List Block) :
    sizeAt hd (stop hd a xs + hd) a (xs ++ b :: ys) = b.size := by
  induction xs generalizing a with
  | nil => exact if_pos rfl
  | cons x xs ih =>
    have hne := ne_seam hhd a x xs
    rw [List.cons_append, sizeAt, if_neg hne]
    exact ih _

end Seam

section JoinAll

theorem stop_joinAll (hd a : ℕ) (bs : List Block) : stop hd a (joinAll hd bs) = stop hd a bs := by
  cases bs with
  | nil => rfl
  | cons b bs => exact stop_coalesce a b bs

theorem separated_joinAll (hd : ℕ) (bs : List Block) : Separated (joinAll hd bs) := by
  cases bs with
  | nil => exact List.isChain_nil
  | cons b bs => exact separated_coalesce b bs

theorem mem_payloads_joinAll (hc : c.free = false) :
    (q, c) ∈ payloads hd a (joinAll hd bs) ↔ (q, c) ∈ payloads hd a bs := by
  cases bs with
  | nil => rfl
  | cons b bs => exact mem_payloads_coalesce hc

theorem sizes_joinAll {P : ℕ → Prop} (hadd : ∀ m n, P m → P n → P (m + (hd + n)))
    (hbs : ∀ b ∈ bs, P b.size) : ∀ b ∈ joinAll hd bs, P b.size := by
  cases bs with
  | nil => exact hbs
  | cons b bs =>
    exact sizes_coalesce hadd (hbs b List.mem_cons_self)
      fun c hc => hbs c (List.mem_cons_of_mem _ hc)

end JoinAll

theorem resize_of_le (h : n ≤ sizeAt hd p a bs) :
    resize hd limit a p n wanted bs = some (p, bs) :=
  if_pos h

theorem resize_of_lt (h : sizeAt hd p a bs < n) :
    resize hd limit a p n wanted bs =
      (allocate hd limit a wanted bs).map fun r => (r.1, joinAll hd (unuse hd p a r.2)) :=
  if_neg (Nat.not_le.mpr h)

end LampUserspace.Tiling
