import LampUserspace.Memory.Bytes
import LampUserspace.Memory.Copying

/-! # memmove and memset

`memmove` and `memset` of `libc_string.c` on a flat byte memory. Pointers and
`size_t` are 32-bit unsigned integers, and `d[i]` is the byte at the address
`d + i`. Both loops of `memmove` are copies in a safe order, up from a lower
destination and down else.
-/

namespace LampUserspace

open Copying

variable {m : Memory} {d s n i : UInt32}

theorem toNat_succ_of_lt (h : i < n) : (i + 1).toNat = i.toNat + 1 := by
  have hlt := UInt32.lt_iff_toNat_lt.mp h
  have hn := n.toNat_lt
  rw [UInt32.toNat_add, UInt32.toNat_one]
  exact Nat.mod_eq_of_lt (by omega)

theorem toNat_pred_of_ne (h : n ≠ 0) : (n - 1).toNat + 1 = n.toNat := by
  have hpos : 0 < n.toNat := Nat.pos_of_ne_zero fun hz => h (UInt32.toNat_inj.mp hz)
  have hle : 1 ≤ n := UInt32.le_iff_toNat_le.mpr (by rw [UInt32.toNat_one]; omega)
  rw [UInt32.toNat_sub_of_le _ _ hle, UInt32.toNat_one]
  omega

/-- `for (i; i < n; i++) d[i] = s[i];` -/
def memmoveUp (d s n i : UInt32) (m : Memory) : Memory :=
  if i < n then memmoveUp d s n (i + 1) (m.store8 (d + i).toNat (m (s + i).toNat)) else m
termination_by n.toNat - i.toNat
decreasing_by
  have hlt := UInt32.lt_iff_toNat_lt.mp ‹i < n›
  rw [toNat_succ_of_lt ‹i < n›]
  omega

/-- `while (n) { n--; d[n] = s[n]; }` -/
def memmoveDown (d s n : UInt32) (m : Memory) : Memory :=
  if n ≠ 0 then
    memmoveDown d s (n - 1) (m.store8 (d + (n - 1)).toNat (m (s + (n - 1)).toNat))
  else m
termination_by n.toNat
decreasing_by
  have hpred := toNat_pred_of_ne ‹n ≠ 0›
  omega

def memmove (dst src n : UInt32) (m : Memory) : UInt32 × Memory :=
  (dst, if dst < src then memmoveUp dst src n 0 m else memmoveDown dst src n m)

/-- `for (i; i < n; i++) d[i] = (unsigned char)c;` -/
def memsetFrom (d : UInt32) (c : ℤ) (n i : UInt32) (m : Memory) : Memory :=
  if i < n then memsetFrom d c n (i + 1) (m.store8 (d + i).toNat (.ofInt c)) else m
termination_by n.toNat - i.toNat
decreasing_by
  have hlt := UInt32.lt_iff_toNat_lt.mp ‹i < n›
  rw [toNat_succ_of_lt ‹i < n›]
  omega

def memset (dst : UInt32) (c : ℤ) (n : UInt32) (m : Memory) : UInt32 × Memory :=
  (dst, memsetFrom dst c n 0 m)

/-! ## The loops as copies -/

/-- The copies of the loops: by the offset of the byte. -/
abbrev copyBytes (dst src : ℕ) (offsets : List ℕ) (m : Memory) : Memory :=
  copyEach (dst + ·) (src + ·) offsets m

theorem store8_eq_update (m : Memory) (a : ℕ) (b : UInt8) :
    m.store8 a b = Function.update m a b := by
  funext x
  exact (Function.update_apply m a b x).symm

theorem toNat_offset (h : d.toNat + n.toNat ≤ 2 ^ 32) (hi : i.toNat < n.toNat) :
    (d + i).toNat = d.toNat + i.toNat := by
  rw [UInt32.toNat_add]
  exact Nat.mod_eq_of_lt (by omega)

section Loops

variable (hd : d.toNat + n.toNat ≤ 2 ^ 32) (hs : s.toNat + n.toNat ≤ 2 ^ 32)
include hd hs

theorem memmoveUp_eq (i : UInt32) (m : Memory) : memmoveUp d s n i m =
    copyBytes d.toNat s.toNat (List.range' i.toNat (n.toNat - i.toNat)) m := by
  fun_induction memmoveUp d s n i m with
  | case1 i m hlt ih =>
    have hi := UInt32.lt_iff_toNat_lt.mp hlt
    have hleft : n.toNat - i.toNat = n.toNat - (i.toNat + 1) + 1 := by omega
    rw [ih, toNat_succ_of_lt hlt, hleft, List.range'_succ, toNat_offset hd hi, toNat_offset hs hi,
      store8_eq_update]
    rfl
  | case2 i m hge =>
    have hi := mt UInt32.lt_iff_toNat_lt.mpr hge
    rw [Nat.sub_eq_zero_of_le (Nat.le_of_not_lt hi)]
    rfl

theorem memmoveDown_eq (m : Memory) : memmoveDown d s n m =
    copyBytes d.toNat s.toNat (List.range n.toNat).reverse m := by
  fun_induction memmoveDown d s n m with
  | case1 n m hne ih =>
    have hpred := toNat_pred_of_ne hne
    rw [ih (by omega) (by omega), toNat_offset hd (by omega), toNat_offset hs (by omega), ← hpred,
      List.range_succ, List.reverse_concat, store8_eq_update]
    rfl
  | case2 n m hzero =>
    obtain rfl := not_not.mp hzero
    rfl

end Loops

/-- Up from a lower destination no byte is overwritten before it is read. -/
theorem safe_up {dst src : ℕ} (h : dst < src) (len : ℕ) :
    Safe (dst + ·) (src + ·) (List.range len) :=
  List.pairwise_lt_range.imp fun hij =>
    ⟨Nat.ne_of_lt (Nat.add_lt_add h hij), Nat.ne_of_lt (Nat.add_lt_add_left hij dst)⟩

theorem safe_down {dst src : ℕ} (h : src ≤ dst) (len : ℕ) :
    Safe (dst + ·) (src + ·) (List.range len).reverse :=
  List.pairwise_reverse.mpr (List.pairwise_lt_range.imp fun hij =>
    ⟨Nat.ne_of_gt (Nat.add_lt_add_of_le_of_lt h hij), Nat.ne_of_gt (Nat.add_lt_add_left hij dst)⟩)

/-! ## The move -/

section Move

variable {dst src : UInt32}

/-- Whichever way the loop runs, the bytes are moved all at once. -/
theorem memmove_copied (hdst : dst.toNat + n.toNat ≤ 2 ^ 32) (hsrc : src.toNat + n.toNat ≤ 2 ^ 32)
    (m : Memory) :
    Copied (dst.toNat + ·) (src.toNat + ·) (List.range n.toNat) m (memmove dst src n m).2 := by
  unfold memmove
  dsimp only
  split
  case isTrue hlt =>
    rw [memmoveUp_eq hdst hsrc, UInt32.toNat_zero, Nat.sub_zero, ← List.range_eq_range']
    exact (safe_up (UInt32.lt_iff_toNat_lt.mp hlt) n.toNat).copied m
  case isFalse hge =>
    have hle := Nat.le_of_not_lt (mt UInt32.lt_iff_toNat_lt.mpr hge)
    obtain ⟨hcopied, hframe⟩ := (safe_down hle n.toNat).copied m
    rw [memmoveDown_eq hdst hsrc]
    exact ⟨fun i hi => hcopied i (List.mem_reverse.mpr hi),
      fun x hx => hframe x fun i hi => hx i (List.mem_reverse.mp hi)⟩

/-- Between ranges that do not wrap, `memmove` leaves in the destination what the source held
before, and changes nothing else. -/
theorem memmove_moves (dst src n : UInt32) (m : Memory) (hdst : dst.toNat + n.toNat ≤ 2 ^ 32)
    (hsrc : src.toNat + n.toNat ≤ 2 ^ 32) :
    (∀ i < n.toNat, (memmove dst src n m).2 (dst.toNat + i) = m (src.toNat + i)) ∧
      ∀ x, (x < dst.toNat ∨ dst.toNat + n.toNat ≤ x) → (memmove dst src n m).2 x = m x := by
  obtain ⟨hcopied, hframe⟩ := memmove_copied hdst hsrc m
  refine ⟨fun i hi => hcopied i (List.mem_range.mpr hi), fun x hx => hframe x fun i hi heq => ?_⟩
  have hlt := List.mem_range.mp hi
  omega

/-- Three bytes one address up, over the first two of them. -/
theorem memmove_moves_overlapping :
    (∀ i < (3 : UInt32).toNat, (memmove 101 100 3 (UInt8.ofNat ·)).2 ((101 : UInt32).toNat + i) =
        UInt8.ofNat ((100 : UInt32).toNat + i)) ∧
      ∀ x, (x < (101 : UInt32).toNat ∨ (101 : UInt32).toNat + (3 : UInt32).toNat ≤ x) →
        (memmove 101 100 3 (UInt8.ofNat ·)).2 x = UInt8.ofNat x :=
  memmove_moves 101 100 3 (UInt8.ofNat ·) (by decide) (by decide)

end Move

/-! ## The fill -/

theorem memsetFrom_apply (hd : d.toNat + n.toNat ≤ 2 ^ 32) (c : ℤ) (i : UInt32) (m : Memory)
    (x : ℕ) : memsetFrom d c n i m x =
      if d.toNat + i.toNat ≤ x ∧ x < d.toNat + n.toNat then UInt8.ofInt c else m x := by
  fun_induction memsetFrom d c n i m with
  | case1 i m hlt ih =>
    have hi := UInt32.lt_iff_toNat_lt.mp hlt
    rw [ih, toNat_succ_of_lt hlt, toNat_offset hd hi]
    by_cases hx : x = d.toNat + i.toNat
    · subst hx
      rw [if_neg (by omega), if_pos (by omega), Memory.store8_same]
    · rw [Memory.store8_ne _ hx]
      exact if_congr (by omega) rfl rfl
  | case2 i m hge =>
    have hi := mt UInt32.lt_iff_toNat_lt.mpr hge
    rw [if_neg (by omega)]

/-- `memset` fills a range that does not wrap, and changes nothing else. -/
theorem memset_fills (dst : UInt32) (c : ℤ) (m : Memory) (hd : dst.toNat + n.toNat ≤ 2 ^ 32) :
    (∀ i < n.toNat, (memset dst c n m).2 (dst.toNat + i) = UInt8.ofInt c) ∧
      ∀ x, (x < dst.toNat ∨ dst.toNat + n.toNat ≤ x) → (memset dst c n m).2 x = m x := by
  have happly := memsetFrom_apply hd c 0 m
  rw [UInt32.toNat_zero] at happly
  exact ⟨fun i hi => (happly _).trans (if_pos (by omega)),
    fun x hx => (happly x).trans (if_neg (by omega))⟩

end LampUserspace
