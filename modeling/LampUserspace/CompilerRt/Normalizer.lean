import LampUserspace.CompilerRt.Pack

/-! # The normalizer

The normalizer of 128 bits ends in a call of the packer. The call is made visible:
what a window is cut to, with which shift counts, and what is discarded.
-/

namespace LampUserspace.CompilerRt
open Binary

/-! ## The calls -/

structure NormCall where
  sign : Bool
  whi : Dbits
  wlo : Dbits
  e : ℤ
  sExtra : Bool
  deriving DecidableEq, Repr

namespace NormCall

def run (c : NormCall) : Option Dbits := dfNormPack128 c.sign c.whi c.wlo c.e c.sExtra

def window (c : NormCall) : ℕ := c.whi.toNat * 2 ^ 64 + c.wlo.toNat

end NormCall

/-- The arguments of a call of `df_pack`, with the cut and the shift counts that lead to it. -/
structure PackCall where
  sign : Bool
  cut : ℤ
  shifts : List ℤ
  e : ℤ
  q : Dbits
  g : Bool
  s : Bool
  deriving DecidableEq, Repr

def PackCall.run (p : PackCall) : Dbits := dfPack p.sign p.e p.q p.g p.s

def NormCall.packCall (c : NormCall) : Option (Dbits ⊕ PackCall) := do
  let tp ← dfMsb128 c.whi c.wlo
  if tp < 0 then
    return .inl (if c.sExtra then signWord c.sign ||| 1 else signWord c.sign)
  else
    let cut := tp - 52
    if cut ≥ 64 then
      let sh2 := (cut - 64).toNat
      return .inr ⟨c.sign, cut, [cut - 64, cut - 64 - 1, cut - 64 - 1], c.e + cut, c.whi >>> sh2,
        c.whi >>> (sh2 - 1) &&& 1 != 0,
        c.sExtra || (c.whi &&& lowMask (sh2 - 1) != 0 || c.wlo != 0)⟩
    else if cut > 0 then
      let n := cut.toNat
      return .inr ⟨c.sign, cut, [cut, cut, 64 - cut, cut - 1, cut - 1], c.e + cut,
        c.wlo >>> n ||| (c.whi &&& lowMask n) <<< (64 - n), c.wlo >>> (n - 1) &&& 1 != 0,
        c.sExtra || c.wlo &&& lowMask (n - 1) != 0⟩
    else
      return .inr ⟨c.sign, cut, [-cut], c.e + cut, c.wlo <<< (-cut).toNat, false, c.sExtra⟩

theorem NormCall.run_eq (c : NormCall) : c.run = c.packCall.map (Sum.elim id PackCall.run) := by
  unfold NormCall.run NormCall.packCall dfNormPack128
  cases dfMsb128 c.whi c.wlo with
  | none => rfl
  | some tp =>
    simp only [Option.bind_eq_bind, Option.bind_some]
    repeat' split
    all_goals rfl

/-! ## Windows -/

section Windows

variable {x : ℚ} {sign s : Bool} {wlo : Dbits} {e : ℤ} {c : NormCall} {k n d : ℕ}

/-- What the normalizer is given: a window of two words that frames a number; with a tail below it,
its top bit is above bit 52. -/
structure Normalizable (x : ℚ) (c : NormCall) : Prop where
  framed : Framed x c.e c.window c.sExtra
  pos : 0 < c.window
  lt : c.window < 2 ^ 116
  tail : c.sExtra = true → 2 ^ 53 ≤ c.window

theorem window_low (sign : Bool) (wlo : Dbits) (e : ℤ) (s : Bool) :
    NormCall.window ⟨sign, 0, wlo, e, s⟩ = wlo.toNat := by
  have hzero : (0 : Dbits).toNat = 0 := rfl
  rw [NormCall.window, hzero, Nat.zero_mul, Nat.zero_add]

theorem Normalizable.low (hx : Framed x e wlo.toNat s) (hpos : 0 < wlo.toNat)
    (hs : s = true → 2 ^ 53 ≤ wlo.toNat) : Normalizable x ⟨sign, 0, wlo, e, s⟩ := by
  have hbound := wlo.isLt
  constructor <;> rw [window_low]
  · exact hx
  · exact hpos
  · omega
  · exact hs

/-- A top bit at or below bit 52: the window is the low word, and nothing lies below it. -/
theorem Normalizable.eq_low (h : Normalizable x c) (hlt : c.window < 2 ^ 53) :
    c.sExtra = false ∧ c.window = c.wlo.toNat := by
  refine ⟨Bool.eq_false_iff.mpr fun hs => ?_, ?_⟩
  · have := h.tail hs
    omega
  · unfold NormCall.window at hlt ⊢
    omega

/-- What the packer is given for a window that frames `x`: the 53 top bits, the bit below them and
a flag for everything below that. -/
structure Packable (x : ℚ) (c : NormCall) (p : PackCall) : Prop where
  cut_lt : p.cut < 64
  shifts : ∀ n ∈ p.shifts, 0 ≤ n ∧ n ≤ 63
  sign_eq : p.sign = c.sign
  e_eq : p.e = c.e + p.cut
  q_ge : 2 ^ 52 ≤ p.q.toNat
  q_lt : p.q.toNat < 2 ^ 53
  discards : ∀ k : ℕ, p.cut = k + 1 → ∃ r < 2 ^ k,
    c.window = p.q.toNat * 2 ^ (k + 1) + p.g.toNat * 2 ^ k + r ∧ p.s = (c.sExtra || decide (r ≠ 0))
  keeps : ∀ d : ℕ, p.cut = -d →
    p.q.toNat = c.window * 2 ^ d ∧ p.g = false ∧ p.s = false ∧ c.sExtra = false
  framed : Framed x (p.e - 1) (2 * p.q.toNat + p.g.toNat) p.s

/-- The quotient, the bit below it and the rest make up a number. -/
theorem cut_parts (W k : ℕ) :
    W = W / 2 ^ (k + 1) * 2 ^ (k + 1) + (decide (W / 2 ^ k % 2 = 1)).toNat * 2 ^ k + W % 2 ^ k := by
  have hlow := Nat.div_add_mod W (2 ^ k)
  have hbit := Nat.div_add_mod (W / 2 ^ k) 2
  have hguard : (decide (W / 2 ^ k % 2 = 1)).toNat = W / 2 ^ k % 2 := by
    rcases Nat.mod_two_eq_zero_or_one (W / 2 ^ k) with h | h <;> rw [h] <;> rfl
  rw [hguard, Nat.pow_succ, ← Nat.div_div_eq_div_mul]
  calc
    W = 2 ^ k * (2 * (W / 2 ^ k / 2) + W / 2 ^ k % 2) + W % 2 ^ k := by rw [hbit, hlow]
    _ = _ := by ring

theorem packable_cut (h : Normalizable x c) (hge : 2 ^ (53 + k) ≤ c.window)
    (hlt : c.window < 2 ^ (53 + k + 1)) (hk : k + 1 < 64) :
    Packable x c ⟨c.sign, (k + 1 : ℕ), [(k + 1 : ℕ), (k + 1 : ℕ), 64 - (k + 1 : ℕ),
      (k + 1 : ℕ) - 1, (k + 1 : ℕ) - 1], c.e + (k + 1 : ℕ),
      c.wlo >>> (k + 1) ||| (c.whi &&& lowMask (k + 1)) <<< (64 - (k + 1)),
      c.wlo >>> k &&& 1 != 0, c.sExtra || c.wlo &&& lowMask k != 0⟩ := by
  obtain ⟨hq, hg, hs, hframe⟩ := cut_framed h.framed hlt hk
  have hkeep := window_bounds hge hlt
  refine ⟨?_, ?_, rfl, rfl, hq ▸ hkeep.1, hq ▸ hkeep.2, ?_, ?_, ?_⟩
  · dsimp only
    omega
  · simp only [List.forall_mem_cons, List.not_mem_nil, false_imp_iff, implies_true, and_true]
    omega
  · intro j hj
    dsimp only at hj
    obtain rfl : j = k := by omega
    refine ⟨_, Nat.mod_lt _ (Nat.two_pow_pos j), ?_, congrArg (c.sExtra || ·) hs⟩
    dsimp only
    rw [hq, hg]
    exact cut_parts c.window j
  · intro d hd
    dsimp only at hd
    omega
  · dsimp only
    rw [hq, hg, hs, Nat.cast_succ, ← add_assoc, add_sub_cancel_right]
    exact hframe

theorem packable_fill (h : Normalizable x c) (hge : 2 ^ n ≤ c.window)
    (hlt : c.window < 2 ^ (n + 1)) (hd : n + d = 52) :
    Packable x c ⟨c.sign, -d, [- -d], c.e + -d, c.wlo <<< d, false, c.sExtra⟩ := by
  have hsmall : 2 ^ (n + 1) ≤ 2 ^ 53 := Nat.pow_le_pow_right Nat.two_pos (by omega)
  obtain ⟨hs, hwindow⟩ := h.eq_low (hlt.trans_le hsmall)
  have hx := h.framed
  rw [hwindow, hs] at hx
  rw [hwindow] at hge hlt
  obtain ⟨hq, hq_ge, hq_lt, hframe⟩ := fill_framed hx hge hlt hd
  refine ⟨?_, ?_, rfl, rfl, hq_ge, hq_lt, ?_, ?_, ?_⟩
  · dsimp only
    omega
  · simp only [List.forall_mem_cons, List.not_mem_nil, false_imp_iff, implies_true, and_true]
    omega
  · intro k hk
    dsimp only at hk
    omega
  · intro j hj
    dsimp only at hj
    obtain rfl : j = d := by omega
    exact ⟨hwindow ▸ hq, rfl, hs, hs⟩
  · dsimp only
    rw [hs, ← sub_eq_add_neg, Bool.toNat_false, Nat.add_zero]
    exact hframe

theorem packCall_total (h : Normalizable x c) :
    Total c.packCall fun r => ∃ p, r = .inr p ∧ Packable x c p := by
  unfold NormCall.packCall
  apply (dfMsb128_total h.pos).bind
  rintro t - ⟨n, rfl, hn, hn'⟩
  have h116 : n < 116 := lt_of_two_pow_le hn h.lt
  rw [if_neg (by omega)]
  dsimp only
  rw [if_neg (by omega)]
  rcases Nat.lt_or_ge 52 n with h52 | h52
  · obtain ⟨k, rfl⟩ := Nat.exists_eq_add_of_le (show 53 ≤ n by omega)
    have hcut : ((53 + k : ℕ) : ℤ) - 52 = (k + 1 : ℕ) := by omega
    rw [if_pos (by omega), hcut, Int.toNat_natCast, Nat.add_sub_cancel]
    exact .pure ⟨_, rfl, packable_cut h hn hn' (by omega)⟩
  · obtain ⟨d, hd⟩ := Nat.exists_eq_add_of_le h52
    have hcut : (n : ℤ) - 52 = -d := by omega
    have hcount : (-(-(d : ℤ))).toNat = d := by omega
    rw [if_neg (by omega), hcut, hcount]
    exact .pure ⟨_, rfl, packable_fill h hn hn' hd.symm⟩

theorem packCall_packable (h : Normalizable x c) :
    ∃ p, c.packCall = some (.inr p) ∧ c.run = some p.run ∧ Packable x c p := by
  obtain ⟨r, hr, p, rfl, hp⟩ := packCall_total h
  exact ⟨p, hr, by rw [c.run_eq, hr]; rfl, hp⟩

theorem norm_rounds (h : Normalizable x c) : Total c.run (binary64.Rounds c.sign x) := by
  obtain ⟨p, -, hrun, hp⟩ := packCall_packable h
  exact ⟨p.run, hrun, hp.sign_eq ▸ dfPack_rounds hp.framed hp.q_ge hp.q_lt⟩

end Windows

end LampUserspace.CompilerRt
