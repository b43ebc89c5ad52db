import LampUserspace.Binary.Words
import LampUserspace.Net.Quads

/-! # The addresses of dotted quads

The address that `inet_aton` stores has the numbers of the string for its bytes.
It does as it should for every string but those with an odd part.
-/

namespace LampUserspace.Net

open Numerals

/-! ## The bytes of a word -/

theorem toNat_wordBytes (x : UInt32) :
    (wordBytes x).map UInt8.toNat =
      [x.toNat % 256, x.toNat / 256 % 256, x.toNat / 65536 % 256, x.toNat / 16777216] := by
  have hlt := x.toNat_lt
  simp [wordBytes, Nat.shiftRight_eq_div_pow]
  omega

theorem wordBytes_ofWordBytes (a b c d : UInt8) :
    wordBytes (ofWordBytes [a, b, c, d]) = [a, b, c, d] := by
  have ha := a.toNat_lt
  have hb := b.toNat_lt
  have hc := c.toNat_lt
  have hd := d.toNat_lt
  have hword : (ofWordBytes [a, b, c, d]).toNat =
      a.toNat + 256 * (b.toNat + 256 * (c.toNat + 256 * d.toNat)) := by
    simp only [ofWordBytes, List.foldr_cons, List.foldr_nil, UInt32.toNat_ofNat']
    omega
  apply List.map_injective_iff.mpr (fun x y h => UInt8.toNat_inj.mp h)
  rw [toNat_wordBytes, hword]
  simp only [List.map_cons, List.map_nil, List.cons.injEq, and_true]
  omega

theorem ofWordBytes_wordBytes (x : UInt32) : ofWordBytes (wordBytes x) = x := by
  have hlt := x.toNat_lt
  have hbytes := toNat_wordBytes x
  simp only [wordBytes, List.map_cons, List.map_nil, List.cons.injEq, and_true] at hbytes
  apply UInt32.toNat_inj.mp
  simp only [ofWordBytes, wordBytes, List.foldr_cons, List.foldr_nil, UInt32.toNat_ofNat']
  omega

theorem wordBytes_bswap32 (x : UInt32) : wordBytes (bswap32 x) = (wordBytes x).reverse :=
  wordBytes_ofWordBytes ..

theorem toNat_joinParts {a b c d : ℕ} (ha : a ≤ 255) (hb : b ≤ 255) (hc : c ≤ 255)
    (hd : d ≤ 255) :
    (joinParts [.ofNat a, .ofNat b, .ofNat c, .ofNat d]).toNat =
      2 ^ 24 * a + (2 ^ 16 * b + (2 ^ 8 * c + d)) := by
  have hshift : ∀ {n k : ℕ}, n ≤ 255 → k ≤ 24 →
      (UInt32.ofNat n <<< UInt32.ofNat k).toNat = 2 ^ k * n := by
    intro n k hn hk
    have hpow : 2 ^ k ≤ 2 ^ 24 := Nat.pow_le_pow_right (by decide) hk
    have hlt : 2 ^ k * n < 2 ^ 32 :=
      calc 2 ^ k * n ≤ 2 ^ 24 * 255 := Nat.mul_le_mul hpow hn
        _ < 2 ^ 32 := by decide
    rw [UInt32.toNat_shiftLeft, UInt32.toNat_ofNat', UInt32.toNat_ofNat',
      Nat.mod_eq_of_lt (show n < 2 ^ 32 by omega), Nat.mod_eq_of_lt (show k < 2 ^ 32 by omega),
      Nat.mod_eq_of_lt (show k < 32 by omega), Nat.shiftLeft_eq, Nat.mul_comm,
      Nat.mod_eq_of_lt hlt]
  have hlast : (UInt32.ofNat d).toNat = d := by
    rw [UInt32.toNat_ofNat', Nat.mod_eq_of_lt (by omega)]
  have hc' : 2 ^ 8 * c + d < 2 ^ 16 := by omega
  have hb' : 2 ^ 16 * b + (2 ^ 8 * c + d) < 2 ^ 24 := by omega
  rw [Nat.two_pow_add_eq_or_of_lt hb', Nat.two_pow_add_eq_or_of_lt hc',
    Nat.two_pow_add_eq_or_of_lt (show d < 2 ^ 8 by omega), ← Nat.or_assoc, ← Nat.or_assoc,
    ← hshift ha (by decide), ← hshift hb (by decide), ← hshift hc (by decide)]
  conv_rhs => rw [← hlast]
  rw [← UInt32.toNat_or, ← UInt32.toNat_or, ← UInt32.toNat_or]
  rfl

theorem wordBytes_htonl_join {a b c d : ℕ} (ha : a ≤ 255) (hb : b ≤ 255) (hc : c ≤ 255)
    (hd : d ≤ 255) :
    (wordBytes (htonl (joinParts [.ofNat a, .ofNat b, .ofNat c, .ofNat d]))).map UInt8.toNat =
      [a, b, c, d] := by
  rw [htonl, wordBytes_bswap32, List.map_reverse, toNat_wordBytes, toNat_joinParts ha hb hc hd]
  simp only [List.reverse_cons, List.reverse_nil, List.nil_append, List.cons_append,
    List.cons.injEq, and_true]
  omega

/-! ## The strings that are accepted -/

section Aton

variable {s : List UInt8} {inp : InAddr}

theorem inetAton_of_loose (inp : InAddr) {parts : List Part} (h : Loose 3 s parts) :
    (inetAton (some s) (some inp)).ret = 1 ∧ (inetAton (some s) (some inp)).inp =
      some ⟨htonl (joinParts (parts.map fun part => .ofNat (decimal part.digits)))⟩ := by
  have hloop : (inetAtonLoop none 3 s).1 = some _ := inetAtonLoop_eq_some.mpr ⟨parts, h, rfl⟩
  simp [inetAton, hloop]

theorem inetAton_of_not_loose (h : ¬ ∃ parts, Loose 3 s parts) :
    (inetAton (some s) (some inp)).ret = 0 ∧
      (inetAton (some s) (some inp)).inp = some inp := by
  have hloop : (inetAtonLoop none 3 s).1 = none := by
    apply Option.eq_none_iff_forall_ne_some.mpr
    intro vs hvs
    obtain ⟨parts, hparts, -⟩ := inetAtonLoop_eq_some.mp hvs
    exact h ⟨parts, hparts⟩
  simp [inetAton, hloop]

theorem Quad.loose {runs : List (List UInt8)} (h : Quad s runs) :
    Loose 3 s (runs.map (Part.mk [])) where
  length := by rw [List.length_map, h.length]
  text := by
    rw [h.text, List.map_map]
    congr 1
    exact (List.map_id runs).symm
  accepted := by
    intro part hpart
    obtain ⟨run, hrun, rfl⟩ := List.mem_map.mp hpart
    obtain ⟨hne, hdigits⟩ := h.digits run hrun
    have hle := h.range run hrun
    have hlt : decimal run < 2 ^ 32 := by omega
    exact ⟨by simp, hne, hdigits, (Nat.mod_eq_of_lt hlt).trans_le hle⟩

theorem Loose.quad {parts : List Part} (h : Loose 3 s parts) (hodd : ∀ part ∈ parts, ¬ part.Odd) :
    Quad s (parts.map Part.digits) where
  length := by rw [List.length_map, h.length]
  text := by
    rw [h.text]
    congr 1
    apply List.map_congr_left
    intro part hpart
    have hspace : part.space = [] := by
      by_contra hne
      exact hodd part hpart (Or.inl hne)
    rw [Part.text, hspace, List.nil_append]
  digits := by
    intro run hrun
    obtain ⟨part, hpart, rfl⟩ := List.mem_map.mp hrun
    have haccepted := h.accepted part hpart
    exact ⟨haccepted.ne_nil, haccepted.digits⟩
  range := by
    intro run hrun
    obtain ⟨part, hpart, rfl⟩ := List.mem_map.mp hrun
    have hlt : decimal part.digits < 2 ^ 32 := by
      by_contra hge
      exact hodd part hpart (Or.inr (Nat.le_of_not_lt hge))
    have hle := (h.accepted part hpart).range
    rwa [Nat.mod_eq_of_lt hlt] at hle

theorem Quad.address {runs : List (List UInt8)} (h : Quad s runs) :
    (wordBytes (htonl (joinParts
      ((runs.map (Part.mk [])).map fun part => .ofNat (decimal part.digits))))).map
        UInt8.toNat = runs.map decimal := by
  obtain ⟨r₁, r₂, r₃, r₄, rfl⟩ : ∃ r₁ r₂ r₃ r₄, runs = [r₁, r₂, r₃, r₄] := by
    obtain ⟨r₁, l₁, rfl⟩ := List.exists_cons_of_length_eq_add_one h.length
    obtain ⟨r₂, l₂, rfl⟩ := List.exists_cons_of_length_eq_add_one (Nat.succ.inj h.length)
    obtain ⟨r₃, r₄, rfl⟩ := List.length_eq_two.mp (Nat.succ.inj (Nat.succ.inj h.length))
    exact ⟨r₁, r₂, r₃, r₄, rfl⟩
  exact wordBytes_htonl_join (h.range r₁ (by simp)) (h.range r₂ (by simp)) (h.range r₃ (by simp))
    (h.range r₄ (by simp))

theorem aton_prescribed_iff :
    Prescribed s inp (inetAton (some s) (some inp)) ↔
      ∀ parts, Loose 3 s parts → ∀ part ∈ parts, ¬ part.Odd := by
  constructor
  · rintro ⟨-, hnone⟩ parts hparts part hpart hodd
    by_cases hquad : ∃ runs, Quad s runs
    · obtain ⟨runs, hruns⟩ := hquad
      obtain rfl := hparts.unique hruns.loose
      obtain ⟨run, hrun, rfl⟩ := List.mem_map.mp hpart
      have hle := hruns.range run hrun
      rcases hodd with hspace | hge
      · exact hspace rfl
      · change 2 ^ 32 ≤ decimal run at hge
        omega
    · have hzero := (hnone hquad).1
      rw [(inetAton_of_loose inp hparts).1] at hzero
      exact absurd hzero (by decide)
  · intro hodd
    constructor
    · intro runs hruns
      obtain ⟨hret, hinp⟩ := inetAton_of_loose inp hruns.loose
      exact ⟨hret, _, hinp, hruns.address⟩
    · intro hquad
      apply inetAton_of_not_loose
      rintro ⟨parts, hparts⟩
      exact hquad ⟨_, hparts.quad (hodd parts hparts)⟩

end Aton

/-- `inet_aton` and `inet_pton` do as they should for every string but those they accept in spite
of a part that stands behind white space or is `2 ^ 32` or more. -/
theorem inet_prescribed_iff (s : CString) (inp : InAddr) :
    (Prescribed s.bytes inp (inetAton (some s.bytes) (some inp)) ↔
      ∀ parts, Loose 3 s.bytes parts → ∀ part ∈ parts, ¬ part.Odd) ∧
    (Prescribed s.bytes inp (inetPton afInet (some s.bytes) (some inp)) ↔
      ∀ parts, Loose 3 s.bytes parts → ∀ part ∈ parts, ¬ part.Odd) :=
  ⟨aton_prescribed_iff, aton_prescribed_iff⟩

/-- The string `" 1.2.3.4"` is accepted. -/
theorem inetAton_space_not_prescribed :
    ¬ ∀ (s : CString) (inp : InAddr),
      Prescribed s.bytes inp (inetAton (some s.bytes) (some inp)) := by
  intro h
  have hprescribed := h ⟨[byte ' ', byte '1', byte '.', byte '2', byte '.', byte '3', byte '.',
    byte '4'], by decide⟩ ⟨0⟩
  have hdigit : ∀ c, c ∈ [byte '1', byte '2', byte '3', byte '4'] →
      isdigit c = true ∧ decimal [c] % 2 ^ 32 ≤ 255 := by decide +kernel
  have hloose : Loose 3 [byte ' ', byte '1', byte '.', byte '2', byte '.', byte '3', byte '.',
      byte '4'] [⟨[byte ' '], [byte '1']⟩, ⟨[], [byte '2']⟩, ⟨[], [byte '3']⟩,
        ⟨[], [byte '4']⟩] := by
    refine ⟨rfl, rfl, ?_⟩
    intro part hpart
    simp only [List.mem_cons, List.not_mem_nil, or_false] at hpart
    have haccepted : ∀ (space : List UInt8) (c : UInt8), (∀ x ∈ space, isspace x = true) →
        c ∈ [byte '1', byte '2', byte '3', byte '4'] → Part.Accepted ⟨space, [c]⟩ :=
      fun space c hspace hc =>
        ⟨hspace, by simp, by simpa using (hdigit c hc).1, (hdigit c hc).2⟩
    rcases hpart with rfl | rfl | rfl | rfl
    · exact haccepted _ _ (fun x hx => by rw [List.mem_singleton.mp hx]; rfl) (by simp)
    · exact haccepted _ _ (by simp) (by simp)
    · exact haccepted _ _ (by simp) (by simp)
    · exact haccepted _ _ (by simp) (by simp)
  exact aton_prescribed_iff.mp hprescribed _ hloose _ (List.mem_cons_self ..) (Or.inl (by simp))

end LampUserspace.Net
