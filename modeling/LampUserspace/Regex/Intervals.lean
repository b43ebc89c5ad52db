import LampUserspace.Regex.Branching

/-! # Bounded repetition

The code of `+`, of `?` and of an interval with a least number of at least one
repeats the whole atom. Where the least number is zero, the copies are made
after a split has moved the atom by one, and lack its last instruction.
-/

namespace LampUserspace.Regex

variable {s : Subject} {S T : List ReInst}

/-! ## Copies of the whole atom -/

theorem map_moveIn (hS : Enclosed S) {base : ℕ} {delta : Int} (h : delta = base) :
    S.map (ReInst.mapTargets (moveIn (0 : ℕ) S.length delta)) = reloc base S := by
  refine List.map_congr_left fun i hi => ReInst.mapTargets_congr fun t ht => ?_
  have := hS i hi t ht
  rw [moveIn, if_pos (by push_cast; omega), h]

theorem copyCode_eq (hS : Enclosed S) (hpre : S <+: T) :
    copyCode T 0 S.length = T ++ reloc T.length S := by
  rw [copyCode, window, List.drop_zero, Nat.sub_zero, ← List.prefix_iff_eq_take.mp hpre]
  congr 1
  exact map_moveIn hS (by omega)

theorem optCopyCode_eq (hS : Enclosed S) (hpre : S <+: T) :
    optCopyCode T 0 S.length = T ++ reloc T.length (optCode S) := by
  rw [optCopyCode, window, List.drop_zero, Nat.sub_zero, ← List.prefix_iff_eq_take.mp hpre,
    optCode, reloc_cons, mapTargets_split, reloc_reloc]
  have hbody : S.map (ReInst.mapTargets (moveIn (0 : ℕ) S.length (T.length + 1 - (0 : ℕ)))) =
      reloc (1 + T.length) S := map_moveIn hS (by omega)
  rw [hbody]
  congr 2
  congr 1 <;> omega

theorem codeSpans_optCode (hS : Enclosed S) {i j : ℕ} :
    CodeSpans (optCode S) s i j ↔ i = j ∨ CodeSpans S s i j := by
  have hsplit : (optCode S)[0]? = some (split (1 : ℕ) (S.length + 1 : ℕ)) := rfl
  have hlen : (optCode S).length = S.length + 1 := by simp [optCode]
  have hhold : Holds (optCode S) 1 S := by
    simpa [optCode] using holds_reloc (U := [split 1 (S.length + 1)]) (by simp) S []
  rw [CodeSpans, hlen, spans_split hsplit (by omega), or_comm]
  refine or_congr ?_ ?_
  · constructor
    · exact fun h => spans_end (Q := optCode S) (by rwa [hlen])
    · rintro rfl
      exact .refl
  · constructor
    · intro h
      obtain ⟨m, hm, h'⟩ := hhold.spans_exit hS (by omega) h
      rw [Nat.add_comm 1, ← hlen] at h'
      exact spans_end h' ▸ hm
    · intro h
      have h := hhold.spans h
      rwa [Nat.add_comm 1 S.length] at h

/-- After code that begins with the atom, `n` copies span `n` spans of the atom more. -/
theorem codeSpans_copiesCode (hS : Enclosed S) (n : ℕ) (hT : Enclosed T) (hpre : S <+: T)
    {i j : ℕ} : CodeSpans (copiesCode n T 0 S.length) s i j ↔
      ∃ m, CodeSpans T s i m ∧ ChainOf (CodeSpans S s) n m j := by
  induction n generalizing T i with
  | zero => simp [copiesCode, ChainOf]
  | succ n ih =>
    have hpre' : S <+: copyCode T 0 S.length := hpre.trans (List.prefix_append _ _)
    rw [copiesCode, ih (enclosed_copyCode hT (Nat.zero_le _) hpre.length_le) hpre',
      copyCode_eq hS hpre]
    simp only [codeSpans_append hT hS, ChainOf]
    constructor
    · rintro ⟨m, ⟨p, hp, hm⟩, hj⟩
      exact ⟨p, hp, m, hm, hj⟩
    · rintro ⟨p, hp, m, hm, hj⟩
      exact ⟨m, ⟨p, hp, hm⟩, hj⟩

theorem prefix_copiesCode (n : ℕ) (S : List ReInst) (start stop : ℕ) :
    S <+: copiesCode n S start stop := by
  induction n generalizing S with
  | zero => exact List.prefix_rfl
  | succ n ih => exact (List.prefix_append _ _).trans (ih _)

/-- After code that begins with the atom, `n` optional copies span at most `n` spans more. -/
theorem codeSpans_optCopiesCode (hS : Enclosed S) (n : ℕ) (hT : Enclosed T) (hpre : S <+: T)
    {i j : ℕ} : CodeSpans (optCopiesCode n T 0 S.length) s i j ↔
      ∃ m, CodeSpans T s i m ∧ ∃ k ≤ n, ChainOf (CodeSpans S s) k m j := by
  induction n generalizing T i with
  | zero => simp [optCopiesCode, ChainOf]
  | succ n ih =>
    have hpre' : S <+: optCopyCode T 0 S.length := hpre.trans (List.prefix_append _ _)
    rw [optCopiesCode, ih (enclosed_optCopyCode hT (Nat.zero_le _) hpre.length_le) hpre',
      optCopyCode_eq hS hpre]
    simp only [codeSpans_append hT (enclosed_optCode hS), codeSpans_optCode hS]
    constructor
    · rintro ⟨m, ⟨p, hp, rfl | hm⟩, k, hk, hj⟩
      · exact ⟨p, hp, k, by omega, hj⟩
      · exact ⟨p, hp, k + 1, by omega, m, hm, hj⟩
    · rintro ⟨p, hp, k, hk, hj⟩
      cases k with
      | zero => exact ⟨p, ⟨p, hp, .inl rfl⟩, 0, by omega, hj⟩
      | succ k =>
        obtain ⟨m, hm, hj⟩ := hj
        exact ⟨m, ⟨p, hp, .inr hm⟩, k, by omega, hj⟩

/-- A program runs as the code that it begins with, as long as that lasts. -/
theorem next_extend {Q : List ReInst} (hpre : S <+: Q) {c : Conf} (hc : 0 ≤ c.pc)
    (hlt : c.pc < S.length) : next Q s c = next S s c := by
  have hk : c.pc.toNat < S.length := by omega
  have hf : fetch S c.pc = some S[c.pc.toNat] :=
    fetch_eq_some.mpr ⟨hc, List.getElem?_eq_getElem hk⟩
  rw [next_of_fetch hf, next_of_fetch (fetch_eq_some.mpr ⟨hc, ?_⟩)]
  rw [List.getElem?_eq_getElem (hk.trans_le hpre.length_le), hpre.getElem]

section Chains

variable {R : ℕ → ℕ → Prop} {n i j : ℕ}

theorem chainOf_one : ChainOf R 1 i j ↔ R i j := by simp [ChainOf]

theorem chainOf_le_one : (∃ n ≤ 1, ChainOf R n i j) ↔ i = j ∨ R i j := by
  constructor
  · rintro ⟨n, hn, h⟩
    interval_cases n
    · exact .inl h
    · exact .inr (chainOf_one.mp h)
  · rintro (rfl | h)
    · exact ⟨0, Nat.zero_le _, rfl⟩
    · exact ⟨1, le_rfl, chainOf_one.mpr h⟩

theorem chainOf_add (n k : ℕ) : ChainOf R (n + k) i j ↔
    ∃ m, ChainOf R n i m ∧ ChainOf R k m j := by
  induction n generalizing i with
  | zero => simp [ChainOf]
  | succ n ih =>
    rw [Nat.succ_add]
    simp only [ChainOf, ih]
    constructor
    · rintro ⟨p, hp, m, hm, hj⟩
      exact ⟨m, ⟨p, hp, hm⟩, hj⟩
    · rintro ⟨m, ⟨p, hp, hm⟩, hj⟩
      exact ⟨p, hp, m, hm, hj⟩

theorem chainOf_le (hR : ∀ i j, R i j → i ≤ j) (h : ChainOf R n i j) : i ≤ j := by
  induction n generalizing i with
  | zero => exact h.le
  | succ n ih =>
    obtain ⟨m, hm, h⟩ := h
    exact (hR _ _ hm).trans (ih h)

theorem ChainOf.reflTransGen (h : ChainOf R n i j) : Relation.ReflTransGen R i j := by
  induction n generalizing i with
  | zero =>
    obtain rfl : i = j := h
    exact .refl
  | succ n ih =>
    obtain ⟨m, hm, h⟩ := h
    exact .head hm (ih h)

theorem eq_of_reflTransGen (hR : ∀ i j, R i j → i = j) (h : Relation.ReflTransGen R i j) :
    i = j := by
  induction h with
  | refl => rfl
  | tail _ hj ih => exact ih.trans (hR _ _ hj)

end Chains

/--
Where a run through the code of `+` is: in the atom after some whole spans of it, or past the
split.
-/
def InPlus (s : Subject) (S : List ReInst) (i : ℕ) (c : Conf) : Prop :=
  (∃ n m, ChainOf (CodeSpans S s) n i m ∧ (0 ≤ c.pc ∧ c.pc ≤ (S.length : Int)) ∧
    Search.Reachable (next S s) ⟨(0 : ℕ), m⟩ c) ∨
  (c.pc = S.length + 1 ∧ ∃ n ≥ 1, ChainOf (CodeSpans S s) n i c.pos)

theorem InPlus.step (hS : Enclosed S) {Q : List ReInst} (hpre : S <+: Q)
    (hsplit : Q[S.length]? = some (split (0 : ℕ) (S.length + 1 : ℕ)))
    (hlen : Q.length = S.length + 1) {i : ℕ} {c d : Conf} (h : InPlus s S i c)
    (hd : d ∈ next Q s c) : InPlus s S i d := by
  rcases h with ⟨n, m, hn, hpc, hc⟩ | ⟨hpc, -⟩
  · by_cases hend : c.pc = S.length
    · -- a whole span more
      obtain ⟨pc, pos⟩ := c
      obtain rfl : pc = (S.length : ℕ) := hend
      have hn' := (chainOf_add n 1).mpr ⟨m, hn, chainOf_one.mpr hc⟩
      rw [next_split hsplit] at hd
      obtain rfl | rfl : d = ⟨(0 : ℕ), pos⟩ ∨ d = ⟨(S.length + 1 : ℕ), pos⟩ := by
        simpa using hd
      · exact .inl ⟨n + 1, pos, hn', by simp, .refl⟩
      · exact .inr ⟨by simp, n + 1, by omega, hn'⟩
    · rw [next_extend hpre hpc.1 (by omega)] at hd
      exact .inl ⟨n, m, hn, hS.next hd, hc.tail hd⟩
  · rw [Regex.next, fetch, if_neg (by omega), List.getElem?_eq_none (by omega)] at hd
    simp at hd

theorem codeSpans_plus (hS : Enclosed S) {i j : ℕ} :
    CodeSpans (S ++ [split 0 (S.length + 1)]) s i j ↔
      ∃ n ≥ 1, ChainOf (CodeSpans S s) n i j := by
  have hhold := holds_append_left S [split 0 (S.length + 1)]
  have hpre := List.prefix_append S [split 0 (S.length + 1)]
  have hsplit : (S ++ [split 0 (S.length + 1)])[S.length]? =
      some (split (0 : ℕ) (S.length + 1 : ℕ)) := by simp
  have hlen : (S ++ [split 0 (S.length + 1)]).length = S.length + 1 := by simp
  generalize S ++ [split 0 (S.length + 1)] = Q at hhold hpre hsplit hlen ⊢
  rw [CodeSpans, hlen]
  constructor
  · intro h
    have hinv := h.invariant (I := InPlus s S i) (.inl ⟨0, i, rfl, by simp, .refl⟩)
      fun c hc d hd => hc.step hS hpre hsplit hlen hd
    rcases hinv with ⟨-, -, -, hpc, -⟩ | ⟨-, hn⟩
    · simp only at hpc
      push_cast at hpc
      omega
    · exact hn
  · rintro ⟨n, hn, h⟩
    obtain ⟨n, rfl⟩ : ∃ k, n = k + 1 := ⟨n - 1, by omega⟩
    clear hn
    induction n generalizing i with
    | zero =>
      obtain ⟨m, hm, rfl⟩ := h
      have hm := hhold.spans hm
      rw [Nat.zero_add, Nat.zero_add] at hm
      exact hm.trans ((spans_split hsplit (by omega)).mpr (.inr .refl))
    | succ n ih =>
      obtain ⟨m, hm, h⟩ := h
      have hm := hhold.spans hm
      rw [Nat.zero_add, Nat.zero_add] at hm
      exact hm.trans ((spans_split hsplit (by omega)).mpr (.inl (ih h)))

/-! ## Copies without the last instruction -/

/-- Where a target of the atom leads in a copy that lacks the last of its `n` instructions. -/
def cutTarget (n base : ℕ) (t : Int) : Int := if t < n then t + base else n + 1

/-- The copy of the atom `S` that `{0,n}` makes at `L`. -/
structure CutCopy (Q S : List ReInst) (L : ℕ) : Prop where
  enter : Q[L]? = some (split (L + 1 : ℕ) (L + 1 + S.length : ℕ))
  back : Q[L + 1]? = some (split (L + 2 : ℕ) (S.length + 1 : ℕ))
  body : ∀ k i, S.dropLast[k]? = some i →
    Q[L + 2 + k]? = some (i.mapTargets (cutTarget S.length (L + 2)))

/-- Where the copies begin, and the code ends after them. -/
def cutStart (S : List ReInst) (k : ℕ) : ℕ := (k + 1) * (S.length + 1)

/-- The code of `{0,n}` after the atom `S`, with its `m` copies. -/
structure CutCode (Q S : List ReInst) (m : ℕ) : Prop where
  first : optCode S <+: Q
  length : Q.length = cutStart S m
  copies : ∀ k < m, CutCopy Q S (cutStart S k)

theorem cutStart_zero (S : List ReInst) : cutStart S 0 = S.length + 1 := by simp [cutStart]

theorem cutStart_succ (S : List ReInst) (k : ℕ) :
    cutStart S (k + 1) = cutStart S k + (S.length + 1) := Nat.succ_mul _ _

theorem cutStart_lt (S : List ReInst) {k m : ℕ} (h : k < m) :
    cutStart S k + S.length < cutStart S m := by
  have : cutStart S (k + 1) ≤ cutStart S m := Nat.mul_le_mul_right _ (by omega)
  rw [cutStart_succ] at this
  omega

theorem optCopyCode_cut (hS : Enclosed S) (h0 : 0 < S.length) (hpre : optCode S <+: T) :
    optCopyCode T 0 S.length = T ++ split (T.length + 1 : ℕ) (T.length + 1 + S.length : ℕ) ::
      split (T.length + 2 : ℕ) (S.length + 1 : ℕ) ::
        S.dropLast.map (ReInst.mapTargets (cutTarget S.length (T.length + 2))) := by
  have htake : T.take S.length = split 1 (S.length + 1) :: reloc 1 S.dropLast := by
    obtain ⟨n, hn⟩ : ∃ n, S.length = n + 1 := ⟨S.length - 1, by omega⟩
    obtain ⟨U, rfl⟩ := hpre
    rw [List.take_append_of_le_length (by simp [optCode]), optCode, hn, List.take_succ_cons,
      List.dropLast_eq_take, reloc, reloc, List.map_take, hn, Nat.add_sub_cancel]
  have hbody : (reloc 1 S.dropLast).map
      (ReInst.mapTargets (moveIn (0 : ℕ) S.length (T.length + 1 - (0 : ℕ)))) =
      S.dropLast.map (ReInst.mapTargets (cutTarget S.length (T.length + 2))) := by
    rw [reloc, List.map_map]
    refine List.map_congr_left fun i hi => ?_
    rw [Function.comp_apply, ReInst.mapTargets_mapTargets]
    refine ReInst.mapTargets_congr fun t ht => ?_
    have := hS i (List.mem_of_mem_dropLast hi) t ht
    simp only [Function.comp_apply, moveIn, cutTarget]
    split_ifs <;> push_cast at * <;> omega
  rw [optCopyCode, window, List.drop_zero, Nat.sub_zero, htake, List.map_cons, hbody,
    mapTargets_split]
  congr 3
  simp only [moveIn, Nat.cast_zero]
  rw [if_pos (by omega), if_neg (by omega)]
  congr 1
  push_cast
  omega

theorem CutCopy.extend {Q Q' : List ReInst} {L : ℕ} (h : CutCopy Q S L) (hpre : Q <+: Q') :
    CutCopy Q' S L := by
  obtain ⟨U, rfl⟩ := hpre
  have hmono : ∀ {k : ℕ} {i : ReInst}, Q[k]? = some i → (Q ++ U)[k]? = some i := by
    intro k i hk
    rw [List.getElem?_append_left (List.getElem?_eq_some_iff.mp hk).1, hk]
  exact ⟨hmono h.enter, hmono h.back, fun k i hi => hmono (h.body k i hi)⟩

theorem cutCopy_optCopyCode (hS : Enclosed S) (h0 : 0 < S.length) (hpre : optCode S <+: T) :
    CutCopy (optCopyCode T 0 S.length) S T.length := by
  rw [optCopyCode_cut hS h0 hpre]
  refine ⟨?_, ?_, fun k i hi => ?_⟩
  · rw [List.getElem?_append_right le_rfl, Nat.sub_self, List.getElem?_cons_zero]
  · rw [List.getElem?_append_right (by omega), Nat.add_sub_cancel_left]
    rfl
  · rw [List.getElem?_append_right (by omega),
      show T.length + 2 + k - T.length = k + 1 + 1 by omega, List.getElem?_cons_succ,
      List.getElem?_cons_succ, List.getElem?_map, hi]
    rfl

theorem length_optCopyCode {stop : ℕ} (hs : stop ≤ T.length) :
    (optCopyCode T 0 stop).length = T.length + (stop + 1) := by
  rw [optCopyCode, List.length_append, List.length_cons, length_window hs]
  omega

/-- The copies stand one after another behind the first, optional, atom. -/
theorem cutCode_optCopiesCode (hS : Enclosed S) (h0 : 0 < S.length) (m : ℕ) :
    CutCode (optCopiesCode m (optCode S) 0 S.length) S m := by
  have hopt : (optCode S).length = S.length + 1 := by simp [optCode]
  -- `n` further copies after `k`
  have hcopies : ∀ n k T, CutCode T S k → CutCode (optCopiesCode n T 0 S.length) S (k + n) := by
    intro n
    induction n with
    | zero => exact fun k T hT => hT
    | succ n ih =>
      intro k T hT
      have hle : S.length ≤ T.length := by
        have := hT.first.length_le
        omega
      have hpre : T <+: optCopyCode T 0 S.length := List.prefix_append _ _
      have hstep : CutCode (optCopyCode T 0 S.length) S (k + 1) := by
        refine ⟨hT.first.trans hpre, ?_, fun t ht => ?_⟩
        · rw [length_optCopyCode hle, hT.length, cutStart_succ]
        · rcases Nat.lt_succ_iff_lt_or_eq.mp ht with ht | rfl
          · exact (hT.copies t ht).extend hpre
          · exact hT.length ▸ cutCopy_optCopyCode hS h0 hT.first
      rw [optCopiesCode, show k + (n + 1) = k + 1 + n by omega]
      exact ih _ _ hstep
  have h := hcopies m 0 (optCode S)
    ⟨List.prefix_refl _, hopt.trans (cutStart_zero S).symm, fun k hk => absurd hk (by omega)⟩
  rwa [Nat.zero_add] at h

/-! ### Their runs -/

section Cut

variable {Q : List ReInst} {L p : ℕ} {c : Conf}

theorem CutCopy.next_body (h : CutCopy Q S L) (hc : 0 ≤ c.pc)
    (hlt : c.pc.toNat < S.dropLast.length) : next Q s (c.shift (L + 2)) =
      (next S.dropLast s c).map fun d => ⟨cutTarget S.length (L + 2) d.pc, d.pos⟩ := by
  have hk := List.getElem?_eq_getElem hlt
  have hf : fetch Q (c.shift (L + 2)).pc =
      some (S.dropLast[c.pc.toNat].mapTargets (cutTarget S.length (L + 2))) := by
    refine fetch_eq_some.mpr ⟨by simp only [Conf.shift]; omega, ?_⟩
    rw [← h.body _ _ hk]
    congr 1
    simp only [Conf.shift]
    omega
  rw [List.length_dropLast] at hlt
  rw [next_of_fetch hf, next_of_fetch (fetch_eq_some.mpr ⟨hc, hk⟩),
    ReInst.next_mapTargets_of _ _ _ (by rw [cutTarget, if_pos (by omega)]; omega)]

theorem mem_next_dropLast (hS : Enclosed S) {d : Conf} (hd : d ∈ next S.dropLast s c) :
    0 ≤ c.pc ∧ c.pc.toNat < S.dropLast.length ∧ 0 ≤ d.pc ∧ d.pc ≤ S.length := by
  have hshort : S.dropLast.length ≤ S.length := by
    rw [List.length_dropLast]
    exact Nat.sub_le ..
  exact mem_next_of_targets (fun i hi => hS i (List.mem_of_mem_dropLast hi)) hshort hd

/-- Runs of the atom without its last instruction are runs of the copy. -/
theorem CutCopy.reachable (h : CutCopy Q S L) (hS : Enclosed S) (h0 : 0 < S.length)
    (hr : Search.Reachable (next S.dropLast s) ⟨(0 : ℕ), p⟩ c) :
    Search.Reachable (next Q s) ⟨(L + 2 : ℕ), p⟩ ⟨cutTarget S.length (L + 2) c.pc, c.pos⟩ := by
  induction hr with
  | refl =>
    rw [cutTarget, if_pos (by simpa using h0), Nat.cast_zero, zero_add]
  | @tail c d _ hs ih =>
    have hs : d ∈ next S.dropLast s c := hs
    obtain ⟨hc, hlt, -⟩ := mem_next_dropLast hS hs
    refine ih.tail ?_
    show _ ∈ next Q s _
    have hshift : (⟨cutTarget S.length (L + 2) c.pc, c.pos⟩ : Conf) = c.shift (L + 2) := by
      rw [List.length_dropLast] at hlt
      rw [cutTarget, if_pos (by omega)]
      rfl
    rw [hshift, h.next_body hc hlt]
    exact List.mem_map_of_mem hs

end Cut

/--
The copies at whose start a run through `m` of them can be, and the positions there, after an
optional span `first`: a copy is skipped, left at its end, or left for the first of them.
-/
inductive Visits (first cut whole : ℕ → ℕ → Prop) (m i : ℕ) : ℕ → ℕ → Prop where

  | first {p : ℕ} : first i p → Visits first cut whole m i 0 p

  | skip {k p : ℕ} : Visits first cut whole m i k p → k < m → Visits first cut whole m i (k + 1) p

  | cut {k p q : ℕ} : Visits first cut whole m i k p → k < m → cut p q →
      Visits first cut whole m i (k + 1) q

  | restart {k p : ℕ} : Visits first cut whole m i k p → k < m → Visits first cut whole m i 0 p

  | whole {k p q : ℕ} : Visits first cut whole m i k p → k < m → whole p q →
      Visits first cut whole m i 0 q

/-- Where the runs of the code of `{0,n}` are, relative to the copies. -/
inductive InCut (s : Subject) (S : List ReInst) (V : ℕ → ℕ → Prop) (m i : ℕ) : Conf → Prop where

  | first {c : Conf} : Search.Reachable (next (optCode S) s) ⟨(0 : ℕ), i⟩ c → 0 ≤ c.pc →
      c.pc ≤ S.length → InCut s S V m i c

  | enter {k p : ℕ} : k ≤ m → V k p → InCut s S V m i ⟨cutStart S k, p⟩

  | back {k p : ℕ} : k < m → V k p → InCut s S V m i ⟨(cutStart S k + 1 : ℕ), p⟩

  | body {k p : ℕ} {c : Conf} : k < m → V k p →
      Search.Reachable (next S.dropLast s) ⟨(0 : ℕ), p⟩ c → 0 ≤ c.pc →
      c.pc.toNat < S.dropLast.length → InCut s S V m i (c.shift (cutStart S k + 2))

section Runs

variable {Q : List ReInst} {m i : ℕ}

/-- The positions at the copies of the atom `S`. -/
def CutVisits (s : Subject) (S : List ReInst) (m i : ℕ) : ℕ → ℕ → Prop :=
  Visits (fun i p => i = p ∨ CodeSpans S s i p) (Spans S.dropLast s 0 (S.length - 1))
    (Spans S.dropLast s 0 S.length) m i

/-- A run inside a copy stays there, ends it, or is back at the first copy. -/
theorem inCut_of_reachable {k p : ℕ} {c : Conf} (h0 : 0 < S.length) (hk : k < m)
    (hv : CutVisits s S m i k p) (hr : Search.Reachable (next S.dropLast s) ⟨(0 : ℕ), p⟩ c)
    (hc : 0 ≤ c.pc) (hle : c.pc ≤ S.length) :
    InCut s S (CutVisits s S m i) m i
      ⟨cutTarget S.length (cutStart S k + 2) c.pc, c.pos⟩ := by
  obtain ⟨pc, pos⟩ := c
  obtain ⟨t, rfl⟩ := Int.eq_ofNat_of_zero_le hc
  simp only at hr hle ⊢
  by_cases hbody : t < S.dropLast.length
  · have h : InCut s S (CutVisits s S m i) m i (Conf.shift (cutStart S k + 2) ⟨t, pos⟩) :=
      .body hk hv hr hc hbody
    rw [List.length_dropLast] at hbody
    rw [cutTarget, if_pos (by omega)]
    exact h
  rw [List.length_dropLast] at hbody
  obtain rfl | rfl : t = S.length - 1 ∨ t = S.length := by omega
  · have h : InCut s S (CutVisits s S m i) m i ⟨cutStart S (k + 1), pos⟩ :=
      .enter hk (hv.cut hk hr)
    rw [cutStart_succ] at h
    rw [cutTarget, if_pos (by omega), ← Nat.cast_add,
      show S.length - 1 + (cutStart S k + 2) = cutStart S k + (S.length + 1) by omega]
    exact h
  · have h : InCut s S (CutVisits s S m i) m i ⟨cutStart S 0, pos⟩ :=
      .enter (Nat.zero_le _) (hv.whole hk hr)
    rw [cutTarget, if_neg (by omega)]
    rwa [cutStart_zero] at h

theorem CutCode.inCut_step (h : CutCode Q S m) (hS : Enclosed S) (h0 : 0 < S.length) {c : Conf}
    (hc : InCut s S (CutVisits s S m i) m i c) :
    ∀ d ∈ next Q s c, InCut s S (CutVisits s S m i) m i d := by
  intro d hd
  have hopt : (optCode S).length = S.length + 1 := by simp [optCode]
  cases hc with
  | first hr hpc hle =>
    rw [next_extend h.first hpc (by rw [hopt]; push_cast; omega)] at hd
    have hd' := (enclosed_optCode hS).next hd
    rw [hopt] at hd'
    by_cases hend : d.pc ≤ S.length
    · exact .first (hr.tail hd) hd'.1 hend
    · -- out of the first atom
      obtain ⟨pc, pos⟩ := d
      obtain rfl : pc = (S.length + 1 : ℕ) := by
        simp only at hd' hend
        omega
      have hspans : CodeSpans (optCode S) s i pos := by
        rw [CodeSpans, hopt]
        exact hr.tail hd
      have h' : InCut s S (CutVisits s S m i) m i ⟨cutStart S 0, pos⟩ :=
        .enter (Nat.zero_le _) (.first ((codeSpans_optCode hS).mp hspans))
      rwa [cutStart_zero] at h'
  | @enter k p hk hv =>
    rcases hk.lt_or_eq with hk | rfl
    · rw [next_split (h.copies k hk).enter] at hd
      obtain rfl | rfl : d = ⟨(cutStart S k + 1 : ℕ), p⟩ ∨
          d = ⟨(cutStart S k + 1 + S.length : ℕ), p⟩ := by simpa using hd
      · exact .back hk hv
      · have h' : InCut s S (CutVisits s S m i) m i ⟨cutStart S (k + 1), p⟩ :=
          .enter hk (hv.skip hk)
        rwa [cutStart_succ, Nat.add_comm S.length, ← Nat.add_assoc] at h'
    · rw [← h.length] at hd
      simp [Regex.next, fetch] at hd
  | @back k p hk hv =>
    rw [next_split (h.copies k hk).back] at hd
    obtain rfl | rfl : d = ⟨(cutStart S k + 2 : ℕ), p⟩ ∨ d = ⟨(S.length + 1 : ℕ), p⟩ := by
      simpa using hd
    · have h' := inCut_of_reachable h0 hk hv .refl (by simp) (by simp)
      rwa [cutTarget, if_pos (by simpa using h0), Nat.cast_zero, zero_add] at h'
    · have h' : InCut s S (CutVisits s S m i) m i ⟨cutStart S 0, p⟩ :=
        .enter (Nat.zero_le _) (hv.restart hk)
      rwa [cutStart_zero] at h'
  | @body k p c hk hv hr hpc hlt =>
    rw [(h.copies k hk).next_body hpc hlt] at hd
    obtain ⟨e, he, rfl⟩ := List.mem_map.mp hd
    obtain ⟨-, -, h0', hle⟩ := mem_next_dropLast hS he
    exact inCut_of_reachable h0 hk hv (hr.tail he) h0' hle

theorem InCut.visits {V : ℕ → ℕ → Prop} {c : Conf} (h : InCut s S V m i c) (h0 : 0 < S.length)
    (hc : c.pc = cutStart S m) : V m c.pos := by
  have hm : S.length < cutStart S m := by
    have : cutStart S 0 ≤ cutStart S m := Nat.mul_le_mul_right _ (by omega)
    rw [cutStart_zero] at this
    omega
  cases h with
  | first hr hpc hle => omega
  | @enter k p hk hv =>
    rcases hk.lt_or_eq with hk | rfl
    · have := cutStart_lt S hk
      simp only at hc
      omega
    · exact hv
  | @back k p hk hv =>
    have := cutStart_lt S hk
    simp only at hc
    omega
  | @body k p c hk hv hr hpc hlt =>
    have := cutStart_lt S hk
    rw [List.length_dropLast] at hlt
    simp only [Conf.shift] at hc
    omega

theorem CutCode.spans_of_visits (h : CutCode Q S m) (hS : Enclosed S) (h0 : 0 < S.length)
    {k p : ℕ} (hv : CutVisits s S m i k p) : Spans Q s 0 (cutStart S k) i p := by
  have hopt : (optCode S).length = S.length + 1 := by simp [optCode]
  have hhold : Holds Q 0 (optCode S) := by
    obtain ⟨U, rfl⟩ := h.first
    exact holds_append_left _ U
  have henter : ∀ {k p : ℕ}, k < m →
      Spans Q s (cutStart S k) (cutStart S k + 1) p p ∧
      Spans Q s (cutStart S k) (cutStart S (k + 1)) p p ∧
      Spans Q s (cutStart S k + 1) (cutStart S k + 2) p p ∧
      Spans Q s (cutStart S k + 1) (cutStart S 0) p p := by
    intro k p hk
    have hcopy := h.copies k hk
    have hlt := cutStart_lt S hk
    refine ⟨.single ?_, .single ?_, .single ?_, .single ?_⟩ <;> show _ ∈ next Q s _
    · simp [next_split hcopy.enter]
    · rw [next_split hcopy.enter, cutStart_succ, Nat.add_comm S.length, ← Nat.add_assoc]
      simp
    · rw [next_split hcopy.back]
      simp
    · rw [next_split hcopy.back, cutStart_zero]
      simp
  induction hv with
  | first hp =>
    have hp := hhold.spans ((codeSpans_optCode hS).mpr hp)
    rwa [Nat.zero_add, Nat.zero_add, hopt, ← cutStart_zero] at hp
  | skip _ hk ih => exact ih.trans (henter hk).2.1
  | restart _ hk ih => exact ih.trans ((henter hk).1.trans (henter hk).2.2.2)
  | @cut k p q _ hk hq ih =>
    have hbody := (h.copies k hk).reachable hS h0 hq
    rw [cutTarget, if_pos (by push_cast; omega), ← Nat.cast_add,
      show S.length - 1 + (cutStart S k + 2) = cutStart S (k + 1) by
        rw [cutStart_succ]; omega] at hbody
    exact ih.trans ((henter hk).1.trans ((henter hk).2.2.1.trans hbody))
  | @whole k p q _ hk hq ih =>
    have hbody := (h.copies k hk).reachable hS h0 hq
    rw [cutTarget, if_neg (by push_cast; omega)] at hbody
    have hbody : Spans Q s (cutStart S k + 2) (cutStart S 0) p q := by
      rwa [cutStart_zero]
    exact ih.trans ((henter hk).1.trans ((henter hk).2.2.1.trans hbody))

theorem CutCode.spans_iff (h : CutCode Q S m) (hS : Enclosed S) (h0 : 0 < S.length) {j : ℕ} :
    CodeSpans Q s i j ↔ CutVisits s S m i m j := by
  rw [CodeSpans, h.length]
  constructor
  · intro hr
    have hin := hr.invariant (I := InCut s S (CutVisits s S m i) m i)
      (.first .refl (by simp) (by simp)) fun c hc => h.inCut_step hS h0 hc
    exact hin.visits h0 rfl
  · exact h.spans_of_visits hS h0

end Runs

/-! ### Their runs in closed form -/

section Closed

variable {first cut whole : ℕ → ℕ → Prop} {m i j : ℕ}

/-- One copy: it is left for the copies' start any number of times, and then passed once. -/
theorem visits_one : Visits first cut whole 1 i 1 j ↔
    ∃ p q, first i p ∧ Relation.ReflTransGen whole p q ∧ (q = j ∨ cut q j) := by
  constructor
  · intro h
    have hinv : ∀ {k q : ℕ}, Visits first cut whole 1 i k q →
        (k = 0 ∧ ∃ p, first i p ∧ Relation.ReflTransGen whole p q) ∨
        (k = 1 ∧ ∃ p r, first i p ∧ Relation.ReflTransGen whole p r ∧ (r = q ∨ cut r q)) := by
      intro k q h
      induction h with
      | first hp => exact .inl ⟨rfl, _, hp, .refl⟩
      | skip _ hk ih =>
        obtain ⟨rfl, p, hp, hr⟩ | ⟨rfl, -⟩ := ih
        · exact .inr ⟨rfl, p, _, hp, hr, .inl rfl⟩
        · omega
      | cut _ hk hq ih =>
        obtain ⟨rfl, p, hp, hr⟩ | ⟨rfl, -⟩ := ih
        · exact .inr ⟨rfl, p, _, hp, hr, .inr hq⟩
        · omega
      | restart _ hk ih =>
        obtain ⟨rfl, hp⟩ | ⟨rfl, -⟩ := ih
        · exact .inl ⟨rfl, hp⟩
        · omega
      | whole _ hk hq ih =>
        obtain ⟨rfl, p, hp, hr⟩ | ⟨rfl, -⟩ := ih
        · exact .inl ⟨rfl, p, hp, hr.tail hq⟩
        · omega
    obtain ⟨h0, -⟩ | ⟨-, hj⟩ := hinv h
    · omega
    · exact hj
  · rintro ⟨p, q, hp, hr, hj⟩
    have hzero : Visits first cut whole 1 i 0 q := by
      clear hj
      induction hr with
      | refl => exact .first hp
      | tail _ hq ih => exact ih.whole Nat.zero_lt_one hq
    rcases hj with rfl | hj
    · exact hzero.skip Nat.zero_lt_one
    · exact hzero.cut Nat.zero_lt_one hj

/-- Several copies: from behind any of them a run can start over. -/
theorem visits_many (hm : 2 ≤ m) : Visits first cut whole m i m j ↔
    ∃ p, first i p ∧ Relation.ReflTransGen (fun q r => whole q r ∨ cut q r) p j := by
  constructor
  · intro h
    have hinv : ∀ {k q : ℕ}, Visits first cut whole m i k q →
        ∃ p, first i p ∧ Relation.ReflTransGen (fun q r => whole q r ∨ cut q r) p q := by
      intro k q h
      induction h with
      | first hp => exact ⟨_, hp, .refl⟩
      | skip _ _ ih | restart _ _ ih => exact ih
      | cut _ _ hq ih =>
        obtain ⟨p, hp, hr⟩ := ih
        exact ⟨p, hp, hr.tail (.inr hq)⟩
      | whole _ _ hq ih =>
        obtain ⟨p, hp, hr⟩ := ih
        exact ⟨p, hp, hr.tail (.inl hq)⟩
    exact hinv h
  · rintro ⟨p, hp, hr⟩
    have hzero : Visits first cut whole m i 0 j := by
      induction hr with
      | refl => exact .first hp
      | tail _ hq ih =>
        rcases hq with hq | hq
        · exact ih.whole (by omega) hq
        · exact (ih.cut (by omega) hq).restart (by omega)
    have hskip : ∀ k ≤ m, Visits first cut whole m i k j := by
      intro k hk
      induction k with
      | zero => exact hzero
      | succ k ih => exact (ih (by omega)).skip hk
    exact hskip m le_rfl

end Closed

/-! ## Quantified atoms -/

/-- The least number of spans of the atom that a quantifier asks for. -/
def Quantifier.min : Quantifier → ℕ
  | .one | .plus => 1
  | .star | .question => 0
  | .interval min _ => min

def Quantifier.max : Quantifier → Option ℕ
  | .one | .question => some 1
  | .star | .plus => none
  | .interval _ max => max

/--
The code from `start` on spans the chains of as many spans of the atom as `q` allows: `d` is
the compiler after the atom, and `e` after its quantifier.
-/
def SpansChains (start : ℕ) (q : Quantifier) (d e : ReCompiler) : Prop :=
  ∀ s i j, i ≤ j → (Spans e.program s start e.length i j ↔
    ∃ n, q.min ≤ n ∧ (∀ m ∈ q.max, n ≤ m) ∧ ChainOf (Spans d.program s start d.length) n i j)

/-- The atom compiled last, without its last instruction, leads from `i` at its start to `stop`. -/
def CutSpans (s : Subject) (start : ℕ) (d : ReCompiler) (stop i j : ℕ) : Prop :=
  Spans d.program.dropLast s start stop i j

/--
The runs through `n - 1` copies of an atom that lack its last instruction: one that leads to the
end of the whole atom is back at the first copy.
-/
def CutRun (s : Subject) (start : ℕ) (d : ReCompiler) (n i j : ℕ) : Prop :=
  if n = 2 then
    ∃ m, Relation.ReflTransGen (CutSpans s start d d.length) i m ∧
      (m = j ∨ CutSpans s start d (d.length - 1) m j)
  else
    Relation.ReflTransGen
      (fun i j => CutSpans s start d d.length i j ∨ CutSpans s start d (d.length - 1) i j) i j

/--
What is left of an atom makes no difference to the chains: for `{0}` the atom spans empty ranges
only, and for `{0,n}` with more than one copy its chains are one optional span of the atom and
then a run through the copies.
-/
def ZeroHarmless (start : ℕ) (d : ReCompiler) : Quantifier → Prop
  | .interval 0 (some 0) => ∀ s i j, Spans d.program s start d.length i j → i = j
  | .interval 0 (some (n + 2)) => ∀ s i j,
    (∃ k ≤ n + 2, ChainOf (Spans d.program s start d.length) k i j) ↔
      ∃ m, (i = m ∨ Spans d.program s start d.length i m) ∧ CutRun s start d (n + 2) m j
  | _ => True

theorem spans_of_holds {Q : List ReInst} {base : ℕ} (h : Holds Q base S)
    (hlen : Q.length = base + S.length) (hS : ∀ i ∈ S, ∀ t ∈ i.targets, 0 ≤ t) {k i j : ℕ} :
    Spans Q s base (base + k) i j ↔ Spans S s 0 k i j := by
  constructor
  · intro hr
    have hinv := hr.invariant
      (I := fun c => ∃ e : Conf, c = e.shift base ∧ 0 ≤ e.pc ∧
        Search.Reachable (next S s) ⟨(0 : ℕ), i⟩ e)
      ⟨_, by rw [shift_natCast, Nat.add_zero], by simp, .refl⟩ ?_
    · obtain ⟨e, he, -, hr⟩ := hinv
      obtain rfl : e = ⟨k, j⟩ := by
        obtain ⟨pc, pos⟩ := e
        simp only [Conf.shift, Conf.mk.injEq] at he ⊢
        omega
      exact hr
    · rintro c ⟨e, rfl, hpc, he⟩ d hd
      by_cases hlt : e.pc < S.length
      · have hf : fetch S e.pc = some S[e.pc.toNat] :=
          fetch_eq_some.mpr ⟨hpc, List.getElem?_eq_getElem (by omega)⟩
        rw [h.next hf] at hd
        obtain ⟨u, hu, rfl⟩ := List.mem_map.mp hd
        refine ⟨u, rfl, ?_, he.tail hu⟩
        rw [next_of_fetch hf] at hu
        rcases ReInst.mem_next hu with ⟨ht, -⟩ | ⟨-, hpc, -⟩ | ⟨-, hpc, -⟩
        · exact hS _ (List.getElem_mem _) _ ht
        · omega
        · omega
      · rw [Regex.next, fetch, if_neg (by simp only [Conf.shift]; omega),
          List.getElem?_eq_none (by simp only [Conf.shift]; omega)] at hd
        simp at hd
  · intro hr
    have hr := h.spans hr
    rwa [Nat.add_zero] at hr

section Piece

variable {A : List ReInst} {d : ReCompiler} {ℓ n i j : ℕ}

theorem Extends.cutSpans_iff (h : Extends A d.program ℓ S) (hS : Enclosed S) (h0 : 0 < S.length)
    {k : ℕ} : CutSpans s A.length d (A.length + k) i j ↔ Spans S.dropLast s 0 k i j := by
  have hhold : Holds d.program.dropLast A.length S.dropLast := by
    intro t u ht
    have hlt := (List.getElem?_eq_some_iff.mp ht).1
    rw [List.length_dropLast] at hlt
    rw [List.getElem?_dropLast, if_pos hlt] at ht
    obtain ⟨w, hw, he⟩ := h.holds t u ht
    exact ⟨w, by rw [List.getElem?_dropLast, if_pos (by rw [h.length]; omega), hw], he⟩
  refine spans_of_holds hhold ?_ fun u hu t ht => (hS u (List.mem_of_mem_dropLast hu) t ht).1
  rw [List.length_dropLast, List.length_dropLast, h.length]
  omega

theorem cutRun_nil (h : Extends A d.program ℓ []) (hA : A ≠ []) :
    CutRun s A.length d n i j ↔ i = j := by
  have hpos := List.length_pos_of_ne_nil hA
  have hlen : d.program.dropLast.length < A.length := by
    rw [List.length_dropLast, h.length, List.length_nil]
    omega
  have hstuck : ∀ {stop i j : ℕ}, CutSpans s A.length d stop i j → i = j := by
    intro stop i j hr
    rcases Relation.ReflTransGen.cases_head hr with he | ⟨e, he, -⟩
    · exact (Conf.mk.inj he).2
    · have he : e ∈ Regex.next d.program.dropLast s ⟨A.length, i⟩ := he
      rw [Regex.next, fetch, if_neg (by simp),
        List.getElem?_eq_none (by rw [Int.toNat_natCast]; exact hlen.le)] at he
      simp at he
  unfold CutRun
  constructor
  · split
    · rintro ⟨m, hm, hj⟩
      have hm := eq_of_reflTransGen (fun p q hpq => hstuck hpq) hm
      exact hm.trans (hj.elim id hstuck)
    · exact eq_of_reflTransGen fun p q hpq => hpq.elim hstuck hstuck
  · rintro rfl
    split
    · exact ⟨i, .refl, .inl rfl⟩
    · exact .refl

/-- The code of `{0,n}` with more than one copy, in terms of the atom's own code. -/
theorem Extends.zero_spans_iff (h : Extends A d.program ℓ S) (hS : Enclosed S) (hA : A ≠ []) :
    CodeSpans (optCopiesCode (n + 1) (optCode S) 0 S.length) s i j ↔
      ∃ m, (i = m ∨ CodeSpans S s i m) ∧ CutRun s A.length d (n + 2) m j := by
  rcases Nat.eq_zero_or_pos S.length with h0 | h0
  · obtain rfl := List.eq_nil_of_length_eq_zero h0
    have hnil : ∀ {i j : ℕ}, CodeSpans [] s i j ↔ i = j :=
      fun {i j} => ⟨fun h => spans_end (Q := []) h, fun h => h ▸ .refl⟩
    rw [codeSpans_optCopiesCode hS (n + 1) (enclosed_optCode hS) List.nil_prefix]
    simp only [codeSpans_optCode hS, hnil, or_self, exists_eq_left', cutRun_nil h hA]
    constructor
    · rintro ⟨k, -, hk⟩
      exact eq_of_reflTransGen (fun p q => hnil.mp) hk.reflTransGen
    · rintro rfl
      exact ⟨0, Nat.zero_le _, rfl⟩
  · rw [(cutCode_optCopiesCode hS h0 (n + 1)).spans_iff hS h0]
    have hwhole : CutSpans s A.length d d.length = Spans S.dropLast s 0 S.length :=
      funext₂ fun p q => propext (by rw [ReCompiler.length, h.length, h.cutSpans_iff hS h0])
    have hcut : CutSpans s A.length d (d.length - 1) = Spans S.dropLast s 0 (S.length - 1) :=
      funext₂ fun p q => propext (by
        rw [ReCompiler.length, h.length, Nat.add_sub_assoc h0, h.cutSpans_iff hS h0])
    simp only [CutRun, hwhole, hcut]
    cases n with
    | zero =>
      refine visits_one.trans ?_
      simp
    | succ n =>
      refine (visits_many (by omega)).trans ?_
      simp

theorem Extends.zero_interval_iff (h : Extends A d.program ℓ S) (hS : Enclosed S) (hA : A ≠ [])
    (max : ℕ) :
    (∀ s i j, CodeSpans (quantCode S (.interval 0 (some max))) s i j ↔
      ∃ n, (Quantifier.interval 0 (some max)).min ≤ n ∧
        (∀ m ∈ (Quantifier.interval 0 (some max)).max, n ≤ m) ∧ ChainOf (CodeSpans S s) n i j) ↔
    ZeroHarmless A.length d (.interval 0 (some max)) := by
  have hspans : ∀ s, Spans d.program s A.length d.length = CodeSpans S s :=
    fun s => funext₂ fun i j => propext (h.spans_iff hS)
  simp only [Quantifier.min, Quantifier.max, Option.mem_some_iff, forall_eq', Nat.zero_le, true_and]
  rcases max with _ | _ | n
  · have hchain : ∀ s i j, (∃ n, n ≤ 0 ∧ ChainOf (CodeSpans S s) n i j) ↔ i = j := by
      simp [ChainOf]
    simp only [quantCode, Nat.zero_sub, optCopiesCode, codeSpans_optCode hS, ZeroHarmless, hspans,
      hchain, or_iff_left_iff_imp]
  · refine iff_of_true (fun s i j => ?_) trivial
    rw [quantCode, Nat.sub_self, optCopiesCode, codeSpans_optCode hS]
    exact chainOf_le_one.symm
  · simp only [ZeroHarmless, hspans, quantCode]
    refine forall_congr' fun s => forall_congr' fun i => forall_congr' fun j => ?_
    rw [show n + 2 - 1 = n + 1 by omega, h.zero_spans_iff hS hA]
    exact iff_comm

/-- What the code of a bounded quantifier spans, in terms of the atom's own code. -/
theorem Extends.quant_spans_iff (h : Extends A d.program ℓ S) (hS : Enclosed S) (hA : A ≠ [])
    {q : Quantifier} (hbounded : q = .plus ∨ q.max.isSome) (hle : ∀ m ∈ q.max, q.min ≤ m) :
    (∀ s i j, CodeSpans (quantCode S q) s i j ↔
      ∃ n, q.min ≤ n ∧ (∀ m ∈ q.max, n ≤ m) ∧ ChainOf (CodeSpans S s) n i j) ↔
    ZeroHarmless A.length d q := by
  cases q with
  | one =>
    refine iff_of_true (fun s i j => ?_) trivial
    simp only [quantCode, Quantifier.min, Quantifier.max, Option.mem_some_iff, forall_eq']
    constructor
    · intro hij
      exact ⟨1, le_rfl, le_rfl, chainOf_one.mpr hij⟩
    · rintro ⟨n, h1, h2, hn⟩
      exact chainOf_one.mp (le_antisymm h2 h1 ▸ hn)
  | star => simp [Quantifier.max] at hbounded
  | plus =>
    refine iff_of_true (fun s i j => ?_) trivial
    rw [quantCode, codeSpans_plus hS]
    simp [Quantifier.min, Quantifier.max]
  | question =>
    refine iff_of_true (fun s i j => ?_) trivial
    rw [quantCode, codeSpans_optCode hS]
    simpa [Quantifier.min, Quantifier.max] using chainOf_le_one.symm
  | interval min max =>
    cases max with
    | none => simp [Quantifier.max] at hbounded
    | some max =>
      cases min with
      | zero => exact h.zero_interval_iff hS hA max
      | succ min =>
        have hmin : min + 1 ≤ max := hle max rfl
        refine iff_of_true (fun s i j => ?_) (by simp [ZeroHarmless])
        rw [quantCode, codeSpans_optCopiesCode hS _
          (enclosed_copiesCode hS min (Nat.zero_le _) le_rfl) (prefix_copiesCode min S 0 S.length)]
        simp only [codeSpans_copiesCode hS min hS List.prefix_rfl, Quantifier.min, Quantifier.max,
          Option.mem_some_iff, forall_eq']
        constructor
        · rintro ⟨m, hm, k, hk, hj⟩
          exact ⟨min + 1 + k, by omega, by omega, (chainOf_add _ _).mpr ⟨m, hm, hj⟩⟩
        · rintro ⟨n, h1, h2, hn⟩
          obtain ⟨k, rfl⟩ := Nat.exists_eq_add_of_le h1
          obtain ⟨m, hm, hj⟩ := (chainOf_add _ _).mp hn
          exact ⟨m, hm, k, by omega, hj⟩

end Piece

/-- The reading of a quantifier rejects a least number above the greatest. -/
theorem parseQuantifier_le {extended : Bool} {p r : List UInt8} {q : Quantifier}
    (h : parseQuantifier extended p = some (q, r)) : ∀ m ∈ q.max, q.min ≤ m := by
  unfold parseQuantifier at h
  obtain ⟨kind, -, h⟩ := Option.bind_eq_some_iff.mp h
  rcases kind with - | - | - | - | -
  · obtain ⟨rfl, -⟩ := Prod.mk.inj (Option.some.inj h)
    simp [Quantifier.min, Quantifier.max]
  · obtain ⟨rfl, -⟩ := Prod.mk.inj (Option.some.inj h)
    simp [Quantifier.max]
  · obtain ⟨rfl, -⟩ := Prod.mk.inj (Option.some.inj h)
    simp [Quantifier.max]
  · obtain ⟨rfl, -⟩ := Prod.mk.inj (Option.some.inj h)
    simp [Quantifier.min, Quantifier.max]
  · simp only [Option.bind_eq_bind, Option.bind_eq_some_iff] at h
    obtain ⟨reading, -, h⟩ := h
    rcases reading with code | ⟨min, max, p⟩
    · cases h
    · by_cases hlt : max.any (· < min) = true
      · simp [hlt] at h
      · simp only [hlt, Bool.false_eq_true, if_false] at h
        obtain ⟨rfl, -⟩ := Prod.mk.inj (Option.some.inj h)
        rintro m hm
        obtain rfl : max = some m := hm
        simpa [Quantifier.min] using hlt

variable {depth : ℕ} {inGroup : Bool} {c d e : ReCompiler} {q : Quantifier} {rest : List UInt8}
  {r : Option ℕ}

/--
The code of an atom with `+`, `?` or a bounded interval spans exactly the chains of as many spans
of the atom, provided that for `{0}` and for `{0,n}` with `n ≥ 2` what is left of the atom makes
no difference.
-/
theorem bounded_spans_iff (hatom : AtomAccepted depth inGroup c d)
    (hq : parseQuantifier d.extended d.cursor = some (q, rest))
    (hbounded : q = .plus ∨ q.max.isSome)
    (he : reCompileQuantifier d c.length = some (r, e)) (hok : e.error = .ok) :
    SpansChains c.length q d e ↔ ZeroHarmless c.length d q := by
  obtain ⟨hpast, a, ha⟩ := hatom.compiled
  have hextends : Extends c.program d.program a.lead a.code := by
    have h := extends_genAtom a c.code
    rwa [← ha] at h
  have hpiece : Extends c.program e.program (quantLead a.lead q) (quantCode a.code q) := by
    obtain ⟨x, he', hquant⟩ := reCompileQuantifier_compiled hpast.1 c.length
    rw [he] at he'
    obtain rfl := Option.some.inj he'
    obtain ⟨-, q', hq', hcode⟩ := hquant.done hok
    rw [hq] at hq'
    obtain ⟨rfl, -⟩ := Prod.mk.inj (Option.some.inj hq')
    have hprogram : e.program = quantify d.program c.length q := congrArg Code.program hcode
    rw [hprogram]
    exact hextends.quantify a.enclosed q
  have hspans : ∀ s, Spans d.program s c.length d.length = CodeSpans a.code s :=
    fun s => funext₂ fun i j => propext (hextends.spans_iff a.enclosed)
  have hne : c.program ≠ [] := hatom.ready.program hatom.ok
  have hiff := hextends.quant_spans_iff a.enclosed hne hbounded (parseQuantifier_le hq)
  refine Iff.trans ?_ hiff
  refine forall_congr' fun s => forall_congr' fun i => forall_congr' fun j => ?_
  have hquant : Spans e.program s c.length e.length i j ↔ CodeSpans (quantCode a.code q) s i j :=
    hpiece.spans_iff (enclosed_quantCode a.enclosed q)
  rw [hquant, hspans]
  refine ⟨fun h => ?_, fun h _ => h⟩
  by_cases hij : i ≤ j
  · exact h hij
  · refine iff_of_false (fun hr => hij (Spans.le hr)) ?_
    rintro ⟨n, -, -, hn⟩
    exact hij (chainOf_le (fun _ _ => Spans.le) hn)

abbrev repeatedA : CString :=
  ⟨[byte 'a', byte '{', byte '2', byte ',', byte '3', byte '}'], by decide⟩

abbrev optionalTwiceA : CString :=
  ⟨[byte 'a', byte '{', byte '0', byte ',', byte '2', byte '}'], by decide⟩

theorem repeatedA_spans :
    SpansChains 1 (.interval 2 (some 3)) (afterAtom repeatedA) (passes repeatedA 1) := by
  have hatom : AtomAccepted 6 false (passes repeatedA 0) (afterAtom repeatedA) :=
    ⟨⟨InText.memory repeatedA, fun _ => by decide⟩, rfl, by decide, rfl, ⟨0, rfl⟩, rfl⟩
  exact (bounded_spans_iff hatom (show parseQuantifier _ _ = some (_, [0]) from rfl) (.inr rfl)
    (r := some 1) rfl rfl).mpr trivial

/-- `a{0,2}` does not match all of `aa`. -/
theorem optionalTwiceA_not_spans :
    AtomAccepted 6 false (passes optionalTwiceA 0) (afterAtom optionalTwiceA) ∧
    parseQuantifier true (afterAtom optionalTwiceA).cursor =
      some (.interval 0 (some 2), [0]) ∧
    reCompileQuantifier (afterAtom optionalTwiceA) 1 = some (some 1, passes optionalTwiceA 1) ∧
    (passes optionalTwiceA 1).error = .ok ∧
    ¬ SpansChains 1 (.interval 0 (some 2)) (afterAtom optionalTwiceA)
      (passes optionalTwiceA 1) := by
  refine ⟨⟨⟨InText.memory optionalTwiceA, fun _ => by decide⟩, rfl, by decide, rfl, ⟨0, rfl⟩,
    rfl⟩, rfl, rfl, rfl, fun h => ?_⟩
  have hspans := (h ⟨⟨[byte 'a', byte 'a'], by decide⟩, regExtended, 0⟩ 0 2 (by omega)).mpr
    ⟨2, Nat.zero_le _, by simp [Quantifier.max], 1, .single (by show _ ∈ _; decide), 2,
      .single (by show _ ∈ _; decide), rfl⟩
  have hmem := hspans.mem_of_closed [⟨1, 0⟩, ⟨2, 0⟩, ⟨3, 0⟩, ⟨3, 1⟩, ⟨4, 0⟩, ⟨4, 1⟩, ⟨5, 0⟩, ⟨5, 1⟩]
    (by decide) (by decide)
  revert hmem
  decide

end LampUserspace.Regex
