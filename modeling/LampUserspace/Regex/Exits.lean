import LampUserspace.Regex.Codegen

/-! # Exits and displacements, read off the tree

A piece with a branch to its own end is harmed by a piece after it whose code
begins with inserted splits. Both properties are decided on the tree, without
compiling it.
-/

namespace LampUserspace.Regex

def HasExit (S : List ReInst) : Prop := ∃ i ∈ S, (S.length : Int) ∈ i.targets

/-- A quantified atom begins with an inserted split. -/
def quantLeads (leads : Bool) : Quantifier → Bool
  | .one | .plus | .interval (_ + 1) _ => leads
  | .star | .question | .interval 0 _ => true

/-- A quantified atom has no code but splits inserted at its start. -/
def quantHollow (leads hollow : Bool) : Quantifier → Bool
  | .one | .question => hollow
  | .star | .plus | .interval _ none => false
  | .interval 0 (some max) => hollow && max ≤ 1
  | .interval (min + 1) (some max) => hollow && max ≤ min + 1 && (min = 0 || !leads)

/-- A quantified atom has a branch to its end. -/
def quantExits (exits : Bool) : Quantifier → Bool
  | .one => exits
  | .star | .interval _ none => false
  | .plus | .question | .interval 0 (some _) => true
  | .interval (min + 1) (some max) => min + 1 < max || exits

mutual

def Atom.leads : Atom → Bool
  | .leaf _ => false
  | .group false body => body.leads
  | .group true _ => false

def Sequence.leads : Sequence → Bool
  | .nil => false
  | .cons a q rest => quantLeads a.leads q || quantHollow a.leads a.hollow q && rest.leads

def Alternation.leads : Alternation → Bool
  | .last branch => branch.leads
  | .more _ _ => true

def Atom.hollow : Atom → Bool
  | .leaf _ => false
  | .group false body => body.hollow
  | .group true _ => false

def Sequence.hollow : Sequence → Bool
  | .nil => true
  | .cons a q rest => quantHollow a.leads a.hollow q && rest.hollow

def Alternation.hollow : Alternation → Bool
  | .last branch => branch.hollow
  | .more _ _ => false

end

mutual

def Atom.exits : Atom → Bool
  | .leaf _ => false
  | .group false body => body.exits
  | .group true _ => false

def Sequence.exits : Sequence → Bool
  | .nil => false
  | .cons a q rest => quantExits a.exits q && rest.hollow || rest.exits

def Alternation.exits : Alternation → Bool
  | .last branch => branch.exits
  | .more _ _ => true

end

/-! ## Lengths -/

section Quantified

variable {S : List ReInst} {ℓ : ℕ}

theorem length_copiesCode (n : ℕ) {stop : ℕ} (hs : stop ≤ S.length) :
    (copiesCode n S 0 stop).length = S.length + n * stop := by
  induction n generalizing S with
  | zero => simp [copiesCode]
  | succ n ih =>
    have hlen : (copyCode S 0 stop).length = S.length + stop := by
      rw [copyCode, List.length_append, length_window hs]
      omega
    rw [copiesCode, ih (by omega), hlen, Nat.succ_mul]
    omega

theorem lt_length_optCopiesCode {n : ℕ} (hn : 0 < n) (S : List ReInst) (start stop : ℕ) :
    S.length < (optCopiesCode n S start stop).length := by
  obtain ⟨n, rfl⟩ : ∃ k, n = k + 1 := ⟨n - 1, by omega⟩
  exact lt_of_lt_of_le (by simp [optCopyCode]) (le_length_optCopiesCode n _ _ _)

theorem quantLeads_iff {leads : Bool} (h : leads = true ↔ 0 < ℓ) (q : Quantifier) :
    quantLeads leads q = true ↔ 0 < quantLead ℓ q := by
  match q with
  | .one | .plus | .interval (_ + 1) _ => exact h
  | .star | .question | .interval 0 _ => simp [quantLeads, quantLead]

theorem quantHollow_iff {leads hollow : Bool} (hle : ℓ ≤ S.length) (hl : leads = true ↔ 0 < ℓ)
    (hh : hollow = true ↔ ℓ = S.length) (q : Quantifier) :
    quantHollow leads hollow q = true ↔ quantLead ℓ q = (quantCode S q).length := by
  have hopt : (optCode S).length = S.length + 1 := by simp [optCode]
  match q with
  | .one => exact hh
  | .question => simp [quantHollow, quantLead, quantCode, hopt, hh]
  | .star | .interval 0 none =>
    simp [quantHollow, quantLead, quantCode, starCode, hopt]
    omega
  | .plus =>
    simp [quantHollow, quantLead, quantCode]
    omega
  | .interval (min + 1) none =>
    have := le_length_copiesCode min S 0 S.length
    simp [quantHollow, quantLead, quantCode, openCode, optCopyCode]
    omega
  | .interval 0 (some max) =>
    simp only [quantHollow, quantLead, quantCode, Bool.and_eq_true, hh, decide_eq_true_eq]
    by_cases hmax : max ≤ 1
    · rw [show max - 1 = 0 by omega, optCopiesCode, hopt]
      omega
    · have := lt_length_optCopiesCode (n := max - 1) (by omega) (optCode S) 0 S.length
      omega
  | .interval (min + 1) (some max) =>
    simp only [quantHollow, quantLead, quantCode, Bool.and_eq_true, hh, decide_eq_true_eq,
      Bool.or_eq_true, Bool.not_eq_true', ← Bool.not_eq_true, hl]
    have hlen := length_copiesCode min (le_refl S.length)
    by_cases hmax : max ≤ min + 1
    · rw [show max - (min + 1) = 0 by omega, optCopiesCode, hlen]
      rcases Nat.eq_zero_or_pos min with rfl | hmin
      · simp
        omega
      · have hmul : S.length ≤ min * S.length := Nat.le_mul_of_pos_left _ hmin
        constructor
        · rintro ⟨⟨hS, -⟩, h0⟩
          have : S.length = 0 := by omega
          simp [hS, this]
        · intro h
          omega
    · have := lt_length_optCopiesCode (n := max - (min + 1)) (by omega)
        (copiesCode min S 0 S.length) 0 S.length
      omega

/-! ## Exits of quantified code -/

theorem not_hasExit_of_lt (h : ∀ i ∈ S, ∀ t ∈ i.targets, t < S.length) : ¬ HasExit S := by
  rintro ⟨i, hi, ht⟩
  exact lt_irrefl _ (h i hi _ ht)

theorem hasExit_optCode (S : List ReInst) : HasExit (optCode S) :=
  ⟨split 1 (S.length + 1), by simp [optCode], by simp [optCode]⟩

theorem hasExit_optCopyCode {stop : ℕ} (hs : stop ≤ S.length) : HasExit (optCopyCode S 0 stop) := by
  refine ⟨split (S.length + 1) (S.length + 1 + stop), by simp [optCopyCode], ?_⟩
  rw [optCopyCode, List.length_append, List.length_cons, length_window hs]
  simp
  omega

theorem hasExit_optCopiesCode {n stop : ℕ} (hn : 0 < n) (hs : stop ≤ S.length) :
    HasExit (optCopiesCode n S 0 stop) := by
  obtain ⟨n, rfl⟩ : ∃ k, n = k + 1 := ⟨n - 1, by omega⟩
  induction n generalizing S with
  | zero => exact hasExit_optCopyCode hs
  | succ n ih => exact ih (S := optCopyCode S 0 stop) (hs.trans (by simp [optCopyCode])) (by omega)

/-- The exits of code that ends in a copy of its beginning are those of the copy. -/
theorem hasExit_copyCode {T : List ReInst} (hS : Enclosed S) (hT : Enclosed T) (hpre : S <+: T)
    (h0 : 0 < S.length) : HasExit (copyCode T 0 S.length) ↔ HasExit S := by
  have hw : window T 0 S.length (T.length - (0 : ℕ)) =
      S.map (ReInst.mapTargets (moveIn (0 : ℕ) S.length (T.length - (0 : ℕ)))) := by
    rw [window, List.drop_zero, Nat.sub_zero, ← List.prefix_iff_eq_take.mp hpre]
  have hlen : (copyCode T 0 S.length).length = T.length + S.length := by
    rw [copyCode, List.length_append, length_window hpre.length_le, Nat.sub_zero]
  unfold HasExit
  rw [hlen]
  constructor
  · rintro ⟨i, hi, ht⟩
    rw [copyCode, hw] at hi
    rcases List.mem_append.mp hi with hi | hi
    · have := hT i hi _ ht
      push_cast at this
      omega
    · obtain ⟨j, hj, rfl⟩ := List.mem_map.mp hi
      rw [ReInst.targets_mapTargets] at ht
      obtain ⟨u, hu, he⟩ := List.mem_map.mp ht
      have := hS j hj u hu
      have hu' : u = S.length := by
        unfold moveIn at he
        split_ifs at he <;> push_cast at * <;> omega
      exact ⟨j, hj, hu' ▸ hu⟩
  · rintro ⟨j, hj, ht⟩
    refine ⟨j.mapTargets (moveIn (0 : ℕ) S.length (T.length - (0 : ℕ))), ?_, ?_⟩
    · rw [copyCode, hw]
      exact List.mem_append_right _ (List.mem_map_of_mem hj)
    · rw [ReInst.targets_mapTargets]
      refine List.mem_map.mpr ⟨_, ht, ?_⟩
      unfold moveIn
      split_ifs <;> push_cast at * <;> omega

theorem hasExit_copiesCode (hS : Enclosed S) (n : ℕ) {T : List ReInst} (hT : Enclosed T)
    (hpre : S <+: T) (h : HasExit T ↔ HasExit S) :
    HasExit (copiesCode n T 0 S.length) ↔ HasExit S := by
  induction n generalizing T with
  | zero => exact h
  | succ n ih =>
    have hpre' : S <+: copyCode T 0 S.length := hpre.trans (List.prefix_append _ _)
    refine ih (enclosed_copyCode hT (Nat.zero_le _) hpre.length_le) hpre' ?_
    rcases Nat.eq_zero_or_pos S.length with h0 | h0
    · rw [h0, copyCode, window]
      simpa using h
    · exact hasExit_copyCode hS hT hpre h0

theorem quantExits_iff {exits : Bool} (hS : Enclosed S) (h : exits = true ↔ HasExit S)
    (q : Quantifier) : quantExits exits q = true ↔ HasExit (quantCode S q) := by
  have hcopies : ∀ n, Enclosed (copiesCode n S 0 S.length) :=
    fun n => enclosed_copiesCode hS n (Nat.zero_le _) le_rfl
  match q with
  | .one => exact h
  | .question => simp [quantExits, quantCode, hasExit_optCode]
  | .star | .interval 0 none =>
    have hno : ¬ HasExit (starCode S) := by
      refine not_hasExit_of_lt fun i hi t ht => ?_
      have hlen : (starCode S).length = (optCode S).length + 1 := by simp [starCode]
      rcases List.mem_append.mp hi with hi | hi
      · have := enclosed_optCode hS i hi t ht
        omega
      · obtain rfl := List.mem_singleton.mp hi
        obtain rfl : t = 0 := by simpa using ht
        omega
    simpa [quantExits, quantCode] using hno
  | .plus =>
    simp only [quantExits, true_iff]
    exact ⟨split 0 (S.length + 1), by simp [quantCode], by simp [quantCode]⟩
  | .interval (min + 1) none =>
    have hno : ¬ HasExit (openCode (copiesCode min S 0 S.length) 0 S.length) := by
      refine not_hasExit_of_lt fun i hi t ht => ?_
      rw [openCode, List.length_append, List.length_singleton]
      rcases List.mem_append.mp hi with hi | hi
      · have := enclosed_optCopyCode (hcopies min) (Nat.zero_le _)
          (le_length_copiesCode min S 0 S.length) i hi t ht
        push_cast
        omega
      · obtain rfl := List.mem_singleton.mp hi
        obtain rfl : t = _ := by simpa using ht
        simp [optCopyCode]
        omega
    simpa [quantExits, quantCode] using hno
  | .interval 0 (some max) =>
    simp only [quantExits, quantCode, true_iff]
    rcases Nat.eq_zero_or_pos (max - 1) with h0 | h0
    · rw [h0]
      exact hasExit_optCode S
    · exact hasExit_optCopiesCode h0 (by simp [optCode])
  | .interval (min + 1) (some max) =>
    simp only [quantExits, quantCode, Bool.or_eq_true, decide_eq_true_eq, h]
    rcases Nat.eq_zero_or_pos (max - (min + 1)) with h0 | h0
    · rw [h0, optCopiesCode, hasExit_copiesCode hS min hS (List.prefix_refl S) Iff.rfl]
      exact or_iff_right (by omega)
    · exact iff_of_true (.inl (by omega))
        (hasExit_optCopiesCode h0 (le_length_copiesCode min S 0 S.length))

/-- The exits of joined code: those of the second part, and displaced ones of the first. -/
theorem hasExit_join {T : List ReInst} {m : ℕ} (hS : Enclosed S) :
    HasExit (join S m T) ↔ (HasExit S ∧ m = T.length) ∨ HasExit T := by
  unfold HasExit
  rw [length_join]
  constructor
  · rintro ⟨i, hi, ht⟩
    rcases List.mem_append.mp hi with hi | hi
    · obtain ⟨j, hj, rfl⟩ := List.mem_map.mp hi
      rw [ReInst.targets_mapTargets] at ht
      obtain ⟨u, hu, he⟩ := List.mem_map.mp ht
      have := hS j hj u hu
      unfold bumpAt at he
      by_cases hu' : u = S.length
      · refine .inl ⟨⟨j, hj, hu' ▸ hu⟩, ?_⟩
        split_ifs at he <;> push_cast at * <;> omega
      · -- a target that stays inside the first part is not the end of both
        split_ifs at he <;> push_cast at * <;> omega
    · obtain ⟨j, hj, u, hu, he⟩ := mem_targets_reloc hi ht
      have hu' : u = T.length := by
        push_cast at he
        omega
      exact .inr ⟨j, hj, hu' ▸ hu⟩
  · rintro (⟨⟨j, hj, ht⟩, rfl⟩ | ⟨j, hj, ht⟩)
    · refine ⟨_, List.mem_append_left _ (List.mem_map_of_mem hj), ?_⟩
      rw [ReInst.targets_mapTargets]
      exact List.mem_map.mpr ⟨_, ht, by simp [bumpAt]⟩
    · refine ⟨_, List.mem_append_right _ (List.mem_map_of_mem hj), ?_⟩
      rw [ReInst.targets_mapTargets]
      refine List.mem_map.mpr ⟨_, ht, ?_⟩
      push_cast
      omega

end Quantified

/-! ## The predicates on trees -/

mutual

theorem Atom.leads_iff : (a : Atom) → (a.leads = true ↔ 0 < a.lead)
  | .leaf l => by simp [Atom.leads, Atom.lead]
  | .group false body => by simpa [Atom.leads, Atom.lead] using body.leads_iff
  | .group true body => by simp [Atom.leads, Atom.lead]

theorem Sequence.leads_iff : (b : Sequence) → (b.leads = true ↔ 0 < b.lead)
  | .nil => by simp [Sequence.leads, Sequence.lead]
  | .cons a q rest => by
    have hq := quantLeads_iff a.leads_iff q
    have hh := quantHollow_iff a.lead_le a.leads_iff a.hollow_iff q
    have hr := rest.leads_iff
    rw [Sequence.leads, Sequence.lead, Bool.or_eq_true, Bool.and_eq_true, hq, hh, hr]
    split_ifs with h
    · omega
    · tauto

theorem Alternation.leads_iff : (a : Alternation) → (a.leads = true ↔ 0 < a.lead)
  | .last branch => by simpa [Alternation.leads, Alternation.lead] using branch.leads_iff
  | .more branch rest => by simp [Alternation.leads, Alternation.lead]

theorem Atom.hollow_iff : (a : Atom) → (a.hollow = true ↔ a.lead = a.code.length)
  | .leaf l => by simp [Atom.hollow, Atom.lead, Atom.code]
  | .group false body => by simpa [Atom.hollow, Atom.lead, Atom.code] using body.hollow_iff
  | .group true body => by simp [Atom.hollow, Atom.lead, Atom.code]

theorem Sequence.hollow_iff : (b : Sequence) → (b.hollow = true ↔ b.lead = b.code.length)
  | .nil => by simp [Sequence.hollow, Sequence.lead, Sequence.code]
  | .cons a q rest => by
    have hle := quantLead_le a.lead_le q
    have hh := quantHollow_iff a.lead_le a.leads_iff a.hollow_iff q
    have hr := rest.hollow_iff
    rw [Sequence.hollow, Sequence.lead, Sequence.code, length_join, Bool.and_eq_true, hh, hr]
    split_ifs with h <;> omega

theorem Alternation.hollow_iff : (a : Alternation) → (a.hollow = true ↔ a.lead = a.code.length)
  | .last branch => by
    simpa [Alternation.hollow, Alternation.lead, Alternation.code] using branch.hollow_iff
  | .more branch rest => by
    have := branch.lead_le
    simp only [Alternation.hollow, Alternation.lead, Alternation.code, units, length_unitsFrom,
      unitsLength, Bool.false_eq_true, false_iff]
    omega

end

mutual

theorem Atom.exits_iff : (a : Atom) → (a.exits = true ↔ HasExit a.code)
  | .leaf l => by simp [Atom.exits, Atom.code, HasExit]
  | .group false body => by simpa [Atom.exits, Atom.code] using body.exits_iff
  | .group true body => by
    have hno : ¬ HasExit (Atom.group true body).code := by
      rw [Atom.code]
      exact not_hasExit_of_lt fun i hi t ht => (targets_group body.enclosed i hi t ht).2
    simpa [Atom.exits] using hno

theorem Sequence.exits_iff : (b : Sequence) → (b.exits = true ↔ HasExit b.code)
  | .nil => by simp [Sequence.exits, Sequence.code, HasExit]
  | .cons a q rest => by
    have hq := quantExits_iff a.enclosed a.exits_iff q
    rw [Sequence.exits, Sequence.code, Bool.or_eq_true, Bool.and_eq_true, hq, rest.hollow_iff,
      rest.exits_iff, hasExit_join (enclosed_quantCode a.enclosed q)]

theorem Alternation.exits_iff : (a : Alternation) → (a.exits = true ↔ HasExit a.code)
  | .last branch => by simpa [Alternation.exits, Alternation.code] using branch.exits_iff
  | .more branch rest => by
    simp only [Alternation.exits, true_iff, Alternation.code]
    refine ⟨jmp (unitsLength (branch.code :: rest.codes)), ?_, ?_⟩
    · simp [units, unitsFrom]
    · simp [units]

end

end LampUserspace.Regex
