import LampUserspace.Regex.Intervals
import LampUserspace.Regex.Nesting

/-! # The ranges a pattern matches

The meaning of a tree as a relation between positions of the text, for a given
reading of quantifiers and alternations: the one that the compiled code gives
them, and the usual one. The two agree on the patterns without an unbounded
repetition, if every alternation has a branch that matches nothing.
-/

namespace LampUserspace.Regex

variable {s : Subject} {S T : List ReInst} {i j : ℕ}

/-- What the quantifiers and the alternations of a pattern stand for. -/
structure Reading where
  /-- The ranges of a quantified atom, from those of the atom. -/
  quantified : Atom → Quantifier → (ℕ → ℕ → Prop) → ℕ → ℕ → Prop
  /-- An alternation may also be passed over. -/
  skips : Prop

section Trees

variable (ρ : Reading) (s : Subject)

mutual

def Atom.Matches : Atom → ℕ → ℕ → Prop
  | .leaf l, i, j => l.step s i = some j
  | .group _ body, i, j => body.Matches i j

def Sequence.Matches : Sequence → ℕ → ℕ → Prop
  | .nil, i, j => i = j
  | .cons a q rest, i, j => ∃ m, ρ.quantified a q (Atom.Matches a) i m ∧ rest.Matches m j

def Alternation.Matches : Alternation → ℕ → ℕ → Prop
  | .last branch, i, j => branch.Matches i j
  | .more branch rest, i, j => (ρ.skips ∧ i = j) ∨ branch.Matches i j ∨ rest.BranchMatches i j

def Alternation.BranchMatches : Alternation → ℕ → ℕ → Prop
  | .last branch, i, j => branch.Matches i j
  | .more branch rest, i, j => branch.Matches i j ∨ rest.BranchMatches i j

end

end Trees

/-- The usual reading: as many of the atom as the quantifier says, and one of the branches. -/
def Reading.usual : Reading where
  quantified _ q R i j := ∃ n, q.min ≤ n ∧ (∀ m ∈ q.max, n ≤ m) ∧ ChainOf R n i j
  skips := False

/--
What the compiler makes of them: an unbounded repetition has no way out, an alternation can be
passed over, and the copies of `{0,n}` lack the last instruction of the atom, which leaves nothing
of a single instruction and lets the copies of a group start over from the third on.
-/
def Reading.compiled : Reading where
  quantified a q R i j :=
    match q with
    | .one => R i j
    | .plus => ∃ n ≥ 1, ChainOf R n i j
    | .question => i = j ∨ R i j
    | .star | .interval _ none => False
    | .interval 0 (some max) =>
      match a with
      | .leaf _ => i = j ∨ R i j
      | .group _ _ => if max ≤ 2 then ∃ n ≤ Nat.max 1 max, ChainOf R n i j
        else Relation.ReflTransGen R i j
    | .interval (min + 1) (some max) => ∃ k ≤ max - (min + 1), ChainOf R (min + 1 + k) i j
  skips := True

/-! ## Patterns that are compiled in parts -/

/-- What `{0,n}` leaves of the atom is known: it is one instruction, or ends in a `RE_SAVE`. -/
def quantTame (a : Atom) : Quantifier → Bool
  | .interval 0 (some max) =>
    match a with
    | .group false _ => max ≤ 1
    | _ => true
  | _ => true

mutual

/-- No piece with an exit stands before code that begins with inserted splits, at any depth. -/
def Atom.tame : Atom → Bool
  | .leaf _ => true
  | .group _ body => body.tame

def Sequence.tame : Sequence → Bool
  | .nil => true
  | .cons a q rest =>
    a.tame && quantTame a q && !(quantExits a.exits q && rest.leads) && rest.tame

def Alternation.tame : Alternation → Bool
  | .last branch => branch.tame
  | .more branch rest => branch.tame && rest.tame

end

/-! ## Single instructions and groups -/

theorem codeSpans_nil : CodeSpans [] s i j ↔ i = j :=
  ⟨fun h => spans_end (Q := []) h, fun h => h ▸ .refl⟩

theorem Leaf.step_mem_next {l : Leaf} {c : Conf} (h : l.step s c.pos = some j) :
    ⟨c.pc + 1, j⟩ ∈ l.inst.next s c := by
  unfold Leaf.step at h
  cases l with
  | char | any | bracket =>
    split_ifs at h with hc ha
    · cases h
      exact List.mem_ite_nil_right.mpr ⟨hc, List.mem_singleton.mpr rfl⟩
    · cases ha
  | bol | eol | wordb | notWordb =>
    split_ifs at h with hc ha
    · cases hc
    · cases h
      exact List.mem_ite_nil_right.mpr ⟨ha, List.mem_singleton.mpr rfl⟩

theorem Leaf.codeSpans_iff (l : Leaf) : CodeSpans [l.inst] s i j ↔ l.step s i = some j := by
  have hnext : Regex.next [l.inst] s ⟨(0 : ℕ), i⟩ = l.inst.next s ⟨(0 : ℕ), i⟩ :=
    next_of_fetch (fetch_eq_some.mpr ⟨le_rfl, rfl⟩)
  rw [CodeSpans, List.length_singleton, spans_head (by omega), hnext]
  constructor
  · rintro ⟨d, hd, hr⟩
    obtain ⟨mid, hmid, rfl⟩ := Leaf.mem_next hd
    exact spans_end (Q := [l.inst]) hr ▸ hmid
  · exact fun hm => ⟨⟨1, j⟩, Leaf.step_mem_next hm, .refl⟩

theorem codeSpans_save : CodeSpans [save] s i j ↔ i = j := by
  have hnext : Regex.next [save] s ⟨(0 : ℕ), i⟩ = [⟨(1 : ℕ), i⟩] := rfl
  rw [CodeSpans, List.length_singleton, spans_head (by omega), hnext]
  simp only [List.mem_singleton, exists_eq_left]
  exact ⟨fun h => spans_end (Q := [save]) h, fun h => h ▸ .refl⟩

theorem enclosed_save : Enclosed [save] := by
  rintro i hi t ht
  obtain rfl := List.mem_singleton.mp hi
  simp at ht

theorem codeSpans_open (hS : Enclosed S) :
    CodeSpans (save :: reloc 1 S) s i j ↔ CodeSpans S s i j := by
  have h := codeSpans_append (s := s) (i := i) (j := j) enclosed_save hS
  simp only [codeSpans_save, exists_eq_left'] at h
  exact h

theorem enclosed_open (hS : Enclosed S) : Enclosed (save :: reloc 1 S) := by
  intro i hi t ht
  rcases List.mem_cons.mp hi with rfl | hi
  · simp at ht
  · have := hS.reloc hi ht
    simp only [List.length_cons, length_reloc]
    push_cast at *
    omega

theorem codeSpans_group (hS : Enclosed S) :
    CodeSpans (save :: reloc 1 S ++ [save]) s i j ↔ CodeSpans S s i j := by
  have h := codeSpans_append (s := s) (i := i) (j := j) (enclosed_open hS) enclosed_save
  simp only [codeSpans_save, codeSpans_open hS, exists_eq_right] at h
  exact h

/-! ## Copies of what is left of an atom -/

theorem Enclosed.not_spans_past (hS : Enclosed S) {k : ℕ} (hk : S.length < k) :
    ¬ Spans S s 0 k i j := by
  intro h
  have hinv := h.invariant (I := fun c : Conf => c.pc ≤ S.length) (by simp)
    fun c _ d hd => (hS.next hd).2
  simp only at hinv
  omega

/-- The copies of `{0,n}`, when what is left of the atom is enclosed too. -/
theorem codeSpans_zero (hS : Enclosed S) (hcut : Enclosed S.dropLast) (h0 : 0 < S.length)
    (max : ℕ) : CodeSpans (quantCode S (.interval 0 (some max))) s i j ↔
      ∃ p, (i = p ∨ CodeSpans S s i p) ∧
        if max ≤ 1 then p = j
        else if max = 2 then p = j ∨ CodeSpans S.dropLast s p j
        else Relation.ReflTransGen (CodeSpans S.dropLast s) p j := by
  have hlen : S.dropLast.length = S.length - 1 := List.length_dropLast
  have hwhole : ∀ p q, ¬ Spans S.dropLast s 0 S.length p q := fun p q =>
    hcut.not_spans_past (by omega)
  have hrest : Spans S.dropLast s 0 (S.length - 1) = CodeSpans S.dropLast s := by
    rw [← hlen]
    rfl
  rw [quantCode]
  by_cases hmax : max ≤ 1
  · simp only [show max - 1 = 0 by omega, optCopiesCode, codeSpans_optCode hS, hmax, if_true]
    constructor
    · exact fun h => ⟨j, h, rfl⟩
    · rintro ⟨p, h, rfl⟩
      exact h
  simp only [if_neg hmax]
  rw [(cutCode_optCopiesCode hS h0 (max - 1)).spans_iff hS h0, CutVisits, hrest]
  by_cases htwo : max = 2
  · subst htwo
    have hstay : ∀ {p q : ℕ}, Relation.ReflTransGen (Spans S.dropLast s 0 S.length) p q → p = q :=
      fun h => eq_of_reflTransGen (fun p q hpq => absurd hpq (hwhole p q)) h
    simp only [if_true]
    refine visits_one.trans ⟨?_, ?_⟩
    · rintro ⟨p, q, hp, hr, hj⟩
      exact ⟨p, hp, hstay hr ▸ hj⟩
    · rintro ⟨p, hp, hj⟩
      exact ⟨p, p, hp, .refl, hj⟩
  · have hor : (fun q r => Spans S.dropLast s 0 S.length q r ∨ CodeSpans S.dropLast s q r) =
        CodeSpans S.dropLast s :=
      funext₂ fun q r => propext (or_iff_right (hwhole q r))
    simp only [if_neg htwo]
    rw [visits_many (by omega), hor]

theorem Leaf.codeSpans_zero (l : Leaf) (max : ℕ) :
    CodeSpans (quantCode [l.inst] (.interval 0 (some max))) s i j ↔
      i = j ∨ CodeSpans [l.inst] s i j := by
  have hS : Enclosed [l.inst] := by
    have h := (Atom.leaf l).enclosed
    rwa [Atom.code] at h
  rw [Regex.codeSpans_zero hS enclosed_nil Nat.zero_lt_one]
  simp only [List.dropLast_singleton]
  constructor
  · rintro ⟨p, hp, hj⟩
    have hpj : p = j := by
      split_ifs at hj
      · exact hj
      · exact hj.elim id codeSpans_nil.mp
      · exact eq_of_reflTransGen (fun _ _ => codeSpans_nil.mp) hj
    exact hpj ▸ hp
  · intro h
    refine ⟨j, h, ?_⟩
    split_ifs
    · rfl
    · exact .inl rfl
    · exact .refl

theorem codeSpans_zero_group (hS : Enclosed S) (max : ℕ) :
    CodeSpans (quantCode (save :: reloc 1 S ++ [save]) (.interval 0 (some max))) s i j ↔
      if max ≤ 2 then ∃ n ≤ Nat.max 1 max, ChainOf (CodeSpans S s) n i j
      else Relation.ReflTransGen (CodeSpans S s) i j := by
  have hG : Enclosed (save :: reloc 1 S ++ [save]) := fun i hi t ht => by
    have := targets_group hS i hi t ht
    omega
  have hdrop : (save :: reloc 1 S ++ [save]).dropLast = save :: reloc 1 S :=
    List.dropLast_concat
  have hopen : CodeSpans (save :: reloc 1 S) s = CodeSpans S s :=
    funext₂ fun _ _ => propext (codeSpans_open hS)
  have hcut : Enclosed (save :: reloc 1 S ++ [save]).dropLast := by
    rw [hdrop]
    exact enclosed_open hS
  rw [codeSpans_zero hG hcut (by simp), hdrop, hopen]
  simp only [codeSpans_group hS]
  by_cases hone : max ≤ 1
  · rw [if_pos (by omega), show Nat.max 1 max = 1 from max_eq_left hone, chainOf_le_one]
    simp [hone]
  by_cases htwo : max = 2
  · subst htwo
    simp only [le_refl, if_true, if_neg hone]
    constructor
    · rintro ⟨p, rfl | hp, rfl | hj⟩
      · exact ⟨0, by omega, rfl⟩
      · exact ⟨1, by decide, chainOf_one.mpr hj⟩
      · exact ⟨1, by decide, chainOf_one.mpr hp⟩
      · exact ⟨2, by decide, p, hp, chainOf_one.mpr hj⟩
    · rintro ⟨n, hn, h⟩
      have hn : n ≤ 2 := hn
      interval_cases n
      · exact ⟨i, .inl rfl, .inl h⟩
      · exact ⟨j, .inr (chainOf_one.mp h), .inl rfl⟩
      · obtain ⟨p, hp, h⟩ := h
        exact ⟨p, .inr hp, .inr (chainOf_one.mp h)⟩
  · simp only [if_neg hone, if_neg htwo, if_neg (show ¬ max ≤ 2 by omega)]
    constructor
    · rintro ⟨p, rfl | hp, hj⟩
      · exact hj
      · exact .head hp hj
    · exact fun h => ⟨i, .inl rfl, h⟩

/-! ## The code of a tree -/

theorem codeSpans_interval (hS : Enclosed S) (min max : ℕ) :
    CodeSpans (quantCode S (.interval (min + 1) (some max))) s i j ↔
      ∃ k ≤ max - (min + 1), ChainOf (CodeSpans S s) (min + 1 + k) i j := by
  rw [quantCode, codeSpans_optCopiesCode hS _
    (enclosed_copiesCode hS min (Nat.zero_le _) le_rfl) (prefix_copiesCode min S 0 S.length)]
  simp only [codeSpans_copiesCode hS min hS List.prefix_rfl, chainOf_add (min + 1)]
  constructor
  · rintro ⟨m, hm, k, hk, hj⟩
    exact ⟨k, hk, m, hm, hj⟩
  · rintro ⟨k, hk, m, hm, hj⟩
    exact ⟨m, hm, k, hk, hj⟩

/-- The code of a quantified atom spans what its compiled reading says. -/
theorem codeSpans_quantCode (a : Atom) (q : Quantifier) (hq : quantTame a q = true) :
    CodeSpans (quantCode a.code q) s i j ↔
      Reading.compiled.quantified a q (CodeSpans a.code s) i j := by
  match q with
  | .one => exact Iff.rfl
  | .plus => exact codeSpans_plus a.enclosed
  | .question => exact codeSpans_optCode a.enclosed
  | .star => exact iff_of_false (quantCode_open_endless a.enclosed 0).not_codeSpans id
  | .interval min none =>
    exact iff_of_false (quantCode_open_endless a.enclosed min).not_codeSpans (by
      cases min <;> exact id)
  | .interval (min + 1) (some max) => exact codeSpans_interval a.enclosed min max
  | .interval 0 (some max) =>
    match a with
    | .leaf l =>
      rw [Atom.code]
      exact l.codeSpans_zero max
    | .group true body =>
      have hbody : CodeSpans (Atom.group true body).code s = CodeSpans body.code s :=
        funext₂ fun _ _ => propext (by rw [Atom.code, codeSpans_group body.enclosed])
      have h := codeSpans_zero_group (s := s) (i := i) (j := j) body.enclosed max
      rw [← hbody] at h
      rwa [Atom.code]
    | .group false body =>
      have hmax : max ≤ 1 := by simpa [quantTame] using hq
      have henclosed := (Atom.group false body).enclosed
      simp only [Reading.compiled, quantCode, show max - 1 = 0 by omega, optCopiesCode,
        codeSpans_optCode henclosed, if_pos (show max ≤ 2 by omega)]
      rw [show Nat.max 1 max = 1 from max_eq_left hmax, chainOf_le_one]

/-- Two readings of the parts of an atom that agree give the same ranges. -/
theorem Reading.quantified_congr (ρ : Reading) {a : Atom} {q : Quantifier} {R R' : ℕ → ℕ → Prop}
    (h : ∀ i j, R i j ↔ R' i j) : ρ.quantified a q R i j ↔ ρ.quantified a q R' i j := by
  rw [funext₂ fun i j => propext (h i j)]

mutual

theorem Atom.codeSpans_iff (s : Subject) : (a : Atom) → a.tame = true → (i j : ℕ) →
    (CodeSpans a.code s i j ↔ a.Matches .compiled s i j)
  | .leaf l, _, i, j => by
    rw [Atom.code, Atom.Matches]
    exact l.codeSpans_iff
  | .group false body, h, i, j => by
    rw [Atom.code, Atom.Matches]
    exact body.codeSpans_iff s (by simpa [Atom.tame] using h) i j
  | .group true body, h, i, j => by
    rw [Atom.code, Atom.Matches, codeSpans_group body.enclosed]
    exact body.codeSpans_iff s (by simpa [Atom.tame] using h) i j

theorem Sequence.codeSpans_iff (s : Subject) : (b : Sequence) → b.tame = true → (i j : ℕ) →
    (CodeSpans b.code s i j ↔ b.Matches .compiled s i j)
  | .nil, _, i, j => by
    rw [Sequence.code, Sequence.Matches]
    exact codeSpans_nil
  | .cons a q rest, h, i, j => by
    simp only [Sequence.tame, Bool.and_eq_true] at h
    obtain ⟨⟨⟨ha, hq⟩, hclear⟩, hrest⟩ := h
    have henclosed := enclosed_quantCode a.enclosed q
    have hexit : HasExit (quantCode a.code q) → rest.lead = 0 := by
      rw [← quantExits_iff a.enclosed a.exits_iff q]
      intro hexits
      have hleads : rest.leads = false := by simpa [hexits] using hclear
      by_contra hne
      exact Bool.false_ne_true (hleads.symm.trans (rest.leads_iff.mpr (by omega)))
    rw [Sequence.code, Sequence.Matches, join_eq_append_of henclosed hexit,
      codeSpans_append henclosed rest.enclosed]
    refine exists_congr fun m => and_congr ?_ (rest.codeSpans_iff s hrest m j)
    rw [codeSpans_quantCode a q hq]
    exact Reading.compiled.quantified_congr (a.codeSpans_iff s ha)

theorem Alternation.codeSpans_iff (s : Subject) : (a : Alternation) → a.tame = true → (i j : ℕ) →
    (CodeSpans a.code s i j ↔ a.Matches .compiled s i j)
  | .last branch, h, i, j => by
    rw [Alternation.code, Alternation.Matches]
    exact branch.codeSpans_iff s (by simpa [Alternation.tame] using h) i j
  | .more branch rest, h, i, j => by
    simp only [Alternation.tame, Bool.and_eq_true] at h
    have hcodes : ∀ S ∈ branch.code :: rest.codes, Enclosed S :=
      List.forall_mem_cons.mpr ⟨branch.enclosed, rest.enclosed_codes⟩
    rw [Alternation.code, codeSpans_units hcodes, Alternation.Matches]
    simp only [List.mem_cons, exists_eq_or_imp]
    refine or_congr (by simp [Reading.compiled]) (or_congr ?_ ?_)
    · exact branch.codeSpans_iff s h.1 i j
    · exact rest.branch_codeSpans_iff s h.2 i j

theorem Alternation.branch_codeSpans_iff (s : Subject) : (a : Alternation) → a.tame = true →
    (i j : ℕ) → ((∃ S ∈ a.codes, CodeSpans S s i j) ↔ a.BranchMatches .compiled s i j)
  | .last branch, h, i, j => by
    rw [Alternation.codes, Alternation.BranchMatches]
    simp only [List.mem_singleton, exists_eq_left]
    exact branch.codeSpans_iff s (by simpa [Alternation.tame] using h) i j
  | .more branch rest, h, i, j => by
    simp only [Alternation.tame, Bool.and_eq_true] at h
    rw [Alternation.codes, Alternation.BranchMatches]
    simp only [List.mem_cons, exists_eq_or_imp]
    exact or_congr (branch.codeSpans_iff s h.1 i j) (rest.branch_codeSpans_iff s h.2 i j)

end

/-! ## Patterns without a match -/

/-- The quantified atom has no range: it is repeated without a bound, or has none itself. -/
def quantDead (dead : Bool) : Quantifier → Bool
  | .star | .interval _ none => true
  | .one | .plus | .interval (_ + 1) (some _) => dead
  | .question | .interval 0 (some _) => false

mutual

/-- Every way through the tree passes an unbounded repetition. -/
def Atom.dead : Atom → Bool
  | .leaf _ => false
  | .group _ body => body.dead

def Sequence.dead : Sequence → Bool
  | .nil => false
  | .cons a q rest => quantDead a.dead q || rest.dead

def Alternation.dead : Alternation → Bool
  | .last branch => branch.dead
  | .more _ _ => false

end

theorem not_chainOf {R : ℕ → ℕ → Prop} (h : ∀ i j, ¬ R i j) {n : ℕ} (hn : 1 ≤ n) :
    ¬ ChainOf R n i j := by
  obtain ⟨n, rfl⟩ := Nat.exists_eq_add_of_le' hn
  rintro ⟨m, hm, -⟩
  exact h i m hm

theorem quantDead_not_quantified {R : ℕ → ℕ → Prop} {a : Atom} {q : Quantifier} {dead : Bool}
    (hR : dead = true → ∀ i j, ¬ R i j) (h : quantDead dead q = true) :
    ¬ Reading.compiled.quantified a q R i j := by
  match q with
  | .one => exact hR h i j
  | .plus => exact fun ⟨n, hn, hc⟩ => not_chainOf (hR h) hn hc
  | .star => exact id
  | .interval min none => cases min <;> exact id
  | .interval (min + 1) (some max) => exact fun ⟨k, _, hc⟩ => not_chainOf (hR h) (by omega) hc
  | .question | .interval 0 (some max) => simp [quantDead] at h

mutual

theorem Atom.dead_not_matches (s : Subject) : (a : Atom) → a.dead = true → (i j : ℕ) →
    ¬ a.Matches .compiled s i j
  | .leaf _, h, _, _ => by simp [Atom.dead] at h
  | .group _ body, h, i, j => by
    rw [Atom.Matches]
    exact body.dead_not_matches s (by simpa [Atom.dead] using h) i j

theorem Sequence.dead_not_matches (s : Subject) : (b : Sequence) → b.dead = true → (i j : ℕ) →
    ¬ b.Matches .compiled s i j
  | .nil, h, _, _ => by simp [Sequence.dead] at h
  | .cons a q rest, h, i, j => by
    rw [Sequence.Matches]
    rintro ⟨m, hm, hrest⟩
    rw [Sequence.dead, Bool.or_eq_true] at h
    rcases h with hq | hr
    · exact quantDead_not_quantified (a.dead_not_matches s) hq hm
    · exact rest.dead_not_matches s hr m j hrest

theorem Alternation.dead_not_matches (s : Subject) : (a : Alternation) → a.dead = true →
    (i j : ℕ) → ¬ a.Matches .compiled s i j
  | .last branch, h, i, j => by
    rw [Alternation.Matches]
    exact branch.dead_not_matches s (by simpa [Alternation.dead] using h) i j
  | .more _ _, h, _, _ => by simp [Alternation.dead] at h

end

/-! ## Patterns with the usual meaning -/

/-- The quantifier is compiled as it is usually read. -/
def quantUsual (a : Atom) : Quantifier → Bool
  | .one | .plus | .question => true
  | .star | .interval _ none => false
  | .interval 0 (some max) =>
    match a with
    | .leaf _ => max = 1
    | .group _ _ => max = 1 || max = 2
  | .interval (min + 1) (some max) => min + 1 ≤ max

mutual

/-- The tree matches the empty range wherever it stands. -/
def Atom.nullable : Atom → Bool
  | .leaf _ => false
  | .group _ body => body.nullable

def Sequence.nullable : Sequence → Bool
  | .nil => true
  | .cons a q rest =>
    (q.min == 0 || a.nullable && q.max.all (q.min ≤ ·)) && rest.nullable

def Alternation.nullable : Alternation → Bool
  | .last branch => branch.nullable
  | .more branch rest => branch.nullable || rest.nullable

end

mutual

/-- No unbounded repetition, no doubtful `{0,n}`, and a nullable branch in every alternation. -/
def Atom.usual : Atom → Bool
  | .leaf _ => true
  | .group _ body => body.usual

def Sequence.usual : Sequence → Bool
  | .nil => true
  | .cons a q rest => a.usual && quantUsual a q && rest.usual

def Alternation.usual : Alternation → Bool
  | .last branch => branch.usual
  | .more branch rest => branch.usual && rest.branchesUsual && (branch.nullable || rest.nullable)

def Alternation.branchesUsual : Alternation → Bool
  | .last branch => branch.usual
  | .more branch rest => branch.usual && rest.branchesUsual

end

theorem chainOf_self {R : ℕ → ℕ → Prop} (h : R i i) (n : ℕ) : ChainOf R n i i := by
  induction n with
  | zero => rfl
  | succ n ih => exact ⟨i, h, ih⟩

mutual

theorem Atom.nullable_matches (s : Subject) (i : ℕ) : (a : Atom) → a.nullable = true →
    a.Matches .usual s i i
  | .leaf _, h => by simp [Atom.nullable] at h
  | .group _ body, h => by
    rw [Atom.Matches]
    exact body.nullable_matches s i (by simpa [Atom.nullable] using h)

theorem Sequence.nullable_matches (s : Subject) (i : ℕ) : (b : Sequence) → b.nullable = true →
    b.Matches .usual s i i
  | .nil, _ => by rw [Sequence.Matches]
  | .cons a q rest, h => by
    simp only [Sequence.nullable, Bool.and_eq_true, Bool.or_eq_true, beq_iff_eq] at h
    obtain ⟨hq, hrest⟩ := h
    rw [Sequence.Matches]
    refine ⟨i, ?_, rest.nullable_matches s i hrest⟩
    rcases hq with hmin | ⟨ha, hle⟩
    · exact ⟨0, hmin.le, fun _ _ => Nat.zero_le _, rfl⟩
    · refine ⟨q.min, le_rfl, fun m hm => ?_, chainOf_self (a.nullable_matches s i ha) _⟩
      simpa [show q.max = some m from hm] using hle

theorem Alternation.nullable_matches (s : Subject) (i : ℕ) : (a : Alternation) →
    a.nullable = true → a.Matches .usual s i i
  | .last branch, h => by
    rw [Alternation.Matches]
    exact branch.nullable_matches s i (by simpa [Alternation.nullable] using h)
  | .more branch rest, h => by
    rw [Alternation.Matches]
    simp only [Alternation.nullable, Bool.or_eq_true] at h
    exact .inr (h.imp (branch.nullable_matches s i) (rest.nullable_branchMatches s i))

theorem Alternation.nullable_branchMatches (s : Subject) (i : ℕ) : (a : Alternation) →
    a.nullable = true → a.BranchMatches .usual s i i
  | .last branch, h => by
    rw [Alternation.BranchMatches]
    exact branch.nullable_matches s i (by simpa [Alternation.nullable] using h)
  | .more branch rest, h => by
    rw [Alternation.BranchMatches]
    simp only [Alternation.nullable, Bool.or_eq_true] at h
    exact h.imp (branch.nullable_matches s i) (rest.nullable_branchMatches s i)

end

theorem chainOf_bounded {R : ℕ → ℕ → Prop} (max : ℕ) :
    (∃ n ≥ 0, (∀ m ∈ some max, n ≤ m) ∧ ChainOf R n i j) ↔ ∃ n ≤ max, ChainOf R n i j := by
  simp

theorem quantified_usual {R : ℕ → ℕ → Prop} {a : Atom} {q : Quantifier}
    (h : quantUsual a q = true) :
    Reading.compiled.quantified a q R i j ↔ Reading.usual.quantified a q R i j := by
  match q with
  | .one =>
    show R i j ↔ ∃ n ≥ 1, (∀ m ∈ some 1, n ≤ m) ∧ ChainOf R n i j
    constructor
    · exact fun hR => ⟨1, le_rfl, by simp, chainOf_one.mpr hR⟩
    · rintro ⟨n, hmin, hmax, hn⟩
      exact chainOf_one.mp (le_antisymm (hmax 1 rfl) hmin ▸ hn)
  | .plus =>
    show (∃ n ≥ 1, ChainOf R n i j) ↔ ∃ n ≥ 1, (∀ m ∈ (none : Option ℕ), n ≤ m) ∧ ChainOf R n i j
    simp
  | .question =>
    show (i = j ∨ R i j) ↔ ∃ n ≥ 0, (∀ m ∈ some 1, n ≤ m) ∧ ChainOf R n i j
    rw [chainOf_bounded, chainOf_le_one]
  | .star => simp [quantUsual] at h
  | .interval min none => cases min <;> simp [quantUsual] at h
  | .interval (min + 1) (some max) =>
    have hle : min + 1 ≤ max := by simpa [quantUsual] using h
    show (∃ k ≤ max - (min + 1), ChainOf R (min + 1 + k) i j) ↔
      ∃ n ≥ min + 1, (∀ m ∈ some max, n ≤ m) ∧ ChainOf R n i j
    constructor
    · rintro ⟨k, hk, hn⟩
      exact ⟨min + 1 + k, by omega, by simpa using (by omega : min + 1 + k ≤ max), hn⟩
    · rintro ⟨n, hmin, hmax, hn⟩
      have := hmax max rfl
      exact ⟨n - (min + 1), by omega, by rwa [show min + 1 + (n - (min + 1)) = n by omega]⟩
  | .interval 0 (some max) =>
    match a with
    | .leaf l =>
      obtain rfl : max = 1 := by simpa [quantUsual] using h
      show (i = j ∨ R i j) ↔ ∃ n ≥ 0, (∀ m ∈ some 1, n ≤ m) ∧ ChainOf R n i j
      rw [chainOf_bounded, chainOf_le_one]
    | .group capture body =>
      have hmax : max = 1 ∨ max = 2 := by simpa [quantUsual] using h
      show (if max ≤ 2 then ∃ n ≤ Nat.max 1 max, ChainOf R n i j
        else Relation.ReflTransGen R i j) ↔ ∃ n ≥ 0, (∀ m ∈ some max, n ≤ m) ∧ ChainOf R n i j
      rw [chainOf_bounded, if_pos (by omega), show Nat.max 1 max = max from
        max_eq_right (by omega)]

mutual

theorem Atom.compiled_iff_usual (s : Subject) : (a : Atom) → a.usual = true → (i j : ℕ) →
    (a.Matches .compiled s i j ↔ a.Matches .usual s i j)
  | .leaf _, _, i, j => by rw [Atom.Matches, Atom.Matches]
  | .group _ body, h, i, j => by
    rw [Atom.Matches, Atom.Matches]
    exact body.compiled_iff_usual s (by simpa [Atom.usual] using h) i j

theorem Sequence.compiled_iff_usual (s : Subject) : (b : Sequence) → b.usual = true →
    (i j : ℕ) → (b.Matches .compiled s i j ↔ b.Matches .usual s i j)
  | .nil, _, i, j => by rw [Sequence.Matches, Sequence.Matches]
  | .cons a q rest, h, i, j => by
    simp only [Sequence.usual, Bool.and_eq_true] at h
    obtain ⟨⟨ha, hq⟩, hrest⟩ := h
    rw [Sequence.Matches, Sequence.Matches]
    refine exists_congr fun m => and_congr ?_ (rest.compiled_iff_usual s hrest m j)
    rw [quantified_usual hq]
    exact Reading.usual.quantified_congr (a.compiled_iff_usual s ha)

theorem Alternation.compiled_iff_usual (s : Subject) : (a : Alternation) → a.usual = true →
    (i j : ℕ) → (a.Matches .compiled s i j ↔ a.Matches .usual s i j)
  | .last branch, h, i, j => by
    rw [Alternation.Matches, Alternation.Matches]
    exact branch.compiled_iff_usual s (by simpa [Alternation.usual] using h) i j
  | .more branch rest, h, i, j => by
    simp only [Alternation.usual, Bool.and_eq_true] at h
    obtain ⟨⟨hbranch, hrest⟩, hnull⟩ := h
    rw [Alternation.Matches, Alternation.Matches, branch.compiled_iff_usual s hbranch,
      rest.branch_compiled_iff_usual s hrest]
    simp only [Reading.compiled, Reading.usual, true_and, false_and, false_or]
    -- the range that only the compiled code has is one of a nullable branch
    refine or_iff_right_of_imp ?_
    rintro rfl
    rcases Bool.or_eq_true_iff.mp hnull with hb | hr
    · exact .inl (branch.nullable_matches s i hb)
    · exact .inr (rest.nullable_branchMatches s i hr)

theorem Alternation.branch_compiled_iff_usual (s : Subject) : (a : Alternation) →
    a.branchesUsual = true → (i j : ℕ) →
    (a.BranchMatches .compiled s i j ↔ a.BranchMatches .usual s i j)
  | .last branch, h, i, j => by
    rw [Alternation.BranchMatches, Alternation.BranchMatches]
    exact branch.compiled_iff_usual s (by simpa [Alternation.branchesUsual] using h) i j
  | .more branch rest, h, i, j => by
    simp only [Alternation.branchesUsual, Bool.and_eq_true] at h
    rw [Alternation.BranchMatches, Alternation.BranchMatches]
    exact or_congr (branch.compiled_iff_usual s h.1 i j)
      (rest.branch_compiled_iff_usual s h.2 i j)

end

end LampUserspace.Regex
