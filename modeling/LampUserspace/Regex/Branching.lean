import LampUserspace.Regex.Composition

/-! # Loops and alternations

The code of `*` and of `{m,}` ends in a jump back and its split leads to that
jump, so that it has no way out and spans nothing. The last split of an
alternation leads past all of it, so that it can be skipped.
-/

namespace LampUserspace.Regex

variable {s : Subject} {depth k : ℕ} {inGroup : Bool} {c d e e' : ReCompiler}

/-! ## Loops -/

/-- `n` spans of `R` one after another. -/
def ChainOf (R : ℕ → ℕ → Prop) : ℕ → ℕ → ℕ → Prop
  | 0, i, j => i = j
  | n + 1, i, j => ∃ m, R i m ∧ ChainOf R n m j

/-- An atom that `re_compile_atom` accepts, compiled from `c` to `d`. -/
structure AtomAccepted (depth : ℕ) (inGroup : Bool) (c d : ReCompiler) : Prop where
  ready : Ready c
  ok : c.error = .ok
  enough : c.cursor.length ≤ depth + 1
  stops : reSequenceStops inGroup c = some false
  atom : ∃ r, reCompileAtom (reCompileAlternation depth true) c inGroup = some (some (r + 1), d)
  done : d.error = .ok

/--
The code from `start` on spans the chains of at least `min` spans of the atom: `d` is the
compiler after the atom, and `e` after its quantifier.
-/
def Repeats (start min : ℕ) (d e : ReCompiler) : Prop :=
  ∀ s i j, i ≤ j → (Spans e.program s start e.length i j ↔
    ∃ n ≥ min, ChainOf (Spans d.program s start d.length) n i j)

theorem AtomAccepted.compiled (h : AtomAccepted depth inGroup c d) :
    Past c.cursor d.cursor ∧ ∃ a, d.code = genAtom a c.code := by
  have hstop := h.stops
  rw [reSequenceStops_eq h.ok] at hstop
  obtain ⟨r, hr, hspec⟩ := reCompileAtom_compiled h.ready hstop fun e he hext hl =>
    nested_compiled c.extended e he hext (hl.trans_le h.enough)
  obtain ⟨k, hk⟩ := h.atom
  rw [hk] at hr
  obtain rfl := Option.some.inj hr
  obtain ⟨hne, -, a, -, ha⟩ := hspec.done h.done
  exact ⟨hspec.past hne, a, ha⟩

theorem quantCode_open_endless {S : List ReInst} (hS : Enclosed S) (min : ℕ) :
    Endless (quantCode S (.interval min none)) := by
  cases min with
  | zero => exact endless_starCode hS
  | succ min =>
    exact endless_openCode (enclosed_copiesCode hS min (Nat.zero_le _) le_rfl)
      (le_length_copiesCode min S 0 S.length)

theorem AtomAccepted.not_spans (h : AtomAccepted depth inGroup c d) {min : ℕ}
    (he : e.code = ⟨quantify d.program c.length (.interval min none), d.groups⟩) (s : Subject)
    (i j : ℕ) : ¬ Spans e.program s c.length e.length i j := by
  obtain ⟨-, a, ha⟩ := h.compiled
  have hcode : e.code = genPiece a (.interval min none) c.code := by
    obtain ⟨hp, hg⟩ := Code.mk.inj ha
    rw [he, hp, hg]
    rfl
  have hextends := extends_genPiece a (.interval min none) c.code
  rw [← hcode] at hextends
  intro hspans
  exact (quantCode_open_endless a.enclosed min).not_codeSpans
    ((hextends.spans_iff (enclosed_quantCode a.enclosed _)).mp hspans)

theorem reCompileQuantifier_star {p : List UInt8} {start : ℕ} {r : Option ℕ}
    (hp : p[0]? = some (byte '*'))
    (h : reCompileQuantifier { d with cursor := p } start = some (r, e)) (he : e.error = .ok) :
    e.code = ⟨quantify d.program start (.interval 0 none), d.groups⟩ := by
  have hread : reReadQuantifier d.extended p = some (some .star) := by
    simp [reReadQuantifier, hp]
  simp only [reCompileQuantifier, hread, Option.bind_eq_bind, Option.bind_some] at h
  have hgrows := reWrapStar_grows { d with cursor := p.drop 1 } start
  rw [Option.some.inj h] at hgrows
  exact (hgrows.done he).2

theorem reCompileQuantifier_open {p q : List UInt8} {start min : ℕ} {r : Option ℕ}
    (hp : reReadQuantifier d.extended p = some (some .interval))
    (hq : reParseInterval (p.drop (markLength d.extended)) = some (.ok (min, none, q)))
    (h : reCompileQuantifier { d with cursor := p } start = some (r, e)) (he : e.error = .ok) :
    e.code = ⟨quantify d.program start (.interval min none), d.groups⟩ := by
  rw [markLength] at hq
  simp only [reCompileQuantifier, hp, hq, Option.bind_eq_bind, Option.bind_some, Option.any_none,
    Bool.false_eq_true, if_false] at h
  have hgrows := reCompileInterval_grows { d with cursor := q } start min none
  rw [Option.some.inj h] at hgrows
  exact (hgrows.done he).2

/--
Whatever the atom, neither its star nor any open interval of it has a way out, so that the star
does not span the empty chain.
-/
theorem star_and_open_interval_endless {p q o : List UInt8} {min : ℕ} {r r' : Option ℕ}
    (hatom : AtomAccepted depth inGroup c d) (hp : p[0]? = some (byte '*'))
    (hstar : reCompileQuantifier { d with cursor := p } c.length = some (r, e))
    (he : e.error = .ok) (hq : reReadQuantifier d.extended q = some (some .interval))
    (ho : reParseInterval (q.drop (markLength d.extended)) = some (.ok (min, none, o)))
    (hopen : reCompileQuantifier { d with cursor := q } c.length = some (r', e'))
    (he' : e'.error = .ok) :
    ¬ (Repeats c.length 0 d e ∧ Repeats c.length min d e') ∧
    ∀ s i j, ¬ Spans e.program s c.length e.length i j ∧
      ¬ Spans e'.program s c.length e'.length i j := by
  have hstar := hatom.not_spans (reCompileQuantifier_star hp hstar he)
  have hopen := hatom.not_spans (reCompileQuantifier_open hq ho hopen he')
  refine ⟨fun h => ?_, fun s i j => ⟨hstar s i j, hopen s i j⟩⟩
  exact hstar ⟨⟨[], by simp⟩, 0, 0⟩ 0 0 ((h.1 _ 0 0 le_rfl).mpr ⟨0, le_rfl, rfl⟩)

def afterAtom (regex : CString) : ReCompiler :=
  match reCompileAtom (reCompileAlternation regex.strlen true) (passes regex 0) false with
  | none => passes regex 0
  | some (_, d) => d

def afterQuantifier (regex : CString) (p : List UInt8) : ReCompiler :=
  match reCompileQuantifier { afterAtom regex with cursor := p } (passes regex 0).length with
  | none => afterAtom regex
  | some (_, e) => e

theorem atomAccepted_starA : AtomAccepted 2 false (passes starA 0) (afterAtom starA) :=
  ⟨⟨InText.memory starA, fun _ => by decide⟩, rfl, by decide, rfl, ⟨0, rfl⟩, rfl⟩

theorem starA_endless :
    ¬ (Repeats 1 0 (afterAtom starA) (afterQuantifier starA [byte '*', 0]) ∧
      Repeats 1 2 (afterAtom starA)
        (afterQuantifier starA [byte '{', byte '2', byte ',', byte '}', 0])) ∧
    ∀ s i j,
      ¬ Spans (afterQuantifier starA [byte '*', 0]).program s 1 4 i j ∧
      ¬ Spans
        (afterQuantifier starA [byte '{', byte '2', byte ',', byte '}', 0]).program s 1 6 i j :=
  star_and_open_interval_endless (p := [byte '*', 0])
    (q := [byte '{', byte '2', byte ',', byte '}', 0]) (o := [0]) atomAccepted_starA
    rfl rfl rfl rfl rfl rfl rfl

/-- `a*` does not match the empty text. -/
theorem starA_not_repeats :
    AtomAccepted 2 false (passes starA 0) (afterAtom starA) ∧
    (passes starA 1) = afterQuantifier starA (afterAtom starA).cursor ∧
    (afterAtom starA).cursor[0]? = some (byte '*') ∧ (passes starA 1).error = .ok ∧
    ¬ Repeats (passes starA 0).length 0 (afterAtom starA) (passes starA 1) := by
  refine ⟨atomAccepted_starA, rfl, rfl, rfl, fun h => ?_⟩
  have hcode : (passes starA 1).code =
      ⟨quantify (afterAtom starA).program (passes starA 0).length (.interval 0 none), 0⟩ := rfl
  refine atomAccepted_starA.not_spans hcode ⟨⟨[], by simp⟩, 0, 0⟩ 0 0 ?_
  exact (h _ 0 0 le_rfl).mpr ⟨0, le_rfl, rfl⟩

/-! ## Alternations -/

/--
The `k` alternatives that `re_compile_alternation` reads from `c` on, each compiled on its own
after the first `RE_SAVE`: `d t` is the compiler before alternative `t` and `d' t` after it.
-/
structure BranchesAlone (alternation : ReCompiler → Option ReCompiler) (inGroup : Bool) (k : ℕ)
    (c : ReCompiler) (d d' : ℕ → ReCompiler) : Prop where
  first : (d 0).cursor = c.cursor
  text : ∀ t < k, InText (d t).cursor
  program : ∀ t < k, (d t).program = [{ op := .reSave }]
  extended : ∀ t < k, (d t).extended = c.extended
  step : ∀ t < k, reCompileSequence alternation inGroup (d t) = some (d' t)
  ok : ∀ t < k, (d' t).error = .ok
  more : ∀ t, t + 1 < k → isDelimiter c.extended (byte '|') (d' t).cursor = some true ∧
    (d (t + 1)).cursor = (d' t).cursor.drop (markLength c.extended)
  last : isDelimiter c.extended (byte '|') (d' (k - 1)).cursor = some false

/-- The codes of the branches are those of the sequences read between the delimiters. -/
theorem codes_parseBranches {sequence : List UInt8 → Option (Sequence × List UInt8)}
    {extended : Bool} {n : ℕ} {p r : List UInt8} {tree : Alternation} {u v : ℕ → List UInt8}
    {b : ℕ → Sequence} (h : parseBranches extended sequence n p = some (tree, r))
    (hp : u 0 = p.drop (markLength extended))
    (hseq : ∀ t < k + 1, sequence (u t) = some (b t, v t))
    (hmore : ∀ t < k, isDelimiter extended (byte '|') (v t) = some true ∧
      u (t + 1) = (v t).drop (markLength extended))
    (hlast : isDelimiter extended (byte '|') (v k) = some false) :
    tree.codes = (List.range (k + 1)).map fun t => (b t).code := by
  induction k generalizing n p r tree u v b with
  | zero =>
    cases n with
    | zero => simp [parseBranches] at h
    | succ n =>
      simp only [parseBranches, ← hp, hseq 0 (by omega), hlast, Option.bind_eq_bind,
        Option.bind_some, Bool.false_eq_true, if_false] at h
      obtain ⟨rfl, -⟩ := Prod.mk.inj (Option.some.inj h)
      simp [Alternation.codes]
  | succ k ih =>
    cases n with
    | zero => simp [parseBranches] at h
    | succ n =>
      simp only [parseBranches, ← hp, hseq 0 (by omega), (hmore 0 (by omega)).1,
        Option.bind_eq_bind, Option.bind_some, if_true] at h
      obtain ⟨⟨rest, r'⟩, hrest, h⟩ := Option.bind_eq_some_iff.mp h
      obtain ⟨rfl, -⟩ := Prod.mk.inj (Option.some.inj h)
      have hcodes := ih (u := fun t => u (t + 1)) (v := fun t => v (t + 1))
        (b := fun t => b (t + 1)) hrest (hmore 0 (by omega)).2
        (fun t ht => hseq (t + 1) (by omega)) (fun t ht => hmore (t + 1) (by omega)) hlast
      rw [Alternation.codes, hcodes, List.range_succ_eq_map (n := k + 1)]
      simp [Function.comp_def]

theorem sequence_spec (hc : Ready c) (hdepth : c.cursor.length ≤ depth + 1)
    (hstep : reCompileSequence (reCompileAlternation depth true) inGroup c = some d)
    (hd : d.error = .ok) :
    d.cursor.length ≤ c.cursor.length ∧ ∃ b,
      parseSequence (parseAlternation depth c.extended true) c.extended inGroup
        (c.cursor.length + 1) c.cursor = some (b, d.cursor) ∧ d.code = genSequence b c.code := by
  obtain ⟨r, hr, hspec⟩ := reSequenceLoop_compiled (nested_compiled c.extended) hc rfl hdepth
    (Nat.lt_succ_self _)
  rw [reCompileSequence] at hstep
  obtain rfl : d = r := Option.some.inj (hstep.symm.trans hr)
  exact ⟨(hspec.done hd).2.1, (hspec.done hd).2.2⟩

section Alone

variable {d d' : ℕ → ReCompiler}

theorem BranchesAlone.sequence
    (h : BranchesAlone (reCompileAlternation depth true) inGroup k c d d')
    (hdepth : c.cursor.length ≤ depth + 1) :
    ∀ t < k, (d' t).cursor.length ≤ depth + 1 ∧ ∃ b,
      parseSequence (parseAlternation depth c.extended true) c.extended inGroup
        ((d t).cursor.length + 1) (d t).cursor = some (b, (d' t).cursor) ∧
      ∀ s i j, Spans (d' t).program s 1 (d' t).length i j ↔ CodeSpans b.code s i j := by
  have hstep : ∀ t < k, (d t).cursor.length ≤ depth + 1 → (d' t).cursor.length ≤ depth + 1 ∧ ∃ b,
      parseSequence (parseAlternation depth c.extended true) c.extended inGroup
        ((d t).cursor.length + 1) (d t).cursor = some (b, (d' t).cursor) ∧
      ∀ s i j, Spans (d' t).program s 1 (d' t).length i j ↔ CodeSpans b.code s i j := by
    intro t ht hle
    have hp := h.program t ht
    obtain ⟨hl, b, hb, hcode⟩ := sequence_spec ⟨h.text t ht, fun _ => by simp [hp]⟩ hle
      (h.step t ht) (h.ok t ht)
    rw [h.extended t ht] at hb
    refine ⟨hl.trans hle, b, hb, fun s i j => ?_⟩
    have hextends := extends_genSequence b (d t).code
    rw [← hcode, show (d t).code.program = _ from hp] at hextends
    exact hextends.spans_iff b.enclosed
  intro t
  induction t with
  | zero => exact fun ht => hstep 0 ht (h.first ▸ hdepth)
  | succ t ih =>
    intro ht
    refine hstep (t + 1) ht ?_
    rw [(h.more t ht).2, List.length_drop]
    have := (ih (by omega)).1
    omega

/-- The code of an alternation, in terms of its alternatives on their own. -/
theorem BranchesAlone.spans_iff
    (h : BranchesAlone (reCompileAlternation depth true) inGroup k c d d') (hk : 2 ≤ k)
    (hc : Ready c) (hdepth : c.cursor.length ≤ depth + 1)
    (he : reCompileAlternation (depth + 1) inGroup c = some e) (hok : e.error = .ok) (s : Subject)
    (i j : ℕ) : Spans e.program s c.length e.length i j ↔
      i = j ∨ ∃ t < k, Spans (d' t).program s 1 (d' t).length i j := by
  obtain ⟨k, rfl⟩ : ∃ n, k = n + 2 := ⟨k - 2, by omega⟩
  have hbranch : ∀ t, ∃ b, t < k + 2 →
      parseSequence (parseAlternation depth c.extended true) c.extended inGroup
        ((d t).cursor.length + 1) (d t).cursor = some (b, (d' t).cursor) ∧
      ∀ s i j, Spans (d' t).program s 1 (d' t).length i j ↔ CodeSpans b.code s i j := by
    intro t
    by_cases ht : t < k + 2
    · obtain ⟨-, b, hb⟩ := h.sequence hdepth t ht
      exact ⟨b, fun _ => hb⟩
    · exact ⟨.nil, fun ht' => absurd ht' ht⟩
  choose b hb using hbranch
  obtain ⟨r, hr, hspec⟩ := reCompileAlternation_compiled (depth + 1) inGroup c hc hdepth
  obtain rfl : e = r := Option.some.inj (he.symm.trans hr)
  obtain ⟨-, -, tree, hparse, hcode⟩ := hspec.done hok
  -- the tree is the first alternative followed by what the loop reads
  have hfirst := (hb 0 (by omega)).1
  rw [h.first] at hfirst
  simp only [parseAlternation, hfirst, (h.more 0 (by omega)).1, Option.bind_eq_bind,
    Option.bind_some, if_true] at hparse
  obtain ⟨⟨rest, r⟩, hrest, hparse⟩ := Option.bind_eq_some_iff.mp hparse
  obtain ⟨rfl, -⟩ := Prod.mk.inj (Option.some.inj hparse)
  have hcodes := codes_parseBranches (u := fun t => (d (t + 1)).cursor)
    (v := fun t => (d' (t + 1)).cursor) (b := fun t => b (t + 1)) hrest (h.more 0 (by omega)).2
    (fun t ht => (hb (t + 1) (by omega)).1) (fun t ht => h.more (t + 1) (by omega)) h.last
  have hextends := extends_genAlternation (.more (b 0) rest) c.code
  rw [← hcode] at hextends
  have hall : (b 0).code :: rest.codes = (List.range (k + 2)).map fun t => (b t).code := by
    rw [hcodes, List.range_succ_eq_map (n := k + 1)]
    simp [Function.comp_def]
  refine (hextends.spans_iff (Alternation.enclosed _)).trans ?_
  rw [Alternation.code, hall, codeSpans_units (by simp [Sequence.enclosed])]
  refine or_congr_right ?_
  simp only [List.mem_map, List.mem_range, exists_exists_and_eq_and]
  exact exists_congr fun t => and_congr_right fun ht => ((hb t ht).2 s i j).symm

/--
An alternation spans what one of its alternatives spans on its own, except that it also spans
every empty range.
-/
theorem alternation_spans_iff
    (h : BranchesAlone (reCompileAlternation depth true) inGroup k c d d') (hk : 2 ≤ k)
    (hc : Ready c) (hdepth : c.cursor.length ≤ depth + 1)
    (he : reCompileAlternation (depth + 1) inGroup c = some e) (hok : e.error = .ok) (s : Subject)
    (i j : ℕ) (_ : i ≤ j) :
    (Spans e.program s c.length e.length i j ↔
      ∃ t < k, Spans (d' t).program s 1 (d' t).length i j) ↔
    (i = j → ∃ t < k, Spans (d' t).program s 1 (d' t).length i i) := by
  rw [h.spans_iff hk hc hdepth he hok s i j]
  constructor
  · rintro hiff rfl
    exact hiff.mp (.inl rfl)
  · intro hempty
    constructor
    · rintro (rfl | ht)
      · exact hempty rfl
      · exact ht
    · exact .inr

end Alone

abbrev altAB : CString := ⟨[byte 'a', byte '|', byte 'b'], by decide⟩

def beforeAlt (t : ℕ) : ReCompiler :=
  { passes altAB 0 with cursor := altAB.memory.drop (2 * t) }

def afterAlt (t : ℕ) : ReCompiler :=
  (reCompileSequence (reCompileAlternation 3 true) false (beforeAlt t)).getD (beforeAlt t)

def compiledAB : ReCompiler :=
  (reCompileAlternation 4 false (passes altAB 0)).getD (passes altAB 0)

theorem branchesAlone_altAB :
    BranchesAlone (reCompileAlternation 3 true) false 2 (passes altAB 0) beforeAlt afterAlt := by
  refine ⟨rfl, fun t ht => ?_, fun _ _ => rfl, fun _ _ => rfl, fun t ht => ?_, fun t ht => ?_,
    fun t ht => ?_, rfl⟩
  · interval_cases t
    · exact InText.memory altAB
    · exact InText.memory ⟨[byte 'b'], by decide⟩
  · interval_cases t <;> rfl
  · interval_cases t <;> rfl
  · obtain rfl : t = 0 := by omega
    exact ⟨rfl, rfl⟩

theorem altAB_spans_b :
    Spans compiledAB.program ⟨⟨[byte 'b'], by decide⟩, regExtended, 0⟩ 1 7 0 1 ↔
      ∃ t < 2, Spans (afterAlt t).program ⟨⟨[byte 'b'], by decide⟩, regExtended, 0⟩ 1
        (afterAlt t).length 0 1 :=
  (alternation_spans_iff branchesAlone_altAB le_rfl
    ⟨InText.memory altAB, fun _ => by decide⟩ (by decide) (e := compiledAB) rfl rfl _ 0 1
    (by omega)).mpr (by omega)

/-- `a|b` matches the empty text, and neither `a` nor `b` does. -/
theorem altAB_spans_empty :
    BranchesAlone (reCompileAlternation 3 true) false 2 (passes altAB 0) beforeAlt afterAlt ∧
    reCompileAlternation 4 false (passes altAB 0) = some compiledAB ∧ compiledAB.error = .ok ∧
    Spans compiledAB.program ⟨⟨[], by decide⟩, regExtended, 0⟩ 1 7 0 0 ∧
    ¬ ∃ t < 2, Spans (afterAlt t).program ⟨⟨[], by decide⟩, regExtended, 0⟩ 1
      (afterAlt t).length 0 0 := by
  refine ⟨branchesAlone_altAB, rfl, rfl, ?_, ?_⟩
  · exact .head (b := ⟨4, 0⟩) (by show _ ∈ _; decide) (.single (by show _ ∈ _; decide))
  · rintro ⟨t, ht, hspans⟩
    have hmem := hspans.mem_of_closed [⟨1, 0⟩] (by interval_cases t <;> decide) (by decide)
    revert hmem
    interval_cases t <;> decide

end LampUserspace.Regex
