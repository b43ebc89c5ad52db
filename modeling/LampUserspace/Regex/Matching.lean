import LampUserspace.Regex.Meaning

/-! # What a call of `regexec` reports

On a compiled pattern whose parts compose, a call finds the leftmost range of
the text in the meaning of the pattern's tree: it succeeds exactly when there is
one, and its first offsets are those of such a range.
-/

namespace LampUserspace.Regex

variable {s : Subject} {tree : Alternation} {i j : ℕ}

/-! ## The program around the code of the tree -/

/-- The address of the last `RE_SAVE` of a pattern. -/
def finish (tree : Alternation) : ℕ := 1 + tree.code.length

theorem length_genPattern (tree : Alternation) :
    (genPattern tree).program.length = finish tree + 2 := by
  rw [genPattern_program, List.length_append, List.length_append, length_genBody]
  rfl

theorem genPattern_body {k : ℕ} (hk : k < finish tree) :
    (genPattern tree).program[k]? = (genBody tree)[k]? := by
  have hlen : k < (genBody tree).length := by rwa [length_genBody]
  rw [genPattern_program, List.append_assoc, List.getElem?_append_left hlen]

theorem genPattern_finish :
    (genPattern tree).program[finish tree]? = some { op := .reSave, x := 1 } := by
  have hlen : (genBody tree).length = finish tree := length_genBody tree
  rw [genPattern_program, List.append_assoc, ← hlen, List.getElem?_append_right le_rfl,
    Nat.sub_self]
  rfl

theorem holds_genPattern : Holds (genPattern tree).program 1 tree.code := by
  intro k i hk
  have hlt : k < tree.code.length := (List.getElem?_eq_some_iff.mp hk).1
  rw [genPattern_body (by unfold finish; omega)]
  exact (extends_genBody tree).holds k i hk

theorem next_zero : Regex.next (genPattern tree).program s ⟨(0 : ℕ), i⟩ = [⟨(1 : ℕ), i⟩] := by
  obtain ⟨inst, hinst, hclean, -⟩ := genBody_zero tree
  have hop : inst.op = .reSave := by
    rw [← ReInst.op_clean, hclean]
    rfl
  have hfetch : fetch (genPattern tree).program (0 : ℕ) = some inst :=
    fetch_eq_some.mpr ⟨le_rfl, (genPattern_body (by unfold finish; omega)).trans hinst⟩
  rw [next_of_fetch hfetch, ReInst.next, hop]
  rfl

theorem next_finish :
    Regex.next (genPattern tree).program s ⟨finish tree, i⟩ = [⟨(finish tree + 1 : ℕ), i⟩] := by
  rw [next_of_fetch (fetch_eq_some.mpr ⟨by simp, by simpa using genPattern_finish⟩)]
  simp [ReInst.next]

theorem next_le_finish {c d : Conf} (hc : c.pc < finish tree)
    (hd : d ∈ Regex.next (genPattern tree).program s c) : d.pc ≤ finish tree := by
  unfold Regex.next at hd
  cases hf : fetch (genPattern tree).program c.pc with
  | none => simp [hf] at hd
  | some inst =>
    rw [hf] at hd
    obtain ⟨h0, hk⟩ := fetch_eq_some.mp hf
    rw [genPattern_body (by omega)] at hk
    rcases ReInst.mem_next hd with ⟨ht, -⟩ | ⟨-, hpc, -⟩ | ⟨-, hpc, -⟩
    · have := (targets_genBody tree (List.mem_of_getElem? hk) _ ht).2
      rwa [length_genBody] at this
    · omega
    · omega

theorem atMatch_iff {c : Conf} :
    AtMatch (genPattern tree).program c ↔ c.pc = (finish tree + 1 : ℕ) := by
  have hlen := length_genPattern tree
  have hlast : (genPattern tree).program[finish tree + 1]? = some { op := .reMatch } := by
    have hbody :
        (genBody tree ++ [({ op := .reSave, x := 1 } : ReInst)]).length = finish tree + 1 := by
      rw [List.length_append, length_genBody]
      rfl
    rw [genPattern_program, ← hbody, List.getElem?_append_right le_rfl, Nat.sub_self]
    rfl
  constructor
  · rintro ⟨inst, hf, hop⟩
    obtain ⟨h0, hk⟩ := fetch_eq_some.mp hf
    have hlt := (List.getElem?_eq_some_iff.mp hk).1
    by_contra hne
    rcases Nat.lt_or_ge c.pc.toNat (finish tree) with hbody | hfin
    · rw [genPattern_body hbody] at hk
      exact noMatch_genBody tree inst (List.mem_of_getElem? hk) hop
    · rw [show c.pc.toNat = finish tree by omega, genPattern_finish] at hk
      obtain rfl := Option.some.inj hk
      cases hop
  · intro hpc
    exact ⟨_, fetch_eq_some.mpr ⟨by omega, by rw [hpc, Int.toNat_natCast, hlast]⟩, rfl⟩

/-- The program accepts from where the code of its tree spans something. -/
theorem accepts_genPattern_iff :
    Accepts (genPattern tree).program s i ↔ ∃ j, CodeSpans tree.code s i j := by
  constructor
  · rintro ⟨⟨pc, pos⟩, hr, hmatch⟩
    obtain rfl : pc = (finish tree + 1 : ℕ) := atMatch_iff.mp hmatch
    have hspans : Spans (genPattern tree).program s 0 (finish tree + 1) i pos := hr
    rw [spans_head (by omega), next_zero] at hspans
    obtain ⟨d, hd, hr⟩ := hspans
    obtain rfl := List.mem_singleton.mp hd
    obtain ⟨m, hm, -⟩ := holds_genPattern.spans_exit tree.enclosed (by unfold finish; omega) hr
    exact ⟨m, hm⟩
  · rintro ⟨j, hj⟩
    have hspans := holds_genPattern.spans hj
    refine ⟨⟨(finish tree + 1 : ℕ), j⟩, .head (b := ⟨(1 : ℕ), i⟩) ?_ (hspans.tail ?_),
      atMatch_iff.mpr rfl⟩
    · show _ ∈ Regex.next (genPattern tree).program s ⟨(0 : ℕ), i⟩
      rw [next_zero]
      exact List.mem_singleton.mpr rfl
    · show _ ∈ Regex.next (genPattern tree).program s ⟨(1 + tree.code.length : ℕ), j⟩
      rw [show 1 + tree.code.length = finish tree from rfl, next_finish]
      exact List.mem_singleton.mpr rfl

/-! ## The end of the match -/

/-- A path to the end passes the last `RE_SAVE`, which stores where the code of the tree ends. -/
theorem saveAll_finish {c : Conf} {p : List Conf}
    (hp : Search.GoalPath (next (genPattern tree).program s) (AtMatch (genPattern tree).program)
      c p) (hc : c.pc ≤ finish tree) {captures : List Int} (hlen : 1 < captures.length) :
    ∃ j : ℕ, Search.Reachable (next (genPattern tree).program s) c ⟨finish tree, j⟩ ∧
      (saveAll (genPattern tree).program captures p)[1]? = some (j : Int) := by
  induction hp generalizing captures with
  | @goal c hgoal =>
    have := atMatch_iff.mp hgoal
    omega
  | @step c d p _ hd hp ih =>
    by_cases hfin : c.pc = finish tree
    · obtain ⟨pc, pos⟩ := c
      obtain rfl : pc = (finish tree : ℕ) := hfin
      rw [next_finish] at hd
      obtain rfl := List.mem_singleton.mp hd
      refine ⟨pos, .refl, ?_⟩
      -- only the end of the program is left
      have hgoal : AtMatch (genPattern tree).program ⟨(finish tree + 1 : ℕ), pos⟩ :=
        atMatch_iff.mpr rfl
      have hsave : saveAt (genPattern tree).program captures ⟨finish tree, pos⟩ =
          captures.set 1 pos := by
        have hf : fetch (genPattern tree).program (finish tree : ℕ) =
            some { op := .reSave, x := 1 } :=
          fetch_eq_some.mpr ⟨by simp, by simpa using genPattern_finish⟩
        simp [saveAt, hf]
      have hlast : ∀ C, saveAt (genPattern tree).program C ⟨(finish tree + 1 : ℕ), pos⟩ = C := by
        obtain ⟨inst, hf, hop⟩ := hgoal
        intro C
        simp only [saveAt, hf, hop, reduceCtorEq, if_false]
      cases hp with
      | goal _ => simp only [saveAll, List.foldl_cons, List.foldl_nil, hsave, hlast,
          List.getElem?_set_self hlen]
      | step hn _ _ => exact absurd hgoal hn
    · have hsaved : 1 < (saveAt (genPattern tree).program captures c).length := by
        simpa using hlen
      obtain ⟨j, hr, hj⟩ := ih (next_le_finish (by omega) hd) hsaved
      exact ⟨j, .head hd hr, hj⟩

theorem saveAll_stop {p : List Conf}
    (hp : Search.GoalPath (next (genPattern tree).program s) (AtMatch (genPattern tree).program)
      ⟨(0 : ℕ), i⟩ p) {captures : List Int} (hlen : 1 < captures.length) :
    ∃ j : ℕ, CodeSpans tree.code s i j ∧
      (saveAll (genPattern tree).program captures p)[1]? = some (j : Int) := by
  obtain ⟨j, hr, hj⟩ := saveAll_finish hp (by simp) hlen
  refine ⟨j, ?_, hj⟩
  have hspans : Spans (genPattern tree).program s 0 (finish tree) i j := hr
  rw [spans_head (by unfold finish; omega), next_zero] at hspans
  obtain ⟨d, hd, hr⟩ := hspans
  obtain rfl := List.mem_singleton.mp hd
  obtain ⟨m, hm, hrest⟩ := holds_genPattern.spans_exit tree.enclosed le_rfl hr
  -- from the last `RE_SAVE` no run comes back to it
  rcases Relation.ReflTransGen.cases_head hrest with he | ⟨d, hd, hr'⟩
  · rwa [← (Conf.mk.inj he).2]
  · have hd : d ∈ Regex.next (genPattern tree).program s ⟨finish tree, m⟩ := hd
    rw [next_finish] at hd
    obtain rfl := List.mem_singleton.mp hd
    rcases Relation.ReflTransGen.cases_head hr' with he | ⟨d, hd, -⟩
    · have := (Conf.mk.inj he).1
      unfold finish at this
      omega
    · have hstuck : Regex.next (genPattern tree).program s ⟨(finish tree + 1 : ℕ), m⟩ = [] := by
        obtain ⟨inst, hf, hop⟩ : AtMatch (genPattern tree).program ⟨(finish tree + 1 : ℕ), m⟩ :=
          atMatch_iff.mpr rfl
        rw [next_of_fetch hf, ReInst.next, hop]
      exact absurd (hstuck ▸ hd : d ∈ []) (by simp)

theorem CodeSpans.le_length (hj : CodeSpans tree.code s i j) (hi : i ≤ s.length) :
    j ≤ s.length := by
  have hvalid : Conf.Valid (genPattern tree).program s ⟨(1 : ℕ), i⟩ := by
    have hlen := length_genPattern tree
    exact ⟨⟨by simp, by simp only; omega⟩, hi⟩
  have hspans := holds_genPattern.spans hj
  exact ((inRange_genPattern tree).valid_reachable hvalid hspans).2

/-! ## Calls of `regexec` -/

/-- The range `(i, j)` of a text of the given length is one of `R`, and none of them is earlier. -/
structure Leftmost (R : ℕ → ℕ → Prop) (length i j : ℕ) : Prop where
  mem : R i j
  ordered : i ≤ j ∧ j ≤ length
  least : ∀ i' < i, ∀ j', ¬ R i' j'

section Call

variable {regex : CString} {cflags : UInt32} {heap heap' : Heap} {preg : RegexT}
  {program : List ReInst}

/-- What `regexec` reports, in terms of what the code of the tree spans. -/
theorem regexec_codeSpans (h : regcomp regex cflags heap = some (.ok, preg, heap'))
    (htree : parsePattern (hasFlag cflags regExtended) regex = some tree)
    (hprogram : preg.reProgram = some program)
    (hs : SavesFit program ((preg.reNsub + 1) * 2)) (string : CString) (nmatch : ℕ)
    (pmatch : List RegMatch) (eflags : UInt32)
    (hfits : TableFits program.length ⟨string, cflags, eflags⟩) (table : ℕ → UInt32)
    (hfresh : Fresh program ⟨string, cflags, eflags⟩ table) :
    ∃ r, regexec preg string nmatch pmatch eflags true (some table) = some r ∧
      (r.status = .ok ∨ r.status = .regNomatch) ∧
      (r.status = .ok ↔ ∃ i ≤ string.strlen, ∃ j,
        CodeSpans tree.code ⟨string, cflags, eflags⟩ i j) ∧
      (r.status = .ok → Stored cflags nmatch pmatch → ∃ i j : ℕ,
        Leftmost (CodeSpans tree.code ⟨string, cflags, eflags⟩) string.strlen i j ∧
          r.pmatch[0]? = some ⟨i, j⟩) := by
  obtain ⟨tree', htree', hpreg⟩ := regcomp_accepted h
  obtain rfl : tree = tree' := Option.some.inj (htree.symm.trans htree')
  obtain rfl : (genPattern tree).program = program := by
    rw [hpreg] at hprogram
    exact Option.some.inj hprogram
  obtain ⟨r, hr, hstart, hleast⟩ := reSearch_call h hprogram hs ⟨string, cflags, eflags⟩ table
  have hfound : ∀ least, LeastStart (genPattern tree).program ⟨string, cflags, eflags⟩ least →
      r.result = true ∧ r.captures[0]? = some (least : Int) := fun least hl =>
    (hleast least hl).found.mp ((fresh_iff hl).mp hfresh)
  rw [regexec_eq h hprogram, if_pos hfits]
  change reSearch _ _ _ _ (string.strlen + 1) _ _ _ = _ at hr
  rw [hr]
  refine ⟨_, rfl, ?_, ?_, fun hok hstored => ?_⟩
  · unfold execResult
    cases r.result <;> simp
  · rw [status_execResult]
    constructor
    · intro htrue
      obtain ⟨t, ht, hacc, -⟩ := hstart htrue
      exact ⟨t, ht, accepts_genPattern_iff.mp hacc⟩
    · rintro ⟨i, hi, hj⟩
      obtain ⟨least, hl⟩ := LeastStart.exists hi (accepts_genPattern_iff.mpr hj)
      exact (hfound least hl).1
  · have htrue := status_execResult.mp hok
    obtain ⟨t, ht, hacc, hcap⟩ := hstart htrue
    obtain ⟨least, hl⟩ := LeastStart.exists ht hacc
    obtain rfl : t = least := by
      have := Option.some.inj (hcap.symm.trans (hfound least hl).2)
      omega
    -- the path that the loop has found starts there
    obtain ⟨t', ht', p, hp, hcaps⟩ := reSearch_path (inRange_genPattern tree) hs 0 table
      (Nat.zero_add _).le hr htrue
    have hwide : ∀ i, 1 < (freshCaptures ((preg.reNsub + 1) * 2) i).length := by
      intro i
      rw [length_freshCaptures]
      omega
    have hzero := (firstSlot_genPattern tree).saveAll_zero hp (.inr ⟨rfl, rfl⟩)
      (freshCaptures_zero (show 0 < (preg.reNsub + 1) * 2 by omega) t')
    obtain rfl : t = t' := by
      rw [← hcaps] at hzero
      exact Int.natCast_inj.mp (Option.some.inj (hcap.symm.trans hzero))
    obtain ⟨j, hj, hone⟩ := saveAll_stop hp (hwide t)
    rw [← hcaps] at hone
    refine ⟨t, j, ⟨hj, ⟨Spans.le hj, hj.le_length ht⟩, fun i hi j' hj' => ?_⟩, ?_⟩
    · exact hl.least i hi (accepts_genPattern_iff.mpr ⟨j', hj'⟩)
    · obtain ⟨m, rest, rfl⟩ := List.exists_cons_of_ne_nil hstored.array
      simp [execResult, htrue, hstored.sub, storeMatches, hstored.count, hcap, hone]

/-- The result of a call is right for the ranges `R` of the text. -/
structure Reports (R : ℕ → ℕ → Prop) (string : CString) (cflags : UInt32) (nmatch : ℕ)
    (pmatch : List RegMatch) (r : ExecResult) : Prop where
  known : r.status = .ok ∨ r.status = .regNomatch
  status : r.status = .ok ↔ ∃ i ≤ string.strlen, ∃ j, R i j
  offsets : r.status = .ok → Stored cflags nmatch pmatch →
    ∃ i j : ℕ, Leftmost R string.strlen i j ∧ r.pmatch[0]? = some ⟨i, j⟩

/--
On a pattern none of whose optional pieces stands before code that begins with a split, `regexec`
finds the leftmost range of the compiled meaning of its tree.
-/
theorem regexec_compiled_meaning (h : regcomp regex cflags heap = some (.ok, preg, heap'))
    (htree : parsePattern (hasFlag cflags regExtended) regex = some tree)
    (htame : tree.tame = true) (hprogram : preg.reProgram = some program)
    (hs : SavesFit program ((preg.reNsub + 1) * 2)) (string : CString) (nmatch : ℕ)
    (pmatch : List RegMatch) (eflags : UInt32)
    (hfits : TableFits program.length ⟨string, cflags, eflags⟩) (table : ℕ → UInt32)
    (hfresh : Fresh program ⟨string, cflags, eflags⟩ table) :
    ∃ r, regexec preg string nmatch pmatch eflags true (some table) = some r ∧
      Reports (tree.Matches .compiled ⟨string, cflags, eflags⟩) string cflags nmatch pmatch r := by
  have hmeaning : CodeSpans tree.code ⟨string, cflags, eflags⟩ =
      tree.Matches .compiled ⟨string, cflags, eflags⟩ :=
    funext₂ fun i j => propext (tree.codeSpans_iff _ htame i j)
  obtain ⟨r, hr, hknown, hstatus, hoffsets⟩ :=
    regexec_codeSpans h htree hprogram hs string nmatch pmatch eflags hfits table hfresh
  rw [hmeaning] at hstatus hoffsets
  exact ⟨r, hr, hknown, hstatus, hoffsets⟩

/-- `a|b` on the text `b`: the compiled meaning has the empty range at the start. -/
theorem altAB_compiled_meaning : ∃ tree preg heap' r,
    regcomp altAB regExtended .unlimited = some (.ok, preg, heap') ∧
    parsePattern true altAB = some tree ∧ tree.tame = true ∧
    regexec preg ⟨[byte 'b'], by decide⟩ 1 [⟨-1, -1⟩] 0 true (some fun _ => 0) = some r ∧
    Reports (tree.Matches .compiled ⟨⟨[byte 'b'], by decide⟩, regExtended, 0⟩)
      ⟨[byte 'b'], by decide⟩ regExtended 1 [⟨-1, -1⟩] r := by
  obtain ⟨tree, htree, htame⟩ : ∃ tree, parsePattern (hasFlag regExtended regExtended) altAB =
    some tree ∧ tree.tame = true := ⟨_, rfl, rfl⟩
  obtain ⟨preg, heap', program, h, hprogram, hs, hfits⟩ : ∃ preg heap' program,
    regcomp altAB regExtended .unlimited = some (.ok, preg, heap') ∧
      preg.reProgram = some program ∧ SavesFit program ((preg.reNsub + 1) * 2) ∧
      TableFits program.length ⟨⟨[byte 'b'], by decide⟩, regExtended, 0⟩ :=
    ⟨_, _, _, rfl, rfl, by decide, by decide⟩
  obtain ⟨r, hr, hreports⟩ := regexec_compiled_meaning h htree htame hprogram hs
    ⟨[byte 'b'], by decide⟩ 1 [⟨-1, -1⟩] 0 hfits _ (fresh_of_clear _ _)
  exact ⟨tree, preg, heap', r, h, htree, htame, hr, hreports⟩

/--
If moreover the pattern has no unbounded repetition and a nullable branch in every alternation,
`regexec` finds the leftmost range of its usual meaning.
-/
theorem regexec_usual_meaning (h : regcomp regex cflags heap = some (.ok, preg, heap'))
    (htree : parsePattern (hasFlag cflags regExtended) regex = some tree)
    (htame : tree.tame = true) (husual : tree.usual = true)
    (hprogram : preg.reProgram = some program)
    (hs : SavesFit program ((preg.reNsub + 1) * 2)) (string : CString) (nmatch : ℕ)
    (pmatch : List RegMatch) (eflags : UInt32)
    (hfits : TableFits program.length ⟨string, cflags, eflags⟩) (table : ℕ → UInt32)
    (hfresh : Fresh program ⟨string, cflags, eflags⟩ table) :
    ∃ r, regexec preg string nmatch pmatch eflags true (some table) = some r ∧
      Reports (tree.Matches .usual ⟨string, cflags, eflags⟩) string cflags nmatch pmatch r := by
  have hmeaning : CodeSpans tree.code ⟨string, cflags, eflags⟩ =
      tree.Matches .usual ⟨string, cflags, eflags⟩ :=
    funext₂ fun i j => propext
      ((tree.codeSpans_iff _ htame i j).trans (tree.compiled_iff_usual _ husual i j))
  obtain ⟨r, hr, hknown, hstatus, hoffsets⟩ :=
    regexec_codeSpans h htree hprogram hs string nmatch pmatch eflags hfits table hfresh
  rw [hmeaning] at hstatus hoffsets
  exact ⟨r, hr, hknown, hstatus, hoffsets⟩

/-- `a?b` on the text `b`. -/
theorem optionalA_usual_meaning : ∃ tree preg heap' r,
    regcomp optionalA regExtended .unlimited = some (.ok, preg, heap') ∧
    parsePattern true optionalA = some tree ∧ tree.tame = true ∧ tree.usual = true ∧
    regexec preg ⟨[byte 'b'], by decide⟩ 1 [⟨-1, -1⟩] 0 true (some fun _ => 0) = some r ∧
    Reports (tree.Matches .usual ⟨⟨[byte 'b'], by decide⟩, regExtended, 0⟩)
      ⟨[byte 'b'], by decide⟩ regExtended 1 [⟨-1, -1⟩] r := by
  obtain ⟨tree, htree, htame, husual⟩ : ∃ tree,
    parsePattern (hasFlag regExtended regExtended) optionalA = some tree ∧ tree.tame = true ∧
      tree.usual = true := ⟨_, rfl, rfl, rfl⟩
  obtain ⟨preg, heap', program, h, hprogram, hs, hfits⟩ : ∃ preg heap' program,
    regcomp optionalA regExtended .unlimited = some (.ok, preg, heap') ∧
      preg.reProgram = some program ∧ SavesFit program ((preg.reNsub + 1) * 2) ∧
      TableFits program.length ⟨⟨[byte 'b'], by decide⟩, regExtended, 0⟩ :=
    ⟨_, _, _, rfl, rfl, by decide, by decide⟩
  obtain ⟨r, hr, hreports⟩ := regexec_usual_meaning h htree htame husual hprogram hs
    ⟨[byte 'b'], by decide⟩ 1 [⟨-1, -1⟩] 0 hfits _ (fresh_of_clear _ _)
  exact ⟨tree, preg, heap', r, h, htree, htame, husual, hr, hreports⟩

end Call

end LampUserspace.Regex
