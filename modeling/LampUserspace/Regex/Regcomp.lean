import LampUserspace.Regex.Compiling

/-! # Compiled patterns

`regcomp` returns for every pattern and every behaviour of the allocator. A
pattern it accepts has been read to its end and its program is the code of the
tree, between the two `RE_SAVE` of the whole match and before `RE_MATCH`; a
pattern it rejects leaves nothing behind.
-/

namespace LampUserspace.Regex

def genPattern (tree : Alternation) : Code :=
  let c := genAlternation tree ⟨[{ op := .reSave }], 0⟩
  { c with program := c.program ++ [{ op := .reSave, x := 1 }] ++ [{ op := .reMatch }] }

theorem ReCompiler.Owns.free_live {base : Finset ℕ} {c : ReCompiler} (h : c.Owns base) :
    (c.heap.free c.block).live = base := by
  unfold Heap.free
  simp only [h.live]
  rw [Finset.union_sdiff_right]
  exact Finset.sdiff_eq_self_of_disjoint h.fresh

/-- What `regcomp` returns: the program of a pattern read to its end, or nothing at all. -/
structure RegcompSpec (regex : CString) (cflags : UInt32) (heap : Heap)
    (r : RegCode × RegexT × Heap) : Prop where
  accepted : r.1 = .ok → ∃ tree, parsePattern (hasFlag cflags regExtended) regex = some tree ∧
    r.2.1 = ⟨some (genPattern tree).program, (genPattern tree).groups, cflags⟩
  consumed : r.1 = .ok → ∃ c, reCompilePattern regex (reStart regex cflags heap).2 = some c ∧
    c.cursor = [0]
  rejected : r.1 ≠ .ok → r.2.1 = ⟨none, 0, 0⟩ ∧ r.2.2.live = heap.live

theorem reCompilePattern_compiled {regex : CString} {c : ReCompiler} (hc : Ready c)
    (hcursor : c.cursor = regex.memory) :
    Total (reCompilePattern regex c) fun d => Frame c d ∧ (d.error = .ok → d.cursor = [0] ∧
      ∃ tree, parsePattern c.extended regex = some tree ∧ d.code = genAlternation tree c.code) := by
  have hlen : c.cursor.length ≤ regex.strlen + 1 := by
    simp [hcursor, CString.memory, CString.strlen]
  unfold reCompilePattern
  refine (reCompileAlternation_compiled _ false c hc hlen).bind fun d _ hd => ?_
  by_cases hok : d.error = .ok
  · obtain ⟨ht, hl, tree, hparse, hcode⟩ := hd.done hok
    rw [hcursor] at hparse
    simp only [if_pos hok]
    refine ht.head.bind fun b hb hnul => .ite (fun _ => .pure ?_) fun hb0 => .pure ?_
    · exact ⟨hd.frame.congr rfl rfl nofun rfl rfl, nofun⟩
    · refine ⟨hd.frame, fun _ => ⟨hnul.1 (not_not.mp hb0), tree, ?_, hcode⟩⟩
      simp [parsePattern, hparse, hb, not_not.mp hb0]
  · simp only [if_neg hok]
    exact .pure ⟨hd.frame, fun h => absurd h hok⟩

theorem regcompFail_spec {regex : CString} {cflags : UInt32} {heap : Heap} {c : ReCompiler}
    {code : RegCode} (hc : c.Owns heap.live) (hcode : code ≠ .ok) :
    RegcompSpec regex cflags heap (regcompFail c code) :=
  ⟨fun h => absurd h hcode, fun h => absurd h hcode, fun _ => ⟨rfl, hc.free_live⟩⟩

/-- The compiler as `regcomp` hands it to `re_compile_alternation`. -/
theorem reStart_grows (regex : CString) (cflags : UInt32) (heap : Heap) :
    (reStart regex cflags heap).2.Owns heap.live ∧
    (reStart regex cflags heap).2.cursor = regex.memory ∧
    (reStart regex cflags heap).2.extended = hasFlag cflags regExtended ∧
    ((reStart regex cflags heap).2.error = .ok →
      (reStart regex cflags heap).2.code = ⟨[{ op := .reSave }], 0⟩) := by
  have h := reEmitSave_grows
    { cursor := regex.memory, cflags := cflags, extended := hasFlag cflags regExtended,
      heap := heap } 0
  exact ⟨h.frame.owns _ ⟨by simp, by simp⟩, h.cursor, h.frame.extended, fun he => (h.done he).2⟩

theorem regcomp_spec (regex : CString) (cflags : UInt32) (heap : Heap) :
    Total (regcomp regex cflags heap) (RegcompSpec regex cflags heap) := by
  obtain ⟨howns, hcursor, hext, hcode⟩ := reStart_grows regex cflags heap
  unfold regcomp
  generalize hstart : reStart regex cflags heap = r at howns hcursor hext hcode ⊢
  obtain ⟨_ | _, c⟩ := r
  · exact .pure (regcompFail_spec howns nofun)
  have hc : Ready c := by
    refine ⟨hcursor ▸ InText.memory regex, fun he => ?_⟩
    have hp : c.program = _ := congrArg Code.program (hcode he)
    simp [hp]
  refine (reCompilePattern_compiled hc hcursor).bind fun d hpattern hd => ?_
  obtain ⟨hframe, hdone⟩ := hd
  refine .ite (fun hne => .pure (regcompFail_spec (hframe.owns _ howns) hne)) fun hok => ?_
  obtain ⟨hnul, tree, hparse, htree⟩ := hdone (not_not.mp hok)
  rw [hcode (hframe.sticky (not_not.mp hok))] at htree
  have hsave := reEmitSave_grows d 1
  generalize hr : reEmitSave d 1 = r at hsave ⊢
  have howns' := (hframe.trans hsave.frame).owns _ howns
  obtain ⟨_ | _, e⟩ := r
  · exact .pure (regcompFail_spec howns' nofun)
  have hmatch := hsave.emit .reMatch
  simp only
  generalize hr' : reEmit e .reMatch = r at hmatch ⊢
  have howns'' := (hframe.trans hmatch.frame).owns _ howns
  obtain ⟨_ | _, e'⟩ := r
  · exact .pure (regcompFail_spec howns'' nofun)
  have herror : e'.error = .ok := by
    rw [reEmit_error hr', reEmitSave_error hr, not_not.mp hok]
  obtain ⟨hp, hg⟩ := Code.mk.inj (hmatch.done herror).2
  obtain ⟨hdp, hdg⟩ := Code.mk.inj htree
  refine .pure ⟨fun _ => ⟨tree, hext ▸ hparse, ?_⟩, fun _ => ⟨d, ?_, hnul⟩, fun h => absurd rfl h⟩
  · simp only at hp hg
    simp only [hp, hg, hdp, hdg]
    rfl
  · rw [hstart, hpattern]

/--
`regcomp` terminates without reading past the NUL, whatever the allocator refuses. Success
means that the pattern was read to its end; failure leaves a cleared `regex_t` and a heap
with the blocks it had before.
-/
theorem regcomp_total (regex : CString) (cflags : UInt32) (heap : Heap) :
    ∃ code preg heap', regcomp regex cflags heap = some (code, preg, heap') ∧
      (code = .ok → ∃ c, reCompilePattern regex (reStart regex cflags heap).2 = some c ∧
        c.cursor = regex.memory.drop regex.strlen) ∧
      (code ≠ .ok → preg.reProgram = none ∧ preg.reNsub = 0 ∧ preg.reCflags = 0 ∧
        heap'.live = heap.live) := by
  obtain ⟨⟨code, preg, heap'⟩, hr, hspec⟩ := regcomp_spec regex cflags heap
  refine ⟨code, preg, heap', hr, fun hok => ?_, fun hne => ?_⟩
  · obtain ⟨c, hc, hcursor⟩ := hspec.consumed hok
    refine ⟨c, hc, hcursor.trans ?_⟩
    simp [CString.memory, CString.strlen]
  · obtain ⟨rfl, hlive⟩ := hspec.rejected hne
    exact ⟨rfl, rfl, rfl, hlive⟩

/-! ## The shape of a program -/

/-- Every instruction of `T` is a branch or has the opcode of an instruction of `S`. -/
def OpsFrom (S T : List ReInst) : Prop :=
  ∀ i ∈ T, i.op = .reSplit ∨ i.op = .reJmp ∨ ∃ j ∈ S, i.op = j.op

section Ops

variable {S T U : List ReInst}

theorem OpsFrom.refl (S : List ReInst) : OpsFrom S S := fun i hi => .inr (.inr ⟨i, hi, rfl⟩)

theorem OpsFrom.trans (h : OpsFrom S T) (h' : OpsFrom T U) : OpsFrom S U := by
  intro i hi
  rcases h' i hi with he | he | ⟨j, hj, he⟩
  · exact .inl he
  · exact .inr (.inl he)
  · rw [he]
    exact h j hj

theorem OpsFrom.append (h : OpsFrom S T) (h' : OpsFrom S U) : OpsFrom S (T ++ U) := by
  intro i hi
  rcases List.mem_append.mp hi with hi | hi
  · exact h i hi
  · exact h' i hi

theorem OpsFrom.split_cons {x y : Int} (h : OpsFrom S T) : OpsFrom S (split x y :: T) := by
  intro i hi
  rcases List.mem_cons.mp hi with rfl | hi
  · exact .inl rfl
  · exact h i hi

theorem OpsFrom.jmp_cons {x : Int} (h : OpsFrom S T) : OpsFrom S (jmp x :: T) := by
  intro i hi
  rcases List.mem_cons.mp hi with rfl | hi
  · exact .inr (.inl rfl)
  · exact h i hi

theorem OpsFrom.nil : OpsFrom S [] := by simp [OpsFrom]

theorem OpsFrom.mapTargets {f : Int → Int} (h : OpsFrom S T) :
    OpsFrom S (T.map (ReInst.mapTargets f)) := by
  intro i hi
  obtain ⟨j, hj, rfl⟩ := List.mem_map.mp hi
  rw [ReInst.op_mapTargets]
  exact h j hj

theorem opsFrom_window (S : List ReInst) (start stop : ℕ) (delta : Int) :
    OpsFrom S (window S start stop delta) := by
  intro i hi
  obtain ⟨j, hj, rfl⟩ := List.mem_map.mp hi
  rw [ReInst.op_mapTargets]
  exact .inr (.inr ⟨j, List.mem_of_mem_drop (List.mem_of_mem_take hj), rfl⟩)

theorem opsFrom_copiesCode (n : ℕ) (S : List ReInst) (start stop : ℕ) :
    OpsFrom S (copiesCode n S start stop) := by
  induction n generalizing S with
  | zero => exact .refl S
  | succ n ih => exact ((OpsFrom.refl S).append (opsFrom_window _ _ _ _)).trans (ih _)

theorem opsFrom_optCopyCode (S : List ReInst) (start stop : ℕ) :
    OpsFrom S (optCopyCode S start stop) :=
  (OpsFrom.refl S).append (opsFrom_window _ _ _ _).split_cons

theorem opsFrom_optCopiesCode (n : ℕ) (S : List ReInst) (start stop : ℕ) :
    OpsFrom S (optCopiesCode n S start stop) := by
  induction n generalizing S with
  | zero => exact .refl S
  | succ n ih => exact (opsFrom_optCopyCode S start stop).trans (ih _)

theorem opsFrom_optCode (S : List ReInst) : OpsFrom S (optCode S) :=
  (OpsFrom.refl S).mapTargets.split_cons

theorem opsFrom_starCode (S : List ReInst) : OpsFrom S (starCode S) :=
  (opsFrom_optCode S).append OpsFrom.nil.jmp_cons

theorem opsFrom_quantCode (S : List ReInst) (q : Quantifier) : OpsFrom S (quantCode S q) := by
  match q with
  | .one => exact .refl S
  | .star | .interval 0 none => exact opsFrom_starCode S
  | .plus => exact (OpsFrom.refl S).append OpsFrom.nil.split_cons
  | .question => exact opsFrom_optCode S
  | .interval 0 (some max) => exact (opsFrom_optCode S).trans (opsFrom_optCopiesCode _ _ _ _)
  | .interval (min + 1) none =>
    exact (opsFrom_copiesCode min S 0 S.length).trans
      ((opsFrom_optCopyCode _ _ _).append OpsFrom.nil.jmp_cons)
  | .interval (min + 1) (some max) =>
    exact (opsFrom_copiesCode min S 0 S.length).trans (opsFrom_optCopiesCode _ _ _ _)

def NoMatch (S : List ReInst) : Prop := ∀ i ∈ S, i.op ≠ .reMatch

theorem OpsFrom.noMatch (h : OpsFrom S T) (hS : NoMatch S) : NoMatch T := by
  intro i hi
  rcases h i hi with he | he | ⟨j, hj, he⟩
  · simp [he]
  · simp [he]
  · exact he ▸ hS j hj

theorem NoMatch.append (hS : NoMatch S) (hT : NoMatch T) : NoMatch (S ++ T) := by
  intro i hi
  rcases List.mem_append.mp hi with hi | hi
  · exact hS i hi
  · exact hT i hi

theorem noMatch_unitsFrom {codes : List (List ReInst)} (h : ∀ S ∈ codes, NoMatch S) (o : ℕ)
    (stop : Int) : NoMatch (unitsFrom o stop codes) := by
  induction codes generalizing o with
  | nil => simp [NoMatch, unitsFrom]
  | cons S rest ih =>
    obtain ⟨hS, hrest⟩ := List.forall_mem_cons.mp h
    intro i hi
    simp only [unitsFrom, List.cons_append, List.mem_cons, List.mem_append] at hi
    rcases hi with rfl | hi | rfl | hi
    · simp [split]
    · exact (OpsFrom.refl S).mapTargets.noMatch hS i hi
    · simp [jmp]
    · exact ih hrest _ i hi

end Ops

mutual

theorem Atom.noMatch : (a : Atom) → NoMatch a.code
  | .leaf l => by cases l <;> simp [NoMatch, Atom.code, Leaf.inst]
  | .group false body => by simpa [Atom.code] using body.noMatch
  | .group true body => by
    have hbody : NoMatch (reloc 1 body.code) :=
      (OpsFrom.refl body.code).mapTargets.noMatch body.noMatch
    have hsave : NoMatch [save] := by simp [NoMatch, save]
    exact (hsave.append hbody).append hsave

theorem Sequence.noMatch : (b : Sequence) → NoMatch b.code
  | .nil => by simp [NoMatch, Sequence.code]
  | .cons a q rest => by
    rw [Sequence.code]
    exact ((opsFrom_quantCode a.code q).mapTargets.noMatch a.noMatch).append
      ((OpsFrom.refl rest.code).mapTargets.noMatch rest.noMatch)

theorem Alternation.noMatch : (a : Alternation) → NoMatch a.code
  | .last branch => by simpa [Alternation.code] using branch.noMatch
  | .more branch rest => by
    rw [Alternation.code]
    exact noMatch_unitsFrom (List.forall_mem_cons.mpr ⟨branch.noMatch, rest.noMatch_codes⟩) _ _

theorem Alternation.noMatch_codes : (a : Alternation) → ∀ S ∈ a.codes, NoMatch S
  | .last branch => by
    rw [Alternation.codes]
    exact List.forall_mem_cons.mpr ⟨branch.noMatch, by simp⟩
  | .more branch rest => by
    rw [Alternation.codes]
    exact List.forall_mem_cons.mpr ⟨branch.noMatch, rest.noMatch_codes⟩

end

/-! ## The program of a pattern -/

section Program

variable (tree : Alternation)

/-- The body of the program: the first `RE_SAVE` and the code of the tree. -/
def genBody : List ReInst := (genAlternation tree ⟨[{ op := .reSave }], 0⟩).program

theorem genPattern_program :
    (genPattern tree).program =
      genBody tree ++ [{ op := .reSave, x := 1 }] ++ [{ op := .reMatch }] := rfl

theorem extends_genBody : Extends [{ op := .reSave }] (genBody tree) tree.lead tree.code :=
  extends_genAlternation tree ⟨[{ op := .reSave }], 0⟩

theorem length_genBody : (genBody tree).length = 1 + tree.code.length :=
  (extends_genBody tree).length

/-- The first instruction of the body is the `RE_SAVE` it started with. -/
theorem genBody_zero :
    ∃ i : ReInst, (genBody tree)[0]? = some i ∧ i.clean = save ∧ i.x = 0 := by
  obtain ⟨i, hi, he, hx⟩ := (extends_genBody tree).kept 0 _ rfl (by simp [ReInst.targets])
  exact ⟨i, hi, he, (hx rfl).1 rfl⟩

/-- An instruction of the body, up to the operands that are not targets. -/
theorem mem_genBody {i : ReInst} (hi : i ∈ genBody tree) :
    i.clean = save ∨ i.clean ∈ reloc 1 tree.code := by
  obtain ⟨k, hk⟩ := List.mem_iff_getElem?.mp hi
  cases k with
  | zero =>
    obtain ⟨j, hj, he, -⟩ := genBody_zero tree
    rw [hk] at hj
    obtain rfl := Option.some.inj hj
    exact .inl he
  | succ k =>
    have hcode : _ = reloc 1 tree.code := (extends_genBody tree).code
    rw [← hcode]
    refine .inr (List.mem_map_of_mem (List.mem_iff_getElem?.mpr ⟨k, ?_⟩))
    rw [List.getElem?_drop, Nat.add_comm, List.length_singleton]
    exact hk

theorem targets_genBody {i : ReInst} (hi : i ∈ genBody tree) :
    ∀ t ∈ i.targets, 1 ≤ t ∧ t ≤ (genBody tree).length := by
  intro t ht
  rw [← ReInst.targets_clean] at ht
  rcases mem_genBody tree hi with he | he
  · simp [he] at ht
  · have := tree.enclosed.reloc he ht
    rw [length_genBody]
    push_cast at *
    omega

theorem noMatch_genBody : NoMatch (genBody tree) := by
  intro i hi
  rw [← ReInst.op_clean]
  rcases mem_genBody tree hi with he | he
  · simp [he, save]
  · exact (OpsFrom.refl tree.code).mapTargets.noMatch tree.noMatch _ he

theorem inRange_genPattern : InRange (genPattern tree).program := by
  have hlen : (genPattern tree).program.length = (genBody tree).length + 2 := by
    simp [genPattern_program]
  refine ⟨fun i hi t ht => ?_, fun k i hk hf => ?_,
    ⟨{ op := .reMatch }, by simp [genPattern_program], rfl⟩⟩
  · rw [genPattern_program] at hi
    simp only [List.mem_append, List.mem_singleton] at hi
    rcases hi with (hi | rfl) | rfl
    · have := targets_genBody tree hi t ht
      omega
    · simp [ReInst.targets] at ht
    · simp [ReInst.targets] at ht
  · have hlt := (List.getElem?_eq_some_iff.mp hk).1
    rcases Nat.lt_or_ge (k + 1) (genPattern tree).program.length with h | h
    · exact h
    · obtain rfl : k = (genBody tree ++ [({ op := .reSave, x := 1 } : ReInst)]).length := by
        simp
        omega
      rw [genPattern_program, List.getElem?_concat_length] at hk
      obtain rfl := Option.some.inj hk
      simp [ReInst.falls] at hf

theorem programLength_concat {S : List ReInst} (h : NoMatch S) {i : ReInst}
    (hi : i.op = .reMatch) : programLength (S ++ [i]) = some (S.length + 1) := by
  induction S with
  | nil => simp [programLength, hi]
  | cons j S ih =>
    obtain ⟨hj, hS⟩ := List.forall_mem_cons.mp h
    rw [List.cons_append, programLength, if_neg hj, ih hS]
    rfl

theorem programLength_genPattern :
    programLength (genPattern tree).program = some (genPattern tree).program.length := by
  have hsave : NoMatch [({ op := .reSave, x := 1 } : ReInst)] := by simp [NoMatch]
  have h := programLength_concat ((noMatch_genBody tree).append hsave)
    (i := { op := .reMatch }) rfl
  simpa [genPattern_program] using h

end Program

theorem regcomp_accepted {regex : CString} {cflags : UInt32} {heap heap' : Heap} {preg : RegexT}
    (h : regcomp regex cflags heap = some (.ok, preg, heap')) :
    ∃ tree, parsePattern (hasFlag cflags regExtended) regex = some tree ∧
      preg = ⟨some (genPattern tree).program, (genPattern tree).groups, cflags⟩ := by
  obtain ⟨r, hr, hspec⟩ := regcomp_spec regex cflags heap
  rw [h] at hr
  obtain rfl := Option.some.inj hr
  exact hspec.accepted rfl

/--
A compiled program has its one `RE_MATCH` at the end, and all its branches stay inside it, so
that the scan of `regexec` finds its length and the range check of `re_run` never fails.
-/
theorem regcomp_inRange {regex : CString} {cflags : UInt32} {heap heap' : Heap} {preg : RegexT}
    (h : regcomp regex cflags heap = some (.ok, preg, heap')) :
    ∃ program, preg.reProgram = some program ∧
      (program.map ReInst.op).count .reMatch = 1 ∧
      (program.getLast?.map ReInst.op) = some .reMatch ∧
      (∀ i ∈ program, ∀ t ∈ i.targets, 0 ≤ t ∧ t < program.length) ∧
      programLength program = some program.length ∧
      ∀ (s : Subject) (start : ℕ) (c : Conf), start ≤ s.length →
        Search.Reachable (next program s) ⟨0, start⟩ c →
          ¬ (c.pc < 0 ∨ c.pc ≥ program.length) := by
  obtain ⟨tree, -, rfl⟩ := regcomp_accepted h
  have hrange := inRange_genPattern tree
  refine ⟨_, rfl, ?_, ?_, hrange.targets, programLength_genPattern tree, ?_⟩
  · have hbody : ((genBody tree).map ReInst.op).count .reMatch = 0 := by
      rw [List.count_eq_zero]
      intro hm
      obtain ⟨i, hi, he⟩ := List.mem_map.mp hm
      exact noMatch_genBody tree i hi he
    simp [genPattern_program, hbody]
  · simp [genPattern_program]
  · intro s start c hs hc
    have := (hrange.valid_reachable (hrange.valid_start hs) hc).1
    omega

abbrev starA : CString := ⟨[byte 'a', byte '*'], by decide⟩

theorem starA_inRange :
    ∃ preg heap' program, regcomp starA 0 .unlimited = some (.ok, preg, heap') ∧
      preg.reProgram = some program ∧ programLength program = some program.length ∧
      ∀ i ∈ program, ∀ t ∈ i.targets, 0 ≤ t ∧ t < program.length := by
  obtain ⟨preg, heap', h⟩ :
    ∃ preg heap', regcomp starA 0 .unlimited = some (.ok, preg, heap') := ⟨_, _, rfl⟩
  obtain ⟨program, hp, -, -, ht, hl, -⟩ := regcomp_inRange h
  exact ⟨preg, heap', program, h, hp, hl, ht⟩

end LampUserspace.Regex
