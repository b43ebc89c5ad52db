import LampUserspace.Regex.Syntaxes

/-! # Where the two syntaxes agree

The outcome of `regcomp` on the two spellings of a tree. The basic syntax stops
at the first interval, so that the outcomes agree where the extended syntax
stops there too, and where it meets an error of the same kind further on.
-/

namespace LampUserspace.Regex

variable {x : Bool} {b : UInt8}

/-! ## Whole patterns -/

theorem nul_notMem_mark (hb : b ≠ 0) : 0 ∉ mark x b := by
  have hbackslash : (0 : UInt8) ≠ byte '\\' := by decide
  cases x <;> simp [mark, hb.symm, hbackslash]

theorem Numeral.nul_free (m : Numeral) : 0 ∉ m.digits := by
  intro h
  have := m.isdigit_of_mem 0 h
  revert this
  decide

theorem Bounds.nul_free (bounds : Bounds) : 0 ∉ bounds.text := by
  have hcomma : (0 : UInt8) ≠ byte ',' := by decide
  cases bounds with
  | exactly m => exact m.nul_free
  | atLeast m => simp [text, m.nul_free, hcomma]
  | between m n => simp [text, m.nul_free, n.nul_free, hcomma]

theorem Suffix.nul_free (s : Suffix) : 0 ∉ s.spell x := by
  cases s with
  | one => simp [Suffix.spell]
  | star =>
    have hstar : (0 : UInt8) ≠ byte '*' := by decide
    simp [Suffix.spell, hstar]
  | plus => exact nul_notMem_mark (by decide)
  | question => exact nul_notMem_mark (by decide)
  | interval b =>
    simp only [Suffix.spell, List.mem_append, not_or]
    exact ⟨nul_notMem_mark (by decide), b.nul_free, nul_notMem_mark (by decide)⟩

mutual

theorem Term.nul_free : (t : Term) → ∀ x, 0 ∉ t.spell x
  | .char ch h, x => by
    have hch : 0 ≠ ch := by
      rintro rfl
      revert h
      decide
    simp [Term.spell, hch]
  | .any, x => by
    have hdot : (0 : UInt8) ≠ byte '.' := by decide
    simp [Term.spell, hdot]
  | .bracket b, x => by
    have hopen : (0 : UInt8) ≠ byte '[' := by decide
    simp [Term.spell, b.nul_free, hopen]
  | .group body, x => by
    simp only [Term.spell, List.mem_append, not_or]
    exact ⟨nul_notMem_mark (by decide), body.nul_free x, nul_notMem_mark (by decide)⟩

theorem Branch.nul_free : (s : Branch) → ∀ x, 0 ∉ s.spell x
  | .nil, x => by simp [Branch.spell]
  | .cons term suffix s, x => by
    simp only [Branch.spell, List.mem_append, not_or]
    exact ⟨term.nul_free x, suffix.nul_free, s.nul_free x⟩

theorem Tree.nul_free : (t : Tree) → ∀ x, 0 ∉ t.spell x
  | .last branch, x => by
    rw [Tree.spell]
    exact branch.nul_free x
  | .more branch t, x => by
    simp only [Tree.spell, List.mem_append, not_or]
    exact ⟨branch.nul_free x, nul_notMem_mark (by decide), t.nul_free x⟩

end

def Tree.pattern (t : Tree) (extended : Bool) : CString := ⟨t.spell extended, t.nul_free extended⟩

/-- Flags with `REG_EXTENDED` set or cleared, and the others as they were. -/
def syntaxFlags (extended : Bool) (cflags : UInt32) : UInt32 :=
  if extended then cflags ||| regExtended else cflags &&& ~~~ regExtended

theorem hasFlag_syntaxFlags (cflags : UInt32) : hasFlag (syntaxFlags x cflags) regExtended = x := by
  cases x with
  | true =>
    have hbit : (cflags ||| regExtended) &&& regExtended = regExtended := by
      apply UInt32.toBitVec_inj.1
      ext i
      simp only [UInt32.toBitVec_and, UInt32.toBitVec_or, BitVec.getElem_and, BitVec.getElem_or]
      cases cflags.toBitVec[i] <;> simp
    rw [syntaxFlags, if_pos rfl, hasFlag, hbit]
    rfl
  | false =>
    have hbit : (cflags &&& ~~~ regExtended) &&& regExtended = 0 := by
      rw [UInt32.and_assoc, UInt32.not_and_self, UInt32.and_zero]
    rw [syntaxFlags, if_neg (by simp), hasFlag, hbit]
    rfl

/-- A compiler before its first instruction, with no pattern to read. -/
def ReCompiler.blank (heap : Heap) : ReCompiler :=
  { cursor := [], cflags := 0, extended := false, heap := heap }

/-- The end of `regcomp`: its status, and the program and `re_nsub` of the `regex_t`. -/
def emitEnd (c : ReCompiler) : RegCode × Option (List ReInst) × ℕ :=
  if c.error ≠ .ok then (c.error, none, 0)
  else
    match reEmitSave c 1 with
    | (none, _) => (.regEspace, none, 0)
    | (some _, c) =>
      match reEmit c .reMatch with
      | (none, _) => (.regEspace, none, 0)
      | (some _, c) => (.ok, some c.program, c.groups)

/-- `regcomp` directed by a tree. -/
def Tree.outcome (t : Tree) (extended : Bool) (heap : Heap) : RegCode × Option (List ReInst) × ℕ :=
  match reEmitSave (.blank heap) 0 with
  | (none, _) => (.regEspace, none, 0)
  | (some _, c) => emitEnd (t.emit extended c)

def outcomeOf (r : RegCode × RegexT × Heap) : RegCode × Option (List ReInst) × ℕ :=
  (r.1, r.2.1.reProgram, r.2.1.reNsub)

theorem reCompilePattern_reaches (t : Tree) {f : UInt32} {c : ReCompiler} (hc : c.error = .ok)
    (hlen : 0 < c.length) :
    Total (reCompilePattern (t.pattern x) (c.reading (t.spell x ++ [0]) f x))
      (Reaches f x [0] (t.emit x c)) := by
  rw [reCompilePattern]
  refine (t.compiled hc hlen .nul (le_refl (t.spell x).length)).bind fun e _ he => ?_
  obtain ⟨q, rfl, hq⟩ := he
  by_cases hd : (t.emit x c).error = .ok
  · obtain rfl := hq hd
    rw [if_pos (show ((t.emit x c).reading [0] f x).error = .ok from hd)]
    exact .some ⟨[0], rfl, hq⟩
  · rw [if_neg (show ¬ ((t.emit x c).reading q f x).error = .ok from hd)]
    exact .some ⟨q, rfl, hq⟩

theorem regcomp_pattern (t : Tree) (x : Bool) (cflags : UInt32) (heap : Heap) :
    Total (regcomp (t.pattern x) (syntaxFlags x cflags) heap)
      fun r => outcomeOf r = t.outcome x heap := by
  have hfail : ∀ (c : ReCompiler) (code : RegCode),
      outcomeOf (regcompFail c code) = (code, none, 0) := fun _ _ => rfl
  have hblank : ReCompiler.error (.blank heap) = .ok := rfl
  have hstart : reStart (t.pattern x) (syntaxFlags x cflags) heap =
      reEmitSave
        ((ReCompiler.blank heap).reading (t.spell x ++ [0]) (syntaxFlags x cflags) x) 0 := by
    rw [reStart, hasFlag_syntaxFlags]
    rfl
  rw [regcomp, hstart, (Steady.emitSave 0).reading, Tree.outcome]
  rcases ((Steady.emitSave 0).answers (x := x) hblank).cases with
    ⟨d, hd, -⟩ | ⟨_, d, hd, hok, hm⟩
  · simp only [hd]
    exact .some (hfail _ _)
  have hlen : 0 < d.length := by
    have hgrown := ((reEmitSave_grows (.blank heap) 0).done (hd ▸ hok)).2
    rw [hd] at hgrown
    have hprogram : d.program = _ := congrArg Code.program hgrown
    simp [ReCompiler.length, hprogram]
  simp only [hd]
  refine (reCompilePattern_reaches t hok hlen).bind fun e _ he => ?_
  obtain ⟨q, rfl, -⟩ := he
  rw [emitEnd]
  by_cases herr : (t.emit x d).error = .ok
  swap
  · simp only [ReCompiler.reading_error, ne_eq, herr, not_false_eq_true, if_true]
    exact .some (hfail _ _)
  simp only [ReCompiler.reading_error, ne_eq, herr, not_true, if_false,
    (Steady.emitSave 1).reading]
  rcases reEmitSave (t.emit x d) 1 with ⟨_ | _, e⟩
  · exact .some (hfail _ _)
  simp only [(Steady.emit .reMatch).reading]
  rcases reEmit e .reMatch with ⟨_ | _, e⟩
  · exact .some (hfail _ _)
  · exact .some rfl

/-! ## Agreement -/

/-- Both calls fail with one status, or both return one program and one number of groups. -/
def SameOutcome (r s : RegCode × RegexT × Heap) : Prop :=
  r.1 ≠ .ok ∧ s.1 = r.1 ∨
    r.1 = .ok ∧ s.1 = .ok ∧ r.2.1.reProgram = s.2.1.reProgram ∧ r.2.1.reNsub = s.2.1.reNsub

/-- `regcomp` does the same with the basic and the extended spelling of a tree. -/
def Tree.Agrees (t : Tree) (cflags : UInt32) (heap : Heap) : Prop :=
  ∃ r s, regcomp (t.pattern false) (syntaxFlags false cflags) heap = some r ∧
    regcomp (t.pattern true) (syntaxFlags true cflags) heap = some s ∧ SameOutcome r s

theorem Tree.outcome_failed {t : Tree} {heap : Heap} (h : (t.outcome x heap).1 ≠ .ok) :
    (t.outcome x heap).2 = (none, 0) := by
  revert h
  unfold Tree.outcome emitEnd
  split
  · exact fun _ => rfl
  split_ifs
  · exact fun _ => rfl
  split
  · exact fun _ => rfl
  split
  · exact fun _ => rfl
  · exact fun h => absurd rfl h

theorem Tree.agrees_iff (t : Tree) (cflags : UInt32) (heap : Heap) :
    t.Agrees cflags heap ↔ t.outcome false heap = t.outcome true heap := by
  obtain ⟨r, hr, hro⟩ := regcomp_pattern t false cflags heap
  obtain ⟨s, hs, hso⟩ := regcomp_pattern t true cflags heap
  have hsame : t.Agrees cflags heap ↔ SameOutcome r s := by
    unfold Tree.Agrees
    rw [hr, hs]
    constructor
    · rintro ⟨_, _, ⟨⟩, ⟨⟩, h⟩
      exact h
    · exact fun h => ⟨r, s, rfl, rfl, h⟩
  rw [hsame]
  constructor
  · rintro (⟨hne, heq⟩ | ⟨hrok, hsok, hprogram, hnsub⟩)
    · have hrfail : (t.outcome false heap).1 ≠ .ok := hro ▸ hne
      have hsfail : (t.outcome true heap).1 ≠ .ok := hso ▸ heq ▸ hne
      refine Prod.ext ?_ ((outcome_failed hrfail).trans (outcome_failed hsfail).symm)
      rw [← hro, ← hso]
      exact heq.symm
    · rw [← hro, ← hso, outcomeOf, outcomeOf, hrok, hsok, hprogram, hnsub]
  · intro h
    rw [← hro, ← hso] at h
    obtain ⟨hcode, hrest⟩ := Prod.mk.inj h
    obtain ⟨hprogram, hnsub⟩ := Prod.mk.inj hrest
    by_cases hrok : r.1 = .ok
    · exact .inr ⟨hrok, hcode ▸ hrok, hprogram, hnsub⟩
    · exact .inl ⟨hrok, hcode.symm⟩

/-! ## Where nothing but errors comes before the first interval -/

/-- The first event, if there is one, is an error in both syntaxes. -/
def FaultFirst (es : List Event) : Prop := ∀ b, es.head? = some (.interval b) → b.valid = false

section FaultFirst

variable {es es' : List Event} {c d : ReCompiler}

theorem FaultFirst.left (h : FaultFirst (es ++ es')) : FaultFirst es := by
  cases es with
  | nil => exact nofun
  | cons ev es => exact h

theorem FaultFirst.eq_nil (h : FaultFirst es) (hm : Meets x es c d) (hd : d.error = .ok) :
    es = [] := by
  cases es with
  | nil => rfl
  | cons ev es =>
    have hnone := hm.firstError_eq_none hd
    cases ev with
    | fault e => simp [firstError, Event.error] at hnone
    | interval b =>
      have hb := h b rfl
      simp [firstError, Event.error, hb] at hnone

theorem FaultFirst.right (h : FaultFirst (es ++ es')) (hm : Meets x es c d) (hd : d.error = .ok) :
    FaultFirst es' := by
  have hnil := h.left.eq_nil hm hd
  subst hnil
  exact h

theorem Suffix.emit_alike (s : Suffix) (h : FaultFirst s.events) (start : ℕ) :
    s.emit true start c = s.emit false start c := by
  cases s with
  | interval b =>
    have hb := h b rfl
    simp [Suffix.emit, hb]
  | _ => rfl

theorem emitPiece_congr {term term' suffix suffix' : ReCompiler → Option ℕ × ReCompiler}
    (hterm : term c = term' c) (hsuffix : ∀ k d, term c = (some k, d) → suffix d = suffix' d) :
    emitPiece term suffix c = emitPiece term' suffix' c := by
  rw [emitPiece, emitPiece, ← hterm]
  rcases heq : term c with ⟨_ | k, d⟩
  · rfl
  · simp only [hsuffix k d heq]

theorem emitBranch_congr {branch branch' : ReCompiler → ReCompiler} (hc : c.error = .ok)
    (h : ∀ d, d.error = .ok → branch d = branch' d) (lastSplit : ℕ) (jumps : List ℕ) :
    emitBranch branch c lastSplit jumps = emitBranch branch' c lastSplit jumps := by
  rw [emitBranch, emitBranch]
  rcases ((Steady.openBranch lastSplit).answers (x := true) hc).cases with
    ⟨d, hd, -⟩ | ⟨split, d, hd, hok, -⟩
  · simp only [hd]
  · simp only [hd, h d hok]

theorem emitAlternation_congr {first first' : ReCompiler → ReCompiler}
    {branches branches' : ReCompiler → ℕ → List ℕ → Option (ℕ × List ℕ) × ReCompiler}
    (hm : Meets x es c (first c)) (hfirst : first c = first' c)
    (h : (first c).error = .ok → ∀ d lastSplit jump, d.error = .ok →
      branches d lastSplit [jump] = branches' d lastSplit [jump]) :
    emitAlternation first branches c = emitAlternation first' branches' c := by
  rw [emitAlternation, emitAlternation, ← hfirst]
  by_cases hf : (first c).error = .ok
  swap
  · simp only [ne_eq, hf, not_false_eq_true, if_true]
  simp only [ne_eq, hf, not_true, if_false]
  rcases (hm.answers hf (Steady.insert c.length)).cases with
    ⟨d, hd, -⟩ | ⟨split, d, hd, hok, hm'⟩
  · simp only [hd]
  simp only [hd]
  have hjump := (Steady.emit .reJmp).modifyFirst split fun n =>
    ({ · with op := .reSplit, x := c.length + 1, y := n })
  rcases (hm'.answers hok hjump).cases with ⟨e, he, -⟩ | ⟨jump, e, he, hok', -⟩
  · simp only [ReCompiler.setSplit, he]
  · simp only [ReCompiler.setSplit, he, h hf e split jump hok']

end FaultFirst

mutual

theorem Term.emit_alike : (t : Term) → ∀ {c : ReCompiler}, FaultFirst t.events → c.error = .ok →
    t.emit true c = t.emit false c
  | .char _ _, c, _, _ => by rw [Term.emit, Term.emit]
  | .any, c, _, _ => by rw [Term.emit, Term.emit]
  | .bracket _, c, _, _ => by rw [Term.emit, Term.emit]
  | .group body, c, h, hc => by
    rw [Term.events] at h
    rw [Term.emit, Term.emit, emitGroup, emitGroup]
    rcases (Steady.openGroup.answers (x := true) hc).cases with ⟨d, hd, -⟩ | ⟨_, d, hd, hok, -⟩
    · simp only [hd]
    · simp only [hd, body.emit_alike h hok]

theorem Branch.emit_alike : (s : Branch) → ∀ {c : ReCompiler}, FaultFirst s.events →
    c.error = .ok → s.emit true c = s.emit false c
  | .nil, c, _, _ => by rw [Branch.emit, Branch.emit]
  | .cons term suffix s, c, h, hc => by
    rw [Branch.events] at h
    have hterm := term.emit_alike h.left hc
    have hanswers := emitPiece_answers (term.answers (x := true) hc)
      (fun d hd => suffix.answers hd c.length) suffix.proper
    have hpiece : emitPiece (term.emit true) (suffix.emit true c.length ·) c =
        emitPiece (term.emit false) (suffix.emit false c.length ·) c := by
      refine emitPiece_congr hterm fun k d hd => ?_
      obtain ⟨hm, hiff⟩ := term.answers (x := true) hc
      rw [hd] at hm hiff
      have hok : d.error = .ok := not_not.mp (mt hiff.mpr (by simp))
      exact suffix.emit_alike (h.right hm hok).left c.length
    rw [Branch.emit, Branch.emit, ← hpiece]
    rcases hanswers.cases with ⟨d, hd, -⟩ | ⟨_, d, hd, hok, hm⟩
    · simp only [hd]
    · rw [← List.append_assoc] at h
      simp only [hd, s.emit_alike (h.right hm hok) hok]

theorem Tree.emit_alike : (t : Tree) → ∀ {c : ReCompiler}, FaultFirst t.events → c.error = .ok →
    t.emit true c = t.emit false c
  | .last branch, c, h, hc => by
    rw [Tree.events] at h
    rw [Tree.emit, Tree.emit, branch.emit_alike h hc]
  | .more branch t, c, h, hc => by
    rw [Tree.events] at h
    rw [Tree.emit, Tree.emit]
    refine emitAlternation_congr (branch.meets (x := true) hc) (branch.emit_alike h.left hc)
      fun hok d lastSplit jump hd => ?_
    have hrest := h.right (branch.meets (x := true) hc) hok
    exact t.emitBranches_alike [jump] hrest hd lastSplit

theorem Tree.emitBranches_alike : (t : Tree) → ∀ {c : ReCompiler} (jumps : List ℕ),
    FaultFirst (t.branchEvents jumps.length) → c.error = .ok → ∀ lastSplit,
    t.emitBranches true c lastSplit jumps = t.emitBranches false c lastSplit jumps
  | .last branch, c, jumps, h, hc, lastSplit => by
    rw [Tree.branchEvents] at h
    rw [Tree.emitBranches, Tree.emitBranches]
    exact emitBranch_congr hc (fun d hd => branch.emit_alike h.left hd) lastSplit jumps
  | .more branch t, c, jumps, h, hc, lastSplit => by
    rw [Tree.branchEvents, ← List.append_assoc] at h
    rw [Tree.emitBranches, Tree.emitBranches,
      ← emitBranch_congr hc (fun d hd => branch.emit_alike h.left.left hd) lastSplit jumps]
    rcases (emitBranch_answers (x := true) hc (fun d hd => branch.meets hd) branch.proper
      lastSplit jumps).cases with ⟨d, hd, -⟩ | ⟨⟨split, jumps'⟩, d, hd, hok, hm⟩
    · simp only [hd]
    · have hrest := h.right hm hok
      rw [← emitBranch_jumps hd] at hrest
      simp only [hd, t.emitBranches_alike jumps' hrest hok split]

end

/-- The compiler does the same in both syntaxes up to the first event, and stops there. -/
theorem Tree.agrees_of_faultFirst {t : Tree} (h : FaultFirst t.events) (cflags : UInt32)
    (heap : Heap) : t.Agrees cflags heap := by
  rw [Tree.agrees_iff, Tree.outcome, Tree.outcome]
  have hblank : ReCompiler.error (.blank heap) = .ok := rfl
  rcases ((Steady.emitSave 0).answers (x := true) hblank).cases with
    ⟨d, hd, -⟩ | ⟨_, d, hd, hok, -⟩
  · simp only [hd]
  · simp only [hd, t.emit_alike h hok]

/-! ## The status without a shortage of memory -/

/-- An event that is an error in the extended syntax. -/
def Event.faulty : Event → Bool
  | .interval b => !b.valid
  | .fault _ => true

theorem Steady.granted {α : Type} {op : ReCompiler → Option α × ReCompiler} {c : ReCompiler}
    (h : Steady op) (hg : ∀ n, c.heap.grants n = true) :
    ∃ a d, op c = (some a, d) ∧ d.error = c.error ∧ ∀ n, d.heap.grants n = true := by
  have hgrants := h.grants c
  rcases heq : op c with ⟨_ | a, d⟩
  · obtain ⟨-, n, hn⟩ := h.refused c d heq
    rw [hg n] at hn
    cases hn
  · rw [heq] at hgrants
    exact ⟨a, d, rfl, (h.done c d a heq).1, fun n => (congrFun hgrants n).trans (hg n)⟩

theorem Tree.outcome_code (t : Tree) {heap : Heap} (hg : ∀ n, heap.grants n = true) :
    (t.outcome x heap).1 = (firstError x t.events).getD .ok := by
  obtain ⟨_, c, hc, hok, hgc⟩ := (Steady.emitSave 0).granted (c := .blank heap) hg
  have hm := t.meets (x := x) hok
  have herror : (t.emit x c).error = (firstError x t.events).getD .ok := by
    rcases hm.error with he | ⟨-, n, hn⟩
    · exact he
    · rw [hgc n] at hn
      cases hn
  rw [Tree.outcome]
  simp only [hc]
  rw [← herror, emitEnd]
  by_cases he : (t.emit x c).error = .ok
  swap
  · rw [if_pos he]
  have hge : ∀ n, (t.emit x c).heap.grants n = true := fun n => (congrFun hm.grants n).trans (hgc n)
  obtain ⟨_, d, hd, -, hgd⟩ := (Steady.emitSave 1).granted hge
  obtain ⟨_, e, hmatch, -, -⟩ := (Steady.emit .reMatch).granted hgd
  rw [if_neg (not_not_intro he)]
  simp only [hd, hmatch, he]

section Errors

variable {es : List Event}

theorem firstError_false_cons (ev : Event) :
    firstError false (ev :: es) = some (match ev with
      | .interval _ => .regBadbr
      | .fault e => e) := by
  cases ev <;> rfl

theorem firstError_true :
    firstError true es = (es.find? Event.faulty).bind (Event.error true) := by
  induction es with
  | nil => rfl
  | cons ev es ih =>
    cases ev with
    | fault e => rfl
    | interval b =>
      cases hb : b.valid with
      | true => simpa [firstError, Event.error, Event.faulty, hb] using ih
      | false => simp [firstError, Event.error, Event.faulty, hb]

/-- An error of the extended syntax is `REG_BADBR` where it is that of an interval. -/
theorem firstError_eq_badbr_iff (hproper : ∀ ev ∈ es, ev.Proper) :
    firstError true es = some .regBadbr ↔ ∃ b, es.find? Event.faulty = some (.interval b) := by
  rw [firstError_true]
  cases hfind : es.find? Event.faulty with
  | none => simp
  | some ev =>
    cases ev with
    | fault e =>
      have he : e ≠ .ok ∧ e ≠ .regBadbr := hproper _ (List.mem_of_find?_eq_some hfind)
      simp [Event.error, he.2]
    | interval b =>
      have hb : Event.faulty (.interval b) = true := List.find?_some hfind
      rw [Event.faulty, Bool.not_eq_true'] at hb
      simp [Event.error, hb]

theorem firstError_alike_iff (hproper : ∀ ev ∈ es, ev.Proper) :
    firstError false es = firstError true es ↔
      FaultFirst es ∨ ∃ b, es.find? Event.faulty = some (.interval b) := by
  cases es with
  | nil => simp [firstError, FaultFirst]
  | cons ev es =>
    cases ev with
    | fault e => exact ⟨fun _ => .inl (by simp [FaultFirst]), fun _ => rfl⟩
    | interval b =>
      rw [firstError_false_cons, eq_comm, firstError_eq_badbr_iff hproper]
      refine ⟨.inr, ?_⟩
      rintro (hfirst | hfind)
      · have hb := hfirst b rfl
        exact ⟨b, by simp [Event.faulty, hb]⟩
      · exact hfind

theorem getD_firstError_inj (hproper : ∀ ev ∈ es, ev.Proper)
    (h : (firstError false es).getD .ok = (firstError true es).getD .ok) :
    firstError false es = firstError true es := by
  have hne : ∀ x, firstError x es ≠ some .ok := by
    intro x hx
    obtain ⟨ev, hev, herror⟩ := List.exists_of_findSome?_eq_some hx
    exact (hproper ev hev).error_ne herror
  cases hfalse : firstError false es with
  | none =>
    cases htrue : firstError true es with
    | none => rfl
    | some e =>
      rw [hfalse, htrue] at h
      exact absurd (htrue.trans (congrArg some h.symm)) (hne true)
  | some e =>
    cases htrue : firstError true es with
    | none =>
      rw [hfalse, htrue] at h
      exact absurd (hfalse.trans (congrArg some h)) (hne false)
    | some e' =>
      rw [hfalse, htrue] at h
      exact congrArg some h

end Errors

/-- With memory enough, the outcomes agree exactly where the first errors of the tree do. -/
theorem Tree.agrees_iff_of_grants (t : Tree) (cflags : UInt32) {heap : Heap}
    (hg : ∀ n, heap.grants n = true) : t.Agrees cflags heap ↔
      FaultFirst t.events ∨ ∃ b, t.events.find? Event.faulty = some (.interval b) := by
  rw [← firstError_alike_iff t.proper]
  constructor
  · intro h
    have hcode := congrArg Prod.fst ((t.agrees_iff cflags heap).mp h)
    rw [t.outcome_code hg, t.outcome_code hg] at hcode
    exact getD_firstError_inj t.proper hcode
  · intro h
    rcases (firstError_alike_iff t.proper).mp h with hfirst | hfind
    · exact Tree.agrees_of_faultFirst hfirst cflags heap
    · have htrue := (firstError_eq_badbr_iff t.proper).mpr hfind
      have hcode : ∀ x, (t.outcome x heap).1 = .regBadbr := by
        intro x
        rw [t.outcome_code hg]
        cases x with
        | true => rw [htrue]; rfl
        | false => rw [h, htrue]; rfl
      have hfail : ∀ x, t.outcome x heap = (.regBadbr, none, 0) := fun x =>
        Prod.ext (hcode x) (Tree.outcome_failed (by simp [hcode x]))
      exact (t.agrees_iff cflags heap).mpr ((hfail false).trans (hfail true).symm)

/--
The basic and the extended spelling of a tree are compiled alike where the first interval, if
any, is preceded by an error or is one. Otherwise the basic syntax rejects that interval, and
the extended one must meet an invalid interval before any other error.
-/
theorem spellings_agree_iff (t : Tree) (cflags : UInt32) (heap : Heap) :
    (FaultFirst t.events → t.Agrees cflags heap) ∧
      ((∀ n, heap.grants n = true) → (t.Agrees cflags heap ↔
        FaultFirst t.events ∨ ∃ b, t.events.find? Event.faulty = some (.interval b))) :=
  ⟨fun h => t.agrees_of_faultFirst h cflags heap, fun hg => t.agrees_iff_of_grants cflags hg⟩

/-- `([a-z]|7*)+` in the extended syntax. -/
def rangeOrDigits : Tree :=
  .last (.cons (.group (.more
    (.cons (.bracket (.ofItems [.range (byte 'a') (byte 'z')] (by simp) (by decide))) .one .nil)
    (.last (.cons (.char (byte '7') (by decide)) .star .nil)))) .plus .nil)

theorem rangeOrDigits_agrees :
    FaultFirst rangeOrDigits.events ∧ rangeOrDigits.Agrees 0 Heap.unlimited ∧
      (∀ n, Heap.unlimited.grants n = true) ∧ (rangeOrDigits.Agrees 0 Heap.unlimited ↔
        FaultFirst rangeOrDigits.events ∨
          ∃ b, rangeOrDigits.events.find? Event.faulty = some (.interval b)) := by
  have hlt : ¬ byte 'z' < byte 'a' := by decide
  have hevents : rangeOrDigits.events = [] := by
    simp [rangeOrDigits, Tree.events, Tree.branchEvents, Branch.events, Term.events,
      Suffix.events, Bracket.events, Bracket.ofItems, ClassItem.add, hlt, tooMany, bind,
      Except.bind, pure, Except.pure]
  have hfirst : FaultFirst rangeOrDigits.events := by simp [FaultFirst, hevents]
  obtain ⟨hagrees, hiff⟩ := spellings_agree_iff rangeOrDigits 0 Heap.unlimited
  exact ⟨hfirst, hagrees hfirst, fun _ => rfl, hiff fun _ => rfl⟩

/-- `a{2}` in the extended syntax, with both braces escaped in the basic one. -/
def doubledA : Tree :=
  .last (.cons (.char (byte 'a') (by decide))
    (.interval (.exactly ⟨[byte '2'], List.forall_mem_singleton.mpr (by decide), by simp⟩)) .nil)

example : (doubledA.pattern true).bytes = [byte 'a', byte '{', byte '2', byte '}'] ∧
    (doubledA.pattern false).bytes =
      [byte 'a', byte '\\', byte '{', byte '2', byte '\\', byte '}'] := ⟨rfl, rfl⟩

theorem doubledA_not_agrees : ¬ doubledA.Agrees 0 Heap.unlimited := by
  rw [doubledA.agrees_iff_of_grants 0 fun _ => rfl]
  rintro (hfirst | ⟨b, hfind⟩)
  · exact absurd (hfirst _ rfl) (by decide)
  · have hnone : doubledA.events.find? Event.faulty = none := rfl
    rw [hnone] at hfind
    cases hfind

end LampUserspace.Regex
