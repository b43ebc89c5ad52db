import LampUserspace.Regex.Regexec

/-! # The work of a search

A call of `re_run` that is not cut at once marks a cell of the generations
table, and makes two further calls at most. So the calls from one start are at
most twice the cells and one, whatever the pattern, and those of `regexec` are
bounded by a polynomial in the lengths of the program and of the text.
-/

namespace LampUserspace.Regex

variable {program : List ReInst} {s : Subject} {generation : UInt32}

/-- The calls of `re_run` that a call makes, itself included; its arguments are those of `reRun`. -/
def reRunCalls (program : List ReInst) (programLength : ℕ) (s : Subject) (generation : UInt32) :
    ℕ → Int → ℕ → List Int → (ℕ → UInt32) → ℕ
  | 0, _, _, _, _ => 0
  | depth + 1, pc, pos, captures, generations =>
    if pc < 0 ∨ pc ≥ programLength then 1
    else
      let state := pc.toNat * (s.length + 1) + pos
      if generations state = generation then 1
      else
        let generations := Function.update generations state generation
        let calls := reRunCalls program programLength s generation depth
        match program[pc.toNat]? with
        | none => 1
        | some inst =>
          match inst.op with
          | .reChar | .reAny | .reClass =>
            if reConsumes s inst pos then 1 + calls (pc + 1) (pos + 1) captures generations else 1
          | .reSplit =>
            1 + calls inst.x pos captures generations +
              match reRun program programLength s generation depth inst.x pos captures
                generations with
              | none => 0
              | some r => if r.result then 0 else calls inst.y pos r.captures r.generations
          | .reJmp => 1 + calls inst.x pos captures generations
          | .reSave => 1 + calls (pc + 1) pos (captures.set inst.x.toNat pos) generations
          | .reBol | .reEol | .reWordb | .reNotWordb =>
            if reAsserts s inst pos then 1 + calls (pc + 1) pos captures generations else 1
          | .reMatch => 1

/-- The calls of `re_run` in the loop of `regexec` over the start positions. -/
def reSearchCalls (program : List ReInst) (programLength captureCount : ℕ) (s : Subject) :
    ℕ → ℕ → UInt32 → (ℕ → UInt32) → ℕ
  | 0, _, _, _ => 0
  | n + 1, start, generation, generations =>
    let g := nextGeneration generation generations
    let captures := freshCaptures captureCount start
    let depth := runDepth programLength s
    reRunCalls program programLength s g.1 depth 0 start captures g.2 +
      match reRun program programLength s g.1 depth 0 start captures g.2 with
      | none => 0
      | some r =>
        if r.result then 0
        else reSearchCalls program programLength captureCount s n (start + 1) g.1 r.generations

/-- The calls of `re_run` in a call of `regexec` with both blocks, if the table fits. -/
def regexecCalls (preg : RegexT) (string : CString) (eflags : UInt32) (generations : ℕ → UInt32) :
    Option ℕ := do
  let program ← preg.reProgram
  let length ← programLength program
  let s : Subject := ⟨string, preg.reCflags, eflags⟩
  guard (TableFits length s)
  return reSearchCalls program length ((preg.reNsub + 1) * 2) s (string.strlen + 1) 0 0 generations

/-! ## The calls of one run -/

/-- The calls made by running the configurations of a list in order until one succeeds. -/
def runAllCalls (run : Int → ℕ → List Int → (ℕ → UInt32) → Option RunResult)
    (calls : Int → ℕ → List Int → (ℕ → UInt32) → ℕ) :
    List Conf → List Int → (ℕ → UInt32) → ℕ
  | [], _, _ => 0
  | c :: l, captures, generations =>
    calls c.pc c.pos captures generations +
      (run c.pc c.pos captures generations).elim 0 fun r =>
        if r.result then 0 else runAllCalls run calls l r.captures r.generations

theorem runAllCalls_single (run : Int → ℕ → List Int → (ℕ → UInt32) → Option RunResult)
    (calls : Int → ℕ → List Int → (ℕ → UInt32) → ℕ) (c : Conf) (captures : List Int)
    (generations : ℕ → UInt32) :
    runAllCalls run calls [c] captures generations = calls c.pc c.pos captures generations := by
  simp only [runAllCalls]
  cases run c.pc c.pos captures generations <;> simp

/-- At an unmarked cell a call makes, besides itself, those of the successors that it runs. -/
theorem reRunCalls_succ {c : Conf} (hc : c.Valid program s) (captures : List Int)
    {generations : ℕ → UInt32} (hm : generations (c.cell s) ≠ generation)
    (hn : ¬ AtMatch program c) (depth : ℕ) :
    reRunCalls program program.length s generation (depth + 1) c.pc c.pos captures generations =
      1 + runAllCalls (reRun program program.length s generation depth)
        (reRunCalls program program.length s generation depth) (next program s c)
        (saveAt program captures c) (Function.update generations (c.cell s) generation) := by
  obtain ⟨i, hf, hk, -⟩ := fetch_of_valid hc
  have hr : ¬ (c.pc < 0 ∨ c.pc ≥ program.length) := by have := hc.1; omega
  have hop : i.op ≠ .reMatch := fun h => hn ⟨i, hf, h⟩
  have hsave : saveAt program captures c =
      if i.op = .reSave then captures.set i.x.toNat c.pos else captures := by
    simp [saveAt, hf]
  unfold Conf.cell at hm
  rw [next_of_fetch hf, hsave]
  simp only [reRunCalls, if_neg hr, if_neg hm, hk]
  obtain ⟨op, ch, set, x, y⟩ := i
  cases op with
  | reChar | reAny | reClass | reBol | reEol | reWordb | reNotWordb =>
    simp only [ReInst.next]
    split
    · simp [runAllCalls_single, Conf.cell]
    · simp [runAllCalls]
  | reJmp | reSave => simp [ReInst.next, ReInst.targets, runAllCalls_single, Conf.cell]
  | reSplit =>
    simp only [ReInst.next, ReInst.targets, List.map_cons, List.map_nil, Conf.cell, reduceCtorEq,
      if_false]
    rw [runAllCalls, Nat.add_assoc]
    simp only [runAllCalls_single]
    rcases reRun program program.length s generation depth x c.pos captures _ with _ | r <;> rfl
  | reMatch => exact absurd rfl hop

/-- If every call is paid for by the cells that it marks, but for one, so are those of a list. -/
theorem runAllCalls_le (hp : InRange program) {depth : ℕ}
    (ih : ∀ {c : Conf} {captures : List Int} {generations : ℕ → UInt32} {r : RunResult},
      c.Valid program s → SavesFit program captures.length →
      unmarked program s generation generations < depth →
      reRun program program.length s generation depth c.pc c.pos captures generations = some r →
      reRunCalls program program.length s generation depth c.pc c.pos captures generations +
          2 * unmarked program s generation r.generations ≤
        2 * unmarked program s generation generations + 1)
    (l : List Conf) {captures : List Int} {generations : ℕ → UInt32} {r : RunResult}
    (hl : ∀ c ∈ l, c.Valid program s) (hs : SavesFit program captures.length)
    (hd : unmarked program s generation generations < depth)
    (h : runAll (reRun program program.length s generation depth) l captures generations =
      some r) :
    runAllCalls (reRun program program.length s generation depth)
        (reRunCalls program program.length s generation depth) l captures generations +
          2 * unmarked program s generation r.generations ≤
      2 * unmarked program s generation generations + l.length := by
  induction l generalizing captures generations with
  | nil =>
    obtain rfl := Option.some.inj h
    simp [runAllCalls]
  | cons c l ihl =>
    obtain ⟨hc, hl⟩ := List.forall_mem_cons.mp hl
    obtain ⟨r', hrun, href⟩ := reRun_refines hp depth c captures generations hc hs hd
    have hfirst := ih hc hs hd hrun
    rw [runAll, hrun, Option.bind_some] at h
    rw [runAllCalls, hrun, Option.elim_some, List.length_cons]
    by_cases hr : r'.result = true
    · rw [if_pos hr] at h ⊢
      obtain rfl := Option.some.inj h
      omega
    · rw [if_neg hr] at h ⊢
      have hcap := href.captures_of_not_result (by simpa using hr)
      have hrest := ihl hl (hcap ▸ hs) ((unmarked_mono href.mark_mono).trans_lt hd) h
      omega

/-- The calls that a run makes are paid for by the cells that it marks. -/
theorem reRunCalls_le (hp : InRange program) (depth : ℕ) {c : Conf} {captures : List Int}
    {generations : ℕ → UInt32} {r : RunResult} (hc : c.Valid program s)
    (hs : SavesFit program captures.length)
    (hd : unmarked program s generation generations < depth)
    (h : reRun program program.length s generation depth c.pc c.pos captures generations =
      some r) :
    reRunCalls program program.length s generation depth c.pc c.pos captures generations +
        2 * unmarked program s generation r.generations ≤
      2 * unmarked program s generation generations + 1 := by
  induction depth generalizing c captures generations r with
  | zero => exact absurd hd (Nat.not_lt_zero _)
  | succ depth ih =>
    have hrange : ¬ (c.pc < 0 ∨ c.pc ≥ program.length) := by have := hc.1; omega
    by_cases hm : generations (c.cell s) = generation
    · unfold Conf.cell at hm
      rw [reRun, if_neg hrange, if_pos hm] at h
      rw [reRunCalls, if_neg hrange, if_pos hm]
      obtain rfl := Option.some.inj h
      simp only
      omega
    -- this call marks its cell, which pays for two further calls
    have hlt := unmarked_update_lt hc hm
    by_cases hn : AtMatch program c
    · obtain ⟨i, hf, hop⟩ := hn
      have hk := (fetch_eq_some.mp hf).2
      unfold Conf.cell at hm hlt
      simp only [reRun, if_neg hrange, if_neg hm, hk, hop, Option.some.injEq] at h
      simp only [reRunCalls, if_neg hrange, if_neg hm, hk, hop, ← h]
      omega
    · rw [reRun_succ hc hs hm hn] at h
      obtain ⟨r', hr', rfl⟩ := Option.map_eq_some_iff.mp h
      have hall := runAllCalls_le hp ih _ (fun d hd => hp.valid_next hc hd) (by simpa using hs)
        (by omega) hr'
      have htwo := length_next_le program s c
      rw [reRunCalls_succ hc captures hm hn, restoreAt_generations]
      omega

/-! ## The calls of a search -/

/-- Each start costs at most twice the cells of the table and one. -/
theorem reSearchCalls_le (hp : InRange program) {captureCount n start : ℕ}
    (hs : SavesFit program captureCount) {generations : ℕ → UInt32} {r : RunResult}
    (hn : start + n ≤ s.length + 1)
    (h : reSearch program program.length captureCount s n start generation generations = some r) :
    reSearchCalls program program.length captureCount s n start generation generations ≤
      n * (2 * (program.length * (s.length + 1)) + 1) := by
  induction n generalizing start generation generations with
  | zero => exact Nat.zero_le _
  | succ n ih =>
    simp only [reSearch] at h
    rw [reSearchCalls]
    cases hr : reRun program program.length s (nextGeneration generation generations).1
      (runDepth program.length s) 0 start (freshCaptures captureCount start)
      (nextGeneration generation generations).2 with
    | none => simp [hr] at h
    | some r' =>
      simp only [hr] at h ⊢
      have hcells := @unmarked_le program s (nextGeneration generation generations).1
        (nextGeneration generation generations).2
      have hcalls : reRunCalls program program.length s
          (nextGeneration generation generations).1 (runDepth program.length s) 0 start
          (freshCaptures captureCount start) (nextGeneration generation generations).2 +
          2 * unmarked program s _ r'.generations ≤ 2 * unmarked program s _ _ + 1 :=
        reRunCalls_le hp _ (hp.valid_start (by omega)) (by rwa [length_freshCaptures])
          (Nat.lt_succ_of_le hcells) hr
      rw [Nat.succ_mul]
      split_ifs at h ⊢
      · omega
      · have := ih (by omega) h
        omega

/--
The calls of `re_run` in a call of `regexec` are at most quadratic in the length of the text, for
every compiled pattern whose slots index the captures, and linear in the length of its program.
-/
theorem regexec_calls_le {regex : CString} {cflags : UInt32} {heap heap' : Heap} {preg : RegexT}
    (h : regcomp regex cflags heap = some (.ok, preg, heap'))
    (hprogram : preg.reProgram = some program)
    (hs : SavesFit program ((preg.reNsub + 1) * 2)) (string : CString) (eflags : UInt32)
    (hfits : TableFits program.length ⟨string, cflags, eflags⟩) (table : ℕ → UInt32) :
    ∃ n, regexecCalls preg string eflags table = some n ∧
      n ≤ (string.strlen + 1) * (2 * (program.length * (string.strlen + 1)) + 1) := by
  obtain ⟨r, hr, -⟩ := reSearch_call h hprogram hs ⟨string, cflags, eflags⟩ table
  obtain ⟨tree, -, rfl⟩ := regcomp_accepted h
  obtain rfl : (genPattern tree).program = program := Option.some.inj hprogram
  refine ⟨_, ?_, reSearchCalls_le (s := ⟨string, cflags, eflags⟩) (inRange_genPattern tree) hs
    (Nat.zero_add _).le hr⟩
  simp only [regexecCalls, programLength_genPattern, Option.bind_eq_bind, Option.bind_some, guard,
    if_pos hfits, Option.pure_def]

/-- The pattern `a`, of four instructions, on the text `a`. -/
theorem litA_calls_le : ∃ n, regexecCalls ⟨some compiledA, 0, 0⟩ litA 0 (fun _ => 0) = some n ∧
    n ≤ 2 * (2 * (4 * 2) + 1) := by
  obtain ⟨heap', h⟩ := regcomp_litA
  exact regexec_calls_le h rfl (by decide) litA 0 (by decide) fun _ => 0

end LampUserspace.Regex
