import Mathlib.Data.Finset.Card
import Mathlib.Tactic.IntervalCases
import LampUserspace.Regex.Steps

/-! # The matcher is an ordered depth-first search

`re_run` with its generations table performs the search of the step relation
whose marked states are the cells that hold the current generation. The depth
of its recursion is bounded by the number of cells it has left to mark.
-/

namespace LampUserspace.Regex

variable {program : List ReInst} {s : Subject} {generation : UInt32}

/-! ## Cells and marks -/

def Conf.cell (s : Subject) (c : Conf) : ℕ := c.pc.toNat * (s.length + 1) + c.pos

/-- The configurations whose cell holds the current generation. -/
def marked (program : List ReInst) (s : Subject) (generation : UInt32)
    (generations : ℕ → UInt32) : Set Conf :=
  {c | c.Valid program s ∧ generations (c.cell s) = generation}

/-- The number of cells that `re_run` may still mark. -/
def unmarked (program : List ReInst) (s : Subject) (generation : UInt32)
    (generations : ℕ → UInt32) : ℕ :=
  ((Finset.range (program.length * (s.length + 1))).filter (generations · ≠ generation)).card

theorem Conf.cell_injOn {c d : Conf} (hc : c.Valid program s) (hd : d.Valid program s)
    (h : c.cell s = d.cell s) : c = d := by
  obtain ⟨⟨hc₀, -⟩, hcp⟩ := hc
  obtain ⟨⟨hd₀, -⟩, hdp⟩ := hd
  unfold Conf.cell at h
  have hm : c.pos = d.pos := by
    have := congrArg (· % (s.length + 1)) h
    simpa [Nat.add_mod, Nat.mod_eq_of_lt (Nat.lt_succ_of_le hcp),
      Nat.mod_eq_of_lt (Nat.lt_succ_of_le hdp)] using this
  have hq : c.pc.toNat = d.pc.toNat :=
    Nat.eq_of_mul_eq_mul_right (show 0 < s.length + 1 by omega) (by omega)
  obtain ⟨pc, pos⟩ := c
  obtain ⟨pc', pos'⟩ := d
  simp only [Conf.mk.injEq] at hm hq ⊢
  exact ⟨by simp only at hc₀ hd₀; omega, hm⟩

theorem Conf.cell_lt {c : Conf} (hc : c.Valid program s) :
    c.cell s < program.length * (s.length + 1) := by
  obtain ⟨⟨h₀, h₁⟩, hp⟩ := hc
  have hk : c.pc.toNat + 1 ≤ program.length := by omega
  calc c.cell s < (c.pc.toNat + 1) * (s.length + 1) := by
        rw [Conf.cell, Nat.add_mul]; omega
    _ ≤ program.length * (s.length + 1) := Nat.mul_le_mul_right _ hk

/-- Marking the cell of a configuration marks that configuration and no other. -/
theorem marked_update {c : Conf} (hc : c.Valid program s) (generations : ℕ → UInt32) :
    marked program s generation (Function.update generations (c.cell s) generation) =
      insert c (marked program s generation generations) := by
  ext d
  simp only [marked, Set.mem_ofPred_eq, Set.mem_insert_iff]
  constructor
  · rintro ⟨hd, h⟩
    by_cases he : d.cell s = c.cell s
    · exact .inl (Conf.cell_injOn hd hc he)
    · exact .inr ⟨hd, by rwa [Function.update_of_ne he] at h⟩
  · rintro (rfl | ⟨hd, h⟩)
    · exact ⟨hc, by simp⟩
    · refine ⟨hd, ?_⟩
      by_cases he : d.cell s = c.cell s
      · simp [he]
      · rwa [Function.update_of_ne he]

theorem unmarked_update_lt {c : Conf} (hc : c.Valid program s) {generations : ℕ → UInt32}
    (h : generations (c.cell s) ≠ generation) :
    unmarked program s generation (Function.update generations (c.cell s) generation) <
      unmarked program s generation generations := by
  apply Finset.card_lt_card
  refine ⟨fun k hk => ?_, fun hsub => ?_⟩
  · obtain ⟨hk, hne⟩ := Finset.mem_filter.mp hk
    refine Finset.mem_filter.mpr ⟨hk, ?_⟩
    by_cases he : k = c.cell s
    · rwa [he]
    · rwa [Function.update_of_ne he] at hne
  · have hmem := hsub (Finset.mem_filter.mpr ⟨Finset.mem_range.mpr (Conf.cell_lt hc), h⟩)
    simp at hmem

theorem unmarked_mono {g g' : ℕ → UInt32} (h : ∀ k, g k = generation → g' k = generation) :
    unmarked program s generation g' ≤ unmarked program s generation g := by
  apply Finset.card_le_card
  intro k hk
  obtain ⟨hk, hne⟩ := Finset.mem_filter.mp hk
  exact Finset.mem_filter.mpr ⟨hk, fun he => hne (h k he)⟩

theorem unmarked_le (generations : ℕ → UInt32) :
    unmarked program s generation generations ≤ program.length * (s.length + 1) :=
  (Finset.card_filter_le _ _).trans_eq (Finset.card_range _)

/-! ## Captures -/

/-- The effect on the captures of executing the instruction at `c`. -/
def saveAt (program : List ReInst) (captures : List Int) (c : Conf) : List Int :=
  match fetch program c.pc with
  | some i => if i.op = .reSave then captures.set i.x.toNat c.pos else captures
  | none => captures

def saveAll (program : List ReInst) (captures : List Int) (path : List Conf) : List Int :=
  path.foldl (saveAt program) captures

@[simp] theorem length_saveAt (captures : List Int) (c : Conf) :
    (saveAt program captures c).length = captures.length := by
  unfold saveAt
  split
  · split <;> simp
  · rfl

theorem length_saveAll (captures : List Int) (path : List Conf) :
    (saveAll program captures path).length = captures.length := by
  induction path generalizing captures with
  | nil => rfl
  | cons c path ih => exact (ih (saveAt program captures c)).trans (length_saveAt captures c)

/-! ## One level of the recursion -/

/-- Run the configurations of a list in order until one succeeds. -/
def runAll (run : Int → ℕ → List Int → (ℕ → UInt32) → Option RunResult) :
    List Conf → List Int → (ℕ → UInt32) → Option RunResult
  | [], captures, generations => some ⟨false, captures, generations⟩
  | c :: l, captures, generations =>
    (run c.pc c.pos captures generations).bind fun r =>
      if r.result then some r else runAll run l r.captures r.generations

/-- Undo the write of the instruction at `c` when the run after it has failed. -/
def restoreAt (program : List ReInst) (captures : List Int) (c : Conf) (r : RunResult) :
    RunResult :=
  match fetch program c.pc with
  | some i =>
    if i.op = .reSave ∧ !r.result then
      { r with captures := r.captures.set i.x.toNat (captures.getD i.x.toNat 0) }
    else r
  | none => r

theorem runAll_single {run : Int → ℕ → List Int → (ℕ → UInt32) → Option RunResult} (c : Conf)
    (captures : List Int) (generations : ℕ → UInt32) :
    runAll run [c] captures generations = run c.pc c.pos captures generations := by
  unfold runAll
  rcases run c.pc c.pos captures generations with _ | ⟨_ | _, _, _⟩ <;> rfl

theorem runAll_pair {run : Int → ℕ → List Int → (ℕ → UInt32) → Option RunResult} (c d : Conf)
    (captures : List Int) (generations : ℕ → UInt32) :
    runAll run [c, d] captures generations =
      (run c.pc c.pos captures generations).bind fun r =>
        if r.result then some r else run d.pc d.pos r.captures r.generations := by
  simp only [← runAll_single d]
  rfl

/-- `re_run` at an unmarked cell marks it and runs the successors in order of preference. -/
theorem reRun_succ {c : Conf} (hc : c.Valid program s) {captures : List Int}
    (hs : SavesFit program captures.length) {generations : ℕ → UInt32}
    (hm : generations (c.cell s) ≠ generation) (hn : ¬ AtMatch program c) (depth : ℕ) :
    reRun program program.length s generation (depth + 1) c.pc c.pos captures generations =
      (runAll (reRun program program.length s generation depth) (next program s c)
        (saveAt program captures c)
        (Function.update generations (c.cell s) generation)).map
          (restoreAt program captures c) := by
  obtain ⟨i, hf, hk, hi⟩ := fetch_of_valid hc
  have hr : ¬ (c.pc < 0 ∨ c.pc ≥ program.length) := by have := hc.1; omega
  have hop : i.op ≠ .reMatch := fun h => hn ⟨i, hf, h⟩
  have hrest : restoreAt program captures c = fun r =>
      if i.op = .reSave ∧ !r.result then
        { r with captures := r.captures.set i.x.toNat (captures.getD i.x.toNat 0) }
      else r := by
    funext r; simp [restoreAt, hf]
  have hsave : saveAt program captures c =
      if i.op = .reSave then captures.set i.x.toNat c.pos else captures := by
    simp [saveAt, hf]
  unfold Conf.cell at hm
  rw [next_of_fetch hf, hrest, hsave]
  simp only [reRun, if_neg hr, if_neg hm, hk]
  obtain ⟨op, ch, set, x, y⟩ := i
  cases op with
  | reChar | reAny | reClass | reBol | reEol | reWordb | reNotWordb =>
    simp only [ReInst.next]
    split
    · simp [runAll_single, Conf.cell]
    · simp [runAll, Conf.cell]
  | reJmp => simp [ReInst.next, ReInst.targets, runAll_single, Conf.cell]
  | reSplit =>
    simp only [ReInst.next, ReInst.targets, List.map_cons, List.map_nil, runAll_pair, Conf.cell,
      reduceCtorEq, if_false, false_and, Option.map_id']
    rcases reRun program program.length s generation depth x c.pos captures _ with _ | r <;> rfl
  | reSave =>
    obtain ⟨h₀, h₁⟩ := hs _ hi rfl
    have hx : x.toNat < captures.length := by simp only at h₀ h₁; omega
    simp only [ReInst.next, runAll_single, Conf.cell, if_neg (not_lt.mpr h₀),
      List.getElem?_eq_getElem hx, List.getD_eq_getElem?_getD, Option.getD_some, true_and, if_true]
    rcases reRun program program.length s generation depth (c.pc + 1) c.pos _ _ with
      _ | ⟨_ | _, _, _⟩ <;> rfl
  | reMatch => exact absurd rfl hop

/-! ## Refinement -/

/-- What `re_run` and `runAll` leave behind, in terms of the search they carry out. -/
structure Refines (program : List ReInst) (s : Subject) (generation : UInt32) (l : List Conf)
    (captures : List Int) (generations : ℕ → UInt32) (r : RunResult) : Prop where
  scan : ∃ path, Search.Scan (next program s) (AtMatch program)
      (marked program s generation generations) l path
      (marked program s generation r.generations) ∧
    r.result = path.isSome ∧ r.captures = saveAll program captures (path.getD [])
  keeps : ∀ k, r.generations k = generations k ∨ r.generations k = generation

namespace Refines

variable {l : List Conf} {c : Conf} {captures : List Int} {generations : ℕ → UInt32}
  {r r' : RunResult}

theorem mark_mono (h : Refines program s generation l captures generations r) (k : ℕ)
    (hk : generations k = generation) : r.generations k = generation := by
  rcases h.keeps k with he | he
  · rw [he, hk]
  · exact he

theorem captures_of_not_result (h : Refines program s generation l captures generations r)
    (hr : r.result = false) : r.captures = captures := by
  obtain ⟨path, -, hres, hcap⟩ := h.scan
  obtain rfl : path = none := by simpa [hr] using hres
  exact hcap

theorem nil (captures : List Int) (generations : ℕ → UInt32) :
    Refines program s generation [] captures generations ⟨false, captures, generations⟩ :=
  ⟨⟨none, .nil, rfl, rfl⟩, fun _ => .inl rfl⟩

theorem cons_of_result (h : Refines program s generation [c] captures generations r)
    (hr : r.result = true) : Refines program s generation (c :: l) captures generations r := by
  obtain ⟨path, hs, hres, hcap⟩ := h.scan
  obtain ⟨p, rfl⟩ : ∃ p, path = some p := Option.isSome_iff_exists.mp (by rw [← hres, hr])
  exact ⟨⟨some p, hs.cons_of_some, hres, hcap⟩, h.keeps⟩

theorem cons_of_not_result (h : Refines program s generation [c] captures generations r)
    (hr : r.result = false)
    (h' : Refines program s generation l r.captures r.generations r') :
    Refines program s generation (c :: l) captures generations r' := by
  rw [h.captures_of_not_result hr] at h'
  obtain ⟨path, hs, hres, -⟩ := h.scan
  obtain rfl : path = none := by simpa [hr] using hres
  obtain ⟨path', hs', hres', hcap'⟩ := h'.scan
  refine ⟨⟨path', hs.cons_of_none hs', hres', hcap'⟩, fun k => ?_⟩
  rcases h'.keeps k with he | he
  · rw [he]; exact h.keeps k
  · exact .inr he

end Refines

theorem restoreAt_captures {c : Conf} (hc : c.Valid program s) {captures : List Int}
    (hs : SavesFit program captures.length) {r : RunResult} (hr : r.result = false)
    (hcap : r.captures = saveAt program captures c) :
    (restoreAt program captures c r).captures = captures := by
  obtain ⟨i, hf, -, hi⟩ := fetch_of_valid hc
  simp only [restoreAt, saveAt, hf] at hcap ⊢
  by_cases hop : i.op = .reSave
  · obtain ⟨h₀, h₁⟩ := hs i hi hop
    have hx : i.x.toNat < captures.length := by omega
    simp [hop, hr, hcap, hx]
  · simpa [hop] using hcap

@[simp] theorem restoreAt_result (captures : List Int) (c : Conf) (r : RunResult) :
    (restoreAt program captures c r).result = r.result := by
  unfold restoreAt
  split
  · split <;> rfl
  · rfl

@[simp] theorem restoreAt_generations (captures : List Int) (c : Conf) (r : RunResult) :
    (restoreAt program captures c r).generations = r.generations := by
  unfold restoreAt
  split
  · split <;> rfl
  · rfl

theorem restoreAt_of_result (captures : List Int) (c : Conf) {r : RunResult}
    (hr : r.result = true) : restoreAt program captures c r = r := by
  unfold restoreAt
  split <;> simp [hr]

/-- The visit of an unmarked configuration, from the run of its successors. -/
theorem Refines.visit {c : Conf} (hc : c.Valid program s) {captures : List Int}
    (hs : SavesFit program captures.length) {generations : ℕ → UInt32} {r : RunResult}
    (hm : generations (c.cell s) ≠ generation) (hn : ¬ AtMatch program c)
    (h : Refines program s generation (next program s c) (saveAt program captures c)
      (Function.update generations (c.cell s) generation) r) :
    Refines program s generation [c] captures generations (restoreAt program captures c r) := by
  have hM : c ∉ marked program s generation generations := fun h => hm h.2
  refine ⟨?_, fun k => ?_⟩
  · obtain ⟨path, hscan, hres, hcap⟩ := h.scan
    rw [marked_update hc] at hscan
    cases path with
    | none =>
      refine ⟨none, ?_, by simpa using hres, restoreAt_captures hc hs hres hcap⟩
      simpa using Search.Scan.fails hM hn hscan .nil
    | some p =>
      refine ⟨some (c :: p), ?_, by simpa using hres, ?_⟩
      · simpa using Search.Scan.found hM hn hscan
      · rw [restoreAt_of_result captures c hres, hcap]
        rfl
  · rw [restoreAt_generations]
    rcases h.keeps k with he | he
    · by_cases hk : k = c.cell s
      · subst hk; exact .inr (by simpa using he)
      · exact .inl (by rw [he, Function.update_of_ne hk])
    · exact .inr he

theorem runAll_refines {depth : ℕ}
    (ih : ∀ (c : Conf) (captures : List Int) (generations : ℕ → UInt32), c.Valid program s →
      SavesFit program captures.length → unmarked program s generation generations < depth →
      ∃ r, reRun program program.length s generation depth c.pc c.pos captures generations =
        some r ∧ Refines program s generation [c] captures generations r)
    (l : List Conf) (captures : List Int) (generations : ℕ → UInt32)
    (hl : ∀ c ∈ l, c.Valid program s) (hs : SavesFit program captures.length)
    (hd : unmarked program s generation generations < depth) :
    ∃ r, runAll (reRun program program.length s generation depth) l captures generations =
      some r ∧ Refines program s generation l captures generations r := by
  induction l generalizing captures generations with
  | nil => exact ⟨_, rfl, .nil captures generations⟩
  | cons c l ihl =>
    obtain ⟨hc, hl⟩ := List.forall_mem_cons.mp hl
    obtain ⟨r, hrun, href⟩ := ih c captures generations hc hs hd
    by_cases hr : r.result = true
    · exact ⟨r, by simp [runAll, hrun, hr], href.cons_of_result hr⟩
    · have hr : r.result = false := by simpa using hr
      have hcap := href.captures_of_not_result hr
      obtain ⟨r', hrun', href'⟩ := ihl r.captures r.generations hl (hcap ▸ hs)
        ((unmarked_mono href.mark_mono).trans_lt hd)
      exact ⟨r', by simp [runAll, hrun, hr, hrun'], href.cons_of_not_result hr href'⟩

/-- With room for its recursion, `re_run` returns and carries out the search. -/
theorem reRun_refines (hp : InRange program) (depth : ℕ) (c : Conf) (captures : List Int)
    (generations : ℕ → UInt32) (hc : c.Valid program s) (hs : SavesFit program captures.length)
    (hd : unmarked program s generation generations < depth) :
    ∃ r, reRun program program.length s generation depth c.pc c.pos captures generations =
      some r ∧ Refines program s generation [c] captures generations r := by
  induction depth generalizing c captures generations with
  | zero => exact absurd hd (Nat.not_lt_zero _)
  | succ depth ih =>
    have hr : ¬ (c.pc < 0 ∨ c.pc ≥ program.length) := by have := hc.1; omega
    by_cases hm : generations (c.cell s) = generation
    · refine ⟨⟨false, captures, generations⟩, ?_, ⟨none, .seen ⟨hc, hm⟩ .nil, rfl, rfl⟩,
        fun _ => .inl rfl⟩
      unfold Conf.cell at hm
      simp [reRun, hr, hm]
    · by_cases hn : AtMatch program c
      · obtain ⟨i, hf, hop⟩ := hn
        refine ⟨⟨true, captures, Function.update generations (c.cell s) generation⟩, ?_,
          ⟨some [c], ?_, rfl, ?_⟩, fun k => ?_⟩
        · have hk := (fetch_eq_some.mp hf).2
          unfold Conf.cell at hm ⊢
          simp [reRun, hr, hm, hk, hop]
        · rw [marked_update hc]
          exact .goal (fun h => hm h.2) ⟨i, hf, hop⟩
        · simp [saveAll, saveAt, hf, hop]
        · by_cases hk : k = c.cell s
          · subst hk; exact .inr (by simp)
          · exact .inl (Function.update_of_ne hk _ _)
      · obtain ⟨r, hrun, href⟩ := runAll_refines ih (next program s c)
          (saveAt program captures c) (Function.update generations (c.cell s) generation)
          (fun d hd => hp.valid_next hc hd) (by simpa using hs)
          (by have := unmarked_update_lt hc hm; omega)
        exact ⟨_, by rw [reRun_succ hc hs hm hn, hrun]; rfl, href.visit hc hs hm hn⟩

theorem reRun_depth (hp : InRange program) {depth depth' : ℕ} {c : Conf} {captures : List Int}
    {generations : ℕ → UInt32} (hc : c.Valid program s) (hs : SavesFit program captures.length)
    (hd : unmarked program s generation generations < depth) (hle : depth ≤ depth') :
    reRun program program.length s generation depth' c.pc c.pos captures generations =
      reRun program program.length s generation depth c.pc c.pos captures generations := by
  induction depth generalizing depth' c captures generations with
  | zero => exact absurd hd (Nat.not_lt_zero _)
  | succ depth ih =>
    obtain ⟨depth', rfl⟩ : ∃ d, depth' = d + 1 := ⟨depth' - 1, by omega⟩
    have hall : ∀ (l : List Conf) (captures : List Int) (generations : ℕ → UInt32),
        (∀ d ∈ l, d.Valid program s) → SavesFit program captures.length →
        unmarked program s generation generations < depth →
        runAll (reRun program program.length s generation depth') l captures generations =
          runAll (reRun program program.length s generation depth) l captures generations := by
      intro l
      induction l with
      | nil => exact fun _ _ _ _ _ => rfl
      | cons d l ihl =>
        intro captures generations hl hs hd
        obtain ⟨hdv, hl⟩ := List.forall_mem_cons.mp hl
        obtain ⟨r, hrun, href⟩ := reRun_refines hp depth d captures generations hdv hs hd
        rw [runAll, runAll, ih hdv hs hd (by omega), hrun, Option.bind_some, Option.bind_some]
        by_cases hr : r.result = true
        · rw [if_pos hr, if_pos hr]
        · have hcap := href.captures_of_not_result (by simpa using hr)
          rw [if_neg hr, if_neg hr]
          exact ihl _ _ hl (hcap ▸ hs) ((unmarked_mono href.mark_mono).trans_lt hd)
    by_cases hm : generations (c.cell s) = generation
    · unfold Conf.cell at hm
      simp [reRun, hm]
    · by_cases hn : AtMatch program c
      · obtain ⟨i, hf, hop⟩ := hn
        simp [reRun, (fetch_eq_some.mp hf).2, hop]
      · rw [reRun_succ hc hs hm hn, reRun_succ hc hs hm hn,
          hall _ _ _ (fun d hd => hp.valid_next hc hd) (by simpa using hs)
            (by have := unmarked_update_lt hc hm; omega)]

/-- `re_run` from the first instruction, on a table with some cells already marked. -/
theorem reRun_start (hp : InRange program) {captures : List Int}
    (hs : SavesFit program captures.length) {start : ℕ} (hstart : start ≤ s.length)
    (generations : ℕ → UInt32) :
    ∃ r, (∀ depth ≥ runDepth program.length s,
        reRun program program.length s generation depth 0 start captures generations = some r) ∧
      Refines program s generation [⟨0, start⟩] captures generations r := by
  have hc := hp.valid_start hstart
  have hd : unmarked program s generation generations < runDepth program.length s :=
    Nat.lt_succ_of_le (unmarked_le generations)
  obtain ⟨r, hrun, href⟩ := reRun_refines hp _ _ captures generations hc hs hd
  exact ⟨r, fun depth hle => (reRun_depth hp hc hs hd hle).trans hrun, href⟩

/-- On success the captures hold the writes of the first path around the marked cells. -/
theorem Refines.firstPath {c : Conf} {captures : List Int} {generations : ℕ → UInt32}
    {r : RunResult} (h : Refines program s generation [c] captures generations r)
    (hr : r.result = true) :
    ∃ p, Search.FirstPath (next program s) (AtMatch program)
        (marked program s generation generations) c p ∧
      r.captures = saveAll program captures p := by
  obtain ⟨path, hscan, hres, hcap⟩ := h.scan
  obtain ⟨p, rfl⟩ : ∃ p, path = some p := Option.isSome_iff_exists.mp (by rw [← hres, hr])
  exact ⟨p, hscan.firstPath, hcap⟩

theorem Refines.result_iff {c : Conf} {captures : List Int} {generations : ℕ → UInt32}
    {r : RunResult} (h : Refines program s generation [c] captures generations r) :
    r.result = true ↔ Search.Reaches (next program s) (AtMatch program)
      (marked program s generation generations) c := by
  obtain ⟨path, hscan, hres, -⟩ := h.scan
  rw [hres, hscan.isSome_iff]

/--
On a table without the current generation `re_run` returns, decides whether `RE_MATCH` is
reachable, and records the captures of the first simple path to it; if it fails it leaves the
captures untouched.
-/
theorem reRun_decides (program : List ReInst) (s : Subject) (generation : UInt32)
    (captures : List Int) (generations : ℕ → UInt32) (start : ℕ) (hp : InRange program)
    (hs : SavesFit program captures.length) (hstart : start ≤ s.length)
    (hg : ∀ k < program.length * (s.length + 1), generations k ≠ generation) :
    ∃ r, (∀ depth ≥ runDepth program.length s,
        reRun program program.length s generation depth 0 start captures generations = some r) ∧
      (r.result = true ↔ Accepts program s start) ∧
      (r.result = true → ∃ p,
        Search.FirstPath (next program s) (AtMatch program) ∅ ⟨0, start⟩ p ∧
          r.captures = saveAll program captures p) ∧
      (r.result = false → r.captures = captures) := by
  have hM : marked program s generation generations = ∅ :=
    Set.eq_empty_of_forall_notMem fun c hc => hg _ (Conf.cell_lt hc.1) hc.2
  obtain ⟨r, hrun, href⟩ := reRun_start hp hs hstart generations
  refine ⟨r, hrun, ?_, fun hr => ?_, href.captures_of_not_result⟩
  · rw [href.result_iff, hM, Search.reaches_empty_iff, Accepts]
  · rw [← hM]
    exact href.firstPath hr

def cyclicProgram : List ReInst :=
  [{ op := .reSplit, x := 1, y := 2 }, { op := .reJmp, x := 0 }, { op := .reSave, x := 0 },
   { op := .reMatch }]

theorem cyclicProgram_inRange : InRange cyclicProgram := by
  refine ⟨by decide, fun k i hk hf => ?_, ⟨_, rfl, rfl⟩⟩
  have hlt : k < 4 := (List.getElem?_eq_some_iff.mp hk).1
  interval_cases k
  iterate 3 decide
  obtain rfl : _ = i := Option.some.inj hk
  cases hf

theorem reRun_decides_cyclicProgram :
    ∃ r, (∀ depth ≥ runDepth 4 ⟨⟨[], by decide⟩, 0, 0⟩,
        reRun cyclicProgram 4 ⟨⟨[], by decide⟩, 0, 0⟩ 1 depth 0 0 [-1] (fun _ => 0) = some r) ∧
      (r.result = true ↔ Accepts cyclicProgram ⟨⟨[], by decide⟩, 0, 0⟩ 0) ∧
      (r.result = true → ∃ p,
        Search.FirstPath (next cyclicProgram ⟨⟨[], by decide⟩, 0, 0⟩) (AtMatch cyclicProgram) ∅
            ⟨0, 0⟩ p ∧
          r.captures = saveAll cyclicProgram [-1] p) ∧
      (r.result = false → r.captures = [-1]) :=
  reRun_decides cyclicProgram ⟨⟨[], by decide⟩, 0, 0⟩ 1 [-1] (fun _ => 0) 0
    cyclicProgram_inRange (by decide) le_rfl (fun _ _ => by decide)

end LampUserspace.Regex
