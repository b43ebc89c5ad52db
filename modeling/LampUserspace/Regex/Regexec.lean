import LampUserspace.Regex.Matcher
import LampUserspace.Regex.Regcomp

/-! # The search over the start positions

`regexec` runs the matcher from each start position with one table, stamped
with a new generation each time and cleared only when the generations wrap.
What the block held before the call can therefore hide the first match, and it
does so exactly when it marks every way to `RE_MATCH` from that start.
-/

namespace LampUserspace.Regex

variable {program : List ReInst} {s : Subject}

/-! ## The start of the match -/

/-- Only the first instruction saves to slot zero, and no branch leads back to it. -/
structure FirstSlot (program : List ReInst) : Prop where
  targets : ∀ i ∈ program, ∀ t ∈ i.targets, 1 ≤ t
  slots : ∀ (k : ℕ) (i : ReInst), program[k + 1]? = some i → i.op = .reSave → 1 ≤ i.x

theorem firstSlot_genPattern (tree : Alternation) : FirstSlot (genPattern tree).program := by
  constructor
  · intro i hi t ht
    rw [genPattern_program] at hi
    simp only [List.mem_append, List.mem_singleton] at hi
    rcases hi with (hi | rfl) | rfl
    · exact (targets_genBody tree hi t ht).1
    · simp [ReInst.targets] at ht
    · simp [ReInst.targets] at ht
  · intro k i hk hop
    have hbody : (genBody tree)[k + 1]? = some i → 1 ≤ i.x := by
      intro hk
      apply (extends_genBody tree).slots i _ hop
      rw [List.mem_iff_getElem?]
      exact ⟨k, by rwa [List.getElem?_drop, List.length_singleton, Nat.add_comm]⟩
    rw [genPattern_program, List.append_assoc] at hk
    rcases Nat.lt_or_ge (k + 1) (genBody tree).length with hlt | hge
    · rw [List.getElem?_append_left hlt] at hk
      exact hbody hk
    · rw [List.getElem?_append_right hge] at hk
      rcases List.mem_cons.mp (List.mem_of_getElem? hk) with rfl | hi
      · exact le_rfl
      · obtain rfl := List.mem_singleton.mp hi
        cases hop

/-- A configuration of a run from `start` that is past the first instruction, or still at it. -/
def FromStart (start : ℕ) (c : Conf) : Prop := 1 ≤ c.pc ∨ c.pc = 0 ∧ c.pos = start

theorem FirstSlot.fromStart_next (h : FirstSlot program) (start : ℕ) {c d : Conf}
    (hd : d ∈ next program s c) : FromStart start d := by
  unfold next at hd
  cases hf : fetch program c.pc with
  | none => simp [hf] at hd
  | some i =>
    have hpc : 0 ≤ c.pc := (fetch_eq_some.mp hf).1
    simp only [hf] at hd
    left
    rcases ReInst.mem_next hd with ⟨ht, -⟩ | ⟨-, hpc', -⟩ | ⟨-, hpc', -⟩
    · exact h.targets i (List.mem_of_getElem? (fetch_eq_some.mp hf).2) _ ht
    · omega
    · omega

theorem FirstSlot.saveAt_zero (h : FirstSlot program) {start : ℕ} {c : Conf}
    (hc : FromStart start c) {captures : List Int} (h0 : captures[0]? = some (start : Int)) :
    (saveAt program captures c)[0]? = some (start : Int) := by
  unfold saveAt
  cases hf : fetch program c.pc with
  | none => exact h0
  | some i =>
    simp only
    split
    · rename_i hop
      have hlt : 0 < captures.length := (List.getElem?_eq_some_iff.mp h0).1
      by_cases hx : i.x.toNat = 0
      · rcases hc with hc | ⟨-, hpos⟩
        · obtain ⟨-, hi⟩ := fetch_eq_some.mp hf
          obtain ⟨k, hk⟩ : ∃ k, c.pc.toNat = k + 1 := ⟨c.pc.toNat - 1, by omega⟩
          have := h.slots k i (hk ▸ hi) hop
          omega
        · simp [hx, hlt, hpos]
      · rwa [List.getElem?_set_ne hx]
    · exact h0

theorem FirstSlot.saveAll_zero (h : FirstSlot program) {start : ℕ} {c : Conf} {p : List Conf}
    (hp : Search.GoalPath (next program s) (AtMatch program) c p) (hc : FromStart start c)
    {captures : List Int} (h0 : captures[0]? = some (start : Int)) :
    (saveAll program captures p)[0]? = some (start : Int) := by
  induction hp generalizing captures with
  | goal _ => exact h.saveAt_zero hc h0
  | step _ hd _ ih => exact ih (h.fromStart_next start hd) (h.saveAt_zero hc h0)

/-! ## The table from one start to the next -/

theorem toNat_add_one {g : UInt32} (h : g + 1 ≠ 0) : (g + 1).toNat = g.toNat + 1 := by
  have hlt := g.toNat_lt
  have hne : g.toNat + 1 ≠ 2 ^ 32 := by
    intro he
    apply h
    apply UInt32.toNat_inj.mp
    simp [UInt32.toNat_add, he]
  simp only [UInt32.toNat_add, UInt32.toNat_one]
  omega

theorem toNat_add_one_of_eq {g : UInt32} (h : g + 1 = 0) : g.toNat + 1 = 2 ^ 32 := by
  have hlt := g.toNat_lt
  have := congrArg UInt32.toNat h
  simp only [UInt32.toNat_add, UInt32.toNat_one, UInt32.toNat_zero] at this
  omega

/--
The table as the loop comes to `start`: before the generations wrap it differs from the given
one only at dead configurations, and after that it holds nothing but used generations.
-/
def TableAt (program : List ReInst) (s : Subject) (table : ℕ → UInt32) (start : ℕ)
    (generation : UInt32) (generations : ℕ → UInt32) : Prop :=
  (start = generation.toNat ∧ ∀ c : Conf, c.Valid program s →
    generations (c.cell s) = table (c.cell s) ∨
      Search.Dead (next program s) (AtMatch program) c) ∨
  2 ^ 32 ≤ start + 1 ∧ ∀ k, (generations k).toNat ≤ generation.toNat

/-- The configurations that the given table marks for a start position. -/
def staleAt (program : List ReInst) (s : Subject) (table : ℕ → UInt32) (start : ℕ) : Set Conf :=
  {c | start + 1 < 2 ^ 32 ∧ c ∈ marked program s (UInt32.ofNat (start + 1)) table}

section Table

variable {table generations : ℕ → UInt32} {generation : UInt32} {start : ℕ}

theorem ofNat_of_toNat {g : UInt32} (h : start = g.toNat) (hg : g + 1 ≠ 0) :
    start + 1 < 2 ^ 32 ∧ UInt32.ofNat (start + 1) = g + 1 := by
  have hlt := (g + 1).toNat_lt
  have hs := toNat_add_one hg
  constructor
  · omega
  · apply UInt32.toNat_inj.mp
    rw [UInt32.toNat_ofNat', hs, h]
    omega

/-- What is marked for the run from `start` is what the given table marks, and dead states. -/
theorem TableAt.marks (h : TableAt program s table start generation generations) (c : Conf) :
    (c ∈ staleAt program s table start → c ∈ marked program s
        (nextGeneration generation generations).1 (nextGeneration generation generations).2 ∨
      Search.Dead (next program s) (AtMatch program) c) ∧
    (c ∈ marked program s (nextGeneration generation generations).1
        (nextGeneration generation generations).2 →
      c ∈ staleAt program s table start ∨ Search.Dead (next program s) (AtMatch program) c) := by
  by_cases hwrap : generation + 1 = 0
  · -- the table has just been cleared and the generation is one
    have hstart : ¬ start + 1 < 2 ^ 32 := by
      have := toNat_add_one_of_eq hwrap
      rcases h with ⟨he, -⟩ | ⟨he, -⟩ <;> omega
    simp only [nextGeneration, if_pos hwrap]
    constructor
    · exact fun hc => absurd hc.1 hstart
    · exact fun hc => absurd hc.2 (by simp)
  · simp only [nextGeneration, if_neg hwrap]
    rcases h with ⟨he, hkept⟩ | ⟨he, hused⟩
    · obtain ⟨hlt, hof⟩ := ofNat_of_toNat he hwrap
      constructor
      · rintro ⟨-, hv, hc⟩
        rcases hkept c hv with hk | hdead
        · left
          exact ⟨hv, by rw [hk, hc, hof]⟩
        · exact .inr hdead
      · rintro ⟨hv, hc⟩
        rcases hkept c hv with hk | hdead
        · left
          exact ⟨hlt, hv, by rw [← hk, hc, hof]⟩
        · exact .inr hdead
    · constructor
      · exact fun hc => absurd hc.1 (by omega)
      · rintro ⟨-, hc⟩
        have := hused (c.cell s)
        rw [hc, toNat_add_one hwrap] at this
        omega

/-- A run that could not succeed keeps the table as the loop needs it. -/
theorem TableAt.next (h : TableAt program s table start generation generations)
    {captures : List Int} {r : RunResult}
    (hr : Refines program s (nextGeneration generation generations).1 [⟨0, start⟩] captures
      (nextGeneration generation generations).2 r)
    (hn : ¬ Accepts program s start) :
    TableAt program s table (start + 1) (nextGeneration generation generations).1
      r.generations := by
  by_cases hwrap : generation + 1 = 0
  · have hmax := toNat_add_one_of_eq hwrap
    right
    simp only [nextGeneration, if_pos hwrap] at hr ⊢
    constructor
    · rcases h with ⟨he, -⟩ | ⟨he, -⟩ <;> omega
    · intro k
      rcases hr.keeps k with hk | hk <;> simp [hk]
  · have hsucc := toNat_add_one hwrap
    simp only [nextGeneration, if_neg hwrap] at hr ⊢
    rcases h with ⟨he, hkept⟩ | ⟨he, hused⟩
    · left
      refine ⟨by omega, fun c hv => ?_⟩
      rcases hr.keeps (c.cell s) with hk | hk
      · rw [hk]
        exact hkept c hv
      · -- a cell stamped by this run was stamped before or belongs to a state it has reached
        obtain ⟨path, hscan, -⟩ := hr.scan
        rcases hscan.reachable c ⟨hv, hk⟩ with hm | ⟨d, hd, hreach⟩
        · rw [hk, ← hm.2]
          exact hkept c hv
        · obtain rfl := List.mem_singleton.mp hd
          exact .inr (Search.Dead.of_reachable hn hreach)
    · right
      refine ⟨by omega, fun k => ?_⟩
      rcases hr.keeps k with hk | hk
      · have := hused k
        rw [hk]
        omega
      · rw [hk]

end Table

/-! ## The loop over the starts -/

/-- The run from `start` reaches `RE_MATCH` around what the given table marks. -/
def Found (program : List ReInst) (s : Subject) (table : ℕ → UInt32) (start : ℕ) : Prop :=
  Search.Reaches (next program s) (AtMatch program) (staleAt program s table start) ⟨0, start⟩

structure LeastStart (program : List ReInst) (s : Subject) (start : ℕ) : Prop where
  le : start ≤ s.length
  accepts : Accepts program s start
  least : ∀ t < start, ¬ Accepts program s t

/--
The outcome `r` of the loop is the match at `least`, with the captures of the first path around
what the given table marks, exactly when there is such a path.
-/
structure FindsFirst (program : List ReInst) (s : Subject) (captureCount : ℕ)
    (table : ℕ → UInt32) (least : ℕ) (r : RunResult) : Prop where
  found : Found program s table least ↔ r.result = true ∧ r.captures[0]? = some (least : Int)
  path : Found program s table least → ∃ p,
    Search.FirstPath (next program s) (AtMatch program) (staleAt program s table least)
      ⟨0, least⟩ p ∧ r.captures = saveAll program (freshCaptures captureCount least) p

section Loop

variable {captureCount n start : ℕ} {table generations : ℕ → UInt32} {generation : UInt32}

theorem freshCaptures_zero (h : 0 < captureCount) (start : ℕ) :
    (freshCaptures captureCount start)[0]? = some (start : Int) := by
  simp [freshCaptures, h]

theorem length_freshCaptures (captureCount start : ℕ) :
    (freshCaptures captureCount start).length = captureCount := by
  simp [freshCaptures]

theorem Accepts.of_reaches {B : Set Conf}
    (h : Search.Reaches (next program s) (AtMatch program) B ⟨0, start⟩) :
    Accepts program s start := by
  obtain ⟨p, hp, -⟩ := h
  exact hp.reachable

section Starts

variable (hp : InRange program) (hf : FirstSlot program) (hs : SavesFit program captureCount)
  (hcount : 0 < captureCount)

include hp hf hs hcount

theorem reRun_pass (hstart : start ≤ s.length) (generation : UInt32)
    (generations : ℕ → UInt32) :
    ∃ r, reRun program program.length s generation (runDepth program.length s) 0 start
        (freshCaptures captureCount start) generations = some r ∧
      Refines program s generation [⟨0, start⟩] (freshCaptures captureCount start) generations r ∧
      (r.result = true → Accepts program s start ∧ r.captures[0]? = some (start : Int)) := by
  have hs' : SavesFit program (freshCaptures captureCount start).length := by
    rwa [length_freshCaptures]
  obtain ⟨r, hrun, href⟩ := reRun_start hp hs' hstart generations
  refine ⟨r, hrun _ le_rfl, href, fun hr => ?_⟩
  constructor
  · exact .of_reaches (href.result_iff.mp hr)
  · obtain ⟨p, hfirst, hcap⟩ := href.firstPath hr
    rw [hcap]
    exact hf.saveAll_zero hfirst.path (.inr ⟨rfl, rfl⟩) (freshCaptures_zero hcount start)

/-- The loop returns, and what it finds is a match at one of the starts it tries. -/
theorem reSearch_returns (generation : UInt32) (generations : ℕ → UInt32)
    (hn : start + n ≤ s.length + 1) :
    ∃ r, reSearch program program.length captureCount s n start generation generations = some r ∧
      (r.result = true → ∃ t, start ≤ t ∧ t ≤ s.length ∧ Accepts program s t ∧
        r.captures[0]? = some (t : Int)) := by
  induction n generalizing start generation generations with
  | zero => exact ⟨_, rfl, nofun⟩
  | succ n ih =>
    have hstart : start ≤ s.length := by omega
    obtain ⟨r, hrun, -, hres⟩ := reRun_pass hp hf hs hcount hstart
      (nextGeneration generation generations).1 (nextGeneration generation generations).2
    simp only [reSearch, hrun]
    cases hr : r.result with
    | true => exact ⟨r, rfl, fun _ => ⟨start, le_rfl, by omega, hres hr⟩⟩
    | false =>
      have hn' : start + 1 + n ≤ s.length + 1 := by omega
      obtain ⟨r', hr', hres'⟩ := ih (nextGeneration generation generations).1 r.generations hn'
      refine ⟨r', hr', fun h => ?_⟩
      obtain ⟨t, ht, htl⟩ := hres' h
      exact ⟨t, by omega, htl⟩

/-- The loop finds the first match exactly when the given table leaves a way to it. -/
theorem reSearch_least {least : ℕ} (hleast : LeastStart program s least) {r : RunResult}
    (ht : TableAt program s table start generation generations)
    (hn : start + n = s.length + 1) (hle : start ≤ least)
    (hr : reSearch program program.length captureCount s n start generation generations =
      some r) :
    FindsFirst program s captureCount table least r := by
  induction n generalizing start generation generations with
  | zero => exact absurd hleast.le (by omega)
  | succ n ih =>
    have hstart : start ≤ s.length := by omega
    obtain ⟨r', hrun, href, hres⟩ := reRun_pass hp hf hs hcount hstart
      (nextGeneration generation generations).1 (nextGeneration generation generations).2
    simp only [reSearch, hrun] at hr
    rcases Nat.eq_or_lt_of_le hle with rfl | hlt
    · have hfound : Found program s table start ↔ r'.result = true := by
        rw [href.result_iff]
        constructor
        · exact fun h => h.of_dead fun c hc => (ht.marks c).2 hc
        · exact fun h => h.of_dead fun c hc => (ht.marks c).1 hc
      cases hr' : r'.result with
      | true =>
        rw [hr', if_pos rfl] at hr
        obtain rfl := Option.some.inj hr
        refine ⟨hfound.trans (iff_of_true hr' ⟨hr', (hres hr').2⟩), fun _ => ?_⟩
        obtain ⟨p, hp, hcaptures⟩ := href.firstPath hr'
        exact ⟨p, hp.of_dead (fun c hc => (ht.marks c).2 hc) fun c hc => (ht.marks c).1 hc,
          hcaptures⟩
      | false =>
        rw [hr', if_neg (by simp)] at hr
        have hnot : ¬ Found program s table start := by simp [hfound, hr']
        refine ⟨iff_of_false hnot ?_, fun h => absurd h hnot⟩
        rintro ⟨htrue, hcap⟩
        have hn' : start + 1 + n ≤ s.length + 1 := by omega
        obtain ⟨r'', hr'', hlater⟩ := reSearch_returns hp hf hs hcount
          (nextGeneration generation generations).1 r'.generations hn'
        obtain rfl : r = r'' := Option.some.inj (hr.symm.trans hr'')
        obtain ⟨t, ht', -, -, hcap'⟩ := hlater htrue
        have : (start : Int) = t := Option.some.inj (hcap.symm.trans hcap')
        omega
    · have hno := hleast.least start hlt
      have hfalse : r'.result = false := by
        by_contra h
        exact hno (hres (by simpa using h)).1
      rw [hfalse, if_neg (by simp)] at hr
      exact ih (ht.next href hno) (by omega) (by omega) hr

end Starts

end Loop

/-! ## The result of a call -/

/-- The table leaves a way to `RE_MATCH` from the first start that has one. -/
def Fresh (program : List ReInst) (s : Subject) (table : ℕ → UInt32) : Prop :=
  ∀ start, LeastStart program s start → start + 1 < 2 ^ 32 →
    Search.Reaches (next program s) (AtMatch program)
      (marked program s (UInt32.ofNat (start + 1)) table) ⟨0, start⟩

/-- How many of the first captures are copied to the caller's array. -/
def slotsAsked (cflags : UInt32) (nsub nmatch : ℕ) (pmatch : List RegMatch) : ℕ :=
  if hasFlag cflags regNosub then 0 else 2 * min (min nmatch (nsub + 1)) pmatch.length

/--
From the first start with a match, the first path around what the table marks exists and saves
the same in the first `asked` captures as the first path of all.
-/
def Undisturbed (program : List ReInst) (s : Subject) (captureCount asked : ℕ)
    (table : ℕ → UInt32) : Prop :=
  ∀ start, LeastStart program s start → ∃ p q,
    Search.FirstPath (next program s) (AtMatch program)
      (marked program s (UInt32.ofNat (start + 1)) table) ⟨0, start⟩ p ∧
    Search.FirstPath (next program s) (AtMatch program) ∅ ⟨0, start⟩ q ∧
    ∀ k < asked, (saveAll program (freshCaptures captureCount start) p)[k]? =
      (saveAll program (freshCaptures captureCount start) q)[k]?

/-- The caller asks for the offsets of the whole match. -/
structure Stored (cflags : UInt32) (nmatch : ℕ) (pmatch : List RegMatch) : Prop where
  sub : hasFlag cflags regNosub = false
  count : 0 < nmatch
  array : pmatch ≠ []

/-- The status tells whether there is a match, and `pmatch[0].rm_so` is its first start. -/
structure Correct (program : List ReInst) (s : Subject) (nmatch : ℕ) (pmatch : List RegMatch)
    (r : ExecResult) : Prop where
  status : r.status = .ok ↔ ∃ start ≤ s.length, Accepts program s start
  first : r.status = .ok → Stored s.cflags nmatch pmatch → ∃ start : ℕ,
    LeastStart program s start ∧ r.pmatch[0]?.map RegMatch.rmSo = some (start : Int)

/--
A call on a block that holds `table` returns what is right, and the status and the offsets that
it returns on a cleared block.
-/
def Repeatable (preg : RegexT) (program : List ReInst) (string : CString) (nmatch : ℕ)
    (pmatch : List RegMatch) (eflags : UInt32) (table : ℕ → UInt32) : Prop :=
  ∃ r r₀, regexec preg string nmatch pmatch eflags true (some table) = some r ∧
    regexec preg string nmatch pmatch eflags true (some fun _ => 0) = some r₀ ∧
    Correct program ⟨string, preg.reCflags, eflags⟩ nmatch pmatch r ∧
    r.status = r₀.status ∧ r.pmatch = r₀.pmatch

/-- What one call leaves in the block does not show in the result of the next. -/
theorem Repeatable.same_result {preg : RegexT} {string : CString} {nmatch : ℕ}
    {pmatch : List RegMatch} {eflags : UInt32} {table table' : ℕ → UInt32}
    (h : Repeatable preg program string nmatch pmatch eflags table)
    (h' : Repeatable preg program string nmatch pmatch eflags table') :
    ∃ r r', regexec preg string nmatch pmatch eflags true (some table) = some r ∧
      regexec preg string nmatch pmatch eflags true (some table') = some r' ∧
      r.status = r'.status ∧ r.pmatch = r'.pmatch := by
  obtain ⟨r, r₀, hr, hr₀, -, hstatus, hpmatch⟩ := h
  obtain ⟨r', r₀', hr', hr₀', -, hstatus', hpmatch'⟩ := h'
  obtain rfl : r₀ = r₀' := Option.some.inj (hr₀.symm.trans hr₀')
  exact ⟨r, r', hr, hr', hstatus.trans hstatus'.symm, hpmatch.trans hpmatch'.symm⟩

theorem LeastStart.exists {start : ℕ} (hle : start ≤ s.length) (h : Accepts program s start) :
    ∃ least, LeastStart program s least := by
  classical
  have hex : ∃ t, Accepts program s t := ⟨start, h⟩
  exact ⟨Nat.find hex, (Nat.find_min' hex h).trans hle, Nat.find_spec hex,
    fun t ht => Nat.find_min hex ht⟩

theorem LeastStart.unique {start start' : ℕ} (h : LeastStart program s start)
    (h' : LeastStart program s start') : start = start' := by
  rcases Nat.lt_trichotomy start start' with hlt | he | hlt
  · exact absurd h.accepts (h'.least start hlt)
  · exact he
  · exact absurd h'.accepts (h.least start' hlt)

theorem fresh_iff {table : ℕ → UInt32} {least : ℕ} (h : LeastStart program s least) :
    Fresh program s table ↔ Found program s table least := by
  constructor
  · intro hfresh
    by_cases hlt : least + 1 < 2 ^ 32
    · exact (hfresh least h hlt).of_dead fun c hc => .inl hc.2
    · apply Search.Reaches.of_dead (Search.reaches_empty_iff.mpr h.accepts)
      exact fun c hc => absurd hc.1 hlt
  · intro hfound start hstart hlt
    obtain rfl := h.unique hstart
    exact hfound.of_dead fun c hc => .inl ⟨hlt, hc⟩

theorem staleAt_clear (program : List ReInst) (s : Subject) (start : ℕ) :
    staleAt program s (fun _ => 0) start = ∅ := by
  refine Set.eq_empty_of_forall_notMem ?_
  rintro c ⟨hlt, -, hc⟩
  have hzero := congrArg UInt32.toNat hc
  rw [UInt32.toNat_ofNat', Nat.mod_eq_of_lt hlt] at hzero
  simp at hzero

theorem fresh_of_clear (program : List ReInst) (s : Subject) :
    Fresh program s fun _ => 0 := by
  intro start hstart hlt
  apply Search.Reaches.of_dead (Search.reaches_empty_iff.mpr hstart.accepts)
  intro c hc
  have hstale : c ∈ staleAt program s (fun _ => 0) start := ⟨hlt, hc⟩
  rw [staleAt_clear] at hstale
  exact .inl hstale

/-- What `regexec` returns for the outcome of its loop. -/
def execResult (cflags : UInt32) (nsub nmatch : ℕ) (pmatch : List RegMatch) (r : RunResult) :
    ExecResult :=
  if r.result then
    ⟨.ok, if hasFlag cflags regNosub then pmatch
      else storeMatches r.captures (min nmatch (nsub + 1)) pmatch, r.generations⟩
  else ⟨.regNomatch, pmatch, r.generations⟩

section Result

variable {cflags : UInt32} {nsub nmatch : ℕ} {pmatch : List RegMatch} {r r₀ : RunResult}

theorem status_execResult :
    (execResult cflags nsub nmatch pmatch r).status = .ok ↔ r.result = true := by
  unfold execResult
  cases r.result <;> simp

theorem pmatch_execResult (hr : r.result = true) (h : Stored cflags nmatch pmatch) {x : Int}
    (hx : r.captures[0]? = some x) :
    (execResult cflags nsub nmatch pmatch r).pmatch[0]?.map RegMatch.rmSo = some x := by
  obtain ⟨m, rest, rfl⟩ := List.exists_cons_of_ne_nil h.array
  simp [execResult, hr, h.sub, storeMatches, h.count, hx]

/-- The copies of two captures arrays agree when the arrays do as far as they are copied. -/
theorem storeMatches_eq_iff {captures captures₀ : List Int} {count n : ℕ} (hn : 2 * count ≤ n)
    (h : captures.length = n) (h₀ : captures₀.length = n) :
    storeMatches captures count pmatch = storeMatches captures₀ count pmatch ↔
      ∀ k < 2 * min count pmatch.length, captures[k]? = captures₀[k]? := by
  have hgetD : ∀ k < n, captures.getD k 0 = captures₀.getD k 0 ↔ captures[k]? = captures₀[k]? := by
    intro k hk
    have hk₁ : k < captures.length := by omega
    have hk₀ : k < captures₀.length := by omega
    simp [List.getD_eq_getElem?_getD, hk₁, hk₀]
  unfold storeMatches
  rw [List.mapIdx_eq_mapIdx_iff]
  constructor
  · intro hall k hk
    have hpair := hall (k / 2) (by omega)
    rw [if_pos (by omega), if_pos (by omega), RegMatch.mk.injEq] at hpair
    rw [← hgetD k (by omega)]
    rcases Nat.mod_two_eq_zero_or_one k with hmod | hmod
    · rw [show k = k / 2 * 2 by omega]
      exact hpair.1
    · rw [show k = k / 2 * 2 + 1 by omega]
      exact hpair.2
  · intro hall i hi
    split
    · rw [(hgetD (i * 2) (by omega)).mpr (hall _ (by omega)),
        (hgetD (i * 2 + 1) (by omega)).mpr (hall _ (by omega))]
    · rfl

theorem pmatch_execResult_eq_iff (hr : r.result = true) (hr₀ : r₀.result = true)
    (h : r.captures.length = (nsub + 1) * 2) (h₀ : r₀.captures.length = (nsub + 1) * 2) :
    (execResult cflags nsub nmatch pmatch r).pmatch =
        (execResult cflags nsub nmatch pmatch r₀).pmatch ↔
      ∀ k < slotsAsked cflags nsub nmatch pmatch, r.captures[k]? = r₀.captures[k]? := by
  simp only [execResult, hr, hr₀, if_true, slotsAsked]
  split
  · simp
  · exact storeMatches_eq_iff (by omega) h h₀

end Result

section Call

variable {regex : CString} {cflags : UInt32} {heap heap' : Heap} {preg : RegexT}

/-- `regexec` on a compiled pattern, in terms of the loop over the starts. -/
theorem regexec_eq (h : regcomp regex cflags heap = some (.ok, preg, heap'))
    (hprogram : preg.reProgram = some program) (string : CString) (nmatch : ℕ)
    (pmatch : List RegMatch) (eflags : UInt32) (table : ℕ → UInt32) :
    regexec preg string nmatch pmatch eflags true (some table) =
      if TableFits program.length ⟨string, cflags, eflags⟩ then
        (reSearch program program.length ((preg.reNsub + 1) * 2) ⟨string, cflags, eflags⟩
          (string.strlen + 1) 0 0 table).map (execResult cflags preg.reNsub nmatch pmatch)
      else none := by
  obtain ⟨tree, -, rfl⟩ := regcomp_accepted h
  obtain rfl : (genPattern tree).program = program := Option.some.inj hprogram
  simp only [regexec, programLength_genPattern, Option.bind_eq_bind, Option.bind_some]
  by_cases hfits : TableFits (genPattern tree).program.length ⟨string, cflags, eflags⟩
  · simp only [guard, if_pos hfits, Option.pure_def, Option.bind_some]
    cases reSearch _ _ _ _ _ _ _ _ with
    | none => rfl
    | some r => cases hr : r.result <;> simp [execResult, hr]
  · simp only [guard, if_neg hfits]
    rfl

/-- The loop of a call returns and finds the first match exactly on a fresh table. -/
theorem reSearch_call (h : regcomp regex cflags heap = some (.ok, preg, heap'))
    (hprogram : preg.reProgram = some program)
    (hs : SavesFit program ((preg.reNsub + 1) * 2)) (s : Subject) (table : ℕ → UInt32) :
    ∃ r, reSearch program program.length ((preg.reNsub + 1) * 2) s (s.length + 1) 0 0 table =
        some r ∧
      (r.result = true → ∃ t ≤ s.length, Accepts program s t ∧
        r.captures[0]? = some (t : Int)) ∧
      ∀ least, LeastStart program s least →
        FindsFirst program s ((preg.reNsub + 1) * 2) table least r := by
  obtain ⟨tree, -, rfl⟩ := regcomp_accepted h
  obtain rfl : (genPattern tree).program = program := Option.some.inj hprogram
  have hrange := inRange_genPattern tree
  have hfirst := firstSlot_genPattern tree
  have hn : 0 + (s.length + 1) = s.length + 1 := Nat.zero_add _
  obtain ⟨r, hr, hres⟩ := reSearch_returns hrange hfirst hs (by omega) 0 table hn.le
  refine ⟨r, hr, fun htrue => ?_, fun least hleast => ?_⟩
  · obtain ⟨t, -, ht⟩ := hres htrue
    exact ⟨t, ht⟩
  · have htable : TableAt (genPattern tree).program s table 0 0 table :=
      .inl ⟨rfl, fun c _ => .inl rfl⟩
    exact reSearch_least hrange hfirst hs (by omega) hleast htable hn (Nat.zero_le _) hr

theorem TableFits.start_lt (hp : InRange program) (h : TableFits program.length s) {start : ℕ}
    (hstart : start ≤ s.length) : start + 1 < 2 ^ 32 := by
  obtain ⟨i, hlast, -⟩ := hp.last
  have hpos : 0 < program.length := List.length_pos_of_mem (List.mem_of_getLast? hlast)
  have hle := Nat.le_mul_of_pos_left (s.length + 1) hpos
  unfold TableFits at h
  omega

theorem regexec_call (h : regcomp regex cflags heap = some (.ok, preg, heap'))
    (hprogram : preg.reProgram = some program)
    (hs : SavesFit program ((preg.reNsub + 1) * 2)) {string : CString} {eflags : UInt32}
    (hfits : TableFits program.length ⟨string, cflags, eflags⟩) (nmatch : ℕ)
    (pmatch : List RegMatch) (table : ℕ → UInt32) :
    ∃ r, regexec preg string nmatch pmatch eflags true (some table) =
        some (execResult cflags preg.reNsub nmatch pmatch r) ∧
      (r.result = true → ∃ t ≤ string.strlen, Accepts program ⟨string, cflags, eflags⟩ t ∧
        r.captures[0]? = some (t : Int)) ∧
      ∀ least, LeastStart program ⟨string, cflags, eflags⟩ least →
        FindsFirst program ⟨string, cflags, eflags⟩ ((preg.reNsub + 1) * 2) table least r := by
  obtain ⟨r, hr, hres, hleast⟩ := reSearch_call h hprogram hs ⟨string, cflags, eflags⟩ table
  change reSearch _ _ _ _ (string.strlen + 1) _ _ _ = _ at hr
  exact ⟨r, by rw [regexec_eq h hprogram, if_pos hfits, hr]; rfl, hres, hleast⟩

theorem staleAt_of_lt {table : ℕ → UInt32} {start : ℕ} (h : start + 1 < 2 ^ 32) :
    staleAt program s table start = marked program s (UInt32.ofNat (start + 1)) table :=
  Set.ext fun _ => and_iff_right h

/-- The first path of a run from the first start, around what the table marks. -/
theorem FindsFirst.of_accepts {captureCount least : ℕ} {r : RunResult}
    (h : FindsFirst program s captureCount (fun _ => 0) least r)
    (hl : LeastStart program s least) :
    r.result = true ∧ r.captures[0]? = some (least : Int) ∧ ∃ q,
      Search.FirstPath (next program s) (AtMatch program) ∅ ⟨0, least⟩ q ∧
        r.captures = saveAll program (freshCaptures captureCount least) q := by
  have hfound : Found program s (fun _ => 0) least := by
    unfold Found
    rw [staleAt_clear]
    exact Search.reaches_empty_iff.mpr hl.accepts
  obtain ⟨q, hq, hcaptures⟩ := h.path hfound
  rw [staleAt_clear] at hq
  exact ⟨(h.found.mp hfound).1, (h.found.mp hfound).2, q, hq, hcaptures⟩

theorem inRange_of_regcomp (h : regcomp regex cflags heap = some (.ok, preg, heap'))
    (hprogram : preg.reProgram = some program) : InRange program ∧ preg.reCflags = cflags := by
  obtain ⟨tree, -, rfl⟩ := regcomp_accepted h
  obtain rfl : (genPattern tree).program = program := Option.some.inj hprogram
  exact ⟨inRange_genPattern tree, rfl⟩

section Repeatable

variable (h : regcomp regex cflags heap = some (.ok, preg, heap'))
  (hprogram : preg.reProgram = some program)
  (hs : SavesFit program ((preg.reNsub + 1) * 2)) {string : CString} {nmatch : ℕ}
  {pmatch : List RegMatch} {eflags : UInt32} {table : ℕ → UInt32}

include h hprogram hs

theorem Repeatable.of_undisturbed (hfits : TableFits program.length ⟨string, cflags, eflags⟩)
    (hundisturbed : Undisturbed program ⟨string, cflags, eflags⟩ ((preg.reNsub + 1) * 2)
      (slotsAsked cflags preg.reNsub nmatch pmatch) table) :
    Repeatable preg program string nmatch pmatch eflags table := by
  obtain ⟨hrange, hflags⟩ := inRange_of_regcomp h hprogram
  obtain ⟨r, hr, hres, hleast⟩ := regexec_call h hprogram hs hfits nmatch pmatch table
  obtain ⟨r₀, hr₀, hres₀, hleast₀⟩ := regexec_call h hprogram hs hfits nmatch pmatch fun _ => 0
  refine ⟨_, _, hr, hr₀, ?_⟩
  rw [hflags]
  by_cases haccepts : ∃ start ≤ string.strlen, Accepts program ⟨string, cflags, eflags⟩ start
  · obtain ⟨start, hstart, haccept⟩ := haccepts
    obtain ⟨least, hl⟩ := LeastStart.exists hstart haccept
    obtain ⟨p, q, hp, hq, hsame⟩ := hundisturbed least hl
    rw [← staleAt_of_lt (hfits.start_lt hrange hl.le)] at hp
    have hfound : Found program ⟨string, cflags, eflags⟩ table least := ⟨p, hp.path, hp.avoids⟩
    obtain ⟨htrue, hzero⟩ := (hleast least hl).found.mp hfound
    obtain ⟨p', hp', hcaptures⟩ := (hleast least hl).path hfound
    obtain ⟨htrue₀, -, q', hq', hcaptures₀⟩ := (hleast₀ least hl).of_accepts hl
    -- both calls have stored the captures of these paths
    obtain rfl := hp.unique (length_next_le _ _) hp'
    obtain rfl := hq.unique (length_next_le _ _) hq'
    have hok : ∀ r, (execResult cflags preg.reNsub nmatch pmatch r).status = .ok ↔
        r.result = true := fun r => status_execResult
    refine ⟨⟨iff_of_true ((hok r).mpr htrue) ⟨start, hstart, haccept⟩, fun _ hstored =>
      ⟨least, hl, pmatch_execResult htrue hstored hzero⟩⟩,
      ((hok r).mpr htrue).trans ((hok r₀).mpr htrue₀).symm, ?_⟩
    rw [pmatch_execResult_eq_iff htrue htrue₀ (by rw [hcaptures, length_saveAll,
      length_freshCaptures]) (by rw [hcaptures₀, length_saveAll, length_freshCaptures]),
      hcaptures, hcaptures₀]
    exact hsame
  · have hfalse : r.result = false := by
      by_contra htrue
      obtain ⟨t, ht, hacc, -⟩ := hres (by simpa using htrue)
      exact haccepts ⟨t, ht, hacc⟩
    have hfalse₀ : r₀.result = false := by
      by_contra htrue
      obtain ⟨t, ht, hacc, -⟩ := hres₀ (by simpa using htrue)
      exact haccepts ⟨t, ht, hacc⟩
    refine ⟨⟨iff_of_false (by simp [status_execResult, hfalse]) haccepts, fun hok => ?_⟩, ?_, ?_⟩
    · exact absurd (status_execResult.mp hok) (by simp [hfalse])
    · simp [execResult, hfalse, hfalse₀]
    · simp [execResult, hfalse, hfalse₀]

theorem Repeatable.undisturbed (hstored : Stored cflags nmatch pmatch)
    (hrepeatable : Repeatable preg program string nmatch pmatch eflags table) :
    TableFits program.length ⟨string, cflags, eflags⟩ ∧
      Undisturbed program ⟨string, cflags, eflags⟩ ((preg.reNsub + 1) * 2)
        (slotsAsked cflags preg.reNsub nmatch pmatch) table := by
  obtain ⟨hrange, hflags⟩ := inRange_of_regcomp h hprogram
  obtain ⟨e, e₀, he, he₀, hcorrect, -, hpmatch⟩ := hrepeatable
  rw [hflags] at hcorrect
  have hfits : TableFits program.length ⟨string, cflags, eflags⟩ := by
    by_contra hfits
    rw [regexec_eq h hprogram, if_neg hfits] at he
    cases he
  obtain ⟨r, hr, hres, hleast⟩ := regexec_call h hprogram hs hfits nmatch pmatch table
  obtain ⟨r₀, hr₀, -, hleast₀⟩ := regexec_call h hprogram hs hfits nmatch pmatch fun _ => 0
  obtain rfl := Option.some.inj (hr.symm.trans he)
  obtain rfl := Option.some.inj (hr₀.symm.trans he₀)
  refine ⟨hfits, fun least hl => ?_⟩
  -- the reported start is that of the captures, which must then be the first one
  have hok := hcorrect.status.mpr ⟨least, hl.le, hl.accepts⟩
  have htrue := status_execResult.mp hok
  obtain ⟨least', hl', hfirst⟩ := hcorrect.first hok hstored
  obtain rfl := hl'.unique hl
  obtain ⟨t, -, -, hcap⟩ := hres htrue
  rw [pmatch_execResult htrue hstored hcap] at hfirst
  have hfound := (hleast _ hl).found.mpr ⟨htrue, hcap.trans hfirst⟩
  obtain ⟨p, hp, hcaptures⟩ := (hleast _ hl).path hfound
  obtain ⟨htrue₀, -, q, hq, hcaptures₀⟩ := (hleast₀ _ hl).of_accepts hl
  rw [staleAt_of_lt (hfits.start_lt hrange hl.le)] at hp
  refine ⟨p, q, hp, hq, ?_⟩
  rw [pmatch_execResult_eq_iff htrue htrue₀ (by rw [hcaptures, length_saveAll,
    length_freshCaptures]) (by rw [hcaptures₀, length_saveAll, length_freshCaptures]),
    hcaptures, hcaptures₀] at hpmatch
  exact hpmatch

end Repeatable

/--
A call for which the table fits is right, and as on a cleared block, if the table does not disturb
the first match. Where the caller asks for the offsets of the match, no other call is.
-/
theorem regexec_repeatable_iff_undisturbed
    (h : regcomp regex cflags heap = some (.ok, preg, heap'))
    (hprogram : preg.reProgram = some program)
    (hs : SavesFit program ((preg.reNsub + 1) * 2)) (string : CString) (nmatch : ℕ)
    (pmatch : List RegMatch) (eflags : UInt32) (table : ℕ → UInt32) :
    (TableFits program.length ⟨string, cflags, eflags⟩ ∧
        Undisturbed program ⟨string, cflags, eflags⟩ ((preg.reNsub + 1) * 2)
          (slotsAsked cflags preg.reNsub nmatch pmatch) table →
      Repeatable preg program string nmatch pmatch eflags table) ∧
    (Stored cflags nmatch pmatch →
      Repeatable preg program string nmatch pmatch eflags table →
      TableFits program.length ⟨string, cflags, eflags⟩ ∧
        Undisturbed program ⟨string, cflags, eflags⟩ ((preg.reNsub + 1) * 2)
          (slotsAsked cflags preg.reNsub nmatch pmatch) table) :=
  ⟨fun hcond => .of_undisturbed h hprogram hs hcond.1 hcond.2,
    fun hstored hrepeatable => hrepeatable.undisturbed h hprogram hs hstored⟩

theorem undisturbed_of_clear (h : regcomp regex cflags heap = some (.ok, preg, heap'))
    (hprogram : preg.reProgram = some program)
    (hs : SavesFit program ((preg.reNsub + 1) * 2)) (hfits : TableFits program.length s)
    (asked : ℕ) : Undisturbed program s ((preg.reNsub + 1) * 2) asked fun _ => 0 := by
  intro least hl
  obtain ⟨r, -, -, hleast⟩ := reSearch_call h hprogram hs s fun _ => 0
  obtain ⟨-, -, q, hq, -⟩ := (hleast least hl).of_accepts hl
  rw [← staleAt_of_lt (hfits.start_lt (inRange_of_regcomp h hprogram).1 hl.le), staleAt_clear]
  exact ⟨q, q, hq, hq, fun _ _ => rfl⟩

end Call

abbrev litA : CString := ⟨[byte 'a'], by decide⟩

def compiledA : List ReInst :=
  [{ op := .reSave }, { op := .reChar, ch := byte 'a' }, { op := .reSave, x := 1 },
   { op := .reMatch }]

theorem regcomp_litA : ∃ heap', regcomp litA 0 .unlimited =
    some (.ok, ⟨some compiledA, 0, 0⟩, heap') := ⟨_, rfl⟩

theorem accepts_litA : Accepts compiledA ⟨litA, 0, 0⟩ 0 := by
  refine ⟨⟨3, 1⟩, ?_, _, rfl, rfl⟩
  exact .head (b := ⟨1, 0⟩) (by show _ ∈ _; decide) (.head (b := ⟨2, 1⟩) (by show _ ∈ _; decide)
    (.single (by show _ ∈ _; decide)))

theorem litA_repeatable :
    ∃ heap', regcomp litA 0 .unlimited = some (.ok, ⟨some compiledA, 0, 0⟩, heap') ∧
      Repeatable ⟨some compiledA, 0, 0⟩ compiledA litA 1 [⟨-1, -1⟩] 0 fun _ => 0 := by
  obtain ⟨heap', h⟩ := regcomp_litA
  have hsaves : SavesFit compiledA ((0 + 1) * 2) := by decide
  have hfits : TableFits compiledA.length ⟨litA, 0, 0⟩ := by decide
  exact ⟨heap', h, (regexec_repeatable_iff_undisturbed h rfl hsaves litA 1 [⟨-1, -1⟩] 0
    fun _ => 0).1 ⟨hfits, undisturbed_of_clear h rfl hsaves hfits _⟩⟩

/-- A second call on the block that the first one has freed reports no match. -/
theorem litA_second_call :
    ∃ heap' r r', regcomp litA 0 .unlimited = some (.ok, ⟨some compiledA, 0, 0⟩, heap') ∧
      SavesFit compiledA 2 ∧ TableFits compiledA.length ⟨litA, 0, 0⟩ ∧
      regexec ⟨some compiledA, 0, 0⟩ litA 1 [⟨-1, -1⟩] 0 true (some fun _ => 0) = some r ∧
      r.status = .ok ∧ r.pmatch = [⟨0, 1⟩] ∧
      regexec ⟨some compiledA, 0, 0⟩ litA 1 [⟨-1, -1⟩] 0 true (some r.generations) = some r' ∧
      r'.status = .regNomatch ∧ ¬ Correct compiledA ⟨litA, 0, 0⟩ 1 [⟨-1, -1⟩] r' ∧
      ¬ Repeatable ⟨some compiledA, 0, 0⟩ compiledA litA 1 [⟨-1, -1⟩] 0 r.generations := by
  obtain ⟨heap', h⟩ := regcomp_litA
  have hnot : ∀ r : ExecResult, r.status = .regNomatch →
      ¬ Correct compiledA ⟨litA, 0, 0⟩ 1 [⟨-1, -1⟩] r := by
    intro r hr hcorrect
    have hok := hcorrect.status.mpr ⟨0, by decide, accepts_litA⟩
    rw [hr] at hok
    cases hok
  refine ⟨heap', _, _, h, by decide, by decide, rfl, rfl, rfl, rfl, rfl, hnot _ rfl, ?_⟩
  rintro ⟨r, -, hr, -, hcorrect, -⟩
  obtain rfl := Option.some.inj hr
  exact hnot _ rfl hcorrect

end LampUserspace.Regex
