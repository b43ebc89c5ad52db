import LampUserspace.Regex.Codegen

/-! # What a range of code matches

A range of a program spans `(i, j)` when the steps from its first instruction at
position `i` can reach the address just past it at position `j`. For the code of
a tree this does not depend on where the code stands, nor on what surrounds it.
-/

namespace LampUserspace.Regex

/-- The range `[start, stop)` of a program leads from position `i` to position `j`. -/
def Spans (program : List ReInst) (s : Subject) (start stop i j : ℕ) : Prop :=
  Search.Reachable (next program s) ⟨start, i⟩ ⟨stop, j⟩

/-- Relative code leads from position `i` at its start to position `j` at its end. -/
def CodeSpans (S : List ReInst) (s : Subject) (i j : ℕ) : Prop := Spans S s 0 S.length i j

/-- The program `Q` holds the relative code `S` from `base` on. -/
def Holds (Q : List ReInst) (base : ℕ) (S : List ReInst) : Prop :=
  ∀ k j, S[k]? = some j → ∃ i : ReInst, Q[base + k]? = some i ∧
    i.clean = (j.mapTargets (· + base)).clean

def Conf.shift (base : ℕ) (c : Conf) : Conf := ⟨c.pc + base, c.pos⟩

variable {A P Q S T : List ReInst} {s : Subject} {base : ℕ}

/-! ## Relocation -/

theorem ReInst.next_congr {i j : ReInst} (h : i.clean = j.clean) (c : Conf) :
    i.next s c = j.next s c := by
  obtain ⟨op, ch, set, x, y⟩ := i
  obtain ⟨op', ch', set', x', y'⟩ := j
  obtain rfl : op = op' := by simpa using congrArg ReInst.op h
  cases op <;>
    simp_all [ReInst.clean, ReInst.next, ReInst.targets, reConsumes, reAsserts, reClassMatch]

theorem ReInst.next_mapTargets_of {f : Int → Int} (i : ReInst) (base : ℕ) (c : Conf)
    (hf : f (c.pc + 1) = c.pc + base + 1) :
    (i.mapTargets f).next s (c.shift base) = (i.next s c).map fun d => ⟨f d.pc, d.pos⟩ := by
  obtain ⟨op, ch, set, x, y⟩ := i
  cases op with
  | reChar | reAny | reClass | reBol | reEol | reWordb | reNotWordb =>
    simp only [ReInst.next, ReInst.mapTargets, Conf.shift]
    split <;> simp_all
  | reSave => simp [ReInst.next, ReInst.mapTargets, Conf.shift, hf]
  | reSplit | reJmp => simp [ReInst.next, ReInst.mapTargets, ReInst.targets, Conf.shift]
  | reMatch => rfl

theorem ReInst.next_mapTargets (i : ReInst) (base : ℕ) (c : Conf) :
    (i.mapTargets (· + base)).next s (c.shift base) = (i.next s c).map (Conf.shift base) :=
  i.next_mapTargets_of base c (by omega)

theorem Holds.next (h : Holds Q base S) {c : Conf} {i : ReInst} (hc : fetch S c.pc = some i) :
    next Q s (c.shift base) = (Regex.next S s c).map (Conf.shift base) := by
  obtain ⟨h0, hi⟩ := fetch_eq_some.mp hc
  obtain ⟨j, hj, he⟩ := h _ i hi
  have hf : fetch Q (c.shift base).pc = some j := by
    refine fetch_eq_some.mpr ⟨by simp only [Conf.shift]; omega, ?_⟩
    rw [← hj]
    congr 1
    simp only [Conf.shift]
    omega
  rw [next_of_fetch hf, next_of_fetch hc, ReInst.next_congr he, ReInst.next_mapTargets]

/-- The steps of the code are steps of any program that holds it. -/
theorem Holds.reachable (h : Holds Q base S) {c d : Conf}
    (hr : Search.Reachable (Regex.next S s) c d) :
    Search.Reachable (Regex.next Q s) (c.shift base) (d.shift base) := by
  induction hr with
  | refl => exact .refl
  | @tail d e _ hs ih =>
    refine ih.tail ?_
    have hs : e ∈ Regex.next S s d := hs
    cases hf : fetch S d.pc with
    | none => simp [Regex.next, hf] at hs
    | some i =>
      show e.shift base ∈ Regex.next Q s (d.shift base)
      rw [h.next hf]
      exact List.mem_map_of_mem hs

/-- A step of code whose branches lead at most to `n` leads at most there. -/
theorem mem_next_of_targets {n : ℕ} (h : ∀ i ∈ S, ∀ t ∈ i.targets, 0 ≤ t ∧ t ≤ n)
    (hn : S.length ≤ n) {c d : Conf} (hd : d ∈ Regex.next S s c) :
    0 ≤ c.pc ∧ c.pc.toNat < S.length ∧ 0 ≤ d.pc ∧ d.pc ≤ n := by
  cases hf : fetch S c.pc with
  | none => simp [Regex.next, hf] at hd
  | some i =>
    rw [next_of_fetch hf] at hd
    obtain ⟨h0, hi⟩ := fetch_eq_some.mp hf
    have hlt := (List.getElem?_eq_some_iff.mp hi).1
    refine ⟨h0, hlt, ?_⟩
    rcases ReInst.mem_next hd with ⟨ht, -⟩ | ⟨-, hpc, -⟩ | ⟨-, hpc, -⟩
    · exact h i (List.mem_of_getElem? hi) _ ht
    · omega
    · omega

/-- A step inside enclosed code leads into the code or just past it. -/
theorem Enclosed.next (h : Enclosed S) {c d : Conf} (hd : d ∈ Regex.next S s c) :
    0 ≤ d.pc ∧ d.pc ≤ S.length :=
  (mem_next_of_targets h le_rfl hd).2.2

theorem Holds.exit (h : Holds Q base S) (hS : Enclosed S) {b c : Conf}
    (hr : Search.Reachable (Regex.next Q s) (b.shift base) c)
    (hb : 0 ≤ b.pc ∧ b.pc ≤ S.length) (hc : c.pc < base ∨ base + S.length ≤ c.pc) :
    ∃ m, Search.Reachable (Regex.next S s) b ⟨S.length, m⟩ ∧
      Search.Reachable (Regex.next Q s) ⟨(base + S.length : ℕ), m⟩ c := by
  have hend : b.pc = S.length → b.shift base = ⟨(base + S.length : ℕ), b.pos⟩ := by
    intro hpc
    simp only [Conf.shift, hpc, Conf.mk.injEq, and_true]
    omega
  generalize hb' : b.shift base = b' at hr hend
  induction hr using Relation.ReflTransGen.head_induction_on generalizing b with
  | refl =>
    subst hb'
    have hpc : b.pc = S.length := by
      simp only [Conf.shift] at hc
      omega
    rw [hend hpc]
    exact ⟨b.pos, by rw [← hpc], .refl⟩
  | @head e e' hs hr ih =>
    subst hb'
    by_cases hpc : b.pc = S.length
    · rw [hend hpc] at hs
      exact ⟨b.pos, by rw [← hpc], .head hs hr⟩
    have hlt : b.pc.toNat < S.length := by omega
    have hf : fetch S b.pc = some S[b.pc.toNat] :=
      fetch_eq_some.mpr ⟨hb.1, List.getElem?_eq_getElem hlt⟩
    have hs : e' ∈ Regex.next Q s (b.shift base) := hs
    rw [h.next hf] at hs
    obtain ⟨d, hd, rfl⟩ := List.mem_map.mp hs
    have hd' := hS.next hd
    obtain ⟨m, hm, hm'⟩ := ih hd' rfl fun hpc => by
      simp only [Conf.shift, hpc, Conf.mk.injEq, and_true]
      omega
    exact ⟨m, .head hd hm, hm'⟩

theorem shift_natCast (base k i : ℕ) : Conf.shift base ⟨k, i⟩ = ⟨(base + k : ℕ), i⟩ := by
  simp only [Conf.shift, Conf.mk.injEq, and_true]
  omega

theorem Holds.spans (h : Holds Q base S) {k k' i j : ℕ} (hr : Spans S s k k' i j) :
    Spans Q s (base + k) (base + k') i j := by
  have hr := h.reachable hr
  rwa [shift_natCast, shift_natCast] at hr

/-- A run from the start of enclosed code to somewhere past it spans the code first. -/
theorem Holds.spans_exit (h : Holds Q base S) (hS : Enclosed S) {stop i j : ℕ}
    (hstop : base + S.length ≤ stop) (hr : Spans Q s base stop i j) :
    ∃ m, CodeSpans S s i m ∧ Spans Q s (base + S.length) stop m j := by
  have hr : Search.Reachable (Regex.next Q s) (Conf.shift base ⟨(0 : ℕ), i⟩) ⟨stop, j⟩ := by
    rw [shift_natCast]
    exact hr
  exact h.exit hS hr ⟨le_rfl, by simp⟩ (.inr (by simp only; omega))

/-! ## Code at the end of a program -/

theorem Extends.holds {ℓ : ℕ} (h : Extends A P ℓ S) : Holds P A.length S := by
  intro k j hk
  obtain ⟨i, hi, he⟩ := h.getElem? hk
  exact ⟨i, hi, by rw [← he, ReInst.clean_clean]⟩

theorem spans_end {i j : ℕ} (h : Spans Q s Q.length Q.length i j) : i = j := by
  rcases Relation.ReflTransGen.cases_head h with he | ⟨d, hd, -⟩
  · exact (Conf.mk.inj he).2
  · have hd : d ∈ Regex.next Q s ⟨Q.length, i⟩ := hd
    simp [Regex.next, fetch] at hd

theorem Extends.spans_iff {ℓ : ℕ} (h : Extends A P ℓ S) (hS : Enclosed S) {i j : ℕ} :
    Spans P s A.length P.length i j ↔ CodeSpans S s i j := by
  constructor
  · intro hr
    obtain ⟨m, hm, hend⟩ := h.holds.spans_exit hS h.length.ge hr
    rw [← h.length] at hend
    exact spans_end hend ▸ hm
  · intro hr
    have hr := h.holds.spans hr
    rwa [← h.length] at hr

/-! ## Sequences -/

theorem holds_append_left (S T : List ReInst) : Holds (S ++ T) 0 S := by
  intro k j hk
  refine ⟨j, ?_, by rw [ReInst.mapTargets_eq_self (by simp)]⟩
  rw [Nat.zero_add, List.getElem?_append_left (List.getElem?_eq_some_iff.mp hk).1, hk]

theorem holds_reloc {U : List ReInst} (h : U.length = base) (S T : List ReInst) :
    Holds (U ++ reloc base S ++ T) base S := by
  intro k j hk
  have hlt := (List.getElem?_eq_some_iff.mp hk).1
  refine ⟨_, ?_, rfl⟩
  rw [List.append_assoc, List.getElem?_append_right (by omega), h, Nat.add_sub_cancel_left,
    List.getElem?_append_left (by simpa using hlt), reloc, List.getElem?_map, hk]
  rfl

/-- Code after code, when the second displaces no exit of the first. -/
theorem codeSpans_append (hS : Enclosed S) (hT : Enclosed T) {i j : ℕ} :
    CodeSpans (S ++ reloc S.length T) s i j ↔ ∃ m, CodeSpans S s i m ∧ CodeSpans T s m j := by
  have hl := holds_append_left S (reloc S.length T)
  have hr : Holds (S ++ reloc S.length T) S.length T := by
    simpa using holds_reloc rfl T []
  have hlen : (S ++ reloc S.length T).length = S.length + T.length := by simp
  constructor
  · intro h
    obtain ⟨m, hm, h'⟩ := hl.spans_exit hS (by omega) h
    rw [Nat.zero_add] at h'
    obtain ⟨m', hm', h''⟩ := hr.spans_exit hT hlen.ge h'
    rw [← hlen] at h''
    exact ⟨m, hm, spans_end h'' ▸ hm'⟩
  · rintro ⟨m, hm, hm'⟩
    have h := hl.spans hm
    have h' := hr.spans hm'
    rw [Nat.zero_add, Nat.zero_add] at h
    rw [← hlen] at h'
    exact h.trans h'

/-! ## Alternations -/

theorem spans_head {k stop i j : ℕ} (hne : k ≠ stop) : Spans Q s k stop i j ↔
    ∃ d ∈ Regex.next Q s ⟨k, i⟩, Search.Reachable (Regex.next Q s) d ⟨stop, j⟩ := by
  constructor
  · intro h
    rcases Relation.ReflTransGen.cases_head h with he | ⟨d, hd, hr⟩
    · exact absurd (Int.natCast_inj.mp (Conf.mk.inj he).1) hne
    · exact ⟨d, hd, hr⟩
  · rintro ⟨d, hd, hr⟩
    exact Relation.ReflTransGen.head hd hr

theorem next_split {k x y i : ℕ} (hk : Q[k]? = some (split x y)) :
    Regex.next Q s ⟨k, i⟩ = [⟨x, i⟩, ⟨y, i⟩] := by
  rw [next_of_fetch (fetch_eq_some.mpr ⟨by simp, by simpa using hk⟩)]
  rfl

theorem spans_split {k stop x y i j : ℕ} (hk : Q[k]? = some (split x y)) (hne : k ≠ stop) :
    Spans Q s k stop i j ↔ Spans Q s x stop i j ∨ Spans Q s y stop i j := by
  rw [spans_head hne, next_split hk]
  simp [Spans]

theorem spans_jmp {k stop x i j : ℕ} (hk : Q[k]? = some (jmp x)) (hne : k ≠ stop) :
    Spans Q s k stop i j ↔ Spans Q s x stop i j := by
  have hn : Regex.next Q s ⟨k, i⟩ = [⟨x, i⟩] := by
    rw [next_of_fetch (fetch_eq_some.mpr ⟨by simp, by simpa using hk⟩)]
    rfl
  rw [spans_head hne, hn]
  simp [Spans]

/-- From the split of a branch on: skip everything, or span one of the branches left. -/
theorem spans_unitsFrom {codes : List (List ReInst)} (hcodes : ∀ S ∈ codes, Enclosed S)
    {U : List ReInst} {i j E : ℕ} (hE : E = U.length + unitsLength codes) :
    Spans (U ++ unitsFrom U.length E codes) s U.length E i j ↔
      i = j ∨ ∃ S ∈ codes, CodeSpans S s i j := by
  induction codes generalizing U with
  | nil =>
    obtain rfl : E = U.length := by simpa [unitsLength] using hE
    simp only [unitsFrom, List.append_nil, List.not_mem_nil, false_and, exists_false, or_false]
    exact ⟨spans_end, fun h => h ▸ .refl⟩
  | cons S rest ih =>
    obtain ⟨hS, hrest⟩ := List.forall_mem_cons.mp hcodes
    have hlen : unitsLength (S :: rest) = S.length + 2 + unitsLength rest := by
      simp [unitsLength]
    have hV : (U ++ split (U.length + 1) (U.length + S.length + 2) :: reloc (U.length + 1) S ++
        [jmp E]).length = U.length + S.length + 2 := by
      simp
      omega
    have hQ : U ++ unitsFrom U.length E (S :: rest) =
        (U ++ split (U.length + 1) (U.length + S.length + 2) :: reloc (U.length + 1) S ++
          [jmp E]) ++ unitsFrom (U.length + S.length + 2) E rest := by
      simp [unitsFrom]
    have ih := ih hrest (U := U ++ split (U.length + 1) (U.length + S.length + 2) ::
      reloc (U.length + 1) S ++ [jmp E]) (by omega)
    rw [hV, ← hQ] at ih
    generalize hgen : U ++ unitsFrom U.length E (S :: rest) = Q at hQ ih ⊢
    have hsplit : Q[U.length]? = some (split (U.length + 1 : ℕ) (U.length + S.length + 2 : ℕ)) := by
      simp [hQ]
    have hjmp : Q[U.length + 1 + S.length]? = some (jmp E) := by
      have hlen' : (U ++ split (U.length + 1) (U.length + S.length + 2) ::
          reloc (U.length + 1) S).length = U.length + 1 + S.length := by
        simp
        omega
      rw [hQ, List.append_assoc, ← hlen', List.getElem?_append_right le_rfl, Nat.sub_self]
      rfl
    have hhold : Holds Q (U.length + 1) S := by
      rw [hQ, List.append_assoc]
      simpa using holds_reloc (U := U ++ [split (U.length + 1) (U.length + S.length + 2)])
        (by simp) S ([jmp E] ++ unitsFrom (U.length + S.length + 2) E rest)
    have hend : Q.length = E := by
      rw [hQ, List.length_append, hV, length_unitsFrom, hE, hlen]
      omega
    rw [spans_split hsplit (by omega), ih]
    have hbranch : Spans Q s (U.length + 1) E i j ↔ CodeSpans S s i j := by
      constructor
      · intro h
        obtain ⟨m, hm, h'⟩ := hhold.spans_exit hS (by omega) h
        rw [spans_jmp hjmp (by omega), ← hend] at h'
        exact spans_end h' ▸ hm
      · intro h
        have h' : Spans Q s (U.length + 1 + S.length) E j j := by
          rw [spans_jmp hjmp (by omega)]
          exact .refl
        exact (hhold.spans h).trans h'
    rw [hbranch]
    simp only [List.mem_cons, exists_eq_or_imp]
    exact or_left_comm

theorem codeSpans_units {codes : List (List ReInst)} (hcodes : ∀ S ∈ codes, Enclosed S)
    {i j : ℕ} :
    CodeSpans (units codes) s i j ↔ i = j ∨ ∃ S ∈ codes, CodeSpans S s i j := by
  have h := spans_unitsFrom (U := []) (s := s) (i := i) (j := j) hcodes (Nat.zero_add _).symm
  unfold CodeSpans
  rw [units, length_unitsFrom]
  exact h

/-! ## Loops -/

/-- No branch of the code leads to its end, and its last instruction does not fall through. -/
def Endless (S : List ReInst) : Prop :=
  (∀ i ∈ S, (S.length : Int) ∉ i.targets) ∧ ∃ i, S.getLast? = some i ∧ i.falls = false

theorem Endless.not_codeSpans (h : Endless S) {i j : ℕ} : ¬ CodeSpans S s i j := by
  obtain ⟨ht, l, hl, hf⟩ := h
  intro hr
  have hpos : 0 < S.length := List.length_pos_of_mem (List.mem_of_getLast? hl)
  rcases Relation.ReflTransGen.cases_tail hr with he | ⟨d, -, hd⟩
  · have := (Conf.mk.inj he).1
    omega
  · have hd : (⟨S.length, j⟩ : Conf) ∈ Regex.next S s d := hd
    cases hfetch : fetch S d.pc with
    | none => simp [Regex.next, hfetch] at hd
    | some i =>
      rw [next_of_fetch hfetch] at hd
      obtain ⟨h0, hi⟩ := fetch_eq_some.mp hfetch
      have hlast : d.pc.toNat + 1 = S.length → i.falls = false := by
        intro hk
        rw [List.getLast?_eq_getElem?, ← hk, Nat.add_sub_cancel, hi] at hl
        obtain rfl := Option.some.inj hl
        exact hf
      rcases ReInst.mem_next hd with ⟨htar, -⟩ | ⟨hfall, hpc, -⟩ | ⟨hfall, hpc, -⟩
      · exact ht i (List.mem_of_getElem? hi) htar
      · simp only at hpc
        rw [hlast (by omega)] at hfall
        cases hfall
      · simp only at hpc
        rw [hlast (by omega)] at hfall
        cases hfall

theorem endless_starCode (hS : Enclosed S) : Endless (starCode S) := by
  refine ⟨fun i hi ht => ?_, jmp 0, by simp [starCode], rfl⟩
  have hlen : (starCode S).length = S.length + 2 := by simp [starCode, optCode]
  rw [hlen] at ht
  rcases List.mem_append.mp hi with hi | hi
  · have := enclosed_optCode hS i hi _ ht
    have hopt : (optCode S).length = S.length + 1 := by simp [optCode]
    push_cast [hopt] at this
    omega
  · obtain rfl := List.mem_singleton.mp hi
    simp at ht
    omega

theorem endless_openCode {stop : ℕ} (hS : Enclosed S) (hs : stop ≤ S.length) :
    Endless (openCode S 0 stop) := by
  refine ⟨fun i hi ht => ?_, jmp S.length, by simp [openCode], rfl⟩
  have hlen : (optCopyCode S 0 stop).length = S.length + 1 + stop := by
    rw [optCopyCode, List.length_append, List.length_cons, length_window hs]
    omega
  rw [openCode, List.length_append, hlen, List.length_singleton] at ht
  rcases List.mem_append.mp hi with hi | hi
  · have := enclosed_optCopyCode hS (Nat.zero_le _) hs i hi _ ht
    rw [hlen] at this
    omega
  · obtain rfl := List.mem_singleton.mp hi
    simp at ht
    omega

end LampUserspace.Regex
