import LampUserspace.Regex.Regexec
import LampUserspace.Regex.Slots

/-! # Nested groups

A pattern without quantifiers and alternations is a sequence of leaves and
groups, and its program is straight-line code. Each group takes its number when
it is opened; at its close the compiler uses the number of the group opened
last, which is another one as soon as a capturing group has opened inside.
-/

namespace LampUserspace.Regex

/-- A sequence of leaves and groups, without quantifiers and alternations. -/
inductive Nest
  | nil
  | leaf (leaf : Leaf) (rest : Nest)
  | group (capture : Bool) (body rest : Nest)

def saveTo (slot : ℕ) : ReInst := { op := .reSave, x := slot }

/-- Where a leaf leads from a position of the text. -/
def Leaf.step (s : Subject) (l : Leaf) (pos : ℕ) : Option ℕ :=
  if reConsumes s l.inst pos then some (pos + 1)
  else if reAsserts s l.inst pos then some pos
  else none

theorem Leaf.le_step {s : Subject} (l : Leaf) {pos mid : ℕ} (h : l.step s pos = some mid) :
    pos ≤ mid := by
  unfold Leaf.step at h
  split_ifs at h <;> cases h <;> omega

theorem Leaf.step_le {s : Subject} (l : Leaf) {pos mid : ℕ} (h : l.step s pos = some mid)
    (hpos : pos ≤ s.length) : mid ≤ s.length := by
  unfold Leaf.step at h
  split_ifs at h with hc
  · cases h
    exact reConsumes_lt hc
  · cases h
    exact hpos

theorem Leaf.mem_next {s : Subject} {l : Leaf} {c d : Conf} (h : d ∈ l.inst.next s c) :
    ∃ mid, l.step s c.pos = some mid ∧ d = ⟨c.pc + 1, mid⟩ := by
  unfold Leaf.step
  cases l with
  | char | any | bracket =>
    obtain ⟨hc, hd⟩ := List.mem_ite_nil_right.mp h
    exact ⟨c.pos + 1, if_pos hc, List.mem_singleton.mp hd⟩
  | bol | eol | wordb | notWordb =>
    obtain ⟨hc, hd⟩ := List.mem_ite_nil_right.mp h
    refine ⟨c.pos, ?_, List.mem_singleton.mp hd⟩
    rw [if_neg (by simp [reConsumes, inst]), if_pos hc]

namespace Nest

def branch : Nest → Sequence
  | nil => .nil
  | leaf l rest => .cons (.leaf l) .one rest.branch
  | group capture body rest => .cons (.group capture (.last body.branch)) .one rest.branch

def captures : Nest → ℕ
  | nil => 0
  | leaf _ rest => rest.captures
  | group false body rest => body.captures + rest.captures
  | group true body rest => body.captures + 1 + rest.captures

/-- The slots of groups numbered from left to right, the first of them `g + 1`. -/
def parens (g : ℕ) : Nest → List (Option Int)
  | nil => []
  | leaf _ rest => none :: rest.parens g
  | group false body rest => body.parens g ++ rest.parens (g + body.captures)
  | group true body rest =>
    some ((2 * (g + 1) : ℕ) : Int) :: body.parens (g + 1) ++
      some ((2 * (g + 1) + 1 : ℕ) : Int) :: rest.parens (g + 1 + body.captures)

/-- No capturing group stands inside another one. -/
def flat : Nest → Bool
  | nil => true
  | leaf _ rest => rest.flat
  | group false body rest => body.flat && rest.flat
  | group true body rest => body.captures = 0 && rest.flat

/-- The code of the sequence when `g` groups have been opened before it. -/
def code (g : ℕ) : Nest → List ReInst
  | nil => []
  | leaf l rest => l.inst :: rest.code g
  | group false body rest => body.code g ++ rest.code (g + body.captures)
  | group true body rest =>
    saveTo (2 * (g + 1)) :: body.code (g + 1) ++
      saveTo (2 * (g + 1 + body.captures) + 1) :: rest.code (g + 1 + body.captures)

/--
What the sequence consumes from a position: where it ends, and where the text of each
capturing group begins and ends, in the order in which the groups open.
-/
def consumes (s : Subject) : Nest → ℕ → Option (ℕ × List (ℕ × ℕ))
  | nil, pos => some (pos, [])
  | leaf l rest, pos => do
    let mid ← l.step s pos
    rest.consumes s mid
  | group capture body rest, pos => do
    let (mid, inner) ← body.consumes s pos
    let (stop, later) ← rest.consumes s mid
    return (stop, (if capture then (pos, mid) :: inner else inner) ++ later)

/-! ## The compiled code -/

theorem genSequence_branch (n : Nest) (c : Code) :
    genSequence n.branch c = ⟨c.program ++ n.code c.groups, c.groups + n.captures⟩ := by
  induction n generalizing c with
  | nil => simp [branch, genSequence, code, captures]
  | leaf l rest ih => simp [branch, genSequence, genAtom, quantify, code, captures, ih]
  | group capture body rest ihb ihr =>
    cases capture with
    | false =>
      simp only [branch, genSequence, genAtom, genAlternation, quantify, code, captures,
        Code.openGroup, Code.closeGroup, Bool.false_eq_true, if_false, ihb, ihr]
      simp [Nat.add_assoc]
    | true =>
      simp only [branch, genSequence, genAtom, genAlternation, quantify, code, captures,
        Code.openGroup, Code.closeGroup, if_true, ihb, ihr]
      simp [saveTo, Nat.add_assoc, Nat.add_left_comm, Int.mul_comm]

theorem intact_branch (n : Nest) (g : ℕ) (I : List (Option Int)) :
    n.branch.intact g I = true := by
  induction n generalizing g I with
  | nil => rfl
  | leaf l rest ih => simp [branch, Sequence.intact, Atom.intact, quantIntact, ih]
  | group capture body rest ihb ihr =>
    cases capture <;>
      simp [branch, Sequence.intact, Atom.intact, Alternation.intact, quantIntact, ihb, ihr]

theorem length_parens (n : Nest) (g : ℕ) : (n.parens g).length = (n.code g).length := by
  induction n generalizing g with
  | nil => rfl
  | leaf l rest ih => simp [parens, code, ih]
  | group capture body rest ihb ihr => cases capture <;> simp [parens, code, ihb, ihr]

theorem flat_of_captures (n : Nest) (h : n.captures = 0) : n.flat = true := by
  induction n with
  | nil => rfl
  | leaf l rest ih => exact ih h
  | group capture body rest ihb ihr =>
    cases capture with
    | false =>
      obtain ⟨hb, hr⟩ := Nat.add_eq_zero_iff.mp h
      simp [flat, ihb hb, ihr hr]
    | true => simp [captures] at h

/-- The slots are those of the parentheses exactly when no capturing group is nested. -/
theorem slotsOf_code_iff (n : Nest) (g : ℕ) : slotsOf (n.code g) = n.parens g ↔ n.flat = true := by
  induction n generalizing g with
  | nil => simp [slotsOf, code, parens, flat]
  | leaf l rest ih =>
    have hslot : l.inst.slot = none := by cases l <;> rfl
    have hcons : slotsOf (l.inst :: rest.code g) = none :: slotsOf (rest.code g) := by
      rw [slotsOf, List.map_cons, hslot]
      rfl
    rw [code, parens, flat, hcons, List.cons.injEq, ih]
    simp
  | group capture body rest ihb ihr =>
    have hlen : ∀ g, (slotsOf (body.code g)).length = (body.parens g).length := by
      intro g
      rw [length_slotsOf, length_parens]
    cases capture with
    | false =>
      rw [code, parens, flat, slotsOf_append, Bool.and_eq_true, ← ihb g,
        ← ihr (g + body.captures)]
      constructor
      · intro h
        exact List.append_inj h (hlen g)
      · rintro ⟨h, h'⟩
        rw [h, h']
    | true =>
      have hslots : slotsOf ((group true body rest).code g) =
          some ((2 * (g + 1) : ℕ) : Int) :: slotsOf (body.code (g + 1)) ++
            some ((2 * (g + 1 + body.captures) + 1 : ℕ) : Int) ::
              slotsOf (rest.code (g + 1 + body.captures)) := by
        simp [code, slotsOf, saveTo, ReInst.slot]
      rw [hslots, parens, flat, Bool.and_eq_true, decide_eq_true_iff,
        ← ihr (g + 1 + body.captures)]
      constructor
      · intro h
        obtain ⟨-, htail⟩ := List.append_inj h (by simp [hlen])
        obtain ⟨hclose, hrest⟩ := List.cons.inj htail
        have := Int.natCast_inj.mp (Option.some.inj hclose)
        exact ⟨by omega, hrest⟩
      · rintro ⟨h, h'⟩
        have hbody := (ihb (g + 1)).mpr (body.flat_of_captures h)
        rw [hbody, h', h, Nat.add_zero]

/-! ## Runs of the code -/

theorem le_stop {s : Subject} {n : Nest} {pos stop : ℕ} {spans : List (ℕ × ℕ)}
    (h : n.consumes s pos = some (stop, spans)) :
    pos ≤ stop ∧ spans.length = n.captures ∧
      ∀ m ∈ spans, pos ≤ m.1 ∧ m.1 ≤ m.2 ∧ m.2 ≤ stop := by
  induction n generalizing pos stop spans with
  | nil =>
    cases h
    exact ⟨le_rfl, rfl, by simp⟩
  | leaf l rest ih =>
    obtain ⟨mid, hmid, h⟩ := Option.bind_eq_some_iff.mp h
    obtain ⟨hle, hlen, hspans⟩ := ih h
    have := l.le_step hmid
    refine ⟨by omega, hlen, fun m hm => ?_⟩
    have := hspans m hm
    omega
  | group capture body rest ihb ihr =>
    obtain ⟨⟨mid, inner⟩, hbody, h⟩ := Option.bind_eq_some_iff.mp h
    obtain ⟨⟨stop', later⟩, hrest, h⟩ := Option.bind_eq_some_iff.mp h
    obtain ⟨hle, hlen, hinner⟩ := ihb hbody
    obtain ⟨hle', hlen', hlater⟩ := ihr hrest
    have hgroup : ∀ m ∈ (if capture then (pos, mid) :: inner else inner),
        pos ≤ m.1 ∧ m.1 ≤ m.2 ∧ m.2 ≤ mid := by
      cases capture with
      | false => exact hinner
      | true => exact List.forall_mem_cons.mpr ⟨⟨le_rfl, hle, le_rfl⟩, hinner⟩
    have hcount : (if capture then (pos, mid) :: inner else inner).length + later.length =
        (group capture body rest).captures := by
      cases capture <;> simp [captures, hlen, hlen']
    cases h
    refine ⟨by omega, by rw [List.length_append, hcount], fun m hm => ?_⟩
    rcases List.mem_append.mp hm with hm | hm
    · have := hgroup m hm
      omega
    · have := hlater m hm
      omega

theorem stop_le {s : Subject} {n : Nest} {pos stop : ℕ} {spans : List (ℕ × ℕ)}
    (h : n.consumes s pos = some (stop, spans)) (hpos : pos ≤ s.length) : stop ≤ s.length := by
  induction n generalizing pos stop spans with
  | nil =>
    cases h
    exact hpos
  | leaf l rest ih =>
    obtain ⟨mid, hmid, h⟩ := Option.bind_eq_some_iff.mp h
    exact ih h (l.step_le hmid hpos)
  | group capture body rest ihb ihr =>
    obtain ⟨⟨mid, inner⟩, hbody, h⟩ := Option.bind_eq_some_iff.mp h
    obtain ⟨⟨stop', later⟩, hrest, h⟩ := Option.bind_eq_some_iff.mp h
    cases h
    exact ihr hrest (ihb hbody hpos)

end Nest

section Run

variable {program : List ReInst} {s : Subject} {pc pos : ℕ} {p : List Conf}

def CodeAt (program : List ReInst) (pc : ℕ) (code : List ReInst) : Prop :=
  code <+: program.drop pc

theorem CodeAt.left {S T : List ReInst} (h : CodeAt program pc (S ++ T)) : CodeAt program pc S :=
  (List.prefix_append S T).trans h

theorem CodeAt.right {S T : List ReInst} (h : CodeAt program pc (S ++ T)) :
    CodeAt program (pc + S.length) T := by
  obtain ⟨U, hU⟩ := h
  have hdrop : program.drop (pc + S.length) = T ++ U := by
    rw [← List.drop_drop, ← hU, List.append_assoc, List.drop_left]
  rw [CodeAt, hdrop]
  exact List.prefix_append T U

theorem CodeAt.tail {i : ReInst} {S : List ReInst} (h : CodeAt program pc (i :: S)) :
    CodeAt program (pc + 1) S :=
  CodeAt.right (S := [i]) h

theorem CodeAt.fetch {i : ReInst} {S : List ReInst} (h : CodeAt program pc (i :: S)) :
    Regex.fetch program pc = some i := by
  obtain ⟨U, hU⟩ := h
  refine fetch_eq_some.mpr ⟨by simp, ?_⟩
  have := congrArg (·[0]?) hU
  simpa using this.symm

theorem CodeAt.leaf_path {l : Leaf} {S : List ReInst} (h : CodeAt program pc (l.inst :: S))
    (hp : Search.GoalPath (next program s) (AtMatch program) ⟨pc, pos⟩ p)
    (captures : List Int) :
    ∃ mid q, l.step s pos = some mid ∧
      Search.GoalPath (next program s) (AtMatch program) ⟨(pc + 1 : ℕ), mid⟩ q ∧
      saveAll program captures p = saveAll program captures q := by
  have hf := h.fetch
  cases hp with
  | goal hmatch =>
    obtain ⟨i, hi, hop⟩ := hmatch
    obtain rfl : l.inst = i := Option.some.inj (hf.symm.trans hi)
    cases l <;> cases hop
  | @step _ d q _ hd hq =>
    rw [next_of_fetch hf] at hd
    obtain ⟨mid, hmid, rfl⟩ := Leaf.mem_next hd
    refine ⟨mid, q, hmid, hq, ?_⟩
    have hop : l.inst.op ≠ .reSave := by cases l <;> simp [Leaf.inst]
    have hkept : saveAt program captures ⟨pc, pos⟩ = captures := by simp [saveAt, hf, hop]
    rw [saveAll, List.foldl_cons, hkept]
    rfl

theorem CodeAt.save_path {slot : ℕ} {S : List ReInst} (h : CodeAt program pc (saveTo slot :: S))
    (hp : Search.GoalPath (next program s) (AtMatch program) ⟨pc, pos⟩ p)
    (captures : List Int) :
    ∃ q, Search.GoalPath (next program s) (AtMatch program) ⟨(pc + 1 : ℕ), pos⟩ q ∧
      saveAll program captures p = saveAll program (captures.set slot pos) q := by
  have hf := h.fetch
  cases hp with
  | goal hmatch =>
    obtain ⟨i, hi, hop⟩ := hmatch
    obtain rfl : saveTo slot = i := Option.some.inj (hf.symm.trans hi)
    cases hop
  | @step _ d q _ hd hq =>
    rw [next_of_fetch hf] at hd
    obtain rfl : d = _ := List.mem_singleton.mp hd
    refine ⟨q, hq, ?_⟩
    have hset : saveAt program captures ⟨pc, pos⟩ = captures.set slot pos := by
      simp [saveAt, hf, saveTo]
    rw [saveAll, List.foldl_cons, hset]
    rfl

theorem CodeAt.match_path {S : List ReInst} (h : CodeAt program pc ({ op := .reMatch } :: S))
    (hp : Search.GoalPath (next program s) (AtMatch program) ⟨pc, pos⟩ p)
    (captures : List Int) : saveAll program captures p = captures := by
  have hf := h.fetch
  cases hp with
  | goal _ => simp [saveAll, saveAt, hf]
  | step _ hd _ =>
    rw [next_of_fetch hf] at hd
    cases hd

/-- The offsets of the groups after `g`, stored in their slots; nothing else is changed. -/
structure StoredSpans (g : ℕ) (spans : List (ℕ × ℕ)) (captures captures' : List Int) : Prop where
  length : captures'.length = captures.length
  offsets : ∀ k m, spans[k]? = some m → captures'[(g + 1 + k) * 2]? = some (m.1 : Int) ∧
    captures'[(g + 1 + k) * 2 + 1]? = some (m.2 : Int)
  kept : ∀ i, i < (g + 1) * 2 ∨ (g + 1 + spans.length) * 2 ≤ i → captures'[i]? = captures[i]?

theorem StoredSpans.nil (g : ℕ) (captures : List Int) : StoredSpans g [] captures captures :=
  ⟨rfl, by simp, fun _ _ => rfl⟩

theorem StoredSpans.append {g g' : ℕ} {spans spans' : List (ℕ × ℕ)} {C C' C'' : List Int}
    (h : StoredSpans g spans C C') (hg : g' = g + spans.length)
    (h' : StoredSpans g' spans' C' C'') : StoredSpans g (spans ++ spans') C C'' := by
  subst hg
  refine ⟨h'.length.trans h.length, fun k m hk => ?_, fun i hi => ?_⟩
  · rcases Nat.lt_or_ge k spans.length with hlt | hge
    · rw [List.getElem?_append_left hlt] at hk
      have := h.offsets k m hk
      rw [h'.kept _ (.inl (by omega)), h'.kept _ (.inl (by omega))]
      exact this
    · rw [List.getElem?_append_right hge] at hk
      have := h'.offsets _ m hk
      rwa [show g + spans.length + 1 + (k - spans.length) = g + 1 + k by omega] at this
  · rw [List.length_append] at hi
    rw [h'.kept i (by omega), h.kept i (by omega)]

theorem StoredSpans.group {g pos mid : ℕ} {C C' : List Int} (hC : (g + 2) * 2 ≤ C.length)
    (h : StoredSpans (g + 1) [] (C.set (2 * (g + 1)) pos) C') :
    StoredSpans g [(pos, mid)] C (C'.set (2 * (g + 1) + 1) mid) := by
  have hlen : C'.length = C.length := by rw [h.length, List.length_set]
  have hsame : ∀ i : ℕ, C'[i]? = (C.set (2 * (g + 1)) (pos : Int))[i]? := by
    intro i
    refine h.kept i ?_
    rw [List.length_nil]
    omega
  refine ⟨by rw [List.length_set, hlen], fun k m hk => ?_, fun i hi => ?_⟩
  · obtain ⟨rfl, rfl⟩ : k = 0 ∧ (pos, mid) = m := by
      cases k with
      | zero => exact ⟨rfl, Option.some.inj hk⟩
      | succ k => simp at hk
    have hopen : (g + 1 + 0) * 2 = 2 * (g + 1) := by omega
    rw [hopen]
    constructor
    · rw [List.getElem?_set_ne (by omega), hsame, List.getElem?_set_self (by omega)]
    · rw [List.getElem?_set_self (by omega)]
  · rw [List.length_singleton] at hi
    rw [List.getElem?_set_ne (by omega), hsame, List.getElem?_set_ne (by omega)]

/-- The run through the code of a sequence without nested capturing groups. -/
theorem Nest.run_code {n : Nest} {g : ℕ} (hflat : n.flat = true)
    (hcode : CodeAt program pc (n.code g))
    (hp : Search.GoalPath (next program s) (AtMatch program) ⟨pc, pos⟩ p) {C : List Int}
    (hC : (g + 1 + n.captures) * 2 ≤ C.length) :
    ∃ stop spans C' q, n.consumes s pos = some (stop, spans) ∧
      Search.GoalPath (next program s) (AtMatch program) ⟨(pc + (n.code g).length : ℕ), stop⟩ q ∧
      StoredSpans g spans C C' ∧ saveAll program C p = saveAll program C' q := by
  induction n generalizing g pc pos p C with
  | nil => exact ⟨pos, [], C, p, rfl, hp, .nil g C, rfl⟩
  | leaf l rest ih =>
    obtain ⟨mid, q, hmid, hq, hsave⟩ := CodeAt.leaf_path hcode hp C
    obtain ⟨stop, spans, C', q', hrest, hq', hstored, hsave'⟩ := ih hflat hcode.tail hq hC
    refine ⟨stop, spans, C', q', ?_, ?_, hstored, hsave.trans hsave'⟩
    · simp [consumes, hmid, hrest]
    · rw [code, List.length_cons, Nat.add_comm (rest.code g).length, ← Nat.add_assoc]
      exact hq'
  | group capture body rest ihb ihr =>
    cases capture with
    | false =>
      obtain ⟨hb, hr⟩ := Bool.and_eq_true_iff.mp hflat
      rw [captures] at hC
      obtain ⟨mid, inner, C', q, hbody, hq, hstored, hsave⟩ := ihb hb hcode.left hp
        (show _ ≤ C.length by omega)
      have hlen := (le_stop hbody).2.1
      obtain ⟨stop, later, C'', q', hrest, hq', hstored', hsave'⟩ := ihr hr hcode.right hq
        (show _ ≤ C'.length by rw [hstored.length]; omega)
      refine ⟨stop, inner ++ later, C'', q', ?_, ?_, hstored.append (by rw [hlen]) hstored',
        hsave.trans hsave'⟩
      · simp [consumes, hbody, hrest]
      · rw [code, List.length_append, ← Nat.add_assoc]
        exact hq'
    | true =>
      obtain ⟨hb, hr⟩ := Bool.and_eq_true_iff.mp hflat
      have hb : body.captures = 0 := of_decide_eq_true hb
      rw [captures] at hC
      have hpc : pc + (saveTo (2 * (g + 1)) :: body.code (g + 1)).length =
          pc + 1 + (body.code (g + 1)).length := by
        rw [List.length_cons]
        omega
      obtain ⟨q, hq, hsave⟩ := CodeAt.save_path hcode.left hp C
      obtain ⟨mid, inner, C', q', hbody, hq', hstored, hsave'⟩ :=
        ihb (body.flat_of_captures hb) hcode.left.tail hq
          (show _ ≤ (C.set (2 * (g + 1)) pos).length by rw [List.length_set]; omega)
      obtain rfl : inner = [] := List.length_eq_zero_iff.mp ((le_stop hbody).2.1.trans hb)
      have hright := hcode.right
      rw [hpc, hb, Nat.add_zero] at hright
      obtain ⟨q'', hq'', hsave''⟩ := hright.save_path hq' C'
      have hgroup : StoredSpans g [(pos, mid)] C (C'.set (2 * (g + 1) + 1) mid) :=
        .group (by omega) hstored
      obtain ⟨stop, later, C'', q₃, hrest, hq₃, hstored', hsave₃⟩ := ihr hr hright.tail hq''
        (show _ ≤ (C'.set (2 * (g + 1) + 1) mid).length by rw [hgroup.length]; omega)
      refine ⟨stop, (pos, mid) :: later, C'', q₃, ?_, ?_, hgroup.append rfl hstored',
        hsave.trans (hsave'.trans (hsave''.trans hsave₃))⟩
      · simp [consumes, hbody, hrest]
      · rw [code, hb, Nat.add_zero, List.length_append, ← Nat.add_assoc, hpc, List.length_cons]
        rwa [show pc + 1 + (body.code (g + 1)).length + ((rest.code (g + 1)).length + 1) =
          pc + 1 + (body.code (g + 1)).length + 1 + (rest.code (g + 1)).length by omega]

end Run

/-! ## The search -/

section Search

variable {program : List ReInst} {s : Subject} {captureCount n start : ℕ}

/-- What the loop over the starts has found, as a path and the writes along it. -/
theorem reSearch_path (hp : InRange program) (hs : SavesFit program captureCount)
    (generation : UInt32) (generations : ℕ → UInt32) (hn : start + n ≤ s.length + 1)
    {r : RunResult}
    (h : reSearch program program.length captureCount s n start generation generations = some r)
    (hr : r.result = true) :
    ∃ t ≤ s.length, ∃ p,
      Search.GoalPath (next program s) (AtMatch program) ⟨(0 : ℕ), t⟩ p ∧
      r.captures = saveAll program (freshCaptures captureCount t) p := by
  induction n generalizing start generation generations with
  | zero =>
    cases h
    cases hr
  | succ n ih =>
    have hstart : start ≤ s.length := by omega
    have hs' : SavesFit program (freshCaptures captureCount start).length := by
      rwa [length_freshCaptures]
    rcases hg : nextGeneration generation generations with ⟨g, table⟩
    obtain ⟨r', hrun, href⟩ := @reRun_start program s g hp _ hs' start hstart table
    simp only [reSearch, hg, hrun _ le_rfl] at h
    cases hr' : r'.result with
    | true =>
      rw [hr', if_pos rfl] at h
      cases h
      obtain ⟨p, hfirst, hcap⟩ := href.firstPath hr
      exact ⟨start, hstart, p, hfirst.path, hcap⟩
    | false =>
      rw [hr', if_neg (by simp)] at h
      exact ih _ _ (by omega) h

end Search

/-! ## Whole patterns -/

def Nest.tree (n : Nest) : Alternation := .last n.branch

theorem Nest.genPattern_tree (n : Nest) : genPattern n.tree =
    ⟨saveTo 0 :: n.code 0 ++ [saveTo 1, { op := .reMatch }], n.captures⟩ := by
  rw [genPattern, tree, genAlternation, genSequence_branch]
  simp [saveTo]

/-- The offsets stored by a successful call tell what the pattern and its groups consume. -/
def Delimits (n : Nest) (s : Subject) (nmatch : ℕ) (pmatch : List RegMatch) : Prop :=
  ∃ start stop spans, n.consumes s start = some (stop, spans) ∧
    ∀ k m, k < nmatch → k ≤ n.captures → pmatch[k]? = some m →
      ∃ so eo, ((start, stop) :: spans)[k]? = some (so, eo) ∧ m = ⟨so, eo⟩ ∧
        so ≤ eo ∧ eo ≤ s.length

section Pattern

variable {regex : CString} {cflags : UInt32} {heap heap' : Heap} {preg : RegexT}
  {program : List ReInst} {n : Nest}

/-- The captures at the end of the program: the match, and what each group consumed. -/
theorem Nest.run_pattern (hflat : n.flat = true) {s : Subject} {t : ℕ} {p : List Conf}
    (hp : Search.GoalPath (next (genPattern n.tree).program s)
      (AtMatch (genPattern n.tree).program) ⟨(0 : ℕ), t⟩ p) :
    ∃ stop spans C', n.consumes s t = some (stop, spans) ∧
      StoredSpans 0 spans ((freshCaptures ((n.captures + 1) * 2) t).set 0 t) C' ∧
      saveAll (genPattern n.tree).program (freshCaptures ((n.captures + 1) * 2) t) p =
        C'.set 1 stop := by
  have hcode : CodeAt (genPattern n.tree).program 0
      ((saveTo 0 :: n.code 0) ++ [saveTo 1, { op := .reMatch }]) := by
    rw [n.genPattern_tree]
    exact List.prefix_rfl
  have hfresh : (freshCaptures ((n.captures + 1) * 2) t).length = (n.captures + 1) * 2 :=
    length_freshCaptures _ _
  obtain ⟨q, hq, hsave⟩ := CodeAt.save_path hcode.left hp
    (freshCaptures ((n.captures + 1) * 2) t)
  obtain ⟨stop, spans, C', q', hconsumes, hq', hstored, hsave'⟩ :=
    Nest.run_code hflat hcode.left.tail hq
      (show _ ≤ ((freshCaptures ((n.captures + 1) * 2) t).set 0 t).length by
        rw [List.length_set, hfresh]
        omega)
  have hright := hcode.right
  rw [List.length_cons, Nat.zero_add, Nat.add_comm] at hright
  rw [Nat.zero_add] at hq'
  obtain ⟨q'', hq'', hsave''⟩ := hright.save_path hq' C'
  have hend := hright.tail.match_path hq'' (C'.set 1 stop)
  exact ⟨stop, spans, C', hconsumes, hstored, by rw [hsave, hsave', hsave'', hend]⟩

theorem StoredSpans.pair {spans : List (ℕ × ℕ)} {C C' : List Int} {t k : ℕ}
    (h : StoredSpans 0 spans (C.set 0 t) C') (stop : ℕ) (hlen : C.length = (spans.length + 1) * 2)
    (hk : k ≤ spans.length) : ∃ so eo, ((t, stop) :: spans)[k]? = some (so, eo) ∧
      (C'.set 1 stop)[k * 2]? = some (so : Int) ∧
      (C'.set 1 stop)[k * 2 + 1]? = some (eo : Int) := by
  have hlength : C'.length = (spans.length + 1) * 2 := by
    rw [h.length, List.length_set, hlen]
  cases k with
  | zero =>
    refine ⟨t, stop, rfl, ?_, ?_⟩
    · rw [List.getElem?_set_ne (by omega), h.kept _ (.inl (by omega)), Nat.zero_mul,
        List.getElem?_set_self (by omega)]
    · rw [Nat.zero_mul, List.getElem?_set_self (by omega)]
  | succ k =>
    obtain ⟨m, hm⟩ : ∃ m, spans[k]? = some m := ⟨_, List.getElem?_eq_getElem (by omega)⟩
    obtain ⟨hso, heo⟩ := h.offsets k m hm
    rw [Nat.zero_add, Nat.add_comm 1 k] at hso heo
    refine ⟨m.1, m.2, by rw [List.getElem?_cons_succ, hm], ?_, ?_⟩
    · rw [List.getElem?_set_ne (by omega), hso]
    · rw [List.getElem?_set_ne (by omega), heo]

theorem delimits_of_flat (hflat : n.flat = true) {s : Subject}
    {captures : List Int} {t : ℕ} {p : List Conf} (ht : t ≤ s.length)
    (hp : Search.GoalPath (next (genPattern n.tree).program s)
      (AtMatch (genPattern n.tree).program) ⟨(0 : ℕ), t⟩ p)
    (hcap : captures = saveAll (genPattern n.tree).program
      (freshCaptures ((n.captures + 1) * 2) t) p) (nmatch : ℕ) (pmatch : List RegMatch) :
    Delimits n s nmatch (storeMatches captures (min nmatch (n.captures + 1)) pmatch) := by
  obtain ⟨stop, spans, C', hconsumes, hstored, hsave⟩ := Nest.run_pattern hflat hp
  rw [hsave] at hcap
  obtain ⟨hle, hlen, hspans⟩ := Nest.le_stop hconsumes
  have hstop := Nest.stop_le hconsumes ht
  refine ⟨t, stop, spans, hconsumes, fun k m hk hsub hm => ?_⟩
  obtain ⟨so, eo, hspan, hso, heo⟩ := hstored.pair (k := k) stop
    (by rw [length_freshCaptures, hlen]) (by omega)
  rw [← hcap] at hso heo
  refine ⟨so, eo, hspan, ?_, ?_⟩
  · obtain ⟨m', -, rfl⟩ : ∃ m', pmatch[k]? = some m' ∧
        RegMatch.mk (captures.getD (k * 2) 0) (captures.getD (k * 2 + 1) 0) = m := by
      rw [storeMatches, List.getElem?_mapIdx] at hm
      obtain ⟨m', hm', rfl⟩ := Option.map_eq_some_iff.mp hm
      exact ⟨m', hm', (if_pos (by omega)).symm⟩
    simp [List.getD_eq_getElem?_getD, hso, heo]
  · rcases List.mem_cons.mp (List.mem_of_getElem? hspan) with heq | hmem
    · cases heq
      exact ⟨hle, hstop⟩
    · have hin := hspans _ hmem
      exact ⟨hin.2.1, by omega⟩

/--
The groups of a sequence are numbered by their parentheses, and the offsets of a match delimit
what they consume, exactly when no capturing group stands inside another one.
-/
theorem groups_numbered_iff (h : regcomp regex cflags heap = some (.ok, preg, heap'))
    (hprogram : preg.reProgram = some program)
    (htree : parsePattern (hasFlag cflags regExtended) regex = some n.tree) :
    preg.reNsub = n.captures ∧
    ((slotsOf program = some 0 :: n.parens 0 ++ [some 1, none] ∧
      ∀ (string : CString) (nmatch : ℕ) (pmatch : List RegMatch) (eflags : UInt32)
        (captures : Bool) (generations : Option (ℕ → UInt32)) (r : ExecResult),
        regexec preg string nmatch pmatch eflags captures generations = some r →
        r.status = .ok → hasFlag cflags regNosub = false →
        Delimits n ⟨string, cflags, eflags⟩ nmatch r.pmatch) ↔
      n.flat = true) := by
  obtain ⟨tree, htree', rfl⟩ := regcomp_accepted h
  obtain rfl : n.tree = tree := Option.some.inj (htree.symm.trans htree')
  obtain rfl : (genPattern n.tree).program = program := Option.some.inj hprogram
  have hgroups : (genPattern n.tree).groups = n.captures := by rw [n.genPattern_tree]
  have hslots : slotsOf (genPattern n.tree).program = some 0 :: n.parens 0 ++ [some 1, none] ↔
      n.flat = true := by
    rw [← n.slotsOf_code_iff 0, n.genPattern_tree]
    have hall : slotsOf (saveTo 0 :: n.code 0 ++ [saveTo 1, { op := .reMatch }]) =
        some 0 :: slotsOf (n.code 0) ++ [some 1, none] := by
      simp [slotsOf, saveTo, ReInst.slot]
    rw [hall, List.append_left_inj, List.cons.injEq, eq_self, true_and]
  refine ⟨hgroups, ⟨fun hall => hslots.mp hall.1, fun hflat => ⟨hslots.mpr hflat, ?_⟩⟩⟩
  intro string nmatch pmatch eflags captures generations r hr hok hsub
  have hmemory : captures = true ∧ ∃ table, generations = some table := by
    by_contra hno
    simp only [regexec, programLength_genPattern, Option.bind_eq_bind, Option.bind_some] at hr
    cases captures <;> cases generations <;> simp at hno <;> cases hr <;> cases hok
  obtain ⟨rfl, table, rfl⟩ := hmemory
  rw [regexec_eq h rfl] at hr
  split at hr
  swap
  · cases hr
  obtain ⟨r', hr', rfl⟩ := Option.map_eq_some_iff.mp hr
  have hres := status_execResult.mp hok
  have hsaves := ((regcomp_slots_iff_intact h rfl htree).mpr (n.intact_branch 0 [some 0])).1
  obtain ⟨t, ht, p, hp, hcap⟩ := reSearch_path (s := ⟨string, cflags, eflags⟩)
    (inRange_genPattern n.tree) hsaves 0 table (Nat.zero_add _).le hr' hres
  rw [hgroups] at hcap
  have hdelimits := delimits_of_flat hflat ht hp hcap nmatch pmatch
  simpa [execResult, hres, hsub, hgroups] using hdelimits

end Pattern

abbrev siblingGroups : CString :=
  ⟨[byte '(', byte 'a', byte ')', byte '(', byte '?', byte ':', byte '(', byte 'b', byte ')',
    byte ')'], by decide⟩

def siblingNest : Nest :=
  .group true (.leaf (.char (byte 'a')) .nil)
    (.group false (.group true (.leaf (.char (byte 'b')) .nil) .nil) .nil)

theorem siblingGroups_numbered : ∃ preg heap' program,
    regcomp siblingGroups regExtended .unlimited = some (.ok, preg, heap') ∧
    preg.reProgram = some program ∧ preg.reNsub = 2 ∧
    slotsOf program = some 0 :: siblingNest.parens 0 ++ [some 1, none] := by
  obtain ⟨preg, heap', h, hprogram⟩ : ∃ preg heap', regcomp siblingGroups regExtended .unlimited =
    some (.ok, preg, heap') ∧ preg.reProgram.isSome := ⟨_, _, rfl, rfl⟩
  obtain ⟨program, hprogram⟩ := Option.isSome_iff_exists.mp hprogram
  obtain ⟨hsub, hiff⟩ := groups_numbered_iff (n := siblingNest) h hprogram rfl
  exact ⟨preg, heap', program, h, hprogram, hsub, (hiff.mpr rfl).1⟩

abbrev nestedGroups : CString :=
  ⟨[byte '(', byte '(', byte 'a', byte ')', byte ')'], by decide⟩

def nestedNest : Nest :=
  .group true (.group true (.leaf (.char (byte 'a')) .nil) .nil) .nil

/-- Both groups store their end in slot 5, and `pmatch[1]` has no end. -/
theorem nestedGroups_not_numbered : ∃ preg heap' program r,
    regcomp nestedGroups regExtended .unlimited = some (.ok, preg, heap') ∧
    parsePattern (hasFlag regExtended regExtended) nestedGroups = some nestedNest.tree ∧
    preg.reProgram = some program ∧
    regexec preg litA 3 (List.replicate 3 ⟨-1, -1⟩) 0 true (some fun _ => 0) = some r ∧
    r.status = .ok ∧ r.pmatch = [⟨0, 1⟩, ⟨0, -1⟩, ⟨0, 1⟩] ∧
    ¬ slotsOf program = some 0 :: nestedNest.parens 0 ++ [some 1, none] := by
  refine ⟨_, _, _, _, rfl, rfl, rfl, rfl, rfl, rfl, ?_⟩
  decide

end LampUserspace.Regex
