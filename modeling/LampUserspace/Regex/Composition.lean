import Mathlib.Tactic.IntervalCases
import LampUserspace.Regex.Exits
import LampUserspace.Regex.Regcomp
import LampUserspace.Regex.Spans

/-! # Sequences, compiled in parts and as a whole

The range compiled for a sequence, against the ranges its pieces compile to on
their own. The pieces compose exactly when none with a branch to its own end
stands before code that begins with an inserted split.
-/

namespace LampUserspace.Regex

variable {s : Subject} {depth k : ℕ} {inGroup : Bool}

theorem ReInst.le_pos_of_mem_next {i : ReInst} {c d : Conf} (h : d ∈ i.next s c) :
    c.pos ≤ d.pos := by
  rcases ReInst.mem_next h with ⟨-, h⟩ | ⟨-, -, h⟩ | ⟨-, -, h, -⟩ <;> omega

theorem Spans.le {Q : List ReInst} {start stop i j : ℕ} (h : Spans Q s start stop i j) :
    i ≤ j := by
  have hle : ∀ {c d : Conf}, Search.Reachable (next Q s) c d → c.pos ≤ d.pos := by
    intro c d hr
    induction hr with
    | refl => exact le_rfl
    | @tail d e _ hs ih =>
      have hs : e ∈ next Q s d := hs
      unfold next at hs
      split at hs
      · simp at hs
      · exact ih.trans (ReInst.le_pos_of_mem_next hs)
  exact hle h

/-- The positions a run can come to, given a set that it cannot leave. -/
theorem Spans.mem_of_closed {Q : List ReInst} {start stop i j : ℕ} (L : List Conf)
    (hL : ∀ c ∈ L, ∀ d ∈ next Q s c, d ∈ L) (h : Spans Q s start stop i j)
    (hstart : ⟨start, i⟩ ∈ L) : ⟨stop, j⟩ ∈ L := by
  exact h.invariant hstart hL

/-! ## Sequences -/

/-- `k` passes of the loop of `re_compile_sequence` without error. -/
structure PieceRun (alternation : ReCompiler → Option ReCompiler) (inGroup : Bool) (k : ℕ)
    (c : ℕ → ReCompiler) : Prop where
  ready : Ready (c 0)
  ok : ∀ t ≤ k, (c t).error = .ok
  stops : ∀ t < k, reSequenceStops inGroup (c t) = some false
  step : ∀ t < k, reCompilePiece alternation inGroup (c t) = some (true, c (t + 1))

/-- `program` comes from the same pass made on its own, after the first `RE_SAVE`. -/
def PieceAlone (alternation : ReCompiler → Option ReCompiler) (inGroup : Bool) (c : ReCompiler)
    (program : List ReInst) : Prop :=
  ∃ d d' : ReCompiler, d.program = [{ op := .reSave }] ∧ d.error = .ok ∧ d.cursor = c.cursor ∧
    d.extended = c.extended ∧ reCompilePiece alternation inGroup d = some (true, d') ∧
    d'.error = .ok ∧ d'.program = program

/-- The positions `i = m 0 ≤ … ≤ m k = j` between which the pieces on their own lead. -/
def PieceChain (s : Subject) (k : ℕ) (P : ℕ → List ReInst) (i j : ℕ) : Prop :=
  ∃ m : ℕ → ℕ, m 0 = i ∧ m k = j ∧
    ∀ t < k, m t ≤ m (t + 1) ∧ Spans (P t) s 1 (P t).length (m t) (m (t + 1))

/-- The branches to the end of a piece are the same after the later pieces are compiled. -/
def ExitsKept (k : ℕ) (c : ℕ → ReCompiler) : Prop :=
  ∀ t < k, ∀ (q : ℕ) (i : ReInst), (c t).length ≤ q → (c (t + 1)).program[q]? = some i →
    ((c (t + 1)).length : Int) ∈ i.targets →
      (c k).program[q]?.map ReInst.targets = some i.targets

def parsePieces (alternation : List UInt8 → Option (Alternation × List UInt8))
    (extended : Bool) : ℕ → List UInt8 → Option Sequence
  | 0, _ => some .nil
  | n + 1, p => do
    let (a, p) ← parseAtom alternation extended p
    let (q, p) ← parseQuantifier extended p
    let rest ← parsePieces alternation extended n p
    return .cons a q rest

/-- No piece with an exit stands before code that begins with inserted splits. -/
def Sequence.clear : Sequence → Bool
  | .nil => true
  | .cons a q rest => !(quantExits a.exits q && rest.leads) && rest.clear

theorem pieceChain_succ {P : ℕ → List ReInst} {i j : ℕ} :
    PieceChain s (k + 1) P i j ↔
      ∃ m, Spans (P 0) s 1 (P 0).length i m ∧ PieceChain s k (fun t => P (t + 1)) m j := by
  constructor
  · rintro ⟨m, rfl, rfl, hm⟩
    exact ⟨m 1, (hm 0 (by omega)).2, fun t => m (t + 1), rfl, rfl,
      fun t ht => hm (t + 1) (by omega)⟩
  · rintro ⟨m₁, h, m, rfl, rfl, hm⟩
    refine ⟨fun t => if t = 0 then i else m (t - 1), rfl, by simp, fun t ht => ?_⟩
    cases t with
    | zero => simpa using ⟨h.le, h⟩
    | succ t => simpa using hm t (by omega)

theorem PieceRun.tail {alternation : ReCompiler → Option ReCompiler} {c : ℕ → ReCompiler}
    (h : PieceRun alternation inGroup (k + 1) c) (hready : Ready (c 1)) :
    PieceRun alternation inGroup k fun t => c (t + 1) :=
  ⟨hready, fun t ht => h.ok (t + 1) (by omega), fun t ht => h.stops (t + 1) (by omega),
    fun t ht => h.step (t + 1) (by omega)⟩

theorem exitsKept_succ {c : ℕ → ReCompiler} : ExitsKept (k + 1) c ↔
    (∀ (q : ℕ) (i : ReInst), (c 0).length ≤ q → (c 1).program[q]? = some i →
      ((c 1).length : Int) ∈ i.targets →
        (c (k + 1)).program[q]?.map ReInst.targets = some i.targets) ∧
    ExitsKept k fun t => c (t + 1) := by
  constructor
  · exact fun h => ⟨h 0 (by omega), fun t ht => h (t + 1) (by omega)⟩
  · rintro ⟨h0, h⟩ t ht
    cases t with
    | zero => exact h0
    | succ t => exact h t (by omega)

/-- The exits of a piece survive what follows exactly when nothing is inserted at its end. -/
theorem exits_kept_iff {A P Q S T : List ReInst} {ℓ m : ℕ} (h : Extends A P ℓ S)
    (hS : Enclosed S) (h' : Extends P Q m T) :
    (∀ (q : ℕ) (i : ReInst), A.length ≤ q → P[q]? = some i → (P.length : Int) ∈ i.targets →
      Q[q]?.map ReInst.targets = some i.targets) ↔ (HasExit S → m = 0) := by
  have hlen := h.length
  -- the instruction at `A.length + k` before and after the later pieces
  have hinst : ∀ {k : ℕ} {j : ReInst}, S[k]? = some j → ∃ i, P[A.length + k]? = some i ∧
      i.targets = j.targets.map (· + (A.length : Int)) ∧
      Q[A.length + k]?.map ReInst.targets = some (i.targets.map (bumpAt P.length m)) := by
    intro k j hk
    obtain ⟨i, hi, he⟩ := h.getElem? hk
    have ht : i.targets = j.targets.map (· + (A.length : Int)) := by
      rw [← ReInst.targets_clean, he, ReInst.targets_mapTargets]
    have hle : ∀ t ∈ i.targets, t ≤ P.length := by
      rw [ht]
      intro t htm
      obtain ⟨u, hu, rfl⟩ := List.mem_map.mp htm
      have := hS j (List.mem_of_getElem? hk) u hu
      omega
    obtain ⟨i', hi', he', -⟩ := h'.kept _ i hi hle
    refine ⟨i, hi, ht, ?_⟩
    rw [hi', Option.map_some, ← ReInst.targets_clean, he', ReInst.targets_mapTargets,
      ReInst.targets_clean]
  constructor
  · rintro hkept ⟨j, hj, hexit⟩
    obtain ⟨k, hk⟩ := List.mem_iff_getElem?.mp hj
    obtain ⟨i, hi, ht, hQ⟩ := hinst hk
    have hmem : (P.length : Int) ∈ i.targets := by
      rw [ht]
      exact List.mem_map.mpr ⟨_, hexit, by omega⟩
    have heq := Option.some.inj (hQ.symm.trans (hkept _ i (Nat.le_add_right _ _) hi hmem))
    have hfix := List.map_eq_map_iff.mp (heq.trans (List.map_id i.targets).symm) _ hmem
    simp only [bumpAt, ge_iff_le, le_refl, if_true, id] at hfix
    omega
  · intro hzero q i hq hi hmem
    obtain ⟨k, rfl⟩ : ∃ k, q = A.length + k := ⟨q - A.length, by omega⟩
    have hlt : k < S.length := by
      have := (List.getElem?_eq_some_iff.mp hi).1
      omega
    obtain ⟨i', hi', ht, hQ⟩ := hinst (List.getElem?_eq_getElem hlt)
    obtain rfl : i = i' := Option.some.inj (hi.symm.trans hi')
    have hm : m = 0 := by
      refine hzero ⟨S[k], List.getElem_mem hlt, ?_⟩
      rw [ht] at hmem
      obtain ⟨u, hu, he⟩ := List.mem_map.mp hmem
      obtain rfl : u = S.length := by omega
      exact hu
    rw [hQ, hm]
    congr 1
    refine (List.map_congr_left fun t _ => ?_).trans (List.map_id' _)
    simp [bumpAt]

/-- Joined code is plain concatenation when there is no exit to displace, or no displacement. -/
theorem join_eq_append_of {S T : List ReInst} {m : ℕ} (hS : Enclosed S)
    (h : HasExit S → m = 0) : join S m T = S ++ reloc S.length T := by
  by_cases hexit : HasExit S
  · rw [join, h hexit]
    congr 1
    refine (List.map_congr_left fun i _ => ReInst.mapTargets_eq_self fun t _ => ?_).trans
      (List.map_id' S)
    simp [bumpAt]
  · refine join_eq_append fun i hi t ht => ?_
    refine lt_of_le_of_ne (hS i hi t ht).2 fun he => hexit ⟨i, hi, he ▸ ht⟩

section Run

variable {c : ℕ → ReCompiler} {P : ℕ → List ReInst}

/-- The recursive calls below an alternation of depth `depth + 1`. -/
theorem nested_compiled (extended : Bool) : ∀ e, Ready e → e.extended = extended →
    e.cursor.length < depth + 1 → Total (reCompileAlternation depth true e)
      (Compiled (parseAlternation depth extended true) genAlternation e) := by
  rintro e he rfl hl
  exact reCompileAlternation_compiled depth true e he (by omega)

theorem piece_spec {c d : ReCompiler} (hc : Ready c) (hdepth : c.cursor.length ≤ depth + 1)
    (hstop : branchEnds c.extended inGroup c.cursor = some false)
    (hstep : reCompilePiece (reCompileAlternation depth true) inGroup c = some (true, d))
    (hd : d.error = .ok) :
    Past c.cursor d.cursor ∧ d.extended = c.extended ∧ ∃ a q p,
      parseAtom (parseAlternation depth c.extended true) c.extended c.cursor = some (a, p) ∧
      parseQuantifier c.extended p = some (q, d.cursor) ∧ d.code = genPiece a q c.code := by
  obtain ⟨r, hr, hspec⟩ :=
    reCompilePiece_compiled (nested_compiled c.extended) hc rfl hdepth hstop
  rw [hstep] at hr
  obtain rfl := Option.some.inj hr
  exact ⟨hspec.past rfl, hspec.frame.extended, (hspec.done hd).2⟩

theorem piece_ready {c d : ReCompiler} {a : Atom} {q : Quantifier} (hc : Ready c)
    (hok : c.error = .ok) (hpast : Past c.cursor d.cursor) (hd : d.code = genPiece a q c.code) :
    Ready d := by
  refine ⟨hpast.1, fun _ => ?_⟩
  have hp : d.program = (genPiece a q c.code).program := congrArg Code.program hd
  exact hp ▸ (extends_genPiece a q c.code).ne_nil (hc.program hok)

theorem PieceAlone.spans_iff {c : ReCompiler} {program : List ReInst} {a : Atom} {q : Quantifier}
    {p r : List UInt8} (h : PieceAlone (reCompileAlternation depth true) inGroup c program)
    (hc : InText c.cursor) (hdepth : c.cursor.length ≤ depth + 1)
    (hstop : branchEnds c.extended inGroup c.cursor = some false)
    (ha : parseAtom (parseAlternation depth c.extended true) c.extended c.cursor = some (a, p))
    (hq : parseQuantifier c.extended p = some (q, r)) {i j : ℕ} :
    Spans program s 1 program.length i j ↔ CodeSpans (quantCode a.code q) s i j := by
  obtain ⟨d, d', hd, hok, hcursor, hext, hstep, hok', rfl⟩ := h
  have hready : Ready d := ⟨hcursor ▸ hc, fun _ => by simp [hd]⟩
  obtain ⟨-, -, a', q', p', ha', hq', hcode⟩ := piece_spec hready (hcursor ▸ hdepth)
    (by rw [hcursor, hext]; exact hstop) hstep hok'
  rw [hext, hcursor, ha] at ha'
  obtain ⟨rfl, rfl⟩ := Prod.mk.inj (Option.some.inj ha')
  rw [hext, hq] at hq'
  obtain ⟨rfl, -⟩ := Prod.mk.inj (Option.some.inj hq')
  have hextends := extends_genPiece a q d.code
  rw [← hcode, show d.code.program = _ from hd] at hextends
  exact hextends.spans_iff (enclosed_quantCode a.enclosed q)

theorem PieceRun.spec (hrun : PieceRun (reCompileAlternation depth true) inGroup k c)
    (hdepth : (c 0).cursor.length ≤ depth + 1)
    (halone : ∀ t < k, PieceAlone (reCompileAlternation depth true) inGroup (c t) (P t)) :
    ∃ b, parsePieces (parseAlternation depth (c 0).extended true) (c 0).extended k
        (c 0).cursor = some b ∧ (c k).code = genSequence b (c 0).code ∧
      (ExitsKept k c ↔ b.clear = true) ∧
      (b.clear = true → ∀ s i j, CodeSpans b.code s i j ↔ PieceChain s k P i j) := by
  induction k generalizing c P with
  | zero =>
    refine ⟨.nil, rfl, rfl, iff_of_true (fun t ht => absurd ht (by omega)) rfl, fun _ s i j => ?_⟩
    have hcode : Sequence.nil.code = [] := by simp [Sequence.code]
    rw [hcode]
    constructor
    · intro h
      exact ⟨fun _ => i, rfl, spans_end (Q := []) h, fun t ht => absurd ht (by omega)⟩
    · rintro ⟨m, rfl, rfl, -⟩
      exact .refl
  | succ k ih =>
    have hok := hrun.ok 0 (by omega)
    have hstop := hrun.stops 0 (by omega)
    rw [reSequenceStops_eq hok] at hstop
    obtain ⟨hpast, hext, a, q, p, ha, hq, hcode⟩ := piece_spec hrun.ready hdepth hstop
      (hrun.step 0 (by omega)) (hrun.ok 1 (by omega))
    obtain ⟨b, hb, hbcode, hkept, hchain⟩ :=
      ih (c := fun t => c (t + 1)) (P := fun t => P (t + 1))
        (hrun.tail (piece_ready hrun.ready hok hpast hcode))
        (hpast.2.le.trans hdepth) fun t ht => halone (t + 1) (by omega)
    have hpiece :
        Extends (c 0).program (c 1).program (quantLead a.lead q) (quantCode a.code q) := by
      have h := extends_genPiece a q (c 0).code
      rwa [← hcode] at h
    have hrest : Extends (c 1).program (c (k + 1)).program b.lead b.code := by
      have h := extends_genSequence b (c 1).code
      rwa [← hbcode] at h
    have henclosed := enclosed_quantCode a.enclosed q
    -- the first piece is safe when it has no exit or nothing is inserted after it
    have hfirst : (HasExit (quantCode a.code q) → b.lead = 0) ↔
        (!(quantExits a.exits q && b.leads)) = true := by
      have hexits := quantExits_iff a.enclosed a.exits_iff q
      have hleads := b.leads_iff
      rw [Bool.not_eq_true', ← Bool.not_eq_true, Bool.and_eq_true, hexits, hleads, not_and,
        Nat.pos_iff_ne_zero, not_not]
    refine ⟨.cons a q b, ?_, ?_, ?_, fun hclear s i j => ?_⟩
    · simp only [hext] at hb
      simp [parsePieces, ha, hq, hb]
    · rw [hbcode, hcode]
      rfl
    · rw [exitsKept_succ, Sequence.clear, Bool.and_eq_true]
      exact and_congr ((exits_kept_iff hpiece henclosed hrest).trans hfirst) hkept
    · obtain ⟨hq', hb'⟩ := Bool.and_eq_true_iff.mp hclear
      rw [Sequence.code, join_eq_append_of henclosed (hfirst.mpr hq'),
        codeSpans_append henclosed b.enclosed, pieceChain_succ]
      refine exists_congr fun m => and_congr ?_ (hchain hb' s m j)
      exact ((halone 0 (by omega)).spans_iff hrun.ready.text hdepth hstop ha hq).symm

/--
The pieces of a sequence compose, with their exits kept, exactly when no piece with a branch to
its own end stands before code that begins with an inserted split.
-/
theorem sequence_composes_iff (hrun : PieceRun (reCompileAlternation depth true) inGroup k c)
    (hdepth : (c 0).cursor.length ≤ depth + 1)
    (halone : ∀ t < k, PieceAlone (reCompileAlternation depth true) inGroup (c t) (P t)) :
    ((∀ s i j, i ≤ j →
        (Spans (c k).program s (c 0).length (c k).length i j ↔ PieceChain s k P i j)) ∧
      ExitsKept k c) ↔
    ∃ b, parsePieces (parseAlternation depth (c 0).extended true) (c 0).extended k
      (c 0).cursor = some b ∧ b.clear = true := by
  obtain ⟨b, hb, hcode, hkept, hchain⟩ := hrun.spec hdepth halone
  constructor
  · rintro ⟨-, h⟩
    exact ⟨b, hb, hkept.mp h⟩
  · rintro ⟨b', hb', hclear⟩
    obtain rfl : b = b' := Option.some.inj (hb.symm.trans hb')
    refine ⟨fun s i j _ => ?_, hkept.mpr hclear⟩
    have hextends := extends_genSequence b (c 0).code
    rw [← hcode] at hextends
    exact (hextends.spans_iff b.enclosed).trans (hchain hclear s i j)

end Run

/-! ## Two pieces -/

/-- The compiler after `t` passes over the pieces of a pattern. -/
def passes (regex : CString) : ℕ → ReCompiler
  | 0 => (reStart regex regExtended .unlimited).2
  | t + 1 =>
    match reCompilePiece (reCompileAlternation regex.strlen true) false (passes regex t) with
    | none => passes regex t
    | some (_, c) => c

/-- The program of piece `t` of a pattern, compiled on its own. -/
def passAlone (regex : CString) (t : ℕ) : List ReInst :=
  match reCompilePiece (reCompileAlternation regex.strlen true) false
      { passes regex 0 with cursor := (passes regex t).cursor } with
  | none => []
  | some (_, c) => c.program

abbrev optionalA : CString := ⟨[byte 'a', byte '?', byte 'b'], by decide⟩

abbrev optionalAB : CString := ⟨[byte 'a', byte '?', byte 'b', byte '?'], by decide⟩

theorem pieceRun_optionalA :
    PieceRun (reCompileAlternation 3 true) false 2 (passes optionalA) := by
  refine ⟨⟨InText.memory optionalA, fun _ => by decide⟩, fun t ht => ?_, fun t ht => ?_,
    fun t ht => ?_⟩ <;> interval_cases t <;> rfl

theorem pieceAlone_optionalA : ∀ t < 2, PieceAlone (reCompileAlternation 3 true) false
    (passes optionalA t) (passAlone optionalA t) := by
  intro t ht
  refine ⟨{ passes optionalA 0 with cursor := (passes optionalA t).cursor }, ?_⟩
  interval_cases t <;> exact ⟨_, rfl, rfl, rfl, rfl, rfl, rfl, rfl⟩

theorem optionalA_composes :
    (∀ s i j, i ≤ j →
      (Spans (passes optionalA 2).program s (passes optionalA 0).length
        (passes optionalA 2).length i j ↔ PieceChain s 2 (passAlone optionalA) i j)) ∧
    ExitsKept 2 (passes optionalA) :=
  (sequence_composes_iff pieceRun_optionalA (by decide) pieceAlone_optionalA).mpr ⟨_, rfl, rfl⟩

theorem pieceRun_optionalAB :
    PieceRun (reCompileAlternation 4 true) false 2 (passes optionalAB) := by
  refine ⟨⟨InText.memory optionalAB, fun _ => by decide⟩, fun t ht => ?_, fun t ht => ?_,
    fun t ht => ?_⟩ <;> interval_cases t <;> rfl

theorem pieceAlone_optionalAB : ∀ t < 2, PieceAlone (reCompileAlternation 4 true) false
    (passes optionalAB t) (passAlone optionalAB t) := by
  intro t ht
  refine ⟨{ passes optionalAB 0 with cursor := (passes optionalAB t).cursor }, ?_⟩
  interval_cases t <;> exact ⟨_, rfl, rfl, rfl, rfl, rfl, rfl, rfl⟩

/-- The exit of `a?` has been moved past the split of `b?`. -/
theorem optionalAB_not_composes :
    PieceRun (reCompileAlternation 4 true) false 2 (passes optionalAB) ∧
    (∀ t < 2, PieceAlone (reCompileAlternation 4 true) false (passes optionalAB t)
      (passAlone optionalAB t)) ∧
    ¬ ∀ s i j, i ≤ j →
      (Spans (passes optionalAB 2).program s (passes optionalAB 0).length
        (passes optionalAB 2).length i j ↔ PieceChain s 2 (passAlone optionalAB) i j) := by
  refine ⟨pieceRun_optionalAB, pieceAlone_optionalAB, fun h => ?_⟩
  have hspans := (h ⟨⟨[], by decide⟩, regExtended, 0⟩ 0 0 le_rfl).mpr ?_
  · have hmem := hspans.mem_of_closed [⟨1, 0⟩, ⟨2, 0⟩, ⟨4, 0⟩] (by decide) (by decide)
    revert hmem
    decide
  · refine ⟨fun _ => 0, rfl, rfl, fun t ht => ⟨le_rfl, ?_⟩⟩
    interval_cases t <;> exact .single (by show _ ∈ _; decide)

end LampUserspace.Regex
