import LampUserspace.Regex.Codegen
import LampUserspace.Regex.Growth
import LampUserspace.Regex.Reading

/-! # The compiler against trees

Each function of the compiler returns at every cursor in the pattern. Where it
leaves no error, the pattern reads as a tree and the program has been extended
by the code of that tree.
-/

namespace LampUserspace.Regex

/-- A state in which the compiler can go on reading. -/
structure Ready (c : ReCompiler) : Prop where
  text : InText c.cursor
  program : c.error = .ok → c.program ≠ []

/-- `c'` comes from `c` by compiling what `parse` reads into the code that `gen` makes of it. -/
structure Compiled {τ : Type} (parse : List UInt8 → Option (τ × List UInt8))
    (gen : τ → Code → Code) (c c' : ReCompiler) : Prop where
  frame : Frame c c'
  done : c'.error = .ok → InText c'.cursor ∧ c'.cursor.length ≤ c.cursor.length ∧
    ∃ t, parse c.cursor = some (t, c'.cursor) ∧ c'.code = gen t c.code

/-- The same for a function that returns a number, with `-1` for failure and `0` for nothing. -/
structure AtomCompiled (parse : List UInt8 → Option (Atom × List UInt8)) (c : ReCompiler)
    (r : Option ℕ × ReCompiler) : Prop where
  frame : Frame c r.2
  past : r.1 ≠ none → Past c.cursor r.2.cursor
  done : r.2.error = .ok → r.1 ≠ none ∧ r.1 ≠ some 0 ∧
    ∃ a, parse c.cursor = some (a, r.2.cursor) ∧ r.2.code = genAtom a c.code

variable {c d : ReCompiler} {r : Option ℕ × ReCompiler} {p q : List UInt8} {inGroup : Bool}

/-! ## Leaves -/

theorem Frame.moved (h : Frame { c with cursor := q } d) : Frame c d :=
  ⟨h.cflags, h.extended, h.sticky, fun base hc => h.owns base ⟨hc.live, hc.fresh⟩⟩

theorem AtomCompiled.leaf {parse : List UInt8 → Option (Atom × List UInt8)} {l : Leaf} {k : ℕ}
    (hparse : parse c.cursor = some (.leaf l, q)) (hq : Past c.cursor q)
    (hk : c.error = .ok → k ≠ 0)
    (h : Grows { c with cursor := q } r k ⟨c.program ++ [l.inst], c.groups⟩) :
    AtomCompiled parse c r := by
  have hcursor : r.2.cursor = q := h.cursor
  refine ⟨h.frame.moved, fun _ => hcursor ▸ hq, fun he => ?_⟩
  obtain ⟨hr, hcode⟩ := h.done he
  refine ⟨by simp [hr], by simpa [hr] using hk (h.frame.sticky he), .leaf l, ?_, hcode⟩
  rw [hparse, hcursor]

theorem AtomCompiled.emit {parse : List UInt8 → Option (Atom × List UInt8)} {op : ReOp} (l : Leaf)
    (hl : l.inst = { op := op }) (hparse : parse c.cursor = some (.leaf l, q))
    (hq : Past c.cursor q) (hc : Ready c) :
    AtomCompiled parse c (reEmit { c with cursor := q } op) := by
  refine .leaf hparse hq (fun he => ?_) (hl ▸ reEmit_grows { c with cursor := q } op)
  simpa [ReCompiler.length] using hc.program he

theorem AtomCompiled.failed {parse : List UInt8 → Option (Atom × List UInt8)} {e : RegCode}
    (he : e ≠ .ok) : AtomCompiled parse c (none, { c with error := e }) :=
  ⟨(Frame.refl c).congr rfl rfl (fun h => absurd h he) rfl rfl, fun h => absurd rfl h,
    fun h => absurd h he⟩

theorem reCompileSimpleClass_grows (c : ReCompiler) (kind : UInt8) (negate : Bool) :
    Grows c (some 1, reCompileSimpleClass c kind negate) 1
      ⟨c.program ++ [(Leaf.bracket (simpleClass kind negate)).inst], c.groups⟩ := by
  have h := reEmit_grows c .reClass
  unfold reCompileSimpleClass
  generalize reEmit c .reClass = r at h ⊢
  obtain ⟨_ | index, d⟩ := r
  · exact ⟨h.frame, h.cursor, fun he => nomatch (h.done he).1⟩
  · exact h.modifyInst 1 fun _ => modify_concat _ _ ({ · with set := simpleClass kind negate })

theorem reCompileChar_compiled {parse : List UInt8 → Option (Atom × List UInt8)}
    (hc : Ready c) (h0 : c.cursor ≠ [0]) (hparse : parse c.cursor = parseChar c.cursor) :
    Total (reCompileChar c) (AtomCompiled parse c) := by
  unfold reCompileChar
  refine (reParseEscape_total hc.text h0).bind fun r hr hread => ?_
  match r with
  | .error e => exact .pure (.failed hread)
  | .ok (ch, q) =>
    have h := reEmit_grows { c with cursor := q } .reChar
    have hq : Past c.cursor q := hread
    have hleaf : parse c.cursor = some (.leaf (.char ch), q) := by
      rw [hparse, parseChar, hr]
      rfl
    simp only
    generalize reEmit { c with cursor := q } .reChar = r at h ⊢
    obtain ⟨_ | index, d⟩ := r
    · exact .pure (.leaf hleaf hq (fun _ => Nat.one_ne_zero) h.failed)
    · refine .pure (.leaf hleaf hq (fun _ => Nat.one_ne_zero) (h.modifyInst 1 fun _ => ?_))
      exact modify_concat _ _ ({ · with ch := ch })

theorem reCompileClass_compiled {parse : List UInt8 → Option (Atom × List UInt8)} {b : UInt8}
    (hc : Ready c) (hb : c.cursor[0]? = some b) (hb0 : b ≠ 0)
    (hparse : parse c.cursor = parseClass c.cursor) :
    Total (reCompileClass c) (AtomCompiled parse c) := by
  unfold reCompileClass
  refine (reReadClass_total hc.text hb hb0).bind fun r hr hread => ?_
  match r with
  | .error e => exact .pure (.failed hread)
  | .ok (q, set) =>
    have h := reEmit_grows c .reClass
    have hleaf : parse c.cursor = some (.leaf (.bracket set), q) := by
      rw [hparse, parseClass, hr]
      rfl
    simp only
    generalize reEmit c .reClass = r at h ⊢
    obtain ⟨_ | index, d⟩ := r
    · exact .pure ⟨h.frame, fun hne => absurd rfl hne, fun he => nomatch (h.done he).1⟩
    · have hm := h.modifyInst index fun _ => modify_concat _ _ ({ · with set := set })
      refine .pure ⟨hm.frame.congr rfl rfl id rfl rfl, fun _ => hread, fun he => ?_⟩
      have hindex : index = c.program.length := Option.some.inj (h.done he).1
      have hne := hc.program (hm.frame.sticky he)
      refine ⟨Option.some_ne_none _, ?_, .leaf (.bracket set), hleaf, (hm.done he).2⟩
      simpa [hindex] using hne

theorem reCompileEscape_compiled {parse : List UInt8 → Option (Atom × List UInt8)}
    {kind : UInt8} (hc : Ready c) (hq : Past c.cursor (c.cursor.drop 2))
    (hparse : parse c.cursor = parseEscape c.cursor kind) :
    Total (reCompileEscape c kind) (AtomCompiled parse c) := by
  have h0 : c.cursor ≠ [0] := by
    intro h
    rw [h] at hq
    exact nomatch hq.1
  simp only [reCompileEscape]
  simp only [parseEscape] at hparse
  by_cases hclass : kind = byte 'w' ∨ kind = byte 'W' ∨ kind = byte 's' ∨
      kind = byte 'S' ∨ kind = byte 'd' ∨ kind = byte 'D'
  · rw [if_pos hclass] at hparse ⊢
    exact .some (.leaf hparse hq (fun _ => Nat.one_ne_zero) (reCompileSimpleClass_grows _ _ _))
  rw [if_neg hclass] at hparse ⊢
  by_cases hword : kind = byte 'b' ∨ kind = byte 'B'
  · rw [if_pos hword] at hparse ⊢
    refine .some (.emit (if kind = byte 'b' then .wordb else .notWordb) ?_ hparse hq hc)
    split <;> rfl
  · rw [if_neg hword] at hparse ⊢
    exact reCompileChar_compiled hc h0 hparse

/-! ## Groups and atoms -/

theorem AtomCompiled.moved {parse parse' : List UInt8 → Option (Atom × List UInt8)}
    (h : AtomCompiled parse' { c with cursor := q } r) (hq : Past c.cursor q)
    (hparse : parse c.cursor = parse' q) : AtomCompiled parse c r := by
  refine ⟨h.frame.moved, fun hr => hq.trans (h.past hr), fun he => ?_⟩
  obtain ⟨hne, hz, a, ha, hcode⟩ := h.done he
  exact ⟨hne, hz, a, hparse.trans ha, hcode⟩

theorem reOpenGroup_grows (c : ReCompiler) (capture : Bool) :
    ∃ k, Grows c (reOpenGroup c capture) k (c.code.openGroup capture) := by
  cases capture with
  | true =>
    have h := reEmitSave_grows { c with groups := c.groups + 1 } ((c.groups + 1 : ℕ) * 2)
    have hf : Frame c { c with groups := c.groups + 1 } :=
      (Frame.refl c).congr rfl rfl id rfl rfl
    exact ⟨_, hf.trans h.frame, h.cursor, h.done⟩
  | false => exact ⟨0, Frame.refl c, rfl, fun _ => ⟨rfl, rfl⟩⟩

theorem reCloseGroup_grows (c : ReCompiler) (capture : Bool) :
    ∃ k, Grows c (reCloseGroup c capture) k (c.code.closeGroup capture) := by
  cases capture with
  | true => exact ⟨_, reEmitSave_grows c (c.groups * 2 + 1)⟩
  | false => exact ⟨0, Frame.refl c, rfl, fun _ => ⟨rfl, rfl⟩⟩

section Atoms

variable {alternation : ReCompiler → Option ReCompiler}
  {parseAlt : List UInt8 → Option (Alternation × List UInt8)}

theorem reCompileGroup_compiled (hc : Ready c) (capture : Bool)
    (halt : ∀ d, Ready d → d.extended = c.extended → d.cursor = c.cursor →
      Total (alternation d) (Compiled parseAlt genAlternation d)) :
    Total (reCompileGroup alternation c capture)
      (AtomCompiled (parseGroup parseAlt c.extended capture) c) := by
  unfold reCompileGroup
  obtain ⟨k, hopen⟩ := reOpenGroup_grows c capture
  generalize reOpenGroup c capture = r at hopen ⊢
  obtain ⟨_ | _, d⟩ := r
  · exact .pure ⟨hopen.frame, fun hne => absurd rfl hne, fun he => nomatch (hopen.done he).1⟩
  have hcursor : d.cursor = c.cursor := hopen.cursor
  have hd : Ready d := by
    refine ⟨hcursor ▸ hc.text, fun he => ?_⟩
    have hp : d.program = (c.code.openGroup capture).program :=
      congrArg Code.program (hopen.done he).2
    have hne := hc.program (hopen.frame.sticky he)
    rw [hp]
    cases capture with
    | true => simp [Code.openGroup]
    | false => exact hne
  refine (halt d hd hopen.frame.extended hcursor).bind fun e _ hbody => ?_
  have hframe := hopen.frame.trans hbody.frame
  refine .ite (fun hne => .pure ⟨hframe, fun h => absurd rfl h, fun h => absurd h hne⟩) fun he => ?_
  rw [not_not] at he
  obtain ⟨ht, hl, body, hparse, hcode⟩ := hbody.done he
  have hext : e.extended = c.extended := hframe.extended
  refine (isDelimiter_total e.extended (by decide) ht).bind fun closed hclosed hpast => ?_
  refine .ite (fun _ => .pure ⟨hframe.congr rfl rfl nofun rfl rfl, fun h => absurd rfl h, nofun⟩)
    fun hb => ?_
  have hb : closed = true := by simpa using hb
  obtain ⟨k', hclose⟩ := reCloseGroup_grows
    { e with cursor := e.cursor.drop (if e.extended then 1 else 2) } capture
  simp only
  generalize reCloseGroup _ capture = r at hclose ⊢
  obtain ⟨_ | _, e'⟩ := r
  · exact .pure ⟨hframe.trans hclose.frame.moved, fun hne => absurd rfl hne,
      fun he => nomatch (hclose.done he).1⟩
  have hpast := hpast hb
  have hcursor' : e'.cursor = e.cursor.drop (markLength e.extended) := hclose.cursor
  refine .pure ⟨hframe.trans hclose.frame.moved, fun _ => ?_, fun he' => ?_⟩
  · simp only [hcursor']
    exact ⟨hpast.1, hpast.2.trans_le (hcursor ▸ hl)⟩
  · refine ⟨Option.some_ne_none _, by simp, .group capture body, ?_, ?_⟩
    · rw [hext, hb] at hclosed
      rw [hcursor] at hparse
      simp [parseGroup, hparse, hclosed, hcursor', hext]
    · refine (hclose.done he').2.trans ?_
      have hd' := (hopen.done (hbody.frame.sticky he)).2
      rw [genAtom, ← hd', ← hcode]
      rfl

theorem branchEnds_eq_false {extended : Bool} (h : branchEnds extended inGroup p = some false) :
    ∃ b, p[0]? = some b ∧ b ≠ 0 ∧ isDelimiter extended (byte '|') p = some false ∧
      (if !inGroup then some false else isDelimiter extended (byte ')') p) = some false := by
  unfold branchEnds at h
  obtain ⟨b, hb, h⟩ := Option.bind_eq_some_iff.mp h
  by_cases hb0 : b = 0
  · rw [if_pos hb0] at h
    exact nomatch h
  rw [if_neg hb0] at h
  obtain ⟨bar, hbar, h⟩ := Option.bind_eq_some_iff.mp h
  cases bar with
  | true => exact nomatch h
  | false => exact ⟨b, hb, hb0, hbar, h⟩

theorem reCompileAtom_compiled (hc : Ready c)
    (hstop : branchEnds c.extended inGroup c.cursor = some false)
    (halt : ∀ d, Ready d → d.extended = c.extended → d.cursor.length < c.cursor.length →
      Total (alternation d) (Compiled parseAlt genAlternation d)) :
    Total (reCompileAtom alternation c inGroup)
      (AtomCompiled (parseAtom parseAlt c.extended) c) := by
  obtain ⟨b, hb, hb0, hbar, hclose⟩ := branchEnds_eq_false hstop
  have hpast := hc.text.drop_one hb hb0
  have h0 : c.cursor ≠ [0] := by
    intro h
    simp only [h] at hpast
    exact nomatch hpast.1
  have hgroup : ∀ q capture, Past c.cursor q →
      parseAtom parseAlt c.extended c.cursor = parseGroup parseAlt c.extended capture q →
      Total (reCompileGroup alternation { c with cursor := q } capture)
        (AtomCompiled (parseAtom parseAlt c.extended) c) := by
    intro q capture hq hparse
    refine (reCompileGroup_compiled (c := { c with cursor := q }) ⟨hq.1, hc.program⟩ capture
      fun d hd he hcur => halt d hd he (hcur ▸ hq.2)).mono fun r _ hr => hr.moved hq hparse
  -- the tests of `parseAtom` are those of the compiler, and both are resolved together
  have hparse := parseAtom.eq_def parseAlt c.extended c.cursor
  unfold reCompileAtom
  simp only [hb, Option.bind_eq_bind, Option.bind_some, if_neg hb0, reIsAltDelimiter, hbar,
    reIsGroupClose, hclose, Bool.false_eq_true, if_false] at hparse ⊢
  by_cases h1 : b = byte '^'
  · rw [if_pos h1] at hparse ⊢
    exact .pure (.emit .bol rfl hparse hpast hc)
  rw [if_neg h1] at hparse ⊢
  by_cases h2 : b = byte '$'
  · rw [if_pos h2] at hparse ⊢
    exact .pure (.emit .eol rfl hparse hpast hc)
  rw [if_neg h2] at hparse ⊢
  by_cases h3 : b = byte '.'
  · rw [if_pos h3] at hparse ⊢
    exact .pure (.emit .any rfl hparse hpast hc)
  rw [if_neg h3] at hparse ⊢
  by_cases h4 : b = byte '['
  · rw [if_pos h4] at hparse ⊢
    exact reCompileClass_compiled hc hb hb0 hparse
  rw [if_neg h4] at hparse ⊢
  by_cases h5 : b = byte '(' ∧ c.extended
  · rw [if_pos h5] at hparse ⊢
    obtain ⟨plain, hplain, hp⟩ :=
      isPair_total (show byte '?' ≠ 0 by decide) (show byte ':' ≠ 0 by decide) hpast.1
    simp only [hplain, Option.bind_some] at hparse ⊢
    refine hgroup _ _ ?_ hparse
    split
    · exact hpast.trans (hp ‹_›)
    · exact hpast
  rw [if_neg h5] at hparse ⊢
  by_cases h6 : b = byte '\\'
  · rw [if_pos h6] at hparse ⊢
    obtain ⟨kind, hkind, hk⟩ := hpast.1.read
    simp only [hkind, Option.bind_some] at hparse ⊢
    by_cases h7 : kind = byte '(' ∧ (!c.extended) = true
    · rw [if_pos h7] at hparse ⊢
      exact hgroup _ _ (hk (h7.1 ▸ by decide)) hparse
    rw [if_neg h7] at hparse ⊢
    by_cases h8 : kind ≠ 0
    · rw [if_pos h8] at hparse ⊢
      exact reCompileEscape_compiled hc (hk h8) hparse
    · rw [if_neg h8] at hparse ⊢
      exact reCompileChar_compiled hc h0 hparse
  rw [if_neg h6] at hparse ⊢
  exact reCompileChar_compiled hc h0 hparse

end Atoms

/-! ## Quantifiers -/

/-- The state after a quantifier, applied to the code from `start` on. -/
structure Quantified (start : ℕ) (c : ReCompiler) (r : Option ℕ × ReCompiler) : Prop where
  frame : Frame c r.2
  text : r.1 ≠ none → InText r.2.cursor ∧ r.2.cursor.length ≤ c.cursor.length
  done : r.2.error = .ok → r.1 ≠ none ∧
    ∃ q, parseQuantifier c.extended c.cursor = some (q, r.2.cursor) ∧
      r.2.code = ⟨quantify c.program start q, c.groups⟩

theorem Quantified.of_grows {start k : ℕ} (quantifier : Quantifier)
    (hparse : parseQuantifier c.extended c.cursor = some (quantifier, q)) (hq : Past c.cursor q)
    (h : Grows { c with cursor := q } r k ⟨quantify c.program start quantifier, c.groups⟩) :
    Quantified start c r := by
  have hcursor : r.2.cursor = q := h.cursor
  refine ⟨h.frame.moved, fun _ => hcursor ▸ ⟨hq.1, hq.2.le⟩, fun he => ?_⟩
  obtain ⟨hr, hcode⟩ := h.done he
  exact ⟨by simp [hr], quantifier, by rw [hparse, hcursor], hcode⟩

theorem Quantified.failed {start : ℕ} {e : RegCode} (he : e ≠ .ok) :
    Quantified start c (none, { c with cursor := q, error := e }) :=
  ⟨(Frame.refl c).congr rfl rfl (fun h => absurd h he) rfl rfl, fun h => absurd rfl h,
    fun h => absurd h he⟩

theorem reCompileQuantifier_compiled (hc : InText c.cursor) (start : ℕ) :
    Total (reCompileQuantifier c start) (Quantified start c) := by
  unfold reCompileQuantifier
  refine (reReadQuantifier_total c.extended hc).bind fun r hr hpast => ?_
  match r with
  | none =>
    refine .pure ⟨Frame.refl c, fun _ => ⟨hc, le_rfl⟩, fun _ => ⟨by simp, .one, ?_, rfl⟩⟩
    simp [parseQuantifier, hr]
  | some .star =>
    refine .pure (.of_grows .star ?_ (hpast _ rfl) (reWrapStar_grows _ start))
    simp [parseQuantifier, hr, QuantKind.markLength]
  | some .plus =>
    refine .pure (.of_grows .plus ?_ (hpast _ rfl) (reWrapPlus_grows _ start))
    simp [parseQuantifier, hr, QuantKind.markLength]
  | some .question =>
    refine .pure (.of_grows .question ?_ (hpast _ rfl) (reWrapOptional_grows _ start).wrapResult)
    simp [parseQuantifier, hr, QuantKind.markLength]
  | some .interval =>
    have hpast := hpast _ rfl
    refine (reParseInterval_total hpast.1).bind fun r hr' hread => ?_
    match r with
    | .error e => exact .pure (.failed hread)
    | .ok (min, max, q) =>
      refine .ite (fun _ => .pure (.failed nofun)) fun hmax => .pure ?_
      refine .of_grows (.interval min max) ?_ (hpast.trans hread) (reCompileInterval_grows _ _ _ _)
      simp only [QuantKind.markLength] at hr'
      simp [parseQuantifier, hr, hr', hmax]

/-! ## Sequences -/

def genPiece (a : Atom) (q : Quantifier) (c : Code) : Code :=
  { genAtom a c with program := quantify (genAtom a c).program c.program.length q }

theorem extends_genPiece (a : Atom) (q : Quantifier) (c : Code) :
    Extends c.program (genPiece a q c).program (quantLead a.lead q) (quantCode a.code q) :=
  (extends_genAtom a c).quantify a.enclosed q

theorem Extends.ne_nil {A P S : List ReInst} {ℓ : ℕ} (h : Extends A P ℓ S) (hA : A ≠ []) :
    P ≠ [] := by
  have := h.length
  rw [← List.length_pos_iff] at hA ⊢
  omega

/-- One pass of the loop over a sequence; the Boolean says that the loop goes on. -/
structure PieceCompiled (parseAlt : List UInt8 → Option (Alternation × List UInt8))
    (c : ReCompiler) (r : Bool × ReCompiler) : Prop where
  frame : Frame c r.2
  past : r.1 = true → Past c.cursor r.2.cursor
  done : r.2.error = .ok → r.1 = true ∧ ∃ a q p,
    parseAtom parseAlt c.extended c.cursor = some (a, p) ∧
    parseQuantifier c.extended p = some (q, r.2.cursor) ∧ r.2.code = genPiece a q c.code

theorem reSequenceStops_eq (h : c.error = .ok) :
    reSequenceStops inGroup c = branchEnds c.extended inGroup c.cursor := by
  rw [reSequenceStops, if_neg (not_not_intro h)]
  rfl

section Sequences

variable {alternation : ReCompiler → Option ReCompiler}
  {parseAlt : List UInt8 → Option (Alternation × List UInt8)} {extended : Bool} {bound : ℕ}
  (halt : ∀ d, Ready d → d.extended = extended → d.cursor.length < bound →
    Total (alternation d) (Compiled parseAlt genAlternation d))

include halt

theorem reCompilePiece_compiled (hc : Ready c) (hext : c.extended = extended)
    (hbound : c.cursor.length ≤ bound)
    (hstop : branchEnds c.extended inGroup c.cursor = some false) :
    Total (reCompilePiece alternation inGroup c) (PieceCompiled parseAlt c) := by
  unfold reCompilePiece
  refine (reCompileAtom_compiled hc hstop fun d hd he hl =>
    halt d hd (he.trans hext) (hl.trans_le hbound)).bind fun r _ hr => ?_
  obtain ⟨_ | _ | k, d⟩ := r
  · exact .pure ⟨hr.frame, nofun, fun he => absurd rfl (hr.done he).1⟩
  · exact .pure ⟨hr.frame, nofun, fun he => absurd rfl (hr.done he).2.1⟩
  have hpast := hr.past (Option.some_ne_none _)
  refine (reCompileQuantifier_compiled hpast.1 c.length).bind fun r _ hq => ?_
  have hframe := hr.frame.trans hq.frame
  obtain ⟨_ | _, e⟩ := r
  · exact .pure ⟨hframe, nofun, fun he => absurd rfl (hq.done he).1⟩
  refine .pure ⟨hframe, fun _ => hpast.trans_le (hq.text (Option.some_ne_none _)), fun he => ?_⟩
  obtain ⟨-, q, hparse, hcode⟩ := hq.done he
  obtain ⟨-, -, a, ha, hacode⟩ := hr.done (hq.frame.sticky he)
  obtain ⟨hp, hg⟩ := Code.mk.inj hacode
  have hd : d.extended = c.extended := hr.frame.extended
  refine ⟨rfl, a, q, d.cursor, ha, hd ▸ hparse, ?_⟩
  rw [hcode, hp, hg]
  rfl

theorem reSequenceLoop_compiled {n : ℕ} (hc : Ready c) (hext : c.extended = extended)
    (hbound : c.cursor.length ≤ bound) (hn : c.cursor.length < n) :
    Total (reSequenceLoop alternation inGroup n c)
      (Compiled (parseSequence parseAlt extended inGroup n) genSequence c) := by
  induction n generalizing c with
  | zero => omega
  | succ n ih =>
    rw [reSequenceLoop]
    by_cases herr : c.error = .ok
    swap
    · rw [reSequenceStops, if_pos herr]
      exact .pure ⟨Frame.refl c, fun he => absurd he herr⟩
    rw [reSequenceStops_eq herr]
    refine (branchEnds_total c.extended inGroup hc.text).bind fun ends hends _ => ?_
    have hparse := hext ▸ hends
    cases ends with
    | true =>
      refine .pure ⟨Frame.refl c, fun _ => ⟨hc.text, le_rfl, .nil, ?_, rfl⟩⟩
      simp [parseSequence, hparse]
    | false =>
      refine (reCompilePiece_compiled halt hc hext hbound hends).bind fun r _ hr => ?_
      obtain ⟨_ | _, d⟩ := r
      · exact .pure ⟨hr.frame, fun he => nomatch (hr.done he).1⟩
      have hpast : Past c.cursor d.cursor := hr.past rfl
      have hd : Ready d := by
        refine ⟨hpast.1, fun he => ?_⟩
        obtain ⟨-, a, q, p, -, -, hcode⟩ := hr.done he
        have hp : d.program = (genPiece a q c.code).program := congrArg Code.program hcode
        exact hp ▸ (extends_genPiece a q c.code).ne_nil (hc.program herr)
      refine (ih hd (hr.frame.extended.trans hext) (hpast.2.le.trans hbound)
        (by have := hpast.2; omega)).mono fun e _ he => ⟨hr.frame.trans he.frame, fun hok => ?_⟩
      obtain ⟨ht, hl, rest, hrest, hcode⟩ := he.done hok
      obtain ⟨-, a, q, p, ha, hq, hd⟩ := hr.done (he.frame.sticky hok)
      rw [hext] at ha hq
      refine ⟨ht, hl.trans hpast.2.le, .cons a q rest, ?_, ?_⟩
      · simp only at hq
        simp [parseSequence, hparse, ha, hq, hrest]
      · rw [hcode, hd]
        rfl

end Sequences

/-! ## Alternations -/

/-- What the loop over the branches of an alternation returns. -/
structure BranchesCompiled (parse : List UInt8 → Option (Alternation × List UInt8)) (c : ReCompiler)
    (lastSplit : ℕ) (jumps : List ℕ) (r : Option (ℕ × List ℕ) × ReCompiler) : Prop where
  frame : Frame c r.2
  done : r.2.error = .ok → InText r.2.cursor ∧ r.2.cursor.length ≤ c.cursor.length ∧
    ∃ split jumps' t, r.1 = some (split, jumps') ∧ parse c.cursor = some (t, r.2.cursor) ∧
      (⟨patchAlternation r.2.program split jumps', r.2.groups⟩ : Code) =
        genBranches t c.code lastSplit jumps

/-- The state after one branch, read at `p`: what the loop knows when it looks for a further one. -/
structure BranchCompiled (parseSeq : List UInt8 → Option (Sequence × List UInt8)) (p : List UInt8)
    (c : ReCompiler) (lastSplit jump : ℕ) (e : ReCompiler) : Prop where
  frame : Frame c e
  text : InText e.cursor
  shorter : e.cursor.length < c.cursor.length
  done : ∃ branch, parseSeq p = some (branch, e.cursor) ∧ (e.error = .ok →
    let body := genSequence branch ⟨openBranch c.program lastSplit, c.groups⟩
    jump = body.program.length ∧ e.code = ⟨closeBranch body.program c.program.length, body.groups⟩)

section Alternations

variable {sequence : ReCompiler → Option ReCompiler}
  {parseSeq : List UInt8 → Option (Sequence × List UInt8)} {extended : Bool} {bound : ℕ}
  (hseq : ∀ d, Ready d → d.extended = extended → d.cursor.length ≤ bound →
    Total (sequence d) (Compiled parseSeq genSequence d))

include hseq

/-- The loop up to its test for a further branch; what comes after it may rely on the branch. -/
theorem reAltLoop_branch {n lastSplit : ℕ} {jumps : List ℕ}
    {R : Option (ℕ × List ℕ) × ReCompiler → Prop} (hext : c.extended = extended)
    (hbound : c.cursor.length ≤ bound)
    (hpast : Past c.cursor (c.cursor.drop (markLength extended)))
    (hfail : ∀ d, Frame c d → d.error ≠ .ok → R (none, d))
    (hnext : ∀ jump e, BranchCompiled parseSeq (c.cursor.drop (markLength extended)) c lastSplit
        jump e →
      Total (reIsAltDelimiter e >>= fun more =>
        if more then reAltLoop sequence n e c.length (jumps ++ [jump])
        else pure (some (c.length, jumps ++ [jump]), e)) R) :
    Total (reAltLoop sequence (n + 1) c lastSplit jumps) R := by
  rw [reAltLoop]
  have hmark : (if c.extended then 1 else 2) = markLength extended := by
    rw [hext]
    rfl
  simp only [hmark]
  have h := reOpenBranch_grows { c with cursor := c.cursor.drop (markLength extended) } lastSplit
  generalize reOpenBranch { c with cursor := c.cursor.drop (markLength extended) } lastSplit = r
    at h ⊢
  obtain ⟨_ | split, d⟩ := r
  · exact .pure (hfail _ h.frame.moved fun he => absurd (h.done he).1 (by simp))
  have hcursor : d.cursor = c.cursor.drop (markLength extended) := h.cursor
  have hopen : d.error = .ok → split = c.program.length ∧
      d.program = openBranch c.program lastSplit ∧ d.groups = c.groups := fun he =>
    ⟨Option.some.inj (h.done he).1, Code.mk.inj (h.done he).2⟩
  have hd : Ready d := by
    refine ⟨hcursor ▸ hpast.1, fun he => ?_⟩
    rw [(hopen he).2.1]
    simp [openBranch]
  refine (hseq d hd (h.frame.extended.trans hext)
    (hcursor ▸ hpast.2.le.trans hbound)).bind fun e _ he => ?_
  have hframe := h.frame.moved.trans he.frame
  refine .ite (fun hne => .pure (hfail _ hframe hne)) fun hok => ?_
  rw [not_not] at hok
  obtain ⟨ht, hl, branch, hparse, hcode⟩ := he.done hok
  obtain ⟨rfl, hdp, hdg⟩ := hopen (he.frame.sticky hok)
  have hbody : d.length = c.program.length + 1 := by
    rw [ReCompiler.length, hdp]
    simp [openBranch]
  rw [hbody]
  have hclose := reCloseBranch_grows e c.program.length
  generalize reCloseBranch e c.program.length (c.program.length + 1) = r at hclose ⊢
  have hframe := hframe.trans hclose.frame
  obtain ⟨_ | jump, e'⟩ := r
  · exact .pure (hfail _ hframe fun he => absurd (hclose.done he).1 (by simp))
  refine .ite (fun _ => .pure (hfail _ (hframe.congr rfl rfl (by simp) rfl rfl) (by simp)))
    fun _ => ?_
  have hcursor' : e'.cursor = e.cursor := hclose.cursor
  have hbranch : genSequence branch ⟨openBranch c.program lastSplit, c.groups⟩ = e.code := by
    rw [hcode, ReCompiler.code, hdp, hdg]
  refine hnext jump e' ⟨hframe, hcursor' ▸ ht, hcursor' ▸ (hl.trans_lt (hcursor ▸ hpast.2)),
    branch, hcursor ▸ hcursor' ▸ hparse, fun herr => ?_⟩
  rw [hbranch]
  exact ⟨Option.some.inj (hclose.done herr).1, (hclose.done herr).2⟩

theorem reAltLoop_compiled {n lastSplit : ℕ} {jumps : List ℕ}
    (hext : c.extended = extended) (hbound : c.cursor.length ≤ bound)
    (hpast : Past c.cursor (c.cursor.drop (markLength extended))) (hn : c.cursor.length < n) :
    Total (reAltLoop sequence n c lastSplit jumps)
      (BranchesCompiled (parseBranches extended parseSeq n) c lastSplit jumps) := by
  induction n generalizing c lastSplit jumps with
  | zero => omega
  | succ n ih =>
    refine reAltLoop_branch hseq hext hbound hpast
      (fun d hd hne => ⟨hd, fun he => absurd he hne⟩) fun jump e he => ?_
    obtain ⟨hframe, ht, hlt, branch, hparse, hcode⟩ := he
    have hext' : e.extended = extended := hframe.extended.trans hext
    refine (isDelimiter_total e.extended (by decide) ht).bind fun bar hbar hbar' => ?_
    rw [hext'] at hbar hbar'
    cases bar with
    | false =>
      refine .pure ⟨hframe, fun herr => ⟨ht, hlt.le, _, _, .last branch, rfl, ?_, ?_⟩⟩
      · simp [parseBranches, hparse, hbar]
      · obtain ⟨rfl, hcode'⟩ := hcode herr
        obtain ⟨hp, hg⟩ := Code.mk.inj hcode'
        rw [genBranches, ReCompiler.code, hp, hg]
        rfl
    | true =>
      refine (ih hext' (hlt.le.trans hbound) (hbar' rfl) (by omega)).mono
        fun r _ hr => ⟨hframe.trans hr.frame, fun herr => ?_⟩
      obtain ⟨ht', hl', split', jumps', rest, hr1, hrest, hpatch⟩ := hr.done herr
      obtain ⟨rfl, hcode'⟩ := hcode (hr.frame.sticky herr)
      refine ⟨ht', hl'.trans hlt.le, split', jumps', .more branch rest, hr1, ?_, ?_⟩
      · simp [parseBranches, hparse, hbar, hrest]
      · rw [hpatch, hcode', genBranches, ReCompiler.code]
        rfl

end Alternations

/-- `re_compile_alternation` returns wherever the cursor has at most `depth` bytes left. -/
theorem reCompileAlternation_compiled (depth : ℕ) (inGroup : Bool) (c : ReCompiler) (hc : Ready c)
    (hdepth : c.cursor.length ≤ depth) :
    Total (reCompileAlternation depth inGroup c)
      (Compiled (parseAlternation depth c.extended inGroup) genAlternation c) := by
  induction depth generalizing c inGroup with
  | zero => exact absurd hc.text.length_pos (by omega)
  | succ depth ih =>
    have hseq : ∀ d, Ready d → d.extended = c.extended → d.cursor.length ≤ depth + 1 →
        Total (reCompileSequence (reCompileAlternation depth true) inGroup d)
          (Compiled (fun p => parseSequence (parseAlternation depth c.extended true) c.extended
            inGroup (p.length + 1) p) genSequence d) := by
      intro d hd hext hl
      exact (reSequenceLoop_compiled (fun e he hext' hl' => hext' ▸ ih true e he (by omega)) hd
        hext hl (Nat.lt_succ_self _)).mono fun _ _ he => ⟨he.frame, he.done⟩
    rw [reCompileAlternation]
    refine (hseq c hc rfl hdepth).bind fun d _ hd => ?_
    refine .ite (fun hne => .pure ⟨hd.frame, fun h => absurd h hne⟩) fun hok => ?_
    rw [not_not] at hok
    obtain ⟨ht, hl, branch, hparse, hcode⟩ := hd.done hok
    have hext : d.extended = c.extended := hd.frame.extended
    refine (isDelimiter_total d.extended (by decide) ht).bind fun bar hbar hpast => ?_
    rw [hext] at hbar hpast
    cases bar with
    | false =>
      refine .pure ⟨hd.frame, fun _ => ⟨ht, hl, .last branch, ?_, hcode⟩⟩
      simp [parseAlternation, hparse, hbar]
    | true =>
      have hinsert := reInsert_grows d c.length
      simp only [Bool.not_true, Bool.false_eq_true, if_false]
      generalize reInsert d c.length = r at hinsert ⊢
      obtain ⟨_ | firstSplit, d₁⟩ := r
      · exact .pure ⟨hd.frame.trans hinsert.frame, fun he => nomatch (hinsert.done he).1⟩
      have hjump := hinsert.setSplit.emit .reJmp
      have hsticky := (reEmit_grows (d₁.setSplit firstSplit (c.length + 1) d₁.length)
        .reJmp).frame.sticky
      simp only
      generalize reEmit (d₁.setSplit firstSplit (c.length + 1) d₁.length) .reJmp = r
        at hjump hsticky ⊢
      have hframe := hd.frame.trans hjump.frame
      obtain ⟨_ | jump, d₂⟩ := r
      · exact .pure ⟨hframe, fun he => nomatch (hjump.done he).1⟩
      have hcursor : d₂.cursor = d.cursor := hjump.cursor
      refine (reAltLoop_compiled hseq hframe.extended (hcursor ▸ hl.trans hdepth)
        (hcursor ▸ hpast rfl) (Nat.lt_succ_self _)).bind fun r _ hr => ?_
      have hframe := hframe.trans hr.frame
      obtain ⟨_ | ⟨lastSplit, jumps⟩, e⟩ := r
      · refine .pure ⟨hframe, fun he => ?_⟩
        obtain ⟨-, -, _, _, _, hnone, -⟩ := hr.done he
        exact nomatch hnone
      refine .pure ?_
      rw [rePatchAlternation_eq]
      refine ⟨hframe.congr rfl rfl id rfl rfl, fun he => ?_⟩
      obtain ⟨ht', hl', split', jumps', rest, hsome, hrest, hpatch⟩ := hr.done he
      obtain ⟨rfl, rfl⟩ := Prod.mk.inj (Option.some.inj hsome)
      have hd₂ : d₂.error = .ok := hr.frame.sticky he
      obtain rfl : firstSplit = c.length := Option.some.inj (hinsert.done (hsticky hd₂)).1
      obtain ⟨hindex, hcode₂⟩ := hjump.done hd₂
      obtain ⟨hp, hg⟩ := Code.mk.inj hcode
      refine ⟨ht', (hcursor ▸ hl').trans hl, .more branch rest, ?_, ?_⟩
      · rw [hcursor] at hrest
        simp [parseAlternation, hparse, hbar, hrest]
      · refine hpatch.trans ?_
        rw [hcode₂, Option.some.inj hindex, genAlternation, ← hcode]
        simp
        rfl

end LampUserspace.Regex
