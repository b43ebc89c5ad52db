import LampUserspace.Regex.Regexec
import LampUserspace.Regex.Shorthands
import LampUserspace.Regex.Spelling

/-! # The compiler on a pattern and on its replacement

Both runs make the same requests and write the same instructions, and stop with
the same error, as long as every shorthand that the first one reads is spelled
by its bracket and no interval after it hides a refused request.
-/

namespace LampUserspace.Regex

/-! ## The shorthands that are read -/

/--
The bracket can stand for the shorthand at the cursor: if the request for its instruction is
granted it is a lower-case one, and if the request is refused no interval with an error follows.
-/
def ReCompiler.Replaceable (c : ReCompiler) : Prop :=
  match c.cursor with
  | _ :: kind :: p =>
    if (reEmit c .reClass).1.isSome then isNegated kind = false
    else (parseQuantifier c.extended p).isSome
  | _ => True

instance (c : ReCompiler) : Decidable c.Replaceable := by
  unfold ReCompiler.Replaceable
  split <;> infer_instance

/-- The group that `re_compile_atom` has opened at its cursor, if the alternation is reached. -/
def groupShorthands (alternation : ReCompiler → List ReCompiler) (c : ReCompiler)
    (capture : Bool) : List ReCompiler :=
  match reOpenGroup c capture with
  | (none, _) => []
  | (some _, c) => alternation c

/-- The compiler as it comes to the shorthands of an atom, in order. -/
def atomShorthands (alternation : ReCompiler → List ReCompiler) (c : ReCompiler) :
    List ReCompiler :=
  match c.cursor with
  | [] => []
  | b :: p =>
    if b = byte '(' ∧ c.extended then
      let plain := isPair (byte '?') (byte ':') p = some true
      groupShorthands alternation { c with cursor := if plain then p.drop 2 else p } (!plain)
    else if b = byte '\\' then
      match p with
      | [] => []
      | kind :: p =>
        if kind = byte '(' ∧ !c.extended then
          groupShorthands alternation { c with cursor := p } true
        else if isShorthand kind then [c] else []
    else []

theorem atomShorthands_backslash {alternation : ReCompiler → List ReCompiler} {c : ReCompiler}
    {kind : UInt8} {p : List UInt8} (hcursor : c.cursor = byte '\\' :: kind :: p) :
    atomShorthands alternation c =
      if kind = byte '(' ∧ !c.extended then
        groupShorthands alternation { c with cursor := p } true
      else if isShorthand kind then [c] else [] := by
  have hgroup : ¬ (byte '\\' = byte '(' ∧ c.extended = true) := fun h => by
    exact absurd h.1 (by decide)
  simp only [atomShorthands, hcursor, if_neg hgroup, if_true]

/-- The same for the loop of `re_compile_sequence`. -/
def sequenceShorthands (alternation : ReCompiler → Option ReCompiler)
    (shorthands : ReCompiler → List ReCompiler) (inGroup : Bool) :
    ℕ → ReCompiler → List ReCompiler
  | 0, _ => []
  | n + 1, c =>
    if reSequenceStops inGroup c = some false then
      atomShorthands shorthands c ++
        match reCompilePiece alternation inGroup c with
        | some (true, d) => sequenceShorthands alternation shorthands inGroup n d
        | _ => []
    else []

/-- The same for the loop of `re_compile_alternation`. -/
def altLoopShorthands (sequence : ReCompiler → Option ReCompiler)
    (shorthands : ReCompiler → List ReCompiler) :
    ℕ → ReCompiler → ℕ → List ℕ → List ReCompiler
  | 0, _, _, _ => []
  | n + 1, c, lastSplit, jumps =>
    match reOpenBranch { c with cursor := c.cursor.drop (if c.extended then 1 else 2) }
      lastSplit with
    | (none, _) => []
    | (some split, c) =>
      shorthands c ++
        match sequence c with
        | none => []
        | some d =>
          match reCloseBranch d split c.length with
          | (none, _) => []
          | (some jump, e) =>
            if d.error = .ok ∧ jumps.length < 128 ∧ reIsAltDelimiter e = some true then
              altLoopShorthands sequence shorthands n e split (jumps ++ [jump])
            else []

/-- The same for `re_compile_alternation`. -/
def alternationShorthands : ℕ → Bool → ReCompiler → List ReCompiler
  | 0, _, _ => []
  | depth + 1, inGroup, c =>
    let sequence := reCompileSequence (reCompileAlternation depth true) inGroup
    let shorthands := fun c => sequenceShorthands (reCompileAlternation depth true)
      (alternationShorthands depth true) inGroup (c.cursor.length + 1) c
    shorthands c ++
      match sequence c with
      | none => []
      | some d =>
        if d.error = .ok ∧ reIsAltDelimiter d = some true then
          match reInsert d c.length with
          | (none, _) => []
          | (some split, e) =>
            match reEmit (e.setSplit split (c.length + 1) e.length) .reJmp with
            | (none, _) => []
            | (some jump, f) =>
              altLoopShorthands sequence shorthands (f.cursor.length + 1) f split [jump]
        else []

/-- The compiler as `regcomp` brings it to each shorthand that it reads before it stops. -/
def shorthandsRead (regex : CString) (cflags : UInt32) (heap : Heap) : List ReCompiler :=
  match reStart regex cflags heap with
  | (none, _) => []
  | (some _, c) => alternationShorthands (regex.strlen + 1) false c

/-! ## Two compilers -/

/-- A compiler that has emitted the first `RE_SAVE` and has met no error. -/
structure Running (x : Bool) (c : ReCompiler) : Prop where
  ok : c.error = .ok
  extended : c.extended = x
  emitted : 0 < c.length

/-- Two compilers with one error, or without an error and the same but for what they read. -/
structure Alike (x : Bool) (c c' : ReCompiler) : Prop where
  error : c'.error = c.error
  same : c.error = .ok → Running x c ∧
    ∃ q, c' = { c with cursor := q } ∧ Expands c.cursor q

/-- The same for an operation that says whether it failed. -/
inductive AlikeResult (x : Bool) {α : Type} :
    Option α × ReCompiler → Option α × ReCompiler → Prop where

  | failed {c c' : ReCompiler} : c.error ≠ .ok → c'.error = c.error →
      AlikeResult x (none, c) (none, c')

  | done {a : α} {c : ReCompiler} {q : List UInt8} : Running x c →
      Expands c.cursor q →
      AlikeResult x (some a, c) (some a, { c with cursor := q })

/--
What `f` makes of a compiler and `f'` of the same before another text is alike, if the shorthands
that `f` reads are replaceable.
-/
def AlikeOn (x : Bool) (f f' : ReCompiler → Option ReCompiler)
    (shorthands : ReCompiler → List ReCompiler) : Prop :=
  ∀ c q, Running x c → Expands c.cursor q → (∀ d ∈ shorthands c, d.Replaceable) →
    Together (f c) (f' { c with cursor := q }) (Alike x)

section Runs

variable {x inGroup : Bool} {α : Type} {c c' : ReCompiler} {p q : List UInt8}
  {op : ReCompiler → Option α × ReCompiler}

theorem Alike.running (h : Running x c) (hq : Expands c.cursor q) :
    Alike x c { c with cursor := q } :=
  ⟨rfl, fun _ => ⟨h, q, rfl, hq⟩⟩

theorem Alike.failed (h : c.error ≠ .ok) (h' : c'.error = c.error) : Alike x c c' :=
  ⟨h', fun hc => absurd hc h⟩

theorem Alike.bind {β γ : Type} {y y' : Option ReCompiler} {fail next : ReCompiler → Option β}
    {fail' next' : ReCompiler → Option γ} {R : β → γ → Prop} (h : Together y y' (Alike x))
    (hfail : ∀ e e', e.error ≠ .ok → e'.error = e.error → Together (fail e) (fail' e') R)
    (hnext : ∀ e q, y = some e → Running x e → Expands e.cursor q →
      Together (next e) (next' { e with cursor := q }) R) :
    Together (y >>= fun e => if e.error ≠ .ok then fail e else next e)
      (y' >>= fun e => if e.error ≠ .ok then fail' e else next' e) R := by
  refine h.bind_of_eq fun e e' hy he => ?_
  by_cases hok : e.error = .ok
  · obtain ⟨hrun, q, rfl, hq⟩ := he.same hok
    have hok' : ({ e with cursor := q } : ReCompiler).error = .ok := hok
    rw [if_neg (not_not_intro hok), if_neg (not_not_intro hok')]
    exact hnext e q hy hrun hq
  · have hok' : e'.error ≠ .ok := he.error ▸ hok
    rw [if_pos hok, if_pos hok']
    exact hfail e e' hok he.error

theorem Running.move (h : Running x c) (p : List UInt8) :
    Running x { c with cursor := p } := ⟨h.ok, h.extended, h.emitted⟩

/-! ## Operations that do not read -/

theorem Steady.unread (h : Steady op) (c : ReCompiler) : (op c).2.cursor = c.cursor ∧
    (op c).2.cflags = c.cflags ∧ (op c).2.extended = c.extended := by
  have hself : op c = ((op c).1, (op c).2.reading c.cursor c.cflags c.extended) :=
    h.reading c c.cursor c.cflags c.extended
  rw [hself]
  exact ⟨rfl, rfl, rfl⟩

theorem Steady.move (h : Steady op) (c : ReCompiler) (p : List UInt8) :
    op { c with cursor := p } = ((op c).1, { (op c).2 with cursor := p }) := by
  obtain ⟨-, hflags, hext⟩ := h.unread c
  have hread : op { c with cursor := p } = _ := h.reading c p c.cflags c.extended
  rw [hread, ReCompiler.reading, ← hflags, ← hext]

theorem Steady.running (h : Steady op) (hc : Running x c) {a : α} {d : ReCompiler}
    (hd : op c = (some a, d)) : Running x d ∧ d.cursor = c.cursor := by
  obtain ⟨herror, hlen⟩ := h.done c d a hd
  obtain ⟨hcursor, -, hext⟩ := h.unread c
  rw [hd] at hcursor hext
  exact ⟨⟨herror.trans hc.ok, hext.trans hc.extended, hc.emitted.trans_le hlen⟩, hcursor⟩

theorem Steady.alike (h : Steady op) (hc : Running x c)
    (hq : Expands c.cursor q) :
    AlikeResult x (op c) (op { c with cursor := q }) := by
  rw [h.move c q]
  rcases heq : op c with ⟨_ | a, d⟩
  · refine .failed ?_ rfl
    rw [(h.refused c d heq).1]
    simp
  · obtain ⟨hd, hcursor⟩ := h.running hc heq
    exact .done hd (hcursor ▸ hq)

/-! ## Atoms -/

/--
The results of `re_compile_atom`. A refused request at a shorthand is noticed later than at its
bracket.
-/
inductive AlikeAtom (x : Bool) :
    Option ℕ × ReCompiler → Option ℕ × ReCompiler → Prop where

  | failed {c c' : ReCompiler} : c.error ≠ .ok → c'.error = c.error →
      AlikeAtom x (none, c) (none, c')

  | done {k k' : ℕ} {c : ReCompiler} {q : List UInt8} : k ≠ 0 → k' ≠ 0 → Running x c →
      Expands c.cursor q →
      AlikeAtom x (some k, c) (some k', { c with cursor := q })

  | refused {k : ℕ} {c c' : ReCompiler} : c.error = .regEspace → c'.error = .regEspace →
      (parseQuantifier c.extended c.cursor).isSome → AlikeAtom x (some k, c) (none, c')

theorem AlikeResult.atom {r r' : Option ℕ × ReCompiler} (h : AlikeResult x r r')
    (hne : r.1 ≠ some 0) : AlikeAtom x r r' := by
  cases h with
  | failed hc hc' => exact .failed hc hc'
  | @done k c q hc hq =>
    have hk : k ≠ 0 := fun hk => hne (congrArg some hk)
    exact .done hk hk hc hq

theorem Running.modify (h : Running x c) (index : ℕ) (f : ReInst → ReInst) :
    Running x (c.modifyInst index f) :=
  ⟨h.ok, h.extended, by simpa [ReCompiler.length, ReCompiler.modifyInst] using h.emitted⟩

theorem reEmit_ne_zero {op : ReOp} (hc : Running x c) {k : ℕ} {d : ReCompiler}
    (h : reEmit c op = (some k, d)) : k ≠ 0 := by
  rw [(reEmit_program h).1]
  exact hc.emitted.ne'

theorem reEmit_alike (op : ReOp) (hc : Running x c) (hq : Expands p q) :
    AlikeAtom x (reEmit { c with cursor := p } op) (reEmit { c with cursor := q } op) := by
  refine ((Steady.emit op).alike (hc.move p) hq).atom ?_
  rcases heq : reEmit { c with cursor := p } op with ⟨_ | k, d⟩
  · simp
  · have hk := reEmit_ne_zero (hc.move p) heq
    simpa using hk

theorem reCompileChar_alike (hc : Running x c)
    (hread : Together (reParseEscape c.cursor) (reParseEscape q)
      SameReading) :
    Together (reCompileChar c) (reCompileChar { c with cursor := q }) (AlikeAtom x) := by
  unfold reCompileChar
  refine hread.bind fun r r' hr => ?_
  cases hr with
  | error he => exact .pure (.failed he rfl)
  | @value ch p q h =>
    have hemit := (Steady.emit .reChar).alike (hc.move p) h
    simp only at hemit ⊢
    generalize reEmit { c with cursor := p } .reChar = s at hemit ⊢
    generalize reEmit { c with cursor := q } .reChar = s' at hemit ⊢
    cases hemit with
    | failed hd hd' => exact .pure (.failed hd hd')
    | done hd hq => exact .pure (.done (by simp) (by simp) (hd.modify _ _) hq)

theorem reCompileClass_alike (hc : Running x c)
    {q' : List UInt8} (hread : Together (reReadClass c.cursor) (reReadClass q') fun r r' =>
      (∃ e, e ≠ .ok ∧ r = .error e ∧ r' = .error e) ∨
        ∃ p q set, r = .ok (p, set) ∧ r' = .ok (q, set) ∧ Expands p q) :
    Together (reCompileClass c) (reCompileClass { c with cursor := q' }) (AlikeAtom x) := by
  unfold reCompileClass
  refine hread.bind fun r r' hr => ?_
  rcases hr with ⟨e, he, rfl, rfl⟩ | ⟨p, q, set, rfl, rfl, h⟩
  · exact .pure (.failed he rfl)
  have hmove : reEmit { c with cursor := q' } .reClass = _ := (Steady.emit .reClass).move c q'
  simp only [hmove]
  rcases heq : reEmit c .reClass with ⟨_ | k, d⟩
  · refine .pure (.failed ?_ rfl)
    rw [((Steady.emit .reClass).refused c d heq).1]
    simp
  · have hk := reEmit_ne_zero hc heq
    have hd := ((Steady.emit .reClass).running hc heq).1
    exact .pure (.done hk hk ((hd.modify k _).move p) h)

theorem reCompileGroup_alike {alternation alternation' : ReCompiler → Option ReCompiler}
    {shorthands : ReCompiler → List ReCompiler}
    (halt : AlikeOn x alternation alternation' shorthands)
    (capture : Bool) (hc : Running x c) (hq : Expands c.cursor q)
    (hok : ∀ d ∈ groupShorthands shorthands c capture, d.Replaceable) :
    Together (reCompileGroup alternation c capture)
      (reCompileGroup alternation' { c with cursor := q } capture) (AlikeAtom x) := by
  have hopen : Steady (reOpenGroup · capture) := by
    cases capture
    · exact .pure 0
    · exact .openGroup
  have hclose : Steady (reCloseGroup · capture) := by
    cases capture
    · exact .pure 0
    · exact .closeGroup
  have hopened := hopen.alike hc hq
  unfold groupShorthands at hok
  unfold reCompileGroup
  simp only at hopened ⊢
  generalize reOpenGroup c capture = s at hopened hok ⊢
  generalize reOpenGroup { c with cursor := q } capture = s' at hopened ⊢
  cases hopened with
  | failed hd hd' => exact .pure (.failed hd hd')
  | @done _ d q hd hq =>
    refine Alike.bind (halt d q hd hq hok) (fun e e' he he' => .pure (.failed he he'))
      fun e q _ hrun hq => ?_
    have hdelim : reIsGroupClose { e with cursor := q } true = reIsGroupClose e true :=
      hq.isDelimiter (by decide) (by decide) (by decide)
    rw [hdelim]
    refine .bind_same fun closes hcloses => ?_
    cases closes with
    | false => exact .pure (.failed nofun rfl)
    | true =>
      have hq := hq.drop_delimiter (by decide) (by decide) (by decide) (by decide) hcloses
      have hclosed := hclose.alike (hrun.move _) hq
      unfold markLength at hclosed
      simp only [Bool.not_true, Bool.false_eq_true, if_false] at hclosed ⊢
      generalize reCloseGroup { e with cursor := e.cursor.drop (if e.extended then 1 else 2) }
        capture = s at hclosed ⊢
      generalize reCloseGroup { e with cursor := q.drop (if e.extended then 1 else 2) }
        capture = s' at hclosed ⊢
      cases hclosed with
      | failed hd hd' => exact .pure (.failed hd hd')
      | done hd hq => exact .pure (.done (by simp) (by simp) hd hq)

theorem isShorthand_iff (kind : UInt8) : isShorthand kind = true ↔ kind = byte 'w' ∨
    kind = byte 'W' ∨ kind = byte 's' ∨ kind = byte 'S' ∨ kind = byte 'd' ∨ kind = byte 'D' := by
  simp [isShorthand, or_assoc]

theorem reCompileEscape_alike {kind : UInt8} (hcursor : c.cursor = byte '\\' :: kind :: p)
    (hkind : kind ≠ 0) (hs : isShorthand kind = false) (hc : Running x c)
    (hq : Expands p q) : Together (reCompileEscape c kind)
      (reCompileEscape { c with cursor := byte '\\' :: kind :: q } kind) (AlikeAtom x) := by
  have hs' := mt (isShorthand_iff kind).mpr (Bool.eq_false_iff.mp hs)
  unfold reCompileEscape
  simp only [if_neg hs', hcursor]
  split
  · exact .some (reEmit_alike _ hc hq)
  · refine reCompileChar_alike hc ?_
    rw [hcursor]
    simp only [reParseEscape, List.getElem?_cons_zero, List.drop_succ_cons, List.drop_zero,
      Option.bind_eq_bind, Option.bind_some, ne_eq, not_true_eq_false, if_false, if_neg hkind]
    exact .pure (.value hq)

theorem reCompileShorthand_alike {kind : UInt8} (hcursor : c.cursor = byte '\\' :: kind :: p)
    (hs : isShorthand kind = true) (hok : c.Replaceable) (hc : Running x c)
    (hq : Expands p q) : Together (reCompileEscape c kind)
      (reCompileClass { c with cursor := bracketForm kind ++ q }) (AlikeAtom x) := by
  have hemit : ∀ r, reEmit { c with cursor := r } .reClass =
      ((reEmit c .reClass).1, { (reEmit c .reClass).2 with cursor := r }) :=
    (Steady.emit .reClass).move c
  have hemit₁ := hemit p
  have hemit₂ := hemit (bracketForm kind ++ q)
  unfold ReCompiler.Replaceable at hok
  unfold reCompileEscape reCompileClass reCompileSimpleClass
  simp only [if_pos ((isShorthand_iff kind).mp hs), reReadClass_bracketForm, hcursor,
    Option.bind_eq_bind, Option.bind_some, List.drop_succ_cons, List.drop_zero, hemit₁,
    hemit₂] at hok ⊢
  rcases heq : reEmit c .reClass with ⟨_ | k, d⟩
  · have herror := ((Steady.emit .reClass).refused c d heq).1
    have hext := ((Steady.emit .reClass).unread c).2.2
    rw [heq] at hok hext
    refine .some (.refused herror herror ?_)
    rw [show d.extended = c.extended from hext]
    simpa using hok
  · have hset := (bitmap_shorthandBracket kind hs).mpr (by simpa [heq] using hok)
    have hd := ((Steady.emit .reClass).running hc heq).1
    have hdone : AlikeAtom x
        (some 1, { d with cursor := p }.modifyInst k
          ({ · with set := simpleClass kind (isNegated kind) }))
        (some k, { { d with cursor := p }.modifyInst k
          ({ · with set := simpleClass kind (isNegated kind) }) with cursor := q }) :=
      .done one_ne_zero (reEmit_ne_zero hc heq) ((hd.move p).modify k _) hq
    rw [hset]
    exact .some hdone

section Cases

variable {alternation : ReCompiler → Option ReCompiler} {kind : UInt8}

theorem reCompileAtom_open (hcursor : c.cursor = byte '[' :: p)
    (hstop : branchEnds c.extended inGroup c.cursor = some false) :
    reCompileAtom alternation c inGroup = reCompileClass c := by
  obtain ⟨b, hb, h0, hbar, hclose⟩ := branchEnds_eq_false hstop
  rw [hcursor] at hb hbar hclose
  obtain rfl : byte '[' = b := Option.some.inj hb
  have hbol : byte '[' ≠ byte '^' := by decide
  have heol : byte '[' ≠ byte '$' := by decide
  have hany : byte '[' ≠ byte '.' := by decide
  simp only [reCompileAtom, reIsAltDelimiter, reIsGroupClose, hbar, hclose, hcursor,
    List.getElem?_cons_zero, Option.bind_eq_bind, Option.bind_some, if_neg h0, if_neg hbol,
    if_neg heol, if_neg hany, if_true, Bool.false_eq_true, if_false]

theorem reCompileAtom_backslash (hcursor : c.cursor = byte '\\' :: kind :: p)
    (hstop : branchEnds c.extended inGroup c.cursor = some false) :
    reCompileAtom alternation c inGroup =
      if kind = byte '(' ∧ !c.extended then
        reCompileGroup alternation { c with cursor := p } true
      else if kind ≠ 0 then reCompileEscape c kind
      else reCompileChar c := by
  obtain ⟨b, hb, h0, hbar, hclose⟩ := branchEnds_eq_false hstop
  rw [hcursor] at hb hbar hclose
  obtain rfl : byte '\\' = b := Option.some.inj hb
  have hbol : byte '\\' ≠ byte '^' := by decide
  have heol : byte '\\' ≠ byte '$' := by decide
  have hany : byte '\\' ≠ byte '.' := by decide
  have hopen : byte '\\' ≠ byte '[' := by decide
  have hgroup : ¬ (byte '\\' = byte '(' ∧ c.extended = true) := fun h => by
    exact absurd h.1 (by decide)
  simp only [reCompileAtom, reIsAltDelimiter, reIsGroupClose, hbar, hclose, hcursor,
    List.getElem?_cons_zero, List.getElem?_cons_succ, Option.bind_eq_bind, Option.bind_some,
    if_neg h0, if_neg hbol, if_neg heol, if_neg hany, if_neg hopen, if_neg hgroup, if_true,
    Bool.false_eq_true, if_false, List.drop_succ_cons, List.drop_zero]

end Cases

/-- An atom at a byte that opens neither a bracket nor an escape. -/
theorem reCompileAtom_plain_alike {alternation alternation' : ReCompiler → Option ReCompiler}
    {shorthands : ReCompiler → List ReCompiler}
    (halt : AlikeOn x alternation alternation' shorthands)
    {b : UInt8} (hcursor : c.cursor = b :: p) (h0 : b ≠ 0) (hopen : b ≠ byte '[')
    (hback : b ≠ byte '\\') (hc : Running x c) (hq : Expands p q)
    (hok : ∀ d ∈ atomShorthands shorthands c, d.Replaceable)
    (hstop : branchEnds x inGroup (b :: p) = some false)
    (hstop' : branchEnds x inGroup (b :: q) = some false) :
    Together (reCompileAtom alternation c inGroup)
      (reCompileAtom alternation' { c with cursor := b :: q } inGroup) (AlikeAtom x) := by
  obtain rfl := hc.extended
  obtain ⟨_, -, -, hbar, hclose⟩ := branchEnds_eq_false hstop
  obtain ⟨_, -, -, hbar', hclose'⟩ := branchEnds_eq_false hstop'
  simp only [reCompileAtom, reIsAltDelimiter, reIsGroupClose, hcursor, hbar, hclose, hbar', hclose',
    List.getElem?_cons_zero, Option.bind_eq_bind, Option.bind_some, if_neg h0, if_neg hopen,
    if_neg hback, Bool.false_eq_true, if_false, List.drop_one, List.tail_cons]
  by_cases hbol : b = byte '^'
  · simp only [if_pos hbol]
    exact .pure (reEmit_alike .reBol hc hq)
  by_cases heol : b = byte '$'
  · simp only [if_neg hbol, if_pos heol]
    exact .pure (reEmit_alike .reEol hc hq)
  by_cases hany : b = byte '.'
  · simp only [if_neg hbol, if_neg heol, if_pos hany]
    exact .pure (reEmit_alike .reAny hc hq)
  simp only [if_neg hbol, if_neg heol, if_neg hany]
  split
  · rename_i hgroup
    obtain ⟨hpair, hdrop⟩ := hq.isPair_plain
    rw [hpair]
    refine .bind_same fun plain hplain => ?_
    simp only [atomShorthands, hcursor, if_pos hgroup, hplain, Option.some.injEq] at hok
    cases plain with
    | false => exact reCompileGroup_alike halt true (hc.move _) hq (by simpa using hok)
    | true => exact reCompileGroup_alike halt false (hc.move _) (hdrop hplain) (by simpa using hok)
  · refine reCompileChar_alike hc ?_
    have hread : ∀ r, reParseEscape (b :: r) = some (.ok (b, r)) :=
      fun r => by simp [reParseEscape, hback]
    rw [hcursor, hread, hread]
    exact .some (.value hq)

theorem reCompileAtom_alike {alternation alternation' : ReCompiler → Option ReCompiler}
    {shorthands : ReCompiler → List ReCompiler}
    (halt : AlikeOn x alternation alternation' shorthands)
    (hc : Running x c) (hq : Expands c.cursor q)
    (hok : ∀ d ∈ atomShorthands shorthands c, d.Replaceable)
    (hstop : branchEnds x inGroup c.cursor = some false) :
    Together (reCompileAtom alternation c inGroup)
      (reCompileAtom alternation' { c with cursor := q } inGroup) (AlikeAtom x) := by
  have hstop' : branchEnds x inGroup q = some false := hq.branchEnds.trans hstop
  obtain rfl := hc.extended
  generalize hp : c.cursor = p at *
  cases hq with
  | nul =>
    obtain ⟨b, hb, h0, -⟩ := branchEnds_eq_false hstop
    exact absurd (Option.some.inj hb).symm h0
  | @plain b p q h0 hopen hback hq =>
    exact reCompileAtom_plain_alike halt hp h0 hopen hback hc hq hok hstop hstop'
  | @pair kind p q hkind hs hq =>
    rw [reCompileAtom_backslash hp (hp ▸ hstop), reCompileAtom_backslash rfl hstop']
    simp only [if_pos hkind]
    split
    · rename_i hgroup
      refine reCompileGroup_alike halt true (hc.move _) hq ?_
      rwa [atomShorthands_backslash hp, if_pos hgroup] at hok
    · exact reCompileEscape_alike hp hkind hs hc hq
  | lone =>
    have hgroup : ¬ ((0 : UInt8) = byte '(' ∧ (!c.extended) = true) := fun h => by
      exact absurd h.1 (by decide)
    rw [reCompileAtom_backslash hp (hp ▸ hstop), reCompileAtom_backslash rfl hstop',
      if_neg hgroup, if_neg hgroup]
    refine reCompileChar_alike hc ?_
    rw [hp]
    exact .some (.error (by simp))
  | @shorthand kind p q hs hq =>
    have hkind : kind ≠ byte '(' ∧ kind ≠ 0 := by
      constructor <;> rintro rfl <;> cases hs
    rw [reCompileAtom_backslash hp (hp ▸ hstop), reCompileAtom_open (bracketForm_append _ _) hstop',
      if_neg (mt And.left hkind.1), if_pos hkind.2]
    refine reCompileShorthand_alike hp hs (hok c ?_) hc hq
    rw [atomShorthands_backslash hp, if_neg (mt And.left hkind.1), if_pos hs]
    exact List.mem_singleton_self c
  | @bracket b p q hq =>
    rw [reCompileAtom_open hp (hp ▸ hstop), reCompileAtom_open rfl hstop']
    refine reCompileClass_alike hc ?_
    rw [hp, b.reReadClass_eq, b.reReadClass_eq]
    exact .some (.inr ⟨p, q, _, rfl, rfl, hq⟩)
  | @unread p e he =>
    rw [reCompileAtom_open hp (hp ▸ hstop), reCompileAtom_open rfl hstop']
    refine reCompileClass_alike hc ?_
    rw [hp, he]
    exact .some (.inl ⟨e, (reReadClass_error he).1, rfl, rfl⟩)

/-! ## Quantifiers -/

theorem reCompileQuantifier_alike (start : ℕ) (hc : Running x c)
    (hq : Expands c.cursor q) : Together (reCompileQuantifier c start)
      (reCompileQuantifier { c with cursor := q } start) (AlikeResult x) := by
  obtain rfl := hc.extended
  unfold reCompileQuantifier
  rw [show ({ c with cursor := q } : ReCompiler).extended = c.extended from rfl,
    show ({ c with cursor := q } : ReCompiler).cursor = q from rfl, hq.reReadQuantifier]
  refine .bind_same fun kind hkind => ?_
  cases kind with
  | none => exact .pure (.done hc hq)
  | some kind =>
    have hpast := hq.drop_quantifier hkind
    cases kind with
    | star => exact .pure ((Steady.wrapStar start).alike (hc.move _) hpast)
    | plus => exact .pure ((Steady.wrapPlus start).alike (hc.move _) hpast)
    | question =>
      exact .pure ((Steady.wrapOptional start).wrapResult.alike (hc.move _) hpast)
    | interval =>
      refine hpast.reParseInterval.bind fun r r' hr => ?_
      cases hr with
      | error he => exact .pure (.failed he rfl)
      | @bounds min max p q h =>
        simp only
        split
        · exact .pure (.failed nofun rfl)
        · exact .pure ((Steady.interval start min max).alike (hc.move p) h)

theorem Steady.refused_error (h : Steady op) (hc : c.error = .regEspace) :
    (op c).2.error = .regEspace := by
  rcases heq : op c with ⟨_ | a, d⟩
  · exact (h.refused c d heq).1
  · exact (h.done c d a heq).1.trans hc

/-- After a refused request a well-formed quantifier leaves the error as it is. -/
theorem reCompileQuantifier_refused {start : ℕ} {r : Option ℕ × ReCompiler}
    (hc : c.error = .regEspace) (hquant : (parseQuantifier c.extended c.cursor).isSome)
    (h : reCompileQuantifier c start = some r) : r.2.error = .regEspace := by
  unfold parseQuantifier at hquant
  unfold reCompileQuantifier at h
  obtain ⟨kind, hkind, h⟩ := Option.bind_eq_some_iff.mp h
  rcases kind with _ | _ | _ | _ | _
  · cases h
    exact hc
  · cases h
    exact (Steady.wrapStar start).refused_error hc
  · cases h
    exact (Steady.wrapPlus start).refused_error hc
  · cases h
    exact (Steady.wrapOptional start).wrapResult.refused_error hc
  · obtain ⟨bounds, hbounds, h⟩ := Option.bind_eq_some_iff.mp h
    have hparse : reParseInterval (c.cursor.drop (markLength c.extended)) = some bounds := hbounds
    simp only [hkind, hparse, Option.bind_eq_bind, Option.bind_some] at hquant
    obtain e | ⟨min, max, p⟩ := bounds
    · cases hquant
    · simp only at h hquant
      split at h
      · rw [if_pos ‹_›] at hquant
        cases hquant
      · cases h
        exact (Steady.interval start min max).refused_error hc

/-! ## Sequences -/

/-- The results of `re_compile_piece`; after an error the first may still ask to go on. -/
inductive AlikePiece (x : Bool) :
    Bool × ReCompiler → Bool × ReCompiler → Prop where

  | failed {more : Bool} {c c' : ReCompiler} : c.error ≠ .ok → c'.error = c.error →
      AlikePiece x (more, c) (false, c')

  | done {c : ReCompiler} {q : List UInt8} : Running x c → Expands c.cursor q →
      AlikePiece x (true, c) (true, { c with cursor := q })

theorem Running.stops (hc : Running x c) :
    reSequenceStops inGroup c = branchEnds x inGroup c.cursor := by
  rw [reSequenceStops_eq hc.ok, hc.extended]

section Sequences

variable {alternation alternation' : ReCompiler → Option ReCompiler}
  {shorthands : ReCompiler → List ReCompiler}
  (halt : AlikeOn x alternation alternation' shorthands)

include halt

theorem reCompilePiece_alike (hc : Running x c) (hq : Expands c.cursor q)
    (hok : ∀ d ∈ atomShorthands shorthands c, d.Replaceable)
    (hstop : branchEnds x inGroup c.cursor = some false) :
    Together (reCompilePiece alternation inGroup c)
      (reCompilePiece alternation' inGroup { c with cursor := q }) (AlikePiece x) := by
  unfold reCompilePiece
  refine (reCompileAtom_alike halt hc hq hok hstop).bind fun r r' hr => ?_
  cases hr with
  | failed hd hd' => exact .pure (.failed hd hd')
  | @done k k' d q hk hk' hd hq =>
    obtain ⟨k, rfl⟩ := Nat.exists_eq_succ_of_ne_zero hk
    obtain ⟨k', rfl⟩ := Nat.exists_eq_succ_of_ne_zero hk'
    refine (reCompileQuantifier_alike c.length hd hq).bind fun r r' hr => ?_
    cases hr with
    | failed he he' => exact .pure (.failed he he')
    | done he hq => exact .pure (.done he hq)
  | @refused k d d' hd hd' hquant =>
    cases k with
    | zero => exact .pure (.failed (by simp [hd]) (hd'.trans hd.symm))
    | succ k =>
      refine .bind_left fun r hr => ?_
      have he := reCompileQuantifier_refused hd hquant hr
      rcases r with ⟨_ | _, e⟩ <;>
        exact .pure (.failed (he ▸ nofun) (hd'.trans he.symm))

theorem reSequenceLoop_alike {n n' : ℕ} (hc : Running x c) (hq : Expands c.cursor q)
    (hok : ∀ d ∈ sequenceShorthands alternation shorthands inGroup n c, d.Replaceable) :
    Together (reSequenceLoop alternation inGroup n c)
      (reSequenceLoop alternation' inGroup n' { c with cursor := q }) (Alike x) := by
  induction n generalizing n' c q with
  | zero => exact .none_left
  | succ n ih =>
    cases n' with
    | zero => exact .none_right
    | succ n' =>
      have hstops : reSequenceStops inGroup { c with cursor := q } =
          branchEnds x inGroup c.cursor := (hc.move q).stops.trans hq.branchEnds
      rw [reSequenceLoop, reSequenceLoop, hc.stops, hstops]
      refine .bind_same fun ends hends => ?_
      cases ends with
      | true => exact .pure (.running hc hq)
      | false =>
        rw [sequenceShorthands, hc.stops, if_pos hends, List.forall_mem_append] at hok
        refine (reCompilePiece_alike halt hc hq hok.1 hends).bind_of_eq fun r r' hpiece hr => ?_
        cases hr with
        | done hd hq => exact ih hd hq (by simpa only [hpiece] using hok.2)
        | @failed more d d' hd hd' =>
          cases more with
          | false => exact .pure (.failed hd hd')
          | true =>
            cases n with
            | zero => exact .none_left
            | succ n =>
              simp only [reSequenceLoop, reSequenceStops, if_pos hd]
              exact .some (.failed hd hd')

theorem reCompileSequence_alike :
    AlikeOn x (reCompileSequence alternation inGroup) (reCompileSequence alternation' inGroup)
      fun c => sequenceShorthands alternation shorthands inGroup (c.cursor.length + 1) c :=
  fun _ _ hc hq hok => reSequenceLoop_alike halt hc hq hok

end Sequences

/-! ## Alternations -/

section Alternations

variable {sequence sequence' : ReCompiler → Option ReCompiler}
  {shorthands : ReCompiler → List ReCompiler} (hseq : AlikeOn x sequence sequence' shorthands)

include hseq

theorem reAltLoop_alike {n n' lastSplit : ℕ} {jumps : List ℕ} (hc : Running x c)
    (hq : Expands c.cursor q) (hbar : reIsAltDelimiter c = some true)
    (hok : ∀ d ∈ altLoopShorthands sequence shorthands n c lastSplit jumps, d.Replaceable) :
    Together (reAltLoop sequence n c lastSplit jumps)
      (reAltLoop sequence' n' { c with cursor := q } lastSplit jumps) (AlikeResult x) := by
  induction n generalizing n' c q lastSplit jumps with
  | zero => exact .none_left
  | succ n ih =>
    cases n' with
    | zero => exact .none_right
    | succ n' =>
      have hdrop := hq.drop_delimiter (by decide) (by decide) (by decide) (by decide) hbar
      have hopen := (Steady.openBranch lastSplit).alike (hc.move _) hdrop
      unfold markLength at hopen
      rw [altLoopShorthands] at hok
      rw [reAltLoop, reAltLoop]
      simp only at hopen ⊢
      generalize reOpenBranch { c with cursor := c.cursor.drop (if c.extended then 1 else 2) }
        lastSplit = s at hopen hok ⊢
      generalize reOpenBranch { c with cursor := q.drop (if c.extended then 1 else 2) }
        lastSplit = s' at hopen ⊢
      cases hopen with
      | failed hd hd' => exact .pure (.failed hd hd')
      | @done split d r hd hr =>
        rw [List.forall_mem_append] at hok
        refine Alike.bind (hseq d r hd hr hok.1) (fun e e' he he' => .pure (.failed he he'))
          fun e q heq hrun hq => ?_
        have hok := hok.2
        simp only [heq] at hok
        have hclose := (Steady.closeBranch split d.length).alike hrun hq
        rw [show ({ d with cursor := r } : ReCompiler).length = d.length from rfl]
        generalize reCloseBranch e split d.length = s at hclose hok ⊢
        generalize reCloseBranch { e with cursor := q } split d.length = s' at hclose ⊢
        cases hclose with
        | failed hf hf' => exact .pure (.failed hf hf')
        | @done jump f q hf hq =>
          simp only at hok ⊢
          split
          · exact .pure (.failed (by simp) rfl)
          rename_i hjumps
          have hdelim : reIsAltDelimiter { f with cursor := q } = reIsAltDelimiter f :=
            hq.isDelimiter (by decide) (by decide) (by decide)
          rw [hdelim]
          refine .bind_same fun more hmore => ?_
          cases more with
          | true =>
            rw [if_pos ⟨hrun.ok, not_le.mp hjumps, hmore⟩] at hok
            exact ih hf hq hmore hok
          | false => exact .pure (.done hf hq)

end Alternations

theorem Steady.ne_ok (h : Steady op) {d : ReCompiler} (hd : op c = (none, d)) : d.error ≠ .ok := by
  rw [(h.refused c d hd).1]
  simp

theorem reCompileAlternation_alike {depth depth' : ℕ} :
    AlikeOn x (reCompileAlternation depth inGroup) (reCompileAlternation depth' inGroup)
      (alternationShorthands depth inGroup) := by
  induction depth generalizing depth' inGroup with
  | zero => exact fun _ _ _ _ _ => .none_left
  | succ depth ih =>
    intro c q hc hq hok
    cases depth' with
    | zero => exact .none_right
    | succ depth' =>
      have hgroup : AlikeOn x (reCompileAlternation depth true) (reCompileAlternation depth' true)
          (alternationShorthands depth true) := ih
      have hseq := @reCompileSequence_alike x inGroup _ _ _ hgroup
      rw [alternationShorthands, List.forall_mem_append] at hok
      rw [reCompileAlternation, reCompileAlternation]
      refine Alike.bind (hseq c q hc hq hok.1) (fun e e' he he' => .pure (.failed he he'))
        fun e r hfirst hrun hr => ?_
      have hok := hok.2
      simp only [hfirst] at hok
      have hdelim : reIsAltDelimiter { e with cursor := r } = reIsAltDelimiter e :=
        hr.isDelimiter (by decide) (by decide) (by decide)
      rw [hdelim]
      refine .bind_same fun more hmore => ?_
      cases more with
      | false => exact .pure (.running hrun hr)
      | true =>
        rw [if_pos ⟨hrun.ok, hmore⟩] at hok
        have hinsert : reInsert { e with cursor := r } c.length = _ :=
          (Steady.insert c.length).move e r
        have hlen : ({ c with cursor := q } : ReCompiler).length = c.length := rfl
        simp only [Bool.not_true, Bool.false_eq_true, if_false, hlen, hinsert]
        rcases heq : reInsert e c.length with ⟨_ | split, d⟩
        · exact .pure (.failed ((Steady.insert c.length).ne_ok heq) rfl)
        obtain ⟨hd, hcursor⟩ := (Steady.insert c.length).running hrun heq
        simp only [heq] at hok
        have hjump : Steady fun d => reEmit (d.setSplit split (c.length + 1) d.length) .reJmp :=
          (Steady.emit .reJmp).modifyFirst split fun n =>
            ({ · with op := .reSplit, x := c.length + 1, y := n })
        have hmove : reEmit (({ d with cursor := r } : ReCompiler).setSplit split (c.length + 1)
            d.length) .reJmp = _ := hjump.move d r
        have hlen : ({ d with cursor := r } : ReCompiler).length = d.length := rfl
        simp only [hlen, hmove]
        rcases heq' : reEmit (d.setSplit split (c.length + 1) d.length) .reJmp with ⟨_ | jump, f⟩
        · exact .pure (.failed (hjump.ne_ok heq') rfl)
        obtain ⟨hf, hcursor'⟩ := hjump.running hd heq'
        simp only [heq'] at hok
        rw [← hcursor, ← hcursor'] at hr
        have hbar : reIsAltDelimiter f = some true := by
          have hext : f.extended = e.extended := hf.extended.trans hrun.extended.symm
          unfold reIsAltDelimiter
          rw [hcursor', hcursor, hext]
          exact hmore
        refine (reAltLoop_alike hseq hf hr hbar hok).bind fun s s' hs => ?_
        cases hs with
        | failed hg hg' => exact .pure (.failed hg hg')
        | @done branches g r hg hr =>
          obtain ⟨lastSplit, jumps⟩ := branches
          simp only [rePatchAlternation_eq]
          have hlen : g.program.length ≤ (patchAlternation g.program lastSplit jumps).length := by
            rw [length_patchAlternation]
          exact .pure (.running
            ⟨hg.ok, hg.extended, hg.emitted.trans_le hlen⟩ hr)

/-! ## Patterns -/

theorem reCompilePattern_alike {regex regex' : CString} (hc : Running x c)
    (hq : Expands c.cursor q)
    (hok : ∀ d ∈ alternationShorthands (regex.strlen + 1) false c, d.Replaceable) :
    Together (reCompilePattern regex c) (reCompilePattern regex' { c with cursor := q })
      (Alike x) := by
  unfold reCompilePattern
  refine (reCompileAlternation_alike c q hc hq hok).bind fun e e' he => ?_
  by_cases hok : e.error = .ok
  · obtain ⟨hrun, q, rfl, hq⟩ := he.same hok
    obtain ⟨b, b', hb, hb', hfirst⟩ := hq.head
    have hnul : b' = 0 ↔ b = 0 := by
      rcases hfirst with ⟨rfl, -⟩ | ⟨rfl, rfl⟩
      · exact Iff.rfl
      · decide
    rw [if_pos hok, if_pos (show ({ e with cursor := q } : ReCompiler).error = .ok from hok)]
    simp only [hb, hb', Option.bind_eq_bind, Option.bind_some, ne_eq, hnul]
    split
    · exact .pure (.failed nofun rfl)
    · exact .pure (.running hrun hq)
  · have hok' : e'.error ≠ .ok := he.error ▸ hok
    rw [if_neg hok, if_neg hok']
    exact .pure (.failed hok he.error)

end Runs

/-- `regcomp` has one status for both patterns, and fills in the same `regex_t`. -/
theorem regcomp_alike {regex regex' : CString} {cflags : UInt32} {heap : Heap}
    (h : Expands regex.memory regex'.memory)
    (hok : ∀ c ∈ shorthandsRead regex cflags heap, c.Replaceable) :
    Together (regcomp regex cflags heap) (regcomp regex' cflags heap)
      fun r r' => r'.1 = r.1 ∧ r'.2.1 = r.2.1 := by
  have hstart : reStart regex' cflags heap = ((reStart regex cflags heap).1,
      { (reStart regex cflags heap).2 with cursor := regex'.memory }) :=
    (Steady.emitSave 0).move
      { cursor := regex.memory, cflags := cflags
        extended := hasFlag cflags regExtended, heap := heap } regex'.memory
  obtain ⟨-, hcursor, hext, hcode⟩ := reStart_grows regex cflags heap
  unfold shorthandsRead at hok
  unfold regcomp
  rw [hstart]
  rcases heq : reStart regex cflags heap with ⟨_ | k, c⟩
  · exact .pure ⟨rfl, rfl⟩
  have herror : c.error = .ok := ((Steady.emitSave 0).done _ c k heq).1
  rw [heq] at hok hcursor hext hcode
  have hrun : Running (hasFlag cflags regExtended) c := by
    refine ⟨herror, hext, ?_⟩
    have hprogram : c.program = _ := congrArg Code.program (hcode herror)
    simp [ReCompiler.length, hprogram]
  rw [← hcursor] at h
  refine Alike.bind (reCompilePattern_alike hrun h hok) (fun e e' _ he => ?_)
    fun e q _ hrun hq => ?_
  · exact .pure ⟨he, rfl⟩
  have hsave : reEmitSave { e with cursor := q } 1 = _ := (Steady.emitSave 1).move e q
  simp only [hsave]
  rcases reEmitSave e 1 with ⟨_ | _, d⟩
  · exact .pure ⟨rfl, rfl⟩
  have hmatch : reEmit { d with cursor := q } .reMatch = _ := (Steady.emit .reMatch).move d q
  simp only [hmatch]
  rcases reEmit d .reMatch with ⟨_ | _, f⟩
  · exact .pure ⟨rfl, rfl⟩
  · exact .pure ⟨rfl, rfl⟩

/--
`regcomp` has one status for two patterns, and `regexec` has one status and the same offsets on
every text.
-/
def Interchangeable (regex regex' : CString) (cflags : UInt32) (heap : Heap) : Prop :=
  ∃ code preg preg' heap₁ heap₂, regcomp regex cflags heap = some (code, preg, heap₁) ∧
    regcomp regex' cflags heap = some (code, preg', heap₂) ∧
    ∀ string nmatch pmatch eflags captures generations,
      regexec preg string nmatch pmatch eflags captures generations =
        regexec preg' string nmatch pmatch eflags captures generations

/--
In either syntax, and for every behaviour of the allocator, the shorthands outside brackets may be
replaced by their brackets if those that `regcomp` reads before it stops are lower-case ones, or,
where their own request is refused, are followed by no interval with an error.
-/
theorem interchangeable_expandShorthands {regex : CString} {cflags : UInt32} {heap : Heap}
    (hok : ∀ c ∈ shorthandsRead regex cflags heap, c.Replaceable) :
    Interchangeable regex (expandShorthands regex) cflags heap := by
  have hexpands : Expands regex.memory (expandShorthands regex).memory := by
    rw [memory_expandShorthands]
    exact expands_memory regex
  obtain ⟨⟨code, preg, heap₁⟩, h₁, -⟩ := regcomp_spec regex cflags heap
  obtain ⟨⟨code', preg', heap₂⟩, h₂, -⟩ := regcomp_spec (expandShorthands regex) cflags heap
  obtain ⟨hcode, hpreg⟩ := regcomp_alike hexpands hok _ _ h₁ h₂
  simp only at hcode hpreg
  subst hcode hpreg
  exact ⟨_, _, _, heap₁, heap₂, h₁, h₂, fun _ _ _ _ _ _ => rfl⟩

abbrev digitsOrWord : CString :=
  ⟨['\\', 'd', '{', '2', '}', '|', '\\', 'w'].map byte, by decide⟩

theorem digitsOrWord_interchangeable :
    (expandShorthands digitsOrWord).bytes = ['[', '0', '-', '9', ']', '{', '2', '}', '|',
      '[', 'A', '-', 'Z', 'a', '-', 'z', '0', '-', '9', '_', ']'].map byte ∧
    Interchangeable digitsOrWord (expandShorthands digitsOrWord) regExtended
      { Heap.unlimited with grants := fun n => n < 3 } := by
  exact ⟨by decide +kernel, interchangeable_expandShorthands (by decide +kernel)⟩

-- the compiler stops at the interval of `a{5,2}\W`
example : (shorthandsRead ⟨['a', '{', '5', ',', '2', '}', '\\', 'W'].map byte, by decide⟩
    regExtended .unlimited).length = 0 := by decide +kernel

/-- `regexec` after `regcomp`, with all the memory they ask for. -/
def matchStatus (regex string : CString) : Option RegCode := do
  let (_, preg, _) ← regcomp regex 0 .unlimited
  let r ← regexec preg string 0 [] 0 true (some fun _ => 0)
  return r.status

theorem Interchangeable.matchStatus {regex regex' : CString}
    (h : Interchangeable regex regex' 0 .unlimited) (string : CString) :
    matchStatus regex string = matchStatus regex' string := by
  obtain ⟨code, preg, preg', heap₁, heap₂, h₁, h₂, hexec⟩ := h
  unfold Regex.matchStatus
  rw [h₁, h₂]
  simp only [Option.bind_eq_bind, Option.bind_some, hexec]

abbrev nonWord : CString := ⟨[byte '\\', byte 'W'], by decide⟩

/-- `\W` matches a letter, and `[^A-Za-z0-9_]` does not. -/
theorem nonWord_not_interchangeable :
    ¬ Interchangeable nonWord (expandShorthands nonWord) 0 .unlimited := by
  intro h
  have hstatus := h.matchStatus ⟨[byte 'a'], by decide⟩
  exact absurd hstatus (by decide +kernel)

end LampUserspace.Regex
