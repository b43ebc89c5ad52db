import LampUserspace.Regex.Program

/-! # The compiler

The recursive-descent parser of `libc_regex.c`, which emits code as it reads.
A result of `none` marks a run that reads past the NUL of the pattern, or that
has used up the bound on its recursion depth or on its number of iterations.
The functions that return an `int` return `none` where the source returns `-1`.
-/

namespace LampUserspace.Regex

/-! ## Bracket expressions -/

theorem shiftRight_three_lt (ch : UInt8) : (ch >>> 3).toNat < 32 := by
  have h : (ch >>> 3).toNat = ch.toNat >>> 3 := by simp
  have := ch.toNat_lt
  rw [h, Nat.shiftRight_eq_div_pow]
  omega

def reSetChar (set : ByteSet) (ch : UInt8) : ByteSet :=
  set.set (ch >>> 3).toNat
    (set.get ⟨(ch >>> 3).toNat, shiftRight_three_lt ch⟩ ||| (1 <<< (ch &&& 7)))
    (shiftRight_three_lt ch)

def reSetRange (set : ByteSet) (first last : UInt8) : ByteSet :=
  if first > last then set
  else (List.range' first.toNat (last.toNat + 1 - first.toNat)).foldl
    (fun set ch => reSetChar set ch.toUInt8) set

/-- `set[i] = ~set[i]` over the whole bitmap. -/
def ByteSet.complement (set : ByteSet) : ByteSet := set.map (~~~ ·)

/-- `re_parse_escape`: the byte and the new cursor, or the error it stores. -/
def reParseEscape (p : List UInt8) : Option (Except RegCode (UInt8 × List UInt8)) := do
  let b ← p[0]?
  if b ≠ byte '\\' then return .ok (b, p.drop 1)
  let p := p.drop 1
  let e ← p[0]?
  if e = 0 then return .error .regEescape
  let ch :=
    if e = byte 'n' then 10
    else if e = byte 't' then 9
    else if e = byte 'r' then 13
    else if e = byte 'f' then 12
    else if e = byte 'v' then 11
    else if e = byte 'a' then 7
    else if e = byte '0' then 0
    else e
  return .ok (ch, p.drop 1)

/-- The rows of the table in `re_named_class`. -/
def namedClasses : List (List Char × UInt8 × UInt8) :=
  [(['a', 'l', 'p', 'h', 'a', ':'], byte 'a', byte 'z'),
   (['a', 'l', 'p', 'h', 'a', ':'], byte 'A', byte 'Z'),
   (['d', 'i', 'g', 'i', 't', ':'], byte '0', byte '9'),
   (['l', 'o', 'w', 'e', 'r', ':'], byte 'a', byte 'z'),
   (['u', 'p', 'p', 'e', 'r', ':'], byte 'A', byte 'Z'),
   (['s', 'p', 'a', 'c', 'e', ':'], 9, 13),
   (['s', 'p', 'a', 'c', 'e', ':'], byte ' ', byte ' '),
   (['b', 'l', 'a', 'n', 'k', ':'], 9, 9),
   (['b', 'l', 'a', 'n', 'k', ':'], byte ' ', byte ' '),
   (['p', 'u', 'n', 'c', 't', ':'], byte '!', byte '/'),
   (['p', 'u', 'n', 'c', 't', ':'], byte ':', byte '@'),
   (['p', 'u', 'n', 'c', 't', ':'], byte '[', 96),
   (['p', 'u', 'n', 'c', 't', ':'], byte '{', byte '~'),
   (['c', 'n', 't', 'r', 'l', ':'], 0, 31),
   (['c', 'n', 't', 'r', 'l', ':'], 127, 127),
   (['x', 'd', 'i', 'g', 'i', 't', ':'], byte '0', byte '9'),
   (['x', 'd', 'i', 'g', 'i', 't', ':'], byte 'A', byte 'F'),
   (['x', 'd', 'i', 'g', 'i', 't', ':'], byte 'a', byte 'f'),
   (['a', 'l', 'n', 'u', 'm', ':'], byte '0', byte '9'),
   (['a', 'l', 'n', 'u', 'm', ':'], byte 'A', byte 'Z'),
   (['a', 'l', 'n', 'u', 'm', ':'], byte 'a', byte 'z'),
   (['p', 'r', 'i', 'n', 't', ':'], byte ' ', byte '~'),
   (['g', 'r', 'a', 'p', 'h', ':'], byte '!', byte '~')]

/-- `strncmp(p, name, strlen(name)) == 0`, reading no further than the first difference. -/
def hasName : List UInt8 → List Char → Option Bool
  | _, [] => some true
  | p, c :: name => do
    let b ← p[0]?
    if b ≠ byte c then return false
    hasName (p.drop 1) name

/-- The scan of the class table: the first row that fits sets its range and ends the scan. -/
def scanClasses (p : List UInt8) (set : ByteSet) :
    List (List Char × UInt8 × UInt8) → Option (Option (List UInt8 × ByteSet))
  | [] => some none
  | (name, first, last) :: rows => do
    if (← hasName p name) then
      if (← p[name.length]?) = byte ']' then
        return some (p.drop (name.length + 1), reSetRange set first last)
    scanClasses p set rows

/-- `re_named_class`: `some none` stands for the result `0`. -/
def reNamedClass (p : List UInt8) (set : ByteSet) :
    Option (Option (List UInt8 × ByteSet)) := do
  if (← p[0]?) ≠ byte '[' then return none
  if (← p[1]?) ≠ byte ':' then return none
  scanClasses (p.drop 2) set namedClasses

/-- `p[0] == first && p[1] == second`. -/
def isPair (first second : UInt8) (p : List UInt8) : Option Bool := do
  if (← p[0]?) ≠ first then return false
  return (← p[1]?) = second

/-- The test for a dash that opens a range. -/
def isRangeDash (p : List UInt8) : Option Bool := do
  if (← p[0]?) ≠ byte '-' then return false
  let b ← p[1]?
  return b ≠ byte ']' && b ≠ 0

def reClassRange (p : List UInt8) (set : ByteSet) :
    Option (Except RegCode (List UInt8 × ByteSet)) := do
  match ← reParseEscape p with
  | .error e => return .error e
  | .ok (first, p) =>
    if (← isRangeDash p) then
      match ← reParseEscape (p.drop 1) with
      | .error e => return .error e
      | .ok (last, p) =>
        if last < first then return .error .regErange
        return .ok (p, reSetRange set first last)
    else return .ok (p, reSetChar set first)

/-- One pass of the loop of `re_compile_class`, at a `p` that is neither NUL nor `]`. -/
def reClassItem (p : List UInt8) (set : ByteSet) :
    Option (Except RegCode (List UInt8 × ByteSet)) := do
  match ← reNamedClass p set with
  | some (p, set) => return .ok (p, set)
  | none =>
    if (← isPair (byte '[') (byte ':') p) then return .error .regEctype
    else reClassRange p set

/-- The loop of `re_compile_class`; the bound `n` counts its iterations. -/
def reClassLoop : ℕ → List UInt8 → ByteSet → Option (Except RegCode (List UInt8 × ByteSet))
  | 0, _, _ => none
  | n + 1, p, set => do
    let b ← p[0]?
    if b = 0 ∨ b = byte ']' then return .ok (p, set)
    match ← reClassItem p set with
    | .error e => return .error e
    | .ok (p, set) => reClassLoop n p set

/-- What `re_compile_class` reads: the bitmap of the bracket at `p` and the cursor after it. -/
def reReadClass (p : List UInt8) : Option (Except RegCode (List UInt8 × ByteSet)) := do
  let p := p.drop 1
  let negated := (← p[0]?) = byte '^'
  let p := if negated then p.drop 1 else p
  let bracket := (← p[0]?) = byte ']'
  let set := if bracket then reSetChar ByteSet.empty (byte ']') else ByteSet.empty
  let p := if bracket then p.drop 1 else p
  match ← reClassLoop (p.length + 1) p set with
  | .error e => return .error e
  | .ok (p, set) =>
    if (← p[0]?) ≠ byte ']' then return .error .regEbrack
    return .ok (p.drop 1, if negated then set.complement else set)

def reCompileClass (c : ReCompiler) : Option (Option ℕ × ReCompiler) := do
  match ← reReadClass c.cursor with
  | .error e => return (none, { c with error := e })
  | .ok (p, set) =>
    match reEmit c .reClass with
    | (none, c) => return (none, c)
    | (some index, c) =>
      return (some index,
        { c.modifyInst index ({ · with set := set }) with cursor := p })

/-- The bitmap `re_compile_simple_class` builds; only the lower-case kinds have a case. -/
def simpleClass (kind : UInt8) (negate : Bool) : ByteSet :=
  let set :=
    if kind = byte 'w' ∨ kind = byte 'd' then
      let set := reSetRange ByteSet.empty (byte '0') (byte '9')
      if kind = byte 'w' then
        reSetChar (reSetRange (reSetRange set (byte 'a') (byte 'z')) (byte 'A') (byte 'Z'))
          (byte '_')
      else set
    else if kind = byte 's' then
      [byte ' ', 9, 10, 13, 12, 11].foldl reSetChar ByteSet.empty
    else ByteSet.empty
  if negate then set.complement else set

def reCompileSimpleClass (c : ReCompiler) (kind : UInt8) (negate : Bool) : ReCompiler :=
  match reEmit c .reClass with
  | (none, c) => c
  | (some index, c) => c.modifyInst index ({ · with set := simpleClass kind negate })

/-! ## Delimiters and atoms -/

/-- `p[0] == mark` in the extended syntax, `p[0] == '\\' && p[1] == mark` in the basic one. -/
def isDelimiter (extended : Bool) (mark : UInt8) (p : List UInt8) : Option Bool := do
  if extended then return (← p[0]?) = mark
  isPair (byte '\\') mark p

def reIsAltDelimiter (c : ReCompiler) : Option Bool :=
  isDelimiter c.extended (byte '|') c.cursor

def reIsGroupClose (c : ReCompiler) (inGroup : Bool) : Option Bool :=
  if !inGroup then some false else isDelimiter c.extended (byte ')') c.cursor

def reEmitSave (c : ReCompiler) (slot : Int) : Option ℕ × ReCompiler :=
  match reEmit c .reSave with
  | (none, c) => (none, c)
  | (some save, c) => (some save, c.modifyInst save ({ · with x := slot }))

/-- The number and the first `RE_SAVE` of a capturing group. -/
def reOpenGroup (c : ReCompiler) (capture : Bool) : Option ℕ × ReCompiler :=
  if capture then
    let c := { c with groups := c.groups + 1 }
    reEmitSave c (c.groups * 2)
  else (some 0, c)

/-- The second `RE_SAVE` of a capturing group, numbered by the groups opened so far. -/
def reCloseGroup (c : ReCompiler) (capture : Bool) : Option ℕ × ReCompiler :=
  if capture then reEmitSave c (c.groups * 2 + 1) else (some 0, c)

/--
The part of `re_compile_atom` that the two group syntaxes share, with the cursor already
past the opening. `alternation` is the recursive call `re_compile_alternation(c, 1)`.
-/
def reCompileGroup (alternation : ReCompiler → Option ReCompiler) (c : ReCompiler)
    (capture : Bool) : Option (Option ℕ × ReCompiler) := do
  match reOpenGroup c capture with
  | (none, c) => return (none, c)
  | (some _, c) =>
    let c ← alternation c
    if c.error ≠ .ok then return (none, c)
    if !(← reIsGroupClose c true) then return (none, { c with error := .regEparen })
    let c := { c with cursor := c.cursor.drop (if c.extended then 1 else 2) }
    match reCloseGroup c capture with
    | (none, c) => return (none, c)
    | (some _, c) => return (some 1, c)

/-- The tail of `re_compile_atom`: a literal, possibly escaped. -/
def reCompileChar (c : ReCompiler) : Option (Option ℕ × ReCompiler) := do
  match ← reParseEscape c.cursor with
  | .error e => return (none, { c with error := e })
  | .ok (ch, p) =>
    match reEmit { c with cursor := p } .reChar with
    | (none, c) => return (none, c)
    | (some index, c) => return (some 1, c.modifyInst index ({ · with ch := ch }))

/-- The escapes of `re_compile_atom` that open no group; `kind` is the byte after `\`. -/
def reCompileEscape (c : ReCompiler) (kind : UInt8) : Option (Option ℕ × ReCompiler) :=
  let p := c.cursor.drop 2
  if kind = byte 'w' ∨ kind = byte 'W' ∨ kind = byte 's' ∨
      kind = byte 'S' ∨ kind = byte 'd' ∨ kind = byte 'D' then
    some (some 1, reCompileSimpleClass { c with cursor := p } kind
      (byte 'A' ≤ kind && kind ≤ byte 'Z'))
  else if kind = byte 'b' ∨ kind = byte 'B' then
    some (reEmit { c with cursor := p } (if kind = byte 'b' then .reWordb else .reNotWordb))
  else reCompileChar c

def reCompileAtom (alternation : ReCompiler → Option ReCompiler) (c : ReCompiler)
    (inGroup : Bool) : Option (Option ℕ × ReCompiler) := do
  let p := c.cursor
  let b ← p[0]?
  if b = 0 then return (some 0, c)
  if (← reIsAltDelimiter c) then return (some 0, c)
  if (← reIsGroupClose c inGroup) then return (some 0, c)
  if b = byte '^' then return reEmit { c with cursor := p.drop 1 } .reBol
  if b = byte '$' then return reEmit { c with cursor := p.drop 1 } .reEol
  if b = byte '.' then return reEmit { c with cursor := p.drop 1 } .reAny
  if b = byte '[' then reCompileClass c
  else if b = byte '(' ∧ c.extended then
    let p := p.drop 1
    let plain ← isPair (byte '?') (byte ':') p
    reCompileGroup alternation { c with cursor := if plain then p.drop 2 else p } (!plain)
  else if b = byte '\\' then
    let kind ← p[1]?
    if kind = byte '(' ∧ !c.extended then
      reCompileGroup alternation { c with cursor := p.drop 2 } true
    else if kind ≠ 0 then reCompileEscape c kind
    else reCompileChar c
  else reCompileChar c

/-! ## Quantifiers -/

/-- A digit loop of `re_parse_interval`, with its bound on the value. -/
def readDigits : List UInt8 → ℕ → Option (Except RegCode (ℕ × List UInt8))
  | [], _ => none
  | b :: p, value =>
    if isdigit b then
      let value := value * 10 + (b.toNat - (byte '0').toNat)
      if value > 10000 then some (.error .regBadbr) else readDigits p value
    else some (.ok (value, b :: p))

/-- The upper bound of an interval; `none` is the source's `-1`. -/
def readMax (p : List UInt8) (min : ℕ) : Option (Except RegCode (Option ℕ × List UInt8)) := do
  if (← p[0]?) ≠ byte ',' then return .ok (some min, p)
  let p := p.drop 1
  if !isdigit (← p[0]?) then return .ok (none, p)
  match ← readDigits p 0 with
  | .error e => return .error e
  | .ok (max, p) => return .ok (some max, p)

/-- `re_parse_interval`: the bounds and the cursor after the closing brace. -/
def reParseInterval (p : List UInt8) :
    Option (Except RegCode (ℕ × Option ℕ × List UInt8)) := do
  match ← readDigits p 0 with
  | .error e => return .error e
  | .ok (min, p) =>
    match ← readMax p min with
    | .error e => return .error e
    | .ok (max, p) =>
      if (← p[0]?) ≠ byte '}' then return .error .regBadbr
      return .ok (min, max, p.drop 1)

/-- Turn the instruction at `index` into a `RE_SPLIT`. -/
def ReCompiler.setSplit (c : ReCompiler) (index : ℕ) (x y : Int) : ReCompiler :=
  c.modifyInst index ({ · with op := .reSplit, x := x, y := y })

def reWrapOptional (c : ReCompiler) (start : ℕ) : Option ℕ × ReCompiler :=
  match reInsert c start with
  | (none, c) => (none, c)
  | (some split, c) => (some 0, c.setSplit split (start + 1) c.length)

def reWrapStar (c : ReCompiler) (start : ℕ) : Option ℕ × ReCompiler :=
  match reInsert c start with
  | (none, c) => (none, c)
  | (some split, c) =>
    match reEmit (c.setSplit split (start + 1) c.length) .reJmp with
    | (none, c) => (none, c)
    | (some jump, c) => (some 0, c.modifyInst jump ({ · with x := split }))

def reWrapPlus (c : ReCompiler) (start : ℕ) : Option ℕ × ReCompiler :=
  match reEmit c .reSplit with
  | (none, c) => (none, c)
  | (some split, c) => (some 1, c.setSplit split start c.length)

/-- `r == 0 ? 1 : -1` for the result of a wrapper. -/
def wrapResult : Option ℕ × ReCompiler → Option ℕ × ReCompiler
  | (none, c) => (none, c)
  | (some _, c) => (some 1, c)

/-- `n` passes of `re_copy_block`. -/
def reCopies : ℕ → ReCompiler → ℕ → ℕ → Option ℕ × ReCompiler
  | 0, c, _, _ => (some 1, c)
  | n + 1, c, start, stop =>
    match reCopyBlock c start stop with
    | (none, c) => (none, c)
    | (some _, c) => reCopies n c start stop

/-- `n` passes of the loops that append a skippable copy. -/
def reOptionalCopies : ℕ → ReCompiler → ℕ → ℕ → Option ℕ × ReCompiler
  | 0, c, _, _ => (some 1, c)
  | n + 1, c, start, stop =>
    match reEmit c .reSplit with
    | (none, c) => (none, c)
    | (some split, c) =>
      match reCopyBlock c start stop with
      | (none, c) => (none, c)
      | (some body, c) => reOptionalCopies n (c.setSplit split body c.length) start stop

/-- The loop that `{m,}` with `m ≥ 1` appends after its `m` copies. -/
def reOpenTail (c : ReCompiler) (start stop : ℕ) : Option ℕ × ReCompiler :=
  match reEmit c .reSplit with
  | (none, c) => (none, c)
  | (some split, c) =>
    match reCopyBlock c start stop with
    | (none, c) => (none, c)
    | (some body, c) =>
      match reEmit (c.setSplit split body c.length) .reJmp with
      | (none, c) => (none, c)
      | (some jump, c) => (some 1, c.modifyInst jump ({ · with x := split }))

def reCompileInterval (c : ReCompiler) (atomStart min : ℕ) (max : Option ℕ) :
    Option ℕ × ReCompiler :=
  let atomEnd := c.length
  if min = 0 then
    match max with
    | none => wrapResult (reWrapStar c atomStart)
    | some max =>
      match reWrapOptional c atomStart with
      | (none, c) => (none, c)
      | (some _, c) => reOptionalCopies (max - 1) c atomStart atomEnd
  else
    match reCopies (min - 1) c atomStart atomEnd with
    | (none, c) => (none, c)
    | (some _, c) =>
      match max with
      | none => reOpenTail c atomStart atomEnd
      | some max => reOptionalCopies (max - min) c atomStart atomEnd

inductive QuantKind
  | star | plus | question | interval
  deriving DecidableEq, Repr

/-- The quantifiers other than `*`, which the basic syntax writes after a backslash. -/
def quantMark (b : UInt8) : Option QuantKind :=
  if b = byte '+' then some .plus
  else if b = byte '?' then some .question
  else if b = byte '{' then some .interval
  else none

/-- The tests that open `re_compile_quantifier`. -/
def reReadQuantifier (extended : Bool) (p : List UInt8) : Option (Option QuantKind) := do
  let b ← p[0]?
  if b = byte '*' then return some .star
  if extended then return quantMark b
  if b ≠ byte '\\' then return none
  return quantMark (← p[1]?)

def reCompileQuantifier (c : ReCompiler) (atomStart : ℕ) :
    Option (Option ℕ × ReCompiler) := do
  let past : ReCompiler := { c with cursor := c.cursor.drop (if c.extended then 1 else 2) }
  match ← reReadQuantifier c.extended c.cursor with
  | none => return (some 0, c)
  | some .star => return reWrapStar { c with cursor := c.cursor.drop 1 } atomStart
  | some .plus => return reWrapPlus past atomStart
  | some .question => return wrapResult (reWrapOptional past atomStart)
  | some .interval =>
    match ← reParseInterval past.cursor with
    | .error e => return (none, { past with error := e })
    | .ok (min, max, p) =>
      let c := { past with cursor := p }
      if max.any (· < min) then return (none, { c with error := .regBadbr })
      return reCompileInterval c atomStart min max

/-! ## Sequences, alternations and patterns -/

/-- The body of the loop of `re_compile_sequence`; the Boolean says that the loop goes on. -/
def reCompilePiece (alternation : ReCompiler → Option ReCompiler) (inGroup : Bool)
    (c : ReCompiler) : Option (Bool × ReCompiler) := do
  let atomStart := c.length
  match ← reCompileAtom alternation c inGroup with
  | (none, c) => return (false, c)
  | (some 0, c) => return (false, c)
  | (some _, c) =>
    match ← reCompileQuantifier c atomStart with
    | (none, c) => return (false, c)
    | (some _, c) => return (true, c)

/-- The condition under which the loop of `re_compile_sequence` stops. -/
def reSequenceStops (inGroup : Bool) (c : ReCompiler) : Option Bool := do
  if c.error ≠ .ok then return true
  if (← c.cursor[0]?) = 0 then return true
  if (← reIsAltDelimiter c) then return true
  reIsGroupClose c inGroup

/-- The loop of `re_compile_sequence`; the bound `n` counts its iterations. -/
def reSequenceLoop (alternation : ReCompiler → Option ReCompiler) (inGroup : Bool) :
    ℕ → ReCompiler → Option ReCompiler
  | 0, _ => none
  | n + 1, c => do
    if (← reSequenceStops inGroup c) then return c
    match ← reCompilePiece alternation inGroup c with
    | (false, c) => return c
    | (true, c) => reSequenceLoop alternation inGroup n c

def reCompileSequence (alternation : ReCompiler → Option ReCompiler) (inGroup : Bool)
    (c : ReCompiler) : Option ReCompiler :=
  reSequenceLoop alternation inGroup (c.cursor.length + 1) c

/-- The split of a further branch, with the previous split pointed at it. -/
def reOpenBranch (c : ReCompiler) (lastSplit : ℕ) : Option ℕ × ReCompiler :=
  match reEmit c .reSplit with
  | (none, c) => (none, c)
  | (some split, c) => (some split, c.modifyInst lastSplit ({ · with y := split }))

/-- The targets of the split of a branch, and the jump at its end. -/
def reCloseBranch (c : ReCompiler) (split body : ℕ) : Option ℕ × ReCompiler :=
  reEmit (c.modifyInst split ({ · with x := body, y := c.length })) .reJmp

/--
The loop of `re_compile_alternation`, entered at a delimiter. It returns the last split and
the jumps still to be patched, or `none` in their place where the source returns early.
-/
def reAltLoop (sequence : ReCompiler → Option ReCompiler) :
    ℕ → ReCompiler → ℕ → List ℕ → Option (Option (ℕ × List ℕ) × ReCompiler)
  | 0, _, _, _ => none
  | n + 1, c, lastSplit, jumps => do
    let c := { c with cursor := c.cursor.drop (if c.extended then 1 else 2) }
    match reOpenBranch c lastSplit with
    | (none, c) => return (none, c)
    | (some split, c) =>
      let body := c.length
      let c ← sequence c
      if c.error ≠ .ok then return (none, c)
      match reCloseBranch c split body with
      | (none, c) => return (none, c)
      | (some jump, c) =>
        if jumps.length ≥ 128 then return (none, { c with error := .regBadpat })
        if (← reIsAltDelimiter c) then reAltLoop sequence n c split (jumps ++ [jump])
        else return (some (split, jumps ++ [jump]), c)

def rePatchAlternation (c : ReCompiler) (lastSplit : ℕ) (jumps : List ℕ) : ReCompiler :=
  jumps.foldl (fun d jump => d.modifyInst jump ({ · with x := c.length }))
    (c.modifyInst lastSplit ({ · with y := c.length }))

/-- `re_compile_alternation`; the first argument bounds the nesting of groups. -/
def reCompileAlternation : ℕ → Bool → ReCompiler → Option ReCompiler
  | 0, _, _ => none
  | depth + 1, inGroup, c => do
    let sequence := reCompileSequence (reCompileAlternation depth true) inGroup
    let firstStart := c.length
    let c ← sequence c
    if c.error ≠ .ok then return c
    if !(← reIsAltDelimiter c) then return c
    match reInsert c firstStart with
    | (none, c) => return c
    | (some firstSplit, c) =>
      match reEmit (c.setSplit firstSplit (firstStart + 1) c.length) .reJmp with
      | (none, c) => return c
      | (some jump, c) =>
        match ← reAltLoop sequence (c.cursor.length + 1) c firstSplit [jump] with
        | (none, c) => return c
        | (some (lastSplit, jumps), c) => return rePatchAlternation c lastSplit jumps

/-- `regex_t`; a null `re_program` is `none`. -/
structure RegexT where
  reProgram : Option (List ReInst)
  reNsub : ℕ
  reCflags : UInt32

/-- The compiler after `regcomp` has set it up and emitted the first `RE_SAVE`. -/
def reStart (regex : CString) (cflags : UInt32) (heap : Heap) : Option ℕ × ReCompiler :=
  reEmitSave
    { cursor := regex.memory, cflags := cflags
      extended := hasFlag cflags regExtended, heap := heap } 0

/-- `regcomp` from its call of `re_compile_alternation` to the check that nothing is left. -/
def reCompilePattern (regex : CString) (c : ReCompiler) : Option ReCompiler := do
  let c ← reCompileAlternation (regex.strlen + 1) false c
  if c.error = .ok then
    if (← c.cursor[0]?) ≠ 0 then return { c with error := .regBadpat }
  return c

def regcompFail (c : ReCompiler) (code : RegCode) : RegCode × RegexT × Heap :=
  (code, { reProgram := none, reNsub := 0, reCflags := 0 }, c.heap.free c.block)

/-- `regcomp`: its status, the `regex_t` it fills, and the heap it leaves. -/
def regcomp (regex : CString) (cflags : UInt32) (heap : Heap) :
    Option (RegCode × RegexT × Heap) := do
  match reStart regex cflags heap with
  | (none, c) => return regcompFail c .regEspace
  | (some _, c) =>
    let c ← reCompilePattern regex c
    if c.error ≠ .ok then return regcompFail c c.error
    match reEmitSave c 1 with
    | (none, c) => return regcompFail c .regEspace
    | (some _, c) =>
      match reEmit c .reMatch with
      | (none, c) => return regcompFail c .regEspace
      | (some _, c) =>
        return (.ok, { reProgram := some c.program, reNsub := c.groups, reCflags := cflags },
          c.heap)

end LampUserspace.Regex
