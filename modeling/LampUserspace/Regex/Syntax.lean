import LampUserspace.Regex.Compile

/-! # Patterns as trees

The compiler builds no syntax tree. Here the pattern is first read into one, by
the tests the compiler makes, and the tree is then turned into code by the
operations the compiler performs, with the memory left out of account.
-/

namespace LampUserspace.Regex

/-- The atoms that compile to a single instruction. -/
inductive Leaf
  | char (ch : UInt8)
  | any
  | bracket (set : ByteSet)
  | bol | eol | wordb | notWordb

def Leaf.inst : Leaf → ReInst
  | .char ch => { op := .reChar, ch := ch }
  | .any => { op := .reAny }
  | .bracket set => { op := .reClass, set := set }
  | .bol => { op := .reBol }
  | .eol => { op := .reEol }
  | .wordb => { op := .reWordb }
  | .notWordb => { op := .reNotWordb }

inductive Quantifier
  | one | star | plus | question
  | interval (min : ℕ) (max : Option ℕ)
  deriving DecidableEq, Repr

mutual

inductive Atom
  | leaf (leaf : Leaf)
  | group (capture : Bool) (body : Alternation)

inductive Sequence
  | nil
  | cons (atom : Atom) (quantifier : Quantifier) (rest : Sequence)

inductive Alternation
  | last (branch : Sequence)
  | more (branch : Sequence) (rest : Alternation)

end

/-! ## Reading a pattern

The bounds on nesting and on iterations are those of the compiler. A result of `none` covers
all the ways in which the compiler rejects a pattern.
-/

def parseChar (p : List UInt8) : Option (Atom × List UInt8) := do
  match ← reParseEscape p with
  | .error _ => none
  | .ok (ch, p) => return (.leaf (.char ch), p)

/-- A backslash that opens no group, followed by `kind`. -/
def parseEscape (p : List UInt8) (kind : UInt8) : Option (Atom × List UInt8) :=
  if kind = byte 'w' ∨ kind = byte 'W' ∨ kind = byte 's' ∨
      kind = byte 'S' ∨ kind = byte 'd' ∨ kind = byte 'D' then
    some (.leaf (.bracket (simpleClass kind (byte 'A' ≤ kind && kind ≤ byte 'Z'))), p.drop 2)
  else if kind = byte 'b' ∨ kind = byte 'B' then
    some (.leaf (if kind = byte 'b' then .wordb else .notWordb), p.drop 2)
  else parseChar p

def parseClass (p : List UInt8) : Option (Atom × List UInt8) := do
  match ← reReadClass p with
  | .error _ => none
  | .ok (p, set) => return (.leaf (.bracket set), p)

section Reading

variable (alternation : List UInt8 → Option (Alternation × List UInt8)) (extended : Bool)

/-- The length of a delimiter or of a quantifier other than `*`. -/
def markLength : ℕ := if extended then 1 else 2

def parseGroup (capture : Bool) (p : List UInt8) : Option (Atom × List UInt8) := do
  let (body, p) ← alternation p
  if (← isDelimiter extended (byte ')') p) then
    return (.group capture body, p.drop (markLength extended))
  else none

def parseAtom (p : List UInt8) : Option (Atom × List UInt8) := do
  let b ← p[0]?
  if b = byte '^' then return (.leaf .bol, p.drop 1)
  if b = byte '$' then return (.leaf .eol, p.drop 1)
  if b = byte '.' then return (.leaf .any, p.drop 1)
  if b = byte '[' then parseClass p
  else if b = byte '(' ∧ extended then
    let p := p.drop 1
    let plain ← isPair (byte '?') (byte ':') p
    parseGroup alternation extended (!plain) (if plain then p.drop 2 else p)
  else if b = byte '\\' then
    let kind ← p[1]?
    if kind = byte '(' ∧ !extended then parseGroup alternation extended true (p.drop 2)
    else if kind ≠ 0 then parseEscape p kind
    else parseChar p
  else parseChar p

def parseQuantifier (p : List UInt8) : Option (Quantifier × List UInt8) := do
  match ← reReadQuantifier extended p with
  | none => return (.one, p)
  | some .star => return (.star, p.drop 1)
  | some .plus => return (.plus, p.drop (markLength extended))
  | some .question => return (.question, p.drop (markLength extended))
  | some .interval =>
    match ← reParseInterval (p.drop (markLength extended)) with
    | .error _ => none
    | .ok (min, max, p) =>
      if max.any (· < min) then none else return (.interval min max, p)

def branchEnds (inGroup : Bool) (p : List UInt8) : Option Bool := do
  if (← p[0]?) = 0 then return true
  if (← isDelimiter extended (byte '|') p) then return true
  if !inGroup then return false
  isDelimiter extended (byte ')') p

def parseSequence (inGroup : Bool) : ℕ → List UInt8 → Option (Sequence × List UInt8)
  | 0, _ => none
  | n + 1, p => do
    if (← branchEnds extended inGroup p) then return (.nil, p)
    let (a, p) ← parseAtom alternation extended p
    let (q, p) ← parseQuantifier extended p
    let (rest, p) ← parseSequence inGroup n p
    return (.cons a q rest, p)

/-- The branches after the first one, entered at a delimiter. -/
def parseBranches (sequence : List UInt8 → Option (Sequence × List UInt8)) :
    ℕ → List UInt8 → Option (Alternation × List UInt8)
  | 0, _ => none
  | n + 1, p => do
    let (branch, p) ← sequence (p.drop (markLength extended))
    if (← isDelimiter extended (byte '|') p) then
      let (rest, p) ← parseBranches sequence n p
      return (.more branch rest, p)
    else return (.last branch, p)

end Reading

def parseAlternation : ℕ → Bool → Bool → List UInt8 → Option (Alternation × List UInt8)
  | 0, _, _, _ => none
  | depth + 1, extended, inGroup, p => do
    let sequence (p : List UInt8) :=
      parseSequence (parseAlternation depth extended true) extended inGroup (p.length + 1) p
    let (branch, p) ← sequence p
    if (← isDelimiter extended (byte '|') p) then
      let (rest, p) ← parseBranches extended sequence (p.length + 1) p
      return (.more branch rest, p)
    else return (.last branch, p)

def parsePattern (extended : Bool) (regex : CString) : Option Alternation := do
  let (tree, p) ← parseAlternation (regex.strlen + 1) extended false regex.memory
  if (← p[0]?) ≠ 0 then none else return tree

/-! ## Code generation -/

def ReInst.toSplit (x y : Int) (i : ReInst) : ReInst := { i with op := .reSplit, x := x, y := y }

@[simp] theorem length_insertAt (program : List ReInst) (index : ℕ) :
    (insertAt program index).length = program.length + 1 := by
  simp [insertAt]; omega

def wrapOptional (program : List ReInst) (start : ℕ) : List ReInst :=
  (insertAt program start).modify start (.toSplit (start + 1) (program.length + 1))

def wrapStar (program : List ReInst) (start : ℕ) : List ReInst :=
  wrapOptional program start ++ [{ op := .reJmp, x := start }]

def copies : ℕ → List ReInst → ℕ → ℕ → List ReInst
  | 0, program, _, _ => program
  | n + 1, program, start, stop => copies n (copyBlock program start stop) start stop

/-- A `RE_SPLIT` that can skip the copy of `[start, stop)` it precedes. -/
def optionalCopy (program : List ReInst) (start stop : ℕ) : List ReInst :=
  let copied := copyBlock (program ++ [{ op := .reSplit }]) start stop
  copied.modify program.length (.toSplit (program.length + 1) copied.length)

def optionalCopies : ℕ → List ReInst → ℕ → ℕ → List ReInst
  | 0, program, _, _ => program
  | n + 1, program, start, stop => optionalCopies n (optionalCopy program start stop) start stop

def openTail (program : List ReInst) (start stop : ℕ) : List ReInst :=
  optionalCopy program start stop ++ [{ op := .reJmp, x := program.length }]

/-- The code of a quantifier applied to the atom from `start` to the end of the program. -/
def quantify (program : List ReInst) (start : ℕ) : Quantifier → List ReInst
  | .one => program
  | .star => wrapStar program start
  | .plus => program ++ [{ op := .reSplit, x := start, y := program.length + 1 }]
  | .question => wrapOptional program start
  | .interval 0 none => wrapStar program start
  | .interval 0 (some max) =>
    optionalCopies (max - 1) (wrapOptional program start) start program.length
  | .interval (min + 1) none =>
    openTail (copies min program start program.length) start program.length
  | .interval (min + 1) (some max) =>
    optionalCopies (max - (min + 1)) (copies min program start program.length) start
      program.length

/-- A program under construction and the number of groups opened so far. -/
structure Code where
  program : List ReInst
  groups : ℕ

def Code.openGroup (c : Code) (capture : Bool) : Code :=
  if capture then
    ⟨c.program ++ [{ op := .reSave, x := (c.groups + 1 : ℕ) * 2 }], c.groups + 1⟩
  else c

def Code.closeGroup (c : Code) (capture : Bool) : Code :=
  if capture then ⟨c.program ++ [{ op := .reSave, x := c.groups * 2 + 1 }], c.groups⟩ else c

def setX (x : Int) (i : ReInst) : ReInst := { i with x := x }

def setY (y : Int) (i : ReInst) : ReInst := { i with y := y }

def patchAlternation (program : List ReInst) (lastSplit : ℕ) (jumps : List ℕ) : List ReInst :=
  jumps.foldl (fun p jump => p.modify jump (setX program.length))
    (program.modify lastSplit (setY program.length))

def openBranch (program : List ReInst) (lastSplit : ℕ) : List ReInst :=
  (program ++ [({ op := .reSplit } : ReInst)]).modify lastSplit (setY program.length)

def closeBranch (program : List ReInst) (split : ℕ) : List ReInst :=
  program.modify split (fun i => setY program.length (setX (split + 1) i)) ++
    [({ op := .reJmp } : ReInst)]

mutual

def genAtom : Atom → Code → Code
  | .leaf leaf, c => { c with program := c.program ++ [leaf.inst] }
  | .group capture body, c => (genAlternation body (c.openGroup capture)).closeGroup capture

def genSequence : Sequence → Code → Code
  | .nil, c => c
  | .cons atom q rest, c =>
    let a := genAtom atom c
    genSequence rest { a with program := quantify a.program c.program.length q }

def genAlternation : Alternation → Code → Code
  | .last branch, c => genSequence branch c
  | .more branch rest, c =>
    let first := genSequence branch c
    let program := wrapOptional first.program c.program.length ++ [{ op := .reJmp }]
    genBranches rest ⟨program, first.groups⟩ c.program.length [program.length - 1]

/-- The branches after the first, with the last split and the jumps to patch. -/
def genBranches : Alternation → Code → ℕ → List ℕ → Code
  | .last branch, c, lastSplit, jumps =>
    let b := genSequence branch ⟨openBranch c.program lastSplit, c.groups⟩
    let closed := closeBranch b.program c.program.length
    { b with program := patchAlternation closed c.program.length (jumps ++ [b.program.length]) }
  | .more branch rest, c, lastSplit, jumps =>
    let b := genSequence branch ⟨openBranch c.program lastSplit, c.groups⟩
    genBranches rest ⟨closeBranch b.program c.program.length, b.groups⟩ c.program.length
      (jumps ++ [b.program.length])

end

end LampUserspace.Regex
