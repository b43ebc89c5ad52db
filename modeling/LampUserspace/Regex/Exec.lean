import LampUserspace.Regex.Compile

/-! # The matcher

`re_run` explores the instructions depth first and cuts every state whose cell
of the generations table already holds the current generation. `regexec` tries
the start positions in order with one such table, which it never clears.
-/

namespace LampUserspace.Regex

/-- `set[ch >> 3] & (1 << (ch & 7))` as a condition. -/
def ByteSet.has (set : ByteSet) (ch : UInt8) : Bool :=
  set.get ⟨(ch >>> 3).toNat, shiftRight_three_lt ch⟩ &&& (1 <<< (ch &&& 7)) != 0

def reClassMatch (inst : ReInst) (ch : UInt8) (cflags : UInt32) : Bool :=
  if inst.set.has ch then true
  else if hasFlag cflags regIcase then
    inst.set.has (tolower ch) || inst.set.has (toupper ch)
  else false

def reIsWord (ch : UInt8) : Bool := isalnum ch || ch == byte '_'

/-- What a call of `re_run` never changes: the text and the two flag words. -/
structure Subject where
  text : CString
  cflags : UInt32
  eflags : UInt32

namespace Subject

def length (s : Subject) : ℕ := s.text.strlen

/-- `(unsigned char)text[pos]`, which is NUL at `pos = length`. -/
def byteAt (s : Subject) (pos : ℕ) : UInt8 := s.text.bytes.getD pos 0

end Subject

/-- The tests of `re_run` for an instruction that consumes one byte. -/
def reConsumes (s : Subject) (inst : ReInst) (pos : ℕ) : Bool :=
  match inst.op with
  | .reChar =>
    if pos ≥ s.length then false
    else if hasFlag s.cflags regIcase then tolower (s.byteAt pos) == tolower inst.ch
    else s.byteAt pos == inst.ch
  | .reAny => !(pos ≥ s.length || (hasFlag s.cflags regNewline && s.byteAt pos == 10))
  | .reClass => !(pos ≥ s.length || !reClassMatch inst (s.byteAt pos) s.cflags)
  | _ => false

/-- The tests of `re_run` for an instruction that consumes nothing. -/
def reAsserts (s : Subject) (inst : ReInst) (pos : ℕ) : Bool :=
  match inst.op with
  | .reBol =>
    if pos = 0 then !hasFlag s.eflags regNotbol
    else hasFlag s.cflags regNewline && s.byteAt (pos - 1) == 10
  | .reEol =>
    if pos = s.length then !hasFlag s.eflags regNoteol
    else hasFlag s.cflags regNewline && s.byteAt pos == 10
  | .reWordb | .reNotWordb =>
    let before := pos > 0 && reIsWord (s.byteAt (pos - 1))
    let after := pos < s.length && reIsWord (s.byteAt pos)
    (inst.op == .reWordb) == (before != after)
  | _ => false

structure RunResult where
  result : Bool
  captures : List Int
  generations : ℕ → UInt32

/--
`re_run`; the number before `pc` bounds its recursion depth. The result is `none` when that
bound is used up, or when a `RE_SAVE` names a slot outside the captures array.
-/
def reRun (program : List ReInst) (programLength : ℕ) (s : Subject) (generation : UInt32) :
    ℕ → Int → ℕ → List Int → (ℕ → UInt32) → Option RunResult
  | 0, _, _, _, _ => none
  | depth + 1, pc, pos, captures, generations =>
    let fail : Option RunResult := some ⟨false, captures, generations⟩
    if pc < 0 ∨ pc ≥ programLength then fail
    else
      let state := pc.toNat * (s.length + 1) + pos
      if generations state = generation then fail
      else
        let generations := Function.update generations state generation
        let fail : Option RunResult := some ⟨false, captures, generations⟩
        let run := reRun program programLength s generation depth
        match program[pc.toNat]? with
        | none => none
        | some inst =>
          match inst.op with
          | .reChar | .reAny | .reClass =>
            if reConsumes s inst pos then run (pc + 1) (pos + 1) captures generations else fail
          | .reSplit =>
            match run inst.x pos captures generations with
            | none => none
            | some r => if r.result then some r else run inst.y pos r.captures r.generations
          | .reJmp => run inst.x pos captures generations
          | .reSave =>
            match (if inst.x < 0 then none else captures[inst.x.toNat]?) with
            | none => none
            | some old =>
              match run (pc + 1) pos (captures.set inst.x.toNat pos) generations with
              | none => none
              | some r =>
                if r.result then some r
                else some { r with captures := r.captures.set inst.x.toNat old }
          | .reBol | .reEol | .reWordb | .reNotWordb =>
            if reAsserts s inst pos then run (pc + 1) pos captures generations else fail
          | .reMatch => some ⟨true, captures, generations⟩

structure RegMatch where
  rmSo : Int
  rmEo : Int
  deriving DecidableEq, Repr

/-- The scan for `RE_MATCH` with which `regexec` recomputes the program length. -/
def programLength : List ReInst → Option ℕ
  | [] => none
  | i :: program =>
    if i.op = .reMatch then some 1 else (programLength program).map (· + 1)

/-- Depth enough for `re_run` on a table of `programLength * (length + 1)` cells. -/
def runDepth (programLength : ℕ) (s : Subject) : ℕ := programLength * (s.length + 1) + 1

/-- The `++generation` of `regexec`, with the clearing of the table when it wraps. -/
def nextGeneration (generation : UInt32) (generations : ℕ → UInt32) :
    UInt32 × (ℕ → UInt32) :=
  if generation + 1 = 0 then (1, fun _ => 0) else (generation + 1, generations)

/-- `captures` as `regexec` resets it before each start position. -/
def freshCaptures (captureCount start : ℕ) : List Int :=
  (List.replicate captureCount (-1)).set 0 start

/-- The loop of `regexec` over the start positions from `start` on, `n` of them left. -/
def reSearch (program : List ReInst) (programLength captureCount : ℕ) (s : Subject) :
    ℕ → ℕ → UInt32 → (ℕ → UInt32) → Option RunResult
  | 0, _, _, generations => some ⟨false, [], generations⟩
  | n + 1, start, generation, generations =>
    let g := nextGeneration generation generations
    match reRun program programLength s g.1 (runDepth programLength s) 0 start
        (freshCaptures captureCount start) g.2 with
    | none => none
    | some r =>
      if r.result then some r
      else reSearch program programLength captureCount s n (start + 1) g.1 r.generations

/--
The block of `state_count * sizeof(*generations)` bytes holds the whole table, that is, the size
does not wrap. In a heap of 256 KiB a size that wraps is asked for only on texts so long that the
cells of the second instruction, which every run stamps, lie behind the end of the heap.
-/
def TableFits (programLength : ℕ) (s : Subject) : Prop :=
  programLength * (s.length + 1) * 4 < 2 ^ 32

instance (programLength : ℕ) (s : Subject) : Decidable (TableFits programLength s) :=
  inferInstanceAs (Decidable (_ < _))

/-- What `regexec` returns, the caller's `pmatch`, and what it leaves in the table it frees. -/
structure ExecResult where
  status : RegCode
  pmatch : List RegMatch
  generations : ℕ → UInt32

/-- The copy of the captures to the caller's array; a null `pmatch` is the empty list. -/
def storeMatches (captures : List Int) (count : ℕ) (pmatch : List RegMatch) : List RegMatch :=
  pmatch.mapIdx fun i m =>
    if i < count then ⟨captures.getD (i * 2) 0, captures.getD (i * 2 + 1) 0⟩ else m

/--
`regexec` on a compiled program. `captures` says whether the first `malloc` succeeds, and
`generations` is the content of the block the second one returns, if it succeeds. The result is
`none` when that block is too small for the table, as `re_run` then leaves it.
-/
def regexec (preg : RegexT) (string : CString) (nmatch : ℕ) (pmatch : List RegMatch)
    (eflags : UInt32) (captures : Bool) (generations : Option (ℕ → UInt32)) :
    Option ExecResult := do
  match preg.reProgram with
  | none => return ⟨.regBadpat, pmatch, generations.getD fun _ => 0⟩
  | some program =>
    let length ← programLength program
    match captures, generations with
    | true, some table =>
      let s : Subject := ⟨string, preg.reCflags, eflags⟩
      guard (TableFits length s)
      let r ← reSearch program length ((preg.reNsub + 1) * 2) s (string.strlen + 1) 0 0 table
      if r.result then
        let count := min nmatch (preg.reNsub + 1)
        return ⟨.ok, if hasFlag preg.reCflags regNosub then pmatch
          else storeMatches r.captures count pmatch, r.generations⟩
      else return ⟨.regNomatch, pmatch, r.generations⟩
    | _, _ => return ⟨.regEspace, pmatch, generations.getD fun _ => 0⟩

end LampUserspace.Regex
