import LampUserspace.Regex.Steady

/-! # Two spellings of one tree

Patterns of the kind both syntaxes can write, as trees, with the text of a tree
in either syntax. A tree can also direct the compiler by itself, without a text
to read. What stops the compiler on the way is an event of the tree: a fault,
or an interval.
-/

namespace LampUserspace.Regex

/-! ## Trees -/

structure Numeral where
  digits : List UInt8
  isdigit_of_mem : ∀ b ∈ digits, isdigit b = true
  ne_nil : digits ≠ []

/-- One step of the digit loops of `re_parse_interval`. -/
def readDigit (value : ℕ) (b : UInt8) : ℕ := value * 10 + (b.toNat - (byte '0').toNat)

def Numeral.value (m : Numeral) : ℕ := m.digits.foldl readDigit 0

/-- What stands between the braces of an interval: `m`, `m,` or `m,n`. -/
inductive Bounds
  | exactly (m : Numeral)
  | atLeast (m : Numeral)
  | between (m n : Numeral)

namespace Bounds

def text : Bounds → List UInt8
  | exactly m => m.digits
  | atLeast m => m.digits ++ [byte ',']
  | between m n => m.digits ++ byte ',' :: n.digits

def min : Bounds → ℕ
  | exactly m | atLeast m | between m _ => m.value

def max : Bounds → Option ℕ
  | exactly m => some m.value
  | atLeast _ => none
  | between _ n => some n.value

/-- No bound is over 10000, and the upper one is not below the lower one. -/
def valid (b : Bounds) : Bool := b.min ≤ 10000 && b.max.all fun n => b.min ≤ n && n ≤ 10000

end Bounds

/--
A bracket expression without its opening bracket. It is closed: what it is read as, a set or
an error, does not depend on what follows it, and the set leaves all that follows unread.
-/
structure Bracket where
  body : List UInt8
  nul_free : 0 ∉ body
  value : Except RegCode ByteSet
  closed : ∀ rest, reReadClass (byte '[' :: (body ++ rest)) =
    some (value.map fun set => (rest, set))

inductive Suffix
  | one | star | plus | question
  | interval (bounds : Bounds)

mutual

/-- An atom that both syntaxes can write. -/
inductive Term
  | char (ch : UInt8) (h : isalnum ch = true)
  | any
  | bracket (b : Bracket)
  | group (body : Tree)

/-- A concatenation of terms, each with at most one quantifier. -/
inductive Branch
  | nil
  | cons (term : Term) (suffix : Suffix) (rest : Branch)

inductive Tree
  | last (branch : Branch)
  | more (branch : Branch) (rest : Tree)

end

/-! ## Text -/

section Text

variable (extended : Bool)

/-- A byte that is an operator alone in the extended syntax, after a backslash in the basic one. -/
def mark (b : UInt8) : List UInt8 := if extended then [b] else [byte '\\', b]

def Suffix.spell : Suffix → List UInt8
  | .one => []
  | .star => [byte '*']
  | .plus => mark extended (byte '+')
  | .question => mark extended (byte '?')
  | .interval b => mark extended (byte '{') ++ (b.text ++ mark extended (byte '}'))

mutual

def Term.spell : Term → List UInt8
  | .char ch _ => [ch]
  | .any => [byte '.']
  | .bracket b => byte '[' :: b.body
  | .group body => mark extended (byte '(') ++ (body.spell ++ mark extended (byte ')'))

def Branch.spell : Branch → List UInt8
  | .nil => []
  | .cons term suffix rest => term.spell ++ (suffix.spell extended ++ rest.spell)

def Tree.spell : Tree → List UInt8
  | .last branch => branch.spell
  | .more branch rest => branch.spell ++ (mark extended (byte '|') ++ rest.spell)

end

end Text

/-! ## The compiler directed by a tree -/

/-- `re_compile_atom` at a literal. -/
def emitChar (ch : UInt8) (c : ReCompiler) : Option ℕ × ReCompiler :=
  match reEmit c .reChar with
  | (none, c) => (none, c)
  | (some index, c) => (some 1, c.modifyInst index ({ · with ch := ch }))

/-- `re_compile_atom` at a bracket expression that was read as `value`. -/
def emitClass (value : Except RegCode ByteSet) (c : ReCompiler) : Option ℕ × ReCompiler :=
  match value with
  | .error e => (none, { c with error := e })
  | .ok set =>
    match reEmit c .reClass with
    | (none, c) => (none, c)
    | (some index, c) => (some index, c.modifyInst index ({ · with set := set }))

/-- `re_compile_atom` at a capturing group, with `body` for the alternation in it. -/
def emitGroup (body : ReCompiler → ReCompiler) (c : ReCompiler) : Option ℕ × ReCompiler :=
  match reOpenGroup c true with
  | (none, c) => (none, c)
  | (some _, c) =>
    if (body c).error ≠ .ok then (none, body c)
    else
      match reCloseGroup (body c) true with
      | (none, c) => (none, c)
      | (some _, c) => (some 1, c)

/-- `re_compile_quantifier`. The basic syntax rejects every interval. -/
def Suffix.emit (extended : Bool) (start : ℕ) (c : ReCompiler) : Suffix → Option ℕ × ReCompiler
  | .one => (some 0, c)
  | .star => reWrapStar c start
  | .plus => reWrapPlus c start
  | .question => wrapResult (reWrapOptional c start)
  | .interval b =>
    if extended && b.valid then reCompileInterval c start b.min b.max
    else (none, { c with error := .regBadbr })

/-- A pass of the loop of `re_compile_sequence`. -/
def emitPiece (term suffix : ReCompiler → Option ℕ × ReCompiler) (c : ReCompiler) :
    Option Unit × ReCompiler :=
  match term c with
  | (none, c) => (none, c)
  | (some _, c) =>
    match suffix c with
    | (none, c) => (none, c)
    | (some _, c) => (some (), c)

/-- A pass of the loop of `re_compile_alternation`. -/
def emitBranch (branch : ReCompiler → ReCompiler) (c : ReCompiler) (lastSplit : ℕ)
    (jumps : List ℕ) : Option (ℕ × List ℕ) × ReCompiler :=
  match reOpenBranch c lastSplit with
  | (none, c) => (none, c)
  | (some split, c) =>
    if (branch c).error ≠ .ok then (none, branch c)
    else
      match reCloseBranch (branch c) split c.length with
      | (none, c) => (none, c)
      | (some jump, c) =>
        if jumps.length ≥ 128 then (none, { c with error := .regBadpat })
        else (some (split, jumps ++ [jump]), c)

/-- `re_compile_alternation` with more than one branch. -/
def emitAlternation (first : ReCompiler → ReCompiler)
    (branches : ReCompiler → ℕ → List ℕ → Option (ℕ × List ℕ) × ReCompiler) (c : ReCompiler) :
    ReCompiler :=
  let firstStart := c.length
  if (first c).error ≠ .ok then first c
  else
    match reInsert (first c) firstStart with
    | (none, c) => c
    | (some firstSplit, c) =>
      match reEmit (c.setSplit firstSplit (firstStart + 1) c.length) .reJmp with
      | (none, c) => c
      | (some jump, c) =>
        match branches c firstSplit [jump] with
        | (none, c) => c
        | (some (lastSplit, jumps), c) => rePatchAlternation c lastSplit jumps

section Emission

variable (extended : Bool)

mutual

def Term.emit : Term → ReCompiler → Option ℕ × ReCompiler
  | .char ch _, c => emitChar ch c
  | .any, c => reEmit c .reAny
  | .bracket b, c => emitClass b.value c
  | .group body, c => emitGroup body.emit c

def Branch.emit : Branch → ReCompiler → ReCompiler
  | .nil, c => c
  | .cons term suffix rest, c =>
    match emitPiece term.emit (suffix.emit extended c.length ·) c with
    | (none, c) => c
    | (some _, c) => rest.emit c

def Tree.emit : Tree → ReCompiler → ReCompiler
  | .last branch, c => branch.emit c
  | .more branch rest, c => emitAlternation branch.emit rest.emitBranches c

def Tree.emitBranches : Tree → ReCompiler → ℕ → List ℕ → Option (ℕ × List ℕ) × ReCompiler
  | .last branch, c, lastSplit, jumps => emitBranch branch.emit c lastSplit jumps
  | .more branch rest, c, lastSplit, jumps =>
    match emitBranch branch.emit c lastSplit jumps with
    | (none, c) => (none, c)
    | (some (split, jumps), c) => rest.emitBranches c split jumps

end

end Emission

/-! ## Events -/

/-- What may stop the compiler on its way through a tree. -/
inductive Event
  | interval (bounds : Bounds)
  | fault (code : RegCode)

/-- The error that an event is in a syntax, if it is one. -/
def Event.error (extended : Bool) : Event → Option RegCode
  | .interval b => if extended && b.valid then none else some .regBadbr
  | .fault e => some e

/-- A fault is an error, and one that no interval is. -/
def Event.Proper : Event → Prop
  | .interval _ => True
  | .fault e => e ≠ .ok ∧ e ≠ .regBadbr

theorem Event.Proper.error_ne {extended : Bool} {ev : Event} (h : ev.Proper) :
    ev.error extended ≠ some .ok := by
  cases ev with
  | interval b =>
    rw [Event.error]
    split_ifs <;> simp
  | fault e => exact fun he => h.1 (Option.some.inj he)

def Bracket.events (b : Bracket) : List Event :=
  match b.value with
  | .error e => [.fault e]
  | .ok _ => []

def Suffix.events : Suffix → List Event
  | .interval b => [.interval b]
  | _ => []

/-- The jumps that an alternation can patch are used up after `n` branches. -/
def tooMany (n : ℕ) : List Event := if n ≥ 128 then [.fault .regBadpat] else []

mutual

def Term.events : Term → List Event
  | .char _ _ | .any => []
  | .bracket b => b.events
  | .group body => body.events

def Branch.events : Branch → List Event
  | .nil => []
  | .cons term suffix rest => term.events ++ (suffix.events ++ rest.events)

def Tree.events : Tree → List Event
  | .last branch => branch.events
  | .more branch rest => branch.events ++ rest.branchEvents 1

def Tree.branchEvents : Tree → ℕ → List Event
  | .last branch, n => branch.events ++ tooMany n
  | .more branch rest, n => branch.events ++ (tooMany n ++ rest.branchEvents (n + 1))

end

def firstError (extended : Bool) (es : List Event) : Option RegCode :=
  es.findSome? (Event.error extended)

/-- `d` comes from `c`, a state without an error, by compiling a part with the events `es`. -/
structure Meets (extended : Bool) (es : List Event) (c d : ReCompiler) : Prop where
  proper : ∀ ev ∈ es, ev.Proper
  grants : d.heap.grants = c.heap.grants
  grown : d.error = .ok → c.length ≤ d.length
  error : d.error = (firstError extended es).getD .ok ∨
    d.error = .regEspace ∧ ∃ n, c.heap.grants n = false

/-- The same for a function that says whether it failed. -/
def Answers {α : Type} (extended : Bool) (es : List Event) (c : ReCompiler)
    (r : Option α × ReCompiler) : Prop :=
  Meets extended es c r.2 ∧ (r.1 = none ↔ r.2.error ≠ .ok)

section Meets

variable {α β : Type} {x : Bool} {es es' : List Event} {c d e : ReCompiler}
  {op : ReCompiler → Option α × ReCompiler}

theorem Meets.refl (x : Bool) (h : c.error = .ok) : Meets x [] c c :=
  ⟨by simp, rfl, fun _ => le_rfl, .inl h⟩

/-- A part that was compiled without an error has no event that is one. -/
theorem Meets.firstError_eq_none (h : Meets x es c d) (hd : d.error = .ok) :
    firstError x es = none := by
  rcases h.error with he | ⟨he, -⟩
  · rw [hd] at he
    by_contra hne
    obtain ⟨code, hcode⟩ := Option.ne_none_iff_exists'.mp hne
    obtain ⟨ev, hev, heq⟩ := List.exists_of_findSome?_eq_some hcode
    rw [hcode, Option.getD_some] at he
    exact (h.proper ev hev).error_ne (heq.trans (congrArg some he.symm))
  · rw [hd] at he
    cases he

theorem Meets.next (h : Meets x es c d) (hd : d.error = .ok) (h' : Meets x es' d e) :
    Meets x (es ++ es') c e := by
  refine ⟨fun ev hev => (List.mem_append.mp hev).elim (h.proper ev) (h'.proper ev),
    h'.grants.trans h.grants, fun he => (h.grown hd).trans (h'.grown he), ?_⟩
  rw [firstError, List.findSome?_append, ← firstError, ← firstError, h.firstError_eq_none hd,
    Option.none_or, ← h.grants]
  exact h'.error

theorem Meets.stop (h : Meets x es c d) (hd : d.error ≠ .ok) (hproper : ∀ ev ∈ es', ev.Proper) :
    Meets x (es ++ es') c d := by
  refine ⟨fun ev hev => (List.mem_append.mp hev).elim (h.proper ev) (hproper ev), h.grants,
    h.grown, h.error.imp_left fun he => ?_⟩
  rw [firstError, List.findSome?_append, ← firstError]
  cases hfirst : firstError x es with
  | none =>
    rw [hfirst] at he
    exact absurd he hd
  | some code =>
    rw [hfirst] at he
    exact he

theorem Answers.cases {r : Option α × ReCompiler} (h : Answers x es c r) :
    (∃ d, r = (none, d) ∧ d.error ≠ .ok ∧ Meets x es c d) ∨
      ∃ a d, r = (some a, d) ∧ d.error = .ok ∧ Meets x es c d := by
  obtain ⟨hm, hiff⟩ := h
  obtain ⟨_ | a, d⟩ := r
  · exact .inl ⟨d, rfl, hiff.mp rfl, hm⟩
  · exact .inr ⟨a, d, rfl, not_not.mp (mt hiff.mpr (Option.some_ne_none a)), hm⟩

theorem Answers.failed {d : ReCompiler} (h : Meets x es c d) (hd : d.error ≠ .ok) :
    Answers x es c ((none : Option α), d) :=
  ⟨h, by simp [hd]⟩

theorem Answers.done {a : α} (h : Meets x es c d) (hd : d.error = .ok) :
    Answers x es c (some a, d) :=
  ⟨h, by simp [hd]⟩

theorem Steady.answers (h : Steady op) (hc : c.error = .ok) : Answers x [] c (op c) := by
  rcases heq : op c with ⟨_ | a, d⟩
  · obtain ⟨he, hn⟩ := h.refused c d heq
    refine ⟨⟨by simp, by simpa [heq] using h.grants c, ?_, .inr ⟨he, hn⟩⟩, ?_⟩
    · intro hok
      rw [he] at hok
      cases hok
    · simp [he]
  · obtain ⟨he, hl⟩ := h.done c d a heq
    refine ⟨⟨by simp, by simpa [heq] using h.grants c, fun _ => hl, .inl (he.trans hc)⟩, ?_⟩
    simp [he, hc]

theorem Meets.answers (h : Meets x es c d) (hd : d.error = .ok) (hop : Steady op) :
    Answers x es c (op d) := by
  obtain ⟨hm, hiff⟩ := hop.answers (x := x) hd
  have hes := h.next hd hm
  rw [List.append_nil] at hes
  exact ⟨hes, hiff⟩

/-! ## The events of the parts -/

theorem emitChar_steady (ch : UInt8) : Steady (emitChar ch) :=
  (Steady.emit .reChar).bind (fun index => .modify 1 index ({ · with ch := ch }))
    (fun c d h => by simp only [emitChar, h]) fun c a d h => by simp only [emitChar, h]

theorem emitClass_answers (b : Bracket) (hc : c.error = .ok)
    (hproper : ∀ ev ∈ b.events, ev.Proper) :
    Answers x b.events c (emitClass b.value c) := by
  unfold Bracket.events at hproper ⊢
  cases hv : b.value with
  | error e =>
    simp only [hv] at hproper ⊢
    obtain ⟨hok, -⟩ : e ≠ .ok ∧ e ≠ .regBadbr := hproper (.fault e) (by simp)
    exact .failed ⟨hproper, rfl, fun he => absurd he hok, .inl rfl⟩ hok
  | ok set =>
    have hop : Steady (emitClass (.ok set)) :=
      (Steady.emit .reClass).bind (fun index => .modify index index ({ · with set := set }))
        (fun c d h => by simp only [emitClass, h]) fun c a d h => by simp only [emitClass, h]
    exact hop.answers hc

theorem emitPiece_answers {term suffix : ReCompiler → Option ℕ × ReCompiler}
    (hterm : Answers x es c (term c)) (hsuffix : ∀ d, d.error = .ok → Answers x es' d (suffix d))
    (hproper : ∀ ev ∈ es', ev.Proper) : Answers x (es ++ es') c (emitPiece term suffix c) := by
  rcases hterm.cases with ⟨d, hd, hne, hm⟩ | ⟨_, d, hd, hok, hm⟩
  · simp only [emitPiece, hd]
    exact .failed (hm.stop hne hproper) hne
  rcases (hsuffix d hok).cases with ⟨e, he, hne, hm'⟩ | ⟨_, e, he, hok', hm'⟩
  · simp only [emitPiece, hd, he]
    exact .failed (hm.next hok hm') hne
  · simp only [emitPiece, hd, he]
    exact .done (hm.next hok hm') hok'

theorem emitGroup_answers {body : ReCompiler → ReCompiler} (hc : c.error = .ok)
    (hbody : ∀ d, d.error = .ok → Meets x es d (body d)) (hproper : ∀ ev ∈ es, ev.Proper) :
    Answers x es c (emitGroup body c) := by
  rcases (Steady.openGroup.answers (x := x) hc).cases with ⟨d, hd, hne, hm⟩ | ⟨_, d, hd, hok, hm⟩
  · simp only [emitGroup, hd]
    exact .failed (hm.stop hne hproper) hne
  have hes : Meets x es c (body d) := hm.next hok (hbody d hok)
  by_cases hb : (body d).error = .ok
  · rcases (hes.answers hb Steady.closeGroup).cases with ⟨e, he, hne, hm'⟩ | ⟨_, e, he, hok', hm'⟩
    · simp only [emitGroup, hd, hb, he, ne_eq, not_true, if_false]
      exact .failed hm' hne
    · simp only [emitGroup, hd, hb, he, ne_eq, not_true, if_false]
      exact .done hm' hok'
  · simp only [emitGroup, hd, ne_eq, hb, not_false_eq_true, if_true]
    exact .failed hes hb

theorem proper_tooMany (n : ℕ) : ∀ ev ∈ tooMany n, ev.Proper := by
  unfold tooMany
  split_ifs
  · simp [Event.Proper]
  · simp

theorem emitBranch_answers {branch : ReCompiler → ReCompiler} (hc : c.error = .ok)
    (hbranch : ∀ d, d.error = .ok → Meets x es d (branch d)) (hproper : ∀ ev ∈ es, ev.Proper)
    (lastSplit : ℕ) (jumps : List ℕ) :
    Answers x (es ++ tooMany jumps.length) c (emitBranch branch c lastSplit jumps) := by
  have hall : ∀ ev ∈ es ++ tooMany jumps.length, ev.Proper := fun ev hev =>
    (List.mem_append.mp hev).elim (hproper ev) (proper_tooMany _ ev)
  rcases ((Steady.openBranch lastSplit).answers (x := x) hc).cases with
    ⟨d, hd, hne, hm⟩ | ⟨split, d, hd, hok, hm⟩
  · simp only [emitBranch, hd]
    exact .failed (hm.stop hne hall) hne
  have hes : Meets x es c (branch d) := hm.next hok (hbranch d hok)
  by_cases hb : (branch d).error = .ok
  swap
  · simp only [emitBranch, hd, ne_eq, hb, not_false_eq_true, if_true]
    exact .failed (hes.stop hb (proper_tooMany _)) hb
  rcases (hes.answers hb (Steady.closeBranch split d.length)).cases with
    ⟨e, he, hne, hm'⟩ | ⟨jump, e, he, hok', hm'⟩
  · simp only [emitBranch, hd, hb, he, ne_eq, not_true, if_false]
    exact .failed (hm'.stop hne (proper_tooMany _)) hne
  simp only [emitBranch, hd, hb, he, ne_eq, not_true, if_false]
  by_cases hlen : jumps.length ≥ 128
  · have htoo : tooMany jumps.length = [.fault .regBadpat] := if_pos hlen
    rw [if_pos hlen, htoo]
    refine .failed (hm'.next hok' ⟨by simp [Event.Proper], rfl, nofun, .inl rfl⟩) nofun
  · have htoo : tooMany jumps.length = [] := if_neg hlen
    rw [if_neg hlen, htoo, List.append_nil]
    exact .done hm' hok'

/-- A branch that does not fail adds one jump to those that are to be patched. -/
theorem emitBranch_jumps {branch : ReCompiler → ReCompiler} {lastSplit split : ℕ}
    {jumps jumps' : List ℕ} (h : emitBranch branch c lastSplit jumps = (some (split, jumps'), d)) :
    jumps'.length = jumps.length + 1 := by
  unfold emitBranch at h
  split at h
  · cases h
  split at h
  · cases h
  split at h
  · cases h
  split at h
  · cases h
  · cases h
    simp

theorem length_patchAlternation (program : List ReInst) (lastSplit : ℕ) (jumps : List ℕ) :
    (patchAlternation program lastSplit jumps).length = program.length := by
  have hfold : ∀ (n : Int) (l : List ReInst),
      (jumps.foldl (fun p jump => p.modify jump (setX n)) l).length = l.length := by
    intro n
    induction jumps with
    | nil => exact fun _ => rfl
    | cons jump jumps ih => exact fun l => (ih _).trans (List.length_modify _ _ _)
  rw [patchAlternation, hfold, List.length_modify]

theorem Meets.patched (h : Meets x es c d) (lastSplit : ℕ) (jumps : List ℕ) :
    Meets x es c (rePatchAlternation d lastSplit jumps) := by
  rw [rePatchAlternation_eq]
  refine ⟨h.proper, h.grants, fun he => (h.grown he).trans_eq ?_, h.error⟩
  exact (length_patchAlternation _ _ _).symm

theorem emitAlternation_meets {first : ReCompiler → ReCompiler}
    {branches : ReCompiler → ℕ → List ℕ → Option (ℕ × List ℕ) × ReCompiler}
    (hfirst : Meets x es c (first c))
    (hbranches : ∀ d lastSplit jump, d.error = .ok →
      Answers x es' d (branches d lastSplit [jump]))
    (hproper : ∀ ev ∈ es', ev.Proper) :
    Meets x (es ++ es') c (emitAlternation first branches c) := by
  by_cases hf : (first c).error = .ok
  swap
  · simp only [emitAlternation, ne_eq, hf, not_false_eq_true, if_true]
    exact hfirst.stop hf hproper
  rcases (hfirst.answers hf (Steady.insert c.length)).cases with
    ⟨d, hd, hne, hm⟩ | ⟨split, d, hd, hok, hm⟩
  · simp only [emitAlternation, hf, hd, ne_eq, not_true, if_false]
    exact hm.stop hne hproper
  rcases (hm.answers hok ((Steady.emit .reJmp).modifyFirst split fun n =>
    ({ · with op := .reSplit, x := c.length + 1, y := n }))).cases with
    ⟨e, he, hne, hm'⟩ | ⟨jump, e, he, hok', hm'⟩
  · simp only [emitAlternation, hf, hd, ReCompiler.setSplit, he, ne_eq, not_true, if_false]
    exact hm'.stop hne hproper
  rcases (hbranches e split jump hok').cases with
    ⟨b, hb, hne, hm''⟩ | ⟨⟨lastSplit, jumps⟩, b, hb, -, hm''⟩
  · simp only [emitAlternation, hf, hd, ReCompiler.setSplit, he, hb, ne_eq, not_true, if_false]
    exact hm'.next hok' hm''
  · simp only [emitAlternation, hf, hd, ReCompiler.setSplit, he, hb, ne_eq, not_true, if_false]
    exact (hm'.next hok' hm'').patched lastSplit jumps

theorem Suffix.answers (s : Suffix) (hc : c.error = .ok) (start : ℕ) :
    Answers x s.events c (s.emit x start c) := by
  cases s with
  | one => exact .done (.refl x hc) hc
  | star => exact (Steady.wrapStar start).answers hc
  | plus => exact (Steady.wrapPlus start).answers hc
  | question => exact (Steady.wrapOptional start).wrapResult.answers hc
  | interval b =>
    by_cases hb : (x && b.valid) = true
    · have hev : firstError x [.interval b] = none := by simp [firstError, Event.error, hb]
      obtain ⟨hm, hiff⟩ := (Steady.interval start b.min b.max).answers (x := x) hc
      rw [Suffix.emit, if_pos hb]
      exact ⟨⟨by simp [events, Event.Proper], hm.grants, hm.grown, hev ▸ hm.error⟩, hiff⟩
    · have hev : firstError x [.interval b] = some .regBadbr := by
        simp [firstError, Event.error, hb]
      rw [Suffix.emit, if_neg hb]
      exact .failed ⟨by simp [events, Event.Proper], rfl, by simp, .inl (by rw [events, hev]; rfl)⟩
        (by simp)

end Meets

/-! ## The events of a tree -/

section Faults

variable {p : List UInt8} {set : ByteSet} {e : RegCode}

theorem reParseEscape_error (h : reParseEscape p = some (.error e)) : e = .regEescape := by
  unfold reParseEscape at h
  obtain ⟨b, -, h⟩ := Option.bind_eq_some_iff.mp h
  split at h
  · cases h
  obtain ⟨b', -, h⟩ := Option.bind_eq_some_iff.mp h
  split at h
  · cases h
    rfl
  · cases h

theorem reClassRange_error (h : reClassRange p set = some (.error e)) :
    e = .regEescape ∨ e = .regErange := by
  unfold reClassRange at h
  obtain ⟨r, hr, h⟩ := Option.bind_eq_some_iff.mp h
  match r with
  | .error e' =>
    cases h
    exact .inl (reParseEscape_error hr)
  | .ok (first, q) =>
    obtain ⟨dash, -, h⟩ := Option.bind_eq_some_iff.mp h
    cases dash with
    | false => cases h
    | true =>
      obtain ⟨r', hr', h⟩ := Option.bind_eq_some_iff.mp h
      match r' with
      | .error e' =>
        cases h
        exact .inl (reParseEscape_error hr')
      | .ok (last, q') =>
        by_cases hlt : last < first
        · simp only [if_pos hlt] at h
          cases h
          exact .inr rfl
        · simp only [if_neg hlt] at h
          cases h

theorem reClassItem_error (h : reClassItem p set = some (.error e)) :
    e = .regEescape ∨ e = .regErange ∨ e = .regEctype := by
  unfold reClassItem at h
  obtain ⟨named, -, h⟩ := Option.bind_eq_some_iff.mp h
  match named with
  | some _ => cases h
  | none =>
    obtain ⟨unknown, -, h⟩ := Option.bind_eq_some_iff.mp h
    cases unknown with
    | true =>
      cases h
      exact .inr (.inr rfl)
    | false => exact (reClassRange_error h).imp_right .inl

theorem reClassLoop_error {n : ℕ} (h : reClassLoop n p set = some (.error e)) :
    e = .regEescape ∨ e = .regErange ∨ e = .regEctype := by
  induction n generalizing p set with
  | zero => cases h
  | succ n ih =>
    rw [reClassLoop] at h
    obtain ⟨b, -, h⟩ := Option.bind_eq_some_iff.mp h
    split at h
    · cases h
    obtain ⟨r, hr, h⟩ := Option.bind_eq_some_iff.mp h
    match r with
    | .error e' =>
      cases h
      exact reClassItem_error hr
    | .ok (q, set') => exact ih h

theorem reReadClass_error (h : reReadClass p = some (.error e)) : e ≠ .ok ∧ e ≠ .regBadbr := by
  unfold reReadClass at h
  obtain ⟨b, -, h⟩ := Option.bind_eq_some_iff.mp h
  obtain ⟨b', -, h⟩ := Option.bind_eq_some_iff.mp h
  obtain ⟨r, hr, h⟩ := Option.bind_eq_some_iff.mp h
  match r with
  | .error e' =>
    cases h
    rcases reClassLoop_error hr with rfl | rfl | rfl <;> simp
  | .ok (q, set) =>
    obtain ⟨b'', -, h⟩ := Option.bind_eq_some_iff.mp h
    split at h
    · cases h
      simp
    · cases h

end Faults

theorem Bracket.proper (b : Bracket) : ∀ ev ∈ b.events, ev.Proper := by
  unfold Bracket.events
  split
  · rename_i e he
    have h := b.closed []
    rw [he] at h
    simp only [List.mem_singleton, forall_eq]
    exact reReadClass_error h
  · simp

theorem Suffix.proper (s : Suffix) : ∀ ev ∈ s.events, ev.Proper := by
  cases s with
  | interval b => simp [events, Event.Proper]
  | _ => simp [events]

mutual

theorem Term.proper : (t : Term) → ∀ ev ∈ t.events, ev.Proper
  | .char _ _ | .any => by simp [Term.events]
  | .bracket b => by
    rw [Term.events]
    exact b.proper
  | .group body => by
    rw [Term.events]
    exact body.proper

theorem Branch.proper : (b : Branch) → ∀ ev ∈ b.events, ev.Proper
  | .nil => by simp [Branch.events]
  | .cons term suffix rest => by
    rw [Branch.events, List.forall_mem_append, List.forall_mem_append]
    exact ⟨term.proper, suffix.proper, rest.proper⟩

theorem Tree.proper : (t : Tree) → ∀ ev ∈ t.events, ev.Proper
  | .last branch => by
    rw [Tree.events]
    exact branch.proper
  | .more branch rest => by
    rw [Tree.events, List.forall_mem_append]
    exact ⟨branch.proper, rest.branchProper 1⟩

theorem Tree.branchProper : (t : Tree) → ∀ n, ∀ ev ∈ t.branchEvents n, ev.Proper
  | .last branch, n => by
    rw [Tree.branchEvents, List.forall_mem_append]
    exact ⟨branch.proper, proper_tooMany n⟩
  | .more branch rest, n => by
    rw [Tree.branchEvents, List.forall_mem_append, List.forall_mem_append]
    exact ⟨branch.proper, proper_tooMany n, rest.branchProper (n + 1)⟩

end

mutual

theorem Term.answers : (t : Term) → ∀ {x : Bool} {c : ReCompiler}, c.error = .ok →
    Answers x t.events c (t.emit x c)
  | .char ch _, _, _, hc => by
    rw [Term.events, Term.emit]
    exact (emitChar_steady ch).answers hc
  | .any, _, _, hc => by
    rw [Term.events, Term.emit]
    exact (Steady.emit .reAny).answers hc
  | .bracket b, x, c, hc => by
    rw [Term.events, Term.emit]
    exact emitClass_answers b hc b.proper
  | .group body, x, c, hc => by
    rw [Term.events, Term.emit]
    exact emitGroup_answers hc (fun d hd => body.meets hd) body.proper

theorem Branch.meets : (b : Branch) → ∀ {x : Bool} {c : ReCompiler}, c.error = .ok →
    Meets x b.events c (b.emit x c)
  | .nil, x, _, hc => by
    rw [Branch.events, Branch.emit]
    exact .refl x hc
  | .cons term suffix rest, x, c, hc => by
    rw [Branch.events, Branch.emit, ← List.append_assoc]
    rcases (emitPiece_answers (term.answers (x := x) hc) (fun d hd => suffix.answers hd c.length)
      suffix.proper).cases with ⟨d, hd, hne, hm⟩ | ⟨_, d, hd, hok, hm⟩
    · simp only [hd]
      exact hm.stop hne rest.proper
    · simp only [hd]
      exact hm.next hok (rest.meets hok)

theorem Tree.meets : (t : Tree) → ∀ {x : Bool} {c : ReCompiler}, c.error = .ok →
    Meets x t.events c (t.emit x c)
  | .last branch, _, _, hc => by
    rw [Tree.events, Tree.emit]
    exact branch.meets hc
  | .more branch rest, x, c, hc => by
    rw [Tree.events, Tree.emit]
    exact emitAlternation_meets (branch.meets hc)
      (fun d lastSplit jump hd => rest.branchesAnswer hd lastSplit [jump]) (rest.branchProper 1)

theorem Tree.branchesAnswer : (t : Tree) → ∀ {x : Bool} {c : ReCompiler}, c.error = .ok →
    ∀ (lastSplit : ℕ) (jumps : List ℕ),
      Answers x (t.branchEvents jumps.length) c (t.emitBranches x c lastSplit jumps)
  | .last branch, x, c, hc, lastSplit, jumps => by
    rw [Tree.branchEvents, Tree.emitBranches]
    exact emitBranch_answers hc (fun d hd => branch.meets hd) branch.proper lastSplit jumps
  | .more branch rest, x, c, hc, lastSplit, jumps => by
    rw [Tree.branchEvents, Tree.emitBranches, ← List.append_assoc]
    rcases (emitBranch_answers (x := x) hc (fun d hd => branch.meets hd) branch.proper
      lastSplit jumps).cases with ⟨d, hd, hne, hm⟩ | ⟨⟨split, jumps'⟩, d, hd, hok, hm⟩
    · simp only [hd]
      exact .failed (hm.stop hne (rest.branchProper _)) hne
    · have hrest := rest.branchesAnswer (x := x) hok split jumps'
      rw [emitBranch_jumps hd] at hrest
      simp only [hd]
      exact ⟨hm.next hok hrest.1, hrest.2⟩

end

end LampUserspace.Regex
