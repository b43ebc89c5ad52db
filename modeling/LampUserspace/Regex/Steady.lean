import LampUserspace.Regex.Growth

/-! # Operations that do not read the pattern

The operations that write the program look neither at the cursor nor at the
syntax, and they fail only when the allocator refuses a request. Both facts
are carried through sequences of operations by one composition rule.
-/

namespace LampUserspace.Regex

/-- The same compiler at another place of another pattern. -/
def ReCompiler.reading (c : ReCompiler) (p : List UInt8) (cflags : UInt32) (extended : Bool) :
    ReCompiler :=
  { c with cursor := p, cflags := cflags, extended := extended }

namespace ReCompiler

variable (c : ReCompiler) (p q : List UInt8) (f g : UInt32) (x y : Bool)

@[simp] theorem reading_cursor : (c.reading p f x).cursor = p := rfl

@[simp] theorem reading_extended : (c.reading p f x).extended = x := rfl

@[simp] theorem reading_error : (c.reading p f x).error = c.error := rfl

@[simp] theorem reading_length : (c.reading p f x).length = c.length := rfl

theorem reading_move : { c.reading p f x with cursor := q } = c.reading q f x := rfl

end ReCompiler

/-- An operation that does not read the pattern and fails only for want of memory. -/
structure Steady {α : Type} (op : ReCompiler → Option α × ReCompiler) : Prop where
  reading : ∀ c p f x, op (c.reading p f x) = ((op c).1, (op c).2.reading p f x)
  grants : ∀ c, (op c).2.heap.grants = c.heap.grants
  refused : ∀ c d, op c = (none, d) → d.error = .regEspace ∧ ∃ n, c.heap.grants n = false
  done : ∀ c d k, op c = (some k, d) → d.error = c.error ∧ c.length ≤ d.length

namespace Steady

variable {α β : Type} {op : ReCompiler → Option α × ReCompiler}
  {next : α → ReCompiler → Option β × ReCompiler}

/-! ## Rules -/

theorem ne_refused {a : α} {c d : ReCompiler} : (some a, c) ≠ ((none : Option α), d) :=
  fun h => Option.some_ne_none a (congrArg Prod.fst h)

theorem pure (a : α) : Steady fun c => (some a, c) := by
  refine ⟨fun _ _ _ _ => rfl, fun _ => rfl, fun _ _ h => absurd h ne_refused, ?_⟩
  rintro c d k ⟨⟩
  exact ⟨rfl, le_rfl⟩

theorem modify (a : α) (index : ℕ) (f : ReInst → ReInst) :
    Steady fun c => (some a, c.modifyInst index f) := by
  refine ⟨fun _ _ _ _ => rfl, fun _ => rfl, fun _ _ h => absurd h ne_refused, ?_⟩
  rintro c d k ⟨⟩
  exact ⟨rfl, by simp [ReCompiler.length, ReCompiler.modifyInst]⟩

theorem atLength {op : ℕ → ReCompiler → Option α × ReCompiler} (h : ∀ n, Steady (op n)) :
    Steady fun c => op c.length c :=
  ⟨fun c p f x => (h c.length).reading c p f x, fun c => (h c.length).grants c,
    fun c => (h c.length).refused c, fun c => (h c.length).done c⟩

theorem atGroups {op : ℕ → ReCompiler → Option α × ReCompiler} (h : ∀ n, Steady (op n)) :
    Steady fun c => op c.groups c :=
  ⟨fun c p f x => (h c.groups).reading c p f x, fun c => (h c.groups).grants c,
    fun c => (h c.groups).refused c, fun c => (h c.groups).done c⟩

/-- `whole` is `op` and then, unless that fails, `next` of its result. -/
theorem bind {whole : ReCompiler → Option β × ReCompiler} (h : Steady op)
    (h' : ∀ a, Steady (next a)) (hfail : ∀ c d, op c = (none, d) → whole c = (none, d))
    (hnext : ∀ c a d, op c = (some a, d) → whole c = next a d) : Steady whole where
  reading c p f x := by
    have hop := h.reading c p f x
    rcases heq : op c with ⟨_ | a, d⟩
    · rw [heq] at hop
      rw [hfail _ _ hop, hfail _ _ heq]
    · rw [heq] at hop
      rw [hnext _ _ _ hop, hnext _ _ _ heq, (h' a).reading]
  grants c := by
    have hop := h.grants c
    rcases heq : op c with ⟨_ | a, d⟩
    · rw [hfail _ _ heq]
      rwa [heq] at hop
    · rw [hnext _ _ _ heq]
      rw [heq] at hop
      exact ((h' a).grants d).trans hop
  refused c e hc := by
    have hop := h.grants c
    rcases heq : op c with ⟨_ | a, d⟩
    · rw [hfail _ _ heq] at hc
      obtain ⟨⟩ := hc
      exact h.refused c _ heq
    · rw [hnext _ _ _ heq] at hc
      rw [heq] at hop
      obtain ⟨he, n, hn⟩ := (h' a).refused d e hc
      exact ⟨he, n, hop ▸ hn⟩
  done c e k hc := by
    rcases heq : op c with ⟨_ | a, d⟩
    · rw [hfail _ _ heq] at hc
      cases hc
    · rw [hnext _ _ _ heq] at hc
      obtain ⟨hd, hl⟩ := h.done c d a heq
      obtain ⟨he, hl'⟩ := (h' a).done d e k hc
      exact ⟨he.trans hd, hl.trans hl'⟩

theorem modifyFirst (h : Steady op) (index : ℕ) (f : ℕ → ReInst → ReInst) :
    Steady fun c => op (c.modifyInst index (f c.length)) :=
  (atLength fun n => modify () index (f n)).bind (fun _ => h) (fun _ _ h => absurd h ne_refused)
    fun c a d hd => by cases hd; rfl

theorem ite {P : ReCompiler → Prop} [DecidablePred P] {op' : ReCompiler → Option α × ReCompiler}
    (hP : ∀ c p f x, P (c.reading p f x) ↔ P c) (h : Steady op) (h' : Steady op') :
    Steady fun c => if P c then op c else op' c where
  reading c p f x := by
    by_cases hc : P c
    · simp only [if_pos hc, if_pos ((hP c p f x).mpr hc), h.reading]
    · simp only [if_neg hc, if_neg (mt (hP c p f x).mp hc), h'.reading]
  grants c := by
    split_ifs
    · exact h.grants c
    · exact h'.grants c
  refused c := by
    split_ifs
    · exact h.refused c
    · exact h'.refused c
  done c := by
    split_ifs
    · exact h.done c
    · exact h'.done c

/-! ## Growing the program -/

/-- The answer of the allocator in the place of a result. -/
def asked (room : Bool × ReCompiler) : Option Unit × ReCompiler :=
  (if room.1 then some () else none, room.2)

theorem grow {capacity : ReCompiler → ℕ}
    (h : ∀ c p f x, capacity (c.reading p f x) = capacity c) :
    Steady fun c => asked (c.grow (capacity c)) where
  reading c p f x := by
    rw [h]
    unfold ReCompiler.grow
    simp only [ReCompiler.reading]
    rcases c.heap.realloc c.block with ⟨_ | _, heap⟩ <;> rfl
  grants c := by
    unfold ReCompiler.grow Heap.realloc
    split_ifs <;> rfl
  refused c d hd := by
    unfold ReCompiler.grow Heap.realloc at hd
    split_ifs at hd with hg
    · cases hd
    · cases hd
      exact ⟨rfl, _, Bool.eq_false_of_not_eq_true hg⟩
  done c d k hd := by
    unfold ReCompiler.grow Heap.realloc at hd
    split_ifs at hd
    · cases hd
      exact ⟨rfl, le_rfl⟩
    · cases hd

theorem asked_fail {take : ReCompiler → Bool × ReCompiler}
    {whole : ReCompiler → Option α × ReCompiler}
    (h : ∀ c d, take c = (false, d) → whole c = (none, d)) :
    ∀ c d, asked (take c) = (none, d) → whole c = (none, d) := by
  intro c d hd
  rcases heq : take c with ⟨_ | _, e⟩ <;> rw [heq] at hd <;> cases hd
  exact h c _ heq

theorem asked_done {take : ReCompiler → Bool × ReCompiler}
    {whole : ReCompiler → Option α × ReCompiler} {next : ReCompiler → Option α × ReCompiler}
    (h : ∀ c d, take c = (true, d) → whole c = next d) :
    ∀ c a d, asked (take c) = (some a, d) → whole c = next d := by
  intro c a d hd
  rcases heq : take c with ⟨_ | _, e⟩ <;> rw [heq] at hd <;> cases hd
  exact h c _ heq

theorem room {P : ReCompiler → Prop} [DecidablePred P] {capacity : ReCompiler → ℕ}
    (hP : ∀ c p f x, P (c.reading p f x) ↔ P c)
    (h : ∀ c p f x, capacity (c.reading p f x) = capacity c) :
    Steady fun c => asked (if P c then c.grow (capacity c) else (true, c)) := by
  have hite := (grow h).ite hP (pure ())
  convert hite using 2
  split_ifs <;> rfl

theorem write (a : α) (program : List ReInst → List ReInst)
    (h : ∀ l, l.length ≤ (program l).length) :
    Steady fun c => (some a, { c with program := program c.program }) := by
  refine ⟨fun _ _ _ _ => rfl, fun _ => rfl, fun _ _ h => absurd h ne_refused, ?_⟩
  rintro c d k ⟨⟩
  exact ⟨rfl, h c.program⟩

theorem reserve : Steady fun c => asked c.reserve := by
  exact room (fun _ _ _ _ => Iff.rfl) fun _ _ _ _ => rfl

theorem emit (op : ReOp) : Steady (reEmit · op) :=
  reserve.bind (fun _ => atLength fun n => write n (· ++ [({ op := op } : ReInst)]) (by simp))
    (asked_fail fun c d h => by simp only [reEmit, h])
    (asked_done fun c d h => by simp only [reEmit, h])

theorem insert (index : ℕ) : Steady (reInsert · index) :=
  reserve.bind (fun _ => write index (insertAt · index) (by simp))
    (asked_fail fun c d h => by simp only [reInsert, h])
    (asked_done fun c d h => by simp only [reInsert, h])

/-- The room check of `re_copy_block`. -/
def copyRoom (count : ℕ) (c : ReCompiler) : Bool × ReCompiler :=
  if c.length + count > c.capacity then
    c.grow (doubleUntil (c.length + count) c.capacity (c.length + count))
  else (true, c)

theorem copyBlock (start stop : ℕ) : Steady (reCopyBlock · start stop) := by
  have hroom : Steady fun c => asked (copyRoom (stop - start) c) :=
    room (fun _ _ _ _ => Iff.rfl) fun _ _ _ _ => rfl
  have hcopy : Steady fun c => if (copyRoom (stop - start) c).1 then
      (some (copyRoom (stop - start) c).2.length, { (copyRoom (stop - start) c).2 with
        program := Regex.copyBlock (copyRoom (stop - start) c).2.program start stop })
      else (none, (copyRoom (stop - start) c).2) :=
    hroom.bind (fun _ => atLength fun n =>
      write n (Regex.copyBlock · start stop) (by simp [Regex.copyBlock]))
      (asked_fail fun c d h => by simp [h]) (asked_done fun c d h => by simp [h])
  have hall := (atLength pure).ite (P := fun c => stop - start = 0 ∨ c.error ≠ .ok)
    (fun _ _ _ _ => Iff.rfl) hcopy
  refine cast (congrArg Steady (funext fun c => ?_)) hall
  by_cases hc : stop - start = 0 ∨ c.error ≠ .ok
  · simp only [reCopyBlock, if_pos hc]
  · rcases hr : copyRoom (stop - start) c with ⟨_ | _, d⟩
    · have hif := hr
      rw [copyRoom] at hif
      simp only [reCopyBlock, if_neg hc, hif, Bool.false_eq_true, if_false]
    · have hif := hr
      rw [copyRoom] at hif
      simp only [reCopyBlock, if_neg hc, hif, if_true]

/-! ## The operations of the compiler -/

theorem emitSave (slot : Int) : Steady (reEmitSave · slot) :=
  (emit .reSave).bind (fun save => modify save save ({ · with x := slot }))
    (fun c d h => by simp only [reEmitSave, h]) fun c a d h => by simp only [reEmitSave, h]

theorem openGroup : Steady (reOpenGroup · true) := by
  have hcount : Steady fun c => (some (), { c with groups := c.groups + 1 }) := by
    refine ⟨fun _ _ _ _ => rfl, fun _ => rfl, fun _ _ h => absurd h ne_refused, ?_⟩
    rintro c d k ⟨⟩
    exact ⟨rfl, le_rfl⟩
  exact hcount.bind (fun _ => atGroups fun n => emitSave (n * 2))
    (fun _ _ h => absurd h ne_refused)
    fun c a d h => by cases h; rfl

theorem closeGroup : Steady (reCloseGroup · true) :=
  atGroups fun n => emitSave (n * 2 + 1)

theorem wrapOptional (start : ℕ) : Steady (reWrapOptional · start) :=
  (insert start).bind
    (fun split => atLength fun n =>
      modify 0 split ({ · with op := .reSplit, x := start + 1, y := n }))
    (fun c d h => by simp only [reWrapOptional, h])
    fun c a d h => by simp only [reWrapOptional, h]; rfl

theorem jumpBack (split : ℕ) (x : Int) (a : ℕ) : Steady fun c =>
    match reEmit (c.setSplit split x c.length) .reJmp with
    | (none, c) => (none, c)
    | (some jump, c) => (some a, c.modifyInst jump ({ · with x := split })) :=
  ((emit .reJmp).modifyFirst split fun n => ({ · with op := .reSplit, x := x, y := n })).bind
    (fun jump => modify a jump ({ · with x := split }))
    (fun c d h => by simp only [ReCompiler.setSplit, h])
    fun c a d h => by simp only [ReCompiler.setSplit, h]

theorem wrapStar (start : ℕ) : Steady (reWrapStar · start) := by
  exact (insert start).bind (fun split => jumpBack split (start + 1) 0)
    (fun c d h => by simp only [reWrapStar, h])
    fun c a d h => by rewrite [reWrapStar, h]; rfl

theorem wrapPlus (start : ℕ) : Steady (reWrapPlus · start) :=
  (emit .reSplit).bind
    (fun split => atLength fun n => modify 1 split ({ · with op := .reSplit, x := start, y := n }))
    (fun c d h => by simp only [reWrapPlus, h])
    fun c a d h => by simp only [reWrapPlus, h]; rfl

theorem wrapResult {op : ReCompiler → Option ℕ × ReCompiler} (h : Steady op) :
    Steady fun c => Regex.wrapResult (op c) :=
  h.bind (fun _ => pure 1) (fun c d h => by simp only [h]; rfl)
    fun c a d h => by simp only [h]; rfl

theorem copies (n start stop : ℕ) : Steady (reCopies n · start stop) := by
  induction n with
  | zero => exact pure 1
  | succ n ih =>
    exact (copyBlock start stop).bind (fun _ => ih) (fun c d h => by simp only [reCopies, h])
      fun c a d h => by simp only [reCopies, h]

theorem optionalCopy {whole : ReCompiler → Option α × ReCompiler} (start stop : ℕ)
    {rest : ℕ → ℕ → ReCompiler → Option α × ReCompiler}
    (hrest : ∀ split body, Steady (rest split body))
    (hwhole : ∀ c, whole c = match reEmit c .reSplit with
      | (none, d) => (none, d)
      | (some split, d) => match reCopyBlock d start stop with
        | (none, d) => (none, d)
        | (some body, d) => rest split body d) :
    Steady whole := by
  have hcopy : ∀ split, Steady fun d => match reCopyBlock d start stop with
      | (none, d) => (none, d)
      | (some body, d) => rest split body d := fun split =>
    (copyBlock start stop).bind (hrest split) (fun c d h => by simp only [h])
      fun c a d h => by simp only [h]
  exact (emit .reSplit).bind hcopy (fun c d h => by simp only [hwhole, h])
    fun c a d h => by simp only [hwhole, h]

theorem optionalCopies (n start stop : ℕ) : Steady (reOptionalCopies n · start stop) := by
  induction n with
  | zero => exact pure 1
  | succ n ih =>
    exact optionalCopy start stop
      (fun split body =>
        ih.modifyFirst split fun n => ({ · with op := .reSplit, x := body, y := n }))
      fun c => rfl

theorem openTail (start stop : ℕ) : Steady (reOpenTail · start stop) :=
  optionalCopy start stop (fun split body => jumpBack split body 1) fun _ => rfl

/-- Two operations, both told the length that the program had before them. -/
theorem thenFrom {first next : ℕ → ReCompiler → Option ℕ × ReCompiler}
    (h : ∀ stop, Steady (first stop)) (h' : ∀ stop, Steady (next stop)) :
    Steady fun c => match first c.length c with
      | (none, d) => (none, d)
      | (some _, d) => next c.length d := by
  have hboth : ∀ stop, Steady fun c => match first stop c with
      | (none, d) => (none, d)
      | (some _, d) => next stop d := fun stop =>
    (h stop).bind (fun _ => h' stop) (fun c d hd => by simp only [hd])
      fun c a d hd => by simp only [hd]
  exact atLength hboth

theorem interval (start min : ℕ) (max : Option ℕ) :
    Steady (reCompileInterval · start min max) := by
  cases min with
  | zero =>
    cases max with
    | none => exact (wrapStar start).wrapResult
    | some max => exact thenFrom (fun _ => wrapOptional start) (optionalCopies (max - 1) start)
  | succ min =>
    cases max with
    | none => exact thenFrom (copies min start) (openTail start)
    | some max =>
      exact thenFrom (copies min start) (optionalCopies (max - (min + 1)) start)

theorem openBranch (lastSplit : ℕ) : Steady (reOpenBranch · lastSplit) :=
  (emit .reSplit).bind (fun split => modify split lastSplit ({ · with y := split }))
    (fun c d h => by simp only [reOpenBranch, h]) fun c a d h => by simp only [reOpenBranch, h]

theorem closeBranch (split body : ℕ) : Steady (reCloseBranch · split body) :=
  (emit .reJmp).modifyFirst split fun n => ({ · with x := body, y := n })

end Steady

end LampUserspace.Regex
