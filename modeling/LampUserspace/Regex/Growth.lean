import LampUserspace.Regex.Syntax

/-! # Memory and errors of the compiler

What every operation of the compiler keeps: the flags, the first error, and the
ownership of its one heap block. An operation that ends without an error has
changed the program as the pure operation on lists does.
-/

namespace LampUserspace.Regex

namespace ReCompiler

/-- The program under construction with the number of its groups. -/
def code (c : ReCompiler) : Code := ⟨c.program, c.groups⟩

/-- The live blocks are those of `base` and the block of the program. -/
structure Owns (base : Finset ℕ) (c : ReCompiler) : Prop where
  live : c.heap.live = base ∪ c.block.toFinset
  fresh : Disjoint base c.block.toFinset

end ReCompiler

/-- What the compiler keeps from one state to a later one. -/
structure Frame (c c' : ReCompiler) : Prop where
  cflags : c'.cflags = c.cflags
  extended : c'.extended = c.extended
  sticky : c'.error = .ok → c.error = .ok
  owns : ∀ base, c.Owns base → c'.Owns base

/--
`r` comes from `c` by an operation that leaves the cursor alone and, unless there is an
error, returns `index` and makes the program `code`.
-/
structure Grows (c : ReCompiler) (r : Option ℕ × ReCompiler) (index : ℕ) (code : Code) :
    Prop where
  frame : Frame c r.2
  cursor : r.2.cursor = c.cursor
  done : r.2.error = .ok → r.1 = some index ∧ r.2.code = code

variable {c d e : ReCompiler} {r : Option ℕ × ReCompiler} {i j k : ℕ} {P Q : Code}

theorem Frame.refl (c : ReCompiler) : Frame c c := ⟨rfl, rfl, id, fun _ h => h⟩

theorem Frame.trans (h : Frame c d) (h' : Frame d e) : Frame c e :=
  ⟨h'.cflags.trans h.cflags, h'.extended.trans h.extended, h.sticky ∘ h'.sticky,
    fun base hc => h'.owns base (h.owns base hc)⟩

/-- The frame does not depend on the parts of the state it does not mention. -/
theorem Frame.congr (h : Frame c d) (hcflags : e.cflags = d.cflags)
    (hextended : e.extended = d.extended) (herror : e.error = .ok → d.error = .ok)
    (hheap : e.heap = d.heap) (hblock : e.block = d.block) : Frame c e := by
  refine ⟨hcflags.trans h.cflags, hextended.trans h.extended, h.sticky ∘ herror, fun base hc => ?_⟩
  obtain ⟨hlive, hfresh⟩ := h.owns base hc
  exact ⟨by rw [hheap, hblock, hlive], by rw [hblock]; exact hfresh⟩

theorem Grows.failed (h : Grows c (none, d) i P) : Grows c (none, d) j Q :=
  ⟨h.frame, h.cursor, fun he => nomatch (h.done he).1⟩

theorem Grows.andThen (h : Grows c (some k, d) i P)
    (h' : (d.error = .ok → k = i ∧ d.code = P) → Grows d r j Q) : Grows c r j Q := by
  have hr := h' fun he => ⟨Option.some.inj (h.done he).1, (h.done he).2⟩
  exact ⟨h.frame.trans hr.frame, hr.cursor.trans h.cursor, hr.done⟩

theorem Grows.modifyInst {f : ReInst → ReInst} {program program' : List ReInst} {groups : ℕ}
    (index : ℕ) (h : Grows c (some k, d) i ⟨program, groups⟩)
    (hf : d.length = program.length → program.modify i f = program') :
    Grows c (some index, d.modifyInst k f) index ⟨program', groups⟩ := by
  refine h.andThen fun hd => ⟨(Frame.refl d).congr rfl rfl id rfl rfl, rfl, fun he => ⟨rfl, ?_⟩⟩
  obtain ⟨rfl, hcode⟩ := hd he
  obtain ⟨rfl, rfl⟩ := Code.mk.inj hcode
  rw [← hf rfl]
  rfl

/-- What asking for room leaves unchanged. -/
structure Room (c : ReCompiler) (room : Bool × ReCompiler) : Prop where
  frame : Frame c room.2
  cursor : room.2.cursor = c.cursor
  program : room.2.program = c.program
  groups : room.2.groups = c.groups
  granted : room.2.error = .ok → room.1 = true

theorem Room.refl (c : ReCompiler) : Room c (true, c) :=
  ⟨Frame.refl c, rfl, rfl, rfl, fun _ => rfl⟩

theorem grow_room (c : ReCompiler) (capacity : ℕ) : Room c (c.grow capacity) := by
  unfold ReCompiler.grow Heap.realloc
  split_ifs with hg
  · refine ⟨⟨rfl, rfl, id, fun base hc => ?_⟩, rfl, rfl, rfl, fun _ => rfl⟩
    have hbase : c.heap.live \ c.block.toFinset = base := by
      rw [hc.live, Finset.union_sdiff_right]
      exact Finset.sdiff_eq_self_of_disjoint hc.fresh
    constructor
    · simp only [hbase, Option.toFinset_some]
      exact (Finset.insert_eq _ _).trans (Finset.union_comm _ _)
    · rw [Option.toFinset_some, Finset.disjoint_singleton_right]
      intro hmem
      have hlive : c.heap.next ∈ c.heap.live := by
        rw [hc.live]
        exact Finset.mem_union_left _ hmem
      exact lt_irrefl _ (c.heap.lt_next _ hlive)
  · exact ⟨⟨rfl, rfl, nofun, fun base hc => ⟨hc.live, hc.fresh⟩⟩, rfl, rfl, rfl, nofun⟩

theorem reserve_room (c : ReCompiler) : Room c c.reserve := by
  unfold ReCompiler.reserve
  split_ifs
  · exact grow_room c _
  · exact grow_room c _
  · exact .refl c

/-- An operation that asks for room and then changes the program. -/
theorem Room.grows {room : Bool × ReCompiler} {program : List ReInst} (h : Room c room)
    (hfail : ∀ d, room = (false, d) → r = (none, d))
    (hdone : ∀ d, room = (true, d) → d.program = c.program →
      r = (some i, { d with program := program })) : Grows c r i ⟨program, c.groups⟩ := by
  obtain ⟨_ | _, d⟩ := room
  · rw [hfail d rfl]
    exact ⟨h.frame, h.cursor, fun he => nomatch h.granted he⟩
  · rw [hdone d rfl h.program]
    refine ⟨h.frame.congr rfl rfl id rfl rfl, h.cursor, fun _ => ⟨rfl, ?_⟩⟩
    exact congrArg (Code.mk program) h.groups

/-- Such an operation has changed the program where it returns an index. -/
theorem Room.done {room : Bool × ReCompiler} {program : List ReInst} (h : Room c room)
    (hfail : ∀ d, room = (false, d) → r = (none, d))
    (hdone : ∀ d, room = (true, d) → d.program = c.program →
      r = (some i, { d with program := program }))
    (hr : r = (some k, e)) : k = i ∧ e.program = program := by
  obtain ⟨_ | _, d⟩ := room
  · exact nomatch (hfail d rfl).symm.trans hr
  · obtain ⟨⟩ := (hdone d rfl h.program).symm.trans hr
    exact ⟨rfl, rfl⟩

theorem reEmit_grows (c : ReCompiler) (op : ReOp) :
    Grows c (reEmit c op) c.length ⟨c.program ++ [{ op := op }], c.groups⟩ := by
  refine (reserve_room c).grows (fun d hd => ?_) fun d hd hp => ?_
  · simp only [reEmit, hd]
  · simp only [reEmit, hd, hp, ReCompiler.length]

theorem reEmit_error {op : ReOp} (h : reEmit c op = (some k, d)) : d.error = c.error := by
  have hgrow : ∀ capacity e, c.grow capacity = (true, e) → e.error = c.error := by
    intro capacity e he
    unfold ReCompiler.grow at he
    split at he
    · exact nomatch he
    · cases he
      rfl
  have hreserve : ∀ e, c.reserve = (true, e) → e.error = c.error := by
    intro e he
    unfold ReCompiler.reserve at he
    split at he
    · exact hgrow _ e he
    · cases he
      rfl
  unfold reEmit at h
  split at h
  · exact nomatch h
  · rename_i e he
    cases h
    exact hreserve e he

theorem reEmit_program {op : ReOp} (h : reEmit c op = (some k, d)) :
    k = c.length ∧ d.program = c.program ++ [{ op := op }] := by
  refine (reserve_room c).done (fun e he => ?_) (fun e he hp => ?_) h
  · simp only [reEmit, he]
  · simp only [reEmit, he, hp, ReCompiler.length]

theorem reInsert_grows (c : ReCompiler) (index : ℕ) :
    Grows c (reInsert c index) index ⟨insertAt c.program index, c.groups⟩ := by
  refine (reserve_room c).grows (fun d hd => ?_) fun d hd hp => ?_
  · simp only [reInsert, hd]
  · simp only [reInsert, hd, hp]

theorem reInsert_program {index : ℕ} (h : reInsert c index = (some k, d)) :
    k = index ∧ d.program = insertAt c.program index := by
  refine (reserve_room c).done (fun e he => ?_) (fun e he hp => ?_) h
  · simp only [reInsert, he]
  · simp only [reInsert, he, hp]

theorem reCopyBlock_grows (c : ReCompiler) (start stop : ℕ) :
    Grows c (reCopyBlock c start stop) c.length ⟨copyBlock c.program start stop, c.groups⟩ := by
  by_cases h : stop - start = 0 ∨ c.error ≠ .ok
  · rw [reCopyBlock, if_pos h]
    refine ⟨Frame.refl c, rfl, fun he => ⟨rfl, ?_⟩⟩
    have hcount : stop - start = 0 := h.resolve_right fun hne => hne he
    simp [ReCompiler.code, copyBlock, hcount]
  · have hroom : Room c (if c.length + (stop - start) > c.capacity then
        c.grow (doubleUntil (c.length + (stop - start)) c.capacity (c.length + (stop - start)))
        else (true, c)) := by
      split
      · exact grow_room c _
      · exact .refl c
    refine hroom.grows (fun d hd => ?_) fun d hd hp => ?_
    · simp only [reCopyBlock, if_neg h, hd]
    · simp only [reCopyBlock, if_neg h, hd, hp]
      simp only [ReCompiler.length, hp]

/-! ## Quantifiers -/

/-- An operation after another one, which has made the program `program`. -/
theorem Grows.chain {program : List ReInst} {groups : ℕ}
    (h : Grows c (some k, d) i ⟨program, groups⟩) (index : List ReInst → ℕ)
    (f : List ReInst → List ReInst)
    (h' : Grows d r (index d.program) ⟨f d.program, d.groups⟩) :
    Grows c r (index program) ⟨f program, groups⟩ := by
  refine h.andThen fun hd => ⟨h'.frame, h'.cursor, fun he => ?_⟩
  obtain ⟨-, hcode⟩ := hd (h'.frame.sticky he)
  obtain ⟨rfl, rfl⟩ := Code.mk.inj hcode
  exact h'.done he

theorem Grows.emit {program : List ReInst} {groups : ℕ}
    (h : Grows c (some k, d) i ⟨program, groups⟩) (op : ReOp) :
    Grows c (reEmit d op) program.length ⟨program ++ [{ op := op }], groups⟩ :=
  h.chain List.length (· ++ [({ op := op } : ReInst)]) (reEmit_grows d op)

theorem Grows.copy {program : List ReInst} {groups : ℕ}
    (h : Grows c (some k, d) i ⟨program, groups⟩) (start stop : ℕ) :
    Grows c (reCopyBlock d start stop) program.length ⟨copyBlock program start stop, groups⟩ :=
  h.chain List.length (copyBlock · start stop) (reCopyBlock_grows d start stop)

theorem modify_concat (program : List ReInst) (i : ReInst) (f : ReInst → ReInst) :
    (program ++ [i]).modify program.length f = program ++ [f i] := by
  induction program with
  | nil => rfl
  | cons j program ih => simpa using ih

theorem reEmitSave_grows (c : ReCompiler) (slot : Int) :
    Grows c (reEmitSave c slot) c.length
      ⟨c.program ++ [{ op := .reSave, x := slot }], c.groups⟩ := by
  have h := reEmit_grows c .reSave
  unfold reEmitSave
  generalize reEmit c .reSave = r at h ⊢
  obtain ⟨_ | save, d⟩ := r
  · exact h.failed
  · have hm := h.modifyInst save fun _ => modify_concat _ _ ({ · with x := slot })
    exact ⟨hm.frame, hm.cursor, fun he => ⟨(h.done he).1, (hm.done he).2⟩⟩

theorem reEmitSave_error {slot : Int} (h : reEmitSave c slot = (some k, d)) :
    d.error = c.error := by
  unfold reEmitSave at h
  split at h
  · exact nomatch h
  · rename_i e he
    cases h
    exact (reEmit_error he : e.error = c.error)

theorem Grows.setSplit {start : ℕ}
    (h : Grows c (some k, d) start ⟨insertAt c.program start, c.groups⟩) :
    Grows c (some 0, d.setSplit k (start + 1) d.length) 0
      ⟨wrapOptional c.program start, c.groups⟩ := by
  refine h.modifyInst 0 fun hlen => ?_
  rw [hlen, length_insertAt]
  rfl

theorem reWrapOptional_grows (c : ReCompiler) (start : ℕ) :
    Grows c (reWrapOptional c start) 0 ⟨wrapOptional c.program start, c.groups⟩ := by
  have h := reInsert_grows c start
  unfold reWrapOptional
  generalize reInsert c start = r at h ⊢
  obtain ⟨_ | split, d⟩ := r
  · exact h.failed
  · exact h.setSplit

theorem reWrapPlus_grows (c : ReCompiler) (start : ℕ) :
    Grows c (reWrapPlus c start) 1
      ⟨c.program ++ [{ op := .reSplit, x := start, y := c.program.length + 1 }], c.groups⟩ := by
  have h := reEmit_grows c .reSplit
  unfold reWrapPlus
  generalize reEmit c .reSplit = r at h ⊢
  obtain ⟨_ | split, d⟩ := r
  · exact h.failed
  · refine h.modifyInst 1 fun hlen => ?_
    rw [hlen, List.length_append]
    exact modify_concat _ _ _

theorem Grows.wrapResult (h : Grows c r i P) : Grows c (wrapResult r) 1 P := by
  obtain ⟨_ | k, d⟩ := r
  · exact h.failed
  · exact ⟨h.frame, h.cursor, fun he => ⟨rfl, (h.done he).2⟩⟩

theorem Grows.jump {program : List ReInst} {groups x y : ℕ} (index : ℕ)
    (h : Grows c (some k, d) i ⟨program, groups⟩) (hx : d.error = .ok → y = x) :
    Grows c (match reEmit d .reJmp with
      | (none, d) => (none, d)
      | (some jump, d) => (some index, d.modifyInst jump ({ · with x := (y : Int) }))) index
      ⟨program ++ [{ op := .reJmp, x := x }], groups⟩ := by
  have he := h.emit .reJmp
  have hd := (reEmit_grows d .reJmp).frame.sticky
  generalize reEmit d .reJmp = r at he hd ⊢
  obtain ⟨_ | jump, e⟩ := r
  · exact he.failed
  · have hm := he.modifyInst index fun _ => modify_concat _ _ ({ · with x := (y : Int) })
    refine ⟨hm.frame, hm.cursor, fun herr => ?_⟩
    rw [← hx (hd herr)]
    exact hm.done herr

theorem reWrapStar_grows (c : ReCompiler) (start : ℕ) :
    Grows c (reWrapStar c start) 0 ⟨wrapStar c.program start, c.groups⟩ := by
  have h := reInsert_grows c start
  unfold reWrapStar
  generalize reInsert c start = r at h ⊢
  obtain ⟨_ | split, d⟩ := r
  · exact h.failed
  · exact h.setSplit.jump 0 fun he => Option.some.inj (h.done he).1

theorem reCopies_grows (n : ℕ) (c : ReCompiler) (start stop : ℕ) :
    Grows c (reCopies n c start stop) 1 ⟨copies n c.program start stop, c.groups⟩ := by
  induction n generalizing c with
  | zero => exact ⟨Frame.refl c, rfl, fun _ => ⟨rfl, rfl⟩⟩
  | succ n ih =>
    have h := reCopyBlock_grows c start stop
    rw [reCopies]
    generalize reCopyBlock c start stop = r at h ⊢
    obtain ⟨_ | body, d⟩ := r
    · exact h.failed
    · exact h.chain (fun _ => 1) (copies n · start stop) (ih d)

/-- A split that can skip the copy of a block it precedes, up to the setting of its targets. -/
theorem optionalCopy_grows (c : ReCompiler) (start stop : ℕ) (f : ℕ → ℕ → ReCompiler →
    Option ℕ × ReCompiler) {index : ℕ} {Q : Code}
    (hf : ∀ split body d, (d.error = .ok → split = c.length) →
      Grows c (some 0, d.setSplit split body d.length) 0
        ⟨optionalCopy c.program start stop, c.groups⟩ →
      Grows c (f split body d) index Q) :
    Grows c (match reEmit c .reSplit with
      | (none, d) => (none, d)
      | (some split, d) =>
        match reCopyBlock d start stop with
        | (none, d) => (none, d)
        | (some body, d) => f split body d) index Q := by
  have h := reEmit_grows c .reSplit
  generalize reEmit c .reSplit = r at h ⊢
  obtain ⟨_ | split, d⟩ := r
  · exact h.failed
  have h' := h.copy start stop
  have hd := (reCopyBlock_grows d start stop).frame.sticky
  simp only
  generalize reCopyBlock d start stop = r at h' hd ⊢
  obtain ⟨_ | body, e⟩ := r
  · exact h'.failed
  have hsplit : e.error = .ok → split = c.length := fun he => Option.some.inj (h.done (hd he)).1
  refine hf split body e hsplit ⟨h'.frame.congr rfl rfl id rfl rfl, h'.cursor, fun he => ?_⟩
  obtain ⟨hbody, hcode⟩ := h'.done he
  obtain ⟨hp, hg⟩ := Code.mk.inj hcode
  have hb : (body : Int) = c.program.length + 1 := by
    rw [Option.some.inj hbody]
    simp
  refine ⟨rfl, ?_⟩
  simp only [ReCompiler.code, ReCompiler.setSplit, ReCompiler.modifyInst, ReCompiler.length,
    hsplit he, hb, optionalCopy, ← hp, ← hg]
  rfl

theorem reOptionalCopies_grows (n : ℕ) (c : ReCompiler) (start stop : ℕ) :
    Grows c (reOptionalCopies n c start stop) 1
      ⟨optionalCopies n c.program start stop, c.groups⟩ := by
  induction n generalizing c with
  | zero => exact ⟨Frame.refl c, rfl, fun _ => ⟨rfl, rfl⟩⟩
  | succ n ih =>
    rw [reOptionalCopies]
    refine optionalCopy_grows c start stop
      (fun split body d => reOptionalCopies n (d.setSplit split body d.length) start stop)
      fun split body d _ h => ?_
    exact h.chain (fun _ => 1) (optionalCopies n · start stop) (ih _)

theorem reOpenTail_grows (c : ReCompiler) (start stop : ℕ) :
    Grows c (reOpenTail c start stop) 1 ⟨openTail c.program start stop, c.groups⟩ :=
  optionalCopy_grows c start stop _ fun _ _ _ hs h => h.jump 1 hs

theorem reCompileInterval_grows (c : ReCompiler) (start min : ℕ) (max : Option ℕ) :
    Grows c (reCompileInterval c start min max) 1
      ⟨quantify c.program start (.interval min max), c.groups⟩ := by
  unfold reCompileInterval
  cases min with
  | zero =>
    rw [if_pos rfl]
    cases max with
    | none => exact (reWrapStar_grows c start).wrapResult
    | some max =>
      have h := reWrapOptional_grows c start
      simp only
      generalize reWrapOptional c start = r at h ⊢
      obtain ⟨_ | k, d⟩ := r
      · exact h.failed
      · exact h.chain (fun _ => 1) (optionalCopies (max - 1) · start c.length)
          (reOptionalCopies_grows _ d start _)
  | succ min =>
    rw [if_neg (Nat.succ_ne_zero min), Nat.succ_sub_one]
    have h := reCopies_grows min c start c.length
    generalize reCopies min c start c.length = r at h ⊢
    obtain ⟨_ | k, d⟩ := r
    · exact h.failed
    cases max with
    | none => exact h.chain (fun _ => 1) (openTail · start c.length) (reOpenTail_grows d start _)
    | some max =>
      exact h.chain (fun _ => 1) (optionalCopies (max - (min + 1)) · start c.length)
        (reOptionalCopies_grows _ d start _)

/-! ## Branches -/

theorem reOpenBranch_grows (c : ReCompiler) (lastSplit : ℕ) :
    Grows c (reOpenBranch c lastSplit) c.length ⟨openBranch c.program lastSplit, c.groups⟩ := by
  have h := reEmit_grows c .reSplit
  unfold reOpenBranch
  generalize reEmit c .reSplit = r at h ⊢
  obtain ⟨_ | split, d⟩ := r
  · exact h.failed
  · refine ⟨h.frame.congr rfl rfl id rfl rfl, h.cursor, fun he => ⟨(h.done he).1, ?_⟩⟩
    obtain ⟨hindex, hcode⟩ := h.done he
    obtain ⟨hp, hg⟩ := Code.mk.inj hcode
    obtain rfl : split = c.program.length := Option.some.inj hindex
    simp only at hp hg
    simp only [ReCompiler.code, ReCompiler.modifyInst, hp, hg]
    rfl

theorem reCloseBranch_grows (c : ReCompiler) (split : ℕ) :
    Grows c (reCloseBranch c split (split + 1)) c.length
      ⟨closeBranch c.program split, c.groups⟩ := by
  have h := reEmit_grows (c.modifyInst split
    ({ · with x := ((split + 1 : ℕ) : Int), y := (c.length : Int) })) .reJmp
  have hlen : (c.modifyInst split
      ({ · with x := ((split + 1 : ℕ) : Int), y := (c.length : Int) })).length = c.length := by
    simp [ReCompiler.length, ReCompiler.modifyInst]
  rw [hlen] at h
  have hf : Frame c (c.modifyInst split
      ({ · with x := ((split + 1 : ℕ) : Int), y := (c.length : Int) })) :=
    (Frame.refl c).congr rfl rfl id rfl rfl
  exact ⟨hf.trans h.frame, h.cursor, h.done⟩

theorem rePatchAlternation_eq (c : ReCompiler) (lastSplit : ℕ) (jumps : List ℕ) :
    rePatchAlternation c lastSplit jumps =
      { c with program := patchAlternation c.program lastSplit jumps } := by
  have hfold : ∀ (jumps : List ℕ) (d : ReCompiler) (x : Int),
      jumps.foldl (fun d jump => d.modifyInst jump ({ · with x := x })) d =
        { d with program := jumps.foldl (fun p jump => p.modify jump (setX x)) d.program } := by
    intro jumps
    induction jumps with
    | nil => exact fun _ _ => rfl
    | cons jump jumps ih => exact fun d x => ih (d.modifyInst jump _) x
  exact hfold jumps _ _

end LampUserspace.Regex
