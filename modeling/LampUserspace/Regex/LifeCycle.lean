import LampUserspace.Ownership.Ledger
import LampUserspace.Regex.Regexec

/-! # The memory of compiled patterns

Runs of `regcomp`, `regexec` and `regfree` on any number of `regex_t` objects,
over an allocator that may refuse any request. The live blocks are always those
from before the run and one for each compiled object; `free` is only applied to
null pointers and to live blocks.
-/

namespace LampUserspace.Regex

open Ownership

namespace Heap

def malloc (h : Heap) : Option ℕ × Heap := h.realloc none

/-- `free` as it is defined: of a null pointer or a live block. -/
def release (h : Heap) : Option ℕ → Option Heap
  | none => some h
  | some b => if b ∈ h.live then some (h.free (some b)) else none

end Heap

/-- A `regex_t` with the block that `re_program` points to. -/
structure Handle where
  preg : RegexT
  block : Option ℕ

def Handle.cleared : Handle := ⟨⟨none, 0, 0⟩, none⟩

def regcompBlock (regex : CString) (cflags : UInt32) (heap : Heap) : Option ℕ :=
  match reStart regex cflags heap with
  | (none, _) => none
  | (some _, c) =>
    match reCompilePattern regex c with
    | none => none
    | some c =>
      if c.error ≠ .ok then none
      else
        match reEmitSave c 1 with
        | (none, _) => none
        | (some _, c) =>
          match reEmit c .reMatch with
          | (none, _) => none
          | (some _, c) => c.block

/-- `regexec` with its two blocks; `content b` is what a block `b` holds when it is granted. -/
def regexecHeap (heap : Heap) (preg : RegexT) (string : CString) (nmatch : ℕ)
    (pmatch : List RegMatch) (eflags : UInt32) (content : ℕ → ℕ → UInt32) :
    Option (ExecResult × Heap) := do
  match preg.reProgram with
  | none => return (⟨.regBadpat, pmatch, fun _ => 0⟩, heap)
  | some _ =>
    let (captures, heap) := heap.malloc
    let (generations, heap) := heap.malloc
    let r ← regexec preg string nmatch pmatch eflags captures.isSome (generations.map content)
    let heap ← heap.release captures
    let heap ← heap.release generations
    return (r, heap)

def regfree (heap : Heap) (object : Handle) : Option (Handle × Heap) := do
  let heap ← heap.release object.block
  return (.cleared, heap)

structure Patterns where
  heap : Heap
  objects : ℕ → Handle

inductive PatternCall
  | regcomp (address : ℕ) (regex : CString) (cflags : UInt32)
  | regexec (address : ℕ) (string : CString) (nmatch : ℕ) (pmatch : List RegMatch)
    (eflags : UInt32) (content : ℕ → ℕ → UInt32)
  | regfree (address : ℕ)

namespace PatternCall

def step (s : Patterns) : PatternCall → Option Patterns
  | .regcomp a regex cflags => do
    let (_, preg, heap) ← Regex.regcomp regex cflags s.heap
    let object : Handle := ⟨preg, regcompBlock regex cflags s.heap⟩
    return ⟨heap, Function.update s.objects a object⟩
  | .regexec a string nmatch pmatch eflags content => do
    let (_, heap) ← regexecHeap s.heap (s.objects a).preg string nmatch pmatch eflags content
    return { s with heap := heap }
  | .regfree a => do
    let (object, heap) ← Regex.regfree s.heap (s.objects a)
    return ⟨heap, Function.update s.objects a object⟩

/--
An object is compiled only when it holds no program, and executed only when the slots of its
program index the captures and the table for the text fits.
-/
def Permitted (s : Patterns) : PatternCall → Prop
  | .regcomp a _ _ => (s.objects a).block = none
  | .regexec a string _ _ eflags _ => ∀ program, (s.objects a).preg.reProgram = some program →
    SavesFit program (((s.objects a).preg.reNsub + 1) * 2) ∧
      TableFits program.length ⟨string, (s.objects a).preg.reCflags, eflags⟩
  | .regfree _ => True

end PatternCall

/-- An object as `regcomp` or `regfree` leaves it. -/
def Handle.WellFormed (object : Handle) : Prop :=
  (object.preg.reProgram = none → object.block = none) ∧
    ∀ program, object.preg.reProgram = some program →
      ∃ tree, program = (genPattern tree).program

/-- The live blocks are the initial ones and one for each object that has one. -/
structure Patterns.Accounted (initial : Finset ℕ) (s : Patterns) : Prop where
  ledger : Ledger (· ∈ initial) (fun a => (s.objects a).block) (· ∈ s.heap.live)
  objects : ∀ a, (s.objects a).WellFormed

/-! ## The blocks of a call -/

section Blocks

variable {h : Heap} {b : ℕ} {initial : Finset ℕ} {s : Patterns}

theorem Heap.malloc_live (h : Heap) :
    (h.malloc).2.live = h.live ∪ (h.malloc).1.toFinset ∧
      ∀ b, (h.malloc).1 = some b → b ∉ h.live := by
  unfold Heap.malloc Heap.realloc
  by_cases hg : h.grants h.next = true
  · simp only [if_pos hg]
    refine ⟨by ext; simp, fun b hb hlive => ?_⟩
    obtain rfl := Option.some.inj hb
    exact lt_irrefl _ (h.lt_next _ hlive)
  · simp only [if_neg hg]
    exact ⟨by simp, fun b hb => absurd hb (by simp)⟩

theorem Heap.release_of_mem {ptr : Option ℕ} (hptr : ∀ b, ptr = some b → b ∈ h.live) :
    Total (h.release ptr) fun h' => ∀ b, b ∈ h'.live ↔ b ∈ h.live ∧ ptr ≠ some b := by
  cases ptr with
  | none => exact .some fun b => by simp
  | some p =>
    refine .ite (fun _ => .some fun b => ?_) fun hn => absurd (hptr p rfl) hn
    simp [Heap.free, eq_comm]

/-- The block that `regcomp` hands over is a new one, and the only one it leaves. -/
theorem regcomp_block {regex : CString} {cflags : UInt32} {heap heap' : Heap} {code : RegCode}
    {preg : RegexT} (hr : regcomp regex cflags heap = some (code, preg, heap')) :
    heap'.live = heap.live ∪ (regcompBlock regex cflags heap).toFinset ∧
      Disjoint heap.live (regcompBlock regex cflags heap).toFinset ∧
      (preg.reProgram = none → regcompBlock regex cflags heap = none) := by
  obtain ⟨howns, hcursor, -, hcode⟩ := reStart_grows regex cflags heap
  have hfail : ∀ {c : ReCompiler} {e : RegCode}, c.Owns heap.live →
      regcompFail c e = (code, preg, heap') → heap'.live = heap.live := by
    intro c e hc he
    cases he
    exact hc.free_live
  unfold regcompBlock
  unfold regcomp at hr
  generalize reStart regex cflags heap = r at howns hcursor hcode hr ⊢
  obtain ⟨_ | _, c⟩ := r
  · simp only
    rw [hfail howns (Option.some.inj hr)]
    simp
  have hc : Ready c := by
    refine ⟨hcursor ▸ InText.memory regex, fun he => ?_⟩
    have hp : c.program = _ := congrArg Code.program (hcode he)
    simp [hp]
  obtain ⟨d, hd, hframe, -⟩ := reCompilePattern_compiled hc hcursor
  simp only [hd, Option.bind_eq_bind, Option.bind_some] at hr ⊢
  by_cases hok : d.error = .ok
  · simp only [hok, ne_eq, not_true, if_false] at hr ⊢
    have hsave := reEmitSave_grows d 1
    generalize reEmitSave d 1 = r at hsave hr ⊢
    have howns' := (hframe.trans hsave.frame).owns _ howns
    obtain ⟨_ | _, e⟩ := r
    · simp only at hr ⊢
      rw [hfail howns' (Option.some.inj hr)]
      simp
    have hmatch := hsave.emit .reMatch
    simp only at hr ⊢
    generalize reEmit e .reMatch = r at hmatch hr ⊢
    have howns'' := (hframe.trans hmatch.frame).owns _ howns
    obtain ⟨_ | _, e'⟩ := r
    · simp only at hr ⊢
      rw [hfail howns'' (Option.some.inj hr)]
      simp
    · simp only at hr ⊢
      cases hr
      exact ⟨howns''.live, howns''.fresh, fun hnone => absurd hnone (by simp)⟩
  · simp only [hok, ne_eq, not_false_eq_true, if_true] at hr ⊢
    rw [hfail (hframe.owns _ howns) (Option.some.inj hr)]
    simp

/-- A call of `regexec` is defined, and leaves the live blocks as they were. -/
theorem regexecHeap_live {preg : RegexT} (h : Heap) (string : CString) (nmatch : ℕ)
    (pmatch : List RegMatch) (eflags : UInt32) (content : ℕ → ℕ → UInt32)
    (hform : ∀ program, preg.reProgram = some program → ∃ tree, program = (genPattern tree).program)
    (hs : ∀ program, preg.reProgram = some program →
      SavesFit program ((preg.reNsub + 1) * 2) ∧
        TableFits program.length ⟨string, preg.reCflags, eflags⟩) :
    Total (regexecHeap h preg string nmatch pmatch eflags content) fun r =>
      ∀ b, b ∈ r.2.live ↔ b ∈ h.live := by
  unfold regexecHeap
  cases hprogram : preg.reProgram with
  | none => exact .pure fun b => Iff.rfl
  | some program =>
    obtain ⟨tree, rfl⟩ := hform program hprogram
    obtain ⟨hlive₁, hnew₁⟩ := h.malloc_live
    obtain ⟨hlive₂, hnew₂⟩ := h.malloc.2.malloc_live
    simp only
    generalize h.malloc = first at hlive₁ hnew₁ hlive₂ hnew₂ ⊢
    generalize first.2.malloc = second at hlive₂ hnew₂ ⊢
    have hexec : ∃ r, regexec preg string nmatch pmatch eflags first.1.isSome
        (second.1.map content) = some r := by
      obtain ⟨r, hr, -⟩ := reSearch_returns (s := ⟨string, preg.reCflags, eflags⟩)
        (inRange_genPattern tree) (firstSlot_genPattern tree) (hs _ hprogram).1 (by omega) 0
        (content (second.1.getD 0)) (Nat.zero_add (string.strlen + 1)).le
      unfold regexec
      simp only [hprogram, programLength_genPattern, Option.bind_eq_bind, Option.bind_some]
      rcases first.1 with _ | p <;> rcases hb : second.1 with _ | q <;>
        simp only [Option.isSome_none, Option.isSome_some, Option.map_none, Option.map_some]
      case some.some =>
        rw [hb] at hr
        simp only [Option.getD_some] at hr
        simp only [guard, if_pos (hs _ hprogram).2, Option.pure_def, hr, Option.bind_some]
        split_ifs <;> exact ⟨_, rfl⟩
      all_goals exact ⟨_, rfl⟩
    obtain ⟨r, hr⟩ := hexec
    refine .bind (P := (· = r)) (.intro hr rfl) fun _ _ he => ?_
    subst he
    have hmem₁ : ∀ b, first.1 = some b → b ∈ second.2.live := by
      intro b hb
      simp [hlive₂, hlive₁, hb]
    refine (Heap.release_of_mem hmem₁).bind fun h₁ _ hh₁ => ?_
    have hmem₂ : ∀ b, second.1 = some b → b ∈ h₁.live := by
      intro b hb
      refine (hh₁ b).mpr ⟨by simp [hlive₂, hb], fun hb' => hnew₂ b hb ?_⟩
      simp [hlive₁, hb']
    refine (Heap.release_of_mem hmem₂).bind fun h₂ _ hh₂ => .pure fun b => ?_
    have hb₁ := hnew₁ b
    have hb₂ := hnew₂ b
    rw [hlive₁] at hb₂
    rw [hh₂ b, hh₁ b, hlive₂, hlive₁]
    simp only [Finset.mem_union, Option.mem_toFinset, Option.mem_def] at hb₂ ⊢
    tauto

end Blocks

/-! ## Runs -/

section Runs

variable {initial : Finset ℕ} {s : Patterns}

theorem owner_update (objects : ℕ → Handle) (a : ℕ) (object : Handle) :
    (fun x => (Function.update objects a object x).block) =
      Function.update (fun x => (objects x).block) a object.block := by
  funext x
  by_cases hx : x = a
  · subst hx
    simp
  · simp [hx]

theorem objects_update {objects : ℕ → Handle} {a : ℕ} {object : Handle}
    (h : ∀ a, (objects a).WellFormed) (hobject : object.WellFormed) :
    ∀ x, (Function.update objects a object x).WellFormed := by
  intro x
  by_cases hx : x = a
  · subst hx
    rwa [Function.update_self]
  · rw [Function.update_of_ne hx]
    exact h x

theorem Patterns.Accounted.regcomp (h : s.Accounted initial) {a : ℕ}
    (ha : (s.objects a).block = none) (regex : CString) (cflags : UInt32) :
    Total (PatternCall.step s (.regcomp a regex cflags)) (Patterns.Accounted initial) := by
  obtain ⟨⟨code, preg, heap⟩, hr, hspec⟩ := regcomp_spec regex cflags s.heap
  obtain ⟨hlive, hfresh, hnone⟩ := regcomp_block hr
  refine .bind (P := (· = (code, preg, heap))) (.intro hr rfl) fun _ _ he => .pure ?_
  subst he
  refine ⟨?_, objects_update h.objects ⟨hnone, fun program hprogram => ?_⟩⟩
  · rw [owner_update]
    simp only
    cases hblock : regcompBlock regex cflags s.heap with
    | none =>
      rw [Function.update_eq_self_iff.mpr ha.symm]
      exact h.ledger.congr fun b => by simp [hlive, hblock]
    | some b =>
      rw [hblock] at hfresh
      refine (h.ledger.acquire ha (r := b) (by simpa using hfresh)).congr fun q => ?_
      simp [hlive, hblock, eq_comm, or_comm]
  · by_cases hok : code = .ok
    · obtain ⟨tree, -, hpreg⟩ := hspec.accepted hok
      rw [show preg = _ from hpreg] at hprogram
      exact ⟨tree, (Option.some.inj hprogram).symm⟩
    · rw [show preg = _ from (hspec.rejected hok).1] at hprogram
      cases hprogram

theorem Patterns.Accounted.regfree (h : s.Accounted initial) (a : ℕ) :
    Total (PatternCall.step s (.regfree a)) (Patterns.Accounted initial) := by
  have hmem : ∀ b, (s.objects a).block = some b → b ∈ s.heap.live := fun b hb =>
    h.ledger.held_of_owner hb
  refine ((Heap.release_of_mem hmem).bind (R := fun r =>
    r.1 = .cleared ∧ ∀ b, b ∈ r.2.live ↔ b ∈ s.heap.live ∧ (s.objects a).block ≠ some b)
      fun _ _ hlive => .pure ⟨rfl, hlive⟩).bind fun r _ hr => .pure ?_
  obtain ⟨object, heap⟩ := r
  obtain ⟨rfl, hlive⟩ := hr
  refine ⟨?_, objects_update h.objects ⟨fun _ => rfl, nofun⟩⟩
  rw [owner_update]
  cases hblock : (s.objects a).block with
  | none =>
    rw [show Handle.cleared.block = none from rfl, Function.update_eq_self_iff.mpr hblock.symm]
    exact h.ledger.congr fun b => by simp [hlive, hblock]
  | some b =>
    refine (h.ledger.release (a := a) hblock).congr fun q => ?_
    rw [hlive, hblock, ne_eq, Option.some.injEq, ne_eq, eq_comm]

theorem Patterns.Accounted.step (h : s.Accounted initial) {call : PatternCall}
    (hcall : call.Permitted s) : Total (call.step s) (Patterns.Accounted initial) := by
  cases call with
  | regcomp a regex cflags => exact h.regcomp hcall regex cflags
  | regexec a string nmatch pmatch eflags content =>
    exact (regexecHeap_live s.heap string nmatch pmatch eflags content (h.objects a).2
      hcall).bind fun r _ hr => .pure ⟨h.ledger.congr hr, h.objects⟩
  | regfree a => exact h.regfree a

def Patterns.start (heap : Heap) : Patterns := ⟨heap, fun _ => .cleared⟩

theorem Patterns.start_accounted (heap : Heap) : (start heap).Accounted heap.live where
  ledger := ⟨fun b => by simp [start, Handle.cleared], nofun, nofun⟩
  objects _ := ⟨fun _ => rfl, nofun⟩

/--
A run of permitted calls is defined: it frees no block that is not live, whatever the allocator
refuses. At its end the live blocks are those from before it and one for each object that holds a
compiled pattern.
-/
theorem patterns_run_accounted (heap : Heap) (calls : List PatternCall)
    (hcalls : Total.Along PatternCall.step PatternCall.Permitted (.start heap) calls) :
    Total (calls.foldlM PatternCall.step (.start heap)) fun s =>
      s.Accounted heap.live ∧
        ((∀ a, (s.objects a).preg.reProgram = none) → s.heap.live = heap.live) := by
  refine (Total.foldlM (fun s call (h : s.Accounted heap.live) hcall => h.step hcall)
    (Patterns.start_accounted heap) hcalls).mono fun s _ h => ⟨h, fun hnone => ?_⟩
  ext b
  rw [h.ledger.exact b]
  refine or_iff_left ?_
  rintro ⟨a, ha⟩
  rw [(h.objects a).1 (hnone a)] at ha
  cases ha

def orderlyPatterns : List PatternCall :=
  [.regcomp 0 litA 0, .regexec 0 litA 1 [⟨-1, -1⟩] 0 fun _ _ => 0, .regfree 0, .regfree 0]

theorem orderlyPatterns_accounted :
    Total (orderlyPatterns.foldlM PatternCall.step (.start .unlimited)) fun s =>
      s.Accounted ∅ ∧ ((∀ a, (s.objects a).preg.reProgram = none) → s.heap.live = ∅) := by
  refine patterns_run_accounted .unlimited orderlyPatterns ⟨rfl, fun s h => ?_⟩
  refine ⟨fun program hprogram => ?_,
    fun _ _ => ⟨trivial, fun _ _ => ⟨trivial, fun _ _ => trivial⟩⟩⟩
  obtain ⟨heap, hr⟩ := regcomp_litA
  rw [PatternCall.step, Patterns.start, hr] at h
  obtain rfl := Option.some.inj h
  simp only [Function.update_self] at hprogram ⊢
  obtain rfl := Option.some.inj hprogram
  decide

end Runs

end LampUserspace.Regex
