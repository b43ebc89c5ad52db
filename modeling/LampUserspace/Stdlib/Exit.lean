import Mathlib.Logic.Function.Iterate
import LampUserspace.Lifo.Discipline
import LampUserspace.Stdlib.Environ

/-! # Exit handlers

`atexit`, `exit` and the way of `start_c` from the return of `main` to the exit
system call. A handler is known by what it registers when it runs, which may
depend on everything that has happened before. `exit` runs the registered
handlers, the last one first; `start_c` runs none of them.
-/

namespace LampUserspace.Stdlib

open Lifo

universe u

variable {F : Type u}

/-- The stack `g_exit_handlers` with its trace; `none` is a null pointer. -/
def atexit (s : Recorded F) (function : Option F) : Recorded F × Except Errno Unit :=
  match function with
  | none => (s, .error .ENOMEM)
  | some function =>
    if s.stack.length ≥ 32 then (s, .error .ENOMEM) else (s.push function, .ok ())

def register (s : Recorded F) (functions : List (Option F)) : Recorded F :=
  functions.foldl (fun s function => (atexit s function).1) s

section

-- what the handler that has just been taken from the stack passes to `atexit`
variable (handler : List (Event F) → List (Option F))

/-- `g_exit_handlers[--g_exit_handler_count]()` -/
def callLast (s : Recorded F) : Recorded F :=
  match s.stack with
  | [] => s
  | _ :: _ => register s.pop (handler s.pop.trace)

/-- `while (g_exit_handler_count)` -/
def exitLoop : (fuel : ℕ) → Recorded F → Option (Recorded F)
  | 0, _ => none
  | fuel + 1, s => if s.stack.length = 0 then some s else exitLoop fuel (callLast handler s)

/-- What has happened when the exit system call is issued, and its status. -/
def exit (fuel : ℕ) (s : Recorded F) (status : ℤ) : Option (List (Event F) × ℤ) := do
  let s ← exitLoop handler fuel s
  return (s.trace, status)

inductive Ending
  | returns
  | exits
  deriving DecidableEq

/-- What `main` passes to `atexit`, and how it ends. -/
structure Main (F : Type u) where
  functions : List (Option F)
  ending : Ending
  code : ℤ

def Main.registered (main : Main F) : Recorded F := register .empty main.functions

def startC (fuel : ℕ) (main : Main F) : Option (List (Event F) × ℤ) :=
  match main.ending with
  | .returns => some (main.registered.trace, main.code)
  | .exits => exit handler fuel main.registered main.code

end

/-- Every registered handler has run once, the last one registered first, before the system call
with the code. -/
def Orderly (code : ℤ) (r : List (Event F) × ℤ) : Prop :=
  r.2 = code ∧ Disciplined r.1 ∧ ∀ p, .pushed p ∈ r.1 → Once r.1 p

variable {handler : List (Event F) → List (Option F)} {s : Recorded F}

theorem atexit_cases (s : Recorded F) (function : Option F) :
    (atexit s function).1 = s ∨ ∃ f, (atexit s function).1 = s.push f := by
  cases function with
  | none => exact Or.inl rfl
  | some f =>
    unfold atexit
    dsimp only
    split
    · exact Or.inl rfl
    · exact Or.inr ⟨f, rfl⟩

theorem register_cons (s : Recorded F) (function : Option F) (functions : List (Option F)) :
    register s (function :: functions) = register (atexit s function).1 functions :=
  rfl

theorem register_sound (h : s.Sound) (functions : List (Option F)) :
    (register s functions).Sound := by
  induction functions generalizing s with
  | nil => exact h
  | cons function functions ih =>
    rw [register_cons]
    rcases atexit_cases s function with heq | ⟨f, heq⟩
    · rw [heq]
      exact ih h
    · rw [heq]
      exact ih (h.push f)

theorem register_trace (s : Recorded F) (functions : List (Option F)) :
    ∃ more, (register s functions).trace = s.trace ++ more ∧
      more.countP Event.isPopped = 0 := by
  induction functions generalizing s with
  | nil => exact ⟨[], (List.append_nil _).symm, rfl⟩
  | cons function functions ih =>
    rw [register_cons]
    rcases atexit_cases s function with heq | ⟨f, heq⟩
    · rw [heq]
      exact ih s
    · rw [heq]
      obtain ⟨more, hmore, hcount⟩ := ih (s.push f)
      refine ⟨.pushed (s.next, f) :: more, ?_, ?_⟩
      · rw [hmore, Recorded.push, List.append_assoc, List.singleton_append]
      · simpa [Event.isPopped] using hcount

theorem callLast_sound (h : s.Sound) : (callLast handler s).Sound := by
  unfold callLast
  split
  · exact h
  · exact register_sound h.pop _

theorem countP_callLast (handler : List (Event F) → List (Option F)) (h : s.stack.length ≠ 0) :
    (callLast handler s).trace.countP Event.isPopped =
      s.trace.countP Event.isPopped + 1 := by
  obtain ⟨stack, next, trace⟩ := s
  cases stack with
  | nil => exact absurd rfl h
  | cons p stack =>
    obtain ⟨more, hmore, hcount⟩ := register_trace (Recorded.pop ⟨p :: stack, next, trace⟩)
      (handler (Recorded.pop ⟨p :: stack, next, trace⟩).trace)
    change (register _ _).trace.countP _ = _
    rw [hmore, List.countP_append, hcount]
    simp [Recorded.pop, Event.isPopped]

/-- With at most `bound` registrations the loop ends, with an empty stack. -/
theorem exitLoop_ends {bound fuel : ℕ} (h : s.Sound)
    (hfew : ∀ n, ((callLast handler)^[n] s).next ≤ bound)
    (hfuel : bound < s.trace.countP Event.isPopped + fuel) :
    ∃ s', exitLoop handler fuel s = some s' ∧ s'.Sound ∧ s'.stack = [] := by
  induction fuel generalizing s with
  | zero =>
    have hbalance := h.balance
    have hnext : s.next ≤ bound := hfew 0
    omega
  | succ fuel ih =>
    by_cases hempty : s.stack.length = 0
    · exact ⟨s, if_pos hempty, h, List.eq_nil_of_length_eq_zero hempty⟩
    · have hcount := countP_callLast handler hempty
      obtain ⟨s', hloop, hs'⟩ := ih (callLast_sound h) (fun n => hfew (n + 1)) (by omega)
      exact ⟨s', (if_neg hempty).trans hloop, hs'⟩

/-- With an empty stack everything that was pushed was popped once. -/
theorem orderly_of_empty (h : s.Sound) (hempty : s.stack = []) (code : ℤ) :
    Orderly code (s.trace, code) := by
  refine ⟨rfl, h.disciplined, fun p hp => h.disciplined.once ?_⟩
  by_contra hheld
  have hmem := (h.held p).mpr ⟨hp, hheld⟩
  rw [hempty] at hmem
  cases hmem

/-- The first function that is passed to an empty stack is pushed. -/
theorem exists_pushed {functions : List (Option F)} {f : F} (hempty : s.stack = [])
    (hf : some f ∈ functions) : ∃ p, .pushed p ∈ (register s functions).trace := by
  induction functions with
  | nil => cases hf
  | cons function functions ih =>
    cases function with
    | none => exact ih ((List.mem_cons.mp hf).resolve_left (by simp))
    | some g =>
      obtain ⟨more, hmore, -⟩ := register_trace (s.push g) functions
      have hpush : register s (some g :: functions) = register (s.push g) functions := by
        simp [register, atexit, hempty]
      refine ⟨(s.next, g), ?_⟩
      rw [hpush, hmore]
      simp [Recorded.push]

theorem register_none {functions : List (Option F)} (h : ∀ f, some f ∉ functions) :
    register s functions = s := by
  induction functions with
  | nil => rfl
  | cons function functions ih =>
    cases function with
    | none => exact ih fun f hf => h f (List.mem_cons_of_mem _ hf)
    | some f => exact absurd List.mem_cons_self (h f)

/-- With at most 32 registrations, a process runs its handlers in order before it ends exactly
when `main` calls `exit` or has registered no handler. -/
theorem startC_orderly_iff (handler : List (Event F) → List (Option F)) (main : Main F)
    (hfew : main.ending = .exits → ∀ n, ((callLast handler)^[n] main.registered).next ≤ 32) :
    (∃ r, startC handler 33 main = some r ∧ Orderly main.code r) ↔
      main.ending = .exits ∨ ∀ f, some f ∉ main.functions := by
  unfold startC
  cases hending : main.ending with
  | exits =>
    refine iff_of_true ?_ (Or.inl rfl)
    have hfuel : 32 < main.registered.trace.countP Event.isPopped + 33 := by omega
    have hregistered : main.registered.Sound := register_sound .empty main.functions
    obtain ⟨s', hloop, hsound, hempty⟩ := exitLoop_ends hregistered (hfew hending) hfuel
    refine ⟨(s'.trace, main.code), ?_, orderly_of_empty hsound hempty main.code⟩
    rw [exit, hloop]
    rfl
  | returns =>
    constructor
    · rintro ⟨r, hr, hcode, hdisciplined, honce⟩
      refine Or.inr fun f hf => ?_
      obtain rfl := Option.some.inj hr
      obtain ⟨p, hp⟩ := exists_pushed (s := .empty) rfl hf
      obtain ⟨before, after, heq, -⟩ := honce p hp
      obtain ⟨more, hmore, hcount⟩ := register_trace .empty main.functions
      have hpop : main.registered.trace.countP Event.isPopped = 0 := by
        rw [Main.registered, hmore]
        exact hcount
      dsimp only at heq
      rw [heq] at hpop
      simp [Event.isPopped] at hpop
    · rintro (hexits | hnone)
      · cases hexits
      · refine ⟨_, rfl, ?_⟩
        have hempty : main.registered = .empty := register_none hnone
        rw [hempty]
        exact orderly_of_empty .empty rfl main.code

def returningMain : Main Unit := ⟨[some ()], .returns, 0⟩

/-- Its handler has not run when the system call is issued. -/
theorem returningMain_not_orderly :
    ¬ ∃ r, startC (fun _ => []) 33 returningMain = some r ∧ Orderly returningMain.code r := by
  rintro ⟨r, hr, -, -, honce⟩
  obtain rfl := Option.some.inj hr
  obtain ⟨before, after, heq, -⟩ := honce (0, ()) List.mem_cons_self
  have hlength := congrArg (List.countP Event.isPopped) heq
  rw [List.countP_append, List.countP_cons_of_pos rfl] at hlength
  exact Nat.succ_ne_zero _ hlength.symm

def exitingMain : Main Unit := ⟨[some ()], .exits, 0⟩

/-- A handler that registers another one when it runs for the first time. -/
def registering (trace : List (Event Unit)) : List (Option Unit) :=
  if trace.length = 2 then [some ()] else []

theorem exitingMain_orderly :
    (exitingMain.ending = .exits →
      ∀ n, ((callLast registering)^[n] exitingMain.registered).next ≤ 32) ∧
    ((∃ r, startC registering 33 exitingMain = some r ∧ Orderly exitingMain.code r) ↔
      exitingMain.ending = .exits ∨ ∀ f, some f ∉ exitingMain.functions) := by
  have hfew : exitingMain.ending = .exits →
      ∀ n, ((callLast registering)^[n] exitingMain.registered).next ≤ 32 := by
    intro _ n
    have hfixed : callLast registering ((callLast registering)^[2] exitingMain.registered) =
        (callLast registering)^[2] exitingMain.registered := rfl
    match n with
    | 0 => exact (by decide : 1 ≤ 32)
    | 1 => exact (by decide : 2 ≤ 32)
    | n + 2 =>
      rw [Function.iterate_add_apply, Function.iterate_fixed hfixed]
      exact (by decide : 2 ≤ 32)
  exact ⟨hfew, startC_orderly_iff registering exitingMain hfew⟩

end LampUserspace.Stdlib
