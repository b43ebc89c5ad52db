import Mathlib.Data.List.Basic
import Mathlib.Data.Nat.Notation

/-! # Stacks that record what happens to them

A stack numbers what is pushed and keeps the trace of its pushes and pops. The
trace is disciplined: what is popped was pushed before, was not popped before,
and everything pushed after it and before the pop was popped already.
-/

namespace LampUserspace.Lifo

universe u

variable {α : Type u}

inductive Event (α : Type u)
  | pushed (r : ℕ × α)
  | popped (r : ℕ × α)

def Event.isPopped : Event α → Bool
  | .pushed _ => false
  | .popped _ => true

/-- A stack, the number of the next push and the trace. -/
structure Recorded (α : Type u) where
  stack : List (ℕ × α)
  next : ℕ
  trace : List (Event α)

namespace Recorded

def empty : Recorded α := ⟨[], 0, []⟩

def push (s : Recorded α) (a : α) : Recorded α where
  stack := (s.next, a) :: s.stack
  next := s.next + 1
  trace := s.trace ++ [.pushed (s.next, a)]

def pop (s : Recorded α) : Recorded α :=
  match s.stack with
  | [] => s
  | r :: stack => { s with stack := stack, trace := s.trace ++ [.popped r] }

end Recorded

/-- Every pop takes the last push that was not popped. -/
def Disciplined (trace : List (Event α)) : Prop :=
  ∀ before r after, trace = before ++ .popped r :: after →
    .pushed r ∈ before ∧ .popped r ∉ before ∧
      ∀ q, .pushed q ∈ before → r.1 < q.1 → .popped q ∈ before

def Once (trace : List (Event α)) (r : ℕ × α) : Prop :=
  ∃ before after, trace = before ++ .popped r :: after ∧ .popped r ∉ before ∧ .popped r ∉ after

theorem Disciplined.once {trace : List (Event α)} {r : ℕ × α} (h : Disciplined trace)
    (hr : .popped r ∈ trace) : Once trace r := by
  obtain ⟨before, after, rfl⟩ := List.append_of_mem hr
  refine ⟨before, after, rfl, (h before r after rfl).2.1, fun hmem => ?_⟩
  obtain ⟨mid, rest, rfl⟩ := List.append_of_mem hmem
  have hagain := (h (before ++ .popped r :: mid) r rest (by simp)).2.1
  exact hagain (by simp)

structure Recorded.Sound (s : Recorded α) : Prop where
  numbers : ∀ r, .pushed r ∈ s.trace → r.1 < s.next
  held : ∀ r, r ∈ s.stack ↔ .pushed r ∈ s.trace ∧ .popped r ∉ s.trace
  ordered : s.stack.Pairwise fun a b => b.1 < a.1
  disciplined : Disciplined s.trace
  balance : s.stack.length + s.trace.countP Event.isPopped = s.next

namespace Recorded.Sound

variable {s : Recorded α}

theorem empty : (Recorded.empty : Recorded α).Sound where
  numbers r hr := by cases hr
  held r := by simp [Recorded.empty]
  ordered := List.Pairwise.nil
  disciplined before r after h := by simp [Recorded.empty] at h
  balance := rfl

theorem disciplined_pushed {trace : List (Event α)} {p : ℕ × α} (h : Disciplined trace) :
    Disciplined (trace ++ [.pushed p]) := by
  intro before r after heq
  rcases List.eq_nil_or_concat after with rfl | ⟨after', e, rfl⟩
  · have := (List.append_inj' heq rfl).2
    simp at this
  · rw [List.concat_eq_append, ← List.cons_append, ← List.append_assoc] at heq
    exact h before r after' (List.append_inj' heq rfl).1

theorem disciplined_popped {trace : List (Event α)} {p : ℕ × α} (h : Disciplined trace)
    (hp : .pushed p ∈ trace ∧ .popped p ∉ trace ∧
      ∀ q, .pushed q ∈ trace → p.1 < q.1 → .popped q ∈ trace) :
    Disciplined (trace ++ [.popped p]) := by
  intro before r after heq
  rcases List.eq_nil_or_concat after with rfl | ⟨after', e, rfl⟩
  · obtain ⟨rfl, heq⟩ := List.append_inj' heq rfl
    obtain rfl : p = r := by simpa using heq
    exact hp
  · rw [List.concat_eq_append, ← List.cons_append, ← List.append_assoc] at heq
    exact h before r after' (List.append_inj' heq rfl).1

theorem push (h : s.Sound) (a : α) : (s.push a).Sound where
  numbers r hr := by
    rcases List.mem_append.mp hr with hr | hr
    · exact Nat.lt_succ_of_lt (h.numbers r hr)
    · obtain rfl : r = (s.next, a) := by simpa using hr
      exact Nat.lt_succ_self s.next
  held r := by
    simp only [Recorded.push, List.mem_cons, h.held, List.mem_append, Event.pushed.injEq,
      List.not_mem_nil, or_false, reduceCtorEq]
    constructor
    · rintro (rfl | hr)
      · refine ⟨Or.inr rfl, fun hpop => ?_⟩
        obtain ⟨before, after, heq⟩ := List.append_of_mem hpop
        have hpush := (h.disciplined _ _ _ heq).1
        exact Nat.lt_irrefl _ (h.numbers _ (heq ▸ List.mem_append_left _ hpush))
      · exact ⟨Or.inl hr.1, hr.2⟩
    · rintro ⟨hr | rfl, hpop⟩
      · exact Or.inr ⟨hr, hpop⟩
      · exact Or.inl rfl
  ordered := List.pairwise_cons.mpr
    ⟨fun r hr => h.numbers r ((h.held r).mp hr).1, h.ordered⟩
  disciplined := disciplined_pushed h.disciplined
  balance := by
    have hbalance := h.balance
    simp only [Recorded.push, List.length_cons, List.countP_append, List.countP_singleton,
      Event.isPopped, Bool.false_eq_true, if_false]
    omega

theorem pop (h : s.Sound) : s.pop.Sound := by
  obtain ⟨stack, next, trace⟩ := s
  cases stack with
  | nil => exact h
  | cons p stack =>
    obtain ⟨hbelow, hordered⟩ := List.pairwise_cons.mp h.ordered
    obtain ⟨hpush, hpop⟩ := (h.held p).mp List.mem_cons_self
    have hlast : ∀ q, .pushed q ∈ trace → p.1 < q.1 → .popped q ∈ trace := by
      intro q hq hlt
      by_contra hheld
      rcases List.mem_cons.mp ((h.held q).mpr ⟨hq, hheld⟩) with rfl | hmem
      · exact Nat.lt_irrefl _ hlt
      · exact Nat.lt_asymm hlt (hbelow q hmem)
    refine ⟨fun r hr => h.numbers r (by simpa [Recorded.pop] using hr), fun r => ?_, hordered,
      disciplined_popped h.disciplined ⟨hpush, hpop, hlast⟩, ?_⟩
    · have hheld := h.held r
      simp only [List.mem_cons] at hheld
      simp only [Recorded.pop, List.mem_append, List.mem_cons, Event.popped.injEq,
        List.not_mem_nil, or_false, reduceCtorEq, not_or]
      constructor
      · intro hr
        have hr' := hheld.mp (Or.inr hr)
        exact ⟨hr'.1, hr'.2, fun heq => Nat.lt_irrefl _ (heq ▸ hbelow r hr)⟩
      · rintro ⟨hr, hnot, hne⟩
        exact (hheld.mpr ⟨hr, hnot⟩).resolve_left hne
    · have hbalance := h.balance
      simp only [List.length_cons] at hbalance
      simp only [Recorded.pop, List.countP_append, List.countP_singleton, Event.isPopped, if_true]
      omega

end Recorded.Sound

end LampUserspace.Lifo
