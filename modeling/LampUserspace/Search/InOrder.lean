import Mathlib.Data.List.Basic
import Mathlib.Data.Nat.Notation

/-! # Trying candidates in order

Candidates are tried one after the other until an attempt does not return or
fails with an error that ends the trials. What an attempt does may depend on the
attempts before it.
-/

namespace LampUserspace

namespace InOrder

variable {α ε : Type*}

/-- The attempts made, and the last error, `none` if the last attempt did not return. -/
@[ext]
structure Outcome (α ε : Type*) where
  attempts : List α
  error : Option ε

section

variable (os : List α → Option ε) (again : ε → Prop)

/-- Try the candidates after the attempts `done`, the last of which left the error `e`; `os` gives
the error of the last of some attempts. -/
def tryEach [DecidablePred again] (done : List α) (e : ε) : List α → Outcome α ε
  | [] => ⟨done, some e⟩
  | c :: cs =>
    match os (done ++ [c]) with
    | none => ⟨done ++ [c], none⟩
    | some e => if again e then tryEach (done ++ [c]) e cs else ⟨done ++ [c], some e⟩

/-- The attempts are the candidates in order, up to the first one that ends the trials. -/
structure Tried (candidates : List α) (e₀ : ε) (r : Outcome α ε) : Prop where
  prefix_candidates : r.attempts <+: candidates
  earlier : ∀ done c, done ++ [c] <+: r.attempts → done ++ [c] ≠ r.attempts →
    ∃ e, os (done ++ [c]) = some e ∧ again e
  ended : r.attempts = candidates ∨
    r.attempts ≠ [] ∧ ∀ e, os r.attempts = some e → ¬ again e
  error_eq : r.error = if r.attempts = [] then some e₀ else os r.attempts

end

variable {os : List α → Option ε} {again : ε → Prop}

/-- Trials that go on after the attempts `done`, all of which failed with an error for which the
next candidate is tried. -/
theorem tryEach_tried [DecidablePred again] {done : List α} {e₀ e : ε} (cs : List α)
    (hearlier : ∀ d c, d ++ [c] <+: done → ∃ e, os (d ++ [c]) = some e ∧ again e)
    (he : some e = if done = [] then some e₀ else os done) :
    Tried os again (done ++ cs) e₀ (tryEach os again done e cs) := by
  induction cs generalizing done e with
  | nil =>
    rw [List.append_nil]
    exact ⟨List.prefix_rfl, fun d c hpre _ => hearlier d c hpre, Or.inl rfl, he⟩
  | cons c cs ih =>
    have hne : done ++ [c] ≠ [] := by simp
    have hpre : done ++ [c] <+: done ++ c :: cs := ⟨cs, (List.append_cons done c cs).symm⟩
    have hbefore : ∀ d x, d ++ [x] <+: done ++ [c] → d ++ [x] ≠ done ++ [c] →
        ∃ e, os (d ++ [x]) = some e ∧ again e := fun d x hd hdne =>
      hearlier d x ((List.prefix_concat_iff.mp hd).resolve_left hdne)
    rw [tryEach]
    split
    · rename_i hos
      refine ⟨hpre, hbefore, Or.inr ⟨hne, fun e heq => ?_⟩, ?_⟩
      · rw [hos] at heq
        cases heq
      · rw [if_neg hne, hos]
    · rename_i e' hos
      split
      · rename_i hagain
        rw [List.append_cons]
        refine ih (fun d x hd => ?_) (by rw [if_neg hne, hos])
        by_cases hdne : d ++ [x] = done ++ [c]
        · exact hdne ▸ ⟨e', hos, hagain⟩
        · exact hbefore d x hd hdne
      · rename_i hagain
        refine ⟨hpre, hbefore, Or.inr ⟨hne, fun e heq => ?_⟩, ?_⟩
        · rw [hos] at heq
          exact Option.some.inj heq ▸ hagain
        · rw [if_neg hne, hos]

end InOrder

end LampUserspace
