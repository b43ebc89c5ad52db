import Mathlib.Data.Option.Basic

/-! # Two partial computations side by side

`Together x y R` says that the values of the computations `x` and `y` are
related by `R` if both return. Two runs of the same program in the `Option`
monad are compared by following the binds of both.
-/

namespace LampUserspace

universe u v

variable {α β : Type u} {γ δ : Type v}

/-- If both computations return, their values are related. -/
def Together (x : Option α) (y : Option γ) (R : α → γ → Prop) : Prop :=
  ∀ a c, x = some a → y = some c → R a c

namespace Together

variable {x : Option α} {y : Option γ} {f : α → Option β} {g : γ → Option δ} {R : α → γ → Prop}
  {S : β → δ → Prop}

theorem some {a : α} {c : γ} (h : R a c) : Together (some a) (some c) R := by
  rintro _ _ ⟨⟩ ⟨⟩
  exact h

theorem pure {a : α} {c : γ} (h : R a c) : Together (pure a) (pure c) R := some h

theorem none_left : Together none y R := nofun

theorem none_right : Together x none R := nofun

/-- The continuations may use which value the first computation has returned. -/
theorem bind_of_eq (h : Together x y R)
    (hf : ∀ a c, x = Option.some a → R a c → Together (f a) (g c) S) :
    Together (x >>= f) (y >>= g) S := by
  intro b d hb hd
  obtain ⟨a, ha, hb⟩ := Option.bind_eq_some_iff.mp hb
  obtain ⟨c, hc, hd⟩ := Option.bind_eq_some_iff.mp hd
  exact hf a c ha (h a c ha hc) b d hb hd

theorem bind (h : Together x y R) (hf : ∀ a c, R a c → Together (f a) (g c) S) :
    Together (x >>= f) (y >>= g) S :=
  h.bind_of_eq fun a c _ => hf a c

theorem bind_same {β δ : Type u} {z : Option α} {f : α → Option β} {g : α → Option δ}
    {S : β → δ → Prop} (h : ∀ a, z = Option.some a → Together (f a) (g a) S) :
    Together (z >>= f) (z >>= g) S := by
  intro b d hb hd
  obtain ⟨a, ha, hb⟩ := Option.bind_eq_some_iff.mp hb
  obtain ⟨a', ha', hd⟩ := Option.bind_eq_some_iff.mp hd
  obtain rfl := Option.some.inj (ha.symm.trans ha')
  exact h a ha b d hb hd

theorem bind_left {y : Option δ} (h : ∀ a, x = Option.some a → Together (f a) y S) :
    Together (x >>= f) y S := by
  intro b d hb hd
  obtain ⟨a, ha, hb⟩ := Option.bind_eq_some_iff.mp hb
  exact h a ha b d hb hd

end Together

end LampUserspace
