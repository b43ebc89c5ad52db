import Mathlib.Logic.Function.Basic

/-! # Ledgers of resources

What is held is exactly what was held from the start and what an owner has, and
every resource has one owner at most. Acquiring a new resource for a new owner
and releasing the resource of an owner keep this.
-/

namespace LampUserspace.Ownership

universe u v

variable {α : Type u} {ρ : Type v}

/-- The resources `held` beside the `initial` ones are those that `owner` assigns, each once. -/
structure Ledger (initial : ρ → Prop) (owner : α → Option ρ) (held : ρ → Prop) : Prop where
  exact : ∀ r, held r ↔ initial r ∨ ∃ a, owner a = some r
  foreign : ∀ a r, owner a = some r → ¬ initial r
  single : ∀ a b r, owner a = some r → owner b = some r → a = b

namespace Ledger

variable {initial held : ρ → Prop} {owner : α → Option ρ} {a : α} {r : ρ}

theorem congr {held' : ρ → Prop} (h : Ledger initial owner held) (hheld : ∀ r, held' r ↔ held r) :
    Ledger initial owner held' :=
  ⟨fun r => (hheld r).trans (h.exact r), h.foreign, h.single⟩

theorem held_of_owner (h : Ledger initial owner held) (ha : owner a = some r) : held r :=
  (h.exact r).mpr (Or.inr ⟨a, ha⟩)

variable [DecidableEq α]

theorem acquire (h : Ledger initial owner held) (ha : owner a = none) (hr : ¬ held r) :
    Ledger initial (Function.update owner a (some r)) fun q => held q ∨ q = r := by
  have hother : ∀ b q, Function.update owner a (some r) b = some q →
      b = a ∧ q = r ∨ owner b = some q := by
    intro b q hb
    by_cases hba : b = a
    · subst hba
      rw [Function.update_self] at hb
      exact Or.inl ⟨rfl, (Option.some.inj hb).symm⟩
    · exact Or.inr (by rwa [Function.update_of_ne hba] at hb)
  refine ⟨fun q => ?_, fun b q hb => ?_, fun b c q hb hc => ?_⟩
  · rw [h.exact q]
    constructor
    · rintro ((hq | ⟨b, hb⟩) | rfl)
      · exact Or.inl hq
      · refine Or.inr ⟨b, ?_⟩
        rw [Function.update_of_ne, hb]
        rintro rfl
        rw [ha] at hb
        cases hb
      · exact Or.inr ⟨a, Function.update_self _ _ _⟩
    · rintro (hq | ⟨b, hb⟩)
      · exact Or.inl (Or.inl hq)
      · rcases hother b q hb with ⟨-, rfl⟩ | hb
        · exact Or.inr rfl
        · exact Or.inl (Or.inr ⟨b, hb⟩)
  · rcases hother b q hb with ⟨-, rfl⟩ | hb
    · exact fun hq => hr ((h.exact q).mpr (Or.inl hq))
    · exact h.foreign b q hb
  · rcases hother b q hb with ⟨hba, hqr⟩ | hb'
    · rcases hother c q hc with ⟨hca, -⟩ | hc'
      · rw [hba, hca]
      · exact absurd (h.held_of_owner hc') (hqr ▸ hr)
    · rcases hother c q hc with ⟨-, hqr⟩ | hc'
      · exact absurd (h.held_of_owner hb') (hqr ▸ hr)
      · exact h.single b c q hb' hc'

theorem release (h : Ledger initial owner held) (ha : owner a = some r) :
    Ledger initial (Function.update owner a none) fun q => held q ∧ q ≠ r := by
  have hother : ∀ b q, Function.update owner a none b = some q → b ≠ a ∧ owner b = some q := by
    intro b q hb
    by_cases hba : b = a
    · subst hba
      simp at hb
    · exact ⟨hba, by rwa [Function.update_of_ne hba] at hb⟩
  refine ⟨fun q => ?_, fun b q hb => h.foreign b q (hother b q hb).2,
    fun b c q hb hc => h.single b c q (hother b q hb).2 (hother c q hc).2⟩
  rw [h.exact q]
  constructor
  · rintro ⟨hq | ⟨b, hb⟩, hne⟩
    · exact Or.inl hq
    · refine Or.inr ⟨b, ?_⟩
      rw [Function.update_of_ne, hb]
      rintro rfl
      exact hne (Option.some.inj (hb.symm.trans ha))
  · rintro (hq | ⟨b, hb⟩)
    · exact ⟨Or.inl hq, fun heq => h.foreign a r ha (heq ▸ hq)⟩
    · obtain ⟨hba, hb⟩ := hother b q hb
      exact ⟨Or.inr ⟨b, hb⟩, fun heq => hba (h.single b a q hb (heq ▸ ha))⟩

end Ledger

end LampUserspace.Ownership
