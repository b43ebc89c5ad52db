import Mathlib.Data.Set.Insert
import Mathlib.Data.List.Nodup
import Mathlib.Logic.Relation

/-! # Ordered depth-first search with a marked set

A search visits the ordered successors of a state and cuts every state that is
already marked, whether its own visit failed or is still in progress. It is
given as a big-step relation. A failed visit leaves a set closed under
successors up to the states in progress, so that nothing reachable was missed;
a successful one finds the first simple path to a goal in the order of the
successors.
-/

namespace LampUserspace.Search

variable {σ : Type*} (next : σ → List σ) (goal : σ → Prop)

/-- The states of a path from its first element to the first goal it meets. -/
inductive GoalPath : σ → List σ → Prop where

  | goal {s : σ} : goal s → GoalPath s [s]

  | step {s t : σ} {p : List σ} : ¬ goal s → t ∈ next s → GoalPath t p → GoalPath s (s :: p)

/-- A goal can be reached by steps through states outside `B`. -/
def Reaches (B : Set σ) (s : σ) : Prop :=
  ∃ p, GoalPath next goal s p ∧ ∀ u ∈ p, u ∉ B

/-- The first path leaves the second at a state where it takes an earlier successor. -/
inductive Before : List σ → List σ → Prop where

  | here {s t u : σ} {p q : List σ} {l m : List σ} :
      next s = l ++ t :: m → u ∈ m → t ≠ u → Before (s :: t :: p) (s :: u :: q)

  | there {s : σ} {p q : List σ} : Before p q → Before (s :: p) (s :: q)

/-- `p` is a simple goal path from `s` outside `B`, and precedes every other one. -/
structure FirstPath (B : Set σ) (s : σ) (p : List σ) : Prop where
  path : GoalPath next goal s p
  nodup : p.Nodup
  avoids : ∀ u ∈ p, u ∉ B
  first : ∀ q, GoalPath next goal s q → q.Nodup → (∀ u ∈ q, u ∉ B) → q = p ∨ Before next p q

/--
`Scan M l r M'`: visiting the states of `l` in order, with `M` marked, ends with `M'` marked
and the path `r` of the first visit that succeeds, if any does.
-/
inductive Scan : Set σ → List σ → Option (List σ) → Set σ → Prop where

  | nil {M : Set σ} : Scan M [] none M

  | seen {M M' : Set σ} {t : σ} {l : List σ} {r : Option (List σ)} :
      t ∈ M → Scan M l r M' → Scan M (t :: l) r M'

  | goal {M : Set σ} {t : σ} {l : List σ} :
      t ∉ M → goal t → Scan M (t :: l) (some [t]) (insert t M)

  | found {M M' : Set σ} {t : σ} {l p : List σ} : t ∉ M → ¬ goal t →
      Scan (insert t M) (next t) (some p) M' → Scan M (t :: l) (some (t :: p)) M'

  | fails {M M' M'' : Set σ} {t : σ} {l : List σ} {r : Option (List σ)} : t ∉ M → ¬ goal t →
      Scan (insert t M) (next t) none M' → Scan M' l r M'' → Scan M (t :: l) r M''

variable {next goal}

/-- Every marked state outside `G` is no goal and has only marked successors. -/
def Closed (next : σ → List σ) (goal : σ → Prop) (G M : Set σ) : Prop :=
  ∀ u ∈ M, u ∉ G → ¬ goal u ∧ ∀ v ∈ next u, v ∈ M

theorem closed_self (G : Set σ) : Closed next goal G G := fun _ hu hn => absurd hu hn

theorem GoalPath.eq_cons {s : σ} {p : List σ} (h : GoalPath next goal s p) :
    ∃ q, p = s :: q := by
  cases h with
  | goal _ => exact ⟨[], rfl⟩
  | step _ _ _ => exact ⟨_, rfl⟩

/-- A goal path from a marked state has to pass one of the excepted states. -/
theorem Closed.no_path {G M : Set σ} (hc : Closed next goal G M) {s : σ} {p : List σ}
    (hs : s ∈ M) (hp : GoalPath next goal s p) : ∃ u ∈ p, u ∈ G := by
  induction hp with
  | @goal s hg =>
    by_contra hn
    exact (hc s hs fun hG => hn ⟨s, by simp, hG⟩).1 hg
  | @step s t p _ ht _ ih =>
    by_cases hG : s ∈ G
    · exact ⟨s, by simp, hG⟩
    · obtain ⟨u, hu, huG⟩ := ih ((hc s hs hG).2 t ht)
      exact ⟨u, by simp [hu], huG⟩

theorem Closed.insert {G M : Set σ} (hc : Closed next goal G M) (s : σ) :
    Closed next goal (insert s G) (insert s M) := by
  intro u hu hn
  have hus : u ≠ s := fun he => hn (he ▸ Set.mem_insert _ _)
  have huM : u ∈ M := Set.mem_of_mem_insert_of_ne hu hus
  obtain ⟨hg, hv⟩ := hc u huM fun h => hn (Set.mem_insert_of_mem _ h)
  exact ⟨hg, fun v h => Set.mem_insert_of_mem _ (hv v h)⟩

/-! ## What a search has established -/

theorem Scan.subset {M M' : Set σ} {l : List σ} {r : Option (List σ)}
    (h : Scan next goal M l r M') : M ⊆ M' := by
  induction h with
  | nil => exact subset_rfl
  | seen _ _ ih => exact ih
  | goal _ _ => exact Set.subset_insert _ _
  | found _ _ _ ih => exact (Set.subset_insert _ _).trans ih
  | fails _ _ _ _ ih ih' => exact ((Set.subset_insert _ _).trans ih).trans ih'

/-- A failed search marks all it was given and keeps the marked set closed. -/
theorem Scan.closed {M M' : Set σ} {l : List σ} {r : Option (List σ)}
    (h : Scan next goal M l r M') (hr : r = none) :
    (∀ t ∈ l, t ∈ M') ∧ ∀ G, Closed next goal G M → Closed next goal G M' := by
  induction h with
  | nil => exact ⟨by simp, fun _ hc => hc⟩
  | seen ht hs ih =>
    obtain ⟨hmem, hcl⟩ := ih hr
    exact ⟨List.forall_mem_cons.mpr ⟨hs.subset ht, hmem⟩, hcl⟩
  | goal _ _ => cases hr
  | found _ _ _ _ => cases hr
  | @fails M M₁ M₂ t l r ht hg hv hs ih ih' =>
    obtain ⟨hnext, hcl⟩ := ih rfl
    obtain ⟨hmem, hcl'⟩ := ih' hr
    have ht₁ : t ∈ M₁ := hv.subset (Set.mem_insert _ _)
    refine ⟨List.forall_mem_cons.mpr ⟨hs.subset ht₁, hmem⟩, fun G hc => hcl' G ?_⟩
    -- The visit of `t` is over, so `t` itself no longer has to be excepted.
    intro u hu hn
    by_cases he : u = t
    · subst he
      exact ⟨hg, hnext⟩
    · exact hcl (insert t G) (hc.insert t) u hu fun h => hn (Set.mem_of_mem_insert_of_ne h he)

/-- Where a successful search of a list found its path. -/
structure Found (next : σ → List σ) (goal : σ → Prop) (G M : Set σ) (l p : List σ) : Prop where
  avoids : ∀ u ∈ p, u ∉ M
  nodup : p.Nodup
  split : ∃ l₁ t l₂, l = l₁ ++ t :: l₂ ∧ GoalPath next goal t p ∧
    (∀ q, GoalPath next goal t q → q.Nodup → (∀ u ∈ q, u ∉ G) → q = p ∨ Before next p q) ∧
    ∀ u ∈ l₁, ∀ q, GoalPath next goal u q → ∃ v ∈ q, v ∈ G

/-- A further state in front of the list, all of whose paths are blocked. -/
theorem Found.cons {G M M' : Set σ} {l p : List σ} {t : σ} (h : Found next goal G M' l p)
    (hM : M ⊆ M') (ht : ∀ q, GoalPath next goal t q → ∃ v ∈ q, v ∈ G) :
    Found next goal G M (t :: l) p := by
  obtain ⟨l₁, u, l₂, rfl, hp, hq, hl⟩ := h.split
  exact ⟨fun u hu hm => h.avoids u hu (hM hm), h.nodup,
    ⟨t :: l₁, u, l₂, rfl, hp, hq, List.forall_mem_cons.mpr ⟨ht, hl⟩⟩⟩

theorem Found.step {G M : Set σ} {l p : List σ} {t : σ} (ht : t ∉ M) (hg : ¬ goal t)
    (h : Found next goal (insert t G) (insert t M) (next t) p) :
    Found next goal G M (t :: l) (t :: p) := by
  obtain ⟨l₁, u, l₂, hl, hp, hfirst, hblock⟩ := h.split
  refine ⟨?_, ?_, [], t, l, rfl, .step hg (by simp [hl]) hp, ?_, by simp⟩
  · exact List.forall_mem_cons.mpr
      ⟨ht, fun v hv hm => h.avoids v hv (Set.mem_insert_of_mem _ hm)⟩
  · exact List.nodup_cons.mpr ⟨fun hm => h.avoids t hm (Set.mem_insert _ _), h.nodup⟩
  · intro q hq hnd hav
    cases hq with
    | goal hg' => exact absurd hg' hg
    | @step _ v q _ hv hq =>
      obtain ⟨htq, hnd⟩ := List.nodup_cons.mp hnd
      have hav' : ∀ w ∈ q, w ∉ insert t G := by
        intro w hw hm
        rcases hm with rfl | hm
        · exact htq hw
        · exact hav w (List.mem_cons_of_mem _ hw) hm
      rw [hl] at hv
      rcases List.mem_append.mp hv with hv | hv
      · obtain ⟨w, hw, hm⟩ := hblock v hv q hq
        exact absurd hm (hav' w hw)
      · by_cases huv : u = v
        · subst huv
          rcases hfirst q hq hnd hav' with rfl | hb
          · exact .inl rfl
          · exact .inr (.there hb)
        · have hv : v ∈ l₂ := List.mem_of_ne_of_mem (Ne.symm huv) hv
          obtain ⟨p', rfl⟩ := hp.eq_cons
          obtain ⟨q', rfl⟩ := hq.eq_cons
          exact .inr (.here hl hv huv)

theorem Scan.found_of_some {G M M' : Set σ} {l : List σ} {r : Option (List σ)} {p : List σ}
    (h : Scan next goal M l r M') (hr : r = some p) (hc : Closed next goal G M) :
    Found next goal G M l p := by
  induction h generalizing G p with
  | nil => cases hr
  | seen ht _ ih => exact (ih hr hc).cons subset_rfl fun q hq => hc.no_path ht hq
  | @goal M t l ht hg =>
    obtain rfl : [t] = p := Option.some.inj hr
    refine ⟨by simpa using ht, by simp, [], t, l, rfl, .goal hg, ?_, by simp⟩
    intro q hq hnd _
    cases hq with
    | goal _ => exact .inl rfl
    | step hg' _ _ => exact absurd hg hg'
  | @found M M' t l p' ht hg _ ih =>
    obtain rfl : t :: p' = p := Option.some.inj hr
    exact Found.step ht hg (ih rfl (hc.insert t))
  | @fails M M₁ M₂ t l r ht hg hv _ ih ih' =>
    have hc₁ : Closed next goal G M₁ :=
      ((Scan.fails ht hg hv Scan.nil).closed rfl).2 G hc
    have ht₁ : t ∈ M₁ := hv.subset (Set.mem_insert _ _)
    exact (ih' hr hc₁).cons ((Set.subset_insert _ _).trans hv.subset)
      fun q hq => hc₁.no_path ht₁ hq

/-! ## Visiting one state -/

theorem Scan.cons_of_some {M M' : Set σ} {t : σ} {l p : List σ}
    (h : Scan next goal M [t] (some p) M') : Scan next goal M (t :: l) (some p) M' := by
  cases h with
  | seen _ hs => cases hs
  | goal ht hg => exact .goal ht hg
  | found ht hg hs => exact .found ht hg hs
  | fails _ _ _ hs => cases hs

theorem Scan.cons_of_none {M M' M'' : Set σ} {t : σ} {l : List σ} {r : Option (List σ)}
    (h : Scan next goal M [t] none M') (h' : Scan next goal M' l r M'') :
    Scan next goal M (t :: l) r M'' := by
  cases h with
  | seen ht hs => cases hs; exact .seen ht h'
  | fails ht hg hv hs => cases hs; exact .fails ht hg hv h'

/-- A visit that fails leaves no goal within reach, short of passing a state marked before. -/
theorem Scan.not_reaches {M M' : Set σ} {s : σ} (h : Scan next goal M [s] none M') :
    ¬ Reaches next goal M s := by
  rintro ⟨p, hp, hav⟩
  obtain ⟨hmem, hcl⟩ := h.closed rfl
  obtain ⟨u, hu, hm⟩ := (hcl M (closed_self M)).no_path (hmem s (by simp)) hp
  exact hav u hu hm

/-- A visit that succeeds returns the first simple path outside the states marked before. -/
theorem Scan.firstPath {M M' : Set σ} {s : σ} {p : List σ}
    (h : Scan next goal M [s] (some p) M') : FirstPath next goal M s p := by
  have hf := h.found_of_some rfl (closed_self M)
  obtain ⟨l₁, t, l₂, hl, hp, hfirst, -⟩ := hf.split
  obtain ⟨rfl, hl⟩ | ⟨_, _, hl⟩ := List.cons_eq_append_iff.mp hl
  · obtain ⟨rfl, rfl⟩ := List.cons.inj hl
    exact ⟨hp, hf.nodup, hf.avoids, hfirst⟩
  · simp at hl

theorem Scan.isSome_iff {M M' : Set σ} {s : σ} {r : Option (List σ)}
    (h : Scan next goal M [s] r M') : r.isSome ↔ Reaches next goal M s := by
  cases r with
  | none => simpa using h.not_reaches
  | some p => simpa using ⟨p, h.firstPath.path, h.firstPath.avoids⟩

/-! ## Reachability -/

def Step (next : σ → List σ) (s t : σ) : Prop := t ∈ next s

abbrev Reachable (next : σ → List σ) : σ → σ → Prop := Relation.ReflTransGen (Step next)

/-- What holds of a state and is kept by every step holds of all that can be reached from it. -/
theorem Reachable.invariant {I : σ → Prop} {s t : σ} (h : Reachable next s t) (hs : I s)
    (hstep : ∀ u, I u → ∀ v ∈ next u, I v) : I t := by
  induction h with
  | refl => exact hs
  | tail _ ht ih => exact hstep _ ih _ ht

theorem GoalPath.reachable {s : σ} {p : List σ} (h : GoalPath next goal s p) :
    ∃ t, Reachable next s t ∧ goal t := by
  induction h with
  | @goal s hg => exact ⟨s, .refl, hg⟩
  | step _ ht _ ih =>
    obtain ⟨u, hu, hg⟩ := ih
    exact ⟨u, .head ht hu, hg⟩

theorem Reachable.goalPath {s t : σ} (h : Reachable next s t) (hg : goal t) :
    ∃ p, GoalPath next goal s p := by
  induction h using Relation.ReflTransGen.head_induction_on with
  | refl => exact ⟨_, .goal hg⟩
  | @head s u hs _ ih =>
    by_cases hsg : goal s
    · exact ⟨_, .goal hsg⟩
    · obtain ⟨p, hp⟩ := ih
      exact ⟨_, .step hsg hs hp⟩

theorem reaches_empty_iff {s : σ} :
    Reaches next goal ∅ s ↔ ∃ t, Reachable next s t ∧ goal t := by
  constructor
  · rintro ⟨p, hp, -⟩
    exact hp.reachable
  · rintro ⟨t, ht, hg⟩
    obtain ⟨p, hp⟩ := ht.goalPath hg
    exact ⟨p, hp, fun _ _ => id⟩

theorem GoalPath.reachable_of_mem {s u : σ} {p : List σ} (h : GoalPath next goal s p)
    (hu : u ∈ p) : Reachable next s u ∧ ∃ q, GoalPath next goal u q := by
  induction h with
  | @goal s hg =>
    obtain rfl : u = s := by simpa using hu
    exact ⟨.refl, _, .goal hg⟩
  | @step s t p hn ht hp ih =>
    rcases List.mem_cons.mp hu with rfl | hu
    · exact ⟨.refl, _, .step hn ht hp⟩
    · exact ⟨.head ht (ih hu).1, (ih hu).2⟩

/-- A search marks only what can be reached from where it started. -/
theorem Scan.reachable {M M' : Set σ} {l : List σ} {r : Option (List σ)}
    (h : Scan next goal M l r M') : ∀ u ∈ M', u ∈ M ∨ ∃ t ∈ l, Reachable next t u := by
  have hins : ∀ {M : Set σ} {t u : σ} {l : List σ},
      (u ∈ insert t M ∨ ∃ v ∈ next t, Reachable next v u) →
        u ∈ M ∨ ∃ v ∈ t :: l, Reachable next v u := by
    rintro M t u l ((rfl | hu) | ⟨v, hv, hu⟩)
    · exact .inr ⟨u, by simp, .refl⟩
    · exact .inl hu
    · exact .inr ⟨t, by simp, .head hv hu⟩
  induction h with
  | nil => exact fun u hu => .inl hu
  | seen _ _ ih =>
    intro u hu
    rcases ih u hu with hu | ⟨v, hv, hu⟩
    · exact .inl hu
    · exact .inr ⟨v, by simp [hv], hu⟩
  | goal _ _ => exact fun u hu => hins (.inl hu)
  | found _ _ _ ih => exact fun u hu => hins (ih u hu)
  | fails _ _ _ _ ih ih' =>
    intro u hu
    rcases ih' u hu with hu | ⟨v, hv, hu⟩
    · exact hins (ih u hu)
    · exact .inr ⟨v, by simp [hv], hu⟩

def Dead (next : σ → List σ) (goal : σ → Prop) (s : σ) : Prop :=
  ¬ ∃ t, Reachable next s t ∧ goal t

theorem Dead.of_reachable {s t : σ} (h : Dead next goal s) (ht : Reachable next s t) :
    Dead next goal t := by
  rintro ⟨u, hu, hg⟩
  exact h ⟨u, ht.trans hu, hg⟩

theorem Reaches.of_dead {B B' : Set σ} {s : σ} (h : Reaches next goal B s)
    (hB : ∀ u ∈ B', u ∈ B ∨ Dead next goal u) : Reaches next goal B' s := by
  obtain ⟨p, hp, hav⟩ := h
  refine ⟨p, hp, fun u hu hm => ?_⟩
  rcases hB u hm with hm | hdead
  · exact hav u hu hm
  · obtain ⟨-, q, hq⟩ := hp.reachable_of_mem hu
    exact hdead hq.reachable

/-! ## The first path -/

theorem Before.eq_head {s t : σ} {p q : List σ} (h : Before next (s :: p) (t :: q)) : s = t := by
  cases h <;> rfl

/-- With two successors at most the order of the paths is a strict one. -/
theorem Before.asymm (htwo : ∀ s, (next s).length ≤ 2) {p q : List σ} (h : Before next p q) :
    ¬ Before next q p := by
  induction h with
  | @here s t u p q l m hl hu hne =>
    intro h'
    cases h' with
    | @here _ _ _ _ _ l' m' hl' ht _ =>
      have hlength := htwo s
      have hl₀ : l = [] ∧ m.length = 1 := by
        have hpos := List.length_pos_of_mem hu
        simp only [hl, List.length_append, List.length_cons] at hlength
        exact ⟨List.eq_nil_of_length_eq_zero (by omega), by omega⟩
      have hl'₀ : l' = [] := by
        have hpos := List.length_pos_of_mem ht
        simp only [hl', List.length_append, List.length_cons] at hlength
        exact List.eq_nil_of_length_eq_zero (by omega)
      rw [hl, hl₀.1, hl'₀] at hl'
      exact hne (List.cons.inj hl').1
    | there h' => exact hne h'.eq_head.symm
  | @there s p q h ih =>
    intro h'
    cases h' with
    | here _ _ hne => exact hne h.eq_head.symm
    | there h' => exact ih h'

theorem FirstPath.unique (htwo : ∀ s, (next s).length ≤ 2) {B : Set σ} {s : σ} {p q : List σ}
    (hp : FirstPath next goal B s p) (hq : FirstPath next goal B s q) : p = q := by
  rcases hp.first q hq.path hq.nodup hq.avoids with he | hpq
  · exact he.symm
  · rcases hq.first p hp.path hp.nodup hp.avoids with he | hqp
    · exact he
    · exact absurd hqp (hpq.asymm htwo)

/-- Sets that differ in dead states only have the same paths around them. -/
theorem FirstPath.of_dead {B B' : Set σ} {s : σ} {p : List σ} (h : FirstPath next goal B s p)
    (hB : ∀ u ∈ B, u ∈ B' ∨ Dead next goal u) (hB' : ∀ u ∈ B', u ∈ B ∨ Dead next goal u) :
    FirstPath next goal B' s p := by
  have havoid : ∀ {B B' : Set σ}, (∀ u ∈ B', u ∈ B ∨ Dead next goal u) →
      ∀ q, GoalPath next goal s q → (∀ u ∈ q, u ∉ B) → ∀ u ∈ q, u ∉ B' := by
    intro B B' hB q hq hav u hu hm
    rcases hB u hm with hm | hdead
    · exact hav u hu hm
    · obtain ⟨-, q', hq'⟩ := hq.reachable_of_mem hu
      exact hdead hq'.reachable
  exact ⟨h.path, h.nodup, havoid hB' p h.path h.avoids,
    fun q hq hnd hav => h.first q hq hnd (havoid hB q hq hav)⟩

end LampUserspace.Search
