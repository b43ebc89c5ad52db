import LampUserspace.Regex.Steps
import LampUserspace.Regex.Syntax

/-! # Relocatable code

Code is compared up to the operands an instruction does not branch to, with
branch targets taken relative to the start of the code. `Extends A P ℓ S` says
that `P` is the program `A` followed by the code `S`, where the targets in `A`
that pointed just past its end have been displaced by `ℓ`.
-/

namespace LampUserspace.Regex

namespace ReInst

def mapTargets (f : Int → Int) (i : ReInst) : ReInst :=
  match i.op with
  | .reSplit => { i with x := f i.x, y := f i.y }
  | .reJmp => { i with x := f i.x }
  | _ => i

def clean (i : ReInst) : ReInst :=
  match i.op with
  | .reSplit => i
  | .reJmp => { i with y := 0 }
  | _ => { i with x := 0, y := 0 }

variable (i : ReInst) (f g : Int → Int)

@[simp] theorem op_mapTargets : (i.mapTargets f).op = i.op := by
  unfold mapTargets; split <;> rfl

@[simp] theorem op_clean : i.clean.op = i.op := by
  unfold clean; split <;> rfl

@[simp] theorem targets_clean : i.clean.targets = i.targets := by
  obtain ⟨op, _, _, _, _⟩ := i; cases op <;> rfl

@[simp] theorem targets_mapTargets : (i.mapTargets f).targets = i.targets.map f := by
  obtain ⟨op, _, _, _, _⟩ := i; cases op <;> rfl

@[simp] theorem clean_clean : i.clean.clean = i.clean := by
  obtain ⟨op, _, _, _, _⟩ := i; cases op <;> rfl

@[simp] theorem mapTargets_mapTargets : (i.mapTargets f).mapTargets g = i.mapTargets (g ∘ f) := by
  obtain ⟨op, _, _, _, _⟩ := i; cases op <;> rfl

variable {i f g}

theorem mapTargets_congr (h : ∀ t ∈ i.targets, f t = g t) : i.mapTargets f = i.mapTargets g := by
  obtain ⟨op, _, _, _, _⟩ := i
  cases op <;> simp_all [mapTargets, targets]

theorem mapTargets_eq_self (h : ∀ t ∈ i.targets, f t = t) : i.mapTargets f = i := by
  obtain ⟨op, _, _, _, _⟩ := i
  cases op <;> simp_all [mapTargets, targets]

end ReInst

/-- The relocation of `re_insert` on one target. -/
def bumpFrom (index : ℕ) (v : Int) : Int := if v ≥ index then v + 1 else v

/-- The relocation of `re_copy_block` on one target. -/
def moveIn (start stop delta : Int) (v : Int) : Int :=
  if v ≥ start ∧ v ≤ stop then v + delta else v

/-- Displace by `ℓ` the targets from `n` on. -/
def bumpAt (n ℓ : ℕ) (v : Int) : Int := if v ≥ n then v + ℓ else v

theorem clean_shiftFrom (index : ℕ) (i : ReInst) :
    (i.shiftFrom index).clean = i.clean.mapTargets (bumpFrom index) := by
  obtain ⟨op, _, _, _, _⟩ := i; cases op <;> rfl

theorem clean_moveWithin (start stop delta : Int) (i : ReInst) :
    (i.moveWithin start stop delta).clean = i.clean.mapTargets (moveIn start stop delta) := by
  obtain ⟨op, _, _, _, _⟩ := i; cases op <;> rfl

/-- Relative code placed at `base`. -/
def reloc (base : ℕ) (code : List ReInst) : List ReInst :=
  code.map (ReInst.mapTargets (· + base))

@[simp] theorem reloc_nil (base : ℕ) : reloc base [] = [] := rfl

@[simp] theorem reloc_cons (base : ℕ) (i : ReInst) (code : List ReInst) :
    reloc base (i :: code) = i.mapTargets (· + base) :: reloc base code := rfl

@[simp] theorem reloc_append (base : ℕ) (code code' : List ReInst) :
    reloc base (code ++ code') = reloc base code ++ reloc base code' := by simp [reloc]

@[simp] theorem length_reloc (base : ℕ) (code : List ReInst) :
    (reloc base code).length = code.length := by simp [reloc]

theorem reloc_reloc (base base' : ℕ) (code : List ReInst) :
    reloc base (reloc base' code) = reloc (base' + base) code := by
  simp only [reloc, List.map_map]
  refine List.map_congr_left fun i _ => ?_
  rw [Function.comp_apply, ReInst.mapTargets_mapTargets]
  refine ReInst.mapTargets_congr fun t _ => ?_
  simp only [Function.comp_apply]
  omega

/-- All branch targets lie in the code or just past its end. -/
def Enclosed (code : List ReInst) : Prop :=
  ∀ i ∈ code, ∀ t ∈ i.targets, 0 ≤ t ∧ t ≤ code.length

/--
`P` is `A` followed by the relative code `S`, with the exits of `A` displaced by `ℓ`. The new
code saves no position in slot zero, and what did so before still does.
-/
structure Extends (A P : List ReInst) (ℓ : ℕ) (S : List ReInst) : Prop where
  length : P.length = A.length + S.length
  code : (P.drop A.length).map ReInst.clean = reloc A.length S
  slots : ∀ i ∈ P.drop A.length, i.op = .reSave → 1 ≤ i.x
  kept : ∀ (q : ℕ) (i : ReInst), A[q]? = some i → (∀ t ∈ i.targets, t ≤ A.length) →
    ∃ i' : ReInst, P[q]? = some i' ∧ i'.clean = i.clean.mapTargets (bumpAt A.length ℓ) ∧
      (i.op = .reSave → (i.x = 0 → i'.x = 0) ∧ (1 ≤ i.x → 1 ≤ i'.x))

/-- The code `S` followed by `T`, where `T` displaces the exits of `S` by `m`. -/
def join (S : List ReInst) (m : ℕ) (T : List ReInst) : List ReInst :=
  S.map (ReInst.mapTargets (bumpAt S.length m)) ++ reloc S.length T

@[simp] theorem length_join (S : List ReInst) (m : ℕ) (T : List ReInst) :
    (join S m T).length = S.length + T.length := by simp [join]

@[simp] theorem length_copyBlock (program : List ReInst) {start stop : ℕ}
    (h : stop ≤ program.length) :
    (copyBlock program start stop).length = program.length + (stop - start) := by
  simp [copyBlock]; omega

namespace Extends

variable {A P Q S T : List ReInst} {ℓ m : ℕ}

theorem refl (A : List ReInst) : Extends A A 0 [] := by
  refine ⟨rfl, by simp, by simp, fun q i hq _ => ⟨i, hq, ?_, fun _ => ⟨id, id⟩⟩⟩
  rw [ReInst.mapTargets_eq_self]
  intro t _
  simp [bumpAt]

/-- The instruction of `P` behind the one at `k` of the relative code. -/
theorem getElem? (h : Extends A P ℓ S) {k : ℕ} {j : ReInst} (hk : S[k]? = some j) :
    ∃ i, P[A.length + k]? = some i ∧ i.clean = j.mapTargets (· + A.length) := by
  have hc := congrArg (·[k]?) h.code
  simp only [reloc, List.getElem?_map, List.getElem?_drop, hk, Option.map_some] at hc
  obtain ⟨i, hi, he⟩ := Option.map_eq_some_iff.mp hc
  exact ⟨i, hi, he⟩

theorem append (h : Extends A P ℓ S) {i j : ReInst} (hij : i.clean = j.mapTargets (· + A.length))
    (hi : i.op = .reSave → 1 ≤ i.x) : Extends A (P ++ [i]) ℓ (S ++ [j]) := by
  have hle : A.length ≤ P.length := by have := h.length; omega
  refine ⟨by simp [h.length]; omega, ?_, fun k hk => ?_, fun q k hq ht => ?_⟩
  · rw [List.drop_append_of_le_length hle, List.map_append, h.code]
    simp [hij]
  · rw [List.drop_append_of_le_length hle] at hk
    rcases List.mem_append.mp hk with hk | hk
    · exact h.slots k hk
    · obtain rfl := List.mem_singleton.mp hk
      exact hi
  · obtain ⟨i', hi', he⟩ := h.kept q k hq ht
    exact ⟨i', by rw [List.getElem?_append_left (List.getElem?_eq_some_iff.mp hi').1, hi'], he⟩

theorem modify (h : Extends A P ℓ S) {k : ℕ} {f : ReInst → ReInst} {j j' : ReInst}
    (hj : S[k]? = some j) (hf : ∀ i : ReInst, i.clean = j.mapTargets (· + A.length) →
      (f i).clean = j'.mapTargets (· + A.length)) (hop : j'.op ≠ .reSave) :
    Extends A (P.modify (A.length + k) f) ℓ (S.set k j') := by
  refine ⟨by simp [h.length], ?_, fun i hi hs => ?_, fun q i hq ht => ?_⟩
  · refine List.ext_getElem? fun q => ?_
    have hc := congrArg (·[q]?) h.code
    simp only [reloc, List.getElem?_map, List.getElem?_drop] at hc ⊢
    by_cases hq : k = q
    · subst hq
      obtain ⟨i, hi, he⟩ := h.getElem? hj
      have hk : k < S.length := (List.getElem?_eq_some_iff.mp hj).1
      simp [hi, hk, hf i he]
    · rw [List.getElem?_modify_ne _ _ (by omega), List.getElem?_set_ne hq, hc]
  · obtain ⟨q, hq⟩ := List.mem_iff_getElem?.mp hi
    rw [List.getElem?_drop] at hq
    by_cases hk : k = q
    · subst hk
      obtain ⟨i', hi', he⟩ := h.getElem? hj
      rw [List.getElem?_modify_eq, hi'] at hq
      obtain rfl : f i' = i := Option.some.inj hq
      have := congrArg ReInst.op (hf i' he)
      rw [ReInst.op_clean, ReInst.op_mapTargets] at this
      exact absurd (this ▸ hs) hop
    · rw [List.getElem?_modify_ne _ _ (by omega)] at hq
      exact h.slots i (List.mem_iff_getElem?.mpr ⟨q, by rwa [List.getElem?_drop]⟩) hs
  · obtain ⟨i', hi', he⟩ := h.kept q i hq ht
    have hlt : q < A.length := (List.getElem?_eq_some_iff.mp hq).1
    exact ⟨i', by rw [List.getElem?_modify_ne _ _ (by omega), hi'], he⟩

theorem insert (h : Extends A P ℓ S) (hS : ∀ i ∈ S, ∀ t ∈ i.targets, 0 ≤ t) :
    Extends A (insertAt P A.length) (ℓ + 1) (ReInst.zero :: reloc 1 S) := by
  have hle : A.length ≤ P.length := by have := h.length; omega
  have hlen : (P.take A.length).length = A.length := by simp [hle]
  have hdrop : (insertAt P A.length).drop A.length =
      ReInst.zero.shiftFrom A.length :: (P.drop A.length).map (ReInst.shiftFrom A.length) := by
    rw [insertAt, List.map_append, List.drop_append_of_le_length (by simp [hle]),
      List.drop_eq_nil_of_le (by simp [hle])]
    rfl
  refine ⟨by simp [h.length]; omega, ?_, fun i hi hs => ?_, fun q i hq ht => ?_⟩
  · rw [hdrop]
    simp only [List.map_cons, List.map_map, reloc_cons]
    congr 1
    have hc : (P.drop A.length).map (ReInst.clean ∘ ReInst.shiftFrom A.length) =
        ((P.drop A.length).map ReInst.clean).map
          (ReInst.mapTargets (bumpFrom A.length)) := by
      simp [List.map_map, Function.comp_def, clean_shiftFrom]
    rw [hc, h.code, reloc_reloc, reloc, reloc, List.map_map]
    refine List.map_congr_left fun j hj => ?_
    rw [Function.comp_apply, ReInst.mapTargets_mapTargets]
    refine ReInst.mapTargets_congr fun t ht => ?_
    have := hS j hj t ht
    simp only [Function.comp_apply, bumpFrom]
    rw [if_pos (by omega)]
    push_cast
    omega
  · rw [hdrop] at hi
    rcases List.mem_cons.mp hi with rfl | hi
    · simp [ReInst.shiftFrom, ReInst.zero] at hs
    · obtain ⟨j, hj, rfl⟩ := List.mem_map.mp hi
      have := h.slots j hj hs
      simp only [ReInst.shiftFrom]
      split_ifs <;> omega
  · obtain ⟨i', hi', he, hz⟩ := h.kept q i hq ht
    have hlt : q < A.length := (List.getElem?_eq_some_iff.mp hq).1
    refine ⟨i'.shiftFrom A.length, ?_, ?_, fun hs => ⟨fun hx => ?_, fun hx => ?_⟩⟩
    · rw [insertAt, List.getElem?_map, List.getElem?_append_left (by omega),
        List.getElem?_take_of_lt hlt, hi']
      rfl
    · rw [clean_shiftFrom, he, ReInst.mapTargets_mapTargets]
      refine ReInst.mapTargets_congr fun t _ => ?_
      simp only [Function.comp_apply, bumpFrom, bumpAt]
      split_ifs <;> push_cast <;> omega
    · simp only [ReInst.shiftFrom, (hz hs).1 hx]
      exact if_neg (by omega)
    · have := (hz hs).2 hx
      simp only [ReInst.shiftFrom]
      split_ifs <;> omega

theorem copy (h : Extends A P ℓ S) {start stop : ℕ} (hs : start ≤ stop) (he : stop ≤ S.length) :
    Extends A (copyBlock P (A.length + start) (A.length + stop)) ℓ
      (S ++ ((S.drop start).take (stop - start)).map
        (ReInst.mapTargets (moveIn start stop (S.length - start)))) := by
  have hlen := h.length
  refine ⟨?_, ?_, fun i hi hop => ?_, fun q i hq ht => ?_⟩
  · rw [length_copyBlock _ (by omega)]
    simp [hlen]
    omega
  · rw [copyBlock, List.drop_append_of_le_length (by omega), List.map_append, h.code,
      reloc_append]
    congr 1
    have hw : (((P.drop (A.length + start)).take (A.length + stop - (A.length + start))).map
        ReInst.clean) = reloc A.length ((S.drop start).take (stop - start)) := by
      rw [List.map_take, ← List.drop_drop, List.map_drop, h.code, reloc, reloc,
        List.map_take, List.map_drop, Nat.add_sub_add_left]
    have hc : ∀ l : List ReInst, (l.map (ReInst.moveWithin (A.length + start : ℕ)
        (A.length + stop : ℕ) (P.length - (A.length + start : ℕ)))).map ReInst.clean =
        (l.map ReInst.clean).map (ReInst.mapTargets (moveIn (A.length + start : ℕ)
          (A.length + stop : ℕ) (P.length - (A.length + start : ℕ)))) := by
      simp [Function.comp_def, clean_moveWithin]
    rw [hc, hw, reloc, reloc, List.map_map, List.map_map]
    refine List.map_congr_left fun j _ => ?_
    rw [Function.comp_apply, Function.comp_apply, ReInst.mapTargets_mapTargets,
      ReInst.mapTargets_mapTargets]
    refine ReInst.mapTargets_congr fun t _ => ?_
    simp only [Function.comp_apply, moveIn, hlen]
    split_ifs <;> push_cast at * <;> omega
  · rw [copyBlock, List.drop_append_of_le_length (by omega)] at hi
    rcases List.mem_append.mp hi with hi | hi
    · exact h.slots i hi hop
    · obtain ⟨j, hj, rfl⟩ := List.mem_map.mp hi
      have hj := List.mem_of_mem_take hj
      rw [← List.drop_drop] at hj
      have := h.slots j (List.mem_of_mem_drop hj) hop
      simp only [ReInst.moveWithin]
      split_ifs <;> omega
  · obtain ⟨i', hi', he⟩ := h.kept q i hq ht
    exact ⟨i', by rw [copyBlock, List.getElem?_append_left
      (List.getElem?_eq_some_iff.mp hi').1, hi'], he⟩

section Trans

variable (h : Extends A P ℓ S) (h' : Extends P Q m T)

include h h'

/-- An instruction of the first extension, with its targets inside it, after the second one. -/
theorem kept_code (hS : ∀ i ∈ S, ∀ t ∈ i.targets, t ≤ S.length) {k : ℕ} (hk : k < S.length) :
    ∃ i i' : ReInst, P[A.length + k]? = some i ∧ i.clean = S[k].mapTargets (· + A.length) ∧
      Q[A.length + k]? = some i' ∧ i'.clean = i.clean.mapTargets (bumpAt P.length m) ∧
      (i.op = .reSave → (i.x = 0 → i'.x = 0) ∧ (1 ≤ i.x → 1 ≤ i'.x)) := by
  have hP := h.length
  obtain ⟨i, hi, he⟩ := h.getElem? (List.getElem?_eq_getElem hk)
  have hbound : ∀ t ∈ i.targets, t ≤ P.length := by
    intro t ht
    rw [← ReInst.targets_clean, he, ReInst.targets_mapTargets] at ht
    obtain ⟨u, hu, rfl⟩ := List.mem_map.mp ht
    have := hS _ (List.getElem_mem hk) u hu
    omega
  obtain ⟨i', hi', he', hz⟩ := h'.kept _ i hi hbound
  exact ⟨i, i', hi, he, hi', he', hz⟩

theorem trans_code (hS : ∀ i ∈ S, ∀ t ∈ i.targets, t ≤ S.length) :
    (Q.drop A.length).map ReInst.clean = reloc A.length (join S m T) := by
  have hP := h.length
  refine List.ext_getElem? fun k => ?_
  simp only [reloc, join, List.map_append, List.map_map, List.getElem?_map, List.getElem?_drop]
  by_cases hk : k < S.length
  · obtain ⟨i, i', -, he, hi', he', -⟩ := h.kept_code h' hS hk
    rw [hi', List.getElem?_append_left (by simpa using hk), List.getElem?_map,
      List.getElem?_eq_getElem hk, Option.map_some, Option.map_some, he', he,
      ReInst.mapTargets_mapTargets, Function.comp_apply, ReInst.mapTargets_mapTargets]
    congr 1
    refine ReInst.mapTargets_congr fun t _ => ?_
    simp only [Function.comp_apply, bumpAt, hP]
    split_ifs <;> push_cast at * <;> omega
  · obtain ⟨j, rfl⟩ : ∃ j, k = S.length + j := ⟨k - S.length, by omega⟩
    have hc := congrArg (·[j]?) h'.code
    simp only [reloc, List.getElem?_map, List.getElem?_drop, hP] at hc
    rw [← Nat.add_assoc, hc, List.getElem?_append_right (by simp), List.getElem?_map]
    simp only [List.length_map, Nat.add_sub_cancel_left]
    congr 1
    funext i
    rw [Function.comp_apply, ReInst.mapTargets_mapTargets]
    refine ReInst.mapTargets_congr fun t _ => ?_
    simp only [Function.comp_apply]
    push_cast
    omega

theorem trans_slots (hS : ∀ i ∈ S, ∀ t ∈ i.targets, t ≤ S.length) :
    ∀ i ∈ Q.drop A.length, i.op = .reSave → 1 ≤ i.x := by
  intro i hi hop
  obtain ⟨k, hk⟩ := List.mem_iff_getElem?.mp hi
  rw [List.getElem?_drop] at hk
  by_cases hlt : k < S.length
  · obtain ⟨j, i', hj, -, hi', he', hz⟩ := h.kept_code h' hS hlt
    obtain rfl : i = i' := Option.some.inj (hk.symm.trans hi')
    have hjop : j.op = .reSave := by
      rw [← hop, ← ReInst.op_clean i, he', ReInst.op_mapTargets, ReInst.op_clean]
    refine (hz hjop).2 (h.slots j (List.mem_iff_getElem?.mpr ⟨k, ?_⟩) hjop)
    rwa [List.getElem?_drop]
  · obtain ⟨j, rfl⟩ : ∃ j, k = S.length + j := ⟨k - S.length, by omega⟩
    refine h'.slots i (List.mem_iff_getElem?.mpr ⟨j, ?_⟩) hop
    rwa [List.getElem?_drop, h.length, Nat.add_assoc]

theorem trans_kept (hℓ : ℓ ≤ S.length) {q : ℕ} {i : ReInst} (hq : A[q]? = some i)
    (ht : ∀ t ∈ i.targets, t ≤ A.length) : ∃ i' : ReInst, Q[q]? = some i' ∧
      i'.clean = i.clean.mapTargets (bumpAt A.length (if ℓ = S.length then ℓ + m else ℓ)) ∧
      (i.op = .reSave → (i.x = 0 → i'.x = 0) ∧ (1 ≤ i.x → 1 ≤ i'.x)) := by
  have hP := h.length
  obtain ⟨i', hi', he, hz⟩ := h.kept q i hq ht
  have ht' : ∀ t ∈ i'.targets, t ≤ P.length := by
    rw [← ReInst.targets_clean, he, ReInst.targets_mapTargets, ReInst.targets_clean]
    intro t htm
    obtain ⟨u, hu, rfl⟩ := List.mem_map.mp htm
    have := ht u hu
    unfold bumpAt
    split_ifs <;> omega
  obtain ⟨i'', hi'', he'', hz'⟩ := h'.kept q i' hi' ht'
  refine ⟨i'', hi'', ?_, fun hs => ?_⟩
  · rw [he'', he, ReInst.mapTargets_mapTargets]
    refine ReInst.mapTargets_congr fun t htm => ?_
    have := ht t (by simpa using htm)
    simp only [Function.comp_apply, bumpAt, hP]
    split_ifs <;> push_cast at * <;> omega
  · have hs' : i'.op = .reSave := by
      rw [← hs, ← ReInst.op_clean i', he, ReInst.op_mapTargets, ReInst.op_clean]
    exact ⟨fun hx => (hz' hs').1 ((hz hs).1 hx), fun hx => (hz' hs').2 ((hz hs).2 hx)⟩

/-- One extension after another; the second displaces what the first has left at its end. -/
theorem trans (hS : ∀ i ∈ S, ∀ t ∈ i.targets, t ≤ S.length) (hℓ : ℓ ≤ S.length) :
    Extends A Q (if ℓ = S.length then ℓ + m else ℓ) (join S m T) where
  length := by
    rw [h'.length, h.length, length_join, Nat.add_assoc]
  code := h.trans_code h' hS
  slots := h.trans_slots h' hS
  kept q i hq ht := h.trans_kept h' hℓ hq ht

end Trans

end Extends

end LampUserspace.Regex
