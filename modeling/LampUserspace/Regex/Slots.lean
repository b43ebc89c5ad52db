import LampUserspace.Regex.Regcomp
import LampUserspace.Tracking.Lists

/-! # Capture slots

`re_insert` and `re_copy_block` relocate the operand `x` of every instruction,
also of a `RE_SAVE`, where it is a capture slot and no address. The slots of a
compiled pattern are compared with those its groups were given.
-/

namespace LampUserspace.Regex

open Tracking

def ReInst.slot (i : ReInst) : Option Int := if i.op = .reSave then some i.x else none

def slotsOf (program : List ReInst) : List (Option Int) := program.map ReInst.slot

/-! ## The slots that the groups are given -/

def copiesSlots : ℕ → List (Option Int) → List (Option Int) → List (Option Int)
  | 0, L, _ => L
  | n + 1, L, W => copiesSlots n (L ++ W) W

def optCopiesSlots : ℕ → List (Option Int) → List (Option Int) → List (Option Int)
  | 0, L, _ => L
  | n + 1, L, W => optCopiesSlots n (L ++ none :: W) W

/-- The slots of a quantified atom; the copies of `{0,n}` begin at its split. -/
def quantSlots (L : List (Option Int)) : Quantifier → List (Option Int)
  | .one => L
  | .star | .interval 0 none => none :: L ++ [none]
  | .plus => L ++ [none]
  | .question => none :: L
  | .interval 0 (some max) => optCopiesSlots (max - 1) (none :: L) ((none :: L).take L.length)
  | .interval (min + 1) none => copiesSlots min L L ++ none :: L ++ [none]
  | .interval (min + 1) (some max) => optCopiesSlots (max - (min + 1)) (copiesSlots min L L) L

mutual

def Atom.captures : Atom → ℕ
  | .leaf _ => 0
  | .group false body => body.captures
  | .group true body => body.captures + 1

def Sequence.captures : Sequence → ℕ
  | .nil => 0
  | .cons a _ rest => a.captures + rest.captures

def Alternation.captures : Alternation → ℕ
  | .last branch => branch.captures
  | .more branch rest => branch.captures + rest.captures

end

mutual

/-- The slots of a tree as its groups are opened and closed, `g` of them opened before. -/
def Atom.slots (g : ℕ) : Atom → List (Option Int)
  | .leaf _ => [none]
  | .group false body => body.slots g
  | .group true body =>
    some (((g + 1 : ℕ) : Int) * 2) :: body.slots (g + 1) ++
      [some (((g + 1 + body.captures : ℕ) : Int) * 2 + 1)]

def Sequence.slots (g : ℕ) : Sequence → List (Option Int)
  | .nil => []
  | .cons a q rest => quantSlots (a.slots g) q ++ rest.slots (g + a.captures)

def Alternation.slots (g : ℕ) : Alternation → List (Option Int)
  | .last branch => branch.slots g
  | .more branch rest =>
    none :: branch.slots g ++ none :: rest.branchSlots (g + branch.captures)

def Alternation.branchSlots (g : ℕ) : Alternation → List (Option Int)
  | .last branch => none :: branch.slots g ++ [none]
  | .more branch rest =>
    none :: branch.slots g ++ none :: rest.branchSlots (g + branch.captures)

end

/-! ## When they are left alone -/

/-- No slot is as large as the address at which code is inserted. -/
def below (index : ℕ) (I : List (Option Int)) : Bool := I.all (·.all (· < (index : Int)))

/-- No slot lies among the addresses of the code that is copied. -/
def outside (start stop : ℕ) (I : List (Option Int)) : Bool :=
  I.all (·.all fun x => !((start : Int) ≤ x && x ≤ (stop : Int)))

/-- The quantifier leaves the slots alone: those before the atom are `I`, its own are `L`. -/
def quantIntact (I L : List (Option Int)) : Quantifier → Bool
  | .one | .plus => true
  | .star | .question | .interval 0 _ => below I.length (I ++ L)
  | .interval (_ + 1) none => outside I.length (I.length + L.length) L
  | .interval (min + 1) (some max) =>
    min = 0 && max ≤ 1 || outside I.length (I.length + L.length) L

mutual

/-- Compiling the tree leaves the slots alone: `I` are those of the program before it. -/
def Atom.intact (g : ℕ) (I : List (Option Int)) : Atom → Bool
  | .leaf _ => true
  | .group false body => body.intact g I
  | .group true body => body.intact (g + 1) (I ++ [some (((g + 1 : ℕ) : Int) * 2)])

def Sequence.intact (g : ℕ) (I : List (Option Int)) : Sequence → Bool
  | .nil => true
  | .cons a q rest =>
    a.intact g I && quantIntact I (a.slots g) q &&
      rest.intact (g + a.captures) (I ++ quantSlots (a.slots g) q)

def Alternation.intact (g : ℕ) (I : List (Option Int)) : Alternation → Bool
  | .last branch => branch.intact g I
  | .more branch rest =>
    branch.intact g I && below I.length (I ++ branch.slots g) &&
      rest.branchesIntact (g + branch.captures) (I ++ none :: branch.slots g ++ [none])

def Alternation.branchesIntact (g : ℕ) (I : List (Option Int)) : Alternation → Bool
  | .last branch => branch.intact g (I ++ [none])
  | .more branch rest =>
    branch.intact g (I ++ [none]) &&
      rest.branchesIntact (g + branch.captures) (I ++ none :: branch.slots g ++ [none])

end

/-! ## The operations of the compiler -/

section Operations

variable {P : List ReInst} {X I L : List (Option Int)} {C : Prop}

@[simp] theorem length_slotsOf (P : List ReInst) : (slotsOf P).length = P.length := by
  simp [slotsOf]

@[simp] theorem slotsOf_append (P Q : List ReInst) :
    slotsOf (P ++ Q) = slotsOf P ++ slotsOf Q := by simp [slotsOf]

theorem slot_shiftFrom (index : ℕ) (i : ReInst) :
    (i.shiftFrom index).slot = i.slot.map (bumpFrom index) := by
  unfold ReInst.slot
  by_cases h : i.op = .reSave <;> simp [ReInst.shiftFrom, bumpFrom, h]

theorem slot_moveWithin (start stop delta : Int) (i : ReInst) :
    (i.moveWithin start stop delta).slot = i.slot.map (moveIn start stop delta) := by
  unfold ReInst.slot
  by_cases h : i.op = .reSave <;> simp [ReInst.moveWithin, moveIn, h]

theorem slotsOf_insertAt (P : List ReInst) (index : ℕ) : slotsOf (insertAt P index) =
    ((slotsOf P).take index ++ none :: (slotsOf P).drop index).map
      (Option.map (bumpFrom index)) := by
  have hslot : ReInst.slot ∘ ReInst.shiftFrom index =
      Option.map (bumpFrom index) ∘ ReInst.slot := funext fun i => slot_shiftFrom index i
  simp only [slotsOf, insertAt, List.map_map, hslot, List.map_append, List.map_cons,
    List.map_take, List.map_drop]
  rfl

theorem slotsOf_copyBlock (P : List ReInst) (start stop : ℕ) : slotsOf (copyBlock P start stop) =
    slotsOf P ++ (((slotsOf P).drop start).take (stop - start)).map
      (Option.map (moveIn start stop (P.length - start))) := by
  have hslot : ∀ delta : Int, ReInst.slot ∘ ReInst.moveWithin start stop delta =
      Option.map (moveIn start stop delta) ∘ ReInst.slot :=
    fun delta => funext fun i => slot_moveWithin _ _ _ i
  simp only [slotsOf, copyBlock, List.map_append, List.map_map, hslot, List.map_take,
    List.map_drop]

/-- Rewriting an instruction that saves nothing, into another that saves nothing. -/
theorem slotsOf_modify {k : ℕ} {f : ReInst → ReInst}
    (hf : ∀ i : ReInst, i.slot = none → (f i).slot = none)
    (hk : (slotsOf P)[k]? = some none) : slotsOf (P.modify k f) = slotsOf P := by
  apply List.ext_getElem?
  intro q
  simp only [slotsOf, List.getElem?_map] at hk ⊢
  by_cases hq : k = q
  · subst hq
    obtain ⟨i, hi, hslot⟩ := Option.map_eq_some_iff.mp hk
    simp [hi, hslot, hf i hslot]
  · rw [List.getElem?_modify_ne _ _ hq]

theorem le_bumpFrom (index : ℕ) (x : Int) : x ≤ bumpFrom index x := by
  unfold bumpFrom
  split_ifs <;> omega

theorem le_moveIn (start stop : Int) {delta : Int} (h : 0 ≤ delta) (x : Int) :
    x ≤ moveIn start stop delta x := by
  unfold moveIn
  split_ifs <;> omega

theorem below_iff {index : ℕ} :
    below index I = true ↔ ∀ x, some x ∈ I → bumpFrom index x = x := by
  unfold below
  rw [List.all_eq_true]
  constructor
  · intro h x hx
    have := h _ hx
    simp only [Option.all_some, decide_eq_true_eq] at this
    exact if_neg (by omega)
  · intro h a ha
    cases a with
    | none => rfl
    | some x =>
      have := h x ha
      unfold bumpFrom at this
      simp only [Option.all_some, decide_eq_true_eq]
      split_ifs at this <;> omega

theorem outside_iff {start stop : ℕ} {delta : Int} (hd : 0 < delta) :
    outside start stop I = true ↔ ∀ x, some x ∈ I → moveIn start stop delta x = x := by
  unfold outside
  rw [List.all_eq_true]
  constructor
  · intro h x hx
    have := h _ hx
    simp only [Option.all_some, Bool.not_eq_true', Bool.and_eq_false_iff,
      decide_eq_false_iff_not] at this
    exact if_neg (by omega)
  · intro h a ha
    cases a with
    | none => rfl
    | some x =>
      have := h x ha
      unfold moveIn at this
      simp only [Option.all_some, Bool.not_eq_true', Bool.and_eq_false_iff,
        decide_eq_false_iff_not]
      split_ifs at this <;> omega

theorem tracks_concat {J : List (Option Int)} (h : Tracks X I C (slotsOf P) J) (i : ReInst) :
    Tracks X I C (slotsOf (P ++ [i])) (J ++ [i.slot]) := by
  rw [slotsOf_append]
  exact h.append [i.slot]

theorem tracks_wrapOptional (h : Dominates (slotsOf P) (I ++ L)) :
    Tracks (slotsOf P) (I ++ L) (below I.length (I ++ L) = true)
      (slotsOf (wrapOptional P I.length)) (I ++ none :: L) := by
  have hins := Tracks.insert h (le_bumpFrom I.length) I.length
  rw [← slotsOf_insertAt, List.take_left, List.drop_left] at hins
  have hnone := hins.dominates.getElem?_none (k := I.length) (by simp)
  rw [wrapOptional, slotsOf_modify (fun _ _ => rfl) hnone]
  exact hins.congr below_iff.symm

/-- Copying the instructions `start, …, start + n - 1`, whose slots are `W`. -/
theorem tracks_copyBlock {J W : List (Option Int)} (h : Dominates (slotsOf P) J) {start n : ℕ}
    (hW : (J.drop start).take n = W) :
    Tracks (slotsOf P) J (outside start (start + n) W = true)
      (slotsOf (copyBlock P start (start + n))) (J ++ W) := by
  have hlen : P.length = J.length := by rw [← length_slotsOf, h.length_eq]
  have hn : start + n - start = n := by omega
  rw [slotsOf_copyBlock, hn]
  by_cases hs : start < P.length
  · have hd : (0 : Int) ≤ P.length - start := by omega
    have hc := Tracks.copy h (le_moveIn start (start + n : ℕ) hd) start n
    rw [hW] at hc
    exact hc.congr (outside_iff (by omega)).symm
  · -- nothing is copied
    have hdrop : J.drop start = [] := List.drop_eq_nil_of_le (by omega)
    have hdrop' : (slotsOf P).drop start = [] := List.drop_eq_nil_of_le (by simp; omega)
    rw [hdrop, List.take_nil] at hW
    subst hW
    rw [hdrop', List.take_nil, List.map_nil, List.append_nil, List.append_nil]
    exact (Tracks.refl h).congr (by simp [outside])

theorem window_append {J Z : List (Option Int)} {start n : ℕ} (h : start + n ≤ J.length) :
    ((J ++ Z).drop start).take n = (J.drop start).take n := by
  rw [List.drop_append_of_le_length (by omega), List.take_append_of_le_length (by simp; omega)]

section Copies

variable {J W : List (Option Int)} {start n : ℕ} (hW : (J.drop start).take n = W)
  (hn : start + n ≤ J.length) (h : Dominates (slotsOf P) J)

include hW hn h

theorem tracks_copies (k : ℕ) :
    Tracks (slotsOf P) J (k = 0 ∨ outside start (start + n) W = true)
      (slotsOf (copies k P start (start + n))) (copiesSlots k J W) := by
  induction k generalizing P J with
  | zero => exact (Tracks.refl h).congr (by simp)
  | succ k ih =>
    have hcopy := tracks_copyBlock h hW
    have hrest := ih ((window_append hn).trans hW) (by simp; omega) hcopy.dominates
    exact (hcopy.trans hrest).congr (by tauto)

theorem tracks_optionalCopy :
    Tracks (slotsOf P) J (outside start (start + n) W = true)
      (slotsOf (optionalCopy P start (start + n))) (J ++ none :: W) := by
  have hsplit := tracks_concat (Tracks.refl h) { op := .reSplit }
  have hcopy := tracks_copyBlock hsplit.dominates ((window_append hn).trans hW)
  have hlen : P.length = J.length := by rw [← length_slotsOf, h.length_eq]
  have heq : J ++ [({ op := .reSplit } : ReInst).slot] ++ W = J ++ none :: W := by
    simp [ReInst.slot]
  rw [heq] at hcopy
  have hnone := hcopy.dominates.getElem?_none (k := P.length) (by simp [hlen])
  simp only [optionalCopy]
  rw [slotsOf_modify (fun _ _ => rfl) hnone]
  exact (hsplit.trans hcopy).congr (by simp)

theorem tracks_optionalCopies (k : ℕ) :
    Tracks (slotsOf P) J (k = 0 ∨ outside start (start + n) W = true)
      (slotsOf (optionalCopies k P start (start + n))) (optCopiesSlots k J W) := by
  induction k generalizing P J with
  | zero => exact (Tracks.refl h).congr (by simp)
  | succ k ih =>
    have hcopy := tracks_optionalCopy hW hn h
    have hrest := ih ((window_append hn).trans hW) (by simp; omega) hcopy.dominates
    exact (hcopy.trans hrest).congr (by tauto)

end Copies

theorem copiesSlots_append (k : ℕ) (I L W : List (Option Int)) :
    copiesSlots k (I ++ L) W = I ++ copiesSlots k L W := by
  induction k generalizing L with
  | zero => rfl
  | succ k ih => rw [copiesSlots, List.append_assoc, ih, copiesSlots]

theorem optCopiesSlots_append (k : ℕ) (I L W : List (Option Int)) :
    optCopiesSlots k (I ++ L) W = I ++ optCopiesSlots k L W := by
  induction k generalizing L with
  | zero => rfl
  | succ k ih => rw [optCopiesSlots, List.append_assoc, ih, optCopiesSlots]

theorem le_length_copiesSlots (k : ℕ) (L W : List (Option Int)) :
    L.length ≤ (copiesSlots k L W).length := by
  induction k generalizing L with
  | zero => exact le_rfl
  | succ k ih => exact le_trans (by simp) (ih (L ++ W))

theorem le_length_repeat (k : ℕ) (I L : List (Option Int)) :
    I.length + L.length ≤ (I ++ copiesSlots k L L).length := by
  rw [List.length_append]
  exact Nat.add_le_add_left (le_length_copiesSlots k L L) _

theorem window_copiesSlots (k : ℕ) (I L : List (Option Int)) :
    ((I ++ copiesSlots k L L).drop I.length).take L.length = L := by
  rw [List.drop_left]
  have hpre : ∀ M : List (Option Int), L <+: M → L <+: copiesSlots k M L := by
    induction k with
    | zero => exact fun M hM => hM
    | succ k ih => exact fun M hM => ih (M ++ L) (hM.trans (List.prefix_append _ _))
  exact (List.prefix_iff_eq_take.mp (hpre L (List.prefix_refl L))).symm

theorem outside_of_below {n : ℕ} {M : List (Option Int)} (h : below n (I ++ L) = true)
    (hM : ∀ a ∈ M, a = none ∨ a ∈ L) (m : ℕ) : outside n m M = true := by
  unfold outside
  unfold below at h
  rw [List.all_eq_true] at h ⊢
  intro a ha
  rcases hM a ha with rfl | ha
  · rfl
  · have := h a (List.mem_append_right I ha)
    cases a with
    | none => rfl
    | some x =>
      simp only [Option.all_some, decide_eq_true_eq, Bool.not_eq_true', Bool.and_eq_false_iff,
        decide_eq_false_iff_not] at this ⊢
      omega

section Quantify

variable (h : Dominates (slotsOf P) (I ++ L))
include h

theorem length_of_dominates : P.length = I.length + L.length := by
  rw [← length_slotsOf, h.length_eq, List.length_append]

theorem tracks_wrapStar :
    Tracks (slotsOf P) (I ++ L) (below I.length (I ++ L) = true)
      (slotsOf (wrapStar P I.length)) (I ++ (none :: L ++ [none])) := by
  have ht := tracks_concat (tracks_wrapOptional h) { op := .reJmp, x := I.length }
  rwa [List.append_assoc] at ht

theorem tracks_repeat (k : ℕ) :
    Tracks (slotsOf P) (I ++ L) (k = 0 ∨ outside I.length (I.length + L.length) L = true)
      (slotsOf (copies k P I.length P.length)) (I ++ copiesSlots k L L) := by
  rw [length_of_dominates h, ← copiesSlots_append]
  exact tracks_copies (by simp) (by simp) h k

/-- An interval from 0 on: the atom itself is optional, and the copies skip its split. -/
theorem tracks_optional_interval (k : ℕ) :
    Tracks (slotsOf P) (I ++ L) (below I.length (I ++ L) = true)
      (slotsOf (optionalCopies k (wrapOptional P I.length) I.length P.length))
      (I ++ optCopiesSlots k (none :: L) ((none :: L).take L.length)) := by
  have hopt := tracks_wrapOptional h
  have hwin : ((I ++ none :: L).drop I.length).take L.length = (none :: L).take L.length := by
    rw [List.drop_left]
  have ht := tracks_optionalCopies hwin (by simp) hopt.dominates k
  rw [optCopiesSlots_append, ← length_of_dominates h] at ht
  refine (hopt.trans ht).congr ?_
  refine and_iff_left_of_imp fun hbelow => .inr ?_
  rw [length_of_dominates h]
  exact outside_of_below hbelow (fun a ha => by simpa using List.mem_of_mem_take ha) _

/-- An interval without an upper bound: an optional copy, from which a jump leads back. -/
theorem tracks_open_interval (min : ℕ) :
    Tracks (slotsOf P) (I ++ L) (outside I.length (I.length + L.length) L = true)
      (slotsOf (optionalCopy (copies min P I.length P.length) I.length P.length ++
        [{ op := .reJmp, x := (copies min P I.length P.length).length }]))
      (I ++ quantSlots L (.interval (min + 1) none)) := by
  have hcopies := tracks_repeat h min
  have hopen := tracks_optionalCopy (window_copiesSlots min I L) (le_length_repeat min I L)
    hcopies.dominates
  rw [← length_of_dominates h] at hopen
  have ht := tracks_concat (hcopies.trans hopen)
    { op := .reJmp, x := (copies min P I.length P.length).length }
  have heq : I ++ copiesSlots min L L ++ none :: L ++ [none] =
      I ++ quantSlots L (.interval (min + 1) none) := by
    simp [quantSlots]
  rw [show ReInst.slot { op := .reJmp, x := _ } = none from rfl, heq] at ht
  refine ht.congr ?_
  rw [length_of_dominates h]
  tauto

/-- An interval with an upper bound: copies, and then optional ones. -/
theorem tracks_closed_interval (min k : ℕ) :
    Tracks (slotsOf P) (I ++ L)
      (min = 0 ∧ k = 0 ∨ outside I.length (I.length + L.length) L = true)
      (slotsOf (optionalCopies k (copies min P I.length P.length) I.length P.length))
      (I ++ optCopiesSlots k (copiesSlots min L L) L) := by
  have hcopies := tracks_repeat h min
  have hopt := tracks_optionalCopies (window_copiesSlots min I L) (le_length_repeat min I L)
    hcopies.dominates k
  rw [← length_of_dominates h, optCopiesSlots_append] at hopt
  refine (hcopies.trans hopt).congr ?_
  rw [length_of_dominates h]
  tauto

theorem tracks_quantify (q : Quantifier) :
    Tracks (slotsOf P) (I ++ L) (quantIntact I L q = true) (slotsOf (quantify P I.length q))
      (I ++ quantSlots L q) := by
  match q with
  | .one => exact (Tracks.refl h).congr (by simp [quantIntact])
  | .plus =>
    have ht := tracks_concat (Tracks.refl h) { op := .reSplit, x := I.length, y := P.length + 1 }
    rw [List.append_assoc] at ht
    exact ht.congr (by simp [quantIntact])
  | .question => exact tracks_wrapOptional h
  | .star => exact tracks_wrapStar h
  | .interval 0 none => exact tracks_wrapStar h
  | .interval 0 (some max) => exact tracks_optional_interval h (max - 1)
  | .interval (min + 1) none => exact (tracks_open_interval h min).congr (by simp [quantIntact])
  | .interval (min + 1) (some max) =>
    refine (tracks_closed_interval h min (max - (min + 1))).congr ?_
    simp only [quantIntact, Bool.or_eq_true, Bool.and_eq_true, decide_eq_true_eq]
    by_cases hout : outside I.length (I.length + L.length) L = true
    · simp [hout]
    · simp only [hout, Bool.false_eq_true, or_false]
      omega

end Quantify

end Operations

/-! ## Branches -/

section Branches

variable {P : List ReInst} {I : List (Option Int)}

theorem slotsOf_openBranch {lastSplit : ℕ} (h : (slotsOf P)[lastSplit]? = some none) :
    slotsOf (openBranch P lastSplit) = slotsOf P ++ [none] := by
  have happ : slotsOf (P ++ [({ op := .reSplit } : ReInst)]) = slotsOf P ++ [none] := by
    rw [slotsOf_append]
    rfl
  have hlt := (List.getElem?_eq_some_iff.mp h).1
  rw [openBranch, slotsOf_modify (f := setY P.length) (fun i hi => hi), happ]
  rw [happ, List.getElem?_append_left hlt, h]

theorem slot_setX {i : ReInst} (h : i.slot = none) (x : Int) : (setX x i).slot = none := by
  unfold ReInst.slot at h ⊢
  by_cases hop : i.op = .reSave <;> simp_all [setX]

theorem slotsOf_closeBranch {split : ℕ} (h : (slotsOf P)[split]? = some none) :
    slotsOf (closeBranch P split) = slotsOf P ++ [none] := by
  have hf : ∀ i : ReInst, i.slot = none → (setY P.length (setX (split + 1) i)).slot = none :=
    fun i hi => slot_setX hi (split + 1)
  rw [closeBranch, slotsOf_append, slotsOf_modify hf h]
  rfl

theorem slotsOf_patchAlternation {lastSplit : ℕ} {jumps : List ℕ}
    (hlast : (slotsOf P)[lastSplit]? = some none)
    (hjumps : ∀ j ∈ jumps, (slotsOf P)[j]? = some none) :
    slotsOf (patchAlternation P lastSplit jumps) = slotsOf P := by
  have hfold : ∀ (x : Int) (Q : List ReInst), slotsOf Q = slotsOf P →
      slotsOf (jumps.foldl (fun p jump => p.modify jump (setX x)) Q) = slotsOf P := by
    intro x
    induction jumps with
    | nil => exact fun Q hQ => hQ
    | cons j jumps ih =>
      intro Q hQ
      obtain ⟨hj, hjumps⟩ := List.forall_mem_cons.mp hjumps
      apply ih hjumps
      rw [slotsOf_modify (fun i hi => slot_setX hi x) (by rw [hQ, hj]), hQ]
  exact hfold _ _ (slotsOf_modify (fun i hi => hi) hlast)

theorem getElem?_concat_of_eq {J : List (Option Int)} {k : ℕ} (h : k = J.length) :
    (J ++ [none])[k]? = some none := by
  rw [h, List.getElem?_concat_length]

theorem tracks_openBranch (h : Dominates (slotsOf P) I) {lastSplit : ℕ}
    (hlast : I[lastSplit]? = some none) :
    Tracks (slotsOf P) I True (slotsOf (openBranch P lastSplit)) (I ++ [none]) := by
  rw [slotsOf_openBranch (h.getElem?_none hlast)]
  exact (Tracks.refl h).append [none]

theorem tracks_branch {B : List ReInst} {L : List (Option Int)} {C : Prop}
    (h : Dominates (slotsOf P) I) {lastSplit : ℕ} (hlast : I[lastSplit]? = some none)
    (hb : Tracks (slotsOf (openBranch P lastSplit)) (I ++ [none]) C (slotsOf B)
      (I ++ [none] ++ L)) :
    Tracks (slotsOf P) I C (slotsOf (closeBranch B P.length)) (I ++ none :: L ++ [none]) ∧
    B.length = (I ++ none :: L).length := by
  have hlen : P.length = I.length := by rw [← length_slotsOf, h.length_eq]
  have heq : I ++ [none] ++ L = I ++ none :: L := by simp
  rw [heq] at hb
  constructor
  · have hnone := hb.dominates.getElem?_none (k := P.length) (by simp [hlen])
    rw [slotsOf_closeBranch hnone]
    exact (((tracks_openBranch h hlast).trans hb).append [none]).congr (by simp)
  · rw [← length_slotsOf, hb.dominates.length_eq]

/-- The splits and jumps of the branches read so far, after one more. -/
theorem getElem?_branch {L : List (Option Int)} {k : ℕ} (h : I[k]? = some none) :
    (I ++ none :: L ++ [none])[k]? = some none := by
  have hlt := (List.getElem?_eq_some_iff.mp h).1
  rw [List.append_assoc, List.getElem?_append_left hlt, h]

end Branches

/-! ## Trees -/

mutual

theorem groups_genAtom : (a : Atom) → (c : Code) → (genAtom a c).groups = c.groups + a.captures
  | .leaf _, c => rfl
  | .group false body, c => groups_genAlternation body c
  | .group true body, c => by
    have h := groups_genAlternation body (c.openGroup true)
    simp only [genAtom, Code.closeGroup, if_true, Atom.captures, h]
    simp only [Code.openGroup, if_true]
    omega

theorem groups_genSequence : (b : Sequence) → (c : Code) →
    (genSequence b c).groups = c.groups + b.captures
  | .nil, c => rfl
  | .cons a q rest, c => by
    simp only [genSequence, groups_genSequence rest, groups_genAtom a c, Sequence.captures]
    omega

theorem groups_genAlternation : (a : Alternation) → (c : Code) →
    (genAlternation a c).groups = c.groups + a.captures
  | .last branch, c => groups_genSequence branch c
  | .more branch rest, c => by
    simp only [genAlternation, groups_genBranches rest, groups_genSequence branch c,
      Alternation.captures]
    omega

theorem groups_genBranches : (a : Alternation) → (c : Code) → (lastSplit : ℕ) →
    (jumps : List ℕ) → (genBranches a c lastSplit jumps).groups = c.groups + a.captures
  | .last branch, c, lastSplit, jumps => by
    simp only [genBranches, groups_genSequence branch, Alternation.captures]
  | .more branch rest, c, lastSplit, jumps => by
    simp only [genBranches, groups_genBranches rest, groups_genSequence branch,
      Alternation.captures]
    omega

end

mutual

theorem tracks_genAtom : (a : Atom) → (c : Code) → {I : List (Option Int)} →
    Dominates (slotsOf c.program) I →
    Tracks (slotsOf c.program) I (a.intact c.groups I = true) (slotsOf (genAtom a c).program)
      (I ++ a.slots c.groups)
  | .leaf l, c, I, h => by
    have ht := tracks_concat (Tracks.refl h) l.inst
    have hslot : l.inst.slot = none := by cases l <;> rfl
    rw [hslot] at ht
    exact ht.congr (by simp [Atom.intact])
  | .group false body, c, I, h => tracks_genAlternation body c h
  | .group true body, c, I, h => by
    have hopen := tracks_concat (Tracks.refl h)
      { op := .reSave, x := ((c.groups + 1 : ℕ) : Int) * 2 }
    have hbody := tracks_genAlternation body (c.openGroup true) hopen.dominates
    have hclose := tracks_concat (hopen.trans hbody)
      { op := .reSave, x := (genAlternation body (c.openGroup true)).groups * 2 + 1 }
    have hslot : ({ op := .reSave, x := (genAlternation body (c.openGroup true)).groups * 2 + 1 } :
        ReInst).slot = some (((c.groups + 1 + body.captures : ℕ) : Int) * 2 + 1) := by
      rw [groups_genAlternation]
      rfl
    have heq : I ++ [some (((c.groups + 1 : ℕ) : Int) * 2)] ++ body.slots (c.groups + 1) ++
        [some (((c.groups + 1 + body.captures : ℕ) : Int) * 2 + 1)] =
          I ++ (Atom.group true body).slots c.groups := by
      simp [Atom.slots]
    rw [hslot] at hclose
    rw [← heq]
    exact hclose.congr (by rw [true_and]; rfl)

theorem tracks_genSequence : (b : Sequence) → (c : Code) → {I : List (Option Int)} →
    Dominates (slotsOf c.program) I →
    Tracks (slotsOf c.program) I (b.intact c.groups I = true) (slotsOf (genSequence b c).program)
      (I ++ b.slots c.groups)
  | .nil, c, I, h => by
    rw [Sequence.slots, List.append_nil]
    exact (Tracks.refl h).congr (by simp [Sequence.intact])
  | .cons a q rest, c, I, h => by
    have hlen : c.program.length = I.length := by rw [← length_slotsOf, h.length_eq]
    have ha := tracks_genAtom a c h
    have hq := tracks_quantify ha.dominates q
    have hr := tracks_genSequence rest
      { genAtom a c with program := quantify (genAtom a c).program I.length q } hq.dominates
    rw [groups_genAtom, List.append_assoc, ← Sequence.slots] at hr
    rw [genSequence, hlen]
    refine ((ha.trans hq).trans hr).congr ?_
    rw [Sequence.intact, Bool.and_eq_true, Bool.and_eq_true]

theorem tracks_genAlternation : (a : Alternation) → (c : Code) → {I : List (Option Int)} →
    Dominates (slotsOf c.program) I →
    Tracks (slotsOf c.program) I (a.intact c.groups I = true)
      (slotsOf (genAlternation a c).program) (I ++ a.slots c.groups)
  | .last branch, c, I, h => tracks_genSequence branch c h
  | .more branch rest, c, I, h => by
    have hlen : c.program.length = I.length := by rw [← length_slotsOf, h.length_eq]
    have hb := tracks_genSequence branch c h
    have hwrap := tracks_concat (tracks_wrapOptional hb.dominates) { op := .reJmp }
    have hfirst := hb.trans hwrap
    rw [← hlen] at hfirst
    generalize hp : wrapOptional (genSequence branch c).program c.program.length ++
      [({ op := .reJmp } : ReInst)] = program at hfirst
    have hlen' : program.length = I.length + (branch.slots c.groups).length + 2 := by
      rw [← length_slotsOf, hfirst.dominates.length_eq]
      simp
      omega
    have hjump : (I ++ none :: branch.slots c.groups ++ [none])[program.length - 1]? =
        some none :=
      getElem?_concat_of_eq (by simp; omega)
    have hrest := tracks_genBranches rest ⟨program, (genSequence branch c).groups⟩
      hfirst.dominates (by simp [hlen] : _[c.program.length]? = some none)
      (List.forall_mem_singleton.mpr hjump)
    simp only [groups_genSequence] at hrest
    have heq : I ++ none :: branch.slots c.groups ++ [none] ++
        rest.branchSlots (c.groups + branch.captures) =
          I ++ (Alternation.more branch rest).slots c.groups := by
      simp [Alternation.slots]
    rw [← heq]
    simp only [genAlternation, hp]
    rw [groups_genSequence]
    refine (hfirst.trans hrest).congr ?_
    rw [Alternation.intact, Bool.and_eq_true, Bool.and_eq_true, hlen]
    rfl

theorem tracks_genBranches : (a : Alternation) → (c : Code) → {I : List (Option Int)} →
    Dominates (slotsOf c.program) I → {lastSplit : ℕ} → I[lastSplit]? = some none →
    {jumps : List ℕ} → (∀ j ∈ jumps, I[j]? = some none) →
    Tracks (slotsOf c.program) I (a.branchesIntact c.groups I = true)
      (slotsOf (genBranches a c lastSplit jumps).program) (I ++ a.branchSlots c.groups)
  | .last branch, c, I, h, lastSplit, hlast, jumps, hjumps => by
    have hopen := tracks_openBranch h hlast
    have hb := tracks_genSequence branch ⟨openBranch c.program lastSplit, c.groups⟩ hopen.dominates
    obtain ⟨hclose, hend⟩ := tracks_branch h hlast hb
    have hnone := hclose.dominates
    have hlen : c.program.length = I.length := by rw [← length_slotsOf, h.length_eq]
    simp only [genBranches]
    rw [slotsOf_patchAlternation (hnone.getElem?_none (by simp [hlen])), Alternation.branchSlots,
      ← List.append_assoc]
    · exact hclose.congr (by rw [Alternation.branchesIntact])
    · intro j hj
      apply hnone.getElem?_none
      rcases List.mem_append.mp hj with hj | hj
      · exact getElem?_branch (hjumps j hj)
      · obtain rfl := List.mem_singleton.mp hj
        exact getElem?_concat_of_eq hend
  | .more branch rest, c, I, h, lastSplit, hlast, jumps, hjumps => by
    have hopen := tracks_openBranch h hlast
    have hb := tracks_genSequence branch ⟨openBranch c.program lastSplit, c.groups⟩ hopen.dominates
    obtain ⟨hclose, hend⟩ := tracks_branch h hlast hb
    have hlen : c.program.length = I.length := by rw [← length_slotsOf, h.length_eq]
    generalize hg : genSequence branch ⟨openBranch c.program lastSplit, c.groups⟩ = b at hclose hend
    have hgroups : b.groups = c.groups + branch.captures := by
      rw [← hg, groups_genSequence]
    have hrest := tracks_genBranches rest ⟨closeBranch b.program c.program.length, b.groups⟩
      hclose.dominates (by simp [hlen] : _[c.program.length]? = some none)
      (List.forall_mem_append.mpr ⟨fun j hj => getElem?_branch (hjumps j hj),
        List.forall_mem_singleton.mpr (getElem?_concat_of_eq hend)⟩)
    simp only [genBranches, hg]
    have heq : I ++ none :: branch.slots c.groups ++ [none] ++
        rest.branchSlots (c.groups + branch.captures) =
          I ++ (Alternation.more branch rest).branchSlots c.groups := by
      simp [Alternation.branchSlots]
    rw [← heq, ← hgroups]
    refine (hclose.trans hrest).congr ?_
    rw [Alternation.branchesIntact, Bool.and_eq_true, ← hgroups]

end

/-! ## The slots of a compiled pattern -/

section Bounds

variable {L W : List (Option Int)} {x : Int}

theorem mem_copiesSlots (k : ℕ) (hW : ∀ y, some y ∈ W → some y ∈ L)
    (h : some x ∈ copiesSlots k L W) : some x ∈ L := by
  induction k generalizing L with
  | zero => exact h
  | succ k ih =>
    have := ih (fun y hy => List.mem_append_left _ (hW y hy)) h
    rcases List.mem_append.mp this with hx | hx
    · exact hx
    · exact hW x hx

theorem mem_optCopiesSlots (k : ℕ) (hW : ∀ y, some y ∈ W → some y ∈ L)
    (h : some x ∈ optCopiesSlots k L W) : some x ∈ L := by
  induction k generalizing L with
  | zero => exact h
  | succ k ih =>
    have := ih (fun y hy => List.mem_append_left _ (hW y hy)) h
    simp only [List.mem_append, List.mem_cons, reduceCtorEq, false_or] at this
    rcases this with hx | hx
    · exact hx
    · exact hW x hx

theorem mem_quantSlots {q : Quantifier} (h : some x ∈ quantSlots L q) : some x ∈ L := by
  match q with
  | .one => exact h
  | .star | .plus | .question | .interval 0 none => simpa [quantSlots] using h
  | .interval 0 (some max) =>
    have := mem_optCopiesSlots _ (fun y hy => List.mem_of_mem_take hy) h
    simpa using this
  | .interval (min + 1) none =>
    simp only [quantSlots, List.mem_append, List.mem_cons, reduceCtorEq, false_or,
      List.not_mem_nil, or_false] at h
    rcases h with h | h
    · exact mem_copiesSlots min (fun _ hy => hy) h
    · exact h
  | .interval (min + 1) (some max) =>
    have hpre : ∀ y, some y ∈ L → some y ∈ copiesSlots min L L := by
      intro y hy
      have hwin := window_copiesSlots min [] L
      rw [List.nil_append, List.length_nil, List.drop_zero] at hwin
      rw [← hwin] at hy
      exact List.mem_of_mem_take hy
    exact mem_copiesSlots min (fun _ hy => hy) (mem_optCopiesSlots _ hpre h)

end Bounds

mutual

theorem Atom.slots_lt : (a : Atom) → (g : ℕ) → ∀ x, some x ∈ a.slots g →
    0 ≤ x ∧ x < (g + a.captures + 1 : ℕ) * 2
  | .leaf _, g => by simp [Atom.slots]
  | .group false body, g => body.slots_lt g
  | .group true body, g => by
    intro x hx
    simp only [Atom.slots, List.cons_append, List.mem_cons, List.mem_append, Option.some.injEq,
      List.not_mem_nil, or_false] at hx
    simp only [Atom.captures]
    rcases hx with rfl | hx | rfl
    · omega
    · have := body.slots_lt (g + 1) x hx
      omega
    · omega

theorem Sequence.slots_lt : (b : Sequence) → (g : ℕ) → ∀ x, some x ∈ b.slots g →
    0 ≤ x ∧ x < (g + b.captures + 1 : ℕ) * 2
  | .nil, g => by simp [Sequence.slots]
  | .cons a q rest, g => by
    intro x hx
    simp only [Sequence.captures]
    rcases List.mem_append.mp hx with hx | hx
    · have := a.slots_lt g x (mem_quantSlots hx)
      omega
    · have := rest.slots_lt (g + a.captures) x hx
      omega

theorem Alternation.slots_lt : (a : Alternation) → (g : ℕ) → ∀ x, some x ∈ a.slots g →
    0 ≤ x ∧ x < (g + a.captures + 1 : ℕ) * 2
  | .last branch, g => branch.slots_lt g
  | .more branch rest, g => by
    intro x hx
    simp only [Alternation.slots, List.cons_append, List.mem_cons, List.mem_append, reduceCtorEq,
      false_or] at hx
    simp only [Alternation.captures]
    rcases hx with hx | hx
    · have := branch.slots_lt g x hx
      omega
    · have := rest.branchSlots_lt (g + branch.captures) x hx
      omega

theorem Alternation.branchSlots_lt : (a : Alternation) → (g : ℕ) →
    ∀ x, some x ∈ a.branchSlots g → 0 ≤ x ∧ x < (g + a.captures + 1 : ℕ) * 2
  | .last branch, g => by
    intro x hx
    simp only [Alternation.branchSlots, List.cons_append, List.mem_cons, List.mem_append,
      reduceCtorEq, false_or, List.not_mem_nil, or_false] at hx
    exact branch.slots_lt g x hx
  | .more branch rest, g => by
    intro x hx
    simp only [Alternation.branchSlots, List.cons_append, List.mem_cons, List.mem_append,
      reduceCtorEq, false_or] at hx
    simp only [Alternation.captures]
    rcases hx with hx | hx
    · have := branch.slots_lt g x hx
      omega
    · have := rest.branchSlots_lt (g + branch.captures) x hx
      omega

end

section Pattern

variable {regex : CString} {cflags : UInt32} {heap heap' : Heap} {preg : RegexT}
  {program : List ReInst} {tree : Alternation}

theorem slotsOf_genPattern (tree : Alternation) :
    slotsOf (genPattern tree).program = some 0 :: tree.slots 0 ++ [some 1, none] ↔
      tree.intact 0 [some 0] = true := by
  have h := tracks_genAlternation tree ⟨[{ op := .reSave }], 0⟩ (.refl [some 0])
  have hbody : slotsOf (genBody tree) = [some 0] ++ tree.slots 0 ↔
      tree.intact 0 [some 0] = true := h.eq_iff.trans (and_iff_right rfl)
  have hprogram : slotsOf (genPattern tree).program =
      slotsOf (genBody tree) ++ [some 1, none] := by
    rw [genPattern_program, List.append_assoc, slotsOf_append]
    rfl
  rw [hprogram, List.append_left_inj, ← hbody]
  rfl

/--
Every `RE_SAVE` of a compiled pattern keeps the slot its group was given, and so has an operand
inside the captures array, exactly when no insertion falls at an address that is not above all
slots so far and no copied range of addresses contains a slot of the copied code.
-/
theorem regcomp_slots_iff_intact (h : regcomp regex cflags heap = some (.ok, preg, heap'))
    (hprogram : preg.reProgram = some program)
    (htree : parsePattern (hasFlag cflags regExtended) regex = some tree) :
    (SavesFit program ((preg.reNsub + 1) * 2) ∧
      slotsOf program = some 0 :: tree.slots 0 ++ [some 1, none]) ↔
    tree.intact 0 [some 0] = true := by
  obtain ⟨tree', htree', rfl⟩ := regcomp_accepted h
  obtain rfl : tree = tree' := Option.some.inj (htree.symm.trans htree')
  obtain rfl : (genPattern tree).program = program := Option.some.inj hprogram
  rw [← slotsOf_genPattern]
  refine and_iff_right_of_imp fun hslots i hi hop => ?_
  have hmem : some i.x ∈ slotsOf (genPattern tree).program := by
    have hslot : i.slot = some i.x := if_pos hop
    exact hslot ▸ List.mem_map_of_mem hi
  have hgroups : (genPattern tree).groups = tree.captures := by
    have := groups_genAlternation tree ⟨[{ op := .reSave }], 0⟩
    simpa [genPattern] using this
  rw [hslots] at hmem
  simp only [List.cons_append, List.mem_cons, List.mem_append, Option.some.injEq, reduceCtorEq,
    List.not_mem_nil, or_false] at hmem
  simp only [hgroups]
  rcases hmem with hx | hx | hx
  · omega
  · have := tree.slots_lt 0 i.x hx
    omega
  · omega

end Pattern

abbrev lateGroup : CString :=
  ⟨[byte 'a', byte 'b', byte 'c', byte '(', byte 'd', byte ')', byte '*'], by decide⟩

theorem lateGroup_slots :
    ∃ preg heap' program, regcomp lateGroup regExtended .unlimited = some (.ok, preg, heap') ∧
      preg.reProgram = some program ∧ preg.reNsub = 1 ∧ SavesFit program 4 := by
  obtain ⟨preg, heap', h, hprogram, hsub⟩ : ∃ preg heap', regcomp lateGroup regExtended .unlimited =
    some (.ok, preg, heap') ∧ preg.reProgram.isSome ∧ preg.reNsub = 1 := ⟨_, _, rfl, rfl, rfl⟩
  obtain ⟨program, hprogram⟩ := Option.isSome_iff_exists.mp hprogram
  obtain ⟨tree, htree, hintact⟩ : ∃ tree, parsePattern (hasFlag regExtended regExtended) lateGroup =
    some tree ∧ tree.intact 0 [some 0] = true := ⟨_, rfl, rfl⟩
  have hfit := ((regcomp_slots_iff_intact h hprogram htree).mpr hintact).1
  rw [hsub] at hfit
  exact ⟨preg, heap', program, h, hprogram, hsub, hfit⟩

abbrev starredGroup : CString := ⟨[byte '(', byte 'a', byte ')', byte '*'], by decide⟩

/-- The insertion of the split has moved the slots of the group from 2 and 3 to 3 and 4. -/
theorem starredGroup_slots :
    ∃ preg heap' program, regcomp starredGroup regExtended .unlimited =
        some (.ok, preg, heap') ∧
      preg.reProgram = some program ∧ preg.reNsub = 1 ∧
      slotsOf program = [some 0, none, some 3, none, some 4, none, some 1, none] ∧
      ¬ SavesFit program (2 * (preg.reNsub + 1)) := by
  refine ⟨_, _, _, rfl, rfl, rfl, rfl, ?_⟩
  decide

end LampUserspace.Regex
