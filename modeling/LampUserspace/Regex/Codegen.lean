import LampUserspace.Regex.Layout

/-! # The code of a pattern

The relative code of each kind of tree, and how far its insertions displace the
exits of the code before it. Compiling a tree extends any program by its code.
-/

namespace LampUserspace.Regex

def split (x y : Int) : ReInst := { op := .reSplit, x := x, y := y }

def jmp (x : Int) : ReInst := { op := .reJmp, x := x }

def save : ReInst := { op := .reSave }

@[simp] theorem mapTargets_split (f : Int → Int) (x y : Int) :
    (split x y).mapTargets f = split (f x) (f y) := rfl

@[simp] theorem mapTargets_jmp (f : Int → Int) (x : Int) : (jmp x).mapTargets f = jmp (f x) := rfl

@[simp] theorem mapTargets_save (f : Int → Int) : save.mapTargets f = save := rfl

@[simp] theorem targets_split (x y : Int) : (split x y).targets = [x, y] := rfl

@[simp] theorem targets_jmp (x : Int) : (jmp x).targets = [x] := rfl

@[simp] theorem targets_save : save.targets = [] := rfl

@[simp] theorem targets_leaf (l : Leaf) : l.inst.targets = [] := by cases l <;> rfl

@[simp] theorem clean_leaf (l : Leaf) : l.inst.clean = l.inst := by cases l <;> rfl

/-! ## Quantified code -/

def optCode (S : List ReInst) : List ReInst := split 1 (S.length + 1) :: reloc 1 S

def starCode (S : List ReInst) : List ReInst := optCode S ++ [jmp 0]

/-- The copy of the window `[start, stop)` of `S`, placed `delta` further on. -/
def window (S : List ReInst) (start stop : ℕ) (delta : Int) : List ReInst :=
  ((S.drop start).take (stop - start)).map (ReInst.mapTargets (moveIn start stop delta))

def copyCode (S : List ReInst) (start stop : ℕ) : List ReInst :=
  S ++ window S start stop (S.length - start)

def copiesCode : ℕ → List ReInst → ℕ → ℕ → List ReInst
  | 0, S, _, _ => S
  | n + 1, S, start, stop => copiesCode n (copyCode S start stop) start stop

def optCopyCode (S : List ReInst) (start stop : ℕ) : List ReInst :=
  S ++ split (S.length + 1) (S.length + 1 + (stop - start : ℕ)) ::
    window S start stop (S.length + 1 - start)

def optCopiesCode : ℕ → List ReInst → ℕ → ℕ → List ReInst
  | 0, S, _, _ => S
  | n + 1, S, start, stop => optCopiesCode n (optCopyCode S start stop) start stop

def openCode (S : List ReInst) (start stop : ℕ) : List ReInst :=
  optCopyCode S start stop ++ [jmp S.length]

def quantCode (S : List ReInst) : Quantifier → List ReInst
  | .one => S
  | .star => starCode S
  | .plus => S ++ [split 0 (S.length + 1)]
  | .question => optCode S
  | .interval 0 none => starCode S
  | .interval 0 (some max) => optCopiesCode (max - 1) (optCode S) 0 S.length
  | .interval (min + 1) none => openCode (copiesCode min S 0 S.length) 0 S.length
  | .interval (min + 1) (some max) =>
    optCopiesCode (max - (min + 1)) (copiesCode min S 0 S.length) 0 S.length

/-- The displacement caused by a quantified atom that itself displaces by `ℓ`. -/
def quantLead (ℓ : ℕ) : Quantifier → ℕ
  | .one | .plus | .interval (_ + 1) _ => ℓ
  | .star | .question | .interval 0 _ => ℓ + 1

/-! ## Alternations -/

def unitsLength : List (List ReInst) → ℕ
  | [] => 0
  | S :: rest => S.length + 2 + unitsLength rest

/-- Branches one after another from offset `o` on, each with its split and its jump to `stop`. -/
def unitsFrom (o : ℕ) (stop : Int) : List (List ReInst) → List ReInst
  | [] => []
  | S :: rest =>
    split (o + 1) (o + S.length + 2) :: reloc (o + 1) S ++
      jmp stop :: unitsFrom (o + S.length + 2) stop rest

def units (codes : List (List ReInst)) : List ReInst := unitsFrom 0 (unitsLength codes) codes

@[simp] theorem length_unitsFrom (o : ℕ) (stop : Int) (codes : List (List ReInst)) :
    (unitsFrom o stop codes).length = unitsLength codes := by
  induction codes generalizing o with
  | nil => rfl
  | cons S rest ih =>
    simp only [unitsFrom, List.length_append, List.length_cons, length_reloc, ih, unitsLength]
    omega

/-! ## Trees -/

mutual

def Atom.code : Atom → List ReInst
  | .leaf l => [l.inst]
  | .group false body => body.code
  | .group true body => save :: reloc 1 body.code ++ [save]

def Sequence.code : Sequence → List ReInst
  | .nil => []
  | .cons a q rest => join (quantCode a.code q) rest.lead rest.code

def Alternation.code : Alternation → List ReInst
  | .last branch => branch.code
  | .more branch rest => units (branch.code :: rest.codes)

def Alternation.codes : Alternation → List (List ReInst)
  | .last branch => [branch.code]
  | .more branch rest => branch.code :: rest.codes

def Atom.lead : Atom → ℕ
  | .leaf _ => 0
  | .group false body => body.lead
  | .group true _ => 0

/-- A displacement by the whole code of a piece carries over to the next one. -/
def Sequence.lead : Sequence → ℕ
  | .nil => 0
  | .cons a q rest =>
    if quantLead a.lead q = (quantCode a.code q).length then quantLead a.lead q + rest.lead
    else quantLead a.lead q

def Alternation.lead : Alternation → ℕ
  | .last branch => branch.lead
  | .more branch _ => branch.lead + 1

end

/-! ## Bounds -/

section Bounds

variable {S T : List ReInst}

theorem enclosed_nil : Enclosed [] := by simp [Enclosed]

theorem Enclosed.le (h : Enclosed S) : ∀ i ∈ S, ∀ t ∈ i.targets, t ≤ S.length :=
  fun i hi t ht => (h i hi t ht).2

theorem Enclosed.nonneg (h : Enclosed S) : ∀ i ∈ S, ∀ t ∈ i.targets, 0 ≤ t :=
  fun i hi t ht => (h i hi t ht).1

theorem mem_targets_reloc {base : ℕ} {i : ReInst} {t : Int} (hi : i ∈ reloc base S)
    (ht : t ∈ i.targets) : ∃ j ∈ S, ∃ u ∈ j.targets, t = u + base := by
  obtain ⟨j, hj, rfl⟩ := List.mem_map.mp hi
  rw [ReInst.targets_mapTargets] at ht
  obtain ⟨u, hu, rfl⟩ := List.mem_map.mp ht
  exact ⟨j, hj, u, hu, rfl⟩

theorem Enclosed.reloc (h : Enclosed S) {base : ℕ} {i : ReInst} {t : Int}
    (hi : i ∈ reloc base S) (ht : t ∈ i.targets) : base ≤ t ∧ t ≤ base + S.length := by
  obtain ⟨j, hj, u, hu, rfl⟩ := mem_targets_reloc hi ht
  have := h j hj u hu
  omega

theorem enclosed_join {m : ℕ} (hS : Enclosed S) (hT : Enclosed T) (hm : m ≤ T.length) :
    Enclosed (join S m T) := by
  intro i hi t ht
  rw [length_join]
  rcases List.mem_append.mp hi with hi | hi
  · obtain ⟨j, hj, rfl⟩ := List.mem_map.mp hi
    rw [ReInst.targets_mapTargets] at ht
    obtain ⟨u, hu, rfl⟩ := List.mem_map.mp ht
    have := hS j hj u hu
    unfold bumpAt
    split_ifs <;> push_cast <;> omega
  · have := hT.reloc hi ht
    push_cast
    omega

theorem enclosed_optCode (h : Enclosed S) : Enclosed (optCode S) := by
  intro i hi t ht
  have hlen : (optCode S).length = S.length + 1 := by simp [optCode]
  rw [hlen]
  rcases List.mem_cons.mp hi with rfl | hi
  · simp only [targets_split, List.mem_cons, List.not_mem_nil, or_false] at ht
    push_cast
    omega
  · have := h.reloc hi ht
    push_cast at *
    omega

/-- Code that is enclosed stays so when a further instruction is appended. -/
theorem Enclosed.concat (h : Enclosed S) {i : ReInst}
    (hi : ∀ t ∈ i.targets, 0 ≤ t ∧ t ≤ S.length + 1) : Enclosed (S ++ [i]) := by
  intro j hj t ht
  rw [List.length_append, List.length_singleton]
  rcases List.mem_append.mp hj with hj | hj
  · have := h j hj t ht
    push_cast
    omega
  · obtain rfl := List.mem_singleton.mp hj
    have := hi t ht
    push_cast
    omega

theorem enclosed_starCode (h : Enclosed S) : Enclosed (starCode S) :=
  (enclosed_optCode h).concat (by simp; omega)

theorem length_window {start stop : ℕ} (h : stop ≤ S.length) (delta : Int) :
    (window S start stop delta).length = stop - start := by
  simp [window]; omega

/-- A window copied to the end of enclosed code, possibly after a gap. -/
theorem Enclosed.window (h : Enclosed S) (gap : ℕ) {start stop : ℕ} (hs : start ≤ stop)
    {i : ReInst} {t : Int}
    (hi : i ∈ window S start stop (S.length + gap - start)) (ht : t ∈ i.targets) :
    0 ≤ t ∧ t ≤ S.length + gap + (stop - start : ℕ) := by
  obtain ⟨j, hj, rfl⟩ := List.mem_map.mp hi
  have hj : j ∈ S := List.mem_of_mem_drop (List.mem_of_mem_take hj)
  rw [ReInst.targets_mapTargets] at ht
  obtain ⟨u, hu, rfl⟩ := List.mem_map.mp ht
  have := h j hj u hu
  unfold moveIn
  split_ifs <;> omega

theorem enclosed_copyCode (h : Enclosed S) {start stop : ℕ} (hs : start ≤ stop)
    (he : stop ≤ S.length) : Enclosed (copyCode S start stop) := by
  intro i hi t ht
  rw [copyCode, List.length_append, length_window he]
  rcases List.mem_append.mp hi with hi | hi
  · have := h i hi t ht
    push_cast
    omega
  · have := h.window 0 hs (by simpa using hi) ht
    push_cast at *
    omega

theorem enclosed_optCopyCode (h : Enclosed S) {start stop : ℕ} (hs : start ≤ stop)
    (he : stop ≤ S.length) : Enclosed (optCopyCode S start stop) := by
  intro i hi t ht
  rw [optCopyCode, List.length_append, List.length_cons, length_window he]
  rcases List.mem_append.mp hi with hi | hi
  · have := h i hi t ht
    push_cast
    omega
  · rcases List.mem_cons.mp hi with rfl | hi
    · simp only [targets_split, List.mem_cons, List.not_mem_nil, or_false] at ht
      push_cast
      omega
    · have := h.window 1 hs (by simpa using hi) ht
      push_cast at *
      omega

theorem le_length_copiesCode (n : ℕ) (S : List ReInst) (start stop : ℕ) :
    S.length ≤ (copiesCode n S start stop).length := by
  induction n generalizing S with
  | zero => exact le_rfl
  | succ n ih => exact le_trans (by simp [copyCode]) (ih _)

theorem le_length_optCopiesCode (n : ℕ) (S : List ReInst) (start stop : ℕ) :
    S.length ≤ (optCopiesCode n S start stop).length := by
  induction n generalizing S with
  | zero => exact le_rfl
  | succ n ih => exact le_trans (by simp [optCopyCode]) (ih _)

theorem enclosed_copiesCode (h : Enclosed S) (n : ℕ) {start stop : ℕ} (hs : start ≤ stop)
    (he : stop ≤ S.length) : Enclosed (copiesCode n S start stop) := by
  induction n generalizing S with
  | zero => exact h
  | succ n ih =>
    exact ih (enclosed_copyCode h hs he) (he.trans (by simp [copyCode]))

theorem enclosed_optCopiesCode (h : Enclosed S) (n : ℕ) {start stop : ℕ} (hs : start ≤ stop)
    (he : stop ≤ S.length) : Enclosed (optCopiesCode n S start stop) := by
  induction n generalizing S with
  | zero => exact h
  | succ n ih =>
    exact ih (enclosed_optCopyCode h hs he) (he.trans (by simp [optCopyCode]))

theorem enclosed_quantCode (h : Enclosed S) (q : Quantifier) : Enclosed (quantCode S q) := by
  have hle : ∀ n, S.length ≤ (copiesCode n S 0 S.length).length :=
    fun n => le_length_copiesCode n S 0 S.length
  have hcopies : ∀ n, Enclosed (copiesCode n S 0 S.length) :=
    fun n => enclosed_copiesCode h n (Nat.zero_le _) le_rfl
  match q with
  | .one => exact h
  | .star => exact enclosed_starCode h
  | .plus => exact h.concat (by simp; omega)
  | .question => exact enclosed_optCode h
  | .interval 0 none => exact enclosed_starCode h
  | .interval 0 (some max) =>
    exact enclosed_optCopiesCode (enclosed_optCode h) _ (Nat.zero_le _) (by simp [optCode])
  | .interval (min + 1) none =>
    exact (enclosed_optCopyCode (hcopies min) (Nat.zero_le _) (hle min)).concat
      (by simp [optCopyCode]; omega)
  | .interval (min + 1) (some max) =>
    exact enclosed_optCopiesCode (hcopies min) _ (Nat.zero_le _) (hle min)

theorem quantLead_le {ℓ : ℕ} (h : ℓ ≤ S.length) (q : Quantifier) :
    quantLead ℓ q ≤ (quantCode S q).length := by
  have hcopies : ∀ n, S.length ≤ (copiesCode n S 0 S.length).length :=
    fun n => le_length_copiesCode n S 0 S.length
  match q with
  | .one => exact h
  | .star | .interval 0 none => simp [quantLead, quantCode, starCode, optCode]; omega
  | .plus => simp [quantLead, quantCode]; omega
  | .question => simp [quantLead, quantCode, optCode]; omega
  | .interval 0 (some max) =>
    have := le_length_optCopiesCode (max - 1) (optCode S) 0 S.length
    simp [quantLead, quantCode, optCode] at *
    omega
  | .interval (min + 1) none =>
    have := hcopies min
    simp [quantLead, quantCode, openCode, optCopyCode]
    omega
  | .interval (min + 1) (some max) =>
    exact h.trans ((hcopies min).trans (le_length_optCopiesCode _ _ _ _))

/-- The targets of a run of branches are its end or lie between its bounds. -/
theorem targets_unitsFrom {codes : List (List ReInst)} (h : ∀ S ∈ codes, Enclosed S) (o : ℕ)
    (stop : Int) : ∀ i ∈ unitsFrom o stop codes, ∀ t ∈ i.targets,
      t = stop ∨ (o ≤ t ∧ t ≤ o + unitsLength codes) := by
  induction codes generalizing o with
  | nil => simp [unitsFrom]
  | cons S rest ih =>
    obtain ⟨hS, hrest⟩ := List.forall_mem_cons.mp h
    have hlen : unitsLength (S :: rest) = S.length + 2 + unitsLength rest := by
      simp [unitsLength]
    intro i hi t ht
    rw [hlen]
    simp only [unitsFrom, List.cons_append, List.mem_cons, List.mem_append] at hi
    rcases hi with rfl | hi | rfl | hi
    · simp only [targets_split, List.mem_cons, List.not_mem_nil, or_false] at ht
      right
      push_cast
      omega
    · have := hS.reloc hi ht
      right
      push_cast at *
      omega
    · exact .inl (by simpa using ht)
    · rcases ih hrest _ i hi t ht with he | he
      · exact .inl he
      · right
        push_cast at *
        omega

theorem enclosed_units {codes : List (List ReInst)} (h : ∀ S ∈ codes, Enclosed S) :
    Enclosed (units codes) := by
  intro i hi t ht
  rw [units, length_unitsFrom]
  rcases targets_unitsFrom h 0 _ i hi t ht with rfl | he
  · omega
  · push_cast at *
    omega

/-- The targets in a group lie before its end, where it saves a position. -/
theorem targets_group (h : Enclosed S) : ∀ i ∈ save :: reloc 1 S ++ [save], ∀ t ∈ i.targets,
    0 ≤ t ∧ t < (save :: reloc 1 S ++ [save]).length := by
  intro i hi t ht
  simp only [List.cons_append, List.mem_cons, List.mem_append, List.not_mem_nil, or_false] at hi
  rcases hi with rfl | hi | rfl
  · simp at ht
  · have := h.reloc hi ht
    simp only [List.length_append, List.length_cons, length_reloc, List.length_nil]
    push_cast at *
    omega
  · simp at ht

end Bounds

mutual

theorem Atom.enclosed : (a : Atom) → Enclosed a.code
  | .leaf l => by simp [Enclosed, Atom.code]
  | .group false body => by simpa [Atom.code] using body.enclosed
  | .group true body => fun i hi t ht =>
    have hin := targets_group body.enclosed i hi t ht
    ⟨hin.1, hin.2.le⟩

theorem Sequence.enclosed : (b : Sequence) → Enclosed b.code
  | .nil => by rw [Sequence.code]; exact enclosed_nil
  | .cons a q rest => by
    rw [Sequence.code]
    exact enclosed_join (enclosed_quantCode a.enclosed q) rest.enclosed rest.lead_le

theorem Alternation.enclosed : (a : Alternation) → Enclosed a.code
  | .last branch => by simpa [Alternation.code] using branch.enclosed
  | .more branch rest => by
    rw [Alternation.code]
    exact enclosed_units (List.forall_mem_cons.mpr ⟨branch.enclosed, rest.enclosed_codes⟩)

theorem Alternation.enclosed_codes : (a : Alternation) → ∀ S ∈ a.codes, Enclosed S
  | .last branch => by
    rw [Alternation.codes]
    exact List.forall_mem_cons.mpr ⟨branch.enclosed, by simp⟩
  | .more branch rest => by
    rw [Alternation.codes]
    exact List.forall_mem_cons.mpr ⟨branch.enclosed, rest.enclosed_codes⟩

theorem Atom.lead_le : (a : Atom) → a.lead ≤ a.code.length
  | .leaf l => by simp [Atom.lead]
  | .group false body => by simpa [Atom.code, Atom.lead] using body.lead_le
  | .group true body => by simp [Atom.lead]

theorem Sequence.lead_le : (b : Sequence) → b.lead ≤ b.code.length
  | .nil => by simp [Sequence.lead]
  | .cons a q rest => by
    have ha := quantLead_le a.lead_le q
    have hr := rest.lead_le
    rw [Sequence.lead, Sequence.code, length_join]
    split <;> omega

theorem Alternation.lead_le : (a : Alternation) → a.lead ≤ a.code.length
  | .last branch => by simpa [Alternation.code, Alternation.lead] using branch.lead_le
  | .more branch rest => by
    have := branch.lead_le
    simp only [Alternation.lead, Alternation.code, units, length_unitsFrom, unitsLength]
    omega

end

/-! ## Compiling extends the program by the code -/

theorem clean_eq_split {i : ReInst} {x y : Int} (h : i.clean = split x y) : i = split x y := by
  obtain ⟨op, ch, set, x', y'⟩ := i
  cases op <;> simp_all [ReInst.clean, split]

theorem clean_setX_of_jmp {i : ReInst} {x : Int} (h : i.clean = jmp x) (v : Int) :
    (setX v i).clean = jmp v := by
  obtain ⟨op, ch, set, x', y'⟩ := i
  cases op <;> simp_all [ReInst.clean, jmp, setX]

section Operations

variable {A P S : List ReInst} {ℓ : ℕ}

/-- Append an instruction whose targets are given as absolute addresses. -/
theorem Extends.append_split (h : Extends A P ℓ S) (x y : Int) :
    Extends A (P ++ [split x y]) ℓ (S ++ [split (x - A.length) (y - A.length)]) :=
  h.append (by simp [split, ReInst.clean, ReInst.mapTargets]) nofun

theorem Extends.append_jmp (h : Extends A P ℓ S) (x : Int) :
    Extends A (P ++ [jmp x]) ℓ (S ++ [jmp (x - A.length)]) :=
  h.append (by simp [jmp, ReInst.clean, ReInst.mapTargets]) nofun

theorem Extends.append_save (h : Extends A P ℓ S) {x : Int} (hx : 1 ≤ x) :
    Extends A (P ++ [{ op := .reSave, x := x }]) ℓ (S ++ [save]) :=
  h.append (by simp [save, ReInst.clean, ReInst.mapTargets]) fun _ => hx

theorem Extends.wrapOptional (h : Extends A P ℓ S) (hS : Enclosed S) :
    Extends A (wrapOptional P A.length) (ℓ + 1) (optCode S) := by
  have hlen := h.length
  have hclear : ∀ i : ReInst, i.clean = ReInst.zero.mapTargets (· + A.length) →
      (i.toSplit (A.length + 1) (P.length + 1)).clean =
        (split 1 (S.length + 1)).mapTargets (· + A.length) := by
    rintro ⟨op, ch, set, x, y⟩ hi
    have hs : split (A.length + 1) (P.length + 1) =
        (split 1 (S.length + 1)).mapTargets (· + A.length) := by
      rw [mapTargets_split]
      congr 1 <;> push_cast [hlen] <;> omega
    rw [← hs]
    cases op <;>
      simp_all [ReInst.clean, ReInst.toSplit, ReInst.zero, ReInst.mapTargets, split]
  exact (h.insert hS.nonneg).modify (k := 0) rfl hclear (by simp [split])

theorem Extends.wrapStar (h : Extends A P ℓ S) (hS : Enclosed S) :
    Extends A (wrapStar P A.length) (ℓ + 1) (starCode S) := by
  have hj := (h.wrapOptional hS).append_jmp A.length
  rwa [sub_self] at hj

theorem Extends.modify_mid {T : List ReInst} {j j' : ReInst} (h : Extends A P ℓ (S ++ j :: T))
    {k : ℕ} (hk : k = A.length + S.length) {f : ReInst → ReInst}
    (hf : ∀ i : ReInst, i.clean = j.mapTargets (· + A.length) →
      (f i).clean = j'.mapTargets (· + A.length)) (hop : j'.op ≠ .reSave) :
    Extends A (P.modify k f) ℓ (S ++ j' :: T) := by
  subst hk
  have hm := h.modify (k := S.length) (by simp) hf hop
  rwa [List.set_append_right _ _ le_rfl, Nat.sub_self, List.set_cons_zero] at hm

theorem Extends.toSplit_mid {T : List ReInst} {x y : Int}
    (h : Extends A P ℓ (S ++ split x y :: T)) {k : ℕ} (hk : k = A.length + S.length)
    (x' y' : Int) :
    Extends A (P.modify k (.toSplit x' y')) ℓ
      (S ++ split (x' - A.length) (y' - A.length) :: T) := by
  refine h.modify_mid hk (fun i hi => ?_) nofun
  rw [clean_eq_split hi]
  simp [ReInst.toSplit, split, ReInst.clean, ReInst.mapTargets]

theorem Extends.copyAll (h : Extends A P ℓ S) {stop : ℕ} (hs : stop ≤ S.length) :
    Extends A (copyBlock P A.length (A.length + stop)) ℓ (copyCode S 0 stop) :=
  h.copy (Nat.zero_le _) hs

theorem Extends.copies (h : Extends A P ℓ S) {stop : ℕ} (hs : stop ≤ S.length) (n : ℕ) :
    Extends A (copies n P A.length (A.length + stop)) ℓ (copiesCode n S 0 stop) := by
  induction n generalizing P S with
  | zero => exact h
  | succ n ih => exact ih (h.copyAll hs) (hs.trans (by simp [copyCode]))

theorem Extends.optionalCopy (h : Extends A P ℓ S) {stop : ℕ} (hs : stop ≤ S.length) :
    Extends A (optionalCopy P A.length (A.length + stop)) ℓ (optCopyCode S 0 stop) := by
  have hlen := h.length
  have hc := (h.append_split 0 0).copyAll (hs.trans (by simp))
  have hl : (copyBlock (P ++ [split 0 0]) A.length (A.length + stop)).length =
      P.length + 1 + stop := by
    rw [length_copyBlock _ (by simp; omega)]
    simp
  have hw : copyCode (S ++ [split (0 - A.length) (0 - A.length)]) 0 stop =
      S ++ split (0 - A.length) (0 - A.length) :: window S 0 stop (S.length + 1 - (0 : ℕ)) := by
    simp [copyCode, window, List.take_append_of_le_length hs]
  rw [hw] at hc
  have hm := hc.toSplit_mid hlen (P.length + 1) (P.length + 1 + stop : ℕ)
  have he : (P.length : Int) + 1 - A.length = S.length + 1 := by omega
  have he' : ((P.length + 1 + stop : ℕ) : Int) - A.length = S.length + 1 + (stop - 0 : ℕ) := by
    push_cast
    omega
  rw [he, he', ← hl] at hm
  exact hm

theorem Extends.optionalCopies (h : Extends A P ℓ S) {stop : ℕ} (hs : stop ≤ S.length) (n : ℕ) :
    Extends A (optionalCopies n P A.length (A.length + stop)) ℓ (optCopiesCode n S 0 stop) := by
  induction n generalizing P S with
  | zero => exact h
  | succ n ih => exact ih (h.optionalCopy hs) (hs.trans (by simp [optCopyCode]))

theorem Extends.openTail (h : Extends A P ℓ S) {stop : ℕ} (hs : stop ≤ S.length) :
    Extends A (openTail P A.length (A.length + stop)) ℓ (openCode S 0 stop) := by
  have hlen := h.length
  have hj := (h.optionalCopy hs).append_jmp P.length
  have he : (P.length : Int) - A.length = S.length := by omega
  rwa [he] at hj

theorem Extends.quantify (h : Extends A P ℓ S) (hS : Enclosed S) (q : Quantifier) :
    Extends A (quantify P A.length q) (quantLead ℓ q) (quantCode S q) := by
  have hlen := h.length
  have hle : ∀ n, S.length ≤ (copiesCode n S 0 S.length).length :=
    fun n => le_length_copiesCode n S 0 S.length
  match q with
  | .one => exact h
  | .star => exact h.wrapStar hS
  | .plus =>
    have hj := h.append_split A.length (P.length + 1)
    have he : (P.length : Int) + 1 - A.length = S.length + 1 := by omega
    rwa [sub_self, he] at hj
  | .question => exact h.wrapOptional hS
  | .interval 0 none => exact h.wrapStar hS
  | .interval 0 (some max) =>
    rw [Regex.quantify, hlen]
    exact (h.wrapOptional hS).optionalCopies (by simp [optCode]) _
  | .interval (min + 1) none =>
    rw [Regex.quantify, hlen]
    exact (h.copies le_rfl min).openTail (hle min)
  | .interval (min + 1) (some max) =>
    rw [Regex.quantify, hlen]
    exact (h.copies le_rfl min).optionalCopies (hle min) _

end Operations

/-! ## Branches -/

theorem unitsLength_append (codes codes' : List (List ReInst)) :
    unitsLength (codes ++ codes') = unitsLength codes + unitsLength codes' := by
  induction codes with
  | nil => simp [unitsLength]
  | cons S rest ih => simp only [List.cons_append, unitsLength, ih, Nat.add_assoc]

theorem unitsFrom_append (o : ℕ) (stop : Int) (codes codes' : List (List ReInst)) :
    unitsFrom o stop (codes ++ codes') =
      unitsFrom o stop codes ++ unitsFrom (o + unitsLength codes) stop codes' := by
  induction codes generalizing o with
  | nil => simp [unitsFrom, unitsLength]
  | cons S rest ih =>
    have hlen : unitsLength (S :: rest) = S.length + 2 + unitsLength rest := by
      simp [unitsLength]
    rw [List.cons_append, unitsFrom, unitsFrom, ih, hlen]
    simp [Nat.add_assoc]

/-- The addresses of the jumps of branches laid out from `o` on. -/
def jumpsFrom (o : ℕ) : List (List ReInst) → List ℕ
  | [] => []
  | S :: rest => (o + S.length + 1) :: jumpsFrom (o + S.length + 2) rest

theorem jumpsFrom_append (o : ℕ) (codes : List (List ReInst)) (S : List ReInst) :
    jumpsFrom o (codes ++ [S]) = jumpsFrom o codes ++ [o + unitsLength codes + S.length + 1] := by
  induction codes generalizing o with
  | nil => simp [jumpsFrom, unitsLength]
  | cons T rest ih =>
    have hlen : unitsLength (T :: rest) = T.length + 2 + unitsLength rest := by
      simp [unitsLength]
    rw [List.cons_append, jumpsFrom, jumpsFrom, ih, hlen]
    simp [Nat.add_assoc]

/-- The branches read so far: all but the last are linked to the next one. -/
def openUnits (v : Int) (codes : List (List ReInst)) (S : List ReInst) (y : Int) : List ReInst :=
  unitsFrom 0 v codes ++
    split (unitsLength codes + 1) y :: (reloc (unitsLength codes + 1) S ++ [jmp v])

section Branches

variable {A P S : List ReInst} {ℓ : ℕ}

theorem clean_setY_of_split {i : ReInst} {x y : Int} (h : i.clean = split x y) (v : Int) :
    (setY v i).clean = split x v := by
  rw [clean_eq_split h]; rfl

theorem openUnits_close (v : Int) (codes : List (List ReInst)) (S : List ReInst) :
    openUnits v codes S (unitsLength codes + S.length + 2) = unitsFrom 0 v (codes ++ [S]) := by
  simp [openUnits, unitsFrom_append, unitsFrom]

/-- Point the last split of the branches read so far just past them. -/
theorem Extends.linkLast {v : Int} {codes : List (List ReInst)} {y : Int}
    (h : Extends A P ℓ (openUnits v codes S y)) :
    Extends A (P.modify (A.length + unitsLength codes) (setY P.length)) ℓ
      (unitsFrom 0 v (codes ++ [S])) := by
  have hlen : (P.length : Int) = unitsLength codes + S.length + 2 + A.length := by
    have := h.length
    simp [openUnits] at this
    omega
  rw [← openUnits_close]
  refine h.modify_mid (by simp) (fun i hi => ?_) nofun
  rw [clean_setY_of_split hi, mapTargets_split, hlen]
  rfl

theorem Extends.patchJumps (stop : ℕ) {v : Int} {U : List ReInst} (codes : List (List ReInst))
    (h : Extends A P ℓ (U ++ unitsFrom U.length v codes)) :
    Extends A ((jumpsFrom (A.length + U.length) codes).foldl
        (fun p jump => p.modify jump (setX stop)) P) ℓ
      (U ++ unitsFrom U.length (stop - A.length) codes) := by
  induction codes generalizing U P with
  | nil => exact h
  | cons S rest ih =>
    rw [unitsFrom, ← List.append_assoc] at h
    have hm : Extends A (P.modify (A.length + U.length + S.length + 1) (setX stop)) ℓ
        ((U ++ split (U.length + 1) (U.length + S.length + 2) :: reloc (U.length + 1) S) ++
          jmp (stop - A.length) :: unitsFrom (U.length + S.length + 2) v rest) := by
      refine h.modify_mid (by simp; omega) (fun i hi => ?_) nofun
      rw [clean_setX_of_jmp hi, mapTargets_jmp, sub_add_cancel]
    have hl : (U ++ split (U.length + 1) (U.length + S.length + 2) :: reloc (U.length + 1) S ++
        [jmp (stop - A.length)]).length = U.length + S.length + 2 := by
      simp
      omega
    rw [List.append_cons, ← hl] at hm
    have hr := ih hm
    rw [hl] at hr
    simpa [jumpsFrom, unitsFrom, Nat.add_assoc] using hr

/-- Code without exits at its end is not displaced by what follows. -/
theorem join_eq_append {T : List ReInst} {m : ℕ}
    (h : ∀ i ∈ S, ∀ t ∈ i.targets, t < S.length) : join S m T = S ++ reloc S.length T := by
  rw [join]
  congr 1
  refine (List.map_congr_left fun i hi => ReInst.mapTargets_eq_self fun t ht => ?_).trans
    (List.map_id' S)
  have := h i hi t ht
  exact if_neg (by omega)

theorem modify_append_left {l l' : List ReInst} {k : ℕ} (h : k < l.length)
    (f : ReInst → ReInst) : (l ++ l').modify k f = l.modify k f ++ l' := by
  induction l generalizing k with
  | nil => simp at h
  | cons i l ih =>
    cases k with
    | zero => rfl
    | succ k => simp [ih (by simpa using h)]

theorem Extends.openBranch {codes : List (List ReInst)} {y : Int}
    (h : Extends A P ℓ (openUnits (-A.length) codes S y)) :
    Extends A (openBranch P (A.length + unitsLength codes)) ℓ
      (unitsFrom 0 (-A.length) (codes ++ [S]) ++ [split (-A.length) (-A.length)]) := by
  have hlt : A.length + unitsLength codes < P.length := by
    have := h.length
    simp [openUnits] at this
    omega
  have ha := h.linkLast.append_split 0 0
  rw [← modify_append_left hlt, zero_sub] at ha
  exact ha

theorem Extends.closeBranch {codes : List (List ReInst)} {B : List ReInst} {m : ℕ}
    {b : List ReInst}
    (h : Extends A P ℓ (unitsFrom 0 (-A.length) codes ++ [split (-A.length) (-A.length)]))
    (hℓ : ℓ ≤ unitsLength codes) (hcodes : ∀ T ∈ codes, Enclosed T) (hb : Extends P B m b) :
    Extends A (closeBranch B (A.length + unitsLength codes)) ℓ
      (openUnits (-A.length) codes b (unitsLength codes + b.length + 1)) := by
  have ht : ∀ i ∈ unitsFrom 0 (-A.length) codes ++ [split (-A.length) (-A.length)],
      ∀ t ∈ i.targets, t < (unitsFrom 0 (-A.length : Int) codes ++
        [split (-A.length) (-A.length)]).length := by
    intro i hi t ht
    rw [List.length_append, length_unitsFrom, List.length_singleton]
    rcases List.mem_append.mp hi with hi | hi
    · rcases targets_unitsFrom hcodes 0 _ i hi t ht with rfl | he <;> push_cast <;> omega
    · obtain rfl := List.mem_singleton.mp hi
      simp at ht
      push_cast
      omega
  have hj := h.trans hb (fun i hi t h => (ht i hi t h).le) (by simp; omega)
  rw [join_eq_append ht, if_neg (by simp; omega), List.append_assoc] at hj
  have hlen := hj.length
  simp only [List.length_append, length_unitsFrom, List.length_singleton, length_reloc] at hlen
  have hm : Extends A (B.modify (A.length + unitsLength codes) fun i =>
      setY B.length (setX ((A.length + unitsLength codes : ℕ) + 1) i)) ℓ
      (unitsFrom 0 (-A.length) codes ++ split (unitsLength codes + 1)
        (unitsLength codes + b.length + 1) :: reloc (unitsLength codes + 1) b) := by
    have he : (B.length : Int) = unitsLength codes + b.length + 1 + A.length := by omega
    rw [List.length_append, length_unitsFrom, List.length_singleton] at hj
    refine hj.modify_mid (by simp) (fun i hi => ?_) nofun
    have hx : ((A.length + unitsLength codes : ℕ) : Int) + 1 =
        unitsLength codes + 1 + A.length := by omega
    rw [clean_eq_split hi, he, hx]
    rfl
  have ha := hm.append_jmp 0
  rw [zero_sub, List.append_assoc, List.cons_append] at ha
  exact ha

theorem length_openUnits (v : Int) (codes : List (List ReInst)) (S : List ReInst) (y : Int) :
    (openUnits v codes S y).length = unitsLength (codes ++ [S]) := by
  simp [openUnits, unitsLength_append, unitsLength]

theorem Extends.addBranch {codes : List (List ReInst)} {y : Int} {B : List ReInst} {m : ℕ}
    {b : List ReInst} {lastSplit : ℕ} (h : Extends A P ℓ (openUnits (-A.length) codes S y))
    (hℓ : ℓ ≤ unitsLength (codes ++ [S])) (hcodes : ∀ T ∈ codes ++ [S], Enclosed T)
    (hs : lastSplit = A.length + unitsLength codes)
    (hb : Extends (Regex.openBranch P lastSplit) B m b) :
    Extends A (Regex.closeBranch B P.length) ℓ
      (openUnits (-A.length) (codes ++ [S]) b (unitsLength (codes ++ [S]) + b.length + 1)) ∧
    P.length = A.length + unitsLength (codes ++ [S]) ∧
    jumpsFrom A.length (codes ++ [S]) ++ [B.length] = jumpsFrom A.length (codes ++ [S] ++ [b]) := by
  subst hs
  have hP := h.length
  have hB := hb.length
  rw [length_openUnits] at hP
  have ho : (Regex.openBranch P (A.length + unitsLength codes)).length = P.length + 1 := by
    simp [Regex.openBranch]
  refine ⟨?_, hP, ?_⟩
  · rw [hP]
    exact h.openBranch.closeBranch hℓ hcodes hb
  · rw [jumpsFrom_append _ (codes ++ [S]), hB, ho, hP]
    congr 2
    omega

theorem Extends.patchAlternation {codes : List (List ReInst)} {y : Int} {lastSplit : ℕ}
    {jumps : List ℕ} (h : Extends A P ℓ (openUnits (-A.length) codes S y))
    (hs : lastSplit = A.length + unitsLength codes)
    (hj : jumps = jumpsFrom A.length (codes ++ [S])) :
    Extends A (patchAlternation P lastSplit jumps) ℓ (units (codes ++ [S])) := by
  have hlen := h.length
  rw [length_openUnits] at hlen
  have hp := Extends.patchJumps (U := []) P.length (codes ++ [S]) h.linkLast
  have he : (P.length : Int) - A.length = unitsLength (codes ++ [S]) := by omega
  rw [he] at hp
  subst hs hj
  exact hp

end Branches

mutual

theorem extends_genAtom : (a : Atom) → (c : Code) →
    Extends c.program (genAtom a c).program a.lead a.code
  | .leaf l, c => by
    refine (Extends.refl c.program).append (by simp [ReInst.mapTargets_eq_self]) fun hl => ?_
    cases l <;> exact nomatch hl
  | .group false body, c => by
    simpa [Atom.code, Atom.lead, genAtom, Code.openGroup, Code.closeGroup] using
      extends_genAlternation body c
  | .group true body, c => by
    have hopen := (Extends.refl c.program).append_save (x := (c.groups + 1 : ℕ) * 2) (by omega)
    have hbody := hopen.trans (extends_genAlternation body ⟨_, c.groups + 1⟩) (by simp) (by simp)
    rw [join_eq_append (by simp), if_neg (by simp)] at hbody
    exact hbody.append_save (by omega)

theorem extends_genSequence : (b : Sequence) → (c : Code) →
    Extends c.program (genSequence b c).program b.lead b.code
  | .nil, c => Extends.refl c.program
  | .cons a q rest, c => by
    have ha := (extends_genAtom a c).quantify a.enclosed q
    have hr := extends_genSequence rest
      { genAtom a c with program := quantify (genAtom a c).program c.program.length q }
    exact ha.trans hr (enclosed_quantCode a.enclosed q).le (quantLead_le a.lead_le q)

theorem extends_genAlternation : (a : Alternation) → (c : Code) →
    Extends c.program (genAlternation a c).program a.lead a.code
  | .last branch, c => extends_genSequence branch c
  | .more branch rest, c => by
    have hb := extends_genSequence branch c
    have hw := (hb.wrapOptional branch.enclosed).append_jmp 0
    have hlen := hw.length
    have hle := branch.lead_le
    refine extends_genBranches rest _ [] branch.code (branch.code.length + 1) ?_ ?_ ?_ ?_ ?_
    · rw [Alternation.lead]
      simpa [openUnits, optCode, unitsFrom, unitsLength, jmp] using hw
    · simp [unitsLength, Alternation.lead]
      omega
    · simpa using branch.enclosed
    · simp [unitsLength]
    · simp [optCode] at hlen
      simp [jumpsFrom]
      omega

theorem extends_genBranches : (a : Alternation) → (c : Code) → {A : List ReInst} → {ℓ : ℕ} →
    (codes : List (List ReInst)) → (S : List ReInst) → (y : Int) → {lastSplit : ℕ} →
    {jumps : List ℕ} → Extends A c.program ℓ (openUnits (-A.length) codes S y) →
    ℓ ≤ unitsLength (codes ++ [S]) → (∀ T ∈ codes ++ [S], Enclosed T) →
    lastSplit = A.length + unitsLength codes → jumps = jumpsFrom A.length (codes ++ [S]) →
    Extends A (genBranches a c lastSplit jumps).program ℓ (units (codes ++ S :: a.codes))
  | .last branch, c, A, ℓ, codes, S, y, lastSplit, jumps, h, hℓ, hcodes, hs, hj => by
    obtain ⟨hb, hP, hjs⟩ := h.addBranch hℓ hcodes hs
      (extends_genSequence branch ⟨openBranch c.program lastSplit, c.groups⟩)
    rw [← hj] at hjs
    have hp := hb.patchAlternation hP hjs
    rwa [List.append_assoc] at hp
  | .more branch rest, c, A, ℓ, codes, S, y, lastSplit, jumps, h, hℓ, hcodes, hs, hj => by
    obtain ⟨hb, hP, hjs⟩ := h.addBranch hℓ hcodes hs
      (extends_genSequence branch ⟨openBranch c.program lastSplit, c.groups⟩)
    rw [← hj] at hjs
    have hr := extends_genBranches rest ⟨_, (genSequence branch
      ⟨openBranch c.program lastSplit, c.groups⟩).groups⟩ (codes ++ [S]) branch.code _ hb
      (by rw [unitsLength_append]; omega)
      (by simpa [or_imp, forall_and, branch.enclosed] using hcodes) hP hjs
    rwa [List.append_assoc] at hr

end

end LampUserspace.Regex
