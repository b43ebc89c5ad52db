import LampUserspace.Libc.Moving
import LampUserspace.Regex.Growth
import LampUserspace.Regex.Layout

/-! # Insertion in place

A program lies in memory as an array of `re_inst`. Once there is room, `re_insert`
moves the instructions behind the new slot, clears the slot, and relocates the
branch targets of one instruction after the other. On what the bytes hold this is
the pure operation on lists.
-/

namespace LampUserspace.Regex

variable {m m' : Memory} {p a a' k n index length : ℕ} {i : ReInst} {program : List ReInst}

/-! ## Instructions in memory -/

def ReOp.code : ReOp → UInt8
  | .reChar => 0
  | .reAny => 1
  | .reClass => 2
  | .reSplit => 3
  | .reJmp => 4
  | .reSave => 5
  | .reBol => 6
  | .reEol => 7
  | .reWordb => 8
  | .reNotWordb => 9
  | .reMatch => 10

/-- `sizeof(re_inst)`; two bytes of padding stand before the aligned `x`. -/
abbrev sizeofReInst : ℕ := 44

/-- `&program[i]`. -/
def instAddr (p i : ℕ) : ℕ := p + i * sizeofReInst

/-- The bytes at `a` are those of an instruction, whatever the padding holds. -/
structure InstAt (m : Memory) (a : ℕ) (i : ReInst) : Prop where
  op : m a = i.op.code
  ch : m (a + 1) = i.ch
  set : ∀ t (ht : t < 32), m (a + 2 + t) = i.set[t]
  x : m.loadInt (a + 36) = i.x
  y : m.loadInt (a + 40) = i.y

def ProgramAt (m : Memory) (p : ℕ) (program : List ReInst) : Prop :=
  ∀ k i, program[k]? = some i → InstAt m (instAddr p k) i

theorem instAddr_eq (p i : ℕ) : instAddr p i = p + i * 44 := rfl

theorem instAddr_le (p : ℕ) (h : k < n) : instAddr p k + 44 ≤ instAddr p n := by
  rw [instAddr_eq, instAddr_eq]
  omega

/-! ## The code -/

/-- `if (*a >= index) (*a)++;` -/
def bumpInt (index : ℕ) (a : ℕ) (m : Memory) : Memory :=
  if m.loadInt a ≥ index then m.storeInt a (m.loadInt a + 1) else m

/-- The body of the loop of `re_insert`. -/
def relocateInst (p index i : ℕ) (m : Memory) : Memory :=
  bumpInt index (instAddr p i + 40) (bumpInt index (instAddr p i + 36) m)

/-- The loop of `re_insert`, from `i` on. -/
def relocateFrom (p length index i : ℕ) (m : Memory) : Memory :=
  if i < length then relocateFrom p length index (i + 1) (relocateInst p index i m) else m
termination_by length - i

/-- The `memmove` and the `memset` of `re_insert`. -/
def openSlot (p length index : ℕ) (m : Memory) : Memory :=
  let m := (memmove (.ofNat (instAddr p (index + 1))) (.ofNat (instAddr p index))
    (.ofNat ((length - index) * sizeofReInst)) m).2
  (memset (.ofNat (instAddr p index)) 0 (.ofNat sizeofReInst) m).2

/-- `re_insert` on the bytes of a block with room. -/
def insertInPlace (p length index : ℕ) (m : Memory) : Memory :=
  relocateFrom p (length + 1) index 0 (openSlot p length index m)

/-! ## Bytes and instructions -/

theorem InstAt.congr (h : InstAt m a i) (hbytes : ∀ t < 44, m' (a' + t) = m (a + t)) :
    InstAt m' a' i := by
  have hword : ∀ o, o + 4 ≤ 44 → m'.loadInt (a' + o) = m.loadInt (a + o) :=
    fun o ho => Memory.loadInt_move fun t ht => by
      rw [Nat.add_assoc, Nat.add_assoc]
      exact hbytes (o + t) (by omega)
  refine ⟨(hbytes 0 (by decide)).trans h.op, (hbytes 1 (by decide)).trans h.ch, fun t ht => ?_,
    (hword 36 (by decide)).trans h.x, (hword 40 (by decide)).trans h.y⟩
  rw [← h.set t ht, Nat.add_assoc, Nat.add_assoc]
  exact hbytes (2 + t) (by omega)

theorem instAt_zero (h : ∀ t < 44, m (a + t) = 0) : InstAt m a ReInst.zero := by
  have hcleared : InstAt (fun _ => 0) 0 ReInst.zero :=
    ⟨rfl, rfl, fun t ht => (Vector.getElem_replicate ht).symm, rfl, rfl⟩
  exact hcleared.congr h

/-! ## Relocation -/

theorem bumpInt_frame (m : Memory) {x : ℕ} (h : x < a ∨ a + 4 ≤ x) : bumpInt index a m x = m x := by
  unfold bumpInt
  split
  · exact Memory.storeInt_frame _ h
  · rfl

theorem loadInt_bumpInt (h : m.loadInt a < 2 ^ 31 - 1) :
    (bumpInt index a m).loadInt a = bumpFrom index (m.loadInt a) := by
  have hge := m.le_loadInt a
  unfold bumpInt bumpFrom
  split
  · exact Memory.loadInt_storeInt m a (by omega) (by omega)
  · rfl

theorem relocateInst_frame (m : Memory) {x : ℕ}
    (h : x < instAddr p k + 36 ∨ instAddr p k + 44 ≤ x) :
    relocateInst p index k m x = m x := by
  rw [relocateInst, bumpInt_frame _ (by omega), bumpInt_frame _ (by omega)]

/-- An `int` that can still be incremented. -/
def ReInst.Bumpable (i : ReInst) : Prop := i.x < 2 ^ 31 - 1 ∧ i.y < 2 ^ 31 - 1

theorem InstAt.relocate (h : InstAt m (instAddr p k) i) (hmax : i.Bumpable) :
    InstAt (relocateInst p index k m) (instAddr p k) (i.shiftFrom index) where
  op := (relocateInst_frame m (by omega)).trans h.op
  ch := (relocateInst_frame m (by omega)).trans h.ch
  set t ht := (relocateInst_frame m (by omega)).trans (h.set t ht)
  x := by
    have hx : m.loadInt (instAddr p k + 36) < 2 ^ 31 - 1 := h.x ▸ hmax.1
    have hkept : (relocateInst p index k m).loadInt (instAddr p k + 36) =
        (bumpInt index (instAddr p k + 36) m).loadInt (instAddr p k + 36) :=
      Memory.loadInt_move fun t ht => bumpInt_frame _ (by omega)
    rw [hkept, loadInt_bumpInt hx, h.x]
    rfl
  y := by
    have hkept : (bumpInt index (instAddr p k + 36) m).loadInt (instAddr p k + 40) = i.y :=
      (Memory.loadInt_move fun t ht => bumpInt_frame _ (by omega)).trans h.y
    rw [relocateInst, loadInt_bumpInt (hkept ▸ hmax.2), hkept]
    rfl

/-- The instructions before `n` are relocated and the others are not. -/
def Relocated (m : Memory) (p index n : ℕ) (program : List ReInst) : Prop :=
  ∀ k i, program[k]? = some i →
    InstAt m (instAddr p k) (if k < n then i.shiftFrom index else i)

theorem Relocated.step (h : Relocated m p index n program)
    (hmax : ∀ i ∈ program, i.Bumpable) :
    Relocated (relocateInst p index n m) p index (n + 1) program := by
  intro k i hk
  have hat := h k i hk
  rcases Nat.lt_trichotomy k n with hlt | rfl | hgt
  · have hend := instAddr_le p hlt
    rw [if_pos hlt] at hat
    rw [if_pos (Nat.lt_succ_of_lt hlt)]
    exact hat.congr fun t ht => relocateInst_frame m (by omega)
  · rw [if_neg (Nat.lt_irrefl k)] at hat
    rw [if_pos (Nat.lt_succ_self k)]
    exact hat.relocate (hmax i (List.mem_of_getElem? hk))
  · have hend := instAddr_le p hgt
    rw [if_neg (Nat.lt_asymm hgt)] at hat
    rw [if_neg (Nat.not_lt_of_ge hgt)]
    exact hat.congr fun t ht => relocateInst_frame m (by omega)

theorem Relocated.run (hmax : ∀ i ∈ program, i.Bumpable) (h : Relocated m p index n program) :
    ProgramAt (relocateFrom p program.length index n m) p
      (program.map (ReInst.shiftFrom index)) := by
  fun_induction relocateFrom p program.length index n m with
  | case1 n m hlt ih => exact ih (h.step hmax)
  | case2 n m hge =>
    intro k j hk
    obtain ⟨i, hi, rfl⟩ := Option.map_eq_some_iff.mp (List.getElem?_map ▸ hk)
    have hlt : k < program.length := (List.getElem?_eq_some_iff.mp hi).1
    have hat := h k i hi
    rwa [if_pos (by omega)] at hat

theorem relocateFrom_frame (m : Memory) {x : ℕ} (h : x < p ∨ instAddr p length ≤ x) :
    relocateFrom p length index n m x = m x := by
  fun_induction relocateFrom p length index n m with
  | case1 n m hlt ih =>
    have hend := instAddr_le p hlt
    have hstart : p ≤ instAddr p n := Nat.le_add_right ..
    rw [ih, relocateInst_frame m (by omega)]
  | case2 n m hge => rfl

/-! ## The slot -/

/-- The instructions from `index` on are one place further, over a cleared slot. -/
structure Opened (p length index : ℕ) (m m' : Memory) : Prop where
  slot : ∀ t < 44, m' (instAddr p index + t) = 0
  moved : ∀ k, index ≤ k → k < length → ∀ t < 44,
    m' (instAddr p (k + 1) + t) = m (instAddr p k + t)
  frame : ∀ x, (x < instAddr p index ∨ instAddr p (length + 1) ≤ x) → m' x = m x

/-- A move of the instructions from `index` on and a clearing of the slot open it. -/
theorem opened_of_copied {moved : Memory} (hindex : index ≤ length)
    (hmoved : Copying.Copied (instAddr p (index + 1) + ·) (instAddr p index + ·)
      (List.range ((length - index) * 44)) m moved)
    (hcleared : ∀ t < 44, m' (instAddr p index + t) = 0)
    (hframe : ∀ x, (x < instAddr p index ∨ instAddr p index + 44 ≤ x) → m' x = moved x) :
    Opened p length index m m' := by
  simp only [instAddr_eq] at hmoved hframe
  refine ⟨hcleared, fun k hk hlt t ht => ?_, fun x hx => ?_⟩
  · obtain ⟨j, rfl⟩ := Nat.exists_eq_add_of_le hk
    have hbyte := hmoved.copied (j * 44 + t) (List.mem_range.mpr (by omega))
    have hto : p + (index + 1) * 44 + (j * 44 + t) = p + (index + j + 1) * 44 + t := by omega
    have hfrom : p + index * 44 + (j * 44 + t) = p + (index + j) * 44 + t := by omega
    rw [hto, hfrom] at hbyte
    rw [instAddr_eq, instAddr_eq, hframe _ (by omega), hbyte]
  · rw [instAddr_eq, instAddr_eq] at hx
    rw [hframe x (by omega)]
    refine hmoved.frame x fun j hj => ?_
    have hlt := List.mem_range.mp hj
    omega

theorem openSlot_opened (m : Memory) (hindex : index ≤ length)
    (hfit : instAddr p (length + 1) < 2 ^ 32) :
    Opened p length index m (openSlot p length index m) := by
  rw [instAddr_eq] at hfit
  have hslot : (UInt32.ofNat (instAddr p index)).toNat = instAddr p index :=
    UInt32.toNat_ofNat_of_lt (by rw [instAddr_eq]; unfold UInt32.size; omega)
  have hnext : (UInt32.ofNat (instAddr p (index + 1))).toNat = instAddr p (index + 1) :=
    UInt32.toNat_ofNat_of_lt (by rw [instAddr_eq]; unfold UInt32.size; omega)
  have hrest : (UInt32.ofNat ((length - index) * sizeofReInst)).toNat = (length - index) * 44 :=
    UInt32.toNat_ofNat_of_lt (by unfold sizeofReInst UInt32.size; omega)
  have hsize : (UInt32.ofNat sizeofReInst).toNat = 44 := rfl
  unfold openSlot
  generalize UInt32.ofNat (instAddr p index) = slot at *
  generalize UInt32.ofNat (instAddr p (index + 1)) = next at *
  generalize UInt32.ofNat ((length - index) * sizeofReInst) = rest at *
  generalize UInt32.ofNat sizeofReInst = size at *
  have heq := instAddr_eq p index
  have heq' := instAddr_eq p (index + 1)
  have hmoved := memmove_copied (show next.toNat + rest.toNat ≤ 2 ^ 32 by omega)
    (show slot.toNat + rest.toNat ≤ 2 ^ 32 by omega) m
  obtain ⟨hcleared, hframe⟩ := memset_fills slot 0 (memmove next slot rest m).2
    (show slot.toNat + size.toNat ≤ 2 ^ 32 by omega)
  rw [hslot, hnext, hrest] at hmoved
  rw [hslot, hsize] at hcleared hframe
  exact opened_of_copied hindex hmoved hcleared hframe

/-- The opened slot holds a cleared instruction between those before and behind it. -/
theorem Opened.programAt (h : Opened p program.length index m m') (hindex : index ≤ program.length)
    (hat : ProgramAt m p program) :
    ProgramAt m' p (program.take index ++ ReInst.zero :: program.drop index) := by
  have htake : (program.take index).length = index := List.length_take_of_le hindex
  intro k i hk
  rcases Nat.lt_trichotomy k index with hlt | rfl | hgt
  · rw [List.getElem?_append_left (by omega), List.getElem?_take_of_lt hlt] at hk
    have hend := instAddr_le p hlt
    exact (hat k i hk).congr fun t ht => h.frame _ (Or.inl (by omega))
  · rw [List.getElem?_append_right (by omega), htake, Nat.sub_self] at hk
    obtain rfl := Option.some.inj hk
    exact instAt_zero h.slot
  · obtain ⟨j, rfl⟩ := Nat.exists_eq_add_of_lt hgt
    have hsub : index + j + 1 - (program.take index).length = j + 1 := by omega
    rw [List.getElem?_append_right (by omega), hsub, List.getElem?_cons_succ,
      List.getElem?_drop] at hk
    have hlt : index + j < program.length := (List.getElem?_eq_some_iff.mp hk).1
    exact (hat (index + j) i hk).congr (h.moved (index + j) (Nat.le_add_right ..) hlt)

/-! ## The insertion -/

theorem insertInPlace_programAt (hindex : index ≤ program.length)
    (hfit : instAddr p (program.length + 1) < 2 ^ 32) (hmax : ∀ i ∈ program, i.Bumpable)
    (hat : ProgramAt m p program) :
    ProgramAt (insertInPlace p program.length index m) p (insertAt program index) := by
  have hopened := (openSlot_opened m hindex hfit).programAt hindex hat
  have hlen : (program.take index ++ ReInst.zero :: program.drop index).length =
      program.length + 1 := by
    rw [List.length_append, List.length_take_of_le hindex, List.length_cons, List.length_drop]
    omega
  have hstart : Relocated (openSlot p program.length index m) p index 0
      (program.take index ++ ReInst.zero :: program.drop index) := hopened
  rw [insertInPlace, ← hlen]
  refine hstart.run fun i hi => ?_
  rcases List.mem_append.mp hi with htake | hrest
  · exact hmax i (List.mem_of_mem_take htake)
  · rcases List.mem_cons.mp hrest with rfl | hdrop
    · exact ⟨by decide, by decide⟩
    · exact hmax i (List.mem_of_mem_drop hdrop)

theorem insertInPlace_frame (m : Memory) {x : ℕ} (hindex : index ≤ length)
    (hfit : instAddr p (length + 1) < 2 ^ 32) (hx : x < p ∨ instAddr p (length + 1) ≤ x) :
    insertInPlace p length index m x = m x := by
  have hstart : p ≤ instAddr p index := Nat.le_add_right ..
  rw [insertInPlace, relocateFrom_frame _ hx]
  exact (openSlot_opened m hindex hfit).frame x (by omega)

/-- Where `re_insert` succeeds, what it does to the bytes of the program is what it does to the
list of instructions, and no byte beyond the longer program changes. -/
theorem insertInPlace_refines {c d : ReCompiler} (h : reInsert c index = (some k, d))
    (hindex : index ≤ c.length) (hfit : instAddr p (c.length + 1) < 2 ^ 32)
    (hmax : ∀ i ∈ c.program, i.Bumpable) (hat : ProgramAt m p c.program) :
    ProgramAt (insertInPlace p c.length index m) p d.program ∧
      ∀ x, (x < p ∨ instAddr p d.length ≤ x) → insertInPlace p c.length index m x = m x := by
  obtain ⟨-, hprogram⟩ := reInsert_program h
  have hlen : d.length = c.length + 1 := by
    rw [ReCompiler.length, hprogram, length_insertAt, ReCompiler.length]
  rw [hprogram, hlen]
  exact ⟨insertInPlace_programAt hindex hfit hmax hat,
    fun x hx => insertInPlace_frame m hindex hfit hx⟩

end LampUserspace.Regex
