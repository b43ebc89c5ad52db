import LampUserspace.Regex.Exec
import LampUserspace.Search.DepthFirst

/-! # The step relation of a program

The plain meaning of a program, without the table: a configuration is a pair of
a program counter and a text position, and each instruction names the
configurations it may go to, in order of preference.
-/

namespace LampUserspace.Regex

structure Conf where
  pc : Int
  pos : ℕ
  deriving DecidableEq

/-- The instruction at a program counter, if that lies in the program. -/
def fetch (program : List ReInst) (pc : Int) : Option ReInst :=
  if pc < 0 then none else program[pc.toNat]?

namespace ReInst

/-- The branch targets of an instruction, in order of preference. -/
def targets (i : ReInst) : List Int :=
  match i.op with
  | .reSplit => [i.x, i.y]
  | .reJmp => [i.x]
  | _ => []

/-- The instruction can hand over to the one after it. -/
def falls (i : ReInst) : Bool :=
  match i.op with
  | .reSplit | .reJmp | .reMatch => false
  | _ => true

/-- Where an instruction leads from `c`. -/
def next (s : Subject) (i : ReInst) (c : Conf) : List Conf :=
  match i.op with
  | .reChar | .reAny | .reClass =>
    if reConsumes s i c.pos then [⟨c.pc + 1, c.pos + 1⟩] else []
  | .reBol | .reEol | .reWordb | .reNotWordb =>
    if reAsserts s i c.pos then [⟨c.pc + 1, c.pos⟩] else []
  | .reSave => [⟨c.pc + 1, c.pos⟩]
  | .reSplit | .reJmp => i.targets.map (⟨·, c.pos⟩)
  | .reMatch => []

end ReInst

/-- The configurations that follow `c`, in order of preference. -/
def next (program : List ReInst) (s : Subject) (c : Conf) : List Conf :=
  match fetch program c.pc with
  | none => []
  | some i => i.next s c

def AtMatch (program : List ReInst) (c : Conf) : Prop :=
  ∃ i, fetch program c.pc = some i ∧ i.op = .reMatch

def Accepts (program : List ReInst) (s : Subject) (start : ℕ) : Prop :=
  ∃ c, Search.Reachable (next program s) ⟨0, start⟩ c ∧ AtMatch program c

/-- Branch targets and fall-through successors lie in the program, which ends in `RE_MATCH`. -/
structure InRange (program : List ReInst) : Prop where
  targets : ∀ i ∈ program, ∀ t ∈ i.targets, 0 ≤ t ∧ t < program.length
  falls : ∀ k i, program[k]? = some i → i.falls → k + 1 < program.length
  last : ∃ i, program.getLast? = some i ∧ i.op = .reMatch

/-- The operands of `RE_SAVE` index an array of `n` captures. -/
def SavesFit (program : List ReInst) (n : ℕ) : Prop :=
  ∀ i ∈ program, i.op = .reSave → 0 ≤ i.x ∧ i.x < n

instance (program : List ReInst) (n : ℕ) : Decidable (SavesFit program n) :=
  inferInstanceAs (Decidable (∀ i ∈ program, i.op = .reSave → 0 ≤ i.x ∧ i.x < n))

/-- A configuration that has a cell in the table of `regexec`. -/
def Conf.Valid (program : List ReInst) (s : Subject) (c : Conf) : Prop :=
  (0 ≤ c.pc ∧ c.pc < program.length) ∧ c.pos ≤ s.length

theorem fetch_eq_some {program : List ReInst} {pc : Int} {i : ReInst} :
    fetch program pc = some i ↔ 0 ≤ pc ∧ program[pc.toNat]? = some i := by
  unfold fetch
  split
  · constructor
    · intro h; cases h
    · rintro ⟨h, -⟩; omega
  · constructor
    · intro h; exact ⟨by omega, h⟩
    · exact fun h => h.2

theorem fetch_of_valid {program : List ReInst} {s : Subject} {c : Conf}
    (h : c.Valid program s) :
    ∃ i, fetch program c.pc = some i ∧ program[c.pc.toNat]? = some i ∧ i ∈ program := by
  obtain ⟨⟨h₀, h₁⟩, -⟩ := h
  have hk : c.pc.toNat < program.length := by omega
  refine ⟨program[c.pc.toNat], fetch_eq_some.mpr ⟨h₀, ?_⟩, ?_, List.getElem_mem hk⟩ <;>
    exact List.getElem?_eq_getElem hk

theorem next_of_fetch {program : List ReInst} {s : Subject} {c : Conf} {i : ReInst}
    (h : fetch program c.pc = some i) : next program s c = i.next s c := by
  simp [next, h]

theorem reConsumes_lt {s : Subject} {i : ReInst} {pos : ℕ} (h : reConsumes s i pos = true) :
    pos < s.length := by
  unfold reConsumes at h
  split at h
  · split at h
    · simp at h
    · omega
  · simp at h; omega
  · simp at h; omega
  · simp at h

/-- Every successor is a branch target at the same position or the next instruction. -/
theorem ReInst.mem_next {s : Subject} {i : ReInst} {c d : Conf} (h : d ∈ i.next s c) :
    (d.pc ∈ i.targets ∧ d.pos = c.pos) ∨
    (i.falls ∧ d.pc = c.pc + 1 ∧ d.pos = c.pos) ∨
    (i.falls ∧ d.pc = c.pc + 1 ∧ d.pos = c.pos + 1 ∧ c.pos < s.length) := by
  obtain ⟨op, ch, set, x, y⟩ := i
  cases op with
  | reChar | reAny | reClass =>
    simp only [ReInst.next, List.mem_ite_nil_right, List.mem_singleton] at h
    obtain ⟨hc, rfl⟩ := h
    exact .inr (.inr ⟨rfl, rfl, rfl, reConsumes_lt hc⟩)
  | reBol | reEol | reWordb | reNotWordb =>
    simp only [ReInst.next, List.mem_ite_nil_right, List.mem_singleton] at h
    exact .inr (.inl ⟨rfl, by simp [h.2], by simp [h.2]⟩)
  | reSave =>
    obtain rfl : d = _ := List.mem_singleton.mp h
    exact .inr (.inl ⟨rfl, rfl, rfl⟩)
  | reSplit | reJmp =>
    obtain ⟨t, ht, rfl⟩ := List.mem_map.mp h
    exact .inl ⟨ht, rfl⟩
  | reMatch => simp [ReInst.next] at h

theorem length_next_le (program : List ReInst) (s : Subject) (c : Conf) :
    (next program s c).length ≤ 2 := by
  unfold next
  cases fetch program c.pc with
  | none => simp
  | some i =>
    obtain ⟨op, ch, set, x, y⟩ := i
    simp only [ReInst.next, ReInst.targets]
    cases op with
    | reChar | reAny | reClass | reBol | reEol | reWordb | reNotWordb =>
      simp only
      split <;> simp
    | reSplit | reJmp | reSave | reMatch => simp

theorem InRange.valid_next {program : List ReInst} (hp : InRange program) {s : Subject}
    {c d : Conf} (hc : c.Valid program s) (hd : d ∈ next program s c) : d.Valid program s := by
  obtain ⟨i, hf, hk, hi⟩ := fetch_of_valid hc
  rw [next_of_fetch hf] at hd
  obtain ⟨⟨h₀, -⟩, hpos⟩ := hc
  rcases ReInst.mem_next hd with ⟨ht, he⟩ | ⟨hfall, hpc, he⟩ | ⟨hfall, hpc, he, hlt⟩
  · exact ⟨hp.targets i hi _ ht, by omega⟩
  · have := hp.falls _ i hk hfall
    exact ⟨by omega, by omega⟩
  · have := hp.falls _ i hk hfall
    exact ⟨by omega, by omega⟩

theorem InRange.valid_reachable {program : List ReInst} (hp : InRange program) {s : Subject}
    {c d : Conf} (hc : c.Valid program s) (hd : Search.Reachable (next program s) c d) :
    d.Valid program s := by
  induction hd with
  | refl => exact hc
  | tail _ hs ih => exact hp.valid_next ih hs

theorem InRange.length_pos {program : List ReInst} (hp : InRange program) :
    0 < program.length := by
  obtain ⟨i, hi, -⟩ := hp.last
  exact List.length_pos_of_mem (List.mem_of_getLast? hi)

theorem InRange.valid_start {program : List ReInst} (hp : InRange program) {s : Subject}
    {start : ℕ} (hs : start ≤ s.length) : Conf.Valid program s ⟨0, start⟩ :=
  ⟨⟨le_rfl, Int.natCast_pos.mpr hp.length_pos⟩, hs⟩

end LampUserspace.Regex
