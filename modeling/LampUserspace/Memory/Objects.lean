import Mathlib.Logic.Function.Basic
import LampUserspace.Memory.Bytes

/-! # Objects in memory

A program sees the memory as objects, each with bytes of which some are known:
those that were stored. A memory shows the objects when it has the known bytes,
and where the objects are apart a store into one of them leaves the others.
-/

namespace LampUserspace

namespace Memory

variable {m m' : Memory} {a d x : ℕ} {b : UInt8} {bs cs : List UInt8}

/-- The bytes at the addresses from `a` on. -/
def Spells (m : Memory) : ℕ → List UInt8 → Prop
  | _, [] => True
  | a, b :: bs => m a = b ∧ Spells m (a + 1) bs

theorem Spells.getElem (h : m.Spells a bs) {i : ℕ} (hi : i < bs.length) : m (a + i) = bs[i] := by
  induction bs generalizing a i with
  | nil => cases hi
  | cons b bs ih =>
    cases i with
    | zero => exact h.1
    | succ i =>
      rw [show a + (i + 1) = a + 1 + i by omega]
      exact ih h.2 (Nat.lt_of_succ_lt_succ hi)

theorem Spells.congr (h : m.Spells a bs) (heq : ∀ x, a ≤ x → x < a + bs.length → m' x = m x) :
    m'.Spells a bs := by
  induction bs generalizing a with
  | nil => trivial
  | cons b bs ih =>
    rw [List.length_cons] at heq
    exact ⟨(heq a (Nat.le_refl a) (by omega)).trans h.1,
      ih h.2 fun x hlow hhigh => heq x (by omega) (by omega)⟩

end Memory

/-- An object: whether it was allocated, and its bytes as far as they are known. -/
structure Object where
  allocated : Bool
  bytes : List (Option UInt8)

/-- The objects, by their first addresses. -/
abbrev Objects := ℕ → Option Object

structure Place where
  object : ℕ
  offset : ℕ

def Place.address (a : Place) : ℕ := a.object + a.offset

/-! ## Known bytes -/

def overwrite (bytes : List (Option UInt8)) (i : ℕ) (bs : List UInt8) : List (Option UInt8) :=
  bytes.take i ++ bs.map some ++ bytes.drop (i + bs.length)

/-- The first `n` bytes, or those before the terminator; nothing when one of them is not known. -/
def textUpTo : ℕ → List (Option UInt8) → Option (List UInt8)
  | 0, _ => some []
  | _ + 1, [] => none
  | _ + 1, none :: _ => none
  | n + 1, some b :: bytes => if b = 0 then some [] else (textUpTo n bytes).map (b :: ·)

/-- The bytes before the terminator. -/
def textOf : List (Option UInt8) → Option (List UInt8)
  | [] => none
  | none :: _ => none
  | some b :: bytes => if b = 0 then some [] else (textOf bytes).map (b :: ·)

section Known

variable {m m' : Memory} {p i n : ℕ} {bytes : List (Option UInt8)} {bs text : List UInt8}

theorem length_overwrite (h : i + bs.length ≤ bytes.length) :
    (overwrite bytes i bs).length = bytes.length := by
  simp only [overwrite, List.length_append, List.length_take, List.length_map, List.length_drop]
  omega

theorem overwrite_replicate (n : ℕ) (v : Option UInt8) (h : bs.length = n) :
    overwrite (List.replicate n v) 0 bs = bs.map some := by
  simp [overwrite, h]

def Known (m : Memory) (p : ℕ) (bytes : List (Option UInt8)) : Prop :=
  ∀ i b, bytes[i]? = some (some b) → m (p + i) = b

theorem Known.congr (h : Known m p bytes)
    (heq : ∀ x, p ≤ x → x < p + bytes.length → m' x = m x) : Known m' p bytes := by
  intro i b hb
  have hi := (List.getElem?_eq_some_iff.mp hb).1
  rw [heq _ (Nat.le_add_right p i) (by omega), h i b hb]

theorem known_unknown (m : Memory) (p n : ℕ) : Known m p (List.replicate n none) := by
  intro i b hb
  rw [List.getElem?_replicate] at hb
  split at hb <;> cases hb

theorem known_append {bytes' : List (Option UInt8)} : Known m p (bytes ++ bytes') ↔
    Known m p bytes ∧ Known m (p + bytes.length) bytes' := by
  constructor
  · refine fun h => ⟨fun i b hb => h i b ?_, fun i b hb => ?_⟩
    · rwa [List.getElem?_append_left (List.getElem?_eq_some_iff.mp hb).1]
    · rw [Nat.add_assoc]
      refine h _ b ?_
      rwa [List.getElem?_append_right (Nat.le_add_right _ _), Nat.add_sub_cancel_left]
  · rintro ⟨h, h'⟩ i b hb
    rcases Nat.lt_or_ge i bytes.length with hi | hi
    · rw [List.getElem?_append_left hi] at hb
      exact h i b hb
    · rw [List.getElem?_append_right hi] at hb
      have hbyte := h' _ b hb
      rwa [Nat.add_assoc, Nat.add_sub_cancel' hi] at hbyte

theorem Known.take (h : Known m p bytes) (n : ℕ) : Known m p (bytes.take n) :=
  (known_append.mp ((List.take_append_drop n bytes).symm ▸ h)).1

theorem Known.drop (h : Known m p bytes) (hn : n ≤ bytes.length) :
    Known m (p + n) (bytes.drop n) := by
  have hdrop := (known_append.mp ((List.take_append_drop n bytes).symm ▸ h)).2
  rwa [List.length_take, Nat.min_eq_left hn] at hdrop

theorem known_write (m : Memory) (p : ℕ) (bs : List UInt8) :
    Known (m.write p bs) p (bs.map some) := by
  intro i b hb
  obtain ⟨hi, hb⟩ := List.getElem?_eq_some_iff.mp hb
  rw [List.length_map] at hi
  rw [Memory.write_apply m p hi]
  simpa using hb

theorem Known.write (h : Known m p bytes) (hfit : i + bs.length ≤ bytes.length) :
    Known (m.write (p + i) bs) p (overwrite bytes i bs) := by
  have hi : (bytes.take i).length = i := by
    rw [List.length_take]
    omega
  have hlength : (bytes.take i ++ bs.map some).length = i + bs.length := by
    rw [List.length_append, hi, List.length_map]
  refine known_append.mpr ⟨known_append.mpr ⟨?_, ?_⟩, ?_⟩
  · exact (h.take i).congr fun x _ hx => Memory.write_of_lt (by omega)
  · rw [hi]
    exact known_write m (p + i) bs
  · rw [hlength, ← Nat.add_assoc]
    refine Known.congr (m := m) ?_ fun x hx _ => Memory.write_of_ge hx
    rw [Nat.add_assoc]
    exact h.drop hfit

theorem Known.textUpTo (h : Known m p bytes) (htext : textUpTo n bytes = some text) :
    0 ∉ text ∧ m.Spells p text ∧ text.length ≤ bytes.length ∧ text.length ≤ n ∧
      (text.length < n → m (p + text.length) = 0 ∧ text.length < bytes.length) := by
  induction n generalizing p bytes text with
  | zero =>
    obtain rfl := Option.some.inj htext
    exact ⟨List.not_mem_nil, trivial, Nat.zero_le _, Nat.le_refl _, fun hlt => by cases hlt⟩
  | succ n ih =>
    match bytes, htext with
    | some b :: bytes, htext =>
      rw [LampUserspace.textUpTo] at htext
      split at htext
      · rename_i hb
        obtain rfl := Option.some.inj htext
        exact ⟨List.not_mem_nil, trivial, Nat.zero_le _, Nat.zero_le _,
          fun _ => ⟨h 0 0 (by simp [hb]), by simp⟩⟩
      · rename_i hb
        obtain ⟨text, ht, rfl⟩ := Option.map_eq_some_iff.mp htext
        have hrest : Known m (p + 1) bytes := by
          have hdrop := h.drop (show 1 ≤ (some b :: bytes).length by simp)
          exact hdrop
        obtain ⟨hzero, hspells, hlength, hle, hend⟩ := ih hrest ht
        refine ⟨by simp [Ne.symm hb, hzero], ⟨h 0 b rfl, hspells⟩, by simpa using hlength,
          by simpa using hle, fun hlt => ?_⟩
        have hend := hend (by simpa using hlt)
        rw [List.length_cons, List.length_cons, Nat.add_comm text.length, ← Nat.add_assoc]
        exact ⟨hend.1, by omega⟩

theorem Known.textOf (h : Known m p bytes) (htext : textOf bytes = some text) :
    0 ∉ text ∧ m.Spells p (text ++ [0]) ∧ text.length < bytes.length := by
  induction bytes generalizing p text with
  | nil => cases htext
  | cons v bytes ih =>
    cases v with
    | none => cases htext
    | some b =>
      rw [LampUserspace.textOf] at htext
      split at htext
      · rename_i hb
        obtain rfl := Option.some.inj htext
        exact ⟨List.not_mem_nil, ⟨h 0 0 (by simp [hb]), trivial⟩, by simp⟩
      · rename_i hb
        obtain ⟨text, ht, rfl⟩ := Option.map_eq_some_iff.mp htext
        have hrest : Known m (p + 1) bytes := h.drop (show 1 ≤ (some b :: bytes).length by simp)
        obtain ⟨hzero, hspells, hlength⟩ := ih hrest ht
        exact ⟨by simp [Ne.symm hb, hzero], ⟨h 0 b rfl, hspells⟩, by simpa using hlength⟩

end Known

/-! ## Objects -/

namespace Objects

variable {c : Objects} {m m' : Memory} {p q i : ℕ} {o o' : Object} {bs : List UInt8}

def Apart (c : Objects) : Prop :=
  ∀ p q o o', c p = some o → c q = some o' → p ≠ q →
    p + o.bytes.length ≤ q ∨ q + o'.bytes.length ≤ p

/-- The memory has the known bytes of the objects. -/
def Shows (c : Objects) (m : Memory) : Prop := ∀ p o, c p = some o → Known m p o.bytes

theorem Apart.update (h : c.Apart)
    (hnew : ∀ q o', c q = some o' → q ≠ p →
      p + o.bytes.length ≤ q ∨ q + o'.bytes.length ≤ p) :
    Apart (Function.update c p (some o)) := by
  intro q r o₁ o₂ h₁ h₂ hne
  by_cases hq : q = p
  · subst hq
    rw [Function.update_self] at h₁
    rw [Function.update_of_ne hne.symm] at h₂
    obtain rfl := Option.some.inj h₁
    exact hnew r o₂ h₂ hne.symm
  · rw [Function.update_of_ne hq] at h₁
    by_cases hr : r = p
    · subst hr
      rw [Function.update_self] at h₂
      obtain rfl := Option.some.inj h₂
      exact (hnew q o₁ h₁ hq).symm
    · rw [Function.update_of_ne hr] at h₂
      exact h q r o₁ o₂ h₁ h₂ hne

theorem Apart.erase (h : c.Apart) (p : ℕ) : Apart (Function.update c p none) := by
  have hold : ∀ q o', Function.update c p none q = some o' → c q = some o' := by
    intro q o' hq
    by_cases heq : q = p
    · rw [heq, Function.update_self] at hq
      cases hq
    · rwa [Function.update_of_ne heq] at hq
  exact fun q r o₁ o₂ h₁ h₂ => h q r o₁ o₂ (hold q o₁ h₁) (hold r o₂ h₂)

def Kept (c : Objects) (m m' : Memory) : Prop :=
  ∀ p o, c p = some o → ∀ x, p ≤ x → x < p + o.bytes.length → m' x = m x

/-- The bytes of the objects but for the one at `p` are kept. -/
def KeptOff (c : Objects) (p : ℕ) (m m' : Memory) : Prop :=
  ∀ q o, c q = some o → q ≠ p → ∀ x, q ≤ x → x < q + o.bytes.length → m' x = m x

theorem Kept.off (h : c.Kept m m') (p : ℕ) : c.KeptOff p m m' := fun q o hq _ => h q o hq

theorem Shows.kept (h : c.Shows m) (hkept : c.Kept m m') : c.Shows m' :=
  fun p o hp => (h p o hp).congr (hkept p o hp)

theorem Shows.update (h : c.Shows m) (hkept : c.KeptOff p m m') (hnew : Known m' p o.bytes) :
    Shows (Function.update c p (some o)) m' := by
  intro q o' hq
  by_cases heq : q = p
  · subst heq
    rw [Function.update_self] at hq
    exact Option.some.inj hq ▸ hnew
  · rw [Function.update_of_ne heq] at hq
    exact (h q o' hq).congr (hkept q o' hq heq)

theorem Shows.erase (h : c.Shows m) (hkept : c.KeptOff p m m') :
    Shows (Function.update c p none) m' := by
  intro q o' hq
  by_cases heq : q = p
  · rw [heq, Function.update_self] at hq
    cases hq
  · rw [Function.update_of_ne heq] at hq
    exact (h q o' hq).congr (hkept q o' hq heq)

theorem Apart.keptOff_write (h : c.Apart) (hp : c p = some o) (m : Memory)
    (hfit : i + bs.length ≤ o.bytes.length) : c.KeptOff p m (m.write (p + i) bs) := by
  intro q o' hq hne x hlow hhigh
  rcases h p q o o' hp hq hne.symm with hbefore | hafter
  · exact Memory.write_of_ge (by omega)
  · exact Memory.write_of_lt (by omega)

def text (c : Objects) (a : Place) : Option (List UInt8) := do
  let o ← c a.object
  textOf (o.bytes.drop a.offset)

def prefixText (c : Objects) (a : Place) (n : ℕ) : Option (List UInt8) := do
  let o ← c a.object
  textUpTo n (o.bytes.drop a.offset)

def put (c : Objects) (a : Place) (bs : List UInt8) : Option Objects := do
  let o ← c a.object
  if a.offset + bs.length ≤ o.bytes.length then
    some (Function.update c a.object (some { o with bytes := overwrite o.bytes a.offset bs }))
  else none

/-- Nothing was granted, or a pointer to a new object. -/
def fresh (c : Objects) (ret : ℕ) (bytes : List (Option UInt8)) : Option Objects :=
  if ret = 0 then some c
  else if (c ret).isNone then some (Function.update c ret (some ⟨true, bytes⟩))
  else none

theorem fresh_eq_some {bytes : List (Option UInt8)} {c' : Objects} (hq : q ≠ 0)
    (h : c.fresh q bytes = some c') :
    c q = none ∧ c' = Function.update c q (some ⟨true, bytes⟩) := by
  rw [fresh, if_neg hq] at h
  split at h
  · rename_i hnone
    exact ⟨Option.isNone_iff_eq_none.mp hnone, (Option.some.inj h).symm⟩
  · cases h

theorem fresh_eq {bytes : List (Option UInt8)} (hq : q ≠ 0) (hnone : c q = none) :
    c.fresh q bytes = some (Function.update c q (some ⟨true, bytes⟩)) := by
  rw [fresh, if_neg hq, hnone]
  rfl

theorem text_eq_some {a : Place} {t : List UInt8} (h : c.Shows m) (ht : c.text a = some t) :
    ∃ o, c a.object = some o ∧ a.offset + t.length + 1 ≤ o.bytes.length ∧ 0 ∉ t ∧
      m.Spells a.address (t ++ [0]) := by
  obtain ⟨o, ho, ht⟩ := Option.bind_eq_some_iff.mp ht
  rcases Nat.lt_or_ge o.bytes.length a.offset with hlt | hle
  · rw [List.drop_of_length_le (Nat.le_of_lt hlt)] at ht
    cases ht
  · obtain ⟨hzero, hspells, hlength⟩ := ((h _ o ho).drop hle).textOf ht
    rw [List.length_drop] at hlength
    exact ⟨o, ho, by omega, hzero, hspells⟩

theorem prefixText_eq_some {a : Place} {n : ℕ} {t : List UInt8} (h : c.Shows m)
    (ht : c.prefixText a n = some t) :
    ∃ o, c a.object = some o ∧ 0 ∉ t ∧ m.Spells a.address t ∧ t.length ≤ n ∧
      (t ≠ [] → a.offset + t.length ≤ o.bytes.length) ∧
      (t.length < n → m (a.address + t.length) = 0 ∧ a.offset + t.length < o.bytes.length) := by
  obtain ⟨o, ho, ht⟩ := Option.bind_eq_some_iff.mp ht
  rcases Nat.lt_or_ge o.bytes.length a.offset with hlt | hle
  · rw [List.drop_of_length_le (Nat.le_of_lt hlt)] at ht
    cases n with
    | zero =>
      obtain rfl := Option.some.inj ht
      exact ⟨o, ho, List.not_mem_nil, trivial, Nat.le_refl _, fun hne => absurd rfl hne,
        fun hlt => absurd hlt (Nat.lt_irrefl _)⟩
    | succ n => cases ht
  · obtain ⟨hzero, hspells, hlength, hn, hend⟩ := ((h _ o ho).drop hle).textUpTo ht
    rw [List.length_drop] at hlength hend
    exact ⟨o, ho, hzero, hspells, hn, fun _ => by omega,
      fun hlt => ⟨(hend hlt).1, by have := (hend hlt).2; omega⟩⟩

theorem put_eq_some {a : Place} {c' : Objects} (h : c.put a bs = some c') :
    ∃ o, c a.object = some o ∧ a.offset + bs.length ≤ o.bytes.length := by
  obtain ⟨o, ho, hput⟩ := Option.bind_eq_some_iff.mp h
  split at hput
  · exact ⟨o, ho, ‹_›⟩
  · cases hput

end Objects

/-- None of the `n` bytes at `src` is overwritten before it is read when they are copied upwards to
`dst`. -/
abbrev Place.Clear (dst src : Place) (n : ℕ) : Prop :=
  dst.object ≠ src.object ∨ dst.offset ≤ src.offset ∨ src.offset + n ≤ dst.offset

theorem Place.Clear.address {c : Objects} {dst src : Place} {n : ℕ} {o o' : Object}
    (h : dst.Clear src n) (hapart : c.Apart) (hdst : c dst.object = some o)
    (hsrc : c src.object = some o') (hroom : dst.offset ≤ o.bytes.length)
    (hfit : src.offset + n ≤ o'.bytes.length) :
    dst.address ≤ src.address ∨ src.address + n ≤ dst.address := by
  unfold Place.address
  by_cases hsame : dst.object = src.object
  · have hoffsets := h.resolve_left fun hne => hne hsame
    omega
  · rcases hapart _ _ o o' hdst hsrc hsame with hbefore | hafter
    · exact Or.inl (by omega)
    · exact Or.inr (by omega)

end LampUserspace
