import Mathlib.Algebra.Group.Int.Defs
import Mathlib.Algebra.Group.Nat.Defs
import Mathlib.Data.Nat.Notation

/-! # Byte memory

A memory gives every address its byte. Strings of bytes and little-endian 32-bit
words, signed or not, are written and read at an address; a write leaves every
byte outside its range as it was.
-/

namespace LampUserspace

def Memory : Type := ℕ → UInt8

namespace Memory

variable {m m' : Memory} {a x v : ℕ} {bs : List UInt8}

def store8 (m : Memory) (a : ℕ) (b : UInt8) : Memory :=
  fun x => if x = a then b else m x

/-- Store the bytes `bs` at the addresses from `a` on. -/
def write (m : Memory) : ℕ → List UInt8 → Memory
  | _, [] => m
  | a, b :: bs => write (m.store8 a b) (a + 1) bs

@[simp]
theorem store8_same (m : Memory) (a : ℕ) (b : UInt8) : m.store8 a b a = b :=
  if_pos rfl

theorem store8_ne (b : UInt8) (h : x ≠ a) : m.store8 a b x = m x :=
  if_neg h

theorem write_append (m : Memory) (a : ℕ) (bs cs : List UInt8) :
    m.write a (bs ++ cs) = (m.write a bs).write (a + bs.length) cs := by
  induction bs generalizing m a with
  | nil => rfl
  | cons b bs ih => simp [write, ih, Nat.add_assoc, Nat.add_comm 1]

theorem write_of_lt (h : x < a) : m.write a bs x = m x := by
  induction bs generalizing m a with
  | nil => rfl
  | cons b bs ih => rw [write, ih (by omega), store8_ne _ (by omega)]

theorem write_of_ge (h : a + bs.length ≤ x) : m.write a bs x = m x := by
  induction bs generalizing m a with
  | nil => rfl
  | cons b bs ih =>
    simp only [List.length_cons] at h
    rw [write, ih (by omega), store8_ne _ (by omega)]

theorem write_apply (m : Memory) (a : ℕ) {i : ℕ} (h : i < bs.length) :
    m.write a bs (a + i) = bs[i] := by
  induction bs generalizing m a i with
  | nil => exact absurd h (by simp)
  | cons b bs ih =>
    cases i with
    | zero => rw [write, write_of_lt (by omega)]; simp
    | succ i =>
      rw [write, show a + (i + 1) = a + 1 + i by omega, ih _ _ (by simpa using h)]
      rfl

def read (m : Memory) (a n : ℕ) : List UInt8 := (List.range n).map fun i => m (a + i)

@[simp]
theorem length_read (m : Memory) (a n : ℕ) : (m.read a n).length = n := by
  simp [read]

theorem getElem_read (m : Memory) (a n : ℕ) {i : ℕ} (h : i < (m.read a n).length) :
    (m.read a n)[i] = m (a + i) := by
  simp [read]

/-- A range that is read and written lies in its new place, and nowhere else. -/
theorem write_read (m m' : Memory) (a a' n : ℕ) :
    (∀ i < n, m'.write a' (m.read a n) (a' + i) = m (a + i)) ∧
      ∀ x, (x < a' ∨ a' + n ≤ x) → m'.write a' (m.read a n) x = m' x := by
  have hlen := m.length_read a n
  refine ⟨fun i hi => ?_, fun x hx => ?_⟩
  · rw [write_apply m' a' (by omega), getElem_read]
  · rcases hx with hx | hx
    · exact write_of_lt hx
    · exact write_of_ge (by omega)

/-! ## Words -/

/-- The bytes of a 32-bit word, the least significant first. -/
def wordBytes (v : ℕ) : List UInt8 :=
  [.ofNat v, .ofNat (v / 2 ^ 8), .ofNat (v / 2 ^ 16), .ofNat (v / 2 ^ 24)]

def store32 (m : Memory) (a v : ℕ) : Memory := m.write a (wordBytes v)

def load32 (m : Memory) (a : ℕ) : ℕ :=
  (m a).toNat + 2 ^ 8 * (m (a + 1)).toNat + 2 ^ 16 * (m (a + 2)).toNat +
    2 ^ 24 * (m (a + 3)).toNat

theorem load32_move {a' : ℕ} (h : ∀ t < 4, m' (a' + t) = m (a + t)) :
    m'.load32 a' = m.load32 a := by
  have hfirst : m' a' = m a := h 0 (by decide)
  unfold load32
  rw [hfirst, h 1 (by decide), h 2 (by decide), h 3 (by decide)]

theorem load32_congr (h : ∀ x, a ≤ x → x < a + 4 → m' x = m x) : m'.load32 a = m.load32 a :=
  load32_move fun t ht => h (a + t) (by omega) (by omega)

theorem load32_store32 (m : Memory) (a : ℕ) (h : v < 2 ^ 32) : (m.store32 a v).load32 a = v := by
  have hbyte : ∀ i (hi : i < 4), m.store32 a v (a + i) = (wordBytes v)[i] := fun i hi =>
    write_apply m a hi
  have hfirst : m.store32 a v a = UInt8.ofNat v := hbyte 0 (by decide)
  unfold load32
  rw [hfirst, hbyte 1 (by decide), hbyte 2 (by decide), hbyte 3 (by decide)]
  simp only [wordBytes, List.getElem_cons_zero, List.getElem_cons_succ, UInt8.toNat_ofNat']
  omega

theorem store32_frame (v : ℕ) (h : x < a ∨ a + 4 ≤ x) : m.store32 a v x = m x := by
  rcases h with h | h
  · exact write_of_lt h
  · exact write_of_ge h

/-! ## Signed words -/

/-- Read a 32-bit word in two's complement. -/
def loadInt (m : Memory) (a : ℕ) : ℤ := (BitVec.ofNat 32 (m.load32 a)).toInt

def storeInt (m : Memory) (a : ℕ) (v : ℤ) : Memory := m.store32 a (BitVec.ofInt 32 v).toNat

theorem loadInt_move {a' : ℕ} (h : ∀ t < 4, m' (a' + t) = m (a + t)) :
    m'.loadInt a' = m.loadInt a :=
  congrArg (fun v => (BitVec.ofNat 32 v).toInt) (load32_move h)

theorem le_loadInt (m : Memory) (a : ℕ) : -2 ^ 31 ≤ m.loadInt a :=
  BitVec.le_toInt _

theorem loadInt_storeInt (m : Memory) (a : ℕ) {v : ℤ} (hge : -2 ^ 31 ≤ v) (hlt : v < 2 ^ 31) :
    (m.storeInt a v).loadInt a = v := by
  rw [loadInt, storeInt, load32_store32 m a (BitVec.isLt _), BitVec.ofNat_toNat,
    BitVec.setWidth_eq]
  exact BitVec.toInt_ofInt_eq_self (by decide) hge hlt

theorem storeInt_frame (v : ℤ) (h : x < a ∨ a + 4 ≤ x) : m.storeInt a v x = m x :=
  store32_frame _ h

end Memory

end LampUserspace
