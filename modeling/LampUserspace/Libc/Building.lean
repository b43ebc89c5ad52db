import LampUserspace.Memory.Objects

/-! # Strings in memory

`strlen`, `strnlen`, `strcpy`, `strncpy`, `strcat` and `stpcpy` of `libc_string.c` on
a byte memory. Where the bytes to be read are not overwritten
before, each of them writes the text that it reads. Addresses are natural
numbers; a loop that looks for a terminator is `none` when there is none in as
many bytes as there are addresses.
-/

namespace LampUserspace

variable {m : Memory} {d s n left fuel : ℕ} {text bs : List UInt8}

def strlenLoop (m : Memory) (s : ℕ) : (fuel n : ℕ) → Option ℕ
  | 0, _ => none
  | fuel + 1, n => if s ≠ 0 ∧ m (s + n) ≠ 0 then strlenLoop m s fuel (n + 1) else some n

def strlen (m : Memory) (s : ℕ) : Option ℕ := strlenLoop m s (2 ^ 32) 0

/-- `while (s && n < maxlen && s[n]) n++;` with `left` bytes up to `maxlen`. -/
def strnlenLoop (m : Memory) (s : ℕ) : (left n : ℕ) → ℕ
  | 0, n => n
  | left + 1, n => if s ≠ 0 ∧ m (s + n) ≠ 0 then strnlenLoop m s left (n + 1) else n

def strnlen (m : Memory) (s maxlen : ℕ) : ℕ := strnlenLoop m s maxlen 0

def strcpyLoop : (fuel : ℕ) → Memory → (d src : ℕ) → Option Memory
  | 0, _, _, _ => none
  | fuel + 1, m, d, src =>
    let ch := m src
    let m := m.store8 d ch
    if ch ≠ 0 then strcpyLoop fuel m (d + 1) (src + 1) else some m

/-- The returned pointer and the memory. -/
def strcpy (m : Memory) (dst src : ℕ) : Option (ℕ × Memory) := do
  let m ← strcpyLoop (2 ^ 32) m dst src
  return (dst, m)

/-- `for (; i < n; i++) dst[i] = 0;` with `left` rounds to go. -/
def strncpyFill (dst : ℕ) : (left i : ℕ) → Memory → Memory
  | 0, _, m => m
  | left + 1, i, m => strncpyFill dst left (i + 1) (m.store8 (dst + i) 0)

/-- `for (; i < n && src[i]; i++) dst[i] = src[i];` with `left` rounds to go, then the fill. -/
def strncpyLoop (dst src : ℕ) : (left i : ℕ) → Memory → Memory
  | 0, _, m => m
  | left + 1, i, m =>
    if m (src + i) ≠ 0 then strncpyLoop dst src left (i + 1) (m.store8 (dst + i) (m (src + i)))
    else strncpyFill dst (left + 1) i m

def strncpy (m : Memory) (dst src n : ℕ) : ℕ × Memory := (dst, strncpyLoop dst src n 0 m)

def strcat (m : Memory) (dst src : ℕ) : Option (ℕ × Memory) := do
  let n ← strlen m dst
  let (_, m) ← strcpy m (dst + n) src
  return (dst, m)

/-- `while ((*dst = *src) != 0) { dst++; src++; } return dst;` -/
def stpcpyLoop : (fuel : ℕ) → Memory → (dst src : ℕ) → Option (ℕ × Memory)
  | 0, _, _, _ => none
  | fuel + 1, m, dst, src =>
    let ch := m src
    let m := m.store8 dst ch
    if ch ≠ 0 then stpcpyLoop fuel m (dst + 1) (src + 1) else some (dst, m)

def stpcpy (m : Memory) (dst src : ℕ) : Option (ℕ × Memory) := stpcpyLoop (2 ^ 32) m dst src

/-! ## What they read -/

theorem strlenLoop_spells (hs : s ≠ 0) (h : m.Spells (s + n) (text ++ [0])) (hzero : 0 ∉ text)
    (hfuel : text.length < fuel) : strlenLoop m s fuel n = some (n + text.length) := by
  induction text generalizing n fuel with
  | nil =>
    obtain ⟨fuel, rfl⟩ := Nat.exists_eq_succ_of_ne_zero (Nat.ne_of_gt hfuel)
    exact if_neg fun htest => htest.2 h.1
  | cons b text ih =>
    obtain ⟨fuel, rfl⟩ := Nat.exists_eq_succ_of_ne_zero (Nat.ne_of_gt (Nat.zero_lt_of_lt hfuel))
    obtain ⟨hb, hzero⟩ := not_or.mp (mt List.mem_cons.mpr hzero)
    rw [strlenLoop, if_pos ⟨hs, fun heq => hb (heq.symm.trans h.1)⟩,
      ih h.2 hzero (by simpa using hfuel), List.length_cons]
    congr 1
    omega

theorem strlen_spells (hs : s ≠ 0) (h : m.Spells s (text ++ [0])) (hzero : 0 ∉ text)
    (hfuel : text.length < 2 ^ 32) : strlen m s = some text.length :=
  (strlenLoop_spells (n := 0) hs h hzero hfuel).trans (congrArg some (Nat.zero_add _))

theorem strnlenLoop_spells (hs : s ≠ 0) (h : m.Spells (s + n) text) (hzero : 0 ∉ text)
    (hle : text.length ≤ left) (hend : text.length < left → m (s + n + text.length) = 0) :
    strnlenLoop m s left n = n + text.length := by
  induction text generalizing n left with
  | nil =>
    cases left with
    | zero => rfl
    | succ left => exact if_neg fun htest => htest.2 (hend (Nat.succ_pos left))
  | cons b text ih =>
    obtain ⟨left, rfl⟩ := Nat.exists_eq_succ_of_ne_zero (Nat.ne_of_gt (Nat.zero_lt_of_lt hle))
    obtain ⟨hb, hzero⟩ := not_or.mp (mt List.mem_cons.mpr hzero)
    rw [List.length_cons] at hle hend
    rw [strnlenLoop, if_pos ⟨hs, fun heq => hb (heq.symm.trans h.1)⟩,
      ih h.2 hzero (by omega) fun hlt => ?_, List.length_cons]
    · omega
    · rw [← hend (by omega)]
      congr 1
      omega

theorem strnlen_spells (hs : s ≠ 0) (h : m.Spells s text) (hzero : 0 ∉ text)
    (hle : text.length ≤ n) (hend : text.length < n → m (s + text.length) = 0) :
    strnlen m s n = text.length :=
  (strnlenLoop_spells (n := 0) hs h hzero hle hend).trans (Nat.zero_add _)

/-! ## What they write -/

/-- Of the bytes of a text none is overwritten before it is read. -/
theorem spells_store8 {b : UInt8} (h : m.Spells (s + 1) bs)
    (hd : d ≤ s ∨ s + 1 + bs.length ≤ d) : (m.store8 d b).Spells (s + 1) bs :=
  h.congr fun x hlow hhigh => Memory.store8_ne _ (by omega)

theorem strcpyLoop_spells (h : m.Spells s (text ++ [0])) (hzero : 0 ∉ text)
    (hfuel : text.length < fuel) (hd : d ≤ s ∨ s + text.length + 1 ≤ d) :
    strcpyLoop fuel m d s = some (m.write d (text ++ [0])) := by
  induction text generalizing m d s fuel with
  | nil =>
    obtain ⟨fuel, rfl⟩ := Nat.exists_eq_succ_of_ne_zero (Nat.ne_of_gt hfuel)
    simp only [strcpyLoop, h.1, ne_eq, not_true, if_false]
    rfl
  | cons b text ih =>
    obtain ⟨fuel, rfl⟩ := Nat.exists_eq_succ_of_ne_zero (Nat.ne_of_gt (Nat.zero_lt_of_lt hfuel))
    obtain ⟨hb, hzero⟩ := not_or.mp (mt List.mem_cons.mpr hzero)
    rw [List.length_cons] at hd hfuel
    have hrest : (m.store8 d b).Spells (s + 1) (text ++ [0]) :=
      spells_store8 h.2 (by rw [List.length_append, List.length_singleton]; omega)
    have hsource : m s = b := h.1
    simp only [strcpyLoop, hsource, ne_eq, Ne.symm hb, not_false_eq_true, if_true]
    rw [ih hrest hzero (by omega) (by omega)]
    rfl

theorem strcpy_spells (h : m.Spells s (text ++ [0])) (hzero : 0 ∉ text)
    (hfuel : text.length < 2 ^ 32) (hd : d ≤ s ∨ s + text.length + 1 ≤ d) :
    strcpy m d s = some (d, m.write d (text ++ [0])) := by
  rw [strcpy, strcpyLoop_spells h hzero hfuel hd]
  rfl

theorem stpcpyLoop_spells (h : m.Spells s (text ++ [0])) (hzero : 0 ∉ text)
    (hfuel : text.length < fuel) (hd : d ≤ s ∨ s + text.length + 1 ≤ d) :
    stpcpyLoop fuel m d s = some (d + text.length, m.write d (text ++ [0])) := by
  induction text generalizing m d s fuel with
  | nil =>
    obtain ⟨fuel, rfl⟩ := Nat.exists_eq_succ_of_ne_zero (Nat.ne_of_gt hfuel)
    simp only [stpcpyLoop, h.1, ne_eq, not_true, if_false]
    rfl
  | cons b text ih =>
    obtain ⟨fuel, rfl⟩ := Nat.exists_eq_succ_of_ne_zero (Nat.ne_of_gt (Nat.zero_lt_of_lt hfuel))
    obtain ⟨hb, hzero⟩ := not_or.mp (mt List.mem_cons.mpr hzero)
    rw [List.length_cons] at hd hfuel
    have hrest : (m.store8 d b).Spells (s + 1) (text ++ [0]) :=
      spells_store8 h.2 (by rw [List.length_append, List.length_singleton]; omega)
    have hsource : m s = b := h.1
    simp only [stpcpyLoop, hsource, ne_eq, Ne.symm hb, not_false_eq_true, if_true]
    rw [ih hrest hzero (by omega) (by omega), List.length_cons, Nat.add_assoc, Nat.add_comm 1]
    rfl

theorem strcat_spells {front : List UInt8} (hne : d ≠ 0) (hfront : m.Spells d (front ++ [0]))
    (hzero : 0 ∉ front) (hshort : front.length < 2 ^ 32) (h : m.Spells s (text ++ [0]))
    (hzero' : 0 ∉ text) (hfuel : text.length < 2 ^ 32)
    (hd : d + front.length ≤ s ∨ s + text.length + 1 ≤ d + front.length) :
    strcat m d s = some (d, m.write (d + front.length) (text ++ [0])) := by
  rw [strcat, strlen_spells hne hfront hzero hshort]
  simp only [Option.bind_eq_bind, Option.bind_some, strcpy_spells h hzero' hfuel hd]
  rfl

theorem strncpyFill_eq (i : ℕ) (m : Memory) :
    strncpyFill d left i m = m.write (d + i) (List.replicate left 0) := by
  induction left generalizing m i with
  | zero => rfl
  | succ left ih =>
    rw [strncpyFill, ih]
    rfl

theorem strncpyLoop_spells {i : ℕ} (h : m.Spells (s + i) text) (hzero : 0 ∉ text)
    (hle : text.length ≤ left) (hend : text.length < left → m (s + i + text.length) = 0)
    (hd : d ≤ s ∨ s + i + min (text.length + 1) left ≤ d + i) :
    strncpyLoop d s left i m =
      m.write (d + i) (text ++ List.replicate (left - text.length) 0) := by
  induction text generalizing m left i with
  | nil =>
    cases left with
    | zero => rfl
    | succ left =>
      have hstop : m (s + i) = 0 := hend (Nat.succ_pos left)
      rw [strncpyLoop, if_neg fun htest => htest hstop, strncpyFill_eq]
      rfl
  | cons b text ih =>
    obtain ⟨left, rfl⟩ := Nat.exists_eq_succ_of_ne_zero (Nat.ne_of_gt (Nat.zero_lt_of_lt hle))
    obtain ⟨hb, hzero⟩ := not_or.mp (mt List.mem_cons.mpr hzero)
    rw [List.length_cons] at hle hend hd
    have hrest : (m.store8 (d + i) b).Spells (s + i + 1) text := spells_store8 h.2 (by omega)
    have hsource : m (s + i) = b := h.1
    rw [strncpyLoop, hsource, if_pos (Ne.symm hb), ih hrest hzero (by omega) (fun hlt => ?_)
      (by omega), List.length_cons, Nat.succ_sub_succ]
    · rfl
    · have hstop := hend (by omega)
      rw [Memory.store8_ne _ (by omega), ← hstop]
      congr 1
      omega

theorem strncpy_spells (h : m.Spells s text) (hzero : 0 ∉ text) (hle : text.length ≤ n)
    (hend : text.length < n → m (s + text.length) = 0)
    (hd : d ≤ s ∨ s + min (text.length + 1) n ≤ d) :
    strncpy m d s n = (d, m.write d (text ++ List.replicate (n - text.length) 0)) :=
  congrArg (Prod.mk d) (strncpyLoop_spells (i := 0) h hzero hle hend hd)

end LampUserspace
