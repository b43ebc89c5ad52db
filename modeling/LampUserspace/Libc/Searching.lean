import LampUserspace.Libc.Strings
import LampUserspace.Search.Occurrence

/-! # Searching strings

The three substring searches of `libc_string.c`. A result is the number of bytes
before the match. A string lies in an address space with its terminator, so the
sums of `memmem` do not wrap.
-/

namespace LampUserspace

open Occurrence

/-- `memcmp`, `none` where it reads outside the objects. -/
def memcmp : List UInt8 → List UInt8 → ℕ → Option ℤ
  | _, _, 0 => some 0
  | x :: a, y :: b, n + 1 => if x ≠ y then some (x.toNat - y.toNat) else memcmp a b n
  | _, _, _ + 1 => none

/-- The test of `strstr` at the bytes `h` before the terminator. -/
def strstrAt (n : CString) (h : List UInt8) : Bool := strncmp (h ++ [0]) n.memory n.strlen = 0

def strstr (h n : CString) : Option ℕ :=
  if n.strlen = 0 then some 0 else firstRest (strstrAt n) h.bytes

/-- The inner loop of `strcasestr` on the bytes of two strings, with their terminators: how far
`i` gets. -/
def strcasestrScan : List UInt8 → List UInt8 → ℕ
  | x :: h, y :: n => if y ≠ 0 ∧ tolower x = tolower y then strcasestrScan h n + 1 else 0
  | _, _ => 0

def strcasestrAt (n : CString) (h : List UInt8) : Bool :=
  n.memory[strcasestrScan (h ++ [0]) n.memory]? = some 0

def strcasestr (h n : CString) : Option ℕ := firstRest (strcasestrAt n) h.bytes

def memmemLoop (hay : List UInt8) (haystacklen : ℕ) (ned : List UInt8) (needlelen i : ℕ) :
    Option (Option ℕ) :=
  if i + needlelen ≤ haystacklen then
    (memcmp (hay.drop i) ned needlelen).bind fun d =>
      if d = 0 then some (some i) else memmemLoop hay haystacklen ned needlelen (i + 1)
  else some none
termination_by haystacklen + 1 - i

/-- `memmem`, `none` where it reads outside the objects; an argument may be a null pointer. -/
def memmem (haystack : Option (List UInt8)) (haystacklen : ℕ) (needle : Option (List UInt8))
    (needlelen : ℕ) : Option (Option ℕ) :=
  if needlelen = 0 then some (haystack.map fun _ => 0)
  else
    match haystack, needle with
    | some hay, some ned =>
      if haystacklen < needlelen then some none
      else memmemLoop hay haystacklen ned needlelen 0
    | _, _ => some none

/-! ## The tests -/

variable {n : CString} {h a b : List UInt8} {r : Option ℕ}

theorem strstrAt_iff (n : CString) (h : List UInt8) : strstrAt n h ↔ n.bytes <+: h := by
  rw [strstrAt, decide_eq_true_iff]
  exact strncmp_eq_zero n.nul_free

theorem strcasestrScan_iff (hb : 0 ∉ b) :
    (b ++ [0])[strcasestrScan (a ++ [0]) (b ++ [0])]? = some 0 ↔
      b.map tolower <+: a.map tolower := by
  induction b generalizing a with
  | nil => cases a <;> simp [strcasestrScan]
  | cons y b ih =>
    have hy : y ≠ 0 := fun heq => hb (heq ▸ List.mem_cons_self)
    have hstop : ((y :: b) ++ [0])[0]? ≠ some 0 := fun heq => hy (Option.some.inj heq)
    cases a with
    | nil =>
      have hlow : tolower 0 ≠ tolower y := fun heq => hy ((tolower_eq_iff rfl y).mp heq.symm)
      simp [strcasestrScan, hlow, hy]
    | cons x a =>
      simp only [List.cons_append, strcasestrScan, List.map_cons, List.cons_prefix_cons]
      by_cases hxy : tolower x = tolower y
      · have hb' : 0 ∉ b := fun hmem => hb (List.mem_cons_of_mem _ hmem)
        rw [if_pos ⟨hy, hxy⟩, List.getElem?_cons_succ, ih hb']
        simp [hxy]
      · rw [if_neg fun hand => hxy hand.2]
        simp [hy, Ne.symm hxy]

theorem strcasestrAt_iff (n : CString) (h : List UInt8) :
    strcasestrAt n h ↔ n.bytes.map tolower <+: h.map tolower := by
  rw [strcasestrAt, decide_eq_true_iff]
  exact strcasestrScan_iff n.nul_free

theorem memcmp_prefix (hlen : b.length ≤ a.length) :
    ∃ d, memcmp a b b.length = some d ∧ (d = 0 ↔ b <+: a) := by
  induction b generalizing a with
  | nil => exact ⟨0, by simp [memcmp]⟩
  | cons y b ih =>
    cases a with
    | nil => simp at hlen
    | cons x a =>
      rw [List.length_cons, memcmp, List.cons_prefix_cons]
      split
      · rename_i hxy
        have hne : x.toNat ≠ y.toNat := fun heq => hxy (UInt8.toNat_inj.mp heq)
        refine ⟨_, rfl, fun hd => ?_, fun hand => absurd hand.1.symm hxy⟩
        omega
      · rename_i hxy
        obtain ⟨d, hd, hiff⟩ := ih (by simpa using hlen)
        exact ⟨d, hd, by rw [hiff]; simp [not_not.mp hxy]⟩

/-! ## What the searches find -/

theorem strstr_finds (h n : CString) : Finds n.bytes h.bytes (strstr h n) := by
  rw [strstr]
  split
  · rename_i hn
    rw [List.eq_nil_of_length_eq_zero hn]
    exact .some (first_nil _)
  · rename_i hn
    have hne : n.bytes ≠ [] := fun heq => hn (congrArg List.length heq)
    have hfind := firstRest_finds id hne
      (fun l => by rw [List.map_id]; exact strstrAt_iff n l) h.bytes
    rwa [List.map_id] at hfind

theorem strcasestr_finds (hn : n.bytes ≠ []) (h : CString) :
    Finds (n.bytes.map tolower) (h.bytes.map tolower) (strcasestr h n) :=
  firstRest_finds tolower (fun heq => hn (List.map_eq_nil_iff.mp heq)) (strcasestrAt_iff n) h.bytes

/-- With no occurrence before `i`, the loop of `memmem` reports the first one. -/
theorem memmemLoop_finds (i : ℕ) (hleast : ∀ j < i, ¬ b <+: h.drop j) :
    ∃ r, memmemLoop h h.length b b.length i = some r ∧ Finds b h r := by
  rw [memmemLoop]
  split
  · rename_i hi
    obtain ⟨d, hd, hiff⟩ := memcmp_prefix (a := h.drop i) (b := b) (by
      rw [List.length_drop]; omega)
    rw [hd, Option.bind_some]
    split
    · rename_i hzero
      exact ⟨_, rfl, .some ⟨by omega, hiff.mp hzero, hleast⟩⟩
    · rename_i hne
      refine memmemLoop_finds (i + 1) fun j hj => ?_
      rcases Nat.lt_succ_iff_lt_or_eq.mp hj with hlt | rfl
      · exact hleast j hlt
      · exact fun hpre => hne (hiff.mpr hpre)
  · rename_i hi
    refine ⟨none, rfl, .none fun hin => ?_⟩
    obtain ⟨j, hj, hpre⟩ := infix_iff.mp hin
    have hlen := hpre.length_le
    rw [List.length_drop] at hlen
    exact hleast j (by omega) hpre
termination_by h.length + 1 - i

theorem memmem_finds (h b : List UInt8) :
    ∃ r, memmem (some h) h.length (some b) b.length = some r ∧ Finds b h r := by
  rw [memmem]
  split
  · rename_i hb
    rw [List.eq_nil_of_length_eq_zero hb]
    exact ⟨_, rfl, .some (first_nil h)⟩
  · split
    · rename_i hlt
      exact ⟨none, rfl, .none fun hin => absurd hin.length_le (Nat.not_le.mpr hlt)⟩
    · exact memmemLoop_finds 0 fun j hj => absurd hj j.not_lt_zero

/-! ## The three searches compared -/

namespace CString

def lower (s : CString) : CString where
  bytes := s.bytes.map tolower
  nul_free hmem := by
    obtain ⟨c, hc, hlow⟩ := List.mem_map.mp hmem
    rw [(tolower_eq_iff rfl c).mp hlow] at hc
    exact s.nul_free hc

end CString

/-- `strstr` and `memmem` report the first occurrence, `strcasestr` what `strstr` reports for the
lowered strings. -/
structure SearchesAgree (h n : CString) : Prop where
  strstr : Finds n.bytes h.bytes (strstr h n)
  memmem : ∃ r, memmem (some h.bytes) h.strlen (some n.bytes) n.strlen = some r ∧
    Finds n.bytes h.bytes r
  strcasestr : strcasestr h n = LampUserspace.strstr h.lower n.lower

/-- The condition of the loop of `strcasestr` is checked before the empty needle is found. -/
theorem strcasestr_eq_iff (h n : CString) :
    strcasestr h n = strstr h.lower n.lower ↔ h.bytes ≠ [] ∨ n.bytes ≠ [] := by
  by_cases hn : n.bytes = []
  · have hlow : strstr h.lower n.lower = some 0 := by
      simp [strstr, CString.strlen, CString.lower, hn]
    rw [hlow, strcasestr]
    cases hb : h.bytes with
    | nil => simp [firstRest, hn]
    | cons x s =>
      have hat : strcasestrAt n (x :: s) := by simp [strcasestrAt_iff, hn]
      simp [firstRest, hat]
  · have heq := (strcasestr_finds hn h).unique (strstr_finds h.lower n.lower)
    simp [heq, hn]

/-- The searches agree unless both strings are empty. -/
theorem searchesAgree_iff (h n : CString) :
    SearchesAgree h n ↔ h.bytes ≠ [] ∨ n.bytes ≠ [] := by
  refine ⟨fun hagree => (strcasestr_eq_iff h n).mp hagree.strcasestr, fun hne => ?_⟩
  exact ⟨strstr_finds h n, memmem_finds h.bytes n.bytes, (strcasestr_eq_iff h n).mpr hne⟩

/-- `strcasestr("", "")` is a null pointer. -/
theorem not_searchesAgree_empty : ¬ SearchesAgree ⟨[], by decide⟩ ⟨[], by decide⟩ := by
  intro hagree
  have hor := (strcasestr_eq_iff _ _).mp hagree.strcasestr
  simp at hor

end LampUserspace
