import Mathlib.Data.List.DropRight
import LampUserspace.Libc.Strings

/-! # Directory and base names

`dirname` and `basename` of `libc_misc.c` beside the names that POSIX prescribes.
The two agree on the paths with one separator before the last component and none
behind it.
-/

namespace LampUserspace

abbrev slash : UInt8 := byte '/'

/-- The loop of `strrchr` on the bytes before the terminator, which is reached after them. -/
def strrchrLoop (ch : UInt8) : List UInt8 → ℕ → Option ℕ → Option ℕ
  | [], i, last => if 0 = ch then some i else last
  | x :: s, i, last => strrchrLoop ch s (i + 1) (if x = ch then some i else last)

def strrchr (s : CString) (c : UInt8) : Option ℕ := strrchrLoop c s.bytes 0 none

/-- A returned string: a literal, or a pointer into the object of the path. -/
inductive PathName where
  | literal (s : List UInt8)
  | pointer (p : ℕ)
  deriving DecidableEq, Repr

def PathName.bytes (buf : List UInt8) : PathName → List UInt8
  | literal s => s
  | pointer p => stringFrom buf p

/-- `dirname`: the returned string and the object of the path. -/
def dirname (path : CString) : PathName × List UInt8 :=
  match strrchr path slash with
  | none => (.literal [byte '.'], path.memory)
  | some p =>
    if p = 0 then (.pointer 0, path.memory.set 1 0) else (.pointer 0, path.memory.set p 0)

def basename (path : CString) : PathName :=
  match strrchr path slash with
  | none => .pointer 0
  | some p => .pointer (p + 1)

/-! ## The prescribed names -/

def stripped (path : List UInt8) : List UInt8 := path.rdropWhile (· = slash)

/-- The last component; a slash for a path of slashes, and a dot for the empty path. -/
def posixBasename (path : List UInt8) : List UInt8 :=
  if path = [] then [byte '.']
  else if stripped path = [] then [slash]
  else (stripped path).rtakeWhile (· ≠ slash)

/-- What stands before the last component, without the separating slashes; a dot if there is
nothing, and a slash where the component hangs off the root. -/
def posixDirname (path : List UInt8) : List UInt8 :=
  if path = [] then [byte '.']
  else if stripped path = [] then [slash]
  else
    let front := (stripped path).rdropWhile (· ≠ slash)
    if front = [] then [byte '.']
    else if stripped front = [] then [slash]
    else stripped front

structure PosixNames (path : CString) : Prop where
  dirname : (dirname path).1.bytes (dirname path).2 = posixDirname path.bytes
  basename : (basename path).bytes path.memory = posixBasename path.bytes

/-- A path that ends in a component `c`; a single slash, or the two slashes that begin the path,
separate it from what stands before. -/
inductive PlainPath : List UInt8 → Prop where

  | bare (c : List UInt8) (hne : c ≠ []) (hc : slash ∉ c) : PlainPath c

  | under (front c : List UInt8) (hne : c ≠ []) (hc : slash ∉ c)
      (hfront : front.getLast? ≠ some slash ∨ front = [slash]) : PlainPath (front ++ slash :: c)

/-! ## The last slash -/

variable {ch : UInt8} {s front c : List UInt8} {path : CString}

theorem strrchrLoop_not_mem (hc : ch ∉ c) (h0 : ch ≠ 0) (i : ℕ) (last : Option ℕ) :
    strrchrLoop ch c i last = last := by
  induction c generalizing i last with
  | nil => exact if_neg (Ne.symm h0)
  | cons x c ih =>
    have hx : x ≠ ch := fun heq => hc (heq ▸ List.mem_cons_self)
    rw [strrchrLoop, if_neg hx]
    exact ih (fun hmem => hc (List.mem_cons_of_mem _ hmem)) _ _

theorem strrchrLoop_append (hc : ch ∉ c) (h0 : ch ≠ 0) (i : ℕ) (last : Option ℕ) :
    strrchrLoop ch (s ++ ch :: c) i last = some (i + s.length) := by
  induction s generalizing i last with
  | nil =>
    rw [List.nil_append, strrchrLoop, if_pos rfl, strrchrLoop_not_mem hc h0]
    rfl
  | cons x s ih =>
    rw [List.cons_append, strrchrLoop, ih, List.length_cons]
    congr 1
    omega

theorem slash_cases (s : List UInt8) :
    slash ∉ s ∨ ∃ front c, s = front ++ slash :: c ∧ slash ∉ c := by
  induction s with
  | nil => exact Or.inl List.not_mem_nil
  | cons x s ih =>
    rcases ih with hs | ⟨front, c, rfl, hc⟩
    · by_cases hx : x = slash
      · exact Or.inr ⟨[], s, by rw [hx]; rfl, hs⟩
      · exact Or.inl fun hmem => (List.mem_cons.mp hmem).elim (fun heq => hx heq.symm) hs
    · exact Or.inr ⟨x :: front, c, rfl, hc⟩

theorem strrchr_eq_none (hs : slash ∉ path.bytes) : strrchr path slash = none :=
  strrchrLoop_not_mem hs (by decide) 0 none

theorem strrchr_eq_some (hp : path.bytes = front ++ slash :: c) (hc : slash ∉ c) :
    strrchr path slash = some front.length := by
  rw [strrchr, hp, strrchrLoop_append hc (by decide), Nat.zero_add]

/-! ## What the functions return -/

theorem basename_bare (hs : slash ∉ path.bytes) :
    (basename path).bytes path.memory = path.bytes := by
  rw [basename, strrchr_eq_none hs]
  exact stringFrom_append (b := []) path.nul_free

theorem basename_under (hp : path.bytes = front ++ slash :: c) (hc : slash ∉ c) :
    (basename path).bytes path.memory = c := by
  have h0 : 0 ∉ c := fun hmem =>
    path.nul_free (hp ▸ List.mem_append_right _ (List.mem_cons_of_mem _ hmem))
  have hmem : path.memory = (front ++ [slash]) ++ (c ++ 0 :: []) := by
    rw [CString.memory, hp]
    simp
  have hlen : front.length + 1 = (front ++ [slash]).length := by simp
  rw [basename, strrchr_eq_some hp hc, hmem]
  simp only [PathName.bytes, hlen, stringFrom_append h0]

theorem dirname_bare (hs : slash ∉ path.bytes) :
    (dirname path).1.bytes (dirname path).2 = [byte '.'] := by
  rw [dirname, strrchr_eq_none hs]
  rfl

/-- The part before the last slash, or that slash where it begins the path. -/
theorem dirname_under (hp : path.bytes = front ++ slash :: c) (hc : slash ∉ c) :
    (dirname path).1.bytes (dirname path).2 = if front = [] then [slash] else front := by
  have h0 : 0 ∉ front := fun hmem => path.nul_free (hp ▸ List.mem_append_left _ hmem)
  rw [dirname, strrchr_eq_some hp hc, CString.memory, hp]
  cases front with
  | nil =>
    have hset : (([] ++ slash :: c) ++ [0]).set 1 0 = [] ++ ([slash] ++ 0 :: (c ++ [0]).tail) := by
      cases c <;> rfl
    simp only [List.length_nil, if_true, hset, PathName.bytes]
    exact stringFrom_append (b := []) (by decide)
  | cons x front =>
    have hset : ((x :: front ++ slash :: c) ++ [0]).set (x :: front).length 0 =
        [] ++ ((x :: front) ++ 0 :: (c ++ [0])) := by
      rw [List.append_assoc, List.set_append_right _ _ (Nat.le_refl _), Nat.sub_self]
      rfl
    have hlen : (x :: front).length ≠ 0 := Nat.succ_ne_zero _
    simp only [if_neg hlen, hset, PathName.bytes, if_neg (List.cons_ne_nil x front)]
    exact stringFrom_append (b := []) h0

/-! ## What POSIX prescribes -/

theorem stripped_eq_self (hs : s.getLast? ≠ some slash) : stripped s = s := by
  refine List.rdropWhile_eq_self_iff.mpr fun hne hlast => hs ?_
  rw [List.getLast?_eq_getLast_of_ne_nil hne, of_decide_eq_true hlast]

theorem getLast?_component (hne : c ≠ []) (hc : slash ∉ c) : (s ++ c).getLast? ≠ some slash := by
  intro hlast
  rw [List.getLast?_append_of_ne_nil _ hne] at hlast
  exact hc (List.mem_of_getLast? hlast)

theorem ne_slash (hc : slash ∉ c) : ∀ x ∈ c, decide (x ≠ slash) = true := fun _ hx =>
  decide_eq_true fun heq => hc (heq ▸ hx)

theorem while_component (front : List UInt8) (hc : slash ∉ c) :
    (front ++ slash :: c).rtakeWhile (· ≠ slash) = c ∧
      (front ++ slash :: c).rdropWhile (· ≠ slash) = front ++ [slash] := by
  have hstop : ¬ decide (slash ≠ slash) = true := by decide
  induction c using List.reverseRecOn with
  | nil =>
    exact ⟨List.rtakeWhile_concat_neg _ _ slash hstop, List.rdropWhile_concat_neg _ _ slash hstop⟩
  | append_singleton c x ih =>
    have hx := ne_slash hc x (by simp)
    obtain ⟨htake, hdrop⟩ := ih fun hmem => hc (List.mem_append_left _ hmem)
    rw [← List.cons_append, ← List.append_assoc, List.rtakeWhile_concat_pos _ _ x hx,
      List.rdropWhile_concat_pos _ _ x hx]
    exact ⟨by rw [htake], hdrop⟩

theorem posixBasename_bare (hne : c ≠ []) (hc : slash ∉ c) : posixBasename c = c := by
  have hself : stripped c = c := stripped_eq_self (getLast?_component (s := []) hne hc)
  rw [posixBasename, hself, if_neg hne, if_neg hne]
  exact List.rtakeWhile_eq_self_iff.mpr (ne_slash hc)

theorem posixDirname_bare (hne : c ≠ []) (hc : slash ∉ c) : posixDirname c = [byte '.'] := by
  have hself : stripped c = c := stripped_eq_self (getLast?_component (s := []) hne hc)
  rw [posixDirname, hself, if_neg hne, if_neg hne]
  exact if_pos (List.rdropWhile_eq_nil_iff.mpr (ne_slash hc))

theorem stripped_under (hne : c ≠ []) (hc : slash ∉ c) :
    stripped (front ++ slash :: c) = front ++ slash :: c := by
  have hlast := getLast?_component (s := front ++ [slash]) hne hc
  rw [List.append_assoc] at hlast
  exact stripped_eq_self hlast

theorem posixBasename_under (hne : c ≠ []) (hc : slash ∉ c) :
    posixBasename (front ++ slash :: c) = c := by
  have hcons : front ++ slash :: c ≠ [] := by simp
  rw [posixBasename, stripped_under hne hc, if_neg hcons, if_neg hcons]
  exact (while_component _ hc).1

theorem posixDirname_under (hne : c ≠ []) (hc : slash ∉ c) :
    posixDirname (front ++ slash :: c) =
      if stripped front = [] then [slash] else stripped front := by
  have hcons : front ++ slash :: c ≠ [] := by simp
  have hfront : stripped (front ++ [slash]) = stripped front :=
    List.rdropWhile_concat_pos _ _ slash (by decide)
  rw [posixDirname, stripped_under hne hc, if_neg hcons, if_neg hcons]
  simp only [(while_component _ hc).2, hfront, List.append_eq_nil_iff, List.cons_ne_nil, and_false,
    if_false]

theorem posixBasename_ne_nil (s : List UInt8) : posixBasename s ≠ [] := by
  rw [posixBasename]
  split
  · decide
  · split
    · decide
    · rename_i hne
      intro hnil
      have hlast := List.rtakeWhile_eq_nil_iff.mp hnil hne
      have hnot : ¬ decide ((stripped s).getLast hne = slash) = true :=
        List.rdropWhile_last_not _ _ hne
      exact hlast (by simpa using hnot)

/-! ## Where the functions agree with POSIX -/

theorem front_eq_iff (front : List UInt8) :
    ((if front = [] then [slash] else front) =
      if stripped front = [] then [slash] else stripped front) ↔
      front.getLast? ≠ some slash ∨ front = [slash] := by
  constructor
  · intro heq
    by_cases hlast : front.getLast? = some slash
    · obtain ⟨s, rfl⟩ := List.getLast?_eq_some_iff.mp hlast
      have hstrip : stripped (s ++ [slash]) = stripped s :=
        List.rdropWhile_concat_pos _ _ slash (by decide)
      rw [if_neg (by simp), hstrip] at heq
      split at heq
      · exact Or.inr heq
      · have hle : (stripped s).length ≤ s.length := (List.rdropWhile_prefix _ s).length_le
        rw [← heq, List.length_append, List.length_singleton] at hle
        omega
    · exact Or.inl hlast
  · rintro (hlast | rfl)
    · rw [stripped_eq_self hlast]
    · decide

namespace PlainPath

theorem ne_nil (h : PlainPath s) : s ≠ [] := by
  cases h with
  | bare _ hne => exact hne
  | under => simp

theorem getLast?_ne (h : PlainPath s) : s.getLast? ≠ some slash := by
  cases h with
  | bare _ hne hc => exact getLast?_component (s := []) hne hc
  | under front c hne hc =>
    have hlast := getLast?_component (s := front ++ [slash]) hne hc
    rwa [List.append_assoc] at hlast

theorem under_iff (hne : c ≠ []) (hc : slash ∉ c) :
    PlainPath (front ++ slash :: c) ↔ front.getLast? ≠ some slash ∨ front = [slash] := by
  refine ⟨fun h => ?_, under front c hne hc⟩
  generalize hs : front ++ slash :: c = s at h
  cases h with
  | bare _ _ hs' => exact absurd (hs ▸ List.mem_append_right _ List.mem_cons_self) hs'
  | under front' c' _ hc' hfront =>
    -- the last slash is where the bytes other than slashes at the end begin
    have hdrop := (while_component front hc).2
    rw [hs, (while_component _ hc').2] at hdrop
    rwa [← List.append_cancel_right hdrop]

end PlainPath

/-- Both names are those of POSIX exactly for a plain path. -/
theorem posixNames_iff (path : CString) : PosixNames path ↔ PlainPath path.bytes := by
  rcases slash_cases path.bytes with hs | ⟨front, c, hp, hc⟩
  · by_cases hne : path.bytes = []
    · refine iff_of_false (fun h => ?_) fun h => h.ne_nil hne
      have hbase := h.basename
      rw [basename_bare hs] at hbase
      exact posixBasename_ne_nil _ (hbase.symm.trans hne)
    · refine iff_of_true ⟨?_, ?_⟩ (.bare _ hne hs)
      · rw [dirname_bare hs, posixDirname_bare hne hs]
      · rw [basename_bare hs, posixBasename_bare hne hs]
  · by_cases hne : c = []
    · refine iff_of_false (fun h => ?_) fun h => h.getLast?_ne (by rw [hp, hne]; simp)
      have hbase := h.basename
      rw [basename_under hp hc] at hbase
      exact posixBasename_ne_nil _ (hbase.symm.trans hne)
    · have hdir : (dirname path).1.bytes (dirname path).2 = posixDirname path.bytes ↔
          front.getLast? ≠ some slash ∨ front = [slash] := by
        rw [dirname_under hp hc, hp, posixDirname_under hne hc, front_eq_iff]
      rw [hp, PlainPath.under_iff hne hc, ← hdir]
      refine ⟨PosixNames.dirname, fun h => ⟨h, ?_⟩⟩
      rw [basename_under hp hc, hp, posixBasename_under hne hc]

/-- The base name of `a/` is the empty string. -/
theorem not_posixNames_trailing : ¬ PosixNames ⟨[byte 'a', slash], by decide⟩ := by
  intro h
  have hbase := h.basename
  revert hbase
  decide

end LampUserspace
