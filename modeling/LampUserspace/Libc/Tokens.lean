import LampUserspace.Libc.Strings

/-! # Splitting strings

`strsep` and `strtok_r` of `libc_string.c`. The string lies in an object of bytes
and is modified in place; a pointer into the object is the number of bytes before
it, and a function that would leave the object has no result.
-/

namespace LampUserspace

/-- The loop `while (s[n] && p(s[n])) n++` on the bytes from a pointer on. -/
def spanBytes (p : UInt8 → Bool) : List UInt8 → Option ℕ
  | [] => none
  | x :: s => if x ≠ 0 && p x then (spanBytes p s).map (· + 1) else some 0

def strspn (s : List UInt8) (accept : CString) : Option ℕ :=
  spanBytes (fun x => (strchr x accept.bytes).isSome) s

def strcspn (s : List UInt8) (reject : CString) : Option ℕ :=
  spanBytes (fun x => (strchr x reject.bytes).isNone) s

/-- What a call leaves: the returned pointer, the pointer variable of the caller, `none` where
its address was a null pointer, and the object. -/
structure Piece where
  result : Option ℕ
  var : Option (Option ℕ)
  buf : List UInt8
  deriving DecidableEq, Repr

/-- The common end of the two functions: the delimiter behind the piece that begins at `start`
becomes a terminator, and the variable moves on. -/
def cutPiece (buf : List UInt8) (start : ℕ) (delim : CString) : Option Piece := do
  let stop := start + (← strcspn (buf.drop start) delim)
  if (← buf[stop]?) ≠ 0 then some ⟨some start, some (some (stop + 1)), buf.set stop 0⟩
  else some ⟨some start, some (some stop), buf⟩

def strsep (stringp : Option (Option ℕ)) (delim : Option CString) (buf : List UInt8) :
    Option Piece :=
  match stringp.join, delim with
  | some start, some delim => cutPiece buf start delim
  | _, _ => some ⟨none, stringp, buf⟩

theorem strsep_some (start : ℕ) (delim : CString) (buf : List UInt8) :
    strsep (some (some start)) (some delim) buf = cutPiece buf start delim := rfl

def strtokR (str : Option ℕ) (delim : Option CString) (saveptr : Option (Option ℕ))
    (buf : List UInt8) : Option Piece :=
  match str.or saveptr.join, delim, saveptr with
  | some s, some delim, some _ => do
    let s := s + (← strspn (buf.drop s) delim)
    if (← buf[s]?) = 0 then some ⟨none, some (some s), buf⟩
    else cutPiece buf s delim
  | _, _, _ => some ⟨none, saveptr, buf⟩

/-! ## Spans of a string -/

section Spans

variable {c x : UInt8} {d : CString} {pre f t rest : List UInt8} {p : UInt8 → Bool}

theorem spanBytes_append (hf : ∀ x ∈ f, x ≠ 0 ∧ p x = true) (hx : x = 0 ∨ p x = false) :
    spanBytes p (f ++ x :: rest) = some f.length := by
  induction f with
  | nil =>
    rw [List.nil_append, spanBytes, if_neg]
    · rfl
    · rcases hx with rfl | hx
      · simp
      · simp [hx]
  | cons y f ih =>
    have hy := hf y List.mem_cons_self
    rw [List.cons_append, spanBytes, if_pos (by simp [hy]),
      ih fun z hz => hf z (List.mem_cons_of_mem _ hz)]
    rfl

theorem isSome_strchr (hx : x ≠ 0) : (strchr x d.bytes).isSome ↔ x ∈ d.bytes := by
  rw [Option.isSome_iff_ne_none, Ne, strchr_eq_none hx, not_not]

theorem isNone_strchr (hx : x ≠ 0) : (strchr x d.bytes).isNone ↔ x ∉ d.bytes := by
  rw [Option.isNone_iff_eq_none, strchr_eq_none hx]

theorem strspn_append (h0 : 0 ∉ f) (hf : ∀ x ∈ f, x ∈ d.bytes) (hx : x ∉ d.bytes) :
    strspn (f ++ x :: rest) d = some f.length := by
  refine spanBytes_append (fun y hy => ?_) ?_
  · have hy0 : y ≠ 0 := fun heq => h0 (heq ▸ hy)
    exact ⟨hy0, (isSome_strchr hy0).mpr (hf y hy)⟩
  · by_cases hx0 : x = 0
    · exact Or.inl hx0
    · exact Or.inr (Bool.eq_false_iff.mpr fun hsome => hx ((isSome_strchr hx0).mp hsome))

theorem strcspn_append (h0 : 0 ∉ f) (hf : ∀ x ∈ f, x ∉ d.bytes) (hx : x = 0 ∨ x ∈ d.bytes) :
    strcspn (f ++ x :: rest) d = some f.length := by
  refine spanBytes_append (fun y hy => ?_) ?_
  · have hy0 : y ≠ 0 := fun heq => h0 (heq ▸ hy)
    exact ⟨hy0, (isNone_strchr hy0).mpr (hf y hy)⟩
  · by_cases hx0 : x = 0
    · exact Or.inl hx0
    · exact Or.inr (Bool.eq_false_iff.mpr fun hnone =>
        (isNone_strchr hx0).mp hnone (hx.resolve_left hx0))

end Spans

/-! ## One piece -/

section Pieces

variable {c : UInt8} {d : CString} {pre f t : List UInt8}

theorem cutPiece_delim (h0 : 0 ∉ f) (hf : ∀ x ∈ f, x ∉ d.bytes) (hc : c ∈ d.bytes) :
    cutPiece (pre ++ (f ++ c :: t)) pre.length d =
      some ⟨some pre.length, some (some (pre.length + f.length + 1)), pre ++ (f ++ 0 :: t)⟩ := by
  have hc0 : c ≠ 0 := fun heq => d.nul_free (heq ▸ hc)
  have hget : (pre ++ (f ++ c :: t))[pre.length + f.length]? = some c := by simp
  have hset : (pre ++ (f ++ c :: t)).set (pre.length + f.length) 0 = pre ++ (f ++ 0 :: t) := by
    simp
  rw [cutPiece, List.drop_left, strcspn_append h0 hf (Or.inr hc)]
  simp only [Option.bind_eq_bind, Option.bind_some, hget, if_pos hc0, hset]

theorem cutPiece_last (h0 : 0 ∉ f) (hf : ∀ x ∈ f, x ∉ d.bytes) :
    cutPiece (pre ++ (f ++ [0])) pre.length d =
      some ⟨some pre.length, some (some (pre.length + f.length)), pre ++ (f ++ [0])⟩ := by
  rw [cutPiece, List.drop_left, strcspn_append h0 hf (Or.inl rfl)]
  simp

end Pieces

/-! ## All fields of a string -/

/-- The strings that `n` calls of `strsep` on one pointer variable return. -/
def strsepCalls (delim : CString) : ℕ → Option (Option ℕ) → List UInt8 →
    Option (List (Option (List UInt8)))
  | 0, _, _ => some []
  | n + 1, stringp, buf => do
    let piece ← strsep stringp (some delim) buf
    let strings ← strsepCalls delim n piece.var piece.buf
    some (piece.result.map (stringFrom piece.buf) :: strings)

def fields (s d : CString) : List (List UInt8) := s.bytes.splitOnP (· ∈ d.bytes)

/-- Some number of calls returns the fields of the string and then a null pointer. -/
def YieldsFields (s d : CString) : Prop :=
  ∃ n, strsepCalls d n (some (some 0)) s.memory = some ((fields s d).map some ++ [none])

section Fields

variable {d : CString} {pre f t : List UInt8}

theorem first_cases (p : UInt8 → Prop) [DecidablePred p] (t : List UInt8) :
    (∀ x ∈ t, ¬ p x) ∨ ∃ f c t', t = f ++ c :: t' ∧ (∀ x ∈ f, ¬ p x) ∧ p c := by
  induction t with
  | nil => exact Or.inl fun x hx => absurd hx List.not_mem_nil
  | cons x t ih =>
    by_cases hx : p x
    · exact Or.inr ⟨[], x, t, rfl, fun y hy => absurd hy List.not_mem_nil, hx⟩
    · rcases ih with hall | ⟨f, c, t', rfl, hf, hc⟩
      · exact Or.inl (List.forall_mem_cons.mpr ⟨hx, hall⟩)
      · exact Or.inr ⟨x :: f, c, t', rfl, List.forall_mem_cons.mpr ⟨hx, hf⟩, hc⟩

theorem take_append_replicate {α : Type*} (l : List α) (n : ℕ) (x : α) :
    (l ++ List.replicate (n + 1) x).take n = (l ++ List.replicate n x).take n := by
  rw [List.replicate_succ', ← List.append_assoc, List.take_append_of_le_length (by simp)]

/-- The calls return the fields of what is left, and then empty strings without end. -/
theorem strsepCalls_eq (n : ℕ) (pre t : List UInt8) (h0 : 0 ∉ t) :
    strsepCalls d n (some (some pre.length)) (pre ++ (t ++ [0])) =
      some (((t.splitOnP (· ∈ d.bytes) ++ List.replicate n []).take n).map some) := by
  induction n generalizing pre t with
  | zero => rfl
  | succ n ih =>
    rw [strsepCalls]
    rcases first_cases (· ∈ d.bytes) t with hall | ⟨f, c, t', rfl, hf, hc⟩
    · have hsingle : t.splitOnP (· ∈ d.bytes) = [t] :=
          List.splitOnP_eq_singleton fun x hx => decide_eq_false (hall x hx)
      have hrest := ih (pre ++ t) [] List.not_mem_nil
      rw [List.length_append, List.append_assoc, List.nil_append] at hrest
      simp only [strsep_some, cutPiece_last h0 hall, Option.bind_eq_bind, Option.bind_some,
        hrest, Option.map_some, stringFrom_append h0, hsingle]
      simp [List.replicate_succ]
    · have h0f : 0 ∉ f := fun hmem => h0 (List.mem_append_left _ hmem)
      have h0t : 0 ∉ t' := fun hmem => h0 (List.mem_append_right _ (List.mem_cons_of_mem _ hmem))
      have hsplit : (f ++ c :: t').splitOnP (· ∈ d.bytes) = f :: t'.splitOnP (· ∈ d.bytes) :=
        List.splitOnP_append_cons_of_forall_mem (fun x hx => decide_eq_false (hf x hx)) c
          (decide_eq_true hc) t'
      have hrest := ih (pre ++ (f ++ [0])) t' h0t
      simp only [List.length_append, List.length_singleton, List.append_assoc,
        List.singleton_append, ← Nat.add_assoc] at hrest
      simp only [strsep_some, List.append_assoc, List.cons_append, cutPiece_delim h0f hf hc,
        Option.bind_eq_bind, Option.bind_some, hrest, Option.map_some, stringFrom_append h0f,
        hsplit]
      rw [List.take_succ_cons, List.map_cons, take_append_replicate]

/-- The pointer variable never becomes a null pointer, so no call returns one. -/
theorem strsepCalls_ne (s : CString) (d : CString) (n : ℕ) (l : List (Option (List UInt8)))
    (h : strsepCalls d n (some (some 0)) s.memory = some l) : none ∉ l := by
  have heq := strsepCalls_eq (d := d) n [] s.bytes s.nul_free
  rw [List.nil_append, List.length_nil] at heq
  rw [CString.memory, heq] at h
  rw [← Option.some.inj h]
  intro hmem
  obtain ⟨x, -, hx⟩ := List.mem_map.mp hmem
  cases hx

/-- `strsep` yields the fields of no string in this way. -/
theorem not_yieldsFields (s d : CString) : ¬ YieldsFields s d := by
  rintro ⟨n, hn⟩
  exact strsepCalls_ne s d n _ hn (by simp)

/-- After the fields of `a,b` every call returns an empty string. -/
theorem not_yieldsFields_two :
    ¬ YieldsFields ⟨[byte 'a', byte ',', byte 'b'], by decide⟩ ⟨[byte ','], by decide⟩ := by
  rintro ⟨n, hn⟩
  exact strsepCalls_ne _ _ n _ hn (by simp)

end Fields

/-! ## Tokens -/

/-- The calls of `strtok_r` with the delimiter sets of a list: the first with the pointer `str`,
the others with a null pointer. -/
def strtokCalls : Option ℕ → Option (Option ℕ) → List UInt8 → List CString →
    Option (List (Option ℕ) × List UInt8)
  | _, _, buf, [] => some ([], buf)
  | str, saveptr, buf, d :: ds => do
    let piece ← strtokR str (some d) saveptr buf
    let (results, buf) ← strtokCalls none piece.var piece.buf ds
    some (piece.result :: results, buf)

/-- The tokens, each with its position, that calls with the delimiter sets of a list take from the
bytes from `pos` on, and what becomes of these bytes: a token is a maximal nonempty run outside
the set of its call, and the delimiter behind it becomes a terminator. -/
inductive Tokens : ℕ → List UInt8 → List CString → List (Option (ℕ × List UInt8)) →
    List UInt8 → Prop where

  | nil (pos : ℕ) (t : List UInt8) : Tokens pos t [] [] t

  | token {pos : ℕ} {skip f t t' : List UInt8} {c : UInt8} {d : CString} {ds : List CString}
      {toks : List (Option (ℕ × List UInt8))} (hskip : ∀ x ∈ skip, x ∈ d.bytes) (hne : f ≠ [])
      (hf : ∀ x ∈ f, x ∉ d.bytes) (hc : c ∈ d.bytes)
      (hrest : Tokens (pos + skip.length + f.length + 1) t ds toks t') :
      Tokens pos (skip ++ (f ++ c :: t)) (d :: ds) (some (pos + skip.length, f) :: toks)
        (skip ++ (f ++ 0 :: t'))

  | last {pos : ℕ} {skip f t' : List UInt8} {d : CString} {ds : List CString}
      {toks : List (Option (ℕ × List UInt8))} (hskip : ∀ x ∈ skip, x ∈ d.bytes) (hne : f ≠ [])
      (hf : ∀ x ∈ f, x ∉ d.bytes)
      (hrest : Tokens (pos + skip.length + f.length) [] ds toks t') :
      Tokens pos (skip ++ f) (d :: ds) (some (pos + skip.length, f) :: toks) (skip ++ (f ++ t'))

  | done {pos : ℕ} {t t' : List UInt8} {d : CString} {ds : List CString}
      {toks : List (Option (ℕ × List UInt8))} (ht : ∀ x ∈ t, x ∈ d.bytes)
      (hrest : Tokens (pos + t.length) [] ds toks t') :
      Tokens pos t (d :: ds) (none :: toks) (t ++ t')

namespace Tokens

variable {pos p i j : ℕ} {t t' f : List UInt8} {d : CString} {ds : List CString}
  {toks : List (Option (ℕ × List UInt8))}

theorem length_eq (h : Tokens pos t ds toks t') : t'.length = t.length := by
  induction h with
  | nil => rfl
  | token _ _ _ _ _ ih => simp [ih]
  | last _ _ _ _ ih => simp [ih]
  | done _ _ ih => simp [ih]

theorem eq_nil (h : Tokens pos [] ds toks t') : t' = [] :=
  List.eq_nil_of_length_eq_zero h.length_eq

theorem frame (h : Tokens pos t ds toks t') (hi : t'[i]? ≠ t[i]?) :
    t'[i]? = some 0 ∧ (∃ d ∈ ds, ∃ c ∈ d.bytes, t[i]? = some c) ∧
      ∃ p f, some (p, f) ∈ toks ∧ p + f.length = pos + i := by
  induction h generalizing i with
  | nil => exact absurd rfl hi
  | @token pos skip f t t' c d ds toks hskip hne hf hc hrest ih =>
    rw [← List.append_assoc, ← List.append_assoc] at hi ⊢
    rcases Nat.lt_trichotomy i (skip ++ f).length with hlt | rfl | hgt
    · rw [List.getElem?_append_left hlt, List.getElem?_append_left hlt] at hi
      exact absurd rfl hi
    · refine ⟨by simp, ⟨d, List.mem_cons_self, c, hc, by simp⟩, _, _, List.mem_cons_self, ?_⟩
      rw [List.length_append, Nat.add_assoc]
    · obtain ⟨k, rfl⟩ := Nat.exists_eq_add_of_lt hgt
      have hget : ∀ x u, (skip ++ f ++ x :: u)[(skip ++ f).length + k + 1]? = u[k]? := by
        intro x u
        rw [List.getElem?_append_right (by omega), Nat.add_assoc, Nat.add_sub_cancel_left,
          List.getElem?_cons_succ]
      rw [hget, hget] at hi
      obtain ⟨hzero, ⟨e, he, x, hx, htx⟩, p, g, hmem, hp⟩ := ih hi
      refine ⟨(hget _ _).trans hzero, ⟨e, List.mem_cons_of_mem _ he, x, hx, (hget _ _).trans htx⟩,
        p, g, List.mem_cons_of_mem _ hmem, ?_⟩
      rw [hp, List.length_append]
      omega
  | last _ _ _ hrest => rw [hrest.eq_nil, List.append_nil] at hi; exact absurd rfl hi
  | done _ hrest => rw [hrest.eq_nil, List.append_nil] at hi; exact absurd rfl hi

theorem of_nil (h : Tokens pos [] ds toks t') : toks = List.replicate ds.length none := by
  generalize ht : ([] : List UInt8) = t at h
  induction h with
  | nil => rfl
  | token => simp at ht
  | last _ hne => exact absurd (List.append_eq_nil_iff.mp ht.symm).2 hne
  | done _ _ ih => rw [ih rfl, List.length_cons, List.replicate_succ]

theorem not_mem_of_nil (h : Tokens pos [] ds toks t') : some (p, f) ∉ toks := by
  rw [h.of_nil]
  exact fun hmem => Option.some_ne_none _ (List.eq_of_mem_replicate hmem)

theorem prefix_drop (h : Tokens pos t ds toks t') (hmem : some (p, f) ∈ toks) :
    pos ≤ p ∧ f ++ [0] <+: (t' ++ [0]).drop (p - pos) := by
  induction h with
  | nil => exact absurd hmem List.not_mem_nil
  | @token pos skip g t t' c d ds toks hskip hne hg hc hrest ih =>
    rcases List.mem_cons.mp hmem with heq | hmem
    · obtain ⟨rfl, rfl⟩ := Prod.mk.inj (Option.some.inj heq)
      refine ⟨Nat.le_add_right _ _, t' ++ [0], ?_⟩
      simp
    · obtain ⟨hle, hpre⟩ := ih hmem
      refine ⟨by omega, ?_⟩
      have hdrop : (skip ++ (g ++ 0 :: t') ++ [0]).drop (p - pos) =
          (t' ++ [0]).drop (p - (pos + skip.length + g.length + 1)) := by
        have hsplit : skip ++ (g ++ 0 :: t') ++ [0] = (skip ++ g ++ [0]) ++ (t' ++ [0]) := by simp
        rw [hsplit, List.drop_append, List.drop_eq_nil_of_le, List.nil_append]
        · congr 1
          simp only [List.length_append, List.length_singleton]
          omega
        · simp only [List.length_append, List.length_singleton]
          omega
      rwa [hdrop]
  | @last pos skip g t' d ds toks hskip hne hg hrest ih =>
    rcases List.mem_cons.mp hmem with heq | hmem
    · obtain ⟨rfl, rfl⟩ := Prod.mk.inj (Option.some.inj heq)
      refine ⟨Nat.le_add_right _ _, [], ?_⟩
      rw [hrest.eq_nil]
      simp
    · exact absurd hmem hrest.not_mem_of_nil
  | done _ hrest =>
    rcases List.mem_cons.mp hmem with heq | hmem
    · cases heq
    · exact absurd hmem hrest.not_mem_of_nil

theorem exhausted_cons {α : Type*} {x : α} {l : List (Option α)}
    (h : ∀ {i j}, l[i]? = some none → i ≤ j → j < l.length → l[j]? = some none)
    (hi : (some x :: l)[i]? = some none) (hij : i ≤ j) (hj : j < (some x :: l).length) :
    (some x :: l)[j]? = some none := by
  cases i with
  | zero => simp at hi
  | succ i =>
    cases j with
    | zero => omega
    | succ j => exact h hi (Nat.le_of_succ_le_succ hij) (Nat.lt_of_succ_lt_succ hj)

theorem exhausted (h : Tokens pos t ds toks t') (hi : toks[i]? = some none) (hij : i ≤ j)
    (hj : j < toks.length) : toks[j]? = some none := by
  induction h generalizing i j with
  | nil => simp at hj
  | token _ _ _ _ _ ih => exact exhausted_cons ih hi hij hj
  | last _ _ _ _ ih => exact exhausted_cons ih hi hij hj
  | done _ hrest ih =>
    rw [hrest.of_nil, ← List.replicate_succ] at hj ⊢
    rw [List.length_replicate] at hj
    exact List.getElem?_replicate_of_lt hj

end Tokens

theorem skip_cases (d : CString) (t : List UInt8) :
    (∀ x ∈ t, x ∈ d.bytes) ∨
      ∃ skip x u, t = skip ++ x :: u ∧ (∀ x ∈ skip, x ∈ d.bytes) ∧ x ∉ d.bytes := by
  simpa only [not_not] using first_cases (· ∉ d.bytes) t

/-- What a call finds: delimiters only, a last token, or a token with a delimiter behind it. -/
theorem token_cases (d : CString) (t : List UInt8) :
    (∀ x ∈ t, x ∈ d.bytes) ∨
      ∃ skip f, f ≠ [] ∧ (∀ x ∈ skip, x ∈ d.bytes) ∧ (∀ x ∈ f, x ∉ d.bytes) ∧
        (t = skip ++ f ∨ ∃ c u, c ∈ d.bytes ∧ t = skip ++ (f ++ c :: u)) := by
  rcases skip_cases d t with hall | ⟨skip, x, u, rfl, hskip, hx⟩
  · exact Or.inl hall
  · rcases first_cases (· ∈ d.bytes) u with hall | ⟨f, c, u, rfl, hf, hc⟩
    · exact Or.inr ⟨skip, x :: u, List.cons_ne_nil x u, hskip,
        List.forall_mem_cons.mpr ⟨hx, hall⟩, Or.inl rfl⟩
    · exact Or.inr ⟨skip, x :: f, List.cons_ne_nil x f, hskip,
        List.forall_mem_cons.mpr ⟨hx, hf⟩, Or.inr ⟨c, u, hc, rfl⟩⟩

section Calls

variable {c : UInt8} {d : CString} {str v : Option ℕ} {pre skip f u t : List UInt8}

theorem strtokR_done (hp : str.or v = some pre.length) (h0 : 0 ∉ t)
    (ht : ∀ x ∈ t, x ∈ d.bytes) :
    strtokR str (some d) (some v) (pre ++ (t ++ [0])) =
      some ⟨none, some (some (pre ++ t).length), pre ++ (t ++ [0])⟩ := by
  have hget : (pre ++ (t ++ [0]))[pre.length + t.length]? = some 0 := by simp
  simp only [strtokR, Option.join_some, hp, List.drop_left, strspn_append h0 ht d.nul_free,
    Option.bind_eq_bind, Option.bind_some, hget, if_pos, List.length_append]

/-- With a token ahead a call cuts it off behind the delimiters that it skips. -/
theorem strtokR_skip (hp : str.or v = some pre.length) (h0 : 0 ∉ skip ++ f)
    (hskip : ∀ x ∈ skip, x ∈ d.bytes) (hne : f ≠ []) (hf : ∀ x ∈ f, x ∉ d.bytes) :
    strtokR str (some d) (some v) (pre ++ (skip ++ (f ++ u))) =
      cutPiece ((pre ++ skip) ++ (f ++ u)) (pre ++ skip).length d := by
  cases f with
  | nil => exact absurd rfl hne
  | cons x f =>
    simp only [List.mem_append, List.mem_cons, not_or] at h0
    have hx := hf x List.mem_cons_self
    have hget : (pre ++ (skip ++ x :: (f ++ u)))[pre.length + skip.length]? = some x := by simp
    simp only [strtokR, Option.join_some, hp, List.drop_left, List.cons_append,
      strspn_append h0.1 hskip hx, Option.bind_eq_bind, Option.bind_some, hget,
      if_neg (Ne.symm h0.2.1), List.length_append, List.append_assoc]

end Calls

/-- Calls from a position on take the tokens of the bytes from there. -/
theorem strtokCalls_tokens (str v : Option ℕ) (pre t : List UInt8) (ds : List CString)
    (hp : str.or v = some pre.length) (h0 : 0 ∉ t) :
    ∃ toks t', strtokCalls str (some v) (pre ++ (t ++ [0])) ds =
      some (toks.map (Option.map Prod.fst), pre ++ (t' ++ [0])) ∧
      Tokens pre.length t ds toks t' := by
  induction ds generalizing str v pre t with
  | nil => exact ⟨[], t, rfl, .nil _ _⟩
  | cons d ds ih =>
    rw [strtokCalls]
    rcases token_cases d t with hall | ⟨skip, f, hne, hskip, hf, rfl | ⟨c, u, hc, rfl⟩⟩
    · obtain ⟨toks, t', hcalls, htoks⟩ :=
        ih none _ (pre ++ t) [] rfl List.not_mem_nil
      rw [List.append_assoc, List.append_assoc, List.nil_append] at hcalls
      rw [List.length_append] at htoks
      refine ⟨none :: toks, t ++ t', ?_, .done hall htoks⟩
      simp only [strtokR_done hp h0 hall, Option.bind_eq_bind, Option.bind_some, hcalls,
        List.map_cons, Option.map_none, List.append_assoc]
    · have h0f : 0 ∉ f := fun hmem => h0 (List.mem_append_right _ hmem)
      obtain ⟨toks, t', hcalls, htoks⟩ :=
        ih none _ (pre ++ skip ++ f) [] rfl List.not_mem_nil
      rw [List.length_append, List.length_append] at hcalls htoks
      refine ⟨_, _, ?_, .last hskip hne hf htoks⟩
      rw [List.append_assoc skip, strtokR_skip hp h0 hskip hne hf, cutPiece_last h0f hf]
      simp only [List.append_assoc, List.nil_append] at hcalls
      simp only [Option.bind_eq_bind, Option.bind_some, hcalls, List.map_cons, Option.map_some,
        List.append_assoc, List.length_append]
    · have h0f : 0 ∉ f := fun hmem =>
        h0 (List.mem_append_right _ (List.mem_append_left _ hmem))
      have h0u : 0 ∉ u := fun hmem =>
        h0 (List.mem_append_right _ (List.mem_append_right _ (List.mem_cons_of_mem _ hmem)))
      have h0s : 0 ∉ skip ++ f := fun hmem =>
        (List.mem_append.mp hmem).elim (fun hs => h0 (List.mem_append_left _ hs)) h0f
      obtain ⟨toks, t', hcalls, htoks⟩ :=
        ih none _ (pre ++ skip ++ f ++ [0]) u rfl h0u
      rw [List.length_append, List.length_append, List.length_append] at hcalls htoks
      refine ⟨_, _, ?_, .token hskip hne hf hc htoks⟩
      rw [List.append_assoc skip, List.append_assoc f, List.cons_append,
        strtokR_skip hp h0s hskip hne hf, cutPiece_delim h0f hf hc]
      simp only [List.append_assoc, List.singleton_append, List.length_singleton] at hcalls
      simp only [Option.bind_eq_bind, Option.bind_some, hcalls, List.map_cons, Option.map_some,
        List.append_assoc, List.cons_append, List.length_append]

/-- The tokens that successive calls of `strtok_r` take from a string. The results are pointers to
them in the object; once a result is a null pointer, so are those that follow, and of the bytes of
the string only delimiters directly behind a token are changed. -/
structure Tokenised (s : CString) (ds : List CString) (results : List (Option ℕ))
    (buf : List UInt8) (toks : List (Option (ℕ × List UInt8))) (bytes : List UInt8) : Prop where
  tokens : Tokens 0 s.bytes ds toks bytes
  results_eq : results = toks.map (Option.map Prod.fst)
  buf_eq : buf = bytes ++ [0]
  string : ∀ p f, some (p, f) ∈ toks → f ++ [0] <+: buf.drop p
  exhausted : ∀ i j, results[i]? = some none → i ≤ j → j < results.length → results[j]? = some none
  frame : ∀ i, buf[i]? ≠ s.memory[i]? → buf[i]? = some 0 ∧
    (∃ d ∈ ds, ∃ c ∈ d.bytes, s.bytes[i]? = some c) ∧ ∃ p f, some (p, f) ∈ toks ∧ p + f.length = i

/-- `strtok_r` splits every string with all delimiter sets, whatever the caller's variable held. -/
theorem strtokCalls_tokenised (s : CString) (ds : List CString) (v : Option ℕ) :
    ∃ results buf toks bytes, strtokCalls (some 0) (some v) s.memory ds = some (results, buf) ∧
      Tokenised s ds results buf toks bytes := by
  obtain ⟨toks, bytes, hcalls, htoks⟩ :=
    strtokCalls_tokens (some 0) v [] s.bytes ds rfl s.nul_free
  rw [List.length_nil] at htoks
  refine ⟨_, _, toks, bytes, hcalls, htoks, rfl, rfl, fun p f hmem => ?_, fun i j hi hij hj => ?_,
    fun i hi => ?_⟩
  · exact (htoks.prefix_drop hmem).2
  · rw [List.length_map] at hj
    rw [List.getElem?_map, Option.map_eq_some_iff] at hi ⊢
    obtain ⟨tok, htok, hnone⟩ := hi
    rw [Option.map_eq_none_iff] at hnone
    rw [hnone] at htok
    exact ⟨none, htoks.exhausted htok hij hj, rfl⟩
  · have hlen := htoks.length_eq
    rw [List.nil_append, CString.memory] at hi
    by_cases hlt : i < bytes.length
    · rw [List.getElem?_append_left hlt, List.getElem?_append_left (hlen ▸ hlt)] at hi
      have hframe := htoks.frame hi
      rw [Nat.zero_add] at hframe
      rwa [List.nil_append, List.getElem?_append_left hlt]
    · rw [List.getElem?_append_right (by omega), List.getElem?_append_right (by omega), hlen] at hi
      exact absurd rfl hi

end LampUserspace
