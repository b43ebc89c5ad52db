import LampUserspace.Libc.Strings

/-! # Command line options

`getopt` of `libc_misc.c` and the parse of a command line that POSIX prescribes.
The scanner keeps an index and a pointer into the current cluster of letters; its
calls return the options of the parse one after the other and leave the operands.
-/

namespace LampUserspace.Process

/-- The variables of the scanner: `g_getopt_pos` is the bytes from the pointer to the terminator
of its argument, `none` for a null pointer. -/
@[ext]
structure Scanner where
  optind : ℕ
  optarg : Option (List UInt8)
  optopt : UInt8
  pos : Option (List UInt8)
  deriving DecidableEq, Repr

/-- The first test of `getopt`: is there a cluster of letters left, or does one begin? The
returned value is -1 without one. -/
def getoptCluster (argc : ℕ) (argv : List (Option CString)) (s : Scanner) :
    Option (Bool × Scanner) :=
  if s.pos.getD [] ≠ [] then some (true, s)
  else if argc ≤ s.optind then some (false, s)
  else do
    match ← argv[s.optind]? with
    | none => some (false, s)
    | some arg =>
      if arg.memory[0]? ≠ some (byte '-') ∨ arg.memory[1]? = some 0 then some (false, s)
      else if arg.memory[1]? = some (byte '-') ∧ arg.memory[2]? = some 0 then
        some (false, { s with optind := s.optind + 1 })
      else some (true, { s with pos := some (arg.bytes.drop 1) })

/-- The rest of `getopt`, with the letter `c` and the bytes `rest` behind it. -/
def getoptLetter (argc : ℕ) (argv : List (Option CString)) (optstring : CString) (c : UInt8)
    (rest : List UInt8) (s : Scanner) : Option (UInt8 × Scanner) :=
  let s := { s with pos := some rest, optopt := c }
  let past := { s with optind := s.optind + 1 }
  let unknown := some (byte '?', if rest = [] then past else s)
  match strchr c optstring.bytes with
  | none => unknown
  | some spec =>
    if c = byte ':' then unknown
    else if optstring.memory[spec + 1]? = some (byte ':') then
      if rest ≠ [] then some (c, { past with optarg := some rest, pos := none })
      else if s.optind + 1 < argc then do
        let arg ← argv[s.optind + 1]?
        some (c, ⟨s.optind + 2, arg.map (·.bytes), c, none⟩)
      else some (if optstring.memory[0]? = some (byte ':') then byte ':' else byte '?', past)
    else some (c, if rest = [] then { past with pos := none } else s)

/-- `getopt`: the returned letter, `none` being -1, and the variables after it; no result where
it reads outside `argv`. -/
def getopt (argc : ℕ) (argv : List (Option CString)) (optstring : CString) (s : Scanner) :
    Option (Option UInt8 × Scanner) := do
  let s := if s.optind = 0 then { s with optind := 1, pos := none } else s
  let s := { s with optarg := none }
  let (cluster, s) ← getoptCluster argc argv s
  if cluster then
    match s.pos.getD [] with
    | [] => none
    | c :: rest =>
      let (c, s) ← getoptLetter argc argv optstring c rest s
      some (some c, s)
  else some (none, s)

/-! ## The prescribed parse -/

/-- Option letters, each with whether it takes an argument; `silent` is the leading colon. -/
structure Options where
  silent : Bool
  letters : List (UInt8 × Bool)
  distinct : (letters.map Prod.fst).Nodup
  plain : ∀ c ∈ letters.map Prod.fst, c ≠ 0 ∧ c ≠ byte ':'

namespace Options

def entry (l : UInt8 × Bool) : List UInt8 := if l.2 then [l.1, byte ':'] else [l.1]

def text (o : Options) : List UInt8 :=
  (if o.silent then [byte ':'] else []) ++ o.letters.flatMap entry

variable {o : Options} {c : UInt8} {b : Bool}

theorem mem_entry {x : UInt8} {l : UInt8 × Bool} (h : x ∈ entry l) : x = l.1 ∨ x = byte ':' := by
  rw [entry] at h
  split at h
  · simpa using h
  · exact Or.inl (List.mem_singleton.mp h)

theorem mem_text {x : UInt8} (h : x ∈ o.text) : x = byte ':' ∨ x ∈ o.letters.map Prod.fst := by
  rcases List.mem_append.mp h with hlead | hletters
  · split at hlead
    · exact Or.inl (List.mem_singleton.mp hlead)
    · exact absurd hlead List.not_mem_nil
  · obtain ⟨l, hl, hx⟩ := List.mem_flatMap.mp hletters
    rcases mem_entry hx with rfl | rfl
    · exact Or.inr (List.mem_map_of_mem hl)
    · exact Or.inl rfl

theorem text_nul_free (o : Options) : 0 ∉ o.text := by
  intro hmem
  rcases mem_text hmem with heq | hletter
  · exact absurd heq (by decide)
  · exact (o.plain 0 hletter).1 rfl

def optstring (o : Options) : CString := ⟨o.text, o.text_nul_free⟩

theorem optstring_memory (o : Options) : o.optstring.memory = o.text ++ [0] := rfl

theorem not_mem_letters (h : o.letters.lookup c = none) : c ∉ o.letters.map Prod.fst := by
  intro hmem
  obtain ⟨l, hl, rfl⟩ := List.mem_map.mp hmem
  exact absurd rfl (bne_iff_ne.mp (List.lookup_eq_none_iff.mp h l hl))

theorem strchr_none (h : o.letters.lookup c = none) (h0 : c ≠ 0) (hc : c ≠ byte ':') :
    strchr c o.text = none :=
  (strchr_eq_none h0).mpr fun hmem => (mem_text hmem).elim hc (not_mem_letters h)

theorem head_ne_colon {ls : List (UInt8 × Bool)} (h : ∀ l ∈ ls, l.1 ≠ byte ':') :
    (ls.flatMap entry ++ [0])[0]? ≠ some (byte ':') := by
  cases ls with
  | nil => decide
  | cons l ls =>
    have hl := h l List.mem_cons_self
    rw [List.flatMap_cons, entry]
    split
    · exact fun heq => hl (Option.some.inj heq)
    · exact fun heq => hl (Option.some.inj heq)

/-- A colon stands behind a letter exactly where the letter takes an argument. -/
theorem strchr_some (h : o.letters.lookup c = some b) :
    c ≠ byte ':' ∧ ∃ spec, strchr c o.text = some spec ∧
      (o.optstring.memory[spec + 1]? = some (byte ':') ↔ b = true) := by
  obtain ⟨pre, post, hletters, hpre⟩ := List.lookup_eq_some_iff.mp h
  have hc := (o.plain c (by simp [hletters])).2
  generalize hfront : (if o.silent then [byte ':'] else []) ++ pre.flatMap entry = front
  have hnot : c ∉ front := by
    rw [← hfront]
    intro hmem
    rcases List.mem_append.mp hmem with hlead | hmem
    · split at hlead
      · exact hc (List.mem_singleton.mp hlead)
      · exact List.not_mem_nil hlead
    · obtain ⟨l, hl, hx⟩ := List.mem_flatMap.mp hmem
      exact (mem_entry hx).elim (bne_iff_ne.mp (hpre l hl)) hc
  have htext : o.text = front ++ c :: ((if b then [byte ':'] else []) ++ post.flatMap entry) := by
    rw [text, hletters, ← hfront]
    cases b <;> simp [entry]
  refine ⟨hc, front.length, by rw [htext, strchr_append hnot], ?_⟩
  have hnext : o.optstring.memory[front.length + 1]? =
      (((if b then [byte ':'] else []) ++ post.flatMap entry) ++ [0])[0]? := by
    rw [optstring_memory, htext, List.append_assoc,
      List.getElem?_append_right (Nat.le_add_right _ _), Nat.add_sub_cancel_left]
    rfl
  rw [hnext]
  cases b with
  | true => exact iff_of_true rfl rfl
  | false =>
    refine iff_of_false (head_ne_colon fun l hl => ?_) Bool.false_ne_true
    exact (o.plain l.1 (List.mem_map_of_mem (by simp [hletters, hl]))).2

theorem silent_iff (o : Options) : o.optstring.memory[0]? = some (byte ':') ↔ o.silent = true := by
  rw [optstring_memory, text]
  cases o.silent with
  | true => exact iff_of_true rfl rfl
  | false =>
    exact iff_of_false (head_ne_colon fun l hl => (o.plain l.1 (List.mem_map_of_mem hl)).2)
      Bool.false_ne_true

end Options

abbrev Event : Type := UInt8 × Option (List UInt8)

/-- The options and the operands, from the letters left of a cluster and the arguments behind it. -/
def parse (o : Options) : List UInt8 → List (List UInt8) → List Event × List (List UInt8)
  | c :: rest, args =>
    match o.letters.lookup c with
    | none => ((parse o rest args).map ((byte '?', none) :: ·) id)
    | some false => ((parse o rest args).map ((c, none) :: ·) id)
    | some true =>
      if rest ≠ [] then ((parse o [] args).map ((c, some rest) :: ·) id)
      else
        match args with
        | arg :: args => ((parse o [] args).map ((c, some arg) :: ·) id)
        | [] => ([(if o.silent then byte ':' else byte '?', none)], [])
  | [], [] => ([], [])
  | [], arg :: args =>
    if arg = [byte '-', byte '-'] then ([], args)
    else if arg.head? = some (byte '-') ∧ arg.tail ≠ [] then parse o arg.tail args
    else ([], arg :: args)
termination_by rest args => rest.length + args.flatten.length
decreasing_by
  all_goals simp only [List.length_cons, List.length_nil, List.flatten_cons, List.length_append]
  all_goals try omega
  have hpos : arg ≠ [] := fun hnil => by simp_all
  have hlen := List.length_pos_iff.mpr hpos
  rw [List.length_tail]
  omega

end LampUserspace.Process
