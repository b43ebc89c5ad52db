import LampUserspace.Process.Getopt

/-! # The options of a command line

Successive calls of `getopt` refine the parse: what a call returns is the next
option, and the scanner then stands at the letters and arguments that are left.
-/

namespace LampUserspace.Process

variable {o : Options} {args : List CString} {s s' : Scanner} {c : UInt8} {b : Bool}
  {rest : List UInt8} {left : List (List UInt8)} {arg : CString}

def argv (args : List CString) : List (Option CString) := args.map some ++ [none]

def getoptCall (o : Options) (args : List CString) (s : Scanner) :
    Option (Option UInt8 × Scanner) :=
  getopt args.length (argv args) o.optstring s

/-- The calls up to the one that returns -1: the letters that the others return, with the
variables after them, and the variables at the end. -/
inductive Calls (o : Options) (args : List CString) :
    Scanner → List (UInt8 × Scanner) → Scanner → Prop where

  | stop {s s' : Scanner} (h : getoptCall o args s = some (none, s')) : Calls o args s [] s'

  | call {s s' s'' : Scanner} {c : UInt8} {calls : List (UInt8 × Scanner)}
      (h : getoptCall o args s = some (some c, s')) (hrest : Calls o args s' calls s'') :
      Calls o args s ((c, s') :: calls) s''

/-- The scanner stands before the letters `rest` of a cluster and then the arguments `left`. -/
structure At (args : List CString) (s : Scanner) (rest : List UInt8) (left : List (List UInt8)) :
    Prop where
  pos : s.pos.getD [] = rest
  nul_free : 0 ∉ rest
  left_eq : (args.drop (if rest = [] then s.optind else s.optind + 1)).map (·.bytes) = left
  one_le : 1 ≤ s.optind
  le : args = [] ∨ s.optind ≤ args.length
  lt : rest ≠ [] → s.optind < args.length

/-! ## Inside a cluster -/

theorem argv_getElem? {i : ℕ} (h : args[i]? = some arg) : (argv args)[i]? = some (some arg) := by
  obtain ⟨hlt, rfl⟩ := List.getElem?_eq_some_iff.mp h
  rw [argv, List.getElem?_append_left (by simpa using hlt)]
  simp [hlt]

theorem getoptCall_letter (hs : 1 ≤ s.optind) (hpos : s.pos.getD [] = c :: rest) :
    getoptCall o args s =
      (getoptLetter args.length (argv args) o.optstring c rest { s with optarg := none }).map
        fun r => (some r.1, r.2) := by
  obtain ⟨optind, optarg, optopt, pos⟩ := s
  have hs' : optind ≠ 0 := Nat.ne_of_gt hs
  cases pos with
  | none => cases hpos
  | some p =>
    obtain rfl : p = c :: rest := hpos
    simp only [getoptCall, getopt, hs', getoptCluster, Option.map_eq_bind, if_false]
    rfl

theorem getoptLetter_unknown (h : o.letters.lookup c = none) (h0 : c ≠ 0) :
    getoptLetter args.length (argv args) o.optstring c rest s =
      some (byte '?', ⟨if rest = [] then s.optind + 1 else s.optind, s.optarg, c, some rest⟩) := by
  have hunknown : getoptLetter args.length (argv args) o.optstring c rest s =
      some (byte '?', if rest = [] then ⟨s.optind + 1, s.optarg, c, some rest⟩
        else ⟨s.optind, s.optarg, c, some rest⟩) := by
    rw [getoptLetter]
    by_cases hc : c = byte ':'
    · simp only [if_pos hc]
      split <;> rfl
    · have hspec : strchr c o.optstring.bytes = none := Options.strchr_none h h0 hc
      rw [hspec]
  rw [hunknown]
  split <;> rfl

theorem getoptLetter_flag (h : o.letters.lookup c = some false) :
    getoptLetter args.length (argv args) o.optstring c rest s =
      some (c, ⟨if rest = [] then s.optind + 1 else s.optind, s.optarg, c,
        if rest = [] then none else some rest⟩) := by
  obtain ⟨hc, spec, hspec, hcolon⟩ := Options.strchr_some h
  have hbytes : strchr c o.optstring.bytes = some spec := hspec
  rw [getoptLetter, hbytes]
  simp only [if_neg hc, if_neg fun heq => Bool.false_ne_true (hcolon.mp heq)]
  split <;> rfl

theorem getoptLetter_attached (h : o.letters.lookup c = some true) (hrest : rest ≠ []) :
    getoptLetter args.length (argv args) o.optstring c rest s =
      some (c, ⟨s.optind + 1, some rest, c, none⟩) := by
  obtain ⟨hc, spec, hspec, hcolon⟩ := Options.strchr_some h
  have hbytes : strchr c o.optstring.bytes = some spec := hspec
  rw [getoptLetter, hbytes]
  simp only [if_neg hc, if_pos (hcolon.mpr rfl), if_pos hrest]

theorem getoptLetter_following (h : o.letters.lookup c = some true)
    (harg : args[s.optind + 1]? = some arg) :
    getoptLetter args.length (argv args) o.optstring c [] s =
      some (c, ⟨s.optind + 2, some arg.bytes, c, none⟩) := by
  obtain ⟨hc, spec, hspec, hcolon⟩ := Options.strchr_some h
  have hbytes : strchr c o.optstring.bytes = some spec := hspec
  have hlt : s.optind + 1 < args.length := (List.getElem?_eq_some_iff.mp harg).1
  rw [getoptLetter, hbytes]
  simp only [if_neg hc, if_pos (hcolon.mpr rfl), ne_eq, not_true_eq_false, if_false, if_pos hlt,
    argv_getElem? harg]
  rfl

theorem getoptLetter_missing (h : o.letters.lookup c = some true)
    (hlen : args.length ≤ s.optind + 1) :
    getoptLetter args.length (argv args) o.optstring c [] s =
      some (if o.silent then byte ':' else byte '?', ⟨s.optind + 1, s.optarg, c, some []⟩) := by
  obtain ⟨hc, spec, hspec, hcolon⟩ := Options.strchr_some h
  have hbytes : strchr c o.optstring.bytes = some spec := hspec
  rw [getoptLetter, hbytes]
  simp only [if_neg hc, if_pos (hcolon.mpr rfl), ne_eq, not_true_eq_false, if_false,
    if_neg (Nat.not_lt_of_le hlen), Options.silent_iff]

/-! ## Between clusters -/

theorem getoptCall_end (hs : 1 ≤ s.optind) (hpos : s.pos.getD [] = [])
    (hlen : args.length ≤ s.optind) :
    getoptCall o args s = some (none, { s with optarg := none }) := by
  have hs' : s.optind ≠ 0 := Nat.ne_of_gt hs
  simp [getoptCall, getopt, hs', getoptCluster, hpos, hlen]

theorem operand_test (arg : CString) :
    (arg.memory[0]? ≠ some (byte '-') ∨ arg.memory[1]? = some 0) ↔
      ¬ (arg.bytes.head? = some (byte '-') ∧ arg.bytes.tail ≠ []) := by
  have h0 := arg.nul_free
  rw [CString.memory]
  cases hb : arg.bytes with
  | nil => decide
  | cons x t =>
    rw [hb] at h0
    cases t with
    | nil => simp
    | cons y t =>
      have hy : y ≠ 0 := fun heq => h0 (by simp [heq])
      simp [hy]

/-- The second test: the cluster is the two dashes that end the options. -/
theorem dashes_test (arg : CString) :
    (arg.bytes.head? = some (byte '-') ∧ arg.memory[1]? = some (byte '-') ∧
      arg.memory[2]? = some 0) ↔ arg.bytes = [byte '-', byte '-'] := by
  have h0 := arg.nul_free
  rw [CString.memory]
  cases hb : arg.bytes with
  | nil => decide
  | cons x t =>
    rw [hb] at h0
    cases t with
    | nil => simp
    | cons y t =>
      cases t with
      | nil => simp
      | cons z t =>
        have hz : z ≠ 0 := fun heq => h0 (by simp [heq])
        simp [hz]

/-- What an argument is: a cluster of letters, the two dashes, or the first operand. -/
theorem getoptCluster_arg (hpos : s.pos.getD [] = []) (harg : args[s.optind]? = some arg) :
    getoptCluster args.length (argv args) s =
      some (if ¬ (arg.bytes.head? = some (byte '-') ∧ arg.bytes.tail ≠ []) then (false, s)
        else if arg.bytes = [byte '-', byte '-'] then (false, { s with optind := s.optind + 1 })
        else (true, { s with pos := some arg.bytes.tail })) := by
  have hlt : ¬ args.length ≤ s.optind := Nat.not_le_of_lt (List.getElem?_eq_some_iff.mp harg).1
  rw [getoptCluster, hpos, if_neg (not_not.mpr rfl), if_neg hlt, argv_getElem? harg]
  simp only [Option.bind_eq_bind, Option.bind_some, operand_test]
  by_cases hcluster : arg.bytes.head? = some (byte '-') ∧ arg.bytes.tail ≠ []
  · have hdashes : (arg.memory[1]? = some (byte '-') ∧ arg.memory[2]? = some 0) ↔
        arg.bytes = [byte '-', byte '-'] := by
      rw [← dashes_test, and_iff_right hcluster.1]
    simp only [if_neg (not_not.mpr hcluster), hdashes, List.drop_one]
    split <;> rfl
  · rw [if_pos hcluster, if_pos hcluster]

theorem getoptCall_operand (hs : 1 ≤ s.optind) (hpos : s.pos.getD [] = [])
    (harg : args[s.optind]? = some arg)
    (h : ¬ (arg.bytes.head? = some (byte '-') ∧ arg.bytes.tail ≠ [])) :
    getoptCall o args s = some (none, { s with optarg := none }) := by
  have hs' : s.optind ≠ 0 := Nat.ne_of_gt hs
  have hcluster := getoptCluster_arg (s := { s with optarg := none }) hpos harg
  rw [if_pos h] at hcluster
  simp [getoptCall, getopt, hs', hcluster]

theorem getoptCall_dashes (hs : 1 ≤ s.optind) (hpos : s.pos.getD [] = [])
    (harg : args[s.optind]? = some arg) (h : arg.bytes = [byte '-', byte '-']) :
    getoptCall o args s = some (none, { s with optind := s.optind + 1, optarg := none }) := by
  have hs' : s.optind ≠ 0 := Nat.ne_of_gt hs
  have hcluster := getoptCluster_arg (s := { s with optarg := none }) hpos harg
  rw [if_neg (by rw [h]; decide), if_pos h] at hcluster
  simp [getoptCall, getopt, hs', hcluster]

theorem getoptCall_cluster (hs : 1 ≤ s.optind) (hpos : s.pos.getD [] = [])
    (harg : args[s.optind]? = some arg) (h : arg.bytes.head? = some (byte '-'))
    (htail : arg.bytes.tail ≠ []) (hdashes : arg.bytes ≠ [byte '-', byte '-']) :
    getoptCall o args s = getoptCall o args { s with pos := some arg.bytes.tail } := by
  have hs' : s.optind ≠ 0 := Nat.ne_of_gt hs
  have hcluster := getoptCluster_arg (s := { s with optarg := none }) hpos harg
  rw [if_neg (not_not.mpr ⟨h, htail⟩), if_neg hdashes] at hcluster
  have hletters : getoptCluster args.length (argv args)
      { s with optarg := none, pos := some arg.bytes.tail } =
      some (true, { s with optarg := none, pos := some arg.bytes.tail }) := if_pos htail
  simp [getoptCall, getopt, hs', hcluster, hletters]

/-! ## Whole command lines -/

def event (call : UInt8 × Scanner) : Event := (call.1, call.2.optarg)

/-- The index stays between the command name and the end of the arguments. -/
def InRange (args : List CString) (s : Scanner) : Prop :=
  1 ≤ s.optind ∧ (args = [] ∨ s.optind ≤ args.length)

/-- The calls from a scanner on return the parse of what is left. -/
structure Refines (o : Options) (args : List CString) (s : Scanner) (rest : List UInt8)
    (left : List (List UInt8)) (calls : List (UInt8 × Scanner)) (s' : Scanner) : Prop where
  run : Calls o args s calls s'
  events : calls.map event = (parse o rest left).1
  operands : (args.drop s'.optind).map (·.bytes) = (parse o rest left).2
  inRange : ∀ call ∈ calls, InRange args call.2
  final : InRange args s'

/-- The calls depend on the scanner through the first of them only. -/
theorem Calls.congr {s₁ : Scanner} {calls : List (UInt8 × Scanner)}
    (heq : getoptCall o args s = getoptCall o args s₁) (h : Calls o args s₁ calls s') :
    Calls o args s calls s' := by
  cases h with
  | stop h => exact .stop (heq.trans h)
  | call h hrest => exact .call (heq.trans h) hrest

theorem Refines.stop (h : getoptCall o args s = some (none, s')) (hs' : InRange args s')
    (hparse : parse o rest left = ([], (args.drop s'.optind).map (·.bytes))) :
    Refines o args s rest left [] s' where
  run := .stop h
  events := by
    rw [hparse]
    rfl
  operands := by rw [hparse]
  inRange _ hmem := absurd hmem List.not_mem_nil
  final := hs'

theorem Refines.call (h : getoptCall o args s = some (some c, s')) (hs' : InRange args s')
    {rest' : List UInt8} {left' : List (List UInt8)} {calls : List (UInt8 × Scanner)}
    {s'' : Scanner} (hrest : Refines o args s' rest' left' calls s'')
    (hparse : parse o rest left = (parse o rest' left').map ((c, s'.optarg) :: ·) id) :
    Refines o args s rest left ((c, s') :: calls) s'' where
  run := .call h hrest.run
  events := by
    rw [hparse, List.map_cons, hrest.events]
    rfl
  operands := by
    rw [hparse]
    exact hrest.operands
  inRange := List.forall_mem_cons.mpr ⟨hs', hrest.inRange⟩
  final := hrest.final

namespace At

theorem inRange (h : At args s rest left) : InRange args s := ⟨h.one_le, h.le⟩

/-- Behind a letter the scanner stands in the cluster, or at the next argument. -/
theorem behind (h : At args s (c :: rest) left) (optarg : Option (List UInt8)) (optopt : UInt8)
    {pos : Option (List UInt8)} (hpos : pos.getD [] = rest) :
    At args ⟨if rest = [] then s.optind + 1 else s.optind, optarg, optopt, pos⟩ rest left where
  pos := hpos
  nul_free hmem := h.nul_free (List.mem_cons_of_mem _ hmem)
  left_eq := by
    have hleft := h.left_eq
    rw [if_neg (List.cons_ne_nil c rest)] at hleft
    by_cases hrest : rest = []
    · simpa [hrest] using hleft
    · simpa [hrest] using hleft
  one_le := by
    have hone := h.one_le
    show 1 ≤ if rest = [] then s.optind + 1 else s.optind
    split <;> omega
  le := by
    have hlt := h.lt (List.cons_ne_nil c rest)
    refine Or.inr ?_
    show (if rest = [] then s.optind + 1 else s.optind) ≤ args.length
    split <;> omega
  lt hrest := by
    show (if rest = [] then s.optind + 1 else s.optind) < args.length
    rw [if_neg hrest]
    exact h.lt (List.cons_ne_nil c rest)

/-- Behind the last letter that is used of a cluster comes the next argument. -/
theorem next (h : At args s (c :: rest) left) (optarg : Option (List UInt8)) (optopt : UInt8)
    {pos : Option (List UInt8)} (hpos : pos.getD [] = []) :
    At args ⟨s.optind + 1, optarg, optopt, pos⟩ [] left where
  pos := hpos
  nul_free := List.not_mem_nil
  left_eq := h.left_eq
  one_le := Nat.succ_le_succ (Nat.zero_le _)
  le := Or.inr (h.lt (List.cons_ne_nil c rest))
  lt hne := absurd rfl hne

theorem exists_arg {i : ℕ} {bytes : List UInt8}
    (h : (args.drop i).map (·.bytes) = bytes :: left) :
    ∃ arg, args[i]? = some arg ∧ arg.bytes = bytes ∧ (args.drop (i + 1)).map (·.bytes) = left := by
  obtain ⟨arg, tail, hdrop, hbytes, hleft⟩ := List.map_eq_cons_iff.mp h
  refine ⟨arg, ?_, hbytes, ?_⟩
  · rw [← Nat.add_zero i, ← List.getElem?_drop, hdrop]
    rfl
  · rw [← List.drop_drop, hdrop]
    exact hleft

theorem length_le {i : ℕ} (h : (args.drop i).map (·.bytes) = []) : args.length ≤ i :=
  List.drop_eq_nil_iff.mp (List.map_eq_nil_iff.mp h)

theorem call_letter {c' : UInt8} (h : At args s (c :: rest) left)
    (hletter : getoptLetter args.length (argv args) o.optstring c rest { s with optarg := none } =
      some (c', s')) :
    getoptCall o args s = some (some c', s') := by
  rw [getoptCall_letter h.one_le h.pos, hletter]
  rfl

/-- A letter is returned, and the calls after it return the rest of the parse. -/
theorem refines_letter {c' : UInt8} {rest' : List UInt8} {left' : List (List UInt8)}
    (h : At args s (c :: rest) left)
    (hletter : getoptLetter args.length (argv args) o.optstring c rest { s with optarg := none } =
      some (c', s'))
    (hat : At args s' rest' left')
    (hparse : parse o (c :: rest) left = (parse o rest' left').map ((c', s'.optarg) :: ·) id)
    (hrest : ∃ calls s'', Refines o args s' rest' left' calls s'') :
    ∃ calls s'', Refines o args s (c :: rest) left calls s'' := by
  obtain ⟨calls, s'', hrest⟩ := hrest
  exact ⟨_, s'', hrest.call (h.call_letter hletter) hat.inRange hparse⟩

theorem refines_end (h : At args s [] []) :
    Refines o args s [] [] [] { s with optarg := none } := by
  refine .stop (getoptCall_end h.one_le h.pos (length_le h.left_eq)) h.inRange ?_
  have hleft := h.left_eq
  rw [if_pos rfl] at hleft
  rw [parse, hleft]

theorem refines (h : At args s rest left) : ∃ calls s', Refines o args s rest left calls s' := by
  induction rest, left using parse.induct o generalizing s with
  | case1 c rest left hlookup ih =>
    have h0 : c ≠ 0 := fun heq => h.nul_free (heq ▸ List.mem_cons_self)
    have hat := h.behind none c (show (some rest).getD [] = rest from rfl)
    refine h.refines_letter (getoptLetter_unknown hlookup h0) hat ?_ (ih hat)
    rw [parse.eq_def]
    simp only [hlookup]
  | case2 c rest left hlookup ih =>
    have hpos : (if rest = [] then none else some rest).getD [] = rest := by
      split
      · rename_i hnil
        exact hnil.symm
      · rfl
    have hat := h.behind none c hpos
    refine h.refines_letter (getoptLetter_flag hlookup) hat ?_ (ih hat)
    rw [parse.eq_def]
    simp only [hlookup]
  | case3 c rest left hlookup hne ih =>
    have hat := h.next (some rest) c (show none.getD [] = [] from rfl)
    refine h.refines_letter (getoptLetter_attached hlookup hne) hat ?_ (ih hat)
    rw [parse.eq_def]
    simp only [hlookup, if_pos hne]
  | case4 c rest hlookup hnil bytes left ih =>
    obtain rfl : rest = [] := not_not.mp hnil
    obtain ⟨arg, harg, rfl, hleft⟩ := exists_arg h.left_eq
    have hat : At args ⟨s.optind + 2, some arg.bytes, c, none⟩ [] left :=
      ⟨rfl, List.not_mem_nil, hleft, Nat.succ_le_succ (Nat.zero_le _),
        Or.inr (List.getElem?_eq_some_iff.mp harg).1, fun hne => absurd rfl hne⟩
    refine h.refines_letter (getoptLetter_following hlookup harg) hat ?_ (ih hat)
    rw [parse.eq_def]
    simp only [hlookup, if_neg hnil]
  | case5 c rest hlookup hnil =>
    obtain rfl : rest = [] := not_not.mp hnil
    have hat := h.next none c (show (some []).getD [] = [] from rfl)
    refine h.refines_letter (getoptLetter_missing hlookup (length_le h.left_eq)) hat ?_
      ⟨_, _, hat.refines_end⟩
    rw [parse.eq_def, parse.eq_def o []]
    simp only [hlookup, if_neg hnil]
    rfl
  | case6 => exact ⟨[], _, h.refines_end⟩
  | case7 left =>
    obtain ⟨arg, harg, hbytes, hleft⟩ := exists_arg h.left_eq
    refine ⟨[], _, .stop (getoptCall_dashes h.one_le h.pos harg hbytes)
      ⟨Nat.succ_le_succ (Nat.zero_le _), Or.inr (List.getElem?_eq_some_iff.mp harg).1⟩ ?_⟩
    rw [if_pos rfl] at hleft
    rw [parse.eq_def]
    exact congrArg (Prod.mk []) hleft.symm
  | case8 bytes left hdashes hcluster ih =>
    -- the first call in a cluster steps into it and does what it would do inside
    obtain ⟨arg, harg, rfl, hleft⟩ := exists_arg h.left_eq
    have hlt := (List.getElem?_eq_some_iff.mp harg).1
    have h0 : 0 ∉ arg.bytes.tail := fun hmem => arg.nul_free (List.mem_of_mem_tail hmem)
    have hat : At args { s with pos := some arg.bytes.tail } arg.bytes.tail left :=
      ⟨rfl, h0, by rw [if_neg hcluster.2]; exact hleft, h.one_le, h.le, fun _ => hlt⟩
    obtain ⟨calls, s', hrest⟩ := ih hat
    have heq := getoptCall_cluster (o := o) h.one_le h.pos harg hcluster.1 hcluster.2 hdashes
    have hparse : parse o [] (arg.bytes :: left) = parse o arg.bytes.tail left := by
      rw [parse.eq_def]
      simp only [if_neg hdashes, if_pos hcluster]
    exact ⟨calls, s', hrest.run.congr heq, hparse ▸ hrest.events, hparse ▸ hrest.operands,
      hrest.inRange, hrest.final⟩
  | case9 bytes left hdashes hcluster =>
    have hbytes := h.left_eq
    obtain ⟨arg, harg, rfl, hleft⟩ := exists_arg hbytes
    refine ⟨[], _, .stop (getoptCall_operand h.one_le h.pos harg hcluster) h.inRange ?_⟩
    rw [if_pos rfl] at hbytes
    rw [parse.eq_def, hbytes]
    simp only [if_neg hdashes, if_neg hcluster]

end At

/-- From the index 1 on and outside a cluster, the calls of `getopt` return the parse of the
arguments behind the command name and leave the operands. -/
theorem getopt_refines (o : Options) (args : List CString) (s : Scanner) (hs : s.optind = 1)
    (hpos : s.pos.getD [] = []) :
    ∃ calls s', Refines o args s [] ((args.drop 1).map (·.bytes)) calls s' := by
  refine At.refines ⟨hpos, List.not_mem_nil, by rw [hs]; rfl, Nat.le_of_eq hs.symm, ?_,
    fun hne => absurd rfl hne⟩
  cases args with
  | nil => exact Or.inl rfl
  | cons => exact Or.inr (by rw [hs]; exact Nat.succ_le_succ (Nat.zero_le _))

/-- `-ba x y` with the option string `:a:b`. -/
theorem getopt_refines_two :
    ∃ calls s', Refines
      ⟨true, [(byte 'a', true), (byte 'b', false)], by decide +kernel, by decide +kernel⟩
      [⟨[byte 'p'], by decide⟩, ⟨[byte '-', byte 'b', byte 'a'], by decide⟩,
        ⟨[byte 'x'], by decide⟩, ⟨[byte 'y'], by decide⟩] ⟨1, none, 0, none⟩ []
      [[byte '-', byte 'b', byte 'a'], [byte 'x'], [byte 'y']] calls s' :=
  getopt_refines _ [⟨[byte 'p'], by decide⟩, ⟨[byte '-', byte 'b', byte 'a'], by decide⟩,
    ⟨[byte 'x'], by decide⟩, ⟨[byte 'y'], by decide⟩] ⟨1, none, 0, none⟩ rfl rfl

end LampUserspace.Process
