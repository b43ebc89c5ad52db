import LampUserspace.Regex.Compiling
import LampUserspace.Regex.Spelling

/-! # The compiler on both spellings

On the text of a tree, in either syntax, the compiler does what the tree directs
and stops where the text ends. The two syntaxes then differ only in what they
make of an interval.
-/

namespace LampUserspace.Regex

variable {x inGroup : Bool} {f : UInt32} {c : ReCompiler} {p r rest : List UInt8} {b b' : UInt8}

/-! ## The first bytes of a text -/

theorem isDelimiter_mark : isDelimiter x b' (mark x b ++ r) = some (decide (b = b')) := by
  cases x with
  | true => rfl
  | false => simp [isDelimiter, isPair, mark]

theorem reReadQuantifier_mark (hb : b ≠ byte '*') :
    reReadQuantifier x (mark x b ++ r) = some (quantMark b) := by
  cases x with
  | true => simp [reReadQuantifier, mark, hb]
  | false =>
    have hne : byte '\\' ≠ byte '*' := by decide
    simp [reReadQuantifier, mark, hne]

theorem branchEnds_mark (hb : b ≠ 0) :
    branchEnds x inGroup (mark x b ++ r) =
      some (decide (b = byte '|') || inGroup && decide (b = byte ')')) := by
  have hfirst : ∃ b', (mark x b ++ r)[0]? = some b' ∧ b' ≠ 0 := by
    cases x with
    | true => exact ⟨b, rfl, hb⟩
    | false => exact ⟨byte '\\', rfl, by decide⟩
  obtain ⟨b', hb', hne⟩ := hfirst
  rw [branchEnds, hb', isDelimiter_mark, isDelimiter_mark]
  by_cases hbar : b = byte '|'
  · simp [hbar]
  · cases inGroup <;> simp [hne, hbar]

/-- The bytes that open a term by themselves. -/
def opensTerm (b : UInt8) : Bool := isalnum b || b = byte '.' || b = byte '['

theorem opensTerm_ne : ∀ b, opensTerm b = true → b ≠ 0 ∧ b ≠ byte '\\' ∧ b ≠ byte '|' ∧
    b ≠ byte ')' ∧ b ≠ byte '*' ∧ quantMark b = none := by
  decide +kernel

theorem opensTerm_ne_anchor : ∀ b, opensTerm b = true →
    b ≠ byte '^' ∧ b ≠ byte '$' ∧ b ≠ byte '(' := by
  decide +kernel

theorem isalnum_ne : ∀ b, isalnum b = true → b ≠ byte '.' ∧ b ≠ byte '[' := by
  decide +kernel

theorem isDelimiter_of_opensTerm (h : opensTerm b = true) (hb : b ≠ b') :
    isDelimiter x b' (b :: r) = some false := by
  obtain ⟨-, hbackslash, -⟩ := opensTerm_ne b h
  cases x with
  | true => simp [isDelimiter, hb]
  | false => simp [isDelimiter, isPair, hbackslash]

theorem branchEnds_of_opensTerm (h : opensTerm b = true) :
    branchEnds x inGroup (b :: r) = some false := by
  obtain ⟨h0, -, hbar, hclose, -⟩ := opensTerm_ne b h
  simp [branchEnds, h0, isDelimiter_of_opensTerm h hbar, isDelimiter_of_opensTerm h hclose]

theorem reReadQuantifier_of_opensTerm (h : opensTerm b = true) :
    reReadQuantifier x (b :: r) = some none := by
  obtain ⟨-, hbackslash, -, -, hstar, hquant⟩ := opensTerm_ne b h
  cases x <;> simp [reReadQuantifier, hstar, hquant, hbackslash]

theorem Term.opens (t : Term) (inGroup : Bool) :
    branchEnds x inGroup (t.spell x ++ r) = some false ∧
    reReadQuantifier x (t.spell x ++ r) = some none := by
  have hplain : ∀ {b : UInt8} {r : List UInt8}, opensTerm b = true →
      branchEnds x inGroup (b :: r) = some false ∧ reReadQuantifier x (b :: r) = some none :=
    fun h => ⟨branchEnds_of_opensTerm h, reReadQuantifier_of_opensTerm h⟩
  cases t with
  | char ch h =>
    rw [Term.spell]
    exact hplain (by simp [opensTerm, h])
  | any =>
    rw [Term.spell]
    exact hplain (by decide)
  | bracket b =>
    rw [Term.spell]
    exact hplain (by decide)
  | group body =>
    rw [Term.spell, List.append_assoc, branchEnds_mark (by decide),
      reReadQuantifier_mark (by decide)]
    cases inGroup <;> exact ⟨rfl, rfl⟩

/-- What follows a branch: its end, which is no quantifier. -/
structure Ends (x inGroup : Bool) (rest : List UInt8) : Prop where
  ends : branchEnds x inGroup rest = some true
  plain : reReadQuantifier x rest = some none

theorem Ends.nul : Ends x inGroup [0] := by
  cases x <;> exact ⟨rfl, rfl⟩

theorem Ends.bar : Ends x inGroup (mark x (byte '|') ++ r) := by
  constructor
  · rw [branchEnds_mark (by decide)]
    rfl
  · rw [reReadQuantifier_mark (by decide)]
    rfl

theorem Ends.close : Ends x true (mark x (byte ')') ++ r) := by
  constructor
  · rw [branchEnds_mark (by decide)]
    rfl
  · rw [reReadQuantifier_mark (by decide)]
    rfl

theorem Branch.plain (s : Branch) (h : reReadQuantifier x rest = some none) :
    reReadQuantifier x (s.spell x ++ rest) = some none := by
  cases s with
  | nil => rwa [Branch.spell]
  | cons term suffix s =>
    rw [Branch.spell, List.append_assoc]
    exact (term.opens false).2

theorem Tree.plain (t : Tree) (h : reReadQuantifier x rest = some none) :
    reReadQuantifier x (t.spell x ++ rest) = some none := by
  cases t with
  | last branch =>
    rw [Tree.spell]
    exact branch.plain h
  | more branch t =>
    rw [Tree.spell, List.append_assoc, List.append_assoc]
    exact branch.plain (Ends.bar : Ends x false _).plain

/-! ## Bracket expressions -/

inductive ClassItem
  | one (ch : UInt8)
  | range (first last : UInt8)

namespace ClassItem

/-- The bytes that stand for themselves anywhere in a bracket expression. -/
def plainByte (b : UInt8) : Bool :=
  b ≠ 0 && b ≠ byte '[' && b ≠ byte ']' && b ≠ byte '\\' && b ≠ byte '-' && b ≠ byte '^'

def text : ClassItem → List UInt8
  | one ch => [ch]
  | range first last => [first, byte '-', last]

def plain : ClassItem → Bool
  | one ch => plainByte ch
  | range first last => plainByte first && plainByte last

/-- The set with the item, or the error of a range that runs backwards. -/
def add (set : ByteSet) : ClassItem → Except RegCode ByteSet
  | one ch => .ok (reSetChar set ch)
  | range first last =>
    if last < first then .error .regErange else .ok (reSetRange set first last)

theorem plainByte_iff : plainByte b = true ↔ b ≠ 0 ∧ b ≠ byte '[' ∧ b ≠ byte ']' ∧
    b ≠ byte '\\' ∧ b ≠ byte '-' ∧ b ≠ byte '^' := by
  simp [plainByte, and_assoc]

theorem reParseEscape_plain (h : plainByte b = true) :
    reParseEscape (b :: r) = some (.ok (b, r)) := by
  obtain ⟨-, -, -, hbackslash, -⟩ := plainByte_iff.mp h
  simp [reParseEscape, hbackslash]

theorem reClassItem_eq {i : ClassItem} (hi : i.plain = true) (hb : b ≠ byte '-') (set : ByteSet) :
    reClassItem (i.text ++ b :: r) set = some ((i.add set).map fun set => (b :: r, set)) := by
  have hrange : ∀ {ch : UInt8} {p : List UInt8}, plainByte ch = true →
      reClassItem (ch :: p) set = reClassRange (ch :: p) set := by
    intro ch p h
    obtain ⟨-, hopen, -⟩ := plainByte_iff.mp h
    simp [reClassItem, reNamedClass, isPair, hopen]
  cases i with
  | one ch =>
    have hdash : isRangeDash (b :: r) = some false := by simp [isRangeDash, hb]
    rw [text, List.singleton_append, hrange hi, reClassRange, reParseEscape_plain hi]
    simp [hdash, add, Except.map]
  | range first last =>
    obtain ⟨hfirst, hlast⟩ := Bool.and_eq_true_iff.mp hi
    obtain ⟨h0, -, hclose, -⟩ := plainByte_iff.mp hlast
    have hdash : isRangeDash (byte '-' :: last :: b :: r) = some true := by
      simp [isRangeDash, hclose, h0]
    simp only [text, List.cons_append, List.nil_append]
    rw [hrange hfirst, reClassRange, reParseEscape_plain hfirst]
    by_cases hlt : last < first
    · simp [hdash, reParseEscape_plain hlast, add, hlt, Except.map]
    · simp [hdash, reParseEscape_plain hlast, add, hlt, Except.map]

/-- The text of an item opens with a byte that stands for itself. -/
theorem text_eq_cons {i : ClassItem} (hi : i.plain = true) :
    ∃ b p, i.text = b :: p ∧ plainByte b = true := by
  cases i with
  | one ch => exact ⟨ch, [], rfl, hi⟩
  | range first last => exact ⟨first, _, rfl, (Bool.and_eq_true_iff.mp hi).1⟩

theorem flatMap_text_eq_cons {items : List ClassItem} (h : ∀ i ∈ items, i.plain = true) :
    ∃ b p, items.flatMap text ++ byte ']' :: r = b :: p ∧ b ≠ byte '-' := by
  cases items with
  | nil => exact ⟨byte ']', r, rfl, by decide⟩
  | cons i items =>
    obtain ⟨b, p, hp, hb⟩ := text_eq_cons (h i List.mem_cons_self)
    exact ⟨b, p ++ (items.flatMap text ++ byte ']' :: r), by simp [hp],
      (plainByte_iff.mp hb).2.2.2.2.1⟩

theorem reClassLoop_eq {items : List ClassItem} (h : ∀ i ∈ items, i.plain = true) {n : ℕ}
    (hn : items.length < n) (set : ByteSet) :
    reClassLoop n (items.flatMap text ++ byte ']' :: r) set =
      some ((items.foldlM add set).map fun set => (byte ']' :: r, set)) := by
  induction items generalizing n set with
  | nil =>
    obtain ⟨n, rfl⟩ : ∃ m, n = m + 1 := ⟨n - 1, (Nat.sub_add_cancel hn).symm⟩
    simp [reClassLoop, Except.map, pure, Except.pure]
  | cons i items ih =>
    obtain ⟨n, rfl⟩ : ∃ m, n = m + 1 := ⟨n - 1, by omega⟩
    rw [List.forall_mem_cons] at h
    rw [List.length_cons] at hn
    obtain ⟨b, p, hp, hb⟩ := flatMap_text_eq_cons (r := r) h.2
    have hitem := reClassItem_eq (r := p) h.1 hb set
    have hrest := fun set => ih h.2 (by omega : items.length < n) set
    obtain ⟨ch, q, hq, hch⟩ := text_eq_cons h.1
    obtain ⟨h0, -, hclose, -⟩ := plainByte_iff.mp hch
    have hfirst : (i.text ++ b :: p)[0]? = some ch := by simp [hq]
    rw [List.flatMap_cons, List.append_assoc, hp, reClassLoop, List.foldlM_cons]
    simp only [hfirst, Option.bind_eq_bind, Option.bind_some, h0, hclose, or_self, if_false, hitem]
    cases i.add set with
    | error e => rfl
    | ok set =>
      rw [← hp]
      exact hrest set

theorem length_le_flatMap_text (items : List ClassItem) :
    items.length ≤ (items.flatMap text).length := by
  induction items with
  | nil => exact le_rfl
  | cons i items ih =>
    have hi : 0 < i.text.length := by cases i <;> simp [text]
    rw [List.flatMap_cons, List.length_append, List.length_cons]
    omega

theorem nul_free {items : List ClassItem} (h : ∀ i ∈ items, i.plain = true) :
    0 ∉ items.flatMap text := by
  intro hmem
  obtain ⟨i, hi, h0⟩ := List.mem_flatMap.mp hmem
  have hplain := h i hi
  have hdash : (0 : UInt8) ≠ byte '-' := by decide
  cases i with
  | one ch =>
    rw [text, List.mem_singleton] at h0
    exact (plainByte_iff.mp hplain).1 h0.symm
  | range first last =>
    obtain ⟨hfirst, hlast⟩ := Bool.and_eq_true_iff.mp hplain
    simp only [text, List.mem_cons, hdash, List.not_mem_nil, or_false, false_or] at h0
    rcases h0 with h0 | h0
    · exact (plainByte_iff.mp hfirst).1 h0.symm
    · exact (plainByte_iff.mp hlast).1 h0.symm

end ClassItem

/-- Bytes and ranges make a bracket expression. -/
def Bracket.ofItems (items : List ClassItem) (hne : items ≠ [])
    (h : ∀ i ∈ items, i.plain = true) : Bracket where
  body := items.flatMap ClassItem.text ++ [byte ']']
  nul_free := by
    have hclose : (0 : UInt8) ≠ byte ']' := by decide
    simp [ClassItem.nul_free h, hclose]
  value := items.foldlM ClassItem.add ByteSet.empty
  closed rest := by
    have hfirst : ∃ ch, (items.flatMap ClassItem.text ++ byte ']' :: rest)[0]? = some ch ∧
        ch ≠ byte '^' ∧ ch ≠ byte ']' := by
      obtain ⟨i, items, rfl⟩ := List.exists_cons_of_ne_nil hne
      obtain ⟨ch, q, hq, hch⟩ := ClassItem.text_eq_cons (h i List.mem_cons_self)
      obtain ⟨-, -, hclose, -, -, hnegate⟩ := ClassItem.plainByte_iff.mp hch
      exact ⟨ch, by simp [hq], hnegate, hclose⟩
    obtain ⟨ch, hch, hnegate, hclose⟩ := hfirst
    have hbound : items.length < (items.flatMap ClassItem.text ++ byte ']' :: rest).length + 1 := by
      have := ClassItem.length_le_flatMap_text items
      rw [List.length_append]
      omega
    have hloop := ClassItem.reClassLoop_eq (r := rest) h hbound ByteSet.empty
    rw [List.append_assoc, List.singleton_append, reReadClass]
    simp only [List.drop_succ_cons, List.drop_zero, hch, hnegate, hclose, if_false,
      Option.bind_eq_bind, Option.bind_some, hloop]
    cases items.foldlM ClassItem.add ByteSet.empty with
    | error e => rfl
    | ok set => rfl

/-! ## Intervals -/

theorem le_foldl_readDigit (ds : List UInt8) (v : ℕ) : v ≤ ds.foldl readDigit v := by
  induction ds generalizing v with
  | nil => exact le_rfl
  | cons d ds ih =>
    refine le_trans ?_ (ih (readDigit v d))
    unfold readDigit
    omega

theorem readDigits_eq {ds : List UInt8} {v : ℕ} (hds : ∀ d ∈ ds, isdigit d = true)
    (hb : isdigit b = false) (hv : v ≤ 10000) :
    readDigits (ds ++ b :: r) v = some (if ds.foldl readDigit v ≤ 10000 then
      .ok (ds.foldl readDigit v, b :: r) else .error .regBadbr) := by
  induction ds generalizing v with
  | nil => simp [readDigits, hb, hv]
  | cons d ds ih =>
    rw [List.forall_mem_cons] at hds
    rw [List.cons_append, readDigits, if_pos hds.1]
    change (if readDigit v d > 10000 then some (.error .regBadbr)
      else readDigits (ds ++ b :: r) (readDigit v d)) = _
    by_cases hlarge : readDigit v d > 10000
    · have := le_foldl_readDigit ds (readDigit v d)
      rw [if_pos hlarge, List.foldl_cons, if_neg (by omega)]
    · rw [if_neg hlarge, ih hds.2 (by omega), List.foldl_cons]

theorem Numeral.readDigits_eq (m : Numeral) (hb : isdigit b = false) :
    readDigits (m.digits ++ b :: r) 0 = some (if m.value ≤ 10000 then .ok (m.value, b :: r)
      else .error .regBadbr) :=
  Regex.readDigits_eq m.isdigit_of_mem hb (Nat.zero_le _)

/-- The bounds that `re_parse_interval` reads. -/
def Bounds.small (bounds : Bounds) : Bool := bounds.min ≤ 10000 && bounds.max.all (· ≤ 10000)

theorem Bounds.valid_iff (bounds : Bounds) :
    bounds.valid = true ↔ bounds.small = true ∧ bounds.max.any (· < bounds.min) = false := by
  unfold valid small
  cases bounds.max with
  | none => simp
  | some n =>
    simp only [Option.all_some, Option.any_some, Bool.and_eq_true, decide_eq_true_eq,
      decide_eq_false_iff_not, not_lt]
    omega

theorem readMax_stop (hcomma : b ≠ byte ',') (min : ℕ) :
    readMax (b :: r) min = some (.ok (some min, b :: r)) := by
  simp [readMax, hcomma]

theorem readMax_open (hdigit : isdigit b = false) (min : ℕ) :
    readMax (byte ',' :: b :: r) min = some (.ok (none, b :: r)) := by
  simp [readMax, hdigit]

theorem Numeral.readMax_eq (n : Numeral) (hdigit : isdigit b = false) (min : ℕ) :
    readMax (byte ',' :: (n.digits ++ b :: r)) min =
      some (if n.value ≤ 10000 then .ok (some n.value, b :: r) else .error .regBadbr) := by
  have hread := n.readDigits_eq (r := r) hdigit
  obtain ⟨d, ds, hds⟩ := List.exists_cons_of_ne_nil n.ne_nil
  have hd : isdigit d = true := n.isdigit_of_mem d (by simp [hds])
  rw [hds, List.cons_append] at hread ⊢
  by_cases hn : n.value ≤ 10000
  · simp [readMax, hd, hread, hn]
  · simp [readMax, hd, hread, hn]

theorem reParseInterval_of_min {m : Numeral} (hb : isdigit b = false) :
    reParseInterval (m.digits ++ b :: r) =
      if m.value ≤ 10000 then do
        match ← readMax (b :: r) m.value with
        | .error e => return .error e
        | .ok (max, p) =>
          if (← p[0]?) ≠ byte '}' then return .error .regBadbr
          return .ok (m.value, max, p.drop 1)
      else some (.error .regBadbr) := by
  rw [reParseInterval, m.readDigits_eq hb]
  split_ifs <;> rfl

theorem Bounds.reParseInterval_eq (bounds : Bounds) (hdigit : isdigit b = false)
    (hcomma : b ≠ byte ',') : reParseInterval (bounds.text ++ b :: r) =
      some (if bounds.small && decide (b = byte '}') then .ok (bounds.min, bounds.max, r)
        else .error .regBadbr) := by
  have hc : isdigit (byte ',') = false := by decide
  cases bounds with
  | exactly m =>
    rw [text, reParseInterval_of_min hdigit, readMax_stop hcomma]
    by_cases hm : m.value ≤ 10000
    · by_cases hb : b = byte '}' <;> simp [small, Bounds.min, Bounds.max, hm, hb]
    · simp [small, Bounds.min, hm]
  | atLeast m =>
    rw [text, List.append_assoc, List.singleton_append, reParseInterval_of_min hc,
      readMax_open hdigit]
    by_cases hm : m.value ≤ 10000
    · by_cases hb : b = byte '}' <;> simp [small, Bounds.min, Bounds.max, hm, hb]
    · simp [small, Bounds.min, hm]
  | between m n =>
    rw [text, List.append_assoc, List.cons_append, reParseInterval_of_min hc,
      n.readMax_eq hdigit]
    by_cases hm : m.value ≤ 10000
    · by_cases hn : n.value ≤ 10000
      · by_cases hb : b = byte '}' <;> simp [small, Bounds.min, Bounds.max, hm, hn, hb]
      · simp [small, Bounds.min, Bounds.max, hm, hn]
    · simp [small, Bounds.min, hm]

/-! ## Terms and quantifiers -/

/-- The result `s` of reading a text is the result `r` of its tree, with the text read. -/
def Lands {α : Type} (f : UInt32) (x : Bool) (rest : List UInt8) (r s : Option α × ReCompiler) :
    Prop :=
  ∃ q, s = (r.1, r.2.reading q f x) ∧ (r.1 ≠ none → q = rest)

/-- The same for a function that only leaves a state. -/
def Reaches (f : UInt32) (x : Bool) (rest : List UInt8) (d e : ReCompiler) : Prop :=
  ∃ q, e = d.reading q f x ∧ (d.error = .ok → q = rest)

theorem Steady.lands {α : Type} {op : ReCompiler → Option α × ReCompiler} (h : Steady op) :
    Lands f x rest (op c) (op (c.reading rest f x)) :=
  ⟨rest, h.reading c rest f x, fun _ => rfl⟩

theorem Lands.failed {α : Type} {d : ReCompiler} :
    Lands f x rest ((none : Option α), d) (none, d.reading r f x) :=
  ⟨r, rfl, fun h => absurd rfl h⟩

/-- The closing brace of an interval ends it in the extended syntax only. -/
theorem Bounds.parse_close (bounds : Bounds) :
    reParseInterval (bounds.text ++ (mark x (byte '}') ++ r)) =
      some (if bounds.small && x then .ok (bounds.min, bounds.max, r) else .error .regBadbr) := by
  cases x with
  | true => exact bounds.reParseInterval_eq (b := byte '}') (by decide) (by decide)
  | false =>
    have h := bounds.reParseInterval_eq (b := byte '\\') (r := byte '}' :: r)
      (by decide) (by decide)
    rw [show decide (byte '\\' = byte '}') = false by decide, Bool.and_false] at h
    rw [Bool.and_false]
    exact h

theorem reading_past : { c.reading (mark x b ++ r) f x with
    cursor := (c.reading (mark x b ++ r) f x).cursor.drop
      (if (c.reading (mark x b ++ r) f x).extended then 1 else 2) } = c.reading r f x := by
  cases x <;> rfl

theorem reCompileQuantifier_interval (start : ℕ) :
    reCompileQuantifier (c.reading (mark x (byte '{') ++ r) f x) start = do
      match ← reParseInterval r with
      | .error e => return (none, { c.reading r f x with error := e })
      | .ok (min, max, p) =>
        if max.any (· < min) then return (none, { c.reading p f x with error := .regBadbr })
        return reCompileInterval (c.reading p f x) start min max := by
  cases x <;> rfl

theorem Suffix.compiled (s : Suffix) (hrest : reReadQuantifier x rest = some none) (start : ℕ) :
    Total (reCompileQuantifier (c.reading (s.spell x ++ rest) f x) start)
      (Lands f x rest (s.emit x start c)) := by
  cases s with
  | one =>
    simp only [reCompileQuantifier, Suffix.spell, List.nil_append, ReCompiler.reading_cursor,
      ReCompiler.reading_extended, hrest]
    exact .some ⟨rest, rfl, fun _ => rfl⟩
  | star => exact .some (Steady.wrapStar start).lands
  | plus => cases x <;> exact .some (Steady.wrapPlus start).lands
  | question => cases x <;> exact .some (Steady.wrapOptional start).wrapResult.lands
  | interval b =>
    rw [Suffix.spell, List.append_assoc, List.append_assoc, reCompileQuantifier_interval,
      b.parse_close, Suffix.emit]
    -- an invalid interval is rejected as it is read or when its bounds are compared
    by_cases hsmall : (b.small && x) = true
    · rw [if_pos hsmall]
      obtain ⟨hs, rfl⟩ := Bool.and_eq_true_iff.mp hsmall
      by_cases hany : b.max.any (· < b.min) = true
      · have hvalid : ¬ (true && b.valid) = true := by
          rw [Bool.true_and, b.valid_iff, hany]
          simp
        rw [if_neg hvalid]
        simp only [Option.bind_eq_bind, Option.bind_some, if_pos hany]
        exact .some .failed
      · have hvalid : (true && b.valid) = true := by
          rw [Bool.true_and, b.valid_iff]
          exact ⟨hs, Bool.eq_false_of_not_eq_true hany⟩
        rw [if_pos hvalid]
        simp only [Option.bind_eq_bind, Option.bind_some, if_neg hany]
        exact .some (Steady.interval start b.min b.max).lands
    · have hvalid : ¬ (x && b.valid) = true := by
        rw [Bool.and_eq_true, b.valid_iff]
        rintro ⟨hx, hs, -⟩
        exact hsmall (by simp [hs, hx])
      rw [if_neg hsmall, if_neg hvalid]
      exact .some .failed

/-! ## Terms -/

section Terms

variable {alternation : ReCompiler → Option ReCompiler}

theorem reCompileAtom_of_opensTerm (h : opensTerm b = true) :
    reCompileAtom alternation (c.reading (b :: r) f x) inGroup =
      if b = byte '.' then some (reEmit (c.reading r f x) .reAny)
      else if b = byte '[' then reCompileClass (c.reading (b :: r) f x)
      else reCompileChar (c.reading (b :: r) f x) := by
  obtain ⟨h0, hbackslash, hbar, hclose, -⟩ := opensTerm_ne b h
  obtain ⟨hbol, heol, hopen⟩ := opensTerm_ne_anchor b h
  have hend :
      (if !inGroup then some false else isDelimiter x (byte ')') (b :: r)) = some false := by
    rw [isDelimiter_of_opensTerm h hclose, ite_self]
  simp only [reCompileAtom, reIsAltDelimiter, reIsGroupClose, ReCompiler.reading_cursor,
    ReCompiler.reading_extended, List.getElem?_cons_zero, Option.bind_eq_bind, Option.bind_some,
    isDelimiter_of_opensTerm h hbar, hend, if_neg h0, if_neg hbol, if_neg heol, if_neg hbackslash,
    hopen, false_and, if_false, Bool.false_eq_true, List.drop_one, List.tail_cons]
  rfl

theorem reCompileAtom_group (hplain : x = true → isPair (byte '?') (byte ':') r = some false) :
    reCompileAtom alternation (c.reading (mark x (byte '(') ++ r) f x) inGroup =
      reCompileGroup alternation (c.reading r f x) true := by
  cases x with
  | true =>
    have hp := hplain rfl
    cases inGroup <;>
    · simp [reCompileAtom, reIsAltDelimiter, reIsGroupClose, isDelimiter, mark, hp]
      rfl
  | false =>
    cases inGroup <;>
    · simp [reCompileAtom, reIsAltDelimiter, reIsGroupClose, isDelimiter, isPair, mark]
      rfl

/-- A text that opens with no quantifier opens no group without a capture. -/
theorem isPair_question (h : reReadQuantifier true p = some none) :
    isPair (byte '?') (byte ':') p = some false := by
  cases p with
  | nil => cases h
  | cons b p =>
    have hb : b ≠ byte '?' := by
      rintro rfl
      cases h
    simp [isPair, hb]

theorem reCompileGroup_lands {body : ReCompiler → ReCompiler} (hc : c.error = .ok)
    (hbody : ∀ d, d.error = .ok → c.length ≤ d.length → Total (alternation (d.reading p f x))
      (Reaches f x (mark x (byte ')') ++ rest) (body d))) :
    Total (reCompileGroup alternation (c.reading p f x) true)
      (Lands f x rest (emitGroup body c)) := by
  rw [reCompileGroup, Steady.openGroup.reading]
  rcases (Steady.openGroup.answers (x := x) hc).cases with ⟨d, hd, -⟩ | ⟨_, d, hd, hok, hm⟩
  · simp only [hd, emitGroup]
    exact .some .failed
  simp only [hd, emitGroup]
  refine (hbody d hok (hm.grown hok)).bind fun e _ he => ?_
  obtain ⟨q, rfl, hq⟩ := he
  by_cases hb : (body d).error = .ok
  · obtain rfl := hq hb
    have hclose : reIsGroupClose ((body d).reading (mark x (byte ')') ++ rest) f x) true =
        some true := isDelimiter_mark.trans (congrArg some (decide_eq_true rfl))
    rw [if_neg (show ¬ ((body d).reading _ f x).error ≠ .ok from not_not_intro hb)]
    simp only [hclose, reading_past, Bool.not_true, Bool.false_eq_true, if_false,
      Option.bind_eq_bind, Option.bind_some, Steady.closeGroup.reading, hb, ne_eq, not_true]
    rcases reCloseGroup (body d) true with ⟨_ | _, e⟩
    · exact .some .failed
    · exact .some ⟨rest, rfl, fun _ => rfl⟩
  · simp only [ReCompiler.reading_error, ne_eq, hb, not_false_eq_true, if_true]
    exact .some .failed

theorem Bracket.compiled (b : Bracket) :
    Total (reCompileClass (c.reading (byte '[' :: (b.body ++ rest)) f x))
      (Lands f x rest (emitClass b.value c)) := by
  rw [reCompileClass, ReCompiler.reading_cursor, b.closed]
  cases b.value with
  | error e => exact .some .failed
  | ok set =>
    simp only [Except.map, Option.bind_eq_bind, Option.bind_some, (Steady.emit .reClass).reading,
      emitClass]
    rcases reEmit c .reClass with ⟨_ | index, d⟩
    · exact .some .failed
    · exact .some ⟨rest, rfl, fun _ => rfl⟩

theorem reCompileChar_lands (h : opensTerm b = true) :
    Total (reCompileChar (c.reading (b :: rest) f x)) (Lands f x rest (emitChar b c)) := by
  obtain ⟨-, hbackslash, -⟩ := opensTerm_ne b h
  have hread : reParseEscape (b :: rest) = some (.ok (b, rest)) := by
    simp [reParseEscape, hbackslash]
  simp only [reCompileChar, ReCompiler.reading_move]
  simp only [ReCompiler.reading_cursor, hread, Option.bind_eq_bind, Option.bind_some,
    (Steady.emit .reChar).reading, emitChar]
  rcases reEmit c .reChar with ⟨_ | index, d⟩
  · exact .some .failed
  · exact .some ⟨rest, rfl, fun _ => rfl⟩

theorem Term.emit_ne_zero (t : Term) (hc : 0 < c.length) : (t.emit x c).1 ≠ some 0 := by
  have hemit : ∀ {op : ReOp}, (reEmit c op).1 ≠ some 0 := by
    intro op h
    have := (reEmit_program (d := (reEmit c op).2) (Prod.ext h rfl)).1
    omega
  cases t with
  | char ch h =>
    rw [Term.emit, emitChar]
    split <;> simp
  | any =>
    rw [Term.emit]
    exact hemit
  | bracket b =>
    rw [Term.emit]
    cases b.value with
    | error e => simp [emitClass]
    | ok set =>
      have h : (reEmit c .reClass).1 ≠ some 0 := hemit
      rw [emitClass]
      rcases hr : reEmit c .reClass with ⟨_ | index, d⟩
      · simp
      · rw [hr] at h
        exact h
  | group body =>
    rw [Term.emit, emitGroup]
    split
    · simp
    split_ifs
    · simp
    · split <;> simp

/-- A pass of the loop of `re_compile_sequence`: a term, and the quantifier at `q`. -/
theorem reCompilePiece_lands {term suffix : ReCompiler → Option ℕ × ReCompiler} {q : List UInt8}
    (hterm : Total (reCompileAtom alternation (c.reading p f x) inGroup) (Lands f x q (term c)))
    (hzero : (term c).1 ≠ some 0)
    (hsuffix : ∀ d, Total (reCompileQuantifier (d.reading q f x) c.length)
      (Lands f x rest (suffix d))) :
    Total (reCompilePiece alternation inGroup (c.reading p f x)) fun r => ∃ r',
      Lands f x rest (emitPiece term suffix c) r' ∧ r = (r'.1.isSome, r'.2) := by
  unfold reCompilePiece emitPiece
  refine hterm.bind fun r _ hr => ?_
  obtain ⟨q', rfl, hq⟩ := hr
  generalize term c = emitted at hzero hq
  obtain ⟨_ | _ | k, d⟩ := emitted
  · exact .pure ⟨_, .failed, rfl⟩
  · exact absurd rfl hzero
  obtain rfl := hq (by simp)
  refine (hsuffix d).bind fun r _ hr => ?_
  obtain ⟨q'', rfl, hq'⟩ := hr
  rcases hs : suffix d with ⟨_ | k', e⟩ <;> simp only [hs] at hq' ⊢
  · exact .pure ⟨(none, e.reading q'' f x), .failed, rfl⟩
  · exact .pure ⟨(some (), e.reading q'' f x), ⟨q'', rfl, fun _ => hq' (by simp)⟩, rfl⟩

end Terms

/-! ## Branches and alternations -/

/-- What follows an alternation. -/
structure Closes (x inGroup : Bool) (rest : List UInt8) : Prop extends Ends x inGroup rest where
  bar : isDelimiter x (byte '|') rest = some false

theorem Closes.nul : Closes x inGroup [0] := by
  refine ⟨.nul, ?_⟩
  cases x <;> rfl

theorem Closes.close : Closes x true (mark x (byte ')') ++ rest) :=
  ⟨.close, isDelimiter_mark.trans (congrArg some (decide_eq_false (by decide)))⟩

theorem reSequenceStops_reading (hc : c.error = .ok) :
    reSequenceStops inGroup (c.reading p f x) = branchEnds x inGroup p :=
  reSequenceStops_eq (c := c.reading p f x) hc

theorem length_mark_pos (x : Bool) (b : UInt8) : 0 < (mark x b).length := by
  cases x <;> simp [mark]

theorem rePatchAlternation_reading (lastSplit : ℕ) (jumps : List ℕ) :
    rePatchAlternation (c.reading p f x) lastSplit jumps =
      (rePatchAlternation c lastSplit jumps).reading p f x := by
  rw [rePatchAlternation_eq, rePatchAlternation_eq]
  rfl

/-- `re_compile_alternation` where the first branch is the only one. -/
theorem reCompileAlternation_last {depth : ℕ} {d : ReCompiler} (hrest : Closes x inGroup rest)
    (hfirst : Total (reCompileSequence (reCompileAlternation depth true) inGroup
      (c.reading p f x)) (Reaches f x rest d)) :
    Total (reCompileAlternation (depth + 1) inGroup (c.reading p f x)) (Reaches f x rest d) := by
  rw [reCompileAlternation]
  refine hfirst.bind fun e _ he => ?_
  obtain ⟨q, rfl, hq⟩ := he
  by_cases hd : d.error = .ok
  · obtain rfl := hq hd
    have hbar : reIsAltDelimiter (d.reading q f x) = some false := hrest.bar
    rw [if_neg (show ¬ (d.reading q f x).error ≠ .ok from not_not_intro hd), hbar]
    exact .some ⟨q, rfl, hq⟩
  · rw [if_pos (show (d.reading q f x).error ≠ .ok from hd)]
    exact .some ⟨q, rfl, hq⟩

/-- `re_compile_alternation` where further branches follow the first. -/
theorem reCompileAlternation_more {depth : ℕ} {es es' : List Event}
    {first : ReCompiler → ReCompiler}
    {branches : ReCompiler → ℕ → List ℕ → Option (ℕ × List ℕ) × ReCompiler}
    (hm : Meets x es c (first c))
    (hfirst : Total (reCompileSequence (reCompileAlternation depth true) inGroup
      (c.reading p f x)) (Reaches f x (mark x (byte '|') ++ r) (first c)))
    (hanswers : ∀ d lastSplit jump, d.error = .ok →
      Answers x es' d (branches d lastSplit [jump]))
    (hbranches : ∀ d lastSplit jump, d.error = .ok → c.length ≤ d.length →
      Total (reAltLoop (reCompileSequence (reCompileAlternation depth true) inGroup)
        ((mark x (byte '|') ++ r).length + 1) (d.reading (mark x (byte '|') ++ r) f x) lastSplit
        [jump]) (Lands f x rest (branches d lastSplit [jump]))) :
    Total (reCompileAlternation (depth + 1) inGroup (c.reading p f x))
      (Reaches f x rest (emitAlternation first branches c)) := by
  rw [reCompileAlternation]
  refine hfirst.bind fun e _ he => ?_
  obtain ⟨q, rfl, hq⟩ := he
  by_cases hf : (first c).error = .ok
  swap
  · rw [if_pos (show ((first c).reading q f x).error ≠ .ok from hf)]
    simp only [emitAlternation, ne_eq, hf, not_false_eq_true, if_true]
    exact .some ⟨q, rfl, fun h => absurd h hf⟩
  obtain rfl := hq hf
  have hbar : reIsAltDelimiter ((first c).reading (mark x (byte '|') ++ r) f x) = some true :=
    isDelimiter_mark.trans (congrArg some (decide_eq_true rfl))
  rw [if_neg (show ¬ ((first c).reading _ f x).error ≠ .ok from not_not_intro hf), hbar]
  simp only [Option.bind_eq_bind, Option.bind_some, Bool.not_true, Bool.false_eq_true, if_false,
    ReCompiler.reading_length, (Steady.insert c.length).reading, emitAlternation, hf, ne_eq,
    not_true]
  rcases (hm.answers hf (Steady.insert c.length)).cases with
    ⟨d, hd, hne, -⟩ | ⟨split, d, hd, hok, hm'⟩
  · simp only [hd]
    exact .some ⟨_, rfl, fun h => absurd h hne⟩
  have hjump := (Steady.emit .reJmp).modifyFirst split fun n =>
    ({ · with op := .reSplit, x := c.length + 1, y := n })
  have hread := hjump.reading d (mark x (byte '|') ++ r) f x
  simp only [hd, ReCompiler.setSplit] at hread ⊢
  simp only [hread]
  rcases (hm'.answers hok hjump).cases with ⟨e, he, hne, -⟩ | ⟨jump, e, he, hok', hm''⟩
  · simp only [he]
    exact .some ⟨_, rfl, fun h => absurd h hne⟩
  simp only [he, ReCompiler.reading_cursor]
  refine (hbranches e split jump hok' (hm''.grown hok')).bind fun s _ hs => ?_
  obtain ⟨q, rfl, hq'⟩ := hs
  rcases (hanswers e split jump hok').cases with
    ⟨b, hb, hne, -⟩ | ⟨⟨lastSplit, jumps⟩, b, hb, -, -⟩
  · simp only [hb]
    exact .some ⟨q, rfl, fun h => absurd h hne⟩
  · simp only [hb, rePatchAlternation_reading] at hq' ⊢
    exact .some ⟨q, rfl, fun _ => hq' (by simp)⟩

/-- A pass of the loop of `re_compile_alternation`, up to `q` where it goes on if `more`. -/
theorem reAltLoop_pass {sequence : ReCompiler → Option ReCompiler}
    (branch : ReCompiler → ReCompiler)
    {n lastSplit : ℕ} {jumps : List ℕ} {q : List UInt8} {more : Bool}
    {R : Option (ℕ × List ℕ) × ReCompiler → Prop} (hc : c.error = .ok)
    (hbranch : ∀ d, d.error = .ok → c.length ≤ d.length →
      Total (sequence (d.reading p f x)) (Reaches f x q (branch d)))
    (hmore : isDelimiter x (byte '|') q = some more)
    (hfail : ∀ d q', emitBranch branch c lastSplit jumps = (none, d) → R (none, d.reading q' f x))
    (hnext : ∀ split jumps' d, emitBranch branch c lastSplit jumps = (some (split, jumps'), d) →
      Total (if more then reAltLoop sequence n (d.reading q f x) split jumps'
        else some (some (split, jumps'), d.reading q f x)) R) :
    Total (reAltLoop sequence (n + 1) (c.reading (mark x (byte '|') ++ p) f x) lastSplit jumps)
      R := by
  simp only [reAltLoop, reading_past, (Steady.openBranch lastSplit).reading]
  unfold emitBranch at hfail hnext
  rcases ((Steady.openBranch lastSplit).answers (x := x) hc).cases with
    ⟨d, hd, -⟩ | ⟨split, d, hd, hok, hmd⟩
  · simp only [hd] at hfail ⊢
    exact .some (hfail d _ rfl)
  simp only [hd] at hfail hnext ⊢
  refine (hbranch d hok (hmd.grown hok)).bind fun e _ he => ?_
  obtain ⟨q', rfl, hq⟩ := he
  by_cases hb : (branch d).error = .ok
  swap
  · simp only [ReCompiler.reading_error, ne_eq, hb, not_false_eq_true, if_true] at hfail ⊢
    exact .some (hfail _ _ rfl)
  obtain rfl := hq hb
  simp only [ReCompiler.reading_error, ReCompiler.reading_length, ne_eq, hb, not_true, if_false,
    (Steady.closeBranch split d.length).reading] at hfail hnext ⊢
  rcases hclose : reCloseBranch (branch d) split d.length with ⟨_ | jump, e⟩ <;>
    simp only [hclose] at hfail hnext ⊢
  · exact .some (hfail _ _ rfl)
  by_cases hlen : jumps.length ≥ 128
  · simp only [if_pos hlen] at hfail ⊢
    exact .some (hfail { e with error := .regBadpat } q' rfl)
  · have hbar : reIsAltDelimiter (e.reading q' f x) = some more := hmore
    simp only [if_neg hlen, hbar, Option.bind_eq_bind, Option.bind_some] at hnext ⊢
    exact hnext _ _ _ rfl

theorem Term.length_spell_pos (t : Term) (x : Bool) : 0 < (t.spell x).length := by
  cases t with
  | char ch h => simp [Term.spell]
  | any => simp [Term.spell]
  | bracket b => simp [Term.spell]
  | group body =>
    have := length_mark_pos x (byte '(')
    simp only [Term.spell, List.length_append]
    omega

mutual

theorem Term.compiled : (t : Term) → ∀ {x inGroup : Bool} {f : UInt32} {c : ReCompiler}
    {depth : ℕ} {rest : List UInt8}, c.error = .ok → 0 < c.length →
    (t.spell x).length ≤ depth →
    Total
      (reCompileAtom (reCompileAlternation depth true) (c.reading (t.spell x ++ rest) f x) inGroup)
      (Lands f x rest (t.emit x c))
  | .char ch h, x, inGroup, f, c, depth, rest, _, _, _ => by
    have hch : opensTerm ch = true := by simp [opensTerm, h]
    obtain ⟨hdot, hbracket⟩ := isalnum_ne ch h
    rw [Term.spell, Term.emit, List.singleton_append, reCompileAtom_of_opensTerm hch, if_neg hdot,
      if_neg hbracket]
    exact reCompileChar_lands hch
  | .any, x, inGroup, f, c, depth, rest, _, _, _ => by
    rw [Term.spell, Term.emit, List.singleton_append, reCompileAtom_of_opensTerm (by decide),
      if_pos rfl]
    exact .some (Steady.emit .reAny).lands
  | .bracket b, x, inGroup, f, c, depth, rest, _, _, _ => by
    rw [Term.spell, Term.emit, List.cons_append, reCompileAtom_of_opensTerm (by decide),
      if_neg (by decide), if_pos rfl]
    exact b.compiled
  | .group body, x, inGroup, f, c, depth, rest, hc, hl, hd => by
    rw [Term.spell, List.length_append, List.length_append] at hd
    have hopen := length_mark_pos x (byte '(')
    obtain ⟨depth, rfl⟩ : ∃ d, depth = d + 1 := ⟨depth - 1, by omega⟩
    rw [Term.spell, Term.emit, List.append_assoc, List.append_assoc,
      reCompileAtom_group fun hx => isPair_question (hx ▸ body.plain Closes.close.plain)]
    refine reCompileGroup_lands hc fun d hok hle => ?_
    exact body.compiled hok (by omega) .close (by omega)

theorem Branch.compiled : (s : Branch) → ∀ {x inGroup : Bool} {f : UInt32} {c : ReCompiler}
    {depth n : ℕ} {rest : List UInt8}, c.error = .ok → 0 < c.length → Ends x inGroup rest →
    (s.spell x).length ≤ depth → (s.spell x).length < n →
    Total (reSequenceLoop (reCompileAlternation depth true) inGroup n
      (c.reading (s.spell x ++ rest) f x)) (Reaches f x rest (s.emit x c))
  | .nil, x, inGroup, f, c, depth, n, rest, hc, _, hrest, _, hn => by
    obtain ⟨n, rfl⟩ : ∃ m, n = m + 1 := ⟨n - 1, by omega⟩
    rw [Branch.spell, Branch.emit, List.nil_append, reSequenceLoop, reSequenceStops_reading hc,
      hrest.ends]
    exact .some ⟨rest, rfl, fun _ => rfl⟩
  | .cons term suffix s, x, inGroup, f, c, depth, n, rest, hc, hl, hrest, hd, hn => by
    obtain ⟨n, rfl⟩ : ∃ m, n = m + 1 := ⟨n - 1, by omega⟩
    have hpos := term.length_spell_pos x
    rw [Branch.spell, List.length_append, List.length_append] at hd hn
    rw [Branch.spell, Branch.emit, List.append_assoc, List.append_assoc, reSequenceLoop,
      reSequenceStops_reading hc, (term.opens inGroup).1]
    refine (reCompilePiece_lands (term.compiled hc hl (by omega)) (term.emit_ne_zero hl)
      fun d => suffix.compiled (s.plain hrest.plain) c.length).bind fun r _ hr => ?_
    have hanswers := emitPiece_answers (term.answers (x := x) hc)
      (fun d hd => suffix.answers hd c.length) suffix.proper
    obtain ⟨_, ⟨q, rfl, hq⟩, rfl⟩ := hr
    rcases hanswers.cases with ⟨d, heq, hne, -⟩ | ⟨_, d, heq, hok, hm⟩ <;>
      simp only [heq] at hq ⊢
    · exact .some ⟨q, rfl, fun h => absurd h hne⟩
    · obtain rfl := hq (by simp)
      have hlen := hm.grown hok
      exact s.compiled hok (by omega) hrest (by omega) (by omega)

theorem Tree.compiled : (t : Tree) → ∀ {x inGroup : Bool} {f : UInt32} {c : ReCompiler}
    {depth : ℕ} {rest : List UInt8}, c.error = .ok → 0 < c.length → Closes x inGroup rest →
    (t.spell x).length ≤ depth →
    Total (reCompileAlternation (depth + 1) inGroup (c.reading (t.spell x ++ rest) f x))
      (Reaches f x rest (t.emit x c))
  | .last branch, x, inGroup, f, c, depth, rest, hc, hl, hrest, hd => by
    rw [Tree.spell] at hd
    rw [Tree.spell, Tree.emit]
    refine reCompileAlternation_last hrest (branch.compiled hc hl hrest.toEnds hd ?_)
    simp only [ReCompiler.reading_cursor, List.length_append]
    omega
  | .more branch t, x, inGroup, f, c, depth, rest, hc, hl, hrest, hd => by
    rw [Tree.spell, List.length_append, List.length_append] at hd
    rw [Tree.spell, Tree.emit, List.append_assoc, List.append_assoc]
    have hanswers : ∀ d lastSplit jump, d.error = .ok →
        Answers x (t.branchEvents 1) d (t.emitBranches x d lastSplit [jump]) :=
      fun d lastSplit jump hok => t.branchesAnswer hok lastSplit [jump]
    refine reCompileAlternation_more (branch.meets hc) (branch.compiled hc hl .bar (by omega) ?_)
      hanswers fun d lastSplit jump hok hle => ?_
    · simp only [ReCompiler.reading_cursor, List.length_append]
      omega
    · refine t.branchesCompiled hok (by omega) hrest (by omega) ?_ lastSplit [jump]
      simp only [List.length_append]
      omega

theorem Tree.branchesCompiled : (t : Tree) → ∀ {x inGroup : Bool} {f : UInt32} {c : ReCompiler}
    {depth n : ℕ} {rest : List UInt8}, c.error = .ok → 0 < c.length → Closes x inGroup rest →
    (t.spell x).length ≤ depth → (t.spell x).length < n → ∀ (lastSplit : ℕ) (jumps : List ℕ),
    Total (reAltLoop (reCompileSequence (reCompileAlternation depth true) inGroup) n
      (c.reading (mark x (byte '|') ++ (t.spell x ++ rest)) f x) lastSplit jumps)
      (Lands f x rest (t.emitBranches x c lastSplit jumps))
  | .last branch, x, inGroup, f, c, depth, n, rest, hc, hl, hrest, hd, hn, lastSplit, jumps => by
    obtain ⟨n, rfl⟩ : ∃ m, n = m + 1 := ⟨n - 1, by omega⟩
    rw [Tree.spell] at hd
    rw [Tree.spell, Tree.emitBranches]
    refine reAltLoop_pass (branch.emit x) hc (fun d hok hle => ?_) hrest.bar
      (fun d q' heq => ?_) fun split jumps' d heq => ?_
    · refine branch.compiled hok (by omega) hrest.toEnds hd ?_
      simp only [ReCompiler.reading_cursor, List.length_append]
      omega
    · rw [heq]
      exact .failed
    · rw [heq]
      exact .some ⟨rest, rfl, fun _ => rfl⟩
  | .more branch t, x, inGroup, f, c, depth, n, rest, hc, hl, hrest, hd, hn, lastSplit, jumps => by
    obtain ⟨n, rfl⟩ : ∃ m, n = m + 1 := ⟨n - 1, by omega⟩
    have hmark := length_mark_pos x (byte '|')
    rw [Tree.spell, List.length_append, List.length_append] at hd hn
    rw [Tree.spell, Tree.emitBranches, List.append_assoc, List.append_assoc]
    have hbar : isDelimiter x (byte '|') (mark x (byte '|') ++ (t.spell x ++ rest)) = some true :=
      isDelimiter_mark.trans (congrArg some (decide_eq_true rfl))
    refine reAltLoop_pass (branch.emit x) hc (fun d hok hle => ?_) hbar (fun d q' heq => ?_)
      fun split jumps' d heq => ?_
    · refine branch.compiled hok (by omega) .bar (by omega) ?_
      simp only [ReCompiler.reading_cursor, List.length_append]
      omega
    · rw [heq]
      exact .failed
    · have hpass := emitBranch_answers (x := x) hc (fun d hd => branch.meets hd) branch.proper
        lastSplit jumps
      rw [heq] at hpass ⊢
      have hok : d.error = .ok := not_not.mp (mt hpass.2.mpr (by simp))
      have hlen : c.length ≤ d.length := hpass.1.grown hok
      exact t.branchesCompiled hok (by omega) hrest (by omega) (by omega) split jumps'

end

end LampUserspace.Regex
