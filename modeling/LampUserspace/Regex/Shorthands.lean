import LampUserspace.Partial.Pairs
import LampUserspace.Regex.Brackets

/-! # Class shorthands and the brackets that spell them

The text of a pattern with each class shorthand outside brackets replaced by a
bracket expression. The tests that the compiler makes at a cursor have the same
answer at the same place of both texts.
-/

namespace LampUserspace.Regex

/-! ## Brackets for shorthands -/

/-- The bytes that make a shorthand after a backslash. -/
def isShorthand (kind : UInt8) : Bool :=
  kind = byte 'w' || kind = byte 'W' || kind = byte 's' || kind = byte 'S' || kind = byte 'd' ||
    kind = byte 'D'

/-- The test for an upper-case kind, as `re_compile_atom` makes it. -/
def isNegated (kind : UInt8) : Bool := byte 'A' ≤ kind && kind ≤ byte 'Z'

/-- `A-Za-z0-9_`, `0-9` or the six whitespace characters. -/
def shorthandItems (kind : UInt8) : List BracketItem :=
  if kind = byte 'w' ∨ kind = byte 'W' then
    [.range (.plain (byte 'A')) (.plain (byte 'Z')), .range (.plain (byte 'a')) (.plain (byte 'z')),
      .range (.plain (byte '0')) (.plain (byte '9')), .one (.plain (byte '_'))]
  else if kind = byte 'd' ∨ kind = byte 'D' then
    [.range (.plain (byte '0')) (.plain (byte '9'))]
  else [byte ' ', 9, 10, 13, 12, 11].map fun b => .one (.plain b)

/-- The bracket that spells a shorthand. -/
def shorthandBracket (kind : UInt8) : BracketExpr where
  negated := isNegated kind
  leading := false
  items := shorthandItems kind
  follow := by
    unfold shorthandItems
    split_ifs <;>
      simp only [BracketItem.Follow, BracketItem.Fits, BracketByte.legal, BracketByte.value,
        List.map] <;>
      decide
  nonempty _ := by
    unfold shorthandItems
    split_ifs <;> simp
  positive _ _ := by
    unfold shorthandItems
    split_ifs <;> decide

def bracketForm (kind : UInt8) : List UInt8 :=
  byte '[' :: ((shorthandBracket kind).text ++ [byte ']'])

example : bracketForm (byte 'W') =
    ['[', '^', 'A', '-', 'Z', 'a', '-', 'z', '0', '-', '9', '_', ']'].map byte := by decide

/-- The two builders make the same set of a lower-case shorthand, and only of those. -/
theorem bitmap_shorthandBracket : ∀ kind, isShorthand kind = true →
    ((shorthandBracket kind).bitmap = simpleClass kind (isNegated kind) ↔
      isNegated kind = false) := by
  decide +kernel

theorem reReadClass_bracketForm (kind : UInt8) (r : List UInt8) :
    reReadClass (bracketForm kind ++ r) = some (.ok (r, (shorthandBracket kind).bitmap)) := by
  rw [bracketForm, List.cons_append, List.append_assoc]
  exact (shorthandBracket kind).reReadClass_eq _

/-! ## Replacing the shorthands of a text -/

/--
The text with each shorthand outside brackets replaced; `n` bounds the pieces that it is taken
apart into. What cannot be read as a bracket is left alone, together with all that follows.
-/
def expand : ℕ → List UInt8 → List UInt8
  | 0, p => p
  | _ + 1, [] => []
  | n + 1, b :: p =>
    if b = byte '[' then
      match reReadClass (b :: p) with
      | some (.ok (r, _)) => (b :: p).take ((b :: p).length - r.length) ++ expand n r
      | _ => b :: p
    else if b = byte '\\' then
      match p with
      | kind :: r => (if isShorthand kind then bracketForm kind else [b, kind]) ++ expand n r
      | [] => [b]
    else b :: expand n p

/-- `q` is the text `p` with its shorthands replaced. -/
inductive Expands : List UInt8 → List UInt8 → Prop where

  | nul : Expands [0] [0]

  | plain {b : UInt8} {p q : List UInt8} : b ≠ 0 → b ≠ byte '[' → b ≠ byte '\\' →
      Expands p q → Expands (b :: p) (b :: q)

  | pair {b : UInt8} {p q : List UInt8} : b ≠ 0 → isShorthand b = false → Expands p q →
      Expands (byte '\\' :: b :: p) (byte '\\' :: b :: q)

  | lone : Expands [byte '\\', 0] [byte '\\', 0]

  | shorthand {kind : UInt8} {p q : List UInt8} : isShorthand kind = true → Expands p q →
      Expands (byte '\\' :: kind :: p) (bracketForm kind ++ q)

  | bracket {b : BracketExpr} {p q : List UInt8} : Expands p q →
      Expands (byte '[' :: (b.text ++ byte ']' :: p)) (byte '[' :: (b.text ++ byte ']' :: q))

  | unread {p : List UInt8} {e : RegCode} : reReadClass (byte '[' :: p) = some (.error e) →
      Expands (byte '[' :: p) (byte '[' :: p)

section Expansion

variable {p q r u : List UInt8}

theorem expands_expand {n : ℕ} (hp : InText p) (hn : p.length ≤ n) : Expands p (expand n p) := by
  induction n generalizing p with
  | zero =>
    have := hp.length_pos
    omega
  | succ n ih =>
    cases hp with
    | nul => cases n <;> exact .nul
    | @cons b p hb hp =>
      rw [List.length_cons] at hn
      unfold expand
      by_cases hopen : b = byte '['
      · subst hopen
        obtain ⟨x, hx, hspec⟩ := reReadClass_total (.cons hb hp) rfl hb
        simp only [if_true, hx]
        obtain e | ⟨r, set⟩ := x
        · exact .unread hx
        · obtain ⟨bracket, hbracket⟩ := BracketExpr.of_reReadClass hx
          obtain rfl : p = bracket.text ++ byte ']' :: r := hbracket
          have htake : (byte '[' :: (bracket.text ++ byte ']' :: r)).take
              ((bracket.text ++ byte ']' :: r).length + 1 - r.length) =
              byte '[' :: (bracket.text ++ [byte ']']) := by
            have hsplit : byte '[' :: (bracket.text ++ byte ']' :: r) =
                byte '[' :: (bracket.text ++ [byte ']']) ++ r := by simp
            rw [hsplit, List.take_left' (by simp; omega)]
          have hlen := hspec.2
          simp only [List.length_cons] at hlen ⊢
          rw [htake, List.cons_append, List.append_assoc]
          exact .bracket (ih hspec.1 (by omega))
      · by_cases hback : b = byte '\\'
        · subst hback
          simp only [if_neg hopen, if_true]
          cases hp with
          | nul => cases n <;> exact .lone
          | @cons kind p hkind hp =>
            rw [List.length_cons] at hn
            have hrest := ih hp (by omega)
            cases hs : isShorthand kind with
            | true =>
              simp only [hs, if_true]
              exact .shorthand hs hrest
            | false =>
              simp only [hs, Bool.false_eq_true, if_false]
              exact .pair hkind hs hrest
        · simp only [if_neg hopen, if_neg hback]
          exact .plain hb hopen hback (ih hp (by omega))

theorem InText.append (hu : 0 ∉ u) (hp : InText p) : InText (u ++ p) := by
  induction u with
  | nil => exact hp
  | cons b u ih =>
    rw [List.mem_cons, not_or] at hu
    exact .cons (Ne.symm hu.1) (ih hu.2)

theorem InText.dropLast (h : InText p) : 0 ∉ p.dropLast ∧ p.dropLast ++ [0] = p := by
  induction h with
  | nul => exact ⟨List.not_mem_nil, rfl⟩
  | @cons b p hb hp ih =>
    have hne : p ≠ [] := List.ne_nil_of_length_pos hp.length_pos
    rw [List.dropLast_cons_of_ne_nil hne, List.mem_cons, not_or, List.cons_append, ih.2]
    exact ⟨⟨Ne.symm hb, ih.1⟩, rfl⟩

theorem InText.nul_notMem {b : UInt8} (h : InText (u ++ b :: p)) : 0 ∉ u := by
  have hdrop := h.dropLast.1
  rw [List.dropLast_append_cons, List.mem_append, not_or] at hdrop
  exact hdrop.1

theorem InText.tail {b : UInt8} (h : InText (b :: p)) (hp : p ≠ []) : InText p := by
  cases h with
  | nul => exact absurd rfl hp
  | cons _ h => exact h

theorem InText.of_append (h : InText (u ++ p)) (hp : p ≠ []) : InText p := by
  induction u with
  | nil => exact h
  | cons b u ih => exact ih (h.tail (List.append_ne_nil_of_right_ne_nil u hp))

theorem nul_notMem_bracketForm (kind : UInt8) : 0 ∉ bracketForm kind := by
  unfold bracketForm shorthandBracket BracketExpr.text BracketExpr.body shorthandItems
  simp only
  split_ifs <;> decide

theorem Expands.inText (h : Expands p q) (hp : InText p) : InText q := by
  induction h with
  | nul => exact hp
  | plain hb _ _ _ ih =>
    cases hp with
    | nul => exact absurd rfl hb
    | cons _ hp => exact .cons hb (ih hp)
  | pair hb _ _ ih =>
    cases hp with
    | cons hback hp =>
      cases hp with
      | nul => exact absurd rfl hb
      | cons _ hp => exact .cons hback (.cons hb (ih hp))
  | lone => exact hp
  | shorthand hkind _ ih =>
    cases hp with
    | cons hback hp =>
      cases hp with
      | nul => exact nomatch hkind
      | cons _ hp => exact (ih hp).append (nul_notMem_bracketForm _)
  | @bracket b p q _ ih =>
    cases hp with
    | cons hopen hp =>
      have hclose := hp.of_append (List.cons_ne_nil _ _)
      refine .cons hopen (.append hp.nul_notMem (.cons (by decide) (ih ?_)))
      cases hclose
      assumption
  | unread => exact hp

theorem expands_memory (regex : CString) :
    Expands regex.memory (expand regex.memory.length regex.memory) :=
  expands_expand (InText.memory regex) le_rfl

theorem expand_inText (regex : CString) : InText (expand regex.memory.length regex.memory) :=
  (expands_memory regex).inText (InText.memory regex)

end Expansion

/-- The pattern with each shorthand outside brackets replaced by its bracket. -/
def expandShorthands (regex : CString) : CString where
  bytes := (expand regex.memory.length regex.memory).dropLast
  nul_free := (expand_inText regex).dropLast.1

theorem memory_expandShorthands (regex : CString) :
    (expandShorthands regex).memory = expand regex.memory.length regex.memory :=
  (expand_inText regex).dropLast.2

/-! ## The tests at a cursor -/

section Cursors

variable {p q : List UInt8} {x inGroup : Bool} {m : UInt8}

theorem bracketForm_append (kind : UInt8) (q : List UInt8) : bracketForm kind ++ q =
    byte '[' :: ((shorthandBracket kind).text ++ byte ']' :: q) := by simp [bracketForm]

/-- The first bytes are the same, or those of a shorthand and of its bracket. -/
theorem Expands.head (h : Expands p q) : ∃ b b', p[0]? = some b ∧ q[0]? = some b' ∧
    (b = b' ∧ (b ≠ 0 → b ≠ byte '[' → b ≠ byte '\\' → Expands (p.drop 1) (q.drop 1)) ∨
      b = byte '\\' ∧ b' = byte '[') := by
  cases h with
  | nul => exact ⟨0, 0, rfl, rfl, .inl ⟨rfl, fun h => absurd rfl h⟩⟩
  | @plain b _ _ _ _ _ h => exact ⟨b, b, rfl, rfl, .inl ⟨rfl, fun _ _ _ => h⟩⟩
  | pair _ _ _ | lone => exact ⟨_, _, rfl, rfl, .inl ⟨rfl, fun _ _ h => absurd rfl h⟩⟩
  | shorthand _ _ => exact ⟨_, _, rfl, rfl, .inr ⟨rfl, rfl⟩⟩
  | bracket _ | unread _ => exact ⟨_, _, rfl, rfl, .inl ⟨rfl, fun _ h => absurd rfl h⟩⟩

theorem Expands.at_byte (h : Expands p q) (h0 : m ≠ 0) (hopen : m ≠ byte '[')
    (hback : m ≠ byte '\\') : ∃ b b', p[0]? = some b ∧ q[0]? = some b' ∧ (b' = m ↔ b = m) ∧
      (b = m → Expands (p.drop 1) (q.drop 1)) := by
  obtain ⟨b, b', hb, hb', hfirst⟩ := h.head
  refine ⟨b, b', hb, hb', ?_⟩
  rcases hfirst with ⟨rfl, hdrop⟩ | ⟨rfl, rfl⟩
  · refine ⟨Iff.rfl, ?_⟩
    rintro rfl
    exact hdrop h0 hopen hback
  · exact ⟨iff_of_false hopen.symm hback.symm, fun he => absurd he.symm hback⟩

theorem Expands.isPair_plain (h : Expands p q) :
    isPair (byte '?') (byte ':') q = isPair (byte '?') (byte ':') p ∧
      (isPair (byte '?') (byte ':') p = some true → Expands (p.drop 2) (q.drop 2)) := by
  obtain ⟨b, b', hb, hb', hiff, hdrop⟩ :=
    h.at_byte (m := byte '?') (by decide) (by decide) (by decide)
  by_cases hm : b = byte '?'
  · obtain ⟨d, d', hd, hd', hiff', hdrop'⟩ :=
      (hdrop hm).at_byte (m := byte ':') (by decide) (by decide) (by decide)
    rw [List.getElem?_drop] at hd hd'
    rw [List.drop_drop, List.drop_drop] at hdrop'
    constructor
    · simp [isPair, hb, hb', hm, hiff.mpr hm, hd, hd', hiff']
    · intro hpair
      exact hdrop' (by simpa [isPair, hb, hm, hd] using hpair)
  · have hm' : b' ≠ byte '?' := fun he => hm (hiff.mp he)
    constructor
    · simp [isPair, hb, hb', hm, hm']
    · intro hpair
      simp [isPair, hb, hm] at hpair

theorem Expands.isDelimiter (h : Expands p q) (hs : isShorthand m = false)
    (hopen : m ≠ byte '[') (hback : m ≠ byte '\\') :
    isDelimiter x m q = isDelimiter x m p := by
  cases h with
  | nul | lone | unread _ => rfl
  | plain _ _ hb _ => cases x <;> simp [Regex.isDelimiter, isPair, hb]
  | pair _ _ _ => cases x <;> simp [Regex.isDelimiter, isPair]
  | @shorthand kind p q hkind _ =>
    have hne : kind ≠ m := fun he => absurd hkind (by simp [he, hs])
    rw [bracketForm_append]
    cases x with
    | true => simp [Regex.isDelimiter, hopen.symm, hback.symm]
    | false =>
      have hback' : byte '[' ≠ byte '\\' := by decide
      simp [Regex.isDelimiter, isPair, hne, hback']
  | bracket _ =>
    have hback' : byte '[' ≠ byte '\\' := by decide
    cases x <;> simp [Regex.isDelimiter, isPair, hback']

theorem Expands.branchEnds (h : Expands p q) :
    branchEnds x inGroup q = branchEnds x inGroup p := by
  obtain ⟨b, b', hb, hb', hfirst⟩ := h.head
  have h0 : b' = 0 ↔ b = 0 := by
    rcases hfirst with ⟨rfl, -⟩ | ⟨rfl, rfl⟩
    · exact Iff.rfl
    · decide
  unfold Regex.branchEnds
  rw [hb, hb', h.isDelimiter (m := byte '|') (by decide) (by decide) (by decide),
    h.isDelimiter (m := byte ')') (by decide) (by decide) (by decide)]
  simp only [Option.bind_eq_bind, Option.bind_some, h0]

theorem quantMark_shorthand : ∀ kind, isShorthand kind = true → quantMark kind = none := by
  decide +kernel

theorem Expands.reReadQuantifier (h : Expands p q) :
    reReadQuantifier x q = reReadQuantifier x p := by
  cases h with
  | nul | lone | unread _ => rfl
  | plain _ _ hb _ => cases x <;> simp [Regex.reReadQuantifier, hb]
  | pair _ _ _ => cases x <;> simp [Regex.reReadQuantifier]
  | @shorthand kind p q hkind _ =>
    have hmark := quantMark_shorthand kind hkind
    rw [bracketForm_append]
    cases x with
    | true => rfl
    | false =>
      have hstar : byte '\\' ≠ byte '*' := by decide
      have hstar' : byte '[' ≠ byte '*' := by decide
      have hback : byte '[' ≠ byte '\\' := by decide
      simp [Regex.reReadQuantifier, hmark, hstar, hstar', hback]
  | bracket _ =>
    have hstar : byte '[' ≠ byte '*' := by decide
    have hback : byte '[' ≠ byte '\\' := by decide
    cases x <;> simp [Regex.reReadQuantifier, hstar, hback]

/-! ## The readers -/

/-- Two readings of one value, or of one error; after a value the texts go on alike. -/
inductive SameReading {α : Type} :
    Except RegCode (α × List UInt8) → Except RegCode (α × List UInt8) → Prop where

  | error {e : RegCode} : e ≠ .ok → SameReading (.error e) (.error e)

  | value {a : α} {p q : List UInt8} : Expands p q → SameReading (.ok (a, p)) (.ok (a, q))

theorem Expands.readDigits (h : Expands p q) (value : ℕ) :
    Together (readDigits p value) (readDigits q value) (SameReading) := by
  induction h generalizing value with
  | nul => exact .some (.value .nul)
  | @plain b p q h0 hopen hback h ih =>
    simp only [Regex.readDigits]
    split
    · split
      · exact .some (.error (by simp))
      · exact ih _
    · exact .some (.value (.plain h0 hopen hback h))
  | pair h0 hs h => exact .some (.value (.pair h0 hs h))
  | lone => exact .some (.value .lone)
  | shorthand hs h => exact .some (.value (.shorthand hs h))
  | bracket h => exact .some (.value (.bracket h))
  | unread h => exact .some (.value (.unread h))

theorem Expands.readMax (h : Expands p q) (min : ℕ) :
    Together (readMax p min) (readMax q min) (SameReading) := by
  obtain ⟨b, b', hb, hb', hcomma, hdrop⟩ :=
    h.at_byte (m := byte ',') (by decide) (by decide) (by decide)
  unfold Regex.readMax
  simp only [hb, hb', Option.bind_eq_bind, Option.bind_some, ne_eq, hcomma]
  by_cases hc : b = byte ','
  swap
  · simp only [hc, not_false_eq_true, if_true]
    exact .pure (.value h)
  have hdrop := hdrop hc
  simp only [hc, not_true_eq_false, if_false]
  obtain ⟨d, d', hd, hd', hsecond⟩ := hdrop.head
  have hdigit : isdigit d' = isdigit d := by
    rcases hsecond with ⟨rfl, -⟩ | ⟨rfl, rfl⟩
    · rfl
    · decide
  simp only [hd, hd', Option.bind_some, hdigit]
  split
  · exact .pure (.value hdrop)
  · refine (hdrop.readDigits 0).bind fun r r' hr => ?_
    cases hr with
    | error he => exact .pure (.error he)
    | value h => exact .pure (.value h)

/-- The bounds of two intervals, or the error in both. -/
inductive SameInterval :
    Except RegCode (ℕ × Option ℕ × List UInt8) → Except RegCode (ℕ × Option ℕ × List UInt8) →
      Prop where

  | error {e : RegCode} : e ≠ .ok → SameInterval (.error e) (.error e)

  | bounds {min : ℕ} {max : Option ℕ} {p q : List UInt8} : Expands p q →
      SameInterval (.ok (min, max, p)) (.ok (min, max, q))

theorem Expands.reParseInterval (h : Expands p q) :
    Together (reParseInterval p) (reParseInterval q) (SameInterval) := by
  unfold Regex.reParseInterval
  refine (h.readDigits 0).bind fun r r' hr => ?_
  cases hr with
  | error he => exact .pure (.error he)
  | @value min p q h =>
    refine (h.readMax min).bind fun r r' hr => ?_
    cases hr with
    | error he => exact .pure (.error he)
    | @value max p q h =>
      obtain ⟨b, b', hb, hb', hclose, hdrop⟩ :=
        h.at_byte (m := byte '}') (by decide) (by decide) (by decide)
      simp only [hb, hb', Option.bind_eq_bind, Option.bind_some, ne_eq, hclose]
      split
      · exact .pure (.error nofun)
      · exact .pure (.bounds (hdrop (not_not.mp ‹_›)))

theorem Expands.drop_delimiter (h : Expands p q) (h0 : m ≠ 0) (hs : isShorthand m = false)
    (hopen : m ≠ byte '[') (hback : m ≠ byte '\\')
    (hm : Regex.isDelimiter x m p = some true) :
    Expands (p.drop (markLength x)) (q.drop (markLength x)) := by
  cases x with
  | true =>
    obtain ⟨b, b', hb, hb', hfirst⟩ := h.head
    obtain rfl : b = m := by simpa [Regex.isDelimiter, hb] using hm
    rcases hfirst with ⟨-, hdrop⟩ | ⟨he, -⟩
    · exact hdrop h0 hopen hback
    · exact absurd he hback
  | false =>
    have hopen' : byte '[' ≠ byte '\\' := by decide
    cases h with
    | nul => simp [Regex.isDelimiter, isPair] at hm
    | plain _ _ hb _ => simp [Regex.isDelimiter, isPair, hb] at hm
    | pair _ _ h => exact h
    | lone => simp [Regex.isDelimiter, isPair, h0.symm] at hm
    | @shorthand kind _ _ hkind _ =>
      obtain rfl : kind = m := by simpa [Regex.isDelimiter, isPair] using hm
      rw [hs] at hkind
      cases hkind
    | bracket _ | unread _ => simp [Regex.isDelimiter, isPair, hopen'] at hm

theorem quantMark_ne : ∀ m, quantMark m ≠ none → m ≠ 0 ∧ isShorthand m = false ∧
    m ≠ byte '[' ∧ m ≠ byte '\\' := by
  decide +kernel

theorem of_reReadQuantifier {kind : QuantKind} (h : reReadQuantifier x p = some (some kind)) :
    kind = .star ∧ p[0]? = some (byte '*') ∨
      ∃ m, quantMark m = some kind ∧ isDelimiter x m p = some true := by
  unfold Regex.reReadQuantifier at h
  obtain ⟨b, hb, h⟩ := Option.bind_eq_some_iff.mp h
  by_cases hstar : b = byte '*'
  · simp only [hstar, if_true] at h
    cases h
    exact .inl ⟨rfl, hstar ▸ hb⟩
  simp only [hstar, if_false] at h
  cases x with
  | true =>
    simp only [if_true] at h
    exact .inr ⟨b, Option.some.inj h, by simp [isDelimiter, hb]⟩
  | false =>
    by_cases hback : b = byte '\\'
    · simp only [Bool.false_eq_true, if_false, hback, ne_eq, not_true_eq_false] at h
      obtain ⟨m, hm, h⟩ := Option.bind_eq_some_iff.mp h
      exact .inr ⟨m, Option.some.inj h, by simp [isDelimiter, isPair, hb, hback, hm]⟩
    · simp [hback] at h

theorem Expands.drop_quantifier (h : Expands p q) {kind : QuantKind}
    (hm : Regex.reReadQuantifier x p = some (some kind)) :
    Expands (p.drop (kind.markLength x)) (q.drop (kind.markLength x)) := by
  rcases of_reReadQuantifier hm with ⟨rfl, hstar⟩ | ⟨m, hmark, hdelim⟩
  · obtain ⟨b, b', hb, hb', hfirst⟩ := h.head
    obtain rfl : b = byte '*' := Option.some.inj (hb.symm.trans hstar)
    rcases hfirst with ⟨-, hdrop⟩ | ⟨he, -⟩
    · exact hdrop (by decide) (by decide) (by decide)
    · exact absurd he (by decide)
  · obtain ⟨h0, hs, hopen, hback⟩ := quantMark_ne m (by simp [hmark])
    rw [QuantKind.markLength_of_ne_star x (quantMark_eq_some hmark).2]
    exact h.drop_delimiter h0 hs hopen hback hdelim

end Cursors

end LampUserspace.Regex
