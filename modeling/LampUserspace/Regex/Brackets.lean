import LampUserspace.Regex.CaseFold
import Mathlib.Data.Nat.Bitwise

/-! # Bracket expressions

A bracket expression is a sequence of items, written one after the other. The
scan of `re_compile_class` reads exactly these sequences; the set it stores has
of each named class only the first row of the table.
-/

namespace LampUserspace.Regex

/-! ## Bitmaps -/

theorem toNat_bit : ∀ ch : UInt8, ((1 : UInt8) <<< (ch &&& 7)).toNat = 2 ^ (ch.toNat % 8) := by
  decide +kernel

theorem bit_test (x ch : UInt8) :
    (x &&& (1 <<< (ch &&& 7)) != 0) = x.toNat.testBit (ch.toNat % 8) := by
  have hzero : x &&& (1 <<< (ch &&& 7)) = 0 ↔
      (x.toNat.testBit (ch.toNat % 8)).toNat * 2 ^ (ch.toNat % 8) = 0 := by
    rw [← UInt8.toNat_inj, UInt8.toNat_and, toNat_bit, Nat.and_two_pow]
    rfl
  rw [Bool.eq_iff_iff, bne_iff_ne, ne_eq, hzero]
  cases x.toNat.testBit (ch.toNat % 8) <;> simp

theorem has_eq (set : ByteSet) (ch : UInt8) (h : (ch >>> 3).toNat < 32) :
    set.has ch = set[(ch >>> 3).toNat].toNat.testBit (ch.toNat % 8) :=
  bit_test _ ch

theorem has_empty (ch : UInt8) : ByteSet.empty.has ch = false := by
  simp [has_eq _ ch (shiftRight_three_lt ch), ByteSet.empty]

theorem has_complement (set : ByteSet) (ch : UInt8) : set.complement.has ch = !set.has ch := by
  have hlt : ch.toNat % 8 < 8 := Nat.mod_lt _ (by decide)
  have hnot : ∀ x : UInt8, (~~~x).toNat.testBit (ch.toNat % 8) =
      !x.toNat.testBit (ch.toNat % 8) := by
    intro x
    have hx : (~~~x).toNat = 2 ^ 8 - (x.toNat + 1) := by
      rw [UInt8.toNat_not, Nat.sub_sub, Nat.add_comm]
      rfl
    rw [hx, Nat.testBit_two_pow_sub_succ x.toNat_lt]
    simp [hlt]
  have h := shiftRight_three_lt ch
  rw [has_eq _ ch h, has_eq _ ch h, ByteSet.complement, Vector.getElem_map, hnot]

theorem has_reSetChar (set : ByteSet) (c ch : UInt8) :
    (reSetChar set c).has ch = (ch == c || set.has ch) := by
  have h := shiftRight_three_lt ch
  have hc := shiftRight_three_lt c
  have hset : reSetChar set c = set.set (c >>> 3).toNat
    (set[(c >>> 3).toNat] ||| (1 <<< (c &&& 7))) hc := rfl
  rw [has_eq _ ch h, has_eq _ ch h, hset, Vector.getElem_set]
  have hcell : ∀ b : UInt8, (b >>> 3).toNat = b.toNat / 8 := by
    intro b
    rw [UInt8.toNat_shiftRight, Nat.shiftRight_eq_div_pow]
    rfl
  have heq : ch = c ↔ ch.toNat / 8 = c.toNat / 8 ∧ ch.toNat % 8 = c.toNat % 8 := by
    rw [← UInt8.toNat_inj]
    omega
  split
  · rename_i hsame
    simp only [hsame]
    rw [UInt8.toNat_or, toNat_bit, Nat.testBit_or, Nat.testBit_two_pow, Bool.or_comm]
    rw [hcell, hcell] at hsame
    congr 1
    rw [Bool.eq_iff_iff, decide_eq_true_iff, beq_iff_eq, heq]
    exact ⟨fun h => ⟨hsame.symm, h.symm⟩, fun h => h.2.symm⟩
  · rename_i hother
    rw [hcell, hcell] at hother
    have hne : ch ≠ c := fun h => hother (h ▸ rfl)
    simp [hne]

theorem has_reSetRange (set : ByteSet) (first last ch : UInt8) :
    (reSetRange set first last).has ch = ((first ≤ ch && ch ≤ last) || set.has ch) := by
  have hfold : ∀ (cs : List ℕ) (set : ByteSet),
      (cs.foldl (fun set c => reSetChar set c.toUInt8) set).has ch =
        (cs.any (ch == ·.toUInt8) || set.has ch) := by
    intro cs
    induction cs with
    | nil => intro set; rfl
    | cons c cs ih =>
      intro set
      rw [List.foldl_cons, ih, has_reSetChar, List.any_cons, Bool.or_left_comm, Bool.or_assoc]
  unfold reSetRange
  split
  · rename_i h
    have : ¬ (first ≤ ch ∧ ch ≤ last) := by
      rintro ⟨h1, h2⟩
      exact absurd (UInt8.le_trans h1 h2) (UInt8.not_le.mpr h)
    simp [this]
  · rename_i h
    rw [hfold]
    congr 1
    rw [Bool.eq_iff_iff, List.any_eq_true, Bool.and_eq_true, decide_eq_true_iff,
      decide_eq_true_iff]
    constructor
    · rintro ⟨n, hn, hch⟩
      obtain rfl := eq_of_beq hch
      obtain ⟨hfirst, hlast⟩ := List.mem_range'_1.mp hn
      have := last.toNat_lt
      rw [UInt8.le_iff_toNat_le, UInt8.le_iff_toNat_le, Nat.toUInt8,
        UInt8.toNat_ofNat_of_lt' (by change n < 256; omega)]
      omega
    · rintro ⟨h1, h2⟩
      rw [UInt8.le_iff_toNat_le] at h1 h2
      exact ⟨ch.toNat, List.mem_range'_1.mpr (by omega), by simp⟩
/-! ## Items -/

/-- A byte of a bracket expression as written: plain, or after a backslash. -/
inductive BracketByte
  | plain (b : UInt8)
  | escaped (b : UInt8)
  deriving DecidableEq

namespace BracketByte

def text : BracketByte → List UInt8
  | plain b => [b]
  | escaped b => [byte '\\', b]

def value : BracketByte → UInt8
  | plain b => b
  | escaped b =>
    if b = byte 'n' then 10
    else if b = byte 't' then 9
    else if b = byte 'r' then 13
    else if b = byte 'f' then 12
    else if b = byte 'v' then 11
    else if b = byte 'a' then 7
    else if b = byte '0' then 0
    else b

/-- The bytes that can be written at the start of an item or after the dash of a range. -/
def legal : BracketByte → Prop
  | plain b => b ≠ 0 ∧ b ≠ byte ']' ∧ b ≠ byte '\\'
  | escaped b => b ≠ 0

end BracketByte

abbrev ClassRow := List Char × UInt8 × UInt8

def ClassRow.has (row : ClassRow) (ch : UInt8) : Bool := row.2.1 ≤ ch && ch ≤ row.2.2

def classRows (name : List UInt8) : List ClassRow := namedClasses.filter (·.1.map byte = name)

/-- An item of a bracket expression; the name of a class keeps its colon, as in the table. -/
inductive BracketItem
  | one (b : BracketByte)
  | range (first last : BracketByte)
  | named (name : List UInt8)
  deriving DecidableEq

namespace BracketItem

def text : BracketItem → List UInt8
  | one b => b.text
  | range first last => first.text ++ byte '-' :: last.text
  | named name => byte '[' :: byte ':' :: (name ++ [byte ']'])

/-- The bytes of an item. -/
def has : BracketItem → UInt8 → Bool
  | one b, ch => ch == b.value
  | range first last, ch => first.value ≤ ch && ch ≤ last.value
  | named name, ch => (classRows name).any (·.has ch)

def laterRows : BracketItem → List ClassRow
  | named name => (classRows name).tail
  | _ => []

/-- The bytes of an item without the later rows of its class. -/
def hasFirst : BracketItem → UInt8 → Bool
  | named name, ch => (classRows name).head?.any (·.has ch)
  | i, ch => i.has ch

/-- What one pass of the scan does to the set. -/
def add (set : ByteSet) : BracketItem → ByteSet
  | one b => reSetChar set b.value
  | range first last => reSetRange set first.value last.value
  | named name => (classRows name).head?.elim set fun row => reSetRange set row.2.1 row.2.2

theorem has_add (set : ByteSet) (i : BracketItem) (ch : UInt8) :
    (add set i).has ch = (i.hasFirst ch || set.has ch) := by
  cases i with
  | one b => exact has_reSetChar set b.value ch
  | range first last => exact has_reSetRange set first.value last.value ch
  | named name =>
    rw [add, hasFirst]
    cases (classRows name).head? with
    | none => rfl
    | some row => exact has_reSetRange set row.2.1 row.2.2 ch

theorem has_iff (i : BracketItem) (ch : UInt8) :
    i.has ch = true ↔ i.hasFirst ch = true ∨ ∃ row ∈ i.laterRows, row.has ch = true := by
  cases i with
  | one b => simp [hasFirst, laterRows]
  | range first last => simp [hasFirst, laterRows]
  | named name =>
    rw [has, hasFirst, laterRows]
    cases classRows name <;> simp

theorem has_foldl_add (items : List BracketItem) (set : ByteSet) (ch : UInt8) :
    (items.foldl add set).has ch = (items.any (·.hasFirst ch) || set.has ch) := by
  induction items generalizing set with
  | nil => rfl
  | cons i items ih => rw [List.foldl_cons, ih, has_add, List.any_cons, Bool.or_left_comm,
      Bool.or_assoc]

/-- A dash that opens a range; `q` is the rest of the text up to the closing bracket. -/
def opensRange : List UInt8 → Bool
  | d :: b :: _ => d = byte '-' && b ≠ byte ']' && b ≠ 0
  | _ => false

/-- The item can stand before `q`: it is read whole, and no more than it is read. -/
def Fits (q : List UInt8) : BracketItem → Prop
  | one b => b.legal ∧ ¬ (b = .plain (byte '[') ∧ q.head? = some (byte ':')) ∧ opensRange q = false
  | range first last => first.legal ∧ last.legal ∧ first.value ≤ last.value
  | named name => classRows name ≠ []

/-- Every item of the sequence can stand before the text of those after it. -/
def Follow : List BracketItem → Prop
  | [] => True
  | i :: items => i.Fits (items.flatMap text) ∧ Follow items

end BracketItem

structure BracketExpr where
  negated : Bool
  leading : Bool
  items : List BracketItem
  follow : BracketItem.Follow items
  nonempty : leading = false → items ≠ []
  positive : negated = false → leading = false →
    (items.flatMap BracketItem.text).head? ≠ some (byte '^')

namespace BracketExpr

def body (b : BracketExpr) : List UInt8 :=
  (if b.leading then [byte ']'] else []) ++ b.items.flatMap BracketItem.text

def text (b : BracketExpr) : List UInt8 := (if b.negated then [byte '^'] else []) ++ b.body

/-- The union of the items. -/
def has (b : BracketExpr) (ch : UInt8) : Bool :=
  b.leading && ch == byte ']' || b.items.any (·.has ch)

/-- The union of the items without the later rows of their classes. -/
def hasFirst (b : BracketExpr) (ch : UInt8) : Bool :=
  b.leading && ch == byte ']' || b.items.any (·.hasFirst ch)

end BracketExpr

/-! ## The reading of items -/

section Reading

variable {p q r : List UInt8} {b : BracketByte} {v : UInt8}

theorem BracketByte.reParseEscape_eq (h : b.legal) :
    reParseEscape (b.text ++ r) = some (.ok (b.value, r)) := by
  cases b with
  | plain b => simp [reParseEscape, text, value, h.2.2]
  | escaped b =>
    have h0 : b ≠ 0 := h
    simp [reParseEscape, text, value, h0]

theorem BracketByte.legal.text_eq_cons (h : b.legal) :
    ∃ c t, b.text = c :: t ∧ c ≠ 0 ∧ c ≠ byte ']' := by
  cases b with
  | plain c => exact ⟨c, [], rfl, h.1, h.2.1⟩
  | escaped c => exact ⟨byte '\\', [c], rfl, by decide, by decide⟩

theorem BracketByte.of_reParseEscape (h : reParseEscape p = some (.ok (v, r)))
    (h0 : p[0]? ≠ some 0) (hclose : p[0]? ≠ some (byte ']')) :
    ∃ b : BracketByte, b.legal ∧ p = b.text ++ r ∧ b.value = v := by
  cases p with
  | nil => simp [reParseEscape] at h
  | cons c t =>
    simp only [List.getElem?_cons_zero, ne_eq, Option.some.injEq] at h0 hclose
    by_cases hc : c = byte '\\'
    · subst hc
      cases t with
      | nil => simp [reParseEscape] at h
      | cons e t =>
        by_cases he : e = 0
        · simp [reParseEscape, he] at h
        · simp only [reParseEscape, List.getElem?_cons_zero, Option.bind_eq_bind,
            Option.bind_some, ne_eq, not_true_eq_false, if_false, List.drop_succ_cons,
            List.drop_zero, if_neg he] at h
          cases h
          exact ⟨.escaped e, he, rfl, rfl⟩
    · simp only [reParseEscape, List.getElem?_cons_zero, Option.bind_eq_bind, Option.bind_some,
        ne_eq, hc, not_false_eq_true, if_true] at h
      cases h
      exact ⟨.plain _, ⟨h0, hclose, hc⟩, rfl, rfl⟩

theorem isRangeDash_eq (q : List UInt8) :
    isRangeDash (q ++ byte ']' :: r) = some (BracketItem.opensRange q) := by
  match q with
  | [] => rfl
  | [d] => by_cases hd : d = byte '-' <;> simp [isRangeDash, BracketItem.opensRange, hd]
  | d :: e :: q => by_cases hd : d = byte '-' <;> simp [isRangeDash, BracketItem.opensRange, hd]

theorem of_isRangeDash (h : isRangeDash p = some true) :
    ∃ t, p = byte '-' :: t ∧ t[0]? ≠ some 0 ∧ t[0]? ≠ some (byte ']') := by
  match p with
  | [] => cases h
  | [d] => by_cases hd : d = byte '-' <;> simp [isRangeDash, hd] at h
  | d :: e :: t =>
    by_cases hd : d = byte '-'
    · have he : e ≠ byte ']' ∧ e ≠ 0 := by simpa [isRangeDash, hd] using h
      exact ⟨e :: t, by rw [hd], by simpa using he.2, by simpa using he.1⟩
    · simp [isRangeDash, hd] at h

/-! ### Named classes -/

theorem namedClasses_close : ∀ row ∈ namedClasses, byte ']' ∉ row.1.map byte := by decide

theorem hasName_eq {name : List Char} (h : byte ']' ∉ name.map byte) (q : List UInt8) :
    hasName (q ++ byte ']' :: r) name = some (decide (name.map byte <+: q)) := by
  induction name generalizing q with
  | nil => simp [hasName]
  | cons c name ih =>
    rw [List.map_cons, List.mem_cons, not_or] at h
    cases q with
    | nil => simp [hasName, h.1]
    | cons d q =>
      by_cases hd : d = byte c
      · simp [hasName, hd, ih h.2, List.cons_prefix_cons]
      · simp [hasName, hd, List.cons_prefix_cons, Ne.symm hd]

theorem eq_of_prefix_close {name : List UInt8} (h : byte ']' ∉ name) (hp : q <+: name) :
    (name ++ byte ']' :: r)[q.length]? = some (byte ']') ↔ q = name := by
  obtain ⟨t, rfl⟩ := hp
  rw [List.append_assoc, List.getElem?_append_right le_rfl, Nat.sub_self]
  cases t with
  | nil => simp
  | cons d t =>
    have hd : d ≠ byte ']' := fun he => h (by simp [he])
    simp [hd]

theorem scanClasses_eq {name : List UInt8} (hname : byte ']' ∉ name) (set : ByteSet)
    {rows : List ClassRow} (hrows : ∀ row ∈ rows, byte ']' ∉ row.1.map byte) :
    scanClasses (name ++ byte ']' :: r) set rows =
      some ((rows.find? (·.1.map byte = name)).map fun row =>
        (r, reSetRange set row.2.1 row.2.2)) := by
  induction rows with
  | nil => rfl
  | cons row rows ih =>
    obtain ⟨n, first, last⟩ := row
    rw [List.forall_mem_cons] at hrows
    have hlen : (n.map byte).length = n.length := List.length_map ..
    rw [scanClasses, hasName_eq hrows.1, List.find?_cons]
    by_cases hp : n.map byte <+: name
    · have hstop := eq_of_prefix_close (r := r) hname hp
      rw [hlen] at hstop
      by_cases hn : n.map byte = name
      · have hdrop : (name ++ byte ']' :: r).drop (n.length + 1) = r := by
          rw [← hn, ← hlen, List.drop_length_add_append]
          rfl
        simp [hstop.mpr hn, hn, hdrop]
      · obtain ⟨ch, hch⟩ : ∃ ch, (name ++ byte ']' :: r)[n.length]? = some ch := by
          refine ⟨_, List.getElem?_eq_getElem ?_⟩
          have := hp.length_le
          rw [List.length_append, List.length_cons]
          omega
        have hne : ch ≠ byte ']' := by
          rintro rfl
          exact hn (hstop.mp hch)
        simp [hp, hch, hne, hn, ih hrows.2]
    · have hn : n.map byte ≠ name := fun he => hp (he ▸ List.prefix_rfl)
      simp [hp, hn, ih hrows.2]

theorem of_hasName {name : List Char} (h : hasName p name = some true) : name.map byte <+: p := by
  induction name generalizing p with
  | nil => exact List.nil_prefix
  | cons c name ih =>
    cases p with
    | nil => simp [hasName] at h
    | cons d p =>
      by_cases hd : d = byte c
      · simp only [hasName, List.getElem?_cons_zero, Option.bind_eq_bind, Option.bind_some, hd,
          ne_eq, not_true_eq_false, if_false, List.drop_succ_cons, List.drop_zero] at h
        rw [List.map_cons, hd]
        exact List.cons_prefix_cons.mpr ⟨rfl, ih h⟩
      · simp [hasName, hd] at h

theorem of_scanClasses {rows : List ClassRow} {set set' : ByteSet}
    (h : scanClasses p set rows = some (some (r, set'))) :
    ∃ row ∈ rows, p = row.1.map byte ++ byte ']' :: r := by
  induction rows with
  | nil => simp [scanClasses] at h
  | cons row rows ih =>
    obtain ⟨n, first, last⟩ := row
    have hlater : (∃ row ∈ rows, p = row.1.map byte ++ byte ']' :: r) →
        ∃ row ∈ (n, first, last) :: rows, p = row.1.map byte ++ byte ']' :: r := by
      rintro ⟨row, hrow, hp⟩
      exact ⟨row, List.mem_cons_of_mem _ hrow, hp⟩
    rw [scanClasses] at h
    obtain ⟨fits, hfits, h⟩ := Option.bind_eq_some_iff.mp h
    cases fits with
    | false => exact hlater (ih (by simpa using h))
    | true =>
      obtain ⟨t, rfl⟩ := of_hasName hfits
      obtain ⟨ch, hch, h⟩ := Option.bind_eq_some_iff.mp h
      by_cases hclose : ch = byte ']'
      · have hlen : (n.map byte).length = n.length := List.length_map ..
        rw [List.getElem?_append_right (by omega), hlen, Nat.sub_self] at hch
        obtain ⟨t, rfl⟩ : ∃ u, t = ch :: u := by
          cases t with
          | nil => cases hch
          | cons c u => exact ⟨u, by rw [Option.some.inj hch]⟩
        simp only [hclose, if_true] at h
        have hr : (n.map byte ++ byte ']' :: t).drop (n.length + 1) = t := by
          rw [← hlen, List.drop_length_add_append]
          rfl
        rw [hr] at h
        cases h
        exact ⟨_, List.mem_cons_self, by rw [hclose]⟩
      · exact hlater (ih (by simpa [hclose] using h))

theorem classRows_close {name : List UInt8} (h : classRows name ≠ []) : byte ']' ∉ name := by
  obtain ⟨row, hrow⟩ := List.exists_mem_of_ne_nil _ h
  obtain ⟨hmem, hname⟩ := List.mem_filter.mp hrow
  rw [← of_decide_eq_true hname]
  exact namedClasses_close row hmem

theorem reNamedClass_eq {name : List UInt8} (h : classRows name ≠ []) (set : ByteSet) :
    reNamedClass ((BracketItem.named name).text ++ r) set =
      some (some (r, BracketItem.add set (.named name))) := by
  obtain ⟨row, hrow⟩ : ∃ row, (classRows name).head? = some row :=
    ⟨_, List.head?_eq_some_head h⟩
  have hfind : namedClasses.find? (·.1.map byte = name) = some row := by
    rw [← List.head?_filter]
    exact hrow
  have hscan := scanClasses_eq (r := r) (classRows_close h) set namedClasses_close
  rw [hfind] at hscan
  simp only [reNamedClass, BracketItem.text, BracketItem.add, hrow, List.cons_append,
    List.append_assoc, List.nil_append, List.getElem?_cons_zero, List.getElem?_cons_succ,
    Option.bind_eq_bind, Option.bind_some, ne_eq, not_true_eq_false, if_false,
    List.drop_succ_cons, List.drop_zero, hscan]
  rfl

theorem of_reNamedClass {set set' : ByteSet} (h : reNamedClass p set = some (some (r, set'))) :
    ∃ name, classRows name ≠ [] ∧ p = (BracketItem.named name).text ++ r := by
  match p with
  | [] => simp [reNamedClass] at h
  | [a] => by_cases ha : a = byte '[' <;> simp [reNamedClass, ha] at h
  | a :: b :: q =>
    by_cases ha : a = byte '['
    · by_cases hb : b = byte ':'
      · simp only [reNamedClass, List.getElem?_cons_zero, List.getElem?_cons_succ,
          Option.bind_eq_bind, Option.bind_some, ha, hb, ne_eq, not_true_eq_false, if_false,
          List.drop_succ_cons, List.drop_zero] at h
        obtain ⟨row, hrow, rfl⟩ := of_scanClasses h
        refine ⟨row.1.map byte, List.ne_nil_of_mem (List.mem_filter.mpr ⟨hrow, by simp⟩), ?_⟩
        simp [BracketItem.text, ha, hb]
      · simp [reNamedClass, ha, hb] at h
    · simp [reNamedClass, ha] at h

/-! ### Items -/

namespace BracketItem

theorem isPair_class_eq (q : List UInt8) : isPair (byte '[') (byte ':') (q ++ byte ']' :: r) =
    some (decide ([byte '[', byte ':'] <+: q)) := by
  match q with
  | [] => rfl
  | [d] =>
    have hcolon : byte ']' ≠ byte ':' := by decide
    by_cases hd : d = byte '[' <;> simp [isPair, hd, hcolon, List.cons_prefix_cons]
  | d :: e :: q =>
    by_cases hd : d = byte '[' <;> simp [isPair, hd, List.cons_prefix_cons, eq_comm]

theorem reClassItem_of_not_class {q : List UInt8} (h : ¬ [byte '[', byte ':'] <+: q)
    (set : ByteSet) :
    reClassItem (q ++ byte ']' :: r) set = reClassRange (q ++ byte ']' :: r) set := by
  have hnamed : reNamedClass (q ++ byte ']' :: r) set = some none := by
    match q with
    | [] => rfl
    | [d] =>
      have hcolon : byte ']' ≠ byte ':' := by decide
      by_cases hd : d = byte '[' <;> simp [reNamedClass, hd, hcolon]
    | d :: e :: q =>
      rw [List.cons_prefix_cons, List.cons_prefix_cons] at h
      by_cases hd : d = byte '['
      · have he : e ≠ byte ':' := fun he => h ⟨hd.symm, he.symm, List.nil_prefix⟩
        simp [reNamedClass, hd, he]
      · simp [reNamedClass, hd]
  have hpair : isPair (byte '[') (byte ':') (q ++ byte ']' :: r) = some false := by
    rw [isPair_class_eq]
    simp [h]
  rw [reClassItem, hnamed]
  simp [hpair]

theorem reClassItem_eq {q : List UInt8} {i : BracketItem} (h : i.Fits q) (set : ByteSet) :
    reClassItem (i.text ++ (q ++ byte ']' :: r)) set =
      some (.ok (q ++ byte ']' :: r, add set i)) := by
  cases i with
  | one b =>
    obtain ⟨hb, hclass, hdash⟩ := h
    have hopen : ¬ [byte '[', byte ':'] <+: b.text ++ q := by
      rintro ⟨t, ht⟩
      cases b with
      | plain c =>
        obtain ⟨rfl, rfl⟩ := List.cons.inj ht
        exact hclass ⟨rfl, rfl⟩
      | escaped c =>
        have hne : byte '[' ≠ byte '\\' := by decide
        exact hne (List.cons.inj ht).1
    rw [text, ← List.append_assoc, reClassItem_of_not_class hopen, List.append_assoc,
      reClassRange, b.reParseEscape_eq hb]
    simp [isRangeDash_eq, hdash, add]
  | range first last =>
    obtain ⟨hfirst, hlast, hle⟩ := h
    have hopen : ¬ [byte '[', byte ':'] <+: first.text ++ (byte '-' :: last.text ++ q) := by
      rintro ⟨t, ht⟩
      cases first with
      | plain c =>
        have hne : byte ':' ≠ byte '-' := by decide
        exact hne (List.cons.inj (List.cons.inj ht).2).1
      | escaped c =>
        have hne : byte '[' ≠ byte '\\' := by decide
        exact hne (List.cons.inj ht).1
    have hdash : isRangeDash (byte '-' :: (last.text ++ (q ++ byte ']' :: r))) = some true := by
      obtain ⟨c, t, ht, h0, hclose⟩ := hlast.text_eq_cons
      simp [ht, isRangeDash, h0, hclose]
    have hassoc : (range first last).text ++ (q ++ byte ']' :: r) =
        first.text ++ (byte '-' :: last.text ++ q) ++ byte ']' :: r := by
      simp [text]
    rw [hassoc, reClassItem_of_not_class hopen, List.append_assoc, reClassRange,
      first.reParseEscape_eq hfirst]
    have hlt : ¬ last.value < first.value := UInt8.not_lt.mpr hle
    simp [hdash, last.reParseEscape_eq hlast, hlt, add]
  | named name =>
    rw [reClassItem, reNamedClass_eq h]
    rfl

/-- The first byte of an item neither ends the pattern nor closes the bracket. -/
theorem Fits.text_eq_cons {q : List UInt8} {i : BracketItem} (h : i.Fits q) :
    ∃ c t, i.text = c :: t ∧ c ≠ 0 ∧ c ≠ byte ']' := by
  cases i with
  | one b => exact h.1.text_eq_cons
  | range first last =>
    obtain ⟨c, t, ht, hc⟩ := h.1.text_eq_cons
    exact ⟨c, t ++ byte '-' :: last.text, by rw [text, ht, List.cons_append], hc⟩
  | named name => exact ⟨byte '[', _, rfl, by decide, by decide⟩

theorem of_reClassRange {q : List UInt8} {set set' : ByteSet}
    (h : reClassRange p set = some (.ok (q ++ byte ']' :: r, set')))
    (h0 : p[0]? ≠ some 0) (hclose : p[0]? ≠ some (byte ']'))
    (hclass : isPair (byte '[') (byte ':') p = some false) :
    ∃ i : BracketItem, i.Fits q ∧ p = i.text ++ (q ++ byte ']' :: r) := by
  unfold reClassRange at h
  obtain ⟨res, hres, h⟩ := Option.bind_eq_some_iff.mp h
  match res with
  | .error e => cases h
  | .ok (v, t) =>
    obtain ⟨first, hfirst, rfl, rfl⟩ := BracketByte.of_reParseEscape hres h0 hclose
    obtain ⟨dash, hdash, h⟩ := Option.bind_eq_some_iff.mp h
    cases dash with
    | false =>
      cases h
      rw [isRangeDash_eq, Option.some.injEq] at hdash
      refine ⟨.one first, ⟨hfirst, ?_, hdash⟩, rfl⟩
      rintro ⟨rfl, hcolon⟩
      obtain ⟨t, rfl⟩ := List.head?_eq_some_iff.mp hcolon
      simp [isPair, BracketByte.text] at hclass
    | true =>
      obtain ⟨res', hres', h⟩ := Option.bind_eq_some_iff.mp h
      match res' with
      | .error e => cases h
      | .ok (w, u) =>
        obtain ⟨t, rfl, hlast0, hlastClose⟩ := of_isRangeDash hdash
        obtain ⟨last, hlast, ht, rfl⟩ := BracketByte.of_reParseEscape hres' hlast0 hlastClose
        by_cases hlt : last.value < first.value
        · simp only [if_pos hlt] at h
          cases h
        · simp only [if_neg hlt] at h
          cases h
          refine ⟨.range first last, ⟨hfirst, hlast, UInt8.not_lt.mp hlt⟩, ?_⟩
          simp only [List.drop_succ_cons, List.drop_zero] at ht
          simp [text, ht]

theorem of_reClassItem {q : List UInt8} {set set' : ByteSet}
    (h : reClassItem p set = some (.ok (q ++ byte ']' :: r, set')))
    (h0 : p[0]? ≠ some 0) (hclose : p[0]? ≠ some (byte ']')) :
    ∃ i : BracketItem, i.Fits q ∧ p = i.text ++ (q ++ byte ']' :: r) := by
  unfold reClassItem at h
  obtain ⟨named, hnamed, h⟩ := Option.bind_eq_some_iff.mp h
  match named with
  | some (t, set'') =>
    cases h
    obtain ⟨name, hname, hp⟩ := of_reNamedClass hnamed
    exact ⟨.named name, hname, hp⟩
  | none =>
    obtain ⟨class', hclass, h⟩ := Option.bind_eq_some_iff.mp h
    cases class' with
    | true => cases h
    | false => exact of_reClassRange h h0 hclose hclass

theorem length_le_flatMap_text {items : List BracketItem} (h : Follow items) :
    items.length ≤ (items.flatMap text).length := by
  induction items with
  | nil => exact le_rfl
  | cons i items ih =>
    obtain ⟨c, t, ht, -⟩ := h.1.text_eq_cons
    have := ih h.2
    rw [List.flatMap_cons, List.length_append, ht, List.length_cons, List.length_cons]
    omega

/-- The scan reads a sequence of items to its end and adds them one after the other. -/
theorem reClassLoop_eq {items : List BracketItem} (h : Follow items) {n : ℕ}
    (hn : items.length < n) (set : ByteSet) :
    reClassLoop n (items.flatMap text ++ byte ']' :: r) set =
      some (.ok (byte ']' :: r, items.foldl add set)) := by
  induction items generalizing n set with
  | nil =>
    obtain ⟨n, rfl⟩ : ∃ m, n = m + 1 := ⟨n - 1, (Nat.sub_add_cancel hn).symm⟩
    simp [reClassLoop]
  | cons i items ih =>
    obtain ⟨n, rfl⟩ : ∃ m, n = m + 1 := ⟨n - 1, by omega⟩
    obtain ⟨hfits, hrest⟩ := h
    rw [List.length_cons] at hn
    obtain ⟨c, t, ht, h0, hclose⟩ := hfits.text_eq_cons
    have hitem := reClassItem_eq (r := r) hfits set
    have hget : (i.text ++ (items.flatMap text ++ byte ']' :: r))[0]? = some c := by simp [ht]
    rw [List.flatMap_cons, List.append_assoc, reClassLoop, hget]
    simp only [Option.bind_eq_bind, Option.bind_some, h0, hclose, or_self, if_false, hitem,
      List.foldl_cons]
    exact ih hrest (by omega) _

theorem of_reClassLoop {n : ℕ} {set set' : ByteSet}
    (h : reClassLoop n p set = some (.ok (byte ']' :: r, set'))) :
    ∃ items, Follow items ∧ p = items.flatMap text ++ byte ']' :: r := by
  induction n generalizing p set with
  | zero => cases h
  | succ n ih =>
    rw [reClassLoop] at h
    obtain ⟨c, hc, h⟩ := Option.bind_eq_some_iff.mp h
    split at h
    · cases h
      exact ⟨[], trivial, rfl⟩
    · rename_i hstop
      rw [not_or] at hstop
      obtain ⟨res, hres, h⟩ := Option.bind_eq_some_iff.mp h
      rcases res with e | ⟨t, set''⟩
      · cases h
      · obtain ⟨items, hitems, rfl⟩ := ih h
        obtain ⟨i, hi, rfl⟩ := of_reClassItem hres (by simp [hc, hstop.1]) (by simp [hc, hstop.2])
        exact ⟨i :: items, ⟨hi, hitems⟩, by simp⟩

end BracketItem

end Reading

/-! ## Whole brackets -/

namespace BracketExpr

variable {p r : List UInt8} {set : ByteSet}

def bitmap (b : BracketExpr) : ByteSet :=
  let set := b.items.foldl BracketItem.add
    (if b.leading then reSetChar ByteSet.empty (byte ']') else ByteSet.empty)
  if b.negated then set.complement else set

theorem has_bitmap (b : BracketExpr) (ch : UInt8) :
    b.bitmap.has ch = (b.negated != b.hasFirst ch) := by
  have hitems : (b.items.foldl BracketItem.add
      (if b.leading then reSetChar ByteSet.empty (byte ']') else ByteSet.empty)).has ch =
      b.hasFirst ch := by
    rw [BracketItem.has_foldl_add, hasFirst, Bool.or_comm]
    cases b.leading with
    | false => simp [has_empty]
    | true => simp [has_reSetChar, has_empty]
  rw [bitmap]
  cases b.negated with
  | false => simpa using hitems
  | true => simpa [has_complement] using hitems

theorem eq_cons_drop {a : UInt8} (h : p[0]? = some a) : p = [a] ++ p.drop 1 := by
  cases p with
  | nil => cases h
  | cons c p =>
    rw [Option.some.inj h]
    rfl

theorem body_eq_cons (b : BracketExpr) : ∃ c t, b.body ++ byte ']' :: r = c :: t ∧
    (c = byte ']' ↔ b.leading = true) ∧ (b.negated = false → c ≠ byte '^') := by
  cases hl : b.leading with
  | true => exact ⟨byte ']', b.items.flatMap BracketItem.text ++ byte ']' :: r,
      by simp [body, hl], by simp, fun _ => by decide⟩
  | false =>
    obtain ⟨i, items, hi⟩ := List.exists_cons_of_ne_nil (b.nonempty hl)
    have hfollow := b.follow
    rw [hi] at hfollow
    obtain ⟨c, t, ht, -, hclose⟩ := hfollow.1.text_eq_cons
    refine ⟨c, t ++ (items.flatMap BracketItem.text ++ byte ']' :: r), ?_, by simp [hclose], ?_⟩
    · simp [body, hl, hi, ht]
    · rintro hn rfl
      exact b.positive hn hl (by simp [hi, ht])

theorem reReadClass_eq (b : BracketExpr) (a : UInt8) :
    reReadClass (a :: (b.text ++ byte ']' :: r)) = some (.ok (r, b.bitmap)) := by
  obtain ⟨c, t, ht, hclose, hpositive⟩ := b.body_eq_cons (r := r)
  obtain ⟨x, hx, hnegated⟩ : ∃ x, (b.text ++ byte ']' :: r)[0]? = some x ∧
      (x = byte '^' ↔ b.negated = true) := by
    cases hn : b.negated with
    | true => exact ⟨byte '^', by simp [text, hn], by simp⟩
    | false => exact ⟨c, by simp [text, hn, ht], by simp [hpositive hn]⟩
  have hbody : (if x = byte '^' then (b.text ++ byte ']' :: r).drop 1
      else b.text ++ byte ']' :: r) = b.body ++ byte ']' :: r := by
    rw [text]
    simp only [hnegated]
    cases b.negated <;> simp
  have hitems : (if c = byte ']' then (b.body ++ byte ']' :: r).drop 1
      else b.body ++ byte ']' :: r) = b.items.flatMap BracketItem.text ++ byte ']' :: r := by
    rw [body]
    simp only [hclose]
    cases b.leading <;> simp
  have hget : (b.body ++ byte ']' :: r)[0]? = some c := by rw [ht]; rfl
  have hbound : b.items.length <
      (b.items.flatMap BracketItem.text ++ byte ']' :: r).length + 1 := by
    have := BracketItem.length_le_flatMap_text b.follow
    rw [List.length_append]
    omega
  have hloop := BracketItem.reClassLoop_eq (r := r) b.follow hbound
    (if c = byte ']' then reSetChar ByteSet.empty (byte ']') else ByteSet.empty)
  rw [reReadClass]
  simp only [List.drop_succ_cons, List.drop_zero, Option.bind_eq_bind, Option.bind_some, hx, hbody,
    hget, hitems, hloop, List.getElem?_cons_zero, ne_eq, not_true_eq_false, if_false]
  simp only [hnegated, hclose]
  rfl

theorem of_reReadClass (h : reReadClass p = some (.ok (r, set))) :
    ∃ b : BracketExpr, p.drop 1 = b.text ++ byte ']' :: r := by
  unfold reReadClass at h
  obtain ⟨x, hx, h⟩ := Option.bind_eq_some_iff.mp h
  obtain ⟨c, hc, h⟩ := Option.bind_eq_some_iff.mp h
  obtain ⟨res, hres, h⟩ := Option.bind_eq_some_iff.mp h
  match res with
  | .error e => cases h
  | .ok ([], set') => cases h
  | .ok (y :: q, set') =>
    simp only [List.getElem?_cons_zero, Option.bind_eq_bind, Option.bind_some] at h
    split at h
    · cases h
    rename_i hy
    rw [not_not.mp hy] at hres
    cases h
    obtain ⟨items, hitems, hp⟩ := BracketItem.of_reClassLoop hres
    have hnegated : p.drop 1 = (if x = byte '^' then [byte '^'] else []) ++
        (if x = byte '^' then (p.drop 1).drop 1 else p.drop 1) := by
      split
      · rename_i he
        exact eq_cons_drop (he ▸ hx)
      · rfl
    generalize (if x = byte '^' then (p.drop 1).drop 1 else p.drop 1) = u at *
    have hleading : u = (if c = byte ']' then [byte ']'] else []) ++
        (if c = byte ']' then u.drop 1 else u) := by
      split
      · rename_i he
        exact eq_cons_drop (he ▸ hc)
      · rfl
    rw [hp] at hleading
    refine ⟨⟨decide (x = byte '^'), decide (c = byte ']'), items, hitems, ?_, ?_⟩,
      hnegated.trans ?_⟩
    · rintro hclose rfl
      rw [if_neg (of_decide_eq_false hclose)] at hleading
      rw [hleading] at hc
      exact of_decide_eq_false hclose (Option.some.inj hc).symm
    · rintro hneg hclose hhead
      obtain ⟨t, ht⟩ := List.head?_eq_some_iff.mp hhead
      rw [if_neg (of_decide_eq_false hclose), ht] at hleading
      rw [hnegated, if_neg (of_decide_eq_false hneg), hleading] at hx
      exact of_decide_eq_false hneg (Option.some.inj hx).symm
    · simp [hleading, text, body]

/-- What a later row of a class has, another item or the first row of a class has. -/
def RowsCovered (b : BracketExpr) : Prop :=
  ∀ i ∈ b.items, ∀ row ∈ i.laterRows, ∀ ch, row.has ch = true → b.hasFirst ch = true

theorem has_of_hasFirst {b : BracketExpr} {ch : UInt8} (h : b.hasFirst ch = true) :
    b.has ch = true := by
  rw [hasFirst, Bool.or_eq_true, List.any_eq_true] at h
  rw [has, Bool.or_eq_true, List.any_eq_true]
  refine h.imp_right ?_
  rintro ⟨i, hi, hch⟩
  exact ⟨i, hi, (i.has_iff ch).mpr (.inl hch)⟩

theorem rowsCovered_iff (b : BracketExpr) :
    b.RowsCovered ↔ ∀ ch, b.hasFirst ch = b.has ch := by
  constructor
  · intro h ch
    rw [Bool.eq_iff_iff]
    refine ⟨has_of_hasFirst, fun hch => ?_⟩
    rw [has, Bool.or_eq_true, List.any_eq_true] at hch
    rcases hch with hch | ⟨i, hi, hch⟩
    · rw [hasFirst, hch, Bool.true_or]
    rcases (i.has_iff ch).mp hch with hfirst | ⟨row, hrow, hlater⟩
    · rw [hasFirst, Bool.or_eq_true, List.any_eq_true]
      exact .inr ⟨i, hi, hfirst⟩
    · exact h i hi row hrow ch hlater
  · intro h i hi row hrow ch hch
    rw [h, has, Bool.or_eq_true, List.any_eq_true]
    exact .inr ⟨i, hi, (i.has_iff ch).mpr (.inr ⟨row, hrow, hch⟩)⟩

end BracketExpr

section Compiled

variable {c d : ReCompiler} {index : ℕ}

/-- The instruction that `re_compile_class` emits, and where it leaves the cursor. -/
theorem reCompileClass_emits (h : reCompileClass c = some (some index, d)) :
    ∃ set, reReadClass c.cursor = some (.ok (d.cursor, set)) ∧
      d.program[index]? = some { op := .reClass, set := set } := by
  unfold reCompileClass at h
  obtain ⟨res, hres, h⟩ := Option.bind_eq_some_iff.mp h
  match res with
  | .error e => cases h
  | .ok (p, set) =>
    refine ⟨set, ?_⟩
    rcases he : reEmit c .reClass with ⟨_ | k, e⟩
    · simp only [he] at h
      cases h
    · simp only [he] at h
      cases h
      obtain ⟨rfl, hprogram⟩ := reEmit_program he
      refine ⟨hres, ?_⟩
      simp only [ReCompiler.modifyInst, hprogram, ReCompiler.length, modify_concat]
      exact List.getElem?_concat_length

/-- The set of an accepted bracket has the union of its items when the later rows add nothing. -/
theorem class_stores_union_iff (h : reCompileClass c = some (some index, d)) :
    (∃ b : BracketExpr, c.cursor.drop 1 = b.text ++ byte ']' :: d.cursor) ∧
    ∀ (b : BracketExpr) (r : List UInt8), c.cursor.drop 1 = b.text ++ byte ']' :: r →
      ∃ inst, d.program[index]? = some inst ∧ inst.op = .reClass ∧
        ((∀ ch, inst.set.has ch = (b.negated != b.has ch)) ↔ b.RowsCovered) := by
  obtain ⟨set, hread, hinst⟩ := reCompileClass_emits h
  refine ⟨BracketExpr.of_reReadClass hread, fun b r hb => ⟨_, hinst, rfl, ?_⟩⟩
  obtain ⟨a, ha⟩ : ∃ a, c.cursor = a :: (b.text ++ byte ']' :: r) := by
    cases hc : c.cursor with
    | nil => simp [hc] at hb
    | cons a p => exact ⟨a, by rw [← hb, hc]; rfl⟩
  rw [ha, b.reReadClass_eq] at hread
  cases hread
  rw [b.rowsCovered_iff]
  refine forall_congr' fun ch => ?_
  rw [b.has_bitmap]
  exact Bool.xor_right_inj

end Compiled

def atPattern (pattern : List UInt8) : ReCompiler :=
  { cursor := pattern, cflags := 0, extended := false, heap := .unlimited }

def digitBracket : BracketExpr where
  negated := false
  leading := false
  items := [.range (.plain (byte '0')) (.plain (byte '9'))]
  follow := by
    simp only [BracketItem.Follow, BracketItem.Fits, BracketByte.legal, BracketByte.value]
    decide
  nonempty := by simp
  positive := by decide

theorem digitBracket_stored : ∃ d inst,
    reCompileClass (atPattern (byte '[' :: (digitBracket.text ++ [byte ']', 0]))) =
      some (some 0, d) ∧
    d.program[0]? = some inst ∧
      ∀ ch, inst.set.has ch = (digitBracket.negated != digitBracket.has ch) := by
  obtain ⟨d, h⟩ : ∃ d, reCompileClass (atPattern (byte '[' :: (digitBracket.text ++
    [byte ']', 0]))) = some (some 0, d) := ⟨_, rfl⟩
  obtain ⟨inst, hinst, -, hiff⟩ := (class_stores_union_iff h).2 digitBracket [0] rfl
  have hcovered : digitBracket.RowsCovered := by
    simp [BracketExpr.RowsCovered, digitBracket, BracketItem.laterRows]
  exact ⟨d, inst, h, hinst, hiff.mpr hcovered⟩

def alphaBracket : BracketExpr where
  negated := false
  leading := false
  items := [.named [byte 'a', byte 'l', byte 'p', byte 'h', byte 'a', byte ':']]
  follow := ⟨by simp only [BracketItem.Fits]; decide, trivial⟩
  nonempty := by simp
  positive := by decide

/-- The upper-case row of the table is never reached. -/
theorem alphaBracket_not_stored : ∃ d inst,
    reCompileClass (atPattern (byte '[' :: (alphaBracket.text ++ [byte ']', 0]))) =
      some (some 0, d) ∧
    d.program[0]? = some inst ∧
      ¬ ∀ ch, inst.set.has ch = (alphaBracket.negated != alphaBracket.has ch) :=
  ⟨_, _, rfl, rfl, fun h => absurd (h (byte 'A')) (by decide)⟩

/-! ## Negation and case -/

def BracketExpr.negate (b : BracketExpr) : BracketExpr :=
  { b with negated := true, positive := fun h => nomatch h }

theorem BracketExpr.text_negate {b : BracketExpr} (h : b.negated = false) :
    b.negate.text = byte '^' :: b.text := by
  simp only [text, negate, body, h, if_true, Bool.false_eq_true, if_false]
  rfl

theorem reConsumes_class {s : Subject} {set : ByteSet} {pos : ℕ} (hpos : pos < s.length) :
    reConsumes s { op := .reClass, set := set } pos =
      reClassMatch { op := .reClass, set := set } (s.byteAt pos) s.cflags := by
  simp [reConsumes, Nat.not_le.mpr hpos]

/-- A set and its complement part the bytes when folding cannot leave the set. -/
theorem reClassMatch_complement_iff {set set' : ByteSet} {cflags : UInt32} {ch : UInt8}
    (h : ∀ ch, set'.has ch = !set.has ch) :
    (reClassMatch { op := .reClass, set := set' } ch cflags =
        !reClassMatch { op := .reClass, set := set } ch cflags) ↔
      (hasFlag cflags regIcase = true → set.has (tolower ch) = set.has (toupper ch)) := by
  by_cases hicase : hasFlag cflags regIcase = true
  · rw [reClassMatch_icase hicase, reClassMatch_icase hicase, h, h]
    cases set.has (tolower ch) <;> cases set.has (toupper ch) <;> simp [hicase]
  · have hplain : ∀ inst : ReInst, reClassMatch inst ch cflags = inst.set.has ch := by
      intro inst
      simp [reClassMatch, hicase]
    rw [hplain, hplain, h]
    simp [hicase]

/--
`[^S]` consumes what `[S]` does not, except under `REG_ICASE` the letters that `S` has in
one case only.
-/
theorem negation_consumes_iff {S r r' : List UInt8} {c d c' d' : ReCompiler} {index index' : ℕ}
    (hS : S.head? ≠ some (byte '^')) (hc : c.cursor = byte '[' :: (S ++ byte ']' :: r))
    (h : reCompileClass c = some (some index, d)) (hd : d.cursor = r)
    (hc' : c'.cursor = byte '[' :: byte '^' :: (S ++ byte ']' :: r'))
    (h' : reCompileClass c' = some (some index', d')) :
    (∃ b : BracketExpr, b.negated = false ∧ b.text = S) ∧
    ∀ b : BracketExpr, b.negated = false → b.text = S →
      ∃ inst inst', d.program[index]? = some inst ∧ d'.program[index']? = some inst' ∧
        ∀ (s : Subject) (pos : ℕ), pos < s.length →
          ((reConsumes s inst' pos = !reConsumes s inst pos) ↔
            (hasFlag s.cflags regIcase = true →
              b.hasFirst (tolower (s.byteAt pos)) = b.hasFirst (toupper (s.byteAt pos)))) := by
  obtain ⟨set, hread, hinst⟩ := reCompileClass_emits h
  obtain ⟨set', hread', hinst'⟩ := reCompileClass_emits h'
  constructor
  · obtain ⟨b, hb⟩ := BracketExpr.of_reReadClass hread
    rw [hc, List.drop_succ_cons, List.drop_zero, hd] at hb
    have htext : b.text = S := (List.append_cancel_right hb).symm
    refine ⟨b, ?_, htext⟩
    cases hn : b.negated with
    | false => rfl
    | true =>
      refine absurd ?_ hS
      simp [← htext, BracketExpr.text, hn]
  · rintro b hn rfl
    refine ⟨_, _, hinst, hinst', fun s pos hpos => ?_⟩
    rw [hc, b.reReadClass_eq] at hread
    rw [hc', ← List.cons_append, ← BracketExpr.text_negate hn, b.negate.reReadClass_eq] at hread'
    cases hread
    cases hread'
    rw [reConsumes_class hpos, reConsumes_class hpos, reClassMatch_complement_iff]
    · simp only [b.has_bitmap, hn, Bool.false_bne]
    · intro ch
      rw [b.has_bitmap, b.negate.has_bitmap, hn]
      simp [BracketExpr.negate, BracketExpr.hasFirst]

def letterBracket : BracketExpr where
  negated := false
  leading := false
  items := [.one (.plain (byte 'a'))]
  follow := by
    simp only [BracketItem.Follow, BracketItem.Fits, BracketByte.legal]
    decide
  nonempty := by simp
  positive := by decide

theorem digitBracket_negated : ∃ d d' inst inst',
    reCompileClass (atPattern (byte '[' :: (digitBracket.text ++ [byte ']', 0]))) =
      some (some 0, d) ∧
    reCompileClass (atPattern (byte '[' :: byte '^' :: (digitBracket.text ++ [byte ']', 0]))) =
      some (some 0, d') ∧
    d.program[0]? = some inst ∧ d'.program[0]? = some inst' ∧
      reConsumes ⟨litA, regIcase, 0⟩ inst' 0 = !reConsumes ⟨litA, regIcase, 0⟩ inst 0 := by
  obtain ⟨d, h, hd⟩ : ∃ d, reCompileClass (atPattern (byte '[' :: (digitBracket.text ++
    byte ']' :: [0]))) = some (some 0, d) ∧ d.cursor = [0] := ⟨_, rfl, rfl⟩
  obtain ⟨d', h'⟩ : ∃ d, reCompileClass (atPattern (byte '[' :: byte '^' :: (digitBracket.text ++
    byte ']' :: [0]))) = some (some 0, d) := ⟨_, rfl⟩
  obtain ⟨inst, inst', hinst, hinst', hiff⟩ :=
    (negation_consumes_iff (by decide) rfl h hd rfl h').2 digitBracket rfl rfl
  exact ⟨d, d', inst, inst', h, h', hinst, hinst',
    (hiff ⟨litA, regIcase, 0⟩ 0 (by decide)).mpr fun _ => by decide⟩

/-- With `REG_ICASE` both `[a]` and `[^a]` consume an `a`. -/
theorem letterBracket_not_negated : ∃ d d' inst inst',
    reCompileClass (atPattern (byte '[' :: (letterBracket.text ++ [byte ']', 0]))) =
      some (some 0, d) ∧
    reCompileClass (atPattern (byte '[' :: byte '^' :: (letterBracket.text ++ [byte ']', 0]))) =
      some (some 0, d') ∧
    d.program[0]? = some inst ∧ d'.program[0]? = some inst' ∧
      ¬ reConsumes ⟨litA, regIcase, 0⟩ inst' 0 = !reConsumes ⟨litA, regIcase, 0⟩ inst 0 :=
  ⟨_, _, _, _, rfl, rfl, rfl, rfl, by decide +kernel⟩

end LampUserspace.Regex
