import LampUserspace.Memory.Bytes
import LampUserspace.Stdio.Scanning

/-! # What the scanner stores

A format tells how many pointers `sscanf` takes and how many bytes it may store
through each of them. Whatever the input, the stores go through these pointers in
their order and stay within these sizes.
-/

namespace LampUserspace.Stdio

/-! ## Conversions of a format -/

structure Specifier where
  suppress : Bool
  width : ℤ
  length : ℕ
  char : UInt8

/-- The conversion from the byte after its `%` on, and the format behind it. -/
def readSpecifier (fmt : List UInt8) : Specifier × List UInt8 :=
  let (width, p) := readNumber 0 (unstarred fmt)
  let (length, p) := scanLength p
  (⟨fmt.head? = some (byte '*'), width, length, p.head?.getD 0⟩, p.tail)

namespace Specifier

/-- The conversions of numbers, and `n`. -/
def numeric (c : Specifier) : Bool :=
  c.char ∈ [byte 'n', byte 'd', byte 'i', byte 'u', byte 'x', byte 'X', byte 'o', byte 'p']

/-- Another character ends the scan. -/
def known (c : Specifier) : Bool :=
  c.char ∈ [byte '%', byte 'c', byte 's'] || c.numeric

/-- The bytes that the conversion may store through its pointer when the input has `n` bytes,
`none` when it takes no pointer. -/
def room (n : ℕ) (c : Specifier) : Option ℕ :=
  if c.suppress = true ∨ c.char = byte '%' then none
  else if c.char = byte 'c' then some (if c.width ≠ 0 then c.width else 1).toNat
  else if c.char = byte 's' then some ((if c.width = 0 then n else c.width.toNat) + 1)
  else if c.numeric then some (if c.length = 2 ∧ c.char ≠ byte 'p' then 8 else 4)
  else none

end Specifier

theorem length_readSpecifier (fmt : List UInt8) :
    (readSpecifier fmt).2.length ≤ fmt.length := by
  have hlength : ∀ p : List UInt8, (scanLength p).2.length ≤ p.length := by
    intro p
    unfold scanLength
    split
    · split <;> simp only [List.length_tail] <;> omega
    · exact Nat.le_refl _
  have hstar : (unstarred fmt).length ≤ fmt.length := by
    unfold unstarred
    split
    · simp
    · exact Nat.le_refl _
  have hnumber := length_readNumber 0 (unstarred fmt)
  have hbehind := hlength (readNumber 0 (unstarred fmt)).2
  change (scanLength (readNumber 0 (unstarred fmt)).2).2.tail.length ≤ _
  rw [List.length_tail]
  omega

def specifiers (fmt : List UInt8) : List Specifier :=
  match fmt with
  | [] => []
  | c :: fmt =>
    if c ≠ byte '%' then specifiers fmt
    else (readSpecifier fmt).1 :: specifiers (readSpecifier fmt).2
termination_by fmt.length
decreasing_by
  · exact Nat.lt_succ_self _
  · exact Nat.lt_succ_of_le (length_readSpecifier _)

/-- The rooms behind the pointers that a format takes, in their order. -/
def rooms (n : ℕ) (fmt : List UInt8) : List ℕ :=
  ((specifiers fmt).takeWhile Specifier.known).flatMap fun c => (c.room n).toList

theorem scanDirective_specifier (str fmt : List UInt8) (s : Scan) :
    scanDirective str fmt s =
      (scanConversion str (readSpecifier fmt).1.char (readSpecifier fmt).1.suppress
        (readSpecifier fmt).1.width (readSpecifier fmt).1.length s).map fun r =>
          (r.1, (readSpecifier fmt).2, r.2) :=
  scanDirective_eq str fmt s

/-! ## One conversion -/

def Store.image : Store → List UInt8
  | .word v => Memory.wordBytes v.toNat
  | .dword v => Memory.wordBytes v.toNat ++ Memory.wordBytes (v.toNat / 2 ^ 32)
  | .bytes s => s

theorem length_stored (length : ℕ) (v : UInt64) :
    (stored length v).image.length = if length = 2 then 8 else 4 := by
  unfold stored
  split <;> rfl

/-- A store that goes through the pointer of a slot and stays within its room. -/
def Fits (store : ℕ × Store) (slot : ℕ × ℕ) : Prop :=
  store.1 = slot.1 ∧ store.2.image.length ≤ slot.2

structure Unstored (s s' : Scan) : Prop where
  ap : s'.ap = s.ap
  stores : s'.stores = s.stores
  assigned : s'.assigned = s.assigned
  input : s'.input.length ≤ s.input.length

/-- The next pointer is taken, and one store goes through it. -/
structure Stores (room : ℕ) (s s' : Scan) : Prop where
  store : ∃ st, s'.stores = s.stores ++ [st] ∧ s.ap = st.1 :: s'.ap ∧ st.2.image.length ≤ room
  assigned : s'.assigned ≤ s.assigned + 1
  input : s'.input.length ≤ s.input.length

def Ends (s : Scan) (r : Bool × Scan) : Prop :=
  r.1 = false ∧ r.2.stores = s.stores ∧ r.2.assigned = s.assigned

section Conversion

variable {s : Scan} {p n k : ℕ} {ap : List ℕ} {width : ℤ} {str : List UInt8}

theorem store_next (h : s.ap = p :: ap) (v : Store) :
    s.store false v = some { s with ap := ap, stores := s.stores ++ [(p, v)] } := by
  simp [Scan.store, Scan.vaArg, h]

def charCount (width : ℤ) : ℤ := if width ≠ 0 then width else 1

theorem charCount_nonneg (hwidth : 0 ≤ width) : 0 ≤ charCount width := by
  unfold charCount
  split <;> omega

theorem scanChars_eq (hwidth : 0 ≤ width) (str : List UInt8) (suppress : Bool) (s : Scan) :
    scanChars str suppress width s =
      (s.store suppress (.bytes (s.input.take (charCount width).toNat))).map fun s' =>
        if s.input.length < charCount width then (false, s')
        else (true, { s'.count suppress with input := s.input.drop (charCount width).toNat }) := by
  have hcount := charCount_nonneg hwidth
  unfold scanChars
  change (s.store suppress (.bytes (s.input.take (charCount width).toNat))).bind _ = _
  rw [Option.map_eq_bind]
  congr 1
  funext s'
  change (if s.input.length < charCount width then _ else if 0 ≤ charCount width then _ else _) = _
  rw [if_pos hcount]
  exact (apply_ite some ..).symm

theorem scanChars_suppressed (hwidth : 0 ≤ width) (str : List UInt8) (s : Scan) :
    ∃ r, scanChars str true width s = some r ∧ Unstored s r.2 := by
  refine ⟨_, scanChars_eq hwidth str true s, ?_⟩
  split
  · exact ⟨rfl, rfl, rfl, Nat.le_refl _⟩
  · exact ⟨rfl, rfl, rfl, (List.drop_suffix ..).length_le⟩

theorem scanChars_stores (h : s.ap = p :: ap) (hwidth : 0 ≤ width) (str : List UInt8) :
    ∃ r, scanChars str false width s = some r ∧ Stores (charCount width).toNat s r.2 := by
  have hroom : (Store.bytes (s.input.take (charCount width).toNat)).image.length ≤
      (charCount width).toNat := List.length_take_le ..
  rw [scanChars_eq hwidth, store_next h]
  refine ⟨_, rfl, ?_⟩
  split
  · exact ⟨⟨_, rfl, h, hroom⟩, Nat.le_succ _, Nat.le_refl _⟩
  · exact ⟨⟨_, rfl, h, hroom⟩, Nat.le_refl _, (List.drop_suffix ..).length_le⟩

def scanWord (width : ℤ) (input : List UInt8) : List UInt8 :=
  let word := input.takeWhile fun c => !scanSpace c
  if width = 0 then word else word.take width.toNat

theorem length_scanWord {input : List UInt8} (h : input.length ≤ n) (width : ℤ) :
    (scanWord width input).length ≤ if width = 0 then n else width.toNat := by
  have hword : (input.takeWhile fun c => !scanSpace c).length ≤ input.length :=
    (List.takeWhile_prefix _).length_le
  unfold scanWord
  dsimp only
  split
  · exact hword.trans h
  · exact List.length_take_le ..

theorem scanString_eq (suppress : Bool) (width : ℤ) (s : Scan) :
    scanString suppress width s =
      if scanWord width (s.input.dropWhile scanSpace) = [] then
        (if suppress then some s else s.vaArg.map (·.2)).map fun s' =>
          (false, { s' with input := s.input.dropWhile scanSpace })
      else
        (s.store suppress (.bytes (scanWord width (s.input.dropWhile scanSpace) ++ [0]))).map
          fun s' => (true, { s'.count suppress with
            input := (s.input.dropWhile scanSpace).drop
              (scanWord width (s.input.dropWhile scanSpace)).length }) := by
  unfold scanString scanWord
  cases suppress
  · simp only [Option.map_eq_bind, Bool.false_eq_true, if_false]
    rfl
  · rfl

theorem scanString_suppressed (width : ℤ) (s : Scan) :
    ∃ r, scanString true width s = some r ∧ Unstored s r.2 := by
  have hspace : (s.input.dropWhile scanSpace).length ≤ s.input.length :=
    (List.dropWhile_suffix _).length_le
  rw [scanString_eq]
  split
  · exact ⟨_, rfl, rfl, rfl, rfl, hspace⟩
  · refine ⟨_, rfl, rfl, rfl, rfl, ?_⟩
    exact (List.drop_suffix ..).length_le.trans hspace

theorem scanString_stores (h : s.ap = p :: ap) (hn : s.input.length ≤ n) (width : ℤ) :
    ∃ r, scanString false width s = some r ∧
      (Stores ((if width = 0 then n else width.toNat) + 1) s r.2 ∨ Ends s r) := by
  have hspace : (s.input.dropWhile scanSpace).length ≤ s.input.length :=
    (List.dropWhile_suffix _).length_le
  rw [scanString_eq, store_next h, Scan.vaArg, h]
  split
  · exact ⟨_, rfl, .inr ⟨rfl, rfl, rfl⟩⟩
  · refine ⟨_, rfl, .inl ⟨⟨_, rfl, h, ?_⟩, Nat.le_refl _, ?_⟩⟩
    · simp only [Store.image, List.length_append, List.length_singleton]
      exact Nat.add_le_add_right (length_scanWord (hspace.trans hn) width) 1
    · exact (List.drop_suffix ..).length_le.trans hspace

theorem length_scanLoop (width base : ℤ) (value : UInt64) (consumed : ℕ) (p : List UInt8) :
    (scanLoop width base value consumed p).2.2.length ≤ p.length := by
  fun_induction scanLoop width base value consumed p <;> simp_all; omega

theorem length_strtoulBase (base : ℤ) (p : List UInt8) :
    (Stdlib.strtoulBase base p).2.length ≤ p.length := by
  unfold Stdlib.strtoulBase
  split
  · split
    · split <;> simp
    · simp
  · split <;> simp

theorem length_tail_if (c : Prop) [Decidable c] (p : List UInt8) :
    (if c then p.tail else p).length ≤ p.length := by
  split
  · simp
  · exact Nat.le_refl _

theorem length_scanUnsigned {input rest : List UInt8} {w : UInt64} {base : ℤ}
    (h : scanUnsigned input width base = some (w, rest)) : rest.length ≤ input.length := by
  rw [scanUnsigned_unplussed] at h
  dsimp only at h
  split at h
  · cases h
  · obtain ⟨-, rfl⟩ := Prod.mk.inj (Option.some.inj h)
    refine (length_scanLoop ..).trans ((length_strtoulBase ..).trans ?_)
    exact (length_tail_if ..).trans (List.dropWhile_suffix _).length_le

theorem scanInteger_outcome {spec : UInt8} {suppress : Bool} {length : ℕ} :
    ∃ input, input.length ≤ s.input.length ∧ ((scanInteger spec suppress width length s =
      some (false, { s with input := input })) ∨
      ∃ v, scanInteger spec suppress width length s =
        (s.store suppress (stored (if spec = byte 'p' then 0 else length) v)).map fun s' =>
          (true, { s'.count suppress with input := input })) := by
  unfold scanInteger
  dsimp only
  generalize hinput : (if (spec = byte 'd' ∨ spec = byte 'i') ∧
      ((s.input.dropWhile scanSpace).head? = some (byte '-') ∨
        (s.input.dropWhile scanSpace).head? = some (byte '+'))
    then (s.input.dropWhile scanSpace).tail else s.input.dropWhile scanSpace) = input
  have hle : input.length ≤ s.input.length :=
    hinput ▸ (length_tail_if ..).trans (List.dropWhile_suffix _).length_le
  split
  · exact ⟨input, hle, .inl rfl⟩
  · rename_i v rest hread
    refine ⟨rest, (length_scanUnsigned hread).trans hle, .inr ⟨
      if (spec = byte 'd' ∨ spec = byte 'i') ∧
        (s.input.dropWhile scanSpace).head? = some (byte '-') then -v else v, ?_⟩⟩
    rw [Option.map_eq_bind]
    rfl

theorem scanInteger_suppressed (spec : UInt8) (width : ℤ) (length : ℕ) (s : Scan) :
    ∃ r, scanInteger spec true width length s = some r ∧ Unstored s r.2 := by
  obtain ⟨input, hle, heq | ⟨v, heq⟩⟩ := @scanInteger_outcome s width spec true length
  · exact ⟨_, heq, rfl, rfl, rfl, hle⟩
  · exact ⟨_, heq, rfl, rfl, rfl, hle⟩

theorem scanInteger_stores (h : s.ap = p :: ap) (spec : UInt8) (width : ℤ) (length : ℕ) :
    ∃ r, scanInteger spec false width length s = some r ∧
      (Stores (if length = 2 ∧ spec ≠ byte 'p' then 8 else 4) s r.2 ∨ Ends s r) := by
  obtain ⟨input, hle, heq | ⟨v, heq⟩⟩ := @scanInteger_outcome s width spec false length
  · exact ⟨_, heq, .inr ⟨rfl, rfl, rfl⟩⟩
  · rw [store_next h] at heq
    refine ⟨_, heq, .inl ⟨⟨_, rfl, h, ?_⟩, Nat.le_refl _, hle⟩⟩
    rw [length_stored]
    by_cases hp : spec = byte 'p'
    · simp [hp]
    · simp [hp]

theorem scanConversion_unknown {c : Specifier} (h : c.known = false) (str : List UInt8)
    (s : Scan) :
    scanConversion str c.char c.suppress c.width c.length s = some (false, s) := by
  simp only [Specifier.known, Specifier.numeric, Bool.or_eq_false_iff, decide_eq_false_iff_not,
    List.mem_cons, List.not_mem_nil, or_false, not_or] at h
  unfold scanConversion
  simp [h]

theorem scanConversion_roomless {c : Specifier} (h : c.room n = none) (hknown : c.known = true)
    (hwidth : 0 ≤ c.width) (str : List UInt8) (s : Scan) :
    ∃ r, scanConversion str c.char c.suppress c.width c.length s = some r ∧
      Unstored s r.2 := by
  unfold scanConversion
  by_cases hpercent : c.char = byte '%'
  · rw [if_pos hpercent]
    split
    · exact ⟨_, rfl, rfl, rfl, rfl, Nat.le_refl _⟩
    · exact ⟨_, rfl, rfl, rfl, rfl, by simp⟩
  have hsuppress : c.suppress = true := by
    by_contra hsuppress
    simp only [Specifier.room, hsuppress, hpercent, or_self, if_false] at h
    simp only [Specifier.known, List.mem_cons, List.not_mem_nil, hpercent, or_false, false_or,
      Bool.or_eq_true, decide_eq_true_eq] at hknown
    grind
  rw [if_neg hpercent, hsuppress]
  split
  · exact scanChars_suppressed hwidth str s
  split
  · exact scanString_suppressed c.width s
  split
  · exact ⟨_, rfl, rfl, rfl, rfl, Nat.le_refl _⟩
  split
  · exact scanInteger_suppressed c.char c.width c.length s
  · exact ⟨_, rfl, rfl, rfl, rfl, Nat.le_refl _⟩

theorem scanConversion_stores {c : Specifier} (h : c.room n = some k) (hap : s.ap = p :: ap)
    (hwidth : 0 ≤ c.width) (hn : s.input.length ≤ n) (str : List UInt8) :
    ∃ r, scanConversion str c.char c.suppress c.width c.length s = some r ∧
      (Stores k s r.2 ∨ Ends s r) := by
  unfold Specifier.room at h
  split at h
  · cases h
  rename_i hdirect
  obtain ⟨hsuppress, hpercent⟩ := not_or.mp hdirect
  rw [Bool.not_eq_true] at hsuppress
  unfold scanConversion
  rw [hsuppress, if_neg hpercent]
  split at h
  · rename_i hc
    rw [if_pos hc, ← Option.some.inj h]
    obtain ⟨r, hr, hstores⟩ := scanChars_stores hap hwidth str
    exact ⟨r, hr, .inl hstores⟩
  split at h
  · rename_i hc hs
    rw [if_neg hc, if_pos hs, ← Option.some.inj h]
    exact scanString_stores hap hn c.width
  split at h
  · rename_i hc hs hnumeric
    rw [if_neg hc, if_neg hs, ← Option.some.inj h]
    by_cases hcount : c.char = byte 'n'
    · rw [if_pos hcount, store_next hap]
      refine ⟨_, rfl, .inl ⟨⟨_, rfl, hap, ?_⟩, Nat.le_succ _, Nat.le_refl _⟩⟩
      have hp : byte 'n' ≠ byte 'p' := by decide
      rw [length_stored]
      simp [hcount, hp]
    · have hmem : c.char ∈ [byte 'd', byte 'i', byte 'u', byte 'x', byte 'X', byte 'o',
          byte 'p'] := by
        simpa [Specifier.numeric, hcount] using hnumeric
      rw [if_neg hcount, if_pos hmem]
      exact scanInteger_stores hap c.char c.width c.length
  · cases h

end Conversion

/-! ## The whole format -/

section Format

variable {c : UInt8} {fmt : List UInt8} {n : ℕ} {s : Scan}

theorem specifiers_of_ne (h : c ≠ byte '%') (fmt : List UInt8) :
    specifiers (c :: fmt) = specifiers fmt := by
  rw [specifiers, if_pos h]

theorem specifiers_percent (fmt : List UInt8) :
    specifiers (byte '%' :: fmt) = (readSpecifier fmt).1 :: specifiers (readSpecifier fmt).2 := by
  rw [specifiers, if_neg (not_not.mpr rfl)]

theorem specifiers_unspaced (fmt : List UInt8) :
    specifiers (fmt.dropWhile scanSpace) = specifiers fmt := by
  induction fmt with
  | nil => rfl
  | cons c fmt ih =>
    by_cases hspace : scanSpace c = true
    · have hne : c ≠ byte '%' := by
        rintro rfl
        exact absurd hspace (by decide)
      rw [List.dropWhile_cons_of_pos hspace, ih, specifiers_of_ne hne]
    · rw [List.dropWhile_cons_of_neg hspace]

theorem rooms_congr {fmt fmt' : List UInt8} (h : specifiers fmt = specifiers fmt') (n : ℕ) :
    rooms n fmt = rooms n fmt' := by
  unfold rooms
  rw [h]

theorem rooms_percent (n : ℕ) (fmt : List UInt8) :
    rooms n (byte '%' :: fmt) =
      if (readSpecifier fmt).1.known then
        ((readSpecifier fmt).1.room n).toList ++ rooms n (readSpecifier fmt).2
      else [] := by
  unfold rooms
  rw [specifiers_percent, List.takeWhile_cons]
  split
  · rw [List.flatMap_cons]
  · rfl

/-- The stores that were added go through the first pointers, stay within their rooms, and are at
least as many as the assignments that were counted. -/
def Stored (slots : List (ℕ × ℕ)) (s s' : Scan) : Prop :=
  ∃ new, s'.stores = s.stores ++ new ∧ List.Forall₂ Fits new (slots.take new.length) ∧
    s'.assigned ≤ s.assigned + new.length

theorem stored_refl (slots : List (ℕ × ℕ)) (s : Scan) : Stored slots s s :=
  ⟨[], (List.append_nil _).symm, .nil, Nat.le_refl _⟩

theorem Ends.stored {r : Bool × Scan} (h : Ends s r) (slots : List (ℕ × ℕ)) :
    Stored slots s r.2 :=
  ⟨[], by rw [h.2.1, List.append_nil], .nil, h.2.2.le⟩

section Step

variable {s' s'' : Scan} {room : ℕ} {rs : List ℕ}

theorem Unstored.stored (h : Unstored s s') (h' : Stored (s'.ap.zip rs) s' s'') :
    Stored (s.ap.zip rs) s s'' := by
  obtain ⟨new, hnew, hfits, hassigned⟩ := h'
  rw [h.ap] at hfits
  rw [h.assigned] at hassigned
  exact ⟨new, hnew.trans (by rw [h.stores]), hfits, hassigned⟩

theorem Stores.stored (h : Stores room s s') (h' : Stored (s'.ap.zip rs) s' s'') :
    Stored (s.ap.zip (room :: rs)) s s'' := by
  obtain ⟨st, hst, hap, hroom⟩ := h.store
  obtain ⟨new, hnew, hfits, hassigned⟩ := h'
  have hone := h.assigned
  refine ⟨st :: new, ?_, ?_, ?_⟩
  · rw [hnew, hst, List.append_assoc, List.singleton_append]
  · rw [hap, List.zip_cons_cons, List.length_cons, List.take_succ_cons]
    exact .cons ⟨rfl, hroom⟩ hfits
  · rw [List.length_cons]
    omega

end Step

/-- A conversion ends the scan, or leaves it where the rest of the format is as it was announced. -/
theorem scanDirective_stored (str : List UInt8) (hn : s.input.length ≤ n)
    (hwidth : 0 ≤ (readSpecifier fmt).1.width)
    (hap : (rooms n (byte '%' :: fmt)).length ≤ s.ap.length) :
    ∃ more s', scanDirective str fmt s = some (more, (readSpecifier fmt).2, s') ∧
      ((more = false ∧ Stored (s.ap.zip (rooms n (byte '%' :: fmt))) s s') ∨
        (more = true ∧ s'.input.length ≤ n ∧
          (rooms n (readSpecifier fmt).2).length ≤ s'.ap.length ∧
          ∀ s'', Stored (s'.ap.zip (rooms n (readSpecifier fmt).2)) s' s'' →
            Stored (s.ap.zip (rooms n (byte '%' :: fmt))) s s'')) := by
  rw [scanDirective_specifier]
  rw [rooms_percent] at hap ⊢
  cases hknown : (readSpecifier fmt).1.known with
  | false =>
    rw [scanConversion_unknown hknown]
    exact ⟨false, s, rfl, .inl ⟨rfl, stored_refl _ s⟩⟩
  | true =>
    rw [hknown, if_pos rfl] at hap
    rw [if_pos rfl]
    cases hroom : (readSpecifier fmt).1.room n with
    | none =>
      rw [hroom, Option.toList_none, List.nil_append] at hap
      obtain ⟨⟨more, s'⟩, hr, hunstored⟩ := scanConversion_roomless hroom hknown hwidth str s
      rw [hr]
      refine ⟨more, s', rfl, ?_⟩
      cases more with
      | false => exact .inl ⟨rfl, hunstored.stored (stored_refl _ s')⟩
      | true =>
        refine .inr ⟨rfl, hunstored.input.trans hn, ?_, fun s'' hstored => hunstored.stored hstored⟩
        rw [hunstored.ap]
        exact hap
    | some room =>
      rw [hroom, Option.toList_some, List.singleton_append, List.length_cons] at hap
      obtain ⟨p, ap, hcons⟩ := List.exists_cons_of_length_pos (Nat.lt_of_lt_of_le
        (Nat.succ_pos _) hap)
      obtain ⟨⟨more, s'⟩, hr, hstores⟩ := scanConversion_stores hroom hcons hwidth hn str
      rw [hr]
      refine ⟨more, s', rfl, ?_⟩
      rcases hstores with hstores | hends
      · cases more with
        | false => exact .inl ⟨rfl, hstores.stored (stored_refl _ s')⟩
        | true =>
          refine .inr ⟨rfl, hstores.input.trans hn, ?_, fun s'' hstored => hstores.stored hstored⟩
          obtain ⟨st, -, hap', -⟩ := hstores.store
          rw [hap', List.length_cons] at hap
          exact Nat.le_of_succ_le_succ hap
      · exact .inl ⟨hends.1, hends.stored _⟩

theorem sscanfLoop_stored (str : List UInt8) (hn : s.input.length ≤ n)
    (hwidths : ∀ c ∈ specifiers fmt, 0 ≤ c.width)
    (hap : (rooms n fmt).length ≤ s.ap.length) :
    ∃ s', sscanfLoop str fmt s = some s' ∧ Stored (s.ap.zip (rooms n fmt)) s s' := by
  induction hlen : fmt.length using Nat.strong_induction_on generalizing fmt s with
  | _ len ih =>
    cases fmt with
    | nil =>
      rw [sscanfLoop.eq_def]
      exact ⟨s, rfl, stored_refl _ s⟩
    | cons c fmt =>
      by_cases hpercent : c = byte '%'
      · subst hpercent
        rw [specifiers_percent] at hwidths
        have hshort : (readSpecifier fmt).2.length < len :=
          hlen ▸ Nat.lt_succ_of_le (length_readSpecifier fmt)
        obtain ⟨more, s', hr, ⟨rfl, hstored⟩ | ⟨rfl, hn', hap', hstored⟩⟩ :=
          scanDirective_stored str hn (hwidths _ List.mem_cons_self) hap
        · rw [sscanfLoop_percent, hr]
          exact ⟨s', rfl, hstored⟩
        · obtain ⟨s'', hloop, hstored'⟩ := ih _ hshort hn'
            (fun c hc => hwidths c (List.mem_cons_of_mem _ hc)) hap' rfl
          rw [sscanfLoop_percent, hr]
          exact ⟨s'', hloop, hstored s'' hstored'⟩
      · have hsame := specifiers_of_ne hpercent fmt
        rw [rooms_congr hsame] at hap ⊢
        rw [hsame] at hwidths
        rw [sscanfLoop.eq_def]
        dsimp only
        split
        · have hunspaced := specifiers_unspaced fmt
          rw [← rooms_congr hunspaced] at hap ⊢
          exact ih _ (hlen ▸ Nat.lt_succ_of_le (List.dropWhile_suffix _).length_le)
            ((List.dropWhile_suffix _).length_le.trans hn) (hunspaced ▸ hwidths) hap rfl
        · split
          · exact ⟨s, rfl, stored_refl _ s⟩
          · exact ih _ (hlen ▸ Nat.lt_succ_self _)
              ((List.tail_suffix _).length_le.trans hn) hwidths hap rfl

/-! ## The memory -/

def perform (m : Memory) (stores : List (ℕ × Store)) : Memory :=
  stores.foldl (fun m st => m.write st.1 st.2.image) m

theorem perform_frame {stores : List (ℕ × Store)} {slots : List (ℕ × ℕ)} {x : ℕ}
    (h : List.Forall₂ Fits stores slots) (hx : ∀ q ∈ slots, x < q.1 ∨ q.1 + q.2 ≤ x)
    (m : Memory) : perform m stores x = m x := by
  induction h generalizing m with
  | nil => rfl
  | @cons st q stores slots hfits _ ih =>
    have hrest : perform (m.write st.1 st.2.image) stores x = m.write st.1 st.2.image x :=
      ih (fun q hq => hx q (List.mem_cons_of_mem _ hq)) _
    refine hrest.trans ?_
    obtain ⟨hptr, hroom⟩ := hfits
    rcases hx q List.mem_cons_self with hlt | hge
    · exact Memory.write_of_lt (hptr ▸ hlt)
    · exact Memory.write_of_ge (by omega)

/-- With a pointer for every room of its format, whose widths are below `2 ^ 31` or wrap to numbers
that are not negative, `sscanf` stores through the first of these pointers, in their order, through
as many of them as it returns or more, and outside the rooms no byte of the memory changes. -/
theorem sscanf_within_rooms (m : Memory) (str fmt : List UInt8) (ap : List ℕ)
    (hwidths : ∀ c ∈ specifiers fmt, 0 ≤ c.width)
    (h : (rooms str.length fmt).length ≤ ap.length) :
    ∃ r, sscanf (some str) (some fmt) ap = some r ∧ r.ret ≤ r.stores.length ∧
      List.Forall₂ Fits r.stores ((ap.zip (rooms str.length fmt)).take r.stores.length) ∧
      ∀ x, (∀ q ∈ ap.zip (rooms str.length fmt), x < q.1 ∨ q.1 + q.2 ≤ x) →
        perform m r.stores x = m x := by
  obtain ⟨s', hloop, new, hnew, hfits, hassigned⟩ :=
    sscanfLoop_stored (s := ⟨str, 0, ap, []⟩) str (Nat.le_refl _) hwidths h
  rw [List.nil_append] at hnew
  refine ⟨⟨s'.assigned, s'.stores⟩, ?_, ?_, ?_, fun x hx => ?_⟩
  · unfold sscanf
    dsimp only
    rw [hloop]
    rfl
  · rw [hnew]
    simpa using hassigned
  · rw [hnew]
    exact hfits
  · rw [hnew]
    exact perform_frame hfits (fun q hq => hx q (List.mem_of_mem_take hq)) m

/-- `%4s` -/
def wordFormat : List UInt8 := [byte '%', byte '4', byte 's']

theorem specifiers_wordFormat : specifiers wordFormat = [⟨false, 4, 0, byte 's'⟩] := by
  have hnumber : readNumber 0 [byte '4', byte 's'] = (4, [byte 's']) := by decide
  have hread : readSpecifier [byte '4', byte 's'] = (⟨false, 4, 0, byte 's'⟩, []) := by
    have hunstarred : unstarred [byte '4', byte 's'] = [byte '4', byte 's'] := rfl
    rw [readSpecifier, hunstarred, hnumber]
    rfl
  rw [wordFormat, specifiers_percent, hread, specifiers]

theorem sscanf_within_rooms_word :
    (∀ c ∈ specifiers wordFormat, 0 ≤ c.width) ∧ (rooms 6 wordFormat).length ≤ 1 ∧
      ∃ r, sscanf (some (List.replicate 6 (byte 'a'))) (some wordFormat) [100] = some r ∧
        r.ret ≤ r.stores.length ∧
        List.Forall₂ Fits r.stores (([100].zip (rooms 6 wordFormat)).take r.stores.length) ∧
        ∀ x, (∀ q ∈ [100].zip (rooms 6 wordFormat), x < q.1 ∨ q.1 + q.2 ≤ x) →
          perform (fun _ => 0) r.stores x = 0 :=
  have hwidths : ∀ c ∈ specifiers wordFormat, 0 ≤ c.width := by
    rw [specifiers_wordFormat]
    decide
  have hroom : (rooms 6 wordFormat).length ≤ 1 := by
    rw [rooms, specifiers_wordFormat]
    decide
  ⟨hwidths, hroom,
    sscanf_within_rooms (fun _ => 0) (List.replicate 6 (byte 'a')) wordFormat [100] hwidths hroom⟩

end Format

end LampUserspace.Stdio
