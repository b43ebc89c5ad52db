import LampUserspace.Partial.Total
import LampUserspace.Regex.Syntax

/-! # Reading inside the pattern

A cursor is a non-empty rest of a NUL-terminated string. The functions that
read the pattern return at every such cursor, so that none of them looks past
the NUL, and the cursor they return has moved on.
-/

namespace LampUserspace.Regex

/-- A rest of a C string, up to and including its NUL. -/
inductive InText : List UInt8 → Prop
  | nul : InText [0]

  | cons {b : UInt8} {p : List UInt8} (hb : b ≠ 0) (hp : InText p) : InText (b :: p)

/-- `q` is a cursor further on than `p`. -/
def Past (p q : List UInt8) : Prop := InText q ∧ q.length < p.length

/-- The result of a reader: an error code, or a cursor with fewer than `bound` bytes left. -/
def Reads {α : Type} (bound : ℕ) (rest : α → List UInt8) : Except RegCode α → Prop
  | .error e => e ≠ .ok
  | .ok a => InText (rest a) ∧ (rest a).length < bound

variable {p q r : List UInt8}

theorem InText.append_nul {u : List UInt8} (h : (0 : UInt8) ∉ u) : InText (u ++ [0]) := by
  induction u with
  | nil => exact .nul
  | cons b u ih =>
    rw [List.mem_cons, not_or] at h
    exact .cons (Ne.symm h.1) (ih h.2)

theorem InText.length_pos (h : InText p) : 0 < p.length := by
  cases h <;> simp

theorem InText.memory (s : CString) : InText s.memory := .append_nul s.nul_free

theorem Reads.weaken {α : Type} {bound bound' : ℕ} {rest : α → List UInt8}
    {x : Except RegCode α} (h : Reads bound rest x) (hb : bound ≤ bound') :
    Reads bound' rest x := by
  cases x with
  | error e => exact h
  | ok a => exact ⟨h.1, h.2.trans_le hb⟩

theorem Past.trans (h : Past p q) (h' : Past q r) : Past p r := ⟨h'.1, h'.2.trans h.2⟩

theorem Past.trans_le (h : Past p q) (h' : InText r ∧ r.length ≤ q.length) : Past p r :=
  ⟨h'.1, h'.2.trans_lt h.2⟩

/-- The first byte can be read, and unless it is NUL the cursor can move over it. -/
theorem InText.head (h : InText p) :
    Total p[0]? fun b => (b = 0 → p = [0]) ∧ (b ≠ 0 → Past p (p.drop 1)) := by
  cases h with
  | nul => exact .some ⟨fun _ => rfl, fun h => absurd rfl h⟩
  | cons hb hp => exact .some ⟨fun h => absurd h hb, fun _ => ⟨hp, by simp⟩⟩

/-- A byte further on can be read once the cursor could stand there. -/
theorem InText.read {k : ℕ} (h : InText (p.drop k)) :
    Total p[k]? fun b => b ≠ 0 → Past p (p.drop (k + 1)) := by
  obtain ⟨b, hb, -, hpast⟩ := h.head
  refine .intro (by simpa using hb) fun h0 => ?_
  obtain ⟨ht, hl⟩ := hpast h0
  rw [List.drop_drop] at ht hl
  refine ⟨ht, hl.trans_le ?_⟩
  simp

theorem InText.drop_one (h : InText p) {b : UInt8} (hp : p[0]? = some b) (hb : b ≠ 0) :
    Past p (p.drop 1) := by
  obtain ⟨b', hb', -, hpast⟩ := h.head
  obtain rfl : b = b' := by simpa [hp] using hb'
  exact hpast hb

/-! ## Delimiters -/

theorem isPair_total {first second : UInt8} (hf : first ≠ 0) (hs : second ≠ 0) (h : InText p) :
    Total (isPair first second p) fun r => r = true → Past p (p.drop 2) := by
  unfold isPair
  refine h.head.bind fun b _ hpast => .ite (fun _ => .pure (by simp)) fun hb => ?_
  rw [not_not] at hb
  refine (hpast.2 (hb ▸ hf)).1.read.bind fun e _ he => .pure fun hr => he ?_
  exact (of_decide_eq_true hr).symm ▸ hs

theorem isDelimiter_total (extended : Bool) {mark : UInt8} (hm : mark ≠ 0) (h : InText p) :
    Total (isDelimiter extended mark p) fun r =>
      r = true → Past p (p.drop (markLength extended)) := by
  unfold isDelimiter
  cases extended with
  | true =>
    refine h.head.bind fun b _ hb => .pure fun hr => hb.2 ?_
    exact (of_decide_eq_true hr).symm ▸ hm
  | false => exact isPair_total (by decide) hm h

/-! ## Bracket expressions -/

theorem reParseEscape_total (h : InText p) (h0 : p ≠ [0]) :
    Total (reParseEscape p) (Reads p.length Prod.snd) := by
  unfold reParseEscape
  refine h.head.bind fun b hb hpast => ?_
  have hpast := hpast.2 fun hb0 => h0 (hpast.1 hb0)
  refine .ite (fun _ => .pure hpast) fun _ => ?_
  refine hpast.1.head.bind fun e _ he => .ite (fun _ => .pure nofun) fun he0 => .pure ?_
  exact hpast.trans (he.2 he0)

theorem hasName_total {name : List Char} (hn : ∀ c ∈ name, byte c ≠ 0) (h : InText p) :
    Total (hasName p name) fun r => r = true → InText (p.drop name.length) := by
  induction name generalizing p with
  | nil => exact .some fun _ => h
  | cons c name ih =>
    rw [List.forall_mem_cons] at hn
    refine h.head.bind fun b hb hpast => .ite (fun _ => .pure (by simp)) fun hc => ?_
    rw [not_not] at hc
    refine (ih hn.2 (hpast.2 (hc ▸ hn.1)).1).mono fun r _ hr hr' => ?_
    have ht := hr hr'
    rwa [List.drop_drop, Nat.add_comm] at ht

theorem scanClasses_total {set : ByteSet} {rows : List (List Char × UInt8 × UInt8)}
    (hn : ∀ row ∈ rows, ∀ c ∈ row.1, byte c ≠ 0) (h : InText p) :
    Total (scanClasses p set rows) fun r => ∀ q set', r = some (q, set') → Past p q := by
  induction rows with
  | nil => exact .some (by simp)
  | cons row rows ih =>
    obtain ⟨name, first, last⟩ := row
    rw [List.forall_mem_cons] at hn
    refine (hasName_total hn.1 h).bind fun r _ hr => .ite (fun hr' => ?_) fun _ => ih hn.2
    refine (hr hr').read.bind fun b hb hpast => .ite (fun hb' => .pure ?_) fun _ => ih hn.2
    rintro q set' ⟨⟩
    exact hpast (hb' ▸ by decide)

theorem namedClasses_nul_free : ∀ row ∈ namedClasses, ∀ c ∈ row.1, byte c ≠ 0 := by
  have h : (namedClasses.all fun row => row.1.all fun c => byte c != 0) = true := by decide
  simpa only [List.all_eq_true, bne_iff_ne] using h

theorem reNamedClass_total {set : ByteSet} (h : InText p) :
    Total (reNamedClass p set) fun r => ∀ q set', r = some (q, set') → Past p q := by
  unfold reNamedClass
  refine h.head.bind fun b hb hpast => .ite (fun _ => .pure (by simp)) fun hb' => ?_
  rw [not_not] at hb'
  have hpast := hpast.2 (hb' ▸ by decide)
  refine hpast.1.read.bind fun e he hpast' => .ite (fun _ => .pure (by simp)) fun he' => ?_
  rw [not_not] at he'
  have hpast' := hpast' (he' ▸ by decide)
  refine (scanClasses_total namedClasses_nul_free hpast'.1).mono fun r _ hr q set' hq => ?_
  exact hpast'.trans (hr q set' hq)

theorem isRangeDash_total (h : InText p) :
    Total (isRangeDash p) fun r => r = true → InText (p.drop 1) ∧ p.drop 1 ≠ [0] ∧
      (p.drop 1).length < p.length := by
  unfold isRangeDash
  refine h.head.bind fun b hb hpast => .ite (fun _ => .pure (by simp)) fun hb' => ?_
  rw [not_not] at hb'
  obtain ⟨ht, hl⟩ := hpast.2 (hb' ▸ by decide)
  refine ht.read.bind fun e he _ => .pure fun hr => ⟨ht, fun h0 => ?_, hl⟩
  have he' : (p.drop 1)[0]? = some e := by simpa using he
  rw [h0] at he'
  obtain rfl : 0 = e := by simpa using he'
  simp at hr

theorem reClassRange_total {set : ByteSet} (h : InText p) (h0 : p ≠ [0]) :
    Total (reClassRange p set) (Reads p.length Prod.fst) := by
  unfold reClassRange
  refine (reParseEscape_total h h0).bind fun r _ hr => ?_
  match r with
  | .error e => exact .pure hr
  | .ok (first, q) =>
    have hq : Past p q := hr
    refine (isRangeDash_total hq.1).bind fun dash _ hd => .ite (fun hd' => ?_) fun _ => .pure hq
    obtain ⟨ht, hne, hl⟩ := hd hd'
    refine (reParseEscape_total ht hne).bind fun r _ hr => ?_
    match r with
    | .error e => exact .pure hr
    | .ok (last, q') =>
      exact .ite (fun _ => .pure nofun) fun _ => .pure ((hq.trans ⟨ht, hl⟩).trans hr)

theorem reClassItem_total {set : ByteSet} (h : InText p) (h0 : p ≠ [0]) :
    Total (reClassItem p set) (Reads p.length Prod.fst) := by
  unfold reClassItem
  refine (reNamedClass_total h).bind fun r _ hr => ?_
  match r with
  | some (q, set') => exact .pure (hr q set' rfl)
  | none =>
    exact (isPair_total (by decide) (by decide) h).bind fun _ _ _ =>
      .ite (fun _ => .pure nofun) fun _ => reClassRange_total h h0

theorem reClassLoop_total {n : ℕ} {set : ByteSet} (h : InText p) (hn : p.length < n) :
    Total (reClassLoop n p set) (Reads (p.length + 1) Prod.fst) := by
  induction n generalizing p set with
  | zero => omega
  | succ n ih =>
    rw [reClassLoop]
    refine h.head.bind fun b hb hpast => .ite (fun _ => .pure ⟨h, Nat.lt_succ_self _⟩) fun hb' => ?_
    rw [not_or] at hb'
    have h0 : p ≠ [0] := by
      rintro rfl
      exact hb'.1 (by simpa using hb.symm)
    refine (reClassItem_total h h0).bind fun r _ hr => ?_
    match r with
    | .error e => exact .pure hr
    | .ok (q, set') =>
      obtain ⟨ht, hl⟩ : Past p q := hr
      exact (ih ht (by omega)).mono fun _ _ hr' => hr'.weaken (by omega)

theorem reReadClass_total (h : InText p) {b : UInt8} (hb : p[0]? = some b) (hb0 : b ≠ 0) :
    Total (reReadClass p) (Reads p.length Prod.fst) := by
  unfold reReadClass
  have hp := h.drop_one hb hb0
  refine hp.1.head.bind fun e he hpast => ?_
  have hneg : Past p (if e = byte '^' then (p.drop 1).drop 1 else p.drop 1) := by
    split
    · exact hp.trans (hpast.2 (‹e = byte '^'› ▸ by decide))
    · exact hp
  refine hneg.1.head.bind fun e' he' hpast' => ?_
  have hfirst : Past p (if e' = byte ']' then
      (if e = byte '^' then (p.drop 1).drop 1 else p.drop 1).drop 1
      else if e = byte '^' then (p.drop 1).drop 1 else p.drop 1) := by
    split
    · exact hneg.trans (hpast'.2 (‹e' = byte ']'› ▸ by decide))
    · exact hneg
  refine (reClassLoop_total hfirst.1 (Nat.lt_succ_self _)).bind fun r _ hr => ?_
  match r with
  | .error e => exact .pure hr
  | .ok (q, set) =>
    obtain ⟨ht, hl⟩ : InText q ∧ _ := hr
    refine ht.head.bind fun c _ hc => .ite (fun _ => .pure nofun) fun hc' => .pure ?_
    rw [not_not] at hc'
    exact (hfirst.trans_le ⟨ht, Nat.le_of_lt_succ hl⟩).trans (hc.2 (hc' ▸ by decide))

/-! ## Quantifiers -/

theorem readDigits_total (h : InText p) (value : ℕ) :
    Total (readDigits p value) (Reads (p.length + 1) Prod.snd) := by
  induction h generalizing value with
  | nul => exact .some ⟨.nul, Nat.lt_succ_self _⟩
  | cons hb hp ih =>
    rw [readDigits]
    refine .ite (fun _ => .ite (fun _ => .some nofun) fun _ => ?_) fun _ => .some ?_
    · exact (ih _).mono fun _ _ hr => hr.weaken (by simp)
    · exact ⟨.cons hb hp, Nat.lt_succ_self _⟩

theorem readMax_total (h : InText p) (min : ℕ) :
    Total (readMax p min) (Reads (p.length + 1) Prod.snd) := by
  unfold readMax
  refine h.head.bind fun b _ hpast => .ite (fun _ => .pure ⟨h, Nat.lt_succ_self _⟩) fun hb => ?_
  rw [not_not] at hb
  obtain ⟨ht, hl⟩ := hpast.2 (hb ▸ by decide)
  refine ht.head.bind fun e _ _ => .ite (fun _ => .pure ⟨ht, Nat.lt_succ_of_lt hl⟩) fun _ => ?_
  refine (readDigits_total ht 0).bind fun r _ hr => ?_
  match r with
  | .error e => exact .pure hr
  | .ok (max, q) =>
    obtain ⟨ht', hl'⟩ : InText q ∧ q.length < _ := hr
    exact .pure ⟨ht', hl'.trans_le (Nat.succ_le_succ hl.le)⟩

theorem reParseInterval_total (h : InText p) :
    Total (reParseInterval p) (Reads p.length (·.2.2)) := by
  unfold reParseInterval
  refine (readDigits_total h 0).bind fun r _ hr => ?_
  match r with
  | .error e => exact .pure hr
  | .ok (min, q) =>
    obtain ⟨ht, hl⟩ : InText q ∧ _ := hr
    refine (readMax_total ht min).bind fun r _ hr => ?_
    match r with
    | .error e => exact .pure hr
    | .ok (max, q') =>
      obtain ⟨ht', hl'⟩ : InText q' ∧ _ := hr
      refine ht'.head.bind fun b _ hb => .ite (fun _ => .pure nofun) fun hb' => .pure ?_
      rw [not_not] at hb'
      obtain ⟨ht'', hl''⟩ := hb.2 (hb' ▸ by decide)
      exact ⟨ht'', by simp only at *; omega⟩

/-- Where the cursor stands after the mark of a quantifier. -/
def QuantKind.markLength (extended : Bool) : QuantKind → ℕ
  | .star => 1
  | .plus | .question | .interval => Regex.markLength extended

theorem quantMark_eq_some {b : UInt8} {kind : QuantKind} (h : quantMark b = some kind) :
    b ≠ 0 ∧ kind ≠ .star := by
  unfold quantMark at h
  split_ifs at h with h1 h2 h3
  · exact ⟨h1 ▸ by decide, by cases h; simp⟩
  · exact ⟨h2 ▸ by decide, by cases h; simp⟩
  · exact ⟨h3 ▸ by decide, by cases h; simp⟩

theorem QuantKind.markLength_of_ne_star (extended : Bool) {kind : QuantKind} (h : kind ≠ .star) :
    kind.markLength extended = Regex.markLength extended := by
  cases kind <;> trivial

theorem reReadQuantifier_total (extended : Bool) (h : InText p) :
    Total (reReadQuantifier extended p) fun r =>
      ∀ kind, r = some kind → Past p (p.drop (kind.markLength extended)) := by
  unfold reReadQuantifier
  refine h.head.bind fun b _ hpast => .ite (fun hb => .pure ?_) fun _ => ?_
  · rintro _ ⟨⟩
    exact hpast.2 (hb ▸ by decide)
  cases extended with
  | true =>
    refine .pure fun kind hk => ?_
    obtain ⟨hb, hs⟩ := quantMark_eq_some hk
    rw [QuantKind.markLength_of_ne_star _ hs]
    exact hpast.2 hb
  | false =>
    rw [if_neg Bool.false_ne_true]
    refine .ite (fun _ => .pure (by simp)) fun hb => ?_
    rw [not_not] at hb
    refine (hpast.2 (hb ▸ by decide)).1.read.bind fun e _ he => .pure fun kind hk => ?_
    obtain ⟨he0, hs⟩ := quantMark_eq_some hk
    rw [QuantKind.markLength_of_ne_star _ hs]
    exact he he0

theorem branchEnds_total (extended inGroup : Bool) (h : InText p) :
    Total (branchEnds extended inGroup p) fun r => r = false → p ≠ [0] := by
  unfold branchEnds
  refine h.head.bind fun b hb _ => .ite (fun _ => .pure (by simp)) fun hb0 => ?_
  have h0 : p ≠ [0] := by
    rintro rfl
    exact hb0 (by simpa using hb.symm)
  refine (isDelimiter_total extended (by decide) h).bind fun _ _ _ =>
    .ite (fun _ => .pure fun _ => h0) fun _ => .ite (fun _ => .pure fun _ => h0) fun _ => ?_
  exact (isDelimiter_total extended (by decide) h).mono fun _ _ _ _ => h0

end LampUserspace.Regex
