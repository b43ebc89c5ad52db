import LampUserspace.Stdio.Scanning

/-! # Decimal fields

The field that the C standard lets `%d` read from an input: as much of it as can begin
a decimal number, within the width. The conversion reads its field where it counts the
digits right: it counts no sign, and counts in an `int`.
-/

namespace LampUserspace.Stdio

open Numerals Stdlib

/-! ## Fields -/

/-- A text of the form `[+-]?[0-9]+`. -/
def Decimal (s : List UInt8) : Prop :=
  ∃ sign digits, s = sign ++ digits ∧ (sign = [] ∨ sign = [byte '+'] ∨ sign = [byte '-']) ∧
    digits ≠ [] ∧ ∀ c ∈ digits, isdigit c = true

/-- A prefix of the text, within the width, that begins a decimal number; 0 stands for no width. -/
structure Candidate (width : ℕ) (t q : List UInt8) : Prop where
  isPrefix : q <+: t
  within : width = 0 ∨ q.length ≤ width
  begins : ∃ s, Decimal s ∧ q <+: s

structure IsField (width : ℕ) (t q : List UInt8) : Prop where
  candidate : Candidate width t q
  longest : ∀ q', Candidate width t q' → q'.length ≤ q.length

def signOf (s : List UInt8) : List UInt8 := if Signed s then s.take 1 else []

def digitsOf (s : List UInt8) : List UInt8 := if Signed s then s.tail else s

/-- The number that a field writes. -/
def fieldValue (q : List UInt8) : ℤ :=
  if q.head? = some (byte '-') then -number digitValue 10 (digitsOf q)
  else number digitValue 10 (digitsOf q)

def field (width : ℕ) (t : List UInt8) : List UInt8 :=
  signOf t ++ digitRun digitValue 10 (window width (signOf t).length (digitsOf t))

theorem signOf_append_digitsOf (s : List UInt8) : signOf s ++ digitsOf s = s := by
  unfold signOf digitsOf
  split
  · cases s <;> simp
  · rfl

theorem signOf_cases (s : List UInt8) :
    signOf s = [] ∨ signOf s = [byte '+'] ∨ signOf s = [byte '-'] := by
  unfold signOf
  split
  · rename_i h
    cases s with
    | nil => exact .inl rfl
    | cons c s => rcases h with h | h <;> obtain rfl := Option.some.inj h <;> simp
  · exact .inl rfl

theorem digitsOf_cons {c : UInt8} (h : c = byte '+' ∨ c = byte '-') (s : List UInt8) :
    digitsOf (c :: s) = s := by
  unfold digitsOf
  rcases h with rfl | rfl
  · exact if_pos (.inr rfl)
  · exact if_pos (.inl rfl)

theorem digitsOf_of_digits {s : List UInt8} (h : ∀ c ∈ s, isdigit c = true) : digitsOf s = s := by
  cases s with
  | nil => rfl
  | cons c s =>
    have hdigit := h c (List.mem_cons_self ..)
    apply if_neg
    rintro (hsign | hsign) <;>
      exact absurd (Option.some.inj hsign ▸ hdigit) (by decide)

/-- What begins a decimal number has digits only behind its sign. -/
theorem begins_iff {q : List UInt8} :
    (∃ s, Decimal s ∧ q <+: s) ↔ ∀ c ∈ digitsOf q, isdigit c = true := by
  constructor
  · rintro ⟨s, ⟨sign, digits, rfl, hsign, -, hdigits⟩, hbegin⟩
    rcases hsign with rfl | hsign
    · have hq : ∀ c ∈ q, isdigit c = true := fun c hc => hdigits c (hbegin.subset hc)
      rwa [digitsOf_of_digits hq]
    · obtain ⟨c, rfl, hc⟩ : ∃ c, sign = [c] ∧ (c = byte '+' ∨ c = byte '-') := by
        rcases hsign with rfl | rfl <;> simp
      cases q with
      | nil => simp [digitsOf]
      | cons c' q =>
        obtain ⟨rfl, hq⟩ := List.cons_prefix_cons.mp hbegin
        rw [digitsOf_cons hc]
        exact fun c'' hc'' => hdigits c'' (hq.subset hc'')
  · intro h
    refine ⟨q ++ [byte '0'], ⟨signOf q, digitsOf q ++ [byte '0'], ?_, signOf_cases q, by simp, ?_⟩,
      List.prefix_append ..⟩
    · rw [← List.append_assoc, signOf_append_digitsOf]
    · intro c hc
      rcases List.mem_append.mp hc with hc | hc
      · exact h c hc
      · obtain rfl := List.mem_singleton.mp hc
        decide

theorem digitsOf_signOf_append (t : List UInt8) {s : List UInt8}
    (h : ∀ c ∈ s, isdigit c = true) : digitsOf (signOf t ++ s) = s := by
  rcases signOf_cases t with ht | ht | ht <;> rw [ht]
  · exact digitsOf_of_digits h
  · exact digitsOf_cons (.inl rfl) s
  · exact digitsOf_cons (.inr rfl) s

theorem isdigit_of_mem_run {c : UInt8} {s : List UInt8} (h : c ∈ digitRun digitValue 10 s) :
    isdigit c = true :=
  isDigit_ten c ▸ mem_digitRun h

theorem window_isPrefix (width : ℤ) (consumed : ℕ) (s : List UInt8) :
    window width consumed s <+: s := by
  unfold window
  split
  · exact List.prefix_refl s
  · exact List.take_prefix ..

theorem candidate_field (width : ℕ) (t : List UInt8) : Candidate width t (field width t) where
  isPrefix := by
    have hrun : digitRun digitValue 10 (window width (signOf t).length (digitsOf t)) <+:
        digitsOf t := (List.takeWhile_prefix _).trans (window_isPrefix ..)
    conv_rhs => rw [← signOf_append_digitsOf t]
    exact (List.prefix_append_right_inj (signOf t)).mpr hrun
  within := by
    have hsign : (signOf t).length ≤ 1 := by
      rcases signOf_cases t with h | h | h <;> rw [h] <;> simp
    by_cases hwidth : (width : ℤ) = 0
    · exact .inl (Int.natCast_eq_zero.mp hwidth)
    · have hrun : (digitRun digitValue 10 (window width (signOf t).length (digitsOf t))).length ≤
          (window width (signOf t).length (digitsOf t)).length :=
        (List.takeWhile_prefix _).length_le
      rw [window, if_neg hwidth, List.length_take] at hrun
      rw [field, List.length_append, window, if_neg hwidth]
      omega
  begins := by
    have hdigits : ∀ c ∈ digitRun digitValue 10 (window width (signOf t).length (digitsOf t)),
        isdigit c = true := fun c hc => isdigit_of_mem_run hc
    apply begins_iff.mpr
    rwa [field, digitsOf_signOf_append t hdigits]

theorem signOf_of_prefix {q t : List UInt8} (hne : q ≠ []) (h : q <+: t) : signOf q = signOf t := by
  cases q with
  | nil => exact absurd rfl hne
  | cons c q =>
    obtain ⟨u, rfl⟩ := h
    rfl

theorem Candidate.le_field {width : ℕ} {t q : List UInt8} (h : Candidate width t q) :
    q.length ≤ (field width t).length := by
  by_cases hne : q = []
  · subst hne
    exact Nat.zero_le _
  · have hsign := signOf_of_prefix hne h.isPrefix
    have hq := signOf_append_digitsOf q
    have hdigits : digitsOf q <+: digitsOf t := by
      have hbegin := h.isPrefix
      rw [← signOf_append_digitsOf q, ← signOf_append_digitsOf t, hsign] at hbegin
      exact (List.prefix_append_right_inj _).mp hbegin
    have hwindow : digitsOf q <+: window width (signOf t).length (digitsOf t) := by
      unfold window
      split
      · exact hdigits
      · rename_i hwidth
        have hwithin := h.within.resolve_left (mt Int.natCast_eq_zero.mpr hwidth)
        rw [← hq, List.length_append, hsign] at hwithin
        exact List.prefix_take_iff.mpr ⟨hdigits, by omega⟩
    obtain ⟨u, hu⟩ := hwindow
    have hrun : digitsOf q <+:
        digitRun digitValue 10 (window width (signOf t).length (digitsOf t)) := by
      rw [← hu, digitRun, List.takeWhile_append_of_pos fun c hc => by
        rw [isDigit_ten]
        exact begins_iff.mp h.begins c hc]
      exact List.prefix_append ..
    rw [field, List.length_append, ← hq, List.length_append, hsign]
    exact Nat.add_le_add_left hrun.length_le _

theorem isField_iff {width : ℕ} {t q : List UInt8} :
    IsField width t q ↔ q = field width t := by
  constructor
  · intro h
    have hlength : q.length = (field width t).length :=
      Nat.le_antisymm h.candidate.le_field (h.longest _ (candidate_field width t))
    exact (List.prefix_of_prefix_length_le h.candidate.isPrefix
      (candidate_field width t).isPrefix hlength.le).eq_of_length hlength
  · rintro rfl
    exact ⟨candidate_field width t, fun q' hq' => hq'.le_field⟩

/-! ## The conversion -/

/-- Wherever it stands in a format, the conversion reads the field of the input when that has a
digit, and else it ends the scan without an assignment. -/
def ScansField (width : ℕ) (input : List UInt8) : Prop :=
  ∀ q, IsField width (unspaced input) q → ∀ str fmt assigned p ap stores,
    ((∃ c ∈ q, isdigit c = true) →
      sscanfLoop str (byte '%' :: (scanText width .none .d ++ fmt))
          ⟨input, assigned, p :: ap, stores⟩ =
        sscanfLoop str fmt ⟨(unspaced input).drop q.length, assigned + 1, ap,
          stores ++ [(p, .word (.ofInt (fieldValue q)))]⟩) ∧
    ((∀ c ∈ q, isdigit c = false) →
      ∃ input', sscanfLoop str (byte '%' :: (scanText width .none .d ++ fmt))
          ⟨input, assigned, p :: ap, stores⟩ = some ⟨input', assigned, p :: ap, stores⟩)

/-- The digits are counted right: there is no width, or the `int` that its digits make is the width
and no sign is counted in it, or the field ends before the width and the `int` do. Where there is
no digit, a sign is not followed by white space, one plus sign and a digit, where the first two may
be missing, unless the `int` is negative. -/
def DigitsCounted (width : ℕ) (t : List UInt8) : Prop :=
  if digitRun digitValue 10 (digitsOf t) = []
  then Signed t → wrapInt width < 0 ∨
    digitRun digitValue 10 (unplussed (unspaced t.tail)) = []
  else width = 0 ∨ (wrapInt width = width ∧ ¬ Signed t) ∨
    ((signOf t).length + (digitRun digitValue 10 (digitsOf t)).length ≤ width ∧
      (wrapInt width = 0 ∨ (digitRun digitValue 10 (digitsOf t)).length ≤ wrapInt width))

def fieldDigits (width : ℕ) (t : List UInt8) : List UInt8 :=
  digitRun digitValue 10 (window width (signOf t).length (digitsOf t))

/-- The text at which `scan_unsigned` looks for digits, and those that it reads. -/
def readText (t : List UInt8) : List UInt8 := unplussed (unspaced (digitsOf t))

def readDigits (width : ℕ) (t : List UInt8) : List UInt8 :=
  digitRun digitValue 10 (window (wrapInt width) 0 (readText t))

theorem digitRun_window (width : ℤ) (consumed : ℕ) (s : List UInt8) :
    digitRun digitValue 10 (window width consumed s) =
      window width consumed (digitRun digitValue 10 s) := by
  unfold window digitRun
  split
  · rfl
  · exact List.take_takeWhile.symm

theorem fieldDigits_isPrefix (width : ℕ) (t : List UInt8) :
    fieldDigits width t <+: digitRun digitValue 10 (digitsOf t) := by
  rw [fieldDigits, digitRun_window]
  exact window_isPrefix ..

theorem readText_eq {t : List UInt8} (h : digitRun digitValue 10 (digitsOf t) ≠ []) :
    readText t = digitsOf t := by
  unfold readText
  cases hs : digitsOf t with
  | nil => rfl
  | cons c s =>
    have hdigit : isDigit digitValue 10 c = true := by
      by_contra hnot
      rw [hs, digitRun_stop (Bool.eq_false_of_not_eq_true hnot)] at h
      exact h rfl
    have hall : ∀ c, isDigit digitValue 10 c = true → ¬ isspace c = true ∧ c ≠ byte '+' := by
      decide +kernel
    obtain ⟨hspace, hplus⟩ := hall c hdigit
    have hunspaced : unspaced (c :: s) = c :: s := List.dropWhile_cons_of_neg hspace
    rw [hunspaced]
    exact if_neg fun h => hplus (Option.some.inj h)

theorem readDigits_eq_of_length {width : ℕ} {t : List UInt8}
    (h : (readDigits width t).length = (fieldDigits width t).length) :
    readDigits width t = fieldDigits width t := by
  have hfield := fieldDigits_isPrefix width t
  by_cases hrun : digitRun digitValue 10 (digitsOf t) = []
  · rw [hrun, List.prefix_nil] at hfield
    rw [hfield] at h ⊢
    exact List.length_eq_zero_iff.mp h
  · have hread : readDigits width t <+: digitRun digitValue 10 (digitsOf t) := by
      rw [readDigits, readText_eq hrun, digitRun_window]
      exact window_isPrefix ..
    exact (List.prefix_of_prefix_length_le hread hfield h.le).eq_of_length h

theorem window_zero_eq_nil {width : ℤ} {s : List UInt8} :
    window width 0 s = [] ↔ width < 0 ∨ s = [] := by
  unfold window
  split
  · simp [*]
  · rw [List.take_eq_nil_iff]
    have hroom : (width - (0 : ℕ)).toNat = 0 ↔ width < 0 := by omega
    rw [hroom]

theorem length_window (width : ℤ) (consumed : ℕ) (s : List UInt8) :
    (window width consumed s).length =
      if width = 0 then s.length else min (width - consumed).toNat s.length := by
  unfold window
  split
  · rfl
  · exact List.length_take

theorem length_signOf (t : List UInt8) : (signOf t).length = if Signed t then 1 else 0 := by
  unfold signOf
  split
  · rename_i h
    cases t with
    | nil => rcases h with h | h <;> cases h
    | cons c t => rfl
  · rfl

theorem readDigits_length_iff (width : ℕ) {t : List UInt8} (ht : unspaced t = t) :
    (readDigits width t).length = (fieldDigits width t).length ↔ DigitsCounted width t := by
  unfold DigitsCounted
  split
  · rename_i hrun
    have hfield : fieldDigits width t = [] :=
      List.prefix_nil.mp (hrun ▸ fieldDigits_isPrefix width t)
    rw [hfield, List.length_nil, List.length_eq_zero_iff, readDigits, digitRun_window,
      window_zero_eq_nil, readText]
    by_cases hsigned : Signed t
    · have hdigits : digitsOf t = t.tail := if_pos hsigned
      rw [hdigits]
      exact ⟨fun h _ => h, fun h => h hsigned⟩
    · have hdigits : digitsOf t = t := if_neg hsigned
      have hplus : unplussed t = t := if_neg fun h => hsigned (.inr h)
      rw [hdigits] at hrun ⊢
      rw [ht, hplus]
      exact iff_of_true (.inr hrun) fun h => absurd h hsigned
  · rename_i hrun
    have hread : readDigits width t =
        window (wrapInt width) 0 (digitRun digitValue 10 (digitsOf t)) := by
      rw [readDigits, digitRun_window, readText_eq hrun]
    have hfield : fieldDigits width t =
        window width (signOf t).length (digitRun digitValue 10 (digitsOf t)) := digitRun_window ..
    have hpos := List.length_pos_iff.mpr hrun
    have hrange := wrapInt_range width
    have hint : wrapInt width = width ∨ wrapInt width ≤ width - 2 ^ 32 :=
      wrapInt_eq_or_le (by omega)
    rw [hread, hfield, length_window, length_window, length_signOf]
    by_cases hsigned : Signed t
    · simp only [hsigned, if_true, not_true_eq_false, and_false, false_or]
      split_ifs <;> omega
    · simp only [hsigned, if_false, not_false_eq_true, and_true]
      split_ifs <;> omega

theorem head_field (width : ℕ) (t : List UInt8) :
    (field width t).head? = some (byte '-') ↔ t.head? = some (byte '-') := by
  by_cases hsigned : Signed t
  · have hsign : signOf t = t.take 1 := if_pos hsigned
    rw [field, hsign]
    cases t with
    | nil => simp [digitsOf, digitRun]
    | cons c t => rfl
  · have hsign : signOf t = [] := if_neg hsigned
    rw [field, hsign, List.nil_append]
    constructor
    · intro h
      exact absurd (isdigit_of_mem_run (List.mem_of_mem_head? h)) (by decide)
    · exact fun h => absurd (.inl h) hsigned

section Rounds

variable {width : ℕ} {input : List UInt8} (str fmt : List UInt8) (assigned p : ℕ) (ap : List ℕ)
  (stores : List (ℕ × Store))

theorem unsignedFor_d (input : List UInt8) : unsignedFor .d input = digitsOf (unspaced input) :=
  if_congr ⟨fun h => h.2, fun h => ⟨rfl, h⟩⟩ rfl rfl

theorem scanUnsigned_ten (width : ℕ) (input : List UInt8) :
    scanUnsigned (unsignedFor .d input) (wrapInt width) Conv.d.scanBase =
      if readDigits width (unspaced input) = [] then none
      else some (.ofNat (number digitValue 10 (readDigits width (unspaced input))),
        (readText (unspaced input)).drop (readDigits width (unspaced input)).length) := by
  rw [unsignedFor_d]
  exact scanUnsigned_eq (b := 10) (p := readText (unspaced input)) (wrapInt width) rfl (by decide)

theorem sscanfLoop_read (h : readDigits width (unspaced input) ≠ []) :
    sscanfLoop str (byte '%' :: (scanText width .none .d ++ fmt))
        ⟨input, assigned, p :: ap, stores⟩ =
      sscanfLoop str fmt
        ⟨(readText (unspaced input)).drop (readDigits width (unspaced input)).length,
          assigned + 1, ap, stores ++ [(p, stored Length.none.code (signedFor .d input
            (.ofNat (number digitValue 10 (readDigits width (unspaced input))))))]⟩ := by
  apply sscanfLoop_integer
  rw [scanUnsigned_ten, if_neg h]

theorem sscanfLoop_unread (h : readDigits width (unspaced input) = []) :
    sscanfLoop str (byte '%' :: (scanText width .none .d ++ fmt))
        ⟨input, assigned, ap, stores⟩ =
      some ⟨unsignedFor .d input, assigned, ap, stores⟩ := by
  apply sscanfLoop_no_integer
  rw [scanUnsigned_ten, if_pos h]

end Rounds

theorem digit_mem_field {width : ℕ} {t : List UInt8} :
    (∃ c ∈ field width t, isdigit c = true) ↔ fieldDigits width t ≠ [] := by
  constructor
  · rintro ⟨c, hc, hdigit⟩ hnil
    have hfield : field width t = signOf t ++ fieldDigits width t := rfl
    rw [hfield, hnil, List.append_nil] at hc
    rcases signOf_cases t with h | h | h <;> rw [h] at hc
    · cases hc
    · obtain rfl := List.mem_singleton.mp hc
      exact absurd hdigit (by decide)
    · obtain rfl := List.mem_singleton.mp hc
      exact absurd hdigit (by decide)
  · intro h
    obtain ⟨c, hc⟩ := List.exists_mem_of_ne_nil _ h
    exact ⟨c, List.mem_append_right _ hc, isdigit_of_mem_run hc⟩

theorem stored_field (width : ℕ) (input : List UInt8) :
    stored Length.none.code (signedFor .d input
        (.ofNat (number digitValue 10 (fieldDigits width (unspaced input))))) =
      .word (.ofInt (fieldValue (field width (unspaced input)))) := by
  have hdigits : digitsOf (field width (unspaced input)) = fieldDigits width (unspaced input) :=
    digitsOf_signOf_append _ fun c hc => isdigit_of_mem_run hc
  have hsigned : signedFor .d input
        (.ofNat (number digitValue 10 (fieldDigits width (unspaced input)))) =
      .ofInt (fieldValue (field width (unspaced input))) := by
    unfold signedFor fieldValue
    rw [hdigits]
    by_cases hneg : (unspaced input).head? = some (byte '-')
    · rw [if_pos ⟨rfl, hneg⟩, if_pos ((head_field width _).mpr hneg), UInt64.ofInt_neg, ofInt_cast]
    · rw [if_neg fun h => hneg h.2, if_neg (mt (head_field width _).mp hneg), ofInt_cast]
  rw [hsigned]
  exact congrArg Store.word (toUInt32_ofInt _)

theorem drop_field {width : ℕ} {t : List UInt8} (h : fieldDigits width t ≠ []) :
    (readText t).drop (fieldDigits width t).length = t.drop (field width t).length := by
  have hrun : digitRun digitValue 10 (digitsOf t) ≠ [] := by
    intro hnil
    exact h (List.prefix_nil.mp (hnil ▸ fieldDigits_isPrefix width t))
  have hlength : (field width t).length = (signOf t).length + (fieldDigits width t).length :=
    List.length_append
  have htext : t.drop (field width t).length =
      (signOf t ++ digitsOf t).drop (field width t).length := by rw [signOf_append_digitsOf]
  rw [htext, readText_eq hrun, hlength, ← List.drop_drop, List.drop_left]

/-- Where as many digits are read as the field has, they are those of the field. -/
theorem scansField_of_length {width : ℕ} {input : List UInt8}
    (h : (readDigits width (unspaced input)).length = (fieldDigits width (unspaced input)).length) :
    ScansField width input := by
  have hread := readDigits_eq_of_length h
  intro q hq str fmt assigned p ap stores
  obtain rfl := isField_iff.mp hq
  constructor
  · intro hdigit
    have hne := digit_mem_field.mp hdigit
    rw [sscanfLoop_read str fmt assigned p ap stores (hread ▸ hne), hread, stored_field,
      drop_field hne]
  · intro hnone
    have hnil : fieldDigits width (unspaced input) = [] := by
      by_contra hne
      obtain ⟨c, hc, hdigit⟩ := digit_mem_field.mpr hne
      exact Bool.false_ne_true ((hnone c hc).symm.trans hdigit)
    exact ⟨_, sscanfLoop_unread str fmt assigned (p :: ap) stores (hread.trans hnil)⟩

/-- The number of the digits that are read shows in the assignments and in the input that is
left. -/
theorem ScansField.length {width : ℕ} {input : List UInt8} (h : ScansField width input) :
    (readDigits width (unspaced input)).length = (fieldDigits width (unspaced input)).length := by
  have hend : ∀ s, sscanfLoop [] [] s = some s := fun s => sscanfLoop.eq_def ..
  obtain ⟨hyes, hno⟩ := h _ (isField_iff.mpr rfl) [] [] 0 0 [] []
  by_cases hfield : fieldDigits width (unspaced input) = []
  · obtain ⟨input', hloop⟩ := hno fun c hc => by
      apply Bool.eq_false_of_not_eq_true
      exact fun hdigit => digit_mem_field.mp ⟨c, hc, hdigit⟩ hfield
    by_contra hne
    have hread : readDigits width (unspaced input) ≠ [] := by
      intro hnil
      rw [hnil, hfield] at hne
      exact hne rfl
    rw [sscanfLoop_read [] [] 0 0 [] [] hread, hend] at hloop
    exact absurd (congrArg Scan.assigned (Option.some.inj hloop)) Nat.one_ne_zero
  · have hloop := hyes (digit_mem_field.mpr hfield)
    by_cases hread : readDigits width (unspaced input) = []
    · rw [sscanfLoop_unread [] [] 0 [0] [] hread, hend] at hloop
      exact absurd (congrArg Scan.assigned (Option.some.inj hloop)) Nat.zero_ne_one
    · rw [sscanfLoop_read [] [] 0 0 [] [] hread, hend, hend, ← drop_field hfield] at hloop
      have hinput := congrArg Scan.input (Option.some.inj hloop)
      have hlength := congrArg List.length hinput
      have hreadle : (readDigits width (unspaced input)).length ≤
          (readText (unspaced input)).length :=
        ((List.takeWhile_prefix _).trans (window_isPrefix ..)).length_le
      have hfieldle : (fieldDigits width (unspaced input)).length ≤
          (readText (unspaced input)).length := by
        rw [readText_eq fun hnil => hfield (List.prefix_nil.mp (hnil ▸ fieldDigits_isPrefix ..))]
        exact ((fieldDigits_isPrefix ..).trans (List.takeWhile_prefix _)).length_le
      simp only [List.length_drop] at hlength
      omega

/-- The conversion `%d`, with or without a width, reads the field of its input if and only if the
digits are counted right. -/
theorem scansField_iff (width : ℕ) (input : List UInt8) :
    ScansField width input ↔ DigitsCounted width (unspaced input) := by
  rw [← readDigits_length_iff width (unspaced_unspaced input)]
  exact ⟨ScansField.length, scansField_of_length⟩

/-- With the width 2, `-12` is read from `-123`. -/
theorem not_scansField_width : ¬ ScansField 2 (literal "-123") := fun h =>
  absurd h.length (by decide +kernel)

end LampUserspace.Stdio
