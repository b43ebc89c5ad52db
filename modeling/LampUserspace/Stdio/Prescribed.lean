import LampUserspace.Stdio.Directives

/-! # When the prescribed text is emitted

`vsnprintf` emits the text that the standard prescribes for every integer
conversion but some of `%#o`: there its zero is put before zeros that the
precision asks for already, and left out of a zero with precision 0. Besides, the
prefix of `%#x` or `%#X` and the digits that the largest precision asks for are more
than an `int` counts.
-/

namespace LampUserspace.Stdio

namespace Directive

open Numerals

variable (d : Directive) (v : UInt64)

theorem conv_base_range : 1 < d.conv.base ∧ d.conv.base ≤ 36 ∧ 8 ≤ d.conv.base := by
  cases d.conv <;> decide

/-- The zeros and digits that `vsnprintf` emits behind the sign and the prefix. -/
def emittedDigits : List UInt8 :=
  numeral (d.value v).natAbs d.conv.base (d.conv = .X) (d.precision.elim (-1) fun p => p.value)

theorem emittedDigits_eq :
    d.emittedDigits v =
      if d.precision.elim 1 Count.value = 0 ∧ d.value v = 0 then []
      else List.replicate (d.precision.elim 1 Count.value -
          (numberText d.conv.base (d.conv = .X) (d.value v).natAbs).length) (byte '0') ++
        numberText d.conv.base (d.conv = .X) (d.value v).natAbs := by
  have hne : numberText d.conv.base (d.conv = .X) (d.value v).natAbs ≠ [] :=
    numberText_ne_nil _
  have hpos := List.length_pos_of_ne_nil hne
  unfold emittedDigits numeral
  rw [digits_eq d.conv_base_range.1]
  simp only [Int.natAbs_eq_zero]
  generalize numberText d.conv.base (decide (d.conv = .X)) (d.value v).natAbs = text at hpos ⊢
  cases d.precision with
  | none =>
    have hnone : ((-1 : ℤ) - text.length).toNat = 0 := by omega
    have hone : 1 - text.length = 0 := by omega
    simp [hnone, hone]
  | some p =>
    have hsub : ((p.value : ℤ) - text.length).toNat = p.value - text.length := by omega
    by_cases hzero : p.value = 0 ∧ d.value v = 0
    · simp [hzero]
    · simp [hzero, hsub]

theorem natAbs_value_lt : (d.value v).natAbs < 2 ^ 64 := by
  have hword := v.toUInt32.toNat_lt
  have hdword := v.toNat_lt
  have hint : -2 ^ 31 ≤ v.toUInt32.toBitVec.toInt := BitVec.le_toInt _
  have hint' : v.toUInt32.toBitVec.toInt < 2 ^ 31 := BitVec.toInt_lt
  have hlong : -2 ^ 63 ≤ v.toBitVec.toInt := BitVec.le_toInt _
  have hlong' : v.toBitVec.toInt < 2 ^ 63 := BitVec.toInt_lt
  unfold value
  split
  · split <;> omega
  · split <;> omega

theorem length_text_le :
    (numberText d.conv.base (d.conv = .X) (d.value v).natAbs).length ≤ 22 := by
  rw [← utoaRev_reverse d.conv_base_range.1, List.length_reverse]
  exact length_utoaRev_le d.conv_base_range.2.2 (d.natAbs_value_lt v) _

theorem length_emittedDigits_le :
    (d.emittedDigits v).length ≤ max (d.precision.elim 1 Count.value) 22 := by
  have htext := d.length_text_le v
  rw [emittedDigits_eq]
  split
  · exact Nat.zero_le _
  · rw [List.length_append, List.length_replicate]
    omega

theorem le_length_emittedDigits (hv : d.value v ≠ 0) :
    d.precision.elim 1 Count.value ≤ (d.emittedDigits v).length := by
  rw [emittedDigits_eq, if_neg fun hand => hv hand.2, List.length_append, List.length_replicate]
  omega

theorem precision_lt : d.precision.elim 1 Count.value < 2 ^ 31 := by
  cases d.precision with
  | none => exact Nat.one_lt_two_pow (by decide)
  | some p => exact p.value_lt

/-! ## The largest precision -/

/-- The conversion `%#x` or `%#X` of a nonzero value with the largest precision and without a
width. -/
def Overlong : Prop :=
  (d.conv = .x ∨ d.conv = .X) ∧ .hash ∈ d.flags ∧ d.value v ≠ 0 ∧ d.width.value = 0 ∧
    d.precision.elim 1 Count.value = 2 ^ 31 - 1

/-- Two bytes stand before the digits only with the prefix `0x` or `0X`. -/
theorem length_lead_cases :
    (lead (d.sign v) (d.pfx v)).length ≤ 1 ∨ (lead (d.sign v) (d.pfx v)).length = 2 ∧
      (d.conv = .x ∨ d.conv = .X) ∧ .hash ∈ d.flags ∧ d.value v ≠ 0 := by
  have hsign : ∀ c : UInt8, (lead c []).length ≤ 1 := by
    intro c
    unfold lead
    split <;> simp
  unfold sign pfx
  by_cases hs : d.conv.signed = true
  · rw [if_pos hs, if_pos hs]
    exact .inl (hsign _)
  · rw [if_neg hs, if_neg hs]
    split
    · rename_i hhash
      split
      · exact .inr ⟨rfl, .inl (by assumption), hhash⟩
      · split
        · exact .inr ⟨rfl, .inr (by assumption), hhash⟩
        · exact .inl (by split <;> decide)
    · exact .inl (hsign 0)

theorem length_lead_of_hex (hx : d.conv = .x ∨ d.conv = .X) (hhash : .hash ∈ d.flags)
    (hv : d.value v ≠ 0) : (lead (d.sign v) (d.pfx v)).length = 2 := by
  have hs : ¬ d.conv.signed = true := by rcases hx with hx | hx <;> simp [hx, Conv.signed]
  unfold sign pfx
  rw [if_neg hs, if_neg hs, if_pos ⟨hhash, hv⟩]
  rcases hx with hx | hx <;> rw [hx] <;> rfl

theorem overlong_iff :
    d.Overlong v ↔ d.width.value = 0 ∧
      (lead (d.sign v) (d.pfx v)).length + (d.emittedDigits v).length = 2 ^ 31 + 1 := by
  have hle := d.length_emittedDigits_le v
  have hprecision := d.precision_lt
  constructor
  · rintro ⟨hx, hhash, hv, hwidth, hmax⟩
    have hge := d.le_length_emittedDigits v hv
    refine ⟨hwidth, ?_⟩
    rw [d.length_lead_of_hex v hx hhash hv]
    omega
  · rintro ⟨hwidth, hlength⟩
    rcases d.length_lead_cases v with hlead | ⟨hlead, hx, hhash, hv⟩
    · omega
    · exact ⟨hx, hhash, hv, hwidth, by omega⟩

/-- What is missing to the width is found, but for the texts that are too long for an `int`. -/
theorem missing_piece :
    missing d.width.value
        ((lead (d.sign v) (d.pfx v)).length + (d.emittedDigits v).length) =
      if d.width.value = 0 ∧
          (lead (d.sign v) (d.pfx v)).length + (d.emittedDigits v).length = 2 ^ 31 + 1 then
        2 ^ 31 - 1
      else d.width.value -
        ((lead (d.sign v) (d.pfx v)).length + (d.emittedDigits v).length) := by
  have hle := d.length_emittedDigits_le v
  have hprecision := d.precision_lt
  have hlead : (lead (d.sign v) (d.pfx v)).length ≤ 2 := by
    rcases d.length_lead_cases v with hlead | ⟨hlead, -⟩ <;> omega
  exact missing_eq_ite d.width.value_lt (by omega)

variable {d v} in
theorem bytes_piece (h : ¬ d.Overlong v) :
    (d.piece v).bytes = d.layout (lead (d.sign v) (d.pfx v)) (d.emittedDigits v) := by
  have hnum : numeral (d.value v).natAbs d.conv.base (d.conv = .X)
      (d.precision.elim (-1) fun p => p.value) = d.emittedDigits v := rfl
  have hmissing := d.missing_piece v
  rw [if_neg (mt (d.overlong_iff v).mpr h)] at hmissing
  have hnone : (d.precision.elim (-1 : ℤ) fun p => p.value) < 0 ↔ d.precision.isNone = true := by
    cases d.precision <;> simp
  unfold layout
  simp only [piece, Piece.bytes, filler, hnum, hmissing, hnone, decide_eq_true_eq]

theorem length_layout (head digits : List UInt8) :
    (d.layout head digits).length = max d.width.value (head.length + digits.length) := by
  unfold layout
  dsimp only
  split
  · simp only [List.length_append, List.length_replicate]
    omega
  · split
    · simp only [List.length_append, List.length_replicate]
      omega
    · simp only [List.length_append, List.length_replicate]
      omega

/-! ## The zero of `%#o` -/

/-- The conversion `%#o` whose precision exceeds the digits of its value, or is 0 for the value
0. -/
def Misplaced : Prop :=
  d.conv = .o ∧ .hash ∈ d.flags ∧ ∃ p, d.precision = some p ∧
    if d.value v = 0 then p.value = 0
    else (numberText 8 false (d.value v).natAbs).length < p.value

theorem prescribedDigits_eq :
    d.prescribedDigits v =
      if d.conv = .o ∧ .hash ∈ d.flags ∧ (d.emittedDigits v).head? ≠ some (byte '0') then
        byte '0' :: d.emittedDigits v
      else d.emittedDigits v := by
  rw [emittedDigits_eq]
  rfl

theorem layout_zero (digits : List UInt8) :
    d.layout [byte '0'] digits = d.layout [] (byte '0' :: digits) := by
  have hlength : [byte '0'].length + digits.length =
      ([] : List UInt8).length + (byte '0' :: digits).length := by
    simp
    omega
  have hswap : ∀ n, byte '0' :: (List.replicate n (byte '0') ++ digits) =
      List.replicate n (byte '0') ++ byte '0' :: digits := by
    intro n
    rw [List.append_cons, ← List.replicate_succ', List.replicate_succ, List.cons_append]
  unfold layout
  simp only [hlength]
  split
  · rfl
  · split
    · exact hswap _
    · simp

theorem lead_eq (h : ¬ (d.conv = .o ∧ .hash ∈ d.flags)) :
    lead (d.sign v) (d.pfx v) = d.prescribedHead v := by
  unfold lead sign pfx prescribedHead
  by_cases hs : d.conv.signed = true
  · simp only [if_pos hs, List.append_nil]
    split
    · rfl
    · split
      · rfl
      · split <;> rfl
  · simp only [if_neg hs]
    by_cases hhash : .hash ∈ d.flags ∧ d.value v ≠ 0
    · have ho : d.conv ≠ .o := fun ho => h ⟨ho, hhash.1⟩
      simp only [if_pos hhash, if_neg ho]
      rfl
    · simp only [if_neg hhash]
      rfl

theorem emittedDigits_zero {d : Directive} {v : UInt64} (hv : d.value v = 0) :
    d.emittedDigits v =
      List.replicate (d.precision.elim 1 Count.value) (byte '0') := by
  have htext : numberText d.conv.base (d.conv = .X) (d.value v).natAbs = [byte '0'] := by
    rw [hv]
    exact numberText_zero _ _
  rw [emittedDigits_eq, htext]
  by_cases hp : d.precision.elim 1 Count.value = 0
  · rw [if_pos ⟨hp, hv⟩, hp]
    rfl
  · rw [if_neg fun hand => hp hand.1, ← List.replicate_one, List.replicate_append_replicate]
    congr 1
    simp only [List.length_replicate]
    omega

section Octal

variable {d v} (ho : d.conv = .o) (hhash : .hash ∈ d.flags)
include ho

theorem lead_octal :
    lead (d.sign v) (d.pfx v) = if d.value v ≠ 0 ∧ .hash ∈ d.flags then [byte '0'] else [] := by
  have hs : ¬ d.conv.signed = true := by simp [ho, Conv.signed]
  have hsign : d.sign v = 0 := if_neg hs
  have hpfx : d.pfx v = if .hash ∈ d.flags ∧ d.value v ≠ 0 then [byte '0'] else [] := by
    unfold pfx
    rw [if_neg hs]
    simp only [ho]
    rfl
  rw [lead, hsign, hpfx, if_pos rfl, List.nil_append]
  simp only [and_comm]

theorem not_overlong_of_octal : ¬ d.Overlong v := by
  rintro ⟨hx, -⟩
  rcases hx with hx | hx <;> cases ho.symm.trans hx

theorem prescribedHead_octal : d.prescribedHead v = [] := by
  have hs : ¬ d.conv.signed = true := by simp [ho, Conv.signed]
  unfold prescribedHead
  rw [if_neg hs]
  simp [ho]

theorem emittedDigits_octal (hv : d.value v ≠ 0) :
    d.emittedDigits v =
      List.replicate (d.precision.elim 1 Count.value -
          (numberText 8 false (d.value v).natAbs).length) (byte '0') ++
        numberText 8 false (d.value v).natAbs := by
  rw [emittedDigits_eq, if_neg fun hand => hv hand.2, ho]
  rfl

include hhash

theorem bytes_of_not_misplaced (h : ¬ d.Misplaced v) : (d.piece v).bytes = d.prescribed v := by
  rw [bytes_piece (not_overlong_of_octal ho), prescribed, prescribedHead_octal ho,
    prescribedDigits_eq, lead_octal ho]
  by_cases hv : d.value v = 0
  · have hzero : (d.emittedDigits v).head? = some (byte '0') := by
      rw [emittedDigits_zero hv]
      cases hp : d.precision with
      | none => rfl
      | some p =>
        have hpos : p.value ≠ 0 := fun h0 => h ⟨ho, hhash, p, hp, by rw [if_pos hv]; exact h0⟩
        obtain ⟨n, hn⟩ := Nat.exists_eq_succ_of_ne_zero hpos
        rw [Option.elim_some, hn]
        rfl
    rw [if_neg fun hand => hand.1 hv, if_neg fun hand => hand.2.2 hzero]
  · have hle : d.precision.elim 1 Count.value -
        (numberText 8 false (d.value v).natAbs).length = 0 := by
      have hpos := List.length_pos_of_ne_nil
        (numberText_ne_nil (d.value v).natAbs : numberText 8 false _ ≠ [])
      cases hp : d.precision with
      | none =>
        rw [Option.elim_none]
        omega
      | some p =>
        have hnot : ¬ (numberText 8 false (d.value v).natAbs).length < p.value :=
          fun hlt => h ⟨ho, hhash, p, hp, by rw [if_neg hv]; exact hlt⟩
        rw [Option.elim_some]
        omega
    have hne : (d.emittedDigits v).head? ≠ some (byte '0') := by
      rw [emittedDigits_octal ho hv, hle]
      exact head_numberText_ne (by decide) (by decide) (Int.natAbs_ne_zero.mpr hv) _
    rw [if_pos ⟨hv, hhash⟩, if_pos ⟨ho, hhash, hne⟩, layout_zero]

end Octal

theorem prescribed_of_not_octal (h : ¬ (d.conv = .o ∧ .hash ∈ d.flags)) :
    d.prescribed v = d.layout (lead (d.sign v) (d.pfx v)) (d.emittedDigits v) := by
  rw [prescribed, prescribedDigits_eq, lead_eq d v h,
    if_neg fun hand => h ⟨hand.1, hand.2.1⟩]

/-- Without its spaces, a text with a precision is its head and digits. -/
theorem filter_layout {d : Directive} {p : Count} (hp : d.precision = some p)
    {head digits : List UInt8} (h : ∀ c ∈ head ++ digits, c ≠ byte ' ') :
    (d.layout head digits).filter (· ≠ byte ' ') = head ++ digits := by
  have hkeep : (head ++ digits).filter (· ≠ byte ' ') = head ++ digits :=
    List.filter_eq_self.mpr fun c hc => by simpa using h c hc
  have hdrop : ∀ n, (List.replicate n (byte ' ')).filter (· ≠ byte ' ') = [] := by simp
  have hnone : ¬ (.zero ∈ d.flags ∧ d.precision.isNone = true) := by simp [hp]
  unfold layout
  simp only [if_neg hnone]
  split
  · rw [List.filter_append, hkeep, hdrop, List.append_nil]
  · rw [List.append_assoc, List.filter_append, hkeep, hdrop, List.nil_append]

theorem ne_space_of_mem_emittedDigits {c : UInt8} (h : c ∈ d.emittedDigits v) : c ≠ byte ' ' := by
  rintro rfl
  rw [emittedDigits_eq] at h
  split at h
  · simp at h
  · rcases List.mem_append.mp h with h | h
    · exact absurd (List.eq_of_mem_replicate h) (by decide)
    · obtain ⟨hlow, hhigh, -⟩ := d.conv_base_range
      obtain ⟨n, hn, -⟩ := isDigit_iff.mp (isDigit_of_mem_numberText hlow hhigh h)
      have hnone : digitValue (byte ' ') = none := by decide
      exact absurd (hnone.symm.trans hn) (by simp)

theorem bytes_of_misplaced {d : Directive} {v : UInt64} (h : d.Misplaced v) :
    (d.piece v).bytes ≠ d.prescribed v := by
  obtain ⟨ho, hhash, p, hp, hplace⟩ := h
  intro heq
  have hspace : ∀ c ∈ d.emittedDigits v, c ≠ byte ' ' := fun c => ne_space_of_mem_emittedDigits d v
  have hzero : byte '0' ≠ byte ' ' := by decide
  rw [bytes_piece (not_overlong_of_octal ho), prescribed, prescribedHead_octal ho,
    prescribedDigits_eq, lead_octal ho] at heq
  have hfilter := congrArg (fun s : List UInt8 => (s.filter (· ≠ byte ' ')).length) heq
  by_cases hv : d.value v = 0
  · -- the value 0 has no digits, and the standard asks for one zero
    rw [if_pos hv] at hplace
    have hnil : d.emittedDigits v = [] := by
      rw [emittedDigits_zero hv, hp, Option.elim_some, hplace]
      rfl
    rw [if_neg fun hand => hand.1 hv, hnil, if_pos ⟨ho, hhash, by simp⟩, filter_layout hp (by simp),
      filter_layout hp (by simp [hzero])] at hfilter
    simp at hfilter
  · -- the precision brings a zero already, so the one of the prefix is too many
    rw [if_neg hv] at hplace
    have hhead : (d.emittedDigits v).head? = some (byte '0') := by
      obtain ⟨n, hn⟩ := Nat.exists_eq_add_of_lt hplace
      rw [emittedDigits_octal ho hv, hp, Option.elim_some, hn,
        show (numberText 8 false (d.value v).natAbs).length + n + 1 -
          (numberText 8 false (d.value v).natAbs).length = n + 1 by omega]
      rfl
    rw [if_pos ⟨hv, hhash⟩, if_neg fun hand => hand.2.2 hhead, filter_layout hp,
      filter_layout hp (by simpa using hspace)] at hfilter
    · simp at hfilter
    · simpa [hzero] using hspace

/-- With the largest precision the text is filled up although no width is given. -/
theorem bytes_of_overlong {d : Directive} {v : UInt64} (h : d.Overlong v) :
    (d.piece v).bytes ≠ d.prescribed v := by
  have hoctal : ¬ (d.conv = .o ∧ .hash ∈ d.flags) := fun hand => not_overlong_of_octal hand.1 h
  have hlong := (d.overlong_iff v).mp h
  have hmissing := d.missing_piece v
  rw [if_pos hlong] at hmissing
  have hbytes : (d.piece v).bytes.length = (lead (d.sign v) (d.pfx v)).length +
      (d.emittedDigits v).length + (2 ^ 31 - 1) := hmissing ▸ length_bytes_uint ..
  intro heq
  rw [heq, prescribed_of_not_octal d v hoctal, length_layout, hlong.1, hlong.2] at hbytes
  omega

theorem bytes_eq_prescribed_iff :
    (d.piece v).bytes = d.prescribed v ↔ ¬ d.Misplaced v ∧ ¬ d.Overlong v := by
  constructor
  · intro heq
    exact ⟨fun h => bytes_of_misplaced h heq, fun h => bytes_of_overlong h heq⟩
  · rintro ⟨hmisplaced, hoverlong⟩
    by_cases hoctal : d.conv = .o ∧ .hash ∈ d.flags
    · exact bytes_of_not_misplaced hoctal.1 hoctal.2 hmisplaced
    · rw [bytes_piece hoverlong, prescribed_of_not_octal d v hoctal]

/-! ## The conversion in a format -/

theorem nul_free_text : 0 ∉ d.text := by
  have hcount : ∀ c : Count, 0 ∉ c.text := by
    intro c h
    cases c with
    | digits s hs => exact absurd (hs 0 h) (by decide)
    | star n hn => exact absurd (List.mem_singleton.mp h) (by decide)
  have hflag : ∀ f : Flag, f.char ≠ 0 := by
    intro f
    cases f <;> decide
  have hconv : ∀ c : Conv, c.char ≠ 0 := by
    intro c
    cases c <;> decide
  have hlength : ∀ length : Length, 0 ∉ length.text := by
    intro length
    cases length <;> decide
  intro h
  simp only [text, List.mem_append, List.mem_map, List.mem_singleton] at h
  rcases h with ⟨f, -, hf⟩ | h | h | h | h
  · exact hflag f hf
  · exact hcount _ h
  · cases hp : d.precision with
    | none => simp [hp] at h
    | some p =>
      rw [hp] at h
      rcases List.mem_cons.mp h with h | h
      · exact absurd h (by decide)
      · exact hcount p h
  · exact hlength _ h
  · exact hconv _ h.symm

def format (fmt : CString) : CString :=
  ⟨byte '%' :: (d.text ++ fmt.bytes), by
    have hpercent : ¬ 0 = byte '%' := by decide
    simp [hpercent, d.nul_free_text, fmt.nul_free]⟩

theorem formatted_format (fmt : CString) (ap : List Arg) :
    formatted (d.format fmt) (d.args v ++ ap) =
      (formatted fmt ap).map ((d.piece v).bytes ++ ·) := by
  have hpieces : pieces (d.format fmt).bytes (d.args v ++ ap) =
      (pieces fmt.bytes ap).map (d.piece v :: ·) := by
    rw [format, pieces_percent, d.readPiece_text]
    rfl
  rw [formatted, formatted, hpieces, Option.map_map, Option.map_map]
  rfl

/-- For this argument `vsnprintf` emits the prescribed text of the conversion, whatever follows it
in the format, and keeps within its buffer for the digits. -/
def Emits : Prop :=
  (∀ fmt ap rest, formatted fmt ap = some rest → ∀ memory str size,
    vsnprintf memory str size (d.format fmt) (d.args v ++ ap) =
      some (printed memory str size (d.prescribed v ++ rest))) ∧
  (utoaRev (d.value v).natAbs d.conv.base (d.conv = .X)).length ≤ 32

end Directive

theorem printed_injective {memory : Memory} {out out' : List UInt8}
    (h : printed memory none 0 out = printed memory none 0 out') : out = out' := by
  have hwrites := congrArg Printed.writes h
  exact List.map_injective_iff.mpr (fun a b hab => congrArg Prod.snd hab) hwrites

theorem Directive.bytes_of_emits {d : Directive} {v : UInt64} (h : d.Emits v) :
    (d.piece v).bytes = d.prescribed v := by
  have hempty : formatted ⟨[], List.not_mem_nil⟩ [] = some [] := by
    rw [formatted, pieces_nil]
    rfl
  have hprinted : ∀ memory, printed memory none 0 (d.piece v).bytes =
      printed memory none 0 (d.prescribed v) := by
    intro memory
    have hcall := h.1 _ _ _ hempty memory none 0
    rw [vsnprintf_eq, formatted_format, hempty, Option.map_some, Option.map_some, List.append_nil,
      List.append_nil] at hcall
    exact Option.some.inj hcall
  exact printed_injective (hprinted fun _ => 0)

/-- The prescribed text is emitted exactly when the zero of `%#o` is not misplaced and the text of
`%#x` is not too long. -/
theorem Directive.emits_iff (d : Directive) (v : UInt64) :
    d.Emits v ↔ ¬ d.Misplaced v ∧ ¬ d.Overlong v := by
  rw [← bytes_eq_prescribed_iff]
  constructor
  · exact bytes_of_emits
  · intro heq
    constructor
    · intro fmt ap rest hrest memory str size
      rw [vsnprintf_eq, formatted_format, hrest, ← heq]
      rfl
    · have hlength := length_utoaRev_le d.conv_base_range.2.2 (natAbs_value_lt d v) (d.conv = .X)
      exact hlength.trans (by decide)

abbrev octalThree : Directive where
  flags := [.hash]
  width := .absent
  precision := some (.digits [byte '3'] (fun c hc => by rw [List.mem_singleton.mp hc]; rfl)
    (by decide))
  length := .none
  conv := .o
  width_head := Count.absent_head

/-- The value 8 is printed as `0010`, where its digits are `010` already. -/
theorem octalThree_not_emits : ¬ ∀ (d : Directive) (v : UInt64), d.Emits v := by
  intro h
  have hmisplaced : octalThree.Misplaced 8 := by
    refine ⟨rfl, List.mem_singleton.mpr rfl, _, rfl, ?_⟩
    decide +kernel
  exact Directive.bytes_of_misplaced hmisplaced (Directive.bytes_of_emits (h octalThree 8))

end LampUserspace.Stdio
