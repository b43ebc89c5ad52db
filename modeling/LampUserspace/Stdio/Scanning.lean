import LampUserspace.Stdio.Directives
import LampUserspace.Stdio.Scan
import LampUserspace.Stdlib.Subject

/-! # What the scanner reads

The number that `scan_unsigned` reads, and a round of `sscanf` for a conversion of an
integer.
-/

namespace LampUserspace.Stdio

open Numerals

theorem scanSpace_eq : scanSpace = isspace := by
  have hall : ∀ c, scanSpace c = isspace c := by decide +kernel
  exact funext hall

theorem scanDigit_eq : ∀ c, scanDigit c = (digitValue c).filter (· < 16) := by decide +kernel

/-! ## Values of 64 bits -/

theorem toNat_ofInt (z : ℤ) : ((UInt64.ofInt z).toNat : ℤ) = z % 2 ^ 64 := by
  simp [UInt64.ofInt]
  omega

theorem ofInt_cast (n : ℕ) : UInt64.ofInt n = .ofNat n := by
  apply UInt64.toNat_inj.mp
  have hn := toNat_ofInt n
  simp only [UInt64.toNat_ofNat']
  omega

theorem toUInt32_ofInt (z : ℤ) : (UInt64.ofInt z).toUInt32 = .ofInt z := by
  apply UInt32.toNat_inj.mp
  have hz := toNat_ofInt z
  simp only [UInt64.toNat_toUInt32, UInt32.ofInt, UInt32.toNat_ofNat']
  omega

/-! ## Digits -/

/-- The part of the text that a width leaves visible behind `consumed` digits, nothing if the width
is negative. -/
def window (width : ℤ) (consumed : ℕ) (s : List UInt8) : List UInt8 :=
  if width = 0 then s else s.take (width - consumed).toNat

@[simp] theorem window_nil (width : ℤ) (consumed : ℕ) : window width consumed [] = [] := by
  simp [window]

theorem window_cons {width : ℤ} {consumed : ℕ} (h : width = 0 ∨ consumed < width) (c : UInt8)
    (s : List UInt8) :
    window width consumed (c :: s) = c :: window width (consumed + 1) s := by
  unfold window
  by_cases hw : width = 0
  · rw [if_pos hw, if_pos hw]
  · have hlt := h.resolve_left hw
    have hroom : (width - consumed).toNat = (width - (consumed + 1 : ℕ)).toNat + 1 := by omega
    rw [if_neg hw, if_neg hw, hroom, List.take_succ_cons]

theorem window_full {width : ℤ} {consumed : ℕ} (h : ¬ (width = 0 ∨ consumed < width))
    (s : List UInt8) : window width consumed s = [] := by
  obtain ⟨hw, hle⟩ := not_or.mp h
  rw [window, if_neg hw, Int.toNat_of_nonpos (by omega), List.take_zero]

/-- The loop reads the run of digits that the width leaves visible, modulo `2 ^ 64`. -/
theorem scanLoop_eq {b : ℕ} (hb : b ≤ 16) (width : ℤ) (n consumed : ℕ) (s : List UInt8) :
    scanLoop width b (.ofNat n) consumed s =
      (.ofNat (extend digitValue b n (digitRun digitValue b (window width consumed s))),
        consumed + (digitRun digitValue b (window width consumed s)).length,
        s.drop (digitRun digitValue b (window width consumed s)).length) := by
  induction s generalizing n consumed with
  | nil => rw [window_nil]; rfl
  | cons c s ih =>
    by_cases hw : width = 0 ∨ consumed < width
    · have hstop : isDigit digitValue b c = false →
          (.ofNat n, consumed, c :: s) =
            (UInt64.ofNat (extend digitValue b n
              (digitRun digitValue b (c :: window width (consumed + 1) s))),
              consumed + (digitRun digitValue b (c :: window width (consumed + 1) s)).length,
              (c :: s).drop
                (digitRun digitValue b (c :: window width (consumed + 1) s)).length) := by
        intro h
        rw [digitRun_stop h]
        rfl
      rw [scanLoop, if_pos hw, window_cons hw, scanDigit_eq]
      cases hc : digitValue c with
      | none => exact hstop (by simp [isDigit, hc])
      | some d =>
        by_cases hd : d < b
        · have hdigit : isDigit digitValue b c = true := isDigit_iff.mpr ⟨d, hc, hd⟩
          have hfilter : (some d).filter (· < 16) = some d := by
            simp [Option.filter, show d < 16 by omega]
          have hv : UInt64.ofNat n * .ofInt b + .ofNat d = .ofNat (n * b + d) := by
            have hbase : UInt64.ofInt b = .ofNat b := by
              apply UInt64.toNat_inj.mp
              simp [UInt64.ofInt]
              omega
            rw [UInt64.ofNat_add, UInt64.ofNat_mul, hbase]
          simp only [hfilter, if_neg (show ¬ (d : ℤ) ≥ b by omega)]
          rw [hv, ih, digitRun_cons hdigit, extend_cons, hc, List.length_cons, List.drop_succ_cons,
            Nat.add_assoc, Nat.add_comm 1]
          rfl
        · have hnot : isDigit digitValue b c = false := by simp [isDigit, hc, hd]
          by_cases h16 : d < 16
          · simp only [Option.filter, h16, decide_true, if_true, if_pos (show (d : ℤ) ≥ b by omega)]
            exact hstop hnot
          · simp only [Option.filter, h16, decide_false, Bool.false_eq_true, if_false]
            exact hstop hnot
    · rw [scanLoop, if_neg hw, window_full hw]
      rfl

def unplussed (s : List UInt8) : List UInt8 := if s.head? = some (byte '+') then s.tail else s

theorem scanUnsigned_unplussed (input : List UInt8) (width base : ℤ) :
    scanUnsigned input width base =
      let q := Stdlib.strtoulBase base (unplussed (input.dropWhile scanSpace))
      let r := scanLoop width q.1 0 0 q.2
      if r.2.1 = 0 then none else some (r.1, r.2.2) := rfl

theorem scanUnsigned_eq {input p : List UInt8} {base : ℤ} {b : ℕ} (width : ℤ)
    (h : Stdlib.strtoulBase base (unplussed (input.dropWhile isspace)) = ((b : ℤ), p))
    (hb : b ≤ 16) :
    scanUnsigned input width base =
      if digitRun digitValue b (window width 0 p) = [] then none
      else some (.ofNat (number digitValue b (digitRun digitValue b (window width 0 p))),
        p.drop (digitRun digitValue b (window width 0 p)).length) := by
  have hloop := scanLoop_eq hb width 0 0 p
  have hzero : UInt64.ofNat 0 = 0 := rfl
  rw [hzero] at hloop
  unfold unplussed at h
  simp only [scanUnsigned, scanSpace_eq, h, hloop, Nat.zero_add, List.length_eq_zero_iff]
  rfl

/-! ## A round for an integer -/

theorem sscanfLoop_percent (str fmt : List UInt8) (s : Scan) :
    sscanfLoop str (byte '%' :: fmt) s =
      (scanDirective str fmt s).bind fun r =>
        if r.1 then sscanfLoop str r.2.1 r.2.2 else some r.2.2 := by
  have hspace : ¬ scanSpace (byte '%') = true := by decide
  rw [sscanfLoop.eq_def]
  simp only [if_neg hspace, ne_eq, not_true_eq_false, if_false]
  split <;> simp [*]

def widthText (width : ℕ) : List UInt8 := if width = 0 then [] else numberText 10 false width

/-- The conversion of an integer with a width, without its `%`. -/
def scanText (width : ℕ) (length : Length) (conv : Conv) : List UInt8 :=
  widthText width ++ (length.text ++ [conv.char])

def Length.code : Length → ℕ
  | none => 0
  | l => 1
  | ll => 2

/-- The base in which the scanner reads the conversion, 0 for the one it detects. -/
def Conv.scanBase : Conv → ℕ
  | d | u => 10
  | i => 0
  | x | X => 16
  | o => 8

theorem isdigit_of_mem_widthText (width : ℕ) : ∀ c ∈ widthText width, isdigit c = true := by
  intro c hc
  unfold widthText at hc
  split at hc
  · simp at hc
  · exact isDigit_ten c ▸ isDigit_of_mem_numberText (by decide) (by decide) hc

theorem extend_widthText (width : ℕ) : extend digitValue 10 0 (widthText width) = width := by
  unfold widthText
  split
  · exact (by assumption : width = 0).symm
  · exact number_numberText (by decide) (by decide) width

theorem scanLength_text (length : Length) (conv : Conv) (fmt : List UInt8) :
    scanLength (length.text ++ conv.char :: fmt) = (length.code, conv.char :: fmt) := by
  cases length with
  | none => cases conv <;> rfl
  | l => cases conv <;> rfl
  | ll => rfl

theorem scanDirective_text (str : List UInt8) (width : ℕ) (length : Length) (conv : Conv)
    (fmt : List UInt8) (s : Scan) :
    scanDirective str (scanText width length conv ++ fmt) s =
      (scanInteger conv.char false (wrapInt width) length.code s).map fun r => (r.1, fmt, r.2) := by
  have htext : scanText width length conv ++ fmt =
      widthText width ++ (length.text ++ conv.char :: fmt) := by simp [scanText]
  have hhead : ∃ c ∈ [byte 'l', byte 'd', byte 'i', byte 'u', byte 'x', byte 'X', byte 'o'],
      (length.text ++ conv.char :: fmt).head? = some c := by
    cases length with
    | none => exact ⟨conv.char, by cases conv <;> decide, rfl⟩
    | l => exact ⟨byte 'l', by decide, rfl⟩
    | ll => exact ⟨byte 'l', by decide, rfl⟩
  have hall : ∀ c ∈ [byte 'l', byte 'd', byte 'i', byte 'u', byte 'x', byte 'X', byte 'o'],
      isdigit c = false ∧ c ≠ byte '*' := by decide +kernel
  obtain ⟨c, hc, hc'⟩ := hhead
  obtain ⟨hdigit, hstar⟩ := hall c hc
  have hnostar : (scanText width length conv ++ fmt).head? ≠ some (byte '*') := by
    rw [htext]
    exact Directive.head_append_ne_star (isdigit_of_mem_widthText width)
      (hc' ▸ fun heq => hstar (Option.some.inj heq))
  have hnumber : readNumber 0 (scanText width length conv ++ fmt) =
      (wrapInt width, length.text ++ conv.char :: fmt) := by
    have hread := readNumber_wraps 0 (isdigit_of_mem_widthText width)
      (t := length.text ++ conv.char :: fmt) (by
        intro c'' hc''
        obtain rfl := Option.some.inj (hc'.symm.trans hc'')
        exact hdigit)
    rw [extend_widthText] at hread
    rw [htext]
    exact hread
  have hconversion : scanConversion str conv.char false (wrapInt width) length.code s =
      scanInteger conv.char false (wrapInt width) length.code s := by
    cases conv <;> rfl
  rw [scanDirective_eq, unstarred, if_neg hnostar, hnumber, scanLength_text,
    decide_eq_false hnostar]
  simp only [List.head?_cons, Option.getD_some, List.tail_cons, hconversion]

/-- The text that `scan_unsigned` is given. -/
def unsignedFor (conv : Conv) (input : List UInt8) : List UInt8 :=
  if conv.signed = true ∧ ((input.dropWhile isspace).head? = some (byte '-') ∨
    (input.dropWhile isspace).head? = some (byte '+')) then (input.dropWhile isspace).tail
  else input.dropWhile isspace

/-- The value with the sign that stands before it. -/
def signedFor (conv : Conv) (input : List UInt8) (value : UInt64) : UInt64 :=
  if conv.signed = true ∧ (input.dropWhile isspace).head? = some (byte '-') then -value else value

theorem scanInteger_eq (conv : Conv) (width : ℤ) (length : Length) (s : Scan) :
    scanInteger conv.char false width length.code s =
      (scanUnsigned (unsignedFor conv s.input) width conv.scanBase).elim
        (some (false, { s with input := unsignedFor conv s.input }))
        fun r => (s.store false (stored length.code (signedFor conv s.input r.1))).map fun s' =>
          (true, { s'.count false with input := r.2 }) := by
  have hsigned : (conv.char = byte 'd' ∨ conv.char = byte 'i') ↔ conv.signed = true := by
    cases conv <;> decide
  have hbase : (if conv.char = byte 'o' then 8
      else if conv.char = byte 'x' ∨ conv.char = byte 'X' ∨ conv.char = byte 'p' then 16
      else if conv.char = byte 'i' then 0 else 10 : ℤ) = conv.scanBase := by
    cases conv <;> decide
  have hp : conv.char ≠ byte 'p' := by cases conv <;> decide
  unfold scanInteger
  simp only [scanSpace_eq, hsigned, hbase, if_neg hp]
  split
  · rename_i hread
    have hnone : scanUnsigned (unsignedFor conv s.input) width conv.scanBase = none := hread
    rw [hnone]
    rfl
  · rename_i value input hread
    have hsome : scanUnsigned (unsignedFor conv s.input) width conv.scanBase =
        some (value, input) := hread
    rw [hsome, Option.elim_some, Option.map_eq_bind]
    rfl

section Round

variable {conv : Conv} {width : ℕ} {length : Length} {input rest : List UInt8} {value : UInt64}

/-- A round that reads a number stores it through the next pointer. -/
theorem sscanfLoop_integer
    (h : scanUnsigned (unsignedFor conv input) (wrapInt width) conv.scanBase = some (value, rest))
    (str fmt : List UInt8) (assigned p : ℕ) (ap : List ℕ) (stores : List (ℕ × Store)) :
    sscanfLoop str (byte '%' :: (scanText width length conv ++ fmt))
        ⟨input, assigned, p :: ap, stores⟩ =
      sscanfLoop str fmt ⟨rest, assigned + 1, ap,
        stores ++ [(p, stored length.code (signedFor conv input value))]⟩ := by
  rw [sscanfLoop_percent, scanDirective_text, scanInteger_eq, h]
  rfl

theorem sscanfLoop_no_integer
    (h : scanUnsigned (unsignedFor conv input) (wrapInt width) conv.scanBase = none)
    (str fmt : List UInt8) (assigned : ℕ) (ap : List ℕ) (stores : List (ℕ × Store)) :
    sscanfLoop str (byte '%' :: (scanText width length conv ++ fmt))
        ⟨input, assigned, ap, stores⟩ =
      some ⟨unsignedFor conv input, assigned, ap, stores⟩ := by
  rw [sscanfLoop_percent, scanDirective_text, scanInteger_eq, h]
  rfl

end Round

end LampUserspace.Stdio
