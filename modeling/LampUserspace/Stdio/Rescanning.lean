import LampUserspace.Stdio.Produced
import LampUserspace.Stdio.Scanning

/-! # Numbers printed and scanned

What `snprintf` prints for an integer is scanned back as the integer by the same
conversion of `sscanf`: the digits are read in their base, and the sign and the
conversions to and from 64 bits cancel modulo the size of the argument.
-/

namespace LampUserspace.Stdio

open Numerals

/-- The first character of a number is no white space and no sign. -/
theorem head_numberText {base : ℕ} (hlow : 1 < base) (hhigh : base ≤ 36) (upper : Bool)
    (n : ℕ) : ∃ c t, numberText base upper n = c :: t ∧ isspace c = false ∧ c ≠ byte '-' ∧
      c ≠ byte '+' := by
  obtain ⟨c, t, htext⟩ := List.exists_cons_of_ne_nil
    (numberText_ne_nil n : numberText base upper n ≠ [])
  have hall : ∀ c, (digitValue c).isSome = true →
      isspace c = false ∧ c ≠ byte '-' ∧ c ≠ byte '+' := by decide +kernel
  have hmem : c ∈ numberText base upper n := by
    rw [htext]
    exact List.mem_cons_self ..
  obtain ⟨d, hd, -⟩ := isDigit_iff.mp (isDigit_of_mem_numberText hlow hhigh hmem)
  exact ⟨c, t, htext, hall c (by rw [hd]; rfl)⟩

theorem dropWhile_numberText {base : ℕ} (hlow : 1 < base) (hhigh : base ≤ 36) (upper : Bool)
    (n : ℕ) : (numberText base upper n).dropWhile isspace = numberText base upper n := by
  obtain ⟨c, t, htext, hspace, -⟩ := head_numberText hlow hhigh upper n
  rw [htext]
  exact List.dropWhile_cons_of_neg (by simp [hspace])

theorem unplussed_numberText {base : ℕ} (hlow : 1 < base) (hhigh : base ≤ 36) (upper : Bool)
    (n : ℕ) : unplussed (numberText base upper n) = numberText base upper n := by
  obtain ⟨c, t, htext, -, -, hplus⟩ := head_numberText hlow hhigh upper n
  rw [htext]
  exact if_neg fun h => hplus (Option.some.inj h)

theorem scanUnsigned_numberText {input : List UInt8} {base : ℤ} {b n : ℕ} {upper : Bool}
    (hlow : 1 < b) (hhigh : b ≤ 16)
    (h : Stdlib.strtoulBase base (unplussed (input.dropWhile isspace)) =
      ((b : ℤ), numberText b upper n)) :
    scanUnsigned input 0 base = some (.ofNat n, []) := by
  have hdigits : ∀ c ∈ numberText b upper n, isDigit digitValue b c = true :=
    fun c hc => isDigit_of_mem_numberText hlow (hhigh.trans (by decide)) hc
  have hrun : digitRun digitValue b (numberText b upper n) = numberText b upper n := by
    have happ := digitRun_append hdigits (t := []) rfl
    rwa [List.append_nil] at happ
  have hwindow : window 0 0 (numberText b upper n) = numberText b upper n := rfl
  rw [scanUnsigned_eq 0 h hhigh, hwindow, hrun, if_neg (numberText_ne_nil n),
    number_numberText hlow (hhigh.trans (by decide)), List.drop_length]

/-! ## The base of a printed number -/

theorem hexPrefixed_numberText {base : ℕ} (hlow : 1 < base) (hhigh : base ≤ 36) (upper : Bool)
    (n : ℕ) : ¬ Stdlib.hexPrefixed (numberText base upper n) = true := by
  intro h
  obtain ⟨x, t, -, htext⟩ := Stdlib.hexPrefixed_iff.mp h
  by_cases hn : n = 0
  · rw [hn, numberText_zero] at htext
    simp at htext
  · exact head_numberText_ne hlow hhigh hn upper (by rw [htext]; rfl)

/-- The base that is detected or given is the one that the number is printed in, except that a zero
is octal. -/
theorem strtoulBase_numberText (conv : Conv) (n : ℕ) :
    ∃ b : ℕ, 1 < b ∧ b ≤ 16 ∧
      Stdlib.strtoulBase conv.scanBase (numberText conv.base (conv = .X) n) =
        ((b : ℤ), numberText b (conv = .X) n) := by
  have hhex : ∀ base : ℕ, 1 < base → base ≤ 36 → ∀ upper,
      Stdlib.hexPrefixed (numberText base upper n) = false := fun base hlow hhigh upper =>
    Bool.eq_false_of_not_eq_true (hexPrefixed_numberText hlow hhigh upper n)
  cases conv with
  | d => exact ⟨10, by decide, by decide, rfl⟩
  | u => exact ⟨10, by decide, by decide, rfl⟩
  | o => exact ⟨8, by decide, by decide, rfl⟩
  | x =>
    refine ⟨16, by decide, by decide, ?_⟩
    simp [Stdlib.strtoulBase, Conv.scanBase, Conv.base, hhex 16]
  | X =>
    refine ⟨16, by decide, by decide, ?_⟩
    simp [Stdlib.strtoulBase, Conv.scanBase, Conv.base, hhex 16]
  | i =>
    by_cases hn : n = 0
    · subst hn
      exact ⟨8, by decide, by decide, rfl⟩
    · have hzero := head_numberText_ne (by decide : 1 < 10) (by decide) hn false
      refine ⟨10, by decide, by decide, ?_⟩
      simp [Stdlib.strtoulBase, Conv.scanBase, Conv.base, hzero]

/-! ## The round trip -/

/-- The conversions that scan what a conversion without a width printed: the same one, also when `#`
put a prefix before the digits, and `i` after `d`. -/
inductive Rescans : List Flag → Conv → Conv → Prop
  | same (conv : Conv) : Rescans [] conv conv
  | hash_x : Rescans [.hash] .x .x
  | hash_X : Rescans [.hash] .X .X
  | detected : Rescans [] .d .i

section Printed

variable (flags : List Flag) (length : Length) (conv : Conv) (v : UInt64)

def plainDigits : List UInt8 :=
  numberText conv.base (conv = .X) ((plain flags length conv).value v).natAbs

theorem plainText_signed (h : conv.signed = true) :
    plainText [] length conv v =
      (if (plain [] length conv).value v < 0 then [byte '-'] else []) ++
        plainDigits [] length conv v := by
  have hpfx : (plain [] length conv).pfx v = [] := if_pos h
  have hsign : (plain [] length conv).sign v =
      if (plain [] length conv).value v < 0 then byte '-' else 0 := if_pos h
  rw [plainText, hpfx, hsign]
  split <;> rfl

theorem plainText_unsigned (h : conv.signed = false) :
    plainText flags length conv v =
      (plain flags length conv).pfx v ++ plainDigits flags length conv v := by
  have hsign : (plain flags length conv).sign v = 0 := if_neg (by
    rw [show (plain flags length conv).conv = conv from rfl, h]
    exact Bool.false_ne_true)
  rw [plainText, hsign]
  rfl

theorem stored_value :
    stored length.code (.ofInt ((plain flags length conv).value v)) = stored length.code v := by
  have hv := v.toNat_lt
  have hword : v.toUInt32.toNat = v.toNat % 2 ^ 32 := UInt64.toNat_toUInt32 v
  have hsigned : (v.toUInt32.toBitVec.toInt - v.toNat) % 2 ^ 32 = 0 ∧
      (v.toBitVec.toInt - v.toNat) % 2 ^ 64 = 0 := by
    simp only [BitVec.toInt_eq_toNat_cond, UInt32.toNat_toBitVec, UInt64.toNat_toBitVec, hword]
    constructor <;> split <;> omega
  have hvalue := toNat_ofInt ((plain flags length conv).value v)
  unfold Directive.value at hvalue ⊢
  by_cases hll : length = .ll
  · subst hll
    refine congrArg Store.dword (UInt64.toNat_inj.mp ?_)
    simp only [show (plain flags .ll conv).length = .ll from rfl, if_true] at hvalue ⊢
    split at hvalue <;> rename_i h <;>
      simp only [h, if_true, Bool.false_eq_true, if_false] <;> omega
  · have hcode : length.code ≠ 2 := by cases length <;> simp_all [Length.code]
    have hlength : (plain flags length conv).length ≠ .ll := hll
    simp only [stored, if_neg hcode, if_neg hlength] at hvalue ⊢
    refine congrArg Store.word (UInt32.toNat_inj.mp ?_)
    rw [UInt64.toNat_toUInt32]
    split at hvalue <;> rename_i h <;>
      simp only [h, if_true, Bool.false_eq_true, if_false] <;> omega

theorem ofInt_natAbs (z : ℤ) :
    UInt64.ofInt z = if z < 0 then -.ofNat z.natAbs else .ofNat z.natAbs := by
  split
  · rw [← ofInt_cast, ← UInt64.ofInt_neg, show -((z.natAbs : ℕ) : ℤ) = z by omega]
  · rw [← ofInt_cast, show ((z.natAbs : ℕ) : ℤ) = z by omega]

/-- The sign is taken off the number and given back to its value. -/
theorem rescan_signed {scan : Conv} (hconv : conv.signed = true) (hscan : scan.signed = true) :
    unsignedFor scan (plainText [] length conv v) = plainDigits [] length conv v ∧
      signedFor scan (plainText [] length conv v)
          (.ofNat ((plain [] length conv).value v).natAbs) =
        .ofInt ((plain [] length conv).value v) := by
  have hlow : 1 < conv.base ∧ conv.base ≤ 36 := by cases conv <;> decide
  rw [plainText_signed length conv v hconv, ofInt_natAbs]
  unfold unsignedFor signedFor
  simp only [hscan, true_and]
  by_cases hneg : (plain [] length conv).value v < 0
  · rw [if_pos hneg, if_pos hneg, List.singleton_append,
      List.dropWhile_cons_of_neg (by decide : ¬ isspace (byte '-') = true)]
    exact ⟨rfl, rfl⟩
  · obtain ⟨c, t, htext, hspace, hminus, hplus⟩ := head_numberText hlow.1 hlow.2 (conv = .X)
      ((plain [] length conv).value v).natAbs
    have hdrop : (plainDigits [] length conv v).dropWhile isspace = plainDigits [] length conv v :=
      dropWhile_numberText hlow.1 hlow.2 _ _
    have hhead : (plainDigits [] length conv v).head? = some c := by
      rw [plainDigits, htext]
      rfl
    rw [if_neg hneg, if_neg hneg, List.nil_append, hdrop, hhead]
    simp only [Option.some.injEq, hminus, hplus, or_self, if_false, and_self]

/-- Without a prefix, the digits are read in the base that is given or found. -/
theorem rescan_digits {scan : Conv} (hbase : scan.base = conv.base)
    (hupper : decide (scan = .X) = decide (conv = .X)) :
    scanUnsigned (plainDigits flags length conv v) 0 scan.scanBase =
      some (.ofNat ((plain flags length conv).value v).natAbs, []) := by
  have hlow : 1 < scan.base ∧ scan.base ≤ 36 := by cases scan <;> decide
  obtain ⟨b, hone, hb, hfound⟩ :=
    strtoulBase_numberText scan ((plain flags length conv).value v).natAbs
  have htext : plainDigits flags length conv v =
      numberText scan.base (scan = .X) ((plain flags length conv).value v).natAbs := by
    rw [plainDigits, hbase, hupper]
  rw [htext]
  apply scanUnsigned_numberText hone hb
  rw [dropWhile_numberText hlow.1 hlow.2, unplussed_numberText hlow.1 hlow.2, hfound]

theorem pfx_hash {c : UInt8} (h : conv = .x ∧ c = byte 'x' ∨ conv = .X ∧ c = byte 'X') :
    (plain [.hash] length conv).pfx v =
      if (plain [.hash] length conv).value v ≠ 0 then [byte '0', c] else [] := by
  have hmem : Flag.hash ∈ (plain [.hash] length conv).flags := List.mem_singleton_self _
  have hsigned : ¬ (plain [.hash] length conv).conv.signed = true := by
    rcases h with ⟨rfl, -⟩ | ⟨rfl, -⟩ <;> exact Bool.false_ne_true
  unfold Directive.pfx
  by_cases hzero : (plain [.hash] length conv).value v = 0
  · rw [if_neg hsigned, if_neg (not_not.mpr hzero), if_neg fun h => h.2 hzero]
  · rw [if_neg hsigned, if_pos hzero, if_pos ⟨hmem, hzero⟩]
    rcases h with ⟨rfl, rfl⟩ | ⟨rfl, rfl⟩ <;> rfl

theorem rescan_prefixed {c : UInt8} (hscan : conv.scanBase = 16) (hbase : conv.base = 16)
    (h : conv = .x ∧ c = byte 'x' ∨ conv = .X ∧ c = byte 'X') :
    scanUnsigned ((plain [.hash] length conv).pfx v ++ plainDigits [.hash] length conv v) 0
        conv.scanBase =
      some (.ofNat ((plain [.hash] length conv).value v).natAbs, []) := by
  rw [pfx_hash length conv v h]
  split
  · rw [plainDigits, hbase, hscan]
    apply scanUnsigned_numberText (b := 16) (by decide) (by decide)
    rcases h with ⟨-, rfl⟩ | ⟨-, rfl⟩ <;> rfl
  · exact rescan_digits [.hash] length conv v rfl rfl

theorem scan_plain_signed {scan : Conv} (hconv : conv.signed = true) (hscan : scan.signed = true)
    (hbase : scan.base = conv.base) (hupper : decide (scan = .X) = decide (conv = .X)) :
    ∃ w, scanUnsigned (unsignedFor scan (plainText [] length conv v)) 0 scan.scanBase =
        some (w, []) ∧
      signedFor scan (plainText [] length conv v) w =
        .ofInt ((plain [] length conv).value v) := by
  obtain ⟨htext, hsign⟩ := rescan_signed length conv v hconv hscan
  refine ⟨_, ?_, hsign⟩
  rw [htext]
  exact rescan_digits [] length conv v hbase hupper

theorem scan_plain_unsigned (hconv : conv.signed = false)
    (h : scanUnsigned ((plain flags length conv).pfx v ++ plainDigits flags length conv v) 0
        conv.scanBase = some (.ofNat ((plain flags length conv).value v).natAbs, [])) :
    ∃ w, scanUnsigned (unsignedFor conv (plainText flags length conv v)) 0 conv.scanBase =
        some (w, []) ∧
      signedFor conv (plainText flags length conv v) w =
        .ofInt ((plain flags length conv).value v) := by
  have hfor : unsignedFor conv (plainText flags length conv v) =
      (plainText flags length conv v).dropWhile isspace :=
    if_neg fun hsigned => Bool.false_ne_true (hconv.symm.trans hsigned.1)
  have hsign : ∀ w, signedFor conv (plainText flags length conv v) w = w := fun w =>
    if_neg fun hsigned => Bool.false_ne_true (hconv.symm.trans hsigned.1)
  have hidem : ∀ s : List UInt8, scanUnsigned (s.dropWhile isspace) 0 conv.scanBase =
      scanUnsigned s 0 conv.scanBase := by
    intro s
    have hdrop : (s.dropWhile isspace).dropWhile isspace = s.dropWhile isspace :=
      Stdlib.unspaced_unspaced s
    unfold scanUnsigned
    rw [scanSpace_eq, hdrop]
  have hvalue : ¬ (plain flags length conv).value v < 0 := by
    unfold Directive.value
    rw [show (plain flags length conv).conv = conv from rfl, hconv]
    simp only [Bool.false_eq_true, if_false]
    split <;> omega
  rw [hfor, hidem, plainText_unsigned flags length conv v hconv]
  refine ⟨_, h, ?_⟩
  rw [← plainText_unsigned flags length conv v hconv, hsign, ofInt_natAbs, if_neg hvalue]

theorem scan_plain {scan : Conv} (h : Rescans flags conv scan) :
    ∃ w, scanUnsigned (unsignedFor scan (plainText flags length conv v)) 0 scan.scanBase =
        some (w, []) ∧
      signedFor scan (plainText flags length conv v) w =
        .ofInt ((plain flags length conv).value v) := by
  cases h with
  | same =>
    cases hconv : conv.signed with
    | true => exact scan_plain_signed length conv v hconv hconv rfl rfl
    | false =>
      apply scan_plain_unsigned [] length conv v hconv
      have hpfx : (plain [] length conv).pfx v = [] := by
        unfold Directive.pfx
        split
        · rfl
        · exact if_neg fun h => nomatch h.1
      rw [hpfx]
      exact rescan_digits [] length conv v rfl rfl
  | hash_x =>
    exact scan_plain_unsigned [.hash] length .x v rfl
      (rescan_prefixed length .x v rfl rfl (.inl ⟨rfl, rfl⟩))
  | hash_X =>
    exact scan_plain_unsigned [.hash] length .X v rfl
      (rescan_prefixed length .X v rfl rfl (.inr ⟨rfl, rfl⟩))
  | detected => exact scan_plain_signed length .d v rfl rfl rfl rfl

end Printed

/-- The string that `snprintf` produces for an integer is scanned by one conversion, which stores
the integer. -/
theorem printed_rescanned {flags : List Flag} {conv scan : Conv} (h : Rescans flags conv scan)
    (length : Length) (v : UInt64) :
    ∃ out, Produces ((plain flags length conv).format ⟨[], List.not_mem_nil⟩)
        [(plain flags length conv).arg v] out ∧
      ∀ p, sscanf (some out) (some (byte '%' :: scanText 0 length scan)) [p] =
        some ⟨1, [(p, stored length.code v)]⟩ := by
  obtain ⟨w, hread, hsign⟩ := scan_plain flags length conv v h
  refine ⟨plainText flags length conv v, produces_plain flags length conv v, fun p => ?_⟩
  have hround : sscanfLoop (plainText flags length conv v)
      (byte '%' :: (scanText 0 length scan ++ [])) ⟨plainText flags length conv v, 0, [p], []⟩ =
      sscanfLoop (plainText flags length conv v) [] ⟨[], 1, [], [(p, stored length.code
        (signedFor scan (plainText flags length conv v) w))]⟩ :=
    sscanfLoop_integer (by rwa [Nat.cast_zero, wrapInt_zero]) ..
  rw [hsign, stored_value, List.append_nil] at hround
  unfold sscanf
  dsimp only
  rw [hround, sscanfLoop.eq_def]
  rfl

/-- The least `long long` is printed and scanned. -/
theorem printed_rescanned_min :
    ∃ out, Produces ((plain [] .ll .d).format ⟨[], List.not_mem_nil⟩)
        [(plain [] .ll .d).arg 0x8000000000000000] out ∧
      ∀ p, sscanf (some out) (some (byte '%' :: scanText 0 .ll .d)) [p] =
        some ⟨1, [(p, stored Length.ll.code 0x8000000000000000)]⟩ :=
  printed_rescanned (.same .d) .ll 0x8000000000000000

end LampUserspace.Stdio
