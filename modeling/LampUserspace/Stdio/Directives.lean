import LampUserspace.Stdio.Numbers

/-! # Integer conversion specifications

The syntax of the conversions `d i u x X o` and the text that section 7.21.6.1 of
the C11 standard prescribes for them, stated apart from the code. `readPiece`
reads every such specification as what it says.
-/

namespace LampUserspace.Stdio

open Numerals

inductive Flag
  | minus
  | plus
  | space
  | hash
  | zero
  deriving DecidableEq

def Flag.char : Flag → UInt8
  | minus => byte '-'
  | plus => byte '+'
  | space => byte ' '
  | hash => byte '#'
  | zero => byte '0'

/-- The number of a field width or a precision, of type `int` and not negative: its digits, or an
argument. -/
inductive Count
  | digits (s : List UInt8) (h : ∀ c ∈ s, isdigit c = true) (hlt : number digitValue 10 s < 2 ^ 31)
  | star (n : ℕ) (hlt : n < 2 ^ 31)

def Count.text : Count → List UInt8
  | digits s _ _ => s
  | star _ _ => [byte '*']

def Count.value : Count → ℕ
  | digits s _ _ => number digitValue 10 s
  | star n _ => n

def Count.args : Count → List Arg
  | digits _ _ _ => []
  | star n _ => [.word (.ofNat n)]

theorem Count.value_lt : (c : Count) → c.value < 2 ^ 31
  | digits _ _ hlt => hlt
  | star _ hlt => hlt

/-- The number that no digit writes. -/
abbrev Count.absent : Count := .digits [] (List.forall_mem_nil _) (Nat.two_pow_pos 31)

theorem Count.absent_head : absent.text.head? ≠ some (byte '0') := (Option.some_ne_none _).symm

inductive Length
  | none
  | l
  | ll
  deriving DecidableEq

def Length.text : Length → List UInt8
  | none => []
  | l => [byte 'l']
  | ll => [byte 'l', byte 'l']

inductive Conv
  | d
  | i
  | u
  | x
  | X
  | o
  deriving DecidableEq

def Conv.char : Conv → UInt8
  | d => byte 'd'
  | i => byte 'i'
  | u => byte 'u'
  | x => byte 'x'
  | X => byte 'X'
  | o => byte 'o'

def Conv.signed : Conv → Bool
  | d | i => true
  | u | x | X | o => false

def Conv.base : Conv → ℕ
  | d | i | u => 10
  | x | X => 16
  | o => 8

/-- A conversion specification without its `%`. A zero before the width would be a flag. -/
structure Directive where
  flags : List Flag
  width : Count
  precision : Option Count
  length : Length
  conv : Conv
  width_head : width.text.head? ≠ some (byte '0')

namespace Directive

variable (d : Directive)

def text : List UInt8 :=
  d.flags.map Flag.char ++ (d.width.text ++
    ((d.precision.elim [] fun p => byte '.' :: p.text) ++ (d.length.text ++ [d.conv.char])))

/-- The argument that holds `v`, or its low half. -/
def arg (v : UInt64) : Arg := if d.length = .ll then .dword v else .word v.toUInt32

def args (v : UInt64) : List Arg :=
  d.width.args ++ ((d.precision.elim [] Count.args) ++ [d.arg v])

/-- The value of that argument in its type. -/
def value (v : UInt64) : ℤ :=
  if d.conv.signed then
    if d.length = .ll then v.toBitVec.toInt else v.toUInt32.toBitVec.toInt
  else
    if d.length = .ll then v.toNat else v.toUInt32.toNat

/-! ## The prescribed text -/

/-- The digits of the value: the precision gives the least number of them, and `#` raises it for
`o` only if the first digit is not a zero already. -/
def prescribedDigits (v : UInt64) : List UInt8 :=
  let precision := d.precision.elim 1 Count.value
  let digits := numberText d.conv.base (d.conv = .X) (d.value v).natAbs
  let digits := if precision = 0 ∧ d.value v = 0 then [] else
    List.replicate (precision - digits.length) (byte '0') ++ digits
  if d.conv = .o ∧ .hash ∈ d.flags ∧ digits.head? ≠ some (byte '0') then byte '0' :: digits
  else digits

/-- The sign of a signed conversion, or the `0x` of a nonzero one with `#`. -/
def prescribedHead (v : UInt64) : List UInt8 :=
  if d.conv.signed then
    if d.value v < 0 then [byte '-']
    else if .plus ∈ d.flags then [byte '+']
    else if .space ∈ d.flags then [byte ' ']
    else []
  else if .hash ∈ d.flags ∧ d.value v ≠ 0 then
    if d.conv = .x then literal "0x" else if d.conv = .X then literal "0X" else []
  else []

/-- A head and digits, filled up to the width on the right with `-`, behind the head with zeros
when `0` is given without `-` and without a precision, and else on the left. -/
def layout (head digits : List UInt8) : List UInt8 :=
  let missing := d.width.value - (head.length + digits.length)
  if .minus ∈ d.flags then head ++ digits ++ List.replicate missing (byte ' ')
  else if .zero ∈ d.flags ∧ d.precision.isNone then
    head ++ List.replicate missing (byte '0') ++ digits
  else List.replicate missing (byte ' ') ++ head ++ digits

def prescribed (v : UInt64) : List UInt8 := d.layout (d.prescribedHead v) (d.prescribedDigits v)

end Directive

/-! ## Reading a specification -/

def Spec.flag (spec : Spec) : Flag → Spec
  | .minus => { spec with leftAdjust := true }
  | .plus => { spec with plus := true }
  | .space => { spec with space := true }
  | .hash => { spec with alt := true }
  | .zero => { spec with zeroPad := true }

theorem foldl_flag (spec : Spec) (flags : List Flag) :
    flags.foldl Spec.flag spec =
      { spec with
        leftAdjust := spec.leftAdjust || decide (.minus ∈ flags)
        zeroPad := spec.zeroPad || decide (.zero ∈ flags)
        alt := spec.alt || decide (.hash ∈ flags)
        plus := spec.plus || decide (.plus ∈ flags)
        space := spec.space || decide (.space ∈ flags) } := by
  induction flags generalizing spec with
  | nil => simp
  | cons f flags ih =>
    rw [List.foldl_cons, ih]
    cases f <;> simp [Spec.flag]

/-- The text begins with a character that may follow the flags and the width. -/
def Behind (s : List UInt8) : Prop :=
  ∃ c ∈ [byte '.', byte 'l', byte 'd', byte 'i', byte 'u', byte 'x', byte 'X', byte 'o'],
    s.head? = some c

theorem readFlags_eq (spec : Spec) (flags : List Flag) {s : List UInt8}
    (h : ∀ c, s.head? = some c → ∀ f : Flag, c ≠ f.char) :
    readFlags spec (flags.map Flag.char ++ s) = (flags.foldl Spec.flag spec, s) := by
  induction flags generalizing spec with
  | nil =>
    cases s with
    | nil => rfl
    | cons c s =>
      have hminus : c ≠ byte '-' := h c rfl .minus
      have hzero : c ≠ byte '0' := h c rfl .zero
      have hhash : c ≠ byte '#' := h c rfl .hash
      have hplus : c ≠ byte '+' := h c rfl .plus
      have hspace : c ≠ byte ' ' := h c rfl .space
      change readFlags spec (c :: s) = (spec, c :: s)
      rw [readFlags, if_neg hminus, if_neg hzero, if_neg hhash, if_neg hplus, if_neg hspace]
  | cons f flags ih =>
    rw [List.foldl_cons, ← ih]
    cases f <;> rfl

/-- The number that the digits write, as the `int` that the additions leave. -/
theorem readNumber_wraps (n : ℕ) {s t : List UInt8} (hs : ∀ c ∈ s, isdigit c = true)
    (ht : ∀ c, t.head? = some c → isdigit c = false) :
    readNumber (wrapInt n) (s ++ t) = (wrapInt (extend digitValue 10 n s : ℕ), t) := by
  have hiff : ∀ c : UInt8, (byte '0' ≤ c ∧ c ≤ byte '9') ↔ isdigit c = true := by
    simp [isdigit]
  induction s generalizing n with
  | nil =>
    cases t with
    | nil => rfl
    | cons c t =>
      change readNumber (wrapInt n) (c :: t) = (wrapInt n, c :: t)
      rw [readNumber, if_neg (by simp [hiff, ht c rfl])]
  | cons c s ih =>
    have hc := hs c (List.mem_cons_self ..)
    have hvalue : (digitValue c).getD 0 = (c - byte '0').toNat := by simp [digitValue, hc]
    have hstep : wrapInt (wrapInt n * 10 + (c - byte '0').toNat) =
        wrapInt (n * 10 + (digitValue c).getD 0 : ℕ) := by
      rw [wrapInt_mul_add, hvalue]
      simp
    rw [List.cons_append, readNumber, if_pos ((hiff c).mpr hc), hstep, extend_cons,
      ih _ (fun c' hc' => hs c' (List.mem_cons_of_mem _ hc'))]

theorem readNumber_eq (n : ℕ) {s t : List UInt8} (hs : ∀ c ∈ s, isdigit c = true)
    (hlt : extend digitValue 10 n s < 2 ^ 31) (ht : ∀ c, t.head? = some c → isdigit c = false) :
    readNumber n (s ++ t) = (((extend digitValue 10 n s : ℕ) : ℤ), t) := by
  have hle : n ≤ extend digitValue 10 n s := le_extend digitValue 10 (by decide) n s
  have hread := readNumber_wraps n hs ht
  rwa [wrapInt_eq (by omega) (by omega), wrapInt_eq (by omega) (by omega)] at hread

namespace Directive

variable (d : Directive)

/-- The values that the loop of `vsnprintf` holds when it reaches the conversion character. -/
def spec : Spec where
  leftAdjust := decide (.minus ∈ d.flags)
  zeroPad := decide (.zero ∈ d.flags)
  alt := decide (.hash ∈ d.flags)
  plus := decide (.plus ∈ d.flags)
  space := decide (.space ∈ d.flags)
  width := d.width.value
  precision := d.precision.elim (-1) fun p => p.value
  length := match d.length with
    | .none => 0
    | .l => 1
    | .ll => 2

def lengthText (fmt : List UInt8) : List UInt8 := d.length.text ++ d.conv.char :: fmt

def precisionText (fmt : List UInt8) : List UInt8 :=
  (d.precision.elim [] fun p => byte '.' :: p.text) ++ d.lengthText fmt

theorem text_append (fmt : List UInt8) :
    d.text ++ fmt = d.flags.map Flag.char ++ (d.width.text ++ d.precisionText fmt) := by
  simp [text, precisionText, lengthText]

theorem lengthText_head (fmt : List UInt8) :
    ∃ c ∈ [byte 'l', byte 'd', byte 'i', byte 'u', byte 'x', byte 'X', byte 'o'],
      (d.lengthText fmt).head? = some c := by
  unfold lengthText
  cases d.length with
  | none => exact ⟨d.conv.char, by cases d.conv <;> decide, rfl⟩
  | l => exact ⟨byte 'l', by decide, rfl⟩
  | ll => exact ⟨byte 'l', by decide, rfl⟩

theorem precisionText_behind (fmt : List UInt8) : Behind (d.precisionText fmt) := by
  unfold precisionText
  cases d.precision with
  | none =>
    obtain ⟨c, hc, hhead⟩ := d.lengthText_head fmt
    exact ⟨c, List.mem_cons_of_mem _ hc, hhead⟩
  | some p => exact ⟨byte '.', by decide, rfl⟩

theorem readFlags_text (fmt : List UInt8) :
    readFlags {} (d.text ++ fmt) =
      (d.flags.foldl Spec.flag {}, d.width.text ++ d.precisionText fmt) := by
  have hflag : ∀ c, isdigit c = true ∧ c ≠ byte '0' ∨ c ∈ [byte '*', byte '.', byte 'l', byte 'd',
      byte 'i', byte 'u', byte 'x', byte 'X', byte 'o'] → ∀ f : Flag, c ≠ f.char := by
    intro c hc f
    have hall : ∀ c, isdigit c = true ∧ c ≠ byte '0' ∨ c ∈ [byte '*', byte '.', byte 'l', byte 'd',
        byte 'i', byte 'u', byte 'x', byte 'X', byte 'o'] → c ≠ byte '-' ∧ c ≠ byte '+' ∧
          c ≠ byte ' ' ∧ c ≠ byte '#' ∧ c ≠ byte '0' := by decide +kernel
    obtain ⟨hminus, hplus, hspace, hhash, hzero⟩ := hall c hc
    cases f with
    | minus => exact hminus
    | plus => exact hplus
    | space => exact hspace
    | hash => exact hhash
    | zero => exact hzero
  rw [text_append]
  apply readFlags_eq
  intro c hc
  apply hflag
  have hwidth := d.width_head
  cases hw : d.width with
  | star n h =>
    rw [hw] at hc
    obtain rfl := Option.some.inj hc
    right
    decide
  | digits s h hlt =>
    rw [hw] at hc hwidth
    cases s with
    | nil =>
      obtain ⟨c', hc', hhead⟩ := d.precisionText_behind fmt
      obtain rfl := Option.some.inj (hhead.symm.trans hc)
      exact Or.inr (List.mem_cons_of_mem _ hc')
    | cons c' s =>
      obtain rfl := Option.some.inj hc
      exact Or.inl ⟨h c' (List.mem_cons_self ..), fun h0 => hwidth (congrArg some h0)⟩

theorem read_star {n : ℕ} (h : n < 2 ^ 31) (ap : List Arg) :
    vaInt (.word (.ofNat n) :: ap) = some ((n : ℤ), ap) := by
  have hnat : (UInt32.ofNat n).toBitVec.toNat = n := by
    change (UInt32.ofNat n).toNat = n
    rw [UInt32.toNat_ofNat']
    exact Nat.mod_eq_of_lt (by omega)
  rw [vaInt, BitVec.toInt_eq_toNat_cond, hnat, if_pos (by omega)]

theorem head_append_ne_star {s t : List UInt8} (hs : ∀ c ∈ s, isdigit c = true)
    (ht : t.head? ≠ some (byte '*')) : (s ++ t).head? ≠ some (byte '*') := by
  cases s with
  | nil => exact ht
  | cons c s =>
    intro heq
    have hc := hs c (List.mem_cons_self ..)
    rw [Option.some.inj heq] at hc
    exact absurd hc (by decide)

theorem readWidth_text (spec : Spec) (fmt : List UInt8) (ap : List Arg) :
    readWidth spec (d.width.text ++ d.precisionText fmt) (d.width.args ++ ap) =
      some ({ spec with width := d.width.value }, d.precisionText fmt, ap) := by
  obtain ⟨c, hc, hhead⟩ := d.precisionText_behind fmt
  have hall : ∀ c, c ∈ [byte '.', byte 'l', byte 'd', byte 'i', byte 'u', byte 'x', byte 'X',
      byte 'o'] → isdigit c = false ∧ c ≠ byte '*' := by decide +kernel
  obtain ⟨hdigit, hstar⟩ := hall c hc
  cases d.width with
  | star n h =>
    have hread := read_star h ap
    have hsign : ¬ (n : ℤ) < 0 := by omega
    simp [readWidth, Count.text, Count.args, Count.value, hread, hsign]
  | digits s h hlt =>
    have hnumber : readNumber 0 (s ++ d.precisionText fmt) =
        (((number digitValue 10 s : ℕ) : ℤ), d.precisionText fmt) :=
      readNumber_eq 0 h hlt fun c' hc' => by
        obtain rfl := Option.some.inj (hhead.symm.trans hc')
        exact hdigit
    have hnot : (s ++ d.precisionText fmt).head? ≠ some (byte '*') :=
      head_append_ne_star h (hhead ▸ fun heq => hstar (Option.some.inj heq))
    change readWidth spec (s ++ d.precisionText fmt) ap = _
    rw [readWidth, if_neg hnot, hnumber]
    rfl

theorem readPrecision_text (spec : Spec) (fmt : List UInt8) (ap : List Arg)
    (hspec : spec.precision = -1) :
    readPrecision spec (d.precisionText fmt) ((d.precision.elim [] Count.args) ++ ap) =
      some ({ spec with precision := d.precision.elim (-1) fun p => p.value },
        d.lengthText fmt, ap) := by
  obtain ⟨c, hc, hhead⟩ := d.lengthText_head fmt
  have hall : ∀ c, c ∈ [byte 'l', byte 'd', byte 'i', byte 'u', byte 'x', byte 'X', byte 'o'] →
      isdigit c = false ∧ c ≠ byte '*' ∧ c ≠ byte '.' := by decide +kernel
  obtain ⟨hdigit, hstar, hdot⟩ := hall c hc
  unfold precisionText
  cases d.precision with
  | none =>
    have hnot : (d.lengthText fmt).head? ≠ some (byte '.') := by
      rw [hhead]
      exact fun heq => hdot (Option.some.inj heq)
    simp [readPrecision, hnot, ← hspec]
  | some p =>
    cases p with
    | star n h =>
      have hread := read_star h ap
      simp [readPrecision, Count.text, Count.args, Count.value, hread]
    | digits s h hlt =>
      have hnumber : readNumber 0 (s ++ d.lengthText fmt) =
          (((number digitValue 10 s : ℕ) : ℤ), d.lengthText fmt) :=
        readNumber_eq 0 h hlt fun c' hc' => by
          obtain rfl := Option.some.inj (hhead.symm.trans hc')
          exact hdigit
      have hnot : (s ++ d.lengthText fmt).head? ≠ some (byte '*') :=
        head_append_ne_star h (hhead ▸ fun heq => hstar (Option.some.inj heq))
      change readPrecision spec (byte '.' :: (s ++ d.lengthText fmt)) ap = _
      rw [readPrecision, List.head?_cons, if_pos rfl, List.tail_cons, if_neg hnot, hnumber]
      rfl

theorem readLength_text (spec : Spec) (fmt : List UInt8) (hspec : spec.length = 0) :
    readLength spec (d.lengthText fmt) =
      ({ spec with length := d.spec.length }, d.conv.char :: fmt) := by
  unfold lengthText
  cases hl : d.length with
  | none =>
    have hlength : d.spec.length = 0 := by simp [Directive.spec, hl]
    rw [hlength, ← hspec]
    cases d.conv <;> rfl
  | l =>
    have hlength : d.spec.length = 1 := by simp [Directive.spec, hl]
    rw [hlength]
    cases d.conv <;> rfl
  | ll =>
    have hlength : d.spec.length = 2 := by simp [Directive.spec, hl]
    rw [hlength]
    rfl

/-- The sign byte that `vsnprintf` passes on, 0 for none. -/
def sign (v : UInt64) : UInt8 :=
  if d.conv.signed then
    if d.value v < 0 then byte '-'
    else if .plus ∈ d.flags then byte '+'
    else if .space ∈ d.flags then byte ' '
    else 0
  else 0

/-- The prefix that `vsnprintf` passes on. -/
def pfx (v : UInt64) : List UInt8 :=
  if d.conv.signed then []
  else if .hash ∈ d.flags ∧ d.value v ≠ 0 then
    if d.conv = .x then literal "0x"
    else if d.conv = .X then literal "0X"
    else if d.conv = .o then literal "0"
    else []
  else []

def piece (v : UInt64) : Piece :=
  .uint (d.value v).natAbs d.conv.base (d.sign v) (d.conv = .X) d.width.value (.minus ∈ d.flags)
    (.zero ∈ d.flags) (d.precision.elim (-1) fun p => p.value) (d.pfx v)

theorem vaSigned_arg (v : UInt64) (ap : List Arg) (h : d.conv.signed = true) :
    vaSigned d.spec.length (d.arg v :: ap) = some (d.value v, ap) := by
  rw [arg, value, if_pos h]
  cases hl : d.length <;> simp [spec, hl, vaSigned]

theorem vaUnsigned_arg (v : UInt64) (ap : List Arg) (h : ¬ d.conv.signed = true) :
    vaUnsigned d.spec.length (d.arg v :: ap) = some ((d.value v).natAbs, ap) := by
  have hnat : ∀ n : ℕ, (n : ℤ).natAbs = n := Int.natAbs_natCast
  rw [arg, value, if_neg h]
  cases hl : d.length with
  | none => simp only [spec, hl, vaUnsigned, reduceCtorEq, if_false, hnat, OfNat.zero_ne_ofNat]
  | l => simp only [spec, hl, vaUnsigned, reduceCtorEq, if_false, hnat, OfNat.one_ne_ofNat]
  | ll => simp only [spec, hl, vaUnsigned, if_true, hnat]

theorem readConversion_signed {c : UInt8} (h : c = byte 'd' ∨ c = byte 'i') (spec : Spec)
    (ap : List Arg) :
    readConversion spec c ap = (vaSigned spec.length ap).bind fun r =>
      some (.uint r.1.natAbs 10 (if r.1 < 0 then byte '-' else if spec.plus then byte '+' else
        if spec.space then byte ' ' else 0) false spec.width spec.leftAdjust spec.zeroPad
        spec.precision [], r.2) := by
  rcases h with rfl | rfl <;> rfl

theorem readConversion_unsigned {c : UInt8}
    (h : c = byte 'u' ∨ c = byte 'x' ∨ c = byte 'X' ∨ c = byte 'o') (spec : Spec)
    (ap : List Arg) :
    readConversion spec c ap = (vaUnsigned spec.length ap).bind fun r =>
      some (.uint r.1 (if c = byte 'o' then 8 else if c = byte 'u' then 10 else 16) 0
        (c = byte 'X') spec.width spec.leftAdjust spec.zeroPad spec.precision
        (if spec.alt ∧ r.1 ≠ 0 ∧ (c = byte 'x' ∨ c = byte 'X') then
            literal (if c = byte 'X' then "0X" else "0x")
          else if spec.alt ∧ r.1 ≠ 0 ∧ c = byte 'o' then literal "0" else []), r.2) := by
  rcases h with rfl | rfl | rfl | rfl <;> rfl

theorem readConversion_char (v : UInt64) (ap : List Arg) :
    readConversion d.spec d.conv.char (d.arg v :: ap) = some (d.piece v, ap) := by
  by_cases hs : d.conv.signed = true
  · have hchar : d.conv.char = byte 'd' ∨ d.conv.char = byte 'i' := by
      cases hc : d.conv <;> simp_all [Conv.signed, Conv.char]
    have hbase : d.conv.base = 10 ∧ d.conv ≠ .X := by
      cases hc : d.conv <;> simp_all [Conv.signed, Conv.base]
    rw [readConversion_signed hchar, d.vaSigned_arg v ap hs]
    simp [piece, sign, pfx, hs, hbase, spec]
  · have hchar : d.conv.char = byte 'u' ∨ d.conv.char = byte 'x' ∨ d.conv.char = byte 'X' ∨
        d.conv.char = byte 'o' := by
      cases hc : d.conv <;> simp_all [Conv.signed, Conv.char]
    rw [readConversion_unsigned hchar, d.vaUnsigned_arg v ap hs]
    simp only [piece, sign, pfx, if_neg hs, Option.bind_some, spec, decide_eq_true_eq,
      Int.natAbs_eq_zero, ne_eq]
    cases hc : d.conv with
    | d => simp [hc, Conv.signed] at hs
    | i => simp [hc, Conv.signed] at hs
    | u => simp +decide [Conv.base]
    | x => simp +decide [Conv.base]
    | X => simp +decide [Conv.base]
    | o => simp +decide [Conv.base]

/-- The conversion is read as its piece, with its arguments, whatever follows it. -/
theorem readPiece_text (v : UInt64) (fmt : List UInt8) (ap : List Arg) :
    readPiece (d.text ++ fmt) (d.args v ++ ap) = some (d.piece v, fmt, ap) := by
  have hargs : d.args v ++ ap =
      d.width.args ++ ((d.precision.elim [] Count.args) ++ (d.arg v :: ap)) := by
    simp [args]
  have hwidth := d.readWidth_text (d.flags.foldl Spec.flag {}) fmt
    ((d.precision.elim [] Count.args) ++ (d.arg v :: ap))
  have hprecision := d.readPrecision_text
    { d.flags.foldl Spec.flag {} with width := d.width.value } fmt (d.arg v :: ap)
    (by simp [foldl_flag])
  have hlength : readLength { d.flags.foldl Spec.flag {} with
      width := (d.width.value : ℤ)
      precision := d.precision.elim (-1) fun p => (p.value : ℤ) } (d.lengthText fmt) =
      (d.spec, d.conv.char :: fmt) := by
    rw [d.readLength_text _ _ (by simp [foldl_flag])]
    simp [foldl_flag, spec]
  rw [hargs, readPiece, d.readFlags_text]
  simp only [hwidth, hprecision, hlength, Option.bind_eq_bind, Option.bind_some, List.head?_cons,
    Option.getD_some, d.readConversion_char, List.tail_cons]
  rfl

end Directive

end LampUserspace.Stdio
