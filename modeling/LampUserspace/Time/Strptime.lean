import LampUserspace.Stdio.Formatted
import LampUserspace.Time.Localtime

/-! # Reading and writing dates

`strptime` of `libc_time.c`, and the round trip of a time through `localtime_r`,
the formatter, `strptime` and `mktime`. Strings are the lists of the bytes that
are left before their NUL.
-/

namespace LampUserspace.Time

open Calendar Stdio

/-- The loop of `parse_decimal`, with `left` digits to go: the number of digits read, their value
and the rest of the string. -/
def parseDigits (n : ℕ) (v : ℤ) : (left : ℕ) → List UInt8 → ℕ × ℤ × List UInt8
  | 0, s => (n, v, s)
  | _ + 1, [] => (n, v, [])
  | left + 1, c :: s =>
    if isdigit c then parseDigits (n + 1) (v * 10 + c.toNat - (byte '0').toNat) left s
    else (n, v, c :: s)

def parseDecimal (s : List UInt8) (minDigits maxDigits : ℕ) : Option (ℤ × List UInt8) :=
  let (n, v, s) := parseDigits 0 0 maxDigits s
  if n < minDigits then none else some (v, s)

/-- A numeric conversion of `strptime`, which stores its value with `set`. -/
def parseField (s : List UInt8) (minDigits maxDigits : ℕ) (result : Tm) (set : ℤ → Tm) :
    Option (List UInt8) × Tm :=
  match parseDecimal s minDigits maxDigits with
  | some (value, s) => (some s, set value)
  | none => (none, result)

/-- The conversion character `c`, with `nested` for the calls of `strptime` itself. -/
def strptimeConversion (nested : List UInt8 → List UInt8 → Tm → Option (List UInt8) × Tm)
    (c : UInt8) (s : List UInt8) (result : Tm) : Option (List UInt8) × Tm :=
  if c = byte 'F' then nested s (literal "%Y-%m-%d") result
  else if c = byte 'T' then nested s (literal "%H:%M:%S") result
  else if c = byte 'Y' then
    parseField s 4 4 result fun value => { result with tmYear := value - 1900 }
  else if c = byte 'm' then
    parseField s 1 2 result fun value => { result with tmMon := value - 1 }
  else if c = byte 'd' ∨ c = byte 'e' then
    parseField s 1 2 result fun value => { result with tmMday := value }
  else if c = byte 'H' then
    parseField s 1 2 result fun value => { result with tmHour := value }
  else if c = byte 'M' then
    parseField s 1 2 result fun value => { result with tmMin := value }
  else if c = byte 'S' then
    parseField s 1 2 result fun value => { result with tmSec := value }
  else (none, result)

/-- The loop of `strptime` over the format: what is left of the string, `none` for the null
pointer, and the structure as it is left. -/
def strptimeLoop (nested : List UInt8 → List UInt8 → Tm → Option (List UInt8) × Tm) :
    (format s : List UInt8) → Tm → Option (List UInt8) × Tm
  | [], s, result => (some s, result)
  | c :: format, s, result =>
    if isspace c then strptimeLoop nested format (s.dropWhile isspace) result
    else if c ≠ byte '%' then
      match s with
      | d :: s => if d ≠ c then (none, result) else strptimeLoop nested format s result
      | [] => (none, result)
    else
      match format with
      | [] => (none, result)
      | c :: format =>
        match strptimeConversion nested c s result with
        | (some s, result) => strptimeLoop nested format s result
        | (none, result) => (none, result)

/-- The calls of `strptime` from `strptime`, whose formats have no such calls themselves. -/
def strptimeNested (s format : List UInt8) (result : Tm) : Option (List UInt8) × Tm :=
  strptimeLoop (fun _ _ result => (none, result)) format s result

def strptime (s format : List UInt8) (result : Tm) : Option (List UInt8) × Tm :=
  strptimeLoop strptimeNested format s result

/-! ## Fields -/

inductive Field
  | year | mon | mday | hour | min | sec
  deriving DecidableEq, Repr

namespace Field

def ofConversion (c : UInt8) : Option Field :=
  if c = byte 'Y' then some year
  else if c = byte 'm' then some mon
  else if c = byte 'd' ∨ c = byte 'e' then some mday
  else if c = byte 'H' then some hour
  else if c = byte 'M' then some min
  else if c = byte 'S' then some sec
  else none

def minDigits : Field → ℕ
  | year => 4
  | _ => 1

def maxDigits : Field → ℕ
  | year => 4
  | _ => 2

def set (tm : Tm) (value : ℤ) : Field → Tm
  | year => { tm with tmYear := value - 1900 }
  | mon => { tm with tmMon := value - 1 }
  | mday => { tm with tmMday := value }
  | hour => { tm with tmHour := value }
  | min => { tm with tmMin := value }
  | sec => { tm with tmSec := value }

end Field

/-! ## Numbers of two and four digits -/

def digit (d : ℕ) : UInt8 := byte '0' + .ofNat d

theorem isdigit_digit {d : ℕ} (h : d < 10) : isdigit (digit d) = true := by
  have hall : ∀ d < 10, isdigit (digit d) = true := by decide
  exact hall d h

theorem toNat_digit {d : ℕ} (h : d < 10) : ((digit d).toNat : ℤ) = d + (byte '0').toNat := by
  have hall : ∀ d < 10, ((digit d).toNat : ℤ) = d + (byte '0').toNat := by decide
  exact hall d h

theorem zero_ne_digit {d : ℕ} (h : d < 10) : ¬ 0 = digit d := by
  have hall : ∀ d < 10, ¬ 0 = digit d := by decide
  exact hall d h

theorem utoaRev_digit {v : ℕ} (h : v < 10) : utoaRev v 10 false = [digit v] := by
  rw [utoaRev]
  simp [Nat.div_eq_of_lt h, Nat.mod_eq_of_lt h, h, digit]

theorem utoaRev_ten {v : ℕ} (h : 10 ≤ v) :
    utoaRev v 10 false = digit (v % 10) :: utoaRev (v / 10) 10 false := by
  have hcond : 2 ≤ 10 ∧ v / 10 ≠ 0 := ⟨by decide, by omega⟩
  rw [utoaRev]
  simp only [if_pos hcond, if_pos (Nat.mod_lt v (show 10 > 0 by decide))]
  rfl

theorem digit_zero : byte '0' = digit 0 := rfl

theorem bytes_zero_padded {v width : ℕ} {ds : List UInt8} (h : utoaRev v 10 false = ds.reverse)
    (hwidth : width < 2 ^ 31) (hlength : ds.length < 2 ^ 31) :
    (Piece.uint v 10 0 false width false true (-1) []).bytes =
      List.replicate (width - ds.length) (digit 0) ++ ds := by
  have hnumeral : numeral v 10 false (-1) = ds := by
    simp [numeral, digits, h]
  have hmissing : missing width ds.length = width - ds.length := by
    rw [missing_eq (by omega) hlength]
    omega
  simp [Piece.bytes, hnumeral, lead, filler, hmissing, digit_zero]

def twoDigits (n : ℕ) : List UInt8 := [digit (n / 10), digit (n % 10)]

def fourDigits (n : ℕ) : List UInt8 := twoDigits (n / 100) ++ twoDigits (n % 100)

theorem bytes_twoDigits {n : ℕ} (h : n < 100) :
    (Piece.uint n 10 0 false 2 false true (-1) []).bytes = twoDigits n := by
  rcases Nat.lt_or_ge n 10 with hlt | hge
  · have hrev : utoaRev n 10 false = [digit n].reverse := utoaRev_digit hlt
    refine (bytes_zero_padded hrev (by decide) (by simp)).trans ?_
    simp [twoDigits, Nat.div_eq_of_lt hlt, Nat.mod_eq_of_lt hlt]
  · have hrev : utoaRev n 10 false = (twoDigits n).reverse := by
      rw [utoaRev_ten hge, utoaRev_digit (by omega)]
      rfl
    exact bytes_zero_padded hrev (by decide) (by simp [twoDigits])

theorem bytes_fourDigits {n : ℕ} (h : 1000 ≤ n) (h' : n < 10000) :
    (Piece.uint n 10 0 false 4 false true (-1) []).bytes = fourDigits n := by
  have hrev : utoaRev n 10 false = (fourDigits n).reverse := by
    rw [utoaRev_ten (by omega), utoaRev_ten (by omega), utoaRev_ten (by omega),
      utoaRev_digit (by omega), Nat.div_div_eq_div_mul, Nat.div_div_eq_div_mul]
    simp only [fourDigits, twoDigits, List.reverse_cons, List.reverse_nil, List.nil_append,
      List.cons_append, Nat.div_div_eq_div_mul]
    rw [show n % 100 % 10 = n % 10 by omega, show n % 100 / 10 = n / 10 % 10 by omega]
  exact bytes_zero_padded hrev (by decide) (by simp [fourDigits, twoDigits])

theorem parseDigits_digit {d left n : ℕ} {v : ℤ} (h : d < 10) (s : List UInt8) :
    parseDigits n v (left + 1) (digit d :: s) = parseDigits (n + 1) (v * 10 + d) left s := by
  rw [parseDigits, if_pos (isdigit_digit h), toNat_digit h]
  congr 1
  omega

theorem parseDecimal_two {n : ℕ} (h : n < 100) (s : List UInt8) :
    parseDecimal (twoDigits n ++ s) 1 2 = some ((n : ℤ), s) := by
  unfold parseDecimal twoDigits
  simp only [List.cons_append, List.nil_append]
  rw [parseDigits_digit (by omega), parseDigits_digit (by omega)]
  simp [parseDigits]
  omega

theorem parseDecimal_four {n : ℕ} (h : n < 10000) (s : List UInt8) :
    parseDecimal (fourDigits n ++ s) 4 4 = some ((n : ℤ), s) := by
  unfold parseDecimal fourDigits twoDigits
  simp only [List.cons_append, List.nil_append]
  rw [parseDigits_digit (by omega), parseDigits_digit (by omega), parseDigits_digit (by omega),
    parseDigits_digit (by omega)]
  simp [parseDigits]
  omega

/-! ## Steps of `strptime` -/

section Steps

variable (nested : List UInt8 → List UInt8 → Tm → Option (List UInt8) × Tm)
  {format : List UInt8} {result : Tm}

theorem loop_space (s : List UInt8) :
    strptimeLoop nested (byte ' ' :: format) s result =
      strptimeLoop nested format (s.dropWhile isspace) result := by
  rw [strptimeLoop.eq_def]
  exact if_pos rfl

theorem loop_literal {c : UInt8} (hspace : isspace c = false) (hc : c ≠ byte '%')
    (s : List UInt8) :
    strptimeLoop nested (c :: format) (c :: s) result = strptimeLoop nested format s result := by
  rw [strptimeLoop.eq_def]
  simp [hspace, hc]

theorem loop_conversion {c : UInt8} {s s' : List UInt8} {result' : Tm}
    (h : strptimeConversion nested c s result = (some s', result')) :
    strptimeLoop nested (byte '%' :: c :: format) s result =
      strptimeLoop nested format s' result' := by
  have hspace : isspace (byte '%') = false := by decide
  rw [strptimeLoop.eq_def]
  simp [hspace, h]

theorem parseField_two {n : ℕ} (h : n < 100) (s : List UInt8) (set : ℤ → Tm) :
    parseField (twoDigits n ++ s) 1 2 result set = (some s, set n) := by
  rw [parseField, parseDecimal_two h]

theorem conversion_F (s : List UInt8) :
    strptimeConversion nested (byte 'F') s result = nested s (literal "%Y-%m-%d") result := rfl

theorem conversion_T (s : List UInt8) :
    strptimeConversion nested (byte 'T') s result = nested s (literal "%H:%M:%S") result := rfl

theorem conversion_year {n : ℕ} (h : n < 10000) (s : List UInt8) :
    strptimeConversion nested (byte 'Y') (fourDigits n ++ s) result =
      (some s, { result with tmYear := n - 1900 }) := by
  change parseField _ _ _ _ _ = _
  rw [parseField, parseDecimal_four h]

theorem conversion_field {c : UInt8} {f : Field} (hc : Field.ofConversion c = some f)
    (s : List UInt8) :
    strptimeConversion nested c s result =
      parseField s f.minDigits f.maxDigits result (fun value => f.set result value) := by
  unfold Field.ofConversion at hc
  split_ifs at hc with h h h h h h <;> obtain rfl := Option.some.inj hc
  · exact h ▸ rfl
  · exact h ▸ rfl
  · rcases h with rfl | rfl <;> rfl
  · exact h ▸ rfl
  · exact h ▸ rfl
  · exact h ▸ rfl

theorem conversion_two {c : UInt8} {f : Field} (hc : Field.ofConversion c = some f)
    (hf : f.minDigits = 1 ∧ f.maxDigits = 2) {n : ℕ} (h : n < 100) (s : List UInt8) :
    strptimeConversion nested c (twoDigits n ++ s) result = (some s, f.set result n) := by
  rw [conversion_field nested hc, hf.1, hf.2]
  exact parseField_two h s _

end Steps

theorem dropWhile_twoDigits {n : ℕ} (h : n < 100) (s : List UInt8) :
    (byte ' ' :: (twoDigits n ++ s)).dropWhile isspace = twoDigits n ++ s := by
  have hdigit : ∀ d < 10, isspace (digit d) = false := by decide
  rw [List.dropWhile_cons_of_pos rfl]
  exact List.dropWhile_cons_of_neg (by simp [hdigit (n / 10) (by omega)])

/-! ## The round trip -/

/-- `"%04d-%02d-%02d %02d:%02d:%02d"` -/
def dateFormat : CString :=
  ⟨[byte '%', byte '0', byte '4', byte 'd', byte '-', byte '%', byte '0', byte '2', byte 'd',
    byte '-', byte '%', byte '0', byte '2', byte 'd', byte ' ', byte '%', byte '0', byte '2',
    byte 'd', byte ':', byte '%', byte '0', byte '2', byte 'd', byte ':', byte '%', byte '0',
    byte '2', byte 'd'], by decide⟩

def dateArgs (tm : Tm) : List Arg :=
  [.word (.ofInt (tm.tmYear + 1900)), .word (.ofInt (tm.tmMon + 1)), .word (.ofInt tm.tmMday),
    .word (.ofInt tm.tmHour), .word (.ofInt tm.tmMin), .word (.ofInt tm.tmSec)]

theorem toInt_word {n : ℕ} (h : n < 2 ^ 31) : (UInt32.ofInt n).toBitVec.toInt = n := by
  have hnat : (UInt32.ofInt n).toBitVec.toNat = n := by
    change (UInt32.ofInt n).toNat = n
    rw [toNat_ofInt]
    omega
  rw [BitVec.toInt_eq_toNat_cond, hnat, if_pos (by omega)]

theorem readNumber_digit {w : ℕ} (h : w < 10) (fmt : List UInt8) :
    readNumber 0 (digit w :: byte 'd' :: fmt) = ((w : ℤ), byte 'd' :: fmt) := by
  have hall : ∀ w < 10, (byte '0' ≤ digit w ∧ digit w ≤ byte '9') ∧
      wrapInt (0 * 10 + (digit w - byte '0').toNat) = w := by decide
  obtain ⟨hdigit, hvalue⟩ := hall w h
  rw [readNumber, if_pos hdigit, hvalue, readNumber, if_neg (by decide)]

theorem readPiece_padded {w n : ℕ} (hw : 0 < w) (hw' : w < 10) (h : n < 2 ^ 31)
    (fmt : List UInt8) (ap : List Arg) :
    readPiece (byte '0' :: digit w :: byte 'd' :: fmt) (.word (.ofInt n) :: ap) =
      some (.uint n 10 0 false w false true (-1) [], fmt, ap) := by
  have hall : ∀ w < 10, 0 < w → digit w ≠ byte '-' ∧ digit w ≠ byte '0' ∧ digit w ≠ byte '#' ∧
      digit w ≠ byte '+' ∧ digit w ≠ byte ' ' ∧ digit w ≠ byte '*' := by decide
  obtain ⟨hminus, hzero, hhash, hplus, hspace, hstar⟩ := hall w hw' hw
  have hflags : readFlags {} (byte '0' :: digit w :: byte 'd' :: fmt) =
      ({ zeroPad := true }, digit w :: byte 'd' :: fmt) := by
    rw [readFlags, if_neg (by decide), if_pos rfl, readFlags, if_neg hminus, if_neg hzero,
      if_neg hhash, if_neg hplus, if_neg hspace]
  have hwidth : ∀ v : UInt32, readWidth { zeroPad := true } (digit w :: byte 'd' :: fmt)
      (.word v :: ap) =
        some ({ zeroPad := true, width := w }, byte 'd' :: fmt, .word v :: ap) := by
    intro v
    rw [readWidth, List.head?_cons, if_neg fun heq => hstar (Option.some.inj heq),
      readNumber_digit hw']
  have hread : ∀ v : UInt32, readPiece (byte '0' :: digit w :: byte 'd' :: fmt) (.word v :: ap) =
      some (.uint v.toBitVec.toInt.natAbs 10 (if v.toBitVec.toInt < 0 then byte '-' else 0) false w
        false true (-1) [], fmt, ap) := by
    intro v
    rw [readPiece, hflags]
    simp only [hwidth]
    rfl
  rw [hread, toInt_word h, if_neg (by omega), Int.natAbs_natCast]

section Date

variable {year mon mday hour min sec : ℕ}

def dateText (year mon mday hour min sec : ℕ) : List UInt8 :=
  fourDigits year ++ (byte '-' :: (twoDigits mon ++ (byte '-' :: (twoDigits mday ++ (byte ' ' ::
    (twoDigits hour ++ (byte ':' :: (twoDigits min ++ (byte ':' :: twoDigits sec)))))))))

variable (hyear : 1000 ≤ year) (hyear' : year < 10000) (hmon : mon < 100) (hmday : mday < 100)
  (hhour : hour < 100) (hmin : min < 100) (hsec : sec < 100)
include hyear' hmon hmday hhour hmin hsec

include hyear in
theorem formatted_date :
    formatted dateFormat [.word (.ofInt year), .word (.ofInt mon), .word (.ofInt mday),
      .word (.ofInt hour), .word (.ofInt min), .word (.ofInt sec)] =
      some (dateText year mon mday hour min sec) := by
  have hpieces : pieces dateFormat.bytes [.word (.ofInt year), .word (.ofInt mon),
      .word (.ofInt mday), .word (.ofInt hour), .word (.ofInt min), .word (.ofInt sec)] =
      some [.uint year 10 0 false 4 false true (-1) [], .char (byte '-'),
        .uint mon 10 0 false 2 false true (-1) [], .char (byte '-'),
        .uint mday 10 0 false 2 false true (-1) [], .char (byte ' '),
        .uint hour 10 0 false 2 false true (-1) [], .char (byte ':'),
        .uint min 10 0 false 2 false true (-1) [], .char (byte ':'),
        .uint sec 10 0 false 2 false true (-1) []] := by
    have hdash := pieces_of_ne (show byte '-' ≠ byte '%' by decide)
    have hspace := pieces_of_ne (show byte ' ' ≠ byte '%' by decide)
    have hcolon := pieces_of_ne (show byte ':' ≠ byte '%' by decide)
    have hfour : ∀ {n : ℕ}, n < 2 ^ 31 → ∀ fmt ap,
        readPiece (byte '0' :: byte '4' :: byte 'd' :: fmt) (.word (.ofInt n) :: ap) =
          some (.uint n 10 0 false 4 false true (-1) [], fmt, ap) :=
      readPiece_padded (w := 4) (by decide) (by decide)
    have htwo : ∀ {n : ℕ}, n < 2 ^ 31 → ∀ fmt ap,
        readPiece (byte '0' :: byte '2' :: byte 'd' :: fmt) (.word (.ofInt n) :: ap) =
          some (.uint n 10 0 false 2 false true (-1) [], fmt, ap) :=
      readPiece_padded (w := 2) (by decide) (by decide)
    unfold dateFormat
    simp (disch := omega) only [pieces_percent, hfour, htwo, hdash, hspace, hcolon, pieces_nil,
      Option.bind_some, Option.map_some]
  have hchar : ∀ c, (Piece.char c).bytes = [c] := fun c => rfl
  rw [formatted, hpieces]
  simp only [Option.map_some, List.flatMap_cons, List.flatMap_nil, bytes_fourDigits hyear hyear',
    bytes_twoDigits hmon, bytes_twoDigits hmday, bytes_twoDigits hhour, bytes_twoDigits hmin,
    bytes_twoDigits hsec, hchar, List.append_nil, List.cons_append, List.nil_append, dateText]

omit hhour hmin hsec in
theorem conversion_date (s : List UInt8) (result : Tm) :
    strptimeConversion strptimeNested (byte 'F')
      (fourDigits year ++ (byte '-' :: (twoDigits mon ++ (byte '-' :: (twoDigits mday ++ s)))))
      result =
      (some s, { result with tmYear := year - 1900, tmMon := mon - 1, tmMday := mday }) := by
  have hformat : literal "%Y-%m-%d" = [byte '%', byte 'Y', byte '-', byte '%', byte 'm', byte '-',
    byte '%', byte 'd'] := rfl
  rw [conversion_F, strptimeNested, hformat,
    loop_conversion _ (conversion_year _ hyear' _), loop_literal _ rfl (by decide),
    loop_conversion _ (conversion_two _ rfl ⟨rfl, rfl⟩ hmon _), loop_literal _ rfl (by decide),
    loop_conversion _ (conversion_two _ rfl ⟨rfl, rfl⟩ hmday _)]
  rfl

omit hyear' hmon hmday in
theorem conversion_time (s : List UInt8) (result : Tm) :
    strptimeConversion strptimeNested (byte 'T')
      (twoDigits hour ++ (byte ':' :: (twoDigits min ++ (byte ':' :: (twoDigits sec ++ s)))))
      result =
      (some s, { result with tmHour := hour, tmMin := min, tmSec := sec }) := by
  have hformat : literal "%H:%M:%S" = [byte '%', byte 'H', byte ':', byte '%', byte 'M', byte ':',
    byte '%', byte 'S'] := rfl
  rw [conversion_T, strptimeNested, hformat,
    loop_conversion _ (conversion_two _ rfl ⟨rfl, rfl⟩ hhour _), loop_literal _ rfl (by decide),
    loop_conversion _ (conversion_two _ rfl ⟨rfl, rfl⟩ hmin _), loop_literal _ rfl (by decide),
    loop_conversion _ (conversion_two _ rfl ⟨rfl, rfl⟩ hsec _)]
  rfl

theorem strptime_date (result : Tm) :
    strptime (dateText year mon mday hour min sec) (literal "%F %T") result =
      (some [], { result with
        tmYear := (year : ℤ) - 1900
        tmMon := (mon : ℤ) - 1
        tmMday := (mday : ℤ)
        tmHour := (hour : ℤ)
        tmMin := (min : ℤ)
        tmSec := (sec : ℤ) }) := by
  have hformat : literal "%F %T" = [byte '%', byte 'F', byte ' ', byte '%', byte 'T'] := rfl
  rw [strptime, dateText, hformat, loop_conversion _ (conversion_date hyear' hmon hmday _ _),
    loop_space, dropWhile_twoDigits hhour, ← List.append_nil (twoDigits sec),
    loop_conversion _ (conversion_time hhour hmin hsec _ _)]
  rfl

omit hyear' hmon hmday hhour hmin hsec in
theorem length_dateText : (dateText year mon mday hour min sec).length = 19 := rfl

theorem nul_free_dateText : 0 ∉ dateText year mon mday hour min sec := by
  have hdash : ¬ 0 = byte '-' := by decide
  have hspace : ¬ 0 = byte ' ' := by decide
  have hcolon : ¬ 0 = byte ':' := by decide
  simp (disch := omega) only [dateText, fourDigits, twoDigits, List.mem_append, List.mem_cons,
    List.not_mem_nil, hdash, hspace, hcolon, zero_ne_digit, or_self, not_false_eq_true]

end Date

theorem localtimeR_fields (time : UInt32) (result : Tm) :
    ∃ tm, localtimeR (some time) (some result) = some tm ∧
      ∃ year mon mday hour min sec : ℕ,
        tm.tmYear + 1900 = year ∧ tm.tmMon + 1 = mon ∧ tm.tmMday = mday ∧ tm.tmHour = hour ∧
        tm.tmMin = min ∧ tm.tmSec = sec ∧ 1000 ≤ year ∧ year < 10000 ∧ mon < 100 ∧
        mday < 100 ∧ hour < 100 ∧ min < 100 ∧ sec < 100 := by
  obtain ⟨tm, y, doy, htm, hshows, hdoy, hday⟩ := localtimeR_shows time result
  obtain ⟨hmonth, hle, hge⟩ := marchMonth_spec hdoy
  have hlt := time.toNat_lt
  have hy : 1000 ≤ y ∧ y < 9999 := by
    unfold marchDays at hday
    omega
  refine ⟨tm, htm, (tm.tmYear + 1900).toNat, (tm.tmMon + 1).toNat, tm.tmMday.toNat,
    tm.tmHour.toNat, tm.tmMin.toNat, tm.tmSec.toNat, ?_⟩
  have hyear := hshows.year
  have hmon := hshows.mon
  rw [hshows.mday, hshows.hour, hshows.min, hshows.sec]
  by_cases h10 : marchMonth doy < 10
  · rw [if_pos h10] at hyear hmon
    omega
  · rw [if_neg h10] at hyear hmon
    omega

/-- A time is written as a date and read back as the same time. -/
theorem mktime_strptime_vsnprintf (time : UInt32) (result other : Tm) (memory : Memory)
    (str n : ℕ) :
    ∃ tm out r tm' tm'', localtimeR (some time) (some result) = some tm ∧
      vsnprintf memory (some str) (n + 20) dateFormat (dateArgs tm) = some r ∧
      Terminated memory r.memory str out ∧ 0 ∉ out ∧
      strptime out (literal "%F %T") other = (some [], tm') ∧
      mktime (some tm') = some (time, some tm'') := by
  obtain ⟨tm, htm, year, mon, mday, hour, min, sec, hyear, hmon, hmday, hhour, hmin, hsec, h1000,
    hyear', hmon', hmday', hhour', hmin', hsec'⟩ := localtimeR_fields time result
  obtain ⟨tm₂, y, doy, htm₂, hshows, hdoy, hday⟩ := localtimeR_shows time result
  obtain rfl := Option.some.inj (htm.symm.trans htm₂)
  have hout := formatted_date h1000 hyear' hmon' hmday' hhour' hmin' hsec'
  have hparse := strptime_date hyear' hmon' hmday' hhour' hmin' hsec' other
  have hargs : dateArgs tm = [.word (.ofInt year), .word (.ofInt mon), .word (.ofInt mday),
      .word (.ofInt hour), .word (.ofInt min), .word (.ofInt sec)] := by
    simp only [dateArgs, hyear, hmon, hmday, hhour, hmin, hsec]
  rw [← hargs] at hout
  have htake : (dateText year mon mday hour min sec).take (n + 20 - 1) =
      dateText year mon mday hour min sec :=
    List.take_of_length_le (by rw [length_dateText]; omega)
  have hsize : ¬ n + 20 = 0 := by omega
  generalize htm' : { other with
        tmYear := (year : ℤ) - 1900
        tmMon := (mon : ℤ) - 1
        tmMday := (mday : ℤ)
        tmHour := (hour : ℤ)
        tmMin := (min : ℤ)
        tmSec := (sec : ℤ) } = tm' at hparse
  -- the structure that was read agrees with the one that was written where `mktime` looks
  have hshows' : tm'.Shows y doy (time.toNat % 86400) := by
    subst htm'
    constructor
    · exact hmday.symm.trans hshows.mday
    · exact (by omega : (mon : ℤ) - 1 = tm.tmMon).trans hshows.mon
    · exact (by omega : (year : ℤ) - 1900 = tm.tmYear).trans hshows.year
    · exact hhour.symm.trans hshows.hour
    · exact hmin.symm.trans hshows.min
    · exact hsec.symm.trans hshows.sec
  obtain ⟨tm'', hmk⟩ := mktime_of_shows hshows' hdoy hday
  refine ⟨tm, dateText year mon mday hour min sec, _, tm', tm'', htm,
    by rw [vsnprintf_eq, hout]; rfl, ?_, nul_free_dateText hyear' hmon' hmday' hhour' hmin' hsec',
    hparse, hmk⟩
  simp only [printed, if_neg hsize, htake]
  exact terminated_write memory str _

end LampUserspace.Time
