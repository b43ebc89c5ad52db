import LampUserspace.Time.Strptime

/-! # What strptime stores

A successful `strptime` has matched the format with the string and stored the
numbers that its conversions read. It looks at the number of their digits only,
so the fields are within their ranges exactly when the numbers are.
-/

namespace LampUserspace.Time

open Stdio

/-! ## Fields -/

namespace Field

def get (tm : Tm) : Field → ℤ
  | year => tm.tmYear + 1900
  | mon => tm.tmMon + 1
  | mday => tm.tmMday
  | hour => tm.tmHour
  | min => tm.tmMin
  | sec => tm.tmSec

/-- The numbers of the calendar. -/
def Within (value : ℤ) : Field → Prop
  | year => True
  | mon => 1 ≤ value ∧ value ≤ 12
  | mday => 1 ≤ value ∧ value ≤ 31
  | hour => 0 ≤ value ∧ value ≤ 23
  | min => 0 ≤ value ∧ value ≤ 59
  | sec => 0 ≤ value ∧ value ≤ 60

variable {f g : Field} {tm : Tm} {v : ℤ}

theorem get_set (f : Field) (tm : Tm) (v : ℤ) : f.get (f.set tm v) = v := by
  cases f with
  | year => exact sub_add_cancel v 1900
  | mon => exact sub_add_cancel v 1
  | _ => rfl

theorem get_set_of_ne (h : g ≠ f) : g.get (f.set tm v) = g.get tm := by
  cases f <;> cases g <;> first | rfl | exact absurd rfl h

end Field

structure Tm.InRange (tm : Tm) : Prop where
  mon : 0 ≤ tm.tmMon ∧ tm.tmMon ≤ 11
  mday : 1 ≤ tm.tmMday ∧ tm.tmMday ≤ 31
  hour : 0 ≤ tm.tmHour ∧ tm.tmHour ≤ 23
  min : 0 ≤ tm.tmMin ∧ tm.tmMin ≤ 59
  sec : 0 ≤ tm.tmSec ∧ tm.tmSec ≤ 60

theorem within_mon (tm : Tm) :
    Field.mon.Within (Field.mon.get tm) ↔ 0 ≤ tm.tmMon ∧ tm.tmMon ≤ 11 := by
  change 1 ≤ tm.tmMon + 1 ∧ tm.tmMon + 1 ≤ 12 ↔ _
  omega

theorem Tm.inRange_iff (tm : Tm) : tm.InRange ↔ ∀ f : Field, f.Within (f.get tm) := by
  constructor
  · rintro ⟨hmon, hmday, hhour, hmin, hsec⟩ f
    cases f with
    | year => trivial
    | mon => exact (within_mon tm).mpr hmon
    | mday => exact hmday
    | hour => exact hhour
    | min => exact hmin
    | sec => exact hsec
  · intro h
    exact ⟨(within_mon tm).mp (h .mon), h .mday, h .hour, h .min, h .sec⟩

/-! ## Readings -/

/-- A number that was read for a field. -/
abbrev Reading := Field × ℤ

def stored (tm : Tm) (readings : List Reading) : Tm :=
  readings.foldl (fun tm r => r.1.set tm r.2) tm

def lastReading (readings : List Reading) (f : Field) : Option ℤ :=
  (readings.filter (·.1 = f)).getLast?.map Prod.snd

theorem lastReading_append (readings : List Reading) (r : Reading) (f : Field) :
    lastReading (readings ++ [r]) f = if r.1 = f then some r.2 else lastReading readings f := by
  unfold lastReading
  rw [List.filter_append]
  by_cases h : r.1 = f
  · simp [h]
  · simp [h]

theorem get_stored (tm : Tm) (readings : List Reading) (f : Field) :
    f.get (stored tm readings) = (lastReading readings f).getD (f.get tm) := by
  induction readings using List.reverseRecOn with
  | nil => rfl
  | append_singleton readings r ih =>
    have hstep : stored tm (readings ++ [r]) = r.1.set (stored tm readings) r.2 := by
      simp [stored]
    rw [hstep, lastReading_append]
    split
    case isTrue h =>
      rw [← h, Field.get_set]
      rfl
    case isFalse h => rw [Field.get_set_of_ne (Ne.symm h), ih]

def Field.digits (f : Field) (s : List UInt8) : List UInt8 :=
  (s.take f.maxDigits).takeWhile isdigit

def appendDigit (v : ℤ) (c : UInt8) : ℤ := v * 10 + c.toNat - (byte '0').toNat

def decimal (ds : List UInt8) : ℤ := ds.foldl appendDigit 0

/-- The format matches the front of the string: the numbers that its conversions read, in order,
and what is left of the string. -/
inductive Reads : (format s : List UInt8) → List Reading → List UInt8 → Prop
  | nil (s : List UInt8) : Reads [] s [] s
  | space {c : UInt8} {format s rest : List UInt8} {readings : List Reading} (hc : isspace c)
      (h : Reads format (s.dropWhile isspace) readings rest) : Reads (c :: format) s readings rest
  | literal {c : UInt8} {format s rest : List UInt8} {readings : List Reading}
      (hspace : isspace c = false) (hc : c ≠ byte '%') (h : Reads format s readings rest) :
      Reads (c :: format) (c :: s) readings rest
  | number {c : UInt8} {f : Field} {format s rest : List UInt8} {readings : List Reading}
      (hc : Field.ofConversion c = some f) (hmin : f.minDigits ≤ (f.digits s).length)
      (h : Reads format (s.drop (f.digits s).length) readings rest) :
      Reads (byte '%' :: c :: format) s ((f, decimal (f.digits s)) :: readings) rest
  | date {format s mid rest : List UInt8} {fst snd : List Reading}
      (hdate : Reads (Stdio.literal "%Y-%m-%d") s fst mid) (h : Reads format mid snd rest) :
      Reads (byte '%' :: byte 'F' :: format) s (fst ++ snd) rest
  | time {format s mid rest : List UInt8} {fst snd : List Reading}
      (htime : Reads (Stdio.literal "%H:%M:%S") s fst mid) (h : Reads format mid snd rest) :
      Reads (byte '%' :: byte 'T' :: format) s (fst ++ snd) rest

/-! ## Parsing -/

section Parsing

variable {nested nested' : List UInt8 → List UInt8 → Tm → Option (List UInt8) × Tm}
  {c : UInt8} {f : Field} {format s rest : List UInt8} {tm tm' : Tm} {readings : List Reading}

theorem parseDigits_eq (n : ℕ) (v : ℤ) (left : ℕ) (s : List UInt8) :
    parseDigits n v left s =
      (n + ((s.take left).takeWhile isdigit).length,
        ((s.take left).takeWhile isdigit).foldl appendDigit v,
        s.drop ((s.take left).takeWhile isdigit).length) := by
  fun_induction parseDigits n v left s with
  | case1 n v s => rfl
  | case2 n v left => rfl
  | case3 n v left c s hc ih =>
    rw [ih, List.take_succ_cons, List.takeWhile_cons_of_pos hc, List.length_cons,
      List.foldl_cons, List.drop_succ_cons, Nat.add_right_comm, Nat.add_assoc]
    rfl
  | case4 n v left c s hc =>
    rw [List.take_succ_cons, List.takeWhile_cons_of_neg hc]
    rfl

theorem parseField_eq (f : Field) (s : List UInt8) (tm : Tm) :
    parseField s f.minDigits f.maxDigits tm (fun value => f.set tm value) =
      if f.minDigits ≤ (f.digits s).length then
        (some (s.drop (f.digits s).length), f.set tm (decimal (f.digits s)))
      else (none, tm) := by
  have hdigits : parseDigits 0 0 f.maxDigits s = ((f.digits s).length, decimal (f.digits s),
      s.drop (f.digits s).length) := by
    rw [parseDigits_eq, Nat.zero_add]
    rfl
  unfold parseField parseDecimal
  rw [hdigits]
  by_cases h : f.minDigits ≤ (f.digits s).length
  · simp only [if_neg (Nat.not_lt.mpr h), if_pos h]
  · simp only [if_pos (Nat.lt_of_not_le h), if_neg h]

theorem conversion_unknown (hc : Field.ofConversion c = none) (hF : c ≠ byte 'F')
    (hT : c ≠ byte 'T') (s : List UInt8) (tm : Tm) :
    strptimeConversion nested c s tm = (none, tm) := by
  unfold Field.ofConversion at hc
  split_ifs at hc with hY hm hd hH hM hS
  unfold strptimeConversion
  rw [if_neg hF, if_neg hT, if_neg hY, if_neg hm, if_neg hd, if_neg hH, if_neg hM, if_neg hS]

/-- The conversions that do not call `strptime` do not depend on it. -/
theorem conversion_congr (nested nested' : List UInt8 → List UInt8 → Tm → Option (List UInt8) × Tm)
    (hc : c ≠ byte 'F' ∧ c ≠ byte 'T') (s : List UInt8) (tm : Tm) :
    strptimeConversion nested c s tm = strptimeConversion nested' c s tm := by
  cases hfield : Field.ofConversion c with
  | none => rw [conversion_unknown hfield hc.1 hc.2, conversion_unknown hfield hc.1 hc.2]
  | some f => rw [conversion_field _ hfield, conversion_field _ hfield]

theorem loop_congr (nested nested' : List UInt8 → List UInt8 → Tm → Option (List UInt8) × Tm)
    (hno : ∀ c ∈ format, c ≠ byte 'F' ∧ c ≠ byte 'T') (s : List UInt8) (tm : Tm) :
    strptimeLoop nested format s tm = strptimeLoop nested' format s tm := by
  fun_induction strptimeLoop nested format s tm with
  | case1 => rfl
  | case2 c format s tm hc ih =>
    rw [ih (List.forall_mem_cons.mp hno).2, strptimeLoop.eq_def nested' (c :: format)]
    exact (if_pos hc).symm
  | case3 c format tm hspace hc d s hd =>
    rw [strptimeLoop.eq_def]
    simp only [if_neg hspace, if_pos hc, if_pos hd]
  | case4 c format tm hspace hc d s hd ih =>
    rw [ih (List.forall_mem_cons.mp hno).2, strptimeLoop.eq_def nested' (c :: format)]
    simp only [if_neg hspace, if_pos hc, if_neg hd]
  | case5 c format tm hspace hc =>
    rw [strptimeLoop.eq_def]
    simp only [if_neg hspace, if_pos hc]
  | case6 c s tm hspace hc =>
    rw [strptimeLoop.eq_def]
    simp only [if_neg hspace, if_neg hc]
  | case7 c s tm hspace hc d format mid tm' hconv ih =>
    obtain ⟨hd, hno⟩ := List.forall_mem_cons.mp (List.forall_mem_cons.mp hno).2
    rw [conversion_congr nested nested' hd] at hconv
    rw [ih hno, strptimeLoop.eq_def nested' (c :: d :: format)]
    simp only [if_neg hspace, if_neg hc, hconv]
  | case8 c s tm hspace hc d format tm' hconv =>
    obtain ⟨hd, -⟩ := List.forall_mem_cons.mp (List.forall_mem_cons.mp hno).2
    rw [conversion_congr nested nested' hd] at hconv
    rw [strptimeLoop.eq_def nested' (c :: d :: format)]
    simp only [if_neg hspace, if_neg hc, hconv]

theorem stored_append (tm : Tm) (fst snd : List Reading) :
    stored tm (fst ++ snd) = stored (stored tm fst) snd := List.foldl_append

theorem reads_of_conversion
    (hnested : ∀ s format tm rest tm', nested s format tm = (some rest, tm') →
      ∃ readings, Reads format s readings rest ∧ tm' = stored tm readings)
    {mid : List UInt8} (hc : strptimeConversion nested c s tm = (some mid, tm')) :
    ∃ fst, tm' = stored tm fst ∧ ∀ format snd rest, Reads format mid snd rest →
      Reads (byte '%' :: c :: format) s (fst ++ snd) rest := by
  cases hfield : Field.ofConversion c with
  | some f =>
    rw [conversion_field _ hfield, parseField_eq] at hc
    split at hc
    case isTrue hmin =>
      obtain ⟨hmid, rfl⟩ := Prod.mk.inj hc
      obtain rfl := Option.some.inj hmid
      exact ⟨[(f, decimal (f.digits s))], rfl, fun format snd rest h => .number hfield hmin h⟩
    case isFalse => exact absurd (Prod.mk.inj hc).1 (Option.some_ne_none _).symm
  | none =>
    by_cases hF : c = byte 'F'
    · subst hF
      obtain ⟨fst, hfst, rfl⟩ := hnested _ _ _ _ _ hc
      exact ⟨fst, rfl, fun format snd rest h => .date hfst h⟩
    by_cases hT : c = byte 'T'
    · subst hT
      obtain ⟨fst, hfst, rfl⟩ := hnested _ _ _ _ _ hc
      exact ⟨fst, rfl, fun format snd rest h => .time hfst h⟩
    rw [conversion_unknown hfield hF hT] at hc
    exact absurd (Prod.mk.inj hc).1 (Option.some_ne_none _).symm

theorem reads_of_loop
    (hnested : ∀ s format tm rest tm', nested s format tm = (some rest, tm') →
      ∃ readings, Reads format s readings rest ∧ tm' = stored tm readings)
    (h : strptimeLoop nested format s tm = (some rest, tm')) :
    ∃ readings, Reads format s readings rest ∧ tm' = stored tm readings := by
  fun_induction strptimeLoop nested format s tm with
  | case1 s tm =>
    obtain ⟨hrest, rfl⟩ := Prod.mk.inj h
    obtain rfl := Option.some.inj hrest
    exact ⟨[], .nil s, rfl⟩
  | case2 c format s tm hc ih =>
    obtain ⟨readings, hreads, htm⟩ := ih h
    exact ⟨readings, .space hc hreads, htm⟩
  | case4 c format tm hspace hc d s hd ih =>
    obtain rfl := not_not.mp hd
    obtain ⟨readings, hreads, htm⟩ := ih h
    exact ⟨readings, .literal (Bool.eq_false_iff.mpr hspace) hc hreads, htm⟩
  | case7 c s tm hspace hc d format mid tm₁ hconv ih =>
    obtain rfl := not_not.mp hc
    obtain ⟨fst, rfl, hfst⟩ := reads_of_conversion hnested hconv
    obtain ⟨snd, hsnd, rfl⟩ := ih h
    exact ⟨fst ++ snd, hfst _ _ _ hsnd, (stored_append _ _ _).symm⟩
  | case3 | case5 | case6 | case8 => exact absurd (Prod.mk.inj h).1 (Option.some_ne_none _).symm

theorem reads_of_nested (h : strptimeNested s format tm = (some rest, tm')) :
    ∃ readings, Reads format s readings rest ∧ tm' = stored tm readings :=
  reads_of_loop (fun _ _ _ _ _ h => absurd (Prod.mk.inj h).1 (Option.some_ne_none _).symm) h

theorem date_plain : ∀ c ∈ literal "%Y-%m-%d", c ≠ byte 'F' ∧ c ≠ byte 'T' := by
  have hformat : literal "%Y-%m-%d" = [byte '%', byte 'Y', byte '-', byte '%', byte 'm', byte '-',
    byte '%', byte 'd'] := rfl
  rw [hformat]
  simp only [List.forall_mem_cons, List.not_mem_nil, false_imp_iff, implies_true, and_true]
  decide

theorem time_plain : ∀ c ∈ literal "%H:%M:%S", c ≠ byte 'F' ∧ c ≠ byte 'T' := by
  have hformat : literal "%H:%M:%S" = [byte '%', byte 'H', byte ':', byte '%', byte 'M', byte ':',
    byte '%', byte 'S'] := rfl
  rw [hformat]
  simp only [List.forall_mem_cons, List.not_mem_nil, false_imp_iff, implies_true, and_true]
  decide

/-- Inside, a format without `%F` and `%T` means what it means outside. -/
theorem nested_eq (hno : ∀ c ∈ format, c ≠ byte 'F' ∧ c ≠ byte 'T') (s : List UInt8) (tm : Tm) :
    strptimeNested s format tm = strptime s format tm := loop_congr _ _ hno s tm

theorem strptime_of_reads (h : Reads format s readings rest) (tm : Tm) :
    strptime s format tm = (some rest, stored tm readings) := by
  have hpercent : isspace (byte '%') = false := by decide
  induction h generalizing tm with
  | nil s => rfl
  | @space c format s rest readings hc h ih =>
    rw [strptime, strptimeLoop.eq_def]
    exact (if_pos hc).trans (ih tm)
  | literal hspace hc h ih => exact (loop_literal _ hspace hc _).trans (ih tm)
  | @number c f format s rest readings hc hmin h ih =>
    have hconv : strptimeConversion strptimeNested c s tm =
        (some (s.drop (f.digits s).length), f.set tm (decimal (f.digits s))) := by
      rw [conversion_field _ hc, parseField_eq, if_pos hmin]
    exact (loop_conversion _ hconv).trans (ih _)
  | @date format s mid rest fst snd hdate h ihdate ih =>
    have hconv : strptimeConversion strptimeNested (byte 'F') s tm =
        (some mid, stored tm fst) := by
      rw [conversion_F, nested_eq date_plain, ihdate tm]
    rw [stored_append]
    exact (loop_conversion _ hconv).trans (ih _)
  | @time format s mid rest fst snd htime h ihtime ih =>
    have hconv : strptimeConversion strptimeNested (byte 'T') s tm =
        (some mid, stored tm fst) := by
      rw [conversion_T, nested_eq time_plain, ihtime tm]
    rw [stored_append]
    exact (loop_conversion _ hconv).trans (ih _)

/-- `strptime` succeeds exactly when the format matches the string, and stores what it reads. -/
theorem strptime_eq_iff : strptime s format tm = (some rest, tm') ↔
    ∃ readings, Reads format s readings rest ∧ tm' = stored tm readings := by
  constructor
  · exact reads_of_loop (fun _ _ _ _ _ => reads_of_nested)
  · rintro ⟨readings, h, rfl⟩
    exact strptime_of_reads h tm

end Parsing

/-! ## The table of mktime -/

theorem addMonths_isSome_iff (year mon : ℤ) (month : ℕ) (days : ℤ) (h : month ≤ 12) :
    (addMonths year mon month days).isSome ↔ mon ≤ 12 := by
  fun_induction addMonths year mon month days with
  | case1 month days hlt ih =>
    rcases Nat.lt_or_eq_of_le h with hin | rfl
    · obtain ⟨d, hget⟩ : ∃ d, daysInMonth[month]? = some d := ⟨_, List.getElem?_eq_getElem hin⟩
      rw [hget]
      exact ih _ hin
    · have hout : daysInMonth[12]? = none := rfl
      rw [hout]
      refine iff_of_false Bool.false_ne_true ?_
      omega
  | case2 month days hge =>
    refine iff_of_true rfl ?_
    omega

/-- `mktime` stays inside its table exactly for a month up to 12. -/
theorem mktime_isSome_iff (tm : Tm) : (mktime (some tm)).isSome ↔ tm.tmMon ≤ 12 := by
  rw [← addMonths_isSome_iff (tm.tmYear + 1900) tm.tmMon 0
    (subYears (tm.tmYear + 1900) 1969 (addYears (tm.tmYear + 1900) 1970 0)) (by decide)]
  unfold mktime
  dsimp only
  cases addMonths (tm.tmYear + 1900) tm.tmMon 0
    (subYears (tm.tmYear + 1900) 1969 (addYears (tm.tmYear + 1900) 1970 0)) <;> rfl

/-! ## Ranges -/

/-- When `strptime` succeeds, the fields are within their ranges, and `mktime` stays inside its
table. -/
def StoresInRange (s format : List UInt8) (tm : Tm) : Prop :=
  ∀ rest tm', strptime s format tm = (some rest, tm') → tm'.InRange ∧ (mktime (some tm')).isSome

/-- Where the format matches the string, the last number that it reads for each field is one of the
calendar. -/
def ReadsInRange (format s : List UInt8) : Prop :=
  ∀ readings rest, Reads format s readings rest →
    ∀ f : Field, ∀ v ∈ lastReading readings f, f.Within v

section Ranges

variable {tm : Tm}

theorem stored_inRange_iff (h : tm.InRange) (readings : List Reading) :
    (stored tm readings).InRange ↔ ∀ f : Field, ∀ v ∈ lastReading readings f, f.Within v := by
  rw [Tm.inRange_iff]
  apply forall_congr'
  intro f
  rw [get_stored]
  cases lastReading readings f with
  | none => exact iff_of_true ((Tm.inRange_iff tm).mp h f) (fun v hv => absurd hv (by simp))
  | some v => simp

def newYear : Tm := ⟨0, 0, 0, 1, 0, 70, 4, 0, 0⟩

theorem newYear_inRange : newYear.InRange := by
  constructor <;> decide

/-- From fields within their ranges, `strptime` stores fields within their ranges exactly when the
numbers that it reads are. -/
theorem storesInRange_iff (s format : List UInt8) (tm : Tm) (h : tm.InRange) :
    StoresInRange s format tm ↔ ReadsInRange format s := by
  constructor
  · intro hstores readings rest hreads
    have hsuccess := strptime_of_reads hreads tm
    exact (stored_inRange_iff h readings).mp (hstores _ _ hsuccess).1
  · intro hreads rest tm' hsuccess
    obtain ⟨readings, hmatch, rfl⟩ := strptime_eq_iff.mp hsuccess
    have hrange := (stored_inRange_iff h readings).mpr (hreads _ _ hmatch)
    have hmon := hrange.mon.2
    exact ⟨hrange, (mktime_isSome_iff _).mpr (by omega)⟩

/-- July. -/
theorem readsInRange_seven : ReadsInRange (literal "%m") (literal "07") := by
  apply (storesInRange_iff (literal "07") (literal "%m") newYear newYear_inRange).mp
  intro rest tm' h
  have hresult : strptime (literal "07") (literal "%m") newYear =
      (some [], { newYear with tmMon := 6 }) := rfl
  obtain ⟨-, rfl⟩ := Prod.mk.inj (hresult.symm.trans h)
  exact ⟨by constructor <;> decide, (mktime_isSome_iff _).mpr (by decide)⟩

/-- Month 99 is stored as 98, and `mktime` reads outside its table. -/
theorem not_storesInRange_ninety_nine :
    newYear.InRange ∧ ¬ StoresInRange (literal "99") (literal "%m") newYear := by
  refine ⟨newYear_inRange, fun h => ?_⟩
  have hresult : strptime (literal "99") (literal "%m") newYear =
      (some [], { newYear with tmMon := 98 }) := rfl
  have hin := (mktime_isSome_iff _).mp (h _ _ hresult).2
  exact absurd hin (by decide)

end Ranges

end LampUserspace.Time
