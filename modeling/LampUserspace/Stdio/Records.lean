import LampUserspace.Stdio.Rescanning

/-! # Records printed and scanned

A record of integers with a byte between any two of them. What `snprintf` makes
of it, `sscanf` reads back field by field: a number ends where the byte behind it
is no digit, whatever follows.
-/

namespace LampUserspace.Stdio

open Numerals

/-! ## Numbers with something behind them -/

/-- What may stand behind a number that is scanned. -/
def Separates (c : UInt8) : Prop := scanDigit c = none ∧ c ≠ byte 'x' ∧ c ≠ byte 'X'

section Behind

variable {input p rest : List UInt8} {base : ℤ} {value v w : UInt64} {consumed n : ℕ}

theorem scanLoop_append (h : scanLoop 0 base value consumed p = (v, n, []))
    (hrest : ∀ c, rest.head? = some c → Separates c) :
    scanLoop 0 base value consumed (p ++ rest) = (v, n, rest) := by
  induction p generalizing value consumed with
  | nil =>
    obtain ⟨rfl, rfl, -⟩ := Prod.mk.injEq .. ▸ h
    cases rest with
    | nil => exact h
    | cons c rest =>
      rw [List.nil_append, scanLoop, if_pos (Or.inl rfl), (hrest c rfl).1]
  | cons c p ih =>
    rw [List.cons_append, scanLoop, if_pos (Or.inl rfl)]
    rw [scanLoop, if_pos (Or.inl rfl)] at h
    cases hdigit : scanDigit c with
    | none =>
      rw [hdigit] at h
      simp at h
    | some digit =>
      rw [hdigit] at h
      dsimp only at h ⊢
      split at h
      · simp at h
      · rename_i hlt
        rw [if_neg hlt]
        exact ih h

theorem hexPrefixed_append (hp : p ≠ []) (hrest : ∀ c, rest.head? = some c → Separates c) :
    Stdlib.hexPrefixed (p ++ rest) = Stdlib.hexPrefixed p := by
  match p, hp with
  | [c], _ =>
    cases rest with
    | nil => rfl
    | cons d rest =>
      obtain ⟨-, hx, hX⟩ := hrest d rfl
      simp [Stdlib.hexPrefixed, hx, hX]
  | c :: d :: p, _ => rfl

theorem two_le_length_of_hexPrefixed (h : Stdlib.hexPrefixed p = true) : 2 ≤ p.length := by
  match p with
  | [] => simp [Stdlib.hexPrefixed] at h
  | [c] => simp [Stdlib.hexPrefixed] at h
  | c :: d :: p => simp

theorem strtoulBase_append (hp : p ≠ []) (hrest : ∀ c, rest.head? = some c → Separates c) :
    Stdlib.strtoulBase base (p ++ rest) =
      ((Stdlib.strtoulBase base p).1, (Stdlib.strtoulBase base p).2 ++ rest) := by
  have hhead : (p ++ rest).head? = p.head? := List.head?_append_of_ne_nil p hp
  have hdrop : Stdlib.hexPrefixed p = true → (p ++ rest).drop 2 = p.drop 2 ++ rest := fun h =>
    List.drop_append_of_le_length (two_le_length_of_hexPrefixed h)
  unfold Stdlib.strtoulBase
  rw [hhead, hexPrefixed_append hp hrest]
  split
  · split
    · split
      · rename_i hhex
        rw [hdrop hhex]
      · rfl
    · rfl
  · split
    · rename_i hhex
      rw [hdrop hhex.2]
    · rfl

theorem dropWhile_append_ne (f : UInt8 → Bool) (h : input.dropWhile f ≠ []) :
    (input ++ rest).dropWhile f = input.dropWhile f ++ rest := by
  rw [List.dropWhile_append, if_neg]
  simpa using h

theorem strtoulBase_nil (base : ℤ) : (Stdlib.strtoulBase base []).2 = [] := by
  unfold Stdlib.strtoulBase
  split
  · rfl
  · split <;> rfl

/-- A number that is read up to the end of the input is read up to a separator. -/
theorem scanUnsigned_append (h : scanUnsigned input 0 base = some (w, []))
    (hrest : ∀ c, rest.head? = some c → Separates c) :
    scanUnsigned (input ++ rest) 0 base = some (w, rest) := by
  rw [scanUnsigned_unplussed] at h ⊢
  -- without a digit nothing would have been read
  have hread : unplussed (input.dropWhile scanSpace) ≠ [] := by
    intro hnil
    rw [hnil] at h
    simp [strtoulBase_nil, scanLoop] at h
  have hspace : input.dropWhile scanSpace ≠ [] := by
    intro hnil
    rw [hnil] at hread
    exact hread rfl
  have hunplussed : unplussed ((input ++ rest).dropWhile scanSpace) =
      unplussed (input.dropWhile scanSpace) ++ rest := by
    rw [dropWhile_append_ne _ hspace]
    unfold unplussed
    rw [List.head?_append_of_ne_nil _ hspace]
    split
    · exact List.tail_append_of_ne_nil hspace
    · rfl
  rw [hunplussed, strtoulBase_append hread hrest]
  generalize Stdlib.strtoulBase base (unplussed (input.dropWhile scanSpace)) = q at h ⊢
  dsimp only at h ⊢
  split at h
  · cases h
  · rename_i hconsumed
    obtain ⟨hvalue, hend⟩ := Prod.mk.inj (Option.some.inj h)
    have hloop : scanLoop 0 q.1 0 0 q.2 = (w, (scanLoop 0 q.1 0 0 q.2).2.1, []) := by
      rw [← hvalue, ← hend]
    rw [scanLoop_append hloop hrest]
    exact if_neg hconsumed

end Behind

section Plain

variable {flags : List Flag} {length : Length} {conv scan : Conv} {v w : UInt64}
  {input rest : List UInt8}

theorem isspace_ne_nil (h : scanUnsigned (unsignedFor scan input) 0 scan.scanBase =
    some (w, [])) : input.dropWhile isspace ≠ [] := by
  intro hnil
  rw [unsignedFor, hnil, if_neg (by simp), scanUnsigned_unplussed] at h
  simp [unplussed, strtoulBase_nil, scanLoop] at h

theorem unsignedFor_append (h : input.dropWhile isspace ≠ []) :
    unsignedFor scan (input ++ rest) = unsignedFor scan input ++ rest := by
  unfold unsignedFor
  rw [dropWhile_append_ne _ h, List.head?_append_of_ne_nil _ h]
  split
  · exact List.tail_append_of_ne_nil h
  · rfl

theorem signedFor_append (h : input.dropWhile isspace ≠ []) :
    signedFor scan (input ++ rest) w = signedFor scan input w := by
  unfold signedFor
  rw [dropWhile_append_ne _ h, List.head?_append_of_ne_nil _ h]

theorem forFields_unspaced (scan : Conv) (input : List UInt8) :
    unsignedFor scan (input.dropWhile isspace) = unsignedFor scan input ∧
      ∀ w, signedFor scan (input.dropWhile isspace) w = signedFor scan input w := by
  have hidem : (input.dropWhile isspace).dropWhile isspace = input.dropWhile isspace :=
    Stdlib.unspaced_unspaced input
  unfold unsignedFor signedFor
  rw [hidem]
  exact ⟨rfl, fun _ => rfl⟩

/-- What a conversion printed is scanned as its argument, up to a separator behind it. -/
theorem scan_plain_append (h : Rescans flags conv scan) (length : Length) (v : UInt64)
    (hrest : ∀ c, rest.head? = some c → Separates c) :
    ∃ w, scanUnsigned (unsignedFor scan (plainText flags length conv v ++ rest)) 0
        scan.scanBase = some (w, rest) ∧
      signedFor scan (plainText flags length conv v ++ rest) w =
        .ofInt ((plain flags length conv).value v) := by
  obtain ⟨w, hread, hsign⟩ := scan_plain flags length conv v h
  have hne := isspace_ne_nil hread
  refine ⟨w, ?_, (signedFor_append hne).trans hsign⟩
  rw [unsignedFor_append hne]
  exact scanUnsigned_append hread hrest

end Plain

/-! ## Records -/

/-- A byte that may stand between two numbers. -/
structure Separator where
  char : UInt8
  separates : Separates char
  ne_percent : char ≠ byte '%'
  ne_zero : char ≠ 0

/-- An integer with the conversions that print and scan it, and the pointer through which it is
scanned. -/
structure Field where
  flags : List Flag
  length : Length
  conv : Conv
  scan : Conv
  rescans : Rescans flags conv scan
  value : UInt64
  ptr : ℕ

def Field.directive (f : Field) : Directive := plain f.flags f.length f.conv

def Field.text (f : Field) : List UInt8 := plainText f.flags f.length f.conv f.value

def Separator.before (c : Separator) (fmt : CString) : CString :=
  ⟨c.char :: fmt.bytes, by simp [c.ne_zero.symm, fmt.nul_free]⟩

def printFormat : Field → List (Separator × Field) → CString
  | f, [] => f.directive.format ⟨[], List.not_mem_nil⟩
  | f, (c, g) :: rest => f.directive.format (c.before (printFormat g rest))

def printArgs : Field → List (Separator × Field) → List Arg
  | f, [] => [f.directive.arg f.value]
  | f, (_, g) :: rest => f.directive.arg f.value :: printArgs g rest

def scanFormat : Field → List (Separator × Field) → List UInt8
  | f, [] => byte '%' :: (scanText 0 f.length f.scan ++ [])
  | f, (c, g) :: rest => byte '%' :: (scanText 0 f.length f.scan ++ c.char :: scanFormat g rest)

def scanArgs : Field → List (Separator × Field) → List ℕ
  | f, [] => [f.ptr]
  | f, (_, g) :: rest => f.ptr :: scanArgs g rest

def recordText : Field → List (Separator × Field) → List UInt8
  | f, [] => f.text
  | f, (c, g) :: rest => f.text ++ c.char :: recordText g rest

def recordStores : Field → List (Separator × Field) → List (ℕ × Store)
  | f, [] => [(f.ptr, stored f.length.code f.value)]
  | f, (_, g) :: rest => (f.ptr, stored f.length.code f.value) :: recordStores g rest

theorem formatted_before (c : Separator) (fmt : CString) (ap : List Arg) :
    formatted (c.before fmt) ap = (formatted fmt ap).map (c.char :: ·) := by
  rw [formatted, formatted, Separator.before, pieces_of_ne c.ne_percent, Option.map_map,
    Option.map_map]
  rfl

theorem Field.formatted_format (f : Field) (fmt : CString) (ap : List Arg) :
    formatted (f.directive.format fmt) (f.directive.arg f.value :: ap) =
      (formatted fmt ap).map (f.text ++ ·) := by
  have hargs : f.directive.args f.value ++ ap = f.directive.arg f.value :: ap := rfl
  rw [← hargs, Directive.formatted_format, Field.directive, bytes_plain]
  rfl

theorem formatted_record (f : Field) (rest : List (Separator × Field)) :
    formatted (printFormat f rest) (printArgs f rest) = some (recordText f rest) := by
  induction rest generalizing f with
  | nil =>
    have hempty : formatted ⟨[], List.not_mem_nil⟩ [] = some [] := by
      rw [formatted, pieces_nil]
      rfl
    rw [printFormat, printArgs, f.formatted_format, hempty, Option.map_some, List.append_nil]
    rfl
  | cons field rest ih =>
    obtain ⟨c, g⟩ := field
    rw [printFormat, printArgs, f.formatted_format, formatted_before, ih, Option.map_some,
      Option.map_some]
    rfl

theorem nul_free_recordText (f : Field) (rest : List (Separator × Field)) :
    0 ∉ recordText f rest := by
  induction rest generalizing f with
  | nil => exact nul_free_plainText f.flags f.length f.conv f.value
  | cons field rest ih =>
    obtain ⟨c, g⟩ := field
    have htext : 0 ∉ f.text := nul_free_plainText f.flags f.length f.conv f.value
    simp [recordText, htext, c.ne_zero.symm, ih]

theorem sscanfLoop_field (f : Field) (rest input : List UInt8)
    (hrest : ∀ c, rest.head? = some c → Separates c)
    (hinput : input.dropWhile isspace = (f.text ++ rest).dropWhile isspace)
    (str fmt : List UInt8) (assigned : ℕ) (ap : List ℕ) (stores : List (ℕ × Store)) :
    sscanfLoop str (byte '%' :: (scanText 0 f.length f.scan ++ fmt))
        ⟨input, assigned, f.ptr :: ap, stores⟩ =
      sscanfLoop str fmt ⟨rest, assigned + 1, ap,
        stores ++ [(f.ptr, stored f.length.code f.value)]⟩ := by
  obtain ⟨w, hread, hsign⟩ := scan_plain_append f.rescans f.length f.value hrest
  -- white space may have been skipped before
  obtain ⟨hfor, hsigned⟩ := forFields_unspaced f.scan input
  obtain ⟨hfor', hsigned'⟩ := forFields_unspaced f.scan (f.text ++ rest)
  rw [hinput] at hfor hsigned
  have hsame : unsignedFor f.scan input = unsignedFor f.scan (f.text ++ rest) :=
    hfor.symm.trans hfor'
  have hvalue : signedFor f.scan input w = .ofInt ((plain f.flags f.length f.conv).value f.value) :=
    ((hsigned w).symm.trans (hsigned' w)).trans hsign
  have hinteger : scanUnsigned (unsignedFor f.scan input) 0 f.scan.scanBase =
      some (w, rest) := hsame ▸ hread
  have hround := @sscanfLoop_integer f.scan 0 f.length input rest w
    (by rwa [Nat.cast_zero, wrapInt_zero]) str fmt assigned f.ptr ap stores
  rw [hvalue, stored_value] at hround
  exact hround

theorem sscanfLoop_separator (c : Separator) (str fmt input : List UInt8) (assigned : ℕ)
    (ap : List ℕ) (stores : List (ℕ × Store)) :
    ∃ input', input'.dropWhile isspace = input.dropWhile isspace ∧
      sscanfLoop str (c.char :: byte '%' :: fmt) ⟨c.char :: input, assigned, ap, stores⟩ =
        sscanfLoop str (byte '%' :: fmt) ⟨input', assigned, ap, stores⟩ := by
  have hpercent : scanSpace (byte '%') = false := by decide
  by_cases hspace : scanSpace c.char = true
  · refine ⟨input.dropWhile isspace, Stdlib.unspaced_unspaced input, ?_⟩
    rw [sscanfLoop.eq_def, ← scanSpace_eq]
    simp only [hspace, if_true, List.dropWhile_cons, hpercent, Bool.false_eq_true, if_false]
  · refine ⟨input, rfl, ?_⟩
    rw [sscanfLoop.eq_def]
    simp only [hspace, Bool.false_eq_true, if_false, c.ne_percent, ne_eq, not_false_eq_true,
      if_true, List.head?_cons, not_true, List.tail_cons]

theorem sscanfLoop_record (f : Field) (rest : List (Separator × Field)) {input : List UInt8}
    (hinput : input.dropWhile isspace = (recordText f rest).dropWhile isspace)
    (str : List UInt8) (assigned : ℕ) (stores : List (ℕ × Store)) :
    sscanfLoop str (scanFormat f rest) ⟨input, assigned, scanArgs f rest, stores⟩ =
      some ⟨[], assigned + rest.length + 1, [], stores ++ recordStores f rest⟩ := by
  induction rest generalizing f input assigned stores with
  | nil =>
    have htext : input.dropWhile isspace = (f.text ++ []).dropWhile isspace := by
      rw [List.append_nil]
      exact hinput
    have hfield := sscanfLoop_field f [] input (fun c hc => by cases hc) htext str [] assigned []
      stores
    rw [scanFormat, scanArgs, hfield, sscanfLoop.eq_def]
    rfl
  | cons field rest ih =>
    obtain ⟨c, g⟩ := field
    have hbehind : ∀ d, (c.char :: recordText g rest).head? = some d → Separates d := by
      intro d hd
      exact Option.some.inj hd ▸ c.separates
    obtain ⟨fmt, hfmt⟩ : ∃ fmt, scanFormat g rest = byte '%' :: fmt := by
      cases rest <;> exact ⟨_, rfl⟩
    rw [scanFormat, scanArgs, sscanfLoop_field f _ _ hbehind hinput, hfmt]
    obtain ⟨input', hinput', hseparator⟩ := sscanfLoop_separator c str fmt (recordText g rest)
      (assigned + 1) (scanArgs g rest) (stores ++ [(f.ptr, stored f.length.code f.value)])
    rw [hseparator, ← hfmt, ih g hinput', List.length_cons, List.append_assoc]
    congr 2
    omega

/-- The string that `snprintf` produces for a record is scanned back into its fields. -/
theorem printed_records_rescanned (f : Field) (rest : List (Separator × Field)) :
    ∃ out, Produces (printFormat f rest) (printArgs f rest) out ∧
      sscanf (some out) (some (scanFormat f rest)) (scanArgs f rest) =
        some ⟨rest.length + 1, recordStores f rest⟩ := by
  refine ⟨recordText f rest, produces_of_formatted (formatted_record f rest)
    (nul_free_recordText f rest), ?_⟩
  unfold sscanf
  dsimp only
  rw [sscanfLoop_record f rest rfl, Nat.zero_add]
  rfl

end LampUserspace.Stdio
