import LampUserspace.Regex.Regexec

/-! # Matching without regard to case

With `REG_ICASE` every test that the matcher makes on a byte of the text has
the same outcome on the other case of that byte, so that two texts which agree
up to case take the matcher through the same run.
-/

namespace LampUserspace.Regex

/-- Two subjects that the matcher cannot tell apart: their texts agree up to case. -/
structure SameFold (s s' : Subject) : Prop where
  icase : hasFlag s.cflags regIcase = true
  cflags : s'.cflags = s.cflags
  eflags : s'.eflags = s.eflags
  text : s.text.bytes.map tolower = s'.text.bytes.map tolower

section Tests

variable {s s' : Subject} (h : SameFold s s')

include h

theorem SameFold.length : s'.length = s.length := by
  have := congrArg List.length h.text
  simpa [Subject.length, CString.strlen] using this.symm

theorem SameFold.byteAt (pos : ℕ) : tolower (s'.byteAt pos) = tolower (s.byteAt pos) := by
  have hget := congrArg (·[pos]?) h.text
  simp only [List.getElem?_map] at hget
  simp only [Subject.byteAt, List.getD_eq_getElem?_getD]
  cases hb : s.text.bytes[pos]? <;> cases hb' : s'.text.bytes[pos]? <;> simp_all

theorem SameFold.isNewline (pos : ℕ) : (s'.byteAt pos == 10) = (s.byteAt pos == 10) := by
  have hten : ∀ c : UInt8, (c == 10) = (tolower c == 10) := by
    intro c
    rw [Bool.eq_iff_iff, beq_iff_eq, beq_iff_eq, tolower_eq_iff (by decide)]
  rw [hten, h.byteAt, ← hten]

theorem SameFold.reIsWord (pos : ℕ) :
    Regex.reIsWord (s'.byteAt pos) = Regex.reIsWord (s.byteAt pos) := by
  have hword : ∀ c : UInt8, Regex.reIsWord c = Regex.reIsWord (tolower c) := by
    intro c
    have hbar : (c == byte '_') = (tolower c == byte '_') := by
      rw [Bool.eq_iff_iff, beq_iff_eq, beq_iff_eq, tolower_eq_iff (by decide)]
    rw [Regex.reIsWord, Regex.reIsWord, isalnum_tolower, hbar]
  rw [hword, h.byteAt, ← hword]

end Tests

/-- The three tests of a class come down to the two cases of the byte. -/
theorem reClassMatch_icase {cflags : UInt32} (h : hasFlag cflags regIcase = true) (inst : ReInst)
    (ch : UInt8) : reClassMatch inst ch cflags =
      (inst.set.has (tolower ch) || inst.set.has (toupper ch)) := by
  unfold reClassMatch
  rw [if_pos h]
  split
  · rename_i hch
    rcases eq_tolower_or_eq_toupper ch with he | he
    · rw [← he, hch, Bool.true_or]
    · rw [← he, hch, Bool.or_true]
  · rfl

section Runs

variable {s s' : Subject} (h : SameFold s s') (program : List ReInst)

include h

theorem reConsumes_fold (inst : ReInst) (pos : ℕ) :
    reConsumes s' inst pos = reConsumes s inst pos := by
  have hclass : reClassMatch inst (s'.byteAt pos) s.cflags =
      reClassMatch inst (s.byteAt pos) s.cflags := by
    rw [reClassMatch_icase h.icase, reClassMatch_icase h.icase, h.byteAt,
      toupper_congr (h.byteAt pos)]
  unfold reConsumes
  simp only [h.length, h.cflags, h.isNewline, h.byteAt, h.icase, if_true, hclass]

theorem reAsserts_fold (inst : ReInst) (pos : ℕ) :
    reAsserts s' inst pos = reAsserts s inst pos := by
  unfold reAsserts
  simp only [h.length, h.cflags, h.eflags, h.isNewline, h.reIsWord]

theorem reRun_fold (programLength : ℕ) (generation : UInt32) (depth : ℕ) (pc : Int) (pos : ℕ)
    (captures : List Int) (generations : ℕ → UInt32) :
    reRun program programLength s' generation depth pc pos captures generations =
      reRun program programLength s generation depth pc pos captures generations := by
  induction depth generalizing pc pos captures generations with
  | zero => rfl
  | succ depth ih =>
    unfold reRun
    simp only [h.length, reConsumes_fold h, reAsserts_fold h, ih]

theorem reSearch_fold (programLength captureCount n start : ℕ) (generation : UInt32)
    (generations : ℕ → UInt32) :
    reSearch program programLength captureCount s' n start generation generations =
      reSearch program programLength captureCount s n start generation generations := by
  induction n generalizing start generation generations with
  | zero => rfl
  | succ n ih =>
    unfold reSearch runDepth
    simp only [h.length, reRun_fold h, ih]

end Runs

theorem TableFits.fold {s s' : Subject} (h : SameFold s s') (programLength : ℕ) :
    TableFits programLength s' ↔ TableFits programLength s := by
  unfold TableFits
  rw [h.length]

/--
A pattern compiled with `REG_ICASE` matches the same way on texts that agree up to case, and if
its slots index the captures and the table fits, the calls return.
-/
theorem regexec_ignores_case {regex : CString} {cflags : UInt32} {heap heap' : Heap}
    {preg : RegexT} (h : regcomp regex cflags heap = some (.ok, preg, heap'))
    (hicase : hasFlag cflags regIcase = true) {text text' : CString}
    (htext : text.bytes.map tolower = text'.bytes.map tolower) (nmatch : ℕ)
    (pmatch : List RegMatch) (eflags : UInt32) (table : ℕ → UInt32) :
    regexec preg text nmatch pmatch eflags true (some table) =
      regexec preg text' nmatch pmatch eflags true (some table) ∧
    ∀ program, preg.reProgram = some program → SavesFit program ((preg.reNsub + 1) * 2) →
      TableFits program.length ⟨text, cflags, eflags⟩ →
      ∃ r r', regexec preg text nmatch pmatch eflags true (some table) = some r ∧
        regexec preg text' nmatch pmatch eflags true (some table) = some r' ∧
        r.status = r'.status ∧ r.pmatch = r'.pmatch := by
  have hfold : SameFold ⟨text, cflags, eflags⟩ ⟨text', cflags, eflags⟩ :=
    ⟨hicase, rfl, rfl, htext⟩
  have hsame : regexec preg text nmatch pmatch eflags true (some table) =
      regexec preg text' nmatch pmatch eflags true (some table) := by
    obtain ⟨program, hprogram⟩ : ∃ program, preg.reProgram = some program := by
      obtain ⟨tree, -, rfl⟩ := regcomp_accepted h
      exact ⟨_, rfl⟩
    have hlen : text'.strlen = text.strlen := hfold.length
    rw [regexec_eq h hprogram, regexec_eq h hprogram, hlen, reSearch_fold hfold]
    simp only [TableFits.fold hfold]
  refine ⟨hsame, fun program hprogram hs hfits => ?_⟩
  obtain ⟨r, hr, -⟩ := regexec_call h hprogram hs hfits nmatch pmatch table
  exact ⟨_, _, hr, hsame ▸ hr, rfl, rfl⟩

abbrev upperA : CString := ⟨[byte 'A'], by decide⟩

theorem litA_ignores_case :
    ∃ r r', regexec ⟨some compiledA, 0, regIcase⟩ litA 1 [⟨-1, -1⟩] 0 true (some fun _ => 0) =
        some r ∧
      regexec ⟨some compiledA, 0, regIcase⟩ upperA 1 [⟨-1, -1⟩] 0 true (some fun _ => 0) =
        some r' ∧
      r.status = r'.status ∧ r.pmatch = r'.pmatch := by
  obtain ⟨heap', h⟩ : ∃ heap', regcomp litA regIcase .unlimited =
    some (.ok, ⟨some compiledA, 0, regIcase⟩, heap') := ⟨_, rfl⟩
  have htext : litA.bytes.map tolower = upperA.bytes.map tolower := by decide
  exact (regexec_ignores_case h (by decide) htext 1 [⟨-1, -1⟩] 0 fun _ => 0).2 compiledA rfl
    (by decide) (by decide)

/-- `((a)?)?`. -/
abbrev optionalGroups : CString :=
  ⟨['(', '(', 'a', ')', '?', ')', '?'].map byte, by decide⟩

/--
The match of `((a)?)?` on `a` stores position 1 to slots 6 and 7 of an array of six, where the
heap keeps the size and the link of its next block: neither call has a result.
-/
theorem optionalGroups_no_result : ∃ heap' preg program,
    regcomp optionalGroups (regExtended ||| regIcase) .unlimited = some (.ok, preg, heap') ∧
    hasFlag (regExtended ||| regIcase) regIcase = true ∧
    litA.bytes.map tolower = upperA.bytes.map tolower ∧
    preg.reProgram = some program ∧ ¬ SavesFit program ((preg.reNsub + 1) * 2) ∧
    TableFits program.length ⟨litA, regExtended ||| regIcase, 0⟩ ∧
    ¬ ∃ r r', regexec preg litA 1 [⟨-1, -1⟩] 0 true (some fun _ => 0) = some r ∧
      regexec preg upperA 1 [⟨-1, -1⟩] 0 true (some fun _ => 0) = some r' ∧
      r.status = r'.status ∧ r.pmatch = r'.pmatch := by
  refine ⟨_, _, _, rfl, by decide, by decide, rfl, by decide, by decide, ?_⟩
  rintro ⟨r, -, hr, -⟩
  cases hr

end LampUserspace.Regex
