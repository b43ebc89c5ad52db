import Mathlib.Data.List.TakeWhile
import Mathlib.Data.Nat.Log
import LampUserspace.Stdio.Formatted
import LampUserspace.Stdio.Stream

/-! # Printing through a buffer

`vfprintf`, `fprintf`, `printf` and `dprintf` format into an array of 512 bytes
and write what `strlen` finds there. A call writes its whole output exactly when
the output leaves room for the NUL of the array and holds no NUL of its own.
-/

namespace LampUserspace.Stdio

/-- `strlen` of an array of `n` bytes; `none` reads beyond the array. -/
def strlenAt (m : Memory) (a n : ℕ) : Option ℕ := (List.range n).find? fun i => m (a + i) = 0

/-- The returned value, and the descriptor and bytes passed to `write`, which accepts them. -/
structure Sent where
  ret : ℕ
  fd : ℤ
  bytes : List UInt8

/-- The body that `vfprintf` and `dprintf` share, with the array `char buf[512]` of the stack. -/
def printBuffer (stack : Memory) (buf : ℕ) (fd : ℤ) (fmt : CString) (ap : List Arg) :
    Option Sent := do
  let r ← vsnprintf stack (some buf) 512 fmt ap
  let len ← strlenAt r.memory buf 512
  return ⟨r.ret, fd, (List.range len).map fun i => r.memory (buf + i)⟩

def dprintf (stack : Memory) (buf : ℕ) (fd : ℤ) (fmt : CString) (ap : List Arg) : Option Sent :=
  printBuffer stack buf fd fmt ap

def vfprintf (stack : Memory) (buf : ℕ) (stream : Option FILE) (fmt : CString) (ap : List Arg) :
    Option Sent :=
  printBuffer stack buf (fileFd stream) fmt ap

def fprintf (stack : Memory) (buf : ℕ) (stream : Option FILE) (fmt : CString) (ap : List Arg) :
    Option Sent :=
  vfprintf stack buf stream fmt ap

def stdout : FILE := ⟨1, false, false, -1⟩

def printf (stack : Memory) (buf : ℕ) (fmt : CString) (ap : List Arg) : Option Sent :=
  vfprintf stack buf (some stdout) fmt ap

/-! ## What is written -/

theorem first_nul {m m' : Memory} {a : ℕ} {out : List UInt8}
    (h : Terminated m' m a out) :
    m (a + (out.takeWhile (· ≠ 0)).length) = 0 ∧
      ∀ i < (out.takeWhile (· ≠ 0)).length, m (a + i) ≠ 0 := by
  obtain ⟨hbyte, hnul, -⟩ := h
  induction out generalizing a with
  | nil => exact ⟨hnul, fun i hi => absurd hi (by simp)⟩
  | cons c out ih =>
    have hc : m a = c := hbyte 0 (by simp)
    by_cases h0 : c = 0
    · rw [List.takeWhile_cons_of_neg (by simp [h0])]
      exact ⟨hc.trans h0, fun i hi => absurd hi (by simp)⟩
    · rw [List.takeWhile_cons_of_pos (by simp [h0])]
      have hstep : ∀ i, a + 1 + i = a + (i + 1) := fun i => by omega
      obtain ⟨hzero, hlt⟩ := ih (a := a + 1)
        (fun i hi => by rw [hstep]; exact hbyte (i + 1) (by simpa using hi))
        (by rw [hstep]; exact hnul)
      rw [hstep] at hzero
      refine ⟨hzero, fun i hi => ?_⟩
      cases i with
      | zero => exact hc ▸ h0
      | succ i => exact hstep i ▸ hlt i (by simpa using hi)

theorem strlenAt_terminated {m m' : Memory} {a n : ℕ} {out : List UInt8}
    (h : Terminated m' m a out) (hn : out.length < n) :
    strlenAt m a n = some (out.takeWhile (· ≠ 0)).length := by
  obtain ⟨hzero, hlt⟩ := first_nul h
  have hle : (out.takeWhile (· ≠ 0)).length ≤ out.length := (List.takeWhile_prefix _).length_le
  apply List.find?_range_eq_some.mpr
  refine ⟨by simpa using hzero, List.mem_range.mpr (by omega), fun i hi => ?_⟩
  simpa using hlt i hi

theorem printBuffer_eq (stack : Memory) (buf : ℕ) (fd : ℤ) (fmt : CString) (ap : List Arg) :
    printBuffer stack buf fd fmt ap = (formatted fmt ap).map fun out =>
      ⟨out.length, fd, (out.take 511).takeWhile (· ≠ 0)⟩ := by
  unfold printBuffer
  rw [vsnprintf_eq]
  cases formatted fmt ap with
  | none => rfl
  | some out =>
    have hterm := terminated_write stack buf (out.take 511)
    have hbuffer : (out.take 511).length < 512 := by
      rw [List.length_take]
      omega
    have hlen := strlenAt_terminated hterm hbuffer
    have hpre : (out.take 511).takeWhile (· ≠ 0) <+: out.take 511 := List.takeWhile_prefix _
    have hread : (List.range ((out.take 511).takeWhile (· ≠ 0)).length).map
        (fun i => stack.write buf (out.take 511 ++ [0]) (buf + i)) =
          (out.take 511).takeWhile (· ≠ 0) := by
      apply List.ext_getElem
      · simp
      · intro i hi hi'
        rw [List.getElem_map, List.getElem_range, hterm.byte i (hi'.trans_le hpre.length_le)]
        exact (hpre.getElem hi').symm
    have hprinted : printed stack (some buf) 512 out =
        ⟨stack.write buf (out.take 511 ++ [0]), out.length, []⟩ := by simp [printed]
    simp only [Option.map_some, Option.bind_eq_bind, Option.bind_some, hprinted, hlen, hread]
    rfl

/-! ## The condition on the pieces -/

def Piece.size : Piece → ℕ
  | .char _ => 1
  | .padded s width _ => max width.toNat s.length
  | .uint v base sign _ width _ _ precision pfx =>
    max width.toNat ((if sign = 0 then 0 else 1) + pfx.length +
      if precision = 0 ∧ v = 0 then 0 else max precision.toNat (Nat.log base v + 1))

def outputSize : List Piece → ℕ
  | [] => 0
  | p :: ps => p.size + outputSize ps

/-- The piece is an unfinished conversion at the end of the format, or text with a NUL, as `%c`
makes it of a value whose low byte is 0. -/
def Piece.Nul : Piece → Prop
  | .char c => c = 0
  | .padded s _ _ => 0 ∈ s
  | .uint .. => False

instance decidableNul : (p : Piece) → Decidable p.Nul
  | .char c => inferInstanceAs (Decidable (c = 0))
  | .padded s _ _ => inferInstanceAs (Decidable (0 ∈ s))
  | .uint .. => inferInstanceAs (Decidable False)

theorem length_utoaRev (v base : ℕ) (upper : Bool) :
    (utoaRev v base upper).length = Nat.log base v + 1 := by
  fun_induction utoaRev v base upper with
  | case1 v d c h ih =>
    rw [List.length_cons, ih, Nat.log_div_base]
    have hpos : 0 < Nat.log base v := Nat.log_pos h.1 (by
      by_contra hlt
      exact h.2 (Nat.div_eq_of_lt (Nat.lt_of_not_le hlt)))
    omega
  | case2 v d c h =>
    have hlog : Nat.log base v = 0 := by
      rw [Nat.log_eq_zero_iff]
      by_cases hbase : 2 ≤ base
      · left
        by_contra hlt
        exact h ⟨hbase, (Nat.div_pos (Nat.le_of_not_lt hlt) (by omega)).ne'⟩
      · right; omega
    simp [hlog]

theorem length_numeral (v base : ℕ) (upper : Bool) (precision : ℤ) :
    (numeral v base upper precision).length =
      if precision = 0 ∧ v = 0 then 0 else max precision.toNat (Nat.log base v + 1) := by
  unfold numeral digits
  by_cases h : precision = 0 ∧ v = 0
  · simp [h]
  · simp only [if_neg h, List.length_append, List.length_replicate, List.length_reverse,
      length_utoaRev]
    omega

theorem length_lead (sign : UInt8) (pfx : List UInt8) :
    (lead sign pfx).length = (if sign = 0 then 0 else 1) + pfx.length := by
  unfold lead
  split <;> simp
  omega

def Piece.width : Piece → ℤ
  | .char _ => 0
  | .padded _ width _ => width
  | .uint _ _ _ _ width _ _ _ _ => width

theorem Piece.width_char_lt (c : UInt8) : (Piece.char c).width < 2 ^ 31 :=
  show (0 : ℤ) < 2 ^ 31 by decide

theorem length_bytes {p : Piece} (h : p.width < 2 ^ 31) :
    min p.bytes.length (2 ^ 31) = min p.size (2 ^ 31) := by
  have hmissing : ∀ {width : ℤ} {len : ℕ}, width < 2 ^ 31 →
      min (len + missing width len) (2 ^ 31) = min (max width.toNat len) (2 ^ 31) := by
    intro width len hwidth
    by_cases hlen : len < 2 ^ 31
    · rw [missing_eq hwidth hlen]
      omega
    · omega
  cases p with
  | char c => rfl
  | padded s width leftAdjust =>
    have hlength : (Piece.padded s width leftAdjust).bytes.length =
        s.length + missing width s.length := by
      unfold Piece.bytes filler
      cases leftAdjust <;> simp [Nat.add_comm]
    rw [hlength]
    exact hmissing h
  | uint v base sign upper width leftAdjust zeroPad precision pfx =>
    have hwidth : width < 2 ^ 31 := h
    rw [length_bytes_uint, hmissing hwidth, length_numeral, length_lead]
    rfl

theorem length_flatMap_bytes {ps : List Piece} (h : ∀ p ∈ ps, p.width < 2 ^ 31) :
    min (ps.flatMap Piece.bytes).length (2 ^ 31) = min (outputSize ps) (2 ^ 31) := by
  induction ps with
  | nil => rfl
  | cons p ps ih =>
    have hp := length_bytes (h p List.mem_cons_self)
    have hps := ih fun q hq => h q (List.mem_cons_of_mem p hq)
    rw [List.flatMap_cons, List.length_append, outputSize]
    omega

/-- A number in one of the bases of the conversions, with a prefix of theirs. -/
def Piece.Ordinary : Piece → Prop
  | .uint _ base _ _ _ _ _ _ pfx => 0 < base ∧ base ≤ 16 ∧ 0 ∉ pfx
  | _ => True

theorem ordinary_readConversion {spec : Spec} {c : UInt8} {ap ap' : List Arg} {p : Piece}
    (h : readConversion spec c ap = some (p, ap')) : p.Ordinary := by
  have hliteral : ∀ s ∈ [literal "0X", literal "0x", literal "0", []], (0 : UInt8) ∉ s := by decide
  unfold readConversion at h
  split at h
  · split at h
    · obtain ⟨rfl, -⟩ := Prod.mk.inj (Option.some.inj h)
      trivial
    · cases h
  split at h
  · obtain ⟨⟨v, ap₁⟩, -, h⟩ := Option.bind_eq_some_iff.mp h
    obtain ⟨rfl, -⟩ := Prod.mk.inj (Option.some.inj h)
    trivial
  split at h
  · obtain ⟨⟨v, ap₁⟩, -, h⟩ := Option.bind_eq_some_iff.mp h
    obtain ⟨rfl, -⟩ := Prod.mk.inj (Option.some.inj h)
    exact ⟨by decide, by decide, by simp⟩
  split at h
  · obtain ⟨⟨v, ap₁⟩, -, h⟩ := Option.bind_eq_some_iff.mp h
    obtain ⟨rfl, -⟩ := Prod.mk.inj (Option.some.inj h)
    refine ⟨?_, ?_, hliteral _ ?_⟩
    · split <;> [decide; split <;> decide]
    · split <;> [decide; split <;> decide]
    · split
      · split <;> simp
      · split <;> simp
  split at h
  · split at h
    · obtain ⟨rfl, -⟩ := Prod.mk.inj (Option.some.inj h)
      exact ⟨by decide, by decide, hliteral _ (by simp)⟩
    · cases h
  split at h
  · obtain ⟨rfl, -⟩ := Prod.mk.inj (Option.some.inj h)
    trivial
  · obtain ⟨rfl, -⟩ := Prod.mk.inj (Option.some.inj h)
    trivial

theorem ne_zero_of_mem_utoaRev {v base : ℕ} {upper : Bool} (hpos : 0 < base) (hbase : base ≤ 16)
    {c : UInt8} (hc : c ∈ utoaRev v base upper) : c ≠ 0 := by
  have hdigit : ∀ d < 16, ∀ upper : Bool, (if d < 10 then byte '0' + .ofNat d else
      (if upper then byte 'A' else byte 'a') + .ofNat d - 10) ≠ 0 := by decide
  fun_induction utoaRev v base upper with
  | case1 v d c' h ih =>
    rcases List.mem_cons.mp hc with rfl | hc
    · exact hdigit _ (lt_of_lt_of_le (Nat.mod_lt _ hpos) hbase) upper
    · exact ih hc
  | case2 v d c' h =>
    obtain rfl := List.mem_singleton.mp hc
    exact hdigit _ (lt_of_lt_of_le (Nat.mod_lt _ hpos) hbase) upper

theorem zero_mem_bytes {p : Piece} (hp : p.Ordinary) : 0 ∈ p.bytes ↔ p.Nul := by
  have hfiller : ∀ c : UInt8, c ≠ 0 → ∀ width len, 0 ∉ filler c width len := by
    intro c hc width len h
    exact hc (List.eq_of_mem_replicate h).symm
  have hspace := hfiller (byte ' ') (by decide)
  have hzero := hfiller (byte '0') (by decide)
  cases p with
  | char c => simp [Piece.bytes, Piece.Nul, eq_comm]
  | padded s width leftAdjust =>
    unfold Piece.bytes Piece.Nul
    cases leftAdjust <;> simp [hspace]
  | uint v base sign upper width leftAdjust zeroPad precision pfx =>
    obtain ⟨hpos, hbase, hpfx⟩ := hp
    have hlead : 0 ∉ lead sign pfx := by
      unfold lead
      split <;> simp_all [eq_comm]
    have hnum : 0 ∉ numeral v base upper precision := by
      unfold numeral digits
      rw [List.mem_append]
      rintro (h | h)
      · exact absurd (List.eq_of_mem_replicate h) (by decide)
      · split at h
        · cases h
        · exact ne_zero_of_mem_utoaRev hpos hbase (List.mem_reverse.mp h) rfl
    unfold Piece.bytes Piece.Nul
    simp only [iff_false]
    split
    · simp [hlead, hnum, hspace]
    · split <;> simp [hlead, hnum, hspace, hzero]

theorem ordinary_readPiece {fmt fmt' : List UInt8} {ap ap' : List Arg} {p : Piece}
    (h : readPiece fmt ap = some (p, fmt', ap')) : p.Ordinary := by
  obtain ⟨⟨spec, fmt₁, ap₁⟩, -, h⟩ := Option.bind_eq_some_iff.mp h
  obtain ⟨⟨spec₂, fmt₂, ap₂⟩, -, h⟩ := Option.bind_eq_some_iff.mp h
  obtain ⟨⟨p₃, ap₃⟩, hread, h⟩ := Option.bind_eq_some_iff.mp h
  obtain ⟨rfl, -⟩ := Prod.mk.inj (Option.some.inj h)
  exact ordinary_readConversion hread

/-! The widths of the pieces are of type `int`. -/

theorem readNumber_lt {n : ℤ} (h : n < 2 ^ 31) (fmt : List UInt8) :
    (readNumber n fmt).1 < 2 ^ 31 := by
  fun_induction readNumber n fmt with
  | case1 n => exact h
  | case2 n c fmt hc ih => exact ih (wrapInt_range _).2
  | case3 n c fmt hc => exact h

theorem width_readWidth {spec spec' : Spec} {fmt fmt' : List UInt8} {ap ap' : List Arg}
    (h : readWidth spec fmt ap = some (spec', fmt', ap')) : spec'.width < 2 ^ 31 := by
  unfold readWidth at h
  split at h
  · obtain ⟨⟨width, ap₁⟩, hva, h⟩ := Option.bind_eq_some_iff.mp h
    obtain ⟨rfl, -⟩ := Prod.mk.inj (Option.some.inj h)
    have hlt : width < 2 ^ 31 := by
      unfold vaInt at hva
      split at hva
      · obtain ⟨rfl, -⟩ := Prod.mk.inj (Option.some.inj hva)
        exact BitVec.toInt_lt
      · cases hva
    split
    · exact (wrapInt_range _).2
    · exact hlt
  · obtain ⟨rfl, -⟩ := Prod.mk.inj (Option.some.inj h)
    exact readNumber_lt (by decide) fmt

theorem width_readPrecision {spec spec' : Spec} {fmt fmt' : List UInt8} {ap ap' : List Arg}
    (h : readPrecision spec fmt ap = some (spec', fmt', ap')) : spec'.width = spec.width := by
  unfold readPrecision at h
  split at h
  · split at h
    · obtain ⟨⟨precision, ap₁⟩, -, h⟩ := Option.bind_eq_some_iff.mp h
      obtain ⟨rfl, -⟩ := Prod.mk.inj (Option.some.inj h)
      rfl
    · obtain ⟨rfl, -⟩ := Prod.mk.inj (Option.some.inj h)
      rfl
  · obtain ⟨rfl, -⟩ := Prod.mk.inj (Option.some.inj h)
    rfl

theorem width_readLength (spec : Spec) (fmt : List UInt8) :
    (readLength spec fmt).1.width = spec.width := by
  unfold readLength
  split
  · split <;> rfl
  · split <;> rfl

theorem width_readConversion {spec : Spec} {c : UInt8} {ap ap' : List Arg} {p : Piece}
    (h : readConversion spec c ap = some (p, ap')) (hspec : spec.width < 2 ^ 31) :
    p.width < 2 ^ 31 := by
  unfold readConversion at h
  split at h
  · split at h
    · obtain ⟨rfl, -⟩ := Prod.mk.inj (Option.some.inj h)
      exact hspec
    · cases h
  split at h
  · obtain ⟨⟨v, ap₁⟩, -, h⟩ := Option.bind_eq_some_iff.mp h
    obtain ⟨rfl, -⟩ := Prod.mk.inj (Option.some.inj h)
    exact hspec
  split at h
  · obtain ⟨⟨v, ap₁⟩, -, h⟩ := Option.bind_eq_some_iff.mp h
    obtain ⟨rfl, -⟩ := Prod.mk.inj (Option.some.inj h)
    exact hspec
  split at h
  · obtain ⟨⟨v, ap₁⟩, -, h⟩ := Option.bind_eq_some_iff.mp h
    obtain ⟨rfl, -⟩ := Prod.mk.inj (Option.some.inj h)
    exact hspec
  split at h
  · split at h
    · obtain ⟨rfl, -⟩ := Prod.mk.inj (Option.some.inj h)
      simp only [Piece.width]
      split <;> omega
    · cases h
  split at h
  · obtain ⟨rfl, -⟩ := Prod.mk.inj (Option.some.inj h)
    exact Piece.width_char_lt _
  · obtain ⟨rfl, -⟩ := Prod.mk.inj (Option.some.inj h)
    exact Piece.width_char_lt _

theorem width_readPiece {fmt fmt' : List UInt8} {ap ap' : List Arg} {p : Piece}
    (h : readPiece fmt ap = some (p, fmt', ap')) : p.width < 2 ^ 31 := by
  obtain ⟨⟨spec, fmt₁, ap₁⟩, hwidth, h⟩ := Option.bind_eq_some_iff.mp h
  obtain ⟨⟨spec₂, fmt₂, ap₂⟩, hprecision, h⟩ := Option.bind_eq_some_iff.mp h
  obtain ⟨⟨p₃, ap₃⟩, hread, h⟩ := Option.bind_eq_some_iff.mp h
  obtain ⟨rfl, -⟩ := Prod.mk.inj (Option.some.inj h)
  have hspec : (readLength spec₂ fmt₂).1.width = spec.width :=
    (width_readLength spec₂ fmt₂).trans (width_readPrecision hprecision)
  exact width_readConversion hread (hspec ▸ width_readWidth hwidth)

/-- What the bytes of a format and its conversions all have, every piece has. -/
theorem forall_pieces {P : Piece → Prop} (hchar : ∀ c, P (.char c))
    (hread : ∀ {fmt fmt' ap ap' p}, readPiece fmt ap = some (p, fmt', ap') → P p)
    {fmt : List UInt8} {ap : List Arg} {ps : List Piece} (h : pieces fmt ap = some ps) :
    ∀ p ∈ ps, P p := by
  fun_induction pieces fmt ap generalizing ps with
  | case1 ap =>
    obtain rfl := Option.some.inj h
    simp
  | case2 ap c fmt hc ih =>
    obtain ⟨ps', hps', rfl⟩ := Option.map_eq_some_iff.mp h
    intro p hp
    rcases List.mem_cons.mp hp with rfl | hp
    · exact hchar c
    · exact ih hps' p hp
  | case3 ap c fmt hc hread => cases h
  | case4 ap c fmt hc p fmt' ap' hpiece ih =>
    obtain ⟨ps', hps', rfl⟩ := Option.map_eq_some_iff.mp h
    intro p' hp'
    rcases List.mem_cons.mp hp' with rfl | hp'
    · exact hread hpiece
    · exact ih hps' p' hp'

theorem takeWhile_take_eq_self_iff (out : List UInt8) (n : ℕ) :
    (out.take n).takeWhile (· ≠ 0) = out ↔ out.length ≤ n ∧ 0 ∉ out := by
  constructor
  · intro h
    have hle :=
      (List.takeWhile_prefix (fun c : UInt8 => decide (c ≠ 0)) (l := out.take n)).length_le
    rw [h, List.length_take] at hle
    refine ⟨by omega, fun hmem => ?_⟩
    rw [← h] at hmem
    simpa using List.mem_takeWhile_imp hmem
  · rintro ⟨hle, hnul⟩
    rw [List.take_of_length_le hle]
    apply List.takeWhile_eq_self_iff.mpr
    intro c hc
    simpa using fun h0 : c = 0 => hnul (h0 ▸ hc)

/-- The call wrote the whole output to its descriptor and returned the number of bytes written. -/
def WritesAll (sent : Option Sent) (fd : ℤ) (out : List UInt8) : Prop :=
  ∃ r, sent = some r ∧ r.fd = fd ∧ r.bytes = out ∧ r.ret = r.bytes.length

theorem printBuffer_writesAll_iff (stack : Memory) (buf : ℕ) (fd : ℤ) {fmt : CString}
    {ap : List Arg} {ps : List Piece} (h : pieces fmt.bytes ap = some ps) :
    WritesAll (printBuffer stack buf fd fmt ap) fd (ps.flatMap Piece.bytes) ↔
      outputSize ps ≤ 511 ∧ ∀ p ∈ ps, ¬ p.Nul := by
  have hnul : 0 ∉ ps.flatMap Piece.bytes ↔ ∀ p ∈ ps, ¬ p.Nul := by
    rw [List.mem_flatMap]
    push Not
    have hordinary : ∀ p ∈ ps, p.Ordinary :=
      forall_pieces (fun _ => trivial) (fun hread => ordinary_readPiece hread) h
    exact forall₂_congr fun p hp => not_congr (zero_mem_bytes (hordinary p hp))
  have hout : formatted fmt ap = some (ps.flatMap Piece.bytes) := by rw [formatted, h]; rfl
  have hsize : outputSize ps ≤ 511 ↔ (ps.flatMap Piece.bytes).length ≤ 511 := by
    have hlength := length_flatMap_bytes
      (forall_pieces Piece.width_char_lt (fun hread => width_readPiece hread) h)
    omega
  rw [hsize, ← hnul, ← takeWhile_take_eq_self_iff, WritesAll, printBuffer_eq, hout]
  constructor
  · rintro ⟨r, hr, -, hbytes, -⟩
    obtain rfl := Option.some.inj hr
    exact hbytes
  · intro hbytes
    exact ⟨_, rfl, rfl, hbytes, congrArg List.length hbytes.symm⟩

/-- Each of the four functions writes its whole output exactly when the output has 511 bytes at
most and no NUL. -/
theorem printf_writesAll_iff (stack : Memory) (buf : ℕ) (stream : Option FILE) (fd : ℤ)
    (fmt : CString) (ap : List Arg) (ps : List Piece) (h : pieces fmt.bytes ap = some ps) :
    (WritesAll (vfprintf stack buf stream fmt ap) (fileFd stream) (ps.flatMap Piece.bytes) ↔
      outputSize ps ≤ 511 ∧ ∀ p ∈ ps, ¬ p.Nul) ∧
    (WritesAll (fprintf stack buf stream fmt ap) (fileFd stream) (ps.flatMap Piece.bytes) ↔
      outputSize ps ≤ 511 ∧ ∀ p ∈ ps, ¬ p.Nul) ∧
    (WritesAll (printf stack buf fmt ap) 1 (ps.flatMap Piece.bytes) ↔
      outputSize ps ≤ 511 ∧ ∀ p ∈ ps, ¬ p.Nul) ∧
    (WritesAll (dprintf stack buf fd fmt ap) fd (ps.flatMap Piece.bytes) ↔
      outputSize ps ≤ 511 ∧ ∀ p ∈ ps, ¬ p.Nul) :=
  ⟨printBuffer_writesAll_iff stack buf _ h, printBuffer_writesAll_iff stack buf _ h,
    printBuffer_writesAll_iff stack buf _ h, printBuffer_writesAll_iff stack buf _ h⟩

abbrev charFormat : CString := ⟨[byte '%', byte 'c', byte '!'], by decide⟩

theorem pieces_char (v : UInt32) :
    pieces charFormat.bytes [.word v] =
      some [.padded [.ofInt v.toBitVec.toInt] 0 false, .char (byte '!')] := by
  have hread : readPiece [byte 'c', byte '!'] [.word v] =
      some (.padded [.ofInt v.toBitVec.toInt] 0 false, [byte '!'], []) := rfl
  rw [pieces_percent, hread]
  simp [pieces_of_ne (show byte '!' ≠ byte '%' by decide), pieces]

theorem char_writesAll : pieces charFormat.bytes [.word 65] =
      some [.padded [byte 'A'] 0 false, .char (byte '!')] ∧
    WritesAll (printf (fun _ => 0) 0 charFormat [.word 65]) 1 [byte 'A', byte '!'] := by
  refine ⟨pieces_char 65, ?_⟩
  apply ((printf_writesAll_iff (fun _ => 0) 0 none 1 charFormat _ _ (pieces_char 65)).2.2.1).mpr
  decide

/-- The NUL of `%c` ends what is written, and the count goes on. -/
theorem nulChar_not_writesAll :
    pieces charFormat.bytes [.word 0] = some [.padded [0] 0 false, .char (byte '!')] ∧
      ¬ WritesAll (printf (fun _ => 0) 0 charFormat [.word 0]) 1 [0, byte '!'] := by
  refine ⟨pieces_char 0, fun h => ?_⟩
  have hcond := (printBuffer_writesAll_iff (fun _ => 0) 0 1 (pieces_char 0)).mp h
  exact hcond.2 _ (List.mem_cons_self) (by decide)

end LampUserspace.Stdio
