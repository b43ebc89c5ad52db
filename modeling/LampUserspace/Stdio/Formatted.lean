import LampUserspace.Stdio.Format

/-! # The formatted output

The output of a call is a list of bytes that depends on the format and the
arguments alone: the pieces of the format, each with its sign, prefix, zeroes and
padding. The helpers hand the same bytes to `out_char` one after another, so a
buffer receives a prefix of the output and the count is its length.
-/

namespace LampUserspace.Stdio

/-- The digits of a number, none for a zero with precision 0. -/
def digits (v base : ℕ) (upper : Bool) (precision : ℤ) : List UInt8 :=
  if precision = 0 ∧ v = 0 then [] else (utoaRev v base upper).reverse

/-- A number with the zeroes that its precision asks for. -/
def numeral (v base : ℕ) (upper : Bool) (precision : ℤ) : List UInt8 :=
  List.replicate (precision - (digits v base upper precision).length).toNat (byte '0') ++
    digits v base upper precision

def lead (sign : UInt8) (pfx : List UInt8) : List UInt8 := (if sign = 0 then [] else [sign]) ++ pfx

/-- The filler that `int` arithmetic finds missing between `len` bytes and a width. -/
def missing (width : ℤ) (len : ℕ) : ℕ :=
  (if width > wrapInt len then wrapInt (width - wrapInt len) else 0).toNat

theorem missing_eq {width : ℤ} {len : ℕ} (hwidth : width < 2 ^ 31) (hlen : len < 2 ^ 31) :
    missing width len = (width - len).toNat := by
  unfold missing
  rw [wrapInt_eq (by omega) (by omega)]
  split
  · rw [wrapInt_eq (by omega) (by omega)]
  · omega

theorem missing_eq_ite {width len : ℕ} (hwidth : width < 2 ^ 31) (hlen : len ≤ 2 ^ 31 + 1) :
    missing width len = if width = 0 ∧ len = 2 ^ 31 + 1 then 2 ^ 31 - 1 else width - len := by
  by_cases hlt : len < 2 ^ 31
  · rw [missing_eq (by omega) hlt, if_neg (by omega)]
    omega
  · unfold missing
    rw [wrapInt_of_ge (by omega) (by omega), if_pos (by omega)]
    split
    · rw [wrapInt_eq (by omega) (by omega)]
      omega
    · rw [wrapInt_of_ge (by omega) (by omega)]
      omega

def filler (c : UInt8) (width : ℤ) (len : ℕ) : List UInt8 := List.replicate (missing width len) c

def Piece.bytes : Piece → List UInt8
  | .char c => [c]
  | .padded s width leftAdjust =>
    if leftAdjust then s ++ filler (byte ' ') width s.length
    else filler (byte ' ') width s.length ++ s
  | .uint v base sign upper width leftAdjust zeroPad precision pfx =>
    let head := lead sign pfx
    let num := numeral v base upper precision
    let len := head.length + num.length
    if leftAdjust then head ++ num ++ filler (byte ' ') width len
    else if zeroPad ∧ precision < 0 then head ++ filler (byte '0') width len ++ num
    else filler (byte ' ') width len ++ head ++ num

theorem length_bytes_uint (v base : ℕ) (sign : UInt8) (upper : Bool) (width : ℤ)
    (leftAdjust zeroPad : Bool) (precision : ℤ) (pfx : List UInt8) :
    (Piece.uint v base sign upper width leftAdjust zeroPad precision pfx).bytes.length =
      (lead sign pfx).length + (numeral v base upper precision).length +
        missing width ((lead sign pfx).length + (numeral v base upper precision).length) := by
  simp only [Piece.bytes, filler]
  generalize lead sign pfx = head
  generalize numeral v base upper precision = num
  cases leftAdjust with
  | true => simp; omega
  | false =>
    simp only [Bool.false_eq_true, if_false]
    split <;> simp <;> omega

def pieces (fmt : List UInt8) (ap : List Arg) : Option (List Piece) :=
  match fmt with
  | [] => some []
  | c :: fmt =>
    if c ≠ byte '%' then (pieces fmt ap).map (.char c :: ·)
    else
      match _h : readPiece fmt ap with
      | none => none
      | some (piece, fmt', ap') => (pieces fmt' ap').map (piece :: ·)
termination_by fmt.length
decreasing_by
  · exact Nat.lt_succ_self _
  · exact Nat.lt_succ_of_le (length_readPiece _h)

theorem pieces_nil (ap : List Arg) : pieces [] ap = some [] := by
  rw [pieces]

theorem pieces_of_ne {c : UInt8} (h : c ≠ byte '%') (fmt : List UInt8) (ap : List Arg) :
    pieces (c :: fmt) ap = (pieces fmt ap).map (.char c :: ·) := by
  rw [pieces, if_pos h]

theorem pieces_percent (fmt : List UInt8) (ap : List Arg) :
    pieces (byte '%' :: fmt) ap =
      (readPiece fmt ap).bind fun r => (pieces r.2.1 r.2.2).map (r.1 :: ·) := by
  rw [pieces, if_neg (by simp)]
  split <;> simp [*]

def formatted (fmt : CString) (ap : List Arg) : Option (List UInt8) :=
  (pieces fmt.bytes ap).map (·.flatMap Piece.bytes)

/-! ## The helpers output the bytes of a piece -/

section Helpers

variable (buf : Bool) (fd : ℤ)

theorem outMem_append (s t : List UInt8) (o : Out) :
    outMem buf fd (s ++ t) o = outMem buf fd t (outMem buf fd s o) := by
  induction s generalizing o with
  | nil => rfl
  | cons c s ih => exact ih _

theorem outRepeat_eq (c : UInt8) (n : ℕ) (o : Out) :
    outRepeat buf fd c n o = outMem buf fd (List.replicate n c) o := by
  induction n generalizing o with
  | zero => rfl
  | succ n ih => exact ih _

theorem outPadded_eq (s : List UInt8) (width : ℤ) (leftAdjust : Bool) (o : Out) :
    outPadded buf fd s width leftAdjust (byte ' ') o =
      outMem buf fd (Piece.padded s width leftAdjust).bytes o := by
  unfold outPadded Piece.bytes filler missing
  simp only [outRepeat_eq]
  cases leftAdjust with
  | false => exact (outMem_append ..).symm
  | true => exact (outMem_append ..).symm

theorem out_sign_eq (sign : UInt8) (o : Out) :
    (if sign ≠ 0 then outChar buf fd sign o else o) =
      outMem buf fd (if sign = 0 then [] else [sign]) o := by
  by_cases h : sign = 0
  · rw [if_neg (not_not_intro h), if_pos h]; rfl
  · rw [if_pos h, if_neg h]; rfl

theorem outUintFmt_eq (v base : ℕ) (sign : UInt8) (upper : Bool) (width : ℤ)
    (leftAdjust zeroPad : Bool) (precision : ℤ) (pfx : List UInt8) (o : Out) :
    outUintFmt buf fd v base sign upper width leftAdjust zeroPad precision pfx o =
      outMem buf fd
        (Piece.uint v base sign upper width leftAdjust zeroPad precision pfx).bytes o := by
  have hdigits : (if precision = 0 ∧ v = 0 then [] else utoaRev v base upper).reverse =
      digits v base upper precision := by
    unfold digits
    split <;> simp
  have hlength : (if precision = 0 ∧ v = 0 then [] else utoaRev v base upper).length =
      (digits v base upper precision).length := by
    rw [← hdigits, List.length_reverse]
  have hzeroes : ∀ n : ℕ, (if precision > n then precision - n else 0 : ℤ) =
      (precision - n).toNat := fun n => by split <;> omega
  have htotal : (if sign ≠ 0 then 1 else 0 : ℤ) + pfx.length +
      (precision - (digits v base upper precision).length).toNat +
      (digits v base upper precision).length =
      ((lead sign pfx).length + (numeral v base upper precision).length : ℕ) := by
    unfold lead numeral
    by_cases h : sign = 0 <;> simp [h] <;> omega
  have hspace : byte ' ' ≠ byte '0' := by decide
  unfold outUintFmt Piece.bytes filler missing
  simp only [hdigits, hlength, hzeroes, htotal, out_sign_eq, outRepeat_eq, Int.toNat_natCast,
    ← outMem_append]
  generalize wrapInt ((lead sign pfx).length + (numeral v base upper precision).length : ℕ) = total
  generalize (if width > total then wrapInt (width - total) else 0).toNat = fill
  unfold lead numeral
  cases leftAdjust with
  | true => simp only [hspace, List.append_assoc, if_true, if_false, false_and,
      and_false, not_true_eq_false]
  | false =>
    by_cases hzero : zeroPad = true ∧ precision < 0
    · simp only [hzero, List.append_assoc, if_true, if_false, Bool.false_eq_true,
        not_false_eq_true, and_self]
    · simp only [hzero, hspace, ← outMem_append, List.append_assoc, if_false, Bool.false_eq_true,
        not_false_eq_true, true_and]

theorem outPiece_eq (piece : Piece) (o : Out) :
    outPiece buf piece o = outMem buf (-1) piece.bytes o := by
  cases piece with
  | char c => rfl
  | padded s width leftAdjust => exact outPadded_eq ..
  | uint v base sign upper width leftAdjust zeroPad precision pfx => exact outUintFmt_eq ..

theorem vsnprintfLoop_eq (fmt : List UInt8) (ap : List Arg) (o : Out) :
    vsnprintfLoop buf fmt ap o =
      (pieces fmt ap).map fun ps => outMem buf (-1) (ps.flatMap Piece.bytes) o := by
  fun_induction vsnprintfLoop buf fmt ap o with
  | case1 ap o => rw [pieces]; rfl
  | case2 ap o c fmt h ih =>
    rw [ih, pieces_of_ne h, Option.map_map]
    rfl
  | case3 ap o c fmt h hread =>
    rw [of_not_not h, pieces_percent, hread]
    rfl
  | case4 ap o c fmt h piece fmt' ap' hread ih =>
    rw [ih, of_not_not h, pieces_percent, hread]
    simp [outPiece_eq, outMem_append, Function.comp_def]

theorem outMem_null (s : List UInt8) (o : Out) :
    outMem false fd s o =
      { o with count := o.count + s.length, writes := o.writes ++ s.map (fd, ·) } := by
  induction s generalizing o with
  | nil => simp [outMem]
  | cons c s ih => simp [outMem, outChar, ih, Nat.add_comm, Nat.add_left_comm]

theorem outMem_buffer (s : List UInt8) (o : Out) :
    outMem true fd s o =
      { o with
        memory := o.memory.write o.buf (s.take (o.left - 1))
        buf := o.buf + min s.length (o.left - 1)
        left := o.left - min s.length (o.left - 1)
        count := o.count + s.length } := by
  induction s generalizing o with
  | nil => simp [outMem, Memory.write]
  | cons c s ih =>
    rw [outMem, ih]
    by_cases h : o.left > 1
    · obtain ⟨left, hleft⟩ : ∃ left, o.left = left + 1 + 1 := ⟨o.left - 2, by omega⟩
      ext1 <;> simp [outChar, hleft, Memory.write] <;> omega
    · ext1 <;> simp [outChar, h, Nat.sub_eq_zero_of_le (Nat.le_of_not_gt h), Memory.write]
      omega

end Helpers

/-! ## The buffer holds a prefix of the output -/

def printed (memory : Memory) (str : Option ℕ) (size : ℕ) (out : List UInt8) : Printed :=
  match str with
  | none => ⟨memory, out.length, out.map (-1, ·)⟩
  | some a =>
    ⟨if size = 0 then memory else memory.write a (out.take (size - 1) ++ [0]), out.length, []⟩

theorem vsnprintf_eq (memory : Memory) (str : Option ℕ) (size : ℕ) (fmt : CString)
    (ap : List Arg) :
    vsnprintf memory str size fmt ap = (formatted fmt ap).map (printed memory str size) := by
  unfold vsnprintf formatted
  rw [vsnprintfLoop_eq]
  cases pieces fmt.bytes ap with
  | none => rfl
  | some ps =>
    simp only [Option.map_some]
    generalize ps.flatMap Piece.bytes = out
    cases str with
    | none => simp [printed, outMem_null]
    | some a =>
      by_cases hsize : size = 0
      · simp [printed, outMem_buffer, hsize, Memory.write]
      · simp [printed, outMem_buffer, hsize, Memory.write_append, Memory.write,
          Nat.min_comm out.length]

/-- The memory holds `out` and a NUL at `a` and is unchanged everywhere else. -/
structure Terminated (memory memory' : Memory) (a : ℕ) (out : List UInt8) : Prop where
  byte : ∀ i (h : i < out.length), memory' (a + i) = out[i]
  nul : memory' (a + out.length) = 0
  frame : ∀ x, x < a ∨ a + out.length < x → memory' x = memory x

theorem terminated_write (memory : Memory) (a : ℕ) (out : List UInt8) :
    Terminated memory (memory.write a (out ++ [0])) a out where
  byte i h := by
    rw [Memory.write_apply _ _ (by simp; omega)]
    exact List.getElem_append_left h
  nul := by
    rw [Memory.write_apply _ _ (by simp)]
    simp
  frame x hx := by
    rcases hx with hlt | hge
    · exact Memory.write_of_lt hlt
    · exact Memory.write_of_ge (by simp; omega)

/-- The count is the length of the full output, whatever the size; a buffer receives the first
`size - 1` bytes of the output at most and a NUL; the second pass of `vasprintf` is not cut. -/
theorem vsnprintf_prefix_of_formatted (memory : Memory) (fmt : CString) (ap : List Arg)
    (out : List UInt8) (h : formatted fmt ap = some out) :
    (∀ size, ∃ r, vsnprintf memory none size fmt ap = some r ∧ r.ret = out.length ∧
      r.memory = memory ∧ ∀ w ∈ r.writes, w.1 = -1) ∧
    (∀ a size, ∃ r, vsnprintf memory (some a) size fmt ap = some r ∧ r.ret = out.length ∧
      r.writes = [] ∧ (size = 0 → r.memory = memory) ∧
      (0 < size → Terminated memory r.memory a (out.take (min out.length (size - 1))))) ∧
    ∀ (malloc : ℕ → Option ℕ) (block : ℕ), malloc (out.length + 1) = some block →
      ∃ memory', vasprintf malloc memory true fmt ap =
          some ((out.length : ℤ), some (memory', block)) ∧
        Terminated memory memory' block out := by
  refine ⟨fun size => ?_, fun a size => ?_, fun malloc block hblock => ?_⟩
  · refine ⟨_, by rw [vsnprintf_eq, h]; rfl, rfl, rfl, ?_⟩
    intro w hw
    obtain ⟨c, -, rfl⟩ := List.mem_map.mp hw
    rfl
  · refine ⟨_, by rw [vsnprintf_eq, h]; rfl, rfl, rfl, fun hsize => if_pos hsize, fun hsize => ?_⟩
    rw [Nat.min_comm, ← List.take_take, List.take_length]
    change Terminated _ (if size = 0 then memory else _) _ _
    rw [if_neg (by omega)]
    exact terminated_write _ _ _
  · refine ⟨memory.write block (out ++ [0]), ?_, terminated_write _ _ _⟩
    simp [vasprintf, vsnprintf_eq, h, printed, hblock]

abbrev wideFormat : CString := ⟨[byte '%', byte '3', byte 'u'], by decide⟩

theorem formatted_wide :
    formatted wideFormat [.word 7] = some [byte ' ', byte ' ', byte '7'] := by
  have hnumber : readNumber 0 [byte '3', byte 'u'] = (3, [byte 'u']) := by decide
  have hflags : readFlags {} [byte '3', byte 'u'] = ({}, [byte '3', byte 'u']) := rfl
  have hwidth : readWidth {} [byte '3', byte 'u'] [.word 7] =
      some ({ width := 3 }, [byte 'u'], [.word 7]) := by
    rw [readWidth, if_neg (by decide), hnumber]
  have hread : readPiece [byte '3', byte 'u'] [.word 7] =
      some (.uint 7 10 0 false 3 false false (-1) [], [], []) := by
    rw [readPiece, hflags]
    simp only [hwidth]
    rfl
  unfold formatted
  rw [pieces_percent, hread]
  simp [pieces, Piece.bytes, filler, missing_eq, lead, numeral, digits, utoaRev]
  rfl

/-- `%3u` of 7 has three bytes, of which a buffer of two bytes receives one. -/
theorem wide_prefix_of_formatted :
    formatted wideFormat [.word 7] = some [byte ' ', byte ' ', byte '7'] ∧
      ∃ r, vsnprintf (fun _ => 1) (some 0) 2 wideFormat [.word 7] = some r ∧ r.ret = 3 ∧
        r.memory 1 = 0 ∧ r.memory 2 = 1 := by
  refine ⟨formatted_wide, ?_⟩
  obtain ⟨-, hbuffer, -⟩ := vsnprintf_prefix_of_formatted (fun _ => 1) _ _ _ formatted_wide
  obtain ⟨r, hr, hret, -, -, hterm⟩ := hbuffer 0 2
  exact ⟨r, hr, hret, (hterm (by decide)).nul, (hterm (by decide)).frame 2 (by simp)⟩

end LampUserspace.Stdio
