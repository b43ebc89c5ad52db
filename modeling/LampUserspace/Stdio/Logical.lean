import LampUserspace.Stdio.Stream

/-! # The logical stream

A reader sees a stream as the bytes that are still to come and a position. The
pushed-back byte and the kernel's offset together make up that view, and the
reading and positioning functions act on it as on one sequence of bytes, however
the kernel cuts its reads.
-/

namespace LampUserspace.Stdio

open Kernel

inductive StreamCall where
  | fgetc
  | ungetc (c : Int32)
  | fread (size nmemb : ℕ)
  | getline (lineptr : Bool) (n : ℕ)
  | fseeko (offset : Int32) (whence : Whence)
  | fseek (offset : Int32) (whence : Whence)
  | rewind
  | ftell

structure Delivered where
  ret : ℤ
  data : List UInt8

/-- A stream as its reader sees it. -/
structure Logical where
  file : List UInt8
  position : ℤ
  bytes : List UInt8
  pushed : Bool

namespace Logical

/-- The stream after its next `n` bytes were read. -/
def advance (l : Logical) (n : ℕ) : Logical :=
  { l with position := l.position + n, bytes := l.bytes.drop n, pushed := false }

def moveTo (l : Logical) (pos : ℤ) : Logical :=
  { l with position := pos, bytes := l.file.drop pos.toNat, pushed := false }

def target (l : Logical) (offset : ℤ) : Whence → Option ℤ
  | .set => some offset
  | .cur => some (l.position + offset)
  | .ends => some (l.file.length + offset)
  | .other => none

def seek (l : Logical) (offset : ℤ) (whence : Whence) : Logical × Delivered :=
  match l.target offset whence with
  | some pos => if 0 ≤ pos ∧ pos.toNat < 2 ^ 31 then (l.moveTo pos, ⟨0, []⟩) else (l, ⟨-1, []⟩)
  | none => (l, ⟨-1, []⟩)

def line : List UInt8 → List UInt8
  | [] => []
  | c :: bytes => if c = byte '\n' then [c] else c :: line bytes

def fgetc (l : Logical) : Logical × Delivered :=
  match l.bytes with
  | [] => (l, ⟨-1, []⟩)
  | c :: _ => (l.advance 1, ⟨c.toNat, [c]⟩)

def ungetc (l : Logical) (c : Int32) : Logical × Delivered :=
  if c = -1 ∨ l.pushed then (l, ⟨-1, []⟩)
  else
    let ch := UInt8.ofInt c.toInt
    ({ l with position := l.position - 1, bytes := ch :: l.bytes, pushed := true }, ⟨ch.toNat, []⟩)

def fread (l : Logical) (size nmemb : ℕ) : Logical × Delivered :=
  if size = 0 ∨ nmemb = 0 then (l, ⟨0, []⟩)
  else
    let data := l.bytes.take (size * nmemb)
    (l.advance data.length, ⟨(data.length / size : ℕ), data⟩)

def getline (l : Logical) : Logical × Delivered :=
  let data := line l.bytes
  if data = [] then (l, ⟨-1, []⟩) else (l.advance data.length, ⟨data.length, data⟩)

/-- The calls on a logical stream. -/
def step (l : Logical) : StreamCall → Logical × Delivered
  | .fgetc => l.fgetc
  | .ungetc c => l.ungetc c
  | .fread size nmemb => l.fread size nmemb
  | .getline _ _ => l.getline
  | .fseeko offset whence => l.seek offset.toInt whence
  | .fseek offset whence => l.seek offset.toInt whence
  | .rewind => (l.moveTo 0, ⟨0, []⟩)
  | .ftell => (l, ⟨l.position, []⟩)

end Logical

namespace Stream

/-- The calls on a stream, with every allocation of `getline` succeeding. -/
def step (s : Stream) : StreamCall → Stream × Delivered
  | .fgetc => (s.fgetc.2, ⟨s.fgetc.1, if s.fgetc.1 = -1 then [] else [UInt8.ofInt s.fgetc.1]⟩)
  | .ungetc c => ((s.ungetc c).2, ⟨(s.ungetc c).1, []⟩)
  | .fread size nmemb =>
    let (ret, data, s) := s.fread size nmemb
    (s, ⟨ret, data⟩)
  | .getline lineptr n =>
    let (ret, data, _, s) := s.getline (fun _ => true) lineptr n
    (s, ⟨ret, data⟩)
  | .fseeko offset whence => ((s.fseeko offset whence).2, ⟨(s.fseeko offset whence).1, []⟩)
  | .fseek offset whence => ((s.fseek offset whence).2, ⟨(s.fseek offset whence).1, []⟩)
  | .rewind => (s.rewind, ⟨0, []⟩)
  | .ftell => (s.ftell.2, ⟨s.ftell.1, []⟩)

def logical (s : Stream) : Logical where
  file := s.kernel.file
  position := s.kernel.offset - if s.stream.pushback ≥ 0 then 1 else 0
  bytes := s.bytes
  pushed := s.stream.pushback ≥ 0

/-- A byte is pushed back only behind the beginning of the file. -/
def WellFormed (s : Stream) : Prop :=
  s.stream.pushback = -1 ∨
    0 ≤ s.stream.pushback ∧ s.stream.pushback < 256 ∧ 1 ≤ s.kernel.offset

/-- A byte is pushed back when the kernel's offset is 1 at least, and the size of a block read is
below `2 ^ 31`. -/
def permitted (s : Stream) : StreamCall → Prop
  | .ungetc _ => 1 ≤ s.kernel.offset
  | .fread size nmemb => size * nmemb < 2 ^ 31
  | _ => True

/-! ## Reading -/

theorem bytes_of_pushed {s : Stream} (h : 0 ≤ s.stream.pushback) :
    s.bytes = UInt8.ofInt s.stream.pushback :: s.kernel.ahead := by
  simp [bytes, h]

theorem bytes_of_not_pushed {s : Stream} (h : s.stream.pushback < 0) :
    s.bytes = s.kernel.ahead := by
  simp [bytes, Int.not_le.mpr h]

theorem logical_pop {s : Stream} (h : 0 ≤ s.stream.pushback) :
    logical { s with stream.pushback := -1 } = s.logical.advance 1 := by
  simp [logical, Logical.advance, bytes_of_pushed h, h]
  rfl

theorem logical_read {s : Stream} (h : s.stream.pushback < 0) (n : ℕ) (eof : Bool) :
    logical { s with stream.eof := eof, kernel := (s.kernel.read n).2 } =
      s.logical.advance (s.kernel.read n).1.length := by
  obtain ⟨hahead, -, hfile, hoffset, -⟩ := read_spec s.kernel n
  have hpush : ¬ 0 ≤ s.stream.pushback := Int.not_le.mpr h
  simp [logical, Logical.advance, bytes, hpush, hfile, hoffset]
  rw [hahead, List.drop_left]

theorem advance_zero {l : Logical} (h : l.pushed = false) : l.advance 0 = l := by
  simp [Logical.advance, ← h]

theorem advance_advance (l : Logical) (m n : ℕ) :
    (l.advance m).advance n = l.advance (m + n) := by
  simp [Logical.advance, List.drop_drop, Int.add_assoc]

theorem not_pushed_of_nil {s : Stream} (h : s.bytes = []) : s.logical.pushed = false := by
  by_contra hpush
  rw [bytes_of_pushed (by simpa [logical] using hpush)] at h
  cases h

/-- Nothing is pushed back once a stream is read. -/
structure Reads (s s' : Stream) (n : ℕ) : Prop where
  logical : s'.logical = s.logical.advance n
  pushback : s'.stream.pushback = -1

theorem Reads.trans {s s' s'' : Stream} {m n : ℕ} (h : Reads s s' m) (h' : Reads s' s'' n) :
    Reads s s'' (m + n) where
  logical := by rw [h'.logical, h.logical, advance_advance]
  pushback := h'.pushback

theorem reads_zero {s : Stream} (h : s.stream.pushback = -1) : Reads s s 0 where
  logical := (advance_zero (by simp [Stream.logical, h])).symm
  pushback := h

theorem reads_pop {s : Stream} (h : 0 ≤ s.stream.pushback) :
    Reads s { s with stream.pushback := -1 } 1 where
  logical := logical_pop h
  pushback := rfl

theorem reads_kernel {s : Stream} (h : s.stream.pushback = -1) (n : ℕ) (eof : Bool) :
    Reads s { s with stream.eof := eof, kernel := (s.kernel.read n).2 }
      (s.kernel.read n).1.length where
  logical := logical_read (by omega) n eof
  pushback := h

section

variable {s : Stream} (hs : s.WellFormed)
include hs

theorem WellFormed.not_pushed (h : ¬ 0 ≤ s.stream.pushback) : s.stream.pushback = -1 := by
  rcases hs with h1 | h1
  · exact h1
  · exact absurd h1.1 h

theorem fgetc_nil (h : s.bytes = []) : s.fgetc.1 = -1 ∧ Reads s s.fgetc.2 0 := by
  have hpush : ¬ 0 ≤ s.stream.pushback := fun hpush => by simp [bytes_of_pushed hpush] at h
  have hahead : s.kernel.ahead = [] := by
    rw [← bytes_of_not_pushed (Int.not_le.mp hpush), h]
  obtain ⟨hread, -⟩ := read_spec s.kernel 1
  have hgot : (s.kernel.read 1).1 = [] := (List.append_eq_nil_iff.mp (hread ▸ hahead)).1
  have hreads := reads_kernel (hs.not_pushed hpush) 1 true
  rw [hgot] at hreads
  unfold fgetc
  rw [if_neg hpush]
  generalize s.kernel.read 1 = r at hgot hreads ⊢
  obtain ⟨got, kernel⟩ := r
  obtain rfl : got = [] := hgot
  exact ⟨rfl, hreads⟩

theorem fgetc_cons {c : UInt8} {rest : List UInt8} (h : s.bytes = c :: rest) :
    s.fgetc.1 = c.toNat ∧ Reads s s.fgetc.2 1 := by
  unfold fgetc
  by_cases hpush : 0 ≤ s.stream.pushback
  · rw [if_pos hpush]
    refine ⟨?_, reads_pop hpush⟩
    rw [bytes_of_pushed hpush] at h
    rw [← (List.cons.inj h).1]
    have hrange : s.stream.pushback < 256 := by
      rcases hs with h1 | h1
      · omega
      · exact h1.2.1
    simp only [UInt8.ofInt, UInt8.toNat_ofNat']
    omega
  · rw [if_neg hpush]
    have hread := read_spec s.kernel 1
    have hreads := reads_kernel (hs.not_pushed hpush) 1 s.stream.eof
    rw [bytes_of_not_pushed (Int.not_le.mp hpush)] at h
    rw [h] at hread
    generalize s.kernel.read 1 = r at hread hreads ⊢
    obtain ⟨got, kernel⟩ := r
    obtain ⟨hahead, hlength, -, -, hnil⟩ := hread
    cases got with
    | nil => exact absurd (hnil (by decide) rfl) (by simp)
    | cons ch got =>
      obtain rfl : got = [] := List.length_eq_zero_iff.mp (by simpa using hlength)
      rw [(List.cons.inj hahead).1]
      exact ⟨rfl, hreads⟩

theorem freadLoop_spec {total : ℕ} {out : List UInt8}
    (h : out.length < total ∨ s.stream.pushback = -1) :
    (freadLoop total out s).1 = out ++ s.bytes.take (total - out.length) ∧
      Reads s (freadLoop total out s).2 (s.bytes.take (total - out.length)).length := by
  fun_induction freadLoop total out s with
  | case1 out s hlt hpush ih =>
    -- the pushed-back byte goes first
    have hpop := reads_pop hpush
    obtain ⟨hout, hreads⟩ := ih (Or.inl rfl) (Or.inr rfl)
    obtain ⟨n, hn⟩ : ∃ n, total - out.length = n + 1 := ⟨total - out.length - 1, by omega⟩
    have hrest : total - (out ++ [UInt8.ofInt s.stream.pushback]).length = n := by simp; omega
    have hbytes : bytes { s with stream.pushback := -1 } = s.kernel.ahead := rfl
    rw [hrest, hbytes] at hout hreads
    rw [bytes_of_pushed hpush, hn, List.take_succ_cons]
    constructor
    · rw [hout]; simp
    · have htrans := hpop.trans hreads
      rw [Nat.add_comm] at htrans
      exact htrans
  | case2 out s hlt hpush hnil =>
    have hneg := hs.not_pushed hpush
    obtain ⟨-, -, -, -, hend⟩ := read_spec s.kernel (total - out.length)
    have hreads := reads_kernel hneg (total - out.length) true
    have hahead := hend (by omega) hnil
    rw [hnil] at hreads
    rw [bytes_of_not_pushed (by omega), hahead]
    exact ⟨by simp, by simpa using hreads⟩
  | case3 out s hlt hpush hgot ih =>
    have hneg := hs.not_pushed hpush
    obtain ⟨hahead, hlength, -, -, -⟩ := read_spec s.kernel (total - out.length)
    have hreads := reads_kernel hneg (total - out.length) s.stream.eof
    obtain ⟨hout, hreads'⟩ := ih (Or.inl hneg) (Or.inr hneg)
    have hbytes : bytes { s with kernel := (s.kernel.read (total - out.length)).2 } =
        (s.kernel.read (total - out.length)).2.ahead := bytes_of_not_pushed (by simp [hneg])
    have htake : s.bytes.take (total - out.length) = (s.kernel.read (total - out.length)).1 ++
        ((s.kernel.read (total - out.length)).2.ahead.take
          (total - (out ++ (s.kernel.read (total - out.length)).1).length)) := by
      rw [bytes_of_not_pushed (by omega)]
      nth_rewrite 1 [hahead]
      rw [List.take_append, List.take_of_length_le hlength, List.length_append, Nat.sub_sub]
    rw [hbytes] at hout hreads'
    have htrans := hreads.trans hreads'
    rw [← List.length_append, ← htake] at htrans
    exact ⟨by rw [hout, htake, List.append_assoc], htrans⟩
  | case4 out s hlt =>
    rcases h with h | h
    · exact absurd h hlt
    · rw [show total - out.length = 0 by omega]
      exact ⟨by simp, reads_zero h⟩

omit hs in
theorem line_eq_nil {bytes : List UInt8} : Logical.line bytes = [] ↔ bytes = [] := by
  cases bytes with
  | nil => simp [Logical.line]
  | cons c bytes =>
    unfold Logical.line
    split <;> simp

theorem getlineLoop_spec (cap : ℕ) (buf : List UInt8) :
    ∃ eof cap', (getlineLoop (fun _ => true) cap buf s).1 =
        some (eof, cap', buf ++ Logical.line s.bytes) ∧
      (s.bytes = [] → eof = true) ∧
      Reads s (getlineLoop (fun _ => true) cap buf s).2 (Logical.line s.bytes).length := by
  fun_induction getlineLoop (fun _ => true) cap buf s with
  | case1 cap buf s hc =>
    have hnil : s.bytes = [] := by
      cases hbytes : s.bytes with
      | nil => rfl
      | cons c rest =>
        rw [(fgetc_cons hs hbytes).1] at hc
        exact absurd hc (by omega)
    rw [hnil]
    exact ⟨true, cap, by simp [Logical.line], fun _ => rfl, (fgetc_nil hs hnil).2⟩
  | case2 cap buf s hc grow cap' hfail =>
    exact absurd rfl hfail.2
  | case3 cap buf s hc grow cap' hok buf' hnl =>
    have hbytes := bytes_fgetc hc
    have hreads := (fgetc_cons hs hbytes).2
    rw [hnl, ofInt_toNat] at hbytes
    have hline : Logical.line s.bytes = [byte '\n'] := by
      rw [hbytes, Logical.line, if_pos rfl]
    refine ⟨false, cap', ?_, fun hnil => by simp [hbytes] at hnil, by rwa [hline]⟩
    simp only [buf', hnl, ofInt_toNat, hline]
  | case4 cap buf s hc grow cap' hok buf' hnl ih =>
    have hbytes := bytes_fgetc hc
    obtain ⟨hval, hreads⟩ := fgetc_cons hs hbytes
    obtain ⟨eof, cap'', hout, -, hreads'⟩ := ih (Or.inl hreads.pushback)
    have hline : Logical.line s.bytes =
        UInt8.ofInt s.fgetc.1 :: Logical.line s.fgetc.2.bytes := by
      rw [hbytes, Logical.line, if_neg]
      intro heq
      rw [heq] at hval
      exact hnl hval
    refine ⟨eof, cap'', by rw [hout, hline]; simp [buf'], fun hnil => by simp [hbytes] at hnil, ?_⟩
    have htrans := hreads.trans hreads'
    rw [Nat.add_comm] at htrans
    rw [hline]
    exact htrans

/-! ## Positioning -/

/-- The offset is adjusted so that the kernel is asked for the logical target. -/
theorem target_adjusted (offset : Int32) (whence : Whence) {pos : ℤ}
    (hpos : 0 ≤ pos ∧ pos.toNat < 2 ^ 31) :
    s.kernel.target (s.adjusted offset whence).toInt whence = some pos ↔
      s.logical.target offset.toInt whence = some pos := by
  cases whence with
  | set => rfl
  | ends => rfl
  | other => rfl
  | cur =>
    by_cases hpush : 0 ≤ s.stream.pushback
    · -- the smallest offset wraps around, to a target that is refused as well
      have hoffset : 1 ≤ s.kernel.offset := by
        rcases hs with h1 | h1
        · omega
        · exact h1.2.2
      have hlt := s.kernel.offset_lt
      have hlow := offset.le_toInt
      have hhigh := offset.toInt_lt
      have hadjusted : (s.adjusted offset .cur).toInt = offset.toInt - 1 ∨
          offset.toInt = -2 ^ 31 ∧ (s.adjusted offset .cur).toInt = 2 ^ 31 - 1 := by
        have hbmod : (s.adjusted offset .cur).toInt = (offset.toInt - 1).bmod (2 ^ 32) := by
          simp [adjusted, hpush]
        rw [hbmod, Int.bmod_def]
        split <;> omega
      simp only [Kernel.target, Logical.target, logical, hpush, if_true, Option.some.injEq]
      omega
    · simp [Kernel.target, Logical.target, adjusted, logical, hpush]

theorem fseeko_spec (offset : Int32) (whence : Whence) :
    s.logical.seek offset.toInt whence =
        ((s.fseeko offset whence).2.logical, ⟨(s.fseeko offset whence).1, []⟩) ∧
      (s.fseeko offset whence).2.WellFormed := by
  unfold Logical.seek fseeko
  by_cases h : ∃ pos, s.logical.target offset.toInt whence = some pos ∧ 0 ≤ pos ∧ pos.toNat < 2 ^ 31
  · obtain ⟨pos, htarget, hpos⟩ := h
    obtain ⟨pos, rfl⟩ := Int.eq_ofNat_of_zero_le hpos.1
    rw [htarget,
      lseek_of_target ((target_adjusted hs offset whence hpos).mpr htarget) (by omega)]
    have hneg : ¬ (pos : ℤ) < 0 := by omega
    simp only [if_pos hpos, if_neg hneg]
    refine ⟨?_, Or.inl rfl⟩
    simp [Logical.moveTo, logical, bytes, ahead]
  · have hrefused : ∀ pos, s.kernel.target (s.adjusted offset whence).toInt whence = some pos →
        ¬ (0 ≤ pos ∧ pos.toNat < 2 ^ 31) := by
      intro pos htarget hpos
      exact h ⟨pos, (target_adjusted hs offset whence hpos).mp htarget, hpos⟩
    rw [lseek_of_refused hrefused]
    refine ⟨?_, hs⟩
    cases htarget : s.logical.target offset.toInt whence with
    | none => rfl
    | some pos =>
      simp only [if_neg fun hpos => h ⟨pos, htarget, hpos⟩]
      rfl

omit hs in
theorem ftell_spec : s.ftell.1 = s.logical.position ∧ s.ftell.2 = s := by
  have htarget : s.kernel.target (0 : Int32).toInt .cur = some (s.kernel.offset : ℤ) := by
    simp [Kernel.target]
  have hneg : ¬ (s.kernel.offset : ℤ) < 0 := by omega
  have hseek := lseek_of_target htarget s.kernel.offset_lt
  unfold ftell logical
  simp only [hseek, if_neg hneg, and_true]
  split <;> simp

theorem rewind_spec : s.rewind.logical = s.logical.moveTo 0 ∧ s.rewind.WellFormed := by
  obtain ⟨hseek, hwf⟩ := fseeko_spec hs 0 .set
  have hmove : s.logical.seek (0 : Int32).toInt .set = (s.logical.moveTo 0, ⟨0, []⟩) := by
    simp [Logical.seek, Logical.target]
  rw [hmove] at hseek
  unfold rewind clearerr
  generalize s.fseeko 0 .set = r at hseek hwf
  exact ⟨(Prod.mk.inj hseek).1.symm, hwf⟩

theorem fgetc_spec :
    s.logical.fgetc = ((s.step .fgetc).1.logical, (s.step .fgetc).2) ∧
      (s.step .fgetc).1.WellFormed := by
  unfold Logical.fgetc step
  cases hbytes : s.bytes with
  | nil =>
    obtain ⟨hret, hreads⟩ := fgetc_nil hs hbytes
    have hlogical : s.logical.bytes = [] := hbytes
    rw [hlogical, hret, hreads.logical, advance_zero (not_pushed_of_nil hbytes)]
    exact ⟨rfl, Or.inl hreads.pushback⟩
  | cons c rest =>
    obtain ⟨hret, hreads⟩ := fgetc_cons hs hbytes
    have hlogical : s.logical.bytes = c :: rest := hbytes
    have hc : ¬ (c.toNat : ℤ) = -1 := by omega
    simp only [hlogical, hret, hreads.logical, if_neg hc, ofInt_toNat]
    exact ⟨trivial, Or.inl hreads.pushback⟩

theorem ungetc_spec (hoffset : 1 ≤ s.kernel.offset) (c : Int32) :
    s.logical.ungetc c = ((s.ungetc c).2.logical, ⟨(s.ungetc c).1, []⟩) ∧
      (s.ungetc c).2.WellFormed := by
  unfold ungetc Logical.ungetc
  by_cases h : c = -1 ∨ s.stream.pushback ≥ 0
  · have h' : c = -1 ∨ s.logical.pushed = true := by simpa [logical] using h
    rw [if_pos h, if_pos h']
    exact ⟨rfl, hs⟩
  · have h' : ¬ (c = -1 ∨ s.logical.pushed = true) := by simpa [logical] using h
    rw [if_neg h, if_neg h']
    have hlt := (UInt8.ofInt c.toInt).toNat_lt
    refine ⟨?_, Or.inr ⟨Int.natCast_nonneg _, by dsimp only; omega, hoffset⟩⟩
    have hpush : ¬ 0 ≤ s.stream.pushback := fun hpush => h (Or.inr hpush)
    simp [logical, bytes, hpush, ofInt_toNat]

theorem fread_spec {size nmemb : ℕ} (h : size * nmemb < 2 ^ 31) :
    s.logical.fread size nmemb =
        ((s.fread size nmemb).2.2.logical, ⟨(s.fread size nmemb).1, (s.fread size nmemb).2.1⟩) ∧
      (s.fread size nmemb).2.2.WellFormed := by
  unfold fread Logical.fread
  by_cases h0 : size = 0 ∨ nmemb = 0
  · simp only [if_pos h0]
    exact ⟨rfl, hs⟩
  · have hpos : 0 < size * nmemb := Nat.mul_pos (by omega) (by omega)
    have htotal : size * nmemb % 2 ^ 32 = size * nmemb := Nat.mod_eq_of_lt (by omega)
    have hloop := freadLoop_spec hs (Or.inl (show ([] : List UInt8).length < _ from hpos))
    simp only [if_neg h0, htotal]
    generalize freadLoop (size * nmemb) [] s = r at hloop ⊢
    obtain ⟨out, s'⟩ := r
    obtain ⟨hout, hreads⟩ := hloop
    obtain rfl : out = s.bytes.take (size * nmemb) := hout
    refine ⟨?_, Or.inl hreads.pushback⟩
    rw [hreads.logical]
    rfl

theorem getline_spec (lineptr : Bool) (n : ℕ) :
    s.logical.getline =
        ((s.step (.getline lineptr n)).1.logical, (s.step (.getline lineptr n)).2) ∧
      (s.step (.getline lineptr n)).1.WellFormed := by
  unfold Logical.getline step getline
  have hloop := getlineLoop_spec hs (if n ≠ 0 then n else 128) []
  simp only [not_true_eq_false, and_false, if_false]
  generalize getlineLoop (fun _ => true) (if n ≠ 0 then n else 128) [] s = r at hloop ⊢
  obtain ⟨line, s'⟩ := r
  obtain ⟨eof, cap', rfl, heof, hreads⟩ := hloop
  simp only [List.nil_append, List.length_eq_zero_iff]
  by_cases hline : Logical.line s.bytes = []
  · have hnil := line_eq_nil.mp hline
    have hlogical : Logical.line s.logical.bytes = [] := hline
    rw [hline] at hreads
    simp only [if_pos (And.intro hline (heof hnil)), if_pos hlogical, hreads.logical,
      List.length_nil, advance_zero (not_pushed_of_nil hnil)]
    exact ⟨trivial, Or.inl hreads.pushback⟩
  · have hlogical : ¬ Logical.line s.logical.bytes = [] := hline
    simp only [if_neg (fun h : _ ∧ _ => hline h.1), if_neg hlogical, hreads.logical]
    exact ⟨rfl, Or.inl hreads.pushback⟩

end

theorem stream_refines : Refinement.Refines step Logical.step logical WellFormed permitted := by
  have hcall : ∀ s call, WellFormed s → permitted s call →
      s.logical.step call = ((s.step call).1.logical, (s.step call).2) ∧
        (s.step call).1.WellFormed := by
    intro s call hs hcall
    cases call with
    | fgetc => exact fgetc_spec hs
    | ungetc c => exact ungetc_spec hs hcall c
    | fread size nmemb => exact fread_spec hs hcall
    | getline lineptr n => exact getline_spec hs lineptr n
    | fseeko offset whence => exact fseeko_spec hs offset whence
    | fseek offset whence => exact fseeko_spec hs offset whence
    | rewind =>
      obtain ⟨hmove, hwf⟩ := rewind_spec hs
      exact ⟨Prod.ext hmove.symm rfl, hwf⟩
    | ftell =>
      obtain ⟨hret, hsame⟩ := ftell_spec (s := s)
      constructor
      · simp only [Logical.step, step, hret, hsame]
      · simpa only [step, hsame] using hs
  exact ⟨fun s call hs h => (hcall s call hs h).2, fun s call hs h => (hcall s call hs h).1⟩

def opened (fd : ℤ) (kernel : Kernel) : Stream := ⟨⟨fd, false, false, -1⟩, kernel⟩

/-- In every run the calls deliver what they deliver on the logical stream, and leave it as they
leave it there. -/
theorem stream_run_logical (fd : ℤ) (kernel : Kernel) (calls : List StreamCall)
    (h : Refinement.Along step permitted (opened fd kernel) calls) :
    Refinement.run Logical.step (opened fd kernel).logical calls =
      ((Refinement.run step (opened fd kernel) calls).1.logical,
        (Refinement.run step (opened fd kernel) calls).2) :=
  stream_refines.run (Or.inl rfl) h

def twoBytes : Kernel := ⟨[byte 'a', byte 'b'], 0, fun _ => 0, by decide, by decide⟩

/-- A byte is read, another one pushed back, and the position asked for. -/
def pushAndTell : List StreamCall := [.fgetc, .ungetc 122, .ftell]

theorem pushAndTell_logical :
    Refinement.Along step permitted (opened 3 twoBytes) pushAndTell ∧
      (Refinement.run step (opened 3 twoBytes) pushAndTell).2 =
        (Refinement.run Logical.step (opened 3 twoBytes).logical pushAndTell).2 := by
  have hpermitted : Refinement.Along step permitted (opened 3 twoBytes) pushAndTell :=
    ⟨trivial, Nat.le_refl 1, trivial, trivial⟩
  exact ⟨hpermitted, by rw [stream_run_logical 3 twoBytes pushAndTell hpermitted]⟩

end Stream

end LampUserspace.Stdio
