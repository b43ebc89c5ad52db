import LampUserspace.Stdio.Channel

/-! # Files written and read again

What the writing functions pass on to a file, in order, is what the reading
functions deliver from it, however the kernel cuts the writes and the reads.
Calls of `getline` deliver the lines of a file one by one.
-/

namespace LampUserspace.Stdio

open Kernel Refinement

/-! ## Reading -/

section Reading

def StreamCall.Reads : StreamCall → Prop
  | .fgetc => True
  | .getline lineptr n => Stream.BufferFits lineptr n
  | .fread size nmemb => size * nmemb < 2 ^ 31
  | _ => False

theorem along_of_reads {s : Stream} {calls : List StreamCall} (h : ∀ call ∈ calls, call.Reads) :
    Along Stream.step Stream.permitted s calls := by
  induction calls generalizing s with
  | nil => trivial
  | cons call calls ih =>
    obtain ⟨hcall, hcalls⟩ := List.forall_mem_cons.mp h
    refine ⟨?_, ih hcalls⟩
    cases call with
    | fread size nmemb => exact hcall
    | ungetc c => exact hcall.elim
    | fgetc => trivial
    | getline lineptr n => trivial
    | fseeko offset whence => trivial
    | fseek offset whence => trivial
    | rewind => trivial
    | ftell => trivial

end Reading

/-! ## Writing -/

/-- A file that is written from its beginning. Of a write the kernel takes as many bytes as `room`
says, or it fails. -/
structure Disk where
  file : List UInt8
  room : ℕ → Option ℕ

def diskDevice : Device Disk where
  read k _ := (none, k)
  write k bytes :=
    let rest := fun i => k.room (i + 1)
    match k.room 0 with
    | some n => (some (min n bytes.length), ⟨k.file ++ bytes.take n, rest⟩)
    | none => (none, ⟨k.file, rest⟩)
  lseek k _ _ := (none, k)
  read_le := nofun
  write_le k bytes n h := by
    dsimp only at h
    split at h
    · obtain rfl := Option.some.inj h
      exact Nat.min_le_right _ _
    · cases h

inductive WriteCall
  | fputc (c : Int32)
  | fputs (s : CString)
  | fwrite (ptr : List UInt8) (size nmemb : ℕ)

def WriteCall.data : WriteCall → List UInt8
  | .fputc c => [UInt8.ofInt c.toInt]
  | .fputs s => s.bytes
  | .fwrite ptr size nmemb => ptr.take (size * nmemb % 2 ^ 32)

/-- The returned value, and the bytes that the file was lengthened by. -/
structure Passed where
  ret : ℤ
  data : List UInt8

def WriteCall.ret (c : Channel Disk) : WriteCall → ℤ × Channel Disk
  | .fputc ch => Channel.fputc diskDevice ch c
  | .fputs s => Channel.fputs diskDevice s.bytes c
  | .fwrite ptr size nmemb =>
    (Channel.fwrite diskDevice (ptr.take (size * nmemb % 2 ^ 32)) size c).map (↑) id

def WriteCall.step (c : Channel Disk) (call : WriteCall) : Channel Disk × Passed :=
  let r := call.ret c
  (r.2, ⟨r.1, r.2.kernel.file.drop c.kernel.file.length⟩)

/-- What the returned value says about the bytes written. -/
def WriteCall.Acknowledges (sent : Passed) : WriteCall → Prop
  | .fputc c => sent.ret = if sent.data = [] then -1 else c.toInt
  | .fputs _ => sent.ret = 0 ∨ sent.ret = -1 ∧ sent.data = []
  | .fwrite _ size _ => sent.ret = (sent.data.length / size : ℕ)

section Writing

variable {c : Channel Disk} {room : ℕ → Option ℕ}

theorem sysWrite_disk (bytes : List UInt8) (c : Channel Disk) :
    ∃ sent, sent <+: bytes ∧ (c.sysWrite diskDevice bytes).2.kernel.file = c.kernel.file ++ sent ∧
      ((c.sysWrite diskDevice bytes).1 = none ∧ sent = [] ∨
        (c.sysWrite diskDevice bytes).1 = some sent.length) := by
  unfold Channel.sysWrite diskDevice
  dsimp only
  split
  · rename_i n _
    exact ⟨bytes.take n, List.take_prefix _ _, by simp⟩
  · exact ⟨[], List.nil_prefix, by simp⟩

/-- The call sends the bytes `sent` of its data, and says so. -/
structure WriteCall.Sends (c : Channel Disk) (call : WriteCall) (sent : List UInt8) : Prop where
  isPrefix : sent <+: call.data
  file : (call.ret c).2.kernel.file = c.kernel.file ++ sent
  acknowledges : call.Acknowledges ⟨(call.ret c).1, sent⟩

theorem fputc_sends (c : Channel Disk) (ch : Int32) :
    ∃ sent, WriteCall.Sends c (.fputc ch) sent := by
  obtain ⟨sent, hprefix, hfile, hanswer⟩ := sysWrite_disk [UInt8.ofInt ch.toInt] c
  refine ⟨sent, hprefix, hfile, ?_⟩
  change (if (c.sysWrite diskDevice [UInt8.ofInt ch.toInt]).1 = some 1 then ch.toInt else -1) =
    if sent = [] then -1 else ch.toInt
  rcases hanswer with ⟨hnone, rfl⟩ | hsome
  · rw [hnone]
    rfl
  · rw [hsome]
    have hlength : sent.length ≤ 1 := hprefix.length_le
    cases sent with
    | nil => rfl
    | cons byte sent =>
      obtain rfl : sent = [] := List.length_eq_zero_iff.mp (by simpa using hlength)
      rfl

theorem fputs_sends (c : Channel Disk) (s : CString) :
    ∃ sent, WriteCall.Sends c (.fputs s) sent := by
  obtain ⟨sent, hprefix, hfile, hanswer⟩ := sysWrite_disk s.bytes c
  refine ⟨sent, hprefix, hfile, ?_⟩
  change (if (c.sysWrite diskDevice s.bytes).1 = none then (-1 : ℤ) else 0) = 0 ∨
    (if (c.sysWrite diskDevice s.bytes).1 = none then (-1 : ℤ) else 0) = -1 ∧ sent = []
  rcases hanswer with ⟨hnone, hnil⟩ | hsome
  · exact Or.inr ⟨if_pos hnone, hnil⟩
  · exact Or.inl (by rw [hsome]; rfl)

theorem fwrite_sends (c : Channel Disk) (ptr : List UInt8) (size nmemb : ℕ) :
    ∃ sent, WriteCall.Sends c (.fwrite ptr size nmemb) sent := by
  obtain ⟨sent, hprefix, hfile, hanswer⟩ := sysWrite_disk (ptr.take (size * nmemb % 2 ^ 32)) c
  have hfwrite : Channel.fwrite diskDevice (ptr.take (size * nmemb % 2 ^ 32)) size c =
      (sent.length / size, (c.sysWrite diskDevice (ptr.take (size * nmemb % 2 ^ 32))).2) := by
    unfold Channel.fwrite
    dsimp only
    split
    · rename_i n hn
      rcases hanswer with ⟨hnone, -⟩ | hsome
      · rw [hnone] at hn
        cases hn
      · rw [hsome] at hn
        rw [Option.some.inj hn]
    · rename_i hn
      rcases hanswer with ⟨-, rfl⟩ | hsome
      · rw [List.length_nil, Nat.zero_div]
      · cases sent with
        | nil => rw [List.length_nil, Nat.zero_div]
        | cons byte sent => exact absurd hsome (hn sent.length)
  refine ⟨sent, hprefix, ?_, ?_⟩
  · change (Channel.fwrite diskDevice (ptr.take (size * nmemb % 2 ^ 32)) size c).2.kernel.file =
      c.kernel.file ++ sent
    rw [hfwrite]
    exact hfile
  · change ((Channel.fwrite diskDevice (ptr.take (size * nmemb % 2 ^ 32)) size c).1 : ℤ) =
      (sent.length / size : ℕ)
    rw [hfwrite]

theorem WriteCall.step_spec (c : Channel Disk) (call : WriteCall) :
    (call.step c).1.kernel.file = c.kernel.file ++ (call.step c).2.data ∧
      (call.step c).2.data <+: call.data ∧ call.Acknowledges (call.step c).2 := by
  obtain ⟨sent, hsends⟩ : ∃ sent, call.Sends c sent := by
    cases call with
    | fputc ch => exact fputc_sends c ch
    | fputs s => exact fputs_sends c s
    | fwrite ptr size nmemb => exact fwrite_sends c ptr size nmemb
  have hsent : (call.step c).2 = ⟨(call.ret c).1, sent⟩ := by
    rw [WriteCall.step]
    simp only [hsends.file, List.drop_left]
  rw [hsent]
  exact ⟨hsends.file, hsends.isPrefix, hsends.acknowledges⟩

theorem WriteCall.run_spec (c : Channel Disk) (calls : List WriteCall) :
    (run WriteCall.step c calls).1.kernel.file =
        c.kernel.file ++ (run WriteCall.step c calls).2.flatMap Passed.data ∧
      List.Forall₂ (fun call sent => sent.data <+: call.data ∧ call.Acknowledges sent) calls
        (run WriteCall.step c calls).2 := by
  induction calls generalizing c with
  | nil => exact ⟨(List.append_nil _).symm, List.Forall₂.nil⟩
  | cons call calls ih =>
    obtain ⟨hfile, hsent⟩ := call.step_spec c
    obtain ⟨hrest, hsents⟩ := ih (call.step c).1
    simp only [run, List.flatMap_cons]
    exact ⟨by rw [hrest, hfile, List.append_assoc], List.Forall₂.cons hsent hsents⟩

end Writing

/-! ## A file written and read -/

def IsLine (line : List UInt8) : Prop := ∃ text, byte '\n' ∉ text ∧ line = text ++ [byte '\n']

def Delivered.line (line : List UInt8) : Delivered := ⟨line.length, line⟩

def Delivered.ended : Delivered := ⟨-1, []⟩

theorem line_terminated {line : List UInt8} (h : IsLine line) (rest : List UInt8) :
    Logical.line (line ++ rest) = line := by
  obtain ⟨text, htext, rfl⟩ := h
  induction text with
  | nil => exact if_pos rfl
  | cons c text ih =>
    obtain ⟨hc, htext⟩ := not_or.mp (mt List.mem_cons.mpr htext)
    exact (if_neg (Ne.symm hc)).trans (congrArg (c :: ·) (ih htext))

theorem line_unterminated {text : List UInt8} (h : byte '\n' ∉ text) :
    Logical.line text = text := by
  induction text with
  | nil => rfl
  | cons c text ih =>
    obtain ⟨hc, htext⟩ := not_or.mp (mt List.mem_cons.mpr h)
    exact (if_neg (Ne.symm hc)).trans (congrArg (c :: ·) (ih htext))

theorem Logical.getline_append {l : Logical} {line rest : List UInt8} (hl : l.bytes = line ++ rest)
    (hline : Logical.line l.bytes = line) (hne : line ≠ []) :
    l.getline.1.bytes = rest ∧ l.getline.2 = .line line := by
  unfold Logical.getline
  rw [hline]
  dsimp only
  rw [if_neg hne]
  exact ⟨by simp [advance, hl], rfl⟩

theorem Logical.getline_nil {l : Logical} (hl : l.bytes = []) : l.getline = (l, .ended) := by
  unfold Logical.getline
  rw [hl]
  rfl

def getlines (buffers : List (Bool × ℕ)) : List StreamCall :=
  buffers.map fun buffer => .getline buffer.1 buffer.2

theorem Logical.run_getlines_nil {l : Logical} (hl : l.bytes = []) (buffers : List (Bool × ℕ)) :
    (run Logical.step l (getlines buffers)).2 = List.replicate buffers.length Delivered.ended := by
  induction buffers with
  | nil => rfl
  | cons buffer buffers ih =>
    have hstep : l.step (.getline buffer.1 buffer.2) = (l, .ended) := getline_nil hl
    simp only [getlines, List.map_cons, run, hstep]
    exact congrArg (_ :: ·) ih

/-- What `getline` delivers from the lines, and from the part after the last newline. -/
def fromLines (lines : List (List UInt8)) (last : List UInt8) : List Delivered :=
  lines.map Delivered.line ++ if last = [] then [] else [Delivered.line last]

theorem take_append_replicate (got : List Delivered) (n : ℕ) (d : Delivered) :
    (got ++ List.replicate (n + 1) d).take n = (got ++ List.replicate n d).take n := by
  rw [List.take_append, List.take_append, List.take_replicate, List.take_replicate]
  congr 2
  omega

/-- The calls deliver the lines one by one, then the part after the last newline, then the end. -/
theorem Logical.run_getlines {l : Logical} {lines : List (List UInt8)} {last : List UInt8}
    (hlines : ∀ line ∈ lines, IsLine line) (hlast : byte '\n' ∉ last)
    (hl : l.bytes = lines.flatten ++ last) (buffers : List (Bool × ℕ)) :
    (run Logical.step l (getlines buffers)).2 =
      (fromLines lines last ++
        List.replicate buffers.length Delivered.ended).take buffers.length := by
  induction buffers generalizing l lines last with
  | nil => rfl
  | cons buffer buffers ih =>
    have hrun : (run Logical.step l (getlines (buffer :: buffers))).2 =
        l.getline.2 :: (run Logical.step l.getline.1 (getlines buffers)).2 := rfl
    rw [hrun]
    cases lines with
    | nil =>
      rw [List.flatten_nil, List.nil_append] at hl
      by_cases hnil : last = []
      · rw [getline_nil (hl.trans hnil), run_getlines_nil (hl.trans hnil)]
        simp [fromLines, hnil, List.replicate_succ]
      · obtain ⟨hrest, hgot⟩ := getline_append (hl.trans (List.append_nil last).symm)
          ((congrArg line hl).trans (line_unterminated hlast)) hnil
        rw [hgot, run_getlines_nil hrest]
        simp [fromLines, hnil, List.take_replicate]
    | cons line lines =>
      obtain ⟨hline, hlines⟩ := List.forall_mem_cons.mp hlines
      rw [List.flatten_cons, List.append_assoc] at hl
      have hne : line ≠ [] := by
        obtain ⟨text, -, rfl⟩ := hline
        simp
      obtain ⟨hrest, hgot⟩ := getline_append hl
        ((congrArg Logical.line hl).trans (line_terminated hline _)) hne
      rw [hgot, ih hlines hlast hrest, ← take_append_replicate]
      rfl

/-- Over a text file `getline` delivers each line with its newline, then what follows the last
newline, then only the end. The sizes of the buffers do not matter, nor how the kernel cuts its
reads. -/
theorem getlines_text (fd : ℤ) (kernel : Kernel) (lines : List (List UInt8)) (last : List UInt8)
    (buffers : List (Bool × ℕ)) (hbuffers : ∀ buffer ∈ buffers, Stream.BufferFits buffer.1 buffer.2)
    (hlines : ∀ line ∈ lines, IsLine line)
    (hlast : byte '\n' ∉ last) (hahead : kernel.ahead = lines.flatten ++ last) :
    (run Stream.step (.opened fd kernel) (getlines buffers)).2 =
      (fromLines lines last ++
        List.replicate buffers.length Delivered.ended).take buffers.length := by
  have hreads : ∀ call ∈ getlines buffers, call.Reads := by
    intro call hcall
    obtain ⟨buffer, hbuffer, rfl⟩ := List.mem_map.mp hcall
    exact hbuffers buffer hbuffer
  have hrun := Stream.stream_refines.run (s := .opened fd kernel) (Or.inl rfl)
    (along_of_reads hreads)
  have hlogical := (Stream.opened fd kernel).logical.run_getlines hlines hlast hahead buffers
  rw [hrun] at hlogical
  exact hlogical

theorem getlines_text_three :
    (run Stream.step (.opened 3 ⟨[98, 10, 97], 0, fun _ => 0, by decide, by decide⟩)
      (getlines [(false, 0), (true, 1), (true, 4)])).2 = [⟨2, [98, 10]⟩, ⟨1, [97]⟩, ⟨-1, []⟩] :=
  getlines_text 3 ⟨[98, 10, 97], 0, fun _ => 0, by decide, by decide⟩ [[98, 10]] [97]
    [(false, 0), (true, 1), (true, 4)] (by simp [Stream.BufferFits])
    (fun line h => ⟨[98], by decide, by rw [List.mem_singleton.mp h]; rfl⟩) (by decide) rfl

end LampUserspace.Stdio
