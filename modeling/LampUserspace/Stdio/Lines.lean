import LampUserspace.Stdio.Channel
import Mathlib.Data.Stream.Init

/-! # Lines

`fgets` reads the descriptor itself and knows nothing of a pushed-back byte. What
a reader has ahead is the sequence of the values that `fgetc` is going to return;
`fgets` takes a line from the part of it that comes from the kernel.
-/

namespace LampUserspace.Stdio

universe u

/-! ## Lines of a sequence -/

namespace Coming

/-- The bytes up to the first newline, with it, or up to `EOF`, and what comes after them. -/
def splitLine : ℕ → Stream' ℤ → List UInt8 × Stream' ℤ
  | 0, a => ([], a)
  | room + 1, a =>
    if a.head = -1 then ([], a.tail)
    else if UInt8.ofInt a.head = byte '\n' then ([UInt8.ofInt a.head], a.tail)
    else (UInt8.ofInt a.head :: (splitLine room a.tail).1, (splitLine room a.tail).2)

def Bytes (a : Stream' ℤ) : Prop := ∀ n, -1 ≤ a.get n ∧ a.get n < 256

variable {a : Stream' ℤ} {p : ℤ} {room : ℕ}

theorem splitLine_eq_nil : (splitLine (room + 1) a).1 = [] ↔ a.head = -1 := by
  unfold splitLine
  by_cases hend : a.head = -1
  · simp [hend]
  · rw [if_neg hend]
    split <;> simp [hend]

theorem splitLine_of_byte (hend : a.head ≠ -1) (hline : UInt8.ofInt a.head ≠ byte '\n') :
    splitLine (room + 1) a =
      (UInt8.ofInt a.head :: (splitLine room a.tail).1, (splitLine room a.tail).2) := by
  rw [splitLine, if_neg hend, if_neg hline]

theorem splitLine_of_newline (hend : a.head ≠ -1) (hline : UInt8.ofInt a.head = byte '\n') :
    splitLine (room + 1) a = ([UInt8.ofInt a.head], a.tail) := by
  rw [splitLine, if_neg hend, if_pos hline]

/-- A line that starts with a byte has that byte in front, and it is not `EOF`. -/
theorem head_of_splitLine {c : UInt8} {l : List UInt8} (h : (splitLine (room + 1) a).1 = c :: l) :
    a.head ≠ -1 ∧ UInt8.ofInt a.head = c := by
  have hend : a.head ≠ -1 := fun hend => by simp [splitLine_eq_nil.mpr hend] at h
  by_cases hline : UInt8.ofInt a.head = byte '\n'
  · rw [splitLine_of_newline hend hline] at h
    exact ⟨hend, (List.cons.inj h).1⟩
  · rw [splitLine_of_byte hend hline] at h
    exact ⟨hend, (List.cons.inj h).1⟩

theorem ofInt_injOn {x y : ℤ} (hx : 0 ≤ x ∧ x < 256) (hy : 0 ≤ y ∧ y < 256)
    (h : UInt8.ofInt x = UInt8.ofInt y) : x = y := by
  have hnat := congrArg UInt8.toNat h
  simp only [UInt8.ofInt, UInt8.toNat_ofNat'] at hnat
  omega

theorem Bytes.tail (ha : Bytes a) : Bytes a.tail := fun n => ha (n + 1)

/-- A byte that is no newline can go behind as many of the sequence as the line has only if all of
them are that byte. -/
theorem splitLine_shift_iff (ha : Bytes a) (hp : 0 ≤ p) (hline : UInt8.ofInt p ≠ byte '\n') :
    (splitLine (room + 1) a).1 = UInt8.ofInt p :: (splitLine room a).1 ∧
        (splitLine room a).2 = Stream'.cons p (splitLine (room + 1) a).2 ↔
      ∀ i ≤ room, a.get i = p := by
  induction room generalizing a with
  | zero =>
    constructor
    · rintro ⟨-, h⟩ i hi
      obtain rfl : i = 0 := by omega
      have hhead := congrArg Stream'.head h
      rwa [Stream'.head_cons] at hhead
    · intro h
      have hhead : a.head = p := h 0 le_rfl
      rw [splitLine_of_byte (by omega) (hhead ▸ hline), hhead]
      refine ⟨rfl, ?_⟩
      change a = Stream'.cons p a.tail
      rw [← hhead, Stream'.eta]
  | succ room ih =>
    constructor
    · rintro ⟨hstored, hrest⟩
      obtain ⟨hend, hhead⟩ := head_of_splitLine hstored
      have hline' : UInt8.ofInt a.head ≠ byte '\n' := hhead ▸ hline
      rw [splitLine_of_byte hend hline', splitLine_of_byte hend hline', hhead] at hstored
      rw [splitLine_of_byte hend hline', splitLine_of_byte hend hline'] at hrest
      have htail := (ih ha.tail).mp ⟨(List.cons.inj hstored).2, hrest⟩
      -- the next one is the byte itself, so that the first one is
      have hp256 : p < 256 := htail 0 (Nat.zero_le _) ▸ (ha 1).2
      have hlow : 0 ≤ a.head := by
        have hge : -1 ≤ a.head := (ha 0).1
        omega
      have hfirst : a.head = p := ofInt_injOn ⟨hlow, (ha 0).2⟩ ⟨hp, hp256⟩ hhead
      rintro (_ | i) hi
      · exact hfirst
      · exact htail i (by omega)
    · intro h
      have hhead : a.head = p := h 0 (Nat.zero_le _)
      have hend : a.head ≠ -1 := by omega
      have hline' : UInt8.ofInt a.head ≠ byte '\n' := hhead ▸ hline
      obtain ⟨hstored, hrest⟩ := (ih ha.tail).mpr fun i hi => h (i + 1) (by omega)
      rw [splitLine_of_byte hend hline', splitLine_of_byte hend hline', hhead]
      exact ⟨congrArg _ hstored, hrest⟩

/-- The number of bytes in a line of the pushed-back byte alone. -/
def copies (room : ℕ) (p : ℤ) : ℕ := if UInt8.ofInt p = byte '\n' then 1 else room

/-- A byte in front of the sequence and one in front of what comes after the line are told apart
unless the line consists of that byte. -/
theorem splitLine_cons_iff (ha : Bytes a) (hp : 0 ≤ p) :
    (splitLine (room + 1) a).1 = (splitLine (room + 1) (Stream'.cons p a)).1 ∧
        Stream'.cons p (splitLine (room + 1) a).2 = (splitLine (room + 1) (Stream'.cons p a)).2 ↔
      ∀ i < copies (room + 1) p, a.get i = p := by
  have hend : (Stream'.cons p a).head ≠ -1 := by
    rw [Stream'.head_cons]
    omega
  by_cases hline : UInt8.ofInt p = byte '\n'
  · rw [splitLine_of_newline hend hline, copies, if_pos hline]
    rw [Stream'.head_cons, Stream'.tail_cons]
    constructor
    · rintro ⟨-, hrest⟩ i hi
      obtain rfl : i = 0 := by omega
      exact (congrArg Stream'.head hrest).symm
    · intro h
      have hhead : a.head = p := h 0 Nat.one_pos
      rw [splitLine_of_newline (by omega) (hhead ▸ hline), hhead]
      refine ⟨rfl, ?_⟩
      dsimp only
      rw [← hhead, Stream'.eta]
  · rw [splitLine_of_byte hend hline, copies, if_neg hline]
    rw [Stream'.head_cons, Stream'.tail_cons, eq_comm (b := Prod.snd _)]
    rw [splitLine_shift_iff ha hp hline]
    simp only [Nat.lt_succ_iff]

end Coming

/-! ## What a reader has ahead -/

/-- A read of one byte: the byte or `EOF`. -/
def Device.byteRead {κ : Type u} (dev : Device κ) (k : κ) : ℤ × κ :=
  match dev.read k 1 with
  | (some [ch], k) => (ch.toNat, k)
  | (_, k) => (-1, k)

/-- The bytes that the kernel has ahead, with `EOF` for every answer without a byte. -/
def Device.ahead {κ : Type u} (dev : Device κ) (k : κ) : Stream' ℤ :=
  Stream'.corec (fun k => (dev.byteRead k).1) (fun k => (dev.byteRead k).2) k

theorem Device.byteRead_cases {κ : Type u} (dev : Device κ) (k : κ) :
    (∃ ch, (dev.read k 1).1 = some [ch] ∧ dev.byteRead k = ((ch.toNat : ℤ), (dev.read k 1).2)) ∨
      (∀ ch, (dev.read k 1).1 ≠ some [ch]) ∧ dev.byteRead k = (-1, (dev.read k 1).2) := by
  unfold byteRead
  rcases dev.read k 1 with ⟨_ | _ | ⟨ch, _ | ⟨ch', got⟩⟩, k'⟩ <;> simp

namespace Channel

open Coming

variable {κ : Type u} (dev : Device κ) (c : Channel κ)

/-- The logical stream: what `fgetc` is going to return, call after call. -/
def coming : Stream' ℤ := Stream'.corec (fun c => (fgetc dev c).1) (fun c => (fgetc dev c).2) c

theorem coming_eq : coming dev c = Stream'.cons (fgetc dev c).1 (coming dev (fgetc dev c).2) :=
  Stream'.corec_eq _ _ _

variable {dev} {c}

theorem ahead_eq (k : κ) :
    dev.ahead k = Stream'.cons (dev.byteRead k).1 (dev.ahead (dev.byteRead k).2) :=
  Stream'.corec_eq _ _ _

theorem fgetc_of_not_pushed (dev : Device κ) {c : Channel κ} (h : c.stream.pushback < 0) :
    (fgetc dev c).1 = (dev.byteRead c.kernel).1 ∧
      (fgetc dev c).2.kernel = (dev.byteRead c.kernel).2 ∧
      (fgetc dev c).2.stream.pushback = c.stream.pushback := by
  rw [fgetc, if_neg (Int.not_le.mpr h)]
  rcases dev.byteRead_cases c.kernel with ⟨ch, hread, hbyte⟩ | ⟨hread, hbyte⟩
  · have hsys : (c.sysRead dev 1).1 = some [ch] := hread
    rw [hsys, hbyte]
    exact ⟨rfl, rfl, rfl⟩
  · rw [hbyte]
    split
    case h_1 ch hsys => exact absurd hsys (hread ch)
    case h_2 => exact ⟨rfl, rfl, rfl⟩

theorem coming_of_not_pushed (h : c.stream.pushback < 0) : coming dev c = dev.ahead c.kernel := by
  apply Stream'.ext
  intro n
  induction n generalizing c with
  | zero => exact (fgetc_of_not_pushed dev h).1
  | succ n ih =>
    obtain ⟨-, hkernel, hpush⟩ := fgetc_of_not_pushed dev h
    rw [coming_eq, ahead_eq, Stream'.get_succ_cons, Stream'.get_succ_cons, ← hkernel]
    exact ih (hpush ▸ h)

theorem coming_of_pushed (h : 0 ≤ c.stream.pushback) :
    coming dev c = Stream'.cons c.stream.pushback (dev.ahead c.kernel) := by
  rw [coming_eq, fgetc, if_pos h]
  exact congrArg _ (coming_of_not_pushed (Int.negSucc_lt_zero 0))

theorem bytes_ahead (k : κ) : Bytes (dev.ahead k) := by
  intro n
  induction n generalizing k with
  | zero =>
    change -1 ≤ (dev.byteRead k).1 ∧ (dev.byteRead k).1 < 256
    rcases dev.byteRead_cases k with ⟨ch, -, hbyte⟩ | ⟨-, hbyte⟩ <;> rw [hbyte]
    · have hlt := ch.toNat_lt
      dsimp only
      omega
    · dsimp only
      omega
  | succ n ih =>
    rw [ahead_eq, Stream'.get_succ_cons]
    exact ih _

/-! ## Reading a line -/

/-- `fgetc` until a newline is stored, the room is used up, or it returns `EOF`. -/
def fgetcLine (dev : Device κ) : ℕ → List UInt8 → Channel κ → List UInt8 × Channel κ
  | 0, s, c => (s, c)
  | room + 1, s, c =>
    let (ch, c) := fgetc dev c
    if ch = -1 then (s, c)
    else if UInt8.ofInt ch = byte '\n' then (s ++ [UInt8.ofInt ch], c)
    else fgetcLine dev room (s ++ [UInt8.ofInt ch]) c

theorem fgetcLine_spec (dev : Device κ) (room : ℕ) (s : List UInt8) (c : Channel κ) :
    (fgetcLine dev room s c).1 = s ++ (splitLine room (coming dev c)).1 ∧
      coming dev (fgetcLine dev room s c).2 = (splitLine room (coming dev c)).2 := by
  induction room generalizing s c with
  | zero => simp [fgetcLine, splitLine]
  | succ room ih =>
    rw [coming_eq, fgetcLine, splitLine]
    dsimp only
    rw [Stream'.head_cons, Stream'.tail_cons]
    split
    · simp
    · split
      · simp
      · obtain ⟨hstored, hrest⟩ := ih (s ++ [UInt8.ofInt (fgetc dev c).1]) (fgetc dev c).2
        rw [hstored, hrest]
        simp

theorem fgetsLoop_spec (dev : Device κ) (room : ℕ) (s : List UInt8) (c : Channel κ) :
    (fgetsLoop dev room s c).1 = s ++ (splitLine room (dev.ahead c.kernel)).1 ∧
      dev.ahead (fgetsLoop dev room s c).2.kernel = (splitLine room (dev.ahead c.kernel)).2 ∧
      (fgetsLoop dev room s c).2.stream.pushback = c.stream.pushback := by
  induction room generalizing s c with
  | zero => simp [fgetsLoop, splitLine]
  | succ room ih =>
    rw [ahead_eq, fgetsLoop, splitLine, Stream'.head_cons, Stream'.tail_cons]
    rcases dev.byteRead_cases c.kernel with ⟨ch, hread, hbyte⟩ | ⟨hread, hbyte⟩
    · have hsys : (c.sysRead dev 1).1 = some [ch] := hread
      have hend : (ch.toNat : ℤ) ≠ -1 := by omega
      rw [hsys, hbyte]
      dsimp only
      rw [if_neg hend, Stream.ofInt_toNat]
      split
      · exact ⟨rfl, rfl, rfl⟩
      · obtain ⟨hstored, hrest, hpush⟩ := ih (s ++ [ch]) (c.sysRead dev 1).2
        rw [hstored, hrest, hpush, List.append_assoc]
        exact ⟨rfl, rfl, rfl⟩
    · rw [hbyte, if_pos rfl]
      split
      case h_1 ch hsys => exact absurd hsys (hread ch)
      case h_2 => exact ⟨(List.append_nil s).symm, rfl, rfl⟩

/-- `fgets` stores what `fgetc` would, leaves what `fgetc` would, and returns a null pointer when
`fgetc` has nothing. -/
structure ReadsAsFgetc (dev : Device κ) (size : ℤ) (c : Channel κ) : Prop where
  stored : (fgets dev size c).1.getD [] = (fgetcLine dev (size.toNat - 1) [] c).1
  remaining : coming dev (fgets dev size c).2 =
    coming dev (fgetcLine dev (size.toNat - 1) [] c).2
  null : (fgets dev size c).1 = none ↔ (fgetc dev c).1 = -1

/-- Nothing is pushed back, or the descriptor delivers the pushed-back byte for a whole line. -/
def LineUnaffected (dev : Device κ) (size : ℤ) (c : Channel κ) : Prop :=
  c.stream.pushback < 0 ∨
    ∀ i < copies (size.toNat - 1) c.stream.pushback, (dev.ahead c.kernel).get i = c.stream.pushback

theorem fgets_eq (dev : Device κ) (c : Channel κ) {size : ℤ} {room : ℕ} (hsize : 2 ≤ size)
    (hroom : size.toNat - 1 = room) :
    (fgets dev size c).1.getD [] = (fgetsLoop dev room [] c).1 ∧
      (fgets dev size c).2 = (fgetsLoop dev room [] c).2 ∧
      ((fgets dev size c).1 = none ↔ (fgetsLoop dev room [] c).1 = []) := by
  rw [fgets, if_neg (by omega), hroom]
  by_cases hnil : (fgetsLoop dev room [] c).1 = [] <;> simp [hnil]

/-- A line read with `fgets` is the line that `fgetc` reads unless a byte is pushed back. -/
theorem fgets_reads_as_fgetc_iff (dev : Device κ) (size : ℤ) (c : Channel κ) (hsize : 2 ≤ size) :
    ReadsAsFgetc dev size c ↔ LineUnaffected dev size c := by
  obtain ⟨room, hroom⟩ : ∃ room, size.toNat - 1 = room + 1 := ⟨size.toNat - 2, by omega⟩
  obtain ⟨hline, hafter, hnull⟩ := fgets_eq dev c hsize hroom
  obtain ⟨hstored, hrest, hpush⟩ := fgetsLoop_spec dev (room + 1) [] c
  obtain ⟨hstored', hrest'⟩ := fgetcLine_spec dev (room + 1) [] c
  rw [List.nil_append] at hstored hstored'
  have hfirst : (fgetc dev c).1 = -1 ↔ (splitLine (room + 1) (coming dev c)).1 = [] := by
    rw [splitLine_eq_nil, coming_eq, Stream'.head_cons]
  have hiff : ReadsAsFgetc dev size c ↔
      (splitLine (room + 1) (dev.ahead c.kernel)).1 = (splitLine (room + 1) (coming dev c)).1 ∧
        coming dev (fgetsLoop dev (room + 1) [] c).2 =
          (splitLine (room + 1) (coming dev c)).2 := by
    constructor
    · rintro ⟨h1, h2, -⟩
      rw [hline, hroom, hstored, hstored'] at h1
      rw [hafter, hroom, hrest'] at h2
      exact ⟨h1, h2⟩
    · rintro ⟨h1, h2⟩
      constructor
      · rw [hline, hroom, hstored, hstored', h1]
      · rw [hafter, hroom, hrest', h2]
      · rw [hnull, hstored, h1, hfirst]
  rw [hiff, LineUnaffected, hroom]
  by_cases h : c.stream.pushback < 0
  · rw [coming_of_not_pushed h, coming_of_not_pushed (hpush ▸ h), hrest]
    exact ⟨fun _ => Or.inl h, fun _ => ⟨rfl, rfl⟩⟩
  · have hpushed := Int.not_lt.mp h
    rw [coming_of_pushed hpushed, coming_of_pushed (hpush ▸ hpushed), hrest, hpush,
      splitLine_cons_iff (bytes_ahead _) hpushed]
    exact ⟨Or.inr, fun hor => hor.resolve_left h⟩

def pushedX : Channel Kernel := ⟨⟨3, false, false, 120⟩, Stream.twoBytes, []⟩

def plainAB : Channel Kernel := ⟨⟨3, false, false, -1⟩, Stream.twoBytes, []⟩

theorem plainAB_reads_as_fgetc : ReadsAsFgetc fileDevice 2 plainAB :=
  (fgets_reads_as_fgetc_iff fileDevice 2 plainAB (by decide)).mpr (Or.inl (by decide))

/-- The pushed-back byte is passed over. -/
theorem pushedX_not_reads_as_fgetc :
    (fgets fileDevice 2 pushedX).1 = some [byte 'a'] ∧
      (fgetcLine fileDevice 1 [] pushedX).1 = [byte 'x'] ∧
      ¬ ReadsAsFgetc fileDevice 2 pushedX := by
  have hgets : (fgets fileDevice 2 pushedX).1 = some [byte 'a'] := by decide
  have hgetc : (fgetcLine fileDevice 1 [] pushedX).1 = [byte 'x'] := by decide
  refine ⟨hgets, hgetc, fun h => ?_⟩
  have hstored := h.stored
  rw [hgets] at hstored
  exact absurd (hstored.trans hgetc) (by decide)

end Channel

end LampUserspace.Stdio
