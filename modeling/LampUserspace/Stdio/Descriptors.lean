import LampUserspace.Libc.Ctype
import LampUserspace.Ownership.Ledger
import LampUserspace.Refinement.Runs
import LampUserspace.Stdio.Stream

/-! # Descriptors and their owners

`fopen`, `freopen` and `fclose` of `libc_stdio.c` and `opendir` and `closedir` of
`libc_misc.c`, with the descriptors of the process. A call is given what `open`
and `malloc` answer in it; `close` succeeds. The descriptors that a run has
opened are those of its live streams and directories exactly as long as no
stream is refused its memory after its file was opened.
-/

namespace LampUserspace.Stdio

open Ownership Refinement

/-- An object on the heap: a stream, or a directory with its descriptor. -/
inductive Object
  | file (stream : FILE)
  | dir (fd : ℤ)

def Object.fd : Object → ℤ
  | .file stream => stream.fd
  | .dir fd => fd

inductive Address
  | stdin
  | stdout
  | stderr
  | heap (p : ℕ)
  deriving DecidableEq

/-- The open descriptors and the objects by their addresses. -/
structure Descriptors where
  descriptors : List ℤ
  objects : Address → Option Object

inductive Flags
  | read
  | writeCreateTruncate

/-- What `open` and `malloc` answer in a call, `none` being a failure. -/
structure Answers where
  opens : CString → Flags → Option ℤ
  mallocs : Option ℕ

/-- The flags of a mode, which may be a null pointer. -/
def modeFlags : Option CString → Flags
  | none => .read
  | some mode => if mode.bytes.head? = some (byte 'w') then .writeCreateTruncate else .read

namespace Descriptors

variable (s : Descriptors)

def opened (fd : ℤ) : Descriptors := { s with descriptors := fd :: s.descriptors }

def close (fd : ℤ) : Descriptors := { s with descriptors := s.descriptors.filter (· ≠ fd) }

def store (a : Address) (object : Object) : Descriptors :=
  { s with objects := Function.update s.objects a (some object) }

def free (a : Address) : Descriptors := { s with objects := Function.update s.objects a none }

def fdopen (fd : ℤ) (answers : Answers) : Descriptors × Option Address :=
  match answers.mallocs with
  | none => (s, none)
  | some p => (s.store (.heap p) (.file ⟨fd, false, false, -1⟩), some (.heap p))

def fopen (path : CString) (mode : Option CString) (answers : Answers) :
    Descriptors × Option Address :=
  match answers.opens path (modeFlags mode) with
  | none => (s, none)
  | some fd => (s.opened fd).fdopen fd answers

/-- `none` is a null pointer; a pointer to something else than a stream is not followed. -/
def freopen (path : CString) (mode : Option CString) (stream : Option Address)
    (answers : Answers) : Descriptors × Option Address :=
  match stream with
  | none => s.fopen path mode answers
  | some a =>
    match answers.opens path (modeFlags mode), s.objects a with
    | some fd, some (.file stream) =>
      (((s.opened fd).close stream.fd).store a (.file ⟨fd, false, false, -1⟩), some a)
    | _, _ => (s, none)

def fclose (a : Address) : Descriptors :=
  match s.objects a with
  | some (.file stream) =>
    let fd := fileFd (some stream)
    let s := if a ≠ .stdin ∧ a ≠ .stdout ∧ a ≠ .stderr then s.free a else s
    s.close fd
  | _ => s

def opendir (path : CString) (answers : Answers) : Descriptors × Option Address :=
  match answers.opens path .read with
  | none => (s, none)
  | some fd =>
    match answers.mallocs with
    | none => ((s.opened fd).close fd, none)
    | some p => ((s.opened fd).store (.heap p) (.dir fd), some (.heap p))

/-- `none` is a null pointer. -/
def closedir (dirp : Option Address) : Descriptors :=
  match dirp with
  | none => s
  | some a =>
    match s.objects a with
    | some (.dir fd) => (s.close fd).free a
    | _ => s

end Descriptors

inductive FileCall
  | fopen (path : CString) (mode : Option CString) (answers : Answers)
  | freopen (path : CString) (mode : Option CString) (stream : Option Address) (answers : Answers)
  | fclose (stream : Address)
  | opendir (path : CString) (answers : Answers)
  | closedir (dirp : Option Address)

namespace FileCall

/-- The state after a call and the pointer that it returns. -/
def step (s : Descriptors) : FileCall → Descriptors × Option Address
  | .fopen path mode answers => s.fopen path mode answers
  | .freopen path mode stream answers => s.freopen path mode stream answers
  | .fclose stream => (s.fclose stream, none)
  | .opendir path answers => s.opendir path answers
  | .closedir dirp => (s.closedir dirp, none)

/-- `open` succeeds for a stream that then gets no memory. -/
def Leaks : FileCall → Prop
  | .fopen path mode answers | .freopen path mode none answers =>
    (answers.opens path (modeFlags mode)).isSome ∧ answers.mallocs = none
  | _ => False

end FileCall

/-- A descriptor that `open` returns is not open, and memory that `malloc` returns is not in use. -/
def Answers.Fresh (answers : Answers) (s : Descriptors) : Prop :=
  (∀ path flags fd, answers.opens path flags = some fd → fd ∉ s.descriptors) ∧
    ∀ p, answers.mallocs = some p → s.objects (.heap p) = none

/-- The streams and directories of a call are live ones that earlier calls have returned. -/
def FileCall.Permitted (s : Descriptors) : FileCall → Prop
  | .fopen _ _ answers | .opendir _ answers => answers.Fresh s
  | .freopen _ _ stream answers => answers.Fresh s ∧
    ∀ a, stream = some a → ∃ p f, a = .heap p ∧ s.objects a = some (.file f)
  | .fclose a => ∃ p f, a = .heap p ∧ s.objects a = some (.file f)
  | .closedir dirp => ∀ a, dirp = some a → ∃ p fd, a = .heap p ∧ s.objects a = some (.dir fd)

/-- The process before the run, with the descriptors that it has. -/
def Descriptors.start (initial : List ℤ) : Descriptors where
  descriptors := initial
  objects
    | .stdin => some (.file ⟨0, false, false, -1⟩)
    | .stdout => some (.file ⟨1, false, false, -1⟩)
    | .stderr => some (.file ⟨2, false, false, -1⟩)
    | .heap _ => none

/-- The descriptor that the object at an address of the heap has. -/
def Descriptors.owner (s : Descriptors) (p : ℕ) : Option ℤ := (s.objects (.heap p)).map Object.fd

/-- The descriptors opened during the run are those of the live objects, each of one of them. -/
def Accounted (initial : List ℤ) (s : Descriptors) : Prop :=
  Ledger (· ∈ initial) s.owner (· ∈ s.descriptors)

/-- After the call the descriptors are accounted for; a call that returns a null pointer has
opened and closed nothing, and a call that closes an object has closed its descriptor alone. -/
def FileCall.Lawful (initial : List ℤ) (s : Descriptors) (call : FileCall) : Prop :=
  Accounted initial (call.step s).1 ∧
    match call with
    | .fopen _ _ _ | .freopen _ _ _ _ | .opendir _ _ =>
      (call.step s).2 = none → ∀ fd, fd ∈ (call.step s).1.descriptors ↔ fd ∈ s.descriptors
    | .fclose a => ∀ f, s.objects a = some (.file f) →
      ∀ fd, fd ∈ (call.step s).1.descriptors ↔ fd ∈ s.descriptors ∧ fd ≠ f.fd
    | .closedir none => ∀ fd, fd ∈ (call.step s).1.descriptors ↔ fd ∈ s.descriptors
    | .closedir (some a) => ∀ own, s.objects a = some (.dir own) →
      ∀ fd, fd ∈ (call.step s).1.descriptors ↔ fd ∈ s.descriptors ∧ fd ≠ own

variable {initial : List ℤ} {s : Descriptors} {fd own : ℤ} {p : ℕ} {object : Object}

/-! ## Accounting -/

theorem Descriptors.mem_opened {q : ℤ} :
    q ∈ (s.opened fd).descriptors ↔ q ∈ s.descriptors ∨ q = fd := by
  simp [opened, or_comm]

theorem Descriptors.mem_close {q : ℤ} :
    q ∈ (s.close fd).descriptors ↔ q ∈ s.descriptors ∧ q ≠ fd := by
  simp [close]

theorem Descriptors.owner_store :
    (s.store (.heap p) object).owner = Function.update s.owner p (some object.fd) := by
  funext q
  by_cases hq : q = p
  · subst hq
    simp [owner, store]
  · simp [owner, store, hq]

theorem Descriptors.owner_free :
    (s.free (.heap p)).owner = Function.update s.owner p none := by
  funext q
  by_cases hq : q = p
  · subst hq
    simp [owner, free]
  · simp [owner, free, hq]

theorem Descriptors.start_accounted (initial : List ℤ) : Accounted initial (start initial) where
  exact fd := by simp [start, owner]
  foreign p fd hp := by cases hp
  single p q fd hp := by cases hp

namespace Accounted

theorem opened_store (h : Accounted initial s) (hfd : fd ∉ s.descriptors)
    (hp : s.objects (.heap p) = none) (hobject : object.fd = fd) :
    Accounted initial ((s.opened fd).store (.heap p) object) := by
  have hnone : s.owner p = none := by rw [Descriptors.owner, hp]; rfl
  have hnew := h.acquire hnone hfd
  rw [Accounted, Descriptors.owner_store, hobject]
  exact hnew.congr fun q => Descriptors.mem_opened

theorem close_free (h : Accounted initial s) (hp : s.objects (.heap p) = some object) :
    Accounted initial ((s.close object.fd).free (.heap p)) := by
  have howner : s.owner p = some object.fd := by rw [Descriptors.owner, hp]; rfl
  have hnew := h.release howner
  rw [Accounted, Descriptors.owner_free]
  exact hnew.congr fun q => Descriptors.mem_close

theorem swap {new : Object} (h : Accounted initial s) (hfd : fd ∉ s.descriptors)
    (hp : s.objects (.heap p) = some object) (hnew : new.fd = fd) :
    Accounted initial (((s.opened fd).close object.fd).store (.heap p) new) := by
  have howner : s.owner p = some object.fd := by rw [Descriptors.owner, hp]; rfl
  have hne : fd ≠ object.fd := fun heq => hfd (heq ▸ h.held_of_owner howner)
  have hboth := (h.release howner).acquire (r := fd) (Function.update_self p none s.owner)
    fun hheld => hfd hheld.1
  rw [Function.update_idem] at hboth
  rw [Accounted, Descriptors.owner_store, hnew]
  refine hboth.congr fun q => ?_
  change q ∈ ((s.opened fd).close object.fd).descriptors ↔ _
  rw [Descriptors.mem_close, Descriptors.mem_opened]
  constructor
  · rintro ⟨hq | rfl, hqne⟩
    · exact Or.inl ⟨hq, hqne⟩
    · exact Or.inr rfl
  · rintro (⟨hq, hqne⟩ | rfl)
    · exact ⟨Or.inl hq, hqne⟩
    · exact ⟨Or.inr rfl, hne⟩

end Accounted

/-! ## Calls -/

section

variable {path : CString} {mode : Option CString} {answers : Answers}

theorem fopen_lawful (h : Accounted initial s) (hfresh : answers.Fresh s)
    (hmemory : ¬ ((answers.opens path (modeFlags mode)).isSome ∧ answers.mallocs = none)) :
    Accounted initial (s.fopen path mode answers).1 ∧ ((s.fopen path mode answers).2 = none →
      ∀ fd, fd ∈ (s.fopen path mode answers).1.descriptors ↔ fd ∈ s.descriptors) := by
  unfold Descriptors.fopen
  cases hopen : answers.opens path (modeFlags mode) with
  | none => exact ⟨h, fun _ _ => Iff.rfl⟩
  | some fd =>
    cases hmalloc : answers.mallocs with
    | none => exact absurd ⟨by rw [hopen]; rfl, hmalloc⟩ hmemory
    | some p =>
      simp only [Descriptors.fdopen, hmalloc]
      exact ⟨h.opened_store (hfresh.1 _ _ _ hopen) (hfresh.2 _ hmalloc) rfl,
        fun hnull => by cases hnull⟩

/-- A leaking `fopen` returns a null pointer and leaves the descriptor open. -/
theorem fopen_leaks (hfresh : answers.Fresh s)
    (hmemory : (answers.opens path (modeFlags mode)).isSome ∧ answers.mallocs = none) :
    ¬ ((s.fopen path mode answers).2 = none →
      ∀ fd, fd ∈ (s.fopen path mode answers).1.descriptors ↔ fd ∈ s.descriptors) := by
  obtain ⟨fd, hopen⟩ := Option.isSome_iff_exists.mp hmemory.1
  simp only [Descriptors.fopen, hopen, Descriptors.fdopen, hmemory.2]
  intro hlaw
  exact hfresh.1 _ _ _ hopen ((hlaw trivial fd).mp (Descriptors.mem_opened.mpr (Or.inr rfl)))

theorem opendir_lawful (h : Accounted initial s) (hfresh : answers.Fresh s) :
    Accounted initial (s.opendir path answers).1 ∧ ((s.opendir path answers).2 = none →
      ∀ fd, fd ∈ (s.opendir path answers).1.descriptors ↔ fd ∈ s.descriptors) := by
  unfold Descriptors.opendir
  cases hopen : answers.opens path .read with
  | none => exact ⟨h, fun _ _ => Iff.rfl⟩
  | some fd =>
    have hfd := hfresh.1 _ _ _ hopen
    cases hmalloc : answers.mallocs with
    | none =>
      have hsame : ∀ q, q ∈ ((s.opened fd).close fd).descriptors ↔ q ∈ s.descriptors := by
        intro q
        rw [Descriptors.mem_close, Descriptors.mem_opened]
        constructor
        · rintro ⟨hq | rfl, hne⟩
          · exact hq
          · exact absurd rfl hne
        · exact fun hq => ⟨Or.inl hq, fun heq => hfd (heq ▸ hq)⟩
      exact ⟨Ledger.congr h hsame, fun _ => hsame⟩
    | some p => exact ⟨h.opened_store hfd (hfresh.2 _ hmalloc) rfl, fun hnull => by cases hnull⟩

theorem freopen_lawful {f : FILE} (h : Accounted initial s) (hfresh : answers.Fresh s)
    (hp : s.objects (.heap p) = some (.file f)) :
    Accounted initial (s.freopen path mode (some (.heap p)) answers).1 ∧
      ((s.freopen path mode (some (.heap p)) answers).2 = none →
        ∀ fd, fd ∈ (s.freopen path mode (some (.heap p)) answers).1.descriptors ↔
          fd ∈ s.descriptors) := by
  unfold Descriptors.freopen
  cases hopen : answers.opens path (modeFlags mode) with
  | none => exact ⟨h, fun _ _ => Iff.rfl⟩
  | some fd =>
    simp only [hp]
    exact ⟨h.swap (hfresh.1 _ _ _ hopen) hp rfl, fun hnull => by cases hnull⟩

end

theorem fclose_eq {f : FILE} (hp : s.objects (.heap p) = some (.file f)) :
    s.fclose (.heap p) = (s.close f.fd).free (.heap p) := by
  unfold Descriptors.fclose
  rw [hp]
  exact congrArg (Descriptors.close · f.fd) (if_pos ⟨by simp, by simp, by simp⟩)

/-- A permitted call obeys the law exactly when it does not leak. -/
theorem FileCall.lawful_iff {call : FileCall} (h : Accounted initial s) (hcall : call.Permitted s) :
    call.Lawful initial s ↔ ¬ call.Leaks := by
  cases call with
  | fopen path mode answers =>
    exact ⟨fun hlaw hleak => fopen_leaks hcall hleak hlaw.2, fopen_lawful h hcall⟩
  | freopen path mode stream answers =>
    cases stream with
    | none =>
      exact ⟨fun hlaw hleak => fopen_leaks hcall.1 hleak hlaw.2, fopen_lawful h hcall.1⟩
    | some a =>
      obtain ⟨p, f, rfl, hp⟩ := hcall.2 a rfl
      exact iff_of_true (freopen_lawful h hcall.1 hp) not_false
  | fclose a =>
    obtain ⟨p, f, rfl, hp⟩ := hcall
    refine iff_of_true ⟨?_, fun f' hf' fd => ?_⟩ not_false
    · change Accounted initial (s.fclose (.heap p))
      rw [fclose_eq hp]
      exact h.close_free hp
    · change fd ∈ (s.fclose (.heap p)).descriptors ↔ _
      obtain rfl : f = f' := by simpa using hp.symm.trans hf'
      rw [fclose_eq hp]
      exact Descriptors.mem_close
  | opendir path answers => exact iff_of_true (opendir_lawful h hcall) not_false
  | closedir dirp =>
    cases dirp with
    | none => exact iff_of_true ⟨h, fun _ => Iff.rfl⟩ not_false
    | some a =>
      obtain ⟨p, own, rfl, hp⟩ := hcall a rfl
      have heq : s.closedir (some (.heap p)) = (s.close own).free (.heap p) := by
        simp only [Descriptors.closedir, hp]
      refine iff_of_true ⟨?_, fun own' hown fd => ?_⟩ not_false
      · change Accounted initial (s.closedir (some (.heap p)))
        have hclosed := h.close_free hp
        exact heq ▸ hclosed
      · change fd ∈ (s.closedir (some (.heap p))).descriptors ↔ _
        obtain rfl : own = own' := by simpa using hp.symm.trans hown
        rw [heq]
        exact Descriptors.mem_close

theorem along_lawful_iff {calls : List FileCall} (h : Accounted initial s)
    (hcalls : Along FileCall.step FileCall.Permitted s calls) :
    Along FileCall.step (FileCall.Lawful initial) s calls ↔ ∀ call ∈ calls, ¬ call.Leaks := by
  induction calls generalizing s with
  | nil => simp [Along]
  | cons call calls ih =>
    rw [List.forall_mem_cons, Along, FileCall.lawful_iff h hcalls.1]
    refine and_congr_right fun hleak => ?_
    exact ih ((FileCall.lawful_iff h hcalls.1).mpr hleak).1 hcalls.2

/-- In a run of permitted calls, after every call the descriptors that were opened are those of
the live streams and directories, and every call obeys its law, exactly when no stream is refused
its memory after its file was opened. -/
theorem descriptors_lawful_iff (initial : List ℤ) (calls : List FileCall)
    (hcalls : Along FileCall.step FileCall.Permitted (.start initial) calls) :
    Along FileCall.step (FileCall.Lawful initial) (.start initial) calls ↔
      ∀ call ∈ calls, ¬ call.Leaks :=
  along_lawful_iff (Descriptors.start_accounted initial) hcalls

def somePath : CString := ⟨[byte 'f'], by decide⟩

/-- An `fopen` for which there is a descriptor and no memory. -/
def refusedFopen : FileCall := .fopen somePath none ⟨fun _ _ => some 3, none⟩

theorem refusedFopen_not_lawful :
    Along FileCall.step FileCall.Permitted (.start [0, 1, 2]) [refusedFopen] ∧
      ¬ Along FileCall.step (FileCall.Lawful [0, 1, 2]) (.start [0, 1, 2]) [refusedFopen] := by
  have hcalls : Along FileCall.step FileCall.Permitted (.start [0, 1, 2]) [refusedFopen] := by
    refine ⟨⟨fun path flags fd hfd => ?_, fun p hp => ?_⟩, trivial⟩
    · obtain rfl := Option.some.inj hfd
      decide
    · cases hp
  refine ⟨hcalls, fun hlaw => ?_⟩
  exact (along_lawful_iff (Descriptors.start_accounted _) hcalls).mp hlaw refusedFopen
    List.mem_cons_self ⟨rfl, rfl⟩

def orderlyCalls : List FileCall :=
  [.fopen somePath none ⟨fun _ _ => some 3, some 1⟩, .opendir somePath ⟨fun _ _ => some 4, none⟩,
    .freopen somePath none (some (.heap 1)) ⟨fun _ _ => some 5, none⟩, .fclose (.heap 1)]

theorem orderlyCalls_lawful :
    Along FileCall.step FileCall.Permitted (.start [0, 1, 2]) orderlyCalls ∧
      (Along FileCall.step (FileCall.Lawful [0, 1, 2]) (.start [0, 1, 2]) orderlyCalls ↔
        ∀ call ∈ orderlyCalls, ¬ call.Leaks) := by
  have hcalls : Along FileCall.step FileCall.Permitted (.start [0, 1, 2]) orderlyCalls := by
    refine ⟨⟨fun path flags fd hfd => ?_, fun p hp => ?_⟩,
      ⟨fun path flags fd hfd => ?_, fun p hp => ?_⟩,
      ⟨⟨fun path flags fd hfd => ?_, fun p hp => ?_⟩, fun a ha => ?_⟩, ⟨1, _, rfl, rfl⟩, trivial⟩
    · obtain rfl := Option.some.inj hfd
      decide
    · rfl
    · obtain rfl := Option.some.inj hfd
      decide
    · cases hp
    · obtain rfl := Option.some.inj hfd
      decide
    · cases hp
    · obtain rfl := Option.some.inj ha
      exact ⟨1, _, rfl, rfl⟩
  exact ⟨hcalls, descriptors_lawful_iff [0, 1, 2] orderlyCalls hcalls⟩

end LampUserspace.Stdio
