import LampUserspace.Stdio.Channel

/-! # The indicators of a stream

What has happened on a stream since an indicator was cleared says what the
indicator should be. No function sets the error indicator, a failed read sets
the other one, and `fgets` sets neither; everything else keeps both.
-/

namespace LampUserspace.Stdio

universe u

namespace Event

def failed : Event → Bool
  | .read none => true
  | .write none => true
  | _ => false

def atEnd : Event → Bool
  | .read (some []) => true
  | _ => false

def isData : Event → Bool
  | .read (some (_ :: _)) => true
  | _ => false

def clearsEof : Event → Bool
  | .seek | .ungetc | .clearerr => true
  | _ => false

def clearsErr : Event → Bool
  | .clearerr => true
  | _ => false

end Event

/-- The events since the last one that clears; a log starts with its latest event. -/
def since (clears : Event → Bool) (log : List Event) : List Event := log.takeWhile (!clears ·)

/-- A read has met the end of the file since the end-of-file indicator was cleared. -/
def MetEnd (log : List Event) : Prop := ∃ e ∈ since Event.clearsEof log, e.atEnd

/-- A read or a write has failed since the error indicator was cleared. -/
def MetFailure (log : List Event) : Prop := ∃ e ∈ since Event.clearsErr log, e.failed

@[simp] theorem not_metEnd_nil : ¬ MetEnd [] := by simp [MetEnd, since]
@[simp] theorem not_metFailure_nil : ¬ MetFailure [] := by simp [MetFailure, since]

@[simp]
theorem metEnd_cons {e : Event} {log : List Event} :
    MetEnd (e :: log) ↔ e.clearsEof = false ∧ (e.atEnd ∨ MetEnd log) := by
  cases h : e.clearsEof <;> simp [MetEnd, since, h]

@[simp]
theorem metFailure_cons {e : Event} {log : List Event} :
    MetFailure (e :: log) ↔ e.clearsErr = false ∧ (e.failed ∨ MetFailure log) := by
  cases h : e.clearsErr <;> simp [MetFailure, since, h]

theorem Event.isData_cases {e : Event} (h : e.isData) :
    e.clearsEof = false ∧ e.clearsErr = false ∧ e.atEnd = false ∧ e.failed = false := by
  rcases e with (_ | _ | ⟨ch, got⟩) | _ | _ | _ | _ <;>
    simp_all [isData, clearsEof, clearsErr, atEnd, failed]

theorem met_append_data {got : List Event} (log : List Event) (h : ∀ e ∈ got, e.isData) :
    (MetEnd (got ++ log) ↔ MetEnd log) ∧ (MetFailure (got ++ log) ↔ MetFailure log) := by
  induction got with
  | nil => simp
  | cons e got ih =>
    obtain ⟨heof, herr, hend, hfail⟩ := Event.isData_cases (h e List.mem_cons_self)
    obtain ⟨ih, ih'⟩ := ih fun e he => h e (List.mem_cons_of_mem _ he)
    simp [heof, herr, hend, hfail, ih, ih']

/-- The calls on a stream that may set or clear an indicator. -/
inductive ChannelCall where
  | fgetc
  | fgets (size : ℤ)
  | fread (size nmemb : ℕ)
  | getline (alloc : ℕ → Bool) (lineptr : Bool) (n : ℕ)
  | fputc (ch : Int32)
  | fputs (s : List UInt8)
  | fwrite (bytes : List UInt8) (size : ℕ)
  | ungetc (ch : Int32)
  | fseeko (offset : Int32) (whence : Kernel.Whence)
  | rewind
  | clearerr

def ChannelCall.isFgets : ChannelCall → Bool
  | .fgets _ => true
  | _ => false

namespace Channel

variable {κ : Type u}

/-- The state after a call; a `getline` returns within the given number of rounds. -/
def step (dev : Device κ) (rounds : ℕ) (c : Channel κ) : ChannelCall → Option (Channel κ)
  | .fgetc => some (c.fgetc dev).2
  | .fgets size => some (c.fgets dev size).2
  | .fread size nmemb => some (c.fread dev size nmemb).2.2
  | .getline alloc lineptr n => (c.getline dev alloc rounds lineptr n).map (·.2.2.2)
  | .fputc ch => some (c.fputc dev ch).2
  | .fputs s => some (c.fputs dev s).2
  | .fwrite bytes size => some (c.fwrite dev bytes size).2
  | .ungetc ch => some (c.ungetc ch).2
  | .fseeko offset whence => some (c.fseeko dev offset whence).2
  | .rewind => some (c.rewind dev)
  | .clearerr => some c.clearerr

def opened (fd : ℤ) (k : κ) : Channel κ := ⟨⟨fd, false, false, -1⟩, k, []⟩

structure Indicated (c : Channel κ) : Prop where
  feof : c.feof = true ↔ MetEnd c.log
  ferror : c.ferror = true ↔ MetFailure c.log

/-- What has happened from one state to another. -/
def added (c c' : Channel κ) : List Event := c'.log.take (c'.log.length - c.log.length)

/-- A call misleads when a `read` or a `write` that it makes fails, and when it is an `fgets` that
meets the end of the file while the indicator is clear. -/
def Misleads (isFgets : Bool) (c c' : Channel κ) : Prop :=
  (∃ e ∈ added c c', e.failed) ∨ isFgets ∧ c.feof = false ∧ ∃ e ∈ added c c', e.atEnd

theorem added_of_append {c c' : Channel κ} {new : List Event} (h : c'.log = new ++ c.log) :
    added c c' = new := by
  simp [added, h]

/-! ## Reading -/

/-- From one state to the other, nothing but data has come. -/
structure Passes (c c' : Channel κ) : Prop where
  log : ∃ got, c'.log = got ++ c.log ∧ ∀ e ∈ got, Event.isData e
  feof : c'.feof = c.feof
  ferror : c'.ferror = c.ferror

theorem Passes.refl (c : Channel κ) : Passes c c := ⟨⟨[], rfl, by simp⟩, rfl, rfl⟩

theorem Passes.trans {c c' c'' : Channel κ} (h : Passes c c') (h' : Passes c' c'') :
    Passes c c'' := by
  obtain ⟨⟨got, hlog, hgot⟩, hfeof, hferror⟩ := h
  obtain ⟨⟨got', hlog', hgot'⟩, hfeof', hferror'⟩ := h'
  refine ⟨⟨got' ++ got, by rw [hlog', hlog, List.append_assoc], ?_⟩, hfeof'.trans hfeof,
    hferror'.trans hferror⟩
  intro e he
  exact (List.mem_append.mp he).elim (hgot' e) (hgot e)

/-- A reading function lets data pass and may then come to a read without any; `sets` tells
whether it sets the indicator there. -/
inductive Reads (sets : Bool) (c c'' : Channel κ) : Prop
  | passes (h : Passes c c'')
  | stops (c' : Channel κ) (h : Passes c c') (answer : Option (List UInt8))
      (hstop : answer = none ∨ answer = some []) (hlog : c''.log = .read answer :: c'.log)
      (hfeof : c''.feof = (sets || c'.feof)) (hferror : c''.ferror = c'.ferror)

theorem Reads.of_passes {sets : Bool} {c c' c'' : Channel κ} (h : Passes c c')
    (h' : Reads sets c' c'') : Reads sets c c'' := by
  rcases h' with h' | ⟨c₁, h', answer, hstop, hlog, hfeof, hferror⟩
  · exact .passes (h.trans h')
  · exact .stops c₁ (h.trans h') answer hstop hlog hfeof hferror

section

variable {dev : Device κ}

theorem passes_pop (c : Channel κ) : Passes c { c with stream.pushback := -1 } :=
  ⟨⟨[], rfl, by simp⟩, rfl, rfl⟩

theorem passes_of_data {n : ℕ} {c : Channel κ} {ch : UInt8} {got : List UInt8}
    (h : (c.sysRead dev n).1 = some (ch :: got)) : Passes c (c.sysRead dev n).2 :=
  ⟨⟨[.read (some (ch :: got))], by rw [← h]; rfl, by simp [Event.isData]⟩, rfl, rfl⟩

theorem stop_of_not_data {answer : Option (List UInt8)}
    (h : ∀ ch got, answer ≠ some (ch :: got)) : answer = none ∨ answer = some [] := by
  rcases answer with _ | _ | ⟨ch, got⟩
  · exact Or.inl rfl
  · exact Or.inr rfl
  · exact absurd rfl (h ch got)

/-- A read of one byte that does not deliver one delivers nothing. -/
theorem stop_of_not_byte {c : Channel κ} (h : ∀ ch, (c.sysRead dev 1).1 ≠ some [ch]) :
    (c.sysRead dev 1).1 = none ∨ (c.sysRead dev 1).1 = some [] := by
  apply stop_of_not_data
  intro ch got hread
  obtain rfl : got = [] := List.length_eq_zero_iff.mp (by simpa using dev.read_le _ _ _ hread)
  exact h ch hread

theorem fgetc_reads (dev : Device κ) (c : Channel κ) :
    Reads true c (fgetc dev c).2 ∧ ((fgetc dev c).1 ≠ -1 → Passes c (fgetc dev c).2) := by
  unfold fgetc
  split
  · exact ⟨.passes (passes_pop c), fun _ => passes_pop c⟩
  · split
    case h_1 ch hread =>
      have hpass := passes_of_data hread
      exact ⟨.passes hpass, fun _ => hpass⟩
    case h_2 hread =>
      refine ⟨.stops c (.refl c) _ (stop_of_not_byte hread) rfl rfl rfl, fun h => absurd rfl h⟩

theorem freadLoop_reads (total : ℕ) (out : List UInt8) (c : Channel κ) :
    Reads true c (freadLoop dev total out c).2 := by
  fun_induction freadLoop dev total out c with
  | case1 out c hlt hpush ih => exact .of_passes (passes_pop c) ih
  | case2 out c hlt hpush ch got hread ih => exact .of_passes (passes_of_data hread) ih
  | case3 out c hlt hpush hread =>
    exact .stops c (.refl c) _ (stop_of_not_data hread) rfl rfl rfl
  | case4 out c hlt => exact .passes (.refl c)

theorem fgetsLoop_reads (room : ℕ) (s : List UInt8) (c : Channel κ) :
    Reads false c (fgetsLoop dev room s c).2 := by
  induction room generalizing s c with
  | zero => exact .passes (.refl c)
  | succ room ih =>
    unfold fgetsLoop
    split
    case h_1 ch hread =>
      split
      · exact .passes (passes_of_data hread)
      · exact .of_passes (passes_of_data hread) (ih _ _)
    case h_2 hread => exact .stops c (.refl c) _ (stop_of_not_byte hread) rfl rfl rfl

theorem getlineLoop_reads {alloc : ℕ → Bool} {rounds cap : ℕ} {buf : List UInt8} {c : Channel κ}
    {r : Option (Bool × ℕ × List UInt8) × Channel κ}
    (h : getlineLoop dev alloc rounds cap buf c = some r) : Reads true c r.2 := by
  induction rounds generalizing cap buf c with
  | zero => cases h
  | succ rounds ih =>
    obtain ⟨hreads, hpass⟩ := fgetc_reads dev c
    rw [getlineLoop] at h
    by_cases hend : (fgetc dev c).1 = -1
    · rw [if_pos hend] at h
      cases h
      exact hreads
    · rw [if_neg hend] at h
      dsimp only at h
      generalize (if buf.length + 1 ≥ cap then cap * 2 % 2 ^ 32 else cap) = cap' at h
      split at h
      · cases h
        exact hreads
      · split at h
        · cases h
          exact hreads
        · exact .of_passes (hpass hend) (ih h)

theorem getline_reads {alloc : ℕ → Bool} {rounds n : ℕ} {lineptr : Bool} {c : Channel κ}
    {r : ℤ × List UInt8 × ℕ × Channel κ}
    (h : getline dev alloc rounds lineptr n c = some r) : Reads true c r.2.2.2 := by
  unfold getline at h
  dsimp only at h
  generalize (if n ≠ 0 then n else 128) = cap at h
  split at h
  · cases h
    exact .passes (.refl c)
  · obtain ⟨⟨line, c'⟩, hloop, hret⟩ := Option.bind_eq_some_iff.mp h
    have hreads := getlineLoop_reads hloop
    rcases line with _ | ⟨eof, cap, buf⟩
    · cases hret
      exact hreads
    · dsimp only at hret
      split at hret <;> cases hret <;> exact hreads

end

/-! ## One call -/

/-- Data leaves the indicators right, and no call misleads by it. -/
theorem Passes.indicated_iff {c c' : Channel κ} (h : Passes c c') (isFgets : Bool)
    (hc : Indicated c) (herr : c.ferror = false) :
    (Indicated c' ↔ ¬ Misleads isFgets c c') ∧ c'.ferror = false := by
  obtain ⟨⟨got, hlog, hgot⟩, hfeof, hferror⟩ := h
  obtain ⟨hend, hfail⟩ := met_append_data c.log hgot
  refine ⟨⟨fun _ => ?_, fun _ => ⟨?_, ?_⟩⟩, hferror.trans herr⟩
  · rw [Misleads, added_of_append hlog]
    rintro (⟨e, he, hbad⟩ | ⟨-, -, e, he, hbad⟩)
    · exact absurd hbad (by simp [Event.isData_cases (hgot e he)])
    · exact absurd hbad (by simp [Event.isData_cases (hgot e he)])
  · rw [hfeof, hlog, hend, hc.feof]
  · rw [hferror, hlog, hfail, hc.ferror]

section Stops

variable {c c' : Channel κ} {got : List Event} (hgot : ∀ e ∈ got, Event.isData e)
  (herr' : c'.ferror = false)

include herr'

theorem indicated_iff_of_failed (isFgets : Bool)
    (hlog : c'.log = (.read none :: got) ++ c.log) : Indicated c' ↔ ¬ Misleads isFgets c c' := by
  constructor
  · intro h
    have hmet := h.ferror.mpr (by simp [hlog, Event.clearsErr, Event.failed])
    exact absurd hmet (by simp [herr'])
  · intro h
    refine absurd (Or.inl ⟨.read none, ?_, rfl⟩) h
    rw [added_of_append hlog]
    exact List.mem_cons_self

include hgot

/-- At the end of the file the indicator is right when it is set now or was set before. -/
theorem indicated_iff_of_end {sets : Bool} (hc : Indicated c) (herr : c.ferror = false)
    (hlog : c'.log = (.read (some []) :: got) ++ c.log) (hfeof : c'.feof = (sets || c.feof)) :
    Indicated c' ↔ ¬ Misleads (!sets) c c' := by
  have hmet : MetEnd c'.log := by simp [hlog, Event.clearsEof, Event.atEnd]
  have hfail : ¬ MetFailure c'.log := by
    rw [hlog, List.cons_append, metFailure_cons, (met_append_data c.log hgot).2, ← hc.ferror, herr]
    simp [Event.failed]
  have hquiet : ∀ e ∈ added c c', e.failed = false := by
    rw [added_of_append hlog]
    rintro e (⟨⟩ | ⟨-, he⟩)
    · rfl
    · exact (Event.isData_cases (hgot e he)).2.2.2
  have hatEnd : ∃ e ∈ added c c', e.atEnd := by
    rw [added_of_append hlog]
    exact ⟨_, List.mem_cons_self, rfl⟩
  have hind : Indicated c' ↔ c'.feof = true := by
    constructor
    · exact fun h => h.feof.mpr hmet
    · exact fun h => ⟨by simp [h, hmet], by simp [herr', hfail]⟩
  have hmis : Misleads (!sets) c c' ↔ sets = false ∧ c.feof = false := by
    constructor
    · rintro (⟨e, he, hbad⟩ | ⟨hsets, hclear, -⟩)
      · exact absurd hbad (by simp [hquiet e he])
      · exact ⟨by simpa using hsets, hclear⟩
    · rintro ⟨rfl, hclear⟩
      exact Or.inr ⟨rfl, hclear, hatEnd⟩
  rw [hind, hmis, hfeof]
  cases sets <;> simp

end Stops

/-- After a read, the indicators tell what has happened unless the call misleads. -/
theorem Reads.indicated_iff {sets : Bool} {c c' : Channel κ} (h : Reads sets c c')
    (hc : Indicated c) (herr : c.ferror = false) :
    (Indicated c' ↔ ¬ Misleads (!sets) c c') ∧ c'.ferror = false := by
  rcases h with h |
    ⟨c₁, ⟨⟨got, hlog₁, hgot⟩, hfeof₁, hferror₁⟩, answer, hstop, hlog, hfeof, hferror⟩
  · exact h.indicated_iff _ hc herr
  · rw [hlog₁, ← List.cons_append] at hlog
    rw [hfeof₁] at hfeof
    have herr' : c'.ferror = false := by rw [hferror, hferror₁, herr]
    refine ⟨?_, herr'⟩
    rcases hstop with rfl | rfl
    · exact indicated_iff_of_failed herr' _ hlog
    · exact indicated_iff_of_end hgot herr' hc herr hlog hfeof

theorem not_metFailure_append {new log : List Event} (hnew : ∀ e ∈ new, e.failed = false)
    (hlog : ¬ MetFailure log) : ¬ MetFailure (new ++ log) := by
  induction new with
  | nil => exact hlog
  | cons e new ih =>
    rw [List.cons_append, metFailure_cons, hnew e List.mem_cons_self]
    rintro ⟨-, h | h⟩
    · cases h
    · exact ih (fun e he => hnew e (List.mem_cons_of_mem _ he)) h

theorem Indicated.not_metFailure {c : Channel κ} (hc : Indicated c) (herr : c.ferror = false) :
    ¬ MetFailure c.log := by
  rw [← hc.ferror, herr]
  exact Bool.false_ne_true

theorem not_misleads_of_quiet {c c' : Channel κ} {new : List Event}
    (hlog : c'.log = new ++ c.log) (hnew : ∀ e ∈ new, e.failed = false) :
    ¬ Misleads false c c' := by
  rintro (⟨e, he, hbad⟩ | ⟨h, -⟩)
  · rw [added_of_append hlog] at he
    rw [hnew e he] at hbad
    cases hbad
  · cases h

/-- A call that clears the end-of-file indicator, and whose other events are no failures. -/
theorem indicated_iff_of_cleared {c c' : Channel κ} {e : Event}
    (new : List Event) (hlog : c'.log = e :: new ++ c.log) (he : e.clearsEof)
    (hnew : ∀ e' ∈ e :: new, e'.failed = false) (hfeof : c'.feof = false)
    (hferror : c'.ferror = false) (hc : Indicated c) (herr : c.ferror = false) :
    (Indicated c' ↔ ¬ Misleads false c c') ∧ c'.ferror = false := by
  have hfail : ¬ MetFailure c'.log := hlog ▸ not_metFailure_append hnew (hc.not_metFailure herr)
  have hend : ¬ MetEnd c'.log := by simp [hlog, he]
  refine ⟨⟨fun _ => not_misleads_of_quiet hlog hnew, fun _ => ⟨?_, ?_⟩⟩, hferror⟩
  · simp [hfeof, hend]
  · simp [hferror, hfail]

/-- A write changes no indicator, which is right unless it fails. -/
theorem sysWrite_indicated_iff (dev : Device κ) (bytes : List UInt8) {c : Channel κ}
    (hc : Indicated c) (herr : c.ferror = false) :
    (Indicated (c.sysWrite dev bytes).2 ↔ ¬ Misleads false c (c.sysWrite dev bytes).2) ∧
      (c.sysWrite dev bytes).2.ferror = false := by
  have hlog : (c.sysWrite dev bytes).2.log = [.write (c.sysWrite dev bytes).1] ++ c.log := rfl
  refine ⟨?_, herr⟩
  rcases hwrite : (c.sysWrite dev bytes).1 with _ | n
  · rw [hwrite] at hlog
    constructor
    · intro h
      have hmet := h.ferror.mpr (by simp [hlog, Event.clearsErr, Event.failed])
      exact absurd (hmet.symm.trans herr) Bool.noConfusion
    · intro h
      refine absurd (Or.inl ⟨.write none, ?_, rfl⟩) h
      rw [added_of_append hlog]
      exact List.mem_cons_self
  · rw [hwrite] at hlog
    have hquiet : ∀ e ∈ [Event.write (some n)], e.failed = false := by simp [Event.failed]
    refine ⟨fun _ => not_misleads_of_quiet hlog hquiet, fun _ => ⟨?_, ?_⟩⟩
    · rw [hlog, List.singleton_append, metEnd_cons]
      simpa [Event.clearsEof, Event.atEnd, feof, sysWrite] using hc.feof
    · rw [hlog, List.singleton_append, metFailure_cons]
      simpa [Event.clearsErr, Event.failed, ferror, sysWrite] using hc.ferror

theorem ungetc_indicated_iff (ch : Int32) {c : Channel κ} (hc : Indicated c)
    (herr : c.ferror = false) :
    (Indicated (ungetc ch c).2 ↔ ¬ Misleads false c (ungetc ch c).2) ∧
      (ungetc ch c).2.ferror = false := by
  unfold ungetc
  split
  · exact (Passes.refl c).indicated_iff false hc herr
  · exact indicated_iff_of_cleared [] rfl rfl (by simp [Event.failed]) rfl herr hc herr

theorem fseeko_indicated_iff (dev : Device κ) (offset : Int32) (whence : Kernel.Whence)
    {c : Channel κ} (hc : Indicated c) (herr : c.ferror = false) :
    (Indicated (fseeko dev offset whence c).2 ↔
        ¬ Misleads false c (fseeko dev offset whence c).2) ∧
      (fseeko dev offset whence c).2.ferror = false := by
  unfold fseeko
  split
  case h_1 k _ =>
    have hpass : Passes c { c with kernel := k } := ⟨⟨[], rfl, by simp⟩, rfl, rfl⟩
    exact hpass.indicated_iff false hc herr
  case h_2 =>
    exact indicated_iff_of_cleared [] rfl rfl (by simp [Event.failed]) rfl herr hc herr

theorem clearerr_indicated_iff {c : Channel κ} (hc : Indicated c) (herr : c.ferror = false) :
    (Indicated c.clearerr ↔ ¬ Misleads false c c.clearerr) ∧ c.clearerr.ferror = false :=
  indicated_iff_of_cleared [] rfl rfl (by simp [Event.failed]) rfl rfl hc herr

theorem rewind_indicated_iff (dev : Device κ) {c : Channel κ} (hc : Indicated c)
    (herr : c.ferror = false) :
    (Indicated (rewind dev c) ↔ ¬ Misleads false c (rewind dev c)) ∧
      (rewind dev c).ferror = false := by
  unfold rewind fseeko
  split
  · exact indicated_iff_of_cleared [] rfl rfl (by simp [Event.failed]) rfl rfl hc herr
  · exact indicated_iff_of_cleared [.seek] rfl rfl (by simp [Event.failed]) rfl rfl hc herr

theorem step_indicated_iff {dev : Device κ} {rounds : ℕ} {c c' : Channel κ} {call : ChannelCall}
    (h : c.step dev rounds call = some c') (hc : Indicated c) (herr : c.ferror = false) :
    (Indicated c' ↔ ¬ Misleads call.isFgets c c') ∧ c'.ferror = false := by
  cases call with
  | fgetc =>
    cases h
    exact (fgetc_reads dev c).1.indicated_iff hc herr
  | fgets size =>
    cases h
    unfold fgets
    split
    · exact (Passes.refl c).indicated_iff true hc herr
    · exact (fgetsLoop_reads _ _ c).indicated_iff hc herr
  | fread size nmemb =>
    cases h
    unfold fread
    split
    · exact (Passes.refl c).indicated_iff false hc herr
    · exact (freadLoop_reads _ _ c).indicated_iff hc herr
  | getline alloc lineptr n =>
    obtain ⟨r, hline, rfl⟩ := Option.map_eq_some_iff.mp h
    exact (getline_reads hline).indicated_iff hc herr
  | fputc ch =>
    cases h
    exact sysWrite_indicated_iff dev _ hc herr
  | fputs s =>
    cases h
    exact sysWrite_indicated_iff dev s hc herr
  | fwrite bytes size =>
    cases h
    have hwrite := sysWrite_indicated_iff dev bytes hc herr
    unfold fwrite
    dsimp only
    split <;> exact hwrite
  | ungetc ch =>
    cases h
    exact ungetc_indicated_iff ch hc herr
  | fseeko offset whence =>
    cases h
    exact fseeko_indicated_iff dev offset whence hc herr
  | rewind =>
    cases h
    exact rewind_indicated_iff dev hc herr
  | clearerr =>
    cases h
    exact clearerr_indicated_iff hc herr

/-! ## Runs -/

def RunIndicated (dev : Device κ) (rounds : ℕ) (c : Channel κ) (calls : List ChannelCall) : Prop :=
  Total.Along (step dev rounds)
    (fun c call => ∀ c', c.step dev rounds call = some c' → Indicated c') c calls

def RunQuiet (dev : Device κ) (rounds : ℕ) (c : Channel κ) (calls : List ChannelCall) : Prop :=
  Total.Along (step dev rounds)
    (fun c call => ∀ c', c.step dev rounds call = some c' → ¬ Misleads call.isFgets c c') c calls

theorem runIndicated_iff {dev : Device κ} {rounds : ℕ} {c : Channel κ} (calls : List ChannelCall)
    (hc : Indicated c) (herr : c.ferror = false) :
    RunIndicated dev rounds c calls ↔ RunQuiet dev rounds c calls := by
  induction calls generalizing c with
  | nil => exact Iff.rfl
  | cons call calls ih =>
    constructor
    · rintro ⟨hstep, hrun⟩
      refine ⟨fun c' h => (step_indicated_iff h hc herr).1.mp (hstep c' h), fun c' h => ?_⟩
      exact (ih (hstep c' h) (step_indicated_iff h hc herr).2).mp (hrun c' h)
    · rintro ⟨hstep, hrun⟩
      have hind : ∀ c', c.step dev rounds call = some c' → Indicated c' :=
        fun c' h => (step_indicated_iff h hc herr).1.mpr (hstep c' h)
      exact ⟨hind, fun c' h => (ih (hind c' h) (step_indicated_iff h hc herr).2).mpr (hrun c' h)⟩

/-- In a run on a new stream the indicators always tell what has happened just when no call fails
to record it. -/
theorem indicators_tell_iff (dev : Device κ) (rounds : ℕ) (fd : ℤ) (k : κ)
    (calls : List ChannelCall) :
    RunIndicated dev rounds (opened fd k) calls ↔ RunQuiet dev rounds (opened fd k) calls :=
  runIndicated_iff calls ⟨by simp [opened, feof], by simp [opened, ferror]⟩ rfl

def refusing : Device Unit where
  read _ _ := (none, ())
  write _ _ := (none, ())
  lseek _ _ _ := (none, ())
  read_le := nofun
  write_le := nofun

/-- A failed read shows as the end of the file, and the end of the file not at all in `fgets`. -/
theorem refused_fgetc_not_indicated :
    (fgetc refusing (opened 3 ())).2.feof = true ∧
      ¬ RunIndicated refusing 1 (opened 3 ()) [.fgetc] ∧
      ¬ RunIndicated fileDevice 1 (opened 3 ⟨[], 0, fun _ => 0, by decide, by decide⟩)
        [.fgets 2] := by
  refine ⟨rfl, fun h => ?_, fun h => ?_⟩
  · have hfail : MetFailure (fgetc refusing (opened 3 ())).2.log :=
      metFailure_cons.mpr ⟨rfl, Or.inl rfl⟩
    exact absurd ((h.1 _ rfl).ferror.mpr hfail) Bool.noConfusion
  · have hend : MetEnd (fgets fileDevice 2
        (opened 3 ⟨[], 0, fun _ => 0, by decide, by decide⟩)).2.log :=
      metEnd_cons.mpr ⟨rfl, Or.inl rfl⟩
    exact absurd ((h.1 _ rfl).feof.mpr hend) Bool.noConfusion

end Channel

end LampUserspace.Stdio
