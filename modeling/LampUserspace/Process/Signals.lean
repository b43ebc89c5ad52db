import LampUserspace.Refinement.Runs
import Mathlib.Data.Set.Insert
import Mathlib.Logic.Function.Basic

/-! # Signal sets and signal actions

The signal sets of `libc_signal.c` are sets of the signals from 1 to 32, over any
run of their operations. No run of `sigaction` and `signal` gives the kernel a
handler without a restorer, and so an action that `sigaction` reported is put back
exactly.
-/

namespace LampUserspace.Process

/-! ## Signal sets -/

abbrev Sigset := BitVec 32

def sigemptyset (_ : Sigset) : Sigset := 0

def sigfillset (_ : Sigset) : Sigset := 0xffffffff

def sigaddset (set : Sigset) (sig : ℤ) : Sigset :=
  if sig > 0 ∧ sig ≤ 32 then set ||| 1#32 <<< (sig - 1).toNat else set

def sigdelset (set : Sigset) (sig : ℤ) : Sigset :=
  if sig > 0 ∧ sig ≤ 32 then set &&& ~~~(1#32 <<< (sig - 1).toNat) else set

def sigismember (set : Option Sigset) (sig : ℤ) : ℤ :=
  match set with
  | some set =>
    if sig > 0 ∧ sig ≤ 32 then if set &&& 1#32 <<< (sig - 1).toNat ≠ 0 then 1 else 0 else 0
  | none => 0

def sigisemptyset (set : Option Sigset) : ℤ :=
  match set with
  | some set => if set = 0 then 1 else 0
  | none => 1

inductive SetCall
  | sigemptyset
  | sigfillset
  | sigaddset (sig : ℤ)
  | sigdelset (sig : ℤ)
  | sigismember (sig : ℤ)
  | sigisemptyset

def SetCall.step (set : Sigset) : SetCall → Sigset × ℤ
  | .sigemptyset => (Process.sigemptyset set, 0)
  | .sigfillset => (Process.sigfillset set, 0)
  | .sigaddset sig => (Process.sigaddset set sig, 0)
  | .sigdelset sig => (Process.sigdelset set sig, 0)
  | .sigismember sig => (set, Process.sigismember (some set) sig)
  | .sigisemptyset => (set, Process.sigisemptyset (some set))

def allSignals : Set ℤ := {sig | 1 ≤ sig ∧ sig ≤ 32}

def signals (set : Sigset) : Set ℤ :=
  {sig | sig ∈ allSignals ∧ set.getLsbD (sig - 1).toNat = true}

open Classical in
noncomputable def SetCall.spec (set : Set ℤ) : SetCall → Set ℤ × ℤ
  | .sigemptyset => (∅, 0)
  | .sigfillset => (allSignals, 0)
  | .sigaddset sig => (set ∪ {sig} ∩ allSignals, 0)
  | .sigdelset sig => (set \ {sig}, 0)
  | .sigismember sig => (set, if sig ∈ set then 1 else 0)
  | .sigisemptyset => (set, if set = ∅ then 1 else 0)

section Sets

variable {set : Sigset} {sig s : ℤ}

theorem mem_allSignals : s ∈ allSignals ↔ 1 ≤ s ∧ s ≤ 32 := Iff.rfl

theorem mem_signals : s ∈ signals set ↔ (1 ≤ s ∧ s ≤ 32) ∧ set.getLsbD (s - 1).toNat = true :=
  Iff.rfl

theorem getLsbD_signal (hs : 1 ≤ s ∧ s ≤ 32) (hsig : sig > 0 ∧ sig ≤ 32) :
    (1#32 <<< (sig - 1).toNat).getLsbD (s - 1).toNat = decide (s = sig) := by
  rw [BitVec.getLsbD_shiftLeft, BitVec.getLsbD_one, Bool.eq_iff_iff]
  simp only [Bool.and_eq_true, decide_eq_true_eq, Bool.not_eq_true', decide_eq_false_iff_not]
  omega

theorem signals_sigaddset (set : Sigset) (sig : ℤ) :
    signals (sigaddset set sig) = signals set ∪ {sig} ∩ allSignals := by
  ext s
  rw [Set.mem_union, Set.mem_inter_iff, Set.mem_singleton_iff, mem_signals, mem_signals,
    mem_allSignals]
  unfold sigaddset
  split
  case isTrue hsig =>
    by_cases hs : 1 ≤ s ∧ s ≤ 32
    · rw [BitVec.getLsbD_or, getLsbD_signal hs hsig]
      simp [hs]
    · simp [hs]
  case isFalse hsig =>
    constructor
    · exact .inl
    · rintro (h | ⟨rfl, h⟩)
      · exact h
      · exact absurd ⟨by omega, h.2⟩ hsig

theorem signals_sigdelset (set : Sigset) (sig : ℤ) :
    signals (sigdelset set sig) = signals set \ {sig} := by
  ext s
  rw [Set.mem_sdiff, Set.mem_singleton_iff, mem_signals, mem_signals]
  unfold sigdelset
  split
  case isTrue hsig =>
    by_cases hs : 1 ≤ s ∧ s ≤ 32
    · have hbit : (s - 1).toNat < 32 := by omega
      rw [BitVec.getLsbD_and, BitVec.getLsbD_not, getLsbD_signal hs hsig, decide_eq_true hbit]
      simp [hs]
    · simp [hs]
  case isFalse hsig =>
    constructor
    · rintro ⟨hs, hbit⟩
      refine ⟨⟨hs, hbit⟩, ?_⟩
      rintro rfl
      exact hsig ⟨by omega, hs.2⟩
    · exact And.left

/-- A set has no bit in common with one signal if it does not have the signal. -/
theorem and_signal_ne_zero_iff (hsig : sig > 0 ∧ sig ≤ 32) :
    set &&& 1#32 <<< (sig - 1).toNat ≠ 0 ↔ set.getLsbD (sig - 1).toNat = true := by
  constructor
  · intro hne
    by_contra hbit
    rw [Bool.not_eq_true] at hbit
    refine hne (BitVec.eq_of_getLsbD_eq fun i hi => ?_)
    have hsignal := getLsbD_signal (s := i + 1) ⟨by omega, by omega⟩ hsig
    rw [Int.add_sub_cancel, Int.toNat_natCast] at hsignal
    rw [BitVec.getLsbD_and, hsignal]
    by_cases heq : (i : ℤ) + 1 = sig
    · rw [← heq, Int.add_sub_cancel, Int.toNat_natCast] at hbit
      simp [hbit]
    · simp [heq]
  · intro hbit hzero
    have hsignal := getLsbD_signal (s := sig) ⟨by omega, hsig.2⟩ hsig
    have hand := congrArg (BitVec.getLsbD · (sig - 1).toNat) hzero
    simp only [BitVec.getLsbD_and, hsignal, hbit] at hand
    simp at hand

theorem sigismember_eq (set : Sigset) (sig : ℤ) [Decidable (sig ∈ signals set)] :
    sigismember (some set) sig = if sig ∈ signals set then 1 else 0 := by
  unfold sigismember
  dsimp only
  by_cases hsig : sig > 0 ∧ sig ≤ 32
  · have hiff : sig ∈ signals set ↔ set &&& 1#32 <<< (sig - 1).toNat ≠ 0 := by
      rw [and_signal_ne_zero_iff hsig, mem_signals, and_iff_right ⟨by omega, hsig.2⟩]
    rw [if_pos hsig]
    simp only [hiff]
  · have hnot : sig ∉ signals set := fun h => hsig ⟨by have := h.1.1; omega, h.1.2⟩
    rw [if_neg hsig, if_neg hnot]

theorem signals_eq_empty_iff : signals set = ∅ ↔ set = 0 := by
  rw [Set.eq_empty_iff_forall_notMem]
  constructor
  · intro h
    apply BitVec.eq_of_getLsbD_eq
    intro i hi
    have hnot := h (i + 1)
    rw [mem_signals, and_iff_right (by omega), Int.add_sub_cancel, Int.toNat_natCast,
      Bool.not_eq_true] at hnot
    rw [hnot]
    simp
  · rintro rfl s h
    simp [mem_signals] at h

theorem signals_sigfillset (set : Sigset) : signals (sigfillset set) = allSignals := by
  have hall : ∀ i < 32, (0xffffffff : Sigset).getLsbD i = true := by decide
  ext s
  rw [mem_signals, mem_allSignals]
  exact and_iff_left_of_imp fun hs => hall _ (by omega)

theorem sigset_refines :
    Refinement.Refines SetCall.step SetCall.spec signals (fun _ => True) (fun _ _ => True) where
  keeps _ _ _ _ := trivial
  simulates set call _ _ := by
    cases call with
    | sigemptyset =>
      have hempty : signals (sigemptyset set) = ∅ := signals_eq_empty_iff.mpr rfl
      simp only [SetCall.spec, SetCall.step, hempty]
    | sigfillset => simp only [SetCall.spec, SetCall.step, signals_sigfillset]
    | sigaddset sig => simp only [SetCall.spec, SetCall.step, signals_sigaddset]
    | sigdelset sig => simp only [SetCall.spec, SetCall.step, signals_sigdelset]
    | sigismember sig =>
      exact Prod.ext rfl (@sigismember_eq set sig (Classical.propDecidable _)).symm
    | sigisemptyset =>
      simp only [SetCall.spec, SetCall.step, sigisemptyset, signals_eq_empty_iff]

theorem along_all (set : Sigset) (calls : List SetCall) :
    Refinement.Along SetCall.step (fun _ _ => True) set calls := by
  induction calls generalizing set with
  | nil => trivial
  | cons call calls ih => exact ⟨trivial, ih _⟩

/-- Every run of calls has the results that it has on sets of the signals from 1 to 32. -/
theorem sigsets_run (set : Sigset) (calls : List SetCall) :
    Refinement.run SetCall.spec (signals set) calls =
      (signals (Refinement.run SetCall.step set calls).1,
        (Refinement.run SetCall.step set calls).2) :=
  sigset_refines.run trivial (along_all set calls)

end Sets

/-! ## Signal actions -/

/-- `struct sigaction` -/
@[ext]
structure Sigaction where
  saHandler : UInt32
  saMask : UInt32
  saFlags : Int32
  saRestorer : UInt32

/-- `lamp_sigaction_t` -/
@[ext]
structure LampSigaction where
  handler : UInt32
  flags : UInt32
  mask : UInt32
  restorer : UInt32

def lampSigIgn : UInt32 := 1

def saRestart : Int32 := 4

/-- A kernel: the actions in its states, and what its system call does. A call that fails gives its
errno and changes no action; another one reports the action and installs the one given. -/
structure SignalKernel (κ : Type) where
  actions : κ → UInt32 → LampSigaction
  libsysSigaction : κ → UInt32 → Option LampSigaction → Except ℤ LampSigaction × κ
  failed : ∀ {k sig act e k'}, libsysSigaction k sig act = (.error e, k') →
    actions k' = actions k
  reported : ∀ {k sig act old k'}, libsysSigaction k sig act = (.ok old, k') →
    old = actions k sig ∧
      actions k' = act.elim (actions k) fun act => Function.update (actions k) sig act

/-- The action for the kernel; `restorer` is the address of `__lamp_signal_restorer`. -/
def Sigaction.toLamp (restorer : UInt32) (act : Sigaction) : LampSigaction where
  handler := act.saHandler
  flags := act.saFlags.toUInt32
  mask := act.saMask
  restorer :=
    if act.saHandler > lampSigIgn ∧ act.saRestorer = 0 then restorer else act.saRestorer

def LampSigaction.toUser (old : LampSigaction) : Sigaction where
  saHandler := old.handler
  saFlags := old.flags.toInt32
  saMask := old.mask
  saRestorer := old.restorer

section Actions

variable {κ : Type} (K : SignalKernel κ) (restorer : UInt32)

/-- The old action, or the errno of a call that returns -1, and the kernel. -/
def sigaction (k : κ) (sig : Int32) (act : Option Sigaction) : Except ℤ Sigaction × κ :=
  match K.libsysSigaction k sig.toUInt32 (act.map (·.toLamp restorer)) with
  | (.error e, k) => (.error e, k)
  | (.ok old, k) => (.ok old.toUser, k)

/-- The old handler, or the errno of a call that returns `SIG_ERR`, and the kernel. -/
def signal (k : κ) (sig : Int32) (handler : UInt32) : Except ℤ UInt32 × κ :=
  match sigaction K restorer k sig (some ⟨handler, 0, saRestart, 0⟩) with
  | (.error e, k) => (.error e, k)
  | (.ok old, k) => (.ok old.saHandler, k)

inductive ActionCall
  | sigaction (sig : Int32) (act : Option Sigaction)
  | signal (sig : Int32) (handler : UInt32)

def ActionCall.step (k : κ) : ActionCall → κ
  | .sigaction sig act => (Process.sigaction K restorer k sig act).2
  | .signal sig handler => (Process.signal K restorer k sig handler).2

def actionRun (k : κ) (calls : List ActionCall) : κ := calls.foldl (ActionCall.step K restorer) k

def Restorable (actions : UInt32 → LampSigaction) : Prop :=
  ∀ sig, (actions sig).handler > lampSigIgn → (actions sig).restorer ≠ 0

variable {K restorer} {k k' k'' : κ} {sig : Int32} {act : Option Sigaction}

theorem restorer_toLamp (h : restorer ≠ 0) (act : Sigaction)
    (hhandler : (act.toLamp restorer).handler > lampSigIgn) :
    (act.toLamp restorer).restorer ≠ 0 := by
  have hhandler' : act.saHandler > lampSigIgn := hhandler
  unfold Sigaction.toLamp
  dsimp only
  split
  · exact h
  · rename_i hnot
    exact fun hzero => hnot ⟨hhandler', hzero⟩

theorem toLamp_toUser {a : LampSigaction} (h : a.handler > lampSigIgn → a.restorer ≠ 0) :
    a.toUser.toLamp restorer = a := by
  apply LampSigaction.ext
  · rfl
  · rfl
  · rfl
  · exact if_neg fun hand => h hand.1 hand.2

theorem sigaction_error {e : ℤ} (h : sigaction K restorer k sig act = (.error e, k')) :
    K.actions k' = K.actions k := by
  unfold sigaction at h
  split at h
  · rename_i hcall
    obtain ⟨-, rfl⟩ := Prod.mk.inj h
    exact K.failed hcall
  · cases h

theorem sigaction_ok {old : Sigaction} (h : sigaction K restorer k sig act = (.ok old, k')) :
    old = (K.actions k sig.toUInt32).toUser ∧
      K.actions k' = act.elim (K.actions k) fun act =>
        Function.update (K.actions k) sig.toUInt32 (act.toLamp restorer) := by
  unfold sigaction at h
  split at h
  · cases h
  · rename_i hcall
    obtain ⟨hold, hactions⟩ := K.reported hcall
    obtain ⟨hok, rfl⟩ := Prod.mk.inj h
    refine ⟨?_, hactions.trans ?_⟩
    · rw [← Except.ok.inj hok, hold]
    · cases act <;> rfl

theorem Restorable.sigaction (hrestorer : restorer ≠ 0) (h : Restorable (K.actions k))
    (sig : Int32) (act : Option Sigaction) :
    Restorable (K.actions (Process.sigaction K restorer k sig act).2) := by
  rcases hr : Process.sigaction K restorer k sig act with ⟨e | old, k'⟩
  · rw [sigaction_error hr]
    exact h
  · rw [(sigaction_ok hr).2]
    cases act with
    | none => exact h
    | some act =>
      intro s
      rw [Option.elim_some]
      rcases eq_or_ne s sig.toUInt32 with rfl | hne
      · rw [Function.update_self]
        exact restorer_toLamp hrestorer act
      · rw [Function.update_of_ne hne]
        exact h s

theorem signal_snd (k : κ) (sig : Int32) (handler : UInt32) :
    (signal K restorer k sig handler).2 =
      (sigaction K restorer k sig (some ⟨handler, 0, saRestart, 0⟩)).2 := by
  unfold signal
  split <;> rename_i hr <;> rw [hr]

theorem Restorable.step (hrestorer : restorer ≠ 0) (h : Restorable (K.actions k))
    (call : ActionCall) : Restorable (K.actions (call.step K restorer k)) := by
  cases call with
  | sigaction sig act => exact h.sigaction hrestorer sig act
  | signal sig handler =>
    rw [ActionCall.step, signal_snd]
    exact h.sigaction hrestorer sig _

theorem Restorable.run (hrestorer : restorer ≠ 0) (h : Restorable (K.actions k))
    (calls : List ActionCall) : Restorable (K.actions (actionRun K restorer k calls)) := by
  induction calls generalizing k with
  | nil => exact h
  | cons call calls ih => exact ih (h.step hrestorer call)

/-- The handler that was there, and the action that is there now. -/
theorem signal_ok {handler old : UInt32} (h : signal K restorer k sig handler = (.ok old, k')) :
    old = (K.actions k sig.toUInt32).handler ∧
      K.actions k' = Function.update (K.actions k) sig.toUInt32
        ⟨handler, saRestart.toUInt32, 0, if handler > lampSigIgn then restorer else 0⟩ := by
  unfold signal at h
  split at h
  · cases h
  · rename_i hr
    obtain ⟨hold, hactions⟩ := sigaction_ok hr
    obtain ⟨hok, rfl⟩ := Prod.mk.inj h
    refine ⟨?_, hactions.trans ?_⟩
    · rw [← Except.ok.inj hok, hold]
      rfl
    · simp [Sigaction.toLamp]

/-- From a kernel whose handlers have restorers, no run of `sigaction` and `signal` reaches one
where a handler has none. An action that `sigaction` reported is put back exactly by `sigaction`,
whatever was called in between; `signal` puts back the handler, but the action only when it was one
of its own. -/
theorem signal_actions_run (K : SignalKernel κ) (hrestorer : restorer ≠ 0) {k₀ : κ}
    (h : Restorable (K.actions k₀)) (before between : List ActionCall) :
    Restorable (K.actions (actionRun K restorer k₀ before)) ∧
    (∀ sig act old k' r k'',
      sigaction K restorer (actionRun K restorer k₀ before) sig act = (.ok old, k') →
      sigaction K restorer (actionRun K restorer k' between) sig (some old) = (.ok r, k'') →
      K.actions k'' = Function.update (K.actions (actionRun K restorer k' between)) sig.toUInt32
        (K.actions (actionRun K restorer k₀ before) sig.toUInt32)) ∧
    (∀ sig handler old k' r k'',
      signal K restorer (actionRun K restorer k₀ before) sig handler = (.ok old, k') →
      signal K restorer (actionRun K restorer k' between) sig old = (.ok r, k'') →
      (K.actions k'' sig.toUInt32).handler =
          (K.actions (actionRun K restorer k₀ before) sig.toUInt32).handler ∧
        (K.actions k'' sig.toUInt32 = K.actions (actionRun K restorer k₀ before) sig.toUInt32 ↔
          (K.actions (actionRun K restorer k₀ before) sig.toUInt32).flags = saRestart.toUInt32 ∧
          (K.actions (actionRun K restorer k₀ before) sig.toUInt32).mask = 0 ∧
          (K.actions (actionRun K restorer k₀ before) sig.toUInt32).restorer =
            if old > lampSigIgn then restorer else 0)) := by
  have hbefore := h.run hrestorer before
  refine ⟨hbefore, fun sig act old k' r k'' hsave hback => ?_,
    fun sig handler old k' r k'' hsave hback => ?_⟩
  · obtain ⟨rfl, -⟩ := sigaction_ok hsave
    rw [(sigaction_ok hback).2, Option.elim_some, toLamp_toUser (hbefore _)]
  · obtain ⟨hold, -⟩ := signal_ok hsave
    rw [(signal_ok hback).2, Function.update_self, LampSigaction.ext_iff]
    dsimp only
    refine ⟨hold, ?_⟩
    constructor
    · rintro ⟨-, hflags, hmask, hrest⟩
      exact ⟨hflags.symm, hmask.symm, hrest.symm⟩
    · rintro ⟨hflags, hmask, hrest⟩
      exact ⟨hold, hflags.symm, hmask.symm, hrest.symm⟩

end Actions

/-- A kernel that is its table of actions and keeps signal 9. -/
def tableKernel : SignalKernel (UInt32 → LampSigaction) where
  actions := id
  libsysSigaction k sig act :=
    if sig = 9 then (.error 22, k)
    else (.ok (k sig), act.elim k fun act => Function.update k sig act)
  failed := by
    intro k sig act e k' h
    split at h
    · exact (Prod.mk.inj h).2.symm
    · cases h
  reported := by
    intro k sig act old k' h
    split at h
    · cases h
    · obtain ⟨hold, hk⟩ := Prod.mk.inj h
      exact ⟨(Except.ok.inj hold).symm, hk.symm⟩

def defaultActions : UInt32 → LampSigaction := fun _ => ⟨0, 0, 0, 0⟩

theorem restorable_defaultActions : Restorable defaultActions := by
  intro sig h
  have hnot : ¬ (0 : UInt32) > lampSigIgn := by decide
  exact absurd h hnot

/-- Two handlers for one signal. -/
theorem signal_actions_run_two :
    Restorable (tableKernel.actions (actionRun tableKernel 4096 defaultActions
      [.signal 10 8192, .sigaction 10 (some ⟨12288, 0, 0, 0⟩)])) :=
  (signal_actions_run tableKernel (by decide) restorable_defaultActions
    [.signal 10 8192, .sigaction 10 (some ⟨12288, 0, 0, 0⟩)] []).1

end LampUserspace.Process
