import Mathlib.Data.List.ReduceOption
import LampUserspace.Stdlib.Environ

/-! # The environment as a finite map

An environment whose entries have the form `name=value` with distinct names is a
map from valid names to values. Every call that succeeds updates the map at its
own name and every call that fails leaves it as it was, whatever the allocator
does.
-/

namespace LampUserspace.Stdlib

open Keyed

def entryName (e : CString) : CString := e.take ((strchr (byte '=') e.bytes).getD e.strlen)

def entryValue (e : CString) : CString := e.drop ((strchr (byte '=') e.bytes).getD e.strlen + 1)

/-- A name that the functions accept. -/
def ValidName (n : CString) : Prop := n.bytes ≠ [] ∧ byte '=' ∉ n.bytes

instance decidableValidName (n : CString) : Decidable (ValidName n) :=
  inferInstanceAs (Decidable (_ ∧ _))

abbrev Bindings := CString → Option CString

def entries (environ : Environ) : List CString :=
  ((environ.getD []).takeWhile Option.isSome).reduceOption

/-- The values of the valid names. -/
def bindings (environ : Environ) : Bindings := fun n =>
  if ValidName n then (lookup entryName (entries environ) n).map entryValue else none

variable {environ : Environ} {es xs ys : List CString} {e n v : CString}

theorem byte_eq_ne_zero : byte '=' ≠ 0 := by decide

theorem entryName_append {ys : List UInt8} (he : e.bytes = n.bytes ++ byte '=' :: ys)
    (hn : byte '=' ∉ n.bytes) :
    entryName e = n ∧ (entryValue e).bytes = ys := by
  constructor
  · ext1
    simp [entryName, CString.take, he, strchr_append hn]
  · simp [entryValue, CString.drop, he, strchr_append hn]

theorem entry_split (he : byte '=' ∈ e.bytes) :
    byte '=' ∉ (entryName e).bytes ∧
      e.bytes = (entryName e).bytes ++ byte '=' :: (entryValue e).bytes := by
  obtain ⟨xs, ys, heq, hxs⟩ := List.eq_append_cons_of_mem he
  have hname : 0 ∉ xs := fun hmem => e.nul_free (by rw [heq]; exact List.mem_append_left _ hmem)
  obtain ⟨hn, hv⟩ := entryName_append (n := ⟨xs, hname⟩) heq hxs
  rw [hn, hv]
  exact ⟨hxs, heq⟩

theorem entryName_assignment (hn : byte '=' ∉ n.bytes) :
    entryName (assignment n v) = n ∧ entryValue (assignment n v) = v := by
  obtain ⟨hname, hvalue⟩ := entryName_append (e := assignment n v) rfl hn
  exact ⟨hname, CString.ext hvalue⟩

theorem envNameMatches_iff (he : byte '=' ∈ e.bytes) (hn : byte '=' ∉ n.bytes) :
    envNameMatches (some e) n n.strlen = true ↔ entryName e = n := by
  have hcmp : strncmp e.memory n.memory n.strlen = 0 ↔ n.bytes <+: e.bytes :=
    strncmp_eq_zero n.nul_free
  simp only [envNameMatches, Bool.and_eq_true, decide_eq_true_eq, hcmp]
  constructor
  · rintro ⟨⟨t, ht⟩, hat⟩
    simp only [CString.memory, CString.strlen, ← ht, List.append_assoc,
      List.getElem?_append_right (Nat.le_refl _), Nat.sub_self] at hat
    cases t with
    | nil => cases hat
    | cons c t =>
      obtain rfl : c = byte '=' := Option.some.inj hat
      exact (entryName_append ht.symm hn).1
  · rintro rfl
    obtain ⟨-, heq⟩ := entry_split he
    refine ⟨⟨_, heq.symm⟩, ?_⟩
    rw [CString.memory, CString.strlen]
    nth_rewrite 1 [heq]
    simp

theorem envValidName_of_valid (h : ValidName n) : envValidName (some n) = .ok n.strlen := by
  have hfind : strchr (byte '=') n.bytes = none := (strchr_eq_none byte_eq_ne_zero).mpr h.2
  rw [envValidName, if_neg h.1, hfind]
  rfl

theorem envValidName_of_not_valid (h : ¬ ValidName n) :
    envValidName (some n) = .error .EINVAL := by
  rw [envValidName]
  split
  · rfl
  · rename_i hne
    have hmem : strchr (byte '=') n.bytes ≠ none := fun hnone =>
      h ⟨hne, (strchr_eq_none byte_eq_ne_zero).mp hnone⟩
    rw [if_pos (Option.isSome_iff_ne_none.mpr hmem)]

/-! ## The array -/

/-- The array has the entries `es` and a null pointer behind them. -/
def Lists (environ : Environ) (es : List CString) : Prop :=
  environ = none ∧ es = [] ∨ ∃ further, environ = some (es.map some ++ none :: further)

/-- Entries of the form `name=value` with distinct names. -/
structure Sound (es : List CString) : Prop where
  form : ∀ e ∈ es, byte '=' ∈ e.bytes
  distinct : (es.map entryName).Nodup

/-- An array of sound entries that ends with a null pointer. -/
def WellFormed (environ : Environ) : Prop := ∃ es, Lists environ es ∧ Sound es

theorem entries_array (es : List CString) (further : List (Option CString)) :
    entries (some (es.map some ++ none :: further)) = es := by
  induction es with
  | nil => rfl
  | cons e es ih =>
    simp only [entries, Option.getD_some, List.map_cons, List.cons_append] at ih ⊢
    rw [List.takeWhile_cons_of_pos rfl, List.reduceOption_cons_of_some, ih]

theorem Lists.entries_eq (h : Lists environ es) : entries environ = es := by
  rcases h with ⟨rfl, rfl⟩ | ⟨further, rfl⟩
  · rfl
  · exact entries_array es further

theorem envFindLoop_spec (es : List CString) (further : List (Option CString)) (i : ℕ)
    (hform : ∀ e ∈ es, byte '=' ∈ e.bytes) (hn : byte '=' ∉ n.bytes) :
    (∃ xs e ys, es = xs ++ e :: ys ∧ entryName e = n ∧
      envFindLoop n n.strlen (es.map some ++ none :: further) i = some (some (i + xs.length))) ∨
    (n ∉ es.map entryName ∧
      envFindLoop n n.strlen (es.map some ++ none :: further) i = some none) := by
  induction es generalizing i with
  | nil => exact Or.inr ⟨List.not_mem_nil, rfl⟩
  | cons e es ih =>
    have hmatch := envNameMatches_iff (hform e List.mem_cons_self) hn
    rw [List.map_cons, List.cons_append, envFindLoop]
    by_cases hname : entryName e = n
    · rw [if_pos (hmatch.mpr hname)]
      exact Or.inl ⟨[], e, es, rfl, hname, rfl⟩
    · rw [if_neg (fun hm => hname (hmatch.mp hm))]
      rcases ih (i + 1) fun d hd => hform d (List.mem_cons_of_mem _ hd) with
        ⟨xs, d, ys, rfl, hd, heq⟩ | ⟨hnone, heq⟩
      · refine Or.inl ⟨e :: xs, d, ys, rfl, hd, ?_⟩
        rw [heq, List.length_cons, Nat.add_right_comm, Nat.add_assoc]
      · refine Or.inr ⟨?_, heq⟩
        rw [List.map_cons, List.mem_cons, not_or]
        exact ⟨Ne.symm hname, hnone⟩

/-- The index of the entry with the name, or -1 when there is none. -/
theorem envFind_spec (hes : Lists environ es) (hform : ∀ e ∈ es, byte '=' ∈ e.bytes)
    (hn : byte '=' ∉ n.bytes) :
    (∃ xs e ys, es = xs ++ e :: ys ∧ entryName e = n ∧
      envFind environ n n.strlen = some (some xs.length)) ∨
    (n ∉ es.map entryName ∧ envFind environ n n.strlen = some none) := by
  rcases hes with ⟨rfl, rfl⟩ | ⟨further, rfl⟩
  · exact Or.inr ⟨List.not_mem_nil, rfl⟩
  · have hloop := envFindLoop_spec es further 0 hform hn
    simp only [Nat.zero_add] at hloop
    exact hloop

theorem envCountLoop_spec (es : List CString) (further : List (Option CString)) (i : ℕ) :
    envCountLoop (es.map some ++ none :: further) i = some (i + es.length) := by
  induction es generalizing i with
  | nil => rfl
  | cons e es ih =>
    rw [List.map_cons, List.cons_append, envCountLoop, ih, List.length_cons, Nat.add_right_comm,
      Nat.add_assoc]

theorem envCount_spec (hes : Lists environ es) : envCount environ = some es.length := by
  rcases hes with ⟨rfl, rfl⟩ | ⟨further, rfl⟩
  · rfl
  · rw [envCount, envCountLoop_spec, Nat.zero_add]

theorem Lists.seam (h : Lists environ (xs ++ e :: ys)) :
    ∃ further, environ = some (xs.map some ++ some e :: (ys.map some ++ none :: further)) := by
  rcases h with ⟨-, hnil⟩ | ⟨further, rfl⟩
  · exact absurd hnil (by simp)
  · exact ⟨further, by simp⟩

theorem getenv_eq (h : WellFormed environ) (n : CString) :
    getenv environ (some n) = some (bindings environ n) := by
  obtain ⟨es, hes, hsound⟩ := h
  by_cases hn : ValidName n
  · rw [bindings, if_pos hn, hes.entries_eq]
    rcases envFind_spec hes hsound.form hn.2 with ⟨xs, e, ys, rfl, rfl, hfind⟩ | ⟨hnone, hfind⟩
    · rw [lookup_seam (not_mem_before hsound.distinct)]
      obtain ⟨further, rfl⟩ := hes.seam
      obtain ⟨hname, heq⟩ := entry_split (hsound.form e (by simp))
      have hchr : strchr (byte '=') e.bytes = some (entryName e).bytes.length := by
        rw [heq, strchr_append hname]
      simp [getenv, envValidName_of_valid hn, hfind, hchr, entryValue]
    · rw [lookup_eq_none.mpr hnone]
      simp [getenv, envValidName_of_valid hn, hfind]
  · rw [bindings, if_neg hn]
    simp [getenv, envValidName_of_not_valid hn]

/-! ## Updates -/

def Bindings.set (m : Bindings) (n : CString) (value : Option CString) : Bindings := fun k =>
  if k = n then value else m k

/-- The map after a call: the update when the call has returned 0. -/
def settled (before after : Bindings) : Except Errno Unit → Bindings
  | .ok _ => after
  | .error _ => before

/-- A call that leaves a well-formed environment and makes the update when it returns 0. -/
def Updates (environ : Environ) (after : Bindings) (r : Environ × Except Errno Unit) : Prop :=
  WellFormed r.1 ∧ bindings r.1 = settled (bindings environ) after r.2

theorem Updates.failed (h : WellFormed environ) (after : Bindings) (error : Errno) :
    Updates environ after (environ, .error error) :=
  ⟨h, rfl⟩

/-- The map of an environment in terms of another list of entries. -/
theorem bindings_of_lists {environ' : Environ} {es' : List CString} {value : Option CString}
    (hes : Lists environ es) (hes' : Lists environ' es') (hn : ValidName n)
    (hlookup : ∀ k, (lookup entryName es' k).map entryValue =
      if k = n then value else (lookup entryName es k).map entryValue) :
    bindings environ' = (bindings environ).set n value := by
  funext k
  unfold bindings Bindings.set
  rw [hes.entries_eq, hes'.entries_eq, hlookup]
  by_cases hk : k = n
  · subst hk
    rw [if_pos hn, if_pos rfl, if_pos rfl]
  · simp only [if_neg hk]

theorem updates_replace (hes : Lists environ (xs ++ e :: ys)) (hsound : Sound (xs ++ e :: ys))
    (hn : ValidName n) (he : entryName e = n) :
    Updates environ ((bindings environ).set n (some v))
      ((environ.map (·.set xs.length (some (assignment n v)))), .ok ()) := by
  obtain ⟨hname, hvalue⟩ := entryName_assignment (v := v) hn.2
  have hkey : entryName (assignment n v) = entryName e := hname.trans he.symm
  have hnew : Lists (environ.map (·.set xs.length (some (assignment n v))))
      (xs ++ assignment n v :: ys) := by
    obtain ⟨further, rfl⟩ := hes.seam
    exact Or.inr ⟨further, by simp⟩
  refine ⟨⟨_, hnew, ?_, nodup_replace hsound.distinct hkey⟩, bindings_of_lists hes hnew hn ?_⟩
  · intro d hd
    rcases List.mem_append.mp hd with hd | hd
    · exact hsound.form d (List.mem_append_left _ hd)
    · rcases List.mem_cons.mp hd with rfl | hd
      · simp [assignment]
      · exact hsound.form d (by simp [hd])
  · intro k
    rw [lookup_replace hsound.distinct hkey, he]
    split
    · rw [Option.map_some, hvalue]
    · rfl

theorem take_reallocVector {rest : List (Option CString)} {k : ℕ} (hk : es.length ≤ k)
    (new : ℕ → Option CString) :
    (reallocVector (es.map some ++ rest) k new).take es.length = es.map some := by
  refine List.ext_getElem (by simp [reallocVector, hk]) fun i hi hi' => ?_
  have hlt : i < es.length := by simpa using hi'
  simp [reallocVector, List.getElem?_append_left, hlt]

theorem set_behind {α : Type} (array : List α) {c : ℕ} (x y : α) (hlen : c + 2 ≤ array.length) :
    ∃ rest, (array.set c x).set (c + 1) y = array.take c ++ x :: y :: rest := by
  obtain ⟨a, b, rest, hdrop⟩ : ∃ a b rest, array.drop c = a :: b :: rest := by
    match hdrop : array.drop c with
    | [] | [_] =>
      have := congrArg List.length hdrop
      rw [List.length_drop] at this
      simp only [List.length_nil, List.length_cons] at this
      omega
    | a :: b :: rest => exact ⟨a, b, rest, rfl⟩
  have hc : (array.take c).length = c := by simp; omega
  refine ⟨rest, ?_⟩
  nth_rewrite 1 [← List.take_append_drop c array]
  rw [hdrop, List.set_append_right _ _ (by omega), hc, Nat.sub_self, List.set_cons_zero,
    List.set_append_right _ _ (by omega), hc, Nat.add_sub_cancel_left]
  rfl

theorem updates_add {further : ℕ} (new : ℕ → Option CString) (hes : Lists environ es)
    (hsound : Sound es) (hn : ValidName n) (hfresh : n ∉ es.map entryName) :
    Updates environ ((bindings environ).set n (some v))
      (some (((reallocVector (environ.getD []) (es.length + 2 + further) new).set es.length
        (some (assignment n v))).set (es.length + 1) none), .ok ()) := by
  obtain ⟨hname, hvalue⟩ := entryName_assignment (v := v) hn.2
  have hkey : entryName (assignment n v) ∉ es.map entryName := by rwa [hname]
  have hnew : Lists (some (((reallocVector (environ.getD []) (es.length + 2 + further) new).set
      es.length (some (assignment n v))).set (es.length + 1) none)) (es ++ [assignment n v]) := by
    obtain ⟨rest, hold⟩ : ∃ rest, environ.getD [] = es.map some ++ rest := by
      rcases hes with ⟨rfl, rfl⟩ | ⟨further, rfl⟩
      · exact ⟨[], rfl⟩
      · exact ⟨none :: further, rfl⟩
    have hlen : es.length + 2 ≤
        (reallocVector (es.map some ++ rest) (es.length + 2 + further) new).length := by
      simp [reallocVector]
    obtain ⟨behind, hset⟩ := set_behind _ (some (assignment n v)) none hlen
    rw [take_reallocVector (by omega)] at hset
    exact Or.inr ⟨behind, by rw [hold, hset]; simp⟩
  refine ⟨⟨_, hnew, ?_, nodup_add hsound.distinct hkey⟩, bindings_of_lists hes hnew hn ?_⟩
  · intro d hd
    rcases List.mem_append.mp hd with hd | hd
    · exact hsound.form d hd
    · obtain rfl := List.mem_singleton.mp hd
      simp [assignment]
  · intro k
    rw [lookup_add hkey, hname]
    split
    · rw [Option.map_some, hvalue]
    · rfl

def Bindings.assign (m : Bindings) (name value : Option CString) (overwrite : Bool) : Bindings :=
  match name, value with
  | some n, some v => if ¬ overwrite ∧ (m n).isSome then m else m.set n (some v)
  | _, _ => m

theorem bindings_isSome (hes : Lists environ es) (hn : ValidName n) :
    (bindings environ n).isSome ↔ n ∈ es.map entryName := by
  rw [bindings, if_pos hn, hes.entries_eq, Option.isSome_map, Option.isSome_iff_ne_none, ne_eq,
    lookup_eq_none, not_not]

theorem setenv_spec (h : WellFormed environ) (name value : Option CString) (overwrite : Bool)
    (alloc : Allocation) :
    Total (setenv environ name value overwrite alloc)
      (Updates environ ((bindings environ).assign name value overwrite)) := by
  match name, value with
  | none, _ => exact Total.some (Updates.failed h _ _)
  | some _, none => exact Total.some (Updates.failed h _ _)
  | some n, some v =>
  by_cases hn : ValidName n
  case neg =>
    simp only [setenv, envValidName_of_not_valid hn]
    exact Total.some (Updates.failed h _ _)
  obtain ⟨es, hes, hsound⟩ := h
  have hbound := bindings_isSome hes hn
  have hkept : WellFormed environ := ⟨es, hes, hsound⟩
  simp only [setenv, envValidName_of_valid hn, Bindings.assign, hbound]
  rcases envFind_spec hes hsound.form hn.2 with ⟨xs, e, ys, rfl, he, hfind⟩ | ⟨hfresh, hfind⟩
  · have hmem : n ∈ (xs ++ e :: ys).map entryName := by simp [← he]
    simp only [hfind, hmem, Option.bind_eq_bind, Option.bind_some, Option.isSome_some, true_and,
      and_true]
    refine Total.ite (fun hkeep => ?_) fun hover => Total.ite (fun _ => ?_) fun _ => ?_
    · rw [if_pos hkeep]
      exact Total.some ⟨hkept, rfl⟩
    · exact Total.some (Updates.failed hkept _ _)
    · rw [if_neg hover]
      have hset := updates_replace (v := v) hes hsound hn he
      obtain ⟨further, rfl⟩ := hes.seam
      exact Total.some hset
  · simp only [hfind, hfresh, Option.bind_eq_bind, Option.bind_some, Option.isSome_none, and_false,
      false_and, if_false, Bool.false_eq_true]
    refine Total.ite (fun _ => Total.some (Updates.failed hkept _ _)) fun _ => ?_
    simp only [envCount_spec hes, Option.bind_some]
    match alloc.vector with
    | none => exact Total.some (Updates.failed hkept _ _)
    | some (further, new) => exact Total.some (updates_add new hes hsound hn hfresh)

def Bindings.put (m : Bindings) (string : Option CString) : Bindings :=
  match string with
  | none => m
  | some s => m.set (entryName s) (some (entryValue s))

theorem putenv_spec (h : WellFormed environ) (string : Option CString) (alloc : Allocation) :
    Total (putenv environ string alloc) (Updates environ ((bindings environ).put string)) := by
  match string with
  | none => exact Total.some (Updates.failed h _ _)
  | some s =>
  rw [putenv]
  match hchr : strchr (byte '=') s.bytes with
  | none => exact Total.some (Updates.failed h _ _)
  | some nameLen =>
    refine Total.ite (fun _ => Total.some (Updates.failed h _ _)) fun _ => ?_
    have hset := setenv_spec h (some (s.take nameLen)) (some (s.drop (nameLen + 1))) true alloc
    have hname : entryName s = s.take nameLen := by rw [entryName, hchr]; rfl
    have hvalue : entryValue s = s.drop (nameLen + 1) := by rw [entryValue, hchr]; rfl
    rw [Bindings.put, hname, hvalue]
    simpa only [Bindings.assign, not_true_eq_false, false_and, if_false] using hset

theorem shiftLoop_spec (before mid after : List (Option CString)) (x : Option CString) :
    ∃ y, shiftLoop mid.length before.length (before ++ x :: (mid ++ after)) =
      some (before ++ mid ++ y :: after) := by
  induction mid generalizing before x with
  | nil => exact ⟨x, by simp [shiftLoop]⟩
  | cons z mid ih =>
    obtain ⟨y, hstep⟩ := ih (before ++ [z]) z
    simp only [List.length_append, List.length_singleton, List.append_assoc, List.singleton_append]
      at hstep
    refine ⟨y, ?_⟩
    rw [List.length_cons, shiftLoop]
    simp [hstep]

theorem updates_remove {array : List (Option CString)} (hes : Lists environ (xs ++ e :: ys))
    (hsound : Sound (xs ++ e :: ys)) (hn : ValidName n) (he : entryName e = n)
    (harray : Lists (some array) (xs ++ ys)) :
    Updates environ ((bindings environ).set n none) (some array, .ok ()) := by
  refine ⟨⟨_, harray, ?_, nodup_remove hsound.distinct⟩, bindings_of_lists hes harray hn ?_⟩
  · intro d hd
    refine hsound.form d ?_
    rcases List.mem_append.mp hd with hd | hd
    · exact List.mem_append_left _ hd
    · exact List.mem_append_right _ (List.mem_cons_of_mem _ hd)
  · intro k
    rw [lookup_remove hsound.distinct, he]
    split <;> rfl

def Bindings.unset (m : Bindings) (name : Option CString) : Bindings :=
  match name with
  | none => m
  | some n => m.set n none

theorem unsetenv_spec (h : WellFormed environ) (name : Option CString) :
    Total (unsetenv environ name) (Updates environ ((bindings environ).unset name)) := by
  match name with
  | none => exact Total.some (Updates.failed h _ _)
  | some n =>
  by_cases hn : ValidName n
  case neg =>
    simp only [unsetenv, envValidName_of_not_valid hn]
    exact Total.some (Updates.failed h _ _)
  obtain ⟨es, hes, hsound⟩ := h
  simp only [unsetenv, envValidName_of_valid hn, Bindings.unset]
  rcases envFind_spec hes hsound.form hn.2 with ⟨xs, e, ys, rfl, he, hfind⟩ | ⟨hfresh, hfind⟩
  · obtain ⟨further, rfl⟩ := hes.seam
    obtain ⟨y, hshift⟩ := shiftLoop_spec (xs.map some) (ys.map some ++ [none]) further (some e)
    have hcount := envCountLoop_spec (xs ++ e :: ys) further 0
    have hsteps : 0 + (xs ++ e :: ys).length - xs.length = (ys.map some ++ [none]).length := by
      simp
    simp only [List.map_append, List.map_cons, List.append_assoc, List.cons_append,
      List.nil_append, List.length_map] at hshift hcount
    simp only [hfind, Option.bind_eq_bind, Option.bind_some, hcount, hsteps, hshift]
    exact Total.some (updates_remove hes hsound hn he (Or.inr ⟨y :: further, by simp⟩))
  · simp only [hfind, Option.bind_eq_bind, Option.bind_some]
    refine Total.some ⟨⟨es, hes, hsound⟩, bindings_of_lists hes hes hn fun k => ?_⟩
    split
    · rename_i hk
      rw [hk, lookup_eq_none.mpr hfresh]
      rfl
    · rfl

theorem clearenv_spec (environ : Environ) : Updates environ (fun _ => none) clearenv := by
  have hnil : Lists (some [none]) [] := Or.inr ⟨[], rfl⟩
  refine ⟨⟨[], hnil, by simp, List.nodup_nil⟩, ?_⟩
  funext n
  change bindings (some [none]) n = none
  rw [bindings, hnil.entries_eq]
  simp [lookup]

/-! ## Runs -/

inductive EnvCall
  | setenv (name value : Option CString) (overwrite : Bool) (alloc : Allocation)
  | putenv (string : Option CString) (alloc : Allocation)
  | unsetenv (name : Option CString)
  | clearenv

namespace EnvCall

def step (environ : Environ) : EnvCall → Option (Environ × Except Errno Unit)
  | .setenv name value overwrite alloc => Stdlib.setenv environ name value overwrite alloc
  | .putenv string alloc => Stdlib.putenv environ string alloc
  | .unsetenv name => Stdlib.unsetenv environ name
  | .clearenv => some Stdlib.clearenv

/-- The update that a successful call is meant to make. -/
def update (m : Bindings) : EnvCall → Bindings
  | .setenv name value overwrite _ => m.assign name value overwrite
  | .putenv string _ => m.put string
  | .unsetenv name => m.unset name
  | .clearenv => fun _ => none

/-- The names whose binding a call may change. -/
def Names (n : CString) : EnvCall → Prop
  | .setenv name _ _ _ => name = some n
  | .putenv string _ => string.map entryName = some n
  | .unsetenv name => name = some n
  | .clearenv => True

theorem update_of_not_names {call : EnvCall} (m : Bindings) (h : ¬ call.Names n) :
    call.update m n = m n := by
  have hset : ∀ k (value : Option CString), k ≠ n → m.set k value n = m n := fun k value hk =>
    if_neg (Ne.symm hk)
  match call with
  | .setenv none _ _ _ | .setenv (some _) none _ _ | .putenv none _ | .unsetenv none => rfl
  | .setenv (some k) (some v) overwrite _ =>
    simp only [update, Bindings.assign]
    split
    · rfl
    · exact hset k _ fun hk => h (congrArg some hk)
  | .putenv (some s) _ => exact hset _ _ fun hk => h (congrArg some hk)
  | .unsetenv (some k) => exact hset k _ fun hk => h (congrArg some hk)
  | .clearenv => exact absurd trivial h

theorem step_spec (h : WellFormed environ) (call : EnvCall) :
    Total (call.step environ) (Updates environ (call.update (bindings environ))) := by
  cases call with
  | setenv name value overwrite alloc => exact setenv_spec h name value overwrite alloc
  | putenv string alloc => exact putenv_spec h string alloc
  | unsetenv name => exact unsetenv_spec h name
  | clearenv => exact Total.some (clearenv_spec environ)

def run (environ : Environ) : List EnvCall → Option (Environ × List (Except Errno Unit))
  | [] => some (environ, [])
  | call :: calls => do
    let (environ, result) ← call.step environ
    let (environ, results) ← run environ calls
    return (environ, result :: results)

/-- The map after the calls that have returned 0. -/
def updated (m : Bindings) : List EnvCall → List (Except Errno Unit) → Bindings
  | call :: calls, result :: results => updated (settled m (call.update m) result) calls results
  | _, _ => m

theorem run_spec (h : WellFormed environ) (calls : List EnvCall) :
    Total (run environ calls) fun r =>
      WellFormed r.1 ∧ bindings r.1 = updated (bindings environ) calls r.2 := by
  induction calls generalizing environ with
  | nil => exact Total.some ⟨h, rfl⟩
  | cons call calls ih =>
    refine Total.bind (step_spec h call) fun r _ hr => Total.bind (ih hr.1) fun r' _ hr' =>
      Total.pure ⟨hr'.1, ?_⟩
    rw [hr'.2, hr.2]
    rfl

end EnvCall

/-- After every run the array ends with a null pointer and has distinct names, `getenv` answers
from the map that the successful calls have updated, and a further call leaves every binding as it
was when it fails, and the bindings of other names when it does not. -/
theorem environ_run_bindings (environ : Environ) (h : WellFormed environ) (calls : List EnvCall) :
    Total (EnvCall.run environ calls) fun r =>
      WellFormed r.1 ∧
      (∀ n, getenv r.1 (some n) = some (EnvCall.updated (bindings environ) calls r.2 n)) ∧
      ∀ call : EnvCall, Total (call.step r.1) fun r' =>
        (∀ error, r'.2 = .error error → ∀ n, getenv r'.1 (some n) = getenv r.1 (some n)) ∧
        ∀ n, ¬ call.Names n → getenv r'.1 (some n) = getenv r.1 (some n) := by
  refine (EnvCall.run_spec h calls).mono fun r _ hr => ⟨hr.1, fun n => ?_, fun call => ?_⟩
  · rw [getenv_eq hr.1, hr.2]
  · refine (EnvCall.step_spec hr.1 call).mono fun r' _ hr' => ⟨?_, ?_⟩
    · intro error herror n
      rw [getenv_eq hr'.1, getenv_eq hr.1, hr'.2, herror]
      rfl
    · intro n hn
      rw [getenv_eq hr'.1, getenv_eq hr.1, hr'.2]
      cases r'.2 with
      | ok u => exact congrArg some (EnvCall.update_of_not_names _ hn)
      | error error => rfl

def oneVariable : Environ := some [some ⟨[byte 'V', byte '=', byte '1'], by decide⟩, none]

def nameV : CString := ⟨[byte 'V'], by decide⟩

def nameW : CString := ⟨[byte 'W'], by decide⟩

def valueTwo : CString := ⟨[byte '2'], by decide⟩

/-- A new variable for which the vector grows, and the removal of the old one. -/
def replacingCalls : List EnvCall :=
  [.setenv (some nameW) (some valueTwo) false ⟨true, some (0, fun _ => none)⟩,
    .unsetenv (some nameV)]

theorem replacingCalls_bindings :
    WellFormed oneVariable ∧ Total (EnvCall.run oneVariable replacingCalls) fun r =>
      WellFormed r.1 ∧
      (∀ n, getenv r.1 (some n) =
        some (EnvCall.updated (bindings oneVariable) replacingCalls r.2 n)) ∧
      ∀ call : EnvCall, Total (call.step r.1) fun r' =>
        (∀ error, r'.2 = .error error → ∀ n, getenv r'.1 (some n) = getenv r.1 (some n)) ∧
        ∀ n, ¬ call.Names n → getenv r'.1 (some n) = getenv r.1 (some n) := by
  have h : WellFormed oneVariable :=
    ⟨[⟨[byte 'V', byte '=', byte '1'], by decide⟩], Or.inr ⟨[], rfl⟩, by simp, by simp⟩
  exact ⟨h, environ_run_bindings oneVariable h replacingCalls⟩

end LampUserspace.Stdlib
