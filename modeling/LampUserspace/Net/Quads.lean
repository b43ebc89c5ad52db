import LampUserspace.Net.Inet

/-! # Dotted quads

The strings that `inet_aton` accepts are four numbers separated by dots, as they
should be, but its numbers may stand behind white space and count modulo `2 ^ 32`.
-/

namespace LampUserspace.Net

open Numerals

def decimal (s : List UInt8) : ℕ := number digitValue 10 s

def dotted (l : List (List UInt8)) : List UInt8 := [byte '.'].intercalate l

/-- The string is four runs of digits separated by dots, and each is a number up to 255. -/
structure Quad (s : List UInt8) (runs : List (List UInt8)) : Prop where
  length : runs.length = 4
  text : s = dotted runs
  digits : ∀ run ∈ runs, run ≠ [] ∧ ∀ c ∈ run, isdigit c = true
  range : ∀ run ∈ runs, decimal run ≤ 255

/-- White space and the digits behind it. -/
structure Part where
  space : List UInt8
  digits : List UInt8

def Part.text (part : Part) : List UInt8 := part.space ++ part.digits

/-- What `inet_aton` takes for a part of an address. -/
structure Part.Accepted (part : Part) : Prop where
  space : ∀ c ∈ part.space, isspace c = true
  ne_nil : part.digits ≠ []
  digits : ∀ c ∈ part.digits, isdigit c = true
  range : decimal part.digits % 2 ^ 32 ≤ 255

/-- The string is `n + 1` such parts separated by dots. -/
structure Loose (n : ℕ) (s : List UInt8) (parts : List Part) : Prop where
  length : parts.length = n + 1
  text : s = dotted (parts.map Part.text)
  accepted : ∀ part ∈ parts, part.Accepted

/-- A part that a number up to 255 is not written as. -/
def Part.Odd (part : Part) : Prop := part.space ≠ [] ∨ 2 ^ 32 ≤ decimal part.digits

/-- What is asked of `inet_aton` for the string `s` and the structure `inp`. -/
def Prescribed (s : List UInt8) (inp : InAddr) (r : Aton) : Prop :=
  (∀ runs, Quad s runs → r.ret = 1 ∧ ∃ addr : InAddr, r.inp = some addr ∧
    (wordBytes addr.sAddr).map UInt8.toNat = runs.map decimal) ∧
  ((¬ ∃ runs, Quad s runs) → r.ret = 0 ∧ r.inp = some inp)

theorem dotted_cons (s : List UInt8) {l : List (List UInt8)} (h : l ≠ []) :
    dotted (s :: l) = s ++ byte '.' :: dotted l := by
  obtain ⟨t, l, rfl⟩ := List.exists_cons_of_ne_nil h
  simp [dotted, List.intercalate]

theorem dotted_singleton (s : List UInt8) : dotted [s] = s := by
  simp [dotted, List.intercalate]

/-! ## One round of the loop -/

/-- The digits that a round reads and the position where it stops. -/
def run (p : List UInt8) : List UInt8 := digitRun digitValue 10 (p.dropWhile isspace)

def rest (p : List UInt8) : List UInt8 := afterRun digitValue 10 (p.dropWhile isspace)

/-- The round at `p` reads a number that it accepts. -/
def Reads (p : List UInt8) : Prop := run p ≠ [] ∧ decimal (run p) % 2 ^ 32 ≤ 255

theorem rest_ne_self {p : List UInt8} (h : run p ≠ []) : rest p ≠ p := by
  intro heq
  have happ : run p ++ rest p = p.dropWhile isspace := digitRun_append_afterRun _
  have hlength := congrArg List.length happ
  have hle := (List.dropWhile_suffix isspace (l := p)).length_le
  have hpos := List.length_pos_of_ne_nil h
  rw [List.length_append, heq] at hlength
  omega

theorem strtoul_run {p : List UInt8} (h : run p ≠ []) :
    Stdlib.strtoul (some p) 10 = ⟨.ofNat (decimal (run p)), some (rest p), none⟩ := by
  unfold run at h
  rw [Stdlib.strtoul_ten, if_neg h, if_neg h]
  rfl

theorem toNat_ret (n : ℕ) : UInt32.ofNat n > 255 ↔ 255 < n % 2 ^ 32 := by
  rw [gt_iff_lt, UInt32.lt_iff_toNat_lt, UInt32.toNat_ofNat']
  rfl

theorem inetAtonLoop_not_reads (errno : Option Errno) (n : ℕ) {p : List UInt8} (h : ¬ Reads p) :
    (inetAtonLoop errno n p).1 = none := by
  by_cases hp : p = []
  · rw [inetAtonLoop.eq_def, if_pos hp]
  · by_cases hrun : run p = []
    · have hread : Stdlib.strtoul (some p) 10 = ⟨0, some p, some .EINVAL⟩ := by
        unfold run at hrun
        rw [Stdlib.strtoul_ten, hrun]
        rfl
      rw [inetAtonLoop.eq_def, hread, if_neg hp]
      simp
    · have hrange : UInt32.ofNat (decimal (run p)) > 255 := by
        rw [toNat_ret]
        by_contra hle
        exact h ⟨hrun, Nat.le_of_not_lt hle⟩
      rw [inetAtonLoop.eq_def, strtoul_run hrun, if_neg hp]
      simp [hrange]

section Reads

variable {p : List UInt8} (h : Reads p)
include h

theorem Reads.ne_nil : p ≠ [] := by
  rintro rfl
  exact h.1 rfl

theorem Reads.accepted : ¬ (rest p = p ∨ UInt32.ofNat (decimal (run p)) > 255) := by
  rintro (hself | hrange)
  · exact rest_ne_self h.1 hself
  · exact absurd h.2 (Nat.not_le_of_lt ((toNat_ret _).mp hrange))

theorem inetAtonLoop_zero (errno : Option Errno) :
    (inetAtonLoop errno 0 p).1 =
      if rest p = [] then some [.ofNat (decimal (run p))] else none := by
  rw [inetAtonLoop.eq_def, strtoul_run h.1, if_neg h.ne_nil]
  simp only [if_neg h.accepted, ne_eq, ite_not]

theorem inetAtonLoop_succ (errno : Option Errno) (n : ℕ) :
    (inetAtonLoop errno (n + 1) p).1 =
      if (rest p).head? = some (byte '.') then
        (inetAtonLoop errno n (rest p).tail).1.map (.ofNat (decimal (run p)) :: ·)
      else none := by
  rw [inetAtonLoop.eq_def, strtoul_run h.1, if_neg h.ne_nil]
  simp only [if_neg h.accepted, ne_eq, ite_not, Option.map_none, Option.none_or]
  split <;> rfl

end Reads

/-! ## Parts of a string -/

theorem Part.Accepted.run_append {part : Part} (h : part.Accepted) {t : List UInt8}
    (ht : ∀ c, t.head? = some c → isdigit c = false) :
    run (part.text ++ t) = part.digits ∧ rest (part.text ++ t) = t ∧
      (part.text ++ t).takeWhile isspace = part.space := by
  have hdigit : ∀ c, isdigit c = true → isspace c = false := by decide +kernel
  have hhead : part.digits ++ t ≠ [] ∧ ∀ c, (part.digits ++ t).head? = some c →
      isspace c = false := by
    obtain ⟨c, s, hs⟩ := List.exists_cons_of_ne_nil h.ne_nil
    rw [hs]
    refine ⟨by simp, fun c' hc' => ?_⟩
    obtain rfl := Option.some.inj hc'
    exact hdigit c (h.digits c (by rw [hs]; exact List.mem_cons_self ..))
  have htake : (part.digits ++ t).takeWhile isspace = [] := by
    obtain ⟨c, s, hs⟩ := List.exists_cons_of_ne_nil hhead.1
    have hc := hhead.2 c (by rw [hs]; rfl)
    rw [hs]
    exact List.takeWhile_cons_of_neg (by simp [hc])
  have hdrop : (part.digits ++ t).dropWhile isspace = part.digits ++ t := by
    obtain ⟨c, s, hs⟩ := List.exists_cons_of_ne_nil hhead.1
    have hc := hhead.2 c (by rw [hs]; rfl)
    rw [hs]
    exact List.dropWhile_cons_of_neg (by simp [hc])
  have hdigits : ∀ c ∈ part.digits, isDigit digitValue 10 c = true :=
    fun c hc => isDigit_ten c ▸ h.digits c hc
  have hstop : digitRun digitValue 10 t = [] :=
    digitRun_eq_nil_iff.mpr fun c hc => isDigit_ten c ▸ ht c hc
  have hskip : (part.text ++ t).dropWhile isspace = part.digits ++ t := by
    rw [Part.text, List.append_assoc, List.dropWhile_append_of_pos h.space, hdrop]
  refine ⟨?_, ?_, ?_⟩
  · rw [run, hskip, digitRun_append hdigits hstop]
  · rw [rest, hskip, afterRun_append hdigits hstop]
  · rw [Part.text, List.append_assoc, List.takeWhile_append_of_pos h.space, htake, List.append_nil]

def partAt (p : List UInt8) : Part := ⟨p.takeWhile isspace, run p⟩

theorem partAt_text_append (p : List UInt8) : (partAt p).text ++ rest p = p := by
  have happ : run p ++ rest p = p.dropWhile isspace := digitRun_append_afterRun _
  rw [Part.text, partAt, List.append_assoc, happ, List.takeWhile_append_dropWhile]

theorem Reads.partAt {p : List UInt8} (h : Reads p) : (partAt p).Accepted where
  space _ hc := List.mem_takeWhile_imp hc
  ne_nil := h.1
  digits c hc := isDigit_ten c ▸ mem_digitRun hc
  range := h.2

theorem Part.Accepted.partAt_append {part : Part} (h : part.Accepted) {t : List UInt8}
    (ht : ∀ c, t.head? = some c → isdigit c = false) :
    Reads (part.text ++ t) ∧ Net.partAt (part.text ++ t) = part ∧ rest (part.text ++ t) = t := by
  obtain ⟨hrun, hrest, hspace⟩ := h.run_append ht
  refine ⟨⟨hrun ▸ h.ne_nil, hrun ▸ h.range⟩, ?_, hrest⟩
  rw [Net.partAt, hrun, hspace]

theorem loose_zero_iff {p : List UInt8} {parts : List Part} :
    Loose 0 p parts ↔ Reads p ∧ rest p = [] ∧ parts = [partAt p] := by
  constructor
  · intro h
    obtain ⟨part, rfl⟩ := List.length_eq_one_iff.mp h.length
    have htext : p = part.text ++ [] := by
      rw [h.text, List.map_singleton, dotted_singleton, List.append_nil]
    obtain ⟨hreads, hpart, hrest⟩ :=
      (h.accepted part (List.mem_singleton.mpr rfl)).partAt_append (t := []) (by simp)
    rw [← htext] at hreads hpart hrest
    exact ⟨hreads, hrest, by rw [hpart]⟩
  · rintro ⟨hreads, hrest, rfl⟩
    have happ := partAt_text_append p
    rw [hrest, List.append_nil] at happ
    refine ⟨rfl, ?_, ?_⟩
    · rw [List.map_singleton, dotted_singleton, happ]
    · intro part hpart
      rw [List.mem_singleton.mp hpart]
      exact hreads.partAt

theorem loose_succ_iff {n : ℕ} {p : List UInt8} {parts : List Part} :
    Loose (n + 1) p parts ↔ Reads p ∧ (rest p).head? = some (byte '.') ∧
      ∃ parts', Loose n (rest p).tail parts' ∧ parts = partAt p :: parts' := by
  constructor
  · intro h
    obtain ⟨part, parts', rfl⟩ := List.exists_cons_of_length_eq_add_one h.length
    have hlength : parts'.length = n + 1 := Nat.succ.inj h.length
    have hne : parts'.map Part.text ≠ [] := by
      intro hnil
      rw [List.map_eq_nil_iff.mp hnil] at hlength
      simp at hlength
    have htext : p = part.text ++ byte '.' :: dotted (parts'.map Part.text) := by
      rw [h.text, List.map_cons, dotted_cons _ hne]
    obtain ⟨hreads, hpart, hrest⟩ := (h.accepted part (List.mem_cons_self ..)).partAt_append
      (t := byte '.' :: dotted (parts'.map Part.text)) (by
        intro c hc
        obtain rfl := Option.some.inj hc
        rfl)
    rw [← htext] at hreads hpart hrest
    refine ⟨hreads, by rw [hrest]; rfl, parts', ⟨hlength, by rw [hrest]; rfl, ?_⟩, by rw [hpart]⟩
    exact fun part' hpart' => h.accepted part' (List.mem_cons_of_mem _ hpart')
  · rintro ⟨hreads, hdot, parts', h, rfl⟩
    have hne : parts'.map Part.text ≠ [] := by
      intro hnil
      have hlength := h.length
      rw [List.map_eq_nil_iff.mp hnil] at hlength
      simp at hlength
    have hrest : byte '.' :: (rest p).tail = rest p := List.cons_head?_tail hdot
    refine ⟨by rw [List.length_cons, h.length], ?_, ?_⟩
    · rw [List.map_cons, dotted_cons _ hne, ← h.text, hrest, partAt_text_append]
    · intro part hpart
      rcases List.mem_cons.mp hpart with rfl | hpart
      · exact hreads.partAt
      · exact h.accepted part hpart

theorem Loose.unique {n : ℕ} {p : List UInt8} {parts parts' : List Part} (h : Loose n p parts)
    (h' : Loose n p parts') : parts = parts' := by
  induction n generalizing p parts parts' with
  | zero =>
    obtain ⟨-, -, rfl⟩ := loose_zero_iff.mp h
    obtain ⟨-, -, rfl⟩ := loose_zero_iff.mp h'
    rfl
  | succ n ih =>
    obtain ⟨-, -, parts₁, h₁, rfl⟩ := loose_succ_iff.mp h
    obtain ⟨-, -, parts₂, h₂, rfl⟩ := loose_succ_iff.mp h'
    rw [ih h₁ h₂]

/-- The loop accepts the strings of so many parts, and stores their numbers modulo `2 ^ 32`. -/
theorem inetAtonLoop_eq_some {errno : Option Errno} {n : ℕ} {p : List UInt8}
    {vs : List UInt32} :
    (inetAtonLoop errno n p).1 = some vs ↔
      ∃ parts, Loose n p parts ∧ vs = parts.map fun part => .ofNat (decimal part.digits) := by
  induction n generalizing p vs with
  | zero =>
    by_cases hreads : Reads p
    · rw [inetAtonLoop_zero hreads]
      constructor
      · intro h
        split at h
        · rename_i hrest
          obtain rfl := Option.some.inj h
          exact ⟨[partAt p], loose_zero_iff.mpr ⟨hreads, hrest, rfl⟩, rfl⟩
        · simp at h
      · rintro ⟨parts, hparts, rfl⟩
        obtain ⟨-, hrest, rfl⟩ := loose_zero_iff.mp hparts
        rw [if_pos hrest]
        rfl
    · rw [inetAtonLoop_not_reads _ _ hreads]
      constructor
      · simp
      · rintro ⟨parts, hparts, -⟩
        exact absurd (loose_zero_iff.mp hparts).1 hreads
  | succ n ih =>
    by_cases hreads : Reads p
    · rw [inetAtonLoop_succ hreads]
      constructor
      · intro h
        split at h
        · rename_i hdot
          obtain ⟨ws, hws, rfl⟩ := Option.map_eq_some_iff.mp h
          obtain ⟨parts, hparts, rfl⟩ := ih.mp hws
          exact ⟨partAt p :: parts, loose_succ_iff.mpr ⟨hreads, hdot, parts, hparts, rfl⟩, rfl⟩
        · simp at h
      · rintro ⟨parts, hparts, rfl⟩
        obtain ⟨-, hdot, parts', hparts', rfl⟩ := loose_succ_iff.mp hparts
        rw [if_pos hdot, ih.mpr ⟨parts', hparts', rfl⟩]
        rfl
    · rw [inetAtonLoop_not_reads _ _ hreads]
      constructor
      · simp
      · rintro ⟨parts, hparts, -⟩
        exact absurd (loose_succ_iff.mp hparts).1 hreads

end LampUserspace.Net
