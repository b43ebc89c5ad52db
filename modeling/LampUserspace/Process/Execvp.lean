import LampUserspace.Search.InOrder
import LampUserspace.Stdlib.Environ

/-! # Running a program along PATH

`execvp` of `libc_syscalls.c`. The system is a function that gives the value and
the error of the last of some attempted paths, or nothing where `execve` does not
return. PATH and the file name lie in one address space, so their lengths add up
without wrapping.
-/

namespace LampUserspace.Process

open InOrder Stdlib

def ENOENT : ℤ := 2

def EFAULT : ℤ := 14

/-- `sizeof(full_path)`. -/
abbrev sizeofFullPath : ℕ := 256

/-- What `libsys_execve` returns and leaves in `libsys_errno` for the last of the attempted
paths. -/
abbrev Libsys : Type := List (List UInt8) → Option (ℤ × ℤ)

def retErrno (rc libsysErrno : ℤ) : ℤ × ℤ := if rc < 0 then (-1, libsysErrno) else (rc, 0)

def execve (libsys : Libsys) (attempts : List (List UInt8)) : Option (ℤ × ℤ) :=
  (libsys attempts).map fun r => retErrno r.1 r.2

/-- Store bytes in the buffer, `none` where one lies outside. -/
def storeBytes (fullPath : Vector UInt8 sizeofFullPath) :
    ℕ → List UInt8 → Option (Vector UInt8 sizeofFullPath)
  | _, [] => some fullPath
  | i, b :: bs =>
    if h : i < sizeofFullPath then storeBytes (fullPath.set i b h) (i + 1) bs else none

/-- The attempted paths, and the returned value with `errno` unless an attempt did not return. -/
structure ExecResult where
  attempts : List (List UInt8)
  ret : Option (ℤ × ℤ)
  deriving DecidableEq, Repr

theorem length_drop_lt {s : List UInt8} {n : ℕ} (hs : s ≠ []) (hn : n ≠ 0) :
    (s.drop n).length < s.length := by
  have hpos := List.length_pos_iff.mpr hs
  rw [List.length_drop]
  omega

theorem next_ne_zero {s : List UInt8} (stop : Option ℕ) (h : stop.getD s.length ≠ 0) :
    stop.elim (stop.getD s.length) (· + 1) ≠ 0 := by
  cases stop with
  | none => exact h
  | some i => exact Nat.succ_ne_zero i

/-- The loop over PATH, from the bytes `path_env` on. -/
def execvpLoop (libsys : Libsys) (file : CString) (pathEnv : List UInt8)
    (fullPath : Vector UInt8 sizeofFullPath) (attempts : List (List UInt8)) (errno : ℤ) :
    Option ExecResult :=
  if pathEnv = [] then some ⟨attempts, some (-1, errno)⟩
  else
    let stop := strchr (byte ':') pathEnv
    let dirLen := stop.getD pathEnv.length
    let next := pathEnv.drop (stop.elim dirLen (· + 1))
    if dirLen = 0 then execvpLoop libsys file (pathEnv.drop 1) fullPath attempts errno
    else if sizeofFullPath < dirLen + 1 + file.strlen + 1 then
      execvpLoop libsys file next fullPath attempts errno
    else do
      let fullPath ← storeBytes fullPath 0 (pathEnv.take dirLen)
      let fullPath ← storeBytes fullPath dirLen [byte '/']
      let fullPath ← storeBytes fullPath (dirLen + 1) file.memory
      let attempts := attempts ++ [stringFrom fullPath.toList 0]
      match execve libsys attempts with
      | none => some ⟨attempts, none⟩
      | some (_, errno) =>
        if errno ≠ ENOENT then some ⟨attempts, some (-1, errno)⟩
        else execvpLoop libsys file next fullPath attempts errno
termination_by pathEnv.length
decreasing_by
  · exact length_drop_lt ‹_› Nat.one_ne_zero
  · exact length_drop_lt ‹_› (next_ne_zero _ ‹_›)
  · exact length_drop_lt ‹_› (next_ne_zero _ ‹_›)

def PATH : CString := ⟨[byte 'P', byte 'A', byte 'T', byte 'H'], by decide⟩

/-- The default for an unset variable. -/
def bin : CString := ⟨[byte '/', byte 'b', byte 'i', byte 'n'], by decide⟩

/-- `execvp`, with what the uninitialised buffer and `errno` hold before; `none` where it leaves
an object. -/
def execvp (libsys : Libsys) (environ : Environ) (file : Option CString)
    (fullPath : Vector UInt8 sizeofFullPath) (errno : ℤ) : Option ExecResult :=
  match file with
  | none => some ⟨[], some (-1, EFAULT)⟩
  | some file =>
    if (strchr (byte '/') file.bytes).isSome then
      some ⟨[file.bytes], execve libsys [file.bytes]⟩
    else do
      let pathEnv ← getenv environ (some PATH)
      execvpLoop libsys file (pathEnv.getD bin).bytes fullPath [] errno

/-! ## The buffer -/

theorem storeBytes_eq (bs : List UInt8) (i : ℕ) (buf : Vector UInt8 sizeofFullPath)
    (h : i + bs.length ≤ sizeofFullPath) :
    ∃ buf', storeBytes buf i bs = some buf' ∧
      buf'.toList = buf.toList.take i ++ (bs ++ buf.toList.drop (i + bs.length)) := by
  induction bs generalizing buf i with
  | nil => exact ⟨buf, rfl, by simp⟩
  | cons b bs ih =>
    rw [List.length_cons, ← Nat.succ_eq_add_one, ← Nat.succ_add_eq_add_succ] at h
    have hi : i < sizeofFullPath := Nat.lt_of_lt_of_le (Nat.lt_succ_self i) (by omega)
    obtain ⟨buf', hbuf', hlist⟩ := ih (i + 1) (buf.set i b hi) h
    refine ⟨buf', by rw [storeBytes, dif_pos hi, hbuf'], ?_⟩
    have hlen : i < buf.toList.length := by simpa using hi
    have htake : (buf.set i b hi).toList.take (i + 1) = buf.toList.take i ++ [b] := by
      rw [Vector.toList_set, List.take_add_one, List.take_set_of_le (Nat.le_refl i),
        List.getElem?_set_self hlen]
      rfl
    have hdrop : (buf.set i b hi).toList.drop (i + 1 + bs.length) =
        buf.toList.drop (i + (b :: bs).length) := by
      rw [Vector.toList_set, List.drop_set_of_lt (by omega), List.length_cons]
      congr 1
      omega
    rw [hlist, htake, hdrop, List.append_assoc]
    rfl

/-- A directory that fits leaves the path of the file in it as the string in the buffer. -/
theorem fullPath_eq {dir : List UInt8} {file : CString} (buf : Vector UInt8 sizeofFullPath)
    (h0 : 0 ∉ dir) (hfit : dir.length + 1 + file.strlen + 1 ≤ sizeofFullPath) :
    ∃ b₁ b₂ b₃, storeBytes buf 0 dir = some b₁ ∧
      storeBytes b₁ dir.length [byte '/'] = some b₂ ∧
      storeBytes b₂ (dir.length + 1) file.memory = some b₃ ∧
      stringFrom b₃.toList 0 = dir ++ byte '/' :: file.bytes := by
  have hmem : file.memory.length = file.strlen + 1 := by simp [CString.memory, CString.strlen]
  obtain ⟨b₁, h₁, hlist₁⟩ := storeBytes_eq dir 0 buf (by omega)
  obtain ⟨b₂, h₂, hlist₂⟩ := storeBytes_eq [byte '/'] dir.length b₁
    (Nat.le_trans (Nat.le_add_right _ _) (Nat.le_trans (Nat.le_add_right _ 1) hfit))
  obtain ⟨b₃, h₃, hlist₃⟩ := storeBytes_eq file.memory (dir.length + 1) b₂
    (by rw [hmem]; exact hfit)
  refine ⟨b₁, b₂, b₃, h₁, h₂, h₃, ?_⟩
  have hname : 0 ∉ dir ++ byte '/' :: file.bytes := by
    intro hmem
    rcases List.mem_append.mp hmem with hd | hf
    · exact h0 hd
    · exact (List.mem_cons.mp hf).elim (fun heq => absurd heq (by decide)) file.nul_free
  have hfront : b₂.toList.take (dir.length + 1) = dir ++ [byte '/'] := by
    rw [hlist₂, hlist₁, List.take_zero, List.nil_append, List.take_left, ← List.append_assoc]
    exact List.take_left' (by simp)
  have hall : b₃.toList = [] ++ ((dir ++ byte '/' :: file.bytes) ++
      0 :: b₂.toList.drop (dir.length + 1 + file.memory.length)) := by
    rw [hlist₃, hfront]
    simp [CString.memory]
  rw [hall]
  exact stringFrom_append (b := []) hname

/-! ## The candidates -/

def components (path : List UInt8) : List (List UInt8) :=
  (path.splitOn (byte ':')).filter (· ≠ [])

/-- The paths of the file in those directories for which they fit in the buffer. -/
def candidates (file : CString) (path : List UInt8) : List (List UInt8) :=
  ((components path).filter fun dir => dir.length + 1 + file.strlen + 1 ≤ sizeofFullPath).map
    fun dir => dir ++ byte '/' :: file.bytes

section Candidates

variable {dir path rest : List UInt8}

theorem candidates_colon (file : CString) (hdir : byte ':' ∉ dir) (rest : List UInt8) :
    candidates file (dir ++ byte ':' :: rest) = candidates file dir ++ candidates file rest := by
  simp only [candidates, components, List.splitOn_append_cons_self_of_not_mem hdir,
    List.splitOn_eq_singleton hdir, List.filter_cons, List.filter_nil]
  split
  · rw [List.filter_cons, List.filter_cons]
    split
    · rfl
    · rfl
  · rfl

theorem candidates_dir (file : CString) (hdir : byte ':' ∉ dir) :
    candidates file dir =
      if dir ≠ [] ∧ dir.length + 1 + file.strlen + 1 ≤ sizeofFullPath then
        [dir ++ byte '/' :: file.bytes]
      else [] := by
  rw [candidates, components, List.splitOn_eq_singleton hdir]
  by_cases hne : dir = []
  · simp [hne]
  · simp only [List.filter_cons, List.filter_nil, decide_eq_true_eq, ne_eq, hne, not_false_eq_true,
      if_true, true_and]
    split
    · rfl
    · rfl

/-- The first component of PATH and the bytes with which the loop goes on after it. -/
structure Head (file : CString) (path dir rest : List UInt8) : Prop where
  colon_free : byte ':' ∉ dir
  length_eq : (strchr (byte ':') path).getD path.length = dir.length
  take_eq : path.take dir.length = dir
  drop_eq : path.drop ((strchr (byte ':') path).elim dir.length (· + 1)) = rest
  drop_one : dir = [] → path.drop 1 = rest
  candidates_eq : candidates file path = candidates file dir ++ candidates file rest

theorem Head.length_lt {file : CString} (h : Head file path dir rest) (hne : path ≠ []) :
    rest.length < path.length := by
  rw [← h.drop_eq]
  refine length_drop_lt hne ?_
  cases hstop : strchr (byte ':') path with
  | none =>
    have hlen := h.length_eq
    rw [hstop] at hlen
    exact fun hzero => hne (List.eq_nil_of_length_eq_zero (hlen.trans hzero))
  | some i => exact Nat.succ_ne_zero i

theorem exists_head (file : CString) (hne : path ≠ []) : ∃ dir rest, Head file path dir rest := by
  by_cases hmem : byte ':' ∈ path
  · obtain ⟨dir, rest, rfl, hdir⟩ := List.eq_append_cons_of_mem hmem
    have hstop := strchr_append (s := rest) hdir
    have hdrop : (dir ++ byte ':' :: rest).drop (dir.length + 1) = rest := by
      rw [List.drop_append]
      simp
    refine ⟨dir, rest, hdir, by rw [hstop]; rfl, List.take_left, by rw [hstop]; exact hdrop,
      fun hnil => ?_, candidates_colon file hdir rest⟩
    rw [hnil] at hdrop ⊢
    exact hdrop
  · have hstop := (strchr_eq_none (c := byte ':') (by decide)).mpr hmem
    refine ⟨path, [], hmem, by rw [hstop]; rfl, List.take_length, ?_, fun hnil => absurd hnil hne,
      ?_⟩
    · rw [hstop]
      exact List.drop_length
    · exact (List.append_nil _).symm

end Candidates

/-! ## The attempts -/

/-- The error that the last of some attempted paths leaves in `errno`. -/
def failure (libsys : Libsys) (attempts : List (List UInt8)) : Option ℤ :=
  (execve libsys attempts).map Prod.snd

def ExecResult.ofOutcome (r : Outcome (List UInt8) ℤ) : ExecResult :=
  ⟨r.attempts, r.error.map fun e => (-1, e)⟩

theorem execvpLoop_eq (libsys : Libsys) (file : CString) (path : List UInt8) (h0 : 0 ∉ path)
    (buf : Vector UInt8 sizeofFullPath) (attempts : List (List UInt8)) (errno : ℤ) :
    execvpLoop libsys file path buf attempts errno = some (.ofOutcome
      (tryEach (failure libsys) (· = ENOENT) attempts errno (candidates file path))) := by
  rw [execvpLoop]
  split
  · rename_i hnil
    rw [hnil]
    rfl
  · rename_i hne
    obtain ⟨dir, rest, h⟩ := exists_head file hne
    have hlt := h.length_lt hne
    have h0dir : 0 ∉ dir := fun hmem => h0 (List.mem_of_mem_take (h.take_eq ▸ hmem))
    have h0rest : 0 ∉ rest := fun hmem => h0 (List.mem_of_mem_drop (h.drop_eq ▸ hmem))
    have ih := execvpLoop_eq libsys file rest h0rest
    rw [h.candidates_eq, candidates_dir file h.colon_free]
    simp only [h.length_eq, h.drop_eq]
    by_cases hdir : dir = []
    · rw [if_pos (by rw [hdir]; rfl), if_neg fun hand => hand.1 hdir, h.drop_one hdir, ih,
        List.nil_append]
    · rw [if_neg fun hlen => hdir (List.eq_nil_of_length_eq_zero hlen)]
      by_cases hfit : dir.length + 1 + file.strlen + 1 ≤ sizeofFullPath
      · obtain ⟨b₁, b₂, b₃, h₁, h₂, h₃, hname⟩ := fullPath_eq buf h0dir hfit
        rw [if_neg (Nat.not_lt_of_le hfit), if_pos ⟨hdir, hfit⟩, List.singleton_append, tryEach,
          failure]
        simp only [h.take_eq, h₁, h₂, h₃, hname, Option.bind_eq_bind, Option.bind_some, ih]
        cases hexec : execve libsys (attempts ++ [dir ++ byte '/' :: file.bytes]) with
        | none => rfl
        | some r =>
          by_cases herr : r.2 = ENOENT
          · simp [herr]
          · simp [herr, ExecResult.ofOutcome]
      · rw [if_pos (Nat.lt_of_not_le hfit), if_neg fun hand => hfit hand.2, ih, List.nil_append]
termination_by path.length

/-- What `execvp` does with a file name without a slash: it returns unless an attempt does not
return, and the attempted paths are the candidates in order up to the first whose error is not
`ENOENT`. -/
structure RunsAlong (libsys : Libsys) (path : List UInt8) (file : CString) (errno : ℤ)
    (r : ExecResult) : Prop where
  tried : Tried (failure libsys) (· = ENOENT) (candidates file path) errno
    ⟨r.attempts, r.ret.map Prod.snd⟩
  returned : ∀ v, r.ret = some v → v.1 = -1
  returns : (∀ attempts, libsys attempts ≠ none) → r.ret ≠ none

theorem RunsAlong.ofTried {libsys : Libsys} {path : List UInt8} {file : CString} {errno : ℤ}
    {r : Outcome (List UInt8) ℤ}
    (h : Tried (failure libsys) (· = ENOENT) (candidates file path) errno r) :
    RunsAlong libsys path file errno (.ofOutcome r) where
  tried := by
    have hret : ((ExecResult.ofOutcome r).ret.map Prod.snd) = r.error := by
      cases hr : r.error <;> simp [ExecResult.ofOutcome, hr]
    rw [hret]
    exact h
  returned v hv := by
    obtain ⟨e, -, rfl⟩ := Option.map_eq_some_iff.mp hv
    rfl
  returns hall hnone := by
    have herr := h.error_eq
    rw [Option.map_eq_none_iff.mp hnone] at herr
    split at herr
    · cases herr
    · have hexec : execve libsys r.attempts = none := Option.map_eq_none_iff.mp herr.symm
      exact hall _ (Option.map_eq_none_iff.mp hexec)

/-- `execvp` gives a result, so it terminates and every store is in the buffer. -/
theorem execvp_runsAlong (libsys : Libsys) {environ : Environ} {path : Option CString}
    {file : CString} (hfile : byte '/' ∉ file.bytes)
    (hpath : getenv environ (some PATH) = some path) (buf : Vector UInt8 sizeofFullPath)
    (errno : ℤ) :
    ∃ r, execvp libsys environ (some file) buf errno = some r ∧
      RunsAlong libsys (path.getD bin).bytes file errno r := by
  have hstrchr := (strchr_eq_none (c := byte '/') (by decide)).mpr hfile
  have htried : Tried (failure libsys) (· = ENOENT) ([] ++ candidates file (path.getD bin).bytes)
      errno (tryEach (failure libsys) (· = ENOENT) [] errno _) :=
    tryEach_tried _ (fun d c hd => by simp at hd) rfl
  refine ⟨_, ?_, .ofTried htried⟩
  simp only [execvp, hstrchr, hpath, Option.isSome_none, Bool.false_eq_true, if_false,
    Option.bind_eq_bind, Option.bind_some]
  exact execvpLoop_eq libsys file _ (path.getD bin).nul_free buf [] errno

/-- `PATH=a:b`, where no attempt finds the file. -/
theorem execvp_runsAlong_two :
    ∃ r, execvp (fun _ => some (-1, 2))
      (some [some ⟨[byte 'P', byte 'A', byte 'T', byte 'H', byte '=', byte 'a', byte ':', byte 'b'],
        by decide⟩, none]) (some ⟨[byte 'l', byte 's'], by decide⟩) (Vector.replicate _ 0) 0 =
        some r ∧
      RunsAlong (fun _ => some (-1, 2)) [byte 'a', byte ':', byte 'b']
        ⟨[byte 'l', byte 's'], by decide⟩ 0 r :=
  @execvp_runsAlong _ _ (some ⟨[byte 'a', byte ':', byte 'b'], by decide⟩) _ (by decide)
    (by decide) _ _

end LampUserspace.Process
