import LampUserspace.Libc.Strings
import LampUserspace.Keyed.Lists
import LampUserspace.Partial.Total

/-! # The environment

`getenv`, `setenv`, `putenv`, `unsetenv` and `clearenv` of `libc_stdlib.c`. The
array behind `environ` is a list of entries, `none` being a null pointer; a read
behind its last element is `none`. A call is given what `malloc` and `realloc` do
in it.
-/

namespace LampUserspace.Stdlib

inductive Errno
  | EINVAL
  | ENOMEM
  deriving DecidableEq

/-- The array behind `environ`, or `none` for a null pointer. -/
abbrev Environ := Option (List (Option CString))

def envNameMatches (entry : Option CString) (name : CString) (nameLen : ℕ) : Bool :=
  match entry with
  | none => false
  | some entry =>
    strncmp entry.memory name.memory nameLen = 0 && entry.memory[nameLen]? = some (byte '=')

def envFindLoop (name : CString) (nameLen : ℕ) : List (Option CString) → ℕ → Option (Option ℕ)
  | [], _ => none
  | none :: _, _ => some none
  | some entry :: rest, i =>
    if envNameMatches (some entry) name nameLen then some (some i)
    else envFindLoop name nameLen rest (i + 1)

/-- The index of the entry, with `none` for -1. -/
def envFind (environ : Environ) (name : CString) (nameLen : ℕ) : Option (Option ℕ) :=
  match environ with
  | none => some none
  | some array => envFindLoop name nameLen array 0

def envValidName : Option CString → Except Errno ℕ
  | none => .error .EINVAL
  | some name =>
    if name.bytes = [] then .error .EINVAL
    else if (strchr (byte '=') name.bytes).isSome then .error .EINVAL
    else .ok name.strlen

/-- The returned pointer, `none` being null. -/
def getenv (environ : Environ) (name : Option CString) : Option (Option CString) :=
  match name, envValidName name with
  | some name, .ok nameLen => do
    let index ← envFind environ name nameLen
    match index with
    | none => return none
    | some index =>
      let entry ← (← environ)[index]?
      let equals ← strchr (byte '=') (← entry).bytes
      return some ((← entry).drop (equals + 1))
  | _, _ => some none

/-- What the allocator does in a call of `setenv`: whether `malloc` returns an entry, and what
`realloc` returns, an array with some further elements and what is in its new elements. -/
structure Allocation where
  entry : Bool
  vector : Option (ℕ × (ℕ → Option CString))

/-- The text `name=value`. -/
def assignment (name value : CString) : CString where
  bytes := name.bytes ++ byte '=' :: value.bytes
  nul_free := by
    have hname := name.nul_free
    have hvalue := value.nul_free
    simp [hname, hvalue, byte]
    decide

/-- `while (environ[count]) count++` from the element `count` on. -/
def envCountLoop : List (Option CString) → ℕ → Option ℕ
  | [], _ => none
  | none :: _, count => some count
  | some _ :: rest, count => envCountLoop rest (count + 1)

/-- `while (environ && environ[count]) count++` -/
def envCount (environ : Environ) : Option ℕ :=
  match environ with
  | none => some 0
  | some array => envCountLoop array 0

/-- `realloc` of the array: the old elements are copied. -/
def reallocVector (old : List (Option CString)) (n : ℕ) (new : ℕ → Option CString) :
    List (Option CString) :=
  (List.range n).map fun i => old[i]?.getD (new i)

/-- The array and the result, the error being `errno` of a call that returns -1. -/
def setenv (environ : Environ) (name value : Option CString) (overwrite : Bool)
    (alloc : Allocation) : Option (Environ × Except Errno Unit) :=
  match name, value, envValidName name with
  | some name, some value, .ok nameLen => do
    let index ← envFind environ name nameLen
    if index.isSome ∧ ¬ overwrite then return (environ, .ok ())
    else if ¬ alloc.entry then return (environ, .error .ENOMEM)
    else
      let entry := assignment name value
      match index with
      | some index => return (some ((← environ).set index (some entry)), .ok ())
      | none =>
        let count ← envCount environ
        match alloc.vector with
        | none => return (environ, .error .ENOMEM)
        | some (further, new) =>
          let next := reallocVector (environ.getD []) (count + 2 + further) new
          return (some ((next.set count (some entry)).set (count + 1) none), .ok ())
  | _, _, _ => return (environ, .error .EINVAL)

def putenv (environ : Environ) (string : Option CString) (alloc : Allocation) :
    Option (Environ × Except Errno Unit) :=
  match string with
  | none => return (environ, .error .EINVAL)
  | some string =>
    match strchr (byte '=') string.bytes with
    | none => return (environ, .error .EINVAL)
    | some nameLen =>
      if nameLen = 0 ∨ nameLen ≥ 128 then return (environ, .error .EINVAL)
      else
        setenv environ (some (string.take nameLen)) (some (string.drop (nameLen + 1))) true alloc

/-- `for (; index < count; index++) environ[index] = environ[index + 1]`, with `count - index`
steps to go. -/
def shiftLoop : ℕ → ℕ → List (Option CString) → Option (List (Option CString))
  | 0, _, array => some array
  | n + 1, index, array => do
    let entry ← array[index + 1]?
    shiftLoop n (index + 1) (array.set index entry)

def unsetenv (environ : Environ) (name : Option CString) : Option (Environ × Except Errno Unit) :=
  match name, envValidName name with
  | some name, .ok nameLen => do
    let index ← envFind environ name nameLen
    match index with
    | none => return (environ, .ok ())
    | some index =>
      let array ← environ
      let count ← envCountLoop array 0
      let array ← shiftLoop (count - index) index array
      return (some array, .ok ())
  | _, _ => return (environ, .error .EINVAL)

def clearenv : Environ × Except Errno Unit := (some [none], .ok ())

end LampUserspace.Stdlib
