import LampUserspace.Stdio.Formatted
import LampUserspace.Stdlib.Strtol

/-! # Internet addresses

`inet_aton`, `inet_ntoa`, `inet_ntop` and `inet_pton` of `libc_misc.c`. The machine
is little-endian. A null pointer is `none`, and a pointer into a string is the list
of the bytes that are left before its NUL.
-/

namespace LampUserspace.Net

open Stdio

inductive Errno
  | EINVAL
  | ENOMEM
  | ENOSPC
  | EAFNOSUPPORT
  deriving DecidableEq

def Errno.ofStdlib : Stdlib.Errno → Errno
  | .EINVAL => EINVAL
  | .ENOMEM => ENOMEM

def wordBytes (x : UInt32) : List UInt8 :=
  [x.toUInt8, (x >>> 8).toUInt8, (x >>> 16).toUInt8, (x >>> 24).toUInt8]

def ofWordBytes (bs : List UInt8) : UInt32 :=
  .ofNat (bs.foldr (fun b n => b.toNat + 256 * n) 0)

/-- `__builtin_bswap32` -/
def bswap32 (x : UInt32) : UInt32 := ofWordBytes (wordBytes x).reverse

def htonl (x : UInt32) : UInt32 := bswap32 x

def ntohl (x : UInt32) : UInt32 := htonl x

/-- `struct in_addr` -/
structure InAddr where
  sAddr : UInt32
  deriving DecidableEq

/-- The returned value, the structure behind the output pointer, and the error stored in `errno`,
if any. -/
structure Aton where
  ret : ℤ
  inp : Option InAddr
  errno : Option Errno
  deriving DecidableEq

/-- The rounds of the loop of `inet_aton`, of which `n` follow the one at `p`: the parts that they
store, or `none` when they return 0. -/
def inetAtonLoop (errno : Option Errno) (n : ℕ) (p : List UInt8) :
    Option (List UInt32) × Option Errno :=
  if p = [] then (none, errno)
  else
    let v := Stdlib.strtoul (some p) 10
    let errno := (v.errno.map Errno.ofStdlib).or errno
    match v.endptr with
    | none => (none, errno)
    | some stop =>
      if stop = p ∨ v.ret > 255 then (none, errno)
      else
        match n with
        | 0 => (if stop ≠ [] then none else some [v.ret], errno)
        | n + 1 =>
          if stop.head? ≠ some (byte '.') then (none, errno)
          else
            let r := inetAtonLoop errno n stop.tail
            (r.1.map (v.ret :: ·), r.2)

/-- `(parts[0] << 24) | (parts[1] << 16) | (parts[2] << 8) | parts[3]` -/
def joinParts (parts : List UInt32) : UInt32 :=
  (parts[0]?.getD 0 <<< 24) ||| (parts[1]?.getD 0 <<< 16) ||| (parts[2]?.getD 0 <<< 8) |||
    parts[3]?.getD 0

def inetAton (cp : Option (List UInt8)) (inp : Option InAddr) : Aton :=
  match cp, inp with
  | some cp, some inp =>
    let r := inetAtonLoop none 3 cp
    match r.1 with
    | none => ⟨0, some inp, r.2⟩
    | some parts => ⟨1, some ⟨htonl (joinParts parts)⟩, r.2⟩
  | _, inp => ⟨0, inp, none⟩

def afInet : ℤ := 2

def inetPton (af : ℤ) (src : Option (List UInt8)) (dst : Option InAddr) : Aton :=
  if src.isNone ∨ dst.isNone then ⟨-1, dst, some .EINVAL⟩
  else if af = afInet then inetAton src dst
  else ⟨-1, dst, some .EAFNOSUPPORT⟩

/-- `"%u.%u.%u.%u"` -/
def quadFormat : CString :=
  ⟨[byte '%', byte 'u', byte '.', byte '%', byte 'u', byte '.', byte '%', byte 'u', byte '.',
    byte '%', byte 'u'], by decide⟩

def quadArgs (a : UInt32) : List Arg :=
  [.word ((a >>> 24) &&& 0xff), .word ((a >>> 16) &&& 0xff), .word ((a >>> 8) &&& 0xff),
    .word (a &&& 0xff)]

/-- The memory after the call, whose static buffer is at `buf`. -/
def inetNtoa (memory : Memory) (buf : ℕ) (inp : InAddr) : Option Memory := do
  let r ← vsnprintf memory (some buf) 16 quadFormat (quadArgs (ntohl inp.sAddr))
  return r.memory

/-- The memory after a call, the returned pointer and the error stored in `errno`, if any. -/
structure Ntop where
  memory : Memory
  ret : Option ℕ
  errno : Option Errno

/-- `socklen_t` and `size_t` have 32 bits; the count that `snprintf` returns is not negative. -/
def inetNtop (memory : Memory) (af : ℤ) (src : Option InAddr) (dst : Option ℕ) (size : UInt32) :
    Option Ntop :=
  match src, dst with
  | some src, some dst =>
    if size = 0 then some ⟨memory, none, some .EINVAL⟩
    else if af = afInet then do
      let r ← vsnprintf memory (some dst) size.toNat quadFormat (quadArgs (ntohl src.sAddr))
      return if r.ret ≥ size.toNat then ⟨r.memory, none, some .ENOSPC⟩
        else ⟨r.memory, some dst, none⟩
    else some ⟨memory, none, some .EAFNOSUPPORT⟩
  | _, _ => some ⟨memory, none, some .EINVAL⟩

end LampUserspace.Net
