import LampUserspace.Net.Addresses
import LampUserspace.Stdio.Numbers

/-! # Addresses printed and read back

`inet_ntoa` and `inet_ntop` print the bytes of an address as a dotted quad of at most
15 characters, which `inet_aton` and `inet_pton` take back to the address.
-/

namespace LampUserspace.Net

open Numerals Stdio

/-- The texts of the bytes of an address. -/
def runsOf (addr : InAddr) : List (List UInt8) :=
  (wordBytes addr.sAddr).map fun b => numberText 10 false b.toNat

def quadText (addr : InAddr) : List UInt8 := dotted (runsOf addr)

theorem bytes_u (x : UInt32) :
    (Piece.uint x.toNat 10 0 false 0 false false (-1) []).bytes =
      numberText 10 false x.toNat := by
  have hneg : ∀ len : ℕ, ((-1 : ℤ) - len).toNat = 0 := fun len => by omega
  have hlength : (numberText 10 false x.toNat).length ≤ 10 :=
    length_numberText_le (by decide) (by decide) (x.toNat_lt.trans (by decide))
  have hmissing : missing 0 (numberText 10 false x.toNat).length = 0 := by
    rw [missing_eq (by decide) (by omega)]
    omega
  simp [Piece.bytes, filler, numeral, digits_eq, lead, hneg, hmissing]

theorem toNat_and_255 (x : UInt32) : (x &&& 0xff).toNat = x.toNat % 256 := by
  rw [UInt32.toNat_and]
  exact Nat.and_two_pow_sub_one_eq_mod x.toNat 8

theorem quadArgs_ntohl (addr : InAddr) :
    ∃ x₁ x₂ x₃ x₄ : UInt32,
      quadArgs (ntohl addr.sAddr) = [.word x₁, .word x₂, .word x₃, .word x₄] ∧
      (wordBytes addr.sAddr).map UInt8.toNat = [x₁.toNat, x₂.toNat, x₃.toNat, x₄.toNat] := by
  refine ⟨_, _, _, _, rfl, ?_⟩
  have hlt := (ntohl addr.sAddr).toNat_lt
  have hbytes := toNat_wordBytes (ntohl addr.sAddr)
  have hshift : ∀ k : ℕ, k < 32 → ((ntohl addr.sAddr) >>> UInt32.ofNat k &&& 0xff).toNat =
      (ntohl addr.sAddr).toNat / 2 ^ k % 256 := by
    intro k hk
    rw [toNat_and_255, UInt32.toNat_shiftRight, UInt32.toNat_ofNat',
      Nat.mod_eq_of_lt (show k < 2 ^ 32 by omega), Nat.mod_eq_of_lt hk,
      Nat.shiftRight_eq_div_pow]
  have hreverse : (wordBytes addr.sAddr).reverse = wordBytes (ntohl addr.sAddr) :=
    (wordBytes_bswap32 _).symm
  rw [← List.reverse_inj, ← List.map_reverse, hreverse, hbytes, List.reverse_cons,
    List.reverse_cons, List.reverse_cons, List.reverse_cons, List.reverse_nil]
  simp only [List.nil_append, List.cons_append, List.cons.injEq, and_true]
  refine ⟨(toNat_and_255 _).symm, (hshift 8 (by decide)).symm, (hshift 16 (by decide)).symm, ?_⟩
  have hlast : (ntohl addr.sAddr >>> 24 &&& 0xff).toNat = _ := hshift 24 (by decide)
  rw [hlast]
  omega

theorem formatted_quad (addr : InAddr) :
    formatted quadFormat (quadArgs (ntohl addr.sAddr)) = some (quadText addr) := by
  obtain ⟨x₁, x₂, x₃, x₄, hargs, hbytes⟩ := quadArgs_ntohl addr
  have hread : ∀ (x : UInt32) fmt ap, readPiece (byte 'u' :: fmt) (.word x :: ap) =
      some (.uint x.toNat 10 0 false 0 false false (-1) [], fmt, ap) := fun x fmt ap => rfl
  have hdot := pieces_of_ne (show byte '.' ≠ byte '%' by decide)
  have hpieces : pieces quadFormat.bytes [.word x₁, .word x₂, .word x₃, .word x₄] =
      some [.uint x₁.toNat 10 0 false 0 false false (-1) [], .char (byte '.'),
        .uint x₂.toNat 10 0 false 0 false false (-1) [], .char (byte '.'),
        .uint x₃.toNat 10 0 false 0 false false (-1) [], .char (byte '.'),
        .uint x₄.toNat 10 0 false 0 false false (-1) []] := by
    unfold quadFormat
    simp only [pieces_percent, hread, hdot, pieces_nil, Option.bind_some, Option.map_some]
  have hruns : runsOf addr =
      [x₁.toNat, x₂.toNat, x₃.toNat, x₄.toNat].map (numberText 10 false) := by
    rw [← hbytes, List.map_map]
    rfl
  have hchar : ∀ c, (Piece.char c).bytes = [c] := fun c => rfl
  rw [hargs, formatted, hpieces, quadText, hruns]
  simp only [Option.map_some, List.flatMap_cons, List.flatMap_nil, bytes_u, hchar, List.map_cons,
    List.map_nil, dotted_singleton, ne_eq, reduceCtorEq, not_false_eq_true, dotted_cons,
    List.append_nil, List.cons_append, List.nil_append]

theorem mem_runsOf {addr : InAddr} {run : List UInt8} (h : run ∈ runsOf addr) :
    ∃ n < 256, run = numberText 10 false n := by
  obtain ⟨b, -, rfl⟩ := List.mem_map.mp h
  exact ⟨b.toNat, b.toNat_lt, rfl⟩

theorem isdigit_of_mem_runsOf {addr : InAddr} {run : List UInt8} (h : run ∈ runsOf addr)
    {c : UInt8} (hc : c ∈ run) : isdigit c = true := by
  obtain ⟨n, -, rfl⟩ := mem_runsOf h
  exact isDigit_ten c ▸ isDigit_of_mem_numberText (by decide) (by decide) hc

theorem quad_quadText (addr : InAddr) : Quad (quadText addr) (runsOf addr) where
  length := rfl
  text := rfl
  digits := by
    intro run hrun
    refine ⟨?_, fun c hc => isdigit_of_mem_runsOf hrun hc⟩
    obtain ⟨n, -, rfl⟩ := mem_runsOf hrun
    exact numberText_ne_nil n
  range := by
    intro run hrun
    obtain ⟨n, hn, rfl⟩ := mem_runsOf hrun
    have hvalue : decimal (numberText 10 false n) = n := number_numberText (by decide) (by decide) n
    omega

theorem decimal_runsOf (addr : InAddr) :
    (runsOf addr).map decimal = (wordBytes addr.sAddr).map UInt8.toNat := by
  rw [runsOf, List.map_map]
  apply List.map_congr_left
  intro b hb
  exact number_numberText (by decide) (by decide) b.toNat

theorem length_quadText (addr : InAddr) : (quadText addr).length ≤ 15 := by
  have hlength : ∀ b : UInt8, (numberText 10 false b.toNat).length ≤ 3 := fun b =>
    length_numberText_le (by decide) (by decide) (b.toNat_lt.trans (by decide))
  have h₁ := hlength addr.sAddr.toUInt8
  have h₂ := hlength (addr.sAddr >>> 8).toUInt8
  have h₃ := hlength (addr.sAddr >>> 16).toUInt8
  have h₄ := hlength (addr.sAddr >>> 24).toUInt8
  simp only [quadText, runsOf, wordBytes, List.map_cons, List.map_nil, dotted_singleton, ne_eq,
    reduceCtorEq, not_false_eq_true, dotted_cons, List.length_append, List.length_cons]
  omega

theorem nul_free_quadText (addr : InAddr) : 0 ∉ quadText addr := by
  have hdot : ¬ (0 : UInt8) = byte '.' := by decide
  have hrun : ∀ b : UInt8, 0 ∉ numberText 10 false b.toNat := by
    intro b h
    have hdigit := isDigit_of_mem_numberText (by decide) (by decide) h
    exact absurd hdigit (by decide)
  simp only [quadText, runsOf, wordBytes, List.map_cons, List.map_nil, dotted_singleton, ne_eq,
    reduceCtorEq, not_false_eq_true, dotted_cons, List.mem_append, List.mem_cons, hdot, hrun,
    or_self, not_false_eq_true]

theorem inetAton_quadText (addr inp : InAddr) :
    (inetAton (some (quadText addr)) (some inp)).ret = 1 ∧
      (inetAton (some (quadText addr)) (some inp)).inp = some addr := by
  have hquad := quad_quadText addr
  obtain ⟨hret, hinp⟩ := inetAton_of_loose inp hquad.loose
  have haddress := hquad.address
  rw [decimal_runsOf] at haddress
  have hbytes := List.map_injective_iff.mpr (fun x y h => UInt8.toNat_inj.mp h) haddress
  refine ⟨hret, hinp.trans ?_⟩
  rw [← ofWordBytes_wordBytes (htonl _), hbytes, ofWordBytes_wordBytes]

/-! ## The calls -/

theorem inetNtoa_eq (memory : Memory) (buf : ℕ) (addr : InAddr) :
    inetNtoa memory buf addr = some (memory.write buf (quadText addr ++ [0])) := by
  have hlength := length_quadText addr
  have htake : (quadText addr).take (16 - 1) = quadText addr := List.take_of_length_le hlength
  unfold inetNtoa
  rw [vsnprintf_eq, formatted_quad]
  simp [printed, htake]

/-- The call prints the whole text, or reports that it does not fit. -/
theorem inetNtop_eq (memory : Memory) (addr : InAddr) (dst : ℕ) {size : UInt32}
    (hsize : size ≠ 0) :
    inetNtop memory afInet (some addr) (some dst) size =
      some ⟨memory.write dst ((quadText addr).take (size.toNat - 1) ++ [0]),
        if (quadText addr).length < size.toNat then some dst else none,
        if (quadText addr).length < size.toNat then none else some .ENOSPC⟩ := by
  have hpos : size.toNat ≠ 0 := fun h => hsize (UInt32.toNat_inj.mp h)
  unfold inetNtop
  simp only [if_neg hsize, vsnprintf_eq, formatted_quad, Option.map_some, printed, if_neg hpos]
  by_cases h : (quadText addr).length < size.toNat
  · simp [h, Nat.not_le_of_lt h]
  · simp [h, Nat.le_of_not_lt h]

def ReadBack (memory memory' : Memory) (a : ℕ) (addr : InAddr) : Prop :=
  Terminated memory memory' a (quadText addr) ∧ 0 ∉ quadText addr ∧
    ∀ inp, (inetAton (some (quadText addr)) (some inp)).ret = 1 ∧
      (inetAton (some (quadText addr)) (some inp)).inp = some addr ∧
      (inetPton afInet (some (quadText addr)) (some inp)).ret = 1 ∧
      (inetPton afInet (some (quadText addr)) (some inp)).inp = some addr

theorem readBack_write (memory : Memory) (a : ℕ) (addr : InAddr) :
    ReadBack memory (memory.write a (quadText addr ++ [0])) a addr := by
  refine ⟨terminated_write memory a _, nul_free_quadText addr, fun inp => ?_⟩
  obtain ⟨hret, hinp⟩ := inetAton_quadText addr inp
  exact ⟨hret, hinp, hret, hinp⟩

/-- What `inet_ntoa`, and `inet_ntop` with 16 bytes, print is read back as the address; with fewer
bytes `inet_ntop` prints the whole text or fails. -/
theorem inet_roundtrip (memory : Memory) (addr : InAddr) (dst : ℕ) (size : UInt32)
    (hsize : size ≠ 0) :
    (∃ memory', inetNtoa memory dst addr = some memory' ∧ ReadBack memory memory' dst addr) ∧
    ∃ r, inetNtop memory afInet (some addr) (some dst) size = some r ∧
      (16 ≤ size.toNat → r.ret = some dst) ∧
      (r.ret = some dst ∧ r.errno = none ∧ ReadBack memory r.memory dst addr ∨
        r.ret = none ∧ r.errno = some .ENOSPC) := by
  refine ⟨⟨_, inetNtoa_eq memory dst addr, readBack_write memory dst addr⟩,
    _, inetNtop_eq memory addr dst hsize, ?_, ?_⟩
  · intro h16
    have hlength := length_quadText addr
    exact if_pos (by omega)
  · by_cases h : (quadText addr).length < size.toNat
    · left
      have htake : (quadText addr).take (size.toNat - 1) = quadText addr :=
        List.take_of_length_le (by omega)
      simp only [if_pos h, htake, true_and]
      exact readBack_write memory dst addr
    · right
      simp only [if_neg h, and_self]

/-- Eight bytes hold no text, or the whole text of 1.2.3.4. -/
theorem inet_roundtrip_eight :
    ∃ r, inetNtop (fun _ => 1) afInet (some ⟨0x04030201⟩) (some 100) 8 = some r ∧
      (r.ret = some 100 ∧ r.errno = none ∧ ReadBack (fun _ => 1) r.memory 100 ⟨0x04030201⟩ ∨
        r.ret = none ∧ r.errno = some .ENOSPC) := by
  obtain ⟨-, r, hr, -, hcases⟩ := inet_roundtrip (fun _ => 1) ⟨0x04030201⟩ 100 8 (by decide)
  exact ⟨r, hr, hcases⟩

end LampUserspace.Net
