import Katmai.Foundation.StreamCipher

/-!
# RC4

`misclib/rc4encrypt.c`. The key holds two counters and a table of 256 words, all of C type
`unsigned int`. One `LOOP` of the macro of that name moves both counters, swaps two table entries
and writes one byte. `RC4` runs it eight times per round of its first loop, `len >> 3` rounds, and
then once for each of the `len & 7` bytes left over. `RC4_set_key` fills the table from a key, four
entries per round.

The unrolling changes nothing: `RC4` over `len` bytes is `len` steps of a stream cipher with the
keystream `rc4Next` (`rc4_eq_iterate`), so the rules for stream ciphers apply to it.
-/

set_option autoImplicit false
set_option relaxedAutoImplicit false

namespace Katmai.Misclib

open Katmai.Foundation

/-- `RC4_KEY`. -/
structure Rc4Key where
  x : UInt32
  y : UInt32
  data : ℕ → UInt32

/-- The part of `LOOP` before the byte is written: both counters move, the entries they point at
are swapped, and the entry at the sum of the two is the keystream word. -/
def rc4Word (key : Rc4Key) : UInt32 × Rc4Key :=
  let x := (key.x + 1) &&& 0xff
  let tx := key.data x.toNat
  let y := (tx + key.y) &&& 0xff
  let ty := key.data y.toNat
  let d := Function.update (Function.update key.data x.toNat ty) y.toNat tx
  (d ((tx + ty) &&& 0xff).toNat, { x := x, y := y, data := d })

/-- The keystream: of each word, what an `unsigned char` holds. -/
def rc4Next (key : Rc4Key) : UInt8 × Rc4Key :=
  ((rc4Word key).1.toUInt8, (rc4Word key).2)

section

variable {ρ : Type} [DecidableEq ρ]

/-- `RC4_LOOP`: one byte from `*indata++` to `*outdata++`. -/
def rc4Loop (s : CryptState Rc4Key ρ) : CryptState Rc4Key ρ where
  cipher := (rc4Word s.cipher).2
  mem := Function.update s.mem s.outdata
    ((rc4Word s.cipher).1 ^^^ (s.mem s.indata).toUInt32).toUInt8
  indata := s.indata.add 1
  outdata := s.outdata.add 1

/-- The first loop of `RC4`: eight bytes for each round. -/
def rc4Eights : ℕ → CryptState Rc4Key ρ → CryptState Rc4Key ρ
  | 0, s => s
  | i + 1, s =>
    rc4Eights i (rc4Loop (rc4Loop (rc4Loop (rc4Loop (rc4Loop (rc4Loop (rc4Loop (rc4Loop s))))))))

/-- The second loop of `RC4`: it leaves after any of its seven copies of the body once the count is
down to zero, so a round is one byte. -/
def rc4Tail : ℕ → CryptState Rc4Key ρ → CryptState Rc4Key ρ
  | 0, s => s
  | i + 1, s => rc4Tail i (rc4Loop s)

/-- `RC4`. -/
def rc4 (len : ℕ) (s : CryptState Rc4Key ρ) : CryptState Rc4Key ρ :=
  rc4Tail (len &&& 0x07) (rc4Eights (len >>> 3) s)

theorem rc4Loop_eq_cryptStep : @rc4Loop ρ _ = cryptStep rc4Next := by
  funext s
  rw [rc4Loop, cryptStep, UInt32.toUInt8_xor, UInt8.toUInt8_toUInt32]
  rfl

theorem rc4Eights_eq_iterate (i : ℕ) (s : CryptState Rc4Key ρ) :
    rc4Eights i s = rc4Loop^[8 * i] s := by
  induction i generalizing s with
  | zero => rfl
  | succ i ih =>
    rw [rc4Eights, ih, Nat.mul_succ, Function.iterate_add_apply]
    rfl

theorem rc4Tail_eq_iterate (i : ℕ) (s : CryptState Rc4Key ρ) : rc4Tail i s = rc4Loop^[i] s := by
  induction i generalizing s with
  | zero => rfl
  | succ i ih => rw [rc4Tail, ih, Function.iterate_succ_apply]

/-- The unrolled loops run the body once for each byte. -/
theorem rc4_eq_iterate (len : ℕ) (s : CryptState Rc4Key ρ) :
    rc4 len s = (cryptStep rc4Next)^[len] s := by
  have hcount : (len &&& 0x07) + 8 * (len >>> 3) = len := by
    rw [Nat.shiftRight_eq_div_pow, show (0x07 : ℕ) = 2 ^ 3 - 1 from rfl,
      Nat.and_two_pow_sub_one_eq_mod]
    exact Nat.mod_add_div len (2 ^ 3)
  rw [rc4, rc4Tail_eq_iterate, rc4Eights_eq_iterate, ← Function.iterate_add_apply, hcount,
    rc4Loop_eq_cryptStep]

/-- `RC4` leaves the key as far on as the text is long. -/
theorem rc4_cipher (len : ℕ) (s : CryptState Rc4Key ρ) :
    (rc4 len s).cipher = advance rc4Next s.cipher len := by
  rw [rc4_eq_iterate, cryptStep_iterate_cipher]

/-- `RC4` writes the crypted text. -/
theorem rc4_bytesAt (len : ℕ) (s : CryptState Rc4Key ρ) (hbehind : WritesBehind s len) :
    bytesAt (rc4 len s).mem s.outdata len =
      crypt rc4Next s.cipher (bytesAt s.mem s.indata len) := by
  rw [rc4_eq_iterate, cryptStep_iterate_bytesAt rc4Next s len hbehind]

/-- `RC4` leaves other areas of memory alone. -/
theorem rc4_mem_of_region_ne (len : ℕ) (s : CryptState Rc4Key ρ) (p : Pointer ρ)
    (h : p.region ≠ s.outdata.region) : (rc4 len s).mem p = s.mem p := by
  rw [rc4_eq_iterate]
  refine cryptStep_iterate_mem rc4Next s len p fun i _ hp ↦ h ?_
  rw [hp]
  rfl

end

/-! ### Setting the key -/

/-- The locals of `RC4_set_key` with the table it fills. -/
structure KeySetup where
  d : ℕ → UInt32
  id1 : ℕ
  id2 : UInt32

/-- `SK_LOOP(n)`. -/
def skLoop (len : ℕ) (data : ℕ → UInt8) (s : KeySetup) (n : ℕ) : KeySetup :=
  let tmp := s.d n
  let id2 := ((data s.id1).toUInt32 + tmp + s.id2) &&& 0xff
  { d := Function.update (Function.update s.d n (s.d id2.toNat)) id2.toNat tmp
    id1 := if s.id1 + 1 = len then 0 else s.id1 + 1
    id2 := id2 }

/-- `RC4_set_key`. -/
def rc4SetKey (len : ℕ) (data : ℕ → UInt8) : Rc4Key :=
  let start : KeySetup := { d := fun i ↦ UInt32.ofNat i, id1 := 0, id2 := 0 }
  let filled := (List.range 64).foldl (fun s k ↦
    skLoop len data (skLoop len data (skLoop len data (skLoop len data s (4 * k + 0))
      (4 * k + 1)) (4 * k + 2)) (4 * k + 3)) start
  { x := 0, y := 0, data := filled.d }

end Katmai.Misclib
