import Mathlib.Algebra.Group.Int.Defs
import Mathlib.Algebra.Group.Nat.Defs
import Mathlib.Data.Int.Notation
import Mathlib.Data.List.Basic

/-!
# Datagrams as bytes

The file servers receive into a buffer of 2000 bytes and look at it through packed structures with
little-endian integers. `Received` is the buffer after a call of `recvfrom`: the first `len` bytes
are the datagram and the rest is what was there before, which a field past the end of a short
datagram is read from. `csCksum` is the checksum of both protocol versions, the sum of the bytes
after the checksum field.
-/

set_option autoImplicit false
set_option relaxedAutoImplicit false

namespace Katmai.FileServer

/-- The address and the port of a peer. -/
structure Address where
  ip : ℕ
  port : ℕ
  deriving DecidableEq, Repr

/-- The receive buffer after a datagram of `len` bytes has come in from `source`. -/
structure Received where
  source : Address
  len : ℕ
  len_pos : 0 < len
  len_le : len ≤ 2000
  buffer : ℕ → UInt8

/-- A datagram that was sent. -/
structure Sent where
  dest : Address
  bytes : List UInt8
  deriving DecidableEq, Repr

/-- The first `len` bytes of a buffer. -/
def firstBytes (buffer : ℕ → UInt8) (len : ℕ) : List UInt8 :=
  (List.range len).map buffer

/-- The bytes of a received datagram. -/
def Received.bytes (m : Received) : List UInt8 :=
  firstBytes m.buffer m.len

/-- An `unsigned int` at an offset. -/
def getUInt (buffer : ℕ → UInt8) (offset : ℕ) : ℕ :=
  (buffer offset).toNat + 2 ^ 8 * (buffer (offset + 1)).toNat +
    2 ^ 16 * (buffer (offset + 2)).toNat + 2 ^ 24 * (buffer (offset + 3)).toNat

/-- An `int` at an offset. -/
def getInt (buffer : ℕ → UInt8) (offset : ℕ) : ℤ :=
  Int.bmod (getUInt buffer offset) (2 ^ 32)

/-- A (signed) `char` at an offset. -/
def getChar (buffer : ℕ → UInt8) (offset : ℕ) : ℤ :=
  Int.bmod (buffer offset).toNat (2 ^ 8)

/-- A store of an `int`. -/
def putInt (buffer : ℕ → UInt8) (offset : ℕ) (value : ℤ) : ℕ → UInt8 :=
  fun j ↦
    if offset ≤ j ∧ j < offset + 4 then
      UInt8.ofNat ((value % 2 ^ 32).toNat / 2 ^ (8 * (j - offset)))
    else buffer j

/-! ### Loads after stores -/

section LoadStore

variable {buffer other : ℕ → UInt8} {offset : ℕ}

theorem putInt_of_lt {j : ℕ} (hj : j < offset) (value : ℤ) :
    putInt buffer offset value j = buffer j :=
  if_neg fun hin ↦ absurd hin.1 (Nat.not_le.mpr hj)

theorem putInt_of_le {j : ℕ} (hj : offset + 4 ≤ j) (value : ℤ) :
    putInt buffer offset value j = buffer j :=
  if_neg fun hin ↦ absurd hin.2 (Nat.not_lt.mpr hj)

theorem putInt_apply (k : ℕ) (hk : k < 4) (value : ℤ) :
    putInt buffer offset value (offset + k) =
      UInt8.ofNat ((value % 2 ^ 32).toNat / 2 ^ (8 * k)) := by
  unfold putInt
  rw [if_pos ⟨Nat.le_add_right offset k, Nat.add_lt_add_left hk offset⟩, Nat.add_sub_cancel_left]

/-- A load depends on the four bytes at its offset. -/
theorem getUInt_congr (hagree : ∀ k < 4, other (offset + k) = buffer (offset + k)) :
    getUInt other offset = getUInt buffer offset := by
  have h₀ : other offset = buffer offset := hagree 0 (by decide)
  unfold getUInt
  rw [h₀, hagree 1 (by decide), hagree 2 (by decide), hagree 3 (by decide)]

theorem getInt_congr (hagree : ∀ k < 4, other (offset + k) = buffer (offset + k)) :
    getInt other offset = getInt buffer offset := by
  unfold getInt
  rw [getUInt_congr hagree]

theorem getUInt_lt (buffer : ℕ → UInt8) (offset : ℕ) : getUInt buffer offset < 2 ^ 32 := by
  have h₀ := (buffer offset).toNat_lt
  have h₁ := (buffer (offset + 1)).toNat_lt
  have h₂ := (buffer (offset + 2)).toNat_lt
  have h₃ := (buffer (offset + 3)).toNat_lt
  unfold getUInt
  omega

/-- A word that was stored is loaded back. -/
theorem getUInt_putInt_self (value : ℤ) :
    getUInt (putInt buffer offset value) offset = (value % 2 ^ 32).toNat := by
  have hlt : (value % 2 ^ 32).toNat < 2 ^ 32 := by omega
  have h₀ : putInt buffer offset value offset = _ := putInt_apply 0 (by decide) value
  unfold getUInt
  rw [h₀, putInt_apply 1 (by decide), putInt_apply 2 (by decide), putInt_apply 3 (by decide)]
  simp only [UInt8.toNat_ofNat']
  omega

/-- What is loaded back after the store of an `int`. -/
theorem getInt_putInt (value : ℤ) :
    getInt (putInt buffer offset value) offset = Int.bmod value (2 ^ 32) := by
  unfold getInt
  rw [getUInt_putInt_self, Int.toNat_of_nonneg (by omega)]
  exact Int.emod_bmod value (2 ^ 32)

/-- A store after a field leaves it alone. -/
theorem getInt_putInt_of_le {o : ℕ} (ho : offset + 4 ≤ o) (value : ℤ) :
    getInt (putInt buffer o value) offset = getInt buffer offset :=
  getInt_congr fun k _ ↦ putInt_of_lt (by omega) value

/-- A number that fits an `int` is its own remainder. -/
theorem bmod_eq_self {value : ℤ} (hlo : -2 ^ 31 ≤ value) (hhi : value < 2 ^ 31) :
    Int.bmod value (2 ^ 32) = value := by
  rw [Int.bmod_def]
  split_ifs <;> omega

/-- An `int` that was stored is loaded back. -/
theorem getInt_putInt_self {value : ℤ} (hlo : -2 ^ 31 ≤ value) (hhi : value < 2 ^ 31) :
    getInt (putInt buffer offset value) offset = value :=
  (getInt_putInt value).trans (bmod_eq_self hlo hhi)

/-- The bytes of a word that is loaded. -/
theorem getUInt_div_mod (k : ℕ) (hk : k < 4) :
    getUInt buffer offset / 2 ^ (8 * k) % 2 ^ 8 = (buffer (offset + k)).toNat := by
  have h₀ := (buffer offset).toNat_lt
  have h₁ := (buffer (offset + 1)).toNat_lt
  have h₂ := (buffer (offset + 2)).toNat_lt
  have h₃ := (buffer (offset + 3)).toNat_lt
  unfold getUInt
  obtain rfl | rfl | rfl | rfl : k = 0 ∨ k = 1 ∨ k = 2 ∨ k = 3 := by omega
  all_goals
    simp only [Nat.add_zero, Nat.reduceMul, Nat.reducePow]
    omega

/-- Equal words have equal bytes. -/
theorem byte_eq_of_getUInt_eq (heq : getUInt other offset = getUInt buffer offset) (k : ℕ)
    (hk : k < 4) : other (offset + k) = buffer (offset + k) := by
  rw [← UInt8.toNat_inj, ← getUInt_div_mod k hk, ← getUInt_div_mod k hk, heq]

/-- A word with one byte changed is another word. -/
theorem getUInt_update_ne {p : ℕ} (hlo : offset ≤ p) (hhi : p < offset + 4) {value : UInt8}
    (hvalue : value ≠ buffer p) :
    getUInt (Function.update buffer p value) offset ≠ getUInt buffer offset := by
  obtain ⟨k, rfl⟩ := Nat.exists_eq_add_of_le hlo
  intro heq
  have hbyte := byte_eq_of_getUInt_eq heq k (Nat.lt_of_add_lt_add_left hhi)
  rw [Function.update_self] at hbyte
  exact hvalue hbyte

/-- A word does not depend on the bytes around it. -/
theorem getUInt_update_eq {p : ℕ} (hout : p < offset ∨ offset + 4 ≤ p) (value : UInt8) :
    getUInt (Function.update buffer p value) offset = getUInt buffer offset :=
  getUInt_congr fun k hk ↦ Function.update_of_ne (by omega) value buffer

/-- Equal integers have equal words. -/
theorem getUInt_eq_of_getInt_eq (heq : getInt other offset = getInt buffer offset) :
    getUInt other offset = getUInt buffer offset := by
  have hother := getUInt_lt other offset
  have hbuffer := getUInt_lt buffer offset
  unfold getInt at heq
  rw [Int.bmod_def, Int.bmod_def] at heq
  split_ifs at heq <;> omega

/-- Storing the word that is there changes nothing. -/
theorem putInt_eq_self {value : ℤ} (hvalue : (value % 2 ^ 32).toNat = getUInt buffer offset) :
    putInt buffer offset value = buffer := by
  funext j
  rcases Nat.lt_or_ge j offset with hlt | hge
  · exact putInt_of_lt hlt value
  rcases Nat.lt_or_ge j (offset + 4) with hin | hout
  · obtain ⟨k, rfl⟩ := Nat.exists_eq_add_of_le hge
    have hk : k < 4 := Nat.lt_of_add_lt_add_left hin
    rw [putInt_apply k hk, hvalue, ← UInt8.toNat_inj, UInt8.toNat_ofNat']
    exact getUInt_div_mod k hk
  · exact putInt_of_le hout value

end LoadStore

/-! ### The checksum of the file servers -/

/-- `stiov2_cs_cksum` and `stiov3_cs_cksum`: the bytes after the checksum field, added up in 28
bits. -/
def csCksum (buffer : ℕ → UInt8) (len : ℕ) : ℕ :=
  (List.range' 4 (len - 4)).foldl (fun sum i ↦ (sum + (buffer i).toNat) % 2 ^ 28) 0

/-- The checksum field is right. -/
def Received.cksumOk (m : Received) : Bool :=
  decide ((csCksum m.buffer m.len : ℤ) = getInt m.buffer 0)

/-- The checksum is written and the first `len` bytes of the buffer are sent. -/
def sealBytes (buffer : ℕ → UInt8) (len : ℕ) : List UInt8 :=
  firstBytes (putInt buffer 0 (csCksum buffer len)) len

/-- The buffer of a peer that has received a datagram. -/
def Sent.buffer (datagram : Sent) : ℕ → UInt8 :=
  fun j ↦ datagram.bytes.getD j 0

/-- The peer finds in a sealed datagram what was in the buffer, the checksum apart. -/
theorem getInt_buffer_sealBytes (dest : Address) (buffer : ℕ → UInt8) {len offset : ℕ}
    (hlo : 4 ≤ offset) (hhi : offset + 4 ≤ len) :
    getInt (Sent.buffer ⟨dest, sealBytes buffer len⟩) offset = getInt buffer offset := by
  refine getInt_congr fun k hk ↦ ?_
  have hlt : offset + k < len := by omega
  change (sealBytes buffer len).getD (offset + k) 0 = buffer (offset + k)
  unfold sealBytes firstBytes
  rw [List.getD_eq_getElem?_getD, List.getElem?_map, List.getElem?_range hlt, Option.map_some,
    Option.getD_some, putInt_of_le (by omega)]

end Katmai.FileServer
