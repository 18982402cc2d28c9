import Katmai.FileServer.Datagram
import Katmai.Foundation.ByteStream
import Katmai.Foundation.ModularSum
import Katmai.Foundation.PlainFile

/-!
# The PDUs of `rbmcast`

A PDU is packed: the checksum, the length of the data, the magic number, the sequence number, the
ids of the server and of the client, the command and the window, in 20 bytes, and up to 1400 bytes
of data behind them. All are little-endian. `rbmCksum` is the sum of the bytes behind the checksum
field.

`rbm_send` builds its PDUs in the slots of the window buffer. What a slot held before is still there
where nothing was stored. `rbm_connect` builds its header on the stack, and the reply to a CONNECT
is made in the buffer in which the CONNECT was received.
-/

set_option autoImplicit false
set_option relaxedAutoImplicit false

namespace Katmai.Rbmcast

open FileServer Foundation

/-! ### Fields of 16 bits -/

/-- A store of an `int16_t` or a `u_int16_t`. -/
def putShort (buffer : ℕ → UInt8) (offset : ℕ) (value : ℤ) : ℕ → UInt8 :=
  fun j ↦
    if offset ≤ j ∧ j < offset + 2 then
      UInt8.ofNat ((value % 2 ^ 16).toNat / 2 ^ (8 * (j - offset)))
    else buffer j

/-- A `u_int16_t` at an offset. -/
def getUShort (buffer : ℕ → UInt8) (offset : ℕ) : ℕ :=
  (buffer offset).toNat + 2 ^ 8 * (buffer (offset + 1)).toNat

/-- An `int16_t` at an offset. -/
def getShort (buffer : ℕ → UInt8) (offset : ℕ) : ℤ :=
  Int.bmod (getUShort buffer offset) (2 ^ 16)

section Short

variable {buffer other : ℕ → UInt8} {offset : ℕ}

/-- A store leaves alone what is not among its two bytes. -/
theorem putShort_of_notMem {j : ℕ} (hj : ¬ (offset ≤ j ∧ j < offset + 2)) (value : ℤ) :
    putShort buffer offset value j = buffer j :=
  if_neg hj

/-- A byte is the same after a store in two buffers when it is stored, or was the same before. -/
theorem putShort_congr {j : ℕ} (value : ℤ)
    (hrest : ¬ (offset ≤ j ∧ j < offset + 2) → buffer j = other j) :
    putShort buffer offset value j = putShort other offset value j :=
  ite_congr rfl (fun _ ↦ rfl) hrest

theorem putInt_congr {j : ℕ} (value : ℤ)
    (hrest : ¬ (offset ≤ j ∧ j < offset + 4) → buffer j = other j) :
    putInt buffer offset value j = putInt other offset value j :=
  ite_congr rfl (fun _ ↦ rfl) hrest

theorem putShort_apply (k : ℕ) (hk : k < 2) (value : ℤ) :
    putShort buffer offset value (offset + k) =
      UInt8.ofNat ((value % 2 ^ 16).toNat / 2 ^ (8 * k)) := by
  unfold putShort
  rw [if_pos ⟨Nat.le_add_right offset k, Nat.add_lt_add_left hk offset⟩, Nat.add_sub_cancel_left]

/-- A field that was stored is loaded back. -/
theorem getUShort_putShort (value : ℤ) :
    getUShort (putShort buffer offset value) offset = (value % 2 ^ 16).toNat := by
  have hlt : (value % 2 ^ 16).toNat < 2 ^ 16 := by omega
  have h₀ : putShort buffer offset value offset = _ := putShort_apply 0 (by decide) value
  unfold getUShort
  rw [h₀, putShort_apply 1 (by decide)]
  simp only [UInt8.toNat_ofNat']
  omega

/-- A load depends on the two bytes at its offset. -/
theorem getUShort_congr (hagree : ∀ k < 2, other (offset + k) = buffer (offset + k)) :
    getUShort other offset = getUShort buffer offset := by
  have h₀ : other offset = buffer offset := hagree 0 (by decide)
  unfold getUShort
  rw [h₀, hagree 1 (by decide)]

/-- A number that fits an `int16_t` and was stored is loaded back. -/
theorem getShort_putShort {value : ℤ} (hlo : -2 ^ 15 ≤ value) (hhi : value < 2 ^ 15) :
    getShort (putShort buffer offset value) offset = value := by
  unfold getShort
  rw [getUShort_putShort, Int.toNat_of_nonneg (by omega)]
  refine (Int.emod_bmod value (2 ^ 16)).trans ?_
  rw [Int.bmod_def]
  split_ifs <;> omega

end Short

/-! ### Sizes, commands and the checksum -/

/-- `sizeof (struct rbmc_header_pdu_t)`. -/
def headerSize : ℕ :=
  20

/-- `RBM_MAX_TRANSMIT_DATA`. -/
def maxTransmitData : ℕ :=
  1400

/-- The commands `RBMCMD_*`. -/
inductive Command
  | connect
  | notAllow
  | connectAck
  | connFull
  | connOk
  | data
  deriving DecidableEq, Repr

/-- The number of a command. -/
def Command.code : Command → ℤ
  | connect => 1
  | notAllow => 2
  | connectAck => 3
  | connFull => 4
  | connOk => 5
  | data => 6

/-- `rbm_cksum`. -/
def rbmCksum (packet : ℕ → UInt8) (pktlen : ℕ) : ℕ :=
  modularSum 65536 (fun i ↦ (packet i).toNat) 2 (pktlen - 2)

/-- The test of `listen_main`, for a datagram of `len` bytes in its buffer. -/
def cksumAccepted (buffer : ℕ → UInt8) (len : ℕ) : Prop :=
  getUShort buffer 0 = rbmCksum buffer len

/-- The checksum is written into a PDU, as the sum over `sumlen` bytes. -/
def sealPdu (pdu : ℕ → UInt8) (sumlen : ℕ) : ℕ → UInt8 :=
  putShort pdu 0 (rbmCksum pdu sumlen)

/-- The buffer of a receiver after a datagram has come in. -/
def arrived (datagram : List UInt8) (old : ℕ → UInt8) : ℕ → UInt8 :=
  fun j ↦ datagram.getD j (old j)

section Checksum

variable {packet other : ℕ → UInt8} {len : ℕ}

/-- The checksum depends on the bytes behind its field, up to the length. -/
theorem rbmCksum_congr (hagree : ∀ i, 2 ≤ i → i < len → other i = packet i) :
    rbmCksum other len = rbmCksum packet len :=
  modularSum_congr fun i hlo hhi ↦ congrArg UInt8.toNat (hagree i hlo (by omega))

theorem rbmCksum_lt : rbmCksum packet len < 65536 :=
  modularSum_lt (by decide)

/-- A stored checksum is loaded back. -/
theorem getUShort_sealPdu (sumlen : ℕ) :
    getUShort (sealPdu packet sumlen) 0 = rbmCksum packet sumlen := by
  have hlt : rbmCksum packet sumlen < 65536 := rbmCksum_lt
  rw [sealPdu, getUShort_putShort]
  omega

theorem sealPdu_of_le (sumlen : ℕ) {j : ℕ} (hj : 2 ≤ j) : sealPdu packet sumlen j = packet j :=
  putShort_of_notMem (fun hin ↦ absurd hin.2 (Nat.not_lt.mpr hj)) _

/-- A receiver has the first `len` bytes of what was sent. -/
theorem arrived_firstBytes (old : ℕ → UInt8) {j : ℕ} (hj : j < len) :
    arrived (firstBytes packet len) old j = packet j := by
  unfold arrived firstBytes
  rw [List.getD_eq_getElem?_getD, List.getElem?_map, List.getElem?_range hj, Option.map_some,
    Option.getD_some]

/-- A receiver accepts a sealed PDU exactly when the sum over what was sent is the sum that was
stored. -/
theorem cksumAccepted_iff (hlen : 2 ≤ len) (sumlen : ℕ) (old : ℕ → UInt8) :
    cksumAccepted (arrived (firstBytes (sealPdu packet sumlen) len) old) len ↔
      rbmCksum packet sumlen = rbmCksum packet len := by
  have hfield : getUShort (arrived (firstBytes (sealPdu packet sumlen) len) old) 0 =
      rbmCksum packet sumlen := by
    refine Eq.trans (getUShort_congr fun k hk ↦ ?_) (getUShort_sealPdu sumlen)
    exact arrived_firstBytes old (by omega)
  have hsum : rbmCksum (arrived (firstBytes (sealPdu packet sumlen) len) old) len =
      rbmCksum packet len := by
    refine rbmCksum_congr fun i hlo hhi ↦ ?_
    rw [arrived_firstBytes old hhi, sealPdu_of_le sumlen hlo]
  rw [cksumAccepted, hfield, hsum]

end Checksum

end Katmai.Rbmcast
