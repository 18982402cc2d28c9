import Mathlib.Data.Int.Notation
import Katmai.Misclib.Rc4

/-!
# Decrypting a stream

`hktv_generic_decrypt` of `holktv/holktv_stb.c`, the read plugin through which the set-top box
passes every buffer of an encrypted film or song. A call with no buffer resets a channel. Each
further call is given one chunk of the file and decrypts it in place.

The first 25 bytes of a file are its header. They are gathered in `hol_header`, over as many calls
as it takes. The call that completes the header checks its first fifteen bytes, sets the channel's
cipher from the box's key, throws away `key + 3` keystream bytes, deciphers the nine bytes left of
the header into `rcbuf`, checks these, and then deciphers what is left of the chunk, moving it to
the front of the buffer. Later calls decipher the whole chunk where it stands.

Memory is one map over the areas the function touches: the caller's buffer, the header array of
each channel, and the locals `rcbuf` and `temp`, which the function does not initialise. A chunk is
one buffer of the stream engine, so the `int` sums over its length are exact.
-/

set_option autoImplicit false
set_option relaxedAutoImplicit false

namespace Katmai.Holktv

open Katmai.Foundation Katmai.Misclib

/-- The areas of memory the function touches. -/
inductive Region where
  | buffer
  | holHeader (channel : Fin 5)
  | rcbuf
  | temp
deriving DecidableEq

/-- What the function uses of `struct holktv_stb_pd_t`, and the memory. The array `hol_header` is
part of the memory. -/
structure HolktvStb where
  md5rc4key : ℕ → UInt8
  newFile : Fin 5 → Bool
  holIdx : Fin 5 → ℕ
  rc4key : Fin 5 → Rc4Key
  fmt : Fin 5 → UInt8
  mem : Pointer Region → UInt8

/-- `filehead`, the text `1a622778&EnYaDD`. -/
def filehead : List UInt8 :=
  [0x31, 0x61, 0x36, 0x32, 0x32, 0x37, 0x37, 0x38, 0x26, 0x45, 0x6e, 0x59, 0x61, 0x44, 0x44]

/-- Byte `i` of the header as the first check wants it. -/
def headerByte (key : UInt8) (i : ℕ) : UInt8 :=
  filehead.getD i 0 ^^^ (UInt8.ofInt (168 - (i + 1) * 16) ^^^ key)

/-- Byte `i + 1` of `rcbuf` as the second check wants it. -/
def additionalByte (fmt : UInt8) (i : ℕ) : UInt8 :=
  filehead.getD i 0 ^^^ UInt8.ofNat ((i + 1) * 23) ^^^ fmt

/-- `RC4` with the channel's key. -/
def channelRc4 (s : HolktvStb) (channel : Fin 5) (len : ℕ) (indata outdata : Pointer Region) :
    HolktvStb :=
  let r := rc4 len
    { cipher := s.rc4key channel, mem := s.mem, indata := indata, outdata := outdata }
  { s with rc4key := Function.update s.rc4key channel r.cipher, mem := r.mem }

/-- The bytes of the chunk that still belong to the header, `st`. -/
def headerRest (s : HolktvStb) (channel : Fin 5) : ℕ :=
  if s.holIdx channel < 25 then 25 - s.holIdx channel else 0

/-- The header is completed from the chunk, and the file is no longer a new one. -/
def completeHeader (s : HolktvStb) (buffer : Pointer Region) (channel : Fin 5) : HolktvStb :=
  let newFile := Function.update s.newFile channel false
  if s.holIdx channel < 25 then
    { s with
      mem := memcpy s.mem ⟨.holHeader channel, s.holIdx channel⟩ buffer (headerRest s channel)
      holIdx := Function.update s.holIdx channel 25
      newFile := newFile }
  else { s with newFile := newFile }

/-- The cipher is set from the box's key, run past `key + 3` bytes, and used to decipher the last
nine bytes of the header into `rcbuf`. -/
def startCipher (s : HolktvStb) (channel : Fin 5) (key : UInt8) : HolktvStb :=
  let s := { s with rc4key := Function.update s.rc4key channel (rc4SetKey 16 s.md5rc4key) }
  let s := channelRc4 s channel (key.toNat + 3) ⟨.temp, 0⟩ ⟨.temp, 0⟩
  let s := channelRc4 s channel 9 ⟨.holHeader channel, 16⟩ ⟨.rcbuf, 0⟩
  { s with fmt := Function.update s.fmt channel (s.mem ⟨.rcbuf, 0⟩) }

/-- The call that completes the header: both checks, and then the rest of the chunk. -/
def decryptFirst (s : HolktvStb) (buffer : Pointer Region) (len : ℕ) (channel : Fin 5) :
    HolktvStb × ℤ :=
  let st := headerRest s channel
  let len := len - st
  let s := completeHeader s buffer channel
  let key := s.mem ⟨.holHeader channel, 15⟩
  if ∀ i < 15, s.mem ⟨.holHeader channel, i⟩ = headerByte key i then
    let s := startCipher s channel key
    if ∀ i < 8, s.mem ⟨.rcbuf, i + 1⟩ = additionalByte (s.fmt channel) i then
      if 0 < len then (channelRc4 s channel len (buffer.add st) buffer, len) else (s, 0)
    else (s, -3)
  else (s, -2)

/-- `hktv_generic_decrypt`. -/
def hktvGenericDecrypt (s : HolktvStb) (buffer : Option (Pointer Region)) (len : ℕ)
    (channel : Fin 5) : HolktvStb × ℤ :=
  match buffer with
  | none =>
    ({ s with
      newFile := Function.update s.newFile channel true
      holIdx := Function.update s.holIdx channel 0 }, 0)
  | some buffer =>
    if s.newFile channel = false then (channelRc4 s channel len buffer buffer, len)
    else if len + s.holIdx channel < 25 then
      ({ s with
        mem := memcpy s.mem ⟨.holHeader channel, s.holIdx channel⟩ buffer len
        holIdx := Function.update s.holIdx channel (s.holIdx channel + len) }, 0)
    else decryptFirst s buffer len channel

/-! ### Feeding a file -/

/-- One call with a chunk: the chunk, and what the rest of memory the function does not own happens
to hold, namely the buffer past the chunk and the uninitialised locals. -/
structure ChunkCall where
  chunk : List UInt8
  garbage : Pointer Region → UInt8

/-- The memory a call finds. -/
def callMemory (mem : Pointer Region → UInt8) (call : ChunkCall) : Pointer Region → UInt8
  | ⟨.holHeader channel, offset⟩ => mem ⟨.holHeader channel, offset⟩
  | ⟨.buffer, offset⟩ => call.chunk.getD offset (call.garbage ⟨.buffer, offset⟩)
  | p => call.garbage p

/-- One call: the box after it, the return value, and the first `rc` bytes of the buffer. -/
def feedChunk (s : HolktvStb) (channel : Fin 5) (call : ChunkCall) :
    HolktvStb × ℤ × List UInt8 :=
  let r := hktvGenericDecrypt { s with mem := callMemory s.mem call } (some ⟨.buffer, 0⟩)
    call.chunk.length channel
  (r.1, r.2, bytesAt r.1.mem ⟨.buffer, 0⟩ r.2.toNat)

/-- The chunks of a file in order: the return value and the bytes delivered by each call. -/
def feed : HolktvStb → Fin 5 → List ChunkCall → List (ℤ × List UInt8)
  | _, _, [] => []
  | s, channel, call :: calls =>
    (feedChunk s channel call).2 :: feed (feedChunk s channel call).1 channel calls

/-! ### What the pieces do -/

section Pieces

variable (s : HolktvStb) (channel : Fin 5)

theorem channelRc4_rc4key (len : ℕ) (indata outdata : Pointer Region) :
    (channelRc4 s channel len indata outdata).rc4key channel =
      advance rc4Next (s.rc4key channel) len := by
  rw [channelRc4]
  exact (Function.update_self _ _ _).trans (rc4_cipher _ _)

/-- The channel's cipher applied from one place to another that does not run ahead of it. -/
theorem channelRc4_bytesAt (len : ℕ) (indata outdata : Pointer Region)
    (h : outdata.region ≠ indata.region ∨ outdata.offset ≤ indata.offset) :
    bytesAt (channelRc4 s channel len indata outdata).mem outdata len =
      crypt rc4Next (s.rc4key channel) (bytesAt s.mem indata len) := by
  refine rc4_bytesAt len ⟨s.rc4key channel, s.mem, indata, outdata⟩ ?_
  rcases h with h | h
  · exact writesBehind_of_region_ne _ _ h
  · exact writesBehind_of_offset_le _ _ h

theorem channelRc4_mem_of_region_ne (len : ℕ) (indata outdata p : Pointer Region)
    (h : p.region ≠ outdata.region) :
    (channelRc4 s channel len indata outdata).mem p = s.mem p :=
  rc4_mem_of_region_ne len ⟨s.rc4key channel, s.mem, indata, outdata⟩ p h

/-- Completing the header leaves the caller's buffer alone. -/
theorem completeHeader_mem_buffer (buffer : Pointer Region) (offset : ℕ) :
    (completeHeader s buffer channel).mem ⟨.buffer, offset⟩ = s.mem ⟨.buffer, offset⟩ := by
  rw [completeHeader]
  split_ifs
  · have hne : Region.buffer ≠ .holHeader channel := by simp
    exact memcpy_of_region_ne s.mem ⟨.holHeader channel, s.holIdx channel⟩ buffer
      ⟨.buffer, offset⟩ (headerRest s channel) hne
  · rfl

@[simp] theorem completeHeader_newFile (buffer : Pointer Region) :
    (completeHeader s buffer channel).newFile channel = false := by
  rw [completeHeader]
  split_ifs
  · exact Function.update_self _ _ _
  · exact Function.update_self _ _ _

@[simp] theorem completeHeader_md5rc4key (buffer : Pointer Region) :
    (completeHeader s buffer channel).md5rc4key = s.md5rc4key := by
  rw [completeHeader]
  split_ifs
  · rfl
  · rfl

/-- The completed header: what was gathered before, and the front of the chunk. -/
theorem bytesAt_completeHeader (buffer : Pointer Region) (hidx : s.holIdx channel < 25) :
    bytesAt (completeHeader s buffer channel).mem ⟨.holHeader channel, 0⟩ 25 =
      bytesAt s.mem ⟨.holHeader channel, 0⟩ (s.holIdx channel) ++
        bytesAt s.mem buffer (headerRest s channel) := by
  have hsum : s.holIdx channel + headerRest s channel = 25 := by
    rw [headerRest, if_pos hidx]
    omega
  rw [completeHeader, if_pos hidx, ← bytesAt_memcpy, hsum]

/-- The cipher after the header: past the bytes thrown away, and past the nine of the header. -/
theorem startCipher_rc4key (key : UInt8) :
    (startCipher s channel key).rc4key channel =
      advance rc4Next (rc4SetKey 16 s.md5rc4key) (key.toNat + 3 + 9) := by
  rw [startCipher, channelRc4_rc4key, channelRc4_rc4key, advance_add]
  exact congrArg (advance rc4Next · _) (Function.update_self _ _ _)

/-- The nine bytes deciphered into `rcbuf`. -/
theorem bytesAt_startCipher (key : UInt8) :
    bytesAt (startCipher s channel key).mem ⟨.rcbuf, 0⟩ 9 =
      crypt rc4Next (advance rc4Next (rc4SetKey 16 s.md5rc4key) (key.toNat + 3))
        (bytesAt s.mem ⟨.holHeader channel, 16⟩ 9) := by
  have hheader : bytesAt (channelRc4
      { s with rc4key := Function.update s.rc4key channel (rc4SetKey 16 s.md5rc4key) } channel
      (key.toNat + 3) ⟨.temp, 0⟩ ⟨.temp, 0⟩).mem ⟨.holHeader channel, 16⟩ 9 =
      bytesAt s.mem ⟨.holHeader channel, 16⟩ 9 := by
    have hne : Region.holHeader channel ≠ .temp := by simp
    exact bytesAt_congr fun i _ ↦ channelRc4_mem_of_region_ne _ _ _ ⟨.temp, 0⟩ ⟨.temp, 0⟩
      ⟨.holHeader channel, 16 + i⟩ hne
  rw [startCipher, channelRc4_bytesAt _ _ _ _ _ (.inl (by simp)), channelRc4_rc4key, hheader]
  exact congrArg (fun cipher ↦ crypt rc4Next (advance rc4Next cipher _) _)
    (Function.update_self _ _ _)

theorem startCipher_fmt (key : UInt8) :
    (startCipher s channel key).fmt channel = (startCipher s channel key).mem ⟨.rcbuf, 0⟩ := by
  simp only [startCipher, Function.update_self]

/-- Starting the cipher leaves the caller's buffer alone. -/
theorem startCipher_mem_buffer (key : UInt8) (offset : ℕ) :
    (startCipher s channel key).mem ⟨.buffer, offset⟩ = s.mem ⟨.buffer, offset⟩ := by
  have hrcbuf : Region.buffer ≠ .rcbuf := by simp
  have htemp : Region.buffer ≠ .temp := by simp
  simp only [startCipher]
  rw [channelRc4_mem_of_region_ne _ _ _ _ ⟨.rcbuf, 0⟩ ⟨.buffer, offset⟩ hrcbuf,
    channelRc4_mem_of_region_ne _ _ _ _ ⟨.temp, 0⟩ ⟨.buffer, offset⟩ htemp]

end Pieces

end Katmai.Holktv
