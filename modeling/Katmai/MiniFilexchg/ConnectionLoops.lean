import Katmai.MiniFilexchg.FileExchange
import Mathlib.Data.List.TakeWhile

/-!
# The loops of a file exchange

What the loops around `read` and `write` come to when the bytes they ask for are there, whatever
the pieces: a reading loop has filled its buffer, a writing loop has sent its bytes
(`converges_readLoop`, `converges_writeLoop`, `converges_storeLoop`). A client and a server that
know the same signatures get through them together (`ends_signIn_iff`).
-/

set_option autoImplicit false
set_option relaxedAutoImplicit false

namespace Katmai.MiniFilexchg

open Katmai.FileServer Katmai.Foundation

/-! ### Memory -/

section Memory

variable {buffer : ℕ → UInt8}

theorem length_firstBytes (buffer : ℕ → UInt8) (len : ℕ) :
    (firstBytes buffer len).length = len := by
  rw [firstBytes, List.length_map, List.length_range]

theorem fill_nil (buffer : ℕ → UInt8) (offset : ℕ) : fill buffer offset [] = buffer := by
  funext j
  simp [fill]

/-- Bytes that come in one after the other come in together. -/
theorem fill_fill (buffer : ℕ → UInt8) (offset : ℕ) (first second : List UInt8) :
    fill (fill buffer offset first) (offset + first.length) second =
      fill buffer offset (first ++ second) := by
  funext j
  simp only [fill, List.getElem?_append]
  rcases Nat.lt_or_ge j offset with hlt | hge
  · rw [if_neg (by omega), if_neg (by omega), if_neg (by omega)]
  rw [if_pos hge, if_pos hge]
  rcases Nat.lt_or_ge (j - offset) first.length with hin | hout
  · rw [if_neg (by omega), if_pos hin]
  · rw [if_pos (by omega), if_neg (by omega), Nat.sub_sub, List.getElem?_eq_none hout]
    rfl

theorem fill_apply {bytes : List UInt8} {j : ℕ} (hj : j < bytes.length) :
    fill buffer 0 bytes j = bytes[j] := by
  simp [fill, hj]

/-- What has come into a buffer is in it. -/
theorem firstBytes_fill {bytes : List UInt8} {len : ℕ} (hlength : bytes.length = len) :
    firstBytes (fill buffer 0 bytes) len = bytes := by
  subst hlength
  refine List.ext_getElem (length_firstBytes _ _) fun j hj hj' ↦ ?_
  simp only [firstBytes, List.getElem_map, List.getElem_range]
  exact fill_apply hj'

/-- The bytes of an integer are the same in every buffer. -/
theorem firstBytes_putInt (buffer : ℕ → UInt8) (value : ℤ) :
    firstBytes (putInt buffer 0 value) 4 = intBytes value := by
  unfold intBytes firstBytes
  refine List.map_congr_left fun j hj ↦ ?_
  have hlt : j < 4 := List.mem_range.mp hj
  rw [← Nat.zero_add j, putInt_apply j hlt, putInt_apply j hlt]

theorem length_intBytes (value : ℤ) : (intBytes value).length = 4 :=
  length_firstBytes _ _

/-- An integer that has come in is loaded back. -/
theorem getInt_fill {value : ℤ} (hlo : -2 ^ 31 ≤ value) (hhi : value < 2 ^ 31) :
    getInt (fill buffer 0 (intBytes value)) 0 = value := by
  have hsame : getInt (fill buffer 0 (intBytes value)) 0 =
      getInt (putInt (fun _ ↦ 0) 0 value) 0 := by
    refine getInt_congr fun k hk ↦ ?_
    rw [Nat.zero_add, fill_apply (by rw [length_intBytes]; exact hk)]
    simp [intBytes, firstBytes]
  exact hsame.trans (getInt_putInt_self hlo hhi)

/-- A name is what is left of it in a buffer. -/
theorem cString_fill (name : RemoteName) (buffer : ℕ → UInt8) :
    cString (fill buffer 0 name.bytes) name.bytes.length = name.bytes := by
  rw [cString, firstBytes_fill rfl, List.takeWhile_eq_self_iff]
  intro byte hbyte
  exact decide_eq_true fun hzero ↦ name.nonzero (hzero ▸ hbyte)

theorem hasDotDot_name (name : RemoteName) : hasDotDot name.bytes = false :=
  decide_eq_false name.no_dotDot

end Memory

/-! ### The loops -/

section Loops

variable {ρ : Type} {Q : Prog UInt8 ρ → List UInt8 → Prop} {inbox sent : List UInt8}

/-- A piece of at least one byte has bytes. -/
theorem take_ne_nil {bytes : List UInt8} {k : ℕ} (hpos : 1 ≤ k) (hle : k ≤ bytes.length) :
    bytes.take k ≠ [] := by
  rw [← List.length_pos_iff, List.length_take_of_le hle]
  exact hpos

theorem converges_readInt {bytes : List UInt8} {buffer : ℕ → UInt8} {failed : Prog UInt8 ρ}
    {next : (ℕ → UInt8) → ℕ → Prog UInt8 ρ} (hlength : bytes.length = 4)
    (hnext : Converges Q (next (fill buffer 0 bytes) 4) inbox sent) :
    Converges Q (readInt buffer failed next) (bytes ++ inbox) sent := by
  refine .recvWhole hlength ?_
  have hsome : bytes ≠ [] := by
    rintro rfl
    exact absurd hlength (by decide)
  rw [if_neg hsome, hlength]
  exact hnext

/-- An integer is sent from the start of a buffer. -/
theorem converges_sendInt {buffer : ℕ → UInt8} {value : ℤ} {next : Prog UInt8 ρ}
    (hnext : Converges Q next inbox sent) :
    Converges Q (.send (firstBytes (putInt buffer 0 value) 4) next) inbox
      (intBytes value ++ sent) := by
  rw [firstBytes_putInt]
  exact .send hnext

/-- A reading loop gets the bytes that are there. -/
theorem converges_readLoop {bytes : List UInt8} {buffer : ℕ → UInt8} {rdlen explen : ℕ}
    {failed : Prog UInt8 ρ} {next : (ℕ → UInt8) → Prog UInt8 ρ} (hlength : bytes.length = explen)
    (hnext : Converges Q (next (fill buffer rdlen bytes)) inbox sent) :
    Converges Q (readLoop buffer rdlen explen failed next) (bytes ++ inbox) sent := by
  induction explen using Nat.strongRecOn generalizing bytes buffer rdlen with
  | ind explen ih =>
    rw [readLoop]
    split_ifs with hexplen
    · rw [hexplen, List.length_eq_zero_iff] at hlength
      rw [hlength, fill_nil] at hnext
      rw [hlength]
      exact hnext
    refine .recvSome_append (by omega) (by omega) fun k hk hle ↦ ?_
    have htake : (bytes.take k).length = k := List.length_take_of_le (by omega)
    rw [if_neg (take_ne_nil hk (by omega)), htake]
    refine ih (explen - k) (by omega) (by rw [List.length_drop, hlength]) ?_
    have hfill := fill_fill buffer rdlen (bytes.take k) (bytes.drop k)
    rw [htake, List.take_append_drop] at hfill
    rw [hfill]
    exact hnext

/-- A writing loop sends its bytes. -/
theorem converges_writeLoop (bytes : List UInt8) {next : Prog UInt8 ρ}
    (hnext : Converges Q next inbox sent) :
    Converges Q (writeLoop bytes next) inbox (bytes ++ sent) := by
  induction hn : bytes.length using Nat.strongRecOn generalizing bytes with
  | ind n ih =>
    rw [writeLoop]
    split_ifs with hbytes
    · rw [hbytes]
      exact hnext
    · refine .sendSome hbytes fun k ↦ ?_
      have hlt := k.isLt
      exact ih _ (by rw [List.length_drop]; omega) _ rfl

/-- A loop that writes to a file stores its bytes. -/
theorem converges_storeLoop {bytes stored : List UInt8} {next : List UInt8 → Prog UInt8 ρ}
    (hnext : Converges Q (next (stored ++ bytes)) inbox sent) :
    Converges Q (storeLoop bytes stored next) inbox sent := by
  induction hn : bytes.length using Nat.strongRecOn generalizing bytes stored with
  | ind n ih =>
    rw [storeLoop]
    split_ifs with hbytes
    · rw [hbytes, List.append_nil] at hnext
      exact hnext
    · refine .choose (List.length_pos_iff.mpr hbytes) fun k ↦ ?_
      have hlt := k.isLt
      refine ih _ (by rw [List.length_drop]; omega) ?_ rfl
      rw [List.append_assoc, List.take_append_drop]
      exact hnext

/-- A reading loop adds no results to those of what comes after it. -/
theorem returns_readLoop {R : ρ → Prop} {buffer : ℕ → UInt8} {rdlen explen : ℕ}
    {failed : Prog UInt8 ρ} {next : (ℕ → UInt8) → Prog UInt8 ρ} (hfailed : failed.Returns R)
    (hnext : ∀ buffer, (next buffer).Returns R) :
    (readLoop buffer rdlen explen failed next).Returns R := by
  induction explen using Nat.strongRecOn generalizing buffer rdlen with
  | ind explen ih =>
    rw [readLoop]
    split_ifs with hexplen
    · exact hnext buffer
    refine .recvSome fun bytes ↦ ?_
    split_ifs with hbytes
    · exact hfailed
    · have hpos := List.length_pos_iff.mpr hbytes
      exact ih _ (by omega)

theorem returns_storeLoop {R : ρ → Prop} {bytes stored : List UInt8}
    {next : List UInt8 → Prog UInt8 ρ} (hnext : ∀ stored, (next stored).Returns R) :
    (storeLoop bytes stored next).Returns R := by
  induction hn : bytes.length using Nat.strongRecOn generalizing bytes stored with
  | ind n ih =>
    rw [storeLoop]
    split_ifs with hbytes
    · exact hnext stored
    · refine .choose fun k ↦ ih _ ?_ rfl
      have hlt := k.isLt
      rw [List.length_drop]
      omega

end Loops

/-! ### The signatures -/

section Signatures

variable {ρ : Type} {P : Dialogue UInt8 ρ Stored → Prop}

/-- The buffer of a client that has read the response. -/
def signedIn (self : Config) (buffer : ℕ → UInt8) : ℕ → UInt8 :=
  self.response.elim buffer (fill buffer 0)

/-- The client reads the response. -/
theorem ends_readResponse_iff (self : Config) (system : System) (md5 : Digest)
    (failed : Prog UInt8 ρ) (next : (ℕ → UInt8) → Prog UInt8 ρ) (buffer serverBuffer : ℕ → UInt8) :
    Ends P ⟨readResponse self buffer failed next, writeResponse self system md5 serverBuffer, [],
        []⟩ ↔
      Ends P ⟨next (signedIn self buffer), serveCommand self system md5 serverBuffer, [], []⟩ := by
  unfold readResponse writeResponse signedIn
  cases self.response with
  | none => rfl
  | some response =>
    have hread : ComesTo (next (fill buffer 0 response)) []
        (readLoop buffer 0 response.length failed fun buffer ↦
          if firstBytes buffer response.length = response then next buffer else failed)
        (response ++ []) [] := by
      refine converges_readLoop rfl ?_
      rw [if_pos (firstBytes_fill rfl)]
      exact .refl
    exact (ends_right_iff (.send .refl)).trans (ends_left_iff hread)

/-- With the same signatures on both sides the client is let in. -/
theorem ends_signIn_iff (self : Config) (system : System) (md5 : Digest) (failed : Prog UInt8 ρ)
    (next : (ℕ → UInt8) → Prog UInt8 ρ) (buffer serverBuffer : ℕ → UInt8) :
    Ends P ⟨signIn self buffer failed next, fchgServer self system md5 serverBuffer, [], []⟩ ↔
      Ends P ⟨next (signedIn self buffer), serveCommand self system md5 serverBuffer, [], []⟩ := by
  rw [← ends_readResponse_iff self system md5 failed]
  unfold signIn fchgServer
  cases self.request with
  | none => rfl
  | some request =>
    have hread : ComesTo (writeResponse self system md5 serverBuffer) []
        (readLoop serverBuffer 0 request.length (.ret none) fun signature ↦
          if firstBytes signature request.length = request then
            writeResponse self system md5 serverBuffer
          else .ret none)
        (request ++ []) [] := by
      refine converges_readLoop rfl ?_
      rw [if_pos (firstBytes_fill rfl)]
      exact .refl
    exact (ends_left_iff (.send .refl)).trans (ends_right_iff hread)

end Signatures

end Katmai.MiniFilexchg
