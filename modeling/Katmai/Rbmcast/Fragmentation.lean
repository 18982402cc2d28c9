import Katmai.Rbmcast.Pdu
import Mathlib.Data.List.GetD

/-!
# Fragmentation in `rbm_send`

`rbm_send` cuts a buffer into fragments of at most 1400 bytes and sends each as a data PDU, built in
a slot that the window hands out. The sequence numbers and the lengths are right for every buffer
(`sendLoop_seq`, `sendLoop_length`). The data is not: every iteration copies the whole buffer from
its start, whatever has been sent before, so that a buffer of more than one fragment runs past the
data field. `lossless_iff` says that the fragments carry the buffer exactly when there is one.
-/

set_option autoImplicit false
set_option relaxedAutoImplicit false

namespace Katmai.Rbmcast

open FileServer Foundation

/-- The stages `RBMST_*`. -/
inductive Stage
  | init
  | listen
  | transmit
  | finish
  | connect
  | waitData
  deriving DecidableEq, Repr

/-- The fields of `struct rbmcast_lib_pd_t` that sending uses. -/
structure RbmcastLib where
  magicId : ℤ
  seq : ℕ
  serverId : ℤ
  clientId : ℤ
  stage : Stage
  winsize : ℤ
  deriving DecidableEq, Repr

/-- A pass of the loop of `rbm_send`: how many bytes it copies to the data field, the PDU, and
`ptr->len`, the length of the datagram. -/
structure Fragment where
  copied : ℕ
  pdu : ℕ → UInt8
  len : ℕ

/-- The datagram. -/
def Fragment.datagram (fragment : Fragment) : List UInt8 :=
  firstBytes fragment.pdu fragment.len

/-- `data[0..length)` of a PDU. -/
def pduData (pdu : ℕ → UInt8) : List UInt8 :=
  segment pdu headerSize (getShort pdu 2).toNat

/-- The stores of a pass to the slot, the checksum apart. From 1420 bytes on the slot is no longer
the PDU. -/
def writeFragment (pd : RbmcastLib) (slot : ℕ → UInt8) (buf : List UInt8) (i : ℕ) : ℕ → UInt8 :=
  let pdu := putInt slot 4 pd.magicId
  let pdu := putShort pdu 12 pd.serverId
  let pdu := putShort pdu 14 pd.clientId
  let pdu := putShort pdu 16 Command.data.code
  let pdu := putInt pdu 8 pd.seq
  let pdu := putShort pdu 18 pd.winsize
  let pdu := copyInto pdu headerSize buf.length fun j ↦ buf.getD j 0
  putShort pdu 2 i

/-- A pass of the loop that sends `i` bytes. The sum is over `sizeof *pdu`. -/
def sendFragment (pd : RbmcastLib) (slot : ℕ → UInt8) (buf : List UInt8) (i : ℕ) : Fragment where
  copied := buf.length
  pdu := sealPdu (writeFragment pd slot buf i) (headerSize + maxTransmitData)
  len := headerSize + i

/-- `i`, the length of the next fragment. -/
def fragmentLength (restlen : ℕ) : ℕ :=
  if restlen > maxTransmitData then maxTransmitData else restlen

/-- The loop of `rbm_send` with `restlen` bytes to go, where the window hands out `slots k`,
`slots (k + 1)`, and so on. -/
def sendLoop (buf : List UInt8) (slots : ℕ → ℕ → UInt8) (pd : RbmcastLib) (k restlen : ℕ) :
    List Fragment × RbmcastLib :=
  if restlen = 0 then ([], pd)
  else
    let pd := { pd with seq := (pd.seq + 1) % 2 ^ 32 }
    let i := fragmentLength restlen
    let later := sendLoop buf slots pd (k + 1) (restlen - i)
    (sendFragment pd (slots k) buf i :: later.1, later.2)
termination_by restlen
decreasing_by
  unfold fragmentLength maxTransmitData
  split_ifs <;> omega

/-- The loop, when no copy has run past the data field into the mutex behind the PDU, or into the
next slot. -/
def sendAll (pd : RbmcastLib) (slots : ℕ → ℕ → UInt8) (buf : List UInt8) :
    Option (ℤ × List Fragment × RbmcastLib) :=
  let sent := sendLoop buf slots pd 0 buf.length
  if ∀ fragment ∈ sent.1, fragment.copied ≤ maxTransmitData then some (1, sent) else none

/-- `rbm_send`: the return value, what was sent, and the state, or `none` when it has written past a
data field. -/
def rbmSend (pd : RbmcastLib) (slots : ℕ → ℕ → UInt8) (buf : List UInt8) :
    Option (ℤ × List Fragment × RbmcastLib) :=
  if pd.stage = .listen then sendAll { pd with stage := .transmit } slots buf
  else if pd.stage ≠ .transmit then some (0, [], pd)
  else sendAll pd slots buf

/-! ### One pass -/

section Pass

variable (pd : RbmcastLib) (slot : ℕ → UInt8) (buf : List UInt8) (i : ℕ)

/-- The sequence number of a PDU, when the copy stays behind the header. -/
theorem getUInt_seq_sendFragment :
    getUInt (sendFragment pd slot buf i).pdu 8 = pd.seq % 2 ^ 32 := by
  have hload : getUInt (sendFragment pd slot buf i).pdu 8 =
      getUInt (putInt (putShort (putShort (putShort (putInt slot 4 pd.magicId) 12 pd.serverId) 14
        pd.clientId) 16 Command.data.code) 8 pd.seq) 8 := by
    refine getUInt_congr fun k hk ↦ ?_
    simp only [sendFragment, sealPdu, writeFragment]
    rw [putShort_of_notMem (by omega), putShort_of_notMem (by omega),
      copyInto_of_notMem (by unfold headerSize; omega), putShort_of_notMem (by omega)]
  rw [hload, getUInt_putInt_self]
  omega

/-- The length field of a PDU. -/
theorem getShort_length_sendFragment (hi : i ≤ maxTransmitData) :
    getShort (sendFragment pd slot buf i).pdu 2 = i := by
  unfold maxTransmitData at hi
  have hfit : getShort (writeFragment pd slot buf i) 2 = i :=
    getShort_putShort (by omega) (by omega)
  refine Eq.trans (congrArg (Int.bmod · (2 ^ 16)) ?_) hfit
  refine congrArg Nat.cast (getUShort_congr fun k _ ↦ ?_)
  exact sealPdu_of_le _ (Nat.le_add_right 2 k)

/-- The data field starts with the start of the buffer, whatever the pass was to send. -/
theorem pduData_sendFragment (hi : i ≤ maxTransmitData) (hbuf : i ≤ buf.length) :
    pduData (sendFragment pd slot buf i).pdu = buf.take i := by
  have hbyte : ∀ j < i, (sendFragment pd slot buf i).pdu (headerSize + j) = buf.getD j 0 := by
    intro j hj
    have hlo : 2 ≤ headerSize + j := by
      unfold headerSize
      omega
    refine (sealPdu_of_le _ hlo).trans ((putShort_of_notMem ?_ _).trans ?_)
    · unfold headerSize
      omega
    · rw [copyInto_of_mem (Nat.le_add_right _ _) (by omega), Nat.add_sub_cancel_left]
  rw [pduData, getShort_length_sendFragment pd slot buf i hi, Int.toNat_natCast]
  refine List.ext_getElem ?_ fun j hj hj' ↦ ?_
  · rw [Foundation.segment, List.length_map, List.length_range, List.length_take,
      Nat.min_eq_left hbuf]
  · have hlt : j < i := by
      rw [List.length_take] at hj'
      omega
    rw [List.getElem_take, ← List.getD_eq_getElem buf 0 (by omega), ← hbyte j hlt]
    simp only [Foundation.segment, List.getElem_map, List.getElem_range]

end Pass

/-! ### The loop -/

theorem fragmentLength_le (restlen : ℕ) : fragmentLength restlen ≤ maxTransmitData := by
  unfold fragmentLength
  split_ifs with h
  · exact Nat.le_refl _
  · exact Nat.le_of_not_lt h

theorem fragmentLength_pos {restlen : ℕ} (hpos : restlen ≠ 0) : 0 < fragmentLength restlen := by
  unfold fragmentLength maxTransmitData
  split_ifs <;> omega

section Loop

variable (buf : List UInt8) (slots : ℕ → ℕ → UInt8)

/-- Every pass copies the whole buffer. -/
theorem sendLoop_copied (pd : RbmcastLib) (k restlen : ℕ) :
    ∀ fragment ∈ (sendLoop buf slots pd k restlen).1, fragment.copied = buf.length := by
  fun_induction sendLoop buf slots pd k restlen with
  | case1 => exact fun _ h ↦ absurd h List.not_mem_nil
  | case2 _ _ _ _ _ _ _ ih => exact List.forall_mem_cons.mpr ⟨rfl, ih⟩

/-- The lengths are positive and at most 1400. -/
theorem sendLoop_length (pd : RbmcastLib) (k restlen : ℕ) :
    ∀ fragment ∈ (sendLoop buf slots pd k restlen).1,
      1 ≤ getShort fragment.pdu 2 ∧ getShort fragment.pdu 2 ≤ 1400 := by
  fun_induction sendLoop buf slots pd k restlen with
  | case1 => exact fun _ h ↦ absurd h List.not_mem_nil
  | case2 pd k restlen hpos pd' i _ ih =>
    refine List.forall_mem_cons.mpr ⟨?_, ih⟩
    have hle : i ≤ maxTransmitData := fragmentLength_le restlen
    have hlt : 0 < i := fragmentLength_pos hpos
    rw [getShort_length_sendFragment pd' (slots k) buf i hle]
    unfold maxTransmitData at hle
    omega

/-- The sequence numbers go on from `pd->seq`. -/
theorem sendLoop_seq (pd : RbmcastLib) (k restlen : ℕ) :
    (sendLoop buf slots pd k restlen).1.map (fun fragment ↦ getUInt fragment.pdu 8) =
      (List.range (sendLoop buf slots pd k restlen).1.length).map
        fun j ↦ (pd.seq + j + 1) % 2 ^ 32 := by
  fun_induction sendLoop buf slots pd k restlen with
  | case1 => rfl
  | case2 pd k restlen hpos pd' i _ ih =>
    rw [List.map_cons, ih, List.length_cons, List.range_succ_eq_map, List.map_cons, List.map_map,
      getUInt_seq_sendFragment]
    refine congrArg₂ List.cons ?_ (List.map_congr_left fun j _ ↦ ?_)
    · exact Nat.mod_mod _ _
    · simp only [pd', Function.comp_apply]
      omega

/-- A buffer of one fragment is sent in one PDU. -/
theorem sendLoop_of_le (pd : RbmcastLib) (hpos : 0 < buf.length)
    (hle : buf.length ≤ maxTransmitData) :
    (sendLoop buf slots pd 0 buf.length).1 =
      [sendFragment { pd with seq := (pd.seq + 1) % 2 ^ 32 } (slots 0) buf buf.length] := by
  have hlength : fragmentLength buf.length = buf.length := if_neg (Nat.not_lt.mpr hle)
  rw [sendLoop, if_neg (Nat.ne_of_gt hpos)]
  dsimp only
  rw [hlength, Nat.sub_self, sendLoop, if_pos rfl]

end Loop

/-! ### What a call sends -/

/-- What the fragments of a buffer should be: numbered on from `pd->seq`, each with 1 to 1400 bytes
of data, copied and no more than that, and together the buffer. -/
structure CarriesBuffer (pd : RbmcastLib) (buf : List UInt8) (sent : List Fragment) : Prop where
  seq : sent.map (fun fragment ↦ getUInt fragment.pdu 8) =
    (List.range sent.length).map fun j ↦ (pd.seq + j + 1) % 2 ^ 32
  length : ∀ fragment ∈ sent, 1 ≤ getShort fragment.pdu 2 ∧ getShort fragment.pdu 2 ≤ 1400
  copied : ∀ fragment ∈ sent, (fragment.copied : ℤ) = getShort fragment.pdu 2
  data : sent.flatMap (fun fragment ↦ pduData fragment.pdu) = buf

/-- A call sends the buffer without loss. -/
def Lossless (pd : RbmcastLib) (slots : ℕ → ℕ → UInt8) (buf : List UInt8) : Prop :=
  ∃ result, rbmSend pd slots buf = some result ∧ CarriesBuffer pd buf result.2.1

/-- A server that may send runs the loop. -/
theorem rbmSend_of_stage {pd : RbmcastLib} (slots : ℕ → ℕ → UInt8) (buf : List UInt8)
    (hstage : pd.stage = .listen ∨ pd.stage = .transmit) :
    rbmSend pd slots buf = sendAll { pd with stage := .transmit } slots buf := by
  unfold rbmSend
  rcases hstage with hlisten | htransmit
  · rw [if_pos hlisten]
  · have hlisten : pd.stage ≠ .listen := by rw [htransmit]; decide
    rw [if_neg hlisten, if_neg (not_not_intro htransmit)]
    exact congrArg (fun stage ↦ sendAll { pd with stage := stage } slots buf) htransmit

/-- Every call on a buffer of more than one fragment has written past the data field. -/
theorem sendAll_eq_none {pd : RbmcastLib} (slots : ℕ → ℕ → UInt8) {buf : List UInt8}
    (hlong : maxTransmitData < buf.length) : sendAll pd slots buf = none := by
  refine if_neg fun hall ↦ ?_
  have hne : buf.length ≠ 0 := Nat.ne_of_gt (Nat.zero_lt_of_lt hlong)
  have hmem : sendFragment { pd with seq := (pd.seq + 1) % 2 ^ 32 } (slots 0) buf
      (fragmentLength buf.length) ∈ (sendLoop buf slots pd 0 buf.length).1 := by
    rw [sendLoop, if_neg hne]
    exact List.mem_cons_self
  exact absurd (hall _ hmem) (Nat.not_le.mpr hlong)

/-- A call on a buffer of one fragment stays in the data field. -/
theorem sendAll_of_le {pd : RbmcastLib} (slots : ℕ → ℕ → UInt8) {buf : List UInt8}
    (hle : buf.length ≤ maxTransmitData) :
    sendAll pd slots buf = some (1, sendLoop buf slots pd 0 buf.length) :=
  if_pos fun _ hmem ↦ le_of_eq_of_le (sendLoop_copied buf slots pd 0 buf.length _ hmem) hle

/-- A server that may send sends a buffer that is not empty without loss exactly when it fits one
PDU. -/
theorem lossless_iff (pd : RbmcastLib) (slots : ℕ → ℕ → UInt8) (buf : List UInt8)
    (hstage : pd.stage = .listen ∨ pd.stage = .transmit) (hpos : 0 < buf.length) :
    Lossless pd slots buf ↔ buf.length ≤ maxTransmitData := by
  unfold Lossless
  rw [rbmSend_of_stage slots buf hstage]
  constructor
  · rintro ⟨result, hsent, -⟩
    by_contra hlong
    rw [sendAll_eq_none slots (Nat.lt_of_not_le hlong)] at hsent
    exact Option.some_ne_none _ hsent.symm
  · intro hle
    refine ⟨_, sendAll_of_le slots hle, sendLoop_seq buf slots _ 0 _,
      sendLoop_length buf slots _ 0 _, ?_, ?_⟩
    · rw [sendLoop_of_le buf slots _ hpos hle]
      refine List.forall_mem_singleton.mpr ?_
      exact (getShort_length_sendFragment _ _ buf _ hle).symm
    · rw [sendLoop_of_le buf slots _ hpos hle, List.flatMap_singleton,
        pduData_sendFragment _ _ buf _ hle (Nat.le_refl _), List.take_length]

/-- A server that has sent nothing yet. -/
def freshServer : RbmcastLib where
  magicId := 77
  seq := 0
  serverId := 5
  clientId := -1
  stage := .listen
  winsize := 1

/-- A buffer of five bytes is sent without loss. -/
theorem lossless_iff_five :
    (freshServer.stage = .listen ∨ freshServer.stage = .transmit) ∧
      (Lossless freshServer (fun _ _ ↦ 0xaa) [1, 2, 3, 4, 5] ↔ 5 ≤ maxTransmitData) :=
  ⟨.inl rfl, lossless_iff freshServer (fun _ _ ↦ 0xaa) [1, 2, 3, 4, 5] (.inl rfl) (by decide)⟩

/-- A buffer of 1401 bytes is not. -/
theorem not_lossless_two_fragments :
    (List.replicate 1401 (7 : UInt8)).length = 1401 ∧
      ¬ Lossless freshServer (fun _ _ ↦ 0) (List.replicate 1401 7) := by
  have hlength : (List.replicate 1401 (7 : UInt8)).length = 1401 := List.length_replicate
  refine ⟨hlength, ?_⟩
  rintro ⟨result, hsent, -⟩
  rw [rbmSend_of_stage _ _ (.inl rfl), sendAll_eq_none _ (by rw [hlength]; decide)] at hsent
  exact Option.some_ne_none _ hsent.symm

end Katmai.Rbmcast
