import Katmai.Rbmcast.ClientTable
import Katmai.Rbmcast.Fragmentation

/-!
# Which checksums the receiver accepts

`listen_main` drops a datagram unless its checksum is the sum over the bytes that have come in.
`rbm_connect` and the reply to a CONNECT sum the 20 bytes of the header and send these.
`rbm_send` sums the whole PDU of 1420 bytes, and sends the header and the data only. What is left
of the slot's earlier contents behind the data is in the sum and not in the datagram, so that the
two agree exactly when nothing is left (`checksumsAgree_iff`).
-/

set_option autoImplicit false
set_option relaxedAutoImplicit false

namespace Katmai.Rbmcast

open FileServer Foundation

/-! ### The other PDUs -/

/-- The CONNECT of `rbm_connect`, in a header that held `hdr`. -/
def connectPdu (pd : RbmcastLib) (hdr : ℕ → UInt8) : ℕ → UInt8 :=
  let hdr := putInt hdr 4 pd.magicId
  let hdr := putShort hdr 16 Command.connect.code
  let hdr := putShort hdr 12 0
  let hdr := putShort hdr 2 0
  sealPdu hdr headerSize

/-- The answer of `listen_main` to a CONNECT from `source`, in the buffer that holds it: the PDU and
the table of clients. -/
def connectReply (pd : RbmcastLib) (clients : ClientTable) (source : Address)
    (buffer : ℕ → UInt8) : (ℕ → UInt8) × ClientTable :=
  let pdu := putShort buffer 12 pd.serverId
  if pd.stage = .listen then
    let registered := clients.registClient source
    if registered.1 ≥ 0 then
      let pdu := putShort pdu 16 Command.connOk.code
      (sealPdu (putShort pdu 14 registered.1) headerSize, registered.2)
    else (sealPdu (putShort pdu 16 Command.connFull.code) headerSize, registered.2)
  else (sealPdu (putShort pdu 16 Command.notAllow.code) headerSize, clients)

/-- A PDU that is summed over the bytes that are sent is accepted. -/
theorem cksumAccepted_sealPdu (pdu old : ℕ → UInt8) {len : ℕ} (hlen : 2 ≤ len) :
    cksumAccepted (arrived (firstBytes (sealPdu pdu len) len) old) len :=
  (cksumAccepted_iff hlen len old).mpr rfl

/-- The answer to a CONNECT is summed over the header. -/
theorem connectReply_eq_sealPdu (pd : RbmcastLib) (clients : ClientTable) (source : Address)
    (buffer : ℕ → UInt8) :
    ∃ pdu, (connectReply pd clients source buffer).1 = sealPdu pdu headerSize := by
  unfold connectReply
  dsimp only
  split_ifs
  · exact ⟨_, rfl⟩
  · exact ⟨_, rfl⟩
  · exact ⟨_, rfl⟩

/-! ### The slots of the window -/

section Slots

variable (pd : RbmcastLib) {slot other : ℕ → UInt8} (buf : List UInt8) (i : ℕ) {j : ℕ}

/-- Behind the checksum and up to the end of the data nothing is left of the slot. -/
theorem writeFragment_congr (hlo : 2 ≤ j) (hhi : j < headerSize + buf.length) :
    writeFragment pd slot buf i j = writeFragment pd other buf i j := by
  unfold headerSize at hhi
  -- store by store, from the last one back: between them they cover the bytes
  refine putShort_congr _ fun hlength ↦ ite_congr rfl (fun _ ↦ rfl) fun hdata ↦
    putShort_congr _ fun hwinsize ↦ putInt_congr _ fun hseq ↦ putShort_congr _ fun hcmd ↦
    putShort_congr _ fun hclient ↦ putShort_congr _ fun hserver ↦ putInt_congr _ fun hmagic ↦ ?_
  unfold headerSize at hdata
  omega

/-- Behind the data the slot is as it was. -/
theorem writeFragment_of_le (hj : headerSize + buf.length ≤ j) :
    writeFragment pd slot buf i j = slot j := by
  unfold headerSize at hj
  simp only [writeFragment]
  rw [putShort_of_notMem (by omega), copyInto_of_notMem (by unfold headerSize; omega),
    putShort_of_notMem (by omega), putInt_of_le (by omega), putShort_of_notMem (by omega),
    putShort_of_notMem (by omega), putShort_of_notMem (by omega), putInt_of_le (by omega)]

end Slots

/-! ### Agreement -/

/-- What sender and receiver should agree on, for a call of `rbm_send` on `buf` and for the PDUs of
the connection: the receiver accepts what is sent, whatever it and the slots held before, and what
is sent does not depend on the slots. -/
structure ChecksumsAgree (pd : RbmcastLib) (buf : List UInt8) : Prop where
  connect : ∀ hdr old : ℕ → UInt8,
    cksumAccepted (arrived (firstBytes (connectPdu pd hdr) headerSize) old) headerSize
  reply : ∀ (clients : ClientTable) (source : Address) (buffer old : ℕ → UInt8),
    cksumAccepted
      (arrived (firstBytes (connectReply pd clients source buffer).1 headerSize) old) headerSize
  send : ∀ slots : ℕ → ℕ → UInt8, ∃ result, rbmSend pd slots buf = some result ∧
    ∀ fragment ∈ result.2.1, ∀ old : ℕ → UInt8,
      cksumAccepted (arrived fragment.datagram old) fragment.len
  sameDatagrams : ∀ slots slots' : ℕ → ℕ → UInt8,
    (rbmSend pd slots buf).map (fun result ↦ result.2.1.map Fragment.datagram) =
      (rbmSend pd slots' buf).map fun result ↦ result.2.1.map Fragment.datagram

/-- The two paths of the connection always agree. -/
theorem connect_reply_accepted (pd : RbmcastLib) :
    (∀ hdr old : ℕ → UInt8,
      cksumAccepted (arrived (firstBytes (connectPdu pd hdr) headerSize) old) headerSize) ∧
      ∀ (clients : ClientTable) (source : Address) (buffer old : ℕ → UInt8),
        cksumAccepted
          (arrived (firstBytes (connectReply pd clients source buffer).1 headerSize) old)
          headerSize := by
  have hsize : 2 ≤ headerSize := by decide
  refine ⟨fun hdr old ↦ cksumAccepted_sealPdu _ old hsize, fun clients source buffer old ↦ ?_⟩
  obtain ⟨pdu, hpdu⟩ := connectReply_eq_sealPdu pd clients source buffer
  rw [hpdu]
  exact cksumAccepted_sealPdu pdu old hsize

/-- A call that sends nothing agrees. -/
theorem checksumsAgree_of_nothing {pd : RbmcastLib} {buf : List UInt8} (rc : ℤ) (last : RbmcastLib)
    (hnothing : ∀ slots, rbmSend pd slots buf = some (rc, [], last)) : ChecksumsAgree pd buf where
  connect := (connect_reply_accepted pd).1
  reply := (connect_reply_accepted pd).2
  send slots := ⟨_, hnothing slots, fun _ hmem ↦ absurd hmem List.not_mem_nil⟩
  sameDatagrams slots slots' := by rw [hnothing slots, hnothing slots']

/-- A data PDU is accepted exactly when the sum over the whole PDU is the one over what is sent. -/
theorem cksumAccepted_sendFragment_iff (pd : RbmcastLib) (slot old : ℕ → UInt8) (buf : List UInt8)
    (i : ℕ) :
    cksumAccepted (arrived (sendFragment pd slot buf i).datagram old) (headerSize + i) ↔
      rbmCksum (writeFragment pd slot buf i) (headerSize + maxTransmitData) =
        rbmCksum (writeFragment pd slot buf i) (headerSize + i) :=
  cksumAccepted_iff (Nat.le_trans (by decide) (Nat.le_add_right headerSize i)) _ old

section Server

variable {pd : RbmcastLib} {buf : List UInt8}

/-- A server that may send sends a buffer of one fragment in one PDU. -/
theorem rbmSend_of_le (hstage : pd.stage = .listen ∨ pd.stage = .transmit)
    (hpos : 0 < buf.length) (hle : buf.length ≤ maxTransmitData) :
    ∃ pd' : RbmcastLib, ∀ slots, ∃ last, rbmSend pd slots buf =
      some (1, [sendFragment pd' (slots 0) buf buf.length], last) := by
  refine ⟨{ pd with stage := .transmit, seq := (pd.seq + 1) % 2 ^ 32 }, fun slots ↦
    ⟨(sendLoop buf slots { pd with stage := .transmit } 0 buf.length).2, ?_⟩⟩
  rw [rbmSend_of_stage slots buf hstage, sendAll_of_le slots hle]
  refine congrArg (fun sent ↦ some ((1 : ℤ), sent)) (Prod.ext ?_ rfl)
  exact sendLoop_of_le buf slots _ hpos hle

/-- The one PDU of a call that agrees is accepted, whatever the slot. -/
theorem ChecksumsAgree.rbmCksum_eq (hagree : ChecksumsAgree pd buf) {pd' : RbmcastLib}
    (hsend : ∀ slots, ∃ last, rbmSend pd slots buf =
      some (1, [sendFragment pd' (slots 0) buf buf.length], last)) (slot : ℕ → UInt8) :
    rbmCksum (writeFragment pd' slot buf buf.length) (headerSize + maxTransmitData) =
      rbmCksum (writeFragment pd' slot buf buf.length) (headerSize + buf.length) := by
  obtain ⟨last, hsent⟩ := hsend fun _ ↦ slot
  obtain ⟨result, hresult, haccepted⟩ := hagree.send fun _ ↦ slot
  rw [hsent, Option.some_inj] at hresult
  subst hresult
  exact (cksumAccepted_sendFragment_iff pd' slot slot buf buf.length).mp
    (haccepted _ List.mem_cons_self slot)

/-- A full data field leaves nothing of the slot in the sum. -/
theorem checksumsAgree_of_full (hstage : pd.stage = .listen ∨ pd.stage = .transmit)
    (hfull : buf.length = maxTransmitData) : ChecksumsAgree pd buf := by
  have hpos : 0 < buf.length := by rw [hfull]; decide
  obtain ⟨pd', hsend⟩ := rbmSend_of_le hstage hpos (Nat.le_of_eq hfull)
  refine ⟨(connect_reply_accepted pd).1, (connect_reply_accepted pd).2, fun slots ↦ ?_,
    fun slots slots' ↦ ?_⟩
  · obtain ⟨last, hsent⟩ := hsend slots
    refine ⟨_, hsent, List.forall_mem_singleton.mpr fun old ↦ ?_⟩
    refine (cksumAccepted_sendFragment_iff pd' (slots 0) old buf buf.length).mpr ?_
    rw [hfull]
  · obtain ⟨last, hsent⟩ := hsend slots
    obtain ⟨last', hsent'⟩ := hsend slots'
    -- all bytes that are summed, and sent, are written by the pass
    have hbyte : ∀ j, 2 ≤ j → j < headerSize + buf.length →
        writeFragment pd' (slots 0) buf buf.length j =
          writeFragment pd' (slots' 0) buf buf.length j :=
      fun j hlo hhi ↦ writeFragment_congr pd' buf buf.length hlo hhi
    have hsum : rbmCksum (writeFragment pd' (slots 0) buf buf.length)
        (headerSize + maxTransmitData) =
          rbmCksum (writeFragment pd' (slots' 0) buf buf.length) (headerSize + maxTransmitData) :=
      rbmCksum_congr fun j hlo hhi ↦ hbyte j hlo (by rw [hfull]; exact hhi)
    rw [hsent, hsent', Option.map_some, Option.map_some]
    refine congrArg (fun datagram ↦ some [datagram]) (List.map_congr_left fun j hj ↦ ?_)
    have hj' : j < headerSize + buf.length := List.mem_range.mp hj
    simp only [sendFragment, sealPdu, hsum, putShort]
    split_ifs with hin
    · rfl
    · exact hbyte j (by omega) hj'

/-- Behind a shorter one, a byte of the slot is in the sum and not in the datagram. -/
theorem not_checksumsAgree_of_short (hstage : pd.stage = .listen ∨ pd.stage = .transmit)
    (hpos : 0 < buf.length) (hshort : buf.length < maxTransmitData) : ¬ ChecksumsAgree pd buf := by
  intro hagree
  obtain ⟨pd', hsend⟩ := rbmSend_of_le hstage hpos (Nat.le_of_lt hshort)
  -- two slots that differ in the last byte of the data field
  let slot : ℕ → UInt8 := fun _ ↦ 0
  let other : ℕ → UInt8 := fun j ↦ if j = 1419 then 1 else 0
  unfold maxTransmitData at hshort
  have hsent : rbmCksum (writeFragment pd' slot buf buf.length) (headerSize + buf.length) =
      rbmCksum (writeFragment pd' other buf buf.length) (headerSize + buf.length) :=
    rbmCksum_congr fun j hlo hhi ↦ writeFragment_congr pd' buf buf.length hlo hhi
  have hlast : headerSize + buf.length ≤ 1419 := by
    unfold headerSize
    omega
  have hslot : writeFragment pd' slot buf buf.length 1419 = 0 :=
    writeFragment_of_le pd' buf buf.length hlast
  have hother : writeFragment pd' other buf buf.length 1419 = 1 :=
    writeFragment_of_le pd' buf buf.length hlast
  have hsame : ∀ j, 2 ≤ j → j < 1419 →
      writeFragment pd' slot buf buf.length j = writeFragment pd' other buf buf.length j := by
    intro j hlo hhi
    rcases Nat.lt_or_ge j (headerSize + buf.length) with hdata | hrest
    · exact writeFragment_congr pd' buf buf.length hlo hdata
    · rw [writeFragment_of_le pd' buf _ hrest, writeFragment_of_le pd' buf _ hrest]
      exact (if_neg (Nat.ne_of_lt hhi)).symm
  have hne : rbmCksum (writeFragment pd' slot buf buf.length) (headerSize + maxTransmitData) ≠
      rbmCksum (writeFragment pd' other buf buf.length) (headerSize + maxTransmitData) := by
    refine modularSum_ne_of_last (n := 1417) (fun j hlo hhi ↦ ?_) ?_ ?_
    · exact congrArg UInt8.toNat (hsame j hlo hhi)
    · rw [hslot, hother]
      decide
    · rw [hslot, hother]
      decide
  refine hne ?_
  rw [hagree.rbmCksum_eq hsend slot, hagree.rbmCksum_eq hsend other, hsent]

end Server

/-- Sender and receiver agree exactly when `rbm_send` has nothing to send, or fills the data field
of one PDU. -/
theorem checksumsAgree_iff (pd : RbmcastLib) (buf : List UInt8) :
    ChecksumsAgree pd buf ↔
      ¬ (pd.stage = .listen ∨ pd.stage = .transmit) ∨ buf = [] ∨
        buf.length = maxTransmitData := by
  by_cases hstage : pd.stage = .listen ∨ pd.stage = .transmit
  · rcases Nat.eq_zero_or_pos buf.length with hzero | hpos
    · have hnil : buf = [] := List.length_eq_zero_iff.mp hzero
      subst hnil
      refine iff_of_true (checksumsAgree_of_nothing 1 { pd with stage := .transmit }
        fun slots ↦ ?_) (.inr (.inl rfl))
      rw [rbmSend_of_stage slots _ hstage, sendAll_of_le slots (Nat.zero_le _), sendLoop,
        if_pos hzero]
    constructor
    · intro hagree
      refine .inr (.inr ?_)
      rcases Nat.lt_trichotomy buf.length maxTransmitData with hshort | hfull | hlong
      · exact absurd hagree (not_checksumsAgree_of_short hstage hpos hshort)
      · exact hfull
      · obtain ⟨result, hsent, -⟩ := hagree.send fun _ _ ↦ 0
        rw [rbmSend_of_stage _ _ hstage, sendAll_eq_none _ hlong] at hsent
        exact absurd hsent.symm (Option.some_ne_none _)
    · rintro (hno | rfl | hfull)
      · exact absurd hstage hno
      · exact absurd hpos (Nat.lt_irrefl 0)
      · exact checksumsAgree_of_full hstage hfull
  · obtain ⟨hlisten, htransmit⟩ := not_or.mp hstage
    refine iff_of_true (checksumsAgree_of_nothing 0 pd fun slots ↦ ?_) (.inl hstage)
    rw [rbmSend, if_neg hlisten, if_pos htransmit]

/-- The PDU of a buffer of one byte is dropped when its slot held anything but zeros. -/
theorem not_checksumsAgree_one_byte : ¬ ChecksumsAgree freshServer [1] :=
  not_checksumsAgree_of_short (.inl rfl) (by decide) (by decide)

end Katmai.Rbmcast
