import Katmai.FileServer.MainLoop
import Katmai.StreamioV3.Session

/-!
# Which table cells a datagram makes the programs touch

The client and the server of `streamio_v3` index their per-channel arrays with the channel of a
datagram, and the client the 23 rows of `bufok`, `map` and `bbuf` with its packet number, and copies
as many bytes into the row as its length field says. `responseAccesses` and `mainAccesses` list the
cells that `streamio_v3_response` and `streamio_v3_main` touch for one datagram; the list ends with
the first cell that is not there.

Nothing but the checksum is tested before. `table_accesses_within_iff` says exactly which datagrams
keep the programs within their tables, along every run of the client (datagrams in any order between
calls of the application) and of the main loop of the server.
-/

set_option autoImplicit false
set_option relaxedAutoImplicit false

namespace Katmai.StreamioV3

open FileServer Foundation

/-- A cell of a per-channel array, a row of `bufok`, `map` or `bbuf`, or a number of bytes copied
into a row of `bbuf`. -/
inductive TableAccess
  | channel (index : ℤ)
  | packet (index : ℤ)
  | copy (len : ℕ)
  deriving DecidableEq, Repr

/-- The cell is there, and the bytes fit. -/
def TableAccess.Within : TableAccess → Prop
  | .channel index => 0 ≤ index ∧ index < maxStiov3Channel
  | .packet index => 0 ≤ index ∧ index < packetCount
  | .copy len => len ≤ packetSize

instance decidableWithin : ∀ access : TableAccess, Decidable access.Within
  | .channel _ => inferInstanceAs (Decidable (_ ∧ _))
  | .packet _ => inferInstanceAs (Decidable (_ ∧ _))
  | .copy _ => inferInstanceAs (Decidable (_ ≤ _))

/-! ### The client -/

/-- The cells that `streamio_v3_response` touches for a datagram with a right checksum. The length
of the copy is converted to `size_t`. -/
def responseAccesses (pd : ℕ → ClientChannel) (m : Received) : List TableAccess :=
  let cmd := getInt m.buffer 4
  let channel := getChar m.buffer 12
  let bid := getInt m.buffer 25
  if cmd = 2 ∨ cmd = 8 ∨ cmd = 9 then [.channel channel]
  else if cmd = 3 ∨ cmd = 4 then
    .channel channel ::
      if (TableAccess.channel channel).Within ∧
          (pd channel.toNat).isWanted (getUInt m.buffer 17) (getInt m.buffer 21) then
        .packet bid ::
          if (TableAccess.packet bid).Within ∧ (pd channel.toNat).bufok bid.toNat then
            [.packet bid, .copy (getUInt m.buffer 29)]
          else []
      else []
  else []

/-- The string at an offset of the buffer. -/
def getString (buffer : ℕ → UInt8) (offset : ℕ) : String :=
  let bytes := (List.range (2000 - offset)).map fun j ↦ buffer (offset + j)
  String.ofList ((bytes.takeWhile (· ≠ 0)).map fun b ↦ Char.ofNat b.toNat)

/-- What a datagram says to a channel of the client. The other commands are about servers. -/
def responseMessage (m : Received) : Option Message :=
  let cmd := getInt m.buffer 4
  let filecnt := getUInt m.buffer 17
  let block := getInt m.buffer 21
  if cmd = 2 then some (.openReply filecnt block (getInt m.buffer 13) (getString m.buffer 30))
  else if cmd = 8 then some (.fetchResponse filecnt block)
  else if cmd = 9 then some (.needReopen filecnt block)
  else if cmd = 3 ∨ cmd = 4 then
    some (.data filecnt block
      ⟨(getInt m.buffer 25).toNat, getUInt m.buffer 29, fun j ↦ m.buffer (33 + j)⟩)
  else none

/-- What can happen to a client: a datagram comes in, or the application moves on a channel. -/
inductive ClientEvent
  | datagram (m : Received)
  | application (channel : ℕ) (event : SessionEvent)

/-- A step of the application on a channel, as in a session. -/
def applicationStep (cl : ClientChannel) (event : SessionEvent) : Option ClientChannel :=
  (sessionStep (fun _ ↦ .noStat 0) ⟨cl, newStbChannel, [], [], [], []⟩ event).map (·.client)

/-- The machine of a client. It goes on after a datagram that keeps it within its tables. -/
def clientStep (pd : ℕ → ClientChannel) : ClientEvent → Option (ℕ → ClientChannel)
  | .datagram m =>
    if m.cksumOk then
      if ∀ access ∈ responseAccesses pd m, access.Within then
        match responseMessage m with
        | some message =>
          some (Function.update pd (channelOf m) ((pd (channelOf m)).streamioV3Response message))
        | none => some pd
      else none
    else some pd
  | .application channel event =>
    if channel < maxStiov3Channel then
      (applicationStep (pd channel) event).map (Function.update pd channel)
    else none

/-- A datagram keeps the client within its tables. -/
def ResponseWithin (pd : ℕ → ClientChannel) : ClientEvent → Prop
  | .datagram m => m.cksumOk = true → ∀ access ∈ responseAccesses pd m, access.Within
  | .application _ _ => True

instance decidableResponseWithin (pd : ℕ → ClientChannel) :
    ∀ event, Decidable (ResponseWithin pd event)
  | .datagram _ => inferInstanceAs (Decidable (_ = true → ∀ access ∈ _, _))
  | .application _ _ => .isTrue trivial

/-- The channel of a datagram for a channel is one, and a packet of the wanted block has a packet
number that is one and, if the packet is missing, a length that fits. -/
def ResponseGuarded (pd : ℕ → ClientChannel) : ClientEvent → Prop
  | .datagram m =>
    m.cksumOk = true →
      let cmd := getInt m.buffer 4
      let channel := getChar m.buffer 12
      let bid := getInt m.buffer 25
      let len := getInt m.buffer 29
      (cmd = 2 ∨ cmd = 8 ∨ cmd = 9 ∨ cmd = 3 ∨ cmd = 4 →
        0 ≤ channel ∧ channel < maxStiov3Channel) ∧
      (cmd = 3 ∨ cmd = 4 →
        (pd channel.toNat).isWanted (getUInt m.buffer 17) (getInt m.buffer 21) →
        (0 ≤ bid ∧ bid < packetCount) ∧
          ((pd channel.toNat).bufok bid.toNat → 0 ≤ len ∧ len ≤ packetSize))
  | .application _ _ => True

/-- A length that is not negative and not too large is one that fits as an unsigned number. -/
theorem getUInt_le_iff (buffer : ℕ → UInt8) (offset : ℕ) {bound : ℕ} (hbound : bound < 2 ^ 31) :
    getUInt buffer offset ≤ bound ↔ 0 ≤ getInt buffer offset ∧ getInt buffer offset ≤ bound := by
  have hlt := getUInt_lt buffer offset
  unfold getInt
  rw [Int.bmod_def]
  split_ifs <;> omega

/-- The client stays within its tables exactly for the datagrams above. -/
theorem responseWithin_iff (pd : ℕ → ClientChannel) (event : ClientEvent) :
    ResponseWithin pd event ↔ ResponseGuarded pd event := by
  cases event with
  | application channel event => exact Iff.rfl
  | datagram m =>
    refine imp_congr_right fun _ ↦ ?_
    have hlen := getUInt_le_iff m.buffer 29 (by decide : packetSize < 2 ^ 31)
    unfold responseAccesses
    dsimp only
    split_ifs with hfirst hfetch hwanted hmissing
    · have hcmd : ¬(getInt m.buffer 4 = 3 ∨ getInt m.buffer 4 = 4) := by omega
      simp only [List.forall_mem_cons, List.not_mem_nil, false_imp_iff, implies_true, and_true]
      exact ⟨fun hchannel ↦ ⟨fun _ ↦ hchannel, fun h ↦ absurd h hcmd⟩,
        fun hguard ↦ hguard.1 (by omega)⟩
    · simp only [List.forall_mem_cons, List.not_mem_nil, false_imp_iff, implies_true, and_true]
      constructor
      · rintro ⟨hchannel, hbid, -, hcopy⟩
        exact ⟨fun _ ↦ hchannel, fun _ _ ↦ ⟨hbid, fun _ ↦ hlen.mp hcopy⟩⟩
      · intro hguard
        obtain ⟨hbid, hcopy⟩ := hguard.2 hfetch hwanted.2
        exact ⟨hwanted.1, hbid, hbid, hlen.mpr (hcopy hmissing.2)⟩
    · simp only [List.forall_mem_cons, List.not_mem_nil, false_imp_iff, implies_true, and_true]
      constructor
      · rintro ⟨hchannel, hbid⟩
        exact ⟨fun _ ↦ hchannel, fun _ _ ↦ ⟨hbid, fun hok ↦ absurd ⟨hbid, hok⟩ hmissing⟩⟩
      · intro hguard
        exact ⟨hwanted.1, (hguard.2 hfetch hwanted.2).1⟩
    · simp only [List.forall_mem_cons, List.not_mem_nil, false_imp_iff, implies_true, and_true]
      constructor
      · intro hchannel
        exact ⟨fun _ ↦ hchannel, fun _ hok ↦ absurd ⟨hchannel, hok⟩ hwanted⟩
      · intro hguard
        exact hguard.1 (by omega)
    · simp only [List.not_mem_nil, false_imp_iff, implies_true, true_iff]
      exact ⟨fun h ↦ absurd h (by omega), fun h ↦ absurd h hfetch⟩

/-! ### The server -/

/-- The cells that `streamio_v3_main` touches for a datagram. -/
def mainAccesses (stopServices : Bool) (s : V3Server) (env : V3Env) (m : Received) :
    List TableAccess :=
  let cmd := getInt m.buffer 4
  let channel := getChar m.buffer 12
  if m.cksumOk = false ∨ stopServices = true then []
  else if cmd = 2 ∨ cmd = 3 then
    match checkRegist s env m with
    | .inl i =>
      if i < s.table.count then
        .channel channel ::
          if cmd = 3 ∧ (TableAccess.channel channel).Within ∧
              s.table.stbtblIsFileMatched i channel.toNat (getUInt m.buffer 17) then
            ((List.range packetCount).map fun j : ℕ ↦ .packet j) ++ [.channel channel]
          else []
      else []
    | .inr _ => []
  else []

/-- A datagram keeps the server within its tables. -/
def MainWithin (s : LoopServer V3Server) : LoopEvent V3Env → Prop
  | .datagram m env => s.pc = .receiving →
      ∀ access ∈ mainAccesses s.stopServices s.state env m, access.Within
  | _ => True

instance decidableMainWithin (s : LoopServer V3Server) : ∀ event, Decidable (MainWithin s event)
  | .datagram _ _ => inferInstanceAs (Decidable (_ = _ → ∀ access ∈ _, _))
  | .work => .isTrue trivial
  | .nothing => .isTrue trivial
  | .pause _ => .isTrue trivial
  | .start => .isTrue trivial
  | .stop => .isTrue trivial

/-- The channel of an `OPENFILE` or `FETCH` for an entry of the table is one. -/
def MainGuarded (s : LoopServer V3Server) : LoopEvent V3Env → Prop
  | .datagram m env => s.pc = .receiving → m.cksumOk = true → s.stopServices = false →
      getInt m.buffer 4 = 2 ∨ getInt m.buffer 4 = 3 →
      ∀ i, checkRegist s.state env m = .inl i → i < s.state.table.count →
      0 ≤ getChar m.buffer 12 ∧ getChar m.buffer 12 < maxStiov3Channel
  | _ => True

/-- The server stays within its tables exactly for the datagrams above. -/
theorem mainWithin_iff (s : LoopServer V3Server) (event : LoopEvent V3Env) :
    MainWithin s event ↔ MainGuarded s event := by
  cases event with
  | work => exact Iff.rfl
  | nothing => exact Iff.rfl
  | pause p => exact Iff.rfl
  | start => exact Iff.rfl
  | stop => exact Iff.rfl
  | datagram m env =>
    refine imp_congr_right fun _ ↦ ?_
    have hpackets : ∀ access ∈ (List.range packetCount).map fun j : ℕ ↦ TableAccess.packet j,
        access.Within := by
      intro access haccess
      obtain ⟨j, hj, rfl⟩ := List.mem_map.mp haccess
      exact ⟨Int.natCast_nonneg j, Int.ofNat_lt.mpr (List.mem_range.mp hj)⟩
    unfold mainAccesses
    dsimp only
    split_ifs with hdropped hcmd
    · simp only [List.not_mem_nil, false_imp_iff, implies_true, true_iff]
      intro hok hservices
      rw [hok, hservices] at hdropped
      exact absurd hdropped (by decide)
    · have hcksum : m.cksumOk = true := by
        cases hok : m.cksumOk
        · exact absurd (.inl hok) hdropped
        · rfl
      have hservices : s.stopServices = false := by
        cases hstop : s.stopServices
        · rfl
        · exact absurd (.inr hstop) hdropped
      have hguard (i : ℕ) (hi : i < s.state.table.count) :
          (TableAccess.channel (getChar m.buffer 12)).Within ↔ (m.cksumOk = true →
            s.stopServices = false → getInt m.buffer 4 = 2 ∨ getInt m.buffer 4 = 3 →
            ∀ j, (.inl i : ℕ ⊕ Sent) = .inl j → j < s.state.table.count →
            0 ≤ getChar m.buffer 12 ∧ getChar m.buffer 12 < maxStiov3Channel) :=
        ⟨fun hchannel _ _ _ _ _ _ ↦ hchannel, fun h ↦ h hcksum hservices hcmd i rfl hi⟩
      cases hcheck : checkRegist s.state env m with
      | inr reply =>
        simp only [List.not_mem_nil, false_imp_iff, implies_true, true_iff]
        exact fun _ _ _ i hi ↦ absurd hi Sum.inr_ne_inl
      | inl i =>
        dsimp only
        split_ifs with hi hmatched
        · refine Iff.trans ?_ (hguard i hi)
          rw [List.forall_mem_cons, List.forall_mem_append]
          refine ⟨fun hall ↦ hall.1, fun hchannel ↦ ⟨hchannel, hpackets, fun access haccess ↦ ?_⟩⟩
          obtain rfl := List.mem_singleton.mp haccess
          exact hchannel
        · refine Iff.trans ?_ (hguard i hi)
          rw [List.forall_mem_cons]
          exact ⟨fun hall ↦ hall.1, fun hchannel ↦ ⟨hchannel, fun _ h ↦ absurd h List.not_mem_nil⟩⟩
        · simp only [List.not_mem_nil, false_imp_iff, implies_true, true_iff]
          rintro - - - j hj hlt
          obtain rfl := Sum.inl.inj hj
          exact absurd hlt hi
    · simp only [List.not_mem_nil, false_imp_iff, implies_true, true_iff]
      exact fun _ _ h ↦ absurd h hcmd

/-- The client and the server stay within their tables, in a run from any state, exactly if every
datagram of the run has the channel, packet number and length it should have. -/
theorem table_accesses_within_iff (pd : ℕ → ClientChannel) (events : List ClientEvent)
    (s : LoopServer V3Server) (loopEvents : List (LoopEvent V3Env)) :
    (Meets clientStep ResponseWithin pd events ↔ Meets clientStep ResponseGuarded pd events) ∧
      (Meets (loopStep streamioV3Dispatch) MainWithin s loopEvents ↔
        Meets (loopStep streamioV3Dispatch) MainGuarded s loopEvents) :=
  ⟨meets_congr responseWithin_iff pd events, meets_congr mainWithin_iff s loopEvents⟩

/-- A datagram with a command, a channel, a packet number and a length, and its checksum. -/
def sealedDatagram (cmd : ℤ) (channel : UInt8) (bid len : ℤ) : Received where
  source := ⟨0, 0⟩
  len := 37
  len_pos := Nat.succ_pos 36
  len_le := by decide
  buffer :=
    let buffer := putInt (putInt (putInt (fun _ ↦ 0) 4 cmd) 25 bid) 29 len
    let buffer := Function.update buffer 12 channel
    putInt buffer 0 (csCksum buffer 37)

/-- Memory that is all zero. -/
def zeroedChannel : ClientChannel where
  channel := 0
  stbid := 0
  cut := false
  qosThreshold := 0
  filecnt := 0
  blockwant := 0
  blockcnt := 0
  filesize := 0
  needFilesize := false
  needReopen := false
  openErrno := 0
  vodsvrResponse := false
  brcvcnt := 0
  bufok := fun _ ↦ false
  bbuf := fun _ ↦ 0
  requestBlock := 0
  qos := 0
  map := fun _ ↦ 0
  fast := false
  reopenFile := ""
  mayNeedFixFilename := false
  phase := .idle

/-- The channels of a new client. -/
def newClient (channel : ℕ) : ClientChannel :=
  newClientChannel channel 1 zeroedChannel

/-- A new server for one client. -/
def newServer : V3Server where
  myId := 0
  stbQosThreshold := 60
  versionMajor := 0
  versionMinor := 0
  table := newStbtable 1
  netq := fun _ ↦ (Mqueue.newMultipleQueue 1 2 256).get rfl

/-- A datagram with channel 100, or one with packet number 23 for a new client, takes the client out
of its tables, and one with channel -1 the server. -/
theorem accesses_outside_tables :
    ¬Meets clientStep ResponseWithin newClient [.datagram (sealedDatagram 8 100 0 0)] ∧
      ¬Meets clientStep ResponseWithin newClient [.datagram (sealedDatagram 3 1 23 0)] ∧
      ¬Meets (loopStep streamioV3Dispatch) MainWithin (startServer newServer)
        [.work, .work,
          .datagram (sealedDatagram 3 255 0 0) ⟨0, 0, .noStat 0, none, 0, fun _ ↦ 0⟩] := by
  refine ⟨?_, ?_, ?_⟩ <;> decide +kernel

end Katmai.StreamioV3
