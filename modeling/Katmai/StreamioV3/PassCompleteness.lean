import Katmai.StreamioV3.BlockDelivery
import Mathlib.Data.List.Nodup
import Mathlib.Data.List.TakeWhile

/-!
# When a service pass sends everything that was asked for

`stbtbl_fill` returns the length of the packet, and the loop of `streamio_v3_service` stops when it
is not positive. The length of a packet past the end of the disk block is the remainder of the
length of the disk block by 1425, so it is `0` when the disk block is a whole number of packets
long, and the pass then stops at the first wanted packet past the end of the block. The client waits
for all 23 packets whatever the length of the block is, so it never gets the rest
(`servicePass_stops_early`).

`servicePass_complete_iff` says that this is the only way: for every file, block and map, a pass
sends exactly one packet for each wanted number, and then a client that asked for all of them and
loses none gets out of its waits, if and only if no wanted packet lies past the end of a disk block
that is a whole number of packets long.
-/

set_option autoImplicit false
set_option relaxedAutoImplicit false

namespace Katmai.StreamioV3

open Foundation StbChannel ClientChannel

/-- The length of disk block `block` of a file. -/
def diskBlockLen (file : RegularFile) (block : ℕ) : ℕ :=
  min bestDiskioBufferSize (file.size - block * bestDiskioBufferSize)

/-- There is exactly one packet for each number that a map asks for, and none for the others. -/
def SendsEach (packets : List DataPacket) (map : ℕ → UInt8) : Prop :=
  ∀ i < packetCount, (packets.map DataPacket.bid).count i = if map i ≠ 0 then 1 else 0

/-- The waits of an `internal_read` are over: the server has answered and no packet is missing. -/
def ReadEnds (cl : ClientChannel) : Prop :=
  cl.vodsvrResponse = true ∧ cl.brcvcnt = 0

/-- The client after the packets of `arrivals`, for one block of one file, have come in. -/
def receiveAll (cl : ClientChannel) (filecnt : ℕ) (block : ℤ) (arrivals : List DataPacket) :
    ClientChannel :=
  arrivals.foldl (fun cl packet ↦ cl.streamioV3Response (.data filecnt block packet)) cl

/-- The same packets, in any order and any number of times, but all of them. -/
def NoneLost (packets arrivals : List DataPacket) : Prop :=
  ∀ packet, packet ∈ packets ↔ packet ∈ arrivals

/-! ### The client -/

/-- What the packets of the wanted block do to the places of the client. -/
theorem receiveAll_spec (arrivals : List DataPacket)
    (hbid : ∀ packet ∈ arrivals, packet.bid < packetCount) (cl : ClientChannel)
    (hlt : cl.blockwant < 2 ^ 32)
    (hcount : cl.brcvcnt = ((List.range packetCount).countP cl.bufok : ℤ)) :
    let final := receiveAll cl cl.filecnt cl.blockwant arrivals
    final.brcvcnt = ((List.range packetCount).countP final.bufok : ℤ) ∧
      (∀ packet ∈ arrivals, final.bufok packet.bid = false) ∧
      (∀ i, cl.bufok i = false → final.bufok i = false) ∧
      (arrivals ≠ [] → final.vodsvrResponse = true) ∧
      (cl.vodsvrResponse = true → final.vodsvrResponse = true) := by
  induction arrivals generalizing cl with
  | nil =>
    intro final
    exact ⟨hcount, nofun, fun _ hi ↦ hi, fun hne ↦ absurd rfl hne, fun hresponse ↦ hresponse⟩
  | cons packet rest ih =>
    intro final
    set next := cl.streamioV3Response (.data cl.filecnt cl.blockwant packet) with hnext
    have hwanted : cl.isWanted cl.filecnt cl.blockwant = true :=
      decide_eq_true ⟨by omega, rfl⟩
    have hstored : next = { cl with vodsvrResponse := true }.storePacket packet := by
      rw [hnext, ClientChannel.streamioV3Response, if_pos hwanted]
    have hframe : next.filecnt = cl.filecnt ∧ next.blockwant = cl.blockwant ∧
        next.vodsvrResponse = true := by
      rw [hstored]
      unfold storePacket
      split_ifs
      · exact ⟨rfl, rfl, rfl⟩
      · exact ⟨rfl, rfl, rfl⟩
    have hplace : next.brcvcnt = ((List.range packetCount).countP next.bufok : ℤ) ∧
        next.bufok packet.bid = false ∧ ∀ i, cl.bufok i = false → next.bufok i = false := by
      rw [hstored]
      unfold storePacket
      split_ifs with hflag
      · have hupdate := countP_update_false hflag List.nodup_range
          (List.mem_range.mpr (hbid packet List.mem_cons_self))
        refine ⟨?_, Function.update_self _ _ _, fun i hi ↦ ?_⟩
        · show cl.brcvcnt - 1 =
            ((List.range packetCount).countP (Function.update cl.bufok packet.bid false) : ℤ)
          rw [hcount]
          simp only at hupdate
          omega
        · show Function.update cl.bufok packet.bid false i = false
          by_cases heq : i = packet.bid
          · rw [heq, Function.update_self]
          · rw [Function.update_of_ne heq]
            exact hi
      · exact ⟨hcount, by simpa using hflag, fun i hi ↦ hi⟩
    obtain ⟨hfilecnt, hblockwant, hresponse⟩ := hframe
    have hfinal : final = receiveAll next next.filecnt next.blockwant rest := by
      rw [hfilecnt, hblockwant]
      rfl
    obtain ⟨hcount', hdone, hkeep, -, hanswered⟩ :=
      ih (fun other hother ↦ hbid other (List.mem_cons_of_mem packet hother)) next
        (hblockwant ▸ hlt) hplace.1
    rw [hfinal]
    refine ⟨hcount', ?_, fun i hi ↦ hkeep i (hplace.2.2 i hi), fun _ ↦ hanswered hresponse,
      fun _ ↦ hanswered hresponse⟩
    intro other hother
    rcases List.mem_cons.mp hother with rfl | hrest
    · exact hkeep _ hplace.2.1
    · exact hdone other hrest

/-- A client that has just asked for a block, and gets a packet for every number, is done. -/
theorem readEnds_of_all_arrive {cl : ClientChannel} (hlt : cl.blockwant < cl.blockcnt)
    (hblockcnt : cl.blockcnt < 2 ^ 32) {arrivals : List DataPacket}
    (hbid : ∀ packet ∈ arrivals, packet.bid < packetCount)
    (hall : ∀ i < packetCount, ∃ packet ∈ arrivals, packet.bid = i) :
    ReadEnds (receiveAll cl.beginRead cl.filecnt cl.blockwant arrivals) := by
  have hbegin : cl.beginRead.filecnt = cl.filecnt ∧ cl.beginRead.blockwant = cl.blockwant ∧
      cl.beginRead.brcvcnt = ((List.range packetCount).countP cl.beginRead.bufok : ℤ) := by
    unfold beginRead
    rw [if_neg (by omega)]
    refine ⟨rfl, rfl, ?_⟩
    simp [List.countP_true]
  obtain ⟨hfilecnt, hblockwant, hcount⟩ := hbegin
  obtain ⟨hcount', hdone, -, hanswered, -⟩ :=
    receiveAll_spec arrivals hbid cl.beginRead (by omega) hcount
  rw [hfilecnt, hblockwant] at hcount' hdone hanswered
  have hclear : ∀ i ∈ List.range packetCount,
      ¬ (receiveAll cl.beginRead cl.filecnt cl.blockwant arrivals).bufok i = true := by
    intro i hi
    obtain ⟨packet, hpacket, rfl⟩ := hall i (List.mem_range.mp hi)
    rw [hdone packet hpacket]
    decide
  constructor
  · apply hanswered
    obtain ⟨packet, hpacket, -⟩ := hall 0 (by decide)
    exact List.ne_nil_of_mem hpacket
  · rw [hcount', List.countP_eq_zero.mpr hclear]
    rfl

/-! ### The server -/

variable {ch : StbChannel}

theorem nodup_wanted (map : ℕ → UInt8) : (wanted map 0).Nodup :=
  List.Nodup.filter _ List.nodup_range'

theorem mem_wanted {map : ℕ → UInt8} {i : ℕ} : i ∈ wanted map 0 ↔ i < packetCount ∧ map i ≠ 0 := by
  unfold wanted
  rw [List.mem_filter, List.mem_range'_1, decide_eq_true_eq]
  constructor
  · rintro ⟨⟨-, hlt⟩, hmap⟩
    exact ⟨by omega, hmap⟩
  · rintro ⟨hlt, hmap⟩
    exact ⟨⟨Nat.zero_le i, by omega⟩, hmap⟩

/-- The length of a packet is `0` exactly past the end of a disk block of whole packets. -/
theorem packetLen_eq_zero {i : ℕ} :
    ch.packetLen i = 0 ↔ ch.buflen / packetSize ≤ i ∧ ch.buflen % packetSize = 0 := by
  unfold packetLen
  split_ifs with hfull
  · constructor
    · intro hzero
      exact absurd hzero (by decide)
    · rintro ⟨hle, -⟩
      omega
  · exact ⟨fun hzero ↦ ⟨by omega, hzero⟩, fun hboth ↦ hboth.2⟩

/-- The numbers of the packets of a pass. -/
theorem servicePass_bids (ch : StbChannel) (short : ℕ → ℕ) :
    (ch.servicePass short).1.map DataPacket.bid = (wanted (ch.read short).map 0).takeWhile
      fun i ↦ decide ((ch.read short).packetLen i ≠ 0) := by
  rw [(servicePass_packets ch short).1, List.map_map]
  exact List.map_id _

/-- A pass sends each wanted packet exactly once if and only if none of them is empty. -/
theorem sendsEach_iff (ch : StbChannel) (short : ℕ → ℕ) :
    SendsEach (ch.servicePass short).1 (ch.read short).map ↔
      ∀ i < packetCount, (ch.read short).map i ≠ 0 → (ch.read short).packetLen i ≠ 0 := by
  unfold SendsEach
  rw [servicePass_bids]
  constructor
  · intro hsends i hi hmap hzero
    have hcount := hsends i hi
    rw [if_pos hmap] at hcount
    have hmem := List.count_pos_iff.mp (hcount ▸ Nat.one_pos)
    have hlen := List.mem_takeWhile_imp hmem
    exact of_decide_eq_true hlen hzero
  · intro hlen i hi
    have hwhole : (wanted (ch.read short).map 0).takeWhile
        (fun i ↦ decide ((ch.read short).packetLen i ≠ 0)) = wanted (ch.read short).map 0 := by
      refine List.takeWhile_eq_self_iff.mpr fun j hj ↦ ?_
      obtain ⟨hlt, hmap⟩ := mem_wanted.mp hj
      exact decide_eq_true (hlen j hlt hmap)
    rw [hwhole]
    split_ifs with hmap
    · exact List.count_eq_one_of_mem (nodup_wanted _) (mem_wanted.mpr ⟨hi, hmap⟩)
    · exact List.count_eq_zero_of_not_mem fun hmem ↦ hmap (mem_wanted.mp hmem).2

/-- In every state that the operations of the table can reach, for every open file, every block of
it (so the file is not empty) and every map: a pass over the request sends
exactly one packet for each wanted number, and a client that asked for all numbers and loses no
datagram gets out of its waits, if and only if no wanted packet lies past the end of a disk block
whose length is a multiple of 1425. -/
theorem servicePass_complete_iff (count : ℕ) (events : List StbEvent) {t : StbTable}
    (hrun : run stbStep (newStbtable count) events = some t) (n channel : ℕ) {fd : OpenFile}
    (hfd : ((t.stbent n).channel channel).fd = some fd) (block : ℕ)
    (hblock : block < blockCount fd.file.size) (map : ℕ → UInt8) (qos : ℤ) (short : ℕ → ℕ) :
    let ch := ((t.stbent n).channel channel).setrequest block map qos
    (SendsEach (ch.servicePass short).1 map ∧
      ((∀ i < packetCount, map i ≠ 0) → ∀ cl : ClientChannel, cl.blockwant = block →
        cl.blockcnt = blockCount fd.file.size → cl.filecnt = ch.filecount →
        ∀ arrivals, NoneLost (ch.servicePass short).1 arrivals →
          ReadEnds (receiveAll cl.beginRead ch.filecount block arrivals))) ↔
    ∀ i < packetCount, map i ≠ 0 → i < diskBlockLen fd.file (block / 32) / packetSize ∨
      diskBlockLen fd.file (block / 32) % packetSize ≠ 0 := by
  intro ch
  have hcache₀ : CacheOk ((t.stbent n).channel channel) :=
    run_invariant (fun s event s' hs hstep ↦ cacheOk_stbStep hs hstep) (tableOk_newStbtable count)
      hrun n channel
  have hblockcnt := hcache₀.blockcnt_eq fd hfd
  have hcache : CacheOk ch :=
    hcache₀.setrequest (Int.natCast_nonneg block) (by omega) map qos
  have hrequest := requestIs_setrequest ((t.stbent n).channel channel) block map qos
  obtain ⟨-, -, -, -, -, hholds⟩ := read_spec hcache hfd hrequest.rdkioBlock_eq short
  have hbuflen : (ch.read short).buflen = diskBlockLen fd.file (block / 32) := hholds.buflen_eq
  have hmapEq : (ch.read short).map = map := (sameRequest_read ch short).map_eq
  have hsends := sendsEach_iff ch short
  rw [hmapEq] at hsends
  have hcondition : (∀ i < packetCount, map i ≠ 0 → (ch.read short).packetLen i ≠ 0) ↔
      ∀ i < packetCount, map i ≠ 0 → i < diskBlockLen fd.file (block / 32) / packetSize ∨
        diskBlockLen fd.file (block / 32) % packetSize ≠ 0 := by
    refine forall_congr' fun i ↦ forall_congr' fun hi ↦ forall_congr' fun hmap ↦ ?_
    rw [Ne, packetLen_eq_zero, hbuflen]
    omega
  rw [← hcondition, ← hsends]
  refine ⟨fun hboth ↦ hboth.1, fun heach ↦
    ⟨heach, fun hall cl hwant hcnt hfilecnt arrivals hnone ↦ ?_⟩⟩
  have hbids : ∀ packet ∈ arrivals, packet.bid < packetCount := by
    intro packet hpacket
    obtain ⟨b, -, -, hpackets⟩ := packetOk_of_mem_servicePass hcache ⟨fd, hfd, rfl⟩ short
    exact (hpackets packet ((hnone packet).mpr hpacket)).bid_lt
  have hevery : ∀ i < packetCount, ∃ packet ∈ arrivals, packet.bid = i := by
    intro i hi
    have hcount := heach i hi
    rw [if_pos (hall i hi)] at hcount
    obtain ⟨packet, hpacket, hbid⟩ := List.mem_map.mp (List.count_pos_iff.mp (hcount ▸ Nat.one_pos))
    exact ⟨packet, (hnone packet).mp hpacket, hbid⟩
  have hle := blockCount_le fd.file
  rw [← hwant, ← hfilecnt]
  exact readEnds_of_all_arrive (by omega) (by omega) hbids hevery

/-- A file of one packet. -/
def onePacketFile : RegularFile := ⟨1425, by decide, fun j ↦ UInt8.ofNat j⟩

/-- The entry that has it open. -/
def onePacketChannel : StbChannel :=
  (newStbChannel.setfile (.found onePacketFile 0) 1 5).2

theorem servicePass_complete_iff_tiny :
    (∃ t, run stbStep (newStbtable 1) [.setfile 0 0 (.found tinyFile 0) 1 5] = some t) ∧
      SendsEach
        (((newStbChannel.setfile (.found tinyFile 0) 1 5).2.setrequest 0 (fun _ ↦ 1) 90).servicePass
          fun _ ↦ 0).1 fun _ ↦ 1 := by
  refine ⟨⟨_, rfl⟩, ?_⟩
  exact ((servicePass_complete_iff 1 [.setfile 0 0 (.found tinyFile 0) 1 5] rfl 0 0 rfl 0
    (by decide) (fun _ ↦ 1) 90 fun _ ↦ 0).mpr (by decide)).1

/-- For a file of 1425 bytes a pass that is asked for all packets sends only the first. -/
theorem servicePass_stops_early :
    ((onePacketChannel.setrequest 0 (fun _ ↦ 1) 90).servicePass fun _ ↦ 1424).1.map
        DataPacket.bid = [0] ∧
      ¬ SendsEach
        ((onePacketChannel.setrequest 0 (fun _ ↦ 1) 90).servicePass fun _ ↦ 1424).1 fun _ ↦ 1 := by
  have hbids : ((onePacketChannel.setrequest 0 (fun _ ↦ 1) 90).servicePass fun _ ↦ 1424).1.map
      DataPacket.bid = [0] := by decide +kernel
  refine ⟨hbids, fun hsends ↦ ?_⟩
  have hsecond := hsends 1 (by decide)
  rw [hbids] at hsecond
  exact absurd hsecond (by decide)

end Katmai.StreamioV3
