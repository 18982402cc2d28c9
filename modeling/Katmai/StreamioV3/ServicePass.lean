import Katmai.StreamioV3.DiskCache

/-!
# The packets of a service pass

`servicePass_packets` computes what one pass of `streamio_v3_service` sends: the wanted packets in
the order of their numbers (`wanted`), up to the first whose length is `0`. The length of a packet
comes from the length of the whole disk block, so it is not the length of what the network block
has at that place, but it is never too short: a packet covers every byte of the network block that
belongs to its place, and carries it (`PacketOk`, `packetOk_packet`).
-/

set_option autoImplicit false
set_option relaxedAutoImplicit false

namespace Katmai.StreamioV3

open Foundation StbChannel

/-- The packet numbers from `start` on that a request map asks for. -/
def wanted (map : ℕ → UInt8) (start : ℕ) : List ℕ :=
  (List.range' start (packetCount - start)).filter fun i ↦ decide (map i ≠ 0)

/-- Packet `i` of the requested network block. -/
def StbChannel.packet (ch : StbChannel) (i : ℕ) : DataPacket :=
  ⟨i, ch.packetLen i, ch.packetData i⟩

variable {ch : StbChannel}

/-! ### The loop over the request map -/

/-- The scan of the map stops at the first number that is asked for. -/
theorem wanted_of_nextWanted {start i : ℕ} (hnext : ch.nextWanted start = some i) :
    start ≤ i ∧ i < packetCount ∧ wanted ch.map start = i :: wanted ch.map (i + 1) := by
  unfold nextWanted at hnext
  obtain ⟨hmap, before, after, hsplit, hbefore⟩ := List.find?_eq_some_iff_append.mp hnext
  obtain ⟨k, hk, hfirst, hrest⟩ := List.range'_eq_append_iff.mp hsplit
  obtain ⟨hi, hpos, hafter⟩ := List.range'_eq_cons_iff.mp hrest.symm
  have hcount : packetCount - start - k - 1 = packetCount - (i + 1) := by omega
  refine ⟨by omega, by omega, ?_⟩
  have hnone : before.filter (fun i ↦ decide (ch.map i ≠ 0)) = [] := by
    refine List.filter_eq_nil_iff.mpr fun a ha ↦ ?_
    have hnot := hbefore a ha
    simpa using hnot
  unfold wanted
  rw [hsplit, List.filter_append, hnone, List.nil_append, List.filter_cons, if_pos hmap, hafter,
    hcount]

theorem wanted_of_nextWanted_none {start : ℕ} (hnext : ch.nextWanted start = none) :
    wanted ch.map start = [] := by
  unfold nextWanted at hnext
  exact List.filter_eq_nil_iff.mpr (List.find?_eq_none.mp hnext)

/-- The number of calls of `stbtbl_fill` is bounded, and the loop sends the wanted packets up to
the first empty one. Nothing but the place in the map is changed. -/
theorem fillLoop_spec (fuel : ℕ) (mapflag : Bool) (ch : StbChannel)
    (hfuel : packetCount < fuel + if mapflag then 0 else ch.mapi + 1) :
    (fillLoop fuel mapflag ch).1 =
        ((wanted ch.map (if mapflag then 0 else ch.mapi + 1)).takeWhile
          fun i ↦ decide (ch.packetLen i ≠ 0)).map ch.packet ∧
      ∃ mapi, (fillLoop fuel mapflag ch).2 = { ch with mapi := mapi } := by
  induction fuel generalizing mapflag ch with
  | zero =>
    have hempty : wanted ch.map (if mapflag then 0 else ch.mapi + 1) = [] := by
      unfold wanted
      rw [Nat.sub_eq_zero_of_le (by omega)]
      rfl
    rw [hempty]
    exact ⟨rfl, ch.mapi, rfl⟩
  | succ fuel ih =>
    set start := if mapflag then 0 else ch.mapi + 1 with hstart
    cases hnext : ch.nextWanted start with
    | none =>
      have hfill : ch.fill mapflag =
          (⟨-1, none, fun _ ↦ 0⟩, { ch with mapi := max start packetCount }) := by
        unfold StbChannel.fill
        simp only [← hstart, hnext]
      rw [fillLoop, hfill, wanted_of_nextWanted_none hnext]
      exact ⟨rfl, _, rfl⟩
    | some i =>
      obtain ⟨hle, hlt, hwanted⟩ := wanted_of_nextWanted hnext
      have hfill : ch.fill mapflag =
          (⟨if ch.packetLen i = 0 then -1 else ch.packetLen i, some i, ch.packetData i⟩,
            { ch with mapi := i }) := by
        unfold StbChannel.fill
        simp only [← hstart, hnext]
      rw [fillLoop, hfill, hwanted]
      simp only
      by_cases hzero : ch.packetLen i = 0
      · rw [if_pos hzero, if_neg (by decide), List.takeWhile_cons_of_neg (by simpa using hzero)]
        exact ⟨rfl, i, rfl⟩
      · obtain ⟨hpackets, mapi, hfinal⟩ := ih false { ch with mapi := i } (by
          show packetCount < fuel + (i + 1)
          omega)
        rw [if_neg hzero, if_pos (by omega), List.takeWhile_cons_of_pos (by simpa using hzero),
          List.map_cons]
        refine ⟨?_, mapi, hfinal⟩
        show ⟨i, _, ch.packetData i⟩ :: (fillLoop fuel false { ch with mapi := i }).1 = _
        rw [hpackets]
        rfl

/-- What a pass sends, and what it leaves. -/
theorem servicePass_packets (ch : StbChannel) (short : ℕ → ℕ) :
    (ch.servicePass short).1 = ((wanted (ch.read short).map 0).takeWhile
        fun i ↦ decide ((ch.read short).packetLen i ≠ 0)).map (ch.read short).packet ∧
      ∃ mapi, (ch.servicePass short).2 = { ch.read short with mapi := mapi } :=
  fillLoop_spec (packetCount + 1) true (ch.read short) (Nat.lt_succ_self packetCount)

/-! ### The bytes of a packet -/

/-- The length of network block `block` of a file. -/
def blockLen (file : RegularFile) (block : ℕ) : ℕ :=
  min 32768 (file.size - 32768 * block)

/-- A packet has a number in range, fits its place, and carries every byte of the network block that
belongs there. -/
structure PacketOk (file : RegularFile) (block : ℕ) (packet : DataPacket) : Prop where
  bid_lt : packet.bid < packetCount
  len_le : packet.len ≤ packetSize
  covers : ∀ j < packetSize, packetSize * packet.bid + j < blockLen file block →
    j < packet.len ∧
      packet.data j = file.byte (32768 * block + (packetSize * packet.bid + j))

theorem packetLen_le (ch : StbChannel) (i : ℕ) : ch.packetLen i ≤ packetSize := by
  unfold packetLen
  split_ifs
  · exact le_refl _
  · exact le_of_lt (Nat.mod_lt _ (by decide))

/-- The packets filled from a buffer that holds the disk block of the requested network block. -/
theorem packetOk_packet {file : RegularFile} {block i : ℕ}
    (hholds : HoldsBlock bestDiskioBufferSize ch.buffer ch.buflen file (block / 32))
    (hnetio : ch.netioBlock = ((block % 32 : ℕ) : ℤ)) (hi : i < packetCount) :
    PacketOk file block (ch.packet i) := by
  refine ⟨hi, packetLen_le ch i, fun j hj hlt ↦ ?_⟩
  have hbuflen := hholds.buflen_eq
  have hdisk : bestDiskioBufferSize = 1048576 := rfl
  have hsize : packetSize = 1425 := rfl
  have hplace : (32768 * ch.netioBlock).toNat = 32768 * (block % 32) := by
    rw [hnetio]
    omega
  unfold blockLen at hlt
  simp only [StbChannel.packet, hsize] at hj hlt ⊢
  rw [hdisk] at hbuflen
  have hinside : 32768 * (block % 32) + (1425 * i + j) < ch.buflen := by omega
  constructor
  · unfold packetLen
    rw [hsize]
    split_ifs with hfull
    · exact hj
    · omega
  · have hbyte := hholds.buffer_eq _ hinside
    unfold packetData
    rw [hplace, hsize, Nat.add_assoc, hbyte, hdisk]
    have hoffset : block / 32 * 1048576 + (32768 * (block % 32) + (1425 * i + j)) =
        32768 * block + (1425 * i + j) := by omega
    rw [hoffset]

end Katmai.StreamioV3
