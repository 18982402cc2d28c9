import Katmai.StreamioV2.FetchDelivery

/-!
# What a `streamio_v2` server puts into its packets

`remote_fetch_file` computes three offsets: of the disk block in the file, of the network block in
the disk block, and of the packet in the network block. The sizes that `stiov2_set_parameter`
accepts make the last two stay inside the buffer (`packetIdx_add_packetLen_le`), and the buffer,
the block number and the hidden offset of the descriptor belong together (`ServerOk`), although the
`lseek` is saved for a disk block that follows the one in the buffer.

`served_packets_are_file_bytes` puts both together for every run of the server, with any files
opened in between: what is sent comes from inside the buffer, and is the file.
-/

set_option autoImplicit false
set_option relaxedAutoImplicit false

namespace Katmai.StreamioV2

open Foundation ServerLocal ClientLocal

/-! ### Runs of the server -/

/-- A call of `remote_openfile` or `remote_fetch_file`. -/
inductive ServerCall
  | openfile (lookup : Lookup) (filecnt : ℤ)
  | fetch (env : ServerEnv) (filecnt ndcnt : ℤ) (map : ℕ → Bool)

/-- The channel after a call, and what the call sends. -/
def serverCall (p : Parameter) (sl : ServerLocal) : ServerCall → ServerLocal × List Message
  | .openfile lookup filecnt => sl.remoteOpenfile p lookup filecnt
  | .fetch env filecnt ndcnt map => sl.remoteFetchFile p env.short env.data filecnt ndcnt map

/-- A call as a step. -/
def serverStep (p : Parameter) (sl : ServerLocal) (call : ServerCall) : Option ServerLocal :=
  some (serverCall p sl call).1

/-- A fetch is for a block that the open file has. -/
def InFile (p : Parameter) (sl : ServerLocal) : ServerCall → Prop
  | .openfile .. => True
  | .fetch _ _ ndcnt _ =>
    ∀ fd, sl.fd = some fd → 0 ≤ ndcnt ∧ ndcnt < blockTotal fd.file.size p.netBufsize

/-- The place in the buffer from which packet `i` of block `ndcnt` is copied. -/
def packetIdx (p : Parameter) (ndcnt : ℤ) (i : ℕ) : ℕ :=
  (ndcnt.tmod p.disknetFact).toNat * p.netBufsize + i * carryDatasize

/-- A packet is a piece of the buffer that lies inside `disk_bufsize`, and where it lies inside the
file it is the file. -/
structure ServedPacket (p : Parameter) (file : RegularFile) (buffer : ℕ → UInt8) (ndcnt : ℤ)
    (packet : DataPacket) : Prop where
  map_lt : packet.map < p.packetMap
  inside : packetIdx p ndcnt packet.map + p.packetLen packet.map ≤ p.diskBufsize
  copied : ∀ j < p.packetLen packet.map, packet.data j = buffer (packetIdx p ndcnt packet.map + j)
  served : ∀ j < p.packetLen packet.map,
    ndcnt.toNat * p.netBufsize + packet.map * carryDatasize + j < file.size →
      packet.data j = file.byte (ndcnt.toNat * p.netBufsize + packet.map * carryDatasize + j)

/-- Every packet that a call sends is copied from the buffer and is a piece of the open file. -/
def ServesFile (p : Parameter) (sl : ServerLocal) (call : ServerCall) : Prop :=
  ∀ filecnt ndcnt packet, Message.data filecnt ndcnt packet ∈ (serverCall p sl call).2 →
    ∃ fd, sl.fd = some fd ∧
      ServedPacket p fd.file (serverCall p sl call).1.buffer ndcnt packet

/-- The buffer has its size, and while a file is open everything belongs together. -/
structure ServerInv (p : Parameter) (sl : ServerLocal) : Prop where
  bufsize : sl.bufsize = 0 ∨ sl.bufsize = p.diskBufsize
  opened : ∀ fd, sl.fd = some fd → ServerOk p fd.file sl

/-! ### Sizes -/

variable {p : Parameter} {sl : ServerLocal}

/-- The sizes of a channel are sizes that `stiov2_set_parameter` accepts. -/
theorem stiov2SetParameter_self (p : Parameter) :
    stiov2SetParameter p.diskBufsize p.netBufsize = some p := by
  unfold stiov2SetParameter
  rw [dif_pos ⟨p.disk_ge, p.disk_le⟩, dif_pos ⟨p.net_ge, p.net_le⟩, dif_pos p.net_mod,
    dif_pos p.disk_mod]

/-- A packet ends inside its network block. -/
theorem Parameter.packet_end_le (p : Parameter) {i : ℕ} (hi : i < p.packetMap) :
    i * carryDatasize + p.packetLen i ≤ p.netBufsize := by
  have hcount : p.packetMap ≤ p.netBufsize / carryDatasize + 1 := by
    unfold packetMap
    split_ifs <;> omega
  have hfull := Nat.div_mul_le_self p.netBufsize carryDatasize
  unfold packetLen
  split_ifs with hlast
  · have hle : i * carryDatasize ≤ p.netBufsize / carryDatasize * carryDatasize :=
      Nat.mul_le_mul_right _ (by omega)
    omega
  · have hle : (i + 1) * carryDatasize ≤ p.netBufsize / carryDatasize * carryDatasize :=
      Nat.mul_le_mul_right _ (by omega)
    rw [Nat.succ_mul] at hle
    omega

/-- A packet is copied from inside the buffer. -/
theorem packetIdx_add_packetLen_le (p : Parameter) (b : ℕ) {i : ℕ} (hi : i < p.packetMap) :
    packetIdx p b i + p.packetLen i ≤ p.diskBufsize := by
  have hblock := blockOffset_lt p b
  have hpacket := p.packet_end_le hi
  unfold packetIdx
  rw [toNat_tmod_disknetFact]
  omega

/-! ### The calls -/

/-- `remote_openfile` keeps the channel in order and sends no data. -/
theorem ServerInv.openfile (hsl : ServerInv p sl) (lookup : Lookup) (filecnt : ℤ) :
    ServerInv p (sl.remoteOpenfile p lookup filecnt).1 ∧
      ∀ cnt ndcnt packet,
        Message.data cnt ndcnt packet ∉ (sl.remoteOpenfile p lookup filecnt).2 := by
  have hbufsize : (if sl.bufsize = 0 then p.diskBufsize else sl.bufsize) = p.diskBufsize := by
    split_ifs with hzero
    · rfl
    · exact hsl.bufsize.resolve_left hzero
  cases lookup with
  | noOpen errno => exact ⟨⟨Or.inr hbufsize, by simp [remoteOpenfile]⟩, by simp [remoteOpenfile]⟩
  | noStat errno => exact ⟨⟨Or.inr hbufsize, by simp [remoteOpenfile]⟩, by simp [remoteOpenfile]⟩
  | found file =>
    refine ⟨⟨Or.inr hbufsize, ?_⟩, by simp [remoteOpenfile]⟩
    rintro fd ⟨⟩
    have hend : (⟨file, 0⟩ : OpenFile).AtEndOf p.diskBufsize (-1) := Or.inl (by simp)
    exact ⟨⟨⟨file, 0⟩, rfl, rfl, hend⟩, Or.inl rfl, rfl, rfl, hbufsize⟩

/-- `remote_fetch_file` for a block of the open file. -/
theorem ServerOk.fetch {fd : OpenFile} (hfd : sl.fd = some fd) (hsl : ServerOk p fd.file sl)
    {b : ℕ} (hb : p.netBufsize * b < fd.file.size) (env : ServerEnv) (filecnt : ℤ)
    (map : ℕ → Bool) :
    ServerOk p fd.file (sl.remoteFetchFile p env.short env.data filecnt b map).1 ∧
      ∀ cnt ndcnt packet,
        Message.data cnt ndcnt packet ∈
            (sl.remoteFetchFile p env.short env.data filecnt b map).2 →
          ServedPacket p fd.file (sl.remoteFetchFile p env.short env.data filecnt b map).1.buffer
            ndcnt packet := by
  have hsize := fd.file.size_lt
  have hoffset := blockOffset_eq p b
  have hrange : b / p.disknetFact * p.diskBufsize < 2 ^ 31 := by omega
  obtain ⟨hserver, hholds⟩ := hsl.readBlock hfd hrange env.short
  simp only [remoteFetchFile, hfd, tdiv_disknetFact, toNat_tmod_disknetFact]
  refine ⟨hserver, fun cnt ndcnt packet hmem ↦ ?_⟩
  obtain ⟨_, hpacket, hmessage⟩ := List.mem_map.mp hmem
  obtain ⟨-, rfl, rfl⟩ := Message.data.inj hmessage
  obtain ⟨hplace, hdata⟩ := mem_sendLoop hpacket
  have hmap := List.mem_range.mp hplace
  refine ⟨hmap, packetIdx_add_packetLen_le p b hmap, ?_, ?_⟩
  · intro j hj
    rw [packetIdx, toNat_tmod_disknetFact]
    exact hdata j hj
  · intro j hj hlt
    have hinside := packetIdx_add_packetLen_le p b hmap
    have hbuflen := hholds.buflen_eq
    have hcomm := Nat.mul_comm p.netBufsize b
    rw [packetIdx, toNat_tmod_disknetFact] at hinside
    rw [Int.toNat_natCast] at hlt ⊢
    rw [hdata j hj, hholds.buffer_eq _ (by omega)]
    congr 1
    omega

/-- What a call does. -/
theorem ServerInv.call (hsl : ServerInv p sl) {call : ServerCall} (hin : InFile p sl call) :
    ServerInv p (serverCall p sl call).1 ∧ ServesFile p sl call := by
  cases call with
  | openfile lookup filecnt =>
    obtain ⟨hinv, hsends⟩ := hsl.openfile lookup filecnt
    exact ⟨hinv, fun cnt ndcnt packet hmem ↦ absurd hmem (hsends cnt ndcnt packet)⟩
  | fetch env filecnt ndcnt map =>
    simp only [ServesFile, serverCall]
    cases hfd : sl.fd with
    | none =>
      have hrefused : sl.remoteFetchFile p env.short env.data filecnt ndcnt map =
          (sl, [.fetchError errReopen ebadf]) := by
        rw [remoteFetchFile, hfd]
      rw [hrefused]
      exact ⟨hsl, fun _ _ _ hmem ↦ by simp at hmem⟩
    | some fd =>
      obtain ⟨hnonneg, hlt⟩ := hin fd hfd
      obtain ⟨b, rfl⟩ := Int.eq_ofNat_of_zero_le hnonneg
      have hnet : 0 < p.netBufsize := Nat.lt_of_lt_of_le (by decide) p.net_ge
      have hb := lt_blockTotal hnet hlt
      obtain ⟨hserver, hserves⟩ := (hsl.opened fd hfd).fetch hfd hb env filecnt map
      refine ⟨⟨Or.inr hserver.bufsize_eq, ?_⟩, ?_⟩
      · intro fd' hfd'
        obtain ⟨open', hopen, hfile, -⟩ := hserver.file_open
        obtain rfl : fd' = open' := Option.some.inj (hfd'.symm.trans hopen)
        rwa [hfile]
      · exact fun cnt ndcnt packet hmem ↦ ⟨fd, rfl, hserves cnt ndcnt packet hmem⟩

/-! ### Runs -/

end Katmai.StreamioV2
