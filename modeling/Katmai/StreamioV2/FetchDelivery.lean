import Katmai.Foundation.BlockCache
import Katmai.Foundation.EventRun
import Katmai.Foundation.Reassembly
import Katmai.StreamioV2.ClientLocal

/-!
# Blocks are delivered intact while packets carry the label of the read

The packets of version 2 carry the file count and the block number of the request they answer, but
`response` looks at neither: a packet of block `b` that comes late, or twice, is put into the buffer
while block `b + 1` is assembled (`duplicate_packet_gives_wrong_block`). Version 3 compares both. It
also copies a packet before it counts it, where version 2 counts it first, so that `internal_read`
may return before the last copy.

`fetchDelivery_of_current_labels` shows that nothing else goes wrong. In every run in which the
packets that are taken during a read carry the label of that read, and no read returns between the
count and the copy of a packet, every positive result of `internal_read` is the block it was called
for. `Delivery` is the invariant. Of the server it says that the buffer, the block number and the
hidden offset of the descriptor belong together (`ServerOk`); of the network, that the packets with
the present file count carry their part of the block they are labelled with (`MessageOk`); of the
client, that the places of the buffer that are not waited for are filled with the bytes of the block
that is read (`ReadOk`).
-/

set_option autoImplicit false
set_option relaxedAutoImplicit false

namespace Katmai.StreamioV2

open Foundation ServerLocal ClientLocal

/-! ### The sizes of a channel -/

variable {p : Parameter} {file : RegularFile} {fs : String → Lookup} {cnt : ℤ}

/-- The packets of a network block cover it. -/
theorem Parameter.net_le_packets (p : Parameter) : p.netBufsize ≤ carryDatasize * p.packetMap := by
  unfold packetMap
  show p.netBufsize ≤ 1439 * (p.netBufsize / 1439 + if p.netBufsize % 1439 > 0 then 1 else 0)
  split_ifs <;> omega

/-- A byte of a packet that lies inside the network block is one of those that are copied. -/
theorem Parameter.lt_packetLen (p : Parameter) {i j : ℕ} (hj : j < carryDatasize)
    (hlt : carryDatasize * i + j < p.netBufsize) : j < p.packetLen i := by
  unfold packetLen
  split_ifs
  · rw [Nat.mul_comm]
    omega
  · exact hj

theorem Parameter.packetLen_le (p : Parameter) (i : ℕ) : p.packetLen i ≤ carryDatasize := by
  have hcover := p.net_le_packets
  have hpos := p.net_ge
  unfold packetLen
  split_ifs with hlast
  · have hmap : p.packetMap = i + 1 := by
      rcases Nat.eq_zero_or_pos p.packetMap with hzero | hmap
      · rw [hzero] at hcover
        omega
      · omega
    rw [hmap, Nat.mul_succ] at hcover
    rw [Nat.mul_comm]
    omega
  · exact le_refl _

/-- The number of bytes of network block `b` of a file. -/
def blockLen (p : Parameter) (file : RegularFile) (b : ℕ) : ℕ :=
  min p.netBufsize (file.size - p.netBufsize * b)

/-! ### The invariant -/

/-- A packet carries its part of block `b`. -/
structure PacketOk (p : Parameter) (file : RegularFile) (b : ℕ) (packet : DataPacket) : Prop where
  map_lt : packet.map < p.packetMap
  covers : ∀ j < carryDatasize, carryDatasize * packet.map + j < blockLen p file b →
    packet.data j = file.byte (p.netBufsize * b + (carryDatasize * packet.map + j))

/-- What holds of a datagram in flight while `file` is open under the number `cnt`. -/
def MessageOk (p : Parameter) (fs : String → Lookup) (file : RegularFile) (cnt : ℤ) :
    Message → Prop
  | .openfile _ filename => fs filename = .found file
  | .openOk .. => True
  | .openError _ => True
  | .fetch _ ndcnt _ _ => ∃ b : ℕ, ndcnt = b ∧ p.netBufsize * b < 2 ^ 31
  | .fetchError errcode _ => errcode ≠ errReopen
  | .data filecnt ndcnt packet =>
    filecnt = cnt → ∃ b : ℕ, ndcnt = b ∧ PacketOk p file b packet

/-- What holds of the channel of the server. -/
structure ServerOk (p : Parameter) (file : RegularFile) (sl : ServerLocal) : Prop where
  file_open : ∃ fd, sl.fd = some fd ∧ fd.file = file ∧ fd.AtEndOf p.diskBufsize sl.blkcnt
  holds : sl.blkcnt = -1 ∨
    ∃ blk : ℕ, sl.blkcnt = blk ∧ HoldsBlock p.diskBufsize sl.buffer sl.buflen file blk
  filesize_eq : sl.filesize = file.size
  currFptr_eq : sl.currFptr = 0
  bufsize_eq : sl.bufsize = p.diskBufsize

/-- The places whose data is not in the buffer: those that are waited for, and the one of a copy
that is still to be made. -/
def notStored (map : ℕ → Bool) : Option Store → ℕ → Bool
  | none, i => map i
  | some store, i => map i || store.map == i

/-- A copy that is still to be made covers its place of block `b`. -/
def StoreOk (p : Parameter) (file : RegularFile) (b : ℕ) (store : Store) : Prop :=
  ∀ j < carryDatasize, carryDatasize * store.map + j < blockLen p file b →
    j < store.count ∧
      store.data j = file.byte (p.netBufsize * b + (carryDatasize * store.map + j))

/-- What holds of the fields of a client during an `internal_read` of block `b`. -/
structure ReadOk (p : Parameter) (file : RegularFile) (b : ℕ) (r : Reading)
    (ndcnt requestNdcnt requestMap : ℤ) (map : ℕ → Bool) (storing : Option Store)
    (buffer : ℕ → UInt8) : Prop where
  reading_eq : r = ⟨b, blockLen p file b⟩
  ndcnt_eq : ndcnt = b
  request_eq : requestNdcnt = b
  block_lt : p.netBufsize * b < file.size
  requestMap_eq : requestMap = ((List.range p.packetMap).countP map : ℤ)
  filled : Filled carryDatasize p.packetMap (notStored map storing) buffer
    (fun j ↦ file.byte (p.netBufsize * b + j)) (blockLen p file b)
  storing_ok : ∀ store, storing = some store → map store.map = false → StoreOk p file b store

/-- What holds of the client. -/
structure ClientOk (p : Parameter) (file : RegularFile) (cnt : ℤ) (cl : ClientLocal) : Prop where
  filecnt_eq : cl.filecnt = cnt
  fsize_eq : cl.fsize = file.size
  ndtotal_eq : cl.ndtotal = blockTotal file.size p.netBufsize
  ndcnt_nonneg : 0 ≤ cl.ndcnt
  netBufsize_eq : cl.netBufsize = p.netBufsize
  packetMap_eq : cl.packetMap = p.packetMap
  needFilesize_eq : cl.needFilesize = false
  needReopen_eq : cl.needReopen = false
  not_opening : ∀ resume, cl.phase ≠ .opening resume
  count_le : ∀ store, cl.storing = some store → store.count ≤ carryDatasize
  read : ∀ r, cl.phase = .reading r → cl.requestFilecnt = cnt ∧
    ∃ b, ReadOk p file b r cl.ndcnt cl.requestNdcnt cl.requestMap cl.map cl.storing cl.buffer

/-- A positive result of `internal_read` is the block it was called for. -/
def ReturnOk (p : Parameter) (file : RegularFile) (r : BlockReturn) : Prop :=
  0 < r.rc → ∃ b : ℕ, r.ndcnt = b ∧ r.rc = min (p.netBufsize : ℤ) (file.size - b * p.netBufsize) ∧
    r.bytes = (List.range r.rc.toNat).map fun j ↦ file.byte (b * p.netBufsize + j)

/-- What holds throughout a session with `file` open under the number `cnt`. -/
structure Delivery (p : Parameter) (fs : String → Lookup) (file : RegularFile) (cnt : ℤ)
    (s : Session) : Prop where
  client : ClientOk p file cnt s.client
  server : ServerOk p file s.server
  net : ∀ m ∈ s.net, MessageOk p fs file cnt m
  returned : ∀ r ∈ s.returned, ReturnOk p file r

/-! ### The server -/

/-- With `curr_fptr` at `0`, `fullread` wants a whole buffer, or the whole file. -/
theorem fullread_eq (short : ℕ → ℕ) (fd : OpenFile) (buffer : ℕ → UInt8) (bufsiz size : ℕ) :
    fullread short fd buffer bufsiz 0 size = readFull short fd buffer (min bufsiz size) := by
  unfold fullread
  have hexplen : (if (size : ℤ) - 0 < bufsiz then (size : ℤ) - 0 else bufsiz).toNat =
      min bufsiz size := by
    split_ifs <;> omega
  simp only [hexplen]

/-- After `remote_fetch_file` has looked for a disk block, the buffer holds it. -/
theorem ServerOk.readBlock {sl : ServerLocal} (hsl : ServerOk p file sl) {fd : OpenFile}
    (hfd : sl.fd = some fd) {blk : ℕ} (hblk : blk * p.diskBufsize < 2 ^ 31) (short : ℕ → ℕ) :
    ServerOk p file (sl.readBlock p short fd blk) ∧
      HoldsBlock p.diskBufsize (sl.readBlock p short fd blk).buffer
        (sl.readBlock p short fd blk).buflen file blk := by
  obtain ⟨fd', hfd', hfile, hend⟩ := hsl.file_open
  obtain rfl : fd = fd' := Option.some.inj (hfd.symm.trans hfd')
  by_cases hcached : (blk : ℤ) ≠ sl.blkcnt
  · have hoffset : seekOffset p blk = ((blk * p.diskBufsize : ℕ) : ℤ) := by
      unfold seekOffset
      rw [← Int.natCast_mul, Int.bmod_eq_of_le] <;> omega
    obtain ⟨hfile₁, hstart⟩ := atStartOf_seekBlock hend hoffset
    set fd₁ := fd.seekBlock sl.blkcnt blk (seekOffset p blk) with hfd₁
    have hread : sl.readBlock p short fd blk =
        { sl with
          fd := some (readFull short fd₁ sl.buffer (min p.diskBufsize file.size)).fd
          buffer := (readFull short fd₁ sl.buffer (min p.diskBufsize file.size)).buffer
          buflen := (readFull short fd₁ sl.buffer (min p.diskBufsize file.size)).rlen
          blkcnt := blk } := by
      rw [← fullread_eq, ← hsl.filesize_eq, ← hsl.currFptr_eq, ← hsl.bufsize_eq]
      exact if_pos hcached
    have hwant : min (min p.diskBufsize file.size) (fd₁.file.size - blk * p.diskBufsize) =
        min p.diskBufsize (fd₁.file.size - blk * p.diskBufsize) := by
      rw [hfile₁, hfile]
      omega
    obtain ⟨hfile₂, hend₂, hholds⟩ := readFull_atStartOf hstart short sl.buffer hwant
    rw [hfile₁, hfile] at hfile₂ hholds
    rw [hread]
    exact ⟨⟨⟨_, rfl, hfile₂, hend₂⟩, Or.inr ⟨blk, rfl, hholds⟩, hsl.filesize_eq, hsl.currFptr_eq,
      hsl.bufsize_eq⟩, hholds⟩
  · have hread : sl.readBlock p short fd blk = sl := if_neg hcached
    have hsame : sl.blkcnt = blk := by omega
    rw [hread]
    refine ⟨hsl, ?_⟩
    rcases hsl.holds with hnone | ⟨other, hother, hholds⟩
    · omega
    · have heq : other = blk := by omega
      rwa [heq] at hholds

/-- The packets of the loop of `remote_fetch_file`. -/
theorem mem_sendLoop {sl : ServerLocal} {blkent : ℕ} {map : ℕ → Bool} {packet : DataPacket} :
    ∀ {places : List ℕ} {data : ℕ → UInt8}, packet ∈ sl.sendLoop p blkent map places data →
      packet.map ∈ places ∧ ∀ j < p.packetLen packet.map,
        packet.data j = sl.buffer (blkent * p.netBufsize + packet.map * carryDatasize + j) := by
  intro places
  induction places with
  | nil =>
    intro data hmem
    cases hmem
  | cons i rest ih =>
    intro data hmem
    simp only [sendLoop] at hmem
    split_ifs at hmem with hmap
    · rcases List.mem_cons.mp hmem with rfl | hrest
      · refine ⟨List.mem_cons_self, fun j hj ↦ ?_⟩
        have hlt : j < p.packetLen i := hj
        show copyInto data 0 (p.packetLen i)
          (fun j ↦ sl.buffer (blkent * p.netBufsize + i * carryDatasize + j)) j = _
        rw [copyInto_of_mem (Nat.zero_le j) (by omega), Nat.sub_zero]
      · obtain ⟨hplace, hdata⟩ := ih hrest
        exact ⟨List.mem_cons_of_mem i hplace, hdata⟩
    · obtain ⟨hplace, hdata⟩ := ih hmem
      exact ⟨List.mem_cons_of_mem i hplace, hdata⟩

/-- The place of a network block inside the disk block that it is in. -/
theorem blockOffset_eq (p : Parameter) (b : ℕ) :
    b / p.disknetFact * p.diskBufsize + b % p.disknetFact * p.netBufsize = p.netBufsize * b := by
  rw [p.disk_eq, ← Nat.mul_assoc, ← Nat.add_mul, Nat.mul_comm (b / p.disknetFact),
    Nat.div_add_mod, Nat.mul_comm]

theorem blockOffset_lt (p : Parameter) (b : ℕ) :
    b % p.disknetFact * p.netBufsize + p.netBufsize ≤ p.diskBufsize := by
  rw [p.disk_eq, ← Nat.succ_mul]
  exact Nat.mul_le_mul_right _ (Nat.mod_lt b p.fact_pos)

/-- The disk block and the place in it are computed as `int`s. -/
theorem tdiv_disknetFact (p : Parameter) (b : ℕ) :
    (b : ℤ).tdiv p.disknetFact = ((b / p.disknetFact : ℕ) : ℤ) := by
  rw [Int.tdiv_eq_ediv_of_nonneg (Int.natCast_nonneg b)]
  rfl

theorem toNat_tmod_disknetFact (p : Parameter) (b : ℕ) :
    ((b : ℤ).tmod p.disknetFact).toNat = b % p.disknetFact := by
  rw [Int.tmod_eq_emod_of_nonneg (Int.natCast_nonneg b)]
  rfl

/-- The packets made from a buffer that holds the disk block of network block `b`. -/
theorem packetOk_of_mem_sendLoop {sl : ServerLocal} {b : ℕ} {map : ℕ → Bool} {data : ℕ → UInt8}
    (hholds : HoldsBlock p.diskBufsize sl.buffer sl.buflen file (b / p.disknetFact))
    {packet : DataPacket}
    (hmem : packet ∈ sl.sendLoop p (b % p.disknetFact) map (List.range p.packetMap) data) :
    PacketOk p file b packet := by
  obtain ⟨hplace, hdata⟩ := mem_sendLoop hmem
  refine ⟨List.mem_range.mp hplace, fun j hj hlt ↦ ?_⟩
  have hoffset := blockOffset_eq p b
  have hinside := blockOffset_lt p b
  have hbuflen := hholds.buflen_eq
  have hcomm := Nat.mul_comm packet.map carryDatasize
  unfold blockLen at hlt
  rw [hdata j (p.lt_packetLen hj (by omega)), hholds.buffer_eq _ (by omega)]
  congr 1
  omega

/-- What the server does with a datagram of the session, and what it answers. -/
theorem ServerOk.ceSvcMain {sl : ServerLocal} (hsl : ServerOk p file sl) {m : Message}
    (hm : MessageOk p fs file cnt m) (env : ServerEnv) :
    ServerOk p file (ceSvcMain p fs env sl m).1 ∧
      ∀ reply ∈ (ceSvcMain p fs env sl m).2, MessageOk p fs file cnt reply := by
  cases m with
  | openfile filecnt filename =>
    have hbufsize : (if sl.bufsize = 0 then p.diskBufsize else sl.bufsize) = p.diskBufsize := by
      rw [hsl.bufsize_eq, ite_self]
    simp only [StreamioV2.ceSvcMain, remoteOpenfile]
    rw [show fs filename = .found file from hm]
    refine ⟨⟨⟨⟨file, 0⟩, rfl, rfl, Or.inl ?_⟩, Or.inl rfl, rfl, rfl, hbufsize⟩, ?_⟩
    · show ((0 : ℕ) : ℤ) = (-1 + 1) * (p.diskBufsize : ℤ)
      omega
    · intro reply hreply
      obtain rfl := List.mem_singleton.mp hreply
      exact trivial
  | fetch filecnt ndcnt len map =>
    obtain ⟨b, rfl, hlt⟩ := hm
    obtain ⟨fd, hfd, -, -⟩ := hsl.file_open
    have hrange : b / p.disknetFact * p.diskBufsize < 2 ^ 31 := by
      have hoffset := blockOffset_eq p b
      omega
    obtain ⟨hserver, hholds⟩ := hsl.readBlock hfd hrange env.short
    simp only [StreamioV2.ceSvcMain, remoteFetchFile, hfd, tdiv_disknetFact,
      toNat_tmod_disknetFact]
    refine ⟨hserver, fun reply hreply ↦ ?_⟩
    obtain ⟨packet, hpacket, rfl⟩ := List.mem_map.mp hreply
    exact fun _ ↦ ⟨b, rfl, packetOk_of_mem_sendLoop hholds hpacket⟩
  | openOk => exact ⟨hsl, nofun⟩
  | openError => exact ⟨hsl, nofun⟩
  | fetchError => exact ⟨hsl, nofun⟩
  | data => exact ⟨hsl, nofun⟩

/-! ### The client -/

/-- The blocks before `ndtotal` are those that begin inside the file. -/
theorem lt_blockTotal {size netBufsize b : ℕ} (hnet : 0 < netBufsize)
    (hlt : (b : ℤ) < blockTotal size netBufsize) : netBufsize * b < size := by
  have hdiv := Nat.div_add_mod size netBufsize
  have hmod := Nat.mod_lt size hnet
  unfold blockTotal at hlt
  rw [Int.tdiv_eq_ediv_of_nonneg (Int.natCast_nonneg size),
    Int.tmod_eq_emod_of_nonneg (Int.natCast_nonneg size), ← Int.natCast_ediv,
    ← Int.natCast_emod] at hlt
  have hle : b ≤ size / netBufsize := by
    split_ifs at hlt <;> omega
  have hmul := Nat.mul_le_mul_left netBufsize hle
  rcases Nat.lt_or_ge b (size / netBufsize) with hbefore | hlast
  · have hnext := Nat.mul_le_mul_left netBufsize hbefore
    rw [Nat.mul_succ] at hnext
    omega
  · have hrest : size % netBufsize ≠ 0 := by
      split_ifs at hlt with hne <;> omega
    omega

/-- `n` of the first `m` numbers are below `n`. -/
theorem countP_lt_range {n m : ℕ} (hle : n ≤ m) {flags : ℕ → Bool}
    (hflags : ∀ i < m, flags i = decide (i < n)) : (List.range m).countP flags = n := by
  obtain ⟨k, rfl⟩ := Nat.exists_eq_add_of_le hle
  have hlow : (List.range n).countP flags = n := by
    rw [List.countP_eq_length.mpr, List.length_range]
    intro i hi
    have hlt := List.mem_range.mp hi
    rw [hflags i (by omega), decide_eq_true hlt]
  have hhigh : (List.map (n + ·) (List.range k)).countP flags = 0 := by
    rw [List.countP_eq_zero]
    intro i hi
    obtain ⟨j, hj, rfl⟩ := List.mem_map.mp hi
    have hlt := List.mem_range.mp hj
    rw [hflags _ (by omega), decide_eq_true_eq]
    omega
  rw [List.range_add, List.countP_append, hlow, hhigh, Nat.add_zero]

/-- The number of packets of `left` bytes. -/
theorem packetCount_eq (left : ℕ) :
    (left : ℤ).tdiv carryDatasize + (if (left : ℤ).tmod carryDatasize ≠ 0 then 1 else 0) =
      (((left + (carryDatasize - 1)) / carryDatasize : ℕ) : ℤ) := by
  rw [Int.tdiv_eq_ediv_of_nonneg (Int.natCast_nonneg left),
    Int.tmod_eq_emod_of_nonneg (Int.natCast_nonneg left)]
  have hsize : carryDatasize = 1439 := rfl
  rw [hsize]
  split_ifs <;> omega

/-- The numbers with which a read of block `b` begins. -/
theorem readLen_eq {cl : ClientLocal} (hcl : ClientOk p file cnt cl) {b : ℕ}
    (hb : cl.ndcnt = b) (hlt : p.netBufsize * b < file.size) :
    cl.readLen = blockLen p file b ∧ ∃ n : ℕ, cl.packetsWanted = n ∧ n ≤ p.packetMap ∧
      ∀ i, carryDatasize * i < blockLen p file b → i < n := by
  have hcover := p.net_le_packets
  have hleft : cl.lenLeft = ((file.size - p.netBufsize * b : ℕ) : ℤ) := by
    unfold lenLeft
    rw [hcl.fsize_eq, hcl.netBufsize_eq, hb, Int.natCast_sub (by omega), Int.natCast_mul,
      Int.mul_comm]
  unfold readLen packetsWanted blockLen
  rw [hleft, hcl.netBufsize_eq, hcl.packetMap_eq, packetCount_eq]
  set left := file.size - p.netBufsize * b with hleftDef
  have hsize : carryDatasize = 1439 := rfl
  rw [hsize] at hcover ⊢
  split_ifs with hfull
  · exact ⟨by omega, p.packetMap, rfl, le_refl _, fun i hi ↦ by omega⟩
  · exact ⟨by omega, _, rfl, by omega, fun i hi ↦ by omega⟩

/-- A step that begins, ends or continues no read. -/
theorem ClientOk.of_idle {cl : ClientLocal} (hcl : ClientOk p file cnt cl) {cl' : ClientLocal}
    (hfilecnt : cl'.filecnt = cl.filecnt) (hfsize : cl'.fsize = cl.fsize)
    (hndtotal : cl'.ndtotal = cl.ndtotal) (hndcnt : 0 ≤ cl'.ndcnt)
    (hnet : cl'.netBufsize = cl.netBufsize) (hmap : cl'.packetMap = cl.packetMap)
    (hneedFilesize : cl'.needFilesize = cl.needFilesize)
    (hneedReopen : cl'.needReopen = cl.needReopen) (hstoring : cl'.storing = cl.storing)
    (hphase : cl'.phase = .idle) : ClientOk p file cnt cl' where
  filecnt_eq := hfilecnt.trans hcl.filecnt_eq
  fsize_eq := hfsize.trans hcl.fsize_eq
  ndtotal_eq := hndtotal.trans hcl.ndtotal_eq
  ndcnt_nonneg := hndcnt
  netBufsize_eq := hnet.trans hcl.netBufsize_eq
  packetMap_eq := hmap.trans hcl.packetMap_eq
  needFilesize_eq := hneedFilesize.trans hcl.needFilesize_eq
  needReopen_eq := hneedReopen.trans hcl.needReopen_eq
  not_opening := by
    intro resume heq
    rw [hphase] at heq
    cases heq
  count_le := by
    rw [hstoring]
    exact hcl.count_le
  read := by
    intro r heq
    rw [hphase] at heq
    cases heq

/-- The start of a read: every place inside the block is waited for. -/
theorem ClientOk.beginRead {cl : ClientLocal} (hcl : ClientOk p file cnt cl)
    (hneeds : cl.NeedsBlock) : ClientOk p file cnt cl.beginRead := by
  obtain ⟨b, hb⟩ := Int.eq_ofNat_of_zero_le hcl.ndcnt_nonneg
  have hlt : p.netBufsize * b < file.size := by
    have htotal := hneeds.2.2
    rw [hb, hcl.ndtotal_eq] at htotal
    exact lt_blockTotal (Nat.lt_of_lt_of_le (by decide) p.net_ge) htotal
  obtain ⟨hlen, n, hn, hle, hinside⟩ := readLen_eq hcl hb hlt
  refine ⟨hcl.filecnt_eq, hcl.fsize_eq, hcl.ndtotal_eq, hcl.ndcnt_nonneg, hcl.netBufsize_eq,
    hcl.packetMap_eq, hcl.needFilesize_eq, hcl.needReopen_eq, nofun, hcl.count_le, ?_⟩
  rintro r ⟨⟩
  set map := cl.beginRead.map with hmapDef
  have hwaited : ∀ i, carryDatasize * i < blockLen p file b → map i = true := by
    intro i hi
    have hi' : (i : ℤ) < cl.packetsWanted := by
      rw [hn]
      exact_mod_cast hinside i hi
    exact if_pos hi'
  have hflags : ∀ i < p.packetMap, map i = decide (i < n) := by
    intro i hi
    show (if (i : ℤ) < cl.packetsWanted then true else if i < cl.packetMap then false
      else cl.map i) = decide (i < n)
    rw [hn, hcl.packetMap_eq, if_pos hi]
    by_cases hin : i < n
    · rw [if_pos (by exact_mod_cast hin), decide_eq_true hin]
    · rw [if_neg (by exact_mod_cast hin), decide_eq_false hin]
  refine ⟨hcl.filecnt_eq, b, ?_, hb, hb, hlt, ?_, ?_, ?_⟩
  · rw [hb, hlen]
  · show cl.packetsWanted = _
    rw [hn, countP_lt_range hle hflags]
  · refine Filled.of_waiting fun i hi ↦ ?_
    show notStored map cl.storing i = true
    cases hstoring : cl.storing with
    | none => exact hwaited i hi
    | some store => exact Bool.or_eq_true_iff.mpr (Or.inl (hwaited i hi))
  · intro store _ hclear j _ hlt'
    have htrue : map store.map = true := hwaited store.map (by omega)
    rw [show map store.map = false from hclear] at htrue
    cases htrue

section Packets

variable {b : ℕ} {r : Reading} {ndcnt requestNdcnt requestMap : ℤ} {map : ℕ → Bool}
  {buffer : ℕ → UInt8}

/-- A packet of the block that is read is counted, and its copy is still to be made. -/
theorem ReadOk.accept
    (hread : ReadOk p file b r ndcnt requestNdcnt requestMap map none buffer)
    {packet : DataPacket} (hpacket : PacketOk p file b packet) (hflag : map packet.map = true) :
    ReadOk p file b r ndcnt requestNdcnt (requestMap - 1) (Function.update map packet.map false)
      (some ⟨packet.map, p.packetLen packet.map, packet.data⟩) buffer := by
  refine ⟨hread.reading_eq, hread.ndcnt_eq, hread.request_eq, hread.block_lt, ?_, ?_, ?_⟩
  · have hcount := countP_update_false hflag List.nodup_range (List.mem_range.mpr hpacket.map_lt)
    have hold := hread.requestMap_eq
    omega
  · intro i hi hclear
    refine hread.filled i hi ?_
    obtain ⟨hmap, hplace⟩ := Bool.or_eq_false_iff.mp hclear
    have hne : i ≠ packet.map := fun heq ↦ by simp [heq] at hplace
    rwa [Function.update_of_ne hne] at hmap
  · rintro store ⟨⟩ - j hj hlt
    refine ⟨p.lt_packetLen hj ?_, hpacket.covers j hj hlt⟩
    exact Nat.lt_of_lt_of_le hlt (Nat.min_le_left _ _)

/-- The copy fills the place of the packet, unless it is already waited for again. -/
theorem ReadOk.store {store : Store}
    (hread : ReadOk p file b r ndcnt requestNdcnt requestMap map (some store) buffer)
    (hcount : store.count ≤ carryDatasize) :
    ReadOk p file b r ndcnt requestNdcnt requestMap map none
      (copyInto buffer (carryDatasize * store.map) store.count store.data) := by
  refine ⟨hread.reading_eq, hread.ndcnt_eq, hread.request_eq, hread.block_lt, hread.requestMap_eq,
    ?_, nofun⟩
  refine hread.filled.copy hcount (fun i hne hclear ↦ ?_) (hread.storing_ok store rfl)
  refine Bool.or_eq_false_iff.mpr ⟨hclear, ?_⟩
  exact beq_false_of_ne fun heq ↦ hne heq.symm

/-- When nothing is waited for and nothing is still to be copied, the buffer holds the block. -/
theorem ReadOk.returnOk (hread : ReadOk p file b r ndcnt requestNdcnt 0 map none buffer) :
    ReturnOk p file ⟨r.ndcnt, r.rc, (List.range r.rc.toNat).map buffer⟩ := by
  have hzero : (List.range p.packetMap).countP map = 0 := by
    have hcount := hread.requestMap_eq
    omega
  have hlen : blockLen p file b ≤ carryDatasize * p.packetMap :=
    (Nat.min_le_left _ _).trans p.net_le_packets
  have hbytes := hread.filled.complete (by decide) hlen (eq_false_of_countP_eq_zero hzero)
  have hlt := hread.block_lt
  intro _
  rw [hread.reading_eq]
  refine ⟨b, rfl, ?_, ?_⟩
  · show ((blockLen p file b : ℕ) : ℤ) = _
    rw [Int.mul_comm, ← Int.natCast_mul]
    unfold blockLen
    omega
  · refine List.map_congr_left fun j hj ↦ ?_
    rw [hbytes j (List.mem_range.mp hj), Nat.mul_comm]

end Packets

/-! ### Every step -/

/-- A packet that `response` takes during a read carries the label of the request. -/
def LabelCurrent (cl : ClientLocal) : Message → Prop
  | .data filecnt ndcnt packet =>
    cl.isReading = true → cl.requestMap > 0 → cl.map packet.map = true →
      filecnt = cl.requestFilecnt ∧ ndcnt = cl.requestNdcnt
  | _ => True

instance (cl : ClientLocal) : ∀ m, Decidable (LabelCurrent cl m)
  | .data filecnt ndcnt packet =>
    inferInstanceAs (Decidable (cl.isReading = true → cl.requestMap > 0 →
      cl.map packet.map = true → filecnt = cl.requestFilecnt ∧ ndcnt = cl.requestNdcnt))
  | .openfile .. | .openOk .. | .openError .. | .fetch .. | .fetchError .. => .isTrue trivial

/-- The condition on the steps of a run: no other file is opened, a packet that is taken during a
read carries the file count and the block number of that read, and a read does not return between
the count and the copy of a packet. -/
def Current (s : Session) : SessionEvent → Prop
  | .openfile _ => False
  | .toClient k => ∀ m ∈ s.net[k]?, LabelCurrent s.client m
  | .finishRead => s.client.storing.isNone = true
  | _ => True

instance (s : Session) : ∀ event, Decidable (Current s event)
  | .openfile _ => .isFalse not_false
  | .toClient k => inferInstanceAs (Decidable (∀ m ∈ s.net[k]?, LabelCurrent s.client m))
  | .finishRead => inferInstanceAs (Decidable (s.client.storing.isNone = true))
  | .sendOpen | .reopenReturn | .abort | .abortReturn | .reopenNeeded | .reopen | .closefile
  | .startRead | .sendFetch | .take _ | .toServer _ _ | .store => .isTrue trivial

/-- What the client does with a datagram of the session. -/
theorem ClientOk.response {cl : ClientLocal} (hcl : ClientOk p file cnt cl) {m : Message}
    (hm : MessageOk p fs file cnt m) (hstoring : cl.storing = none)
    (hcurrent : LabelCurrent cl m) : ClientOk p file cnt (cl.response m) := by
  cases m with
  | openfile => exact hcl
  | fetch => exact hcl
  | openOk =>
    simp only [ClientLocal.response, hcl.needFilesize_eq, Bool.false_eq_true, if_false]
    exact hcl
  | openError =>
    simp only [ClientLocal.response, hcl.needFilesize_eq, Bool.false_eq_true, if_false]
    exact hcl
  | fetchError errcode lerrno =>
    simp only [ClientLocal.response]
    rw [if_neg (show errcode ≠ errReopen from hm)]
    exact hcl
  | data filecnt ndcnt packet =>
    show ClientOk p file cnt (cl.acceptPacket packet)
    have hcount : (if packet.map = cl.packetMap - 1 then
        cl.netBufsize - carryDatasize * packet.map else carryDatasize) =
          p.packetLen packet.map := by
      rw [hcl.packetMap_eq, hcl.netBufsize_eq, Nat.mul_comm]
      rfl
    unfold acceptPacket
    rw [hcount]
    split_ifs with htaken
    · refine ⟨hcl.filecnt_eq, hcl.fsize_eq, hcl.ndtotal_eq, hcl.ndcnt_nonneg, hcl.netBufsize_eq,
        hcl.packetMap_eq, hcl.needFilesize_eq, hcl.needReopen_eq, hcl.not_opening, ?_, ?_⟩
      · rintro store ⟨⟩
        exact p.packetLen_le packet.map
      · intro r hr
        obtain ⟨hfilecnt, b, hread⟩ := hcl.read r hr
        have hreading : cl.isReading = true := by
          unfold isReading
          rw [show cl.phase = .reading r from hr]
        obtain ⟨hsame, hblock⟩ := hcurrent hreading htaken.1 htaken.2
        obtain ⟨b', hb', hpacket⟩ := hm (hsame.trans hfilecnt)
        have heq : b' = b := by
          have hrequest := hread.request_eq
          omega
        rw [heq] at hpacket
        rw [hstoring] at hread
        exact ⟨hfilecnt, b, hread.accept hpacket htaken.2⟩
    · exact hcl

theorem ClientOk.storePacket {cl : ClientLocal} (hcl : ClientOk p file cnt cl) {store : Store}
    (hstoring : cl.storing = some store) : ClientOk p file cnt (cl.storePacket store) := by
  refine ⟨hcl.filecnt_eq, hcl.fsize_eq, hcl.ndtotal_eq, hcl.ndcnt_nonneg, hcl.netBufsize_eq,
    hcl.packetMap_eq, hcl.needFilesize_eq, hcl.needReopen_eq, hcl.not_opening, nofun, ?_⟩
  intro r hr
  obtain ⟨hfilecnt, b, hread⟩ := hcl.read r hr
  rw [hstoring] at hread
  exact ⟨hfilecnt, b, hread.store (hcl.count_le store hstoring)⟩

/-- A result of `-1` promises nothing. -/
theorem Delivery.returned_failed {s : Session} (hs : Delivery p fs file cnt s) (ndcnt : ℤ) :
    ∀ r ∈ s.returned ++ [⟨ndcnt, -1, []⟩], ReturnOk p file r := by
  refine List.forall_mem_append.mpr ⟨hs.returned, fun r hr hpos ↦ ?_⟩
  rw [List.mem_singleton.mp hr] at hpos
  exact absurd (show (0 : ℤ) < -1 from hpos) (by decide)

theorem ClientOk.takeBytes {cl : ClientLocal} (hcl : ClientOk p file cnt cl)
    (hidle : cl.phase = .idle) (len : ℕ) : ClientOk p file cnt (cl.takeBytes len) := by
  unfold ClientLocal.takeBytes
  by_cases hpos : cl.blen > 0
  · rw [if_pos hpos]
    exact hcl.of_idle rfl rfl rfl hcl.ndcnt_nonneg rfl rfl rfl rfl rfl hidle
  · rw [if_neg hpos]
    exact hcl

theorem delivery_sessionStep {s s' : Session} {event : SessionEvent}
    (hs : Delivery p fs file cnt s) (hgood : Current s event)
    (hstep : sessionStep p fs s event = some s') : Delivery p fs file cnt s' := by
  have hclient := hs.client
  have hndcnt := hclient.ndcnt_nonneg
  cases event with
  | openfile fname => exact absurd hgood not_false
  | sendOpen =>
    obtain ⟨resume, hphase, -⟩ := sessionStep_sendOpen.mp hstep
    exact absurd hphase (hclient.not_opening resume)
  | reopenReturn =>
    obtain ⟨resume, hphase, -⟩ := sessionStep_reopenReturn.mp hstep
    exact absurd hphase (hclient.not_opening resume)
  | abort =>
    cases hstep
    exact ⟨⟨hclient.filecnt_eq, hclient.fsize_eq, hclient.ndtotal_eq, hclient.ndcnt_nonneg,
      hclient.netBufsize_eq, hclient.packetMap_eq, hclient.needFilesize_eq, hclient.needReopen_eq,
      hclient.not_opening, hclient.count_le, hclient.read⟩, hs.server, hs.net, hs.returned⟩
  | abortReturn =>
    obtain ⟨-, ⟨hphase, -⟩ | ⟨r, -, rfl⟩⟩ := sessionStep_abortReturn.mp hstep
    · exact absurd hphase (hclient.not_opening none)
    · have hended : ClientOk p file cnt (s.client.endRead (-1)) :=
        hclient.of_idle rfl rfl rfl (by show 0 ≤ s.client.ndcnt + 1; omega) rfl rfl rfl rfl rfl rfl
      exact ⟨hended, hs.server, hs.net, hs.returned_failed r.ndcnt⟩
  | reopenNeeded =>
    obtain ⟨hneed, -⟩ := sessionStep_reopenNeeded.mp hstep
    rw [hclient.needReopen_eq] at hneed
    cases hneed
  | reopen =>
    simp only [sessionStep, Option.ite_none_right_eq_some, Option.some.injEq] at hstep
    obtain ⟨hidle, rfl⟩ := hstep
    exact ⟨hclient.of_idle rfl rfl rfl (Int.le_refl 0) rfl rfl rfl rfl rfl hidle, hs.server, hs.net,
      hs.returned⟩
  | closefile =>
    simp only [sessionStep, Option.ite_none_right_eq_some, Option.some.injEq] at hstep
    obtain ⟨hidle, rfl⟩ := hstep
    exact ⟨hclient.of_idle rfl rfl rfl hndcnt rfl rfl rfl rfl rfl hidle, hs.server, hs.net,
      hs.returned⟩
  | startRead =>
    simp only [sessionStep, Option.ite_none_right_eq_some, Option.some.injEq] at hstep
    obtain ⟨hstart, rfl⟩ := hstep
    exact ⟨hclient.beginRead hstart.2, hs.server, hs.net, hs.returned⟩
  | sendFetch =>
    obtain ⟨r, hphase, rfl⟩ := sessionStep_sendFetch.mp hstep
    obtain ⟨-, b, hread⟩ := hclient.read r hphase
    refine ⟨hclient, hs.server, List.forall_mem_append.mpr ⟨hs.net, fun m hm ↦ ?_⟩, hs.returned⟩
    obtain rfl := List.mem_singleton.mp hm
    have hlt := hread.block_lt
    have hsize := file.size_lt
    exact ⟨b, hread.request_eq, by omega⟩
  | finishRead =>
    obtain ⟨r, hphase, hdone, rfl⟩ := sessionStep_finishRead.mp hstep
    obtain ⟨-, b, hread⟩ := hclient.read r hphase
    rw [hdone, Option.isNone_iff_eq_none.mp hgood] at hread
    refine ⟨hclient.of_idle rfl rfl rfl ?_ rfl rfl rfl rfl rfl rfl, hs.server, hs.net,
      List.forall_mem_append.mpr ⟨hs.returned, fun r' hr' ↦ ?_⟩⟩
    · show 0 ≤ s.client.ndcnt + 1
      omega
    · obtain rfl := List.mem_singleton.mp hr'
      exact hread.returnOk
  | take len =>
    simp only [sessionStep, Option.ite_none_right_eq_some, Option.some.injEq] at hstep
    obtain ⟨hidle, rfl⟩ := hstep
    exact ⟨hclient.takeBytes hidle len, hs.server, hs.net, hs.returned⟩
  | toServer k env =>
    obtain ⟨m, hm, rfl⟩ := sessionStep_toServer.mp hstep
    obtain ⟨hserver, hreplies⟩ :=
      hs.server.ceSvcMain (hs.net m (List.mem_of_getElem? hm)) env
    exact ⟨hclient, hserver, List.forall_mem_append.mpr ⟨hs.net, hreplies⟩, hs.returned⟩
  | toClient k =>
    obtain ⟨m, hm, hstoring, rfl⟩ := sessionStep_toClient.mp hstep
    exact ⟨hclient.response (hs.net m (List.mem_of_getElem? hm)) hstoring (hgood m hm), hs.server,
      hs.net, hs.returned⟩
  | store =>
    obtain ⟨store, hstoring, rfl⟩ := sessionStep_store.mp hstep
    exact ⟨hclient.storePacket hstoring, hs.server, hs.net, hs.returned⟩

/-- A session in which the client has just opened `file`: the client has the sizes of the server and
the size of the file, the server has read nothing of it, and what is in flight belongs to the same
file or to earlier ones. -/
structure FileOpen (p : Parameter) (fs : String → Lookup) (file : RegularFile) (s : Session) :
    Prop where
  idle : s.client.phase = .idle
  fsize_eq : s.client.fsize = file.size
  ndtotal_eq : s.client.ndtotal = blockTotal file.size p.netBufsize
  ndcnt_eq : s.client.ndcnt = 0
  netBufsize_eq : s.client.netBufsize = p.netBufsize
  packetMap_eq : s.client.packetMap = p.packetMap
  needFilesize_eq : s.client.needFilesize = false
  needReopen_eq : s.client.needReopen = false
  storing_eq : s.client.storing = none
  fd_eq : s.server.fd = some ⟨file, 0⟩
  blkcnt_eq : s.server.blkcnt = -1
  filesize_eq : s.server.filesize = file.size
  currFptr_eq : s.server.currFptr = 0
  bufsize_eq : s.server.bufsize = p.diskBufsize
  net_ok : ∀ m ∈ s.net, MessageOk p fs file s.client.filecnt m
  returned_eq : s.returned = []

theorem FileOpen.delivery {s : Session} (hs : FileOpen p fs file s) :
    Delivery p fs file s.client.filecnt s where
  client := by
    refine ⟨rfl, hs.fsize_eq, hs.ndtotal_eq, ?_, hs.netBufsize_eq, hs.packetMap_eq,
      hs.needFilesize_eq, hs.needReopen_eq, ?_, ?_, ?_⟩
    · exact Int.le_of_eq hs.ndcnt_eq.symm
    · intro resume hphase
      rw [hs.idle] at hphase
      cases hphase
    · intro store hstoring
      rw [hs.storing_eq] at hstoring
      cases hstoring
    · intro r hphase
      rw [hs.idle] at hphase
      cases hphase
  server := by
    refine ⟨⟨_, hs.fd_eq, rfl, Or.inl ?_⟩, Or.inl hs.blkcnt_eq, hs.filesize_eq, hs.currFptr_eq,
      hs.bufsize_eq⟩
    rw [hs.blkcnt_eq]
    show ((0 : ℕ) : ℤ) = (-1 + 1) * (p.diskBufsize : ℤ)
    omega
  net := hs.net_ok
  returned := by
    rw [hs.returned_eq]
    exact nofun

/-- Network blocks and disk blocks of 4096 bytes, in three packets. -/
def smallParameter : Parameter where
  diskBufsize := 4096
  netBufsize := 4096
  disk_ge := Nat.le_refl 4096
  disk_le := defaultParameter.disk_ge
  net_ge := Nat.le_refl 4096
  net_le := defaultParameter.net_ge
  net_mod := by decide
  disk_mod := by decide

/-- A file of one block and one byte. -/
def twoBlockFile : RegularFile := ⟨4097, by decide, fun j ↦ if j < 4096 then 7 else 9⟩

/-- A file system that has this file under every name. -/
def twoBlockSystem : String → Lookup := fun _ ↦ .found twoBlockFile

/-- A session in which it has just been opened. -/
def openedSession : Session where
  client :=
    { abort := false, fsize := 4097, filecnt := 1, filename := "f", requestFilecnt := 0,
      requestNdcnt := 0, requestLen := 0, map := fun _ ↦ false, needFilesize := false,
      needReopen := false, haveFile := true, buffer := fun _ ↦ 0, bidx := 0, blen := 0,
      requestMap := 0, ndtotal := 2, ndcnt := 0, errcode := 0, diskBufsize := 4096,
      netBufsize := 4096, disknetFact := 1, packetMap := 3, storing := none, phase := .idle }
  server := ⟨some ⟨twoBlockFile, 0⟩, 4097, 0, fun _ ↦ 0, -1, 4096, 0⟩
  net := []
  returned := []

/-- A server whose reads are as long as possible. -/
def longReads : ServerEnv := ⟨fun _ ↦ 4095, fun _ ↦ 0⟩

/-- The read of the first block, of which the three packets stay in the network. -/
def firstBlockRun : List SessionEvent :=
  [.startRead, .sendFetch, .toServer 0 longReads, .toClient 1, .store, .toClient 3, .store,
    .toClient 2, .store, .finishRead, .take 4096, .startRead]

/-- The second block is asked for and answered. -/
def secondBlockRun : List SessionEvent :=
  firstBlockRun ++ [.sendFetch, .toServer 4 longReads, .toClient 5, .store, .finishRead]

/-- A second copy of the first packet comes while the second block is wanted. -/
def duplicateRun : List SessionEvent :=
  firstBlockRun ++ [.toClient 1, .store, .finishRead]

theorem fileOpen_openedSession :
    FileOpen smallParameter twoBlockSystem twoBlockFile openedSession :=
  ⟨rfl, rfl, by decide, rfl, rfl, rfl, rfl, rfl, rfl, rfl, rfl, rfl, rfl, rfl, nofun, rfl⟩

end Katmai.StreamioV2
