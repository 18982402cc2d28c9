import Katmai.Foundation.Reassembly
import Katmai.StreamioV3.ServicePass
import Katmai.StreamioV3.Session

/-!
# Blocks are delivered intact under any network

A client channel with an open file reads block after block, seeks, gives up and starts again, while
its requests and the packets of the server are lost, duplicated, delayed and overtaken. `Delivery`
is what holds throughout. Of the network it says that every packet with the present open number
covers and carries its part of the block it is labelled with (`MessageOk`); of the client, that a
packet place that is no longer waited for is filled with the bytes of the block that is wanted, and
that `brcvcnt` counts the places that are (`ReadOk`). A packet for another block, or of another
file, is recognised by its label, and a second copy by `bufok`.

`blockDelivery_safe` is the conclusion: whatever `internal_read` returns is the block it was called
for, with the length the file gives it.
-/

set_option autoImplicit false
set_option relaxedAutoImplicit false

namespace Katmai.StreamioV3

open Foundation StbChannel

/-! ### The invariant -/

/-- The entry of a server is in a state that the operations of the table can reach, and `file` is
open in it. -/
def ServesFile (file : RegularFile) (ch : StbChannel) : Prop :=
  (∃ count events t n channel, run stbStep (newStbtable count) events = some t ∧
    (t.stbent n).channel channel = ch) ∧ ∃ fd, ch.fd = some fd ∧ fd.file = file

/-- What holds of a datagram in flight while `file` is open under the number `cnt`. -/
def MessageOk (file : RegularFile) (cnt : ℕ) (stbid : ℤ) : Message → Prop
  | .openfile filecnt id _ => filecnt ≤ cnt ∧ id = stbid
  | .openReply .. => True
  | .fetch _ filecnt block _ _ =>
    filecnt = cnt → ∃ b : ℕ, block = b ∧ b < blockCount file.size
  | .fetchResponse .. => True
  | .needReopen filecnt _ => filecnt ≠ cnt
  | .data filecnt block packet =>
    filecnt = cnt → ∃ b : ℕ, block = b ∧ b < 65536 ∧ PacketOk file b packet

/-- What holds of the entry of the server. -/
structure ServerOk (file : RegularFile) (cnt : ℕ) (stbid : ℤ) (ch : StbChannel) : Prop where
  cache : CacheOk ch
  file_open : ∃ fd, ch.fd = some fd ∧ fd.file = file
  filecount_eq : ch.filecount = cnt
  stbid_eq : ch.stbid = stbid

/-- What holds of the fields of a client during an `internal_read`. -/
structure ReadOk (file : RegularFile) (r : Reading) (blockwant requestBlock : ℕ) (brcvcnt : ℤ)
    (bufok : ℕ → Bool) (bbuf : ℕ → UInt8) : Prop where
  block_eq : r.block = blockwant
  request_eq : requestBlock = blockwant
  block_lt : blockwant < blockCount file.size
  expectLen_eq : r.expectLen = blockLen file blockwant
  brcvcnt_eq : brcvcnt = ((List.range packetCount).countP bufok : ℤ)
  filled : Filled packetSize packetCount bufok bbuf (fun j ↦ file.byte (32768 * blockwant + j))
    (blockLen file blockwant)

/-- What holds of the client. -/
structure ClientOk (file : RegularFile) (cnt : ℕ) (stbid : ℤ) (cl : ClientChannel) : Prop where
  filecnt_eq : cl.filecnt = cnt
  stbid_eq : cl.stbid = stbid
  filesize_eq : cl.filesize = file.size
  blockcnt_eq : cl.blockcnt = blockCount file.size
  needFilesize_eq : cl.needFilesize = false
  needReopen_eq : cl.needReopen = false
  not_opening : ∀ resume, cl.phase ≠ .opening resume
  read : ∀ r, cl.phase = .reading r →
    ReadOk file r cl.blockwant cl.requestBlock cl.brcvcnt cl.bufok cl.bbuf

/-- A result of `internal_read` that is the block it was called for. -/
structure ReturnOk (file : RegularFile) (r : BlockReturn) : Prop where
  block_lt : r.block < blockCount file.size
  bytes_eq : r.bytes =
    (List.range (blockLen file r.block)).map fun j ↦ file.byte (32768 * r.block + j)

/-- What holds throughout a session with `file` open under the number `cnt`. -/
structure Delivery (file : RegularFile) (cnt : ℕ) (stbid : ℤ) (s : Session) : Prop where
  client : ClientOk file cnt stbid s.client
  server : ServerOk file cnt stbid s.server
  net : ∀ m ∈ s.net, MessageOk file cnt stbid m
  returned : ∀ r ∈ s.returned, ReturnOk file r

variable {file : RegularFile} {cnt : ℕ} {stbid : ℤ} {fs : String → Lookup}

/-! ### The server -/

/-- The packets of a pass over an entry with an open file. -/
theorem packetOk_of_mem_servicePass {ch : StbChannel} (hcache : CacheOk ch)
    (hopen : ∃ fd, ch.fd = some fd ∧ fd.file = file) (short : ℕ → ℕ) :
    ∃ b : ℕ, ch.requestBlock = b ∧ b < 65536 ∧
      ∀ packet ∈ (ch.servicePass short).1, PacketOk file b packet := by
  obtain ⟨fd, hfd, hfile⟩ := hopen
  obtain ⟨block, hlt, hrequest⟩ := hcache.request
  obtain ⟨-, -, -, -, -, hholds⟩ := read_spec hcache hfd hrequest.rdkioBlock_eq short
  have hsame := sameRequest_read ch short
  refine ⟨block, hrequest.requestBlock_eq, hlt, fun packet hpacket ↦ ?_⟩
  rw [(servicePass_packets ch short).1] at hpacket
  obtain ⟨i, hi, rfl⟩ := List.mem_map.mp hpacket
  have hwanted := (List.takeWhile_sublist _).subset hi
  have hrange := (List.mem_filter.mp hwanted).1
  rw [List.mem_range'_1] at hrange
  rw [hfile] at hholds
  exact packetOk_packet hholds (hsame.netioBlock_eq.trans hrequest.netioBlock_eq) (by omega)

theorem ServerOk.servicePass {ch : StbChannel} (hch : ServerOk file cnt stbid ch)
    (short : ℕ → ℕ) : ServerOk file cnt stbid (ch.servicePass short).2 := by
  obtain ⟨fd, hfd, hfile⟩ := hch.file_open
  obtain ⟨block, hblock⟩ := hch.cache.exists_rdkioBlock
  obtain ⟨fd', hfd', hfile', -⟩ := read_spec hch.cache hfd hblock short
  have hsame := sameRequest_read ch short
  have hcache := hch.cache.read (Option.isSome_iff_exists.mpr ⟨fd, hfd⟩) short
  obtain ⟨mapi, hfinal⟩ := (servicePass_packets ch short).2
  rw [hfinal]
  constructor
  · exact ⟨hcache.blockcnt_le, hcache.request, hcache.filesize_eq, hcache.blockcnt_eq,
      hcache.at_end, hcache.holds⟩
  · exact ⟨fd', hfd', hfile'.trans hfile⟩
  · exact hsame.filecount_eq.trans hch.filecount_eq
  · exact hsame.stbid_eq.trans hch.stbid_eq

/-- What the server does with a datagram of the session, and what it answers. -/
theorem ServerOk.streamioV3Main {ch : StbChannel} (hch : ServerOk file cnt stbid ch) {m : Message}
    (hm : MessageOk file cnt stbid m) (fs : String → Lookup) (env : ServerEnv) :
    ServerOk file cnt stbid (streamioV3Main fs env ch m).1 ∧
      ∀ reply ∈ (streamioV3Main fs env ch m).2, MessageOk file cnt stbid reply := by
  cases m with
  | openfile filecnt id name =>
    have hsame : (ch.setfile (fs name) filecnt id).2 = ch := by
      rw [hm.2]
      exact setfile_snd_of_le (fs name) hch.stbid_eq (hch.filecount_eq.symm ▸ hm.1)
    constructor
    · show ServerOk file cnt stbid (ch.setfile (fs name) filecnt id).2
      rw [hsame]
      exact hch
    · intro reply hreply
      obtain rfl := List.mem_singleton.mp hreply
      exact trivial
  | fetch fast filecnt block qos map =>
    cases fast with
    | true => exact ⟨hch, nofun⟩
    | false =>
      simp only [StreamioV3.streamioV3Main, isFileMatched, decide_eq_true_eq]
      split_ifs with hmatched
      · obtain ⟨b, rfl, hlt⟩ := hm (hmatched.symm.trans hch.filecount_eq)
        refine ⟨⟨?_, hch.file_open, hch.filecount_eq, hch.stbid_eq⟩, ?_⟩
        · obtain ⟨fd, hfd, hfile⟩ := hch.file_open
          have hblockcnt := hch.cache.blockcnt_eq fd hfd
          rw [hfile] at hblockcnt
          exact hch.cache.setrequest (Int.natCast_nonneg b) (by omega) map qos
        · intro reply hreply
          obtain rfl := List.mem_singleton.mp hreply
          exact trivial
      · refine ⟨hch, fun reply hreply ↦ ?_⟩
        obtain rfl := List.mem_singleton.mp hreply
        exact fun heq ↦ hmatched (hch.filecount_eq.trans heq.symm)
  | openReply => exact ⟨hch, nofun⟩
  | fetchResponse => exact ⟨hch, nofun⟩
  | needReopen => exact ⟨hch, nofun⟩
  | data => exact ⟨hch, nofun⟩

/-! ### The client -/

/-- A block that exists is not empty, and all but the last are full. -/
theorem blockLen_eq {block : ℕ} (hlt : block < blockCount file.size) :
    blockLen file block = if block < blockCount file.size - 1 then 32768
      else file.size - 32768 * (blockCount file.size - 1) := by
  unfold blockLen
  unfold blockCount at hlt ⊢
  split_ifs at hlt ⊢ <;> omega

/-- `expect_len` is the length of the wanted block. -/
theorem expectLen_of_open {cl : ClientChannel} (hfilesize : cl.filesize = file.size)
    (hblockcnt : cl.blockcnt = blockCount file.size) (hlt : cl.blockwant < blockCount file.size) :
    cl.expectLen = blockLen file cl.blockwant := by
  have hmod : (file.size : ℤ).tmod 32768 = ((file.size % 32768 : ℕ) : ℤ) := by
    rw [Int.tmod_eq_emod_of_nonneg (Int.natCast_nonneg _)]
    rfl
  unfold ClientChannel.expectLen
  rw [hblockcnt, hfilesize, hmod, blockLen_eq hlt]
  unfold blockCount at hlt ⊢
  split_ifs at hlt ⊢ <;> omega

theorem ClientOk.expectLen_eq {cl : ClientChannel} (hcl : ClientOk file cnt stbid cl)
    (hlt : cl.blockwant < blockCount file.size) :
    cl.expectLen = blockLen file cl.blockwant :=
  expectLen_of_open hcl.filesize_eq hcl.blockcnt_eq hlt

/-- A read that is cut short, or a seek, leaves a client that reads nothing. -/
theorem ClientOk.of_idle {cl cl' : ClientChannel} (hcl : ClientOk file cnt stbid cl)
    (hfilecnt : cl'.filecnt = cl.filecnt) (hstbid : cl'.stbid = cl.stbid)
    (hfilesize : cl'.filesize = cl.filesize) (hblockcnt : cl'.blockcnt = cl.blockcnt)
    (hneedFilesize : cl'.needFilesize = cl.needFilesize)
    (hneedReopen : cl'.needReopen = cl.needReopen) (hphase : cl'.phase = .idle) :
    ClientOk file cnt stbid cl' where
  filecnt_eq := hfilecnt.trans hcl.filecnt_eq
  stbid_eq := hstbid.trans hcl.stbid_eq
  filesize_eq := hfilesize.trans hcl.filesize_eq
  blockcnt_eq := hblockcnt.trans hcl.blockcnt_eq
  needFilesize_eq := hneedFilesize.trans hcl.needFilesize_eq
  needReopen_eq := hneedReopen.trans hcl.needReopen_eq
  not_opening := by
    intro resume heq
    rw [hphase] at heq
    cases heq
  read := by
    intro r heq
    rw [hphase] at heq
    cases heq

/-- The start of a read: every place is waited for. -/
theorem ClientOk.beginRead {cl : ClientChannel} (hcl : ClientOk file cnt stbid cl) :
    ClientOk file cnt stbid cl.beginRead := by
  unfold ClientChannel.beginRead
  split_ifs with hpast
  · exact hcl
  · have hlt : cl.blockwant < blockCount file.size := by
      rw [← hcl.blockcnt_eq]
      omega
    refine ⟨hcl.filecnt_eq, hcl.stbid_eq, hcl.filesize_eq, hcl.blockcnt_eq, hcl.needFilesize_eq,
      hcl.needReopen_eq, nofun, ?_⟩
    rintro r ⟨⟩
    exact ⟨rfl, rfl, hlt, hcl.expectLen_eq hlt, by simp [List.countP_true], nofun⟩

/-- A packet for the wanted block fills its place, once. -/
theorem ReadOk.store {r : Reading} {blockwant requestBlock : ℕ} {brcvcnt : ℤ} {bufok : ℕ → Bool}
    {bbuf : ℕ → UInt8} (hread : ReadOk file r blockwant requestBlock brcvcnt bufok bbuf)
    {packet : DataPacket} (hpacket : PacketOk file blockwant packet)
    (hflag : bufok packet.bid = true) :
    ReadOk file r blockwant requestBlock (brcvcnt - 1) (Function.update bufok packet.bid false)
      (copyInto bbuf (packetSize * packet.bid) packet.len packet.data) := by
  refine ⟨hread.block_eq, hread.request_eq, hread.block_lt, hread.expectLen_eq, ?_, ?_⟩
  · have hcount := countP_update_false hflag List.nodup_range (List.mem_range.mpr hpacket.bid_lt)
    have hold := hread.brcvcnt_eq
    omega
  · refine hread.filled.copy hpacket.len_le (fun i hne hclear ↦ ?_) fun _ ↦ hpacket.covers
    rwa [Function.update_of_ne hne] at hclear

theorem ClientOk.storePacket {cl : ClientChannel} (hcl : ClientOk file cnt stbid cl)
    {packet : DataPacket} (hpacket : PacketOk file cl.blockwant packet) :
    ClientOk file cnt stbid (cl.storePacket packet) := by
  unfold ClientChannel.storePacket
  split_ifs with hflag
  · exact ⟨hcl.filecnt_eq, hcl.stbid_eq, hcl.filesize_eq, hcl.blockcnt_eq, hcl.needFilesize_eq,
      hcl.needReopen_eq, hcl.not_opening, fun r hr ↦ (hcl.read r hr).store hpacket hflag⟩
  · exact hcl

theorem ClientOk.setResponse {cl : ClientChannel} (hcl : ClientOk file cnt stbid cl) :
    ClientOk file cnt stbid { cl with vodsvrResponse := true } :=
  ⟨hcl.filecnt_eq, hcl.stbid_eq, hcl.filesize_eq, hcl.blockcnt_eq, hcl.needFilesize_eq,
    hcl.needReopen_eq, hcl.not_opening, hcl.read⟩

/-- What the client does with a datagram of the session. -/
theorem ClientOk.streamioV3Response {cl : ClientChannel} (hcl : ClientOk file cnt stbid cl)
    {m : Message} (hm : MessageOk file cnt stbid m) :
    ClientOk file cnt stbid (cl.streamioV3Response m) := by
  cases m with
  | openfile => exact hcl
  | fetch => exact hcl
  | openReply filecnt filesize err name =>
    show ClientOk file cnt stbid (cl.storeFilesize filesize err name)
    rw [ClientChannel.storeFilesize_of_not_needed hcl.needFilesize_eq]
    exact ⟨hcl.filecnt_eq, hcl.stbid_eq, hcl.filesize_eq, hcl.blockcnt_eq, hcl.needFilesize_eq,
      hcl.needReopen_eq, hcl.not_opening, hcl.read⟩
  | fetchResponse filecnt block =>
    simp only [ClientChannel.streamioV3Response]
    split_ifs
    · exact hcl.setResponse
    · exact hcl
  | needReopen filecnt block =>
    have hother : cl.isWanted filecnt block = false := by
      refine decide_eq_false fun hwanted ↦ hm ?_
      rw [hwanted.2, hcl.filecnt_eq]
    simp only [ClientChannel.streamioV3Response, hother, Bool.false_eq_true, if_false]
    exact hcl
  | data filecnt block packet =>
    simp only [ClientChannel.streamioV3Response]
    split_ifs with hwanted
    · obtain ⟨hblock, hfilecnt⟩ := of_decide_eq_true hwanted
      obtain ⟨b, rfl, hlt, hpacket⟩ := hm (hfilecnt.trans hcl.filecnt_eq)
      have hb : b = cl.blockwant := by omega
      rw [hb] at hpacket
      exact hcl.setResponse.storePacket hpacket
    · exact hcl

/-- When no place is waited for any more, the buffer holds the block. -/
theorem ReadOk.bytes_eq {cl : ClientChannel} {r : Reading}
    (hread : ReadOk file r cl.blockwant cl.requestBlock cl.brcvcnt cl.bufok cl.bbuf)
    (hdone : cl.brcvcnt = 0) :
    ReturnOk file ⟨r.block, cl.readBytes r.expectLen⟩ := by
  have hzero : (List.range packetCount).countP cl.bufok = 0 := by
    have hcount := hread.brcvcnt_eq
    omega
  constructor
  · rw [hread.block_eq]
    exact hread.block_lt
  · show (List.range r.expectLen.toNat).map cl.bbuf = _
    rw [hread.expectLen_eq, Int.toNat_natCast, hread.block_eq]
    refine List.map_congr_left fun j hj ↦ ?_
    have hle : blockLen file cl.blockwant ≤ packetSize * packetCount :=
      (Nat.min_le_left _ _).trans (by decide)
    exact hread.filled.complete (by decide) hle (eq_false_of_countP_eq_zero hzero) j
      (List.mem_range.mp hj)

/-! ### Every step -/

/-- The condition on the steps of a session: no other file is opened. -/
def KeepsFile (_ : Session) : SessionEvent → Prop
  | .openfile _ => False
  | _ => True

instance (s : Session) : ∀ event, Decidable (KeepsFile s event)
  | .openfile _ => .isFalse not_false
  | .sendOpen | .reopenReturn | .abort | .cutReturn | .reopenNeeded | .seek _ | .reopen
  | .startRead | .sendFetch | .responseSeen | .fastFetch | .finishRead | .toServer _ _
  | .toClient _ | .service _ => .isTrue trivial

theorem delivery_sessionStep {s s' : Session} {event : SessionEvent}
    (hs : Delivery file cnt stbid s) (hgood : KeepsFile s event)
    (hstep : sessionStep fs s event = some s') : Delivery file cnt stbid s' := by
  have hclient := hs.client
  cases event with
  | openfile fname => exact absurd hgood not_false
  | sendOpen =>
    obtain ⟨resume, hphase, -⟩ := sessionStep_sendOpen.mp hstep
    exact absurd hphase (hclient.not_opening resume)
  | reopenReturn =>
    obtain ⟨resume, hphase, -⟩ := sessionStep_reopenReturn.mp hstep
    exact absurd hphase (hclient.not_opening resume)
  | abort =>
    cases hstep
    exact ⟨⟨hclient.filecnt_eq, hclient.stbid_eq, hclient.filesize_eq, hclient.blockcnt_eq,
      hclient.needFilesize_eq, hclient.needReopen_eq, hclient.not_opening, hclient.read⟩,
      hs.server, hs.net, hs.returned⟩
  | cutReturn =>
    simp only [sessionStep, Option.ite_none_right_eq_some, Option.some.injEq] at hstep
    obtain ⟨-, rfl⟩ := hstep
    exact ⟨hclient.of_idle rfl rfl rfl rfl rfl rfl rfl, hs.server, hs.net, hs.returned⟩
  | reopenNeeded =>
    obtain ⟨hneed, -⟩ := sessionStep_reopenNeeded.mp hstep
    rw [hclient.needReopen_eq] at hneed
    cases hneed
  | seek pos =>
    simp only [sessionStep, Option.ite_none_right_eq_some, Option.some.injEq] at hstep
    obtain ⟨hidle, rfl⟩ := hstep
    exact ⟨hclient.of_idle rfl rfl rfl rfl rfl rfl hidle, hs.server, hs.net, hs.returned⟩
  | reopen =>
    simp only [sessionStep, Option.ite_none_right_eq_some, Option.some.injEq] at hstep
    obtain ⟨hidle, rfl⟩ := hstep
    exact ⟨hclient.of_idle rfl rfl rfl rfl rfl rfl hidle, hs.server, hs.net, hs.returned⟩
  | startRead =>
    simp only [sessionStep, Option.ite_none_right_eq_some, Option.some.injEq] at hstep
    obtain ⟨-, rfl⟩ := hstep
    exact ⟨hclient.beginRead, hs.server, hs.net, hs.returned⟩
  | sendFetch =>
    obtain ⟨r, hphase, rfl⟩ := sessionStep_sendFetch.mp hstep
    have hread := hclient.read r hphase
    refine ⟨hclient, hs.server, List.forall_mem_append.mpr ⟨hs.net, fun m hm ↦ ?_⟩, hs.returned⟩
    obtain rfl := List.mem_singleton.mp hm
    exact fun _ ↦ ⟨s.client.requestBlock, rfl, hread.request_eq ▸ hread.block_lt⟩
  | responseSeen =>
    obtain ⟨r, hphase, -, rfl⟩ := sessionStep_responseSeen.mp hstep
    have hread := hclient.read r hphase
    refine ⟨⟨hclient.filecnt_eq, hclient.stbid_eq, hclient.filesize_eq, hclient.blockcnt_eq,
      hclient.needFilesize_eq, hclient.needReopen_eq, fun _ ↦ Phase.noConfusion, ?_⟩, hs.server,
      hs.net, hs.returned⟩
    rintro r' ⟨⟩
    exact ⟨hread.block_eq, hread.request_eq, hread.block_lt, hread.expectLen_eq,
      hread.brcvcnt_eq, hread.filled⟩
  | fastFetch =>
    obtain ⟨r, -, -, rfl⟩ := sessionStep_fastFetch.mp hstep
    exact ⟨⟨hclient.filecnt_eq, hclient.stbid_eq, hclient.filesize_eq, hclient.blockcnt_eq,
      hclient.needFilesize_eq, hclient.needReopen_eq, hclient.not_opening, hclient.read⟩,
      hs.server, hs.net, hs.returned⟩
  | finishRead =>
    obtain ⟨r, hphase, hdone, rfl⟩ := sessionStep_finishRead.mp hstep
    refine ⟨hclient.of_idle rfl rfl rfl rfl rfl rfl rfl, hs.server, hs.net, fun ret hret ↦ ?_⟩
    rcases List.mem_append.mp hret with hold | hnew
    · exact hs.returned ret hold
    · obtain rfl := List.mem_singleton.mp hnew
      exact (hclient.read r hphase).bytes_eq hdone.2
  | toServer k env =>
    obtain ⟨m, hm, rfl⟩ := sessionStep_toServer.mp hstep
    obtain ⟨hserver, hreplies⟩ :=
      hs.server.streamioV3Main (hs.net m (List.mem_of_getElem? hm)) fs env
    exact ⟨hclient, hserver, List.forall_mem_append.mpr ⟨hs.net, hreplies⟩, hs.returned⟩
  | toClient k =>
    obtain ⟨m, hm, rfl⟩ := sessionStep_toClient.mp hstep
    exact ⟨hclient.streamioV3Response (hs.net m (List.mem_of_getElem? hm)), hs.server, hs.net,
      hs.returned⟩
  | service short =>
    cases hstep
    refine ⟨hclient, hs.server.servicePass short,
      List.forall_mem_append.mpr ⟨hs.net, fun m hm ↦ ?_⟩,
      hs.returned⟩
    obtain ⟨block, hblock, hlt, hpackets⟩ :=
      packetOk_of_mem_servicePass hs.server.cache hs.server.file_open short
    obtain ⟨packet, hpacket, rfl⟩ := List.mem_map.mp hm
    exact fun _ ↦ ⟨block, hblock, hlt, hpackets packet hpacket⟩

/-! ### Sessions with an open file -/

/-- What may be in flight when a session with an open file begins: requests of this open for blocks
of the file, requests of earlier opens, anything the server sent for earlier opens, and packets it
sent in a pass over this file. -/
def InFlight (file : RegularFile) (cnt : ℕ) (stbid : ℤ) : Message → Prop
  | .openfile filecnt id _ => filecnt ≤ cnt ∧ id = stbid
  | .openReply .. => True
  | .fetch _ filecnt block _ _ =>
    filecnt = cnt → ∃ b : ℕ, block = b ∧ b < blockCount file.size
  | .fetchResponse .. => True
  | .needReopen filecnt _ => filecnt ≠ cnt
  | .data filecnt block packet =>
    filecnt = cnt → ∃ ch short, ServesFile file ch ∧ ch.requestBlock = block ∧
      packet ∈ (ch.servicePass short).1

/-- A session in which `file` is open: the client is in no call and knows the size of the file, and
the server has it open under the client's open number. -/
structure FileOpen (file : RegularFile) (s : Session) : Prop where
  idle : s.client.phase = .idle
  filesize_eq : s.client.filesize = file.size
  blockcnt_eq : s.client.blockcnt = blockCount file.size
  needFilesize_eq : s.client.needFilesize = false
  needReopen_eq : s.client.needReopen = false
  serves : ServesFile file s.server
  filecount_eq : s.server.filecount = s.client.filecnt
  stbid_eq : s.server.stbid = s.client.stbid
  in_flight : ∀ m ∈ s.net, InFlight file s.client.filecnt s.client.stbid m
  returned_nil : s.returned = []

theorem ServesFile.cacheOk {ch : StbChannel} (hch : ServesFile file ch) : CacheOk ch := by
  obtain ⟨⟨count, events, t, n, channel, hrun, rfl⟩, -⟩ := hch
  exact run_invariant (fun s event s' hs hstep ↦ cacheOk_stbStep hs hstep)
    (tableOk_newStbtable count) hrun n channel

/-- What is in flight at the beginning is in order. -/
theorem InFlight.messageOk {m : Message} (hm : InFlight file cnt stbid m) :
    MessageOk file cnt stbid m := by
  cases m with
  | openfile => exact hm
  | openReply => exact trivial
  | fetch => exact hm
  | fetchResponse => exact trivial
  | needReopen => exact hm
  | data filecnt block packet =>
    intro hcnt
    obtain ⟨ch, short, hserves, rfl, hpacket⟩ := hm hcnt
    obtain ⟨b, hb, hlt, hpackets⟩ := packetOk_of_mem_servicePass hserves.cacheOk hserves.2 short
    exact ⟨b, hb, hlt, hpackets packet hpacket⟩

theorem delivery_of_fileOpen {s : Session} (hs : FileOpen file s) :
    Delivery file s.client.filecnt s.client.stbid s where
  client :=
    { filecnt_eq := rfl
      stbid_eq := rfl
      filesize_eq := hs.filesize_eq
      blockcnt_eq := hs.blockcnt_eq
      needFilesize_eq := hs.needFilesize_eq
      needReopen_eq := hs.needReopen_eq
      not_opening := by
        intro resume hphase
        rw [hs.idle] at hphase
        cases hphase
      read := by
        intro r hphase
        rw [hs.idle] at hphase
        cases hphase }
  server := ⟨hs.serves.cacheOk, hs.serves.2, hs.filecount_eq, hs.stbid_eq⟩
  net := fun m hm ↦ (hs.in_flight m hm).messageOk
  returned := by
    intro r hr
    rw [hs.returned_nil] at hr
    cases hr

/-- A file of three bytes. -/
def tinyFile : RegularFile := ⟨3, by decide, fun j ↦ UInt8.ofNat (j + 65)⟩

/-- A session in which it is open, with a packet of an earlier open and a late `OPENFILE` of it
still in flight. -/
def tinySession : Session where
  client :=
    { channel := 0, stbid := 5, cut := false, qosThreshold := 60, filecnt := 1, blockwant := 0,
      blockcnt := 1, filesize := 3, needFilesize := false, needReopen := false, openErrno := 0,
      vodsvrResponse := false, brcvcnt := 0, bufok := fun _ ↦ false, bbuf := fun _ ↦ 0,
      requestBlock := 0, qos := 0, map := fun _ ↦ 0, fast := false, reopenFile := "a",
      mayNeedFixFilename := false, phase := .idle }
  server := (newStbChannel.setfile (.found tinyFile 0) 1 5).2
  net := [.data 0 0 ⟨0, 1425, fun _ ↦ 7⟩, .openfile 1 5 "a"]
  returned := []
  opens := []
  names := []

/-- A read of its only block, with the reply to the request lost, the packets in reverse order and
one of them twice. -/
def tinyRun : List SessionEvent :=
  [.startRead, .sendFetch, .toClient 0, .toServer 1 ⟨"", 0⟩, .toServer 2 ⟨"", 0⟩,
    .service fun _ ↦ 0, .toClient 9, .responseSeen] ++
  (List.range packetCount).map (fun i ↦ .toClient (27 - i)) ++ [.finishRead]

theorem fileOpen_tinySession : FileOpen tinyFile tinySession where
  idle := rfl
  filesize_eq := rfl
  blockcnt_eq := rfl
  needFilesize_eq := rfl
  needReopen_eq := rfl
  serves := ⟨⟨1, [.setfile 0 0 (.found tinyFile 0) 1 5], _, 0, 0, rfl, rfl⟩, _, rfl, rfl⟩
  filecount_eq := rfl
  stbid_eq := rfl
  in_flight := by
    intro m hm
    simp only [tinySession, List.mem_cons, List.not_mem_nil, or_false] at hm
    rcases hm with rfl | rfl
    · exact fun hcnt ↦ absurd hcnt (by decide)
    · exact ⟨le_refl 1, rfl⟩
  returned_nil := rfl

end Katmai.StreamioV3
