import Katmai.Foundation.PlainFile
import Mathlib.Data.Int.Notation

/-!
# The entry of a client in a `streamio_v2` server

`streamio_v2/client_entry.c` keeps one open file for each channel of a client, with a buffer of
`disk_bufsize` bytes for the disk block that was read last. A request names a network block of
`net_bufsize` bytes, of which there are `disknet_fact` in a disk block, and the packets of it that
are wanted; a packet carries `1439` bytes.

`Parameter` holds the sizes of a channel with the relations that `stiov2_set_parameter` checks, so
that the sizes that are computed from them fit. `Message` is what travels between the client and the
server for a channel. `remoteOpenfile` and `remoteFetchFile` are the two requests that `ce_svc_main`
knows.
-/

set_option autoImplicit false
set_option relaxedAutoImplicit false

namespace Katmai.StreamioV2

open Foundation

/-! ### The sizes of a channel -/

/-- `STIOV2_CARRY_DATASIZE`. -/
def carryDatasize : ℕ := 1439

/-- The sizes of a channel, as `stiov2_set_parameter` accepts them. -/
structure Parameter where
  diskBufsize : ℕ
  netBufsize : ℕ
  disk_ge : 4096 ≤ diskBufsize
  disk_le : diskBufsize ≤ 1048576
  net_ge : 4096 ≤ netBufsize
  net_le : netBufsize ≤ 32768
  net_mod : netBufsize % 1024 = 0
  disk_mod : diskBufsize % netBufsize = 0

namespace Parameter

/-- `disknet_fact`. -/
def disknetFact (p : Parameter) : ℕ :=
  p.diskBufsize / p.netBufsize

/-- `packet_map`. -/
def packetMap (p : Parameter) : ℕ :=
  p.netBufsize / carryDatasize + if p.netBufsize % carryDatasize > 0 then 1 else 0

/-- The number of bytes that packet `i` carries. -/
def packetLen (p : Parameter) (i : ℕ) : ℕ :=
  if i = p.packetMap - 1 then p.netBufsize - i * carryDatasize else carryDatasize

/-- A disk block is a number of network blocks. -/
theorem disk_eq (p : Parameter) : p.diskBufsize = p.disknetFact * p.netBufsize := by
  have hdiv := Nat.div_add_mod p.diskBufsize p.netBufsize
  rw [p.disk_mod, Nat.add_zero, Nat.mul_comm] at hdiv
  exact hdiv.symm

theorem fact_pos (p : Parameter) : 0 < p.disknetFact := by
  have hdisk := p.disk_ge
  have heq := p.disk_eq
  rcases Nat.eq_zero_or_pos p.disknetFact with hzero | hpos
  · rw [hzero, Nat.zero_mul] at heq
    omega
  · exact hpos

end Parameter

/-- The sizes of a new server. -/
def defaultParameter : Parameter where
  diskBufsize := 1048576
  netBufsize := 32768
  disk_ge := by decide
  disk_le := by decide
  net_ge := by decide
  net_le := by decide
  net_mod := by decide
  disk_mod := by decide

/-- `stiov2_set_parameter` for a channel of a server that has not been started. -/
def stiov2SetParameter (diskbuf netbuf : ℕ) : Option Parameter :=
  if hdisk : 4096 ≤ diskbuf ∧ diskbuf ≤ 1048576 then
    if hnet : 4096 ≤ netbuf ∧ netbuf ≤ 32768 then
      if hmod : netbuf % 1024 = 0 then
        if hfact : diskbuf % netbuf = 0 then
          some ⟨diskbuf, netbuf, hdisk.1, hdisk.2, hnet.1, hnet.2, hmod, hfact⟩
        else none
      else none
    else none
  else none

/-! ### Datagrams -/

/-- A packet with data: its number and the bytes of its data field. -/
structure DataPacket where
  map : ℕ
  data : ℕ → UInt8

/-- The datagrams of a channel: the requests of the client (`OPENFILE`, `FETCH`) and what the server
sends (the two answers to `OPENFILE`, the `ERROR` to `FETCH`, and `FETCH` with data). -/
inductive Message
  | openfile (filecnt : ℤ) (filename : String)
  | openOk (filecnt : ℤ) (filesize : ℤ) (diskBufsize netBufsize disknetFact packetMap : ℕ)
  | openError (lerrno : ℤ)
  | fetch (filecnt ndcnt len : ℤ) (map : ℕ → Bool)
  | fetchError (errcode lerrno : ℤ)
  | data (filecnt ndcnt : ℤ) (packet : DataPacket)

/-- `STIOV2_ERR_REOPEN`. -/
def errReopen : ℤ := 1

/-- `EBADF`. -/
def ebadf : ℤ := 9

/-! ### The server -/

/-- What `fopen` and `fstat` find for a name. -/
inductive Lookup
  | noOpen (errno : ℤ)
  | noStat (errno : ℤ)
  | found (file : RegularFile)

/-- `struct stio_v2_server_local_t`; there is no buffer as long as `bufsize` is `0`. -/
structure ServerLocal where
  fd : Option OpenFile
  filesize : ℤ
  currFptr : ℤ
  buffer : ℕ → UInt8
  blkcnt : ℤ
  bufsize : ℕ
  buflen : ℕ

/-- A channel of a new entry, in memory that held `memory`. -/
def newServerLocal (memory : ServerLocal) : ServerLocal :=
  { memory with fd := none, bufsize := 0 }

/-- `fullread`. -/
def fullread (short : ℕ → ℕ) (fd : OpenFile) (buffer : ℕ → UInt8) (bufsiz : ℕ) (cptr fsize : ℤ) :
    ReadResult :=
  let explen : ℤ := if fsize - cptr < bufsiz then fsize - cptr else bufsiz
  readFull short fd buffer explen.toNat

namespace ServerLocal

/-- `remote_openfile`. Every request opens the file again, whatever its number is. -/
def remoteOpenfile (sl : ServerLocal) (p : Parameter) (lookup : Lookup) (filecnt : ℤ) :
    ServerLocal × List Message :=
  let sl := { sl with fd := none, bufsize := if sl.bufsize = 0 then p.diskBufsize else sl.bufsize }
  match lookup with
  | .noOpen errno => (sl, [.openError errno])
  | .noStat errno => (sl, [.openError errno])
  | .found file =>
    ({ sl with fd := some ⟨file, 0⟩, filesize := file.size, currFptr := 0, blkcnt := -1 },
      [.openOk filecnt file.size p.diskBufsize p.netBufsize p.disknetFact p.packetMap])

/-- The argument of `lseek`, computed as an `int`. -/
def seekOffset (p : Parameter) (blkcnt : ℤ) : ℤ :=
  Int.bmod (blkcnt * p.diskBufsize) (2 ^ 32)

/-- The part of `remote_fetch_file` that gets disk block `blkcnt` into the buffer. -/
def readBlock (sl : ServerLocal) (p : Parameter) (short : ℕ → ℕ) (fd : OpenFile) (blkcnt : ℤ) :
    ServerLocal :=
  if blkcnt ≠ sl.blkcnt then
    let fd := if blkcnt ≠ sl.blkcnt + 1 then fd.lseek (seekOffset p blkcnt) else fd
    let result := fullread short fd sl.buffer sl.bufsize sl.currFptr sl.filesize
    { sl with
      fd := some result.fd
      buffer := result.buffer
      buflen := result.rlen
      blkcnt := blkcnt }
  else sl

/-- The `for` loop of `remote_fetch_file` over the packets of network block `blkent` of the buffer.
The packets are made one after the other in one data field, which starts as `data`. -/
def sendLoop (sl : ServerLocal) (p : Parameter) (blkent : ℕ) (map : ℕ → Bool) :
    List ℕ → (ℕ → UInt8) → List DataPacket
  | [], _ => []
  | i :: rest, data =>
    if map i then
      let idx := blkent * p.netBufsize + i * carryDatasize
      let data := copyInto data 0 (p.packetLen i) fun j ↦ sl.buffer (idx + j)
      ⟨i, data⟩ :: sendLoop sl p blkent map rest data
    else sendLoop sl p blkent map rest data

/-- `remote_fetch_file`. The data field of the first packet lies over the request; `data` is what
is there. -/
def remoteFetchFile (sl : ServerLocal) (p : Parameter) (short : ℕ → ℕ) (data : ℕ → UInt8)
    (filecnt ndcnt : ℤ) (map : ℕ → Bool) : ServerLocal × List Message :=
  match sl.fd with
  | none => (sl, [.fetchError errReopen ebadf])
  | some fd =>
    let blkcnt := ndcnt.tdiv p.disknetFact
    let blkent := ndcnt.tmod p.disknetFact
    let sl := sl.readBlock p short fd blkcnt
    (sl, (sl.sendLoop p blkent.toNat map (List.range p.packetMap) data).map
      (.data filecnt ndcnt))

end ServerLocal

/-- What the rest of the system contributes to a request: how short the reads are, and what is in
the receive buffer where the data field of a packet will be. -/
structure ServerEnv where
  short : ℕ → ℕ
  data : ℕ → UInt8

/-- The dispatch of `ce_svc_main` for the datagrams of a channel of the registered client. -/
def ceSvcMain (p : Parameter) (fs : String → Lookup) (env : ServerEnv) (sl : ServerLocal) :
    Message → ServerLocal × List Message
  | .openfile filecnt filename => sl.remoteOpenfile p (fs filename) filecnt
  | .fetch filecnt ndcnt _ map => sl.remoteFetchFile p env.short env.data filecnt ndcnt map
  | .openOk .. => (sl, [])
  | .openError .. => (sl, [])
  | .fetchError .. => (sl, [])
  | .data .. => (sl, [])

end Katmai.StreamioV2
