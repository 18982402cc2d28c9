import Katmai.StreamioV3.StbTable

/-!
# One channel of a `streamio_v3` client

`streamio_v3/client.c` and `src.client/` keep per channel the number of the current open
(`filecnt`), the block to be read next (`blockwant`), the packets of that block that have arrived
(`bufok`, `brcvcnt`, `bbuf`) and the request that is sent for the others (`stmreq`). Two threads
work on it: the thread of the application, in `stiov3_openfile`, `stiov3_seek` and `internal_read`,
and the thread of `streamio_v3_response`, which handles the datagrams that come in.

`Message` is what travels between the client and the server for this channel. `Phase` says where the
thread of the application is. Its calls wait in `send_and_wait`, which sends a request, waits, sends
it again after a timeout, and goes through `internal_reopen_file` when the server has asked for it;
each of these is a function below, and which of them happens next is up to the run.
-/

set_option autoImplicit false
set_option relaxedAutoImplicit false

namespace Katmai.StreamioV3

open Foundation

/-- `PUBLIC_CHANNEL`, the one that does not listen to `cut`. -/
def publicChannel : ℕ := 4

/-- The datagrams of one channel: the requests of the client (`OPENFILE`, `FETCH` and, for `fast`,
`FAST_FETCH`) and what the server sends (the reply to `OPENFILE`, `FETCH_RESPONSE`, `NEED_REOPEN`,
and `FETCH` with data). -/
inductive Message
  | openfile (filecnt : ℕ) (stbid : ℤ) (file : String)
  | openReply (filecnt : ℕ) (filesize : ℤ) (err : ℤ) (file : String)
  | fetch (fast : Bool) (filecnt : ℕ) (block : ℤ) (qos : ℤ) (map : ℕ → UInt8)
  | fetchResponse (filecnt : ℕ) (block : ℤ)
  | needReopen (filecnt : ℕ) (block : ℤ)
  | data (filecnt : ℕ) (block : ℤ) (packet : DataPacket)

/-- What an `internal_read` waits for: the first answer of the server, or the packets. -/
inductive Stage
  | response
  | data
  deriving DecidableEq, Repr

/-- An `internal_read` that is going on: the block it was called for and `expect_len`. -/
structure Reading where
  block : ℕ
  expectLen : ℤ
  stage : Stage
  deriving DecidableEq, Repr

/-- Where the thread of the application is: in no call, in `internal_reopen_file` (called by
`stiov3_openfile`, or from inside an `internal_read`), or in `internal_read`. -/
inductive Phase
  | idle
  | opening (resume : Option Reading)
  | reading (r : Reading)
  deriving DecidableEq, Repr

/-- The fields of `struct streamming_io_v3_client_pd_t` for one channel. `requestBlock`, `qos`,
`map` and `fast` are the request in `stmpdu`, `reopenFile` is the name in `reopen_pdu`. -/
structure ClientChannel where
  channel : ℕ
  stbid : ℤ
  cut : Bool
  qosThreshold : ℤ
  filecnt : ℕ
  blockwant : ℕ
  blockcnt : ℕ
  filesize : ℤ
  needFilesize : Bool
  needReopen : Bool
  openErrno : ℤ
  vodsvrResponse : Bool
  brcvcnt : ℤ
  bufok : ℕ → Bool
  bbuf : ℕ → UInt8
  requestBlock : ℕ
  qos : ℤ
  map : ℕ → UInt8
  fast : Bool
  reopenFile : String
  mayNeedFixFilename : Bool
  phase : Phase

/-- What `new_streamming_io_v3_client` leaves for a channel, in memory that held `memory`. -/
def newClientChannel (channel : ℕ) (stbid : ℤ) (memory : ClientChannel) : ClientChannel :=
  { memory with
    channel := channel
    stbid := stbid
    cut := false
    filecnt := 0
    blockwant := 0
    blockcnt := 0
    filesize := 0
    needFilesize := false
    needReopen := false
    openErrno := 0
    vodsvrResponse := false
    brcvcnt := 0
    phase := .idle }

namespace ClientChannel

/-- The first lines of `internal_reopen_file`. -/
def beginReopen (cl : ClientChannel) (resume : Option Reading) : ClientChannel :=
  { cl with filesize := 0, needFilesize := true, phase := .opening resume }

/-- `stiov3_reopen`. -/
def stiov3Reopen (cl : ClientChannel) : ClientChannel :=
  { cl with blockwant := 0 }

/-- `stiov3_openfile` up to the wait of `internal_reopen_file`; a name that is too long is refused
before anything is changed. -/
def stiov3Openfile (cl : ClientChannel) (fname : String) : ClientChannel :=
  if fname.utf8ByteSize > 100 then cl
  else
    let cl :=
      { cl with
        filecnt := (cl.filecnt + 1) % 2 ^ 32
        reopenFile := fname
        mayNeedFixFilename := cl.channel = 0
        cut := false }
    cl.stiov3Reopen.beginReopen none

/-- The datagram in `reopen_pdu`. -/
def openRequest (cl : ClientChannel) : Message :=
  .openfile cl.filecnt cl.stbid cl.reopenFile

/-- The end of `internal_reopen_file`, once `need_filesize` is `0`. -/
def endReopen (cl : ClientChannel) (resume : Option Reading) : ClientChannel :=
  let cl := if cl.filesize < 0 then cl else { cl with blockcnt := blockCount cl.filesize.toNat }
  match resume with
  | none => { cl with phase := .idle }
  | some r => { cl with phase := .reading r }

/-- `stiov3_seek`. -/
def stiov3Seek (cl : ClientChannel) (pos : ℤ) : ClientChannel :=
  { cl with blockwant := (pos.tdiv 32768 % 2 ^ 32).toNat }

/-- `expect_len` of the block that is wanted. -/
def expectLen (cl : ClientChannel) : ℤ :=
  if cl.blockwant < cl.blockcnt - 1 then 32768
  else if cl.filesize.tmod 32768 = 0 then 32768 else cl.filesize.tmod 32768

/-- The first lines of `internal_read`, up to its first wait. A block past the end is refused. -/
def beginRead (cl : ClientChannel) : ClientChannel :=
  if cl.blockwant ≥ cl.blockcnt then cl
  else
    { cl with
      fast := false
      requestBlock := cl.blockwant
      brcvcnt := packetCount
      bufok := fun _ ↦ true
      map := fun _ ↦ 1
      vodsvrResponse := false
      phase := .reading ⟨cl.blockwant, cl.expectLen, .response⟩ }

/-- The datagram in `stmpdu`. -/
def fetchRequest (cl : ClientChannel) : Message :=
  .fetch cl.fast cl.filecnt cl.requestBlock cl.qos cl.map

/-- `internal_read` has an answer and begins to wait for the packets. -/
def beginData (cl : ClientChannel) (r : Reading) : ClientChannel :=
  { cl with qos := 90, phase := .reading { r with stage := .data } }

/-- The last lines of `internal_read`, once `brcvcnt` is `0`. -/
def endRead (cl : ClientChannel) : ClientChannel :=
  { cl with blockwant := cl.blockwant + 1, phase := .idle }

/-- The `expect_len` bytes that `internal_read` copies to its caller. -/
def readBytes (cl : ClientChannel) (expectLen : ℤ) : List UInt8 :=
  (List.range expectLen.toNat).map cl.bbuf

/-- A datagram for the block that is wanted, of the file that is open. `block` is compared as an
unsigned number. -/
def isWanted (cl : ClientChannel) (filecnt : ℕ) (block : ℤ) : Bool :=
  decide (block % 2 ^ 32 = cl.blockwant ∧ filecnt = cl.filecnt)

/-- The handling of a packet that is wanted. -/
def storePacket (cl : ClientChannel) (packet : DataPacket) : ClientChannel :=
  if cl.bufok packet.bid then
    { cl with
      bufok := Function.update cl.bufok packet.bid false
      map := Function.update cl.map packet.bid 0
      bbuf := copyInto cl.bbuf (packetSize * packet.bid) packet.len packet.data
      brcvcnt := cl.brcvcnt - 1 }
  else cl

/-- The handling of a reply to `OPENFILE`. It is taken whenever one is waited for. -/
def storeFilesize (cl : ClientChannel) (filesize err : ℤ) (file : String) : ClientChannel :=
  let cl :=
    if cl.needFilesize then
      let cl :=
        { cl with
          filesize := if filesize = 0 then -1 else filesize
          needFilesize := false
          needReopen := false }
      if cl.mayNeedFixFilename then
        { cl with
          mayNeedFixFilename := false
          reopenFile := if file = "" then cl.reopenFile else file }
      else cl
    else cl
  { cl with openErrno := err }

/-- A reply that is not waited for is dropped. -/
theorem storeFilesize_of_not_needed {cl : ClientChannel} (hneed : cl.needFilesize = false)
    (filesize err : ℤ) (file : String) :
    cl.storeFilesize filesize err file = { cl with openErrno := err } := by
  unfold storeFilesize
  simp [hneed]

/-- A reply that is waited for gives the size, and ends the wait. -/
theorem storeFilesize_of_needed {cl : ClientChannel} (hneed : cl.needFilesize = true)
    (filesize err : ℤ) (file : String) :
    ∃ fixing name, cl.storeFilesize filesize err file =
      { cl with
        filesize := if filesize = 0 then -1 else filesize
        needFilesize := false
        needReopen := false
        mayNeedFixFilename := fixing
        reopenFile := name
        openErrno := err } := by
  unfold storeFilesize
  simp only [hneed, if_true]
  by_cases hfix : cl.mayNeedFixFilename = true
  · rw [if_pos hfix]
    exact ⟨_, _, rfl⟩
  · rw [if_neg hfix]
    exact ⟨_, _, rfl⟩

/-- `streamio_v3_response` for one datagram of the channel. -/
def streamioV3Response (cl : ClientChannel) : Message → ClientChannel
  | .openReply _ filesize err file => cl.storeFilesize filesize err file
  | .fetchResponse filecnt block =>
    if cl.isWanted filecnt block then { cl with vodsvrResponse := true } else cl
  | .needReopen filecnt block =>
    if cl.isWanted filecnt block then { cl with needReopen := true } else cl
  | .data filecnt block packet =>
    if cl.isWanted filecnt block then { cl with vodsvrResponse := true }.storePacket packet else cl
  | .openfile .. => cl
  | .fetch .. => cl

end ClientChannel

end Katmai.StreamioV3
