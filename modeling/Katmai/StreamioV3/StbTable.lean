import Katmai.Foundation.EventRun
import Katmai.Foundation.PlainFile
import Mathlib.Logic.Function.Basic

/-!
# The set-top box table of the `streamio_v3` server

`streamio_v3/stb_table.c` keeps one entry per registered set-top box, and in it, per channel, the
open file, one disk block of 1 MiB read from it (`buffer`, `buflen`, `cdkio_block`), and the request
to be served: a network block of 32 KiB, as a disk block (`rdkio_block`) and a position in it
(`netio_block`), with a map of the 23 packets of 1425 bytes that the client still wants.

`StbChannel` is what an entry holds for one channel. Its operations `setfile`, `setrequest`, `read`
and `fill` are the bodies of the source functions for an entry in range; the operations of
`StbTable` put them behind the range check of the source, with the counters of open files. Each of
them runs under the mutex of the entry and channel. `servicePass` is one round of the loop of
`streamio_v3_service`, which holds that mutex throughout, and gives the data packets it sends.

How `stat` and `open` answer, and how short the single calls of `read` are, are arguments.
-/

set_option autoImplicit false
set_option relaxedAutoImplicit false

namespace Katmai.StreamioV3

open Foundation

/-- `best_diskio_buffer_size`. -/
def bestDiskioBufferSize : ℕ := 1024 * 1024

/-- `netio_block_per_diskio`. -/
def netioBlockPerDiskio : ℕ := bestDiskioBufferSize / 32768

/-- The length of a full data packet. -/
def packetSize : ℕ := 1425

/-- The number of packets of a network block: `23 * 1425 = 32775 > 32768`. -/
def packetCount : ℕ := 23

/-- The number of network blocks of a file. -/
def blockCount (size : ℕ) : ℕ :=
  if size % 32768 ≠ 0 then size / 32768 + 1 else size / 32768

/-- `filestatus`: `0`, `1` and `2`. -/
inductive FileStatus
  | closed
  | opened
  | ended
  deriving DecidableEq, Repr

/-- What `stat` and `open` answer for the path of a file, with the `errno` they leave. -/
inductive Lookup
  | noStat (errno : ℤ)
  | noOpen (errno : ℤ)
  | found (file : RegularFile) (errno : ℤ)

/-- `errno` after `stat` and `open`. -/
def Lookup.errno : Lookup → ℤ
  | .noStat errno => errno
  | .noOpen errno => errno
  | .found _ errno => errno

/-- The fields of `struct stb_entry_t` for one channel. A descriptor that is `-1` is `none`. -/
structure StbChannel where
  stbid : ℤ
  fd : Option OpenFile
  filestatus : FileStatus
  filesize : ℤ
  filecount : ℕ
  blockcnt : ℕ
  err : ℤ
  qos : ℤ
  requestBlock : ℤ
  rdkioBlock : ℤ
  cdkioBlock : ℤ
  netioBlock : ℤ
  map : ℕ → UInt8
  mapi : ℕ
  buffer : ℕ → UInt8
  buflen : ℕ

/-- What `stbtbl_setfile` gives back: the size, and `*err` if it is written. -/
structure SetfileResult where
  filesize : ℤ
  err : Option ℤ
  deriving DecidableEq, Repr

/-- The header of the data packets of a service pass. -/
structure FetchHeader where
  sn : ℤ
  filecnt : ℕ
  block : ℤ
  deriving DecidableEq, Repr

/-- What `stbtbl_fill` gives back: its return code, `*bid` if it is written, and the bytes at the
place in the buffer it copies from. -/
structure FillResult where
  rc : ℤ
  bid : Option ℕ
  data : ℕ → UInt8

/-- `struct stiov3_fetch_data_t`, the header apart. -/
structure DataPacket where
  bid : ℕ
  len : ℕ
  data : ℕ → UInt8

namespace StbChannel

/-- The part of `stbtbl_setfile` under the mutex: the old file is closed and the new one opened. -/
def openFile (ch : StbChannel) (lookup : Lookup) (cnt : ℕ) : StbChannel :=
  let ch := { ch with fd := none, filecount := cnt }
  let ch :=
    match lookup with
    | .noStat _ => { ch with filesize := -1 }
    | .noOpen _ => { ch with filesize := -1 }
    | .found file _ =>
      { ch with
        fd := some ⟨file, 0⟩
        filestatus := .opened
        filesize := file.size
        blockcnt := blockCount file.size }
  { ch with err := lookup.errno, cdkioBlock := -1 }

/-- `stbtbl_setfile` for an entry in range. -/
def setfile (ch : StbChannel) (lookup : Lookup) (cnt : ℕ) (stbid : ℤ) :
    SetfileResult × StbChannel :=
  if ch.stbid = stbid ∧ ch.filecount = cnt then (⟨ch.filesize, some ch.err⟩, ch)
  else if ch.stbid = stbid ∧ ch.filecount > cnt then (⟨-1, none⟩, ch)
  else
    let ch := openFile { ch with stbid := stbid } lookup cnt
    (⟨ch.filesize, some ch.err⟩, ch)

/-- `stbtbl_setrequest` for an entry in range. -/
def setrequest (ch : StbChannel) (block : ℤ) (map : ℕ → UInt8) (qos : ℤ) : StbChannel :=
  { ch with
    map := map
    qos := qos
    requestBlock := block
    rdkioBlock := block.tdiv netioBlockPerDiskio
    netioBlock := block.tmod netioBlockPerDiskio }

/-- `stbtbl_is_file_matched` for an entry in range. -/
def isFileMatched (ch : StbChannel) (fc : ℕ) : Bool :=
  ch.filecount = fc

/-- The argument of `lseek`, computed as an `int`. -/
def seekOffset (ch : StbChannel) : ℤ :=
  Int.bmod (ch.rdkioBlock * bestDiskioBufferSize) (2 ^ 32)

/-- The part of `stbtbl_read` for a disk block that is not in the buffer. The offset is left alone
if the block is the one after the block in the buffer. -/
def readBlock (ch : StbChannel) (short : ℕ → ℕ) : StbChannel :=
  match ch.fd with
  | none => { ch with cdkioBlock := ch.rdkioBlock, buflen := 0 }
  | some fd =>
    let fd := if ch.rdkioBlock ≠ ch.cdkioBlock + 1 then fd.lseek ch.seekOffset else fd
    let result := readFull short fd ch.buffer bestDiskioBufferSize
    { ch with
      cdkioBlock := ch.rdkioBlock
      fd := some result.fd
      buffer := result.buffer
      buflen := result.rlen
      filestatus := if result.eof then .ended else ch.filestatus }

/-- `stbtbl_read` for an entry in range, the header of the packets apart. -/
def read (ch : StbChannel) (short : ℕ → ℕ) : StbChannel :=
  if ch.rdkioBlock ≠ ch.cdkioBlock then ch.readBlock short else ch

/-- Whether that read meets the end of the file. -/
def readMeetsEnd (ch : StbChannel) : Bool :=
  match ch.fd with
  | none => false
  | some fd =>
    let fd := if ch.rdkioBlock ≠ ch.cdkioBlock + 1 then fd.lseek ch.seekOffset else fd
    decide (ch.rdkioBlock ≠ ch.cdkioBlock) &&
      (readFull (fun _ ↦ 0) fd ch.buffer bestDiskioBufferSize).eof

/-- The `for` loop of `stbtbl_fill`: the first wanted packet from `start` on. -/
def nextWanted (ch : StbChannel) (start : ℕ) : Option ℕ :=
  (List.range' start (packetCount - start)).find? fun i ↦ decide (ch.map i ≠ 0)

/-- The length of packet `i`. It is computed from the length of the disk block, not of the network
block. -/
def packetLen (ch : StbChannel) (i : ℕ) : ℕ :=
  if i < ch.buflen / packetSize then packetSize else ch.buflen % packetSize

/-- The bytes from packet `i` of the requested network block on. -/
def packetData (ch : StbChannel) (i : ℕ) : ℕ → UInt8 :=
  fun j ↦ ch.buffer ((32768 * ch.netioBlock).toNat + packetSize * i + j)

/-- `stbtbl_fill` for an entry in range. The return code is the length of the packet, and `-1` if
there is no packet left or the length is `0`. -/
def fill (ch : StbChannel) (mapflag : Bool) : FillResult × StbChannel :=
  let start := if mapflag then 0 else ch.mapi + 1
  match ch.nextWanted start with
  | some i =>
    let rc : ℤ := if ch.packetLen i = 0 then -1 else ch.packetLen i
    (⟨rc, some i, ch.packetData i⟩, { ch with mapi := i })
  | none => (⟨-1, none, fun _ ↦ 0⟩, { ch with mapi := max start packetCount })

/-- The `do … while` loop of `streamio_v3_service`: `stbtbl_fill` until it returns no length, one
packet for each. -/
def fillLoop : ℕ → Bool → StbChannel → List DataPacket × StbChannel
  | 0, _, ch => ([], ch)
  | fuel + 1, mapflag, ch =>
    match ch.fill mapflag with
    | (⟨rc, some bid, data⟩, ch') =>
      if rc > 0 then
        let (packets, final) := fillLoop fuel false ch'
        (⟨bid, rc.toNat, data⟩ :: packets, final)
      else ([], ch')
    | (_, ch') => ([], ch')

/-- The packets sent in one pass of `streamio_v3_service` over a request, and what it leaves. Every
packet needs its own packet number, so `packetCount + 1` calls of `stbtbl_fill` are enough. -/
def servicePass (ch : StbChannel) (short : ℕ → ℕ) : List DataPacket × StbChannel :=
  fillLoop (packetCount + 1) true (ch.read short)

/-- `stbtbl_stop` for an entry in range. -/
def stop (ch : StbChannel) : StbChannel :=
  if ch.fd.isSome then { ch with fd := none, filestatus := .closed } else ch

/-- The channel counts as one with an open file. -/
def countsAsOpen (ch : StbChannel) : Bool :=
  ch.fd.isSome && ch.filestatus != .ended

end StbChannel

section Setfile

variable {ch : StbChannel} {cnt : ℕ} {stbid : ℤ} (lookup : Lookup)

theorem setfile_of_eq (hid : ch.stbid = stbid) (hcnt : ch.filecount = cnt) :
    ch.setfile lookup cnt stbid = (⟨ch.filesize, some ch.err⟩, ch) :=
  if_pos ⟨hid, hcnt⟩

theorem setfile_of_lt (hid : ch.stbid = stbid) (hcnt : cnt < ch.filecount) :
    ch.setfile lookup cnt stbid = (⟨-1, none⟩, ch) := by
  unfold StbChannel.setfile
  rw [if_neg fun h ↦ hcnt.ne' h.2, if_pos ⟨hid, hcnt⟩]

/-- A request that is not new leaves the entry alone. -/
theorem setfile_snd_of_le (hid : ch.stbid = stbid) (hcnt : cnt ≤ ch.filecount) :
    (ch.setfile lookup cnt stbid).2 = ch := by
  rcases hcnt.lt_or_eq with hlt | heq
  · rw [setfile_of_lt lookup hid hlt]
  · rw [setfile_of_eq lookup hid heq.symm]

end Setfile

/-- `struct stb_entry_t`. -/
structure StbEntry where
  stbSn : ℤ
  inuse : Bool
  addr : ℕ
  udp : ℤ
  channel : ℕ → StbChannel

/-- The table, with its counters of open files. -/
structure StbTable where
  count : ℕ
  stbent : ℕ → StbEntry
  stbOpendFile : UInt32
  stbOpendFileAll : UInt32

/-- What `new_stbtable_v3` leaves in an entry for a channel: `calloc` and the assignments after
it. -/
def newStbChannel : StbChannel where
  stbid := -1
  fd := none
  filestatus := .closed
  filesize := 0
  filecount := 0
  blockcnt := 0
  err := 0
  qos := 0
  requestBlock := 0
  rdkioBlock := 0
  cdkioBlock := 0
  netioBlock := 0
  map := fun _ ↦ 0
  mapi := 0
  buffer := fun _ ↦ 0
  buflen := 0

/-- `new_stbtable_v3` for `n` entries. -/
def newStbtable (n : ℕ) : StbTable where
  count := n
  stbent := fun _ ↦ ⟨0, false, 0, -1, fun _ ↦ newStbChannel⟩
  stbOpendFile := 0
  stbOpendFileAll := 0

namespace StbTable

/-- Replace what entry `n` holds for one channel. -/
def setChannel (t : StbTable) (n channel : ℕ) (ch : StbChannel) : StbTable :=
  { t with
    stbent := Function.update t.stbent n
      { t.stbent n with channel := Function.update (t.stbent n).channel channel ch } }

/-- `stbtbl_regist` of the address `addr` with slot `u` of the UDP table: the entry of the address,
or else the first free entry, whose files are forgotten. -/
def stbtblRegist (t : StbTable) (addr : ℕ) (u : ℤ) : ℤ × StbTable :=
  let same := (List.range t.count).find? fun i ↦ (t.stbent i).inuse && (t.stbent i).addr == addr
  let free := (List.range t.count).find? fun i ↦ !(t.stbent i).inuse
  match same, free with
  | some i, _ =>
    (i, { t with stbent := Function.update t.stbent i { t.stbent i with udp := u } })
  | none, some f =>
    let fresh (ch : StbChannel) : StbChannel :=
      { ch with fd := none, filesize := 0, filecount := 0 }
    (f, { t with
      stbent := Function.update t.stbent f
        { t.stbent f with
          inuse := true
          addr := addr
          udp := u
          channel := fun j ↦ fresh ((t.stbent f).channel j) } })
  | none, none => (-1, t)

/-- `1` for a condition that holds. -/
def oneIf (b : Bool) : UInt32 :=
  if b then 1 else 0

/-- `stbtbl_setfile`. -/
def stbtblSetfile (t : StbTable) (n channel : ℕ) (lookup : Lookup) (cnt : ℕ) (stbid : ℤ) :
    SetfileResult × StbTable :=
  if n < t.count then
    let ch := (t.stbent n).channel channel
    let (result, ch') := ch.setfile lookup cnt stbid
    if ch.stbid = stbid ∧ cnt ≤ ch.filecount then (result, t)
    else
      let opens := oneIf ch'.fd.isSome
      (result,
        { t.setChannel n channel ch' with
          stbOpendFile := t.stbOpendFile - oneIf ch.countsAsOpen + opens
          stbOpendFileAll := t.stbOpendFileAll + opens })
  else (⟨0, none⟩, t)

/-- `stbtbl_init`, for an entry whose buffers are allocated. -/
def stbtblInit (t : StbTable) (n : ℕ) (sn : ℤ) : StbTable :=
  if n < t.count then
    { t with stbent := Function.update t.stbent n { t.stbent n with stbSn := sn } }
  else t

/-- `stbtbl_is_file_matched`. -/
def stbtblIsFileMatched (t : StbTable) (n channel fc : ℕ) : Bool :=
  decide (n < t.count) && ((t.stbent n).channel channel).isFileMatched fc

/-- `stbtbl_setrequest`. -/
def stbtblSetrequest (t : StbTable) (n channel : ℕ) (block : ℤ) (map : ℕ → UInt8) (qos : ℤ) :
    StbTable :=
  if n < t.count then
    t.setChannel n channel (((t.stbent n).channel channel).setrequest block map qos)
  else t

/-- `stbtbl_read`, with the header it writes. -/
def stbtblRead (t : StbTable) (n channel : ℕ) (short : ℕ → ℕ) : Option FetchHeader × StbTable :=
  if n < t.count then
    let ch := (t.stbent n).channel channel
    (some ⟨(t.stbent n).stbSn, ch.filecount, ch.requestBlock⟩,
      { t.setChannel n channel (ch.read short) with
        stbOpendFile := t.stbOpendFile - oneIf ch.readMeetsEnd })
  else (none, t)

/-- `stbtbl_fill`. -/
def stbtblFill (t : StbTable) (n channel : ℕ) (mapflag : Bool) : FillResult × StbTable :=
  if n < t.count then
    let (result, ch) := ((t.stbent n).channel channel).fill mapflag
    (result, t.setChannel n channel ch)
  else (⟨-1, none, fun _ ↦ 0⟩, t)

end StbTable

/-! ### Sequences of calls -/

/-- A call of one of the operations of the table, with its arguments. -/
inductive StbEvent
  | setfile (n channel : ℕ) (lookup : Lookup) (cnt : ℕ) (stbid : ℤ)
  | setrequest (n channel : ℕ) (block : ℤ) (map : ℕ → UInt8) (qos : ℤ)
  | read (n channel : ℕ) (short : ℕ → ℕ)
  | fill (n channel : ℕ) (mapflag : Bool)

/-- The machine of these calls: a request is for a block of the file as the entry knows it, and a
read is one that finds an open file. -/
def stbStep (t : StbTable) : StbEvent → Option StbTable
  | .setfile n channel lookup cnt stbid => some (t.stbtblSetfile n channel lookup cnt stbid).2
  | .setrequest n channel block map qos =>
    if 0 ≤ block ∧ block < ((t.stbent n).channel channel).blockcnt then
      some (t.stbtblSetrequest n channel block map qos)
    else none
  | .read n channel short =>
    if n < t.count ∧ ((t.stbent n).channel channel).fd.isSome then
      some (t.stbtblRead n channel short).2
    else none
  | .fill n channel mapflag => some (t.stbtblFill n channel mapflag).2

end Katmai.StreamioV3
