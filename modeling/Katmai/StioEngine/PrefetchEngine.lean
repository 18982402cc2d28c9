import Katmai.Buffer.BufferCache
import Katmai.Foundation.PlainFile

/-!
# The prefetching `stio_engine`

`stio_engine/prefetch.c` puts a ring of buffers between the file and the reader. A thread,
`prefetch_main`, fills the ring from the file that `open` has opened, and `pre_read` empties it. A
second thread, `prefetch_queue_main`, is started by `start_pq_prefetch`: it opens the file that
`open_next` has announced and fills a second ring, `pbc`, with its first blocks, so that
`prefetch_main` finds them there when that file is opened. Both threads and the reader use one
descriptor, and every `open` of the backend first closes what is open, which ends `prefetch_main`
and empties the ring.

The backend is that of plain files (`fio_*`), without plugin, keep buffer and repeat. `Engine` is
the state with the places of the three threads, and `engineStep` one step of one of them.
`pre_read`, `pre_open` and the iterations of the two loops are cut where they may wait.

`opened`, `pbcFile`, `pbcUsed` and `log` are books that no function reads: the file of the last
`open`, the file of which the blocks in `pbc` are, whether `prefetch_main` has used them, and the
results of `pre_read`. `Plain` is what the engine is for: a reader of plain files, which ignores
everything that is about the next file.
-/

set_option autoImplicit false
set_option relaxedAutoImplicit false

namespace Katmai.StioEngine

open Foundation Buffer

/-- `struct disk_buffer_t`: the number of bytes in the buffer, `0` or less at the end of the
file. -/
structure Block where
  rc : ℤ
  buffer : ℕ → UInt8

/-- Where `prefetch_main` is: not running, created, or in its loop, with `use_prev_data` and
`pbc_off`. -/
inductive Producer
  | stopped
  | starting
  | running (usePrevData : Bool) (pbcOff : ℕ)
  deriving DecidableEq, Repr

/-- Where `prefetch_queue_main` is: not running, created, in its loop, behind it, or behind the
store to `in_pq_prefetch`. -/
inductive PqThread
  | idle
  | started
  | loop
  | leaving
  | done
  deriving DecidableEq, Repr

/-- A `pre_read` of `len` bytes: how many it still wants, what it has got, and whether it returns
`-1`. -/
structure Reading where
  len : ℕ
  rlen : ℕ
  got : List UInt8
  failed : Bool
  deriving DecidableEq, Repr

/-- Where the thread of the application is: in no call, in `pre_open` before the file is opened, in
`stop_pq_prefetch` or `start_pq_prefetch`, or in `pre_read`. -/
inductive App
  | idle
  | opening (fname : String)
  | stopping (restart : Bool)
  | reading (r : Reading)
  deriving DecidableEq, Repr

/-- A result of `pre_read` after an `open` of `fname`. -/
structure ReadReturn where
  fname : String
  len : ℕ
  rc : ℤ
  bytes : List UInt8
  deriving DecidableEq, Repr

/-- The fields of `struct stio_engine_pd_t` and `struct stio_engine_prefetch_t`, the places of the
threads, and the books. -/
structure Engine where
  fd : Option OpenFile
  abortFlag : Bool
  inPqPrefetch : Bool
  haveNextFile : Bool
  haveNextPrecache : Bool
  nextFile : String
  bc : BufferCache Block
  pbc : BufferCache Block
  bsize : ℕ
  tmpbuff : ℕ → UInt8
  tmpbsize : ℤ
  tmpbidx : ℕ
  inRunning : Bool
  alreadyPqPrefetch : Bool
  stopPqPrefetch : Bool
  producer : Producer
  pq : PqThread
  app : App
  opened : Option String
  pbcFile : Option String
  pbcUsed : Bool
  log : List ReadReturn

/-- `new_stio_engine`, `prefetch (nbuf, bsize)` and `set_prefetch_buffer (pnbuf)`, in memory that
held `memory`. -/
def newEngine (nbuf bsize pnbuf : ℕ) (memory : Engine) : Engine :=
  { memory with
    fd := none
    abortFlag := false
    inPqPrefetch := false
    haveNextFile := false
    haveNextPrecache := false
    bc := newBufferCache nbuf memory.bc
    pbc := newBufferCache pnbuf memory.pbc
    bsize := bsize
    tmpbsize := 0
    tmpbidx := 0
    inRunning := false
    alreadyPqPrefetch := false
    stopPqPrefetch := false
    producer := .stopped
    pq := .idle
    app := .idle
    opened := none
    pbcFile := none
    pbcUsed := false
    log := [] }

/-- `n` bytes of a buffer. -/
def bytesAt (buffer : ℕ → UInt8) (start n : ℕ) : List UInt8 :=
  (List.range n).map fun j ↦ buffer (start + j)

/-- What `fio_read` gives: the return code, the buffer and the descriptor. -/
structure FioRead where
  rlen : ℤ
  buffer : ℕ → UInt8
  fd : Option OpenFile

/-- `fio_read`. -/
def fioRead (short : ℕ → ℕ) (fd : Option OpenFile) (buffer : ℕ → UInt8) (len : ℕ) : FioRead :=
  match fd with
  | none => ⟨-1, buffer, none⟩
  | some fd =>
    let result := readFull short fd buffer len
    ⟨result.rlen, result.buffer, some result.fd⟩

/-- `fio_seek`. -/
def fioSeek (fd : Option OpenFile) (pos : ℕ) : Option OpenFile :=
  fd.map fun fd ↦ fd.lseek pos

namespace Engine

/-! ### The application -/

/-- `pre_close`, which ends `prefetch_main` and waits for a `pre_read` that is going on in another
thread. That one finds the mark `-1` and returns; blocks that it may take from the ring while
`pre_close` waits are left out. -/
def preClose (s : Engine) : Engine :=
  { s with
    abortFlag := true
    bc := s.bc.bcFlush.bcCleanup
    producer := .stopped
    inRunning := false
    tmpbsize := -1
    fd := none
    app :=
      match s.app with
      | .reading r => .reading { r with rlen := 0 }
      | app => app }

/-- `pre_open_step1`. -/
def preOpenStep1 (s : Engine) : Engine :=
  { s with
    tmpbsize := 0
    abortFlag := false
    inRunning := true
    bc := s.bc.bcCleanup
    producer := .starting }

/-- `pub_open_next`. The name is cut to what `next_file` holds; a character stands for a byte. -/
def pubOpenNext (s : Engine) (fname : String) : Engine :=
  { s with haveNextFile := true, nextFile := String.ofList (fname.toList.take 127) }

/-- `pre_open` up to its wait. -/
def beginOpen (s : Engine) (fname : String) : Engine :=
  if s.haveNextFile ∧ fname ≠ s.nextFile then
    { s with haveNextPrecache := false, stopPqPrefetch := true, app := .opening fname }
  else { s with app := .opening fname }

/-- `pre_open` after its wait. -/
def endOpen (s : Engine) (fs : String → Option RegularFile) (fname : String) : Engine :=
  let s := { s with haveNextFile := false, app := .idle }.preClose
  match fs fname with
  | none => { s with opened := none }
  | some file => { s with fd := some ⟨file, 0⟩, opened := some fname }.preOpenStep1

/-- The part of `pre_read` before its loop. -/
def beginRead (s : Engine) (len : ℕ) : Engine :=
  if s.abortFlag = true ∨ s.tmpbsize < 0 then { s with app := .reading ⟨len, 0, [], true⟩ }
  else if s.tmpbsize > len then
    { s with
      tmpbidx := s.tmpbidx + len
      tmpbsize := s.tmpbsize - len
      app := .reading ⟨len, 0, bytesAt s.tmpbuff s.tmpbidx len, false⟩ }
  else if s.tmpbsize > 0 then
    { s with
      tmpbidx := 0
      tmpbsize := 0
      app := .reading ⟨len, len - s.tmpbsize.toNat,
        bytesAt s.tmpbuff s.tmpbidx s.tmpbsize.toNat, false⟩ }
  else { s with app := .reading ⟨len, len, [], false⟩ }

/-- An iteration of the loop of `pre_read` that has got `block`. -/
def takeBlock (s : Engine) (r : Reading) (block : Block) : Engine :=
  if block.rc ≤ 0 then { s with tmpbsize := -1, app := .reading { r with rlen := 0 } }
  else if block.rc > r.rlen then
    { s with
      tmpbidx := 0
      tmpbsize := block.rc - r.rlen
      tmpbuff := copyInto s.tmpbuff 0 (block.rc - r.rlen).toNat fun j ↦ block.buffer (r.rlen + j)
      app := .reading { r with got := r.got ++ bytesAt block.buffer 0 r.rlen, rlen := 0 } }
  else
    { s with
      app := .reading
        { r with
          got := r.got ++ bytesAt block.buffer 0 block.rc.toNat
          rlen := r.rlen - block.rc.toNat } }

/-- `pre_read` returns. -/
def endRead (s : Engine) (r : Reading) : Engine :=
  { s with
    app := .idle
    log :=
      match s.opened with
      | some fname => s.log ++ [⟨fname, r.len, if r.failed then -1 else r.got.length, r.got⟩]
      | none => s.log }

/-! ### `prefetch_main` -/

/-- The first lines of `prefetch_main`. -/
def beginPrefetch (s : Engine) : Engine :=
  { s with
    producer := .running s.alreadyPqPrefetch 0
    alreadyPqPrefetch := false
    inRunning := true
    pbcUsed := s.pbcUsed || s.alreadyPqPrefetch }

/-- What an iteration of `prefetch_main` gets: the block, and what it leaves. -/
structure Iteration where
  block : Block
  fd : Option OpenFile
  pbc : BufferCache Block
  usePrevData : Bool
  pbcOff : ℕ

/-- A block that is read from the file. -/
def fileBlock (short : ℕ → ℕ) (fd : Option OpenFile) (pbc : BufferCache Block) (bsize pbcOff : ℕ)
    (buffer : ℕ → UInt8) : Iteration :=
  let result := fioRead short fd buffer bsize
  ⟨⟨result.rlen, result.buffer⟩, result.fd, pbc, false, pbcOff⟩

/-- The block of an iteration: from `pbc` as long as it has one, and then from the file, behind the
blocks of `pbc`. -/
def nextBlock (short : ℕ → ℕ) (fd : Option OpenFile) (pbc : BufferCache Block) (bsize : ℕ)
    (usePrevData : Bool) (pbcOff : ℕ) (buffer : ℕ → UInt8) : Iteration :=
  if usePrevData then
    match pbc.bcConsumerTryRequest with
    | (some slot, pbc') =>
      let prev := pbc.dkbuf slot
      if prev.rc > 0 then
        ⟨⟨prev.rc, copyInto buffer 0 prev.rc.toNat prev.buffer⟩, fd, pbc', true,
          pbcOff + prev.rc.toNat⟩
      else if prev.rc = 0 then fileBlock short (fioSeek fd pbcOff) pbc' bsize pbcOff buffer
      else ⟨⟨prev.rc, buffer⟩, fd, pbc', true, pbcOff⟩
    | (none, pbc') => fileBlock short (fioSeek fd pbcOff) pbc' bsize pbcOff buffer
  else fileBlock short fd pbc bsize pbcOff buffer

/-- An iteration of the loop of `prefetch_main`, which has got buffer `slot` of the ring. -/
def produceBlock (s : Engine) (short : ℕ → ℕ) (usePrevData : Bool) (pbcOff slot : ℕ)
    (bc : BufferCache Block) : Engine :=
  if s.abortFlag then
    { s with
      bc := (bc.store slot ⟨-1, (bc.dkbuf slot).buffer⟩).bcProducerReady
      producer := .stopped
      inRunning := false }
  else
    let next := nextBlock short s.fd s.pbc s.bsize usePrevData pbcOff (bc.dkbuf slot).buffer
    { s with
      bc := (bc.store slot next.block).bcProducerReady
      fd := next.fd
      pbc := next.pbc
      producer :=
        if next.block.rc > 0 then .running next.usePrevData next.pbcOff else .stopped
      inRunning := decide (next.block.rc > 0) }

/-! ### `prefetch_queue_main` -/

/-- `prefetch_queue_main` up to its loop. -/
def beginPq (s : Engine) (fs : String → Option RegularFile) : Engine :=
  let s := { s with stopPqPrefetch := false, alreadyPqPrefetch := false, inPqPrefetch := true }
  if s.haveNextFile then
    let s := { s with haveNextPrecache := false }.preClose
    match fs s.nextFile with
    | none => { s with pq := .leaving }
    | some file =>
      { s with
        fd := some ⟨file, 0⟩
        pbc := s.pbc.bcCleanup
        pq := .loop
        pbcFile := some s.nextFile
        pbcUsed := false }
  else { s with pq := .leaving }

/-- An iteration of its loop. A block that is not full is not made ready. -/
def pqBlock (s : Engine) (short : ℕ → ℕ) : Engine :=
  match s.pbc.bcProducerTryRequest with
  | (none, pbc) => { s with pbc := pbc, pq := .leaving }
  | (some slot, pbc) =>
    let result := fioRead short s.fd (pbc.dkbuf slot).buffer s.bsize
    if result.rlen = s.bsize then
      { s with
        haveNextPrecache := true
        fd := result.fd
        pbc := (pbc.store slot ⟨result.rlen, result.buffer⟩).bcProducerReady
        pq := if s.stopPqPrefetch then .leaving else .loop }
    else
      { s with
        haveNextPrecache := true
        fd := result.fd
        pbc := pbc.store slot ⟨0, result.buffer⟩
        pq := .leaving }

/-- The last lines of `prefetch_queue_main`. -/
def endPq (s : Engine) : Engine :=
  { s with
    alreadyPqPrefetch := !s.stopPqPrefetch || s.alreadyPqPrefetch
    stopPqPrefetch := false
    pq := .idle }

end Engine

/-! ### Steps -/

/-- What can happen next, in the thread of the application, in `prefetch_main`, or in
`prefetch_queue_main`. -/
inductive EngineEvent
  | openNext (fname : String)
  | startPq
  | stopPq
  | stopDone
  | open (fname : String)
  | openGo
  | close
  | readBegin (len : ℕ)
  | readTake
  | readEnd
  | prefetchStart
  | produce (short : ℕ → ℕ)
  | pqSkip
  | pqBegin
  | pqRead (short : ℕ → ℕ)
  | pqLeave
  | pqFinish

/-- One step of the engine. A call that closes the file waits for `prefetch_main`, and a thread
that was told to stop before it began does not begin. -/
def engineStep (fs : String → Option RegularFile) (s : Engine) : EngineEvent → Option Engine
  | .openNext fname => if s.app = .idle then some (s.pubOpenNext fname) else none
  | .startPq =>
    if s.app = .idle then some { s with stopPqPrefetch := true, app := .stopping true } else none
  | .stopPq =>
    if s.app = .idle then some { s with stopPqPrefetch := true, app := .stopping false } else none
  | .stopDone =>
    match s.app with
    | .stopping restart =>
      if s.pq = .idle then
        some { s with app := .idle, pq := if restart then .started else .idle }
      else none
    | _ => none
  | .open fname => if s.app = .idle then some (s.beginOpen fname) else none
  | .openGo =>
    match s.app with
    | .opening fname =>
      if s.producer = .starting ∨ (s.haveNextFile = true ∧ s.inPqPrefetch = true) then none
      else some (s.endOpen fs fname)
    | _ => none
  | .close =>
    if s.app = .idle ∧ s.producer ≠ .starting then some { s.preClose with opened := none }
    else none
  | .readBegin len => if s.app = .idle then some (s.beginRead len) else none
  | .readTake =>
    match s.app with
    | .reading r =>
      if r.rlen = 0 then none
      else
        match s.bc.bcConsumerRequest with
        | some (slot, bc) =>
          some ({ s with bc := bc.bcConsumerRelease }.takeBlock r (s.bc.dkbuf slot))
        | none => none
    | _ => none
  | .readEnd =>
    match s.app with
    | .reading r => if r.rlen = 0 then some (s.endRead r) else none
    | _ => none
  | .prefetchStart => if s.producer = .starting then some s.beginPrefetch else none
  | .produce short =>
    match s.producer with
    | .running usePrevData pbcOff =>
      match s.bc.bcProducerRequest with
      | some (slot, bc) => some (s.produceBlock short usePrevData pbcOff slot bc)
      | none => none
    | _ => none
  | .pqSkip =>
    match s.app with
    | .stopping _ => if s.pq = .started then some { s with pq := .idle } else none
    | _ => none
  | .pqBegin =>
    if s.pq = .started ∧ (s.haveNextFile = true → s.producer ≠ .starting) then some (s.beginPq fs)
    else none
  | .pqRead short => if s.pq = .loop then some (s.pqBlock short) else none
  | .pqLeave => if s.pq = .leaving then some { s with inPqPrefetch := false, pq := .done } else none
  | .pqFinish => if s.pq = .done then some s.endPq else none

/-! ### The reader of plain files -/

/-- A reader of plain files: the open file with its name, the name of an `open` and the length of a
`read` that are going on, the offset, and whether the end of the file has been met. -/
structure Plain where
  file : Option RegularFile
  fname : String
  pending : String
  want : ℕ
  pos : ℕ
  eof : Bool
  log : List ReadReturn

/-- A reader that has opened nothing. -/
def newPlain : Plain := ⟨none, "", "", 0, 0, false, []⟩

/-- The result of a `read` at an offset: the bytes from there on, as many as are wanted and left,
and `-1` once the end of the file has been met. -/
def Plain.read (plain : Plain) (file : RegularFile) : Plain :=
  if plain.eof then { plain with log := plain.log ++ [⟨plain.fname, plain.want, -1, []⟩] }
  else
    let n := min plain.want (file.size - plain.pos)
    { plain with
      pos := plain.pos + n
      eof := decide (n < plain.want)
      log := plain.log ++ [⟨plain.fname, plain.want, n, bytesAt file.byte plain.pos n⟩] }

/-- One step of the reader. What is about the next file, and the steps of the threads, are
ignored. -/
def plainStep (fs : String → Option RegularFile) (plain : Plain) : EngineEvent → Option Plain
  | .open fname => some { plain with pending := fname }
  | .openGo =>
    some { plain with file := fs plain.pending, fname := plain.pending, pos := 0, eof := false }
  | .close => some { plain with file := none }
  | .readBegin len => some { plain with want := len }
  | .readEnd =>
    match plain.file with
    | some file => some (plain.read file)
    | none => some plain
  | .openNext _ => some plain
  | .startPq => some plain
  | .stopPq => some plain
  | .stopDone => some plain
  | .readTake => some plain
  | .prefetchStart => some plain
  | .produce _ => some plain
  | .pqSkip => some plain
  | .pqBegin => some plain
  | .pqRead _ => some plain
  | .pqLeave => some plain
  | .pqFinish => some plain

end Katmai.StioEngine
