import Katmai.StioEngine.PrefetchEngine

/-!
# The keep buffer of the prefetching engine

`set_keep_buffer` gives the engine of `stio_engine/prefetch.c` a second ring, `kbc`. While a file is
read for the first time, `prefetch_main` is to store the first blocks there, as many as the ring
holds, and to note in `kbuf_pos` how far they reach. After `pre_reset` it is to put these blocks
into the ring of the reader without reading the file, and to go on in the file behind them.

`KeepEngine` adds the keep buffer, `pre_reset` and the flags they use to the engine, and `keepStep`
is one step of it: `prefetch_main` starts and produces blocks with an eye on the keep buffer, and
every other step is one of the engine.
-/

set_option autoImplicit false
set_option relaxedAutoImplicit false

namespace Katmai.StioEngine

open Foundation Buffer

/-- `enable_kbuf`, from `0` to `2`: no keep buffer is used, the next pass stores, the next pass
replays. -/
inductive KeepMode
  | off
  | store
  | output
  deriving DecidableEq, Repr

/-- `kbc_state` of `prefetch_main`, from `0` to `3`. -/
inductive KbcState
  | unused
  | storing
  | finished
  | replaying
  deriving DecidableEq, Repr

/-- The engine with what belongs to the keep buffer, the name of the file that `pre_reset` would
open again, and the locals `kbc_state` and `fp_off` of `prefetch_main`. -/
structure KeepEngine where
  engine : Engine
  kbc : Option (BufferCache Block)
  knbuf : ℕ
  enableKbuf : KeepMode
  kbufPos : ℕ
  needReopen : Bool
  currentFile : String
  kbcState : KbcState
  fpOff : ℕ

/-- `new_stio_engine`, `prefetch (nbuf, bsize)` and `set_prefetch_buffer (pnbuf)`. -/
def newKeepEngine (nbuf bsize pnbuf : ℕ) (memory : KeepEngine) : KeepEngine :=
  { memory with
    engine := newEngine nbuf bsize pnbuf memory.engine
    kbc := none
    knbuf := 0
    enableKbuf := .off
    kbufPos := 0
    needReopen := false }

namespace KeepEngine

/-- `pub_set_keep_buffer`. The first call makes the ring, in memory that held `memory`; a later one
empties it, or says whether it is used. -/
def pubSetKeepBuffer (s : KeepEngine) (nbuf : ℤ) (memory : BufferCache Block) : KeepEngine :=
  match s.kbc with
  | some kbc =>
    if nbuf < 0 then { s with kbc := some kbc.bcCleanup }
    else { s with enableKbuf := if nbuf > 0 then .store else .off }
  | none =>
    if nbuf < 3 then s
    else if s.engine.inRunning then s
    else
      { s with
        kbc := some (newBufferCache nbuf.toNat memory)
        knbuf := nbuf.toNat
        enableKbuf := .off }

/-- The first lines of `prefetch_main`. -/
def beginPrefetchMain (s : KeepEngine) : KeepEngine :=
  let engine := s.engine.beginPrefetch
  match s.enableKbuf with
  | .off => { s with engine := engine, kbcState := .unused, fpOff := 0 }
  | .store =>
    { s with
      engine := engine
      kbc := s.kbc.map (·.bcTopReset)
      kbcState := .storing
      fpOff := 0 }
  | .output =>
    { s with
      engine := { engine with fd := fioSeek engine.fd s.kbufPos }
      kbc := s.kbc.map (·.bcTopReset)
      kbcState := .replaying
      fpOff := s.kbufPos }

/-- A block that was read is stored in the keep buffer, in a buffer from `c_tryreq`. -/
def storeKept (s : KeepEngine) (block : Block) : KeepEngine :=
  match s.kbc with
  | none => s
  | some kbc =>
    match kbc.bcConsumerTryRequest with
    | (some slot, kbc') =>
      { s with
        kbc := some ((kbc'.store slot ⟨block.rc, copyInto (kbc'.dkbuf slot).buffer 0
          block.rc.toNat block.buffer⟩).bcProducerReady.bcConsumerRelease)
        kbufPos := s.fpOff }
    | (none, kbc') => { s with kbc := some kbc', kbcState := .finished }

/-- What `prefetch_main` does with a block that it has read. -/
def keepBlock (s : KeepEngine) (block : Block) : KeepEngine :=
  if block.rc = 0 ∨ block.rc = -1 then s
  else
    let s := { s with fpOff := s.fpOff + block.rc.toNat }
    if s.kbcState = .storing then s.storeKept block else s

/-- An iteration of `prefetch_main` that does not replay. -/
def produceFile (s : KeepEngine) (short : ℕ → ℕ) (usePrevData : Bool) (pbcOff slot : ℕ)
    (bc : BufferCache Block) : KeepEngine :=
  let next := Engine.nextBlock short s.engine.fd s.engine.pbc s.engine.bsize usePrevData pbcOff
    (bc.dkbuf slot).buffer
  let produced := { s with engine := s.engine.produceBlock short usePrevData pbcOff slot bc }
  if s.engine.abortFlag then produced else produced.keepBlock next.block

/-- An iteration of `prefetch_main` that replays a block of the keep buffer. -/
def produceKept (s : KeepEngine) (usePrevData : Bool) (pbcOff slot : ℕ) (bc : BufferCache Block)
    (block : Block) (kbc : BufferCache Block) : KeepEngine :=
  { s with
    engine :=
      { s.engine with
        bc := (bc.store slot ⟨block.rc, copyInto (bc.dkbuf slot).buffer 0 block.rc.toNat
          block.buffer⟩).bcProducerReady
        producer := if block.rc > 0 then .running usePrevData pbcOff else .stopped
        inRunning := decide (block.rc > 0) }
    kbc := some kbc }

/-- An iteration of the loop of `prefetch_main`, which has got buffer `slot` of the ring. -/
def produceNext (s : KeepEngine) (short : ℕ → ℕ) (usePrevData : Bool) (pbcOff slot : ℕ)
    (bc : BufferCache Block) : KeepEngine :=
  if s.kbcState = .replaying then
    match s.kbc with
    | some kbc =>
      match kbc.bcTopTryRequest with
      | (some kept, kbc') => s.produceKept usePrevData pbcOff slot bc (kbc.dkbuf kept) kbc'
      | (none, kbc') =>
        { s with kbc := some kbc', kbcState := .finished }.produceFile short usePrevData pbcOff
          slot bc
    | none => { s with kbcState := .finished }.produceFile short usePrevData pbcOff slot bc
  else s.produceFile short usePrevData pbcOff slot bc

/-- `pre_reset`, when `prefetch_queue_main` is not running. `fio_reset` goes to the start of the
file, if one is open. -/
def preReset (s : KeepEngine) (fs : String → Option RegularFile) : KeepEngine :=
  let engine := { s.engine.preClose with stopPqPrefetch := true }
  let fd := if s.needReopen then (fs s.currentFile).map fun file ↦ ⟨file, 0⟩ else engine.fd
  { s with
    engine := { engine with fd := fioSeek fd 0 }.preOpenStep1
    needReopen := false
    enableKbuf := if s.enableKbuf = .off then .off else .output }

end KeepEngine

/-! ### Steps -/

/-- What can happen next: a call of `set_keep_buffer` or of `reset`, or a step of the engine. -/
inductive KeepEvent
  | setKeepBuffer (nbuf : ℤ) (memory : BufferCache Block)
  | reset
  | engine (event : EngineEvent)

/-- One step of the engine with a keep buffer. -/
def keepStep (fs : String → Option RegularFile) (s : KeepEngine) : KeepEvent → Option KeepEngine
  | .setKeepBuffer nbuf memory =>
    if s.engine.app = .idle then some (s.pubSetKeepBuffer nbuf memory) else none
  | .reset =>
    if s.engine.app = .idle ∧ s.engine.producer ≠ .starting ∧ s.engine.pq = .idle then
      some (s.preReset fs)
    else none
  | .engine .prefetchStart =>
    if s.engine.producer = .starting then some s.beginPrefetchMain else none
  | .engine (.produce short) =>
    match s.engine.producer with
    | .running usePrevData pbcOff =>
      s.engine.bc.bcProducerRequest.map fun grant ↦
        s.produceNext short usePrevData pbcOff grant.1 grant.2
    | _ => none
  | .engine (.open fname) =>
    (engineStep fs s.engine (.open fname)).map fun engine ↦
      { s with engine := engine, needReopen := false }
  | .engine .openGo =>
    (engineStep fs s.engine .openGo).map fun engine ↦
      { s with
        engine := engine
        enableKbuf :=
          if engine.fd.isSome ∧ s.enableKbuf ≠ .off then .store else s.enableKbuf }
  | .engine .pqBegin =>
    (engineStep fs s.engine .pqBegin).map fun engine ↦
      { s with engine := engine, needReopen := s.needReopen || s.engine.haveNextFile }
  | .engine event => (engineStep fs s.engine event).map fun engine ↦ { s with engine := engine }

end Katmai.StioEngine
