import Katmai.Foundation.EventRun
import Katmai.Foundation.RingWindow
import Mathlib.Logic.Function.Basic

/-!
# The buffer cache of `buffer_cache.c`

`buffer_cache/buffer_cache.c` is a ring of disk buffers between the thread that fills them and the
thread that empties them. A buffer is handed out by `p_request`, given back full by `p_ready`,
handed out again by `c_request` and given back empty by `c_release`; which buffers are whose is
recorded only in the two counters `buf_free` and `buf_ready` and the two indices `front` and
`rear`.

Every call holds the mutex of the cache, so it is a function of the whole state. A call that would
wait on a condition variable is `none`. `bcFlush` is the loop of `bc_flush`, which takes and
releases one ready buffer per iteration, and `bcSetbuffer` is `bc_setbuffer` run without other
calls in between.

`BcSystem` adds the two parties: which slot each holds, and the slots published and received so
far, with their contents. `bcStep` is the machine whose runs are the interleavings of the calls.
-/

set_option autoImplicit false
set_option relaxedAutoImplicit false

namespace Katmai.Buffer

open Foundation

variable {α : Type*}

/-- `struct buffer_cache_t`, without the mutex, the condition variables and the table of functions.
`α` is what a `struct disk_buffer_t` holds. -/
structure BufferCache (α : Type*) where
  num : ℕ
  allocated : ℕ
  bufFree : ℕ
  bufReady : ℕ
  front : ℕ
  rear : ℕ
  top : ℕ
  topUsed : ℕ
  dkbuf : ℕ → α

namespace BufferCache

/-- `bc_num_buf_free`. -/
def bcNumBufFree (bc : BufferCache α) : ℕ :=
  bc.bufFree

/-- The slot at `front` is handed to the producer. -/
def takeFront (bc : BufferCache α) : ℕ × BufferCache α :=
  (bc.front, { bc with bufFree := bc.bufFree - 1, front := (bc.front + 1) % bc.num })

/-- `bc_producer_request`, `none` while the caller waits for a free buffer. -/
def bcProducerRequest (bc : BufferCache α) : Option (ℕ × BufferCache α) :=
  if bc.bufFree = 0 then none else some bc.takeFront

/-- `bc_producer_try_request`. -/
def bcProducerTryRequest (bc : BufferCache α) : Option ℕ × BufferCache α :=
  if bc.bufFree = 0 then (none, bc) else (some bc.takeFront.1, bc.takeFront.2)

/-- `bc_producer_ready`. -/
def bcProducerReady (bc : BufferCache α) : BufferCache α :=
  { bc with bufReady := bc.bufReady + 1 }

/-- The slot at `rear` is handed to the consumer. -/
def takeRear (bc : BufferCache α) : ℕ × BufferCache α :=
  (bc.rear, { bc with rear := (bc.rear + 1) % bc.num, bufReady := bc.bufReady - 1 })

/-- `bc_consumer_request`, `none` while the caller waits for a ready buffer. -/
def bcConsumerRequest (bc : BufferCache α) : Option (ℕ × BufferCache α) :=
  if bc.bufReady = 0 then none else some bc.takeRear

/-- `bc_consumer_try_request`. -/
def bcConsumerTryRequest (bc : BufferCache α) : Option ℕ × BufferCache α :=
  if bc.bufReady ≠ 0 then (some bc.takeRear.1, bc.takeRear.2) else (none, bc)

/-- `bc_consumer_release`. -/
def bcConsumerRelease (bc : BufferCache α) : BufferCache α :=
  { bc with bufFree := bc.bufFree + 1 }

/-- The loop of `bc_flush`, for at most `fuel` iterations. -/
def flushLoop : ℕ → BufferCache α → BufferCache α
  | 0, bc => bc
  | fuel + 1, bc =>
    match bc.bcConsumerTryRequest with
    | (some _, bc') => flushLoop fuel bc'.bcConsumerRelease
    | (none, bc') => bc'

/-- `bc_flush`, run without other calls in between: every iteration takes one ready buffer, so there
are at most `buf_ready` of them. -/
def bcFlush (bc : BufferCache α) : BufferCache α :=
  flushLoop bc.bufReady bc

/-- `bc_cleanup`. -/
def bcCleanup (bc : BufferCache α) : BufferCache α :=
  { bc with bufFree := bc.num, bufReady := 0, front := 0, rear := 0 }

/-- `bc_setbuffer`, which returns the new `num`. -/
def bcSetbuffer (bc : BufferCache α) (nbuf : ℤ) : BufferCache α :=
  let n := if nbuf ≤ 0 ∨ nbuf > bc.allocated then bc.allocated else nbuf.toNat
  if bc.num ≠ n ∧ n > 3 ∧ n ≤ bc.allocated then
    bcCleanup { bc.bcFlush with num := n }
  else bc.bcFlush

/-- `bc_top_try_request`. -/
def bcTopTryRequest (bc : BufferCache α) : Option ℕ × BufferCache α :=
  if bc.topUsed < bc.bufReady then
    (some bc.top, { bc with top := (bc.top + 1) % bc.num, topUsed := bc.topUsed + 1 })
  else (none, bc)

/-- `bc_top_reset`. -/
def bcTopReset (bc : BufferCache α) : BufferCache α :=
  { bc with top := bc.rear, topUsed := 0 }

/-- A store through the pointer to a buffer. -/
def store (bc : BufferCache α) (slot : ℕ) (content : α) : BufferCache α :=
  { bc with dkbuf := Function.update bc.dkbuf slot content }

end BufferCache

/-- `new_buffer_cache` for `n` buffers. The record comes from `malloc`, so what the function does
not set is whatever `memory` held. -/
def newBufferCache (n : ℕ) (memory : BufferCache α) : BufferCache α :=
  BufferCache.bcCleanup { memory with num := n, allocated := n }

/-! ### The two parties -/

/-- A buffer cache with its producer and its consumer: the slot each of them holds, whether a
`bc_flush` is going on, and the slots published by `p_ready` and received by the consumer since
ready buffers were last discarded, each with its content at that moment. -/
structure BcSystem (α : Type*) where
  bc : BufferCache α
  producer : Option ℕ
  consumer : Option ℕ
  flushing : Bool
  published : List (ℕ × α)
  received : List (ℕ × α)

/-- What happens to a buffer cache under its mutex, and the producer's stores into the buffer it
holds. `bc_flush` takes and releases one buffer after the other and lets the producer in between,
so its iterations are events. -/
inductive BcEvent (α : Type*)
  | pRequest
  | pTryreq
  | fill (content : α)
  | pReady
  | cRequest
  | cTryreq
  | cRelease
  | flush
  | flushTake
  | flushRelease
  | cleanup
  | setbuf (nbuf : ℤ)

namespace BcSystem

/-- A new buffer cache, before anyone calls it. -/
def start (n : ℕ) (memory : BufferCache α) : BcSystem α where
  bc := newBufferCache n memory
  producer := none
  consumer := none
  flushing := false
  published := []
  received := []

/-- The producer got the slot that a request returned. -/
def grantProducer (s : BcSystem α) (grant : ℕ × BufferCache α) : BcSystem α :=
  { s with bc := grant.2, producer := some grant.1 }

/-- The consumer got the slot that a request returned, with what it holds. -/
def grantConsumer (s : BcSystem α) (grant : ℕ × BufferCache α) : BcSystem α :=
  { s with
    bc := grant.2
    consumer := some grant.1
    received := s.received ++ [(grant.1, s.bc.dkbuf grant.1)] }

/-- A flush got the slot that a request returned: the first ready buffer is discarded, and the
books go on with the others. -/
def grantFlush (s : BcSystem α) (grant : ℕ × BufferCache α) : BcSystem α :=
  { s with
    bc := grant.2
    consumer := some grant.1
    published := s.published.drop (s.received.length + 1)
    received := [] }

/-- All ready buffers are discarded. -/
def discard (s : BcSystem α) (bc : BufferCache α) : BcSystem α :=
  { s with bc := bc, published := [], received := [] }

/-- Neither side holds a buffer, and no flush is going on. -/
def idle (s : BcSystem α) : Bool :=
  s.producer.isNone && s.consumer.isNone && !s.flushing

end BcSystem

open BcSystem BufferCache

/-- One event of a buffer cache with one producer and one consumer, each of which asks for a buffer
only when it holds none. -/
def bcStep (s : BcSystem α) : BcEvent α → Option (BcSystem α)
  | .pRequest =>
    if s.producer = none then s.bc.bcProducerRequest.map s.grantProducer else none
  | .pTryreq =>
    if s.producer = none then
      match s.bc.bcProducerTryRequest with
      | (some slot, bc') => some (s.grantProducer (slot, bc'))
      | (none, bc') => some { s with bc := bc' }
    else none
  | .fill content =>
    match s.producer with
    | some slot => some { s with bc := s.bc.store slot content }
    | none => none
  | .pReady =>
    match s.producer with
    | some slot =>
      some
        { s with
          bc := s.bc.bcProducerReady
          producer := none
          published := s.published ++ [(slot, s.bc.dkbuf slot)] }
    | none => none
  | .cRequest =>
    if s.consumer = none ∧ s.flushing = false then
      s.bc.bcConsumerRequest.map s.grantConsumer
    else none
  | .cTryreq =>
    if s.consumer = none ∧ s.flushing = false then
      match s.bc.bcConsumerTryRequest with
      | (some slot, bc') => some (s.grantConsumer (slot, bc'))
      | (none, bc') => some { s with bc := bc' }
    else none
  | .cRelease =>
    if s.consumer ≠ none ∧ s.flushing = false then
      some { s with bc := s.bc.bcConsumerRelease, consumer := none }
    else none
  | .flush => if s.idle then some { s with flushing := true } else none
  | .flushTake =>
    if s.consumer = none ∧ s.flushing = true then
      match s.bc.bcConsumerTryRequest with
      | (some slot, bc') => some (s.grantFlush (slot, bc'))
      | (none, bc') => some { s with bc := bc', flushing := false }
    else none
  | .flushRelease =>
    if s.consumer ≠ none ∧ s.flushing = true then
      some { s with bc := s.bc.bcConsumerRelease, consumer := none }
    else none
  | .cleanup => if s.idle then some (s.discard s.bc.bcCleanup) else none
  | .setbuf nbuf => if s.idle then some (s.discard (s.bc.bcSetbuffer nbuf)) else none

end Katmai.Buffer
