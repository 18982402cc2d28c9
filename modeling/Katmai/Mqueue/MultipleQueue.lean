import Katmai.Foundation.EventRun
import Katmai.Foundation.RingWindow
import Mathlib.Algebra.BigOperators.Group.Finset.Basic
import Mathlib.Logic.Function.Basic

/-!
# The multiple queue of `mqueue.c`

`mqueue/mqueue.c` keeps up to four rings of the same capacity, one per priority, and a table that
says for every value in which ring it waits and at which slot. A value that is enqueued at a better
priority than the one it waits at jumps: its old slot is overwritten with `-1`, a tombstone that
still counts in `use_cnt` until a dequeue pops it.

The two calls hold the queue's mutex, so they are functions of the whole state. `mqDequeue` runs the
`do … while (rc < 0)` loop of the source one iteration (`mqDequeueOnce`) at a time; its first
argument bounds the number of iterations, and it returns `none` when the bound is reached or when
the caller blocks in `pthread_cond_wait`. `mqStep` is the machine whose runs are the interleavings
of the two calls.
-/

set_option autoImplicit false
set_option relaxedAutoImplicit false

namespace Katmai.Mqueue

open Foundation

/-- `MAX_NUM_OF_MQUEUE`. -/
def maxNumOfMqueue : ℕ := 4

/-- `struct mq_location_t`: the queue and the slot of a value, `-1` for none. -/
structure MqLocation where
  q : ℤ
  i : ℤ
  deriving DecidableEq, Repr

/-- `struct multiple_queue_t`, without the mutex and the condition variable. The arrays are
functions of their index. -/
structure MultipleQueue where
  queue : ℕ → ℕ → ℤ
  location : ℕ → MqLocation
  maxValue : ℕ
  count : ℕ
  numberOfQueue : ℕ
  front : ℕ → ℕ
  rear : ℕ → ℕ
  useCnt : ℕ → ℕ
  inqueueCnt : ℕ

/-- `new_multiple_queue`: `n` values per queue, `nq` queues, values up to `maxv`. -/
def newMultipleQueue (n nq maxv : ℕ) : Option MultipleQueue :=
  if nq > maxNumOfMqueue ∨ nq < 1 then none
  else
    some
      { queue := fun _ _ ↦ 0
        location := fun _ ↦ ⟨-1, -1⟩
        maxValue := maxv
        count := n + 1
        numberOfQueue := nq
        front := fun _ ↦ 0
        rear := fun _ ↦ 0
        useCnt := fun _ ↦ 0
        inqueueCnt := 0 }

namespace MultipleQueue

/-- `self->queue[q][slot] = value`. -/
def setSlot (self : MultipleQueue) (q slot : ℕ) (value : ℤ) : MultipleQueue :=
  { self with queue := Function.update self.queue q (Function.update (self.queue q) slot value) }

/-- `self->location[n].q = q`. -/
def setLocationQ (self : MultipleQueue) (n : ℕ) (q : ℤ) : MultipleQueue :=
  { self with location := Function.update self.location n { self.location n with q := q } }

/-- `self->location[n].q = q; self->location[n].i = i`. -/
def setLocation (self : MultipleQueue) (n : ℕ) (q i : ℤ) : MultipleQueue :=
  { self with location := Function.update self.location n ⟨q, i⟩ }

/-- The stores of `mq_enqueue` that put `n` at the rear of queue `q`. -/
def putRear (self : MultipleQueue) (n q : ℕ) : MultipleQueue :=
  let self := self.setLocation n q (self.rear q)
  let self := self.setSlot q (self.rear q) n
  { self with
    rear := Function.update self.rear q ((self.rear q + 1) % self.count)
    useCnt := Function.update self.useCnt q (self.useCnt q + 1)
    inqueueCnt := self.inqueueCnt + 1 }

/-- `mq_enqueue`, whose return value is always `1`. The location is written before the capacity is
tested, so it is written also when the value does not enter the queue. -/
def mqEnqueue (self : MultipleQueue) (n q : ℕ) : MultipleQueue :=
  let i := (self.location n).q
  if i < 0 ∨ i > q then
    let self := self.setLocationQ n q
    if self.useCnt q < self.count - 1 then
      let self := if i > q then self.setSlot i.toNat (self.location n).i.toNat (-1) else self
      self.putRear n q
    else self
  else self

/-- The `for` loop of `mq_dequeue`: the lowest-numbered queue in use. -/
def firstBusy (self : MultipleQueue) : Option ℕ :=
  (List.range self.numberOfQueue).find? fun i ↦ decide (self.useCnt i > 0)

/-- The body of that loop: the front slot of queue `i` leaves the ring, and a value that is not a
tombstone is in no queue any more. -/
def popFront (self : MultipleQueue) (i : ℕ) : ℤ × MultipleQueue :=
  let rc := self.queue i (self.front i)
  let self :=
    { self with
      front := Function.update self.front i ((self.front i + 1) % self.count)
      useCnt := Function.update self.useCnt i (self.useCnt i - 1)
      inqueueCnt := self.inqueueCnt - 1 }
  (rc, if rc ≥ 0 then self.setLocationQ rc.toNat (-1) else self)

/-- One iteration of the `do … while` loop of `mq_dequeue`. -/
def mqDequeueOnce (self : MultipleQueue) : ℤ × MultipleQueue :=
  if self.inqueueCnt = 0 then (-1, self)
  else
    match self.firstBusy with
    | some i => self.popFront i
    | none => (-1, self)

/-- `mq_dequeue`, for at most `fuel` iterations. -/
def mqDequeue (wait : Bool) : ℕ → MultipleQueue → Option (ℤ × MultipleQueue)
  | 0, _ => none
  | fuel + 1, self =>
    if wait ∧ self.inqueueCnt = 0 then none
    else
      let (rc, self) := self.mqDequeueOnce
      if rc < 0 then mqDequeue wait fuel self else some (rc, self)

/-- `mq_is_empty`. -/
def mqIsEmpty (self : MultipleQueue) : Bool :=
  self.inqueueCnt = 0

end MultipleQueue

/-- What happens to a multiple queue under its mutex: a call of `mq_enqueue`, or one iteration of a
call of `mq_dequeue` with the `rc` it ends with. A call of `mq_dequeue` goes on iterating as long as
`rc` is negative and releases the mutex in between, so the iterations of several calls and the
enqueues of other threads come in any order. -/
inductive MqEvent
  | enqueue (n q : ℕ)
  | iterate (rc : ℤ)
  deriving DecidableEq, Repr

/-- The machine of these events, for enqueues in range. -/
def mqStep (self : MultipleQueue) : MqEvent → Option MultipleQueue
  | .enqueue n q =>
    if n ≤ self.maxValue ∧ q < self.numberOfQueue then some (self.mqEnqueue n q) else none
  | .iterate rc => if self.mqDequeueOnce.1 = rc then some self.mqDequeueOnce.2 else none

end Katmai.Mqueue
