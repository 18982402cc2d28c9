import Katmai.Foundation.CallRun
import Katmai.Foundation.SortSearch

/-!
# The queue of `pqueue.c`

`pqueue/pqueue.c` keeps integers in one array of `n + 1` slots. Without a priority callback the
array is a ring between `front` and `rear` (FIFO mode); with one, its first `use_cnt` slots are kept
sorted by the callback (priority mode). Both modes refuse a value that is present already.

The calls hold the queue's mutex and are functions of the whole state. They are `none` where the
C program does not return or is undefined: an index outside the array, a `bsearch` or `qsort`
outside its specification, a `pq_dequeue` that waits while nobody enqueues. The memory that
`new_priority_queue` asks for is taken to be there.
-/

set_option autoImplicit false
set_option relaxedAutoImplicit false

namespace Katmai.Pqueue

open Foundation

/-- `struct priority_queue_t`, without the mutex and the condition variable. -/
structure PriorityQueue where
  queue : List ℤ
  count : ℕ
  front : ℕ
  rear : ℕ
  useCnt : ℕ
  priorityCallback : Option (ℤ → ℤ → ℤ)

/-- `new_priority_queue`. -/
def newPriorityQueue (n : ℕ) (func : Option (ℤ → ℤ → ℤ)) : PriorityQueue where
  queue := List.replicate (n + 1) 0
  count := n + 1
  front := 0
  rear := 0
  useCnt := 0
  priorityCallback := func

/-- `self->queue[i] = n`. -/
def PriorityQueue.store (self : PriorityQueue) (i : ℕ) (n : ℤ) : Option PriorityQueue :=
  if i < self.queue.length then some { self with queue := self.queue.set i n } else none

/-- The `do … while (i != rear)` loop of `pq_enqueue`: whether a slot from `i` on holds `n`. The
first argument bounds the number of iterations. -/
def findFrom (self : PriorityQueue) (n : ℤ) : ℕ → ℕ → Option Bool
  | 0, _ => none
  | fuel + 1, i => do
    let slot ← self.queue[i]?
    if slot = n then some true
    else
      let i := (i + 1) % self.count
      if i ≠ self.rear then findFrom self n fuel i else some false

/-- `self->queue[self->rear] = n`, and the two counters after it. -/
def putRear (self : PriorityQueue) (n : ℤ) : Option PriorityQueue := do
  let self ← self.store self.rear n
  some { self with rear := (self.rear + 1) % self.count, useCnt := self.useCnt + 1 }

/-- `pq_enqueue` without a priority callback. -/
def enqueueFifo (self : PriorityQueue) (n : ℤ) : Option (ℤ × PriorityQueue) :=
  if self.front = self.rear then (putRear self n).map fun self ↦ (1, self)
  else do
    let found ← findFrom self n self.count self.front
    if found then some (1, self)
    else if self.useCnt < self.count - 1 then (putRear self n).map fun self ↦ (1, self)
    else some (0, self)

/-- `pq_enqueue` with a priority callback. The new value is stored in slot `++use_cnt`, and then the
first `use_cnt` slots are sorted. -/
def enqueuePriority (self : PriorityQueue) (cmp : ℤ → ℤ → ℤ) (n : ℤ) :
    Option (ℤ × PriorityQueue) :=
  if self.useCnt = 0 then do
    let self ← self.store 0 n
    some (1, { self with useCnt := self.useCnt + 1 })
  else do
    let found ← bsearch cmp n (self.queue.take self.useCnt)
    if found then some (1, self)
    else if self.useCnt < self.count - 1 then do
      let self ← { self with useCnt := self.useCnt + 1 }.store (self.useCnt + 1) n
      let sorted ← qsort cmp (self.queue.take self.useCnt)
      some (1, { self with queue := sorted ++ self.queue.drop self.useCnt })
    else some (0, self)

/-- `pq_enqueue`. -/
def pqEnqueue (self : PriorityQueue) (n : ℤ) : Option (ℤ × PriorityQueue) :=
  match self.priorityCallback with
  | none => enqueueFifo self n
  | some cmp => enqueuePriority self cmp n

/-- `pq_dequeue`. -/
def pqDequeue (self : PriorityQueue) (wait : Bool) : Option (ℤ × PriorityQueue) :=
  if self.useCnt = 0 then
    if wait then none else some (-1, self)
  else
    match self.priorityCallback with
    | none => do
      let rc ← self.queue[self.front]?
      some (rc, { self with front := (self.front + 1) % self.count, useCnt := self.useCnt - 1 })
    | some _ => do
      let rc ← self.queue[self.useCnt - 1]?
      some (rc, { self with useCnt := self.useCnt - 1 })

/-- A call to a queue. -/
inductive PqCall where
  | enqueue (n : ℤ)
  | dequeue (wait : Bool)
  deriving DecidableEq

/-- A call through the function pointers of a queue. -/
def pqCall (self : PriorityQueue) : PqCall → Option (ℤ × PriorityQueue)
  | .enqueue n => pqEnqueue self n
  | .dequeue wait => pqDequeue self wait

end Katmai.Pqueue
