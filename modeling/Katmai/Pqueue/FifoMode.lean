import Katmai.Foundation.RingWindow
import Katmai.Pqueue.PriorityQueue

/-!
# Without a callback the queue is a bounded FIFO of different integers

`BoundedFifo n` is what the queue is for: at most `n` pairwise different integers in the order of
their arrival. `fifoCall` are the two calls to it. The ring of the implementation holds such a list
in the window of `use_cnt` slots from `front` on (`HoldsFifo`). Emptiness is tested by
`front = rear` and fullness by `use_cnt`; the two agree because the ring has one slot more than it
may hold values, so that a window never closes on itself (`HoldsFifo.front_eq_rear_iff`).

One lemma per call shows that it is answered as the FIFO answers it (`pqEnqueue_of_holdsFifo`,
`pqDequeue_of_holdsFifo`); `pq_refines_bounded_fifo` is the result for every list of calls.
-/

set_option autoImplicit false
set_option relaxedAutoImplicit false

namespace Katmai.Pqueue

open Foundation

/-! ### The abstract queue -/

/-- At most `n` pairwise different integers, the oldest first. -/
structure BoundedFifo (n : ℕ) where
  items : List ℤ
  nodup : items.Nodup
  length_le : items.length ≤ n

namespace BoundedFifo

variable {n : ℕ}

/-- The empty queue. -/
def empty (n : ℕ) : BoundedFifo n :=
  ⟨[], List.nodup_nil, Nat.zero_le n⟩

/-- A new value joins the end of a queue that has room. -/
def append (q : BoundedFifo n) (v : ℤ) (hnew : v ∉ q.items) (hroom : q.items.length < n) :
    BoundedFifo n where
  items := q.items ++ [v]
  nodup := q.nodup.append (List.nodup_singleton v) (List.disjoint_singleton.mpr hnew)
  length_le := by simpa [Nat.succ_le_iff] using hroom

/-- The oldest value leaves. -/
def dropOldest (q : BoundedFifo n) : BoundedFifo n where
  items := q.items.tail
  nodup := q.nodup.tail
  length_le := by
    have hle := q.length_le
    rw [List.length_tail]
    omega

end BoundedFifo

/-- A call to the abstract queue: its answer, and the queue after it. -/
def fifoCall {n : ℕ} (q : BoundedFifo n) : PqCall → ℤ × BoundedFifo n
  | .enqueue v =>
    if hnew : v ∉ q.items then
      if hroom : q.items.length < n then (1, q.append v hnew hroom) else (0, q)
    else (1, q)
  | .dequeue _ => (q.items.head?.getD (-1), q.dropOldest)

/-- A call does not wait for a value: it waits only on a queue that holds one. -/
def NoWait {n : ℕ} (q : BoundedFifo n) : PqCall → Prop
  | .enqueue _ => True
  | .dequeue wait => wait = true → q.items ≠ []

instance {n : ℕ} (q : BoundedFifo n) (c : PqCall) : Decidable (NoWait q c) :=
  match c with
  | .enqueue _ => .isTrue trivial
  | .dequeue wait => inferInstanceAs (Decidable (wait = true → q.items ≠ []))

section FifoCall

variable {n : ℕ} {q : BoundedFifo n} {v : ℤ}

theorem fifoCall_present (hmem : v ∈ q.items) : fifoCall q (.enqueue v) = (1, q) := by
  simp [fifoCall, hmem]

theorem fifoCall_append (hnew : v ∉ q.items) (hroom : q.items.length < n) :
    fifoCall q (.enqueue v) = (1, q.append v hnew hroom) := by
  simp [fifoCall, hnew, hroom]

theorem fifoCall_full (hnew : v ∉ q.items) (hfull : ¬ q.items.length < n) :
    fifoCall q (.enqueue v) = (0, q) := by
  simp [fifoCall, hnew, hfull]

end FifoCall

/-! ### The ring -/

/-- The slots in use, in order: `use_cnt` slots from `front` on. -/
def PriorityQueue.window (self : PriorityQueue) : List ℕ :=
  ringWindow self.count self.front self.useCnt

/-- The values in the slots in use. -/
def PriorityQueue.waiting (self : PriorityQueue) : List (Option ℤ) :=
  self.window.map fun i ↦ self.queue[i]?

/-- A queue without a callback holds the values of an abstract queue. -/
structure HoldsFifo {n : ℕ} (pq : PriorityQueue) (q : BoundedFifo n) : Prop where
  callback_eq : pq.priorityCallback = none
  count_eq : pq.count = n + 1
  length_eq : pq.queue.length = n + 1
  front_lt : pq.front < n + 1
  rear_eq : pq.rear = ringIndex (n + 1) pq.front pq.useCnt
  waiting_eq : pq.waiting = q.items.map some

namespace HoldsFifo

variable {n : ℕ} {pq : PriorityQueue} {q : BoundedFifo n}

theorem useCnt_eq (hholds : HoldsFifo pq q) : pq.useCnt = q.items.length := by
  have hlen := congrArg List.length hholds.waiting_eq
  simpa [PriorityQueue.waiting, PriorityQueue.window, ringWindow] using hlen

theorem useCnt_le (hholds : HoldsFifo pq q) : pq.useCnt ≤ n :=
  hholds.useCnt_eq ▸ q.length_le

theorem rear_lt (hholds : HoldsFifo pq q) : pq.rear < n + 1 := by
  rw [hholds.rear_eq]
  exact ringIndex_lt (Nat.succ_pos n) _ _

/-- The rear is the front of an empty queue only. -/
theorem front_eq_rear_iff (hholds : HoldsFifo pq q) : pq.front = pq.rear ↔ q.items = [] := by
  have hle := hholds.useCnt_le
  rw [hholds.rear_eq, ← List.length_eq_zero_iff, ← hholds.useCnt_eq]
  constructor
  · intro heq
    have hzero : ringIndex (n + 1) pq.front 0 = ringIndex (n + 1) pq.front pq.useCnt :=
      (ringIndex_zero hholds.front_lt).trans heq
    exact (ringIndex_inj (Nat.succ_pos n) (by omega) hzero).symm
  · intro hzero
    rw [hzero, ringIndex_zero hholds.front_lt]

/-- `use_cnt` is the distance from `front` to `rear`. -/
theorem useCnt_eq_emod (hholds : HoldsFifo pq q) :
    (pq.useCnt : ℤ) = ((pq.rear : ℤ) - pq.front) % ((n : ℤ) + 1) := by
  have hle := hholds.useCnt_le
  have hfront := hholds.front_lt
  rw [hholds.rear_eq, ringIndex]
  push_cast
  rw [Int.emod_sub_emod, add_sub_cancel_left, Int.emod_eq_of_lt (by omega) (by omega)]

end HoldsFifo

/-! ### The scan for a value -/

/-- The slot after a given slot of the window. -/
theorem ringIndex_next {n : ℕ} {pq : PriorityQueue} {q : BoundedFifo n} (hholds : HoldsFifo pq q)
    (offset : ℕ) :
    (ringIndex (n + 1) pq.front offset + 1) % pq.count =
      ringIndex (n + 1) pq.front (offset + 1) := by
  rw [hholds.count_eq, ringIndex_add_one_mod]

/-- The scan that starts at an offset of the window finds the values from there on. -/
theorem findFrom_eq {n : ℕ} {pq : PriorityQueue} {q : BoundedFifo n} (hholds : HoldsFifo pq q)
    (v : ℤ) {fuel offset : ℕ} (hoffset : offset < q.items.length)
    (hfuel : q.items.length ≤ offset + fuel) :
    findFrom pq v fuel (ringIndex (n + 1) pq.front offset) =
      some (decide (v ∈ q.items.drop offset)) := by
  have hlen := q.length_le
  induction fuel generalizing offset with
  | zero => omega
  | succ fuel ih =>
    have hslot : pq.queue[ringIndex (n + 1) pq.front offset]? = some q.items[offset] := by
      have hwaiting := congrArg (fun l ↦ l[offset]?) hholds.waiting_eq
      simpa [PriorityQueue.waiting, PriorityQueue.window, ringWindow, hholds.useCnt_eq, hoffset,
        hholds.count_eq] using hwaiting
    rw [findFrom, hslot, Option.bind_eq_bind, Option.bind_some, List.drop_eq_getElem_cons hoffset]
    by_cases heq : q.items[offset] = v
    · simp [heq]
    · have hne : v ≠ q.items[offset] := fun h ↦ heq h.symm
      rw [if_neg heq, ringIndex_next hholds, hholds.rear_eq, hholds.useCnt_eq]
      by_cases hlast : offset + 1 = q.items.length
      · simp [hlast, hne]
      · have hdiff : ringIndex (n + 1) pq.front (offset + 1) ≠
            ringIndex (n + 1) pq.front q.items.length :=
          fun h ↦ hlast (ringIndex_inj (by omega) (by omega) h)
        rw [if_pos hdiff, ih (by omega) (by omega)]
        simp only [List.mem_cons, hne, false_or]

/-! ### One lemma per call -/

section Calls

variable {n : ℕ} {pq : PriorityQueue} {q : BoundedFifo n}

/-- Storing a new value at the rear. -/
theorem putRear_of_holdsFifo (hholds : HoldsFifo pq q) {v : ℤ} (hnew : v ∉ q.items)
    (hroom : q.items.length < n) :
    ∃ pq', putRear pq v = some pq' ∧ HoldsFifo pq' (q.append v hnew hroom) := by
  have hin : pq.rear < pq.queue.length := by
    rw [hholds.length_eq]
    exact hholds.rear_lt
  refine ⟨{ pq with
    queue := pq.queue.set pq.rear v
    rear := (pq.rear + 1) % pq.count
    useCnt := pq.useCnt + 1 }, by simp [putRear, PriorityQueue.store, hin], hholds.callback_eq,
    hholds.count_eq, ?_, hholds.front_lt, ?_, ?_⟩
  · simpa using hholds.length_eq
  · rw [hholds.count_eq, hholds.rear_eq, ringIndex_add_one_mod]
  · have hfresh : pq.rear ∉ ringWindow (n + 1) pq.front pq.useCnt := by
      rw [hholds.rear_eq]
      exact ringIndex_notMem_ringWindow (by have := hholds.useCnt_eq; omega)
    have hwaiting := hholds.waiting_eq
    simp only [PriorityQueue.waiting, PriorityQueue.window, hholds.count_eq] at hwaiting ⊢
    rw [ringWindow_succ, List.map_append, ← hholds.rear_eq, List.map_singleton,
      List.getElem?_set_self hin, BoundedFifo.append, List.map_append, List.map_singleton,
      ← hwaiting]
    congr 1
    refine List.map_congr_left fun i hi ↦ List.getElem?_set_ne fun heq ↦ ?_
    exact hfresh (heq ▸ hi)

theorem pqEnqueue_of_holdsFifo (hn : 1 ≤ n) (hholds : HoldsFifo pq q) (v : ℤ) :
    ∃ pq', pqEnqueue pq v = some ((fifoCall q (.enqueue v)).1, pq') ∧
      HoldsFifo pq' (fifoCall q (.enqueue v)).2 := by
  rw [pqEnqueue, hholds.callback_eq]
  change ∃ pq', enqueueFifo pq v = _ ∧ _
  by_cases hempty : q.items = []
  · have hnew : v ∉ q.items := by simp [hempty]
    have hroom : q.items.length < n := by simpa [hempty, Nat.lt_iff_add_one_le] using hn
    obtain ⟨pq', hput, hholds'⟩ := putRear_of_holdsFifo hholds hnew hroom
    rw [fifoCall_append hnew hroom, enqueueFifo, if_pos (hholds.front_eq_rear_iff.mpr hempty), hput]
    exact ⟨pq', rfl, hholds'⟩
  · have hpos : 0 < q.items.length := List.length_pos_iff.mpr hempty
    have hlen := q.length_le
    have hfuel : q.items.length ≤ 0 + pq.count := by
      rw [hholds.count_eq]
      omega
    have hfind := findFrom_eq hholds v hpos hfuel
    rw [ringIndex_zero hholds.front_lt, List.drop_zero] at hfind
    rw [enqueueFifo, if_neg (fun heq ↦ hempty (hholds.front_eq_rear_iff.mp heq)), hfind,
      Option.bind_eq_bind, Option.bind_some]
    by_cases hmem : v ∈ q.items
    · rw [fifoCall_present hmem]
      exact ⟨pq, by simp [hmem], hholds⟩
    · have hcount : pq.useCnt < pq.count - 1 ↔ q.items.length < n := by
        rw [hholds.count_eq, hholds.useCnt_eq, Nat.add_sub_cancel]
      by_cases hroom : q.items.length < n
      · obtain ⟨pq', hput, hholds'⟩ := putRear_of_holdsFifo hholds hmem hroom
        rw [fifoCall_append hmem hroom]
        exact ⟨pq', by simp [hmem, hcount, hroom, hput], hholds'⟩
      · rw [fifoCall_full hmem hroom]
        exact ⟨pq, by simp [hmem, hcount, hroom], hholds⟩

theorem pqDequeue_of_holdsFifo (hholds : HoldsFifo pq q) {wait : Bool}
    (hwait : wait = true → q.items ≠ []) :
    ∃ pq', pqDequeue pq wait = some ((fifoCall q (.dequeue wait)).1, pq') ∧
      HoldsFifo pq' (fifoCall q (.dequeue wait)).2 := by
  have hcnt := hholds.useCnt_eq
  rcases hitems : q.items with _ | ⟨x, rest⟩
  · obtain rfl : wait = false := by
      by_contra hne
      exact hwait (by simpa using hne) hitems
    have hdrop : q.dropOldest = q := by
      cases q with
      | mk items nodup length_le =>
        cases hitems
        rfl
    refine ⟨pq, ?_, ?_⟩
    · simp [pqDequeue, hcnt, hitems, fifoCall]
    · rw [fifoCall, hdrop]
      exact hholds
  · have hcnt' : pq.useCnt = rest.length + 1 := by rw [hcnt, hitems, List.length_cons]
    have hwaiting := hholds.waiting_eq
    rw [PriorityQueue.waiting, PriorityQueue.window, hcnt', hholds.count_eq,
      ringWindow_cons hholds.front_lt, hitems, List.map_cons, List.map_cons] at hwaiting
    obtain ⟨hx, hrest⟩ := List.cons_eq_cons.mp hwaiting
    refine ⟨{ pq with front := (pq.front + 1) % pq.count, useCnt := pq.useCnt - 1 }, ?_,
      hholds.callback_eq, hholds.count_eq, hholds.length_eq, ?_, ?_, ?_⟩
    · simp [pqDequeue, hcnt', hholds.callback_eq, hx, fifoCall, hitems]
    · rw [hholds.count_eq]
      exact Nat.mod_lt _ (Nat.succ_pos n)
    · rw [hholds.rear_eq, hholds.count_eq, hcnt', ringIndex_front_succ, Nat.add_sub_cancel]
    · simp only [PriorityQueue.waiting, PriorityQueue.window, fifoCall, BoundedFifo.dropOldest,
        hitems, List.tail_cons, hholds.count_eq, hcnt', Nat.add_sub_cancel]
      exact hrest

end Calls

/-- A new queue without a callback is the empty FIFO. -/
theorem holdsFifo_newPriorityQueue (n : ℕ) :
    HoldsFifo (newPriorityQueue n none) (BoundedFifo.empty n) where
  callback_eq := rfl
  count_eq := rfl
  length_eq := List.length_replicate
  front_lt := Nat.succ_pos n
  rear_eq := (ringIndex_zero (Nat.succ_pos n)).symm
  waiting_eq := rfl

/-- Every list of calls to a new queue without a callback is answered as the bounded FIFO of
different integers answers it; afterwards the ring holds that FIFO, and `use_cnt` is the distance
from `front` to `rear`. The calls wait only on a queue that is not empty. -/
theorem pq_refines_bounded_fifo {n : ℕ} (hn : 1 ≤ n) (calls : List PqCall)
    (hwait : Along fifoCall NoWait (BoundedFifo.empty n) calls) :
    ∃ pq, serve pqCall (newPriorityQueue n none) calls =
        some ((replies fifoCall (BoundedFifo.empty n) calls).1, pq) ∧
      pq.waiting = (replies fifoCall (BoundedFifo.empty n) calls).2.items.map some ∧
      (pq.useCnt : ℤ) = ((pq.rear : ℤ) - pq.front) % ((n : ℤ) + 1) := by
  have hstep (pq : PriorityQueue) (q : BoundedFifo n) (c : PqCall) (hholds : HoldsFifo pq q)
      (hc : NoWait q c) : ∃ pq', pqCall pq c = some ((fifoCall q c).1, pq') ∧
        HoldsFifo pq' (fifoCall q c).2 := by
    cases c with
    | enqueue v => exact pqEnqueue_of_holdsFifo hn hholds v
    | dequeue wait => exact pqDequeue_of_holdsFifo hholds hc
  obtain ⟨pq, hserve, hholds⟩ := serve_of_along hstep (holdsFifo_newPriorityQueue n) hwait
  exact ⟨pq, hserve, hholds.waiting_eq, hholds.useCnt_eq_emod⟩

/-- The theorem on a queue of two integers: the third value finds no room, the second one is
refused as present, and the ring wraps. -/
theorem pq_refines_bounded_fifo_two :
    ∃ pq, serve pqCall (newPriorityQueue 2 none) [.enqueue 5, .enqueue 7, .enqueue 7, .enqueue 9,
        .dequeue true, .enqueue 9, .dequeue false] = some ([1, 1, 1, 0, 5, 1, 7], pq) ∧
      pq.waiting = [some 9] ∧ (pq.useCnt : ℤ) = ((pq.rear : ℤ) - pq.front) % ((2 : ℤ) + 1) :=
  pq_refines_bounded_fifo (by decide) _ (by decide)

end Katmai.Pqueue
