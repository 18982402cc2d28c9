import Katmai.Buffer.BufferProtocol

/-!
# A buffer cache as a queue

For a producer that fills a buffer as soon as it has it, and a consumer that takes one buffer at a
time, a buffer cache is a queue of contents. `queued` are the contents of the ready buffers in
order. `RingOk` says that the buffer after them is the next one the producer gets; under it,
publishing a content appends it (`queued_publish`), and taking a ready buffer removes the first
content, whether or not the buffer is given back (`queued_takeRear`).
-/

set_option autoImplicit false
set_option relaxedAutoImplicit false

namespace Katmai.Buffer

open Foundation BufferCache

variable {α : Type*} {bc : BufferCache α}

/-- The contents of the ready buffers, in the order in which they will be taken. -/
def BufferCache.queued (bc : BufferCache α) : List α :=
  bc.readySlots.map bc.dkbuf

/-- A buffer is taken from the producer's end, filled and made ready. -/
def BufferCache.publish (bc : BufferCache α) (content : α) : BufferCache α :=
  (bc.takeFront.2.store bc.takeFront.1 content).bcProducerReady

/-- The counters and the indices agree on the ready buffers. -/
structure ReadyOk (bc : BufferCache α) : Prop where
  counts : bc.bufFree + bc.bufReady ≤ bc.num
  rear_lt : 0 < bc.num → bc.rear < bc.num

/-- They agree also on the next buffer of the producer, and every buffer is free or ready. -/
structure RingOk (bc : BufferCache α) : Prop extends ReadyOk bc where
  full : bc.bufFree + bc.bufReady = bc.num
  front_eq : 0 < bc.num → bc.front = ringIndex bc.num bc.rear bc.bufReady

theorem ringOk_bcCleanup (bc : BufferCache α) : RingOk bc.bcCleanup where
  counts := le_refl bc.num
  rear_lt := id
  full := rfl
  front_eq := fun hpos ↦ (Nat.mod_eq_of_lt hpos).symm

/-- The next buffer of the producer is not ready. -/
theorem RingOk.front_notMem (hbc : RingOk bc) (hfree : bc.bufFree ≠ 0) :
    bc.front ∉ bc.readySlots := by
  have hcounts := hbc.counts
  rw [hbc.front_eq (by omega)]
  exact ringIndex_notMem_ringWindow (by omega)

/-- A store into the next buffer of the producer changes nothing that is ready. -/
theorem RingOk.queued_store (hbc : RingOk bc) (hfree : bc.bufFree ≠ 0) (content : α) :
    (bc.takeFront.2.store bc.takeFront.1 content).queued = bc.queued := by
  refine List.map_congr_left fun ready hready ↦ ?_
  have hne : ready ≠ bc.front := fun heq ↦ hbc.front_notMem hfree (heq ▸ hready)
  exact Function.update_of_ne hne content bc.dkbuf

/-- A buffer that is taken by the producer and not made ready. -/
theorem RingOk.readyOk_store (hbc : RingOk bc) (content : α) :
    ReadyOk (bc.takeFront.2.store bc.takeFront.1 content) where
  counts := by
    have hcounts := hbc.counts
    show bc.bufFree - 1 + bc.bufReady ≤ bc.num
    omega
  rear_lt := hbc.rear_lt

theorem RingOk.publish (hbc : RingOk bc) (hfree : bc.bufFree ≠ 0) (content : α) :
    RingOk (bc.publish content) where
  counts := by
    have hcounts := hbc.counts
    show bc.bufFree - 1 + (bc.bufReady + 1) ≤ bc.num
    omega
  rear_lt := hbc.rear_lt
  full := by
    have hfull := hbc.full
    show bc.bufFree - 1 + (bc.bufReady + 1) = bc.num
    omega
  front_eq := by
    intro hpos
    show (bc.front + 1) % bc.num = ringIndex bc.num bc.rear (bc.bufReady + 1)
    rw [hbc.front_eq hpos, ringIndex_add_one_mod]

/-- Publishing appends. -/
theorem RingOk.queued_publish (hbc : RingOk bc) (hfree : bc.bufFree ≠ 0) (content : α) :
    (bc.publish content).queued = bc.queued ++ [content] := by
  have hcounts := hbc.counts
  have hfront := hbc.front_eq (by omega)
  have hlast : Function.update bc.dkbuf bc.front content (ringIndex bc.num bc.rear bc.bufReady) =
      content := by
    rw [← hfront, Function.update_self]
  show (ringWindow bc.num bc.rear (bc.bufReady + 1)).map
    (Function.update bc.dkbuf bc.front content) = _
  rw [ringWindow_succ, List.map_append, List.map_singleton, hlast]
  congr 1
  exact hbc.queued_store hfree content

/-- Taking a ready buffer removes the first content. -/
theorem ReadyOk.queued_takeRear (hbc : ReadyOk bc) (hready : bc.bufReady ≠ 0) :
    bc.queued = bc.dkbuf bc.rear :: bc.takeRear.2.queued := by
  have hcounts := hbc.counts
  obtain ⟨len, hlen⟩ := Nat.exists_eq_succ_of_ne_zero hready
  show (ringWindow bc.num bc.rear bc.bufReady).map bc.dkbuf =
    bc.dkbuf bc.rear ::
      (ringWindow bc.num ((bc.rear + 1) % bc.num) (bc.bufReady - 1)).map bc.dkbuf
  rw [hlen, ringWindow_cons (hbc.rear_lt (by omega)), List.map_cons]
  rfl

theorem ReadyOk.takeRear (hbc : ReadyOk bc) : ReadyOk bc.takeRear.2 where
  counts := by
    have hcounts := hbc.counts
    show bc.bufFree + (bc.bufReady - 1) ≤ bc.num
    omega
  rear_lt := fun hpos ↦ Nat.mod_lt _ hpos

/-- A consumer that takes a ready buffer and gives it back. -/
theorem RingOk.consume (hbc : RingOk bc) (hready : bc.bufReady ≠ 0) :
    RingOk bc.takeRear.2.bcConsumerRelease where
  counts := by
    have hcounts := hbc.counts
    show bc.bufFree + 1 + (bc.bufReady - 1) ≤ bc.num
    omega
  rear_lt := hbc.toReadyOk.takeRear.rear_lt
  full := by
    have hfull := hbc.full
    show bc.bufFree + 1 + (bc.bufReady - 1) = bc.num
    omega
  front_eq := by
    intro hpos
    show bc.front = ringIndex bc.num ((bc.rear + 1) % bc.num) (bc.bufReady - 1)
    rw [hbc.front_eq hpos, ringIndex_front_succ, Nat.sub_add_cancel (Nat.pos_of_ne_zero hready)]

/-- Without ready buffers the queue is empty. -/
theorem queued_eq_nil (hready : bc.bufReady = 0) : bc.queued = [] := by
  show (ringWindow bc.num bc.rear bc.bufReady).map bc.dkbuf = []
  rw [hready]
  rfl

end Katmai.Buffer
