import Katmai.Buffer.BufferCache

/-!
# Ownership of the slots of a buffer cache

Whose slot is which is implied by two counters and two indices. `Protocol` says how: counted from
`rear`, the ready slots come first (`readySlots`), the slot held by the producer follows them, and
the slot held by the consumer is the last one of the ring, just before `rear`; the remaining slots
are free. `protocol_bcStep` shows that every event keeps this, whatever the two parties do in
between, and `bufferCache_protocol` draws the conclusions for every reachable state: the counters
add up, the indices are in range, the producer's slot is nobody else's, and the consumer has
received a prefix of what was published, slot by slot and content by content, with the rest ready.
-/

set_option autoImplicit false
set_option relaxedAutoImplicit false

namespace Katmai.Buffer

open Foundation BcSystem BufferCache

variable {α : Type*}

/-- The ready slots, in the order in which the consumer will get them. -/
def BufferCache.readySlots (bc : BufferCache α) : List ℕ :=
  ringWindow bc.num bc.rear bc.bufReady

/-- The ready slots with what they hold. -/
def BufferCache.readyContents (bc : BufferCache α) : List (ℕ × α) :=
  bc.readySlots.map fun slot ↦ (slot, bc.dkbuf slot)

/-- `1` if a party holds a slot, `0` if not. -/
def heldCount (held : Option ℕ) : ℕ :=
  if held = none then 0 else 1

@[simp] theorem heldCount_none : heldCount none = 0 :=
  rfl

@[simp] theorem heldCount_some (slot : ℕ) : heldCount (some slot) = 1 :=
  rfl

/-- Where the slots of the two parties lie in the ring, and what the books say, for a cache that was
allocated with `n` buffers. -/
structure Protocol (n : ℕ) (s : BcSystem α) : Prop where
  balance : s.bc.bufFree + heldCount s.producer + s.bc.bufReady + heldCount s.consumer = s.bc.num
  allocated_eq : s.bc.allocated = n
  num_le : s.bc.num ≤ n
  num_pos : 0 < n → 0 < s.bc.num
  rear_lt : 0 < s.bc.num → s.bc.rear < s.bc.num
  front_eq : 0 < s.bc.num →
    s.bc.front = ringIndex s.bc.num s.bc.rear (s.bc.bufReady + heldCount s.producer)
  producer_eq : ∀ slot, s.producer = some slot →
    slot = ringIndex s.bc.num s.bc.rear s.bc.bufReady
  consumer_eq : ∀ slot, s.consumer = some slot →
    slot = ringIndex s.bc.num s.bc.rear (s.bc.num - 1)
  books : s.published = s.received ++ s.bc.readyContents
  last_received : ∀ slot, s.consumer = some slot → s.flushing = false →
    s.received.getLast? = some (slot, s.bc.dkbuf slot)

variable {n : ℕ} {s s' : BcSystem α}

/-! ### Consequences -/

theorem Protocol.producer_lt (hs : Protocol n s) {slot : ℕ} (hslot : s.producer = some slot) :
    s.bc.bufReady + heldCount s.consumer < s.bc.num := by
  have hbalance := hs.balance
  rw [hslot, heldCount_some] at hbalance
  omega

theorem Protocol.consumer_lt (hs : Protocol n s) {slot : ℕ} (hslot : s.consumer = some slot) :
    s.bc.bufReady + heldCount s.producer < s.bc.num := by
  have hbalance := hs.balance
  rw [hslot, heldCount_some] at hbalance
  omega

/-- The slot held by the producer is not ready. -/
theorem Protocol.producer_notMem (hs : Protocol n s) {slot : ℕ} (hslot : s.producer = some slot) :
    slot ∉ s.bc.readySlots := by
  have hlt := hs.producer_lt hslot
  rw [hs.producer_eq slot hslot]
  exact ringIndex_notMem_ringWindow (by omega)

/-- The two parties never hold the same slot. -/
theorem Protocol.producer_ne_consumer (hs : Protocol n s) {slot other : ℕ}
    (hslot : s.producer = some slot) (hother : s.consumer = some other) : slot ≠ other := by
  intro heq
  have hlt := hs.producer_lt hslot
  rw [hother, heldCount_some] at hlt
  rw [hs.producer_eq slot hslot, hs.consumer_eq other hother] at heq
  have hsame := ringIndex_inj (by omega) (by omega) heq
  omega

/-- A store outside the ready slots changes nothing the consumer will get. -/
theorem readyContents_store {bc : BufferCache α} {slot : ℕ} (hslot : slot ∉ bc.readySlots)
    (content : α) : (bc.store slot content).readyContents = bc.readyContents := by
  refine List.map_congr_left fun ready hready ↦ ?_
  have hne : ready ≠ slot := fun heq ↦ hslot (heq ▸ hready)
  show (ready, Function.update bc.dkbuf slot content ready) = (ready, bc.dkbuf ready)
  rw [Function.update_of_ne hne]

/-- `p_ready` appends one slot to the ready ones. -/
theorem readyContents_bcProducerReady (bc : BufferCache α) :
    bc.bcProducerReady.readyContents = bc.readyContents ++
      [(ringIndex bc.num bc.rear bc.bufReady,
        bc.dkbuf (ringIndex bc.num bc.rear bc.bufReady))] := by
  show (ringWindow bc.num bc.rear (bc.bufReady + 1)).map _ = _
  rw [ringWindow_succ, List.map_append]
  rfl

/-- The slot at `rear` is the first ready one, and taking it leaves the others. -/
theorem readyContents_takeRear {bc : BufferCache α} (hready : bc.bufReady ≠ 0)
    (hrear : bc.rear < bc.num) :
    bc.readyContents = (bc.rear, bc.dkbuf bc.rear) :: bc.takeRear.2.readyContents := by
  obtain ⟨len, hlen⟩ := Nat.exists_eq_succ_of_ne_zero hready
  have hslots : bc.readySlots = bc.rear :: bc.takeRear.2.readySlots := by
    show ringWindow bc.num bc.rear bc.bufReady =
      bc.rear :: ringWindow bc.num ((bc.rear + 1) % bc.num) (bc.bufReady - 1)
    rw [hlen, ringWindow_cons hrear]
    rfl
  show bc.readySlots.map _ = _
  rw [hslots]
  rfl

/-! ### Taking a slot -/

/-- Handing the slot at `front` to a producer that holds none keeps the protocol. -/
theorem Protocol.grantProducer (hs : Protocol n s) (hnone : s.producer = none)
    (hfree : s.bc.bufFree ≠ 0) : Protocol n (s.grantProducer s.bc.takeFront) := by
  have hbalance := hs.balance
  rw [hnone, heldCount_none] at hbalance
  have hpos : 0 < s.bc.num := by omega
  have hfront := hs.front_eq hpos
  rw [hnone, heldCount_none, Nat.add_zero] at hfront
  constructor
  · show s.bc.bufFree - 1 + 1 + s.bc.bufReady + heldCount s.consumer = s.bc.num
    omega
  · exact hs.allocated_eq
  · exact hs.num_le
  · exact hs.num_pos
  · exact hs.rear_lt
  · intro _
    show (s.bc.front + 1) % s.bc.num = ringIndex s.bc.num s.bc.rear (s.bc.bufReady + 1)
    rw [hfront, ringIndex_add_one_mod]
  · rintro slot hslot
    have heq : s.bc.front = slot := Option.some.inj hslot
    rw [← heq]
    exact hfront
  · exact hs.consumer_eq
  · exact hs.books
  · exact hs.last_received

/-- What taking the slot at `rear` does to the ring. -/
structure RearTaken (s : BcSystem α) (taken : BcSystem α) : Prop where
  bc_eq : taken.bc = s.bc.takeRear.2
  producer_eq : taken.producer = s.producer
  consumer_eq : taken.consumer = some s.bc.rear

/-- Handing the slot at `rear` to someone who holds none, for a consumer or for a flush, keeps the
protocol as soon as the books are right. -/
theorem Protocol.rearTaken (hs : Protocol n s) (hnone : s.consumer = none)
    (hready : s.bc.bufReady ≠ 0) (htaken : RearTaken s s')
    (hbooks : s'.published = s'.received ++ s'.bc.readyContents)
    (hlast : s'.flushing = false →
      s'.received.getLast? = some (s.bc.rear, s.bc.dkbuf s.bc.rear)) : Protocol n s' := by
  have hbalance := hs.balance
  rw [hnone, heldCount_none] at hbalance
  have hpos : 0 < s.bc.num := by omega
  have hrear := hs.rear_lt hpos
  obtain ⟨hbc, hproducer, hconsumer⟩ := htaken
  obtain ⟨bc', producer', consumer', flushing', published', received'⟩ := s'
  subst hbc hproducer hconsumer
  have hshift : ∀ offset, ringIndex s.bc.num ((s.bc.rear + 1) % s.bc.num) offset =
      ringIndex s.bc.num s.bc.rear (offset + 1) := ringIndex_front_succ _ _
  constructor
  · show s.bc.bufFree + heldCount s.producer + (s.bc.bufReady - 1) + 1 = s.bc.num
    omega
  · exact hs.allocated_eq
  · exact hs.num_le
  · exact hs.num_pos
  · intro _
    exact Nat.mod_lt _ hpos
  · intro _
    show s.bc.front = ringIndex s.bc.num ((s.bc.rear + 1) % s.bc.num)
      (s.bc.bufReady - 1 + heldCount s.producer)
    rw [hshift, hs.front_eq hpos]
    congr 1
    omega
  · intro slot hslot
    show slot = ringIndex s.bc.num ((s.bc.rear + 1) % s.bc.num) (s.bc.bufReady - 1)
    rw [hshift, hs.producer_eq slot hslot]
    congr 1
    omega
  · intro slot hslot
    have heq : s.bc.rear = slot := Option.some.inj hslot
    show slot = ringIndex s.bc.num ((s.bc.rear + 1) % s.bc.num) (s.bc.num - 1)
    rw [hshift, ← heq]
    unfold ringIndex
    rw [Nat.sub_add_cancel hpos, Nat.add_mod_right, Nat.mod_eq_of_lt hrear]
  · exact hbooks
  · intro slot hslot hflushing
    have heq : s.bc.rear = slot := Option.some.inj hslot
    rw [← heq]
    exact hlast hflushing

theorem Protocol.grantConsumer (hs : Protocol n s) (hnone : s.consumer = none)
    (hready : s.bc.bufReady ≠ 0) : Protocol n (s.grantConsumer s.bc.takeRear) := by
  have hbalance := hs.balance
  have hrear := hs.rear_lt (by omega)
  refine hs.rearTaken hnone hready ⟨rfl, rfl, rfl⟩ ?_ ?_
  · show s.published = s.received ++ [(s.bc.rear, s.bc.dkbuf s.bc.rear)] ++
      s.bc.takeRear.2.readyContents
    rw [hs.books, readyContents_takeRear hready hrear, List.append_assoc, List.singleton_append]
  · intro _
    show (s.received ++ [(s.bc.rear, s.bc.dkbuf s.bc.rear)]).getLast? = _
    rw [List.getLast?_concat]

theorem Protocol.grantFlush (hs : Protocol n s) (hnone : s.consumer = none)
    (hflushing : s.flushing = true) (hready : s.bc.bufReady ≠ 0) :
    Protocol n (s.grantFlush s.bc.takeRear) := by
  have hbalance := hs.balance
  have hrear := hs.rear_lt (by omega)
  refine hs.rearTaken hnone hready ⟨rfl, rfl, rfl⟩ ?_ ?_
  · show s.published.drop (s.received.length + 1) = [] ++ s.bc.takeRear.2.readyContents
    rw [hs.books, readyContents_takeRear hready hrear, ← List.drop_drop, List.drop_left]
    rfl
  · intro hnot
    exact absurd (hflushing.symm.trans hnot) (by decide)

/-! ### Giving a slot back -/

/-- `p_ready` of the slot the producer holds keeps the protocol. -/
theorem Protocol.pReady (hs : Protocol n s) {slot : ℕ} (hslot : s.producer = some slot) :
    Protocol n
      { s with
        bc := s.bc.bcProducerReady
        producer := none
        published := s.published ++ [(slot, s.bc.dkbuf slot)] } := by
  have hbalance := hs.balance
  rw [hslot, heldCount_some] at hbalance
  have hfront := hs.front_eq (by omega)
  rw [hslot, heldCount_some] at hfront
  constructor
  · show s.bc.bufFree + 0 + (s.bc.bufReady + 1) + heldCount s.consumer = s.bc.num
    omega
  · exact hs.allocated_eq
  · exact hs.num_le
  · exact hs.num_pos
  · exact hs.rear_lt
  · intro _
    exact hfront
  · intro other hother
    cases hother
  · exact hs.consumer_eq
  · show s.published ++ [(slot, s.bc.dkbuf slot)] = s.received ++ s.bc.bcProducerReady.readyContents
    rw [readyContents_bcProducerReady, ← List.append_assoc, ← hs.books, ← hs.producer_eq slot hslot]
  · exact hs.last_received

/-- `c_release` of the slot the consumer, or a flush, holds keeps the protocol. -/
theorem Protocol.cRelease (hs : Protocol n s) (hheld : s.consumer ≠ none) :
    Protocol n { s with bc := s.bc.bcConsumerRelease, consumer := none } := by
  obtain ⟨slot, hslot⟩ := Option.ne_none_iff_exists'.mp hheld
  have hbalance := hs.balance
  rw [hslot, heldCount_some] at hbalance
  constructor
  · show s.bc.bufFree + 1 + heldCount s.producer + s.bc.bufReady + 0 = s.bc.num
    omega
  · exact hs.allocated_eq
  · exact hs.num_le
  · exact hs.num_pos
  · exact hs.rear_lt
  · exact hs.front_eq
  · exact hs.producer_eq
  · intro other hother
    cases hother
  · exact hs.books
  · intro other hother
    cases hother

/-- A store of the producer into its slot keeps the protocol. -/
theorem Protocol.fill (hs : Protocol n s) {slot : ℕ} (hslot : s.producer = some slot)
    (content : α) :
    Protocol n { s with bc := s.bc.store slot content } where
  balance := hs.balance
  allocated_eq := hs.allocated_eq
  num_le := hs.num_le
  num_pos := hs.num_pos
  rear_lt := hs.rear_lt
  front_eq := hs.front_eq
  producer_eq := hs.producer_eq
  consumer_eq := hs.consumer_eq
  books := by
    rw [readyContents_store (hs.producer_notMem hslot)]
    exact hs.books
  last_received := by
    intro other hother hflushing
    have hne : other ≠ slot := (hs.producer_ne_consumer hslot hother).symm
    show s.received.getLast? = some (other, Function.update s.bc.dkbuf slot content other)
    rw [Function.update_of_ne hne]
    exact hs.last_received other hother hflushing

/-! ### Discarding what is ready -/

/-- What a whole call of `bc_flush` leaves. -/
theorem bcFlush_spec {bc : BufferCache α} (hrear : 0 < bc.num → bc.rear < bc.num)
    (hle : bc.bufReady ≤ bc.num) :
    bc.bcFlush.num = bc.num ∧ bc.bcFlush.allocated = bc.allocated ∧
      bc.bcFlush.bufReady = 0 ∧ bc.bcFlush.bufFree = bc.bufFree + bc.bufReady ∧
      bc.bcFlush.front = bc.front ∧
      (0 < bc.num → bc.bcFlush.rear = ringIndex bc.num bc.rear bc.bufReady) := by
  suffices hloop : ∀ (fuel : ℕ) (bc : BufferCache α), fuel = bc.bufReady →
      (0 < bc.num → bc.rear < bc.num) → bc.bufReady ≤ bc.num →
      (flushLoop fuel bc).num = bc.num ∧ (flushLoop fuel bc).allocated = bc.allocated ∧
        (flushLoop fuel bc).bufReady = 0 ∧
        (flushLoop fuel bc).bufFree = bc.bufFree + bc.bufReady ∧
        (flushLoop fuel bc).front = bc.front ∧
        (0 < bc.num → (flushLoop fuel bc).rear = ringIndex bc.num bc.rear bc.bufReady) from
    hloop bc.bufReady bc rfl hrear hle
  intro fuel
  induction fuel with
  | zero =>
    intro bc hfuel hrear _
    refine ⟨rfl, rfl, hfuel.symm, ?_, rfl, ?_⟩
    · rw [← hfuel]
      rfl
    · intro hpos
      rw [← hfuel, ringIndex_zero (hrear hpos)]
      rfl
  | succ fuel ih =>
    intro bc hfuel hrear hle
    have hready : bc.bufReady ≠ 0 := by omega
    have hpos : 0 < bc.num := by omega
    have htake : flushLoop (fuel + 1) bc = flushLoop fuel bc.takeRear.2.bcConsumerRelease := by
      rw [flushLoop, bcConsumerTryRequest, if_pos hready]
    obtain ⟨hnum, halloc, hzero, hfree, hfront, hrear'⟩ :=
      ih bc.takeRear.2.bcConsumerRelease (by show fuel = bc.bufReady - 1; omega)
        (fun _ ↦ Nat.mod_lt _ hpos) (by show bc.bufReady - 1 ≤ bc.num; omega)
    rw [htake]
    refine ⟨hnum, halloc, hzero, ?_, hfront, ?_⟩
    · rw [hfree]
      show bc.bufFree + 1 + (bc.bufReady - 1) = bc.bufFree + bc.bufReady
      omega
    · intro _
      rw [hrear' hpos]
      show ringIndex bc.num ((bc.rear + 1) % bc.num) (bc.bufReady - 1) = _
      rw [ringIndex_front_succ, Nat.sub_add_cancel (by omega)]

/-- The protocol of a cache that nobody holds a slot of and that has no ready buffer. -/
theorem protocol_of_empty (hproducer : s.producer = none) (hconsumer : s.consumer = none)
    (hready : s.bc.bufReady = 0) (hfree : s.bc.bufFree = s.bc.num)
    (halloc : s.bc.allocated = n) (hnum : s.bc.num ≤ n) (hpos : 0 < n → 0 < s.bc.num)
    (hrear : 0 < s.bc.num → s.bc.rear < s.bc.num) (hfront : 0 < s.bc.num → s.bc.front = s.bc.rear)
    (hbooks : s.published = s.received) : Protocol n s := by
  have hcontents : s.bc.readyContents = [] := by
    show (ringWindow s.bc.num s.bc.rear s.bc.bufReady).map _ = []
    rw [hready, ringWindow_zero]
    rfl
  constructor
  · rw [hproducer, hconsumer, hready, hfree]
    rfl
  · exact halloc
  · exact hnum
  · exact hpos
  · exact hrear
  · intro hn
    rw [hproducer, hready, hfront hn]
    exact (ringIndex_zero (hrear hn)).symm
  · intro slot hslot
    rw [hproducer] at hslot
    cases hslot
  · intro slot hslot
    rw [hconsumer] at hslot
    cases hslot
  · rw [hcontents, List.append_nil]
    exact hbooks
  · intro slot hslot
    rw [hconsumer] at hslot
    cases hslot

theorem idle_iff : s.idle = true ↔ s.producer = none ∧ s.consumer = none ∧ s.flushing = false := by
  simp [idle, and_assoc]

theorem Protocol.cleanup (hs : Protocol n s) (hidle : s.idle = true) :
    Protocol n (s.discard s.bc.bcCleanup) := by
  obtain ⟨hproducer, hconsumer, -⟩ := idle_iff.mp hidle
  exact protocol_of_empty hproducer hconsumer rfl rfl hs.allocated_eq hs.num_le
    hs.num_pos (fun hpos ↦ hpos) (fun _ ↦ rfl) rfl

/-- A flush that runs without other calls in between leaves an empty cache. -/
theorem Protocol.flushed (hs : Protocol n s) (hidle : s.idle = true) :
    Protocol n (s.discard s.bc.bcFlush) := by
  obtain ⟨hproducer, hconsumer, -⟩ := idle_iff.mp hidle
  have hbalance := hs.balance
  rw [hproducer, hconsumer, heldCount_none] at hbalance
  obtain ⟨hnum, halloc, hready, hfree, hfront, hrear⟩ := bcFlush_spec hs.rear_lt (by omega)
  refine protocol_of_empty hproducer hconsumer hready ?_ (halloc.trans hs.allocated_eq) ?_ ?_ ?_ ?_
    rfl
  · show s.bc.bcFlush.bufFree = s.bc.bcFlush.num
    omega
  · show s.bc.bcFlush.num ≤ n
    rw [hnum]
    exact hs.num_le
  · show 0 < n → 0 < s.bc.bcFlush.num
    rw [hnum]
    exact hs.num_pos
  · show 0 < s.bc.bcFlush.num → s.bc.bcFlush.rear < s.bc.bcFlush.num
    rw [hnum]
    intro hpos
    rw [hrear hpos]
    exact ringIndex_lt hpos _ _
  · show 0 < s.bc.bcFlush.num → s.bc.bcFlush.front = s.bc.bcFlush.rear
    rw [hnum]
    intro hpos
    rw [hrear hpos, hfront, hs.front_eq hpos, hproducer, heldCount_none, Nat.add_zero]

/-- Changing the number of buffers in use, and starting over, keeps the protocol. -/
theorem protocol_resize {bc : BufferCache α} {size : ℕ} (hidle : s.idle = true)
    (halloc : bc.allocated = n) (hle : size ≤ n) (hpos : 0 < size) :
    Protocol n (s.discard (bcCleanup { bc with num := size })) := by
  obtain ⟨hproducer, hconsumer, -⟩ := idle_iff.mp hidle
  exact protocol_of_empty hproducer hconsumer rfl rfl halloc hle (fun _ ↦ hpos) (fun _ ↦ hpos)
    (fun _ ↦ rfl) rfl

theorem Protocol.setbuf (hs : Protocol n s) (hidle : s.idle = true) (nbuf : ℤ) :
    Protocol n (s.discard (s.bc.bcSetbuffer nbuf)) := by
  obtain ⟨hproducer, hconsumer, -⟩ := idle_iff.mp hidle
  have hbalance := hs.balance
  rw [hproducer, hconsumer, heldCount_none] at hbalance
  obtain ⟨-, halloc, -⟩ := @bcFlush_spec _ s.bc hs.rear_lt (by omega)
  unfold bcSetbuffer
  simp only
  generalize (if nbuf ≤ 0 ∨ nbuf > s.bc.allocated then s.bc.allocated else nbuf.toNat) = size
  split_ifs with hresize
  · exact protocol_resize hidle (halloc.trans hs.allocated_eq) (hs.allocated_eq ▸ hresize.2.2)
      (by omega)
  · exact hs.flushed hidle

/-! ### Every event keeps the protocol -/

theorem protocol_start (n : ℕ) (memory : BufferCache α) : Protocol n (start n memory) :=
  protocol_of_empty rfl rfl rfl rfl rfl (le_refl n) (fun hpos ↦ hpos) (fun hpos ↦ hpos)
    (fun _ ↦ rfl) rfl

/-- Starting or ending a flush touches neither the ring nor the books. -/
theorem Protocol.setFlushing (hs : Protocol n s) (hconsumer : s.consumer = none) (flushing : Bool) :
    Protocol n { s with flushing := flushing } where
  balance := hs.balance
  allocated_eq := hs.allocated_eq
  num_le := hs.num_le
  num_pos := hs.num_pos
  rear_lt := hs.rear_lt
  front_eq := hs.front_eq
  producer_eq := hs.producer_eq
  consumer_eq := hs.consumer_eq
  books := hs.books
  last_received := by
    intro slot hslot
    rw [hconsumer] at hslot
    cases hslot

/-- Every event keeps the protocol. -/
theorem protocol_bcStep {event : BcEvent α} (hs : Protocol n s) (hstep : bcStep s event = some s') :
    Protocol n s' := by
  cases event with
  | pRequest =>
    simp only [bcStep, bcProducerRequest] at hstep
    split_ifs at hstep with hnone hfree
    · cases hstep
    · cases hstep
      exact hs.grantProducer hnone hfree
  | pTryreq =>
    simp only [bcStep, bcProducerTryRequest] at hstep
    split_ifs at hstep with hnone hfree
    · cases hstep
      exact hs
    · cases hstep
      exact hs.grantProducer hnone hfree
  | fill content =>
    simp only [bcStep] at hstep
    split at hstep
    · rename_i slot hslot
      cases hstep
      exact hs.fill hslot content
    · cases hstep
  | pReady =>
    simp only [bcStep] at hstep
    split at hstep
    · rename_i slot hslot
      cases hstep
      exact hs.pReady hslot
    · cases hstep
  | cRequest =>
    simp only [bcStep, bcConsumerRequest] at hstep
    split_ifs at hstep with hnone hready
    · cases hstep
    · cases hstep
      exact hs.grantConsumer hnone.1 hready
  | cTryreq =>
    simp only [bcStep, bcConsumerTryRequest] at hstep
    split_ifs at hstep with hnone hready
    · cases hstep
      exact hs.grantConsumer hnone.1 hready
    · cases hstep
      exact hs
  | cRelease =>
    simp only [bcStep] at hstep
    split_ifs at hstep with hheld
    cases hstep
    exact hs.cRelease hheld.1
  | flush =>
    simp only [bcStep] at hstep
    split_ifs at hstep with hidle
    cases hstep
    exact hs.setFlushing (idle_iff.mp hidle).2.1 true
  | flushTake =>
    simp only [bcStep, bcConsumerTryRequest] at hstep
    split_ifs at hstep with hnone hready
    · cases hstep
      exact hs.grantFlush hnone.1 hnone.2 hready
    · cases hstep
      exact hs.setFlushing hnone.1 false
  | flushRelease =>
    simp only [bcStep] at hstep
    split_ifs at hstep with hheld
    cases hstep
    exact hs.cRelease hheld.1
  | cleanup =>
    simp only [bcStep] at hstep
    split_ifs at hstep with hidle
    cases hstep
    exact hs.cleanup hidle
  | setbuf nbuf =>
    simp only [bcStep] at hstep
    split_ifs at hstep with hidle
    cases hstep
    exact hs.setbuf hidle nbuf

/-! ### Every reachable state -/

/-- In every reachable state of a buffer cache with one producer and one consumer: the counters and
the held slots add up to the size of the ring; the indices and all slots in use are in range; the
slot of the producer is neither ready nor the consumer's; and the consumer has received, in order
and with the contents they were published with, all the published slots but those that are still
ready. What the consumer holds is what was published. -/
theorem bufferCache_protocol (n : ℕ) (memory : BufferCache α) (events : List (BcEvent α))
    {t : BcSystem α} (hrun : run bcStep (start n memory) events = some t) :
    t.bc.bufFree + heldCount t.producer + t.bc.bufReady + heldCount t.consumer = t.bc.num ∧
      (0 < n → t.bc.front < t.bc.num ∧ t.bc.rear < t.bc.num) ∧
      (∀ slot, t.producer = some slot ∨ t.consumer = some slot ∨ slot ∈ t.bc.readySlots →
        slot < t.bc.num) ∧
      (∀ slot, t.producer = some slot → slot ∉ t.bc.readySlots ∧ t.consumer ≠ some slot) ∧
      t.published = t.received ++ t.bc.readyContents ∧
      (∀ slot, t.consumer = some slot → t.flushing = false →
        t.received.getLast? = some (slot, t.bc.dkbuf slot)) := by
  have ht : Protocol n t :=
    run_invariant (fun s event s' hs hstep ↦ protocol_bcStep hs hstep) (protocol_start n memory)
      hrun
  refine ⟨ht.balance, ?_, ?_, ?_, ht.books, ht.last_received⟩
  · intro hn
    have hpos := ht.num_pos hn
    rw [ht.front_eq hpos]
    exact ⟨ringIndex_lt hpos _ _, ht.rear_lt hpos⟩
  · rintro slot (hslot | hslot | hslot)
    · have hlt := ht.producer_lt hslot
      rw [ht.producer_eq slot hslot]
      exact ringIndex_lt (by omega) _ _
    · have hlt := ht.consumer_lt hslot
      rw [ht.consumer_eq slot hslot]
      exact ringIndex_lt (by omega) _ _
    · have hne : t.bc.bufReady ≠ 0 := by
        intro hzero
        rw [readySlots, hzero, ringWindow_zero] at hslot
        cases hslot
      have hbalance := ht.balance
      exact lt_of_mem_ringWindow (by omega) hslot
  · intro slot hslot
    refine ⟨ht.producer_notMem hslot, ?_⟩
    intro hconsumer
    exact ht.producer_ne_consumer hslot hconsumer rfl

/-- A cache of five buffers that is flushed and resized to four, filled through both kinds of
request and emptied, while the producer already holds the next slot. -/
def resizedRun : List (BcEvent ℕ) :=
  [.pRequest, .fill 11, .pReady, .flush, .flushTake, .flushRelease, .flushTake, .setbuf 4, .pTryreq,
    .fill 12, .pReady, .pRequest, .fill 13, .pReady, .cRequest, .pRequest, .fill 14]

theorem bufferCache_protocol_resized :
    ∃ t, run bcStep (start 5 ⟨0, 0, 0, 0, 0, 0, 0, 0, fun _ ↦ 0⟩) resizedRun = some t ∧
      t.bc.num = 4 ∧ t.received = [(0, 12)] ∧ t.producer = some 2 ∧ t.consumer = some 0 ∧
      t.published = t.received ++ t.bc.readyContents :=
  ⟨_, rfl, rfl, rfl, rfl, rfl,
    (bufferCache_protocol 5 ⟨0, 0, 0, 0, 0, 0, 0, 0, fun _ ↦ 0⟩ resizedRun rfl).2.2.2.2.1⟩

end Katmai.Buffer
