import Katmai.Mqueue.MultipleQueue
import Mathlib.Algebra.BigOperators.Group.Finset.Piecewise

/-!
# The representation invariant of the multiple queue
-/

set_option autoImplicit false
set_option relaxedAutoImplicit false

namespace Katmai.Mqueue

open Foundation

namespace MultipleQueue

/-- The live slots of queue `q`, from the front to the slot before the rear. -/
def liveSlots (mq : MultipleQueue) (q : ℕ) : List ℕ :=
  ringWindow mq.count (mq.front q) (mq.useCnt q)

/-- The value a slot holds, if it is not a tombstone. -/
def slotValue (value : ℤ) : Option ℕ :=
  if value < 0 then none else some value.toNat

/-- The values waiting in queue `q`, oldest first. -/
def waiting (mq : MultipleQueue) (q : ℕ) : List ℕ :=
  (mq.liveSlots q).filterMap fun slot ↦ slotValue (mq.queue q slot)

/-- The part of the invariant about the rings: indices and counters. -/
structure RingsOk (mq : MultipleQueue) : Prop where
  count_pos : 0 < mq.count
  front_lt : ∀ q < mq.numberOfQueue, mq.front q < mq.count
  rear_eq : ∀ q < mq.numberOfQueue,
    mq.rear q = ringIndex mq.count (mq.front q) (mq.useCnt q)
  useCnt_le : ∀ q < mq.numberOfQueue, mq.useCnt q ≤ mq.count - 1
  inqueueCnt_eq : mq.inqueueCnt = ∑ q ∈ Finset.range mq.numberOfQueue, mq.useCnt q

/-- The table and the rings agree on every value but `n`, and `n` is in no live slot. -/
structure AwayFrom (mq : MultipleQueue) (n : ℕ) : Prop extends RingsOk mq where
  slot_located : ∀ q < mq.numberOfQueue, ∀ slot ∈ mq.liveSlots q,
    mq.queue q slot = -1 ∨
      ∃ v : ℕ, v ≤ mq.maxValue ∧ v ≠ n ∧ mq.queue q slot = v ∧ mq.location v = ⟨q, slot⟩
  located_slot : ∀ v ≤ mq.maxValue, v ≠ n → (mq.location v).q = -1 ∨
    ∃ q < mq.numberOfQueue, ∃ slot ∈ mq.liveSlots q,
      mq.location v = ⟨q, slot⟩ ∧ mq.queue q slot = v

/-- The invariant: every live slot holds a tombstone or a value whose location is that slot, and
every value is located nowhere or at a live slot that holds it. -/
structure Consistent (mq : MultipleQueue) : Prop extends RingsOk mq where
  slot_located : ∀ q < mq.numberOfQueue, ∀ slot ∈ mq.liveSlots q,
    mq.queue q slot = -1 ∨
      ∃ v : ℕ, v ≤ mq.maxValue ∧ mq.queue q slot = v ∧ mq.location v = ⟨q, slot⟩
  located_slot : ∀ v ≤ mq.maxValue, (mq.location v).q = -1 ∨
    ∃ q < mq.numberOfQueue, ∃ slot ∈ mq.liveSlots q,
      mq.location v = ⟨q, slot⟩ ∧ mq.queue q slot = v

/-! ### Small facts about the stores -/

variable {mq : MultipleQueue} {n q : ℕ}

@[simp] theorem slotValue_neg_one : slotValue (-1) = none :=
  rfl

@[simp] theorem slotValue_natCast (v : ℕ) : slotValue (v : ℤ) = some v := by
  simp [slotValue]

theorem slotValue_eq_some {value : ℤ} {v : ℕ} : slotValue value = some v ↔ value = v := by
  unfold slotValue
  split_ifs with hneg
  · simp only [false_iff]
    omega
  · simp only [Option.some.injEq]
    omega

theorem mem_waiting {v : ℕ} :
    v ∈ mq.waiting q ↔ ∃ slot ∈ mq.liveSlots q, mq.queue q slot = v := by
  simp [waiting, slotValue_eq_some]

theorem putRear_setLocationQ (mq : MultipleQueue) (n q : ℕ) (other : ℤ) :
    (mq.setLocationQ n other).putRear n q = mq.putRear n q := by
  simp [putRear, setLocationQ, setLocation, setSlot]

theorem liveSlots_setSlot (slot : ℕ) (value : ℤ) (other : ℕ) :
    (mq.setSlot q slot value).liveSlots other = mq.liveSlots other :=
  rfl

theorem queue_setSlot (mq : MultipleQueue) (q slot : ℕ) (value : ℤ) (other place : ℕ) :
    (mq.setSlot q slot value).queue other place =
      if other = q ∧ place = slot then value else mq.queue other place := by
  by_cases hq : other = q
  · subst hq
    by_cases hplace : place = slot
    · simp [setSlot, hplace]
    · simp [setSlot, hplace]
  · simp [setSlot, hq]

theorem queue_putRear (mq : MultipleQueue) (n q other place : ℕ) :
    (mq.putRear n q).queue other place =
      if other = q ∧ place = mq.rear q then (n : ℤ) else mq.queue other place :=
  queue_setSlot _ q (mq.rear q) n other place

theorem location_putRear (mq : MultipleQueue) (n q v : ℕ) :
    (mq.putRear n q).location v = if v = n then ⟨q, mq.rear q⟩ else mq.location v := by
  by_cases hv : v = n
  · subst hv
    simp [putRear, setLocation, setSlot]
  · simp [putRear, setLocation, setSlot, hv]

theorem useCnt_putRear (mq : MultipleQueue) (n q other : ℕ) :
    (mq.putRear n q).useCnt other =
      if other = q then mq.useCnt q + 1 else mq.useCnt other := by
  simp [putRear, setLocation, setSlot, Function.update_apply]

/-- Putting a value at the rear of queue `q` adds the rear slot to its live slots. -/
theorem liveSlots_putRear (hrings : RingsOk mq) (n : ℕ) (hq : q < mq.numberOfQueue)
    (other : ℕ) :
    (mq.putRear n q).liveSlots other =
      if other = q then mq.liveSlots q ++ [mq.rear q] else mq.liveSlots other := by
  by_cases hother : other = q
  · subst hother
    rw [if_pos rfl, hrings.rear_eq other hq]
    unfold liveSlots
    rw [← ringWindow_succ, useCnt_putRear, if_pos rfl]
    rfl
  · rw [if_neg hother]
    unfold liveSlots
    rw [useCnt_putRear, if_neg hother]
    rfl

/-- With room in queue `q`, its rear slot is not live. -/
theorem rear_notMem_liveSlots (hrings : RingsOk mq) (hq : q < mq.numberOfQueue)
    (hroom : mq.useCnt q < mq.count - 1) : mq.rear q ∉ mq.liveSlots q := by
  rw [hrings.rear_eq q hq]
  exact ringIndex_notMem_ringWindow (by omega)

/-! ### Enqueueing keeps the invariant -/

/-- Putting a value at the rear of a queue with room keeps the rings in order. -/
theorem ringsOk_putRear (hrings : RingsOk mq) (n : ℕ) (hq : q < mq.numberOfQueue)
    (hroom : mq.useCnt q < mq.count - 1) : RingsOk (mq.putRear n q) where
  count_pos := hrings.count_pos
  front_lt := hrings.front_lt
  rear_eq := by
    intro other hother
    change Function.update mq.rear q ((mq.rear q + 1) % mq.count) other = _
    rw [useCnt_putRear]
    by_cases heq : other = q
    · subst heq
      rw [Function.update_self, if_pos rfl, hrings.rear_eq other hother, ringIndex_add_one_mod]
      rfl
    · rw [Function.update_of_ne heq, if_neg heq]
      exact hrings.rear_eq other hother
  useCnt_le := by
    intro other hother
    rw [useCnt_putRear]
    split_ifs
    · exact hroom
    · exact hrings.useCnt_le other hother
  inqueueCnt_eq := by
    have hmem : q ∈ Finset.range mq.numberOfQueue := Finset.mem_range.mpr hq
    have herase := Finset.sum_erase_add _ mq.useCnt hmem
    change mq.inqueueCnt + 1 = ∑ other ∈ Finset.range mq.numberOfQueue,
      Function.update mq.useCnt q (mq.useCnt q + 1) other
    rw [Finset.sum_update_of_mem hmem, Finset.sdiff_singleton_eq_erase, hrings.inqueueCnt_eq]
    omega

/-- Putting a value that is nowhere at the rear of a queue with room restores the invariant. -/
theorem consistent_putRear (haway : AwayFrom mq n) (hn : n ≤ mq.maxValue)
    (hq : q < mq.numberOfQueue) (hroom : mq.useCnt q < mq.count - 1) :
    Consistent (mq.putRear n q) where
  toRingsOk := ringsOk_putRear haway.toRingsOk n hq hroom
  slot_located := by
    intro other hother slot hslot
    rw [liveSlots_putRear haway.toRingsOk n hq] at hslot
    rw [queue_putRear]
    by_cases hrear : other = q ∧ slot = mq.rear q
    · obtain ⟨rfl, rfl⟩ := hrear
      exact Or.inr ⟨n, hn, by simp, by rw [location_putRear, if_pos rfl]⟩
    · rw [if_neg hrear]
      have hold : slot ∈ mq.liveSlots other := by
        by_cases heq : other = q
        · rw [if_pos heq, List.mem_append, List.mem_singleton] at hslot
          rw [heq]
          exact hslot.resolve_right fun hlast ↦ hrear ⟨heq, hlast⟩
        · rwa [if_neg heq] at hslot
      rcases haway.slot_located other hother slot hold with hdead | ⟨v, hv, hne, hvalue, hloc⟩
      · exact Or.inl hdead
      · exact Or.inr ⟨v, hv, hvalue, by rw [location_putRear, if_neg hne, hloc]⟩
  located_slot := by
    intro v hv
    rw [location_putRear]
    by_cases hvn : v = n
    · subst hvn
      refine Or.inr ⟨q, hq, mq.rear q, ?_, by rw [if_pos rfl], ?_⟩
      · rw [liveSlots_putRear haway.toRingsOk v hq, if_pos rfl]
        simp
      · rw [queue_putRear, if_pos ⟨rfl, rfl⟩]
    · rw [if_neg hvn]
      rcases haway.located_slot v hv hvn with hnone | ⟨other, hother, slot, hslot, hloc, hvalue⟩
      · exact Or.inl hnone
      · have hkeep : ¬(other = q ∧ slot = mq.rear q) := by
          rintro ⟨rfl, rfl⟩
          exact rear_notMem_liveSlots haway.toRingsOk hother hroom hslot
        refine Or.inr ⟨other, hother, slot, ?_, hloc, ?_⟩
        · rw [liveSlots_putRear haway.toRingsOk n hq]
          split_ifs with heq
          · rw [heq] at hslot
            exact List.mem_append_left _ hslot
          · exact hslot
        · rw [queue_putRear, if_neg hkeep, hvalue]

/-- A value located nowhere is in no live slot. -/
theorem awayFrom_of_absent (hmq : Consistent mq) (habsent : (mq.location n).q < 0) :
    AwayFrom mq n where
  toRingsOk := hmq.toRingsOk
  slot_located := by
    intro q hq slot hslot
    rcases hmq.slot_located q hq slot hslot with hdead | ⟨v, hv, hvalue, hloc⟩
    · exact Or.inl hdead
    · refine Or.inr ⟨v, hv, ?_, hvalue, hloc⟩
      rintro rfl
      rw [hloc] at habsent
      simp only at habsent
      omega
  located_slot := fun v hv _ ↦ hmq.located_slot v hv

/-- Overwriting the slot of a value with a tombstone takes the value out of the rings. -/
theorem awayFrom_setSlot (hmq : Consistent mq) {i slot : ℕ} (hloc : mq.location n = ⟨i, slot⟩)
    (hholds : mq.queue i slot = n) : AwayFrom (mq.setSlot i slot (-1)) n where
  toRingsOk := ⟨hmq.count_pos, hmq.front_lt, hmq.rear_eq, hmq.useCnt_le, hmq.inqueueCnt_eq⟩
  slot_located := by
    intro q hq place hplace
    rw [queue_setSlot]
    split_ifs with hhere
    · exact Or.inl rfl
    · rcases hmq.slot_located q hq place hplace with hdead | ⟨v, hv, hvalue, hlocv⟩
      · exact Or.inl hdead
      · refine Or.inr ⟨v, hv, ?_, hvalue, hlocv⟩
        rintro rfl
        rw [hloc] at hlocv
        injection hlocv with hi hslot
        exact hhere ⟨by omega, by omega⟩
  located_slot := by
    intro v hv hne
    rcases hmq.located_slot v hv with hnone | ⟨q, hq, place, hplace, hlocv, hvalue⟩
    · exact Or.inl hnone
    · refine Or.inr ⟨q, hq, place, hplace, hlocv, ?_⟩
      rw [queue_setSlot, if_neg, hvalue]
      rintro ⟨rfl, rfl⟩
      exact hne (by omega)

/-- Where `mq_enqueue` puts its value: nowhere new if it waits at the same or a better priority,
at the rear of queue `q` if it waits nowhere, and there too, leaving a tombstone, if it waits at a
worse priority. Assumes: an enqueue that changes anything finds room. -/
theorem mqEnqueue_cases (hmq : Consistent mq) (hn : n ≤ mq.maxValue) (q : ℕ)
    (hroom : (mq.location n).q < 0 ∨ (mq.location n).q > q → mq.useCnt q < mq.count - 1) :
    (∃ i ≤ q, i < mq.numberOfQueue ∧ (mq.location n).q = i ∧ mq.mqEnqueue n q = mq) ∨
      ((mq.location n).q < 0 ∧ mq.useCnt q < mq.count - 1 ∧ mq.mqEnqueue n q = mq.putRear n q) ∨
      ∃ i slot, q < i ∧ i < mq.numberOfQueue ∧ slot ∈ mq.liveSlots i ∧
        mq.location n = ⟨i, slot⟩ ∧ mq.queue i slot = n ∧ mq.useCnt q < mq.count - 1 ∧
          mq.mqEnqueue n q = (mq.setSlot i slot (-1)).putRear n q := by
  rcases hmq.located_slot n hn with hnone | ⟨i, hi, slot, hslot, hloc, hvalue⟩
  · have habsent : (mq.location n).q < 0 := by omega
    have hspace := hroom (Or.inl habsent)
    have hspace' : (mq.setLocationQ n q).useCnt q < (mq.setLocationQ n q).count - 1 := hspace
    refine Or.inr (Or.inl ⟨habsent, hspace, ?_⟩)
    have hjump : ¬(mq.location n).q > q := by omega
    simp only [mqEnqueue, if_pos (Or.inl habsent : (mq.location n).q < 0 ∨ _), if_pos hspace',
      if_neg hjump, putRear_setLocationQ]
  · have hq : (mq.location n).q = i := by rw [hloc]
    by_cases hjump : q < i
    · have hworse : (mq.location n).q > q := by omega
      have hspace := hroom (Or.inr hworse)
      have hspace' : (mq.setLocationQ n q).useCnt q < (mq.setLocationQ n q).count - 1 := hspace
      refine Or.inr (Or.inr ⟨i, slot, hjump, hi, hslot, hloc, hvalue, hspace, ?_⟩)
      have hplace : ((mq.setLocationQ n q).location n).i.toNat = slot := by
        simp [setLocationQ, hloc]
      have hcomm : (mq.setLocationQ n q).setSlot i slot (-1) =
          (mq.setSlot i slot (-1)).setLocationQ n q := rfl
      simp only [mqEnqueue, if_pos (Or.inr hworse : _ ∨ (mq.location n).q > q), if_pos hspace',
        if_pos hworse, hplace]
      rw [hq, Int.toNat_natCast, hcomm, putRear_setLocationQ]
    · refine Or.inl ⟨i, by omega, hi, hq, ?_⟩
      have hkeep : ¬((mq.location n).q < 0 ∨ (mq.location n).q > q) := by omega
      simp only [mqEnqueue, if_neg hkeep]

/-- An enqueue that finds room whenever it needs it keeps the invariant. -/
theorem consistent_mqEnqueue (hmq : Consistent mq) (hn : n ≤ mq.maxValue)
    (hq : q < mq.numberOfQueue)
    (hroom : (mq.location n).q < 0 ∨ (mq.location n).q > q → mq.useCnt q < mq.count - 1) :
    Consistent (mq.mqEnqueue n q) := by
  rcases mqEnqueue_cases hmq hn q hroom with ⟨i, -, -, -, heq⟩ | ⟨habsent, hspace, heq⟩ |
    ⟨i, slot, -, -, -, hloc, hvalue, hspace, heq⟩
  · rw [heq]
    exact hmq
  · rw [heq]
    exact consistent_putRear (awayFrom_of_absent hmq habsent) hn hq hspace
  · rw [heq]
    exact consistent_putRear (awayFrom_setSlot hmq hloc hvalue) hn hq hspace

/-! ### Dequeueing keeps the invariant -/

section PopFront

variable {i : ℕ}

@[simp] theorem queue_popFront (mq : MultipleQueue) (i : ℕ) :
    (mq.popFront i).2.queue = mq.queue := by
  simp only [popFront]
  split_ifs <;> rfl

@[simp] theorem maxValue_popFront (mq : MultipleQueue) (i : ℕ) :
    (mq.popFront i).2.maxValue = mq.maxValue := by
  simp only [popFront]
  split_ifs <;> rfl

@[simp] theorem count_popFront (mq : MultipleQueue) (i : ℕ) :
    (mq.popFront i).2.count = mq.count := by
  simp only [popFront]
  split_ifs <;> rfl

@[simp] theorem numberOfQueue_popFront (mq : MultipleQueue) (i : ℕ) :
    (mq.popFront i).2.numberOfQueue = mq.numberOfQueue := by
  simp only [popFront]
  split_ifs <;> rfl

@[simp] theorem front_popFront (mq : MultipleQueue) (i : ℕ) :
    (mq.popFront i).2.front = Function.update mq.front i ((mq.front i + 1) % mq.count) := by
  simp only [popFront]
  split_ifs <;> rfl

@[simp] theorem rear_popFront (mq : MultipleQueue) (i : ℕ) :
    (mq.popFront i).2.rear = mq.rear := by
  simp only [popFront]
  split_ifs <;> rfl

@[simp] theorem useCnt_popFront (mq : MultipleQueue) (i : ℕ) :
    (mq.popFront i).2.useCnt = Function.update mq.useCnt i (mq.useCnt i - 1) := by
  simp only [popFront]
  split_ifs <;> rfl

@[simp] theorem inqueueCnt_popFront (mq : MultipleQueue) (i : ℕ) :
    (mq.popFront i).2.inqueueCnt = mq.inqueueCnt - 1 := by
  simp only [popFront]
  split_ifs <;> rfl

/-- Popping the front slot forgets the location of the value it holds and of no other. -/
theorem location_popFront (mq : MultipleQueue) (i v : ℕ) :
    (mq.popFront i).2.location v =
      if mq.queue i (mq.front i) = v then { mq.location v with q := -1 } else mq.location v := by
  simp only [popFront]
  by_cases hrc : mq.queue i (mq.front i) ≥ 0
  · rw [if_pos hrc]
    by_cases hv : mq.queue i (mq.front i) = v
    · have htoNat : (mq.queue i (mq.front i)).toNat = v := by omega
      rw [if_pos hv, htoNat]
      simp [setLocationQ]
    · have htoNat : v ≠ (mq.queue i (mq.front i)).toNat := by omega
      rw [if_neg hv]
      simp [setLocationQ, Function.update_of_ne htoNat]
  · rw [if_neg hrc, if_neg (by omega)]

/-- The live slots of a queue in use are its front slot and the live slots after popping it. -/
theorem liveSlots_popFront_self (hrings : RingsOk mq) (hi : i < mq.numberOfQueue)
    (huse : 0 < mq.useCnt i) :
    mq.liveSlots i = mq.front i :: (mq.popFront i).2.liveSlots i := by
  have hsucc : mq.useCnt i = (mq.useCnt i - 1) + 1 := by omega
  unfold liveSlots
  rw [count_popFront, front_popFront, useCnt_popFront, Function.update_self, Function.update_self,
    ← ringWindow_cons (hrings.front_lt i hi), ← hsucc]

theorem liveSlots_popFront_of_ne (mq : MultipleQueue) {other : ℕ} (hne : other ≠ i) :
    (mq.popFront i).2.liveSlots other = mq.liveSlots other := by
  unfold liveSlots
  rw [count_popFront, front_popFront, useCnt_popFront, Function.update_of_ne hne,
    Function.update_of_ne hne]

/-- A slot that is live after popping was live before. -/
theorem mem_liveSlots_of_popFront (hrings : RingsOk mq) (hi : i < mq.numberOfQueue)
    (huse : 0 < mq.useCnt i) {other slot : ℕ} (hslot : slot ∈ (mq.popFront i).2.liveSlots other) :
    slot ∈ mq.liveSlots other := by
  by_cases hother : other = i
  · subst hother
    rw [liveSlots_popFront_self hrings hi huse]
    exact List.mem_cons_of_mem _ hslot
  · rwa [liveSlots_popFront_of_ne mq hother] at hslot

/-- The front slot is not live any more after it is popped. -/
theorem front_notMem_popFront (hrings : RingsOk mq) (hi : i < mq.numberOfQueue)
    (huse : 0 < mq.useCnt i) : mq.front i ∉ (mq.popFront i).2.liveSlots i := by
  have hle := hrings.useCnt_le i hi
  have hnodup : (mq.liveSlots i).Nodup := nodup_ringWindow (by omega)
  rw [liveSlots_popFront_self hrings hi huse] at hnodup
  exact (List.nodup_cons.mp hnodup).1

/-- Popping the front slot of a queue in use keeps the rings in order. -/
theorem ringsOk_popFront (hrings : RingsOk mq) (hi : i < mq.numberOfQueue)
    (huse : 0 < mq.useCnt i) : RingsOk (mq.popFront i).2 where
  count_pos := by simpa using hrings.count_pos
  front_lt := by
    intro other hother
    rw [numberOfQueue_popFront] at hother
    rw [front_popFront, count_popFront]
    by_cases heq : other = i
    · subst heq
      rw [Function.update_self]
      exact Nat.mod_lt _ hrings.count_pos
    · rw [Function.update_of_ne heq]
      exact hrings.front_lt other hother
  rear_eq := by
    intro other hother
    rw [numberOfQueue_popFront] at hother
    rw [rear_popFront, count_popFront, front_popFront, useCnt_popFront]
    by_cases heq : other = i
    · subst heq
      rw [Function.update_self, Function.update_self, ringIndex_front_succ,
        hrings.rear_eq other hother]
      congr 1
      omega
    · rw [Function.update_of_ne heq, Function.update_of_ne heq]
      exact hrings.rear_eq other hother
  useCnt_le := by
    intro other hother
    rw [numberOfQueue_popFront] at hother
    have hle := hrings.useCnt_le other hother
    rw [useCnt_popFront, count_popFront, Function.update_apply]
    split_ifs with heq
    · subst heq
      omega
    · exact hle
  inqueueCnt_eq := by
    have hmem : i ∈ Finset.range mq.numberOfQueue := Finset.mem_range.mpr hi
    have herase := Finset.sum_erase_add _ mq.useCnt hmem
    rw [inqueueCnt_popFront, numberOfQueue_popFront, useCnt_popFront,
      Finset.sum_update_of_mem hmem, Finset.sdiff_singleton_eq_erase, hrings.inqueueCnt_eq]
    omega

/-- Popping the front slot of a queue in use keeps the invariant. -/
theorem consistent_popFront (hmq : Consistent mq) (hi : i < mq.numberOfQueue)
    (huse : 0 < mq.useCnt i) : Consistent (mq.popFront i).2 where
  toRingsOk := ringsOk_popFront hmq.toRingsOk hi huse
  slot_located := by
    intro q hq slot hslot
    rw [numberOfQueue_popFront] at hq
    have hold := mem_liveSlots_of_popFront hmq.toRingsOk hi huse hslot
    rw [queue_popFront, maxValue_popFront]
    rcases hmq.slot_located q hq slot hold with hdead | ⟨v, hv, hvalue, hloc⟩
    · exact Or.inl hdead
    · refine Or.inr ⟨v, hv, hvalue, ?_⟩
      rw [location_popFront, if_neg, hloc]
      intro hfront
      have hmem : mq.front i ∈ mq.liveSlots i := by
        rw [liveSlots_popFront_self hmq.toRingsOk hi huse]
        exact List.mem_cons_self
      rcases hmq.slot_located i hi _ hmem with hdead | ⟨w, -, hw, hlocw⟩
      · omega
      · have hwv : w = v := by omega
        rw [hwv, hloc] at hlocw
        injection hlocw with hqi hslotFront
        have hsame : q = i := by omega
        have hplace : slot = mq.front i := by omega
        rw [hsame, hplace] at hslot
        exact front_notMem_popFront hmq.toRingsOk hi huse hslot
  located_slot := by
    intro v hv
    rw [maxValue_popFront] at hv
    rw [location_popFront, numberOfQueue_popFront, queue_popFront]
    split_ifs with hfront
    · exact Or.inl rfl
    · rcases hmq.located_slot v hv with hnone | ⟨q, hq, slot, hslot, hloc, hvalue⟩
      · exact Or.inl hnone
      · refine Or.inr ⟨q, hq, slot, ?_, hloc, hvalue⟩
        by_cases heq : q = i
        · subst heq
          rw [liveSlots_popFront_self hmq.toRingsOk hi huse, List.mem_cons] at hslot
          refine hslot.resolve_left fun hplace ↦ hfront ?_
          rw [← hplace, hvalue]
        · rwa [liveSlots_popFront_of_ne mq heq]

end PopFront

/-- The loop over the queues stops at the lowest-numbered queue in use. -/
theorem firstBusy_eq_some {i : ℕ} (hbusy : mq.firstBusy = some i) :
    i < mq.numberOfQueue ∧ 0 < mq.useCnt i ∧ ∀ j < i, mq.useCnt j = 0 := by
  rw [firstBusy, List.find?_range_eq_some] at hbusy
  obtain ⟨huse, hi, hlower⟩ := hbusy
  refine ⟨List.mem_range.mp hi, by simpa using huse, fun j hj ↦ ?_⟩
  simpa using hlower j hj

/-- A queue that counts slots has a queue in use. -/
theorem exists_firstBusy (hrings : RingsOk mq) (hcnt : mq.inqueueCnt ≠ 0) :
    ∃ i, mq.firstBusy = some i := by
  rw [hrings.inqueueCnt_eq] at hcnt
  obtain ⟨i, hi, huse⟩ := Finset.exists_ne_zero_of_sum_ne_zero hcnt
  refine Option.isSome_iff_exists.mp (List.find?_isSome.mpr ⟨i, ?_, ?_⟩)
  · exact List.mem_range.mpr (Finset.mem_range.mp hi)
  · simpa using Nat.pos_of_ne_zero huse

/-- What an iteration of `mq_dequeue` does: nothing on a queue that counts no slot, and otherwise
it pops the front slot of the lowest-numbered queue in use. -/
theorem mqDequeueOnce_cases (hrings : RingsOk mq) :
    (mq.inqueueCnt = 0 ∧ mq.mqDequeueOnce = (-1, mq)) ∨
      ∃ i < mq.numberOfQueue, 0 < mq.useCnt i ∧ (∀ j < i, mq.useCnt j = 0) ∧
        mq.inqueueCnt ≠ 0 ∧ mq.mqDequeueOnce = mq.popFront i := by
  by_cases hcnt : mq.inqueueCnt = 0
  · exact Or.inl ⟨hcnt, by simp [mqDequeueOnce, hcnt]⟩
  · obtain ⟨i, hbusy⟩ := exists_firstBusy hrings hcnt
    obtain ⟨hi, huse, hlower⟩ := firstBusy_eq_some hbusy
    exact Or.inr ⟨i, hi, huse, hlower, hcnt, by simp [mqDequeueOnce, hcnt, hbusy]⟩

/-- An iteration of `mq_dequeue` keeps the invariant. -/
theorem consistent_mqDequeueOnce (hmq : Consistent mq) : Consistent mq.mqDequeueOnce.2 := by
  rcases mqDequeueOnce_cases hmq.toRingsOk with ⟨-, heq⟩ | ⟨i, hi, huse, -, -, heq⟩
  · rw [heq]
    exact hmq
  · rw [heq]
    exact consistent_popFront hmq hi huse

end MultipleQueue

end Katmai.Mqueue
