import Katmai.Mqueue.FifoLists
import Katmai.Mqueue.QueueInvariant

/-!
# The multiple queue refines prioritised FIFO lists

The tombstones are what the multiple queue hides: `waiting q` drops them from the live slots of
queue `q`. `Represents` relates a consistent multiple queue to the lists of the values that wait in
it. An enqueue with room acts on the lists as `FifoLists.enqueue` (`represents_mqEnqueue`). An
iteration of `mq_dequeue` that pops a tombstone changes no list, and one that pops a value is
`FifoLists.dequeue` (`represents_mqDequeueOnce`), because the queue it pops is the lowest-numbered
one in use. `mq_refines_fifoLists` puts these together along whole runs and adds the outcome of a
whole call of `mq_dequeue` in the state reached: it returns the head of the best non-empty list, and
never returns when every list is empty.
-/

set_option autoImplicit false
set_option relaxedAutoImplicit false

namespace Katmai.Mqueue

open Foundation MultipleQueue

/-- Dropping one element of a duplicate-free list from a `filterMap` erases its image. -/
private theorem filterMap_except {α β : Type*} [DecidableEq α] [DecidableEq β] {f : α → Option β}
    {place : α} {image : β} (hf : f place = some image) (items : List α) (hnodup : items.Nodup)
    (hmem : place ∈ items) (hunique : ∀ item ∈ items, f item = some image → item = place) :
    items.filterMap (fun item ↦ if item = place then none else f item) =
      (items.filterMap f).erase image := by
  induction items with
  | nil => simp at hmem
  | cons first rest ih =>
    obtain ⟨hfirst, hrest⟩ := List.nodup_cons.mp hnodup
    by_cases hhere : first = place
    · subst hhere
      have hsame : rest.filterMap (fun item ↦ if item = first then none else f item) =
          rest.filterMap f := by
        refine List.filterMap_congr fun item hitem ↦ ?_
        rw [if_neg]
        rintro rfl
        exact hfirst hitem
      rw [List.filterMap_cons_none (by simp), hsame, List.filterMap_cons_some hf,
        List.erase_cons_head]
    · have hin : place ∈ rest := (List.mem_cons.mp hmem).resolve_left fun h ↦ hhere h.symm
      have hrec := ih hrest hin fun item hitem ↦ hunique item (List.mem_cons_of_mem _ hitem)
      cases hvalue : f first with
      | none =>
        rw [List.filterMap_cons_none (by simp [hhere, hvalue]), List.filterMap_cons_none hvalue,
          hrec]
      | some other =>
        have hne : other ≠ image := by
          rintro rfl
          exact hhere (hunique first List.mem_cons_self hvalue)
        rw [List.filterMap_cons, if_neg hhere, List.filterMap_cons, hvalue,
          List.erase_cons_tail (by simpa using hne), hrec]

namespace MultipleQueue

variable {mq : MultipleQueue} {n q : ℕ}

/-! ### The waiting values of a consistent queue -/

/-- A waiting value is located at the queue in which it waits. -/
theorem location_of_mem_waiting (hmq : Consistent mq) (hq : q < mq.numberOfQueue) {v : ℕ}
    (hv : v ∈ mq.waiting q) :
    v ≤ mq.maxValue ∧ ∃ slot ∈ mq.liveSlots q, mq.location v = ⟨q, slot⟩ ∧ mq.queue q slot = v := by
  obtain ⟨slot, hslot, hvalue⟩ := mem_waiting.mp hv
  rcases hmq.slot_located q hq slot hslot with hdead | ⟨w, hw, hvalue', hloc⟩
  · omega
  · have hwv : w = v := by omega
    subst hwv
    exact ⟨hw, slot, hslot, hloc, hvalue⟩

/-- A value waits in a queue exactly if its location names that queue. -/
theorem mem_waiting_iff (hmq : Consistent mq) (hq : q < mq.numberOfQueue) {v : ℕ}
    (hv : v ≤ mq.maxValue) : v ∈ mq.waiting q ↔ (mq.location v).q = q := by
  constructor
  · intro hmem
    obtain ⟨-, slot, -, hloc, -⟩ := location_of_mem_waiting hmq hq hmem
    rw [hloc]
  · intro hloc
    rcases hmq.located_slot v hv with hnone | ⟨p, -, slot, hslot, hlocv, hvalue⟩
    · omega
    · have hpq : p = q := by
        rw [hlocv] at hloc
        exact Int.ofNat_inj.mp hloc
      subst hpq
      exact mem_waiting.mpr ⟨slot, hslot, hvalue⟩

theorem nodup_waiting (hmq : Consistent mq) (hq : q < mq.numberOfQueue) :
    (mq.waiting q).Nodup := by
  have hle := hmq.useCnt_le q hq
  have hslots : (mq.liveSlots q).Nodup := nodup_ringWindow (by omega)
  refine List.pairwise_filterMap.mpr (List.Pairwise.imp_of_mem ?_ hslots)
  intro first second hfirst hsecond hne v hv w hw hvw
  subst hvw
  rw [slotValue_eq_some] at hv hw
  rcases hmq.slot_located q hq first hfirst with hdead | ⟨u, -, hu, hlocu⟩
  · omega
  rcases hmq.slot_located q hq second hsecond with hdead | ⟨u', -, hu', hlocu'⟩
  · omega
  have huv : u = v := by omega
  have huv' : u' = v := by omega
  rw [huv] at hlocu
  rw [huv', hlocu] at hlocu'
  injection hlocu' with _ hslot
  exact hne (by omega)

theorem disjoint_waiting (hmq : Consistent mq) {p : ℕ} (hp : p < mq.numberOfQueue)
    (hq : q < mq.numberOfQueue) (hne : p ≠ q) :
    List.Disjoint (mq.waiting p) (mq.waiting q) := by
  intro v hvp hvq
  obtain ⟨-, slot, -, hloc, -⟩ := location_of_mem_waiting hmq hp hvp
  obtain ⟨-, slot', -, hloc', -⟩ := location_of_mem_waiting hmq hq hvq
  rw [hloc] at hloc'
  injection hloc' with hqs _
  exact hne (by omega)

/-- The lists of the waiting values of a consistent queue. -/
def toFifoLists (mq : MultipleQueue) (hmq : Consistent mq) : FifoLists where
  nq := mq.numberOfQueue
  list := mq.waiting
  nodup := fun _ hq ↦ nodup_waiting hmq hq
  disjoint := fun _ hp _ hq hne ↦ disjoint_waiting hmq hp hq hne

/-! ### How the stores act on the waiting values -/

/-- Putting a value at the rear of a queue with room appends it to the values waiting there. -/
theorem waiting_putRear (hrings : RingsOk mq) (n : ℕ) (hq : q < mq.numberOfQueue)
    (hroom : mq.useCnt q < mq.count - 1) (other : ℕ) :
    (mq.putRear n q).waiting other =
      if other = q then mq.waiting q ++ [n] else mq.waiting other := by
  have hrear := rear_notMem_liveSlots hrings hq hroom
  unfold waiting
  rw [liveSlots_putRear hrings n hq]
  by_cases hother : other = q
  · subst hother
    rw [if_pos rfl, if_pos rfl, List.filterMap_append]
    congr 1
    · refine List.filterMap_congr fun slot hslot ↦ ?_
      rw [queue_putRear, if_neg]
      rintro ⟨-, rfl⟩
      exact hrear hslot
    · simp [queue_putRear]
  · rw [if_neg hother, if_neg hother]
    refine List.filterMap_congr fun slot _ ↦ ?_
    rw [queue_putRear, if_neg fun h ↦ hother h.1]

/-- A tombstone erases its value from the waiting values. -/
theorem waiting_setSlot (hmq : Consistent mq) {i slot : ℕ} (hi : i < mq.numberOfQueue)
    (hslot : slot ∈ mq.liveSlots i) (hloc : mq.location n = ⟨i, slot⟩)
    (hholds : mq.queue i slot = n) (hq : q < mq.numberOfQueue) :
    (mq.setSlot i slot (-1)).waiting q = (mq.waiting q).erase n := by
  by_cases heq : q = i
  · subst heq
    have hle := hmq.useCnt_le q hq
    have hunique : ∀ place ∈ mq.liveSlots q, slotValue (mq.queue q place) = some n →
        place = slot := by
      intro place hplace hvalue
      rw [slotValue_eq_some] at hvalue
      rcases hmq.slot_located q hq place hplace with hdead | ⟨v, -, hv, hlocv⟩
      · omega
      · have hvn : v = n := by omega
        rw [hvn, hloc] at hlocv
        injection hlocv with _ hplaceEq
        omega
    have hexcept := filterMap_except (f := fun place ↦ slotValue (mq.queue q place))
      (by simp [hholds]) (mq.liveSlots q) (nodup_ringWindow (by omega)) hslot hunique
    unfold waiting
    rw [← hexcept, liveSlots_setSlot]
    refine List.filterMap_congr fun place _ ↦ ?_
    rw [queue_setSlot]
    by_cases hplace : place = slot <;> simp [hplace]
  · have habsent : n ∉ mq.waiting q := by
      intro hmem
      obtain ⟨-, place, -, hloc', -⟩ := location_of_mem_waiting hmq hq hmem
      rw [hloc] at hloc'
      injection hloc' with hqi _
      exact heq (by omega)
    rw [List.erase_of_not_mem habsent]
    unfold waiting
    rw [liveSlots_setSlot]
    refine List.filterMap_congr fun place _ ↦ ?_
    rw [queue_setSlot, if_neg fun h ↦ heq h.1]

/-- Popping the front slot drops its value, if it holds one, from the head of the waiting values. -/
theorem waiting_popFront_self (hrings : RingsOk mq) (hq : q < mq.numberOfQueue)
    (huse : 0 < mq.useCnt q) :
    mq.waiting q =
      (slotValue (mq.popFront q).1).toList ++ (mq.popFront q).2.waiting q := by
  have hfirst : (mq.popFront q).1 = mq.queue q (mq.front q) := rfl
  unfold waiting
  rw [liveSlots_popFront_self hrings hq huse, queue_popFront, hfirst]
  cases hvalue : slotValue (mq.queue q (mq.front q)) with
  | none => simp [hvalue]
  | some v => simp [hvalue]

theorem waiting_popFront_of_ne (mq : MultipleQueue) {i : ℕ} (hne : q ≠ i) :
    (mq.popFront i).2.waiting q = mq.waiting q := by
  unfold waiting
  rw [liveSlots_popFront_of_ne mq hne, queue_popFront]

theorem waiting_eq_nil (mq : MultipleQueue) (huse : mq.useCnt q = 0) : mq.waiting q = [] := by
  simp [waiting, liveSlots, huse]

end MultipleQueue

/-! ### The simulation -/

/-- A consistent multiple queue represents the lists of its waiting values. -/
structure Represents (mq : MultipleQueue) (a : FifoLists) : Prop where
  consistent : Consistent mq
  nq_eq : a.nq = mq.numberOfQueue
  list_eq : ∀ q < mq.numberOfQueue, a.list q = mq.waiting q

/-- The machine of the lists, for the events of the multiple queue: an iteration of `mq_dequeue`
that ends with a negative `rc` changes nothing, any other one is a dequeue that returns `rc`. -/
def fifoStep (a : FifoLists) : MqEvent → Option FifoLists
  | .enqueue n q => if q < a.nq then some (a.enqueue n q) else none
  | .iterate rc =>
    if rc < 0 then some a
    else
      match a.dequeue with
      | some (v, a') => if rc = v then some a' else none
      | none => none

/-- The condition on the steps of a run: no enqueue finds its target queue full. -/
def FindsRoom (mq : MultipleQueue) : MqEvent → Prop
  | .enqueue _ q => mq.useCnt q ≠ mq.count - 1
  | .iterate _ => True

instance (mq : MultipleQueue) : ∀ event, Decidable (FindsRoom mq event)
  | .enqueue _ q => inferInstanceAs (Decidable (mq.useCnt q ≠ mq.count - 1))
  | .iterate _ => .isTrue trivial

variable {mq : MultipleQueue} {a : FifoLists} {n q : ℕ}

theorem consistent_newMultipleQueue {nq maxv : ℕ} (hnew : newMultipleQueue n nq maxv = some mq) :
    Consistent mq ∧ mq.count = n + 1 ∧ mq.numberOfQueue = nq ∧ mq.maxValue = maxv ∧
      ∀ q, mq.waiting q = [] := by
  unfold newMultipleQueue at hnew
  split_ifs at hnew
  rw [Option.some.injEq] at hnew
  subst hnew
  refine ⟨⟨⟨by simp, by simp, by simp [ringIndex], by simp, by simp⟩, ?_, by simp⟩, rfl, rfl, rfl,
    ?_⟩
  · intro q _ slot hslot
    simp [liveSlots] at hslot
  · intro q
    simp [waiting, liveSlots]

/-- An enqueue with room, whenever it needs it, acts on the lists as their enqueue. -/
theorem represents_mqEnqueue (hrep : Represents mq a) (hn : n ≤ mq.maxValue)
    (hq : q < mq.numberOfQueue)
    (hroom : (mq.location n).q < 0 ∨ (mq.location n).q > q → mq.useCnt q < mq.count - 1) :
    Represents (mq.mqEnqueue n q) (a.enqueue n q) := by
  have hmq := hrep.consistent
  have hconsistent := consistent_mqEnqueue hmq hn hq hroom
  rcases mqEnqueue_cases hmq hn q hroom with ⟨i, hiq, hi, hloc, heq⟩ | ⟨habsent, hspace, heq⟩ |
    ⟨i, slot, hqi, hi, hslot, hloc, hvalue, hspace, heq⟩
  · have hmem : n ∈ a.list i := by
      rw [hrep.list_eq i hi]
      exact (mem_waiting_iff hmq hi hn).mpr hloc
    rw [heq, FifoLists.enqueue_of_mem (hrep.nq_eq ▸ hi) hmem, if_neg (by omega)]
    exact hrep
  · have habsent' : ∀ p < a.nq, n ∉ a.list p := by
      intro p hp hmem
      rw [hrep.nq_eq] at hp
      rw [hrep.list_eq p hp, mem_waiting_iff hmq hp hn] at hmem
      omega
    rw [heq] at hconsistent ⊢
    rw [FifoLists.enqueue_of_absent habsent']
    refine ⟨hconsistent, hrep.nq_eq, fun p hp ↦ ?_⟩
    rw [waiting_putRear hmq.toRingsOk n hq hspace, ← hrep.list_eq q hq]
    change Function.update a.list q (a.list q ++ [n]) p = _
    rw [Function.update_apply]
    split_ifs
    · rfl
    · exact hrep.list_eq p hp
  · have hmem : n ∈ a.list i := by
      rw [hrep.list_eq i hi]
      exact mem_waiting.mpr ⟨slot, hslot, hvalue⟩
    have haway := awayFrom_setSlot hmq hloc hvalue
    rw [heq] at hconsistent ⊢
    rw [FifoLists.enqueue_of_mem (hrep.nq_eq ▸ hi) hmem, if_pos hqi]
    refine ⟨hconsistent, hrep.nq_eq, fun p hp ↦ ?_⟩
    rw [waiting_putRear haway.toRingsOk n hq hspace]
    change Function.update (fun p ↦ (a.list p).erase n) q ((a.list q).erase n ++ [n]) p = _
    rw [Function.update_apply]
    split_ifs
    · rw [hrep.list_eq q hq, waiting_setSlot hmq hi hslot hloc hvalue hq]
    · rw [hrep.list_eq p hp, waiting_setSlot hmq hi hslot hloc hvalue hp]

/-- An iteration of `mq_dequeue` that ends with a negative `rc` represents the same lists, and one
that ends with a value is a dequeue of the lists. -/
theorem represents_mqDequeueOnce (hrep : Represents mq a) :
    (mq.mqDequeueOnce.1 < 0 ∧ Represents mq.mqDequeueOnce.2 a ∧
        (mq.inqueueCnt ≠ 0 → mq.mqDequeueOnce.2.inqueueCnt < mq.inqueueCnt)) ∨
      ∃ v a', mq.mqDequeueOnce.1 = (v : ℕ) ∧ a.dequeue = some (v, a') ∧
        Represents mq.mqDequeueOnce.2 a' := by
  have hmq := hrep.consistent
  have hconsistent := consistent_mqDequeueOnce hmq
  rcases mqDequeueOnce_cases hmq.toRingsOk with ⟨hcnt, heq⟩ | ⟨i, hi, huse, hlower, hcnt, heq⟩
  · rw [heq]
    exact Or.inl ⟨by simp, hrep, fun h ↦ absurd hcnt h⟩
  · rw [heq] at hconsistent ⊢
    have hself := waiting_popFront_self hmq.toRingsOk hi huse
    cases hvalue : slotValue (mq.popFront i).1 with
    | none =>
      rw [hvalue, Option.toList_none, List.nil_append] at hself
      refine Or.inl ⟨?_, ⟨hconsistent, by simpa using hrep.nq_eq, fun p hp ↦ ?_⟩, fun _ ↦ ?_⟩
      · by_contra hnonneg
        simp [slotValue, hnonneg] at hvalue
      · rw [numberOfQueue_popFront] at hp
        rw [hrep.list_eq p hp]
        by_cases hpi : p = i
        · rw [hpi, hself]
        · rw [waiting_popFront_of_ne mq hpi]
      · rw [inqueueCnt_popFront]
        omega
    | some v =>
      rw [hvalue, Option.toList_some, List.singleton_append] at hself
      have hlist : a.list i = v :: (mq.popFront i).2.waiting i := by
        rw [hrep.list_eq i hi, hself]
      have hempty : ∀ j < i, a.list j = [] := by
        intro j hj
        rw [hrep.list_eq j (by omega)]
        exact waiting_eq_nil mq (hlower j hj)
      refine Or.inr ⟨v, a.dropHead i, slotValue_eq_some.mp hvalue,
        FifoLists.dequeue_of_head (hrep.nq_eq ▸ hi) hlist hempty,
        ⟨hconsistent, hrep.nq_eq.trans (numberOfQueue_popFront mq i).symm, fun p hp ↦ ?_⟩⟩
      rw [numberOfQueue_popFront] at hp
      change Function.update a.list i (a.list i).tail p = _
      rw [Function.update_apply]
      split_ifs with hpi
      · rw [hpi, hlist, List.tail_cons]
      · rw [hrep.list_eq p hp, waiting_popFront_of_ne mq hpi]

/-- A call of `mq_dequeue` returns the head of the best non-empty list, after at most one iteration
for every slot the queue counts. -/
theorem mqDequeue_of_dequeue (wait : Bool) {v : ℕ} {a' : FifoLists} (fuel : ℕ) :
    ∀ mq, Represents mq a → mq.inqueueCnt < fuel → a.dequeue = some (v, a') →
      ∃ mq', mqDequeue wait fuel mq = some ((v : ℤ), mq') ∧ Represents mq' a' := by
  induction fuel with
  | zero => intro mq _ hfuel; omega
  | succ fuel ih =>
    intro mq hrep hfuel hdequeue
    have hcnt : mq.inqueueCnt ≠ 0 := by
      intro hzero
      rw [hrep.consistent.inqueueCnt_eq, Finset.sum_eq_zero_iff] at hzero
      have hempty : ∀ p < a.nq, a.list p = [] := by
        intro p hp
        rw [hrep.nq_eq] at hp
        rw [hrep.list_eq p hp]
        exact waiting_eq_nil mq (hzero p (Finset.mem_range.mpr hp))
      rw [FifoLists.dequeue_of_empty hempty] at hdequeue
      simp at hdequeue
    have hready : ¬(wait = true ∧ mq.inqueueCnt = 0) := fun h ↦ hcnt h.2
    rcases represents_mqDequeueOnce hrep with ⟨hneg, hrep', hless⟩ | ⟨w, b, hrc, hdequeue', hrep'⟩
    · have hrec := ih mq.mqDequeueOnce.2 hrep' (by have := hless hcnt; omega) hdequeue
      simpa only [mqDequeue, if_neg hready, if_pos hneg] using hrec
    · rw [hdequeue, Option.some.injEq, Prod.mk.injEq] at hdequeue'
      obtain ⟨rfl, rfl⟩ := hdequeue'
      have hpos : ¬mq.mqDequeueOnce.1 < 0 := by omega
      refine ⟨mq.mqDequeueOnce.2, ?_, hrep'⟩
      simp only [mqDequeue, if_neg hready, if_neg hpos]
      rw [← hrc]

/-- A call of `mq_dequeue` never returns while every list is empty. -/
theorem mqDequeue_eq_none (wait : Bool) (fuel : ℕ) :
    ∀ mq, Represents mq a → a.dequeue = none → mqDequeue wait fuel mq = none := by
  induction fuel with
  | zero => intro mq _ _; rfl
  | succ fuel ih =>
    intro mq hrep hdequeue
    rcases represents_mqDequeueOnce hrep with ⟨hneg, hrep', -⟩ | ⟨w, b, -, hdequeue', -⟩
    · simp only [mqDequeue, if_pos hneg]
      split_ifs
      · rfl
      · exact ih _ hrep' hdequeue
    · rw [hdequeue] at hdequeue'
      simp at hdequeue'

/-- A step with room is matched by the machine of the lists. -/
theorem fifoStep_of_mqStep {mq' : MultipleQueue} {event : MqEvent} (hrep : Represents mq a)
    (hroom : FindsRoom mq event) (hstep : mqStep mq event = some mq') :
    ∃ a', fifoStep a event = some a' ∧ Represents mq' a' := by
  cases event with
  | enqueue n q =>
    simp only [mqStep] at hstep
    split_ifs at hstep with hrange
    obtain ⟨hn, hq⟩ := hrange
    rw [Option.some.injEq] at hstep
    subst hstep
    have hle := hrep.consistent.useCnt_le q hq
    have hfull : mq.useCnt q ≠ mq.count - 1 := hroom
    refine ⟨a.enqueue n q, ?_, represents_mqEnqueue hrep hn hq fun _ ↦ by omega⟩
    rw [fifoStep, if_pos (by rw [hrep.nq_eq]; exact hq)]
  | iterate rc =>
    simp only [mqStep] at hstep
    split_ifs at hstep with hrc
    rw [Option.some.injEq] at hstep
    subst hstep hrc
    rcases represents_mqDequeueOnce hrep with ⟨hneg, hrep', -⟩ | ⟨v, a', hv, hdequeue, hrep'⟩
    · exact ⟨a, by simp only [fifoStep, if_pos hneg], hrep'⟩
    · have hpos : ¬(v : ℤ) < 0 := by omega
      refine ⟨a', ?_, hrep'⟩
      simp [fifoStep, hv, hdequeue]

/-- The empty lists. -/
def emptyLists (nq : ℕ) : FifoLists where
  nq := nq
  list := fun _ ↦ []
  nodup := fun _ _ ↦ List.nodup_nil
  disjoint := fun _ _ _ _ _ ↦ List.disjoint_nil_left _

theorem represents_newMultipleQueue {nq maxv : ℕ} (hnew : newMultipleQueue n nq maxv = some mq) :
    Represents mq (emptyLists nq) := by
  obtain ⟨hmq, -, hnq, -, hempty⟩ := consistent_newMultipleQueue hnew
  exact ⟨hmq, hnq.symm, fun q _ ↦ (hempty q).symm⟩

/-- Along every run in which no enqueue finds its target queue full, the multiple queue refines the
FIFO lists: the same events are a run of the lists and the final states represent each other. In
the state reached a call of `mq_dequeue`, waiting or not, returns the head of the best non-empty
list and leaves the dequeued lists, and does not return when every list is empty. -/
theorem mq_refines_fifoLists {nq maxv : ℕ} {mq₀ : MultipleQueue} {events : List MqEvent}
    (hnew : newMultipleQueue n nq maxv = some mq₀) (hroom : Meets mqStep FindsRoom mq₀ events)
    (hrun : run mqStep mq₀ events = some mq) :
    ∃ lists, run fifoStep (emptyLists nq) events = some lists ∧ Represents mq lists ∧
      (∀ wait v lists', lists.dequeue = some (v, lists') →
        ∃ mq', mqDequeue wait (mq.inqueueCnt + 1) mq = some ((v : ℤ), mq') ∧
          Represents mq' lists') ∧
      ∀ wait fuel, lists.dequeue = none → mqDequeue wait fuel mq = none := by
  have hsim : ∀ s a event s', Represents s a → FindsRoom s event → mqStep s event = some s' →
      ∃ a', fifoStep a event = some a' ∧ Represents s' a' :=
    fun _ _ _ _ hrel hgood hstep ↦ fifoStep_of_mqStep hrel hgood hstep
  obtain ⟨lists, hlists, hrep⟩ :=
    run_simulation hsim (represents_newMultipleQueue hnew) hroom hrun
  exact ⟨lists, hlists, hrep,
    fun wait v lists' hdequeue ↦ mqDequeue_of_dequeue wait _ mq hrep (by omega) hdequeue,
    fun wait fuel hdequeue ↦ mqDequeue_eq_none wait fuel mq hrep hdequeue⟩

/-- A run with a jump: value `2` overtakes value `1`, its tombstone is skipped, and the lists follow
the queue. -/
theorem mq_refines_fifoLists_jump :
    ∃ mq₀ mq lists, newMultipleQueue 2 2 3 = some mq₀ ∧
      run mqStep mq₀ [.enqueue 2 1, .enqueue 1 1, .enqueue 2 0, .iterate 2, .iterate (-1)] =
        some mq ∧
      run fifoStep (emptyLists 2)
          [.enqueue 2 1, .enqueue 1 1, .enqueue 2 0, .iterate 2, .iterate (-1)] = some lists ∧
        Represents mq lists := by
  obtain ⟨lists, hlists, hrep, -⟩ :=
    @mq_refines_fifoLists _ 2 2 3 _
      [.enqueue 2 1, .enqueue 1 1, .enqueue 2 0, .iterate 2, .iterate (-1)] rfl (by decide) rfl
  exact ⟨_, _, lists, rfl, rfl, hlists, hrep⟩

end Katmai.Mqueue
