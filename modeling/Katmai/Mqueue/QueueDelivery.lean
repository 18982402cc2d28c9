import Katmai.Mqueue.QueueRefinement

/-!
# No value is lost in a multiple queue

`LocationFaithful` says what the location table promises: a value is located at a queue exactly if
one live slot of that queue, and no live slot of another, holds it, and then the location is that
slot. `mq_enqueue` breaks the promise when it meets a full ring, because it writes the location
before it tests the capacity (`mqEnqueue_full_loses_value`): the value is then located at a queue
that does not hold it, and every later enqueue of it at the same or a worse priority does nothing.

`mq_faithful_of_room` shows that this is the only way. Along every run in which an enqueue that
needs a slot finds one, the table is faithful, the counters agree, every stay of a value in the
queue ends in exactly one dequeue or is still going on (`arrivals`, `departures`), and as many
dequeues as there are waiting values return each of them once (`drain`).
-/

set_option autoImplicit false
set_option relaxedAutoImplicit false

namespace Katmai.Mqueue

open Foundation MultipleQueue

/-- What the location table says about the rings. -/
structure LocationFaithful (mq : MultipleQueue) : Prop where
  located_iff : ∀ v ≤ mq.maxValue, ∀ q < mq.numberOfQueue, (mq.location v).q = q ↔
    (∃! slot, slot ∈ mq.liveSlots q ∧ mq.queue q slot = v) ∧
      ∀ p < mq.numberOfQueue, p ≠ q → ∀ slot ∈ mq.liveSlots p, mq.queue p slot ≠ v
  located_slot : ∀ v ≤ mq.maxValue, ∀ q < mq.numberOfQueue, (mq.location v).q = q →
    ∃ slot ∈ mq.liveSlots q, (mq.location v).i = slot ∧ mq.queue q slot = v
  located_range : ∀ v ≤ mq.maxValue, 0 ≤ (mq.location v).q →
    ∃ q < mq.numberOfQueue, (mq.location v).q = q

/-- The condition on the steps of a run: an enqueue that would put its value in a queue, because it
waits nowhere or at a worse priority, does not find that queue full. -/
def FindsRoomIfNeeded (mq : MultipleQueue) : MqEvent → Prop
  | .enqueue n q => (mq.location n).q < 0 ∨ (mq.location n).q > q → mq.useCnt q ≠ mq.count - 1
  | .iterate _ => True

instance (mq : MultipleQueue) : ∀ event, Decidable (FindsRoomIfNeeded mq event)
  | .enqueue n q => inferInstanceAs (Decidable
      ((mq.location n).q < 0 ∨ (mq.location n).q > q → mq.useCnt q ≠ mq.count - 1))
  | .iterate _ => .isTrue trivial

/-- The number of stays of `v` that begin along a run: enqueues that find it waiting nowhere. -/
def arrivals (v : ℕ) : MultipleQueue → List MqEvent → ℕ
  | _, [] => 0
  | mq, event :: rest =>
    (match event with
      | .enqueue n _ => if n = v ∧ (mq.location n).q < 0 then 1 else 0
      | .iterate _ => 0) +
    match mqStep mq event with
    | some mq' => arrivals v mq' rest
    | none => 0

/-- The number of times a dequeue returns `v` along a run. -/
def departures (v : ℕ) (events : List MqEvent) : ℕ :=
  events.count (.iterate v)

/-- `k` calls of `mq_dequeue` in a row, with the values they return. -/
def drain : ℕ → MultipleQueue → Option (List ℤ × MultipleQueue)
  | 0, mq => some ([], mq)
  | k + 1, mq =>
    match mqDequeue true (mq.inqueueCnt + 1) mq with
    | some (rc, mq') =>
      match drain k mq' with
      | some (rest, final) => some (rc :: rest, final)
      | none => none
    | none => none

/-- Whether a value waits. -/
def stays (mq : MultipleQueue) (v : ℕ) : ℕ :=
  if 0 ≤ (mq.location v).q then 1 else 0

variable {mq mq' : MultipleQueue} {a : FifoLists}

/-! ### The table of a consistent queue is faithful -/

theorem locationFaithful_of_consistent (hmq : Consistent mq) : LocationFaithful mq where
  located_iff := by
    intro v hv q hq
    rw [← mem_waiting_iff hmq hq hv]
    constructor
    · intro hmem
      obtain ⟨-, slot, hslot, hloc, hvalue⟩ := location_of_mem_waiting hmq hq hmem
      refine ⟨⟨slot, ⟨hslot, hvalue⟩, ?_⟩, ?_⟩
      · rintro other ⟨hother, hvalue'⟩
        rcases hmq.slot_located q hq other hother with hdead | ⟨w, -, hw, hlocw⟩
        · omega
        · have hwv : w = v := by omega
          rw [hwv, hloc] at hlocw
          injection hlocw with _ hplace
          omega
      · intro p hp hne other hother hvalue'
        exact disjoint_waiting hmq hp hq hne (mem_waiting.mpr ⟨other, hother, hvalue'⟩) hmem
    · rintro ⟨⟨slot, ⟨hslot, hvalue⟩, -⟩, -⟩
      exact mem_waiting.mpr ⟨slot, hslot, hvalue⟩
  located_slot := by
    intro v hv q hq hloc
    obtain ⟨-, slot, hslot, hlocv, hvalue⟩ :=
      location_of_mem_waiting hmq hq ((mem_waiting_iff hmq hq hv).mpr hloc)
    exact ⟨slot, hslot, by rw [hlocv], hvalue⟩
  located_range := by
    intro v hv hloc
    rcases hmq.located_slot v hv with hnone | ⟨q, hq, slot, -, hlocv, -⟩
    · omega
    · exact ⟨q, hq, by rw [hlocv]⟩

/-! ### Steps that find room when they need it -/

/-- What such a step keeps: the invariant, and with it the sizes of the queue. -/
theorem consistent_mqStep {event : MqEvent} (hmq : Consistent mq)
    (hroom : FindsRoomIfNeeded mq event) (hstep : mqStep mq event = some mq') :
    Consistent mq' ∧ mq'.count = mq.count ∧ mq'.numberOfQueue = mq.numberOfQueue ∧
      mq'.maxValue = mq.maxValue := by
  cases event with
  | enqueue n q =>
    simp only [mqStep] at hstep
    split_ifs at hstep with hrange
    obtain ⟨hn, hq⟩ := hrange
    rw [Option.some.injEq] at hstep
    subst hstep
    have hspace : (mq.location n).q < 0 ∨ (mq.location n).q > q → mq.useCnt q < mq.count - 1 := by
      intro hneeded
      have hne := hroom hneeded
      have hle := hmq.useCnt_le q hq
      omega
    refine ⟨consistent_mqEnqueue hmq hn hq hspace, ?_⟩
    rcases mqEnqueue_cases hmq hn q hspace with ⟨i, -, -, -, heq⟩ | ⟨-, -, heq⟩ |
      ⟨i, slot, -, -, -, -, -, -, heq⟩
    · rw [heq]
      exact ⟨rfl, rfl, rfl⟩
    · rw [heq]
      exact ⟨rfl, rfl, rfl⟩
    · rw [heq]
      exact ⟨rfl, rfl, rfl⟩
  | iterate rc =>
    simp only [mqStep] at hstep
    split_ifs at hstep with hrc
    rw [Option.some.injEq] at hstep
    subst hstep
    refine ⟨consistent_mqDequeueOnce hmq, ?_⟩
    rcases mqDequeueOnce_cases hmq.toRingsOk with ⟨-, heq⟩ | ⟨i, -, -, -, -, heq⟩
    · rw [heq]
      exact ⟨rfl, rfl, rfl⟩
    · rw [heq]
      exact ⟨count_popFront mq i, numberOfQueue_popFront mq i, maxValue_popFront mq i⟩

/-- An enqueue begins a stay of its value exactly if it finds the value waiting nowhere. -/
theorem stays_mqEnqueue {n q : ℕ} (hmq : Consistent mq) (hn : n ≤ mq.maxValue)
    (hroom : (mq.location n).q < 0 ∨ (mq.location n).q > q → mq.useCnt q < mq.count - 1) (v : ℕ) :
    stays (mq.mqEnqueue n q) v =
      stays mq v + if n = v ∧ (mq.location n).q < 0 then 1 else 0 := by
  unfold stays
  rcases mqEnqueue_cases hmq hn q hroom with ⟨i, -, -, hloc, heq⟩ | ⟨habsent, -, heq⟩ |
    ⟨i, slot, -, -, -, hloc, -, -, heq⟩
  · have hpresent : ¬(n = v ∧ (mq.location n).q < 0) := by omega
    rw [heq, if_neg hpresent, Nat.add_zero]
  · rw [heq, location_putRear]
    by_cases hvn : v = n
    · subst hvn
      have hbefore : ¬0 ≤ (mq.location v).q := by omega
      simp [habsent, hbefore]
    · have hother : ¬(n = v ∧ (mq.location n).q < 0) := fun h ↦ hvn h.1.symm
      rw [if_neg hvn, if_neg hother, Nat.add_zero]
  · have hpresent : ¬(n = v ∧ (mq.location n).q < 0) := by
      rw [hloc]
      rintro ⟨-, hneg⟩
      simp only at hneg
      omega
    rw [heq, if_neg hpresent, location_putRear, Nat.add_zero]
    by_cases hvn : v = n
    · subst hvn
      simp [hloc]
    · rw [if_neg hvn]
      rfl

/-- An iteration of `mq_dequeue` ends a stay of the value it returns, and of no other. -/
theorem stays_mqDequeueOnce (hmq : Consistent mq) {v : ℕ} (hv : v ≤ mq.maxValue) :
    stays mq v = stays mq.mqDequeueOnce.2 v + if mq.mqDequeueOnce.1 = v then 1 else 0 := by
  unfold stays
  rcases mqDequeueOnce_cases hmq.toRingsOk with ⟨-, heq⟩ | ⟨i, hi, huse, -, -, heq⟩
  · have hne : ¬(-1 : ℤ) = v := by omega
    simp only [heq, if_neg hne, Nat.add_zero]
  · have hfirst : (mq.popFront i).1 = mq.queue i (mq.front i) := rfl
    rw [heq, location_popFront, hfirst]
    by_cases hfront : mq.queue i (mq.front i) = v
    · have hmem : v ∈ mq.waiting i := by
        refine mem_waiting.mpr ⟨mq.front i, ?_, hfront⟩
        rw [liveSlots_popFront_self hmq.toRingsOk hi huse]
        exact List.mem_cons_self
      have hloc := (mem_waiting_iff hmq hi hv).mp hmem
      have hbefore : 0 ≤ (mq.location v).q := by omega
      simp [hfront, hbefore]
    · rw [if_neg hfront, if_neg hfront, Nat.add_zero]

/-- A stay begins with an enqueue that finds the value nowhere and ends with the dequeue that
returns it. -/
theorem stays_mqStep {event : MqEvent} (hmq : Consistent mq) (hroom : FindsRoomIfNeeded mq event)
    (hstep : mqStep mq event = some mq') {v : ℕ} (hv : v ≤ mq.maxValue) :
    stays mq v + arrivals v mq [event] = departures v [event] + stays mq' v := by
  cases event with
  | enqueue n q =>
    have harrive : arrivals v mq [.enqueue n q] =
        if n = v ∧ (mq.location n).q < 0 then 1 else 0 := by
      simp [arrivals, hstep]
    have hdepart : departures v [.enqueue n q] = 0 := by simp [departures]
    simp only [mqStep] at hstep
    split_ifs at hstep with hrange
    rw [Option.some.injEq] at hstep
    rw [harrive, hdepart, ← hstep, stays_mqEnqueue hmq hrange.1 fun hneeded ↦ ?_, Nat.zero_add]
    have hne := hroom hneeded
    have hle := hmq.useCnt_le q hrange.2
    omega
  | iterate rc =>
    have harrive : arrivals v mq [.iterate rc] = 0 := by
      simp [arrivals, hstep]
    have hdepart : departures v [.iterate rc] = if rc = v then 1 else 0 := by
      simp [departures, List.count_singleton]
    simp only [mqStep] at hstep
    split_ifs at hstep with hrc
    rw [Option.some.injEq] at hstep
    rw [harrive, hdepart, ← hstep, stays_mqDequeueOnce hmq hv, hrc, Nat.add_zero, Nat.add_comm]

/-! ### Draining -/

/-- As many dequeues as there are waiting values return them all, in the order of the lists. -/
theorem drain_of_represents (values : List ℕ) :
    ∀ mq a, Represents mq a → a.all = values →
      ∃ final, drain values.length mq = some (values.map Int.ofNat, final) ∧
        ∀ q < a.nq, final.waiting q = [] := by
  induction values with
  | nil =>
    intro mq a hrep hall
    refine ⟨mq, rfl, fun q hq ↦ ?_⟩
    rw [← hrep.list_eq q (hrep.nq_eq ▸ hq)]
    refine List.eq_nil_iff_forall_not_mem.mpr fun v hv ↦ ?_
    have hmem : v ∈ a.all := FifoLists.mem_all.mpr ⟨q, hq, hv⟩
    simp [hall] at hmem
  | cons v rest ih =>
    intro mq a hrep hall
    cases hdequeue : a.dequeue with
    | none =>
      have hmem : v ∈ a.all := by simp [hall]
      obtain ⟨q, hq, hv⟩ := FifoLists.mem_all.mp hmem
      simp [FifoLists.list_eq_nil_of_dequeue hdequeue q hq] at hv
    | some result =>
      obtain ⟨w, a'⟩ := result
      have hcons := FifoLists.all_of_dequeue hdequeue
      rw [hall, List.cons.injEq] at hcons
      obtain ⟨rfl, hrest⟩ := hcons
      obtain ⟨mq', hcall, hrep'⟩ :=
        mqDequeue_of_dequeue true (mq.inqueueCnt + 1) mq hrep (by omega) hdequeue
      obtain ⟨final, hdrain, hempty⟩ := ih mq' a' hrep' hrest.symm
      obtain ⟨i, -, -, -, rfl⟩ := FifoLists.dequeue_eq_some hdequeue
      exact ⟨final, by simp [drain, hcall, hdrain], hempty⟩

/-! ### Whole runs -/

theorem arrivals_cons {event : MqEvent} {rest : List MqEvent} {v : ℕ}
    (hstep : mqStep mq event = some mq') :
    arrivals v mq (event :: rest) = arrivals v mq [event] + arrivals v mq' rest := by
  simp [arrivals, hstep]

theorem departures_cons (event : MqEvent) (rest : List MqEvent) (v : ℕ) :
    departures v (event :: rest) = departures v [event] + departures v rest := by
  unfold departures
  rw [← List.singleton_append, List.count_append]

/-- The stays that begin along a run are those that end along it and those still going on, less
those going on at its start. -/
theorem stays_run {events : List MqEvent} (hmq : Consistent mq)
    (hroom : Meets mqStep FindsRoomIfNeeded mq events) (hrun : run mqStep mq events = some mq')
    {v : ℕ} (hv : v ≤ mq.maxValue) :
    stays mq v + arrivals v mq events = departures v events + stays mq' v := by
  induction events generalizing mq with
  | nil =>
    rw [run_nil, Option.some.injEq] at hrun
    simp [arrivals, departures, hrun]
  | cons event rest ih =>
    obtain ⟨next, hstep, hrest⟩ := run_cons_eq_some.mp hrun
    obtain ⟨hnext, -, -, hmax⟩ := consistent_mqStep hmq hroom.1 hstep
    have hone := stays_mqStep hmq hroom.1 hstep hv
    have hmany := ih hnext (hroom.tail hstep) hrest (hmax ▸ hv)
    rw [arrivals_cons hstep, departures_cons]
    omega

/-- Along every run in which an enqueue that needs a slot finds one: the location table is
faithful, every ring holds at most `n` slots and `inqueue_cnt` counts them all, every stay of a
value that has begun has ended in one dequeue or is going on, and as many dequeues as there are
waiting values return exactly these, each once, and leave no value. -/
theorem mq_faithful_of_room {n nq maxv : ℕ} {mq₀ : MultipleQueue} {events : List MqEvent}
    (hnew : newMultipleQueue n nq maxv = some mq₀)
    (hroom : Meets mqStep FindsRoomIfNeeded mq₀ events)
    (hrun : run mqStep mq₀ events = some mq) :
    LocationFaithful mq ∧ (∀ q < nq, mq.useCnt q ≤ n) ∧
      mq.inqueueCnt = ∑ q ∈ Finset.range nq, mq.useCnt q ∧
      (∀ v ≤ maxv, arrivals v mq₀ events =
        departures v events + if 0 ≤ (mq.location v).q then 1 else 0) ∧
      ∃ (values : List ℕ) (final : MultipleQueue),
        drain values.length mq = some (values.map Int.ofNat, final) ∧
        values.Nodup ∧ (∀ v ≤ maxv, v ∈ values ↔ 0 ≤ (mq.location v).q) ∧
        ∀ q < nq, final.waiting q = [] := by
  obtain ⟨hmq₀, hcount, hnq, hmax, -⟩ := consistent_newMultipleQueue hnew
  let Inv (s : MultipleQueue) : Prop :=
    Consistent s ∧ s.count = n + 1 ∧ s.numberOfQueue = nq ∧ s.maxValue = maxv
  have hkeep : ∀ s event s', Inv s → FindsRoomIfNeeded s event → mqStep s event = some s' →
      Inv s' := by
    rintro s event s' ⟨hs, hc, hq, hm⟩ hgood hstep
    obtain ⟨hs', hc', hq', hm'⟩ := consistent_mqStep hs hgood hstep
    exact ⟨hs', hc'.trans hc, hq'.trans hq, hm'.trans hm⟩
  have hinit : Inv mq₀ := ⟨hmq₀, hcount, hnq, hmax⟩
  obtain ⟨hmq, hcount', hnq', hmax'⟩ := run_invariant_of_meets hkeep hinit hroom hrun
  refine ⟨locationFaithful_of_consistent hmq, fun q hq ↦ ?_, ?_, fun v hv ↦ ?_, ?_⟩
  · have hle := hmq.useCnt_le q (hnq' ▸ hq)
    omega
  · rw [← hnq']
    exact hmq.inqueueCnt_eq
  · have hstays := stays_run hmq₀ hroom hrun (hmax ▸ hv)
    have hstart : stays mq₀ v = 0 := by
      unfold newMultipleQueue at hnew
      split_ifs at hnew
      rw [Option.some.injEq] at hnew
      rw [← hnew]
      rfl
    rw [hstart, Nat.zero_add] at hstays
    exact hstays
  · have hrep : Represents mq (mq.toFifoLists hmq) := ⟨hmq, rfl, fun _ _ ↦ rfl⟩
    obtain ⟨final, hdrain, hempty⟩ := drain_of_represents _ mq _ hrep rfl
    refine ⟨(mq.toFifoLists hmq).all, final, hdrain, FifoLists.nodup_all _, fun v hv ↦ ?_, ?_⟩
    · rw [FifoLists.mem_all]
      constructor
      · rintro ⟨q, hq, hmem⟩
        have hloc := (mem_waiting_iff hmq hq (hmax' ▸ hv)).mp hmem
        omega
      · intro hloc
        obtain ⟨q, hq, hlocv⟩ :=
          (locationFaithful_of_consistent hmq).located_range v (hmax' ▸ hv) hloc
        exact ⟨q, hq, (mem_waiting_iff hmq hq (hmax' ▸ hv)).mpr hlocv⟩
    · intro q hq
      exact hempty q (by rw [← hnq'] at hq; exact hq)

/-- A run of `mq_faithful_of_room` with a jump and a full ring that needs no slot: enqueueing a
value again while it waits is harmless. -/
theorem mq_faithful_of_room_jump :
    ∃ mq₀ mq, newMultipleQueue 1 2 3 = some mq₀ ∧
      run mqStep mq₀ [.enqueue 2 1, .enqueue 2 1, .enqueue 2 0, .iterate 2, .iterate (-1)] =
        some mq ∧ LocationFaithful mq :=
  ⟨_, _, rfl, rfl,
    (@mq_faithful_of_room _ 1 2 3 _
      [.enqueue 2 1, .enqueue 2 1, .enqueue 2 0, .iterate 2, .iterate (-1)] rfl (by decide)
      rfl).1⟩

/-- One ring with room for one value: after value `0` entered, enqueueing value `1` locates it at
queue `0`, which does not hold it. -/
theorem mqEnqueue_full_loses_value :
    ∃ mq₀ mq, newMultipleQueue 1 1 1 = some mq₀ ∧
      run mqStep mq₀ [.enqueue 0 0, .enqueue 1 0] = some mq ∧ ¬LocationFaithful mq := by
  refine ⟨_, _, rfl, rfl, fun hfaithful ↦ ?_⟩
  obtain ⟨slot, hslot, -, hvalue⟩ := hfaithful.located_slot 1 (by decide) 0 (by decide) (by decide)
  revert hslot hvalue
  have hlive : ∀ slot ∈ ringWindow 2 0 1,
      (Function.update (fun _ ↦ (0 : ℤ)) 0 0 : ℕ → ℤ) slot ≠ 1 := by
    decide
  exact fun hslot hvalue ↦ hlive slot hslot hvalue

end Katmai.Mqueue
