import Katmai.Mqueue.QueueRefinement

/-!
# When `mq_dequeue` without waiting comes back

`mq_dequeue` repeats its iteration until it has popped a value that is not negative, also when the
caller does not want to wait: `wait` is looked at only before `pthread_cond_wait`. An iteration on a
queue that counts no slot leaves `rc` at `-1` and the loop goes round again, so the call comes back
exactly when some ring holds a live value (`mqDequeue_nowait_iff`).

The states are those of every run, also of runs in which an enqueue finds its queue full and leaves
a location behind that names no live slot. Such a location can make a later jump overwrite a slot
that is not its own, so the table and the rings need not agree; the rings themselves stay in order
(`ringsOk_mqStep`), and the loop reads nothing else.
-/

set_option autoImplicit false
set_option relaxedAutoImplicit false

namespace Katmai.Mqueue

open Foundation MultipleQueue

namespace MultipleQueue

variable {mq : MultipleQueue}

/-- Some queue holds a value that is not a tombstone. -/
def HoldsLive (mq : MultipleQueue) : Prop :=
  ∃ q < mq.numberOfQueue, ∃ slot ∈ mq.liveSlots q, 0 ≤ mq.queue q slot

/-- A queue holds a live value when some value waits in it. -/
theorem holdsLive_iff_waiting :
    mq.HoldsLive ↔ ∃ q < mq.numberOfQueue, mq.waiting q ≠ [] := by
  refine exists_congr fun q ↦ and_congr_right fun _ ↦ ?_
  constructor
  · rintro ⟨slot, hslot, hlive⟩
    exact List.ne_nil_of_mem (mem_waiting.mpr ⟨slot, hslot, (Int.toNat_of_nonneg hlive).symm⟩)
  · intro hne
    obtain ⟨v, hv⟩ := List.exists_mem_of_ne_nil _ hne
    obtain ⟨slot, hslot, hvalue⟩ := mem_waiting.mp hv
    exact ⟨slot, hslot, by omega⟩

/-! ### The rings stay in order along every run -/

theorem ringsOk_setSlot (hrings : RingsOk mq) (q slot : ℕ) (value : ℤ) :
    RingsOk (mq.setSlot q slot value) :=
  ⟨hrings.count_pos, hrings.front_lt, hrings.rear_eq, hrings.useCnt_le, hrings.inqueueCnt_eq⟩

theorem ringsOk_setLocationQ (hrings : RingsOk mq) (n : ℕ) (q : ℤ) :
    RingsOk (mq.setLocationQ n q) :=
  ⟨hrings.count_pos, hrings.front_lt, hrings.rear_eq, hrings.useCnt_le, hrings.inqueueCnt_eq⟩

/-- An enqueue keeps the rings in order, whether its queue is full or not. -/
theorem ringsOk_mqEnqueue (hrings : RingsOk mq) (n : ℕ) {q : ℕ} (hq : q < mq.numberOfQueue) :
    RingsOk (mq.mqEnqueue n q) := by
  have hlocated := ringsOk_setLocationQ hrings n q
  simp only [mqEnqueue]
  split_ifs with hmoves hroom hjump
  · exact ringsOk_putRear (ringsOk_setSlot hlocated _ _ _) n hq hroom
  · exact ringsOk_putRear hlocated n hq hroom
  · exact hlocated
  · exact hrings

/-- An iteration of `mq_dequeue` keeps the rings in order. -/
theorem ringsOk_mqDequeueOnce (hrings : RingsOk mq) : RingsOk mq.mqDequeueOnce.2 := by
  rcases mqDequeueOnce_cases hrings with ⟨-, heq⟩ | ⟨i, hi, huse, -, -, heq⟩
  · rw [heq]
    exact hrings
  · rw [heq]
    exact ringsOk_popFront hrings hi huse

/-! ### One iteration -/

/-- Popping a tombstone leaves the live values as they are. -/
theorem holdsLive_popFront {i : ℕ} (hrings : RingsOk mq) (hi : i < mq.numberOfQueue)
    (huse : 0 < mq.useCnt i) (hdead : (mq.popFront i).1 < 0) :
    (mq.popFront i).2.HoldsLive ↔ mq.HoldsLive := by
  rw [holdsLive_iff_waiting, holdsLive_iff_waiting, numberOfQueue_popFront]
  refine exists_congr fun q ↦ and_congr_right fun _ ↦ ?_
  by_cases hqi : q = i
  · subst hqi
    have hnone : slotValue (mq.popFront q).1 = none := by rw [slotValue, if_pos hdead]
    rw [waiting_popFront_self hrings hi huse, hnone, Option.toList_none, List.nil_append]
  · rw [waiting_popFront_of_ne mq hqi]

/-- A queue that counts no slot holds no live value. -/
theorem not_holdsLive_of_inqueueCnt (hrings : RingsOk mq) (hcnt : mq.inqueueCnt = 0) :
    ¬mq.HoldsLive := by
  rw [hrings.inqueueCnt_eq, Finset.sum_eq_zero_iff] at hcnt
  rw [holdsLive_iff_waiting]
  rintro ⟨q, hq, hne⟩
  exact hne (waiting_eq_nil mq (hcnt q (Finset.mem_range.mpr hq)))

/-- An iteration that ends with a negative `rc` leaves the live values as they are and takes a
tombstone off the count, if anything is counted. One that ends with a value has found a live one. -/
theorem holdsLive_mqDequeueOnce (hrings : RingsOk mq) :
    (mq.mqDequeueOnce.1 < 0 ∧ (mq.mqDequeueOnce.2.HoldsLive ↔ mq.HoldsLive) ∧
        (mq.inqueueCnt ≠ 0 → mq.mqDequeueOnce.2.inqueueCnt < mq.inqueueCnt)) ∨
      0 ≤ mq.mqDequeueOnce.1 ∧ mq.HoldsLive := by
  rcases mqDequeueOnce_cases hrings with ⟨hcnt, heq⟩ | ⟨i, hi, huse, -, hcnt, heq⟩
  · rw [heq]
    exact Or.inl ⟨by simp, Iff.rfl, fun hne ↦ absurd hcnt hne⟩
  · rw [heq]
    by_cases hdead : (mq.popFront i).1 < 0
    · refine Or.inl ⟨hdead, holdsLive_popFront hrings hi huse hdead, fun _ ↦ ?_⟩
      rw [inqueueCnt_popFront]
      omega
    · have hfront : mq.front i ∈ mq.liveSlots i := by
        rw [liveSlots_popFront_self hrings hi huse]
        exact List.mem_cons_self
      exact Or.inr ⟨by omega, i, hi, mq.front i, hfront, not_lt.mp hdead⟩

/-! ### The loop -/

/-- With a live value in some ring a call that does not wait returns a value, after at most one
iteration for every slot counted. -/
theorem mqDequeue_of_holdsLive (fuel : ℕ) :
    ∀ mq : MultipleQueue, RingsOk mq → mq.inqueueCnt < fuel → mq.HoldsLive →
      ∃ rc mq', mq.mqDequeue false fuel = some (rc, mq') ∧ 0 ≤ rc := by
  induction fuel with
  | zero => intro mq _ hfuel; omega
  | succ fuel ih =>
    intro mq hrings hfuel hlive
    have hcnt : mq.inqueueCnt ≠ 0 := fun hzero ↦ not_holdsLive_of_inqueueCnt hrings hzero hlive
    have hready : ¬(false = true ∧ mq.inqueueCnt = 0) := fun h ↦ hcnt h.2
    rcases holdsLive_mqDequeueOnce hrings with ⟨hneg, hsame, hless⟩ | ⟨hvalue, -⟩
    · have hfewer := hless hcnt
      have hrec := ih mq.mqDequeueOnce.2 (ringsOk_mqDequeueOnce hrings) (by omega) (hsame.mpr hlive)
      simpa only [mqDequeue, if_neg hready, if_pos hneg] using hrec
    · refine ⟨mq.mqDequeueOnce.1, mq.mqDequeueOnce.2, ?_, hvalue⟩
      simp only [mqDequeue, if_neg hready, if_neg (not_lt.mpr hvalue)]

/-- Without a live value in any ring a call goes on iterating for ever. -/
theorem mqDequeue_of_not_holdsLive (wait : Bool) (fuel : ℕ) :
    ∀ mq : MultipleQueue, RingsOk mq → ¬mq.HoldsLive → mq.mqDequeue wait fuel = none := by
  induction fuel with
  | zero => intro mq _ _; rfl
  | succ fuel ih =>
    intro mq hrings hnone
    rcases holdsLive_mqDequeueOnce hrings with ⟨hneg, hsame, -⟩ | ⟨-, hlive⟩
    · simp only [mqDequeue, if_pos hneg]
      split_ifs
      · rfl
      · exact ih _ (ringsOk_mqDequeueOnce hrings) fun hlive ↦ hnone (hsame.mp hlive)
    · exact absurd hlive hnone

end MultipleQueue

/-! ### Every run -/

variable {mq mq₀ : MultipleQueue} {n nq maxv : ℕ} {events : List MqEvent}

/-- Every event keeps the rings in order, also an enqueue that finds its queue full. -/
theorem ringsOk_mqStep (mq : MultipleQueue) (event : MqEvent) (mq' : MultipleQueue)
    (hrings : RingsOk mq) (hstep : mqStep mq event = some mq') : RingsOk mq' := by
  cases event with
  | enqueue n q =>
    simp only [mqStep] at hstep
    split_ifs at hstep with hrange
    rw [← Option.some.inj hstep]
    exact ringsOk_mqEnqueue hrings n hrange.2
  | iterate rc =>
    simp only [mqStep] at hstep
    split_ifs at hstep
    rw [← Option.some.inj hstep]
    exact ringsOk_mqDequeueOnce hrings

/-- In every state that calls of `mq_enqueue` and `mq_dequeue` lead to, a call of `mq_dequeue` that
does not wait comes back, with a value if some queue holds a live one and with `-1` if none does,
exactly when some queue holds a live one: without one it never comes back. -/
theorem mqDequeue_nowait_iff (hnew : newMultipleQueue n nq maxv = some mq₀)
    (hrun : run mqStep mq₀ events = some mq) :
    (∃ fuel rc mq', mq.mqDequeue false fuel = some (rc, mq') ∧
        (mq.HoldsLive → 0 ≤ rc) ∧ (¬mq.HoldsLive → rc = -1)) ↔
      mq.HoldsLive := by
  have hfresh := (consistent_newMultipleQueue hnew).1.toRingsOk
  have hrings : RingsOk mq := run_invariant ringsOk_mqStep hfresh hrun
  constructor
  · rintro ⟨fuel, rc, mq', hreturns, -⟩
    by_contra hnone
    rw [mqDequeue_of_not_holdsLive false fuel mq hrings hnone] at hreturns
    exact Option.some_ne_none _ hreturns.symm
  · intro hlive
    obtain ⟨rc, mq', hreturns, hvalue⟩ :=
      mqDequeue_of_holdsLive (mq.inqueueCnt + 1) mq hrings (Nat.lt_succ_self _) hlive
    exact ⟨_, rc, mq', hreturns, fun _ ↦ hvalue, fun hnone ↦ absurd hlive hnone⟩

/-- A queue that holds the value `2` and, in front of it, the tombstone it left when it jumped. -/
theorem mqDequeue_nowait_iff_jump :
    ∃ mq₀ mq, newMultipleQueue 2 2 3 = some mq₀ ∧
      run mqStep mq₀ [.enqueue 2 1, .enqueue 1 1, .enqueue 2 0, .iterate 2] = some mq ∧
      ((∃ fuel rc mq', mq.mqDequeue false fuel = some (rc, mq') ∧
          (mq.HoldsLive → 0 ≤ rc) ∧ (¬mq.HoldsLive → rc = -1)) ↔ mq.HoldsLive) :=
  ⟨_, _, rfl, rfl,
    @mqDequeue_nowait_iff _ _ 2 2 3 [.enqueue 2 1, .enqueue 1 1, .enqueue 2 0, .iterate 2] rfl rfl⟩

/-- On a queue that nothing was ever put in, a call of `mq_dequeue` that does not wait never comes
back. -/
theorem not_mqDequeue_nowait_empty :
    ∃ mq, newMultipleQueue 1 1 0 = some mq ∧ run mqStep mq [] = some mq ∧
      ¬∃ fuel rc mq', mq.mqDequeue false fuel = some (rc, mq') ∧
        (mq.HoldsLive → 0 ≤ rc) ∧ (¬mq.HoldsLive → rc = -1) := by
  refine ⟨_, rfl, rfl, ?_⟩
  rintro ⟨fuel, rc, mq', hreturns, -⟩
  have hnew : newMultipleQueue 1 1 0 = some _ := rfl
  have hfresh := (consistent_newMultipleQueue hnew).1.toRingsOk
  rw [mqDequeue_of_not_holdsLive false fuel _ hfresh (not_holdsLive_of_inqueueCnt hfresh rfl)]
    at hreturns
  exact Option.some_ne_none _ hreturns.symm

end Katmai.Mqueue
