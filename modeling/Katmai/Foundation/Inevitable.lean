import Katmai.Foundation.EventRun

/-!
# What every run comes to

`Inevitable step P` says that every run of a machine comes to a state with `P`: as long as it has
not, there is a next event, and none leads away from it. It follows from an invariant with a
measure that every event makes smaller (`inevitable_of_measure`), and one inevitable state after
another is inevitable (`Inevitable.trans`).

Where only the steps of one party lead on, and those of the others do not lead back, a run comes to
it that has enough steps of that party (`reached_of_countP`).
-/

set_option autoImplicit false
set_option relaxedAutoImplicit false

namespace Katmai.Foundation

variable {State Event : Type*} {step : State → Event → Option State} {P Q : State → Prop}
  {s : State}

/-- Every run comes to a state with `P`. -/
inductive Inevitable (step : State → Event → Option State) (P : State → Prop) : State → Prop
  | now {s : State} (hP : P s) : Inevitable step P s
  | later {s : State} (hsome : ∃ event t, step s event = some t)
    (hall : ∀ event t, step s event = some t → Inevitable step P t) : Inevitable step P s

/-- The only event that can happen decides. -/
theorem Inevitable.of_only (event : Event) {t : State} (hstep : step s event = some t)
    (honly : ∀ other, other ≠ event → step s other = none) (hnext : Inevitable step P t) :
    Inevitable step P s := by
  refine .later ⟨event, t, hstep⟩ fun other u hother ↦ ?_
  by_cases heq : other = event
  · rw [heq, hstep, Option.some_inj] at hother
    exact hother ▸ hnext
  · rw [honly other heq] at hother
    exact absurd hother.symm (Option.some_ne_none u)

theorem Inevitable.trans (hP : Inevitable step P s)
    (hQ : ∀ t, P t → Inevitable step Q t) : Inevitable step Q s := by
  induction hP with
  | now h => exact hQ _ h
  | later hsome _ ih => exact .later hsome ih

/-- Some run comes to it. -/
theorem Inevitable.exists_run (hP : Inevitable step P s) :
    ∃ events t, run step s events = some t ∧ P t := by
  induction hP with
  | @now s h => exact ⟨[], s, rfl, h⟩
  | later hsome _ ih =>
    obtain ⟨event, t, hstep⟩ := hsome
    obtain ⟨events, u, hrun, hu⟩ := ih event t hstep
    exact ⟨event :: events, u, run_cons_eq_some.mpr ⟨t, hstep, hrun⟩, hu⟩

/-- In the states of an invariant that have not come to it, something can happen, and whatever
happens keeps the invariant and makes the measure smaller. -/
theorem inevitable_of_measure (Inv : State → Prop) (measure : State → ℕ)
    (hinv : ∀ s, Inv s → P s ∨ (∃ event t, step s event = some t) ∧
      ∀ event t, step s event = some t → Inv t ∧ measure t < measure s)
    (hs : Inv s) : Inevitable step P s := by
  induction hn : measure s using Nat.strongRecOn generalizing s with
  | ind n ih =>
    rcases hinv s hs with hP | ⟨hsome, hall⟩
    · exact .now hP
    · refine .later hsome fun event t hstep ↦ ?_
      obtain ⟨ht, hlt⟩ := hall event t hstep
      exact ih (measure t) (hn ▸ hlt) ht rfl

/-- A measure that the counted events make smaller, and the others no larger: a run with as many
counted events comes to a state with `P`. -/
theorem reached_of_countP {good : State → Event → Prop} (Inv : State → Prop) (measure : State → ℕ)
    (counted : Event → Bool) (hpos : ∀ s, Inv s → 0 < measure s)
    (hinv : ∀ s event s', Inv s → good s event → step s event = some s' →
      P s' ∨ Inv s' ∧ measure s' + (if counted event then 1 else 0) ≤ measure s)
    {t : State} {events : List Event} (hs : Inv s) (hgood : Meets step good s events)
    (hrun : run step s events = some t) (hcount : measure s ≤ events.countP counted) :
    ∃ front back u, events = front ++ back ∧ run step s front = some u ∧ P u := by
  induction events generalizing s with
  | nil => exact absurd (Nat.le_antisymm hcount (Nat.zero_le _)) (Nat.ne_of_gt (hpos s hs))
  | cons event rest ih =>
    obtain ⟨s', hstep, hrest⟩ := run_cons_eq_some.mp hrun
    rcases hinv s event s' hs hgood.1 hstep with hP | ⟨hs', hle⟩
    · exact ⟨[event], rest, s', rfl, run_cons_eq_some.mpr ⟨s', hstep, run_nil s'⟩, hP⟩
    · rw [List.countP_cons] at hcount
      obtain ⟨front, back, u, rfl, hfront, hP⟩ :=
        ih hs' (hgood.tail hstep) hrest (Nat.le_of_add_le_add_right (Nat.le_trans hle hcount))
      exact ⟨event :: front, back, u, rfl, run_cons_eq_some.mpr ⟨s', hstep, hfront⟩, hP⟩

end Katmai.Foundation
