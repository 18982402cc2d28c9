import Mathlib.Data.Nat.Notation
import Mathlib.Tactic.Common

/-!
# Iterating a step that may fail

`FailsOr step P s` says that a machine that is started in `s` fails after some steps or comes to a
state with `P`. One such stage follows another (`FailsOr.trans`), and a measure that every step
makes smaller shows it (`failsOr_of_measure`).
-/

set_option autoImplicit false
set_option relaxedAutoImplicit false

namespace Katmai.Foundation

variable {State : Type*} {step : State → Option State} {P Q : State → Prop} {s t : State} {m n : ℕ}

/-- The state after some steps, if none of them fails. -/
def iterateSteps (step : State → Option State) : ℕ → State → Option State
  | 0, s => some s
  | n + 1, s => (step s).bind (iterateSteps step n)

theorem iterateSteps_add (m n : ℕ) (s : State) :
    iterateSteps step (m + n) s = (iterateSteps step m s).bind (iterateSteps step n) := by
  induction m generalizing s with
  | zero => rw [Nat.zero_add, iterateSteps, Option.bind_some]
  | succ m ih =>
    rw [Nat.succ_add, iterateSteps, iterateSteps, Option.bind_assoc]
    exact congrArg _ (funext ih)

/-- After some steps the machine has failed or is in a state with `P`. -/
def FailsOr (step : State → Option State) (P : State → Prop) (s : State) : Prop :=
  ∃ n, ∀ t, iterateSteps step n s = some t → P t

theorem FailsOr.now (hP : P s) : FailsOr step P s := by
  refine ⟨0, fun t ht ↦ ?_⟩
  obtain rfl : s = t := Option.some.inj ht
  exact hP

/-- The first step fails, or leads to a state of which it holds. -/
theorem FailsOr.later (hstep : ∀ t, step s = some t → FailsOr step P t) : FailsOr step P s := by
  cases hs : step s with
  | none =>
    refine ⟨1, fun t ht ↦ ?_⟩
    rw [iterateSteps, hs] at ht
    cases ht
  | some t =>
    obtain ⟨n, hn⟩ := hstep t hs
    refine ⟨n + 1, fun u hu ↦ hn u ?_⟩
    rwa [iterateSteps, hs, Option.bind_some] at hu

theorem FailsOr.trans (hfirst : FailsOr step P s) (hsecond : ∀ t, P t → FailsOr step Q t) :
    FailsOr step Q s := by
  obtain ⟨m, hm⟩ := hfirst
  cases hs : iterateSteps step m s with
  | none =>
    refine ⟨m, fun t ht ↦ ?_⟩
    rw [hs] at ht
    cases ht
  | some t =>
    obtain ⟨n, hn⟩ := hsecond t (hm t hs)
    refine ⟨m + n, fun u hu ↦ hn u ?_⟩
    rwa [iterateSteps_add, hs, Option.bind_some] at hu

theorem FailsOr.mono (hP : FailsOr step P s) (hPQ : ∀ t, P t → Q t) : FailsOr step Q s :=
  hP.trans fun t ht ↦ .now (hPQ t ht)

/-- As long as the machine has not come to a state with `P`, every step keeps an invariant and makes
a measure smaller. -/
theorem failsOr_of_measure (Inv : State → Prop) (measure : State → ℕ)
    (hinv : ∀ s, Inv s → P s ∨ ∀ t, step s = some t → Inv t ∧ measure t < measure s)
    (hs : Inv s) : FailsOr step P s := by
  induction hn : measure s using Nat.strongRecOn generalizing s with
  | ind n ih =>
    rcases hinv s hs with hP | hstep
    · exact .now hP
    · refine .later fun t ht ↦ ?_
      obtain ⟨hinvt, hlt⟩ := hstep t ht
      exact ih (measure t) (hn ▸ hlt) hinvt rfl

/-- A machine that never fails comes to a state with `P`. -/
theorem FailsOr.exists (hP : FailsOr step P s) (hsafe : ∀ n, (iterateSteps step n s).isSome) :
    ∃ n t, iterateSteps step n s = some t ∧ P t := by
  obtain ⟨n, hn⟩ := hP
  obtain ⟨t, ht⟩ := Option.isSome_iff_exists.mp (hsafe n)
  exact ⟨n, t, ht, hn t ht⟩

end Katmai.Foundation
