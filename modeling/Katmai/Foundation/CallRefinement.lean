import Katmai.Foundation.CallRun
import Katmai.Foundation.EventRun

/-!
# Calls that keep an object in step with its specification

`Katmai.Foundation.CallRun` compares the answers of an object with those of a specification. Here
the states are compared as well: `Refining` says of a list of calls that every one of them is
answered as the specification answers it and leaves a state that represents the specification's
state. The calls for which this is so are often those that meet a condition on the object's own
state; `refining_iff_meets` turns that equivalence for one call, within an invariant, into the
equivalence for every list of calls.
-/

set_option autoImplicit false
set_option relaxedAutoImplicit false

namespace Katmai.Foundation

variable {State Spec Call Answer : Type*}

/-- A call as a step of the object: the state after it. -/
def callStep (call : State → Call → Option (Answer × State)) (s : State) (c : Call) :
    Option State :=
  (call s c).map Prod.snd

/-- One call is answered as the specification answers it, and the state after it represents the
specification's. -/
def Agrees (call : State → Call → Option (Answer × State)) (spec : Spec → Call → Answer × Spec)
    (Rel : State → Spec → Prop) (s : State) (a : Spec) (c : Call) : Prop :=
  ∃ s', call s c = some ((spec a c).1, s') ∧ Rel s' (spec a c).2

/-- Every call of the list is answered as the specification answers it, and after each of them the
object represents the specification's state. -/
def Refining (call : State → Call → Option (Answer × State)) (spec : Spec → Call → Answer × Spec)
    (Rel : State → Spec → Prop) : State → Spec → List Call → Prop
  | _, _, [] => True
  | s, a, c :: rest =>
    ∃ s', call s c = some ((spec a c).1, s') ∧ Rel s' (spec a c).2 ∧
      Refining call spec Rel s' (spec a c).2 rest

variable {call : State → Call → Option (Answer × State)} {spec : Spec → Call → Answer × Spec}
  {Rel Inv : State → Spec → Prop} {good : State → Call → Prop} {Admissible : Spec → Call → Prop}

/-- Whether a list of calls keeps in step can be computed. -/
instance decidableRefining (call : State → Call → Option (Answer × State))
    (spec : Spec → Call → Answer × Spec) (Rel : State → Spec → Prop) [DecidableEq Answer]
    [∀ s a, Decidable (Rel s a)] :
    ∀ (s : State) (a : Spec) (calls : List Call), Decidable (Refining call spec Rel s a calls)
  | _, _, [] => .isTrue trivial
  | s, a, c :: rest =>
    match hcall : call s c with
    | none => .isFalse fun ⟨_, hsome, _⟩ ↦ by rw [hcall] at hsome; cases hsome
    | some (answer, s') =>
      haveI := decidableRefining call spec Rel s' (spec a c).2 rest
      decidable_of_iff (answer = (spec a c).1 ∧ Rel s' (spec a c).2 ∧
          Refining call spec Rel s' (spec a c).2 rest) <| by
        simp only [Refining, hcall, Option.some.injEq, Prod.mk.injEq]
        constructor
        · exact fun ⟨hanswer, hrest⟩ ↦ ⟨s', ⟨hanswer, rfl⟩, hrest⟩
        · rintro ⟨_, ⟨hanswer, rfl⟩, hrest⟩
          exact ⟨hanswer, hrest⟩

theorem callStep_eq_some {s s' : State} {c : Call} {answer : Answer}
    (hcall : call s c = some (answer, s')) : callStep call s c = some s' := by
  rw [callStep, hcall, Option.map_some]

/-- The answers of a list of calls that keeps in step are the specification's. -/
theorem Refining.serve_eq {s : State} {a : Spec} {calls : List Call}
    (href : Refining call spec Rel s a calls) :
    ∃ t, serve call s calls = some ((replies spec a calls).1, t) := by
  induction calls generalizing s a with
  | nil => exact ⟨s, rfl⟩
  | cons c rest ih =>
    obtain ⟨s', hcall, -, hrest⟩ := href
    obtain ⟨t, hserve⟩ := ih hrest
    exact ⟨t, by rw [serve_cons_of_call hcall, hserve, Option.map_some, replies]⟩

/-- If, in states within an invariant and for admissible calls, a call keeps in step exactly when it
meets a condition, and calls that keep in step keep the invariant, then a list of admissible calls
keeps in step exactly when all of its calls meet the condition. -/
theorem refining_iff_meets
    (hiff : ∀ s a c, Inv s a → Admissible a c → (Agrees call spec Rel s a c ↔ good s c))
    (hinv : ∀ s a c s', Inv s a → Admissible a c → call s c = some ((spec a c).1, s') →
      Rel s' (spec a c).2 → Inv s' (spec a c).2)
    {s : State} {a : Spec} {calls : List Call} (hs : Inv s a)
    (hcalls : Along spec Admissible a calls) :
    Refining call spec Rel s a calls ↔ Meets (callStep call) good s calls := by
  induction calls generalizing s a with
  | nil => exact Iff.rfl
  | cons c rest ih =>
    obtain ⟨hc, hlater⟩ := hcalls
    constructor
    · rintro ⟨s', hcall, hrel, hrest⟩
      refine ⟨(hiff s a c hs hc).mp ⟨s', hcall, hrel⟩, ?_⟩
      rw [callStep_eq_some hcall]
      exact (ih (hinv s a c s' hs hc hcall hrel) hlater).mp hrest
    · intro hgood
      obtain ⟨s', hcall, hrel⟩ := (hiff s a c hs hc).mpr hgood.1
      refine ⟨s', hcall, hrel, ?_⟩
      exact (ih (hinv s a c s' hs hc hcall hrel) hlater).mpr (hgood.tail (callStep_eq_some hcall))

end Katmai.Foundation
