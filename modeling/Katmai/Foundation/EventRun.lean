import Mathlib.Data.List.Basic

/-!
# Runs of an event-driven machine

A machine is a partial step function `step : State → Event → Option State`: the event says which
party moves, which datagram is delivered, which result a call returns, and `none` says that the
event cannot happen in that state. `run` executes a list of events. An invariant that every step
keeps is kept by every run (`run_invariant`); with a side condition on the steps, the same holds of
every run all of whose steps meet it (`run_invariant_of_meets`). Where every other step breaks a
law, the law holds along exactly the runs without one (`law_along_iff`). `run_simulation` is the
forward simulation rule: a relation that every step of one machine keeps against a step of another
for the same event is kept along whole runs.
-/

set_option autoImplicit false
set_option relaxedAutoImplicit false

namespace Katmai.Foundation

variable {State Event : Type*}

/-- The state reached by a list of events, or `none` if some event cannot happen. -/
def run (step : State → Event → Option State) : State → List Event → Option State
  | s, [] => some s
  | s, event :: rest =>
    match step s event with
    | some s' => run step s' rest
    | none => none

/-- Every step of the run along `events` meets the condition `good`, on the state before the step
and the event. -/
def Meets (step : State → Event → Option State) (good : State → Event → Prop) :
    State → List Event → Prop
  | _, [] => True
  | s, event :: rest =>
    good s event ∧
      match step s event with
      | some s' => Meets step good s' rest
      | none => True

/-- Whether a run meets a decidable condition can be computed. -/
instance decidableMeets (step : State → Event → Option State) (good : State → Event → Prop)
    [∀ s event, Decidable (good s event)] :
    ∀ (s : State) (events : List Event), Decidable (Meets step good s events)
  | _, [] => .isTrue trivial
  | s, event :: rest =>
    haveI : Decidable (match step s event with
        | some s' => Meets step good s' rest
        | none => True) :=
      match step s event with
      | some s' => decidableMeets step good s' rest
      | none => .isTrue trivial
    inferInstanceAs (Decidable (good s event ∧ _))

variable {step : State → Event → Option State} {good : State → Event → Prop}

@[simp] theorem run_nil (s : State) : run step s [] = some s :=
  rfl

/-- A run of at least one event is a step followed by a run. -/
theorem run_cons_eq_some {s t : State} {event : Event} {rest : List Event} :
    run step s (event :: rest) = some t ↔
      ∃ s', step s event = some s' ∧ run step s' rest = some t := by
  simp only [run]
  cases hstep : step s event with
  | none => simp
  | some s' => simp

/-- After a step of a run that meets a condition, the rest of the run meets it. -/
theorem Meets.tail {s s' : State} {event : Event} {rest : List Event}
    (hgood : Meets step good s (event :: rest)) (hstep : step s event = some s') :
    Meets step good s' rest := by
  have hrest := hgood.2
  rwa [hstep] at hrest

/-- A condition that all events meet in every state is met by the run. -/
theorem meets_of_forall {events : List Event} (hall : ∀ event ∈ events, ∀ s, good s event)
    (s : State) : Meets step good s events := by
  induction events generalizing s with
  | nil => exact trivial
  | cons event rest ih =>
    refine ⟨hall event List.mem_cons_self s, ?_⟩
    cases step s event with
    | none => exact trivial
    | some s' => exact ih (fun later hlater ↦ hall later (List.mem_cons_of_mem event hlater)) s'

/-- Equivalent conditions are met by the same runs. -/
theorem meets_congr {other : State → Event → Prop} (hiff : ∀ s event, good s event ↔ other s event)
    (s : State) (events : List Event) : Meets step good s events ↔ Meets step other s events := by
  induction events generalizing s with
  | nil => exact Iff.rfl
  | cons event rest ih =>
    refine and_congr (hiff s event) ?_
    cases step s event with
    | none => exact Iff.rfl
    | some s' => exact ih s'

/-- A run meets two conditions when it meets each of them. -/
theorem meets_and_iff {other : State → Event → Prop} (s : State) (events : List Event) :
    Meets step (fun s event ↦ good s event ∧ other s event) s events ↔
      Meets step good s events ∧ Meets step other s events := by
  induction events generalizing s with
  | nil => exact (and_self_iff).symm
  | cons event rest ih =>
    simp only [Meets]
    cases step s event with
    | none => simp
    | some s' =>
      simp only [ih s']
      exact and_and_and_comm

/-- A condition that follows, in the states of an invariant, from one within which steps keep the
invariant is met by every run that meets that one. -/
theorem meets_of_invariant {Inv : State → Prop} {other : State → Event → Prop}
    (hother : ∀ s event, Inv s → good s event → other s event)
    (hinv : ∀ s event s', Inv s → good s event → step s event = some s' → Inv s')
    {s : State} {events : List Event} (hs : Inv s) (hgood : Meets step good s events) :
    Meets step other s events := by
  induction events generalizing s with
  | nil => exact trivial
  | cons event rest ih =>
    refine ⟨hother s event hs hgood.1, ?_⟩
    cases hstep : step s event with
    | none => exact trivial
    | some s' => exact ih (hinv s event s' hs hgood.1 hstep) (hgood.tail hstep)

/-- Two conditions that agree in the states of an invariant, which steps within the second keep, are
met by the same runs. -/
theorem meets_iff_of_invariant {Inv : State → Prop} {other : State → Event → Prop}
    (hiff : ∀ s event, Inv s → (other s event ↔ good s event))
    (hinv : ∀ s event s', Inv s → good s event → step s event = some s' → Inv s')
    {s : State} (hs : Inv s) (events : List Event) :
    Meets step other s events ↔ Meets step good s events := by
  constructor
  · refine meets_of_invariant (fun s event hs ↦ (hiff s event hs).mp) ?_ hs
    exact fun s event s' hs hother ↦ hinv s event s' hs ((hiff s event hs).mp hother)
  · exact meets_of_invariant (fun s event hs ↦ (hiff s event hs).mpr) hinv hs

/-- A run along a concatenation is a run followed by a run. -/
theorem run_append_eq_some {s t : State} {first second : List Event} :
    run step s (first ++ second) = some t ↔
      ∃ s', run step s first = some s' ∧ run step s' second = some t := by
  induction first generalizing s with
  | nil => simp
  | cons event rest ih =>
    rw [List.cons_append, run_cons_eq_some]
    constructor
    · rintro ⟨s', hstep, hrun⟩
      obtain ⟨s'', hfirst, hsecond⟩ := ih.mp hrun
      exact ⟨s'', run_cons_eq_some.mpr ⟨s', hstep, hfirst⟩, hsecond⟩
    · rintro ⟨s'', hfirst, hsecond⟩
      obtain ⟨s', hstep, hrest⟩ := run_cons_eq_some.mp hfirst
      exact ⟨s', hstep, ih.mpr ⟨s'', hrest, hsecond⟩⟩

theorem Meets.front {s : State} {first second : List Event}
    (hgood : Meets step good s (first ++ second)) : Meets step good s first := by
  induction first generalizing s with
  | nil => exact trivial
  | cons event rest ih =>
    refine ⟨hgood.1, ?_⟩
    cases hstep : step s event with
    | none => exact trivial
    | some s' => exact ih (Meets.tail hgood hstep)

theorem Meets.back {s t : State} {first second : List Event}
    (hgood : Meets step good s (first ++ second)) (hrun : run step s first = some t) :
    Meets step good t second := by
  induction first generalizing s with
  | nil =>
    rw [run_nil, Option.some.injEq] at hrun
    exact hrun ▸ hgood
  | cons event rest ih =>
    obtain ⟨s', hstep, hrest⟩ := run_cons_eq_some.mp hrun
    exact ih (Meets.tail hgood hstep) hrest

/-- An invariant kept by every step that meets the condition is kept by every run whose steps all
meet it. -/
theorem run_invariant_of_meets {Inv : State → Prop}
    (hinv : ∀ s event s', Inv s → good s event → step s event = some s' → Inv s')
    {s t : State} {events : List Event} (hs : Inv s) (hgood : Meets step good s events)
    (hrun : run step s events = some t) : Inv t := by
  induction events generalizing s with
  | nil =>
    rw [run_nil, Option.some.injEq] at hrun
    exact hrun ▸ hs
  | cons event rest ih =>
    obtain ⟨s', hstep, hrest⟩ := run_cons_eq_some.mp hrun
    exact ih (hinv s event s' hs hgood.1 hstep) (hgood.tail hstep) hrest

/-- An invariant kept by every step is kept by every run. -/
theorem run_invariant {Inv : State → Prop}
    (hinv : ∀ s event s', Inv s → step s event = some s' → Inv s')
    {s t : State} {events : List Event} (hs : Inv s) (hrun : run step s events = some t) :
    Inv t := by
  induction events generalizing s with
  | nil =>
    rw [run_nil, Option.some.injEq] at hrun
    exact hrun ▸ hs
  | cons event rest ih =>
    obtain ⟨s', hstep, hrest⟩ := run_cons_eq_some.mp hrun
    exact ih (hinv s event s' hs hstep) hrest

/-- An invariant of the state and a record of the events. -/
theorem run_record_of_meets {Record : Type*} {Inv : State → Record → Prop}
    (record : Record → Event → Record)
    (hinv : ∀ s r event s', Inv s r → good s event → step s event = some s' →
      Inv s' (record r event))
    {s t : State} {r : Record} {events : List Event} (hs : Inv s r)
    (hgood : Meets step good s events) (hrun : run step s events = some t) :
    Inv t (events.foldl record r) := by
  induction events generalizing s r with
  | nil =>
    rw [run_nil, Option.some.injEq] at hrun
    exact hrun ▸ hs
  | cons event rest ih =>
    obtain ⟨s', hstep, hrest⟩ := run_cons_eq_some.mp hrun
    exact ih (hinv s r event s' hs hgood.1 hstep) (hgood.tail hstep) hrest

/-- A law that holds in the states of an invariant, where the good events keep the invariant and
every other event breaks the law, holds in every state of a run exactly when all its events are
good. -/
theorem law_along_iff (Inv : State → Prop) {Law : State → Prop} {fine : Event → Prop}
    (hlaw : ∀ s, Inv s → Law s)
    (hfine : ∀ s event s', Inv s → fine event → step s event = some s' → Inv s')
    (hbad : ∀ s event s', Inv s → ¬fine event → step s event = some s' → ¬Law s')
    {s t : State} {events : List Event} (hs : Inv s) (hrun : run step s events = some t) :
    (∀ front back u, events = front ++ back → run step s front = some u → Law u) ↔
      ∀ event ∈ events, fine event := by
  induction events generalizing s with
  | nil =>
    refine iff_of_true (fun front back u happend hfront ↦ ?_) fun event hmem ↦
      absurd hmem List.not_mem_nil
    rw [(List.append_eq_nil_iff.mp happend.symm).1, run_nil, Option.some.injEq] at hfront
    exact hfront ▸ hlaw s hs
  | cons event rest ih =>
    obtain ⟨s', hstep, hrest⟩ := run_cons_eq_some.mp hrun
    have hfirst : run step s [event] = some s' := run_cons_eq_some.mpr ⟨s', hstep, run_nil s'⟩
    rw [List.forall_mem_cons]
    constructor
    · intro halong
      have hevent : fine event := by
        by_contra hnot
        exact hbad s event s' hs hnot hstep (halong [event] rest s' rfl hfirst)
      refine ⟨hevent, (ih (hfine s event s' hs hevent hstep) hrest).mp ?_⟩
      intro front back u happend hfront
      exact halong (event :: front) back u (by rw [happend, List.cons_append])
        (run_cons_eq_some.mpr ⟨s', hstep, hfront⟩)
    · rintro ⟨hevent, hlater⟩ front back u happend hfront
      have halong := (ih (hfine s event s' hs hevent hstep) hrest).mpr hlater
      cases front with
      | nil =>
        rw [run_nil, Option.some.injEq] at hfront
        exact hfront ▸ hlaw s hs
      | cons first front =>
        rw [List.cons_append, List.cons.injEq] at happend
        obtain ⟨s'', hstep', hfront'⟩ := run_cons_eq_some.mp hfront
        rw [← happend.1, hstep, Option.some.injEq] at hstep'
        exact halong front back u happend.2 (hstep' ▸ hfront')

/-- Forward simulation along runs: if every step that meets the condition is matched, for the same
event, by a step of the abstract machine between related states, then every run whose steps all
meet it is matched by a run of the abstract machine. -/
theorem run_simulation {Abstract : Type*} {absStep : Abstract → Event → Option Abstract}
    {Rel : State → Abstract → Prop}
    (hsim : ∀ s a event s', Rel s a → good s event → step s event = some s' →
      ∃ a', absStep a event = some a' ∧ Rel s' a')
    {s t : State} {a : Abstract} {events : List Event} (hrel : Rel s a)
    (hgood : Meets step good s events) (hrun : run step s events = some t) :
    ∃ b, run absStep a events = some b ∧ Rel t b := by
  induction events generalizing s a with
  | nil =>
    rw [run_nil, Option.some.injEq] at hrun
    exact ⟨a, rfl, hrun ▸ hrel⟩
  | cons event rest ih =>
    obtain ⟨s', hstep, hrest⟩ := run_cons_eq_some.mp hrun
    obtain ⟨a', habs, hrel'⟩ := hsim s a event s' hrel hgood.1 hstep
    obtain ⟨b, hb, hfinal⟩ := ih hrel' (hgood.tail hstep) hrest
    exact ⟨b, run_cons_eq_some.mpr ⟨a', habs, hb⟩, hfinal⟩

end Katmai.Foundation
