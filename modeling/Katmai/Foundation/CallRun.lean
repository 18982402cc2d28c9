import Mathlib.Data.List.Basic

/-!
# Objects that answer calls

An object is a partial function `call : State → Call → Option (Answer × State)`: a call gives an
answer and a new state, or goes wrong (`none`, an access the machine traps). `serve` makes a list
of calls one after another and collects the answers. A specification is a total object; `replies`
are its answers. `serve_of_refines` is the refinement rule: when every call to related states is
answered as the specification answers it, whole lists of calls are. With a condition on the calls
(`Along`), calls outside of which go wrong, the object answers as its specification does exactly
when every call meets the condition (`serve_eq_replies_iff`).
-/

set_option autoImplicit false
set_option relaxedAutoImplicit false

namespace Katmai.Foundation

variable {State Spec Call Answer : Type*}

/-- The answers to a list of calls and the state after them, or `none` if a call goes wrong. -/
def serve (call : State → Call → Option (Answer × State)) :
    State → List Call → Option (List Answer × State)
  | s, [] => some ([], s)
  | s, c :: rest =>
    (call s c).bind fun first ↦
      (serve call first.2 rest).map fun later ↦ (first.1 :: later.1, later.2)

/-- The answers of a specification to a list of calls and its state after them. -/
def replies (spec : Spec → Call → Answer × Spec) : Spec → List Call → List Answer × Spec
  | a, [] => ([], a)
  | a, c :: rest =>
    ((spec a c).1 :: (replies spec (spec a c).2 rest).1, (replies spec (spec a c).2 rest).2)

/-- Every call of the list meets the condition `good` in the specification's state before it. -/
def Along (spec : Spec → Call → Answer × Spec) (good : Spec → Call → Prop) :
    Spec → List Call → Prop
  | _, [] => True
  | a, c :: rest => good a c ∧ Along spec good (spec a c).2 rest

/-- Whether all calls meet a decidable condition can be computed. -/
instance decidableAlong (spec : Spec → Call → Answer × Spec) (good : Spec → Call → Prop)
    [∀ a c, Decidable (good a c)] :
    ∀ (a : Spec) (calls : List Call), Decidable (Along spec good a calls)
  | _, [] => .isTrue trivial
  | a, c :: rest =>
    haveI := decidableAlong spec good (spec a c).2 rest
    inferInstanceAs (Decidable (good a c ∧ Along spec good (spec a c).2 rest))

variable {call : State → Call → Option (Answer × State)} {spec : Spec → Call → Answer × Spec}
  {good : Spec → Call → Prop} {Rel : State → Spec → Prop}

/-- A list of at least one call is a call followed by a list of calls. -/
theorem serve_cons_of_call {s s' : State} {c : Call} {answer : Answer}
    (hcall : call s c = some (answer, s')) (rest : List Call) :
    serve call s (c :: rest) =
      (serve call s' rest).map fun later ↦ (answer :: later.1, later.2) := by
  rw [serve, hcall, Option.bind_some]

/-- The replies to a list of calls and to one more. -/
theorem replies_concat (a : Spec) (calls : List Call) (c : Call) :
    replies spec a (calls ++ [c]) =
      ((replies spec a calls).1 ++ [(spec (replies spec a calls).2 c).1],
        (spec (replies spec a calls).2 c).2) := by
  induction calls generalizing a with
  | nil => rfl
  | cons first rest ih => rw [List.cons_append, replies, ih, replies, List.cons_append]

/-- The replies to a list of calls and to more of them. -/
theorem replies_append (a : Spec) (calls more : List Call) :
    (replies spec a (calls ++ more)).1 =
      (replies spec a calls).1 ++ (replies spec (replies spec a calls).2 more).1 := by
  induction calls generalizing a with
  | nil => rfl
  | cons first rest ih =>
    rw [List.cons_append, replies, ih, replies, List.cons_append]

/-- There is a reply to each call. -/
theorem length_replies (a : Spec) (calls : List Call) :
    (replies spec a calls).1.length = calls.length := by
  induction calls generalizing a with
  | nil => rfl
  | cons first rest ih => rw [replies, List.length_cons, ih, List.length_cons]

/-- Calls that a specification reads through a function are calls of that function's values. -/
theorem replies_comp {Call' : Type*} (f : Call' → Call) (a : Spec) (calls : List Call') :
    replies (fun a c ↦ spec a (f c)) a calls = replies spec a (calls.map f) := by
  induction calls generalizing a with
  | nil => rfl
  | cons c rest ih => rw [replies, ih, List.map_cons, replies]

/-- An object whose calls to related states meet the condition and are answered as the
specification answers them answers every list of such calls as the specification does. -/
theorem serve_of_along
    (hstep : ∀ s a c, Rel s a → good a c →
      ∃ s', call s c = some ((spec a c).1, s') ∧ Rel s' (spec a c).2)
    {s : State} {a : Spec} {calls : List Call} (hrel : Rel s a)
    (hgood : Along spec good a calls) :
    ∃ t, serve call s calls = some ((replies spec a calls).1, t) ∧
      Rel t (replies spec a calls).2 := by
  induction calls generalizing s a with
  | nil => exact ⟨s, rfl, hrel⟩
  | cons c rest ih =>
    obtain ⟨s', hcall, hrel'⟩ := hstep s a c hrel hgood.1
    obtain ⟨t, hserve, hfinal⟩ := ih hrel' hgood.2
    refine ⟨t, ?_, hfinal⟩
    rw [serve_cons_of_call hcall, hserve, Option.map_some, replies]

/-- A condition that every call meets is met along every list of calls. -/
theorem along_of_forall (hall : ∀ a c, good a c) (a : Spec) (calls : List Call) :
    Along spec good a calls := by
  induction calls generalizing a with
  | nil => exact trivial
  | cons c rest ih => exact ⟨hall a c, ih _⟩

/-- An invariant that every call keeps holds after every list of calls. -/
theorem replies_invariant (Inv : Spec → Prop) (hinv : ∀ a c, Inv a → Inv (spec a c).2) {a : Spec}
    (ha : Inv a) (calls : List Call) : Inv (replies spec a calls).2 := by
  induction calls generalizing a with
  | nil => exact ha
  | cons c rest ih => exact ih (hinv a c ha)

/-- A condition on the calls alone is met along a list when all of its calls meet it. -/
theorem along_calls_iff {P : Call → Prop} (a : Spec) (calls : List Call) :
    Along spec (fun _ c ↦ P c) a calls ↔ ∀ c ∈ calls, P c := by
  induction calls generalizing a with
  | nil => simp [Along]
  | cons c rest ih => rw [Along, ih, List.forall_mem_cons]

/-- Two conditions that agree in the states of an invariant are met along the same lists of
calls. -/
theorem along_iff_of_invariant (Inv : Spec → Prop) {other : Spec → Call → Prop}
    (hiff : ∀ a c, Inv a → (good a c ↔ other a c)) (hinv : ∀ a c, Inv a → Inv (spec a c).2)
    {a : Spec} (ha : Inv a) (calls : List Call) :
    Along spec good a calls ↔ Along spec other a calls := by
  induction calls generalizing a with
  | nil => exact Iff.rfl
  | cons c rest ih => exact and_congr (hiff a c ha) (ih (hinv a c ha))

/-- All calls meet two conditions when they all meet each of them. -/
theorem along_and_iff {other : Spec → Call → Prop} (a : Spec) (calls : List Call) :
    Along spec (fun a c ↦ good a c ∧ other a c) a calls ↔
      Along spec good a calls ∧ Along spec other a calls := by
  induction calls generalizing a with
  | nil => simp [Along]
  | cons c rest ih =>
    simp only [Along, ih]
    exact and_and_and_comm

/-- An object whose every call to related states is answered as the specification answers it
refines the specification on every list of calls. -/
theorem serve_of_refines
    (hstep : ∀ s a c, Rel s a → ∃ s', call s c = some ((spec a c).1, s') ∧ Rel s' (spec a c).2)
    {s : State} {a : Spec} (hrel : Rel s a) (calls : List Call) :
    ∃ t, serve call s calls = some ((replies spec a calls).1, t) ∧
      Rel t (replies spec a calls).2 := by
  have hall : Along spec (fun _ _ ↦ True) a calls := along_of_forall (fun _ _ ↦ trivial) a calls
  exact serve_of_along (fun s a c hrel _ ↦ hstep s a c hrel) hrel hall

/-- If moreover a call outside the condition is not answered as the specification answers it, the
object answers a list of calls as its specification does exactly when they all meet it. -/
theorem serve_eq_replies_iff
    (hstep : ∀ s a c, Rel s a → good a c →
      ∃ s', call s c = some ((spec a c).1, s') ∧ Rel s' (spec a c).2)
    (hbad : ∀ s a c, Rel s a → ¬ good a c → ∀ s', call s c ≠ some ((spec a c).1, s'))
    {s : State} {a : Spec} {calls : List Call} (hrel : Rel s a) :
    (∃ t, serve call s calls = some ((replies spec a calls).1, t)) ↔
      Along spec good a calls := by
  constructor
  · induction calls generalizing s a with
    | nil => exact fun _ ↦ trivial
    | cons c rest ih =>
      rintro ⟨t, hserve⟩
      rw [serve, Option.bind_eq_some_iff] at hserve
      obtain ⟨⟨answer, s'⟩, hcall, hlater⟩ := hserve
      obtain ⟨⟨answers, t'⟩, hrest, heq⟩ := Option.map_eq_some_iff.mp hlater
      rw [replies] at heq
      obtain ⟨⟨rfl, rfl⟩, rfl⟩ : (answer = (spec a c).1 ∧
          answers = (replies spec (spec a c).2 rest).1) ∧ t' = t := by simpa using heq
      have hgood : good a c := by
        by_contra hnot
        exact hbad s a c hrel hnot s' hcall
      obtain ⟨s'', hcall', hrel'⟩ := hstep s a c hrel hgood
      obtain rfl : s' = s'' := by simpa [hcall] using hcall'
      exact ⟨hgood, ih hrel' ⟨t', hrest⟩⟩
  · intro hgood
    obtain ⟨t, hserve, -⟩ := serve_of_along hstep hrel hgood
    exact ⟨t, hserve⟩

end Katmai.Foundation
