import Katmai.Foundation.CallRun

/-!
# Deques

A deque is a list with four mutators, two at each end: `push` and `pop` work at the rear, `unshift`
and `shift` at the front; `front` and `rear` look at an end. Calls that hand out an element do so
through a buffer of the caller, which may be absent. `dequeCall` is the deque with at most
`capacity` elements (`none`: no bound), as an object in the sense of `Katmai.Foundation.CallRun`.

As long as it never gets full, a deque with a bound answers as the unbounded deque does
(`replies_of_never_full`).
-/

set_option autoImplicit false
set_option relaxedAutoImplicit false

namespace Katmai.Foundation

variable {α : Type*}

/-- A call to a deque. `push` and `unshift` bring an element. The others bring the contents of the
caller's buffer, `none` when there is no buffer. -/
inductive DequeCall (α : Type*) where
  | push (x : α)
  | pop (data : Option α)
  | unshift (x : α)
  | shift (data : Option α)
  | front (data : Option α)
  | rear (data : Option α)
  deriving DecidableEq

/-- The answer to a call: the return code, and the caller's buffer after the call. -/
structure DequeAnswer (α : Type*) where
  rc : ℕ
  data : Option α
  deriving DecidableEq

/-- A deque that holds `items` has room for one more element. -/
def HasRoom (capacity : Option ℕ) (items : List α) : Prop :=
  ∀ n ∈ capacity, items.length < n

instance (capacity : Option ℕ) (items : List α) : Decidable (HasRoom capacity items) :=
  inferInstanceAs (Decidable (∀ n ∈ capacity, items.length < n))

/-- The answer that hands out the element at one end: 1 and the element in the caller's buffer, if
there is an element; 0 and the buffer as it was, if not. -/
def handOut (data item : Option α) : DequeAnswer α :=
  match item with
  | some x => ⟨1, data.map fun _ ↦ x⟩
  | none => ⟨0, data⟩

/-- A call to the deque that holds `items`. -/
def dequeCall (capacity : Option ℕ) (items : List α) : DequeCall α → DequeAnswer α × List α
  | .push x => if HasRoom capacity items then (⟨1, none⟩, items ++ [x]) else (⟨0, none⟩, items)
  | .pop data => (handOut data items.getLast?, items.dropLast)
  | .unshift x => if HasRoom capacity items then (⟨1, none⟩, x :: items) else (⟨0, none⟩, items)
  | .shift data => (handOut data items.head?, items.tail)
  | .front data => (handOut data items.head?, items)
  | .rear data => (handOut data items.getLast?, items)

theorem hasRoom_none (items : List α) : HasRoom none items := by
  simp [HasRoom]

theorem hasRoom_some {n : ℕ} {items : List α} : HasRoom (some n) items ↔ items.length < n := by
  simp [HasRoom]

/-- A deque with room is called as the unbounded one. -/
theorem dequeCall_of_hasRoom {n : ℕ} {items : List α} (hroom : items.length < n)
    (c : DequeCall α) : dequeCall (some n) items c = dequeCall none items c := by
  cases c <;> simp [dequeCall, HasRoom, hroom]

/-- Along the calls, the unbounded deque never holds `n` elements when a call is made. -/
def NeverFull (n : ℕ) : List α → List (DequeCall α) → Prop :=
  Along (dequeCall none) fun items _ ↦ items.length < n

instance (n : ℕ) (items : List α) (calls : List (DequeCall α)) :
    Decidable (NeverFull n items calls) :=
  inferInstanceAs (Decidable (Along _ _ items calls))

/-- As long as it never gets full, a deque with a bound answers as the unbounded one. -/
theorem replies_of_never_full {n : ℕ} {items : List α} {calls : List (DequeCall α)}
    (hfull : NeverFull n items calls) :
    replies (dequeCall (some n)) items calls = replies (dequeCall none) items calls := by
  induction calls generalizing items with
  | nil => rfl
  | cons c rest ih =>
    simp only [replies, dequeCall_of_hasRoom hfull.1, ih hfull.2]

end Katmai.Foundation
