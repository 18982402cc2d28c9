import Mathlib.Data.Nat.Notation

/-!
# Computations that read bytes

A `ByteReader` looks at a buffer one byte at a time and decides from the bytes it has seen what to
look at next. `eval` runs it on a buffer and `reads` lists the indices it looked at. Its value
depends on nothing else: two buffers that agree on the indices read give the same value
(`eval_eq_of_agree`), so a reader that stays below a bound computes a function of the bytes below
that bound.
-/

set_option autoImplicit false
set_option relaxedAutoImplicit false

namespace Katmai.Foundation

/-- A computation over the bytes of a buffer. -/
inductive ByteReader (α : Type) where
  | done (value : α)
  | byte (index : ℕ) (next : UInt8 → ByteReader α)

namespace ByteReader

variable {α β : Type}

/-- One computation after another. -/
def bind : ByteReader α → (α → ByteReader β) → ByteReader β
  | .done value, rest => rest value
  | .byte index next, rest => .byte index fun b ↦ (next b).bind rest

instance : Monad ByteReader where
  pure := .done
  bind := bind

/-- The byte at an index. -/
def read (index : ℕ) : ByteReader UInt8 :=
  .byte index .done

/-- The value computed on a buffer. -/
def eval (buffer : ℕ → UInt8) : ByteReader α → α
  | .done value => value
  | .byte index next => (next (buffer index)).eval buffer

/-- The indices looked at, in order. -/
def reads (buffer : ℕ → UInt8) : ByteReader α → List ℕ
  | .done _ => []
  | .byte index next => index :: (next (buffer index)).reads buffer

variable (buffer : ℕ → UInt8)

@[simp] theorem eval_pure (value : α) : eval buffer (pure value) = value :=
  rfl

@[simp] theorem reads_pure (value : α) : reads buffer (pure value) = [] :=
  rfl

@[simp] theorem eval_read (index : ℕ) : eval buffer (read index) = buffer index :=
  rfl

@[simp] theorem reads_read (index : ℕ) : reads buffer (read index) = [index] :=
  rfl

@[simp] theorem eval_bind (m : ByteReader α) (rest : α → ByteReader β) :
    eval buffer (m >>= rest) = eval buffer (rest (eval buffer m)) := by
  induction m with
  | done value => rfl
  | byte index next ih => exact ih (buffer index)

@[simp] theorem reads_bind (m : ByteReader α) (rest : α → ByteReader β) :
    reads buffer (m >>= rest) = reads buffer m ++ reads buffer (rest (eval buffer m)) := by
  induction m with
  | done value => rfl
  | byte index next ih => exact congrArg (index :: ·) (ih (buffer index))

/-- Buffers that agree on the indices read give the same value. -/
theorem eval_eq_of_agree {other : ℕ → UInt8} (m : ByteReader α)
    (hagree : ∀ i ∈ reads buffer m, other i = buffer i) : eval other m = eval buffer m := by
  induction m with
  | done value => rfl
  | byte index next ih =>
    have hhead : other index = buffer index := hagree index List.mem_cons_self
    have htail : ∀ i ∈ reads buffer (next (buffer index)), other i = buffer i :=
      fun i hi ↦ hagree i (List.mem_cons_of_mem index hi)
    change eval other (next (other index)) = eval buffer (next (buffer index))
    rw [hhead]
    exact ih (buffer index) htail

end ByteReader

end Katmai.Foundation
