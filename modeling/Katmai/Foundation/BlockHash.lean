import Mathlib.Data.List.Basic

/-!
# Hashes over blocks

A hash over blocks of `size` values is given by a function `compress` that moves a state on with one
block. `absorb` runs it over the first blocks of a text.

A program that is given a text piece by piece keeps a state and the values that no block was made of
yet. `Absorbed` says what these have to be: the state has absorbed the text up to the values kept.
More text is kept first (`Absorbed.append`), and blocks of what is kept are absorbed at any time
(`Absorbed.absorb`), so that how the text is cut up makes no difference to the state in the end
(`Absorbed.eq_absorb`).
-/

set_option autoImplicit false
set_option relaxedAutoImplicit false

namespace Katmai.Foundation

variable {σ α : Type} (compress : σ → List α → σ) (size : ℕ)

/-- The state behind the first `n` blocks of a text. -/
def absorb : ℕ → σ → List α → σ
  | 0, state, _ => state
  | n + 1, state, text => absorb n (compress state (text.take size)) (text.drop size)

theorem absorb_add (m n : ℕ) (state : σ) (text : List α) :
    absorb compress size (m + n) state text =
      absorb compress size n (absorb compress size m state text) (text.drop (m * size)) := by
  induction m generalizing state text with
  | zero => rw [Nat.zero_add, Nat.zero_mul, List.drop_zero, absorb]
  | succ m ih =>
    rw [Nat.add_right_comm, absorb, ih, absorb, List.drop_drop, Nat.succ_mul, Nat.add_comm size]

/-- What comes behind the blocks makes no difference. -/
theorem absorb_append {n : ℕ} {front : List α} (hfront : n * size ≤ front.length) (state : σ)
    (rest : List α) :
    absorb compress size n state (front ++ rest) = absorb compress size n state front := by
  induction n generalizing state front with
  | zero => rfl
  | succ n ih =>
    rw [Nat.succ_mul] at hfront
    rw [absorb, absorb, List.take_append_of_le_length (by omega),
      List.drop_append_of_le_length (by omega), ih (by rw [List.length_drop]; omega)]

theorem absorb_take {n : ℕ} {text : List α} (hn : n * size ≤ text.length) (state : σ) :
    absorb compress size n state (text.take (n * size)) = absorb compress size n state text := by
  have hfront : n * size ≤ (text.take (n * size)).length := by
    rw [List.length_take]
    omega
  have happend := absorb_append compress size hfront state (text.drop (n * size))
  rw [List.take_append_drop] at happend
  exact happend.symm

/-- The state has absorbed the text up to the values that are kept. -/
def Absorbed (init : σ) (text : List α) (state : σ) (kept : List α) : Prop :=
  ∃ n front, text = front ++ kept ∧ front.length = n * size ∧
    state = absorb compress size n init front

namespace Absorbed

variable {compress size} {init state : σ} {text kept : List α}

theorem start : Absorbed compress size init [] init [] :=
  ⟨0, [], rfl, (Nat.zero_mul _).symm, rfl⟩

theorem append (h : Absorbed compress size init text state kept) (more : List α) :
    Absorbed compress size init (text ++ more) state (kept ++ more) := by
  obtain ⟨n, front, rfl, hlength, hstate⟩ := h
  exact ⟨n, front, List.append_assoc _ _ _, hlength, hstate⟩

/-- Blocks of what is kept. -/
theorem absorb (h : Absorbed compress size init text state kept) {n : ℕ}
    (hn : n * size ≤ kept.length) :
    Absorbed compress size init text (absorb compress size n state kept)
      (kept.drop (n * size)) := by
  obtain ⟨m, front, rfl, hlength, rfl⟩ := h
  refine ⟨m + n, front ++ kept.take (n * size), ?_, ?_, ?_⟩
  · rw [List.append_assoc, List.take_append_drop]
  · rw [List.length_append, List.length_take, hlength, Nat.add_mul]
    omega
  · rw [absorb_add, ← hlength, List.drop_left, absorb_take compress size hn,
      absorb_append compress size (Nat.le_of_eq hlength.symm)]

theorem length_eq (h : Absorbed compress size init text state kept) :
    ∃ n, text.length = n * size + kept.length := by
  obtain ⟨n, front, rfl, hlength, -⟩ := h
  exact ⟨n, by rw [List.length_append, hlength]⟩

/-- Nothing is kept any more. -/
theorem eq_absorb (h : Absorbed compress size init text state []) (hsize : 0 < size) :
    state = Foundation.absorb compress size (text.length / size) init text := by
  obtain ⟨n, front, rfl, hlength, hstate⟩ := h
  rw [List.append_nil, hlength, Nat.mul_div_cancel _ hsize, hstate]

end Absorbed

end Katmai.Foundation
