import Katmai.Foundation.CallRun
import Mathlib.Algebra.Ring.Nat

/-!
# Streams

A stream is what is left of it. `readStream` takes the first `n` values, or all if fewer are left,
and the next read goes on behind them. As an object that answers calls it returns, over any list of
reads, the stream in order (`flatten_replies_readStream`), and a read is short only at its end
(`flatten_of_short_read`). `MarkedStream` is a stream whose end is a mark: the read that meets the
mark is short, and every later read is refused.

`segment` are the values of a sequence from a place on, which is how files and buffers look.
-/

set_option autoImplicit false
set_option relaxedAutoImplicit false

namespace Katmai.Foundation

variable {α : Type}

/-! ### Segments of a sequence -/

/-- `n` values of a sequence from `start` on. -/
def segment (f : ℕ → α) (start n : ℕ) : List α :=
  (List.range n).map fun j ↦ f (start + j)

@[simp] theorem length_segment (f : ℕ → α) (start n : ℕ) : (segment f start n).length = n := by
  rw [segment, List.length_map, List.length_range]

@[simp] theorem segment_zero (f : ℕ → α) (start : ℕ) : segment f start 0 = [] :=
  rfl

/-- Two consecutive segments are one. -/
theorem segment_append (f : ℕ → α) (start first second : ℕ) :
    segment f start first ++ segment f (start + first) second =
      segment f start (first + second) := by
  unfold segment
  rw [List.range_add, List.map_append, List.map_map]
  refine congrArg (_ ++ ·) (List.map_congr_left fun j _ ↦ ?_)
  rw [Function.comp_apply, Nat.add_assoc]

/-- Sequences that agree on the places have the same segments there. -/
theorem segment_congr {f g : ℕ → α} {start other n : ℕ}
    (hagree : ∀ j < n, f (start + j) = g (other + j)) : segment f start n = segment g other n :=
  List.map_congr_left fun j hj ↦ hagree j (List.mem_range.mp hj)

/-- The first values of a segment. -/
theorem take_segment (f : ℕ → α) (start n k : ℕ) :
    (segment f start n).take k = segment f start (min k n) := by
  rw [segment, ← List.map_take, List.take_range]
  rfl

/-- What follows the first values of a segment. -/
theorem drop_segment (f : ℕ → α) (start n k : ℕ) :
    (segment f start n).drop k = segment f (start + k) (n - k) := by
  rcases Nat.le_total k n with hle | hle
  · obtain ⟨rest, rfl⟩ := Nat.exists_eq_add_of_le hle
    have hlen : k = (segment f start k).length := (length_segment f start k).symm
    rw [← segment_append, Nat.add_sub_cancel_left]
    nth_rewrite 1 [hlen]
    exact List.drop_left
  · rw [List.drop_eq_nil_of_le (by rw [length_segment]; exact hle), Nat.sub_eq_zero_of_le hle]
    rfl

/-! ### Reading a stream -/

/-- The first `n` values of a stream, or all that are left, and what follows them. -/
def readStream (rest : List α) (n : ℕ) : List α × List α :=
  (rest.take n, rest.drop n)

/-- The reads return the stream in order, as much of it as they ask for. -/
theorem flatten_replies_readStream (rest : List α) (lens : List ℕ) :
    (replies readStream rest lens).1.flatten = rest.take lens.sum := by
  induction lens generalizing rest with
  | nil => rfl
  | cons len lens ih =>
    rw [replies, List.flatten_cons, ih, List.sum_cons, List.take_add]
    rfl

/-- What is left after the reads. -/
theorem replies_readStream_snd (rest : List α) (lens : List ℕ) :
    (replies readStream rest lens).2 = rest.drop lens.sum := by
  induction lens generalizing rest with
  | nil => rfl
  | cons len lens ih =>
    rw [replies, ih, List.sum_cons, ← List.drop_drop]
    rfl

/-- With a read that is short everything has been returned. -/
theorem flatten_of_short_read (rest : List α) (earlier : List ℕ) {len : ℕ}
    (hshort : (readStream (replies readStream rest earlier).2 len).1.length < len) :
    (replies readStream rest earlier).1.flatten ++
      (readStream (replies readStream rest earlier).2 len).1 = rest := by
  rw [replies_readStream_snd] at hshort ⊢
  have hall : (rest.drop earlier.sum).length ≤ len := by
    rw [readStream, List.length_take] at hshort
    omega
  rw [flatten_replies_readStream, readStream, List.take_of_length_le hall, List.take_append_drop]

/-! ### Reading a stream that ends with a mark -/

/-- What is left of a stream that ends with a mark, and whether the mark has been met. -/
structure MarkedStream (α : Type) where
  rest : List α
  ended : Bool

namespace MarkedStream

/-- A read takes the first `n` values. If fewer are left it meets the mark, and every later read is
refused. -/
def read (s : MarkedStream α) (n : ℕ) : Option (List α) × MarkedStream α :=
  if s.ended then (none, s)
  else (some (s.rest.take n), ⟨s.rest.drop n, decide (s.rest.length < n)⟩)

variable {s : MarkedStream α}

/-- Behind the mark there is nothing. -/
def Marked (s : MarkedStream α) : Prop :=
  s.ended = true → s.rest = []

theorem Marked.read (hs : s.Marked) (n : ℕ) : (s.read n).2.Marked := by
  unfold MarkedStream.read
  split_ifs with hended
  · exact hs
  · intro hmet
    exact List.drop_eq_nil_of_le (Nat.le_of_lt (of_decide_eq_true hmet))

/-- What is left after the reads. -/
theorem rest_replies (hs : s.Marked) (lens : List ℕ) :
    (replies MarkedStream.read s lens).2.rest = s.rest.drop lens.sum := by
  induction lens generalizing s with
  | nil => rfl
  | cons len lens ih =>
    rw [replies, ih (hs.read len), List.sum_cons, ← List.drop_drop]
    unfold MarkedStream.read
    split_ifs with hended
    · rw [hs hended, List.drop_nil, List.drop_nil, List.drop_nil]
    · rfl

theorem Marked.replies (hs : s.Marked) (lens : List ℕ) :
    (replies MarkedStream.read s lens).2.Marked := by
  induction lens generalizing s with
  | nil => exact hs
  | cons len lens ih => exact ih (hs.read len)

/-- The reads return the stream in order, as much of it as they ask for. -/
theorem flatten_replies (hs : s.Marked) (lens : List ℕ) :
    ((replies MarkedStream.read s lens).1.map fun answer ↦ answer.getD []).flatten =
      s.rest.take lens.sum := by
  induction lens generalizing s with
  | nil => rfl
  | cons len lens ih =>
    rw [replies, List.map_cons, List.flatten_cons, ih (hs.read len), List.sum_cons, List.take_add]
    unfold MarkedStream.read
    split_ifs with hended
    · rw [hs hended, List.take_nil, List.take_nil, List.drop_nil, List.take_nil]
      rfl
    · rfl

/-- Once the mark has been met, every read is refused. -/
theorem replies_of_ended (hended : s.ended = true) (lens : List ℕ) :
    replies MarkedStream.read s lens = (lens.map fun _ ↦ none, s) := by
  induction lens with
  | nil => rfl
  | cons len lens ih =>
    have hread : s.read len = (none, s) := if_pos hended
    rw [replies, hread, ih]
    rfl

/-- As long as the mark has not been met, every read returns as much as it asks for. -/
theorem length_replies_of_not_ended {lens : List ℕ}
    (hopen : (replies MarkedStream.read s lens).2.ended = false) :
    (replies MarkedStream.read s lens).1.map (Option.map List.length) = lens.map some := by
  induction lens generalizing s with
  | nil => rfl
  | cons len lens ih =>
    cases hended : s.ended with
    | true =>
      rw [replies_of_ended hended] at hopen
      exact absurd hopen (by rw [hended]; decide)
    | false =>
      have hread : s.read len =
          (some (s.rest.take len), ⟨s.rest.drop len, decide (s.rest.length < len)⟩) :=
        if_neg (by rw [hended]; decide)
      rw [replies, List.map_cons, List.map_cons]
      rw [replies] at hopen
      rw [ih hopen, hread]
      have hlen : len ≤ s.rest.length := by
        by_contra hshort
        have hmet : (s.read len).2.ended = true := by
          rw [hread]
          exact decide_eq_true (Nat.not_le.mp hshort)
        rw [replies_of_ended hmet] at hopen
        exact absurd hopen (by rw [hmet]; decide)
      rw [Option.map_some, List.length_take, Nat.min_eq_left hlen]

end MarkedStream

end Katmai.Foundation
