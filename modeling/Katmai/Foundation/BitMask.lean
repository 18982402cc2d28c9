import Mathlib.Algebra.Group.Nat.Defs
import Mathlib.Data.List.Basic

/-!
# Sets of small numbers as bit masks

A mask of `w` bits holds the numbers below `w` whose bit is set. A mask is built by setting the bits
of a list (`setBits`) or by a loop that moves one bit along and tests its position (`sweep`), and it
is tested by an `and` with a single bit. Each lemma says what a mask holds, bit by bit.
-/

set_option autoImplicit false
set_option relaxedAutoImplicit false

namespace Katmai.Foundation

variable {w : ℕ}

/-- The bit of a number. -/
theorem getLsbD_one_shiftLeft (n v : ℕ) :
    (1#w <<< n).getLsbD v = (decide (n < w) && decide (n = v)) := by
  rw [← BitVec.twoPow_eq, BitVec.getLsbD_twoPow]

/-- A mask tested with the bit of a number. -/
theorem one_shiftLeft_and_eq_zero_iff {v : ℕ} (hv : v < w) (mask : BitVec w) :
    1#w <<< v &&& mask = 0#w ↔ mask.getLsbD v = false := by
  rw [← BitVec.twoPow_eq, BitVec.twoPow_and]
  cases hbit : mask.getLsbD v with
  | false => simp
  | true =>
    have hne : (BitVec.twoPow w v).getLsbD v = true := by simp [hv]
    simp only [if_true, Bool.true_eq_false, iff_false]
    intro hzero
    simp [hzero] at hne

/-! ### A mask from a list -/

/-- The masks of a list's members put together, on top of what is set already. -/
def setBits (bit : ℕ → BitVec w) (mask : BitVec w) (members : List ℕ) : BitVec w :=
  members.foldl (fun mask n ↦ mask ||| bit n) mask

theorem getLsbD_setBits (bit : ℕ → BitVec w) (mask : BitVec w) (members : List ℕ) (v : ℕ) :
    (setBits bit mask members).getLsbD v =
      (mask.getLsbD v || members.any fun n ↦ (bit n).getLsbD v) := by
  induction members generalizing mask with
  | nil => simp [setBits]
  | cons n rest ih =>
    have hstep : setBits bit mask (n :: rest) = setBits bit (mask ||| bit n) rest := rfl
    rw [hstep, ih, BitVec.getLsbD_or, List.any_cons, Bool.or_assoc]

/-! ### A mask from a moving bit -/

/-- One round of a loop that moves a bit along: the bit is set where the position passes. -/
def sweepStep (passes : ℕ → Bool) (state : BitVec w × BitVec w) (j : ℕ) : BitVec w × BitVec w :=
  (if passes j then state.1 ||| state.2 else state.1, state.2 <<< 1)

/-- A loop over the positions below `k`, from a given mask and the lowest bit. -/
def sweep (mask : BitVec w) (passes : ℕ → Bool) (k : ℕ) : BitVec w × BitVec w :=
  (List.range k).foldl (sweepStep passes) (mask, 1#w)

theorem sweep_succ (mask : BitVec w) (passes : ℕ → Bool) (k : ℕ) :
    sweep mask passes (k + 1) = sweepStep passes (sweep mask passes k) k := by
  simp [sweep, List.range_succ]

/-- The bit that moves is the bit of the next position. -/
theorem sweep_snd (mask : BitVec w) (passes : ℕ → Bool) (k : ℕ) :
    (sweep mask passes k).2 = 1#w <<< k := by
  induction k with
  | zero => simp [sweep]
  | succ k ih => rw [sweep_succ, sweepStep, ih, ← BitVec.shiftLeft_add]

/-- What one round does to the bits of the mask. -/
theorem getLsbD_sweepStep_fst (passes : ℕ → Bool) (mask : BitVec w) (j v : ℕ) :
    (sweepStep passes (mask, 1#w <<< j) j).1.getLsbD v =
      (mask.getLsbD v || (passes j && (decide (j < w) && decide (j = v)))) := by
  rw [← getLsbD_one_shiftLeft, sweepStep]
  cases passes j
  · rw [Bool.false_and, Bool.or_false]
    rfl
  · rw [Bool.true_and, ← BitVec.getLsbD_or]
    rfl

/-- After the loop the mask also holds the positions that passed. -/
theorem getLsbD_sweep_fst (mask : BitVec w) (passes : ℕ → Bool) (k v : ℕ) :
    (sweep mask passes k).1.getLsbD v =
      (mask.getLsbD v || (passes v && (decide (v < k) && decide (v < w)))) := by
  induction k with
  | zero => simp [sweep]
  | succ k ih =>
    have hstate : sweep mask passes k = ((sweep mask passes k).1, 1#w <<< k) :=
      Prod.ext rfl (sweep_snd mask passes k)
    rw [sweep_succ, hstate, getLsbD_sweepStep_fst, ih]
    by_cases hkv : k = v
    · subst v
      simp
    · have hlt : v < k + 1 ↔ v < k := by omega
      simp [hkv, hlt]

end Katmai.Foundation
