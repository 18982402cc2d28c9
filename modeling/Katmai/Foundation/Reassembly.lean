import Katmai.Foundation.PlainFile
import Mathlib.Data.List.Nodup
import Mathlib.Logic.Function.Basic

/-!
# Reassembling a block from numbered packets

A receiver asks for a block that comes in packets of `size` bytes, one for each of `n` places. It
keeps a flag for every place it still waits for, and copies a packet to its place when it comes.
`Filled` says that the places that are not waited for hold their part of the block; `Filled.copy`
is what one copy does to it, and `Filled.complete` reads off the block when nothing is waited for.
`countP_update_false` and `eq_false_of_countP_eq_zero` are for receivers that count their flags.
-/

set_option autoImplicit false
set_option relaxedAutoImplicit false

namespace Katmai.Foundation

/-- Every place that is not waited for holds its part of the first `len` bytes of `content`. -/
def Filled (size n : ℕ) (waiting : ℕ → Bool) (buffer content : ℕ → UInt8) (len : ℕ) : Prop :=
  ∀ i < n, waiting i = false → ∀ j < size, size * i + j < len →
    buffer (size * i + j) = content (size * i + j)

variable {size n : ℕ} {waiting : ℕ → Bool} {buffer content : ℕ → UInt8} {len : ℕ}

/-- While every place inside the block is waited for, nothing has to be filled. -/
theorem Filled.of_waiting (hwaiting : ∀ i, size * i < len → waiting i = true) :
    Filled size n waiting buffer content len := by
  intro i _ hclear j _ hlt
  rw [hwaiting i (by omega)] at hclear
  cases hclear

/-- A copy to one place. The other places stay as they are; if the place is not waited for
afterwards, the copy must have covered it. -/
theorem Filled.copy (hfilled : Filled size n waiting buffer content len) {waiting' : ℕ → Bool}
    {place count : ℕ} {source : ℕ → UInt8} (hcount : count ≤ size)
    (hother : ∀ i, i ≠ place → waiting' i = false → waiting i = false)
    (hcovers : waiting' place = false → ∀ j < size, size * place + j < len →
      j < count ∧ source j = content (size * place + j)) :
    Filled size n waiting' (copyInto buffer (size * place) count source) content len := by
  intro i hi hclear j hj hlt
  by_cases hplace : i = place
  · subst hplace
    obtain ⟨hshort, hsource⟩ := hcovers hclear j hj hlt
    rw [copyInto_of_mem (by omega) (by omega), Nat.add_sub_cancel_left]
    exact hsource
  · have houtside : size * i + j < size * place ∨ size * place + count ≤ size * i + j := by
      rcases Nat.lt_or_gt_of_ne hplace with hbefore | hafter
      · left
        have hnext : size * (i + 1) ≤ size * place := Nat.mul_le_mul_left size hbefore
        rw [Nat.mul_succ] at hnext
        omega
      · right
        have hnext : size * (place + 1) ≤ size * i := Nat.mul_le_mul_left size hafter
        rw [Nat.mul_succ] at hnext
        omega
    rw [copyInto_of_notMem houtside]
    exact hfilled i hi (hother i hplace hclear) j hj hlt

/-- When no place is waited for, the buffer holds the block. -/
theorem Filled.complete (hfilled : Filled size n waiting buffer content len) (hsize : 0 < size)
    (hlen : len ≤ size * n) (hclear : ∀ i < n, waiting i = false) :
    ∀ j < len, buffer j = content j := by
  intro j hj
  have hplace : size * (j / size) + j % size = j := Nat.div_add_mod j size
  have hrow : j / size < n := Nat.div_lt_of_lt_mul (by omega)
  have hbyte := hfilled (j / size) hrow (hclear _ hrow) (j % size) (Nat.mod_lt j hsize)
  rw [hplace] at hbyte
  exact hbyte hj

/-- Clearing one of the flags lowers their number by one. -/
theorem countP_update_false {flags : ℕ → Bool} {i : ℕ} (hflag : flags i = true) :
    ∀ {places : List ℕ}, places.Nodup → i ∈ places →
      places.countP (Function.update flags i false) + 1 = places.countP flags := by
  intro places
  induction places with
  | nil =>
    intro _ hmem
    cases hmem
  | cons head rest ih =>
    intro hnodup hmem
    obtain ⟨hnotMem, hrest⟩ := List.nodup_cons.mp hnodup
    rw [List.countP_cons, List.countP_cons]
    by_cases hhead : head = i
    · subst hhead
      have hsame : rest.countP (Function.update flags head false) = rest.countP flags := by
        refine List.countP_congr fun other hother ↦ ?_
        have hne : other ≠ head := fun heq ↦ hnotMem (heq ▸ hother)
        rw [Function.update_of_ne hne]
      rw [hsame, Function.update_self, hflag]
      rfl
    · have hmemRest : i ∈ rest := (List.mem_cons.mp hmem).resolve_left fun heq ↦ hhead heq.symm
      have hcount := ih hrest hmemRest
      rw [Function.update_of_ne hhead]
      omega

/-- If none of the flags below `n` is counted, they are all clear. -/
theorem eq_false_of_countP_eq_zero {flags : ℕ → Bool} {n : ℕ}
    (hzero : (List.range n).countP flags = 0) : ∀ i < n, flags i = false := by
  intro i hi
  have hnot := List.countP_eq_zero.mp hzero i (List.mem_range.mpr hi)
  simpa using hnot

end Katmai.Foundation
