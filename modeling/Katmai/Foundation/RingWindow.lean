import Mathlib.Data.List.Nodup
import Mathlib.Data.List.Range
import Mathlib.Data.Nat.ModEq

/-!
# Windows of a ring

A ring of `count` slots is an array addressed modulo `count`. Its occupied part is a window: the
`len` slots that follow a position `front`, in order. This module develops windows on their own:
the slot at an offset (`ringIndex`), the list of the slots of a window (`ringWindow`), and how a
window grows at its end (`ringWindow_succ`) and shrinks at its front (`ringWindow_cons`). As long
as the window is not longer than the ring its slots are pairwise different (`nodup_ringWindow`),
and the slot just after it is none of them (`ringIndex_notMem_ringWindow`).
-/

set_option autoImplicit false
set_option relaxedAutoImplicit false

namespace Katmai.Foundation

/-- The slot `offset` positions after `front` in a ring of `count` slots. -/
def ringIndex (count front offset : ℕ) : ℕ :=
  (front + offset) % count

/-- The slots of the window of length `len` that starts at `front`, in order. -/
def ringWindow (count front len : ℕ) : List ℕ :=
  (List.range len).map (ringIndex count front)

variable {count front : ℕ}

theorem ringIndex_lt (hcount : 0 < count) (front offset : ℕ) :
    ringIndex count front offset < count :=
  Nat.mod_lt _ hcount

theorem ringIndex_zero (hfront : front < count) : ringIndex count front 0 = front :=
  Nat.mod_eq_of_lt hfront

/-- Advancing the slot of an offset by one position gives the slot of the next offset. -/
theorem ringIndex_add_one_mod (count front offset : ℕ) :
    (ringIndex count front offset + 1) % count = ringIndex count front (offset + 1) := by
  unfold ringIndex
  rw [Nat.mod_add_mod, Nat.add_assoc]

/-- Advancing the front by one position shifts every offset by one. -/
theorem ringIndex_front_succ (count front offset : ℕ) :
    ringIndex count ((front + 1) % count) offset = ringIndex count front (offset + 1) := by
  unfold ringIndex
  rw [Nat.mod_add_mod]
  congr 1
  omega

/-- Two offsets below the size of the ring name different slots. -/
theorem ringIndex_inj {first second : ℕ} (hfirst : first < count) (hsecond : second < count)
    (heq : ringIndex count front first = ringIndex count front second) : first = second := by
  have hmod : first ≡ second [MOD count] := Nat.ModEq.add_left_cancel' front heq
  have hcongr : first % count = second % count := hmod
  rwa [Nat.mod_eq_of_lt hfirst, Nat.mod_eq_of_lt hsecond] at hcongr

@[simp] theorem ringWindow_zero (count front : ℕ) : ringWindow count front 0 = [] :=
  rfl

theorem mem_ringWindow {len slot : ℕ} :
    slot ∈ ringWindow count front len ↔ ∃ offset < len, ringIndex count front offset = slot := by
  simp [ringWindow]

/-- Every slot of a window is a slot of the ring. -/
theorem lt_of_mem_ringWindow {len slot : ℕ} (hcount : 0 < count)
    (hslot : slot ∈ ringWindow count front len) : slot < count := by
  obtain ⟨offset, -, rfl⟩ := mem_ringWindow.mp hslot
  exact ringIndex_lt hcount front offset

/-- A window grows at its end. -/
theorem ringWindow_succ (count front len : ℕ) :
    ringWindow count front (len + 1) =
      ringWindow count front len ++ [ringIndex count front len] := by
  simp [ringWindow, List.range_succ]

/-- A window shrinks at its front. -/
theorem ringWindow_cons (hfront : front < count) (len : ℕ) :
    ringWindow count front (len + 1) = front :: ringWindow count ((front + 1) % count) len := by
  unfold ringWindow
  rw [List.range_succ_eq_map, List.map_cons, List.map_map, ringIndex_zero hfront]
  congr 1
  exact List.map_congr_left fun offset _ ↦ (ringIndex_front_succ count front offset).symm

/-- The slots of a window that fits in the ring are pairwise different. -/
theorem nodup_ringWindow {len : ℕ} (hlen : len ≤ count) : (ringWindow count front len).Nodup := by
  refine List.Nodup.map_on (fun first hfirst second hsecond heq ↦ ?_) List.nodup_range
  have hfirstLt := List.mem_range.mp hfirst
  have hsecondLt := List.mem_range.mp hsecond
  exact ringIndex_inj (by omega) (by omega) heq

/-- The slot just after a window shorter than the ring is not a slot of the window. -/
theorem ringIndex_notMem_ringWindow {len : ℕ} (hlen : len < count) :
    ringIndex count front len ∉ ringWindow count front len := by
  intro hmem
  obtain ⟨offset, hoffset, heq⟩ := mem_ringWindow.mp hmem
  have hsame := ringIndex_inj (by omega) hlen heq
  omega

end Katmai.Foundation
