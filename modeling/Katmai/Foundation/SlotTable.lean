import Mathlib.Data.List.Basic
import Mathlib.Logic.Function.Basic

/-!
# Tables of slots

A table of `n` slots holds at most one key in each slot. Registering a key takes the first slot that
holds the key, or else the first free slot (`registSlot`), and stores the key there (`regist`).
The registration succeeds exactly when the key has a slot or some slot is free
(`exists_registSlot_iff`), a slot that was taken keeps its key (`regist_of_eq_some`), and the slot
of a registration holds the key afterwards (`regist_of_registSlot`).

`scanSlots` is the usual loop that finds the slot of a registration in one pass
(`scanSlots_eq_registSlot`).
-/

set_option autoImplicit false
set_option relaxedAutoImplicit false

namespace Katmai.Foundation

variable {Key : Type*} [DecidableEq Key]

/-- The first slot that holds a key. -/
def slotOf (n : ℕ) (slots : ℕ → Option Key) (key : Key) : Option ℕ :=
  (List.range n).find? fun i ↦ slots i = some key

/-- The first free slot. -/
def freeSlot (n : ℕ) (slots : ℕ → Option Key) : Option ℕ :=
  (List.range n).find? fun i ↦ slots i = none

/-- The slot that a registration takes. -/
def registSlot (n : ℕ) (slots : ℕ → Option Key) (key : Key) : Option ℕ :=
  (slotOf n slots key).or (freeSlot n slots)

/-- The table after a registration. -/
def regist (n : ℕ) (slots : ℕ → Option Key) (key : Key) : ℕ → Option Key :=
  match registSlot n slots key with
  | some i => Function.update slots i (some key)
  | none => slots

variable {n : ℕ} {slots : ℕ → Option Key} {key : Key}

theorem slotOf_eq_some {i : ℕ} (hslot : slotOf n slots key = some i) :
    i < n ∧ slots i = some key := by
  obtain ⟨hkey, hmem, -⟩ := List.find?_range_eq_some.mp hslot
  exact ⟨List.mem_range.mp hmem, of_decide_eq_true hkey⟩

omit [DecidableEq Key] in
theorem freeSlot_eq_some {i : ℕ} (hslot : freeSlot n slots = some i) :
    i < n ∧ slots i = none := by
  obtain ⟨hnone, hmem, -⟩ := List.find?_range_eq_some.mp hslot
  exact ⟨List.mem_range.mp hmem, of_decide_eq_true hnone⟩

/-- The slot taken is in the table, and it held the key or was free. -/
theorem registSlot_eq_some {i : ℕ} (hslot : registSlot n slots key = some i) :
    i < n ∧ (slots i = some key ∨ slots i = none) := by
  rcases Option.or_eq_some_iff.mp hslot with hsame | ⟨-, hfree⟩
  · exact (slotOf_eq_some hsame).imp_right .inl
  · exact (freeSlot_eq_some hfree).imp_right .inr

/-- A registration succeeds exactly when some slot holds the key or is free. -/
theorem exists_registSlot_iff :
    (∃ i, registSlot n slots key = some i) ↔ ∃ i < n, slots i = some key ∨ slots i = none := by
  refine ⟨fun ⟨i, hslot⟩ ↦ ⟨i, registSlot_eq_some hslot⟩, ?_⟩
  rintro ⟨i, hi, hheld⟩
  cases hslot : registSlot n slots key with
  | some j => exact ⟨j, rfl⟩
  | none =>
    obtain ⟨hsame, hfree⟩ := Option.or_eq_none_iff.mp hslot
    have habsent := List.find?_range_eq_none.mp hsame i hi
    have htaken := List.find?_range_eq_none.mp hfree i hi
    rcases hheld with hkey | hnone
    · exact absurd hkey (by simpa using habsent)
    · exact absurd hnone (by simpa using htaken)

theorem regist_eq_update {i : ℕ} (hslot : registSlot n slots key = some i) :
    regist n slots key = Function.update slots i (some key) := by
  unfold regist
  rw [hslot]

/-- The slot taken holds the key afterwards. -/
theorem regist_of_registSlot {i : ℕ} (hslot : registSlot n slots key = some i) :
    regist n slots key i = some key := by
  rw [regist_eq_update hslot, Function.update_self]

/-- A slot that holds a key keeps it. -/
theorem regist_of_eq_some {j : ℕ} {other : Key} (hother : slots j = some other) :
    regist n slots key j = some other := by
  unfold regist
  cases hslot : registSlot n slots key with
  | none => exact hother
  | some i =>
    by_cases hji : j = i
    · subst hji
      rcases (registSlot_eq_some hslot).2 with hkey | hnone
      · rw [hother, Option.some.injEq] at hkey
        rw [hkey]
        exact Function.update_self j (some key) slots
      · rw [hother] at hnone
        exact absurd hnone (Option.some_ne_none other)
    · exact (Function.update_of_ne hji (some key) slots).trans hother

/-- With the first `k` slots taken by other keys and the next one free, that one is taken. -/
theorem registSlot_eq_next {k : ℕ} (hk : k < n) (htaken : ∀ j < k, slots j ≠ none)
    (hfresh : ∀ j < n, slots j ≠ some key) (hfree : slots k = none) :
    registSlot n slots key = some k := by
  have hnone : slotOf n slots key = none := by
    unfold slotOf
    rw [List.find?_range_eq_none]
    exact fun j hj ↦ by simpa using hfresh j hj
  unfold registSlot
  rw [hnone, Option.none_or, freeSlot, List.find?_range_eq_some]
  exact ⟨decide_eq_true hfree, List.mem_range.mpr hk, fun j hj ↦ by simpa using htaken j hj⟩

/-! ### The scan -/

/-- The scan over `count` slots from `i` on. It stops at a slot in use that is the same, and
otherwise ends with the first free slot; `f` is the one seen so far. -/
def scanSlots (used same : ℕ → Bool) : (count i : ℕ) → Option ℕ → Option ℕ
  | 0, _, f => f
  | count + 1, i, f =>
    if used i = false then scanSlots used same count (i + 1) (if f = none then some i else f)
    else if same i then some i
    else scanSlots used same count (i + 1) f

theorem scanSlots_eq {used same : ℕ → Bool} (hfree : ∀ i, used i = false ↔ slots i = none)
    (hsame : ∀ i, used i = true ∧ same i = true ↔ slots i = some key) (count i : ℕ)
    (f : Option ℕ) :
    scanSlots used same count i f =
      ((List.range' i count).find? fun j ↦ slots j = some key).or
        (f.or ((List.range' i count).find? fun j ↦ slots j = none)) := by
  induction count generalizing i f with
  | zero => simp [scanSlots]
  | succ count ih =>
    rw [scanSlots, List.range'_succ, List.find?_cons, List.find?_cons]
    by_cases hused : used i = false
    · have hnone : slots i = none := (hfree i).mp hused
      rw [if_pos hused, ih, hnone]
      cases f <;> simp
    · have hne : slots i ≠ none := fun h ↦ hused ((hfree i).mpr h)
      rw [if_neg hused]
      by_cases heq : same i = true
      · have hkey : slots i = some key := (hsame i).mp ⟨by simpa using hused, heq⟩
        simp [heq, hkey]
      · have hkey : slots i ≠ some key := fun h ↦ heq ((hsame i).mpr h).2
        rw [if_neg heq, ih]
        simp [hkey, hne]

/-- The scan finds the slot of a registration. -/
theorem scanSlots_eq_registSlot {used same : ℕ → Bool}
    (hfree : ∀ i, used i = false ↔ slots i = none)
    (hsame : ∀ i, used i = true ∧ same i = true ↔ slots i = some key) :
    scanSlots used same n 0 none = registSlot n slots key := by
  rw [scanSlots_eq hfree hsame, registSlot, slotOf, freeSlot, List.range_eq_range', Option.none_or]

end Katmai.Foundation
