import Mathlib.Data.Finset.Card
import Mathlib.Data.List.Basic

/-!
# Numbering keys in the order of their first use

A table that gives every key a number at its first use, one more than the one before, numbers a key
by its place among the different keys (`number`). It is the number of different keys that were used
before the first use (`number_eq_card`), no later use changes it (`number_append`), and different
keys have different numbers (`number_inj`).
-/

set_option autoImplicit false
set_option relaxedAutoImplicit false

namespace Katmai.Foundation

variable {κ : Type*} [DecidableEq κ] {keys before after : List κ} {k k' : κ}

/-! ### The different keys -/

theorem eraseDups_concat_of_mem (hk : k ∈ keys) : (keys ++ [k]).eraseDups = keys.eraseDups := by
  rw [List.eraseDups_append]
  simp [List.removeAll, hk]

theorem eraseDups_concat_of_notMem (hk : k ∉ keys) :
    (keys ++ [k]).eraseDups = keys.eraseDups ++ [k] := by
  rw [List.eraseDups_append]
  simp [List.removeAll, List.eraseDups_cons, hk]

theorem nodup_eraseDups (keys : List κ) : keys.eraseDups.Nodup := by
  induction keys using List.reverseRecOn with
  | nil => exact List.nodup_nil
  | append_singleton keys k ih =>
    by_cases hk : k ∈ keys
    · rwa [eraseDups_concat_of_mem hk]
    · rw [eraseDups_concat_of_notMem hk]
      refine List.nodup_append.mpr ⟨ih, List.nodup_singleton k, fun a ha b hb heq ↦ hk ?_⟩
      rw [List.mem_singleton.mp hb] at heq
      exact List.mem_eraseDups.mp (heq ▸ ha)

/-- There are as many different keys as the set of the keys has elements. -/
theorem length_eraseDups (keys : List κ) : keys.eraseDups.length = keys.toFinset.card := by
  rw [← List.toFinset_card_of_nodup (nodup_eraseDups keys)]
  congr 1
  ext k
  simp

/-! ### Numbers -/

/-- The place of a key among the different keys, in the order of their first use. -/
def number (keys : List κ) (k : κ) : ℕ :=
  keys.eraseDups.idxOf k

/-- A key that has not been used gets the next number. -/
theorem number_of_notMem (hk : k ∉ keys) : number keys k = keys.toFinset.card := by
  rw [← length_eraseDups]
  exact List.idxOf_eq_length fun hmem ↦ hk (List.mem_eraseDups.mp hmem)

theorem number_lt (hk : k ∈ keys) : number keys k < keys.toFinset.card := by
  rw [← length_eraseDups]
  exact List.idxOf_lt_length_of_mem (List.mem_eraseDups.mpr hk)

/-- Later uses do not change the number of a key. -/
theorem number_append (hk : k ∈ keys) (after : List κ) :
    number (keys ++ after) k = number keys k := by
  unfold number
  rw [List.eraseDups_append, List.idxOf_append_of_mem (List.mem_eraseDups.mpr hk)]

/-- The number a key has after its use is the one it was to get. -/
theorem number_concat_self (keys : List κ) (k : κ) : number (keys ++ [k]) k = number keys k := by
  by_cases hk : k ∈ keys
  · exact number_append hk [k]
  · unfold number
    rw [eraseDups_concat_of_notMem hk]
    have hnot : k ∉ keys.eraseDups := fun hmem ↦ hk (List.mem_eraseDups.mp hmem)
    rw [List.idxOf_append_of_notMem hnot, List.idxOf_cons_self, List.idxOf_eq_length hnot,
      Nat.add_zero]

/-- The number of a key at a place in the history. -/
theorem number_append_cons (before after : List κ) (k : κ) :
    number (before ++ k :: after) k = number before k := by
  rw [List.append_cons, number_append (List.mem_append_right _ (List.mem_singleton_self k)),
    number_concat_self]

/-- The number of a key is the number of different keys before its first use. -/
theorem number_eq_card (hk : k ∉ before) :
    number (before ++ k :: after) k = before.toFinset.card :=
  (number_append_cons before after k).trans (number_of_notMem hk)

/-- Different keys have different numbers. -/
theorem number_inj (hk : k ∈ keys) : number keys k = number keys k' ↔ k = k' :=
  List.idxOf_inj (List.mem_eraseDups.mpr hk)

theorem getElem?_number (hk : k ∈ keys) : keys.eraseDups[number keys k]? = some k := by
  have hlt := List.idxOf_lt_length_of_mem (List.mem_eraseDups.mpr hk)
  unfold number
  rw [List.getElem?_eq_getElem hlt, List.getElem_idxOf hlt]

end Katmai.Foundation
