import Mathlib.Data.List.Nodup
import Mathlib.Data.List.Range
import Mathlib.Logic.Function.Basic

/-!
# Prioritised FIFO lists

What a multiple queue is for: a row of FIFO lists, one per priority, that hold every value at most
once. `FifoLists` carries that as a field, so each operation below shows that it keeps it.
`enqueue` appends a value that waits nowhere, moves a value that waits at a worse priority to the
end of the better list, and leaves everything else alone. `dequeue` takes the head of the best
non-empty list. `all` is the order in which dequeues alone would return the waiting values
(`dequeue_eq_some`, `dequeue_eq_none`).
-/

set_option autoImplicit false
set_option relaxedAutoImplicit false

namespace Katmai.Mqueue

/-- `nq` FIFO lists of values, list `0` being the best priority, that hold every value at most
once. -/
structure FifoLists where
  nq : ℕ
  list : ℕ → List ℕ
  nodup : ∀ q < nq, (list q).Nodup
  disjoint : ∀ p < nq, ∀ q < nq, p ≠ q → List.Disjoint (list p) (list q)

namespace FifoLists

/-- The list in which a value waits. -/
def listOf (a : FifoLists) (v : ℕ) : Option ℕ :=
  (List.range a.nq).find? fun q ↦ decide (v ∈ a.list q)

/-- A value leaves the list in which it waits. -/
def remove (a : FifoLists) (v : ℕ) : FifoLists where
  nq := a.nq
  list := fun q ↦ (a.list q).erase v
  nodup := fun q hq ↦ (a.nodup q hq).erase v
  disjoint := fun p hp q hq hne ↦
    List.disjoint_of_subset_left List.erase_subset
      (List.disjoint_of_subset_right List.erase_subset (a.disjoint p hp q hq hne))

/-- A value that waits nowhere joins the end of list `q`. -/
def append (a : FifoLists) (v q : ℕ) (habsent : ∀ p < a.nq, v ∉ a.list p) : FifoLists where
  nq := a.nq
  list := Function.update a.list q (a.list q ++ [v])
  nodup := by
    intro p hp
    by_cases heq : p = q
    · subst heq
      rw [Function.update_self]
      exact (a.nodup p hp).append (List.nodup_singleton v)
        (List.disjoint_singleton.mpr (habsent p hp))
    · rw [Function.update_of_ne heq]
      exact a.nodup p hp
  disjoint := by
    intro first hfirst second hsecond hne
    rw [Function.update_apply, Function.update_apply]
    split_ifs with hf hs hs
    · exact absurd (hf.trans hs.symm) hne
    · subst hf
      rw [List.disjoint_append_left, List.singleton_disjoint]
      exact ⟨a.disjoint first hfirst second hsecond hne, habsent second hsecond⟩
    · subst hs
      rw [List.disjoint_append_right, List.disjoint_singleton]
      exact ⟨a.disjoint first hfirst second hsecond hne, habsent first hfirst⟩
    · exact a.disjoint first hfirst second hsecond hne

theorem notMem_of_listOf_eq_none {a : FifoLists} {v : ℕ} (hnone : a.listOf v = none) :
    ∀ p < a.nq, v ∉ a.list p := by
  intro p hp
  have hfalse := List.find?_eq_none.mp hnone p (List.mem_range.mpr hp)
  simpa using hfalse

theorem notMem_remove (a : FifoLists) (v : ℕ) : ∀ p < (a.remove v).nq, v ∉ (a.remove v).list p :=
  fun p hp ↦ (a.nodup p hp).not_mem_erase

/-- Enqueue `v` at priority `q`. -/
def enqueue (a : FifoLists) (v q : ℕ) : FifoLists :=
  match hlist : a.listOf v with
  | none => a.append v q (notMem_of_listOf_eq_none hlist)
  | some i => if i > q then (a.remove v).append v q (a.notMem_remove v) else a

/-- The lowest-numbered list that holds a value. -/
def firstNonempty (a : FifoLists) : Option ℕ :=
  (List.range a.nq).find? fun q ↦ !(a.list q).isEmpty

/-- List `i` loses its head. -/
def dropHead (a : FifoLists) (i : ℕ) : FifoLists where
  nq := a.nq
  list := Function.update a.list i (a.list i).tail
  nodup := by
    intro p hp
    rw [Function.update_apply]
    split_ifs with heq
    · subst heq
      exact (a.nodup p hp).tail
    · exact a.nodup p hp
  disjoint := by
    intro first hfirst second hsecond hne
    have hold := a.disjoint first hfirst second hsecond hne
    rw [Function.update_apply, Function.update_apply]
    split_ifs with hf hs hs
    · exact absurd (hf.trans hs.symm) hne
    · subst hf
      exact List.disjoint_of_subset_left (List.tail_sublist _).subset hold
    · subst hs
      exact List.disjoint_of_subset_right (List.tail_sublist _).subset hold
    · exact hold

/-- Dequeue the head of the best non-empty list. -/
def dequeue (a : FifoLists) : Option (ℕ × FifoLists) :=
  match a.firstNonempty with
  | some i => (a.list i).head?.map fun v ↦ (v, a.dropHead i)
  | none => none

/-- All waiting values, the best priority first. -/
def all (a : FifoLists) : List ℕ :=
  (List.range a.nq).flatMap a.list

/-! ### How the operations act -/

variable {a : FifoLists} {v q : ℕ}

theorem listOf_eq_none (habsent : ∀ p < a.nq, v ∉ a.list p) : a.listOf v = none := by
  refine List.find?_eq_none.mpr fun p hp ↦ ?_
  simpa using habsent p (List.mem_range.mp hp)

/-- The list in which a value waits is unique. -/
theorem listOf_eq_some {i : ℕ} (hi : i < a.nq) (hmem : v ∈ a.list i) : a.listOf v = some i := by
  refine List.find?_range_eq_some.mpr ⟨by simpa using hmem, List.mem_range.mpr hi, fun j hj ↦ ?_⟩
  have hdisjoint := a.disjoint j (by omega) i hi (by omega)
  simpa using fun hj' ↦ hdisjoint hj' hmem

theorem enqueue_of_absent (habsent : ∀ p < a.nq, v ∉ a.list p) :
    a.enqueue v q = a.append v q habsent := by
  have hnone := listOf_eq_none habsent
  unfold enqueue
  split
  · rfl
  · simp_all

theorem enqueue_of_mem {i : ℕ} (hi : i < a.nq) (hmem : v ∈ a.list i) :
    a.enqueue v q =
      if i > q then (a.remove v).append v q (a.notMem_remove v) else a := by
  have hsome := listOf_eq_some hi hmem
  unfold enqueue
  split
  · simp_all
  · simp_all

/-- Dequeueing takes the head of a list when every better list is empty. -/
theorem dequeue_of_head {i : ℕ} {rest : List ℕ} (hi : i < a.nq) (hlist : a.list i = v :: rest)
    (hlower : ∀ j < i, a.list j = []) : a.dequeue = some (v, a.dropHead i) := by
  have hfirst : a.firstNonempty = some i := by
    refine List.find?_range_eq_some.mpr ⟨by simp [hlist], List.mem_range.mpr hi, fun j hj ↦ ?_⟩
    simp [hlower j hj]
  simp [dequeue, hfirst, hlist]

theorem dequeue_of_empty (hempty : ∀ p < a.nq, a.list p = []) : a.dequeue = none := by
  have hfirst : a.firstNonempty = none := by
    refine List.find?_eq_none.mpr fun p hp ↦ ?_
    simp [hempty p (List.mem_range.mp hp)]
  simp [dequeue, hfirst]

/-- A dequeue that returns took the head of a list all of whose betters are empty. -/
theorem dequeue_eq_some {a' : FifoLists} (hdequeue : a.dequeue = some (v, a')) :
    ∃ i < a.nq, (∃ rest, a.list i = v :: rest) ∧ (∀ j < i, a.list j = []) ∧
      a' = a.dropHead i := by
  unfold dequeue at hdequeue
  cases hfirst : a.firstNonempty with
  | none => simp [hfirst] at hdequeue
  | some i =>
    rw [hfirst] at hdequeue
    obtain ⟨-, hi, hlower⟩ := List.find?_range_eq_some.mp hfirst
    obtain ⟨w, hw, heq⟩ := Option.map_eq_some_iff.mp hdequeue
    injection heq with hwv ha'
    subst hwv
    refine ⟨i, List.mem_range.mp hi, ⟨(a.list i).tail, ?_⟩, fun j hj ↦ ?_, ha'.symm⟩
    · exact (List.cons_head?_tail hw).symm
    · simpa using hlower j hj

/-- Dequeueing alone returns the waiting values in the order of `all`. -/
theorem all_of_dequeue {a' : FifoLists} (hdequeue : a.dequeue = some (v, a')) :
    a.all = v :: a'.all := by
  obtain ⟨i, hi, ⟨rest, hlist⟩, hlower, rfl⟩ := dequeue_eq_some hdequeue
  have hsplit : List.range a.nq =
      List.range i ++ i :: (List.range (a.nq - i - 1)).map (fun k ↦ i + 1 + k) := by
    have hlen : a.nq = i + (1 + (a.nq - i - 1)) := by omega
    conv_lhs => rw [hlen]
    rw [List.range_add, List.range_add]
    simp [Function.comp_def, Nat.add_assoc]
  have hbefore : (List.range i).flatMap a.list = [] := by
    refine List.flatMap_eq_nil_iff.mpr fun j hj ↦ hlower j (List.mem_range.mp hj)
  have hbefore' : (List.range i).flatMap (a.dropHead i).list = [] := by
    refine List.flatMap_eq_nil_iff.mpr fun j hj ↦ ?_
    have hne : j ≠ i := (List.mem_range.mp hj).ne
    change Function.update a.list i (a.list i).tail j = []
    rw [Function.update_of_ne hne]
    exact hlower j (List.mem_range.mp hj)
  have hafter : ((List.range (a.nq - i - 1)).map (fun k ↦ i + 1 + k)).flatMap (a.dropHead i).list =
      ((List.range (a.nq - i - 1)).map (fun k ↦ i + 1 + k)).flatMap a.list := by
    refine List.flatMap_congr fun j hj ↦ ?_
    obtain ⟨k, -, rfl⟩ := List.mem_map.mp hj
    change Function.update a.list i (a.list i).tail (i + 1 + k) = _
    rw [Function.update_of_ne (by omega)]
  have hhead : (a.dropHead i).list i = rest := by
    change Function.update a.list i (a.list i).tail i = rest
    rw [Function.update_self, hlist, List.tail_cons]
  change (List.range a.nq).flatMap a.list = v :: (List.range a.nq).flatMap (a.dropHead i).list
  rw [hsplit, List.flatMap_append, List.flatMap_append, List.flatMap_cons, List.flatMap_cons,
    hbefore, hbefore', hafter, hhead, hlist]
  simp

/-- A dequeue that cannot return finds every list empty. -/
theorem list_eq_nil_of_dequeue (hdequeue : a.dequeue = none) : ∀ p < a.nq, a.list p = [] := by
  intro p hp
  by_contra hne
  unfold dequeue at hdequeue
  cases hfirst : a.firstNonempty with
  | none =>
    have hempty := List.find?_eq_none.mp hfirst p (List.mem_range.mpr hp)
    simp [hne] at hempty
  | some i =>
    obtain ⟨hnonempty, -, -⟩ := List.find?_range_eq_some.mp hfirst
    rw [hfirst] at hdequeue
    simp_all

theorem mem_all : v ∈ a.all ↔ ∃ q < a.nq, v ∈ a.list q := by
  simp [all]

/-- No value waits twice. -/
theorem nodup_all (a : FifoLists) : a.all.Nodup := by
  refine List.nodup_flatMap.mpr ⟨fun q hq ↦ a.nodup q (List.mem_range.mp hq), ?_⟩
  refine List.Pairwise.imp_of_mem ?_ List.nodup_range
  intro p q hp hq hne
  exact a.disjoint p (List.mem_range.mp hp) q (List.mem_range.mp hq) hne

end FifoLists

end Katmai.Mqueue
