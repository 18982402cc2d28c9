import Katmai.Foundation.RingWindow
import Katmai.Xlist.Xlist

/-!
# The array of xlist is a bounded deque

The array variant keeps its elements in the window of `usecnt` slots that starts one after `front`
and ends at `rear`. `contents` reads that window; `Represents` says that it holds given items, that
the two indices are slots of the array and that `rear` is where the window ends. A full and an
empty array have the same two indices, and only `usecnt` tells them apart.

One lemma per function shows that a call on an array that represents a list is answered as the
deque of at most `n` elements answers it, with the window moved accordingly
(`xlv1Call_of_represents`). It follows for every list of calls on a new array
(`xlv1_refines_bounded_deque`).
-/

set_option autoImplicit false
set_option relaxedAutoImplicit false

namespace Katmai.Xlist

open Katmai.Foundation

variable {α : Type}

/-- The slots of an array that are in use, in order: `usecnt` slots from `front + 1` on. -/
def Xlv1.window (pd : Xlv1 α) : List ℕ :=
  ringWindow pd.count ((pd.front + 1) % pd.count) pd.usecnt

/-- The elements of an array: what its slots in use hold. -/
def Xlv1.contents (pd : Xlv1 α) : List (Option α) :=
  pd.window.map fun i ↦ pd.list[i]?

/-- An array of `n` slots holds `items`. The bound on `n` is what `calloc` grants. -/
structure Represents (n : ℕ) (pd : Xlv1 α) (items : List α) : Prop where
  pos : 0 < n
  small : n * sizeofListT < 2 ^ 32
  count_eq : pd.count = n
  length_eq : pd.list.length = n
  usecnt_le : pd.usecnt ≤ n
  front_lt : pd.front < n
  rear_eq : pd.rear = (pd.front + pd.usecnt) % n
  contents_eq : pd.contents = items.map some

namespace Represents

variable {n : ℕ} {pd : Xlv1 α} {items : List α}

theorem window_eq (hrep : Represents n pd items) :
    pd.window = ringWindow n ((pd.front + 1) % n) pd.usecnt := by
  rw [Xlv1.window, hrep.count_eq]

theorem length_items (hrep : Represents n pd items) : items.length = pd.usecnt := by
  have hlen := congrArg List.length hrep.contents_eq
  simpa [Xlv1.contents, Xlv1.window, ringWindow] using hlen.symm

theorem rear_lt (hrep : Represents n pd items) : pd.rear < n := by
  rw [hrep.rear_eq]
  exact Nat.mod_lt _ hrep.pos

/-- The sums the functions form are `int` values. -/
theorem intAdd_eq (hrep : Represents n pd items) {a b : ℕ} (ha : a ≤ n) (hb : b ≤ n) :
    intAdd a b = some (a + b) := by
  have hsmall := hrep.small
  unfold sizeofListT at hsmall
  exact if_pos (by omega)

/-- The slot that `push` uses is the one after the window. -/
theorem ringIndex_usecnt (hrep : Represents n pd items) :
    ringIndex n ((pd.front + 1) % n) pd.usecnt = (pd.rear + 1) % n := by
  rw [hrep.rear_eq, ringIndex_front_succ, ringIndex, Nat.mod_add_mod, Nat.add_assoc]

/-- The window of a list that ends in `x` ends at `rear`, which holds `x`. -/
theorem snoc {x : α} (hrep : Represents n pd (items ++ [x])) :
    pd.usecnt = items.length + 1 ∧ pd.list[pd.rear]? = some x ∧
      (ringWindow n ((pd.front + 1) % n) items.length).map (fun i ↦ pd.list[i]?) =
        items.map some := by
  have hcnt : pd.usecnt = items.length + 1 := by simpa using hrep.length_items.symm
  have hlast : ringIndex n ((pd.front + 1) % n) items.length = pd.rear := by
    rw [hrep.rear_eq, hcnt, ringIndex_front_succ, ringIndex]
  have hcontents := hrep.contents_eq
  rw [Xlv1.contents, hrep.window_eq, hcnt, ringWindow_succ, List.map_append,
    List.map_append] at hcontents
  obtain ⟨hinit, hx⟩ := List.append_inj' hcontents rfl
  rw [hlast] at hx
  exact ⟨hcnt, by simpa using hx, hinit⟩

/-- The window of a list that begins with `x` begins one after `front`, which holds `x`. -/
theorem cons {x : α} (hrep : Represents n pd (x :: items)) :
    pd.usecnt = items.length + 1 ∧ pd.list[(pd.front + 1) % n]? = some x ∧
      (ringWindow n (((pd.front + 1) % n + 1) % n) items.length).map (fun i ↦ pd.list[i]?) =
        items.map some := by
  have hcnt : pd.usecnt = items.length + 1 := by simpa using hrep.length_items.symm
  have hcontents := hrep.contents_eq
  rw [Xlv1.contents, hrep.window_eq, hcnt, ringWindow_cons (Nat.mod_lt _ hrep.pos), List.map_cons,
    List.map_cons] at hcontents
  obtain ⟨hx, htail⟩ := List.cons_eq_cons.mp hcontents
  exact ⟨hcnt, hx, htail⟩

end Represents

/-! ### Writing a slot outside the window -/

/-- Writing a slot that is not in use does not change the elements. -/
theorem map_getElem?_set_of_notMem {window : List ℕ} {list : List α} {i : ℕ} (x : α)
    (hi : i ∉ window) :
    (window.map fun j ↦ (list.set i x)[j]?) = window.map fun j ↦ list[j]? := by
  refine List.map_congr_left fun j hj ↦ ?_
  have hne : i ≠ j := fun heq ↦ hi (heq ▸ hj)
  exact List.getElem?_set_ne hne

/-! ### One lemma per function -/

section Calls

variable {n : ℕ} {pd : Xlv1 α} {items : List α}

/-- `xlv1_push` on an array with room puts the element at the rear. -/
theorem xlv1Push_of_lt (hrep : Represents n pd items) (hroom : pd.usecnt < n) (x : α) :
    ∃ pd', xlv1Push pd x = some (⟨1, none⟩, pd') ∧ Represents n pd' (items ++ [x]) := by
  have hslot : (pd.rear + 1) % n < n := Nat.mod_lt _ hrep.pos
  refine ⟨{ pd with
    rear := (pd.rear + 1) % n
    list := pd.list.set ((pd.rear + 1) % n) x
    usecnt := pd.usecnt + 1 }, ?_, ?_⟩
  · have hnext := hrep.intAdd_eq (Nat.le_of_lt hrep.rear_lt) hrep.pos
    have hcnt := hrep.intAdd_eq hrep.usecnt_le hrep.pos
    simp [xlv1Push, Xlv1.store, hrep.count_eq, hrep.length_eq, hroom, hnext, hcnt, hslot]
  · have hnot : (pd.rear + 1) % n ∉ ringWindow n ((pd.front + 1) % n) pd.usecnt := by
      rw [← hrep.ringIndex_usecnt]
      exact ringIndex_notMem_ringWindow hroom
    refine ⟨hrep.pos, hrep.small, hrep.count_eq, ?_, hroom, hrep.front_lt, ?_, ?_⟩
    · exact (List.length_set).trans hrep.length_eq
    · simp only [hrep.rear_eq, Nat.mod_add_mod, Nat.add_assoc]
    · have hold := hrep.contents_eq
      rw [Xlv1.contents, hrep.window_eq] at hold
      simp only [Xlv1.contents, Xlv1.window, hrep.count_eq, ringWindow_succ, List.map_append,
        map_getElem?_set_of_notMem x hnot, hold, hrep.ringIndex_usecnt, List.map_cons, List.map_nil]
      rw [List.getElem?_set_self (hrep.length_eq ▸ hslot)]

/-- `xlv1_unshift` on an array with room puts the element at the front. -/
theorem xlv1Unshift_of_lt (hrep : Represents n pd items) (hroom : pd.usecnt < n) (x : α) :
    ∃ pd', xlv1Unshift pd x = some (⟨1, none⟩, pd') ∧ Represents n pd' (x :: items) := by
  have hpos := hrep.pos
  have hback : ((pd.front + n - 1) % n + 1) % n = pd.front := by
    rw [Nat.mod_add_mod, Nat.sub_add_cancel (by omega), Nat.add_mod_right]
    exact Nat.mod_eq_of_lt hrep.front_lt
  refine ⟨{ pd with
    front := (pd.front + n - 1) % n
    list := pd.list.set pd.front x
    usecnt := pd.usecnt + 1 }, ?_, ?_⟩
  · have hsum := hrep.intAdd_eq (Nat.le_of_lt hrep.front_lt) (Nat.le_refl n)
    have hcnt := hrep.intAdd_eq hrep.usecnt_le hrep.pos
    simp [xlv1Unshift, Xlv1.store, hrep.count_eq, hrep.length_eq, hroom, hsum, hcnt, hrep.front_lt]
  · have hnodup : (ringWindow n pd.front (pd.usecnt + 1)).Nodup := nodup_ringWindow hroom
    rw [ringWindow_cons hrep.front_lt, List.nodup_cons] at hnodup
    refine ⟨hrep.pos, hrep.small, hrep.count_eq, ?_, hroom, Nat.mod_lt _ hrep.pos, ?_, ?_⟩
    · exact (List.length_set).trans hrep.length_eq
    · simp only [hrep.rear_eq]
      rw [Nat.mod_add_mod, show pd.front + n - 1 + (pd.usecnt + 1) = pd.front + pd.usecnt + n by
        omega, Nat.add_mod_right]
    · have hold := hrep.contents_eq
      rw [Xlv1.contents, hrep.window_eq] at hold
      simp only [Xlv1.contents, Xlv1.window, hrep.count_eq, hback, ringWindow_cons hrep.front_lt,
        List.map_cons, map_getElem?_set_of_notMem x hnodup.1, hold]
      rw [List.getElem?_set_self (hrep.length_eq ▸ hrep.front_lt)]

/-- `xlv1_pop` takes the last element. -/
theorem xlv1Pop_of_snoc {x : α} (hrep : Represents n pd (items ++ [x])) (data : Option α) :
    ∃ pd', xlv1Pop pd data = some (⟨1, data.map fun _ ↦ x⟩, pd') ∧ Represents n pd' items := by
  obtain ⟨hcnt, hx, hinit⟩ := hrep.snoc
  refine ⟨{ pd with rear := (pd.rear + n - 1) % n, usecnt := items.length }, ?_, ?_⟩
  · have hsum := hrep.intAdd_eq (Nat.le_of_lt hrep.rear_lt) (Nat.le_refl n)
    cases data <;> simp [xlv1Pop, copyOut, hrep.count_eq, hcnt, hsum, hx]
  · have hle : items.length ≤ n := by
      have := hrep.usecnt_le
      omega
    refine ⟨hrep.pos, hrep.small, hrep.count_eq, hrep.length_eq, ?_, hrep.front_lt, ?_, ?_⟩
    · exact hle
    · simp only [hrep.rear_eq, hcnt]
      have hpos := hrep.pos
      rw [Nat.add_sub_assoc hrep.pos, Nat.mod_add_mod,
        show pd.front + (items.length + 1) + (n - 1) = pd.front + items.length + n by omega,
        Nat.add_mod_right]
    · rw [Xlv1.contents, Xlv1.window, hrep.count_eq]
      exact hinit

/-- `xlv1_shift` takes the first element. -/
theorem xlv1Shift_of_cons {x : α} (hrep : Represents n pd (x :: items)) (data : Option α) :
    ∃ pd', xlv1Shift pd data = some (⟨1, data.map fun _ ↦ x⟩, pd') ∧ Represents n pd' items := by
  obtain ⟨hcnt, hx, htail⟩ := hrep.cons
  refine ⟨{ pd with front := (pd.front + 1) % n, usecnt := items.length }, ?_, ?_⟩
  · have hnext := hrep.intAdd_eq (Nat.le_of_lt hrep.front_lt) hrep.pos
    cases data <;> simp [xlv1Shift, copyOut, hrep.count_eq, hcnt, hnext, hx]
  · have hle : items.length ≤ n := by
      have := hrep.usecnt_le
      omega
    refine ⟨hrep.pos, hrep.small, hrep.count_eq, hrep.length_eq, ?_, Nat.mod_lt _ hrep.pos, ?_, ?_⟩
    · exact hle
    · simp only [hrep.rear_eq, hcnt, Nat.mod_add_mod]
      rw [Nat.add_assoc, Nat.add_comm 1]
    · rw [Xlv1.contents, Xlv1.window, hrep.count_eq]
      exact htail

/-- `xlv1_front` shows the first element. -/
theorem xlv1Front_of_cons {x : α} (hrep : Represents n pd (x :: items)) (data : Option α) :
    xlv1Front pd data = some (⟨1, data.map fun _ ↦ x⟩, pd) := by
  obtain ⟨hcnt, hx, -⟩ := hrep.cons
  have hnext := hrep.intAdd_eq (Nat.le_of_lt hrep.front_lt) hrep.pos
  cases data <;> simp [xlv1Front, copyOut, hrep.count_eq, hcnt, hnext, hx]

/-- `xlv1_rear` shows the last element. -/
theorem xlv1Rear_of_snoc {x : α} (hrep : Represents n pd (items ++ [x])) (data : Option α) :
    xlv1Rear pd data = some (⟨1, data.map fun _ ↦ x⟩, pd) := by
  obtain ⟨hcnt, hx, -⟩ := hrep.snoc
  cases data <;> simp [xlv1Rear, copyOut, hcnt, hx]

/-- A call on an array that holds `items` is answered as the deque of at most `n` elements answers
it. -/
theorem xlv1Call_of_represents (hrep : Represents n pd items) (c : DequeCall α) :
    ∃ pd', xlv1Call pd c = some ((dequeCall (some n) items c).1, pd') ∧
      Represents n pd' (dequeCall (some n) items c).2 := by
  have hlen := hrep.length_items
  cases c with
  | push x =>
    by_cases hroom : pd.usecnt < n
    · have hhas : HasRoom (some n) items := hasRoom_some.mpr (hlen ▸ hroom)
      simpa [xlv1Call, dequeCall, hhas] using xlv1Push_of_lt hrep hroom x
    · have hhas : ¬ HasRoom (some n) items := fun h ↦ hroom (hlen ▸ hasRoom_some.mp h)
      exact ⟨pd, by simp [xlv1Call, xlv1Push, dequeCall, hrep.count_eq, hroom, hhas],
        by simpa [dequeCall, hhas] using hrep⟩
  | unshift x =>
    by_cases hroom : pd.usecnt < n
    · have hhas : HasRoom (some n) items := hasRoom_some.mpr (hlen ▸ hroom)
      simpa [xlv1Call, dequeCall, hhas] using xlv1Unshift_of_lt hrep hroom x
    · have hhas : ¬ HasRoom (some n) items := fun h ↦ hroom (hlen ▸ hasRoom_some.mp h)
      exact ⟨pd, by simp [xlv1Call, xlv1Unshift, dequeCall, hrep.count_eq, hroom, hhas],
        by simpa [dequeCall, hhas] using hrep⟩
  | pop data =>
    rcases List.eq_nil_or_concat items with rfl | ⟨init, x, rfl⟩
    · exact ⟨pd, by simp [xlv1Call, xlv1Pop, dequeCall, handOut, ← hlen], hrep⟩
    · rw [List.concat_eq_append] at *
      simpa [xlv1Call, dequeCall, handOut] using xlv1Pop_of_snoc hrep data
  | shift data =>
    cases items with
    | nil => exact ⟨pd, by simp [xlv1Call, xlv1Shift, dequeCall, handOut, ← hlen], hrep⟩
    | cons x rest => simpa [xlv1Call, dequeCall, handOut] using xlv1Shift_of_cons hrep data
  | front data =>
    cases items with
    | nil => exact ⟨pd, by simp [xlv1Call, xlv1Front, dequeCall, handOut, ← hlen], hrep⟩
    | cons x rest =>
      have hfront := xlv1Front_of_cons hrep data
      exact ⟨pd, by simpa [xlv1Call, dequeCall, handOut] using hfront, hrep⟩
  | rear data =>
    rcases List.eq_nil_or_concat items with rfl | ⟨init, x, rfl⟩
    · exact ⟨pd, by simp [xlv1Call, xlv1Rear, dequeCall, handOut, ← hlen], hrep⟩
    · rw [List.concat_eq_append] at *
      have hrear := xlv1Rear_of_snoc hrep data
      exact ⟨pd, by simpa [xlv1Call, dequeCall, handOut] using hrear, hrep⟩

end Calls

/-! ### Runs -/

/-- A new array holds nothing. -/
theorem represents_of_newXlist {n : ℤ} {zero : α} {memory : Bool} {pd : Xlv1 α}
    (hnew : newXlist n zero memory = some (.array pd)) : Represents n.toNat pd [] := by
  unfold newXlist at hnew
  split_ifs at hnew with hmem hn hcalloc
  · cases hnew
  cases hnew
  have hsmall : n.toNat * sizeofListT < 2 ^ 32 := by
    simpa [callocList, hmem] using hcalloc
  have hpos : 0 < n.toNat := by omega
  exact ⟨hpos, hsmall, rfl, List.length_replicate, Nat.zero_le _, hpos, by simp, rfl⟩

/-- Every list of calls on an array of `n` slots is answered as the deque of at most `n` elements
answers it. Afterwards the window from `front + 1` to `rear` holds the elements of that deque, at
most `n`, and both indices are slots of the array. -/
theorem xlv1_refines_bounded_deque {n : ℤ} {zero : α} {memory : Bool} {pd : Xlv1 α}
    (hnew : newXlist n zero memory = some (.array pd)) (calls : List (DequeCall α)) :
    ∃ t, serve xlv1Call pd calls = some ((replies (dequeCall (some n.toNat)) [] calls).1, t) ∧
      t.contents = (replies (dequeCall (some n.toNat)) [] calls).2.map some ∧
      t.rear = (t.front + t.usecnt) % n.toNat ∧
      t.usecnt ≤ n.toNat ∧ t.front < n.toNat ∧ t.rear < n.toNat := by
  have hstep (pd : Xlv1 α) (items : List α) (c : DequeCall α)
      (hrep : Represents n.toNat pd items) :=
    xlv1Call_of_represents hrep c
  obtain ⟨t, hserve, hrep⟩ := serve_of_refines hstep (represents_of_newXlist hnew) calls
  exact ⟨t, hserve, hrep.contents_eq, hrep.rear_eq, hrep.usecnt_le, hrep.front_lt, hrep.rear_lt⟩

/-- Two slots, wrapped around at both ends: the third `unshift` finds the array full. -/
theorem xlv1_refines_bounded_deque_two :
    newXlist 2 (0 : ℕ) true = some (.array ⟨2, [0, 0], 0, 0, 0⟩) ∧
    ∃ t, serve xlv1Call ⟨2, [0, 0], 0, 0, 0⟩
        [.unshift 5, .push 6, .unshift 7, .shift (some 0), .rear none] =
          some ([⟨1, none⟩, ⟨1, none⟩, ⟨0, none⟩, ⟨1, some 5⟩, ⟨1, none⟩], t) ∧
      t.contents = [some 6] := by
  have hnew : newXlist 2 (0 : ℕ) true = some (.array ⟨2, [0, 0], 0, 0, 0⟩) := rfl
  obtain ⟨t, hserve, hcontents, -⟩ := xlv1_refines_bounded_deque hnew
    [.unshift 5, .push 6, .unshift 7, .shift (some 0), .rear none]
  exact ⟨hnew, t, hserve, hcontents⟩

end Katmai.Xlist
