import Mathlib.Data.List.Chain
import Katmai.Xlist.ArrayVariant

/-!
# The linked list of xlist

The linked list is meant to be doubly linked, but `push` sets only the `prev` link of the new node
and `unshift` only the `next` link. So the links run from both ends towards the element that was put
into the empty list and stop there (`Threaded`). The deque is kept with the number of elements
before that one, its seam (`Track`, `trackCall`). As long as the element at the seam is not taken
out while others stay (`EndLinked`), every call is answered as the deque answers it
(`xlv2Call_of_endLinked`); otherwise a `NULL` pointer is dereferenced (`Links.pop_null`,
`Links.shift_null`).

`xlv2_free` puts a released node on no list: the free list stays empty (`xlv2Free_eq`), so the nodes
in use and the nodes released add up to all nodes that `malloc` gave. `xlv2_agrees_and_reuses_iff`
says exactly which lists of calls the linked list answers as the deque, and which it also serves
without losing a node.
-/

set_option autoImplicit false
set_option relaxedAutoImplicit false

namespace Katmai.Xlist

open Katmai.Foundation

variable {α : Type}

/-! ### What the links say -/

/-- The element, the previous and the next node that are stored at an address. -/
def ptrOf (heap : List (Node α)) (a : ℕ) : Option α :=
  heap[a]?.map Node.ptr

def prevOf (heap : List (Node α)) (a : ℕ) : Option (Option ℕ) :=
  heap[a]?.map Node.prev

def nextOf (heap : List (Node α)) (a : ℕ) : Option (Option ℕ) :=
  heap[a]?.map Node.next

/-- The links of a list whose element `pivot` was put into the empty list, with the elements
`before` put in by `unshift` and the elements `after` by `push`. An item is the address of a node
and its element. Only `unshift` links forward and only `push` links backward; the links of the
pivot are `NULL`. -/
structure Threaded (heap : List (Node α)) (before : List (ℕ × α)) (pivot : ℕ × α)
    (after : List (ℕ × α)) : Prop where
  nodup : ((before ++ pivot :: after).map Prod.fst).Nodup
  ptr : ∀ item ∈ before ++ pivot :: after, ptrOf heap item.1 = some item.2
  forward : (before ++ [pivot]).IsChain fun i j ↦ nextOf heap i.1 = some (some j.1)
  backward : (pivot :: after).IsChain fun i j ↦ prevOf heap j.1 = some (some i.1)
  prev_pivot : prevOf heap pivot.1 = some none
  next_pivot : nextOf heap pivot.1 = some none

section Heap

variable {heap : List (Node α)} {before after : List (ℕ × α)} {pivot : ℕ × α}

theorem lt_of_ptrOf {a : ℕ} {x : α} (hptr : ptrOf heap a = some x) : a < heap.length := by
  obtain ⟨node, hnode, -⟩ := Option.map_eq_some_iff.mp hptr
  exact (List.getElem?_eq_some_iff.mp hnode).1

/-- The threads survive a change of the heap that keeps the elements, the forward links before the
pivot, the backward links after it, and the links of the pivot. -/
theorem Threaded.frame {heap' : List (Node α)} (hthr : Threaded heap before pivot after)
    (hptr : ∀ item ∈ before ++ pivot :: after, ptrOf heap' item.1 = ptrOf heap item.1)
    (hnext : ∀ item ∈ before, nextOf heap' item.1 = nextOf heap item.1)
    (hprev : ∀ item ∈ after, prevOf heap' item.1 = prevOf heap item.1)
    (hprevPivot : prevOf heap' pivot.1 = some none)
    (hnextPivot : nextOf heap' pivot.1 = some none) : Threaded heap' before pivot after := by
  refine ⟨hthr.nodup, fun item hitem ↦ (hptr item hitem).trans (hthr.ptr item hitem), ?_, ?_,
    hprevPivot, hnextPivot⟩
  · refine hthr.forward.imp_of_mem_imp fun i j hi _ hij ↦ ?_
    rcases List.mem_append.mp hi with hbefore | hpivot
    · exact (hnext i hbefore).trans hij
    · rw [List.mem_singleton.mp hpivot, hthr.next_pivot] at hij
      simp at hij
  · refine hthr.backward.imp_of_mem_tail_imp fun i j _ hj hij ↦ ?_
    exact (hprev j hj).trans hij

/-- The threads of a list without its last pushed element. -/
theorem Threaded.init {last : ℕ × α} (hthr : Threaded heap before pivot (after ++ [last])) :
    Threaded heap before pivot after := by
  refine ⟨?_, ?_, hthr.forward, ?_, hthr.prev_pivot, hthr.next_pivot⟩
  · have hsplit : before ++ pivot :: (after ++ [last]) = (before ++ pivot :: after) ++ [last] := by
      simp
    have hnodup := hthr.nodup
    rw [hsplit, List.map_append] at hnodup
    exact hnodup.of_append_left
  · intro item hitem
    refine hthr.ptr item ?_
    rcases List.mem_append.mp hitem with h | h
    · exact List.mem_append_left _ h
    · exact List.mem_append_right _ (List.mem_append_left [last] h)
  · exact (List.cons_append ▸ hthr.backward : ((pivot :: after) ++ [last]).IsChain _).left_of_append

/-- The threads of a list without its last unshifted element. -/
theorem Threaded.tail {first : ℕ × α} (hthr : Threaded heap (first :: before) pivot after) :
    Threaded heap before pivot after :=
  ⟨hthr.nodup.of_cons, fun item hitem ↦ hthr.ptr item (List.mem_cons_of_mem first hitem),
    hthr.forward.tail, hthr.backward, hthr.prev_pivot, hthr.next_pivot⟩

/-! ### Writing the heap -/

/-- Writing one field of a node changes no other field of any node. -/
theorem map_modify_of_eq {β : Type} (f : Node α → β) (g : Node α → Node α) (heap : List (Node α))
    (a b : ℕ) (hfg : ∀ node, f (g node) = f node) :
    (heap.modify a g)[b]?.map f = heap[b]?.map f := by
  rw [List.getElem?_modify]
  cases heap[b]? with
  | none => rfl
  | some node =>
    by_cases heq : a = b <;> simp [heq, hfg]

@[simp] theorem ptrOf_modify_next (heap : List (Node α)) (a b : ℕ) (q : Option ℕ) :
    ptrOf (heap.modify a fun node ↦ { node with next := q }) b = ptrOf heap b :=
  map_modify_of_eq _ _ heap a b fun _ ↦ rfl

@[simp] theorem ptrOf_modify_prev (heap : List (Node α)) (a b : ℕ) (q : Option ℕ) :
    ptrOf (heap.modify a fun node ↦ { node with prev := q }) b = ptrOf heap b :=
  map_modify_of_eq _ _ heap a b fun _ ↦ rfl

@[simp] theorem prevOf_modify_next (heap : List (Node α)) (a b : ℕ) (q : Option ℕ) :
    prevOf (heap.modify a fun node ↦ { node with next := q }) b = prevOf heap b :=
  map_modify_of_eq _ _ heap a b fun _ ↦ rfl

@[simp] theorem nextOf_modify_prev (heap : List (Node α)) (a b : ℕ) (q : Option ℕ) :
    nextOf (heap.modify a fun node ↦ { node with prev := q }) b = nextOf heap b :=
  map_modify_of_eq _ _ heap a b fun _ ↦ rfl

theorem nextOf_modify_ne {a b : ℕ} (hne : a ≠ b) (g : Node α → Node α) :
    nextOf (heap.modify a g) b = nextOf heap b := by
  rw [nextOf, List.getElem?_modify_ne _ _ hne, nextOf]

theorem prevOf_modify_ne {a b : ℕ} (hne : a ≠ b) (g : Node α → Node α) :
    prevOf (heap.modify a g) b = prevOf heap b := by
  rw [prevOf, List.getElem?_modify_ne _ _ hne, prevOf]

/-- A link that is `NULL` stays `NULL` when some node's link is set to `NULL`. -/
theorem nextOf_modify_none {b : ℕ} (hnone : nextOf heap b = some none) (a : ℕ) :
    nextOf (heap.modify a fun node ↦ { node with next := none }) b = some none := by
  obtain ⟨node, hnode, hnext⟩ := Option.map_eq_some_iff.mp hnone
  by_cases heq : a = b <;> simp [nextOf, hnode, heq, hnext]

theorem prevOf_modify_none {b : ℕ} (hnone : prevOf heap b = some none) (a : ℕ) :
    prevOf (heap.modify a fun node ↦ { node with prev := none }) b = some none := by
  obtain ⟨node, hnode, hprev⟩ := Option.map_eq_some_iff.mp hnone
  by_cases heq : a = b <;> simp [prevOf, hnode, heq, hprev]

/-- A new node at the end of the heap changes no other node. -/
theorem getElem?_append_node {a : ℕ} (ha : a < heap.length) (node : Node α) :
    (heap ++ [node])[a]? = heap[a]? :=
  List.getElem?_append_left ha

/-- Writing the node that was just put at the end of the heap. -/
theorem modify_append_node (heap : List (Node α)) (node : Node α) (g : Node α → Node α) :
    (heap ++ [node]).modify heap.length g = heap ++ [g node] := by
  refine List.ext_getElem? fun i ↦ ?_
  rw [List.getElem?_modify]
  rcases Nat.lt_trichotomy i heap.length with hlt | rfl | hgt
  · have hne : heap.length ≠ i := by omega
    simp [List.getElem?_append_left hlt, hne]
  · simp
  · have hlen (last : Node α) : (heap ++ [last])[i]? = none := by simp; omega
    simp [hlen]

/-- The threads of a list after `unshift` and after `push`, with the new node at the end of the
heap. -/
theorem Threaded.append (hthr : Threaded heap before pivot after) (node : Node α) :
    Threaded (heap ++ [node]) before pivot after := by
  have hold (item : ℕ × α) (hitem : item ∈ before ++ pivot :: after) :
      (heap ++ [node])[item.1]? = heap[item.1]? :=
    getElem?_append_node (lt_of_ptrOf (hthr.ptr item hitem)) node
  have hpivot := hold pivot (by simp)
  refine hthr.frame ?_ ?_ ?_ ?_ ?_
  · exact fun item hitem ↦ by rw [ptrOf, hold item hitem, ptrOf]
  · exact fun item hitem ↦ by rw [nextOf, hold item (by simp [hitem]), nextOf]
  · exact fun item hitem ↦ by rw [prevOf, hold item (by simp [hitem]), prevOf]
  · rw [prevOf, hpivot]
    exact hthr.prev_pivot
  · rw [nextOf, hpivot]
    exact hthr.next_pivot

/-- A new address is not one of the list's. -/
theorem Threaded.length_notMem (hthr : Threaded heap before pivot after) :
    heap.length ∉ (before ++ pivot :: after).map Prod.fst := by
  intro hmem
  obtain ⟨item, hitem, heq⟩ := List.mem_map.mp hmem
  have hlt := lt_of_ptrOf (hthr.ptr item hitem)
  omega

/-- The threads after a `push` to a list that is not empty. -/
theorem Threaded.push (hthr : Threaded heap before pivot after) (x : α) :
    Threaded (heap ++ [⟨x, (pivot :: after).getLast?.map Prod.fst, none⟩]) before pivot
      (after ++ [(heap.length, x)]) := by
  have happ := hthr.append ⟨x, (pivot :: after).getLast?.map Prod.fst, none⟩
  have hsplit : before ++ pivot :: (after ++ [(heap.length, x)]) =
      (before ++ pivot :: after) ++ [(heap.length, x)] := by simp
  refine ⟨?_, ?_, happ.forward, ?_, happ.prev_pivot, happ.next_pivot⟩
  · rw [hsplit, List.map_append]
    refine hthr.nodup.append (List.nodup_singleton _) ?_
    simpa using hthr.length_notMem
  · intro item hitem
    rw [hsplit] at hitem
    rcases List.mem_append.mp hitem with hold | hnew
    · exact happ.ptr item hold
    · rw [List.mem_singleton.mp hnew]
      simp [ptrOf]
  · rw [← List.cons_append]
    refine happ.backward.append (List.isChain_singleton _) fun i hi j hj ↦ ?_
    obtain rfl : (heap.length, x) = j := by simpa using hj
    have hi' : (pivot :: after).getLast? = some i := hi
    simp [prevOf, hi']

/-- The threads after an `unshift` to a list that is not empty. -/
theorem Threaded.unshift (hthr : Threaded heap before pivot after) (x : α) :
    Threaded (heap ++ [⟨x, none, (before ++ [pivot]).head?.map Prod.fst⟩])
      ((heap.length, x) :: before) pivot after := by
  have happ := hthr.append ⟨x, none, (before ++ [pivot]).head?.map Prod.fst⟩
  refine ⟨?_, ?_, ?_, happ.backward, happ.prev_pivot, happ.next_pivot⟩
  · exact List.nodup_cons.mpr ⟨hthr.length_notMem, hthr.nodup⟩
  · intro item hitem
    rcases List.mem_cons.mp hitem with rfl | hold
    · simp [ptrOf]
    · exact happ.ptr item hold
  · refine List.IsChain.cons happ.forward fun j hj ↦ ?_
    have hj' : (before ++ [pivot]).head? = some j := hj
    simp [nextOf, hj']

/-- The threads of the first element. -/
theorem threaded_single (heap : List (Node α)) (x : α) :
    Threaded (heap ++ [⟨x, none, none⟩]) [] (heap.length, x) [] :=
  ⟨by simp, by simp [ptrOf], List.isChain_singleton _, List.isChain_singleton _, by simp [prevOf],
    by simp [nextOf]⟩

/-- The threads after a `pop` of the last pushed element: the node before it and the released one
have their `next` set to `NULL`. -/
theorem Threaded.pop {last prior : ℕ × α} (hthr : Threaded heap before pivot (after ++ [last]))
    (hprior : prior ∈ pivot :: after) :
    Threaded ((heap.modify prior.1 fun node ↦ { node with next := none }).modify last.1
      fun node ↦ { node with next := none }) before pivot after := by
  have hnodup := hthr.nodup
  rw [List.map_append, List.nodup_append] at hnodup
  have hapart (item other : ℕ × α) (hitem : item ∈ before)
      (hother : other ∈ pivot :: (after ++ [last])) : other.1 ≠ item.1 :=
    (hnodup.2.2 _ (List.mem_map_of_mem hitem) _ (List.mem_map_of_mem hother)).symm
  refine hthr.init.frame ?_ ?_ ?_ ?_ ?_
  · exact fun item _ ↦ by simp
  · intro item hitem
    have hpriorMem : prior ∈ pivot :: (after ++ [last]) := by
      rw [← List.cons_append]
      exact List.mem_append_left _ hprior
    rw [nextOf_modify_ne (hapart item last hitem (by simp)),
      nextOf_modify_ne (hapart item prior hitem hpriorMem)]
  · exact fun item _ ↦ by simp
  · simpa using hthr.prev_pivot
  · exact nextOf_modify_none (nextOf_modify_none hthr.next_pivot prior.1) last.1

/-- The threads after a `shift` of the last unshifted element. -/
theorem Threaded.shift {first later : ℕ × α} (hthr : Threaded heap (first :: before) pivot after)
    (hlater : later ∈ before ++ [pivot]) :
    Threaded ((heap.modify later.1 fun node ↦ { node with prev := none }).modify first.1
      fun node ↦ { node with next := none }) before pivot after := by
  have hnodup := hthr.nodup
  rw [List.cons_append, List.map_cons, List.nodup_cons] at hnodup
  have hrest := hnodup.2
  rw [← List.singleton_append, ← List.append_assoc, List.map_append, List.nodup_append] at hrest
  refine hthr.tail.frame ?_ ?_ ?_ ?_ ?_
  · exact fun item _ ↦ by simp
  · intro item hitem
    have hne : first.1 ≠ item.1 := by
      intro heq
      exact hnodup.1 (heq ▸ List.mem_map_of_mem (List.mem_append_left _ hitem))
    rw [nextOf_modify_ne hne, nextOf_modify_prev]
  · intro item hitem
    have hne : later.1 ≠ item.1 :=
      hrest.2.2 _ (List.mem_map_of_mem hlater) _ (List.mem_map_of_mem hitem)
    rw [prevOf_modify_next, prevOf_modify_ne hne]
  · rw [prevOf_modify_next]
    exact prevOf_modify_none hthr.prev_pivot later.1
  · refine nextOf_modify_none ?_ first.1
    rw [nextOf_modify_prev]
    exact hthr.next_pivot

end Heap

/-! ### The deque with its seam -/

/-- What the linked list should hold: the elements, how many of them stand before the one that was
put into the empty list, and how many nodes have been released so far. -/
structure Track (α : Type) where
  items : List α
  seam : ℕ
  released : ℕ

/-- The seam after a call. -/
def seamAfter (track : Track α) : DequeCall α → ℕ
  | .push _ => if track.items = [] then 0 else track.seam
  | .unshift _ => if track.items = [] then 0 else track.seam + 1
  | .shift _ => track.seam - 1
  | _ => track.seam

/-- A call takes an element out of the list. -/
def takesOut (track : Track α) : DequeCall α → Bool
  | .pop _ => !track.items.isEmpty
  | .shift _ => !track.items.isEmpty
  | _ => false

/-- The unbounded deque, with the seam and the released nodes kept beside it. -/
def trackCall (track : Track α) (c : DequeCall α × Bool) : DequeAnswer α × Track α :=
  ((dequeCall none track.items c.1).1,
    { items := (dequeCall none track.items c.1).2
      seam := seamAfter track c.1
      released := track.released + (takesOut track c.1).toNat })

section Track

variable {track : Track α} {items : List α} {x : α} (data : Option α) (memory : Bool)

theorem trackCall_pop_nil (hitems : track.items = []) :
    trackCall track (.pop data, memory) = (⟨0, data⟩, ⟨[], track.seam, track.released⟩) := by
  simp [trackCall, dequeCall, handOut, seamAfter, takesOut, hitems]

theorem trackCall_pop_concat (hitems : track.items = items ++ [x]) :
    trackCall track (.pop data, memory) =
      (⟨1, data.map fun _ ↦ x⟩, ⟨items, track.seam, track.released + 1⟩) := by
  have hne : track.items.isEmpty = false := by simp [hitems]
  simp [trackCall, dequeCall, handOut, seamAfter, takesOut, hne]
  simp [hitems]

theorem trackCall_shift_nil (hitems : track.items = []) :
    trackCall track (.shift data, memory) =
      (⟨0, data⟩, ⟨[], track.seam - 1, track.released⟩) := by
  simp [trackCall, dequeCall, handOut, seamAfter, takesOut, hitems]

theorem trackCall_shift_cons (hitems : track.items = x :: items) :
    trackCall track (.shift data, memory) =
      (⟨1, data.map fun _ ↦ x⟩, ⟨items, track.seam - 1, track.released + 1⟩) := by
  simp [trackCall, dequeCall, handOut, seamAfter, takesOut, hitems]

end Track

/-- The call works on the linked list: `push` and `unshift` get memory, and an element that is
taken out while others stay is not the one that was put into the empty list. -/
def EndLinked (track : Track α) : DequeCall α × Bool → Prop
  | (.push _, memory) => memory = true
  | (.unshift _, memory) => memory = true
  | (.pop _, _) => track.items.length ≤ 1 ∨ track.seam + 1 < track.items.length
  | (.shift _, _) => track.items.length ≤ 1 ∨ 0 < track.seam
  | (.front _, _) => True
  | (.rear _, _) => True

/-- A linked list is in step with the deque: the links are those of `Threaded`, the free list is
empty, and the heap has every node in use or released. -/
structure Links (pd : Xlv2 α) (track : Track α) : Prop where
  freelist_eq : pd.freelist = none
  usecnt_eq : pd.usecnt = track.items.length
  length_eq : pd.heap.length = track.items.length + track.released
  threaded : track.items ≠ [] → ∃ before pivot after,
    track.items = (before ++ pivot :: after).map Prod.snd ∧ track.seam = before.length ∧
    pd.head = (before ++ [pivot]).head?.map Prod.fst ∧
    pd.tail = (pivot :: after).getLast?.map Prod.fst ∧ Threaded pd.heap before pivot after

section Calls

variable {pd : Xlv2 α} {track : Track α}

/-! ### One lemma per function -/

theorem xlv2Push_first (hfree : pd.freelist = none) (hcnt : pd.usecnt = 0) (x : α) :
    xlv2Push pd true x = some (⟨1, none⟩, { pd with
      heap := pd.heap ++ [⟨x, none, none⟩]
      head := some pd.heap.length
      tail := some pd.heap.length
      usecnt := 1 }) := by
  simp [xlv2Push, xlv2Malloc, hfree, Xlv2.setNext, Xlv2.setPrev, Xlv2.modify, modify_append_node,
    hcnt]

theorem xlv2Push_later (hfree : pd.freelist = none) (hcnt : pd.usecnt ≠ 0) (x : α) :
    xlv2Push pd true x = some (⟨1, none⟩, { pd with
      heap := pd.heap ++ [⟨x, pd.tail, none⟩]
      tail := some pd.heap.length
      usecnt := pd.usecnt + 1 }) := by
  simp [xlv2Push, xlv2Malloc, hfree, Xlv2.setNext, Xlv2.setPrev, Xlv2.modify, modify_append_node,
    hcnt]

theorem xlv2Unshift_first (hfree : pd.freelist = none) (hcnt : pd.usecnt = 0) (x : α) :
    xlv2Unshift pd true x = some (⟨1, none⟩, { pd with
      heap := pd.heap ++ [⟨x, none, none⟩]
      head := some pd.heap.length
      tail := some pd.heap.length
      usecnt := 1 }) := by
  simp [xlv2Unshift, xlv2Malloc, hfree, Xlv2.setNext, Xlv2.setPrev, Xlv2.modify,
    modify_append_node, hcnt]

theorem xlv2Unshift_later (hfree : pd.freelist = none) (hcnt : pd.usecnt ≠ 0) (x : α) :
    xlv2Unshift pd true x = some (⟨1, none⟩, { pd with
      heap := pd.heap ++ [⟨x, none, pd.head⟩]
      head := some pd.heap.length
      usecnt := pd.usecnt + 1 }) := by
  simp [xlv2Unshift, xlv2Malloc, hfree, Xlv2.setNext, Xlv2.setPrev, Xlv2.modify,
    modify_append_node, hcnt]

/-- `xlv2_free` leaves the free list empty: the released node is lost. -/
theorem xlv2Free_eq (hfree : pd.freelist = none) {a : ℕ} (ha : a < pd.heap.length) :
    xlv2Free pd (some a) = some { pd with
      heap := pd.heap.modify a fun node ↦ { node with next := none } } := by
  obtain ⟨heap, head, tail, freelist, usecnt⟩ := pd
  obtain rfl : freelist = none := hfree
  have ha' : a < heap.length := ha
  simp [xlv2Free, Xlv2.setNext, Xlv2.modify, Xlv2.node, ha']

theorem node_map_ptr (pd : Xlv2 α) (a : ℕ) :
    (pd.node (some a)).map Node.ptr = ptrOf pd.heap a :=
  rfl

/-- Copying an element that is there. -/
theorem copyOut_some (data : Option α) (x : α) :
    copyOut data (some x) = some (data.map fun _ ↦ x) := by
  cases data <;> rfl

/-- `xlv2_pop` of the only element. -/
theorem xlv2Pop_only (hfree : pd.freelist = none) (hcnt : pd.usecnt = 1) {a : ℕ} {x : α}
    (htail : pd.tail = some a) (hptr : ptrOf pd.heap a = some x) (data : Option α) :
    xlv2Pop pd data = some (⟨1, data.map fun _ ↦ x⟩, { pd with
      heap := pd.heap.modify a fun node ↦ { node with next := none }
      head := none
      tail := none
      usecnt := 0 }) := by
  have ha := lt_of_ptrOf hptr
  have hfreed := @xlv2Free_eq α { pd with head := none, tail := none, usecnt := 0 } hfree a ha
  simp only [xlv2Pop, hcnt, Nat.zero_lt_one, if_true, Nat.sub_self, htail, Option.bind_eq_bind,
    Option.bind_some, node_map_ptr, hptr, copyOut_some, hfreed]

/-- `xlv2_shift` of the only element. -/
theorem xlv2Shift_only (hfree : pd.freelist = none) (hcnt : pd.usecnt = 1) {a : ℕ} {x : α}
    (hhead : pd.head = some a) (hptr : ptrOf pd.heap a = some x) (data : Option α) :
    xlv2Shift pd data = some (⟨1, data.map fun _ ↦ x⟩, { pd with
      heap := pd.heap.modify a fun node ↦ { node with next := none }
      head := none
      tail := none
      usecnt := 0 }) := by
  have ha := lt_of_ptrOf hptr
  have hfreed := @xlv2Free_eq α { pd with head := none, tail := none, usecnt := 0 } hfree a ha
  simp only [xlv2Shift, hcnt, Nat.zero_lt_one, if_true, Nat.sub_self, hhead, Option.bind_eq_bind,
    Option.bind_some, node_map_ptr, hptr, copyOut_some, hfreed]

/-- `xlv2_pop` of an element whose `prev` link was set. -/
theorem xlv2Pop_linked (hfree : pd.freelist = none) (hcnt : 1 < pd.usecnt) {a b : ℕ} {x y : α}
    (htail : pd.tail = some a) (hptr : ptrOf pd.heap a = some x)
    (hprev : prevOf pd.heap a = some (some b)) (hb : ptrOf pd.heap b = some y) (data : Option α) :
    xlv2Pop pd data = some (⟨1, data.map fun _ ↦ x⟩, { pd with
      heap := (pd.heap.modify b fun node ↦ { node with next := none }).modify a
        fun node ↦ { node with next := none }
      tail := some b
      usecnt := pd.usecnt - 1 }) := by
  obtain ⟨node, hnode, hnodePrev⟩ := Option.map_eq_some_iff.mp hprev
  have hblt := lt_of_ptrOf hb
  have ha : a < (pd.heap.modify b fun node ↦ { node with next := none }).length := by
    rw [List.length_modify]
    exact lt_of_ptrOf hptr
  have hfreed := @xlv2Free_eq α { pd with
    heap := pd.heap.modify b fun node ↦ { node with next := none }
    tail := some b
    usecnt := pd.usecnt - 1 } hfree a ha
  have hpos : 0 < pd.usecnt := by omega
  have hne : pd.usecnt - 1 ≠ 0 := by omega
  simp only [xlv2Pop, hpos, hne, if_true, if_false, htail, Xlv2.node, Xlv2.setNext, Xlv2.modify,
    Option.bind_eq_bind, Option.bind_some, hnode, hnodePrev, hblt] at hfreed ⊢
  have hout : (pd.heap.modify b fun node ↦ { node with next := none })[a]?.map Node.ptr = some x :=
    (ptrOf_modify_next pd.heap b a none).trans hptr
  simp only [hfreed, Option.bind_some, hout, copyOut_some]

/-- `xlv2_shift` of an element whose `next` link was set. -/
theorem xlv2Shift_linked (hfree : pd.freelist = none) (hcnt : 1 < pd.usecnt) {a b : ℕ} {x y : α}
    (hhead : pd.head = some a) (hptr : ptrOf pd.heap a = some x)
    (hnext : nextOf pd.heap a = some (some b)) (hb : ptrOf pd.heap b = some y) (data : Option α) :
    xlv2Shift pd data = some (⟨1, data.map fun _ ↦ x⟩, { pd with
      heap := (pd.heap.modify b fun node ↦ { node with prev := none }).modify a
        fun node ↦ { node with next := none }
      head := some b
      usecnt := pd.usecnt - 1 }) := by
  obtain ⟨node, hnode, hnodeNext⟩ := Option.map_eq_some_iff.mp hnext
  have hblt := lt_of_ptrOf hb
  have ha : a < (pd.heap.modify b fun node ↦ { node with prev := none }).length := by
    rw [List.length_modify]
    exact lt_of_ptrOf hptr
  have hfreed := @xlv2Free_eq α { pd with
    heap := pd.heap.modify b fun node ↦ { node with prev := none }
    head := some b
    usecnt := pd.usecnt - 1 } hfree a ha
  have hpos : 0 < pd.usecnt := by omega
  have hne : pd.usecnt - 1 ≠ 0 := by omega
  simp only [xlv2Shift, hpos, hne, if_true, if_false, hhead, Xlv2.node, Xlv2.setPrev, Xlv2.modify,
    Option.bind_eq_bind, Option.bind_some, hnode, hnodeNext, hblt] at hfreed ⊢
  have hout : (pd.heap.modify b fun node ↦ { node with prev := none })[a]?.map Node.ptr = some x :=
    (ptrOf_modify_prev pd.heap b a none).trans hptr
  simp only [hfreed, Option.bind_some, hout, copyOut_some]

/-- `xlv2_pop` of an element whose `prev` link is `NULL`, while others stay. -/
theorem xlv2Pop_null (hcnt : 1 < pd.usecnt) {a : ℕ} (htail : pd.tail = some a)
    (hprev : prevOf pd.heap a = some none) (data : Option α) : xlv2Pop pd data = none := by
  obtain ⟨node, hnode, hnodePrev⟩ := Option.map_eq_some_iff.mp hprev
  have hpos : 0 < pd.usecnt := by omega
  have hne : pd.usecnt - 1 ≠ 0 := by omega
  simp [xlv2Pop, hpos, hne, htail, Xlv2.node, Xlv2.setNext, Xlv2.modify, hnode, hnodePrev]

/-- `xlv2_shift` of an element whose `next` link is `NULL`, while others stay. -/
theorem xlv2Shift_null (hcnt : 1 < pd.usecnt) {a : ℕ} (hhead : pd.head = some a)
    (hnext : nextOf pd.heap a = some none) (data : Option α) : xlv2Shift pd data = none := by
  obtain ⟨node, hnode, hnodeNext⟩ := Option.map_eq_some_iff.mp hnext
  have hpos : 0 < pd.usecnt := by omega
  have hne : pd.usecnt - 1 ≠ 0 := by omega
  simp [xlv2Shift, hpos, hne, hhead, Xlv2.node, Xlv2.setPrev, Xlv2.modify, hnode, hnodeNext]

/-! ### Each call keeps the links -/

theorem Links.usecnt_eq_zero (hlinks : Links pd track) : pd.usecnt = 0 ↔ track.items = [] := by
  rw [hlinks.usecnt_eq, List.length_eq_zero_iff]

/-- The first element, from either end. -/
theorem Links.first (hlinks : Links pd track) (hitems : track.items = []) (x : α) :
    Links { pd with
      heap := pd.heap ++ [⟨x, none, none⟩]
      head := some pd.heap.length
      tail := some pd.heap.length
      usecnt := 1 } ⟨[x], 0, track.released⟩ := by
  have hlen := hlinks.length_eq
  refine ⟨hlinks.freelist_eq, rfl, ?_, fun _ ↦ ⟨[], (pd.heap.length, x), [], ?_⟩⟩
  · simp only [hitems, List.length_append, List.length_nil, List.length_singleton] at hlen ⊢
    omega
  · exact ⟨rfl, rfl, rfl, rfl, threaded_single pd.heap x⟩

/-- `push` with memory keeps the links. -/
theorem Links.push (hlinks : Links pd track) (x : α) :
    ∃ pd', xlv2Push pd true x = some (⟨1, none⟩, pd') ∧
      Links pd' (trackCall track (.push x, true)).2 := by
  have hlen := hlinks.length_eq
  by_cases hitems : track.items = []
  · refine ⟨_, xlv2Push_first hlinks.freelist_eq (hlinks.usecnt_eq_zero.mpr hitems) x, ?_⟩
    have htrack : (trackCall track (.push x, true)).2 = ⟨[x], 0, track.released⟩ := by
      simp [trackCall, dequeCall, hasRoom_none, seamAfter, takesOut, hitems]
    rw [htrack]
    exact hlinks.first hitems x
  · have hcnt : pd.usecnt ≠ 0 := fun h ↦ hitems (hlinks.usecnt_eq_zero.mp h)
    obtain ⟨before, pivot, after, hmap, hseam, hhead, htail, hthr⟩ := hlinks.threaded hitems
    refine ⟨_, xlv2Push_later hlinks.freelist_eq hcnt x, ?_⟩
    refine ⟨hlinks.freelist_eq, ?_, ?_,
      fun _ ↦ ⟨before, pivot, after ++ [(pd.heap.length, x)], ?_⟩⟩
    · simp [trackCall, dequeCall, hasRoom_none, hlinks.usecnt_eq]
    · simp [trackCall, dequeCall, hasRoom_none, takesOut]
      omega
    · refine ⟨?_, ?_, hhead, ?_, ?_⟩
      · simp [trackCall, dequeCall, hasRoom_none, hmap]
      · simp [trackCall, seamAfter, hitems, hseam]
      · rw [← List.cons_append, List.getLast?_concat]
        rfl
      · rw [htail]
        exact hthr.push x

/-- `unshift` with memory keeps the links. -/
theorem Links.unshift (hlinks : Links pd track) (x : α) :
    ∃ pd', xlv2Unshift pd true x = some (⟨1, none⟩, pd') ∧
      Links pd' (trackCall track (.unshift x, true)).2 := by
  have hlen := hlinks.length_eq
  by_cases hitems : track.items = []
  · refine ⟨_, xlv2Unshift_first hlinks.freelist_eq (hlinks.usecnt_eq_zero.mpr hitems) x, ?_⟩
    have htrack : (trackCall track (.unshift x, true)).2 = ⟨[x], 0, track.released⟩ := by
      simp [trackCall, dequeCall, hasRoom_none, seamAfter, takesOut, hitems]
    rw [htrack]
    exact hlinks.first hitems x
  · have hcnt : pd.usecnt ≠ 0 := fun h ↦ hitems (hlinks.usecnt_eq_zero.mp h)
    obtain ⟨before, pivot, after, hmap, hseam, hhead, htail, hthr⟩ := hlinks.threaded hitems
    refine ⟨_, xlv2Unshift_later hlinks.freelist_eq hcnt x, ?_⟩
    refine ⟨hlinks.freelist_eq, ?_, ?_,
      fun _ ↦ ⟨(pd.heap.length, x) :: before, pivot, after, ?_⟩⟩
    · simp [trackCall, dequeCall, hasRoom_none, hlinks.usecnt_eq]
    · simp [trackCall, dequeCall, hasRoom_none, takesOut]
      omega
    · refine ⟨?_, ?_, rfl, htail, ?_⟩
      · simp [trackCall, dequeCall, hasRoom_none, hmap]
      · simp [trackCall, seamAfter, hitems, hseam]
      · rw [hhead]
        exact hthr.unshift x

/-- The one item of a list of one element. -/
theorem Links.only {x : α} (hlinks : Links pd track) (hitems : track.items = [x]) :
    pd.usecnt = 1 ∧ ∃ a, pd.head = some a ∧ pd.tail = some a ∧ ptrOf pd.heap a = some x := by
  obtain ⟨before, pivot, after, hmap, -, hhead, htail, hthr⟩ :=
    hlinks.threaded (hitems ▸ List.cons_ne_nil x [])
  have hlen := congrArg List.length (hitems.symm.trans hmap)
  simp only [List.length_map, List.length_append, List.length_cons, List.length_nil] at hlen
  obtain rfl : before = [] := List.eq_nil_of_length_eq_zero (by omega)
  obtain rfl : after = [] := List.eq_nil_of_length_eq_zero (by omega)
  obtain rfl : x = pivot.2 := by simpa using hitems.symm.trans hmap
  refine ⟨by rw [hlinks.usecnt_eq, hitems]; rfl, pivot.1, hhead, htail, ?_⟩
  exact hthr.ptr pivot List.mem_cons_self

/-- The links of the empty list that remains when the only element is taken out. -/
theorem Links.emptied {x : α} (hlinks : Links pd track) (hitems : track.items = [x]) (a seam : ℕ) :
    Links { pd with
      heap := pd.heap.modify a fun node ↦ { node with next := none }
      head := none
      tail := none
      usecnt := 0 } ⟨[], seam, track.released + 1⟩ := by
  have hlen := hlinks.length_eq
  rw [hitems, List.length_singleton] at hlen
  refine ⟨hlinks.freelist_eq, rfl, ?_, fun hne ↦ absurd rfl hne⟩
  simp only [List.length_modify, List.length_nil]
  omega

/-- `pop` of the only element. -/
theorem Links.pop_only {x : α} (hlinks : Links pd track) (hitems : track.items = [x])
    (data : Option α) (seam : ℕ) :
    ∃ pd', xlv2Pop pd data = some (⟨1, data.map fun _ ↦ x⟩, pd') ∧
      Links pd' ⟨[], seam, track.released + 1⟩ := by
  obtain ⟨hcnt, a, -, htail, hptr⟩ := hlinks.only hitems
  exact ⟨_, xlv2Pop_only hlinks.freelist_eq hcnt htail hptr data, hlinks.emptied hitems a seam⟩

/-- `shift` of the only element. -/
theorem Links.shift_only {x : α} (hlinks : Links pd track) (hitems : track.items = [x])
    (data : Option α) (seam : ℕ) :
    ∃ pd', xlv2Shift pd data = some (⟨1, data.map fun _ ↦ x⟩, pd') ∧
      Links pd' ⟨[], seam, track.released + 1⟩ := by
  obtain ⟨hcnt, a, hhead, -, hptr⟩ := hlinks.only hitems
  exact ⟨_, xlv2Shift_only hlinks.freelist_eq hcnt hhead hptr data, hlinks.emptied hitems a seam⟩

/-- `pop` of an element that was pushed to a list that was not empty. -/
theorem Links.pop_linked {items : List α} {x : α} (hlinks : Links pd track)
    (hitems : track.items = items ++ [x]) (hseam : track.seam < items.length) (data : Option α) :
    ∃ pd', xlv2Pop pd data = some (⟨1, data.map fun _ ↦ x⟩, pd') ∧
      Links pd' ⟨items, track.seam, track.released + 1⟩ := by
  obtain ⟨before, pivot, after, hmap, hbefore, hhead, htail, hthr⟩ :=
    hlinks.threaded (by simp [hitems])
  have hcnt := hlinks.usecnt_eq
  have hlen := hlinks.length_eq
  rw [hitems, List.length_append, List.length_singleton] at hcnt hlen
  rcases List.eq_nil_or_concat after with rfl | ⟨init, last, rfl⟩
  · have hshort := congrArg List.length (hitems.symm.trans hmap)
    simp at hshort
    omega
  · rw [List.concat_eq_append] at *
    have hsplit := hitems.symm.trans hmap
    rw [← List.cons_append, ← List.append_assoc, List.map_append, List.map_singleton] at hsplit
    obtain ⟨hinit, hx⟩ := List.append_inj' hsplit rfl
    obtain rfl : x = last.2 := by simpa using hx
    have hprior : (pivot :: init).getLast (List.cons_ne_nil pivot init) ∈ pivot :: init :=
      List.getLast_mem _
    have hprev := (List.cons_append ▸ hthr.backward :
      ((pivot :: init) ++ [last]).IsChain _).rel_getLast_head_of_append
        (List.cons_ne_nil pivot init) (List.cons_ne_nil last [])
    have hptr : ptrOf pd.heap last.1 = some last.2 := hthr.ptr last (by simp)
    have hpriorPtr := hthr.ptr _ (List.mem_append_right before (List.mem_append_left [last] hprior))
    rw [← List.cons_append, List.getLast?_concat, Option.map_some] at htail
    refine ⟨_, xlv2Pop_linked hlinks.freelist_eq (by omega) htail hptr hprev hpriorPtr data,
      hlinks.freelist_eq, ?_, ?_, fun _ ↦ ⟨before, pivot, init, hinit, hbefore, hhead, ?_,
        hthr.pop hprior⟩⟩
    · simp only
      omega
    · simp only [List.length_modify]
      omega
    · rw [List.getLast?_eq_some_getLast (List.cons_ne_nil pivot init)]
      rfl

/-- `shift` of an element that was unshifted to a list that was not empty. -/
theorem Links.shift_linked {items : List α} {x : α} (hlinks : Links pd track)
    (hitems : track.items = x :: items) (hne : items ≠ []) (hseam : 0 < track.seam)
    (data : Option α) :
    ∃ pd', xlv2Shift pd data = some (⟨1, data.map fun _ ↦ x⟩, pd') ∧
      Links pd' ⟨items, track.seam - 1, track.released + 1⟩ := by
  obtain ⟨before, pivot, after, hmap, hbefore, hhead, htail, hthr⟩ :=
    hlinks.threaded (by simp [hitems])
  have hcnt := hlinks.usecnt_eq
  have hlen := hlinks.length_eq
  have hpos : 0 < items.length := List.length_pos_of_ne_nil hne
  rw [hitems, List.length_cons] at hcnt hlen
  cases before with
  | nil =>
    rw [hbefore] at hseam
    exact absurd hseam (Nat.lt_irrefl 0)
  | cons first rest =>
    have hsplit := hitems.symm.trans hmap
    rw [List.cons_append, List.map_cons] at hsplit
    obtain ⟨rfl, hrest⟩ := List.cons_eq_cons.mp hsplit
    have hne' : rest ++ [pivot] ≠ [] := by simp
    have hlater : (rest ++ [pivot]).head hne' ∈ rest ++ [pivot] := List.head_mem hne'
    have hhead? : (rest ++ [pivot]).head? = some ((rest ++ [pivot]).head hne') :=
      List.head?_eq_some_head hne'
    have hnext := hthr.forward.rel_head? hhead?
    have hptr : ptrOf pd.heap first.1 = some first.2 := hthr.ptr first (by simp)
    have hlaterPtr : ptrOf pd.heap ((rest ++ [pivot]).head hne').1 =
        some ((rest ++ [pivot]).head hne').2 := by
      have hmem : (rest ++ [pivot]).head hne' ∈ rest ++ pivot :: after := by
        rw [List.append_cons]
        exact List.mem_append_left after hlater
      exact hthr.ptr _ (List.mem_cons_of_mem first hmem)
    refine ⟨_, xlv2Shift_linked hlinks.freelist_eq (by omega) hhead hptr hnext hlaterPtr data,
      hlinks.freelist_eq, ?_, ?_, fun _ ↦ ⟨rest, pivot, after, hrest, ?_, ?_, htail,
        hthr.shift hlater⟩⟩
    · simp only
      omega
    · simp only [List.length_modify]
      omega
    · simp only [hbefore, List.length_cons, Nat.add_sub_cancel]
    · rw [hhead?]
      rfl

/-- `pop` of the element that was put into the empty list, while others stay. -/
theorem Links.pop_null (hlinks : Links pd track) (hlong : 1 < track.items.length)
    (hseam : track.items.length ≤ track.seam + 1) (data : Option α) : xlv2Pop pd data = none := by
  have hne : track.items ≠ [] := List.ne_nil_of_length_pos (by omega)
  obtain ⟨before, pivot, after, hmap, hbefore, -, htail, hthr⟩ := hlinks.threaded hne
  have hlen := congrArg List.length hmap
  simp only [List.length_map, List.length_append, List.length_cons] at hlen
  obtain rfl : after = [] := List.eq_nil_of_length_eq_zero (by omega)
  exact xlv2Pop_null (hlinks.usecnt_eq ▸ hlong) htail hthr.prev_pivot data

/-- `shift` of the element that was put into the empty list, while others stay. -/
theorem Links.shift_null (hlinks : Links pd track) (hlong : 1 < track.items.length)
    (hseam : track.seam = 0) (data : Option α) : xlv2Shift pd data = none := by
  have hne : track.items ≠ [] := List.ne_nil_of_length_pos (by omega)
  obtain ⟨before, pivot, after, -, hbefore, hhead, -, hthr⟩ := hlinks.threaded hne
  obtain rfl : before = [] := List.eq_nil_of_length_eq_zero (hbefore ▸ hseam)
  exact xlv2Shift_null (hlinks.usecnt_eq ▸ hlong) hhead hthr.next_pivot data

/-- `front` shows the first element. -/
theorem Links.front (hlinks : Links pd track) (data : Option α) :
    xlv2Front pd data = some (handOut data track.items.head?, pd) := by
  by_cases hitems : track.items = []
  · simp [xlv2Front, hlinks.usecnt_eq, hitems, handOut]
  · obtain ⟨before, pivot, after, hmap, -, hhead, -, hthr⟩ := hlinks.threaded hitems
    have hpos : 0 < pd.usecnt := hlinks.usecnt_eq ▸ List.length_pos_of_ne_nil hitems
    have hptr (item : ℕ × α) (hfirst : (before ++ [pivot]).head? = some item) :
        ptrOf pd.heap item.1 = some item.2 ∧ track.items.head? = some item.2 := by
      cases before with
      | nil =>
        obtain rfl : pivot = item := by simpa using hfirst
        exact ⟨hthr.ptr pivot (by simp), by simp [hmap]⟩
      | cons first rest =>
        obtain rfl : first = item := by simpa using hfirst
        exact ⟨hthr.ptr first (by simp), by simp [hmap]⟩
    have hfirst := List.head?_eq_some_head (List.append_ne_nil_of_right_ne_nil before
      (List.cons_ne_nil pivot []))
    obtain ⟨hitem, hitems'⟩ := hptr _ hfirst
    rw [hfirst, Option.map_some] at hhead
    simp only [xlv2Front, hpos, if_true, hhead, node_map_ptr, hitem, copyOut_some, hitems', handOut,
      Option.bind_eq_bind, Option.bind_some]

/-- `rear` shows the last element. -/
theorem Links.rear (hlinks : Links pd track) (data : Option α) :
    xlv2Rear pd data = some (handOut data track.items.getLast?, pd) := by
  by_cases hitems : track.items = []
  · simp [xlv2Rear, hlinks.usecnt_eq, hitems, handOut]
  · obtain ⟨before, pivot, after, hmap, -, -, htail, hthr⟩ := hlinks.threaded hitems
    have hpos : 0 < pd.usecnt := hlinks.usecnt_eq ▸ List.length_pos_of_ne_nil hitems
    have hlast := List.getLast?_eq_some_getLast (List.cons_ne_nil pivot after)
    have hmem := List.getLast_mem (List.cons_ne_nil pivot after)
    have hitem := hthr.ptr _ (List.mem_append_right before hmem)
    have hitems' : track.items.getLast? =
        some ((pivot :: after).getLast (List.cons_ne_nil pivot after)).2 := by
      rw [hmap, List.getLast?_map, List.getLast?_append_of_ne_nil _ (List.cons_ne_nil pivot after),
        hlast, Option.map_some]
    rw [hlast, Option.map_some] at htail
    simp only [xlv2Rear, hpos, if_true, htail, node_map_ptr, hitem, copyOut_some, hitems', handOut,
      Option.bind_eq_bind, Option.bind_some]

/-- Without memory and with an empty free list, `push` and `unshift` return 0. -/
theorem xlv2Push_no_memory (hfree : pd.freelist = none) (x : α) :
    xlv2Push pd false x = some (⟨0, none⟩, pd) := by
  simp [xlv2Push, xlv2Malloc, hfree]

theorem xlv2Unshift_no_memory (hfree : pd.freelist = none) (x : α) :
    xlv2Unshift pd false x = some (⟨0, none⟩, pd) := by
  simp [xlv2Unshift, xlv2Malloc, hfree]

/-- Only the elements matter in the empty list. -/
theorem Links.of_nil (hlinks : Links pd track) (hitems : track.items = []) (seam : ℕ) :
    Links pd ⟨[], seam, track.released⟩ := by
  have hcnt := hlinks.usecnt_eq
  have hlen := hlinks.length_eq
  rw [hitems] at hcnt hlen
  exact ⟨hlinks.freelist_eq, hcnt, hlen, fun hne ↦ absurd rfl hne⟩

/-- `pop` within `EndLinked` is answered as the deque answers it. -/
theorem Links.pop (hlinks : Links pd track) (data : Option α) (memory : Bool)
    (hend : EndLinked track (.pop data, memory)) :
    ∃ pd', xlv2Pop pd data = some ((trackCall track (.pop data, memory)).1, pd') ∧
      Links pd' (trackCall track (.pop data, memory)).2 := by
  rcases List.eq_nil_or_concat track.items with hitems | ⟨items, x, hitems⟩
  · rw [trackCall_pop_nil data memory hitems]
    exact ⟨pd, by simp [xlv2Pop, hlinks.usecnt_eq, hitems], hlinks.of_nil hitems track.seam⟩
  · rw [List.concat_eq_append] at hitems
    rw [trackCall_pop_concat data memory hitems]
    have hor : track.items.length ≤ 1 ∨ track.seam + 1 < track.items.length := hend
    rw [hitems, List.length_append, List.length_singleton] at hor
    rcases hor with hshort | hlong
    · obtain rfl : items = [] := List.eq_nil_of_length_eq_zero (by omega)
      exact hlinks.pop_only hitems data track.seam
    · exact hlinks.pop_linked hitems (by omega) data

/-- `shift` within `EndLinked` is answered as the deque answers it. -/
theorem Links.shift (hlinks : Links pd track) (data : Option α) (memory : Bool)
    (hend : EndLinked track (.shift data, memory)) :
    ∃ pd', xlv2Shift pd data = some ((trackCall track (.shift data, memory)).1, pd') ∧
      Links pd' (trackCall track (.shift data, memory)).2 := by
  cases hitems : track.items with
  | nil =>
    rw [trackCall_shift_nil data memory hitems]
    exact ⟨pd, by simp [xlv2Shift, hlinks.usecnt_eq, hitems], hlinks.of_nil hitems _⟩
  | cons x items =>
    rw [trackCall_shift_cons data memory hitems]
    by_cases hitems' : items = []
    · subst hitems'
      exact hlinks.shift_only hitems data (track.seam - 1)
    · have hlong : ¬ track.items.length ≤ 1 := by
        have hpos := List.length_pos_of_ne_nil hitems'
        rw [hitems, List.length_cons]
        omega
      have hor : track.items.length ≤ 1 ∨ 0 < track.seam := hend
      exact hlinks.shift_linked hitems hitems' (hor.resolve_left hlong) data

/-- A call within `EndLinked` is answered as the deque answers it, and keeps the links. -/
theorem xlv2Call_of_endLinked (hlinks : Links pd track) (c : DequeCall α × Bool)
    (hend : EndLinked track c) :
    ∃ pd', xlv2Call pd c = some ((trackCall track c).1, pd') ∧
      Links pd' (trackCall track c).2 := by
  obtain ⟨c, memory⟩ := c
  cases c with
  | push x =>
    obtain rfl : memory = true := hend
    obtain ⟨pd', hpush, hlinks'⟩ := hlinks.push x
    exact ⟨pd', by simpa [xlv2Call, trackCall, dequeCall, hasRoom_none] using hpush, hlinks'⟩
  | unshift x =>
    obtain rfl : memory = true := hend
    obtain ⟨pd', hunshift, hlinks'⟩ := hlinks.unshift x
    exact ⟨pd', by simpa [xlv2Call, trackCall, dequeCall, hasRoom_none] using hunshift, hlinks'⟩
  | pop data => exact hlinks.pop data memory hend
  | shift data => exact hlinks.shift data memory hend
  | front data => exact ⟨pd, hlinks.front data, hlinks⟩
  | rear data => exact ⟨pd, hlinks.rear data, hlinks⟩

/-- A call outside `EndLinked` goes wrong, or returns 0 for want of memory. -/
theorem xlv2Call_ne_of_not_endLinked (hlinks : Links pd track) (c : DequeCall α × Bool)
    (hend : ¬ EndLinked track c) (pd' : Xlv2 α) :
    xlv2Call pd c ≠ some ((trackCall track c).1, pd') := by
  obtain ⟨c, memory⟩ := c
  cases c with
  | push x =>
    obtain rfl : memory = false := by simpa [EndLinked] using hend
    simp [xlv2Call, xlv2Push_no_memory hlinks.freelist_eq, trackCall, dequeCall, hasRoom_none]
  | unshift x =>
    obtain rfl : memory = false := by simpa [EndLinked] using hend
    simp [xlv2Call, xlv2Unshift_no_memory hlinks.freelist_eq, trackCall, dequeCall, hasRoom_none]
  | pop data =>
    simp only [EndLinked, not_or, Nat.not_le, Nat.not_lt] at hend
    simp [xlv2Call, hlinks.pop_null hend.1 hend.2 data]
  | shift data =>
    simp only [EndLinked, not_or, Nat.not_le, Nat.not_lt, Nat.le_zero] at hend
    simp [xlv2Call, hlinks.shift_null hend.1 hend.2 data]
  | front data => exact absurd trivial hend
  | rear data => exact absurd trivial hend

end Calls

/-! ### Runs -/

/-- The linked list answers the calls as the unbounded deque does. -/
def AgreesWithDeque (pd : Xlv2 α) (calls : List (DequeCall α × Bool)) : Prop :=
  ∃ t, serve xlv2Call pd calls = some ((replies (dequeCall none) [] (calls.map Prod.fst)).1, t)

/-- The linked list answers the calls as every array does that is never full when it is called. -/
def AgreesWithArray (pd : Xlv2 α) (calls : List (DequeCall α × Bool)) : Prop :=
  ∀ (n : ℤ) (zero : α) (memory : Bool) (array : Xlv1 α),
    newXlist n zero memory = some (.array array) → NeverFull n.toNat [] (calls.map Prod.fst) →
    ∃ answers t t', serve xlv2Call pd calls = some (answers, t) ∧
      serve xlv1Call array (calls.map Prod.fst) = some (answers, t')

/-- The nodes that are linked from a pointer by `next`, at most `fuel` of them. -/
def chainFrom (heap : List (Node α)) : ℕ → Option ℕ → List ℕ
  | 0, _ => []
  | _ + 1, none => []
  | fuel + 1, some a => a :: chainFrom heap fuel (heap[a]?.bind Node.next)

/-- The nodes on the free list. -/
def freeNodes (pd : Xlv2 α) : List ℕ :=
  chainFrom pd.heap pd.heap.length pd.freelist

/-- Every node had from `malloc` holds an element or waits on the free list. -/
def Reusable (pd : Xlv2 α) : Prop :=
  pd.usecnt + (freeNodes pd).length = pd.heap.length

/-- After the calls, the released nodes can be used again. -/
def ReusesNodes (pd : Xlv2 α) (calls : List (DequeCall α × Bool)) : Prop :=
  ∀ answers t, serve xlv2Call pd calls = some (answers, t) → Reusable t

/-- The call takes no element out, and gets memory if it brings one. -/
def TakesNothing (track : Track α) (c : DequeCall α × Bool) : Prop :=
  EndLinked track c ∧ takesOut track c.1 = false

/-- The seam does not change the answers. -/
theorem replies_trackCall (track : Track α) (calls : List (DequeCall α × Bool)) :
    (replies trackCall track calls).1 =
      (replies (dequeCall none) track.items (calls.map Prod.fst)).1 := by
  induction calls generalizing track with
  | nil => rfl
  | cons c rest ih =>
    simp only [replies, List.map_cons, ih]
    rfl

/-- Nodes are released and never come back. -/
theorem released_le (track : Track α) (calls : List (DequeCall α × Bool)) :
    track.released ≤ (replies trackCall track calls).2.released := by
  induction calls generalizing track with
  | nil => exact Nat.le_refl _
  | cons c rest ih => exact Nat.le_trans (Nat.le_add_right _ _) (ih (trackCall track c).2)

/-- No node has been released exactly when no element was taken out. -/
theorem released_eq_iff (track : Track α) (calls : List (DequeCall α × Bool)) :
    (replies trackCall track calls).2.released = track.released ↔
      Along trackCall (fun track c ↦ takesOut track c.1 = false) track calls := by
  induction calls generalizing track with
  | nil => exact iff_of_true rfl trivial
  | cons c rest ih =>
    have hle := released_le (trackCall track c).2 rest
    have hnext : (trackCall track c).2.released =
        track.released + (takesOut track c.1).toNat := rfl
    simp only [replies, Along]
    cases htakes : takesOut track c.1 with
    | true =>
      rw [htakes, Bool.toNat_true] at hnext
      refine iff_of_false ?_ (by simp)
      omega
    | false =>
      rw [htakes, Bool.toNat_false, Nat.add_zero] at hnext
      rw [← hnext, ih]
      simp

/-- A new linked list is in step with the empty deque. -/
theorem links_of_newXlist {n : ℤ} {zero : α} {memory : Bool} {pd : Xlv2 α}
    (hnew : newXlist n zero memory = some (.linked pd)) : Links pd ⟨[], 0, 0⟩ := by
  unfold newXlist at hnew
  split_ifs at hnew with hmem hn hcalloc
  · cases hnew
    exact ⟨rfl, rfl, rfl, fun hne ↦ absurd rfl hne⟩
  · cases hnew

section Runs

variable {n : ℤ} {zero : α} {memory : Bool} {pd : Xlv2 α}

/-- The linked list answers as the deque exactly when every call is within `EndLinked`. -/
theorem agreesWithDeque_iff (hlinks : Links pd ⟨[], 0, 0⟩) (calls : List (DequeCall α × Bool)) :
    AgreesWithDeque pd calls ↔ Along trackCall EndLinked ⟨[], 0, 0⟩ calls := by
  have hiff : (∃ t, serve xlv2Call pd calls = some ((replies trackCall ⟨[], 0, 0⟩ calls).1, t)) ↔
      Along trackCall EndLinked ⟨[], 0, 0⟩ calls :=
    serve_eq_replies_iff (fun _ _ c hlinks ↦ xlv2Call_of_endLinked hlinks c)
      (fun _ _ c hlinks ↦ xlv2Call_ne_of_not_endLinked hlinks c) hlinks
  rwa [replies_trackCall] at hiff

/-- Where the linked list answers as the deque, it answers as every array that is never full. -/
theorem AgreesWithDeque.agreesWithArray {calls : List (DequeCall α × Bool)}
    (hagrees : AgreesWithDeque pd calls) : AgreesWithArray pd calls := by
  intro n zero memory array hnew hfull
  obtain ⟨t, hserve⟩ := hagrees
  obtain ⟨t', harray, -⟩ := serve_of_refines
    (fun _ _ c hrep ↦ xlv1Call_of_represents hrep c) (represents_of_newXlist hnew)
    (calls.map Prod.fst)
  rw [replies_of_never_full hfull] at harray
  exact ⟨_, t, t', hserve, harray⟩

/-- The free list is empty, so the nodes can be used again when none was released. -/
theorem Links.reusable_iff {track : Track α} (hlinks : Links pd track) :
    Reusable pd ↔ track.released = 0 := by
  have hfree : (freeNodes pd).length = 0 := by
    rw [freeNodes, hlinks.freelist_eq]
    cases pd.heap.length <;> rfl
  rw [Reusable, hfree, hlinks.usecnt_eq, hlinks.length_eq]
  omega

/-- The linked list answers as the unbounded deque exactly as long as the element that was put
into the empty list is not taken out while others stay. It also answers as every array that is
never full and keeps every released node for later use exactly as long as nothing is taken out at
all. -/
theorem xlv2_agrees_and_reuses_iff (hnew : newXlist n zero memory = some (.linked pd))
    (calls : List (DequeCall α × Bool)) :
    (AgreesWithDeque pd calls ↔ Along trackCall EndLinked ⟨[], 0, 0⟩ calls) ∧
    (AgreesWithDeque pd calls ∧ AgreesWithArray pd calls ∧ ReusesNodes pd calls ↔
      Along trackCall TakesNothing ⟨[], 0, 0⟩ calls) := by
  have hlinks := links_of_newXlist hnew
  have hagrees := agreesWithDeque_iff hlinks calls
  refine ⟨hagrees, ?_⟩
  have hreuses (halong : Along trackCall EndLinked ⟨[], 0, 0⟩ calls) :
      ReusesNodes pd calls ↔
        Along trackCall (fun track c ↦ takesOut track c.1 = false) ⟨[], 0, 0⟩ calls := by
    obtain ⟨t, hserve, hfinal⟩ :=
      serve_of_along (fun _ _ c hlinks ↦ xlv2Call_of_endLinked hlinks c) hlinks halong
    rw [← released_eq_iff, ← hfinal.reusable_iff]
    constructor
    · exact fun h ↦ h _ t hserve
    · intro h answers t' hserve'
      obtain ⟨-, rfl⟩ := Prod.mk.inj (Option.some.inj (hserve.symm.trans hserve'))
      exact h
  constructor
  · rintro ⟨hdeque, -, hnodes⟩
    have halong := hagrees.mp hdeque
    exact (along_and_iff _ calls).mpr ⟨halong, (hreuses halong).mp hnodes⟩
  · intro htakes
    obtain ⟨halong, hnothing⟩ := (along_and_iff _ calls).mp htakes
    have hdeque := hagrees.mpr halong
    exact ⟨hdeque, hdeque.agreesWithArray, (hreuses halong).mpr hnothing⟩

/-- Two elements put in and none taken out. -/
theorem xlv2_agrees_and_reuses_two :
    AgreesWithDeque (⟨[], none, none, none, 0⟩ : Xlv2 ℕ) [(.push 1, true), (.unshift 2, true)] := by
  have hnew : newXlist 0 (0 : ℕ) true = some (.linked ⟨[], none, none, none, 0⟩) := rfl
  refine ((xlv2_agrees_and_reuses_iff hnew [(.push 1, true), (.unshift 2, true)]).2.mpr ?_).1
  exact ⟨⟨rfl, rfl⟩, ⟨rfl, rfl⟩, trivial⟩

/-- Two elements pushed, then `shift`: the first node has no `next` link and the call goes
wrong. -/
theorem xlv2_shift_after_two_pushes :
    newXlist 0 (0 : ℕ) true = some (.linked ⟨[], none, none, none, 0⟩) ∧
    ¬ AgreesWithDeque (⟨[], none, none, none, 0⟩ : Xlv2 ℕ)
      [(.push 1, true), (.push 2, true), (.shift none, true)] := by
  refine ⟨rfl, ?_⟩
  rintro ⟨t, hserve⟩
  have hnone : serve xlv2Call (⟨[], none, none, none, 0⟩ : Xlv2 ℕ)
      [(.push 1, true), (.push 2, true), (.shift none, true)] = none := by decide
  exact Option.some_ne_none _ (hserve.symm.trans hnone)

end Runs

end Katmai.Xlist
