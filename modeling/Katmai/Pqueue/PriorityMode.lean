import Katmai.Foundation.CallRefinement
import Katmai.Pqueue.PriorityQueue

/-!
# With a callback the queue is a bounded priority queue only by luck

The purpose of the priority mode is a bag of at most `n` different integers from which the one that
sorts last is taken out (`bagCall`). The implementation should keep the bag in its first `use_cnt`
slots, sorted by the callback (`HoldsBag`).

A value that finds the queue neither empty nor full is written to slot `++use_cnt`, one behind the
slots that are then sorted. What joins the sorted slots is the old contents of slot `use_cnt`, a
zero of `calloc` or a value dequeued before. So the queue stays a priority queue exactly as long as
every such value is already in that slot (`NextSlotHolds`, `priority_refining_iff`).
-/

set_option autoImplicit false
set_option relaxedAutoImplicit false

namespace Katmai.Pqueue

open Foundation

/-! ### The abstract queue -/

/-- The value of a bag that sorts last: all others sort before it. -/
def lastOf (cmp : ℤ → ℤ → ℤ) (items : List ℤ) : Option ℤ :=
  items.find? fun x ↦ items.all fun y ↦ y = x ∨ cmp y x < 0

/-- A call to the bag of the values that have been enqueued and not yet dequeued: its answer, and
the bag after it. -/
def bagCall (cmp : ℤ → ℤ → ℤ) (n : ℕ) (items : List ℤ) : PqCall → ℤ × List ℤ
  | .enqueue v =>
    if v ∈ items then (1, items)
    else if items.length < n then (1, items ++ [v])
    else (0, items)
  | .dequeue _ =>
    match lastOf cmp items with
    | some x => (x, items.erase x)
    | none => (-1, items)

/-- The values of a set are enqueued, and a call waits only on a bag that is not empty. -/
def Within (S : Set ℤ) (items : List ℤ) : PqCall → Prop
  | .enqueue v => v ∈ S
  | .dequeue wait => wait = true → items ≠ []

/-- The value that sorts last in a bag whose sorted values end in `x`. -/
theorem lastOf_eq {cmp : ℤ → ℤ → ℤ} {S : Set ℤ} (hcmp : StrictTotalOn cmp S) {items before : List ℤ}
    {x : ℤ} (hitems : ∀ y ∈ items, y ∈ S) (hperm : (before ++ [x]).Perm items)
    (hasc : Ascending cmp (before ++ [x])) : lastOf cmp items = some x := by
  have hx : x ∈ items := hperm.mem_iff.mp (by simp)
  have hbelow (y : ℤ) (hy : y ∈ items) : y = x ∨ cmp y x < 0 := by
    rcases List.mem_append.mp (hperm.mem_iff.mpr hy) with hbefore | hlast
    · exact Or.inr ((List.pairwise_append.mp hasc).2.2 y hbefore x (List.mem_singleton_self x))
    · exact Or.inl (List.mem_singleton.mp hlast)
  have hsome : (lastOf cmp items).isSome := by
    rw [lastOf, List.find?_isSome]
    exact ⟨x, hx, by simpa using hbelow⟩
  obtain ⟨z, hz⟩ := Option.isSome_iff_exists.mp hsome
  have hzmem : z ∈ items := List.mem_of_find?_eq_some hz
  have hzlast : ∀ y ∈ items, y = z ∨ cmp y z < 0 := by
    simpa using List.find?_some hz
  rcases hzlast x hx with rfl | hxz
  · exact hz
  · rcases hbelow z hzmem with rfl | hzx
    · exact hz
    · have hflip := hcmp.lt_iff x (hitems x hx) z (hitems z hzmem)
      omega

/-! ### The array -/

/-- The values in the slots in use. -/
def PriorityQueue.held (self : PriorityQueue) : List ℤ :=
  self.queue.take self.useCnt

/-- The slots in use are sorted by the callback and hold exactly the values of the bag. -/
structure HoldsBag (cmp : ℤ → ℤ → ℤ) (pq : PriorityQueue) (items : List ℤ) : Prop where
  ascending : Ascending cmp pq.held
  perm : pq.held.Perm items

instance (cmp : ℤ → ℤ → ℤ) (pq : PriorityQueue) (items : List ℤ) :
    Decidable (HoldsBag cmp pq items) :=
  decidable_of_iff (Ascending cmp pq.held ∧ pq.held.Perm items)
    ⟨fun h ↦ ⟨h.1, h.2⟩, fun h ↦ ⟨h.ascending, h.perm⟩⟩

/-- What the calls keep besides: the shape of the object, and the origin of the values. -/
structure HoldsBagWithin (cmp : ℤ → ℤ → ℤ) (S : Set ℤ) (n : ℕ) (pq : PriorityQueue)
    (items : List ℤ) : Prop extends HoldsBag cmp pq items where
  callback_eq : pq.priorityCallback = some cmp
  count_eq : pq.count = n + 1
  length_eq : pq.queue.length = n + 1
  useCnt_le : pq.useCnt ≤ n
  mem : ∀ x ∈ items, x ∈ S

/-- A value that finds the queue neither empty nor full, and is not present, is already in the first
slot that is not in use. -/
def NextSlotHolds (self : PriorityQueue) : PqCall → Prop
  | .enqueue v =>
    self.useCnt = 0 ∨ v ∈ self.held ∨ self.count - 1 ≤ self.useCnt ∨
      self.queue[self.useCnt]? = some v
  | .dequeue _ => True

instance (self : PriorityQueue) (c : PqCall) : Decidable (NextSlotHolds self c) :=
  match c with
  | .enqueue v => inferInstanceAs (Decidable (self.useCnt = 0 ∨ v ∈ self.held ∨ _))
  | .dequeue _ => .isTrue trivial

namespace HoldsBagWithin

variable {cmp : ℤ → ℤ → ℤ} {S : Set ℤ} {n : ℕ} {pq : PriorityQueue} {items : List ℤ}

theorem length_held (hholds : HoldsBagWithin cmp S n pq items) : pq.held.length = pq.useCnt := by
  have hle := hholds.useCnt_le
  have hlen := hholds.length_eq
  rw [PriorityQueue.held, List.length_take]
  omega

theorem length_items (hholds : HoldsBagWithin cmp S n pq items) : items.length = pq.useCnt := by
  rw [← hholds.perm.length_eq, hholds.length_held]

theorem mem_held (hholds : HoldsBagWithin cmp S n pq items) : ∀ x ∈ pq.held, x ∈ S :=
  fun x hx ↦ hholds.mem x (hholds.perm.mem_iff.mp hx)

theorem nil_of_useCnt (hholds : HoldsBagWithin cmp S n pq items) (hzero : pq.useCnt = 0) :
    items = [] := by
  rw [← List.length_eq_zero_iff, hholds.length_items, hzero]

/-! ### `pq_enqueue` -/

/-- The first value goes to slot `0`. -/
theorem enqueue_first (hholds : HoldsBagWithin cmp S n pq items) (hn : 1 ≤ n)
    (hzero : pq.useCnt = 0) (v : ℤ) : Agrees pqCall (bagCall cmp n) (HoldsBag cmp) pq items
      (.enqueue v) := by
  have hin : 0 < pq.queue.length := by
    rw [hholds.length_eq]
    exact Nat.succ_pos n
  have hspec : bagCall cmp n items (.enqueue v) = (1, [v]) := by
    simp [bagCall, hholds.nil_of_useCnt hzero, Nat.lt_of_lt_of_le Nat.zero_lt_one hn]
  rw [Agrees, hspec]
  refine ⟨{ pq with queue := pq.queue.set 0 v, useCnt := 1 }, ?_, ?_⟩
  · simp [pqCall, pqEnqueue, hholds.callback_eq, enqueuePriority, hzero, PriorityQueue.store, hin]
  · have hheld : { pq with queue := pq.queue.set 0 v, useCnt := 1 }.held = [v] := by
      rcases hqueue : pq.queue with _ | ⟨first, rest⟩
      · simp [hqueue] at hin
      · simp [PriorityQueue.held]
    exact ⟨hheld ▸ List.pairwise_singleton _ v, hheld ▸ List.Perm.refl _⟩

/-- A value that is present is found and leaves the queue as it is. -/
theorem enqueue_present (hholds : HoldsBagWithin cmp S n pq items) (hcmp : StrictTotalOn cmp S)
    {v : ℤ} (hv : v ∈ S) (hmem : v ∈ pq.held) :
    Agrees pqCall (bagCall cmp n) (HoldsBag cmp) pq items (.enqueue v) := by
  have hpos : pq.useCnt ≠ 0 := by
    rw [← hholds.length_held]
    exact (List.length_pos_of_mem hmem).ne'
  have hfound : bsearch cmp v (pq.queue.take pq.useCnt) = some true := by
    rw [← PriorityQueue.held, hcmp.bsearch_eq hholds.mem_held hv hholds.ascending]
    simp [hmem]
  have hspec : bagCall cmp n items (.enqueue v) = (1, items) := by
    simp [bagCall, hholds.perm.mem_iff.mp hmem]
  rw [Agrees, hspec]
  refine ⟨pq, ?_, hholds.toHoldsBag⟩
  simp [pqCall, pqEnqueue, hholds.callback_eq, enqueuePriority, hpos, hfound]

section New

variable {v : ℤ}

/-- `bsearch` does not find a new value. -/
theorem bsearch_new (hholds : HoldsBagWithin cmp S n pq items) (hcmp : StrictTotalOn cmp S)
    (hv : v ∈ S) (hnew : v ∉ pq.held) :
    bsearch cmp v (pq.queue.take pq.useCnt) = some false := by
  rw [← PriorityQueue.held, hcmp.bsearch_eq hholds.mem_held hv hholds.ascending]
  simp [hnew]

/-- A new value that finds the queue full is refused. -/
theorem enqueue_full (hholds : HoldsBagWithin cmp S n pq items) (hcmp : StrictTotalOn cmp S)
    (hv : v ∈ S) (hpos : pq.useCnt ≠ 0) (hnew : v ∉ pq.held) (hfull : pq.count - 1 ≤ pq.useCnt) :
    Agrees pqCall (bagCall cmp n) (HoldsBag cmp) pq items (.enqueue v) := by
  have hlen : ¬ items.length < n := by
    have hcount := hholds.count_eq
    rw [hholds.length_items]
    omega
  have hspec : bagCall cmp n items (.enqueue v) = (0, items) := by
    simp [bagCall, mt hholds.perm.mem_iff.mpr hnew, hlen]
  rw [Agrees, hspec]
  refine ⟨pq, ?_, hholds.toHoldsBag⟩
  simp [pqCall, pqEnqueue, hholds.callback_eq, enqueuePriority, hpos,
    hholds.bsearch_new hcmp hv hnew, hfull]

/-- The slots that are sorted after a new value is stored: those in use and the next one, which
keeps its old contents. -/
theorem take_store {stale : ℤ} (hstale : pq.queue[pq.useCnt]? = some stale) (v : ℤ) :
    (pq.queue.set (pq.useCnt + 1) v).take (pq.useCnt + 1) = pq.held ++ [stale] := by
  rw [List.take_set_of_le (Nat.le_refl _), List.take_add_one, hstale, Option.toList_some,
    PriorityQueue.held]

/-- `pq_enqueue` of a new value that finds the queue neither empty nor full. -/
theorem enqueue_new (hholds : HoldsBagWithin cmp S n pq items) (hcmp : StrictTotalOn cmp S)
    (hv : v ∈ S) (hpos : pq.useCnt ≠ 0) (hnew : v ∉ pq.held) (hroom : pq.useCnt < n) {stale : ℤ}
    (hstale : pq.queue[pq.useCnt]? = some stale) :
    pqCall pq (.enqueue v) = (qsort cmp (pq.held ++ [stale])).map fun sorted ↦ (1, { pq with
      queue := sorted ++ (pq.queue.set (pq.useCnt + 1) v).drop (pq.useCnt + 1)
      useCnt := pq.useCnt + 1 }) := by
  have hcount : pq.useCnt < pq.count - 1 := by
    rw [hholds.count_eq]
    exact hroom
  have hin : pq.useCnt + 1 < pq.queue.length := by
    rw [hholds.length_eq]
    omega
  have hcall : pqCall pq (.enqueue v) = enqueuePriority pq cmp v := by
    rw [pqCall, pqEnqueue, hholds.callback_eq]
  rw [hcall, ← take_store hstale v]
  simp only [enqueuePriority, hpos, if_false, hholds.bsearch_new hcmp hv hnew,
    Option.bind_eq_bind, Option.bind_some, Bool.false_eq_true, hcount, if_true,
    PriorityQueue.store, hin]
  cases qsort cmp ((pq.queue.set (pq.useCnt + 1) v).take (pq.useCnt + 1)) <;> rfl

/-- A new value that finds the queue neither empty nor full joins the bag exactly if it is in the
next slot already. -/
theorem agrees_enqueue_new (hholds : HoldsBagWithin cmp S n pq items) (hcmp : StrictTotalOn cmp S)
    (hv : v ∈ S) (hpos : pq.useCnt ≠ 0) (hnew : v ∉ pq.held) (hroom : pq.useCnt < n) :
    Agrees pqCall (bagCall cmp n) (HoldsBag cmp) pq items (.enqueue v) ↔
      pq.queue[pq.useCnt]? = some v := by
  have hin : pq.useCnt < pq.queue.length := by
    rw [hholds.length_eq]
    omega
  obtain ⟨stale, hstale⟩ : ∃ stale, pq.queue[pq.useCnt]? = some stale :=
    ⟨_, List.getElem?_eq_getElem hin⟩
  have hspec : bagCall cmp n items (.enqueue v) = (1, items ++ [v]) := by
    simp [bagCall, mt hholds.perm.mem_iff.mpr hnew, hholds.length_items, hroom]
  have hheld (sorted : List ℤ) (hlen : sorted.length = pq.useCnt + 1) :
      { pq with
        queue := sorted ++ (pq.queue.set (pq.useCnt + 1) v).drop (pq.useCnt + 1)
        useCnt := pq.useCnt + 1 }.held = sorted := by
    rw [PriorityQueue.held, ← hlen, List.take_left']
    rfl
  have hlength : (pq.held ++ [stale]).length = pq.useCnt + 1 := by
    rw [List.length_append, hholds.length_held, List.length_singleton]
  rw [Agrees, hspec, hholds.enqueue_new hcmp hv hpos hnew hroom hstale, hstale,
    Option.some.injEq]
  constructor
  · rintro ⟨pq', hcall, hbag⟩
    obtain ⟨sorted, hsort, heq⟩ := Option.map_eq_some_iff.mp hcall
    rw [Prod.mk.injEq] at heq
    rw [← heq.2] at hbag
    have hsorted := perm_of_qsort hsort
    have hbagPerm := hbag.perm
    rw [hheld sorted (hsorted.length_eq.trans hlength)] at hbagPerm
    have hcancel : (pq.held ++ [stale]).Perm (pq.held ++ [v]) :=
      hsorted.symm.trans (hbagPerm.trans (hholds.perm.symm.append_right [v]))
    simpa using (List.perm_append_left_iff pq.held).mp hcancel
  · rintro rfl
    have hmem : ∀ x ∈ pq.held ++ [stale], x ∈ S := by
      intro x hx
      rcases List.mem_append.mp hx with hx | hx
      · exact hholds.mem_held x hx
      · exact List.mem_singleton.mp hx ▸ hv
    have hnodup : (pq.held ++ [stale]).Nodup :=
      (hcmp.nodup_of_ascending hholds.mem_held hholds.ascending).append
        (List.nodup_singleton stale) (List.disjoint_singleton.mpr hnew)
    obtain ⟨sorted, hsort⟩ : ∃ sorted, qsort cmp (pq.held ++ [stale]) = some sorted :=
      ⟨_, if_pos (hcmp.consistentOn hmem)⟩
    have hperm := perm_of_qsort hsort
    rw [hsort]
    refine ⟨_, rfl, ?_, ?_⟩
    · rw [hheld sorted (hperm.length_eq.trans hlength)]
      exact hcmp.ascending_of_qsort hmem hnodup hsort
    · rw [hheld sorted (hperm.length_eq.trans hlength)]
      exact hperm.trans (hholds.perm.append_right [stale])

end New

/-! ### `pq_dequeue` -/

/-- A dequeue that does not wait in vain hands out the value that sorts last. -/
theorem agrees_dequeue (hholds : HoldsBagWithin cmp S n pq items) (hcmp : StrictTotalOn cmp S)
    {wait : Bool} (hwait : wait = true → items ≠ []) :
    Agrees pqCall (bagCall cmp n) (HoldsBag cmp) pq items (.dequeue wait) := by
  rcases Nat.eq_zero_or_pos pq.useCnt with hzero | hpos
  · have hitems := hholds.nil_of_useCnt hzero
    obtain rfl : wait = false := by
      by_contra hne
      exact hwait (by simpa using hne) hitems
    have hspec : bagCall cmp n items (.dequeue false) = (-1, items) := by
      simp [bagCall, lastOf, hitems]
    rw [Agrees, hspec]
    exact ⟨pq, by simp [pqCall, pqDequeue, hzero], hholds.toHoldsBag⟩
  · have hne : pq.held ≠ [] := by
      rw [← List.length_pos_iff, hholds.length_held]
      exact hpos
    have hsplit := List.dropLast_append_getLast hne
    have hlast : pq.queue[pq.useCnt - 1]? = some (pq.held.getLast hne) := by
      rw [← List.getLast?_eq_some_getLast hne, List.getLast?_eq_getElem?, hholds.length_held,
        PriorityQueue.held, List.getElem?_take_of_lt (by omega)]
    have hheld : { pq with useCnt := pq.useCnt - 1 }.held = pq.held.dropLast := by
      have hlen := hholds.length_eq
      have hle := hholds.useCnt_le
      rw [PriorityQueue.held, PriorityQueue.held, List.dropLast_take (by omega)]
    have hasc := hholds.ascending
    have hperm := hholds.perm
    rw [← hsplit] at hasc hperm
    have hspec : bagCall cmp n items (.dequeue wait) =
        (pq.held.getLast hne, items.erase (pq.held.getLast hne)) := by
      rw [bagCall, lastOf_eq hcmp hholds.mem hperm hasc]
    rw [Agrees, hspec]
    refine ⟨{ pq with useCnt := pq.useCnt - 1 }, ?_, ?_, ?_⟩
    · simp [pqCall, pqDequeue, hpos.ne', hholds.callback_eq, hlast]
    · rw [hheld]
      exact (List.pairwise_append.mp hasc).1
    · rw [hheld]
      have hcons : (pq.held.getLast hne :: pq.held.dropLast).Perm items :=
        (List.perm_append_singleton _ _).symm.trans hperm
      simpa using hcons.erase (pq.held.getLast hne)

end HoldsBagWithin

/-! ### Lists of calls -/

section Calls

variable {cmp : ℤ → ℤ → ℤ} {S : Set ℤ} {n : ℕ} {pq : PriorityQueue} {items : List ℤ}

/-- A call keeps the array in step with the bag exactly when it meets the condition. -/
theorem agrees_iff_nextSlotHolds (hcmp : StrictTotalOn cmp S) (hn : 1 ≤ n)
    (hholds : HoldsBagWithin cmp S n pq items) {c : PqCall} (hc : Within S items c) :
    Agrees pqCall (bagCall cmp n) (HoldsBag cmp) pq items c ↔ NextSlotHolds pq c := by
  cases c with
  | dequeue wait => exact iff_of_true (hholds.agrees_dequeue hcmp hc) trivial
  | enqueue v =>
    have hcount := hholds.count_eq
    by_cases hzero : pq.useCnt = 0
    · exact iff_of_true (hholds.enqueue_first hn hzero v) (Or.inl hzero)
    · by_cases hmem : v ∈ pq.held
      · exact iff_of_true (hholds.enqueue_present hcmp hc hmem) (Or.inr (Or.inl hmem))
      · by_cases hroom : pq.useCnt < n
        · have hnotFull : ¬ pq.count - 1 ≤ pq.useCnt := by omega
          simpa [NextSlotHolds, hzero, hmem, hnotFull] using
            hholds.agrees_enqueue_new hcmp hc hzero hmem hroom
        · have hfull : pq.count - 1 ≤ pq.useCnt := by omega
          exact iff_of_true (hholds.enqueue_full hcmp hc hzero hmem hfull)
            (Or.inr (Or.inr (Or.inl hfull)))

/-- A store leaves the size of the array and the other fields as they are. -/
theorem store_eq_some {pq' : PriorityQueue} {i : ℕ} {v : ℤ} (hstore : pq.store i v = some pq') :
    pq' = { pq with queue := pq.queue.set i v } := by
  unfold PriorityQueue.store at hstore
  split at hstore
  · exact (Option.some.inj hstore).symm
  · cases hstore

/-- What no call changes: the callback, and the size of the array. -/
theorem shape_of_pqCall {pq' : PriorityQueue} {c : PqCall} {rc : ℤ} (hn : 1 ≤ n)
    (hholds : HoldsBagWithin cmp S n pq items) (hcall : pqCall pq c = some (rc, pq')) :
    pq'.priorityCallback = some cmp ∧ pq'.count = n + 1 ∧ pq'.queue.length = n + 1 ∧
      pq'.useCnt ≤ n := by
  obtain ⟨-, hcallback, hcount, hlength, huse, -⟩ := hholds
  cases c with
  | dequeue wait =>
    rw [pqCall, pqDequeue, hcallback] at hcall
    split_ifs at hcall
    · obtain ⟨-, rfl⟩ := Prod.mk.inj (Option.some.inj hcall)
      exact ⟨hcallback, hcount, hlength, huse⟩
    · obtain ⟨x, -, heq⟩ := Option.bind_eq_some_iff.mp hcall
      obtain ⟨-, rfl⟩ := Prod.mk.inj (Option.some.inj heq)
      exact ⟨rfl, hcount, hlength, (Nat.sub_le _ _).trans huse⟩
  | enqueue v =>
    rw [pqCall, pqEnqueue, hcallback] at hcall
    change enqueuePriority pq cmp v = some (rc, pq') at hcall
    unfold enqueuePriority at hcall
    split_ifs at hcall with hzero hroom
    · obtain ⟨stored, hstore, heq⟩ := Option.bind_eq_some_iff.mp hcall
      obtain rfl := store_eq_some hstore
      obtain ⟨-, rfl⟩ := Prod.mk.inj (Option.some.inj heq)
      refine ⟨hcallback, hcount, by simpa using hlength, ?_⟩
      change pq.useCnt + 1 ≤ n
      omega
    · obtain ⟨found, -, hrest⟩ := Option.bind_eq_some_iff.mp hcall
      split_ifs at hrest
      · obtain ⟨-, rfl⟩ := Prod.mk.inj (Option.some.inj hrest)
        exact ⟨hcallback, hcount, hlength, huse⟩
      · obtain ⟨stored, hstore, hsort⟩ := Option.bind_eq_some_iff.mp hrest
        obtain ⟨sorted, hsorted, heq⟩ := Option.bind_eq_some_iff.mp hsort
        obtain rfl := store_eq_some hstore
        obtain ⟨-, rfl⟩ := Prod.mk.inj (Option.some.inj heq)
        refine ⟨hcallback, hcount, ?_, ?_⟩
        · rw [List.length_append, (perm_of_qsort hsorted).length_eq, ← List.length_append,
            List.take_append_drop, List.length_set, hlength]
        · change pq.useCnt + 1 ≤ n
          omega
    · obtain ⟨found, -, hrest⟩ := Option.bind_eq_some_iff.mp hcall
      split_ifs at hrest <;>
      · obtain ⟨-, rfl⟩ := Prod.mk.inj (Option.some.inj hrest)
        exact ⟨hcallback, hcount, hlength, huse⟩

/-- The values of the bag after a call are of the set that the calls draw from. -/
theorem mem_bagCall (hitems : ∀ x ∈ items, x ∈ S) {c : PqCall} (hc : Within S items c) :
    ∀ x ∈ (bagCall cmp n items c).2, x ∈ S := by
  cases c with
  | enqueue v =>
    simp only [bagCall]
    split_ifs
    · exact hitems
    · intro x hx
      rcases List.mem_append.mp hx with hx | hx
      · exact hitems x hx
      · exact List.mem_singleton.mp hx ▸ hc
    · exact hitems
  | dequeue wait =>
    simp only [bagCall]
    split
    · exact fun x hx ↦ hitems x (List.mem_of_mem_erase hx)
    · exact hitems

/-- A new queue with a callback holds the empty bag. -/
theorem holdsBagWithin_newPriorityQueue (cmp : ℤ → ℤ → ℤ) (S : Set ℤ) (n : ℕ) :
    HoldsBagWithin cmp S n (newPriorityQueue n (some cmp)) [] where
  ascending := List.Pairwise.nil
  perm := List.Perm.nil
  callback_eq := rfl
  count_eq := rfl
  length_eq := List.length_replicate
  useCnt_le := Nat.zero_le n
  mem := by simp

end Calls

/-- Every call of a list to a new queue with a callback that orders the enqueued values strictly and
totally is answered as the bounded priority queue answers it, and leaves its values sorted in the
array, exactly when each new value that finds the queue neither empty nor full is already in the
next slot. -/
theorem priority_refining_iff {cmp : ℤ → ℤ → ℤ} {S : Set ℤ} (hcmp : StrictTotalOn cmp S) {n : ℕ}
    (hn : 1 ≤ n) {calls : List PqCall} (hcalls : Along (bagCall cmp n) (Within S) [] calls) :
    Refining pqCall (bagCall cmp n) (HoldsBag cmp) (newPriorityQueue n (some cmp)) [] calls ↔
      Meets (callStep pqCall) NextSlotHolds (newPriorityQueue n (some cmp)) calls := by
  refine refining_iff_meets
    (fun pq items c (hholds : HoldsBagWithin cmp S n pq items) hc ↦
      agrees_iff_nextSlotHolds hcmp hn hholds hc) ?_
    (holdsBagWithin_newPriorityQueue cmp S n) hcalls
  intro pq items c pq' hholds hc hcall hbag
  obtain ⟨hcallback, hcount, hlength, huse⟩ := shape_of_pqCall hn hholds hcall
  exact ⟨hbag, hcallback, hcount, hlength, huse, mem_bagCall hholds.mem hc⟩

/-- The theorem on a queue of two integers in ascending order: zero is in the next slot when it is
enqueued as the second value. -/
theorem priority_refining_iff_zero :
    Refining pqCall (bagCall (fun i j ↦ i - j) 2) (HoldsBag fun i j ↦ i - j)
      (newPriorityQueue 2 (some fun i j ↦ i - j)) [] [.enqueue 7, .enqueue 0, .dequeue false] := by
  have hcmp : StrictTotalOn (fun i j : ℤ ↦ i - j) Set.univ :=
    ⟨fun a _ b _ ↦ by omega, fun a _ b _ ↦ by omega, fun a _ b _ c _ ↦ by omega⟩
  have hcalls : Along (bagCall (fun i j ↦ i - j) 2) (Within Set.univ) []
      [.enqueue 7, .enqueue 0, .dequeue false] := by
    simp [Along, Within]
  exact (priority_refining_iff hcmp (by decide) hcalls).mpr (by decide)

/-- On a new queue of two integers in ascending order, `5` and then `7` are enqueued: both calls
return `1`, but the queue holds `0` and `5`, and the value that a dequeue hands out is `5`. -/
theorem second_value_is_lost :
    ¬ Refining pqCall (bagCall (fun i j ↦ i - j) 2) (HoldsBag fun i j ↦ i - j)
        (newPriorityQueue 2 (some fun i j ↦ i - j)) [] [.enqueue 5, .enqueue 7] ∧
      (serve pqCall (newPriorityQueue 2 (some fun i j ↦ i - j))
        [.enqueue 5, .enqueue 7, .dequeue false, .dequeue false]).map Prod.fst =
          some [1, 1, 5, 0] := by
  decide

end Katmai.Pqueue
