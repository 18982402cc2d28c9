import Mathlib.Data.List.Perm.Subperm
import Mathlib.Data.List.Range

/-!
# Linked lists in memory

Memory is a list of cells, addressed by position; a cell that was released holds nothing, and no
address is given out twice. A pointer is an address or `none`, and to follow a pointer that is
`none` or points to a released cell has no result.

`LinkPath next cells p nodes q` says that the links lead from `p` through `nodes`, each given with
its address and contents, to `q`. Paths are joined and cut at any place (`linkPath_append`),
survive every change of memory elsewhere (`LinkPath.frame`), and to the end of a list they visit no
cell twice (`LinkPath.nodup`). A walk along the links is a search of the nodes (`seek_eq_find`).
-/

set_option autoImplicit false
set_option relaxedAutoImplicit false

namespace Katmai.Foundation

variable {ν : Type*}

/-! ### Cells -/

/-- The cells of a memory, those released being empty. -/
abbrev Cells (ν : Type*) := List (Option ν)

namespace Cells

/-- The cell a pointer points to. -/
def load (cells : Cells ν) (p : Option ℕ) : Option ν :=
  p.bind fun a ↦ cells[a]?.join

/-- A new cell; its address is the number of the cells before. -/
def alloc (cells : Cells ν) (node : ν) : Cells ν := cells ++ [some node]

/-- An assignment through a pointer. -/
def update (cells : Cells ν) (p : Option ℕ) (f : ν → ν) : Option (Cells ν) :=
  p.bind fun a ↦ (cells.load (some a)).map fun node ↦ cells.set a (some (f node))

/-- A cell is released. -/
def release (cells : Cells ν) (p : Option ℕ) : Cells ν :=
  match p with
  | none => cells
  | some a => cells.set a none

variable {cells cells' : Cells ν} {a b : ℕ} {p : Option ℕ} {node : ν} {f : ν → ν}

@[simp] theorem load_none (cells : Cells ν) : cells.load none = none := rfl

theorem lt_of_load (hload : cells.load (some a) = some node) : a < cells.length := by
  by_contra hge
  have hnone : cells[a]? = none := List.getElem?_eq_none_iff.mpr (Nat.le_of_not_lt hge)
  simp [load, hnone] at hload

@[simp] theorem length_alloc (cells : Cells ν) (node : ν) :
    (cells.alloc node).length = cells.length + 1 := by
  simp [alloc]

theorem load_alloc_self (cells : Cells ν) (node : ν) :
    (cells.alloc node).load (some cells.length) = some node := by
  simp [load, alloc]

/-- A new cell leaves the others as they are. -/
theorem load_alloc_of_load (hload : cells.load p = some node) (new : ν) :
    (cells.alloc new).load p = some node := by
  cases p with
  | none => simp at hload
  | some a =>
    have hlt := lt_of_load hload
    rw [← hload]
    simp [load, alloc, List.getElem?_append_left hlt]

/-- No new cell is where a pointer to nothing points, unless at the new address. -/
theorem load_alloc_ne (hne : a ≠ cells.length) (new : ν) :
    (cells.alloc new).load (some a) = cells.load (some a) := by
  rcases Nat.lt_or_ge a cells.length with hlt | hge
  · simp [load, alloc, List.getElem?_append_left hlt]
  · have hbeyond : (cells ++ [some new]).length ≤ a := by
      simp only [List.length_append, List.length_singleton]
      omega
    simp [load, alloc, List.getElem?_eq_none_iff.mpr hge, List.getElem?_eq_none_iff.mpr hbeyond]

theorem update_of_load (hload : cells.load (some a) = some node) :
    cells.update (some a) f = some (cells.set a (some (f node))) := by
  simp [update, hload]

theorem update_eq_none (hload : cells.load p = none) : cells.update p f = none := by
  cases p with
  | none => rfl
  | some a => simp [update, hload]

theorem load_set_self (hlt : a < cells.length) (content : Option ν) :
    load (cells.set a content) (some a) = content := by
  simp [load, List.getElem?_set_self hlt]

theorem load_set_ne (hne : a ≠ b) (content : Option ν) :
    load (cells.set a content) (some b) = cells.load (some b) := by
  simp [load, List.getElem?_set_ne hne]

theorem load_update_ne (hupdate : cells.update p f = some cells') (hne : p ≠ some a) :
    cells'.load (some a) = cells.load (some a) := by
  obtain ⟨b, rfl, hb⟩ := Option.bind_eq_some_iff.mp hupdate
  obtain ⟨node, -, rfl⟩ := Option.map_eq_some_iff.mp hb
  exact load_set_ne (fun heq ↦ hne (congrArg some heq)) _

/-- A released cell cannot be followed. -/
theorem load_release_self (cells : Cells ν) (a : ℕ) :
    (cells.release (some a)).load (some a) = none := by
  rcases Nat.lt_or_ge a cells.length with hlt | hge
  · exact load_set_self hlt none
  · have hbeyond : (cells.set a none)[a]? = none := by
      rw [List.getElem?_eq_none_iff, List.length_set]
      exact hge
    simp only [release, load, Option.bind_some, hbeyond, Option.join_none]

theorem load_release_ne (hne : a ≠ b) :
    (cells.release (some a)).load (some b) = cells.load (some b) :=
  load_set_ne hne none

end Cells

/-! ### Paths -/

/-- The links lead from `p` through the nodes to `q`. -/
def LinkPath (next : ν → Option ℕ) (cells : Cells ν) : Option ℕ → List (ℕ × ν) → Option ℕ → Prop
  | p, [], q => p = q
  | p, (a, node) :: rest, q =>
    p = some a ∧ cells.load (some a) = some node ∧ LinkPath next cells (next node) rest q

variable {next : ν → Option ℕ} {cells cells' : Cells ν} {p q : Option ℕ}
  {nodes first second : List (ℕ × ν)} {a : ℕ} {node : ν}

theorem linkPath_append :
    LinkPath next cells p (first ++ second) q ↔
      ∃ r, LinkPath next cells p first r ∧ LinkPath next cells r second q := by
  induction first generalizing p with
  | nil => simp [LinkPath]
  | cons item first ih =>
    obtain ⟨a, node⟩ := item
    simp only [List.cons_append, LinkPath, ih]
    constructor
    · rintro ⟨hp, hload, r, hfirst, hsecond⟩
      exact ⟨r, ⟨hp, hload, hfirst⟩, hsecond⟩
    · rintro ⟨r, ⟨hp, hload, hfirst⟩, hsecond⟩
      exact ⟨hp, hload, r, hfirst, hsecond⟩

/-- A path with a node behind it. -/
theorem linkPath_concat :
    LinkPath next cells p (first ++ [(a, node)]) q ↔
      LinkPath next cells p first (some a) ∧ cells.load (some a) = some node ∧ next node = q := by
  rw [linkPath_append]
  constructor
  · rintro ⟨r, hfirst, rfl, hload, hq⟩
    exact ⟨hfirst, hload, hq⟩
  · rintro ⟨hfirst, hload, hq⟩
    exact ⟨some a, hfirst, rfl, hload, hq⟩

theorem LinkPath.load_of_mem (hseg : LinkPath next cells p nodes q) {item : ℕ × ν}
    (hitem : item ∈ nodes) : cells.load (some item.1) = some item.2 := by
  induction nodes generalizing p with
  | nil => cases hitem
  | cons head nodes ih =>
    obtain ⟨-, hload, hrest⟩ := hseg
    rcases List.mem_cons.mp hitem with rfl | hmem
    · exact hload
    · exact ih hrest hmem

/-- A path survives a change of memory that keeps its cells. -/
theorem LinkPath.frame (hseg : LinkPath next cells p nodes q)
    (hsame : ∀ item ∈ nodes, cells'.load (some item.1) = cells.load (some item.1)) :
    LinkPath next cells' p nodes q := by
  induction nodes generalizing p with
  | nil => exact hseg
  | cons head nodes ih =>
    obtain ⟨hp, hload, hrest⟩ := hseg
    exact ⟨hp, (hsame head (by simp)).trans hload,
      ih hrest fun item hitem ↦ hsame item (by simp [hitem])⟩

/-- From a pointer the links lead to the end of the list in one way. -/
theorem LinkPath.unique (hfirst : LinkPath next cells p first none)
    (hsecond : LinkPath next cells p second none) : first = second := by
  induction first generalizing p second with
  | nil =>
    cases second with
    | nil => rfl
    | cons item second =>
      obtain rfl : p = none := hfirst
      cases hsecond.1
  | cons item first ih =>
    obtain ⟨hp, hload, hrest⟩ := hfirst
    cases second with
    | nil =>
      rw [show p = none from hsecond] at hp
      cases hp
    | cons item' second =>
      obtain ⟨hp', hload', hrest'⟩ := hsecond
      obtain ⟨a, node⟩ := item
      obtain ⟨a', node'⟩ := item'
      obtain rfl : a = a' := Option.some.inj (hp.symm.trans hp')
      obtain rfl : node = node' := Option.some.inj (hload.symm.trans hload')
      rw [ih hrest hrest']

/-- The links start at the first node. -/
theorem LinkPath.start_eq (hseg : LinkPath next cells p nodes none) :
    p = (nodes.map Prod.fst).head? := by
  cases nodes with
  | nil => exact hseg
  | cons item nodes => exact hseg.1

/-- The link of a node leads to the next one. -/
theorem LinkPath.next_eq (hseg : LinkPath next cells p nodes none) {i : ℕ}
    (hitem : nodes[i]? = some (a, node)) : next node = (nodes.map Prod.fst)[i + 1]? := by
  induction nodes generalizing p i with
  | nil => cases hitem
  | cons item nodes ih =>
    obtain ⟨-, -, hrest⟩ := hseg
    cases i with
    | zero =>
      obtain rfl : item = (a, node) := by simpa using hitem
      rw [hrest.start_eq, List.map_cons, List.getElem?_cons_succ, List.head?_eq_getElem?]
    | succ i => exact ih hrest (by simpa using hitem)

/-- A list that ends visits no cell twice. -/
theorem LinkPath.nodup (hseg : LinkPath next cells p nodes none) : (nodes.map Prod.fst).Nodup := by
  induction nodes generalizing p with
  | nil => exact List.nodup_nil
  | cons item nodes ih =>
    refine List.nodup_cons.mpr ⟨fun hmem ↦ ?_, ih hseg.2.2⟩
    obtain ⟨item', hitem', hfst⟩ := List.mem_map.mp hmem
    obtain ⟨before, after, rfl⟩ := List.append_of_mem hitem'
    obtain ⟨r, -, hlater⟩ := linkPath_append.mp hseg.2.2
    have hstart : p = r := by rw [hseg.1, hlater.1, hfst]
    have hsame := LinkPath.unique (hstart ▸ hseg) hlater
    have hlength := congrArg List.length hsame
    simp at hlength
    omega

/-- A list that ends has no more nodes than there are cells. -/
theorem LinkPath.length_le (hseg : LinkPath next cells p nodes none) :
    nodes.length ≤ cells.length := by
  have hsub : nodes.map Prod.fst ⊆ List.range cells.length := by
    intro a ha
    obtain ⟨item, hitem, rfl⟩ := List.mem_map.mp ha
    exact List.mem_range.mpr (Cells.lt_of_load (hseg.load_of_mem hitem))
  have hle := (hseg.nodup.subperm hsub).length_le
  rwa [List.length_map, List.length_range] at hle

/-- A node after an assignment through a pointer to `a`. -/
def touch (a : ℕ) (f : ν → ν) (item : ℕ × ν) : ℕ × ν :=
  if item.1 = a then (a, f item.2) else item

@[simp] theorem touch_fst (f : ν → ν) (item : ℕ × ν) : (touch a f item).1 = item.1 := by
  unfold touch
  split_ifs with ha
  · exact ha.symm
  · rfl

theorem touch_of_ne {f : ν → ν} {item : ℕ × ν} (hne : item.1 ≠ a) : touch a f item = item :=
  if_neg hne

theorem touch_self (f : ν → ν) (node : ν) : touch a f (a, node) = (a, f node) :=
  if_pos rfl

/-- What an assignment leaves of every node it leaves of all nodes. -/
theorem apply_touch {β : Type*} (g : ℕ × ν → β) (f : ν → ν)
    (hg : ∀ b node, g (b, f node) = g (b, node)) (item : ℕ × ν) : g (touch a f item) = g item := by
  unfold touch
  split_ifs with ha
  · exact ha ▸ hg item.1 item.2
  · rfl

/-- The same of a list of nodes. -/
theorem map_touch {β : Type*} (g : ℕ × ν → β) (f : ν → ν)
    (hg : ∀ b node, g (b, f node) = g (b, node)) (nodes : List (ℕ × ν)) :
    (nodes.map (touch a f)).map g = nodes.map g := by
  rw [List.map_map]
  exact List.map_congr_left fun item _ ↦ apply_touch g f hg item

/-- The last node keeps its address. -/
theorem getLast?_touch (f : ν → ν) (nodes : List (ℕ × ν)) :
    (nodes.map (touch a f)).getLast?.map Prod.fst = nodes.getLast?.map Prod.fst := by
  rw [List.getLast?_map, Option.map_map]
  exact congrArg (Option.map · _) (funext fun item ↦ touch_fst f item)

theorem map_touch_of_notMem (f : ν → ν) (ha : a ∉ nodes.map Prod.fst) :
    nodes.map (touch a f) = nodes := by
  refine (List.map_congr_left fun item hitem ↦ touch_of_ne fun heq ↦ ha ?_).trans
    (List.map_id nodes)
  exact heq ▸ List.mem_map_of_mem hitem

/-- An assignment to a field that is not the link changes the nodes and no links. -/
theorem LinkPath.touch {f : ν → ν} (hf : ∀ node, next (f node) = next node)
    (hseg : LinkPath next cells p nodes q) (hload : cells.load (some a) = some node) :
    LinkPath next (cells.set a (some (f node))) p (nodes.map (Foundation.touch a f)) q := by
  induction nodes generalizing p with
  | nil => exact hseg
  | cons item nodes ih =>
    obtain ⟨hp, hitem, hrest⟩ := hseg
    by_cases ha : item.1 = a
    · obtain rfl : item.2 = node := Option.some.inj ((ha ▸ hitem).symm.trans hload)
      have htouch : Foundation.touch a f item = (a, f item.2) := if_pos ha
      rw [List.map_cons, htouch]
      refine ⟨ha ▸ hp, Cells.load_set_self (Cells.lt_of_load hload) _, ?_⟩
      rw [hf]
      exact ih hrest
    · rw [List.map_cons, touch_of_ne ha]
      exact ⟨hp, (Cells.load_set_ne (Ne.symm ha) _).trans hitem, ih hrest⟩

/-- A node is linked behind the last one. -/
theorem LinkPath.linkBehind {f : ν → ν} {last : ν} {t : ℕ}
    (hseg : LinkPath next cells p (first ++ [(t, last)]) none) (hf : next (f last) = some a)
    (hne : a ∉ (first ++ [(t, last)]).map Prod.fst) (hload : cells.load (some a) = some node)
    (hnode : next node = none) :
    LinkPath next (cells.set t (some (f last))) p (first ++ [(t, f last), (a, node)]) none := by
  obtain ⟨hfirst, hlast, -⟩ := linkPath_concat.mp hseg
  have hnodup := hseg.nodup
  simp only [List.map_append, List.map_cons, List.map_nil, List.mem_append, List.mem_singleton,
    not_or] at hne
  rw [show first ++ [(t, f last), (a, node)] = (first ++ [(t, f last)]) ++ [(a, node)] by simp,
    linkPath_concat, linkPath_concat]
  refine ⟨⟨hfirst.frame fun item hitem ↦ Cells.load_set_ne ?_ _,
    Cells.load_set_self (Cells.lt_of_load hlast) _, hf⟩,
    (Cells.load_set_ne (Ne.symm hne.2) _).trans hload, hnode⟩
  rw [List.map_append, List.nodup_append] at hnodup
  exact (hnodup.2.2 item.1 (List.mem_map_of_mem hitem) t (by simp)).symm

/-- The address of a new cell is not that of a node. -/
theorem LinkPath.length_notMem (hseg : LinkPath next cells p nodes q) :
    cells.length ∉ nodes.map Prod.fst := by
  intro hmem
  obtain ⟨item, hitem, heq⟩ := List.mem_map.mp hmem
  exact absurd (Cells.lt_of_load (hseg.load_of_mem hitem)) (by omega)

/-- A new cell, linked behind the last node. -/
theorem LinkPath.allocLinked {f : ν → ν} {last : ν} {t : ℕ}
    (hseg : LinkPath next cells p (first ++ [(t, last)]) none)
    (new : ν) (hf : next (f last) = some cells.length) (hnew : next new = none) :
    ∃ cells1, (cells.alloc new).update (some t) f = some cells1 ∧
      LinkPath next cells1 p (first ++ [(t, f last), (cells.length, new)]) none := by
  have hlast : cells.load (some t) = some last :=
    hseg.load_of_mem (show (t, last) ∈ first ++ [(t, last)] by simp)
  have hkept : LinkPath next (cells.alloc new) p (first ++ [(t, last)]) none :=
    hseg.frame fun item hitem ↦ by
      have hitem' := hseg.load_of_mem hitem
      rw [hitem', Cells.load_alloc_of_load hitem']
  exact ⟨_, Cells.update_of_load (Cells.load_alloc_of_load hlast new),
    hkept.linkBehind hf hseg.length_notMem (Cells.load_alloc_self _ _) hnew⟩

/-- An assignment to a field of one node that is not the link. -/
theorem LinkPath.touchAt {g : ν → ν}
    (hseg : LinkPath next cells p (first ++ (a, node) :: second) none)
    (hg : ∀ node, next (g node) = next node) :
    ∃ cells1, cells.update (some a) g = some cells1 ∧
      LinkPath next cells1 p (first ++ (a, g node) :: second) none := by
  have hload : cells.load (some a) = some node :=
    hseg.load_of_mem (show (a, node) ∈ first ++ (a, node) :: second by simp)
  have hnodup := hseg.nodup
  rw [List.map_append, List.nodup_append, List.map_cons, List.nodup_cons] at hnodup
  obtain ⟨-, ⟨hsecond, -⟩, hapart⟩ := hnodup
  have hfirst : a ∉ first.map Prod.fst := fun hmem ↦ hapart a hmem a List.mem_cons_self rfl
  have hdone := hseg.touch hg hload
  rw [List.map_append, List.map_cons, map_touch_of_notMem g hfirst, touch_self,
    map_touch_of_notMem g hsecond] at hdone
  exact ⟨_, Cells.update_of_load hload, hdone⟩

/-- A new cell, linked behind the last node and then changed in other fields than its link. -/
theorem LinkPath.allocBehind {f g : ν → ν} {last : ν} {t : ℕ}
    (hseg : LinkPath next cells p (first ++ [(t, last)]) none)
    (new : ν) (hf : next (f last) = some cells.length) (hg : ∀ node, next (g node) = next node)
    (hnew : next new = none) :
    ∃ cells1 cells2, (cells.alloc new).update (some t) f = some cells1 ∧
      Cells.update cells1 (some cells.length) g = some cells2 ∧
      LinkPath next cells2 p (first ++ [(t, f last), (cells.length, g new)]) none := by
  obtain ⟨cells1, hfirst, hlinked⟩ := hseg.allocLinked new hf hnew
  rw [List.append_cons] at hlinked
  obtain ⟨cells2, hsecond, hdone⟩ := hlinked.touchAt hg
  rw [← List.append_cons] at hdone
  exact ⟨cells1, cells2, hfirst, hsecond, hdone⟩

/-- The last node is released and the one before it becomes the last one. -/
theorem LinkPath.dropLast {f : ν → ν} {before last : ν} {b : ℕ}
    (hseg : LinkPath next cells p (first ++ [(b, before), (a, last)]) none)
    (hf : next (f before) = none) :
    LinkPath next (Cells.release (cells.set b (some (f before))) (some a)) p
      (first ++ [(b, f before)]) none := by
  have hnodup := hseg.nodup
  have hload : cells.load (some b) = some before :=
    hseg.load_of_mem (show (b, before) ∈ first ++ [(b, before), (a, last)] by simp)
  obtain ⟨r, hfirst, hlater⟩ := linkPath_append.mp hseg
  obtain rfl : r = some b := hlater.1
  rw [List.map_append, List.nodup_append] at hnodup
  have hba : b ≠ a := by simpa using hnodup.2.1
  rw [linkPath_concat]
  refine ⟨hfirst.frame fun item hitem ↦ ?_, ?_, hf⟩
  · have hne (c : ℕ) (hc : c = b ∨ c = a) : c ≠ item.1 := fun heq ↦
      hnodup.2.2 item.1 (List.mem_map_of_mem hitem) c (by simpa using hc) heq.symm
    rw [Cells.load_release_ne (hne a (.inr rfl)), Cells.load_set_ne (hne b (.inl rfl))]
  · rw [Cells.load_release_ne hba.symm]
    exact Cells.load_set_self (Cells.lt_of_load hload) _

/-- The cells along the links are released, from the first to the last one. -/
def releaseAll (next : ν → Option ℕ) : ℕ → Cells ν → Option ℕ → Option (Cells ν)
  | 0, _, _ => none
  | _ + 1, cells, none => some cells
  | fuel + 1, cells, some a =>
    (cells.load (some a)).bind fun node ↦
      releaseAll next fuel (cells.release (some a)) (next node)

/-- The cells of a list are released and no others. -/
theorem LinkPath.releaseAll (hseg : LinkPath next cells p nodes none) {fuel : ℕ}
    (hfuel : nodes.length < fuel) :
    ∃ cells', Foundation.releaseAll next fuel cells p = some cells' ∧
      (∀ a ∈ nodes.map Prod.fst, cells'.load (some a) = none) ∧
      ∀ a ∉ nodes.map Prod.fst, cells'.load (some a) = cells.load (some a) := by
  induction nodes generalizing cells p fuel with
  | nil =>
    obtain rfl : p = none := hseg
    obtain ⟨fuel, rfl⟩ := Nat.exists_eq_add_one_of_ne_zero (Nat.ne_zero_of_lt hfuel)
    exact ⟨cells, rfl, fun a ha ↦ absurd ha List.not_mem_nil, fun a _ ↦ rfl⟩
  | cons item nodes ih =>
    have hnodup := List.nodup_cons.mp hseg.nodup
    obtain ⟨a, node⟩ := item
    obtain ⟨rfl, hload, hrest⟩ := hseg
    obtain ⟨fuel, rfl⟩ := Nat.exists_eq_add_one_of_ne_zero (Nat.ne_zero_of_lt hfuel)
    have hkept : LinkPath next (cells.release (some a)) (next node) nodes none :=
      hrest.frame fun item hitem ↦ Cells.load_release_ne fun heq ↦
        hnodup.1 (List.mem_map.mpr ⟨item, hitem, heq.symm⟩)
    obtain ⟨cells', hrun, hgone, hsame⟩ := ih hkept (Nat.lt_of_succ_lt_succ hfuel)
    refine ⟨cells', ?_, fun b hb ↦ ?_, fun b hb ↦ ?_⟩
    · rw [Foundation.releaseAll, hload, Option.bind_some, hrun]
    · by_cases hmem : b ∈ nodes.map Prod.fst
      · exact hgone b hmem
      · obtain rfl : b = a := (List.mem_cons.mp hb).resolve_right hmem
        rw [hsame b hmem, Cells.load_release_self]
    · rw [List.map_cons, List.mem_cons, not_or] at hb
      rw [hsame b hb.2, Cells.load_release_ne (Ne.symm hb.1)]

/-! ### Walks -/

/-- The pointer after a number of links. -/
def follow (next : ν → Option ℕ) (cells : Cells ν) : ℕ → Option ℕ → Option ℕ
  | 0, p => p
  | n + 1, p => (cells.load p).bind fun node ↦ follow next cells n (next node)

/-- The links lead to the nodes in their order. -/
theorem LinkPath.follow (hseg : LinkPath next cells p nodes q) {i : ℕ}
    (hitem : nodes[i]? = some (a, node)) : Foundation.follow next cells i p = some a := by
  induction nodes generalizing p i with
  | nil => cases hitem
  | cons item nodes ih =>
    obtain ⟨rfl, hload, hrest⟩ := hseg
    cases i with
    | zero =>
      rw [List.getElem?_cons_zero, Option.some.injEq] at hitem
      rw [Foundation.follow, hitem]
    | succ i =>
      rw [Foundation.follow, hload, Option.bind_some]
      exact ih hrest (by simpa using hitem)

/-- A walk along the links to the first node that passes a test, `none` inside when there is none. A
walk over more cells than there are would not end. -/
def seek (next : ν → Option ℕ) (test : ν → Bool) (cells : Cells ν) :
    ℕ → Option ℕ → Option (Option ℕ)
  | 0, _ => none
  | _ + 1, none => some none
  | fuel + 1, some a =>
    (cells.load (some a)).bind fun node ↦
      if test node then some (some a) else seek next test cells fuel (next node)

/-- A walk along a list that ends is a search of its nodes. -/
theorem seek_eq_find (test : ν → Bool) (hseg : LinkPath next cells p nodes none) {fuel : ℕ}
    (hfuel : nodes.length < fuel) :
    seek next test cells fuel p =
      some ((nodes.find? fun item ↦ test item.2).map Prod.fst) := by
  induction nodes generalizing p fuel with
  | nil =>
    obtain rfl : p = none := hseg
    obtain ⟨fuel, rfl⟩ := Nat.exists_eq_add_one_of_ne_zero (Nat.ne_zero_of_lt hfuel)
    rfl
  | cons item nodes ih =>
    obtain ⟨a, node⟩ := item
    obtain ⟨rfl, hload, hrest⟩ := hseg
    obtain ⟨fuel, rfl⟩ := Nat.exists_eq_add_one_of_ne_zero (Nat.ne_zero_of_lt hfuel)
    rw [seek, hload, Option.bind_some, List.find?_cons]
    cases htest : test node with
    | true => simp
    | false =>
      have hlt : nodes.length < fuel := by simpa using hfuel
      simpa using ih hrest hlt

end Katmai.Foundation
