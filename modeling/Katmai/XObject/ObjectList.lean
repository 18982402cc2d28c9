import Katmai.Foundation.CallRefinement
import Katmai.XObject.XObject

/-!
# The lists of x_object are deques only for calls at the end of a list that is not drained

The purpose of a list of objects is a deque (`dequeCall`), that of a list of strings a stack
(`stackCall`). While a list is used well its links lead from `val.list` to `tail` and back through
one node for each element (`ListNodes`), whatever the type of the list.

`unshift` returns `0` in every case, `shift` takes the last of several elements out and leaves
`tail` at the released node, and a list that was emptied keeps its type and its old tail until the
next `pop` or `shift`. So a list stays a deque exactly as long as there is no `unshift`, no `shift`
of more than one element and no `push` to a list that was just emptied (`StaysDeque`, `StaysStack`,
`lists_refining_iff`).
-/

set_option autoImplicit false
set_option relaxedAutoImplicit false

namespace Katmai.XObject

open Foundation

variable {ω : Type}

/-! ### Calls and the abstract lists -/

/-- A call of a user of a list of objects; `pushOwn` and `unshiftOwn` are `Push` and `Unshift`. -/
inductive ListCall (ω : Type)
  | push (xobj : ω)
  | pushOwn (xobj : ω)
  | unshift (xobj : ω)
  | unshiftOwn (xobj : ω)
  | pop
  | shift
deriving DecidableEq, Repr

/-- A call of a user of a list of strings. -/
inductive StrCall
  | strPush (str : List Char)
  | strPop
deriving DecidableEq, Repr

/-- What a call gives back: a return value or an element, `null` when there is none. -/
inductive ListAnswer (ω : Type)
  | status (rc : ℤ)
  | element (element : Payload ω)
deriving DecidableEq, Repr

/-- A call on a list of objects. -/
def listCall (clone : ω → ω) (self : XObj ω) : ListCall ω → Option (ListAnswer ω × XObj ω)
  | .push xobj => (xobjPush clone self (some xobj)).map fun (rc, self) ↦ (.status rc, self)
  | .pushOwn xobj => (xobjPushOwn clone self (some xobj)).map fun (rc, self) ↦ (.status rc, self)
  | .unshift xobj => (xobjUnshift clone self (some xobj)).map fun (rc, self) ↦ (.status rc, self)
  | .unshiftOwn xobj =>
    (xobjUnshiftOwn clone self (some xobj)).map fun (rc, self) ↦ (.status rc, self)
  | .pop => (xobjPop self).map fun (element, self) ↦ (.element element, self)
  | .shift => (xobjShift self).map fun (element, self) ↦ (.element element, self)

/-- A call on a list of strings. -/
def strCall (clone : ω → ω) (self : XObj ω) : StrCall → Option (ListAnswer ω × XObj ω)
  | .strPush str => (xobjStrPush clone self (some str)).map fun (rc, self) ↦ (.status rc, self)
  | .strPop => (xobjStrPop self).map fun (element, self) ↦ (.element element, self)

/-- An element or `NULL`. -/
def orNull (element : Option (Payload ω)) : ListAnswer ω := .element (element.getD .null)

/-- A call to the deque of objects. -/
def dequeCall (clone : ω → ω) (items : List ω) : ListCall ω → ListAnswer ω × List ω
  | .push xobj => (.status 1, items ++ [clone xobj])
  | .pushOwn xobj => (.status 1, items ++ [xobj])
  | .unshift xobj => (.status 1, clone xobj :: items)
  | .unshiftOwn xobj => (.status 1, xobj :: items)
  | .pop => (orNull (items.getLast?.map .obj), items.dropLast)
  | .shift => (orNull (items.head?.map .obj), items.tail)

/-- A call to the stack of strings. -/
def stackCall (items : List (List Char)) : StrCall → ListAnswer ω × List (List Char)
  | .strPush str => (.status 1, items ++ [str])
  | .strPop => (orNull (items.getLast?.map .str), items.dropLast)

/-! ### The links of a list -/

/-- The links of a list of type `type` with these nodes. A list that was emptied may still have its
type, and then its tail points to nothing that can be used. -/
structure ListNodes (type : ObjType) (obj : XObj ω) (nodes : List (ℕ × ListEntry ω)) : Prop where
  objType : obj.objType = type ∨ (obj.objType = .empty ∧ nodes = [])
  linked : LinkPath ListEntry.next obj.cells obj.list nodes none
  count : obj.listCount = nodes.length
  tail : nodes ≠ [] → obj.tail = nodes.getLast?.map Prod.fst
  drained : nodes = [] → ∀ t, obj.tail = some t →
    t < obj.cells.length ∧ obj.cells.load (some t) = none
  prev : nodes.IsChain fun i j ↦ j.2.prev = some i.1

/-- The object is a list with these elements, and is asked for their number. -/
def HoldsList (type : ObjType) (self : XObj ω) (items : List (Payload ω)) : Prop :=
  xobjCount self = items.length ∧
    ∃ nodes, ListNodes type self nodes ∧ items = nodes.map fun item ↦ item.2.xobj

variable {type : ObjType} {self : XObj ω} {nodes : List (ℕ × ListEntry ω)}

/-- The types of lists. -/
def IsListType (type : ObjType) : Prop := type = .list ∨ type = .stringList

theorem ListNodes.xobjCount_eq (htype : IsListType type) (hnodes : ListNodes type self nodes) :
    xobjCount self = nodes.length := by
  unfold xobjCount
  rcases hnodes.objType with heq | ⟨hempty, rfl⟩
  · rcases htype with rfl | rfl <;> simp [heq, hnodes.count]
  · simp [hempty]

theorem ListNodes.holdsList (htype : IsListType type) (hnodes : ListNodes type self nodes) :
    HoldsList type self (nodes.map fun item ↦ item.2.xobj) :=
  ⟨by rw [hnodes.xobjCount_eq htype, List.length_map], nodes, hnodes, rfl⟩

theorem holdsList_new (type : ObjType) : HoldsList type (xobjNew : XObj ω) [] :=
  ⟨rfl, [], ⟨.inr ⟨rfl, rfl⟩, rfl, rfl, fun h ↦ absurd rfl h, by simp [xobjNew], .nil⟩, rfl⟩

/-! ### Inserting behind the last element -/

/-- The type of a list that an element is pushed to. -/
def typeOf (xobj : Option ω) : ObjType := if xobj.isNone then .stringList else .list

theorem isListType_typeOf (xobj : Option ω) : IsListType (typeOf xobj) := by
  cases xobj with
  | none => exact .inr rfl
  | some xobj => exact .inl rfl

theorem next_newListObjEntry (clone : ω → ω) (xobj : Option ω) (skey str : Option (List Char))
    (duplicate : Bool) : (newListObjEntry clone xobj skey str duplicate).next = none := by
  cases xobj <;> rfl

/-- The first element. -/
theorem listNodes_push_empty (hempty : self.objType = .empty) (clone : ω → ω) (xobj : Option ω)
    (str : Option (List Char)) (duplicate : Bool) :
    ∃ self', xobjInternalPush clone self xobj str duplicate = some (1, self') ∧
      ListNodes (typeOf xobj) self'
        [(self.cells.length, newListObjEntry clone xobj none str duplicate)] := by
  refine ⟨_, by simp only [xobjInternalPush, hempty, internalNewListObjEntry]; rfl, ?_⟩
  exact
    { objType := .inl rfl
      linked := ⟨rfl, Cells.load_alloc_self _ _, next_newListObjEntry _ _ _ _ _⟩
      count := rfl
      tail := fun _ ↦ rfl
      drained := by simp
      prev := .singleton _ }

/-- The last node and the nodes before it. -/
theorem ListNodes.eq_concat (hnodes : ListNodes type self nodes) (hne : nodes ≠ []) :
    ∃ init t last, nodes = init ++ [(t, last)] ∧ self.tail = some t := by
  refine ⟨nodes.dropLast, (nodes.getLast hne).1, (nodes.getLast hne).2,
    (List.dropLast_append_getLast hne).symm, ?_⟩
  rw [hnodes.tail hne, List.getLast?_eq_some_getLast hne, Option.map_some]

/-- What `xobj_internal_push` does to a list that has its type already. -/
theorem xobjInternalPush_later (xobj : Option ω) (htype : self.objType = typeOf xobj)
    (clone : ω → ω) (str : Option (List Char)) (duplicate : Bool) :
    xobjInternalPush clone self xobj str duplicate =
      (linkBehindTail (internalNewListObjEntry clone self xobj none str duplicate).2
        self.cells.length).map fun self ↦
          (1, if xobj.isNone then { self with readPtr := none } else self) := by
  cases xobj with
  | none =>
    have hstringList : self.objType = .stringList := htype
    simp only [xobjInternalPush, hstringList, Option.isNone_none, if_true]
    rfl
  | some xobj =>
    have hlist : self.objType = .list := htype
    simp only [xobjInternalPush, hlist, Option.isNone_some, Bool.false_eq_true, if_false]
    rfl

/-- Another element. -/
theorem ListNodes.push_later {xobj : Option ω} (hnodes : ListNodes (typeOf xobj) self nodes)
    (hne : nodes ≠ []) (clone : ω → ω) (str : Option (List Char)) (duplicate : Bool) :
    ∃ self' nodes', xobjInternalPush clone self xobj str duplicate = some (1, self') ∧
      ListNodes (typeOf xobj) self' nodes' ∧
      (nodes'.map fun item ↦ item.2.xobj) = (nodes.map fun item ↦ item.2.xobj) ++
        [(newListObjEntry clone xobj none str duplicate).xobj] := by
  obtain ⟨init, t, last, rfl, htail⟩ := hnodes.eq_concat hne
  obtain ⟨cells1, cells2, hupdate1, hupdate2, hlinked⟩ :=
    hnodes.linked.allocBehind (f := .setNext (some self.cells.length)) (g := .setPrev (some t))
      (newListObjEntry clone xobj none str duplicate) rfl (fun _ ↦ rfl)
      (next_newListObjEntry _ _ _ _ _)
  have htype : self.objType = typeOf xobj := hnodes.objType.resolve_right fun h ↦ by simp at h
  have hlink : linkBehindTail (internalNewListObjEntry clone self xobj none str duplicate).2
      self.cells.length = some { self with
        cells := cells2, tail := some self.cells.length, listCount := self.listCount + 1 } := by
    simp [linkBehindTail, internalNewListObjEntry, htail, hupdate1, hupdate2]
  have hpush := xobjInternalPush_later xobj htype clone str duplicate
  rw [hlink, Option.map_some] at hpush
  refine ⟨_, init ++ [(t, last.setNext (some self.cells.length)), (self.cells.length,
    (newListObjEntry clone xobj none str duplicate).setPrev (some t))], hpush, ?_, ?_⟩
  · have hprev : (init ++ [(t, last.setNext (some self.cells.length)), (self.cells.length,
        (newListObjEntry clone xobj none str duplicate).setPrev (some t))]).IsChain
        fun i j ↦ j.2.prev = some i.1 := by
      have hold := List.isChain_append.mp hnodes.prev
      refine List.isChain_append.mpr ⟨hold.1, ?_, fun i hi j hj ↦ ?_⟩
      · exact .cons_cons rfl (.singleton _)
      · obtain rfl := Option.mem_some_iff.mp hj
        exact hold.2.2 i hi (t, last) rfl
    have hall (final : XObj ω) (hfinal : final.objType = self.objType)
        (hcells : final.cells = cells2) (hlist : final.list = self.list)
        (hlast : final.tail = some self.cells.length)
        (hcount : final.listCount = self.listCount + 1) : ListNodes (typeOf xobj) final
          (init ++ [(t, last.setNext (some self.cells.length)), (self.cells.length,
            (newListObjEntry clone xobj none str duplicate).setPrev (some t))]) :=
      { objType := .inl (hfinal.trans htype)
        linked := by rw [hcells, hlist]; exact hlinked
        count := by simp [hcount, hnodes.count]
        tail := fun _ ↦ by simp [hlast]
        drained := by simp
        prev := hprev }
    split_ifs
    · exact hall _ rfl rfl rfl rfl rfl
    · exact hall _ rfl rfl rfl rfl rfl
  · simp [ListEntry.setNext, ListEntry.setPrev]

/-- An element cannot be pushed to a list that was just emptied. -/
theorem ListNodes.push_drained {xobj : Option ω} (hnodes : ListNodes (typeOf xobj) self [])
    (htype : self.objType = typeOf xobj) (clone : ω → ω) (str : Option (List Char))
    (duplicate : Bool) : xobjInternalPush clone self xobj str duplicate = none := by
  have hdead : Cells.load (self.cells.alloc (newListObjEntry clone xobj none str duplicate))
      self.tail = none := by
    cases htail : self.tail with
    | none => rfl
    | some t =>
      obtain ⟨hlt, hload⟩ := hnodes.drained rfl t htail
      rw [Cells.load_alloc_ne (Nat.ne_of_lt hlt), hload]
  rw [xobjInternalPush_later xobj htype, linkBehindTail, internalNewListObjEntry]
  simp [Cells.update_eq_none hdead]

/-! ### Taking out -/

/-- Nothing is taken out of an empty list; a list that was emptied loses its type. -/
theorem ListNodes.takeOut_nil (hnodes : ListNodes type self []) (moveTail : Bool) :
    ∃ self', takeOut type moveTail self = some (.null, self') ∧ ListNodes type self' [] := by
  by_cases htype : self.objType ≠ type
  · exact ⟨self, by rw [takeOut, if_pos htype], hnodes⟩
  · have hcount : self.listCount = 0 := hnodes.count
    exact ⟨{ self with objType := .empty }, by rw [takeOut, if_neg htype, if_pos hcount],
      { hnodes with objType := .inr ⟨rfl, rfl⟩ }⟩

/-- The only element is taken out; the tail is left at the released node. -/
theorem ListNodes.takeOut_only {item : ℕ × ListEntry ω} (hnodes : ListNodes type self [item])
    (moveTail : Bool) :
    ∃ self', takeOut type moveTail self = some (item.2.xobj, self') ∧ ListNodes type self' [] := by
  have htype : self.objType = type := hnodes.objType.resolve_right fun h ↦ by simp at h
  have hcount : self.listCount = 1 := hnodes.count
  have htail : self.tail = some item.1 := hnodes.tail (by simp)
  obtain ⟨hlist, hload, -⟩ := hnodes.linked
  refine ⟨{ self with listCount := 0, list := none, cells := self.cells.release (some item.1) },
    by simp [takeOut, htype, hcount, hlist, hload], ?_⟩
  exact
    { objType := .inl htype
      linked := rfl
      count := rfl
      tail := by simp
      drained := by
        rintro - t ht
        obtain rfl : item.1 = t := Option.some.inj (htail.symm.trans ht)
        exact ⟨by simpa [Cells.release] using Cells.lt_of_load hload, Cells.load_release_self _ _⟩
      prev := .nil }

/-- What taking out of several elements does. -/
theorem ListNodes.takeOut_several {init : List (ℕ × ListEntry ω)} {b a : ℕ}
    {before last : ListEntry ω} (hnodes : ListNodes type self (init ++ [(b, before), (a, last)]))
    (moveTail : Bool) :
    takeOut type moveTail self = some (last.xobj, { self with
      listCount := init.length + 1
      tail := if moveTail then some b else some a
      cells := Cells.release (List.set self.cells b (some (before.setNext none))) (some a) }) := by
  have htype : self.objType = type := hnodes.objType.resolve_right fun h ↦ by simp at h
  have hcount : self.listCount = init.length + 2 := by simpa using hnodes.count
  have htail : self.tail = some a := by simpa using hnodes.tail (by simp)
  have hload : self.cells.load (some a) = some last :=
    hnodes.linked.load_of_mem (show (a, last) ∈ init ++ [(b, before), (a, last)] by simp)
  have hbefore : self.cells.load (some b) = some before :=
    hnodes.linked.load_of_mem (show (b, before) ∈ init ++ [(b, before), (a, last)] by simp)
  have hprev : last.prev = some b := by
    have hchain := (List.isChain_append.mp hnodes.prev).2.1
    simpa using hchain
  simp [takeOut, htype, hcount, htail, hload, hprev, Cells.update_of_load hbefore]

/-- The last of several elements is taken out by `pop`. -/
theorem ListNodes.pop_several {init : List (ℕ × ListEntry ω)} {b a : ℕ}
    {before last : ListEntry ω} (hnodes : ListNodes type self (init ++ [(b, before), (a, last)])) :
    ∃ self', takeOut type true self = some (last.xobj, self') ∧
      ListNodes type self' (init ++ [(b, before.setNext none)]) := by
  refine ⟨_, hnodes.takeOut_several true, ?_⟩
  exact
    { objType := .inl (hnodes.objType.resolve_right fun h ↦ by simp at h)
      linked := hnodes.linked.dropLast rfl
      count := by simp
      tail := by simp
      drained := by simp
      prev := by
        have hold := List.isChain_append.mp hnodes.prev
        refine List.isChain_append.mpr ⟨hold.1, .singleton _, fun i hi j hj ↦ ?_⟩
        obtain rfl := Option.mem_some_iff.mp hj
        exact hold.2.2 i hi (b, before) rfl }

/-- After `shift` of several elements the tail is a released node, so the object is no list. -/
theorem ListNodes.shift_several {init : List (ℕ × ListEntry ω)} {b a : ℕ}
    {before last : ListEntry ω} (hnodes : ListNodes type self (init ++ [(b, before), (a, last)]))
    {element : Payload ω} {self' : XObj ω}
    (hshift : takeOut type false self = some (element, self')) {items : List (Payload ω)}
    (hitems : items ≠ []) : ¬HoldsList type self' items := by
  rintro ⟨-, nodes', hnodes', rfl⟩
  rw [hnodes.takeOut_several false] at hshift
  obtain ⟨-, rfl⟩ := Prod.mk.inj (Option.some.inj hshift)
  have hne : nodes' ≠ [] := by simpa using hitems
  obtain ⟨init', t, last', rfl, htail⟩ := hnodes'.eq_concat hne
  obtain rfl : a = t := Option.some.inj htail
  have hload := hnodes'.linked.load_of_mem (show (a, last') ∈ init' ++ [(a, last')] by simp)
  rw [Cells.load_release_self] at hload
  cases hload

/-! ### One call -/

/-- A push keeps the list exactly when the list was not just emptied. -/
theorem push_iff (xobj : Option ω) {items : List (Payload ω)}
    (hholds : HoldsList (typeOf xobj) self items) (clone : ω → ω) (str : Option (List Char))
    (duplicate : Bool) :
    (∃ self', xobjInternalPush clone self xobj str duplicate = some (1, self') ∧
        HoldsList (typeOf xobj) self'
          (items ++ [(newListObjEntry clone xobj none str duplicate).xobj])) ↔
      (self.objType = typeOf xobj → self.listCount ≠ 0) := by
  obtain ⟨-, nodes, hnodes, rfl⟩ := hholds
  constructor
  · rintro ⟨self', hpush, -⟩ htype hcount
    obtain rfl : nodes = [] := List.length_eq_zero_iff.mp (hnodes.count.symm.trans hcount)
    rw [hnodes.push_drained htype] at hpush
    cases hpush
  · intro hgood
    rcases hnodes.objType with htype | ⟨hempty, rfl⟩
    · have hne : nodes ≠ [] := fun hnil ↦
        hgood htype (by rw [hnodes.count, hnil, List.length_nil])
      obtain ⟨self', nodes', hpush, hnodes', hmap⟩ := hnodes.push_later hne clone str duplicate
      exact ⟨self', hpush, hmap ▸ hnodes'.holdsList (isListType_typeOf xobj)⟩
    · obtain ⟨self', hpush, hnodes'⟩ := listNodes_push_empty hempty clone xobj str duplicate
      exact ⟨self', hpush, hnodes'.holdsList (isListType_typeOf xobj)⟩

/-- The three lengths of a list that `pop` and `shift` treat in different ways. -/
theorem ListNodes.shape (nodes : List (ℕ × ListEntry ω)) :
    nodes = [] ∨ (∃ item, nodes = [item]) ∨
      ∃ init b before a last, nodes = init ++ [(b, before), (a, last)] := by
  rcases List.eq_nil_or_concat nodes with rfl | ⟨init, item, rfl⟩
  · exact .inl rfl
  · rcases List.eq_nil_or_concat init with rfl | ⟨init, other, rfl⟩
    · exact .inr (.inl ⟨item, rfl⟩)
    · exact .inr (.inr ⟨init, other.1, other.2, item.1, item.2, by simp⟩)

/-- `pop` takes the last element out. -/
theorem pop_holdsList {items : List (Payload ω)} (htype : IsListType type)
    (hholds : HoldsList type self items) :
    ∃ self', takeOut type true self = some (items.getLast?.getD .null, self') ∧
      HoldsList type self' items.dropLast := by
  obtain ⟨-, nodes, hnodes, rfl⟩ := hholds
  rcases ListNodes.shape nodes with rfl | ⟨item, rfl⟩ | ⟨init, b, before, a, last, rfl⟩
  · obtain ⟨self', htake, hnodes'⟩ := hnodes.takeOut_nil true
    exact ⟨self', htake, hnodes'.holdsList htype⟩
  · obtain ⟨self', htake, hnodes'⟩ := hnodes.takeOut_only true
    exact ⟨self', htake, hnodes'.holdsList htype⟩
  · obtain ⟨self', htake, hnodes'⟩ := hnodes.pop_several
    refine ⟨self', by simpa using htake, ?_⟩
    have hholds := hnodes'.holdsList htype
    simpa [ListEntry.setNext] using hholds

/-- `shift` takes the first element out, and leaves a list, exactly when there is at most one. -/
theorem shift_iff {items : List (Payload ω)} (hholds : HoldsList .list self items) :
    (∃ self', takeOut .list false self = some (items.head?.getD .null, self') ∧
        HoldsList .list self' items.tail) ↔ (self.objType = .list → self.listCount ≤ 1) := by
  obtain ⟨-, nodes, hnodes, rfl⟩ := hholds
  rcases ListNodes.shape nodes with rfl | ⟨item, rfl⟩ | ⟨init, b, before, a, last, rfl⟩
  · have hcount : self.listCount = 0 := hnodes.count
    obtain ⟨self', htake, hnodes'⟩ := hnodes.takeOut_nil false
    exact iff_of_true ⟨self', htake, hnodes'.holdsList (.inl rfl)⟩ fun _ ↦ by omega
  · have hcount : self.listCount = 1 := hnodes.count
    obtain ⟨self', htake, hnodes'⟩ := hnodes.takeOut_only false
    exact iff_of_true ⟨self', htake, hnodes'.holdsList (.inl rfl)⟩ fun _ ↦ by omega
  · have hcount : self.listCount = init.length + 2 := by simpa using hnodes.count
    have htype : self.objType = .list := hnodes.objType.resolve_right fun h ↦ by simp at h
    refine iff_of_false ?_ fun hle ↦ absurd (hle htype) (by omega)
    rintro ⟨self', htake, hholds⟩
    exact hnodes.shift_several htake (by cases init <;> simp) hholds

/-! ### Every list of calls -/

/-- The calls that keep an object a deque of objects: no `unshift`, no `shift` of several elements,
no `push` to a list that was just emptied. -/
def StaysDeque (self : XObj ω) : ListCall ω → Prop
  | .push _ => self.objType = .list → self.listCount ≠ 0
  | .pushOwn _ => self.objType = .list → self.listCount ≠ 0
  | .unshift _ => False
  | .unshiftOwn _ => False
  | .pop => True
  | .shift => self.objType = .list → self.listCount ≤ 1

/-- The calls that keep an object a stack of strings. -/
def StaysStack (self : XObj ω) : StrCall → Prop
  | .strPush _ => self.objType = .stringList → self.listCount ≠ 0
  | .strPop => True

/-- The object is a list of objects. -/
def HoldsObjects (self : XObj ω) (items : List ω) : Prop :=
  HoldsList .list self (items.map .obj)

/-- The object is a list of strings. -/
def HoldsStrings (self : XObj ω) (items : List (List Char)) : Prop :=
  HoldsList .stringList self (items.map .str)

/-- `unshift` never returns `1`. -/
theorem rc_of_unshift {clone : ω → ω} {xobj : Option ω} {duplicate : Bool} {rc : ℤ}
    {self' : XObj ω} (hunshift : xobjInternalUnshift clone self xobj duplicate = some (rc, self')) :
    rc = 0 := by
  unfold xobjInternalUnshift at hunshift
  split at hunshift
  · exact (Prod.mk.inj (Option.some.inj hunshift)).1.symm
  · simp only [Option.bind_eq_bind, Option.bind_eq_some_iff, Option.pure_def] at hunshift
    obtain ⟨cells1, -, cells2, -, hresult⟩ := hunshift
    exact (Prod.mk.inj (Option.some.inj hresult)).1.symm
  · exact (Prod.mk.inj (Option.some.inj hunshift)).1.symm

/-- A call answers and leaves what the function behind it returns and leaves. -/
theorem exists_answer_iff {ρ : Type} {result : Option (ρ × XObj ω)} {wrap : ρ → ListAnswer ω}
    (hwrap : ∀ x y, wrap x = wrap y → x = y) {value : ρ} {P : XObj ω → Prop} :
    (∃ self', (result.map fun (x, self) ↦ (wrap x, self)) = some (wrap value, self') ∧ P self') ↔
      ∃ self', result = some (value, self') ∧ P self' := by
  constructor
  · rintro ⟨self', hresult, hP⟩
    obtain ⟨⟨x, after⟩, hsome, heq⟩ := Option.map_eq_some_iff.mp hresult
    obtain ⟨hx, rfl⟩ := Prod.mk.inj heq
    exact ⟨after, by rw [hsome, hwrap x value hx], hP⟩
  · rintro ⟨self', rfl, hP⟩
    exact ⟨self', rfl, hP⟩

theorem status_injective (x y : ℤ) (heq : (ListAnswer.status x : ListAnswer ω) = .status y) :
    x = y := by
  injection heq

theorem element_injective (x y : Payload ω) (heq : ListAnswer.element x = .element y) : x = y := by
  injection heq

/-- A call on a list of objects keeps in step with the deque exactly when it meets the condition. -/
theorem agrees_iff_staysDeque {items : List ω} (hholds : HoldsObjects self items) (clone : ω → ω)
    (c : ListCall ω) :
    Agrees (listCall clone) (dequeCall clone) HoldsObjects self items c ↔ StaysDeque self c := by
  cases c with
  | push xobj =>
    have hpush := push_iff (some xobj) hholds clone none true
    have hitems : items.map Payload.obj ++
        [(newListObjEntry clone (some xobj) none none true).xobj] =
        (items ++ [clone xobj]).map .obj := by simp [newListObjEntry]
    rw [hitems] at hpush
    exact (exists_answer_iff status_injective).trans hpush
  | pushOwn xobj =>
    have hpush := push_iff (some xobj) hholds clone none false
    have hitems : items.map Payload.obj ++
        [(newListObjEntry clone (some xobj) none none false).xobj] =
        (items ++ [xobj]).map .obj := by simp [newListObjEntry]
    rw [hitems] at hpush
    exact (exists_answer_iff status_injective).trans hpush
  | unshift xobj =>
    refine (exists_answer_iff status_injective).trans (iff_of_false ?_ id)
    rintro ⟨self', hunshift, -⟩
    exact absurd (rc_of_unshift hunshift) (by decide)
  | unshiftOwn xobj =>
    refine (exists_answer_iff status_injective).trans (iff_of_false ?_ id)
    rintro ⟨self', hunshift, -⟩
    exact absurd (rc_of_unshift hunshift) (by decide)
  | pop =>
    refine (exists_answer_iff element_injective).trans (iff_of_true ?_ trivial)
    have hpop := pop_holdsList (.inl rfl) hholds
    rwa [List.getLast?_map, ← List.map_dropLast] at hpop
  | shift =>
    have hshift := shift_iff hholds
    rw [List.head?_map, ← List.map_tail] at hshift
    exact (exists_answer_iff element_injective).trans hshift

/-- A call on a list of strings keeps in step with the stack exactly when it meets the
condition. -/
theorem agrees_iff_staysStack {items : List (List Char)} (hholds : HoldsStrings self items)
    (clone : ω → ω) (c : StrCall) :
    Agrees (strCall clone) stackCall HoldsStrings self items c ↔ StaysStack self c := by
  cases c with
  | strPush str =>
    have hpush := push_iff none hholds clone (some str) true
    have hitems : items.map Payload.str ++
        [(newListObjEntry clone none none (some str) true).xobj] =
        (items ++ [str]).map .str := by simp [newListObjEntry]
    rw [hitems] at hpush
    exact (exists_answer_iff status_injective).trans hpush
  | strPop =>
    refine (exists_answer_iff element_injective).trans (iff_of_true ?_ trivial)
    have hpop := pop_holdsList (.inr rfl) hholds
    rwa [List.getLast?_map, ← List.map_dropLast] at hpop

/-- From a new object on, a list of calls on a list of objects is answered as the deque answers it,
the object holding the deque's elements after each of them, exactly when no call is an `unshift`, a
`shift` of several elements or a `push` to a list just emptied; and a list of calls on a list of
strings keeps in step with the stack exactly when no string is pushed to a list just emptied. -/
theorem lists_refining_iff (clone : ω → ω) (calls : List (ListCall ω)) (strCalls : List StrCall) :
    (Refining (listCall clone) (dequeCall clone) HoldsObjects xobjNew [] calls ↔
        Meets (callStep (listCall clone)) StaysDeque xobjNew calls) ∧
      (Refining (strCall clone) stackCall HoldsStrings xobjNew [] strCalls ↔
        Meets (callStep (strCall clone)) StaysStack xobjNew strCalls) := by
  constructor
  · exact refining_iff_meets (fun self items c hholds (_ : True) ↦
      agrees_iff_staysDeque hholds clone c) (fun _ _ _ _ _ _ _ hafter ↦ hafter)
      (holdsList_new .list) (along_of_forall (fun _ _ ↦ trivial) _ calls)
  · exact refining_iff_meets (fun self items c hholds (_ : True) ↦
      agrees_iff_staysStack hholds clone c) (fun _ _ _ _ _ _ _ hafter ↦ hafter)
      (holdsList_new .stringList) (along_of_forall (fun _ _ ↦ trivial) _ strCalls)

/-- Two objects are pushed and one is taken from the front: `shift` hands out the second one. And
`unshift` on a new object returns `0`. -/
theorem shift_takes_the_last :
    ((serve (listCall (id : ℕ → ℕ)) xobjNew [.push 1, .push 2, .shift]).map Prod.fst =
        some [.status 1, .status 1, .element (.obj 2)]) ∧
      ((serve (listCall (id : ℕ → ℕ)) xobjNew [.unshift 1]).map Prod.fst = some [.status 0]) ∧
      serve (listCall (id : ℕ → ℕ)) xobjNew [.push 1, .pop, .push 2] = none ∧
      ¬Refining (listCall (id : ℕ → ℕ)) (dequeCall id) HoldsObjects xobjNew []
        [.push 1, .push 2, .shift] := by
  have hanswers : (serve (listCall (id : ℕ → ℕ)) xobjNew [.push 1, .push 2, .shift]).map Prod.fst =
      some [.status 1, .status 1, .element (.obj 2)] := by decide
  refine ⟨hanswers, by decide, by decide, fun hrefining ↦ ?_⟩
  obtain ⟨t, hserve⟩ := hrefining.serve_eq
  have hdeque : (replies (dequeCall (id : ℕ → ℕ)) [] [.push 1, .push 2, .shift]).1 =
      [.status 1, .status 1, .element (.obj 1)] := by decide
  rw [hserve, Option.map_some, hdeque] at hanswers
  exact absurd hanswers (by decide)

end Katmai.XObject
