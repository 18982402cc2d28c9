import Katmai.Foundation.LinkedCells

/-!
# The lists and hashes of x_object

An object holds one linked list of entries, used as a list of objects, a list of strings or a hash
of strings, whatever its type tag says. The functions here are those of `x_object.c` on such an
object. A pointer is an address in the object's `cells` or `none` for `NULL`; a result of `none`
stands for an access through `NULL` or to memory that was released. Memory is taken to be available.

Objects that are put on a list are values of an arbitrary type `ω`, copied by `clone`, and strings
are lists of characters.
-/

set_option autoImplicit false
set_option relaxedAutoImplicit false

namespace Katmai.XObject

open Foundation

/-! ### Data -/

/-- The type tags `X_OBJECT_TYPE_EMPTY` to `X_OBJECT_TYPE_STRING_HASH`. -/
inductive ObjType
  | empty
  | integer
  | real
  | string
  | stringList
  | list
  | hash
  | stringHash
deriving DecidableEq, Repr

/-- What the field `xobj` of an entry points to. -/
inductive Payload (ω : Type)
  | null
  | obj (xobj : ω)
  | str (str : List Char)
deriving DecidableEq, Repr

/-- `struct x_object_list_t`. -/
structure ListEntry (ω : Type) where
  key : Option (List Char)
  xobj : Payload ω
  next : Option ℕ
  prev : Option ℕ
deriving DecidableEq, Repr

/-- `entry->next = p`. -/
def ListEntry.setNext {ω : Type} (p : Option ℕ) (entry : ListEntry ω) : ListEntry ω :=
  { entry with next := p }

/-- `entry->prev = p`. -/
def ListEntry.setPrev {ω : Type} (p : Option ℕ) (entry : ListEntry ω) : ListEntry ω :=
  { entry with prev := p }

/-- `struct x_object_t`, as far as lists and hashes use it, with the memory of its entries. -/
structure XObj (ω : Type) where
  objType : ObjType
  list : Option ℕ
  tail : Option ℕ
  readPtr : Option ℕ
  listCount : ℕ
  cells : Cells (ListEntry ω)
deriving DecidableEq, Repr

variable {ω : Type}

/-- A pointer used as a string. -/
def Payload.string : Payload ω → Option (List Char)
  | .str text => some text
  | _ => none

/-- `xobj_new`; the pointers that it does not initialise are set before they are read. -/
def xobjNew : XObj ω :=
  { objType := .empty, list := none, tail := none, readPtr := none, listCount := 0, cells := [] }

/-- The contents of a new entry in `internal_new_list_obj_entry`. -/
def newListObjEntry (clone : ω → ω) (xobj : Option ω) (skey str : Option (List Char))
    (duplicate : Bool) : ListEntry ω :=
  match xobj with
  | some xobj =>
    { key := none, xobj := .obj (if duplicate then clone xobj else xobj), next := none
      prev := none }
  | none => { key := skey, xobj := str.elim .null .str, next := none, prev := none }

/-- `internal_new_list_obj_entry`: the address of the new entry. -/
def internalNewListObjEntry (clone : ω → ω) (self : XObj ω) (xobj : Option ω)
    (skey str : Option (List Char)) (duplicate : Bool) : ℕ × XObj ω :=
  (self.cells.length,
    { self with cells := self.cells.alloc (newListObjEntry clone xobj skey str duplicate) })

/-! ### Lists -/

/-- `self->tail->next = list; list->prev = self->tail; self->tail = list; ++self->list_count;` -/
def linkBehindTail (self : XObj ω) (list : ℕ) : Option (XObj ω) := do
  let cells ← self.cells.update self.tail (.setNext (some list))
  let cells ← cells.update (some list) (.setPrev self.tail)
  pure { self with cells, tail := some list, listCount := self.listCount + 1 }

/-- `xobj_internal_push`. -/
def xobjInternalPush (clone : ω → ω) (self : XObj ω) (xobj : Option ω)
    (str : Option (List Char)) (duplicate : Bool) : Option (ℤ × XObj ω) :=
  match self.objType, xobj with
  | .empty, xobj =>
    let (list, self) := internalNewListObjEntry clone self xobj none str duplicate
    some (1, { self with
      objType := if xobj.isNone then .stringList else .list
      list := some list, tail := some list, listCount := 1 })
  | .list, none => some (0, self)
  | .list, some xobj =>
    let (list, self) := internalNewListObjEntry clone self (some xobj) none str duplicate
    (linkBehindTail self list).map fun self ↦ (1, self)
  | .stringList, some _ => some (0, self)
  | .stringList, none =>
    let (list, self) := internalNewListObjEntry clone self none none str duplicate
    (linkBehindTail self list).map fun self ↦ (1, { self with readPtr := none })
  | _, _ => some (0, self)

/-- `xobj_push`. -/
def xobjPush (clone : ω → ω) (self : XObj ω) (xobj : Option ω) : Option (ℤ × XObj ω) :=
  xobjInternalPush clone self xobj none true

/-- `xobj_Push`. -/
def xobjPushOwn (clone : ω → ω) (self : XObj ω) (xobj : Option ω) : Option (ℤ × XObj ω) :=
  xobjInternalPush clone self xobj none false

/-- `xobj_str_push`. -/
def xobjStrPush (clone : ω → ω) (self : XObj ω) (str : Option (List Char)) :
    Option (ℤ × XObj ω) :=
  xobjInternalPush clone self none str true

/-- The body that `xobj_pop`, `xobj_str_pop` and `xobj_shift` share, for a list of type `type`. All
three take an entry out at the tail; `xobj_shift` does not move the tail back. -/
def takeOut (type : ObjType) (moveTail : Bool) (pd : XObj ω) :
    Option (Payload ω × XObj ω) :=
  if pd.objType ≠ type then some (.null, pd)
  else if pd.listCount = 0 then some (.null, { pd with objType := .empty })
  else if pd.listCount = 1 then do
    let list ← pd.cells.load pd.list
    pure (list.xobj, { pd with
      listCount := 0, list := none, cells := pd.cells.release pd.list })
  else do
    let list ← pd.cells.load pd.tail
    let cells ← pd.cells.update list.prev (.setNext none)
    pure (list.xobj, { pd with
      listCount := pd.listCount - 1
      tail := if moveTail then list.prev else pd.tail
      cells := cells.release pd.tail })

/-- `xobj_str_pop`; the string is handed to the caller. -/
def xobjStrPop (self : XObj ω) : Option (Payload ω × XObj ω) :=
  takeOut .stringList true self

/-- `xobj_pop`. -/
def xobjPop (pd : XObj ω) : Option (Payload ω × XObj ω) :=
  takeOut .list true pd

/-- `xobj_shift`. -/
def xobjShift (pd : XObj ω) : Option (Payload ω × XObj ω) :=
  takeOut .list false pd

/-- `xobj_internal_unshift`; it returns `0` in every case. -/
def xobjInternalUnshift (clone : ω → ω) (pd : XObj ω) (xobj : Option ω) (duplicate : Bool) :
    Option (ℤ × XObj ω) :=
  match pd.objType with
  | .empty =>
    let (list, pd) := internalNewListObjEntry clone pd xobj none none duplicate
    some (0, { pd with objType := .list, list := some list, listCount := 1, tail := some list })
  | .list => do
    let (list, pd) := internalNewListObjEntry clone pd xobj none none duplicate
    let cells ← pd.cells.update pd.list (.setPrev (some list))
    let cells ← cells.update (some list) (.setNext pd.list)
    pure (0, { pd with cells, list := some list, listCount := pd.listCount + 1 })
  | _ => some (0, pd)

/-- `xobj_unshift`. -/
def xobjUnshift (clone : ω → ω) (self : XObj ω) (xobj : Option ω) : Option (ℤ × XObj ω) :=
  xobjInternalUnshift clone self xobj true

/-- `xobj_Unshift`. -/
def xobjUnshiftOwn (clone : ω → ω) (self : XObj ω) (xobj : Option ω) :
    Option (ℤ × XObj ω) :=
  xobjInternalUnshift clone self xobj false

/-- `xobj_count`. -/
def xobjCount (self : XObj ω) : ℕ :=
  match self.objType with
  | .list | .stringList | .hash | .stringHash => self.listCount
  | _ => 0

/-! ### Hashes -/

/-- `xobj_internal_get`: the entry with a key. -/
def xobjInternalGet (self : XObj ω) (keystr : List Char) : Option (Option ℕ) :=
  if self.objType ≠ .stringHash then some none
  else seek ListEntry.next (fun list ↦ list.key = some keystr) self.cells
    (self.cells.length + 1) self.list

/-- `xobj_get`. An entry without a value gives the empty string. -/
def xobjGet (self : XObj ω) (keystr : List Char) : Option (Option (List Char)) := do
  match ← xobjInternalGet self keystr with
  | none => pure none
  | some list =>
    let list ← self.cells.load (some list)
    pure (some (list.xobj.string.getD []))

/-- The end of `xobj_internal_put` on a hash: `self->tail->next = list; self->tail = list;
list->prev = self->tail; ++self->list_count;`. -/
def linkAsTail (self : XObj ω) (list : ℕ) : Option (XObj ω) := do
  let cells ← self.cells.update self.tail (.setNext (some list))
  -- The tail is moved first, so that the new entry is linked back to itself.
  let cells ← cells.update (some list) (.setPrev (some list))
  pure { self with cells, tail := some list, listCount := self.listCount + 1 }

/-- The part of `xobj_internal_put` that puts a new entry into the object. -/
def putNewEntry (clone : ω → ω) (self : XObj ω) (duplicate : Bool) (xobj : Option ω)
    (keystr value : List Char) : Option (ℤ × XObj ω) :=
  let (list, self) :=
    internalNewListObjEntry clone self xobj (some keystr) (some value) duplicate
  let self := { self with readPtr := none }
  if self.objType = .empty then
    some (1, { self with
      objType := if xobj.isSome then .hash else .stringHash
      list := some list, tail := some list, listCount := 1 })
  else (linkAsTail self list).map fun self ↦ (1, self)

/-- `xobj_internal_put`. -/
def xobjInternalPut (clone : ω → ω) (self : XObj ω) (duplicate : Bool) (xobj : Option ω)
    (keystr value : List Char) : Option (ℤ × XObj ω) :=
  match self.objType with
  | .empty | .hash => putNewEntry clone self duplicate xobj keystr value
  | .stringHash =>
    if xobj.isSome then some (0, self)
    else do
      match ← xobjInternalGet self keystr with
      | some list =>
        -- A shorter value is copied into the old one's place, a longer one to new memory.
        let cells ← self.cells.update (some list) fun entry ↦ { entry with xobj := .str value }
        pure (1, { self with cells })
      | none => putNewEntry clone self duplicate xobj keystr value
  | _ => some (0, self)

/-- `xobj_put`. -/
def xobjPut (clone : ω → ω) (self : XObj ω) (keystr value : Option (List Char)) :
    Option (ℤ × XObj ω) :=
  match keystr, value with
  | some keystr, some value => xobjInternalPut clone self true none keystr value
  | _, _ => some (0, self)

/-- `if (self->read_ptr == list) self->read_ptr = NULL;` -/
def forgetReadPtr (self : XObj ω) (list : ℕ) : XObj ω :=
  { self with readPtr := if self.readPtr = some list then none else self.readPtr }

/-- The part of `xobj_del` for an entry among others: the links around it, if it is the first or the
last one, and its release. -/
def unlinkEntry (self : XObj ω) (list : ℕ) : Option (XObj ω) := do
  let entry ← self.cells.load (some list)
  let self ←
    if self.list = some list then do
      let cells ← self.cells.update entry.next (.setPrev none)
      pure { self with cells, list := entry.next }
    else if self.tail = some list then do
      let cells ← self.cells.update entry.prev (.setNext none)
      pure { self with cells, tail := entry.prev }
    else pure self
  pure { self with listCount := self.listCount - 1, cells := self.cells.release (some list) }

/-- `xobj_del`. -/
def xobjDel (self : XObj ω) (keystr : List Char) : Option (ℤ × XObj ω) :=
  if self.objType ≠ .stringHash ∧ self.objType ≠ .hash then some (0, self)
  else do
    match ← xobjInternalGet self keystr with
    | none => pure (1, self)
    | some list =>
      let self := forgetReadPtr self list
      if self.listCount = 1 then pure (1, { self with list := none, tail := none, listCount := 0 })
      else (unlinkEntry self list).map fun self ↦ (1, self)

/-- `xobj_is_exist`. -/
def xobjIsExist (self : XObj ω) (key : List Char) : Option ℤ :=
  (xobjGet self key).map fun value ↦ if value.isSome then 1 else 0

/-- What `xobj_get_first` and `xobj_get_next` do with the entry they come to, `NULL` for a return
value of `0`. -/
def readEntry (self : XObj ω) (p : Option ℕ) :
    Option (Option (Option (List Char) × Payload ω) × XObj ω) :=
  if p.isNone then some (none, self)
  else (self.cells.load p).map fun list ↦
    (some (list.key, list.xobj), { self with readPtr := list.next })

/-- `xobj_get_first`. -/
def xobjGetFirst (self : XObj ω) :
    Option (Option (Option (List Char) × Payload ω) × XObj ω) :=
  if self.objType ≠ .stringHash then some (none, self)
  else readEntry { self with readPtr := none } self.list

/-- `xobj_get_next`. -/
def xobjGetNext (self : XObj ω) :
    Option (Option (Option (List Char) × Payload ω) × XObj ω) :=
  if self.objType ≠ .stringHash then some (none, self)
  else readEntry self self.readPtr

end Katmai.XObject
