import Mathlib.Algebra.Group.Nat.Defs
import Katmai.Foundation.Deque

/-!
# The two lists of xlist

`xlist/xlist.c` has two implementations of one interface. `new_xlist` picks the array of `n` slots
when `n > 0` (`xlv1_*`, `Xlv1`) and the doubly linked list when `n ≤ 0` (`xlv2_*`, `Xlv2`). An
element is the contents of `ssize` bytes, a value of `α` here; `memcpy` of `ssize` bytes copies the
value. The mutex is taken at the start of every function and released at its end, and is not
modelled.

A function returns `none` where the C program is undefined: an `int` sum beyond `2^31`, an index
outside the array, a `NULL` pointer that is dereferenced.
-/

set_option autoImplicit false
set_option relaxedAutoImplicit false

namespace Katmai.Xlist

open Katmai.Foundation

variable {α : Type}

/-! ### Machine operations -/

/-- The sum of two non-negative `int` values. -/
def intAdd (a b : ℕ) : Option ℕ :=
  if a + b < 2 ^ 31 then some (a + b) else none

/-- `if (data != NULL) memcpy (data, cell, ssize)`: the caller's buffer afterwards. -/
def copyOut (data cell : Option α) : Option (Option α) :=
  match data with
  | none => some none
  | some _ => cell.map some

/-! ### The array -/

/-- The fields of `struct xlist_pd_t` that the array uses. `list` holds the contents of
`list[i].ptr`. -/
structure Xlv1 (α : Type) where
  count : ℕ
  list : List α
  usecnt : ℕ
  front : ℕ
  rear : ℕ
  deriving DecidableEq

/-- `memcpy (pd->list[i].ptr, data, pd->ssize)`. -/
def Xlv1.store (self : Xlv1 α) (i : ℕ) (x : α) : Option (Xlv1 α) :=
  if i < self.list.length then some { self with list := self.list.set i x } else none

def xlv1Front (self : Xlv1 α) (data : Option α) : Option (DequeAnswer α × Xlv1 α) :=
  if 0 < self.usecnt then do
    let next ← intAdd self.front 1
    let i := next % self.count
    let data' ← copyOut data self.list[i]?
    some (⟨1, data'⟩, self)
  else some (⟨0, data⟩, self)

def xlv1Rear (self : Xlv1 α) (data : Option α) : Option (DequeAnswer α × Xlv1 α) :=
  if 0 < self.usecnt then do
    let data' ← copyOut data self.list[self.rear]?
    some (⟨1, data'⟩, self)
  else some (⟨0, data⟩, self)

def xlv1Push (self : Xlv1 α) (x : α) : Option (DequeAnswer α × Xlv1 α) :=
  if self.usecnt < self.count then do
    let next ← intAdd self.rear 1
    let i := next % self.count
    let stored ← { self with rear := i }.store i x
    let usecnt ← intAdd self.usecnt 1
    some (⟨1, none⟩, { stored with usecnt := usecnt })
  else some (⟨0, none⟩, self)

def xlv1Pop (self : Xlv1 α) (data : Option α) : Option (DequeAnswer α × Xlv1 α) :=
  if 0 < self.usecnt then do
    let sum ← intAdd self.rear self.count
    let data' ← copyOut data self.list[self.rear]?
    some (⟨1, data'⟩, { self with rear := (sum - 1) % self.count, usecnt := self.usecnt - 1 })
  else some (⟨0, data⟩, self)

def xlv1Unshift (self : Xlv1 α) (x : α) : Option (DequeAnswer α × Xlv1 α) :=
  if self.usecnt < self.count then do
    let sum ← intAdd self.front self.count
    let stored ← { self with front := (sum - 1) % self.count }.store self.front x
    let usecnt ← intAdd self.usecnt 1
    some (⟨1, none⟩, { stored with usecnt := usecnt })
  else some (⟨0, none⟩, self)

def xlv1Shift (self : Xlv1 α) (data : Option α) : Option (DequeAnswer α × Xlv1 α) :=
  if 0 < self.usecnt then do
    let next ← intAdd self.front 1
    let i := next % self.count
    let data' ← copyOut data self.list[i]?
    some (⟨1, data'⟩, { self with front := i, usecnt := self.usecnt - 1 })
  else some (⟨0, data⟩, self)

/-- A call through the function pointers of an array. -/
def xlv1Call (self : Xlv1 α) : DequeCall α → Option (DequeAnswer α × Xlv1 α)
  | .push x => xlv1Push self x
  | .pop data => xlv1Pop self data
  | .unshift x => xlv1Unshift self x
  | .shift data => xlv1Shift self data
  | .front data => xlv1Front self data
  | .rear data => xlv1Rear self data

/-! ### The linked list -/

/-- `struct xlist_list_t`: the element behind `ptr`, and the two links. A pointer to a node is its
index in the heap, `none` is `NULL`. -/
structure Node (α : Type) where
  ptr : α
  prev : Option ℕ
  next : Option ℕ
  deriving DecidableEq

/-- The fields of `struct xlist_pd_t` that the linked list uses, and the heap of all nodes it has
had from `malloc`. -/
structure Xlv2 (α : Type) where
  heap : List (Node α)
  head : Option ℕ
  tail : Option ℕ
  freelist : Option ℕ
  usecnt : ℕ
  deriving DecidableEq

/-- Replace the node a pointer points to. -/
def Xlv2.modify (self : Xlv2 α) (p : Option ℕ) (f : Node α → Node α) : Option (Xlv2 α) := do
  let a ← p
  if a < self.heap.length then some { self with heap := self.heap.modify a f } else none

/-- `p->next = q`. -/
def Xlv2.setNext (self : Xlv2 α) (p q : Option ℕ) : Option (Xlv2 α) :=
  self.modify p fun node ↦ { node with next := q }

/-- `p->prev = q`. -/
def Xlv2.setPrev (self : Xlv2 α) (p q : Option ℕ) : Option (Xlv2 α) :=
  self.modify p fun node ↦ { node with prev := q }

/-- The node a pointer points to. -/
def Xlv2.node (self : Xlv2 α) (p : Option ℕ) : Option (Node α) :=
  p.bind fun a ↦ self.heap[a]?

/-- `xlv2_malloc`, followed by the `memcpy` into the node's storage that both callers do first. The
node comes from the free list, or from `malloc`, which has memory or not (`memory`). The result is
the address of the node, `none` for a `NULL` result. -/
def xlv2Malloc (self : Xlv2 α) (memory : Bool) (x : α) : Option (Option ℕ × Xlv2 α) :=
  match self.freelist with
  | none =>
    if memory then
      some (some self.heap.length, { self with heap := self.heap ++ [⟨x, none, none⟩] })
    else some (none, self)
  | some a => do
    let node ← self.heap[a]?
    let self ← self.modify (some a) fun node ↦ { node with ptr := x }
    some (some a, { self with freelist := node.next })

/-- `xlv2_free`: `ptr->next = freelist; freelist = ptr->next`. -/
def xlv2Free (self : Xlv2 α) (p : Option ℕ) : Option (Xlv2 α) := do
  let linked ← self.setNext p self.freelist
  let node ← linked.node p
  some { linked with freelist := node.next }

def xlv2Front (self : Xlv2 α) (data : Option α) : Option (DequeAnswer α × Xlv2 α) :=
  if 0 < self.usecnt then do
    let data' ← copyOut data ((self.node self.head).map Node.ptr)
    some (⟨1, data'⟩, self)
  else some (⟨0, data⟩, self)

def xlv2Rear (self : Xlv2 α) (data : Option α) : Option (DequeAnswer α × Xlv2 α) :=
  if 0 < self.usecnt then do
    let data' ← copyOut data ((self.node self.tail).map Node.ptr)
    some (⟨1, data'⟩, self)
  else some (⟨0, data⟩, self)

def xlv2Push (self : Xlv2 α) (memory : Bool) (x : α) : Option (DequeAnswer α × Xlv2 α) := do
  let allocated ← xlv2Malloc self memory x
  match allocated with
  | (none, self) => some (⟨0, none⟩, self)
  | (some a, self) =>
    let self ← self.setNext (some a) none
    if self.usecnt = 0 then
      let self ← self.setPrev (some a) none
      some (⟨1, none⟩, { self with usecnt := self.usecnt + 1, head := some a, tail := some a })
    else
      let self ← self.setPrev (some a) self.tail
      some (⟨1, none⟩, { self with usecnt := self.usecnt + 1, tail := some a })

def xlv2Pop (self : Xlv2 α) (data : Option α) : Option (DequeAnswer α × Xlv2 α) :=
  if 0 < self.usecnt then do
    let p := self.tail
    let unlinked ←
      if self.usecnt - 1 = 0 then
        some { self with usecnt := self.usecnt - 1, head := none, tail := none }
      else do
        let node ← self.node p
        { self with usecnt := self.usecnt - 1, tail := node.prev }.setNext node.prev none
    let data' ← copyOut data ((unlinked.node p).map Node.ptr)
    let freed ← xlv2Free unlinked p
    some (⟨1, data'⟩, freed)
  else some (⟨0, data⟩, self)

def xlv2Unshift (self : Xlv2 α) (memory : Bool) (x : α) : Option (DequeAnswer α × Xlv2 α) := do
  let allocated ← xlv2Malloc self memory x
  match allocated with
  | (none, self) => some (⟨0, none⟩, self)
  | (some a, self) =>
    let self ← self.setPrev (some a) none
    if self.usecnt = 0 then
      let self ← self.setNext (some a) none
      some (⟨1, none⟩, { self with usecnt := self.usecnt + 1, head := some a, tail := some a })
    else
      let self ← self.setNext (some a) self.head
      some (⟨1, none⟩, { self with usecnt := self.usecnt + 1, head := some a })

def xlv2Shift (self : Xlv2 α) (data : Option α) : Option (DequeAnswer α × Xlv2 α) :=
  if 0 < self.usecnt then do
    let p := self.head
    let unlinked ←
      if self.usecnt - 1 = 0 then
        some { self with usecnt := self.usecnt - 1, head := none, tail := none }
      else do
        let node ← self.node p
        { self with usecnt := self.usecnt - 1, head := node.next }.setPrev node.next none
    let data' ← copyOut data ((unlinked.node p).map Node.ptr)
    let freed ← xlv2Free unlinked p
    some (⟨1, data'⟩, freed)
  else some (⟨0, data⟩, self)

/-- A call through the function pointers of a linked list. The flag says whether `malloc` has
memory when the call asks it for some. -/
def xlv2Call (self : Xlv2 α) : DequeCall α × Bool → Option (DequeAnswer α × Xlv2 α)
  | (.push x, memory) => xlv2Push self memory x
  | (.pop data, _) => xlv2Pop self data
  | (.unshift x, memory) => xlv2Unshift self memory x
  | (.shift data, _) => xlv2Shift self data
  | (.front data, _) => xlv2Front self data
  | (.rear data, _) => xlv2Rear self data

/-! ### Making a list -/

/-- A list of either kind, with the functions `new_xlist` installs. -/
inductive XlistT (α : Type) where
  | array (pd : Xlv1 α)
  | linked (pd : Xlv2 α)

/-- `sizeof (struct xlist_list_t)`, three pointers of a 32-bit machine. -/
def sizeofListT : ℕ := 12

/-- `calloc (n, sizeof (struct xlist_list_t))` gives `NULL` for a size that is no `size_t`, and
when there is no memory. -/
def callocList (n : ℕ) (memory : Bool) : Bool :=
  decide (n * sizeofListT < 2 ^ 32) && memory

/-- `new_xlist`: the linked list for `n ≤ 0`, else the array of `n` elements of zero bytes
(`zero`). The flag says whether all allocations get memory; otherwise the result is `NULL`. -/
def newXlist (n : ℤ) (zero : α) (memory : Bool) : Option (XlistT α) :=
  if memory then
    if n ≤ 0 then some (.linked ⟨[], none, none, none, 0⟩)
    else if callocList n.toNat memory then
      some (.array ⟨n.toNat, List.replicate n.toNat zero, 0, 0, 0⟩)
    else none
  else none

end Katmai.Xlist
