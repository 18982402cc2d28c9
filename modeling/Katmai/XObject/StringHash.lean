import Katmai.Foundation.CallRefinement
import Katmai.Foundation.KeyedList
import Katmai.XObject.XObject
import Mathlib.Data.List.Find

/-!
# The string hash is a finite map as long as only first keys are deleted

The purpose of the hash is a finite map that remembers the order in which its keys were put
(`mapCall`), with a cursor for an enumeration under way. While an object is used well its links lead
from `val.list` to `tail` through one node for each key (`HashNodes`).

`put` links a new node back to itself instead of to the tail before it, `del` unlinks neither the
last nor a middle node before it frees it, and `del` of the only key leaves an object of type
`STRING_HASH` without a tail. So an object stays a finite map exactly as long as the keys that are
deleted are absent or first and no new key is put after the only key was deleted
(`StaysLinked`, `string_hash_refining_iff`).
-/

set_option autoImplicit false
set_option relaxedAutoImplicit false

namespace Katmai.XObject

open Foundation

variable {ω : Type}

/-! ### Calls and the abstract map -/

/-- A call of a user of a string hash. -/
inductive HashCall
  | put (key value : List Char)
  | get (key : List Char)
  | del (key : List Char)
  | isExist (key : List Char)
  | count
  | getFirst
  | getNext
deriving DecidableEq, Repr

/-- What a call gives back. The return value of `del` does not say anything about the map. -/
inductive HashAnswer (ω : Type)
  | status (rc : ℤ)
  | done
  | value (value : Option (List Char))
  | number (count : ℕ)
  | entry (entry : Option (Option (List Char) × Payload ω))
deriving DecidableEq, Repr

/-- A call on the object. -/
def hashCall (clone : ω → ω) (self : XObj ω) : HashCall → Option (HashAnswer ω × XObj ω)
  | .put key value =>
    (xobjPut clone self (some key) (some value)).map fun (rc, self) ↦ (.status rc, self)
  | .get key => (xobjGet self key).map fun value ↦ (.value value, self)
  | .del key => (xobjDel self key).map fun (_, self) ↦ (.done, self)
  | .isExist key => (xobjIsExist self key).map fun rc ↦ (.status rc, self)
  | .count => some (.number (xobjCount self), self)
  | .getFirst => (xobjGetFirst self).map fun (entry, self) ↦ (.entry entry, self)
  | .getNext => (xobjGetNext self).map fun (entry, self) ↦ (.entry entry, self)

/-- A finite map in insertion order, with what is left of an enumeration under way. -/
structure OrderedMap where
  entries : List (List Char × List Char)
  cursor : List (List Char × List Char)
deriving DecidableEq, Repr

/-- A key is given a new value in place. -/
def withValue (key value : List Char) (e : List Char × List Char) : List Char × List Char :=
  if e.1 = key then (key, value) else e

/-- What an enumeration hands out. -/
def handOver (e : List Char × List Char) : Option (List Char) × Payload ω := (some e.1, .str e.2)

/-- A call to the finite map. A new key ends an enumeration under way, and so does the deletion of
the key it comes to next. -/
def mapCall (map : OrderedMap) : HashCall → HashAnswer ω × OrderedMap
  | .put key value =>
    (.status 1, if key ∈ map.entries.map Prod.fst then
        { entries := map.entries.map (withValue key value)
          cursor := map.cursor.map (withValue key value) }
      else { entries := map.entries ++ [(key, value)], cursor := [] })
  | .get key => (.value ((lookup Prod.fst key map.entries).map Prod.snd), map)
  | .del key =>
    (.done, {
      entries := map.entries.filter fun e ↦ e.1 ≠ key
      cursor := if map.cursor.head?.map Prod.fst = some key then []
        else map.cursor.filter fun e ↦ e.1 ≠ key })
  | .isExist key => (.status (if key ∈ map.entries.map Prod.fst then 1 else 0), map)
  | .count => (.number map.entries.length, map)
  | .getFirst =>
    (.entry (map.entries.head?.map handOver), { map with cursor := map.entries.tail })
  | .getNext => (.entry (map.cursor.head?.map handOver), { map with cursor := map.cursor.tail })

/-- The entries that `xobj_get_next` hands out until it returns `0`. -/
inductive NextUntilZero : XObj ω → List (List Char × List Char) → Prop
  | stop {self self' : XObj ω} (hnext : xobjGetNext self = some (none, self')) :
    NextUntilZero self []
  | more {self self' : XObj ω} {e : List Char × List Char} {rest : List (List Char × List Char)}
    (hnext : xobjGetNext self = some (some (handOver e), self'))
    (hrest : NextUntilZero self' rest) :
    NextUntilZero self (e :: rest)

/-- The entries that `xobj_get_first` and then `xobj_get_next` hand out until one returns `0`. -/
def Enumerates (self : XObj ω) : List (List Char × List Char) → Prop
  | [] => ∃ self', xobjGetFirst self = some (none, self')
  | e :: rest =>
    ∃ self', xobjGetFirst self = some (some (handOver e), self') ∧ NextUntilZero self' rest

/-- Everything that can be asked about a map is answered as the map says. -/
structure AnswersAs (obj : XObj ω) (map : OrderedMap) : Prop where
  count : xobjCount obj = map.entries.length
  get : ∀ key, xobjGet obj key = some ((lookup Prod.fst key map.entries).map Prod.snd)
  enumerates : Enumerates obj map.entries

/-! ### The links of a hash -/

/-- The entry of the map that a node stands for. -/
def entryOf (item : ℕ × ListEntry ω) : List Char × List Char :=
  (item.2.key.getD [], item.2.xobj.string.getD [])

/-- The key of a node. -/
def nodeKey (item : ℕ × ListEntry ω) : List Char := (entryOf item).1

/-- The links of a hash whose nodes are `nodes` and whose enumeration under way has `rest` left.
Every node but the first is linked back to itobj. -/
structure HashNodes (obj : XObj ω) (map : OrderedMap) (nodes rest : List (ℕ × ListEntry ω)) :
    Prop where
  objType : obj.objType = .stringHash ∨ (obj.objType = .empty ∧ nodes = [])
  linked : LinkPath ListEntry.next obj.cells obj.list nodes none
  stored : ∀ item ∈ nodes, (item.2.key, item.2.xobj) = handOver (entryOf item)
  entries : map.entries = nodes.map entryOf
  nodup : (nodes.map nodeKey).Nodup
  count : obj.listCount = nodes.length
  tail : obj.tail = nodes.getLast?.map Prod.fst
  prev : ∀ item ∈ nodes.tail, item.2.prev = some item.1
  suffix : rest <:+ nodes
  reading : LinkPath ListEntry.next obj.cells obj.readPtr rest none
  cursor : map.cursor = rest.map entryOf

/-- The object is linked as a hash that holds the map. -/
def HoldsMap (self : XObj ω) (map : OrderedMap) : Prop :=
  ∃ nodes rest, HashNodes self map nodes rest

variable {self : XObj ω} {map : OrderedMap} {nodes rest : List (ℕ × ListEntry ω)}

theorem holdsMap_new : HoldsMap (xobjNew : XObj ω) ⟨[], []⟩ :=
  ⟨[], [], .inr ⟨rfl, rfl⟩, rfl, by simp, rfl, by simp, rfl, rfl, by simp, by simp, rfl, rfl⟩

theorem HashNodes.key_eq (hnodes : HashNodes self map nodes rest) {item : ℕ × ListEntry ω}
    (hitem : item ∈ nodes) : item.2.key = some (nodeKey item) :=
  congrArg Prod.fst (hnodes.stored item hitem)

theorem HashNodes.xobj_eq (hnodes : HashNodes self map nodes rest) {item : ℕ × ListEntry ω}
    (hitem : item ∈ nodes) : item.2.xobj = .str (entryOf item).2 :=
  congrArg Prod.snd (hnodes.stored item hitem)

/-! ### Searching -/

/-- The keys of the map are those of the nodes. -/
theorem HashNodes.map_fst_entries (hnodes : HashNodes self map nodes rest) :
    map.entries.map Prod.fst = nodes.map nodeKey := by
  rw [hnodes.entries, List.map_map]
  rfl

/-- The entry of a key is that of its node. -/
theorem HashNodes.lookup_entries (hnodes : HashNodes self map nodes rest) (key : List Char) :
    lookup Prod.fst key map.entries = (lookup nodeKey key nodes).map entryOf := by
  rw [hnodes.entries, lookup, List.find?_map]
  rfl

/-- `xobj_internal_get` finds the node of a key. -/
theorem HashNodes.internalGet (hnodes : HashNodes self map nodes rest) (key : List Char) :
    xobjInternalGet self key = some ((lookup nodeKey key nodes).map Prod.fst) := by
  unfold xobjInternalGet
  rcases hnodes.objType with htype | ⟨htype, rfl⟩
  · have hfind : (nodes.find? fun item ↦ item.2.key = some key) = lookup nodeKey key nodes :=
      List.find?_congr fun item hitem ↦ decide_eq_decide.mpr <| by
        simp [hnodes.key_eq hitem]
    rw [if_neg (by simp [htype]), seek_eq_find _ hnodes.linked
      (Nat.lt_succ_of_le hnodes.linked.length_le), hfind]
  · simp [htype, lookup]

/-- `xobj_get` answers as the map. -/
theorem HashNodes.get (hnodes : HashNodes self map nodes rest) (key : List Char) :
    xobjGet self key = some ((lookup Prod.fst key map.entries).map Prod.snd) := by
  rw [xobjGet, hnodes.internalGet, hnodes.lookup_entries]
  cases hfind : lookup nodeKey key nodes with
  | none => rfl
  | some item =>
    have hitem := mem_of_lookup hfind
    have hload := hnodes.linked.load_of_mem hitem
    simp [hload, hnodes.xobj_eq hitem, Payload.string]

theorem HashNodes.isExist (hnodes : HashNodes self map nodes rest) (key : List Char) :
    xobjIsExist self key = some (if key ∈ map.entries.map Prod.fst then 1 else 0) := by
  rw [xobjIsExist, hnodes.get]
  by_cases hmem : key ∈ map.entries.map Prod.fst
  · have hne : lookup Prod.fst key map.entries ≠ none := fun hnone ↦
      lookup_eq_none_iff.mp hnone hmem
    obtain ⟨e, he⟩ := Option.ne_none_iff_exists'.mp hne
    simp [he, hmem]
  · rw [lookup_eq_none_iff.mpr hmem]
    simp [hmem]

theorem HashNodes.xobjCount_eq (hnodes : HashNodes self map nodes rest) :
    xobjCount self = map.entries.length := by
  unfold xobjCount
  rw [hnodes.entries, List.length_map]
  rcases hnodes.objType with htype | ⟨htype, rfl⟩
  · simp [htype, hnodes.count]
  · simp [htype]

/-! ### Enumerating -/

/-- The enumeration goes on at another node. -/
theorem HashNodes.readPtr (hnodes : HashNodes self map nodes rest) {p : Option ℕ}
    {later : List (ℕ × ListEntry ω)} (hlater : later <:+ nodes)
    (hreading : LinkPath ListEntry.next self.cells p later none) :
    HashNodes { self with readPtr := p } { map with cursor := later.map entryOf } nodes later :=
  { hnodes with suffix := hlater, reading := hreading, cursor := rfl }

/-- What reading at a node gives and leaves. -/
theorem HashNodes.readEntry (hnodes : HashNodes self map nodes rest) {p : Option ℕ}
    {later : List (ℕ × ListEntry ω)} (hlater : later <:+ nodes)
    (hreading : LinkPath ListEntry.next self.cells p later none)
    (hempty : later = [] → self.readPtr = none) :
    ∃ self', readEntry self p = some ((later.map entryOf).head?.map handOver, self') ∧
      HashNodes self' { map with cursor := (later.map entryOf).tail } nodes later.tail := by
  cases later with
  | nil =>
    have hp : p = none := hreading
    subst hp
    refine ⟨self, rfl, ?_⟩
    have hnext := hnodes.readPtr hlater hreading
    rwa [← hempty rfl] at hnext
  | cons item later =>
    obtain ⟨rfl, hload, hrest⟩ := hreading
    refine ⟨{ self with readPtr := item.2.next }, ?_, ?_⟩
    · have hitem : item ∈ nodes := hlater.subset (by simp)
      rw [XObject.readEntry, hload]
      simp [← hnodes.stored item hitem]
    · exact hnodes.readPtr ((List.suffix_cons item later).trans hlater) hrest

/-- `xobj_get_next`. -/
theorem HashNodes.getNext (hnodes : HashNodes self map nodes rest) :
    ∃ self', xobjGetNext self = some (map.cursor.head?.map handOver, self') ∧
      HashNodes self' { map with cursor := map.cursor.tail } nodes rest.tail := by
  have hread := hnodes.readEntry hnodes.suffix hnodes.reading fun hnil ↦ by
    subst hnil
    exact hnodes.reading
  rw [← hnodes.cursor] at hread
  rcases hnodes.objType with htype | ⟨htype, rfl⟩
  · rwa [xobjGetNext, if_neg (by simp [htype])]
  · have hrest : rest = [] := List.suffix_nil.mp hnodes.suffix
    have hcursor : map.cursor = [] := by rw [hnodes.cursor, hrest, List.map_nil]
    refine ⟨self, by simp [xobjGetNext, htype, hcursor], ?_⟩
    have hmap : { map with cursor := map.cursor.tail } = map := by
      cases map
      simp_all
    rw [hmap, show rest.tail = rest by simp [hrest]]
    exact hnodes

/-- `xobj_get_first`. -/
theorem HashNodes.getFirst (hnodes : HashNodes self map nodes rest) :
    ∃ self', xobjGetFirst self = some (map.entries.head?.map handOver, self') ∧
      HashNodes self' { map with cursor := map.entries.tail } nodes nodes.tail := by
  rcases hnodes.objType with htype | ⟨htype, rfl⟩
  · have hread := (hnodes.readPtr (List.nil_suffix) rfl).readEntry (List.suffix_refl nodes)
      hnodes.linked fun _ ↦ rfl
    rw [← hnodes.entries] at hread
    rwa [xobjGetFirst, if_neg (by simp [htype])]
  · obtain rfl : rest = [] := List.suffix_nil.mp hnodes.suffix
    have hentries : map.entries = [] := hnodes.entries
    have hmap : { map with cursor := map.entries.tail } = map := by
      have hcursor : map.cursor = [] := hnodes.cursor
      cases map
      simp_all
    refine ⟨self, by simp [xobjGetFirst, htype, hentries], ?_⟩
    rw [hmap]
    exact hnodes

/-- `xobj_get_next` hands out what is left of the enumeration. -/
theorem HashNodes.nextUntilZero (hnodes : HashNodes self map nodes rest) :
    NextUntilZero self map.cursor := by
  induction rest generalizing self map with
  | nil =>
    obtain ⟨self', hnext, -⟩ := hnodes.getNext
    have hcursor : map.cursor = [] := hnodes.cursor
    rw [hcursor] at hnext ⊢
    exact .stop hnext
  | cons item rest ih =>
    obtain ⟨self', hnext, hnodes'⟩ := hnodes.getNext
    have hrest := ih hnodes'
    have hcursor : map.cursor = entryOf item :: rest.map entryOf := hnodes.cursor
    rw [hcursor] at hnext hrest ⊢
    exact .more hnext hrest

/-- The whole enumeration hands out the entries of the map. -/
theorem HashNodes.enumerates (hnodes : HashNodes self map nodes rest) :
    Enumerates self map.entries := by
  obtain ⟨self', hfirst, hnodes'⟩ := hnodes.getFirst
  have hlater := hnodes'.nextUntilZero
  cases hentries : map.entries with
  | nil =>
    rw [hentries] at hfirst
    exact ⟨self', hfirst⟩
  | cons e entries =>
    rw [hentries] at hfirst hlater
    exact ⟨self', hfirst, hlater⟩

theorem HashNodes.answersAs (hnodes : HashNodes self map nodes rest) : AnswersAs self map :=
  ⟨hnodes.xobjCount_eq, hnodes.get, hnodes.enumerates⟩

/-! ### Putting -/

/-- The last node and the nodes before it. -/
theorem HashNodes.eq_concat (hnodes : HashNodes self map nodes rest) {t : ℕ}
    (htail : self.tail = some t) : ∃ init last, nodes = init ++ [(t, last)] := by
  rw [hnodes.tail] at htail
  obtain ⟨⟨a, last⟩, hlast, rfl⟩ := Option.map_eq_some_iff.mp htail
  obtain ⟨init, hinit⟩ := List.getLast?_eq_some_iff.mp hlast
  exact ⟨init, last, hinit⟩

/-- The first key of an object without nodes. -/
theorem HashNodes.putNewEntry_empty (hnodes : HashNodes self map nodes rest)
    (htype : self.objType = .empty) (clone : ω → ω) (key value : List Char) :
    ∃ self', putNewEntry clone self true none key value = some (1, self') ∧
      HoldsMap self' ⟨map.entries ++ [(key, value)], []⟩ := by
  have hnil : nodes = [] := by
    rcases hnodes.objType with h | ⟨-, h⟩
    · rw [htype] at h
      cases h
    · exact h
  subst hnil
  refine ⟨_, by simp only [putNewEntry, internalNewListObjEntry, htype, if_true]; rfl,
    [(self.cells.length, ⟨some key, .str value, none, none⟩)], [], ?_⟩
  have hentries : map.entries = [] := hnodes.entries
  exact
    { objType := .inl rfl
      linked := ⟨rfl, Cells.load_alloc_self _ _, rfl⟩
      stored := by simp [entryOf, handOver, Payload.string]
      entries := by simp [hentries, entryOf, Payload.string]
      nodup := by simp
      count := rfl
      tail := rfl
      prev := by simp
      suffix := List.nil_suffix
      reading := rfl
      cursor := rfl }

/-- A new key behind others. -/
theorem HashNodes.putNewEntry_later (hnodes : HashNodes self map nodes rest)
    (htype : self.objType = .stringHash) {t : ℕ} (htail : self.tail = some t) (clone : ω → ω)
    {key : List Char} (hkey : key ∉ map.entries.map Prod.fst) (value : List Char) :
    ∃ self', putNewEntry clone self true none key value = some (1, self') ∧
      HoldsMap self' ⟨map.entries ++ [(key, value)], []⟩ := by
  obtain ⟨init, last, rfl⟩ := hnodes.eq_concat htail
  obtain ⟨cells1, cells2, hupdate1, hupdate2, hlinked⟩ :=
    hnodes.linked.allocBehind (f := .setNext (some self.cells.length))
      (g := .setPrev (some self.cells.length)) ⟨some key, .str value, none, none⟩ rfl (fun _ ↦ rfl)
      rfl
  have hput : putNewEntry clone self true none key value = some (1, { self with
      cells := cells2, readPtr := none, tail := some self.cells.length
      listCount := self.listCount + 1 }) := by
    simp [putNewEntry, internalNewListObjEntry, newListObjEntry, linkAsTail, htype, htail, hupdate1,
      hupdate2]
  have hlast : (t, last) ∈ init ++ [(t, last)] := by simp
  refine ⟨_, hput, init ++ [(t, last.setNext (some self.cells.length)), (self.cells.length,
    ListEntry.setPrev (some self.cells.length) ⟨some key, .str value, none, none⟩)], [], ?_⟩
  refine
    { objType := .inl htype
      linked := hlinked
      stored := ?_
      entries := by rw [hnodes.entries]; simp [entryOf, ListEntry.setNext, ListEntry.setPrev,
        Payload.string]
      nodup := ?_
      count := by simp [hnodes.count]
      tail := by simp
      prev := ?_
      suffix := List.nil_suffix
      reading := rfl
      cursor := rfl }
  · intro item hitem
    rcases List.mem_append.mp hitem with hinit | hnew
    · exact hnodes.stored item (List.mem_append_left _ hinit)
    · rcases List.mem_pair.mp hnew with rfl | rfl
      · exact hnodes.stored (t, last) hlast
      · rfl
  · have hnodup := hnodes.nodup
    rw [hnodes.map_fst_entries] at hkey
    have hsnoc : (((init ++ [(t, last)]).map nodeKey) ++ [key]).Nodup :=
      List.Nodup.append hnodup (List.nodup_singleton key) (by simpa using hkey)
    have hmap : (init ++ [(t, last.setNext (some self.cells.length)), (self.cells.length,
        ListEntry.setPrev (some self.cells.length) ⟨some key, .str value, none, none⟩)]).map
        nodeKey = (init ++ [(t, last)]).map nodeKey ++ [key] := by
      simp [nodeKey, entryOf, ListEntry.setNext, ListEntry.setPrev]
    rwa [hmap]
  · intro item hitem
    cases init with
    | nil =>
      obtain rfl := List.mem_singleton.mp hitem
      rfl
    | cons first init =>
      rcases List.mem_append.mp hitem with hinit | hnew
      · exact hnodes.prev item (List.mem_append_left _ hinit)
      · rcases List.mem_pair.mp hnew with rfl | rfl
        · exact hnodes.prev (t, last) (by simp)
        · rfl

/-- After the only key was deleted a new key cannot be put. -/
theorem HashNodes.putNewEntry_emptied (hnodes : HashNodes self map [] rest)
    (htype : self.objType = .stringHash) (clone : ω → ω) (key value : List Char) :
    putNewEntry clone self true none key value = none := by
  have htail : self.tail = none := hnodes.tail
  simp [putNewEntry, internalNewListObjEntry, linkAsTail, htype, htail, Cells.update]

/-- A present key is given its new value in place. -/
theorem HashNodes.replace (hnodes : HashNodes self map nodes rest) {item : ℕ × ListEntry ω}
    (hitem : item ∈ nodes) (value : List Char) :
    ∃ cells, self.cells.update (some item.1) (fun entry ↦ { entry with xobj := .str value }) =
        some cells ∧
      HoldsMap { self with cells }
        { entries := map.entries.map (withValue (nodeKey item) value)
          cursor := map.cursor.map (withValue (nodeKey item) value) } := by
  have hload := hnodes.linked.load_of_mem hitem
  set f : ListEntry ω → ListEntry ω := fun entry ↦ { entry with xobj := .str value } with hf
  -- The node that is written is the one with the key.
  have hentry (other : ℕ × ListEntry ω) (hother : other ∈ nodes) :
      entryOf (touch item.1 f other) = withValue (nodeKey item) value (entryOf other) := by
    by_cases haddr : other.1 = item.1
    · obtain rfl := List.inj_on_of_nodup_map hnodes.linked.nodup hother hitem haddr
      have hkey : (entryOf other).1 = nodeKey other := rfl
      rw [touch, if_pos rfl, withValue, if_pos hkey]
      rfl
    · have hkey : (entryOf other).1 ≠ nodeKey item := fun hkey ↦
        haddr (congrArg Prod.fst (List.inj_on_of_nodup_map hnodes.nodup hother hitem hkey))
      rw [touch_of_ne haddr, withValue, if_neg hkey]
  have hmap {later : List (ℕ × ListEntry ω)} (hlater : ∀ other ∈ later, other ∈ nodes) :
      (later.map entryOf).map (withValue (nodeKey item) value) =
        (later.map (touch item.1 f)).map entryOf := by
    rw [List.map_map, List.map_map]
    exact List.map_congr_left fun other hother ↦ (hentry other (hlater other hother)).symm
  refine ⟨_, Cells.update_of_load hload, nodes.map (touch item.1 f), rest.map (touch item.1 f), ?_⟩
  refine
    { objType := hnodes.objType.imp id fun ⟨htype, hnil⟩ ↦ ⟨htype, by rw [hnil, List.map_nil]⟩
      linked := hnodes.linked.touch (fun _ ↦ rfl) hload
      stored := ?_
      entries := by rw [hnodes.entries, hmap fun _ h ↦ h]
      nodup := ?_
      count := by rw [List.length_map, hnodes.count]
      tail := ?_
      prev := ?_
      suffix := hnodes.suffix.map _
      reading := hnodes.reading.touch (fun _ ↦ rfl) hload
      cursor := by rw [hnodes.cursor, hmap fun _ h ↦ hnodes.suffix.subset h] }
  · intro other hother
    obtain ⟨old, hold, rfl⟩ := List.mem_map.mp hother
    by_cases haddr : old.1 = item.1
    · rw [touch, if_pos haddr]
      exact Prod.ext (hnodes.key_eq hold) rfl
    · rw [touch_of_ne haddr]
      exact hnodes.stored old hold
  · rw [map_touch nodeKey f fun _ _ ↦ rfl]
    exact hnodes.nodup
  · rw [getLast?_touch]
    exact hnodes.tail
  · intro other hother
    rw [← List.map_tail] at hother
    obtain ⟨old, hold, rfl⟩ := List.mem_map.mp hother
    rw [touch_fst, ← hnodes.prev old hold]
    exact apply_touch (fun other ↦ other.2.prev) f (fun _ _ ↦ rfl) old

/-! ### Deleting -/

/-- Entries without a key stay when the key is filtered out. -/
theorem filter_entries_of_notMem {key : List Char} {later : List (ℕ × ListEntry ω)}
    (hkey : key ∉ later.map nodeKey) :
    ((later.map entryOf).filter fun e ↦ e.1 ≠ key) = later.map entryOf := by
  refine List.filter_eq_self.mpr fun e he ↦ ?_
  obtain ⟨item, hitem, rfl⟩ := List.mem_map.mp he
  have hne : (entryOf item).1 ≠ key := fun heq ↦ hkey (heq ▸ List.mem_map_of_mem hitem)
  simpa using hne

/-- What is left of an enumeration when a key is deleted that it has passed. -/
theorem cursor_of_notMem {key : List Char} {later : List (ℕ × ListEntry ω)}
    (hkey : key ∉ later.map nodeKey) :
    (if (later.map entryOf).head?.map Prod.fst = some key then []
      else (later.map entryOf).filter fun e ↦ e.1 ≠ key) = later.map entryOf := by
  rw [filter_entries_of_notMem hkey, if_neg]
  intro hhead
  cases later with
  | nil => cases hhead
  | cons item later => exact hkey (by simpa [nodeKey] using Or.inl (Option.some.inj hhead).symm)

/-- The call `del` to the map. -/
theorem mapCall_del (map : OrderedMap) (key : List Char) :
    (mapCall map (.del key) : HashAnswer ω × OrderedMap).2 =
      { entries := map.entries.filter fun e ↦ e.1 ≠ key
        cursor := if map.cursor.head?.map Prod.fst = some key then []
          else map.cursor.filter fun e ↦ e.1 ≠ key } := rfl

/-- An absent key. -/
theorem HashNodes.del_absent (hnodes : HashNodes self map nodes rest) {key : List Char}
    (hkey : key ∉ nodes.map nodeKey) :
    ∃ rc, xobjDel self key = some (rc, self) ∧
      (mapCall map (.del key) : HashAnswer ω × OrderedMap).2 = map := by
  have hrest : key ∉ rest.map nodeKey := fun hmem ↦
    hkey ((hnodes.suffix.map nodeKey).subset hmem)
  have hmap : (mapCall map (.del key) : HashAnswer ω × OrderedMap).2 = map := by
    rw [mapCall_del, hnodes.entries, hnodes.cursor, filter_entries_of_notMem hkey,
      cursor_of_notMem hrest, ← hnodes.entries, ← hnodes.cursor]
  have hget : xobjInternalGet self key = some none := by
    rw [hnodes.internalGet, lookup_eq_none_iff.mpr hkey, Option.map_none]
  by_cases htype : self.objType ≠ .stringHash ∧ self.objType ≠ .hash
  · exact ⟨0, by rw [xobjDel, if_pos htype], hmap⟩
  · exact ⟨1, by rw [xobjDel, if_neg htype, hget]; rfl, hmap⟩

/-- What is left of an enumeration when the first key is deleted. -/
theorem HashNodes.readPtr_first {item : ℕ × ListEntry ω} {later : List (ℕ × ListEntry ω)}
    (hnodes : HashNodes self map (item :: later) rest) :
    ∃ rest', rest' <:+ later ∧
      LinkPath ListEntry.next self.cells
        (if self.readPtr = some item.1 then none else self.readPtr) rest' none ∧
      (mapCall map (.del (nodeKey item)) : HashAnswer ω × OrderedMap).2 =
        { entries := later.map entryOf, cursor := rest'.map entryOf } := by
  have hnodup := hnodes.nodup
  rw [List.map_cons, List.nodup_cons] at hnodup
  have hentries : ((item :: later).map entryOf).filter (fun e ↦ e.1 ≠ nodeKey item) =
      later.map entryOf := by
    rw [← filter_entries_of_notMem hnodup.1]
    simp [nodeKey]
  rw [mapCall_del, hnodes.entries, hentries, hnodes.cursor]
  rcases List.suffix_cons_iff.mp hnodes.suffix with rfl | hsuffix
  · have hread : self.readPtr = some item.1 := hnodes.reading.1
    exact ⟨[], List.nil_suffix, by rw [if_pos hread]; rfl, by simp [nodeKey]⟩
  · have hkey : nodeKey item ∉ rest.map nodeKey := fun hmem ↦
      hnodup.1 ((hsuffix.map nodeKey).subset hmem)
    have hread : self.readPtr ≠ some item.1 := by
      intro hread
      have haddr := hnodes.linked.nodup
      rw [List.map_cons, List.nodup_cons] at haddr
      have hreading := hnodes.reading
      cases rest with
      | nil =>
        rw [show self.readPtr = none from hreading] at hread
        cases hread
      | cons next rest =>
        have heq : item.1 = next.1 := Option.some.inj (hread.symm.trans hreading.1)
        exact haddr.1 (heq ▸ List.mem_map_of_mem (hsuffix.subset (by simp)))
    exact ⟨rest, hsuffix, by rw [if_neg hread]; exact hnodes.reading, by
      rw [cursor_of_notMem hkey]⟩

/-- A present key among others. -/
theorem xobjDel_of_found (htype : self.objType = .stringHash) {key : List Char} {a : ℕ}
    (hget : xobjInternalGet self key = some (some a)) (hcount : self.listCount ≠ 1) :
    xobjDel self key = (unlinkEntry (forgetReadPtr self a) a).map fun self ↦ (1, self) := by
  simp [xobjDel, htype, hget, forgetReadPtr, hcount]

/-- The only key: the node stays in memory, and the object has no tail any more. -/
theorem HashNodes.del_only {item : ℕ × ListEntry ω}
    (hnodes : HashNodes self map [item] rest) :
    ∃ self', xobjDel self (nodeKey item) = some (1, self') ∧
      HoldsMap self' (mapCall map (.del (nodeKey item)) : HashAnswer ω × OrderedMap).2 := by
  obtain ⟨rest', hsuffix, hreading, hmap⟩ := hnodes.readPtr_first
  obtain rfl : rest' = [] := List.suffix_nil.mp hsuffix
  have htype : self.objType = .stringHash := hnodes.objType.resolve_right fun h ↦ by simp at h
  have hget : xobjInternalGet self (nodeKey item) = some (some item.1) := by
    rw [hnodes.internalGet, lookup_cons, if_pos rfl, Option.map_some]
  have hcount : self.listCount = 1 := hnodes.count
  have hdel : xobjDel self (nodeKey item) =
      some (1, { forgetReadPtr self item.1 with list := none, tail := none, listCount := 0 }) := by
    simp [xobjDel, htype, hget, forgetReadPtr, hcount]
  rw [hmap]
  exact ⟨_, hdel, [], [],
    { objType := .inl htype
      linked := rfl
      stored := by simp
      entries := rfl
      nodup := by simp
      count := rfl
      tail := rfl
      prev := by simp
      suffix := List.nil_suffix
      reading := hreading
      cursor := rfl }⟩

/-- The first key among others. -/
theorem HashNodes.del_first {item second : ℕ × ListEntry ω} {later : List (ℕ × ListEntry ω)}
    (hnodes : HashNodes self map (item :: second :: later) rest) :
    ∃ self', xobjDel self (nodeKey item) = some (1, self') ∧
      HoldsMap self' (mapCall map (.del (nodeKey item)) : HashAnswer ω × OrderedMap).2 := by
  obtain ⟨rest', hsuffix, hreading, hmap⟩ := hnodes.readPtr_first
  have htype : self.objType = .stringHash := hnodes.objType.resolve_right fun h ↦ by simp at h
  have hget : xobjInternalGet self (nodeKey item) = some (some item.1) := by
    rw [hnodes.internalGet, lookup_cons, if_pos rfl, Option.map_some]
  have hcount : self.listCount = later.length + 1 + 1 := hnodes.count
  obtain ⟨hlist, hload, hlater⟩ := hnodes.linked
  have hnext : item.2.next = some second.1 := hlater.1
  have hsecond := hlater.load_of_mem (show second ∈ second :: later by simp)
  have haddr := hnodes.linked.nodup
  rw [List.map_cons, List.nodup_cons] at haddr
  obtain ⟨cells, hcells⟩ : ∃ cells, cells = List.set self.cells second.1
    (some (second.2.setPrev none)) := ⟨_, rfl⟩
  have hupdate : self.cells.update (some second.1) (.setPrev none) = some cells := by
    rw [Cells.update_of_load hsecond, hcells]
  have hdel : xobjDel self (nodeKey item) = some (1, { forgetReadPtr self item.1 with
      list := some second.1, listCount := later.length + 1
      cells := Cells.release cells (some item.1) }) := by
    rw [xobjDel_of_found htype hget (by omega)]
    simp [unlinkEntry, forgetReadPtr, hload, hlist, hnext, hupdate, hcount]
  rw [hmap]
  -- The first node is released behind the nodes that stay.
  have hframe {p : Option ℕ} {nodes : List (ℕ × ListEntry ω)} (hsub : nodes <:+ second :: later)
      (hseg : LinkPath ListEntry.next self.cells p nodes none) :
      LinkPath ListEntry.next (Cells.release cells (some item.1)) p
        (nodes.map (touch second.1 (.setPrev none))) none := by
    have htouch := hseg.touch (f := .setPrev none) (fun _ ↦ rfl) hsecond
    rw [← hcells] at htouch
    refine htouch.frame fun other hother ↦ Cells.load_release_ne ?_
    obtain ⟨old, hold, rfl⟩ := List.mem_map.mp hother
    rw [touch_fst]
    intro heq
    exact haddr.1 (heq ▸ List.mem_map_of_mem (hsub.subset hold))
  have hentry (other : ℕ × ListEntry ω) :
      entryOf (touch second.1 (.setPrev none) other) = entryOf other :=
    apply_touch entryOf (.setPrev none) (fun _ _ ↦ rfl) other
  have hmapEntry (nodes : List (ℕ × ListEntry ω)) :
      nodes.map entryOf = (nodes.map (touch second.1 (.setPrev none))).map entryOf :=
    (map_touch entryOf (.setPrev none) (fun _ _ ↦ rfl) nodes).symm
  have htail : self.tail = (second :: later).getLast?.map Prod.fst := by
    rw [hnodes.tail, List.getLast?_cons_cons]
  refine ⟨_, hdel, (second :: later).map (touch second.1 (.setPrev none)),
    rest'.map (touch second.1 (.setPrev none)), ?_⟩
  refine
    { objType := .inl htype
      linked := hnext ▸ hframe (List.suffix_refl _) hlater
      stored := ?_
      entries := hmapEntry _
      nodup := ?_
      count := by simp
      tail := ?_
      prev := ?_
      suffix := hsuffix.map _
      reading := hframe hsuffix hreading
      cursor := hmapEntry _ }
  · intro other hother
    obtain ⟨old, hold, rfl⟩ := List.mem_map.mp hother
    rw [hentry, ← hnodes.stored old (List.mem_cons_of_mem item hold)]
    exact apply_touch (fun other ↦ (other.2.key, other.2.xobj)) (.setPrev none) (fun _ _ ↦ rfl) old
  · rw [map_touch nodeKey (.setPrev none) fun _ _ ↦ rfl]
    exact (List.nodup_cons.mp hnodes.nodup).2
  · rw [getLast?_touch]
    exact htail
  · intro other hother
    rw [← List.map_tail] at hother
    obtain ⟨old, hold, rfl⟩ := List.mem_map.mp hother
    have hne : old.1 ≠ second.1 := fun heq ↦
      (List.nodup_cons.mp haddr.2).1 (heq ▸ List.mem_map_of_mem hold)
    rw [touch_of_ne hne]
    exact hnodes.prev old (List.mem_cons_of_mem second hold)

/-- An enumeration that comes to a released node has no end. -/
theorem not_nextUntilZero (self : XObj ω) (htype : self.objType = .stringHash)
    {before : List (ℕ × ListEntry ω)} {a : ℕ}
    (hseg : LinkPath ListEntry.next self.cells self.readPtr before (some a))
    (hdead : self.cells.load (some a) = none) (entries : List (List Char × List Char)) :
    ¬NextUntilZero self entries := by
  induction before generalizing self entries with
  | nil =>
    have hread : self.readPtr = some a := hseg
    have hnone : xobjGetNext self = none := by
      rw [xobjGetNext, if_neg (by simp [htype]), readEntry, hread, hdead]
      rfl
    intro hnext
    cases hnext with
    | stop hstop => simp [hnone] at hstop
    | more hmore hrest => simp [hnone] at hmore
  | cons item before ih =>
    obtain ⟨hread, hload, hrest⟩ := hseg
    have hsome : xobjGetNext self =
        some (some (item.2.key, item.2.xobj), { self with readPtr := item.2.next }) := by
      rw [xobjGetNext, if_neg (by simp [htype]), readEntry, hread, hload]
      rfl
    intro hnext
    cases hnext with
    | stop hstop => simp [hsome] at hstop
    | more hmore hlater =>
      obtain ⟨-, rfl⟩ := Prod.mk.inj (Option.some.inj (hsome.symm.trans hmore))
      exact ih { self with readPtr := item.2.next } htype hrest hdead _ hlater

/-- An entry that is neither first nor linked back to another one is released in its place. -/
theorem unlinkEntry_later (self : XObj ω) {a : ℕ} {entry : ListEntry ω}
    (hload : self.cells.load (some a) = some entry) (hprev : entry.prev = some a)
    (hlist : self.list ≠ some a) :
    ∃ self', unlinkEntry self a = some self' ∧ self'.objType = self.objType ∧
      self'.list = self.list ∧ self'.cells.load (some a) = none ∧
      ∀ b, b ≠ a → self'.cells.load (some b) = self.cells.load (some b) := by
  by_cases htail : self.tail = some a
  · have hunlink : unlinkEntry self a = some { self with
        listCount := self.listCount - 1
        cells := Cells.release (List.set self.cells a (some (entry.setNext none))) (some a) } := by
      simp [unlinkEntry, hload, hlist, htail, hprev, Cells.update_of_load hload]
    refine ⟨_, hunlink, rfl, rfl, Cells.load_release_self _ _, fun b hb ↦ ?_⟩
    exact (Cells.load_release_ne hb.symm).trans (Cells.load_set_ne hb.symm _)
  · have hunlink : unlinkEntry self a = some { self with
        listCount := self.listCount - 1, cells := self.cells.release (some a) } := by
      simp [unlinkEntry, hload, hlist, htail]
    exact ⟨_, hunlink, rfl, rfl, Cells.load_release_self _ _, fun b hb ↦
      Cells.load_release_ne hb.symm⟩

/-- Any other key: the links still lead to its node, which is released. -/
theorem HashNodes.del_later {first item : ℕ × ListEntry ω} {before after : List (ℕ × ListEntry ω)}
    (hnodes : HashNodes self map (first :: before ++ item :: after) rest) :
    ∃ self', xobjDel self (nodeKey item) = some (1, self') ∧
      ∀ entries, ¬Enumerates self' entries := by
  have hitem : item ∈ first :: before ++ item :: after := by simp
  have htype : self.objType = .stringHash := hnodes.objType.resolve_right fun h ↦ by simp at h
  have hget : xobjInternalGet self (nodeKey item) = some (some item.1) := by
    rw [hnodes.internalGet, lookup_of_mem hnodes.nodup hitem, Option.map_some]
  have hcount : self.listCount ≠ 1 := by
    rw [hnodes.count]
    simp
  obtain ⟨r, hfirst, hitemSeg⟩ := linkPath_append.mp hnodes.linked
  obtain rfl : r = some item.1 := hitemSeg.1
  obtain ⟨hlist, hload, hbefore⟩ := hfirst
  have haddr := hnodes.linked.nodup
  simp only [List.cons_append, List.map_cons, List.map_append, List.nodup_cons, List.mem_append,
    List.mem_cons, not_or] at haddr
  have hprev : item.2.prev = some item.1 := hnodes.prev item (by simp)
  obtain ⟨self', hunlink, htype', hlist', hdead, hothers⟩ :=
    unlinkEntry_later (forgetReadPtr self item.1) (hnodes.linked.load_of_mem hitem) hprev
      (by simpa [forgetReadPtr, hlist] using haddr.1.2.1)
  refine ⟨self', by rw [xobjDel_of_found htype hget hcount, hunlink, Option.map_some], ?_⟩
  have hfirst' : self'.cells.load (some first.1) = some first.2 :=
    (hothers first.1 haddr.1.2.1).trans hload
  have hseg : LinkPath ListEntry.next self'.cells first.2.next before (some item.1) := by
    refine hbefore.frame fun other hother ↦ hothers other.1 fun heq ↦ ?_
    exact (List.nodup_append.mp haddr.2).2.2 other.1 (List.mem_map_of_mem hother) item.1 (by simp)
      heq
  have hgetFirst : xobjGetFirst self' =
      some (some (first.2.key, first.2.xobj), { self' with readPtr := first.2.next }) := by
    rw [xobjGetFirst, if_neg (by simp [htype', forgetReadPtr, htype]), XObject.readEntry, hlist']
    simp [forgetReadPtr, hlist, hfirst']
  intro entries henum
  cases entries with
  | nil =>
    obtain ⟨_, hnone⟩ := henum
    simp [hgetFirst] at hnone
  | cons e entries =>
    obtain ⟨_, hsome, hlater⟩ := henum
    obtain ⟨-, rfl⟩ := Prod.mk.inj (Option.some.inj (hgetFirst.symm.trans hsome))
    exact not_nextUntilZero { self' with readPtr := first.2.next }
      (htype'.trans htype) hseg hdead entries hlater

/-! ### Every list of calls -/

/-- The calls that keep an object linked: a key is put unless the only key was deleted before, and
a key is deleted that is absent or the first one. -/
def StaysLinked (self : XObj ω) : HashCall → Prop
  | .put _ _ => self.objType = .stringHash → self.listCount ≠ 0
  | .del key =>
    xobjGet self key = some none ∨
      (self.cells.load self.list).bind ListEntry.key = some key
  | _ => True

/-- A `put` that keeps the object linked. -/
theorem HashNodes.put (hnodes : HashNodes self map nodes rest) (clone : ω → ω)
    (key value : List Char) (hgood : StaysLinked self (.put key value)) :
    ∃ self', xobjPut clone self (some key) (some value) = some (1, self') ∧
      HoldsMap self' (mapCall map (.put key value) : HashAnswer ω × OrderedMap).2 := by
  rcases hnodes.objType with htype | ⟨htype, rfl⟩
  · have hmem : key ∈ map.entries.map Prod.fst ↔ key ∈ nodes.map nodeKey := by
      rw [hnodes.map_fst_entries]
    have hget := hnodes.internalGet key
    by_cases hkey : key ∈ nodes.map nodeKey
    · obtain ⟨item, hitem, rfl⟩ := List.mem_map.mp hkey
      obtain ⟨cells, hupdate, hholds⟩ := hnodes.replace hitem value
      rw [lookup_of_mem hnodes.nodup hitem, Option.map_some] at hget
      refine ⟨{ self with cells }, ?_, ?_⟩
      · simp [xobjPut, xobjInternalPut, htype, hget, hupdate]
      · simpa [mapCall, hmem.mpr hkey] using hholds
    · have hne : self.listCount ≠ 0 := hgood htype
      have hnodesNe : nodes ≠ [] := fun hnil ↦ hne (by rw [hnodes.count, hnil, List.length_nil])
      have htail : self.tail = some (nodes.getLast hnodesNe).1 := by
        rw [hnodes.tail, List.getLast?_eq_some_getLast hnodesNe, Option.map_some]
      obtain ⟨self', hnew, hholds⟩ :=
        hnodes.putNewEntry_later htype htail clone (fun h ↦ hkey (hmem.mp h)) value
      rw [lookup_eq_none_iff.mpr hkey, Option.map_none] at hget
      refine ⟨self', by simp [xobjPut, xobjInternalPut, htype, hget, hnew], ?_⟩
      simp only [mapCall, if_neg fun h ↦ hkey (hmem.mp h)]
      exact hholds
  · obtain ⟨self', hnew, hholds⟩ := hnodes.putNewEntry_empty htype clone key value
    have hentries : map.entries = [] := hnodes.entries
    refine ⟨self', by simp [xobjPut, xobjInternalPut, htype, hnew], ?_⟩
    simpa [mapCall, hentries] using hholds

/-- A call that keeps the object linked is answered as the map answers it. -/
theorem hashCall_of_staysLinked (hholds : HoldsMap self map) (clone : ω → ω) (c : HashCall)
    (hgood : StaysLinked self c) :
    ∃ self', hashCall clone self c = some ((mapCall map c).1, self') ∧
      HoldsMap self' (mapCall map c : HashAnswer ω × OrderedMap).2 := by
  obtain ⟨nodes, rest, hnodes⟩ := hholds
  cases c with
  | put key value =>
    obtain ⟨self', hput, hholds⟩ := hnodes.put clone key value hgood
    exact ⟨self', by rw [hashCall, hput]; rfl, hholds⟩
  | get key => exact ⟨self, by rw [hashCall, hnodes.get]; rfl, nodes, rest, hnodes⟩
  | del key =>
    by_cases hkey : key ∈ nodes.map nodeKey
    · obtain ⟨item, hitem, rfl⟩ := List.mem_map.mp hkey
      have hpresent : xobjGet self (nodeKey item) ≠ some none := by
        rw [hnodes.get, hnodes.lookup_entries, lookup_of_mem hnodes.nodup hitem]
        simp
      have hfirst := hgood.resolve_left hpresent
      match nodes, hnodes, hitem with
      | first :: later, hnodes, hitem =>
        have hload := hnodes.linked.2.1
        have hlist : self.list = some first.1 := hnodes.linked.1
        rw [hlist, hload, Option.bind_some, hnodes.key_eq (List.mem_cons_self ..)] at hfirst
        obtain rfl := List.inj_on_of_nodup_map hnodes.nodup hitem (List.mem_cons_self ..)
          (Option.some.inj hfirst).symm
        obtain ⟨self', hdel, hholds⟩ : ∃ self', xobjDel self (nodeKey item) = some (1, self') ∧
            HoldsMap self' (mapCall map (.del (nodeKey item)) : HashAnswer ω × OrderedMap).2 := by
          cases later with
          | nil => exact hnodes.del_only
          | cons second later => exact hnodes.del_first
        exact ⟨self', by rw [hashCall, hdel]; rfl, hholds⟩
    · obtain ⟨rc, hdel, hmap⟩ := hnodes.del_absent hkey
      exact ⟨self, by rw [hashCall, hdel]; rfl, by rw [hmap]; exact ⟨nodes, rest, hnodes⟩⟩
  | isExist key => exact ⟨self, by rw [hashCall, hnodes.isExist]; rfl, nodes, rest, hnodes⟩
  | count => exact ⟨self, by rw [hashCall, hnodes.xobjCount_eq]; rfl, nodes, rest, hnodes⟩
  | getFirst =>
    obtain ⟨self', hfirst, hnodes'⟩ := hnodes.getFirst
    exact ⟨self', by rw [hashCall, hfirst]; rfl, nodes, _, hnodes'⟩
  | getNext =>
    obtain ⟨self', hnext, hnodes'⟩ := hnodes.getNext
    exact ⟨self', by rw [hashCall, hnext]; rfl, nodes, _, hnodes'⟩

/-- After any other call the object is not the map any more, if the call comes back at all. -/
theorem not_agrees_of_not_staysLinked (hholds : HoldsMap self map) (clone : ω → ω) (c : HashCall)
    (hbad : ¬StaysLinked self c) : ¬Agrees (hashCall clone) mapCall AnswersAs self map c := by
  obtain ⟨nodes, rest, hnodes⟩ := hholds
  rintro ⟨self', hcall, hanswers⟩
  cases c with
  | put key value =>
    obtain ⟨htype, hcount⟩ : self.objType = .stringHash ∧ self.listCount = 0 := by
      simpa [StaysLinked] using hbad
    obtain rfl : nodes = [] := List.length_eq_zero_iff.mp (hnodes.count.symm.trans hcount)
    have hnone : xobjPut clone self (some key) (some value) = none := by
      have hget := hnodes.internalGet key
      have hnew := hnodes.putNewEntry_emptied htype clone key value
      simp only [lookup, List.find?_nil, Option.map_none] at hget
      simp [xobjPut, xobjInternalPut, htype, hget, hnew]
    simp [hashCall, hnone] at hcall
  | del key =>
    obtain ⟨hpresent, hnotFirst⟩ := not_or.mp hbad
    have hkey : key ∈ nodes.map nodeKey := by
      by_contra hkey
      refine hpresent ?_
      rw [hnodes.get, hnodes.lookup_entries, lookup_eq_none_iff.mpr hkey]
      rfl
    obtain ⟨item, hitem, rfl⟩ := List.mem_map.mp hkey
    obtain ⟨before, after, rfl⟩ := List.append_of_mem hitem
    cases before with
    | nil =>
      have hlist : self.list = some item.1 := hnodes.linked.1
      refine hnotFirst ?_
      rw [hlist, hnodes.linked.2.1, Option.bind_some, hnodes.key_eq hitem]
    | cons first before =>
      obtain ⟨self'', hdel, hnot⟩ := hnodes.del_later
      rw [hashCall, hdel, Option.map_some] at hcall
      obtain rfl := (Prod.mk.inj (Option.some.inj hcall)).2
      exact hnot _ hanswers.enumerates
  | get key => exact hbad trivial
  | isExist key => exact hbad trivial
  | count => exact hbad trivial
  | getFirst => exact hbad trivial
  | getNext => exact hbad trivial

/-- From a new object on, a list of calls is answered as the finite map answers it, the object
answering every question as the map after each of them, exactly when all calls keep the object
linked. -/
theorem string_hash_refining_iff (clone : ω → ω) (calls : List HashCall) :
    Refining (hashCall clone) mapCall AnswersAs xobjNew ⟨[], []⟩ calls ↔
      Meets (callStep (hashCall clone)) StaysLinked xobjNew calls := by
  have hiff (self : XObj ω) (map : OrderedMap) (c : HashCall) (hholds : HoldsMap self map) :
      Agrees (hashCall clone) mapCall AnswersAs self map c ↔ StaysLinked self c := by
    constructor
    · exact fun hagrees ↦ by_contra fun hbad ↦
        not_agrees_of_not_staysLinked hholds clone c hbad hagrees
    · intro hgood
      obtain ⟨self', hcall, nodes, rest, hnodes⟩ := hashCall_of_staysLinked hholds clone c hgood
      exact ⟨self', hcall, hnodes.answersAs⟩
  refine refining_iff_meets (fun self map c hholds (_ : True) ↦ hiff self map c hholds) ?_
    holdsMap_new (along_of_forall (fun _ _ ↦ trivial) _ calls)
  intro self map c self' hholds _ hcall hanswers
  have hgood := (hiff self map c hholds).mp ⟨self', hcall, hanswers⟩
  obtain ⟨self'', hcall', hholds'⟩ := hashCall_of_staysLinked hholds clone c hgood
  obtain rfl := (Prod.mk.inj (Option.some.inj (hcall.symm.trans hcall'))).2
  exact hholds'

/-- Two keys are put and the second one is deleted: the first node still links to the second, and to
look for a third key reads the released node. -/
theorem deleted_last_node_is_read :
    serve (hashCall (id : Unit → Unit)) xobjNew
        [.put ['a'] ['1'], .put ['b'] ['2'], .del ['b'], .get ['c']] = none ∧
      ¬Refining (hashCall (id : Unit → Unit)) mapCall AnswersAs xobjNew ⟨[], []⟩
        [.put ['a'] ['1'], .put ['b'] ['2'], .del ['b'], .get ['c']] := by
  have hnone : serve (hashCall (id : Unit → Unit)) xobjNew
      [.put ['a'] ['1'], .put ['b'] ['2'], .del ['b'], .get ['c']] = none := by decide
  refine ⟨hnone, fun hrefining ↦ ?_⟩
  obtain ⟨t, hserve⟩ := hrefining.serve_eq
  rw [hnone] at hserve
  cases hserve

end Katmai.XObject
