import Katmai.Foundation.KeyedList
import Mathlib.Data.List.Infix

/-!
# Tries with lists of children

A trie whose nodes keep their children in a list, each under a key. `find? path` is the node that a
path of keys leads to. `insertPath` goes down a path, adds the nodes that are missing in front of
their siblings, and gives the last one a value of its own; what was at a path before stays there
(`valueAt_insertPath`).

`LongestMatch` says how far a sequence of keys leads: to the node of its longest prefix that is a
path of the trie. `longestMatch` computes it in one descent (`longestMatch_eq_some_iff`).
-/

set_option autoImplicit false
set_option relaxedAutoImplicit false

namespace Katmai.Foundation

variable {κ α : Type}

/-- A node with its value and its children. -/
inductive Trie (κ α : Type)
  | node (value : α) (children : List (κ × Trie κ α))

namespace Trie

/-- The value of a node. -/
def value : Trie κ α → α
  | node value _ => value

/-- The children of a node. -/
def children : Trie κ α → List (κ × Trie κ α)
  | node _ children => children

/-- A new child in front of the others. -/
def addChild (t : Trie κ α) (k : κ) (child : Trie κ α) : Trie κ α :=
  node t.value ((k, child) :: t.children)

@[simp] theorem value_addChild (t child : Trie κ α) (k : κ) :
    (t.addChild k child).value = t.value :=
  rfl

variable [DecidableEq κ]

/-- The child under a key. -/
def child (t : Trie κ α) (k : κ) : Option (Trie κ α) :=
  (lookup Prod.fst k t.children).map Prod.snd

/-- The child under a key is changed in place. -/
def setChild (t : Trie κ α) (k : κ) (child : Trie κ α) : Trie κ α :=
  match position Prod.fst k t.children with
  | some i => node t.value (t.children.modify i fun entry ↦ (entry.1, child))
  | none => t

/-- The node that a path leads to. -/
def find? : List κ → Trie κ α → Option (Trie κ α)
  | [], t => some t
  | k :: path, t => (t.child k).bind (find? path)

/-- A path is inserted. New nodes have the value `inner`, and the last one `leaf`. -/
def insertPath (inner leaf : α) : List κ → Trie κ α → Trie κ α
  | [], t => t
  | k :: path, t =>
    match t.child k with
    | some child => t.setChild k (insertPath inner leaf path child)
    | none =>
      t.addChild k (insertPath inner leaf path (node (if path = [] then leaf else inner) []))

/-- The value of the node of a path. -/
def valueAt (t : Trie κ α) (path : List κ) : Option α :=
  (t.find? path).map value

/-- The path leads to a node. -/
def IsNode (t : Trie κ α) (path : List κ) : Prop :=
  t.valueAt path ≠ none

/-! ### Children -/

section Children

variable (t child : Trie κ α) (k : κ)

@[simp] theorem value_setChild : (t.setChild k child).value = t.value := by
  unfold setChild
  split
  · rfl
  · rfl

theorem child_addChild (k' : κ) :
    (t.addChild k child).child k' = if k' = k then some child else t.child k' := by
  simp only [Trie.child, addChild, children, lookup_cons]
  by_cases hk : k' = k
  · rw [if_pos hk.symm, if_pos hk, Option.map_some]
  · rw [if_neg (Ne.symm hk), if_neg hk]

theorem child_setChild {t : Trie κ α} (hsome : t.child k ≠ none) (k' : κ) :
    (t.setChild k child).child k' = if k' = k then some child else t.child k' := by
  have hkey : k ∈ t.children.map Prod.fst := by
    by_contra hnot
    exact hsome (by rw [Trie.child, lookup_eq_none_iff.mpr hnot, Option.map_none])
  obtain ⟨i, hi⟩ := Option.ne_none_iff_exists'.mp fun hnone ↦ position_eq_none_iff.mp hnone hkey
  have hset : (t.setChild k child).children =
      t.children.modify i fun entry ↦ (entry.1, child) := by
    rw [setChild, hi]
    rfl
  rw [Trie.child, hset, lookup_modify (f := fun entry ↦ (entry.1, child)) (fun entry ↦ rfl) hi]
  by_cases hk : k' = k
  · rw [if_pos hk, if_pos hk]
    obtain ⟨entry, hentry⟩ := Option.ne_none_iff_exists'.mp
      fun hnone ↦ lookup_eq_none_iff.mp hnone hkey
    rw [hentry]
    rfl
  · rw [if_neg hk, if_neg hk, Trie.child]

/-- Setting a child to what it is changes nothing. -/
theorem setChild_self {t child : Trie κ α} (hchild : t.child k = some child) :
    t.setChild k child = t := by
  obtain ⟨entry, hentry, hsnd⟩ := Option.map_eq_some_iff.mp hchild
  cases hpos : position Prod.fst k t.children with
  | none => simp only [setChild, hpos]
  | some i =>
    have hget := getElem?_position hpos
    rw [hentry] at hget
    have hsame : (t.children.modify i fun entry ↦ (entry.1, child)) = t.children := by
      refine List.ext_getElem? fun j ↦ ?_
      rw [List.getElem?_modify]
      by_cases hij : i = j
      · rw [← hij, hget]
        simp [← hsnd]
      · simp [hij]
    simp only [setChild, hpos, hsame]
    cases t with
    | node value children => rfl

end Children

/-! ### Values -/

section Values

variable {t : Trie κ α} {k : κ} {path : List κ}

@[simp] theorem valueAt_nil (t : Trie κ α) : t.valueAt [] = some t.value :=
  rfl

theorem valueAt_cons (t : Trie κ α) (k : κ) (path : List κ) :
    t.valueAt (k :: path) = (t.child k).bind fun child ↦ child.valueAt path := by
  unfold valueAt
  rw [find?]
  cases t.child k with
  | none => rfl
  | some child => rfl

theorem isNode_nil (t : Trie κ α) : t.IsNode [] :=
  Option.some_ne_none _

theorem isNode_cons_of_child {child : Trie κ α} (hchild : t.child k = some child) :
    t.IsNode (k :: path) ↔ child.IsNode path := by
  unfold IsNode
  rw [valueAt_cons, hchild, Option.bind_some]

theorem not_isNode_cons (hchild : t.child k = none) : ¬t.IsNode (k :: path) := by
  unfold IsNode
  rw [valueAt_cons, hchild, Option.bind_none]
  exact fun hne ↦ hne rfl

end Values

/-! ### Insertion -/

section Insertion

variable {t : Trie κ α} {path : List κ} (inner leaf : α)

/-- A path that is a node already changes nothing. -/
theorem insertPath_of_isNode (hnode : t.IsNode path) : insertPath inner leaf path t = t := by
  induction path generalizing t with
  | nil => rfl
  | cons k path ih =>
    cases hchild : t.child k with
    | none => exact absurd hnode (not_isNode_cons hchild)
    | some child =>
      simp only [insertPath, hchild]
      rw [ih ((isNode_cons_of_child hchild).mp hnode), setChild_self k hchild]

/-- What an insertion puts at a path where nothing was: the value of its last node, or of those on
the way. -/
def insertedValue (path p : List κ) : Option α :=
  if p <+: path then some (if p = path then leaf else inner) else none

@[simp] theorem insertedValue_cons_self (k : κ) (path p : List κ) :
    insertedValue inner leaf (k :: path) (k :: p) = insertedValue inner leaf path p := by
  simp [insertedValue]

theorem insertedValue_cons_of_ne {k k' : κ} (hk : k' ≠ k) (path p : List κ) :
    insertedValue inner leaf (k :: path) (k' :: p) = none := by
  simp [insertedValue, hk]

theorem insertedValue_nil (path : List κ) :
    insertedValue inner leaf path [] = some (if path = [] then leaf else inner) := by
  simp [insertedValue, eq_comm]

/-- What is at a path after an insertion: what was there before, or else what it puts there. -/
theorem valueAt_insertPath (t : Trie κ α) (path p : List κ) :
    (insertPath inner leaf path t).valueAt p =
      (t.valueAt p).or (insertedValue inner leaf path p) := by
  induction path generalizing t p with
  | nil =>
    cases p with
    | nil => rfl
    | cons k p => simp [insertPath, insertedValue]
  | cons k path ih =>
    cases p with
    | nil =>
      rw [insertPath]
      cases t.child k <;> simp
    | cons k' p =>
      rw [insertPath, valueAt_cons, valueAt_cons]
      cases hchild : t.child k with
      | some child =>
        have hset := child_setChild (insertPath inner leaf path child) k
          (hchild ▸ Option.some_ne_none child : t.child k ≠ none) k'
        dsimp only
        rw [hset]
        by_cases hk : k' = k
        · rw [if_pos hk, hk, hchild, Option.bind_some, Option.bind_some, ih,
            insertedValue_cons_self]
        · rw [if_neg hk, insertedValue_cons_of_ne inner leaf hk, Option.or_none]
      | none =>
        dsimp only
        rw [child_addChild]
        by_cases hk : k' = k
        · rw [if_pos hk, hk, hchild, Option.bind_some, Option.bind_none, Option.none_or, ih,
            insertedValue_cons_self]
          cases p with
          | nil => rw [valueAt_nil, Option.some_or, insertedValue_nil, value]
          | cons first p => rfl
        · rw [if_neg hk, insertedValue_cons_of_ne inner leaf hk, Option.or_none]

end Insertion

/-! ### How far a sequence of keys leads -/

/-- The longest prefix of at least one key that is a path of the trie has `n` keys and leads to
`found`. -/
structure LongestMatch (t : Trie κ α) (keys : List κ) (n : ℕ) (found : Trie κ α) : Prop where
  pos : 0 < n
  le : n ≤ keys.length
  reached : t.find? (keys.take n) = some found
  maximal : ∀ m, n < m → m ≤ keys.length → ¬t.IsNode (keys.take m)

/-- The number of keys of the longest match, and its node. -/
def longestMatch : List κ → Trie κ α → Option (ℕ × Trie κ α)
  | [], _ => none
  | k :: keys, t =>
    (t.child k).map fun child ↦
      (longestMatch keys child).elim (1, child) fun deeper ↦ (deeper.1 + 1, deeper.2)

section Longest

variable {t found : Trie κ α} {keys : List κ} {n : ℕ}

theorem longestMatch_eq_none_iff :
    longestMatch keys t = none ↔ ∀ m, 0 < m → m ≤ keys.length → ¬t.IsNode (keys.take m) := by
  cases keys with
  | nil =>
    refine iff_of_true rfl fun m hpos hle ↦ ?_
    rw [List.length_nil] at hle
    omega
  | cons k keys =>
    rw [longestMatch, Option.map_eq_none_iff]
    constructor
    · intro hnone m hpos _
      obtain ⟨m, rfl⟩ := Nat.exists_eq_add_of_lt hpos
      rw [Nat.zero_add, List.take_succ_cons]
      exact not_isNode_cons hnone
    · intro hall
      have hfirst := hall 1 Nat.one_pos (by simp)
      rw [List.take_succ_cons] at hfirst
      by_contra hsome
      obtain ⟨child, hchild⟩ := Option.ne_none_iff_exists'.mp hsome
      exact hfirst ((isNode_cons_of_child hchild).mpr (isNode_nil child))

/-- What is computed is the longest match. -/
theorem longestMatch_of_eq_some (hmatch : longestMatch keys t = some (n, found)) :
    LongestMatch t keys n found := by
  induction keys generalizing t n with
  | nil => exact absurd hmatch.symm (Option.some_ne_none _)
  | cons k keys ih =>
    rw [longestMatch, Option.map_eq_some_iff] at hmatch
    obtain ⟨child, hchild, hmatch⟩ := hmatch
    cases hdeeper : longestMatch keys child with
    | none =>
      rw [hdeeper] at hmatch
      obtain ⟨rfl, rfl⟩ := Prod.mk.inj hmatch
      refine ⟨Nat.one_pos, by simp, ?_, fun m hlt hle ↦ ?_⟩
      · rw [List.take_succ_cons, find?, hchild]
        rfl
      · obtain ⟨m, rfl⟩ := Nat.exists_eq_add_of_lt hlt
        rw [List.length_cons] at hle
        rw [List.take_succ_cons, isNode_cons_of_child hchild]
        exact longestMatch_eq_none_iff.mp hdeeper _ (by omega) (by omega)
    | some deeper =>
      rw [hdeeper] at hmatch
      obtain ⟨rfl, rfl⟩ := Prod.mk.inj hmatch
      have hih := ih hdeeper
      refine ⟨Nat.succ_pos _, Nat.succ_le_succ hih.le, ?_, fun m hlt hle ↦ ?_⟩
      · rw [List.take_succ_cons, find?, hchild]
        exact hih.reached
      · obtain ⟨m, rfl⟩ := Nat.exists_eq_add_of_lt hlt
        rw [List.length_cons] at hle
        rw [List.take_succ_cons, isNode_cons_of_child hchild]
        exact hih.maximal _ (by omega) (by omega)

/-- There is one longest match at most. -/
theorem longestMatch_eq_some_iff :
    longestMatch keys t = some (n, found) ↔ LongestMatch t keys n found := by
  refine ⟨longestMatch_of_eq_some, fun hlongest ↦ ?_⟩
  have hreached : t.IsNode (keys.take n) := by
    rw [IsNode, valueAt, hlongest.reached]
    exact Option.some_ne_none _
  cases hmatch : longestMatch keys t with
  | none => exact absurd hreached (longestMatch_eq_none_iff.mp hmatch n hlongest.pos hlongest.le)
  | some other =>
    have hother := longestMatch_of_eq_some hmatch
    have hother' : t.IsNode (keys.take other.1) := by
      rw [IsNode, valueAt, hother.reached]
      exact Option.some_ne_none _
    obtain hlt | heq | hgt := Nat.lt_trichotomy other.1 n
    · exact absurd hreached (hother.maximal n hlt hlongest.le)
    · have hfound := hother.reached
      rw [heq, hlongest.reached, Option.some_inj] at hfound
      rw [hfound, ← heq]
    · exact absurd hother' (hlongest.maximal other.1 hgt hother.le)

end Longest

end Trie

end Katmai.Foundation
