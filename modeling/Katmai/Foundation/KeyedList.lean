import Mathlib.Data.List.Nodup

/-!
# Lists of records with a key

A list of records, each with a key, is a finite map when its keys are pairwise different:
`lookup key k` is the record of a key. Programs write such a list in three ways: a record for a new
key joins it at one end, the record of a present key is changed in place, a record is taken out.
The lemmas say what each of them does to `lookup` and to the list of keys.
-/

set_option autoImplicit false
set_option relaxedAutoImplicit false

namespace Katmai.Foundation

variable {κ β : Type*} [DecidableEq κ] {key : β → κ} {l : List β} {k : κ} {b : β}

/-- The first record with a key. -/
def lookup (key : β → κ) (k : κ) (l : List β) : Option β :=
  l.find? fun b ↦ key b = k

/-- The position of the first record with a key. -/
def position (key : β → κ) (k : κ) (l : List β) : Option ℕ :=
  l.findIdx? fun b ↦ key b = k

theorem lookup_cons (b : β) (l : List β) :
    lookup key k (b :: l) = if key b = k then some b else lookup key k l := by
  by_cases heq : key b = k <;> simp [lookup, heq]

theorem mem_of_lookup (hfind : lookup key k l = some b) : b ∈ l :=
  List.mem_of_find?_eq_some hfind

theorem lookup_eq_none_iff : lookup key k l = none ↔ k ∉ l.map key := by
  simp [lookup]

/-- A list with pairwise different keys has each of its records under the record's key. -/
theorem lookup_of_mem (hkeys : (l.map key).Nodup) (hb : b ∈ l) : lookup key (key b) l = some b := by
  induction l with
  | nil => simp at hb
  | cons first rest ih =>
    rw [List.map_cons, List.nodup_cons] at hkeys
    rw [lookup_cons]
    rcases List.mem_cons.mp hb with rfl | hrest
    · rw [if_pos rfl]
    · have hne : key first ≠ key b := fun heq ↦ hkeys.1 (heq ▸ List.mem_map_of_mem hrest)
      rw [if_neg hne, ih hkeys.2 hrest]

theorem position_cons (b : β) (l : List β) :
    position key k (b :: l) = if key b = k then some 0 else (position key k l).map (· + 1) := by
  by_cases heq : key b = k <;> simp [position, List.findIdx?_cons, heq]

theorem position_eq_none_iff : position key k l = none ↔ k ∉ l.map key := by
  simp [position]

/-- The record at the position of a key is the record of the key. -/
theorem getElem?_position {i : ℕ} (hpos : position key k l = some i) : l[i]? = lookup key k l := by
  induction l generalizing i with
  | nil => simp [position] at hpos
  | cons first rest ih =>
    rw [position_cons] at hpos
    rw [lookup_cons]
    split_ifs at hpos ⊢
    · obtain rfl : 0 = i := by simpa using hpos
      rfl
    · obtain ⟨j, hj, rfl⟩ := Option.map_eq_some_iff.mp hpos
      rw [List.getElem?_cons_succ, ih hj]

omit [DecidableEq κ] in
/-- Writing records in place leaves the keys as they are, if it leaves each record's key. -/
theorem map_key_modify {f : β → β} (hf : ∀ b, key (f b) = key b) (i : ℕ) :
    (l.modify i f).map key = l.map key := by
  refine List.ext_getElem? fun j ↦ ?_
  simp only [List.getElem?_map, List.getElem?_modify]
  cases l[j]? with
  | none => rfl
  | some b => by_cases hij : i = j <;> simp [hij, hf]

/-- Writing the record at the position of a key changes the record of that key and no other. -/
theorem lookup_modify {f : β → β} (hf : ∀ b, key (f b) = key b) {i : ℕ}
    (hpos : position key k l = some i) (k' : κ) :
    lookup key k' (l.modify i f) =
      if k' = k then (lookup key k l).map f else lookup key k' l := by
  induction l generalizing i with
  | nil => simp [position] at hpos
  | cons first rest ih =>
    rw [position_cons] at hpos
    split_ifs at hpos with hfirst
    · obtain rfl : 0 = i := by simpa using hpos
      subst hfirst
      rw [List.modify_zero_cons, lookup_cons, lookup_cons, hf]
      by_cases hk : k' = key first
      · simp [hk]
      · simp [hk, Ne.symm hk, lookup_cons]
    · obtain ⟨j, hj, rfl⟩ := Option.map_eq_some_iff.mp hpos
      rw [List.modify_succ_cons, lookup_cons, ih hj, lookup_cons, lookup_cons, if_neg hfirst]
      by_cases hk : k' = k
      · subst hk
        simp [hfirst]
      · simp [hk]

/-- A record whose key is new joins the list at its front. -/
def addNew (key : β → κ) (l : List β) (b : β) : List β :=
  if (lookup key (key b) l).isSome then l else b :: l

theorem lookup_addNew (l : List β) (b : β) (k : κ) :
    lookup key k (addNew key l b) = (lookup key k l).or (lookup key k [b]) := by
  rw [addNew]
  split_ifs with hfound
  · cases hk : lookup key k l with
    | some _ => rfl
    | none =>
      have hne : key b ≠ k := by
        rintro rfl
        rw [hk] at hfound
        exact Bool.false_ne_true hfound
      rw [lookup_cons, if_neg hne]
      rfl
  · rw [lookup_cons, lookup_cons]
    by_cases heq : key b = k
    · have hk : lookup key k l = none := heq ▸ Option.not_isSome_iff_eq_none.mp hfound
      rw [if_pos heq, if_pos heq, hk]
      rfl
    · rw [if_neg heq, if_neg heq, show lookup key k [] = none from rfl, Option.or_none]

/-- Of records that are added one after the other, the first one with a key counts. -/
theorem lookup_foldl_addNew (bs l : List β) (k : κ) :
    lookup key k (bs.foldl (addNew key) l) = (lookup key k l).or (lookup key k bs) := by
  induction bs generalizing l with
  | nil => exact Option.or_none.symm
  | cons b bs ih =>
    rw [List.foldl_cons, ih, lookup_addNew, Option.or_assoc]
    refine congrArg _ ?_
    rw [lookup_cons, lookup_cons]
    by_cases heq : key b = k
    · rw [if_pos heq, if_pos heq]
      rfl
    · rw [if_neg heq, if_neg heq]
      rfl

end Katmai.Foundation
