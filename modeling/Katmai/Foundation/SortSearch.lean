import Mathlib.Data.List.Sort

/-!
# `qsort` and `bsearch` of the C library

Both functions take a callback that compares two elements: its result is negative, zero or positive
as the first one sorts before, with or after the second. The C standard leaves them undefined on
arrays for which the callback does not behave: `qsort` needs a total order on the elements
(`ConsistentOn`), `bsearch` an array in which the elements below the key come first, then those that
match it, then those above it (`Partitioned`). `qsort` and `bsearch` are `none` there. A callback
that orders a set of values strictly and totally (`StrictTotalOn`) behaves on every array of such
values that is sorted.
-/

set_option autoImplicit false
set_option relaxedAutoImplicit false

namespace Katmai.Foundation

variable {α : Type*}

/-- The callback orders the elements of an array totally; different elements may match. -/
structure ConsistentOn (cmp : α → α → ℤ) (base : List α) : Prop where
  flip : ∀ a ∈ base, ∀ b ∈ base, cmp a b ≤ 0 ↔ 0 ≤ cmp b a
  trans : ∀ a ∈ base, ∀ b ∈ base, ∀ c ∈ base, cmp a b ≤ 0 → cmp b c ≤ 0 → cmp a c ≤ 0

instance (cmp : α → α → ℤ) (base : List α) : Decidable (ConsistentOn cmp base) :=
  decidable_of_iff
    ((∀ a ∈ base, ∀ b ∈ base, (cmp a b ≤ 0 ↔ 0 ≤ cmp b a)) ∧
      ∀ a ∈ base, ∀ b ∈ base, ∀ c ∈ base, cmp a b ≤ 0 → cmp b c ≤ 0 → cmp a c ≤ 0)
    ⟨fun h ↦ ⟨h.1, h.2⟩, fun h ↦ ⟨h.flip, h.trans⟩⟩

/-- The elements below the key come first, then those that match it, then those above it. -/
def Partitioned (cmp : α → α → ℤ) (key : α) (base : List α) : Prop :=
  base.Pairwise fun a b ↦ (cmp key a < 0 → cmp key b < 0) ∧ (cmp key a = 0 → cmp key b ≤ 0)

instance (cmp : α → α → ℤ) (key : α) (base : List α) : Decidable (Partitioned cmp key base) :=
  inferInstanceAs (Decidable (base.Pairwise _))

/-- `qsort`: the array in the order of the callback. -/
def qsort (cmp : α → α → ℤ) (base : List α) : Option (List α) :=
  if ConsistentOn cmp base then
    some ((base.attach.insertionSort fun a b ↦ cmp a.1 b.1 ≤ 0).map Subtype.val)
  else none

/-- `bsearch`: whether some element matches the key. -/
def bsearch (cmp : α → α → ℤ) (key : α) (base : List α) : Option Bool :=
  if Partitioned cmp key base then some (base.any fun x ↦ cmp key x = 0) else none

/-- `qsort` rearranges the array. -/
theorem perm_of_qsort {cmp : α → α → ℤ} {base sorted : List α}
    (hsort : qsort cmp base = some sorted) : sorted.Perm base := by
  unfold qsort at hsort
  split at hsort
  · rw [Option.some.injEq] at hsort
    rw [← hsort]
    have hperm := (List.perm_insertionSort (fun a b : {x // x ∈ base} ↦ cmp a.1 b.1 ≤ 0)
      base.attach).map Subtype.val
    rwa [List.attach_map_subtype_val] at hperm
  · cases hsort

/-- `qsort` sorts the array. -/
theorem pairwise_of_qsort {cmp : α → α → ℤ} {base sorted : List α}
    (hsort : qsort cmp base = some sorted) : sorted.Pairwise fun a b ↦ cmp a b ≤ 0 := by
  unfold qsort at hsort
  split at hsort
  · rename_i hcmp
    rw [Option.some.injEq] at hsort
    rw [← hsort, List.pairwise_map]
    have htotal : Std.Total fun a b : {x // x ∈ base} ↦ cmp a.1 b.1 ≤ 0 := by
      refine ⟨fun a b ↦ ?_⟩
      have hflip := hcmp.flip a.1 a.2 b.1 b.2
      omega
    have htrans : IsTrans {x // x ∈ base} fun a b ↦ cmp a.1 b.1 ≤ 0 :=
      ⟨fun a b c hab hbc ↦ hcmp.trans a.1 a.2 b.1 b.2 c.1 c.2 hab hbc⟩
    exact List.pairwise_insertionSort _ base.attach
  · cases hsort

/-! ### Strict total orders -/

/-- The callback is a strict total order on a set of values. -/
structure StrictTotalOn (cmp : α → α → ℤ) (S : Set α) : Prop where
  eq_iff : ∀ a ∈ S, ∀ b ∈ S, cmp a b = 0 ↔ a = b
  lt_iff : ∀ a ∈ S, ∀ b ∈ S, cmp a b < 0 ↔ 0 < cmp b a
  trans : ∀ a ∈ S, ∀ b ∈ S, ∀ c ∈ S, cmp a b < 0 → cmp b c < 0 → cmp a c < 0

/-- The values of an array are in strictly ascending order. -/
def Ascending (cmp : α → α → ℤ) (base : List α) : Prop :=
  base.Pairwise fun a b ↦ cmp a b < 0

instance (cmp : α → α → ℤ) (base : List α) : Decidable (Ascending cmp base) :=
  inferInstanceAs (Decidable (base.Pairwise _))

namespace StrictTotalOn

variable {cmp : α → α → ℤ} {S : Set α} {base : List α} {v : α}

theorem consistentOn (hcmp : StrictTotalOn cmp S) (hbase : ∀ x ∈ base, x ∈ S) :
    ConsistentOn cmp base := by
  constructor
  · intro a ha b hb
    have hlt := hcmp.lt_iff b (hbase b hb) a (hbase a ha)
    omega
  · intro a ha b hb c hc hab hbc
    have htrans := hcmp.trans a (hbase a ha) b (hbase b hb) c (hbase c hc)
    have heqab := hcmp.eq_iff a (hbase a ha) b (hbase b hb)
    have heqbc := hcmp.eq_iff b (hbase b hb) c (hbase c hc)
    rcases hab.lt_or_eq with hab | hab
    · rcases hbc.lt_or_eq with hbc | hbc
      · exact (htrans hab hbc).le
      · exact heqbc.mp hbc ▸ hab.le
    · exact heqab.mp hab ▸ hbc

/-- An ascending array has the parts that `bsearch` needs. -/
theorem partitioned (hcmp : StrictTotalOn cmp S) (hbase : ∀ x ∈ base, x ∈ S) (hv : v ∈ S)
    (hasc : Ascending cmp base) : Partitioned cmp v base := by
  refine hasc.imp_of_mem fun {a b} ha hb hab ↦ ⟨fun hva ↦ ?_, fun hva ↦ ?_⟩
  · exact hcmp.trans v hv a (hbase a ha) b (hbase b hb) hva hab
  · obtain rfl := (hcmp.eq_iff v hv a (hbase a ha)).mp hva
    exact hab.le

/-- `bsearch` on an ascending array finds the key exactly if it is in the array. -/
theorem bsearch_eq [DecidableEq α] (hcmp : StrictTotalOn cmp S) (hbase : ∀ x ∈ base, x ∈ S)
    (hv : v ∈ S) (hasc : Ascending cmp base) : bsearch cmp v base = some (decide (v ∈ base)) := by
  rw [bsearch, if_pos (hcmp.partitioned hbase hv hasc), Option.some.injEq, Bool.eq_iff_iff]
  simp only [List.any_eq_true, decide_eq_true_eq]
  constructor
  · rintro ⟨x, hx, hvx⟩
    exact (hcmp.eq_iff v hv x (hbase x hx)).mp hvx ▸ hx
  · exact fun hmem ↦ ⟨v, hmem, (hcmp.eq_iff v hv v hv).mpr rfl⟩

/-- `qsort` on pairwise different values gives an ascending array. -/
theorem ascending_of_qsort {sorted : List α} (hcmp : StrictTotalOn cmp S)
    (hbase : ∀ x ∈ base, x ∈ S) (hnodup : base.Nodup) (hsort : qsort cmp base = some sorted) :
    Ascending cmp sorted := by
  have hperm := perm_of_qsort hsort
  have hle := pairwise_of_qsort hsort
  have hne : sorted.Pairwise (· ≠ ·) := hperm.nodup_iff.mpr hnodup
  refine (hle.and hne).imp_of_mem fun {a b} ha hb hab ↦ ?_
  have haS := hbase a (hperm.mem_iff.mp ha)
  have hbS := hbase b (hperm.mem_iff.mp hb)
  have hzero : cmp a b ≠ 0 := fun heq ↦ hab.2 ((hcmp.eq_iff a haS b hbS).mp heq)
  exact lt_of_le_of_ne hab.1 hzero

/-- The values of an ascending array are pairwise different. -/
theorem nodup_of_ascending (hcmp : StrictTotalOn cmp S) (hbase : ∀ x ∈ base, x ∈ S)
    (hasc : Ascending cmp base) : base.Nodup := by
  refine hasc.imp_of_mem fun {a b} ha hb hab heq ↦ ?_
  have hzero := (hcmp.eq_iff a (hbase a ha) b (hbase b hb)).mpr heq
  omega

end StrictTotalOn

end Katmai.Foundation
