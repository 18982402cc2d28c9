import Mathlib.Data.Int.Notation
import Mathlib.Data.List.Basic
import Mathlib.Data.Set.Insert
import Mathlib.Order.Lattice
import Mathlib.Tactic.Common

/-!
# Counted loops

`forRange lo hi f s` is the loop whose counter runs from `lo` up to but not including `hi`, with
the state `s` in front of it. Its two rules are an invariant that may name the counter
(`forRange_induct`) and one that does not (`forRange_preserves`). Two such loops, one in the other,
go through a rectangle, each cell once: an invariant of them may name the cells that are done
(`raster_induct`).
-/

set_option autoImplicit false
set_option relaxedAutoImplicit false

namespace Katmai.Foundation

variable {S : Type*}

/-- `for (i = lo; i < hi; i++) s = f (i, s);` -/
def forRange (lo hi : ℤ) (f : ℤ → S → S) (s : S) : S :=
  (List.range (hi - lo).toNat).foldl (fun s (n : ℕ) ↦ f (lo + n) s) s

variable {lo hi : ℤ} {f : ℤ → S → S} {s : S}

theorem forRange_of_le (hle : hi ≤ lo) : forRange lo hi f s = s := by
  rw [forRange, Int.toNat_eq_zero.mpr (by omega)]
  rfl

/-- The last round. -/
theorem forRange_succ (hle : lo ≤ hi) :
    forRange lo (hi + 1) f s = f hi (forRange lo hi f s) := by
  have hlast : lo + ((hi - lo).toNat : ℤ) = hi := by omega
  rw [forRange, show (hi + 1 - lo).toNat = (hi - lo).toNat + 1 by omega, List.range_succ,
    List.foldl_append, List.foldl_cons, List.foldl_nil, hlast, forRange]

/-- An invariant of the counter and the state that holds in front of a round and behind it. -/
theorem forRange_induct {motive : ℤ → S → Prop} (hle : lo ≤ hi) (hstart : motive lo s)
    (hstep : ∀ i s, lo ≤ i → i < hi → motive i s → motive (i + 1) (f i s)) :
    motive hi (forRange lo hi f s) := by
  obtain ⟨n, rfl⟩ := Int.le.dest hle
  clear hle
  induction n with
  | zero =>
    rw [Int.natCast_zero, Int.add_zero, forRange_of_le le_rfl]
    exact hstart
  | succ n ih =>
    rw [Int.natCast_succ, ← Int.add_assoc, forRange_succ (by omega)]
    refine hstep _ _ (by omega) (by omega) (ih fun i s hlo hhi ↦ hstep i s hlo (by omega))

/-- A property of the state that every round keeps. -/
theorem forRange_preserves {P : S → Prop} (hstart : P s)
    (hstep : ∀ i s, lo ≤ i → i < hi → P s → P (f i s)) : P (forRange lo hi f s) := by
  rcases le_total lo hi with hle | hle
  · exact forRange_induct (motive := fun _ ↦ P) hle hstart hstep
  · rwa [forRange_of_le hle]

/-- The first round. -/
theorem forRange_cons (hlt : lo < hi) :
    forRange lo hi f s = forRange (lo + 1) hi f (f lo s) := by
  refine forRange_induct (motive := fun i t ↦ forRange lo i f s = t) (by omega) ?_ ?_
  · rw [forRange_succ le_rfl, forRange_of_le le_rfl]
  · intro i t hlo _ ih
    rw [forRange_succ (by omega), ih]

/-- Loops whose rounds agree on the states that have a property. -/
theorem forRange_congr {P : S → Prop} {g : ℤ → S → S} (hstart : P s)
    (hkeep : ∀ i s, P s → P (g i s))
    (hrounds : ∀ i s, lo ≤ i → i < hi → P s → f i s = g i s) :
    forRange lo hi f s = forRange lo hi g s := by
  rcases le_total lo hi with hle | hle
  · have hloop : forRange lo hi f s = forRange lo hi g s ∧ P (forRange lo hi g s) := by
      refine forRange_induct (motive := fun i t ↦ t = forRange lo i g s ∧ P (forRange lo i g s))
        hle ?_ ?_
      · rw [forRange_of_le le_rfl]
        exact ⟨rfl, hstart⟩
      · rintro i t hlo hhi ⟨rfl, hP⟩
        rw [forRange_succ hlo]
        exact ⟨hrounds i _ hlo hhi hP, hkeep i _ hP⟩
    exact hloop.1
  · rw [forRange_of_le hle, forRange_of_le hle]

/-! ### Rectangles -/

/-- The cells from `x₀` and `y₀` up to but not including `x₁` and `y₁`. -/
def cells (x₀ x₁ y₀ y₁ : ℤ) : Set (ℤ × ℤ) :=
  {p | (x₀ ≤ p.1 ∧ p.1 < x₁) ∧ y₀ ≤ p.2 ∧ p.2 < y₁}

variable {x₀ x₁ y₀ y₁ : ℤ} {g : ℤ → ℤ → S → S}

/-- An invariant of the cells that are done and the state, over the loop over the rows and the loop
over a row in it. -/
theorem raster_induct {motive : Set (ℤ × ℤ) → S → Prop} (hstart : motive ∅ s)
    (hstep : ∀ done x y s, (x, y) ∈ cells x₀ x₁ y₀ y₁ → (x, y) ∉ done → motive done s →
      motive (insert (x, y) done) (g x y s)) :
    motive (cells x₀ x₁ y₀ y₁)
      (forRange y₀ y₁ (fun y s ↦ forRange x₀ x₁ (fun x s ↦ g x y s) s) s) := by
  have hempty (x₁ y₁ : ℤ) (hle : x₁ ≤ x₀ ∨ y₁ ≤ y₀) : cells x₀ x₁ y₀ y₁ = ∅ := by
    refine Set.eq_empty_of_forall_notMem fun p hp ↦ ?_
    obtain ⟨⟨hx₀, hx₁⟩, hy₀, hy₁⟩ := hp
    omega
  rcases le_total y₀ y₁ with hy | hy
  swap
  · rw [hempty x₁ y₁ (.inr hy), forRange_of_le hy]
    exact hstart
  rcases le_total x₀ x₁ with hx | hx
  swap
  · rw [hempty x₁ y₁ (.inl hx)]
    exact forRange_preserves hstart fun y s _ _ hs ↦ by rwa [forRange_of_le hx]
  -- The rows in front of the counter are done, and within a row the cells in front of the column.
  refine forRange_induct (motive := fun y s ↦ motive (cells x₀ x₁ y₀ y) s) hy ?_ ?_
  · rwa [hempty x₁ y₀ (.inr le_rfl)]
  · intro y s hlo hhi hs
    have hrow : cells x₀ x₁ y₀ (y + 1) = cells x₀ x₁ y₀ y ∪ cells x₀ x₁ y (y + 1) := by
      ext p
      simp only [cells, Set.mem_ofPred_eq, Set.mem_union]
      omega
    rw [hrow]
    refine forRange_induct
      (motive := fun x s ↦ motive (cells x₀ x₁ y₀ y ∪ cells x₀ x y (y + 1)) s) hx ?_ ?_
    · have hnone : cells x₀ x₀ y (y + 1) = ∅ :=
        Set.eq_empty_of_forall_notMem fun p hp ↦ not_lt.mpr hp.1.1 hp.1.2
      rwa [hnone, Set.union_empty]
    · intro x s hxlo hxhi hs
      have hcell : cells x₀ x₁ y₀ y ∪ cells x₀ (x + 1) y (y + 1) =
          insert (x, y) (cells x₀ x₁ y₀ y ∪ cells x₀ x y (y + 1)) := by
        ext ⟨a, b⟩
        simp only [cells, Set.mem_ofPred_eq, Set.mem_union, Set.mem_insert_iff, Prod.mk.injEq]
        omega
      rw [hcell]
      refine hstep _ x y s ⟨⟨hxlo, hxhi⟩, hlo, hhi⟩ ?_ hs
      simp only [cells, Set.mem_ofPred_eq, Set.mem_union]
      omega

end Katmai.Foundation
