import Mathlib.Data.List.Basic
import Mathlib.Tactic.Common

/-!
# Sums reduced after every addition

The checksums of datagram protocols add up bytes and keep the sum below a modulus after every
addition. `modularSum` is that loop. The sum depends on the summed positions only
(`modularSum_congr`), and two sums that differ in their last summand alone, by less than the
modulus, are different (`modularSum_ne_of_last`).
-/

set_option autoImplicit false
set_option relaxedAutoImplicit false

namespace Katmai.Foundation

/-- The sum of `f` over the `n` positions from `start` on, reduced after every addition. -/
def modularSum (modulus : ℕ) (f : ℕ → ℕ) (start n : ℕ) : ℕ :=
  (List.range' start n).foldl (fun sum i ↦ (sum + f i) % modulus) 0

section ModularSum

variable {modulus : ℕ} {f g : ℕ → ℕ} {start n : ℕ}

/-- The last summand is added last. -/
theorem modularSum_succ :
    modularSum modulus f start (n + 1) =
      (modularSum modulus f start n + f (start + n)) % modulus := by
  rw [modularSum, List.range'_concat, List.foldl_append, Nat.one_mul]
  rfl

/-- The sum depends on the summed positions. -/
theorem modularSum_congr (hagree : ∀ i, start ≤ i → i < start + n → f i = g i) :
    modularSum modulus f start n = modularSum modulus g start n := by
  induction n with
  | zero => rfl
  | succ n ih =>
    have hlast : f (start + n) = g (start + n) :=
      hagree _ (Nat.le_add_right _ _) (Nat.lt_succ_self _)
    rw [modularSum_succ, modularSum_succ, hlast,
      ih fun i hlo hhi ↦ hagree i hlo (Nat.lt_succ_of_lt hhi)]

theorem modularSum_lt (hpos : 0 < modulus) : modularSum modulus f start n < modulus := by
  cases n with
  | zero => exact hpos
  | succ n =>
    rw [modularSum_succ]
    exact Nat.mod_lt _ hpos

/-- Sums that differ in the last summand are different, when the summands differ by less than the
modulus. -/
theorem modularSum_ne_of_last (hagree : ∀ i, start ≤ i → i < start + n → f i = g i)
    (hlt : f (start + n) < g (start + n)) (hless : g (start + n) < f (start + n) + modulus) :
    modularSum modulus f start (n + 1) ≠ modularSum modulus g start (n + 1) := by
  rw [modularSum_succ, modularSum_succ, modularSum_congr hagree]
  intro heq
  have hmod : modulus ∣ g (start + n) - f (start + n) := by
    have hzero := Nat.sub_mod_eq_zero_of_mod_eq heq.symm
    rw [Nat.add_sub_add_left] at hzero
    exact Nat.dvd_of_mod_eq_zero hzero
  have hle := Nat.le_of_dvd (Nat.sub_pos_of_lt hlt) hmod
  omega

end ModularSum

end Katmai.Foundation
