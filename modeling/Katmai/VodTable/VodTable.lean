import Katmai.Foundation.Registry

/-!
# The table of servers of a client

`vod_table/vod_table.c` keeps the servers a `streamio_v3` client has heard of, by address, with the
code under which the client is registered at each of them and the slot of the server in the address
table of `udplib`. An entry is never freed. `vodsvr_add` and `vodsvr_set_registcode` take the slot
of an address in the sense of `Katmai.Foundation.Registry`.
-/

set_option autoImplicit false
set_option relaxedAutoImplicit false

namespace Katmai.VodTable

open Foundation

/-- `struct vodsvr_table_t`. -/
structure VodsvrEntry where
  addr : ℕ
  inuse : Bool
  regist : ℤ
  udpEntry : ℤ
  deriving DecidableEq

/-- The static variables `vodtab`, `count` and `inuse`. -/
structure Vodtab where
  count : ℕ
  vodtab : ℕ → VodsvrEntry
  inuse : ℕ

/-- `new_vodsvr`. -/
def newVodsvr (n : ℕ) : Vodtab where
  count := n
  vodtab := fun _ ↦ ⟨0, false, 0, 0⟩
  inuse := 0

namespace Vodtab

variable (t : Vodtab)

/-- `vodsvr_regist_code`. -/
def vodsvrRegistCode (n : ℤ) : ℤ :=
  if 0 ≤ n ∧ n < t.count then (t.vodtab n.toNat).regist else -1

/-- `vodsvr_udp_entry`. -/
def vodsvrUdpEntry (n : ℤ) : ℤ :=
  if 0 ≤ n ∧ n < t.count then (t.vodtab n.toNat).udpEntry else -1

/-- The search loop of `vodsvr_add`: the entry it returns, or `f` after the loop. -/
def findAddr (addr : ℕ) : Option ℕ :=
  scanSlots (fun i ↦ (t.vodtab i).inuse) (fun i ↦ (t.vodtab i).addr == addr) t.count 0 none

/-- `vodsvr_add`. -/
def vodsvrAdd (addr : ℕ) : ℤ × Vodtab :=
  match t.findAddr addr with
  | some f =>
    if (t.vodtab f).inuse then (f, t)
    else (f, { t with
      vodtab := Function.update t.vodtab f ⟨addr, true, 0, -1⟩
      inuse := t.inuse + 1 })
  | none => (-1, t)

/-- `vodsvr_unset_registcode`. -/
def vodsvrUnsetRegistcode (n : ℤ) : ℤ × Vodtab :=
  if 0 ≤ n ∧ n < t.count then
    (1, { t with
      vodtab := Function.update t.vodtab n.toNat { t.vodtab n.toNat with regist := 0 } })
  else (0, t)

/-- `vodsvr_set_registcode`. -/
def vodsvrSetRegistcode (addr : ℕ) (code u : ℤ) : ℤ × Vodtab :=
  let added := t.vodsvrAdd addr
  if 0 ≤ added.1 then
    (added.1, { added.2 with
      vodtab := Function.update added.2.vodtab added.1.toNat
        { added.2.vodtab added.1.toNat with regist := code, udpEntry := u } })
  else added

end Vodtab

/-- The key of an entry in use. -/
def VodsvrEntry.key (entry : VodsvrEntry) : Option ℕ :=
  if entry.inuse then some entry.addr else none

section Vodsvr

variable (t : Vodtab) (addr : ℕ)

theorem vodsvrKey_eq_some {entry : VodsvrEntry} :
    entry.key = some addr ↔ entry.inuse = true ∧ entry.addr = addr := by
  unfold VodsvrEntry.key
  split_ifs with huse <;> simp [huse]

theorem vodsvrKey_eq_none {entry : VodsvrEntry} : entry.key = none ↔ entry.inuse = false := by
  unfold VodsvrEntry.key
  split_ifs with huse <;> simp [huse]

theorem findAddr_eq_registSlot :
    t.findAddr addr = registSlot t.count (VodsvrEntry.key ∘ t.vodtab) addr := by
  refine scanSlots_eq_registSlot (fun i ↦ ?_) fun i ↦ ?_
  · exact vodsvrKey_eq_none.symm
  · rw [Function.comp_apply, vodsvrKey_eq_some, beq_iff_eq]

/-- `vodsvr_add` takes the slot of the address. -/
theorem takesSlot_vodsvrAdd :
    TakesSlot t.count VodsvrEntry.key addr t.vodtab (t.vodsvrAdd addr).2.vodtab
      (t.vodsvrAdd addr).1 := by
  unfold Vodtab.vodsvrAdd
  rw [findAddr_eq_registSlot]
  cases hslot : registSlot t.count (VodsvrEntry.key ∘ t.vodtab) addr with
  | none => exact .of_cases (.inr ⟨hslot, rfl, rfl⟩)
  | some i =>
    dsimp only
    split_ifs with huse
    · refine .of_cases (.inl ⟨i, hslot, rfl, ?_, fun _ _ ↦ rfl⟩)
      rcases (registSlot_eq_some hslot).2 with hkey | hfree
      · exact hkey
      · exact absurd (vodsvrKey_eq_none.mp hfree) (by simp [huse])
    · refine .of_cases (.inl ⟨i, hslot, rfl, ?_, fun j hji ↦ Function.update_of_ne hji ..⟩)
      simp [VodsvrEntry.key]

theorem vodsvrAdd_count : (t.vodsvrAdd addr).2.count = t.count := by
  unfold Vodtab.vodsvrAdd
  split
  · split_ifs <;> rfl
  · rfl

/-- `vodsvr_set_registcode` takes the slot of the address. -/
theorem takesSlot_vodsvrSetRegistcode (code u : ℤ) :
    TakesSlot t.count VodsvrEntry.key addr t.vodtab (t.vodsvrSetRegistcode addr code u).2.vodtab
      (t.vodsvrSetRegistcode addr code u).1 := by
  have hadd := takesSlot_vodsvrAdd t addr
  unfold Vodtab.vodsvrSetRegistcode
  cases hslot : registSlot t.count (VodsvrEntry.key ∘ t.vodtab) addr with
  | none =>
    have hrc := hadd.answer
    rw [hslot, Option.elim_none] at hrc
    simp only [hrc]
    exact .of_cases (.inr ⟨hslot, hrc, hadd.full hslot⟩)
  | some i =>
    obtain ⟨hkey, hothers⟩ := hadd.taken i hslot
    have hrc := hadd.answer
    rw [hslot, Option.elim_some] at hrc
    simp only [hrc, Int.natCast_nonneg, if_true, Int.toNat_natCast]
    refine .of_cases (.inl ⟨i, hslot, rfl, ?_, fun j hji ↦ ?_⟩)
    · rw [Function.update_self]
      exact hkey
    · rw [Function.update_of_ne hji]
      exact hothers j hji

theorem vodsvrSetRegistcode_count (code u : ℤ) :
    (t.vodsvrSetRegistcode addr code u).2.count = t.count := by
  unfold Vodtab.vodsvrSetRegistcode
  dsimp only
  split_ifs <;> exact vodsvrAdd_count t addr

/-- `vodsvr_unset_registcode` changes no address. -/
theorem vodsvrUnsetRegistcode_key (n : ℤ) (i : ℕ) :
    ((t.vodsvrUnsetRegistcode n).2.vodtab i).key = (t.vodtab i).key := by
  unfold Vodtab.vodsvrUnsetRegistcode
  split_ifs with hn
  · by_cases hi : i = n.toNat
    · simp [hi, VodsvrEntry.key]
    · simp [Function.update_of_ne hi]
  · rfl

theorem vodsvrUnsetRegistcode_count (n : ℤ) :
    (t.vodsvrUnsetRegistcode n).2.count = t.count := by
  unfold Vodtab.vodsvrUnsetRegistcode
  split_ifs <;> rfl

end Vodsvr

end Katmai.VodTable
