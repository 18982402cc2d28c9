import Katmai.FileServer.Datagram
import Katmai.Foundation.SlotTable

/-!
# The address table of `udplib`

`udplib` keeps the addresses of known peers in a table of `listcnt` slots, so that a datagram can be
sent to a slot number. `udplib_regist_rmaddr` finds or makes a slot for the sender of the datagram
received last, by address and port. As a `SlotTable`, it is a registration.
-/

set_option autoImplicit false
set_option relaxedAutoImplicit false

namespace Katmai.Udplib

open FileServer Foundation

/-- The fields of `struct udplib_t` for the table. -/
structure UdpTable where
  listcnt : ℕ
  addruse : ℕ → Bool
  addrlist : ℕ → Address

/-- `new_udplib` for `n` slots. -/
def newUdplib (n : ℕ) : UdpTable where
  listcnt := n
  addruse := fun _ ↦ false
  addrlist := fun _ ↦ ⟨0, 0⟩

/-- The search loop of `udplib_regist_rmaddr`, with `count` slots to go from `i` on: `f` is the
first free slot so far. -/
def UdpTable.findRmaddr (udp : UdpTable) (rmaddr : Address) : (count i : ℕ) → Option ℕ → Option ℕ
  | 0, _, f => f
  | count + 1, i, f =>
    if udp.addruse i = false then
      udp.findRmaddr rmaddr count (i + 1) (if f = none then some i else f)
    else if udp.addrlist i = rmaddr then some i
    else udp.findRmaddr rmaddr count (i + 1) f

/-- `udplib_regist_rmaddr`: the slot of the sender, or -1. -/
def UdpTable.udplibRegistRmaddr (udp : UdpTable) (rmaddr : Address) : ℤ × UdpTable :=
  match udp.findRmaddr rmaddr udp.listcnt 0 none with
  | some f =>
    if udp.addruse f = false then
      (f, { udp with
        addrlist := Function.update udp.addrlist f rmaddr
        addruse := Function.update udp.addruse f true })
    else (f, udp)
  | none => (-1, udp)

/-- `udplib_regist_ipaddr`: the slot of the sender's address whatever the port, or -1. -/
def UdpTable.udplibRegistIpaddr (udp : UdpTable) (rmaddr : Address) : ℤ × UdpTable :=
  match scanSlots udp.addruse (fun i ↦ (udp.addrlist i).ip == rmaddr.ip) udp.listcnt 0 none with
  | some f =>
    if udp.addruse f = false then
      (f, { udp with
        addrlist := Function.update udp.addrlist f rmaddr
        addruse := Function.update udp.addruse f true })
    else (f, udp)
  | none => (-1, udp)

/-- `udplib_unregist`. -/
def UdpTable.udplibUnregist (udp : UdpTable) (entry : ℤ) : UdpTable :=
  if 0 ≤ entry ∧ entry < udp.listcnt then
    { udp with addruse := Function.update udp.addruse entry.toNat false }
  else udp

/-- What the slots hold. -/
def UdpTable.slots (udp : UdpTable) (i : ℕ) : Option Address :=
  if udp.addruse i then some (udp.addrlist i) else none

namespace UdpTable

variable (udp : UdpTable) (rmaddr : Address)

theorem slots_eq_some_iff (i : ℕ) (address : Address) :
    udp.slots i = some address ↔ udp.addruse i = true ∧ udp.addrlist i = address := by
  unfold slots
  split_ifs with huse
  · rw [Option.some.injEq, and_iff_right huse]
  · simp [huse]

theorem slots_eq_none_iff (i : ℕ) : udp.slots i = none ↔ udp.addruse i = false := by
  unfold slots
  split_ifs with huse
  · simp [huse]
  · simpa using huse

/-- The search loop is a scan for the address. -/
theorem findRmaddr_eq_scanSlots (count i : ℕ) (f : Option ℕ) :
    udp.findRmaddr rmaddr count i f =
      scanSlots udp.addruse (fun j ↦ udp.addrlist j = rmaddr) count i f := by
  induction count generalizing i f with
  | zero => rfl
  | succ count ih =>
    rw [findRmaddr, scanSlots, ih, ih]
    simp only [decide_eq_true_eq]

theorem findRmaddr_eq_registSlot :
    udp.findRmaddr rmaddr udp.listcnt 0 none = registSlot udp.listcnt udp.slots rmaddr := by
  rw [findRmaddr_eq_scanSlots]
  refine scanSlots_eq_registSlot (fun i ↦ (udp.slots_eq_none_iff i).symm) fun i ↦ ?_
  rw [decide_eq_true_eq, udp.slots_eq_some_iff]

/-- The slot that `udplib_regist_rmaddr` returns. -/
theorem udplibRegistRmaddr_fst :
    (udp.udplibRegistRmaddr rmaddr).1 =
      (registSlot udp.listcnt udp.slots rmaddr).elim (-1) fun i ↦ (i : ℤ) := by
  unfold udplibRegistRmaddr
  rw [findRmaddr_eq_registSlot]
  cases registSlot udp.listcnt udp.slots rmaddr with
  | none => rfl
  | some i =>
    dsimp only
    split_ifs <;> rfl

/-- What the slots hold after `udplib_regist_rmaddr`. -/
theorem udplibRegistRmaddr_slots :
    (udp.udplibRegistRmaddr rmaddr).2.slots = regist udp.listcnt udp.slots rmaddr := by
  unfold udplibRegistRmaddr regist
  rw [findRmaddr_eq_registSlot]
  cases hslot : registSlot udp.listcnt udp.slots rmaddr with
  | none => rfl
  | some i =>
    dsimp only
    funext j
    split_ifs with huse
    · by_cases hji : j = i
      · subst hji
        simp [slots]
      · simp [slots, Function.update_of_ne hji]
    · rcases (registSlot_eq_some hslot).2 with hkey | hnone
      · rw [← hkey, Function.update_eq_self]
      · exact absurd ((udp.slots_eq_none_iff i).mp hnone) huse

theorem udplibRegistRmaddr_listcnt : (udp.udplibRegistRmaddr rmaddr).2.listcnt = udp.listcnt := by
  unfold udplibRegistRmaddr
  split
  · split_ifs <;> rfl
  · rfl

end UdpTable

end Katmai.Udplib
