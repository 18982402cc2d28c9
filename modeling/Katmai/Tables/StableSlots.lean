import Katmai.FileServer.Registration
import Katmai.Rbmcast.ClientTable
import Katmai.VodTable.VodTable

/-!
# The five registration tables

The same scan for a key, or else the first free slot, is written five times: for the address table
of `udplib` by address and port (`udplib_regist_rmaddr`) and by address only
(`udplib_regist_ipaddr`), for the table of servers (`vodsvr_add`, and through it
`vodsvr_set_registcode`), for the entries of the `streamio_v3` server (`stbtbl_regist`) and for the
clients of a broadcast (`regist_client`). Each is a registry here, with the other operations on its
table, and each of them takes the slot of the registration in the sense of
`Katmai.Foundation.Registry`. So all five have stable slots (`stableSlots_of_new`).
-/

set_option autoImplicit false
set_option relaxedAutoImplicit false

namespace Katmai.Tables

open FileServer Foundation Rbmcast StreamioV3 Udplib VodTable

/-! ### The address table of `udplib` -/

/-- The operations on the address table of `udplib`. -/
inductive UdpOp
  | regist (rmaddr : Address)
  | unregist (entry : ℤ)

/-- A slot of the address table. -/
def udpEntry (udp : UdpTable) (i : ℕ) : Bool × Address :=
  (udp.addruse i, udp.addrlist i)

/-- The key of a slot in use. -/
def udpKey {Key : Type} (key : Address → Key) (entry : Bool × Address) : Option Key :=
  if entry.1 then some (key entry.2) else none

/-- The table of `udplib` with `udplib_regist_rmaddr` and `udplib_unregist`. -/
def rmaddrRegistry : Registry UdpTable UdpOp (Bool × Address) Address where
  size udp := udp.listcnt
  entry := udpEntry
  keyOf := udpKey id
  call udp
    | .regist rmaddr => udp.udplibRegistRmaddr rmaddr
    | .unregist entry => (0, udp.udplibUnregist entry)
  registers
    | .regist rmaddr => some rmaddr
    | .unregist _ => none

/-- The table of `udplib` with `udplib_regist_ipaddr` and `udplib_unregist`. -/
def ipaddrRegistry : Registry UdpTable UdpOp (Bool × Address) ℕ where
  size udp := udp.listcnt
  entry := udpEntry
  keyOf := udpKey Address.ip
  call udp
    | .regist rmaddr => udp.udplibRegistIpaddr rmaddr
    | .unregist entry => (0, udp.udplibUnregist entry)
  registers
    | .regist rmaddr => some rmaddr.ip
    | .unregist _ => none

section Udp

variable {Key : Type} [DecidableEq Key] {key : Address → Key} (udp : UdpTable) (rmaddr : Address)

omit [DecidableEq Key] in
theorem udpKey_eq_some {entry : Bool × Address} {k : Key} :
    udpKey key entry = some k ↔ entry.1 = true ∧ key entry.2 = k := by
  unfold udpKey
  split_ifs with huse
  · simp [huse]
  · simp [huse]

omit [DecidableEq Key] in
theorem udpKey_eq_none {entry : Bool × Address} : udpKey key entry = none ↔ entry.1 = false := by
  unfold udpKey
  split_ifs with huse <;> simp [huse]

/-- Storing the sender in the slot found, when that is free, takes the slot. -/
theorem takesSlot_store {i : ℕ}
    (hslot : registSlot udp.listcnt (udpKey key ∘ udpEntry udp) (key rmaddr) = some i) :
    TakesSlot udp.listcnt (udpKey key) (key rmaddr) (udpEntry udp)
      (udpEntry (if udp.addruse i = false then { udp with
        addrlist := Function.update udp.addrlist i rmaddr
        addruse := Function.update udp.addruse i true } else udp)) i := by
  refine .of_cases (.inl ⟨i, hslot, rfl, ?_, ?_⟩)
  · split_ifs with huse
    · exact udpKey_eq_some.mpr ⟨Function.update_self .., by simp [udpEntry]⟩
    · rcases (registSlot_eq_some hslot).2 with hkey | hfree
      · exact hkey
      · exact absurd (udpKey_eq_none.mp hfree) huse
  · intro j hji
    split_ifs with huse
    · simp [udpEntry, Function.update_of_ne hji]
    · rfl

/-- A table that finds no slot stays as it is. -/
theorem takesSlot_full
    (hslot : registSlot udp.listcnt (udpKey key ∘ udpEntry udp) (key rmaddr) = none) :
    TakesSlot udp.listcnt (udpKey key) (key rmaddr) (udpEntry udp) (udpEntry udp) (-1) :=
  .of_cases (.inr ⟨hslot, rfl, rfl⟩)

omit [DecidableEq Key] in
/-- `udplib_unregist` frees one slot or none. -/
theorem unregist_frees (entry : ℤ) (i : ℕ) :
    udpKey key (udpEntry (udp.udplibUnregist entry) i) = udpKey key (udpEntry udp i) ∨
      udpKey key (udpEntry (udp.udplibUnregist entry) i) = none := by
  unfold UdpTable.udplibUnregist
  split_ifs with hentry
  · by_cases hi : i = entry.toNat
    · exact .inr (udpKey_eq_none.mpr (by simp [udpEntry, hi]))
    · exact .inl (by simp [udpEntry, Function.update_of_ne hi])
  · exact .inl rfl

theorem unregist_listcnt (entry : ℤ) : (udp.udplibUnregist entry).listcnt = udp.listcnt := by
  unfold UdpTable.udplibUnregist
  split_ifs <;> rfl

theorem findIpaddr_eq_registSlot :
    scanSlots udp.addruse (fun i ↦ (udp.addrlist i).ip == rmaddr.ip) udp.listcnt 0 none =
      registSlot udp.listcnt (udpKey Address.ip ∘ udpEntry udp) rmaddr.ip := by
  refine scanSlots_eq_registSlot (fun i ↦ ?_) fun i ↦ ?_
  · rw [Function.comp_apply, udpKey_eq_none]
    rfl
  · rw [Function.comp_apply, udpKey_eq_some, beq_iff_eq]
    rfl

/-- `udplib_regist_rmaddr` takes the slot of the address and port. -/
theorem takesSlot_udplibRegistRmaddr :
    TakesSlot udp.listcnt (udpKey id) rmaddr (udpEntry udp)
      (udpEntry (udp.udplibRegistRmaddr rmaddr).2) (udp.udplibRegistRmaddr rmaddr).1 := by
  have hslots : udp.slots = udpKey id ∘ udpEntry udp := rfl
  unfold UdpTable.udplibRegistRmaddr
  rw [UdpTable.findRmaddr_eq_registSlot, hslots]
  cases hslot : registSlot udp.listcnt (udpKey id ∘ udpEntry udp) rmaddr with
  | none => exact takesSlot_full udp rmaddr hslot
  | some i =>
    have hstore := takesSlot_store udp rmaddr hslot
    dsimp only
    split_ifs at hstore ⊢ with huse <;> exact hstore

/-- `udplib_regist_ipaddr` takes the slot of the address. -/
theorem takesSlot_udplibRegistIpaddr :
    TakesSlot udp.listcnt (udpKey Address.ip) rmaddr.ip (udpEntry udp)
      (udpEntry (udp.udplibRegistIpaddr rmaddr).2) (udp.udplibRegistIpaddr rmaddr).1 := by
  unfold UdpTable.udplibRegistIpaddr
  rw [findIpaddr_eq_registSlot]
  cases hslot : registSlot udp.listcnt (udpKey Address.ip ∘ udpEntry udp) rmaddr.ip with
  | none => exact takesSlot_full udp rmaddr hslot
  | some i =>
    have hstore := takesSlot_store udp rmaddr hslot
    dsimp only
    split_ifs at hstore ⊢ with huse <;> exact hstore

theorem udplibRegistIpaddr_listcnt :
    (udp.udplibRegistIpaddr rmaddr).2.listcnt = udp.listcnt := by
  unfold UdpTable.udplibRegistIpaddr
  split
  · split_ifs <;> rfl
  · rfl

end Udp

theorem lawful_rmaddrRegistry : rmaddrRegistry.Lawful where
  size_call udp op := by
    cases op with
    | regist rmaddr => exact udp.udplibRegistRmaddr_listcnt rmaddr
    | unregist entry => exact unregist_listcnt udp entry
  takes udp op key hop := by
    cases op with
    | regist rmaddr =>
      obtain rfl : rmaddr = key := Option.some.inj hop
      exact takesSlot_udplibRegistRmaddr udp rmaddr
    | unregist entry => exact absurd hop.symm (Option.some_ne_none key)
  frees udp op hop i := by
    cases op with
    | regist rmaddr => exact absurd hop (Option.some_ne_none rmaddr)
    | unregist entry => exact unregist_frees udp entry i

theorem lawful_ipaddrRegistry : ipaddrRegistry.Lawful where
  size_call udp op := by
    cases op with
    | regist rmaddr => exact udplibRegistIpaddr_listcnt udp rmaddr
    | unregist entry => exact unregist_listcnt udp entry
  takes udp op key hop := by
    cases op with
    | regist rmaddr =>
      obtain rfl : rmaddr.ip = key := Option.some.inj hop
      exact takesSlot_udplibRegistIpaddr udp rmaddr
    | unregist entry => exact absurd hop.symm (Option.some_ne_none key)
  frees udp op hop i := by
    cases op with
    | regist rmaddr => exact absurd hop (Option.some_ne_none rmaddr.ip)
    | unregist entry => exact unregist_frees udp entry i

/-! ### The servers of a client -/

/-- The operations on the table of servers. -/
inductive VodsvrOp
  | add (addr : ℕ)
  | setRegistcode (addr : ℕ) (code u : ℤ)
  | unsetRegistcode (n : ℤ)

/-- The table of servers with its operations. -/
def vodsvrRegistry : Registry Vodtab VodsvrOp VodsvrEntry ℕ where
  size t := t.count
  entry t := t.vodtab
  keyOf := VodsvrEntry.key
  call t
    | .add addr => t.vodsvrAdd addr
    | .setRegistcode addr code u => t.vodsvrSetRegistcode addr code u
    | .unsetRegistcode n => t.vodsvrUnsetRegistcode n
  registers
    | .add addr => some addr
    | .setRegistcode addr _ _ => some addr
    | .unsetRegistcode _ => none

theorem lawful_vodsvrRegistry : vodsvrRegistry.Lawful where
  size_call t op := by
    cases op with
    | add addr => exact vodsvrAdd_count t addr
    | setRegistcode addr code u => exact vodsvrSetRegistcode_count t addr code u
    | unsetRegistcode n => exact vodsvrUnsetRegistcode_count t n
  takes t op key hop := by
    cases op with
    | add addr =>
      obtain rfl : addr = key := Option.some.inj hop
      exact takesSlot_vodsvrAdd t addr
    | setRegistcode addr code u =>
      obtain rfl : addr = key := Option.some.inj hop
      exact takesSlot_vodsvrSetRegistcode t addr code u
    | unsetRegistcode n => exact absurd hop.symm (Option.some_ne_none key)
  frees t op hop i := by
    cases op with
    | add addr => exact absurd hop (Option.some_ne_none addr)
    | setRegistcode addr code u => exact absurd hop (Option.some_ne_none addr)
    | unsetRegistcode n => exact .inl (vodsvrUnsetRegistcode_key t n i)

/-! ### The entries of a server -/

/-- The key of an entry in use. -/
def stbKey (entry : StbEntry) : Option ℕ :=
  if entry.inuse then some entry.addr else none

/-- The table of set-top boxes with `stbtbl_regist`. -/
def stbtblRegistry : Registry StbTable (ℕ × ℤ) StbEntry ℕ where
  size t := t.count
  entry t := t.stbent
  keyOf := stbKey
  call t op := t.stbtblRegist op.1 op.2
  registers op := some op.1

theorem lawful_stbtblRegistry : stbtblRegistry.Lawful where
  size_call t op := stbtblRegist_count t op.1 op.2
  takes t op key hop := by
    obtain rfl : op.1 = key := Option.some.inj hop
    have hslots : entrySlots t = stbKey ∘ t.stbent := rfl
    have hcases := stbtblRegist_cases t op.1 op.2
    rw [hslots] at hcases
    simp only [stbtblRegistry]
    rcases hcases with ⟨i, hslot, hsame, heq⟩ | ⟨i, hslot, -, heq⟩ | ⟨hslot, heq⟩ <;> rw [heq]
    · refine .of_cases (.inl ⟨i, hslot, rfl, ?_, fun j hji ↦ Function.update_of_ne hji ..⟩)
      dsimp only
      rw [Function.update_self]
      exact hsame
    · refine .of_cases (.inl ⟨i, hslot, rfl, ?_, fun j hji ↦ Function.update_of_ne hji ..⟩)
      dsimp only
      rw [Function.update_self]
      rfl
    · exact .of_cases (.inr ⟨hslot, rfl, rfl⟩)
  frees _ op hop _ := absurd hop (Option.some_ne_none op.1)

/-! ### The clients of a broadcast -/

/-- A slot of the table of clients. -/
def clientEntry (pd : ClientTable) (i : ℕ) : Bool × Address :=
  (pd.addruse i, pd.addrlist i)

/-- The table of clients with `regist_client`. -/
def clientRegistry : Registry ClientTable Address (Bool × Address) ℕ where
  size pd := pd.addrcnt
  entry := clientEntry
  keyOf := udpKey Address.ip
  call pd source := pd.registClient source
  registers source := some source.ip

theorem lawful_clientRegistry : clientRegistry.Lawful where
  size_call pd source := by
    simp only [clientRegistry, ClientTable.registClient]
    split
    · split_ifs <;> rfl
    · rfl
  takes pd source key hop := by
    obtain rfl : source.ip = key := Option.some.inj hop
    have hfind : scanSlots pd.addruse (fun i ↦ (pd.addrlist i).ip == source.ip) pd.addrcnt 0 none =
        registSlot pd.addrcnt (udpKey Address.ip ∘ clientEntry pd) source.ip := by
      refine scanSlots_eq_registSlot (fun i ↦ ?_) fun i ↦ ?_
      · rw [Function.comp_apply, udpKey_eq_none]
        rfl
      · rw [Function.comp_apply, udpKey_eq_some, beq_iff_eq]
        rfl
    simp only [clientRegistry, ClientTable.registClient, hfind]
    cases hslot : registSlot pd.addrcnt (udpKey Address.ip ∘ clientEntry pd) source.ip with
    | none => exact .of_cases (.inr ⟨hslot, rfl, rfl⟩)
    | some i =>
      dsimp only
      split_ifs with huse
      · refine .of_cases (.inl ⟨i, hslot, rfl, ?_, fun _ _ ↦ rfl⟩)
        rcases (registSlot_eq_some hslot).2 with hkey | hfree
        · exact hkey
        · exact absurd (udpKey_eq_none.mp hfree) (by simp [clientEntry, huse])
      · refine .of_cases (.inl ⟨i, hslot, rfl, by simp [udpKey, clientEntry], fun j hji ↦ ?_⟩)
        simp [clientEntry, Function.update_of_ne hji]
  frees _ source hop _ := absurd hop (Option.some_ne_none source.ip)

/-! ### All five tables -/

/-- After every history of each of the five tables, from a new table of `n` slots, at most one slot
in use holds a key, a key that is present gets its slot, an absent one the lowest free slot, no
other slot changes, and -1 is the answer exactly when the key is absent and all slots are in
use. -/
theorem stableSlots_of_new (n : ℕ) (memory : ℕ → Address) :
    rmaddrRegistry.StableSlots (newUdplib n) ∧ ipaddrRegistry.StableSlots (newUdplib n) ∧
    vodsvrRegistry.StableSlots (newVodsvr n) ∧ stbtblRegistry.StableSlots (newStbtable n) ∧
    clientRegistry.StableSlots (newClientTable n memory) :=
  ⟨lawful_rmaddrRegistry.stableSlots fun _ _ ↦ rfl,
    lawful_ipaddrRegistry.stableSlots fun _ _ ↦ rfl,
    lawful_vodsvrRegistry.stableSlots fun _ _ ↦ rfl,
    lawful_stbtblRegistry.stableSlots fun _ _ ↦ rfl,
    lawful_clientRegistry.stableSlots fun _ _ ↦ rfl⟩

end Katmai.Tables
