import Katmai.Genpdu.HandlerTable
import Mathlib.Algebra.BigOperators.Intervals

/-!
# What a generic PDU leads to

`Packed` says that the length field and the checksum of a buffer are those that `genpdu_pack`
writes. `genpdu_round_trip` follows a packet through packing and dispatch, for the handler table of
any history of registrations. `genpduDoCmd_refuses_corrupted` says that a packet in which one byte
was changed on the way is refused.

Both are about packets that arrive whole. `readsReceivedOnly_iff` says for which datagrams
`genpdu_do_cmd` stays within the bytes received: if fewer bytes than a header came in, the length
field may be what the buffer held before, and it is believed. `runtDatagram` is one byte that has
the packet before it executed a second time.
-/

set_option autoImplicit false
set_option relaxedAutoImplicit false

namespace Katmai.Genpdu

open Katmai.FileServer Katmai.Foundation

variable {Func : Type}

/-! ### The fields and the checksum as functions of the buffer -/

section Eval

variable (buffer : ℕ → UInt8)

@[simp] theorem eval_readUInt (offset : ℕ) :
    ByteReader.eval buffer (readUInt offset) = getUInt buffer offset :=
  rfl

@[simp] theorem eval_pduCksum : ByteReader.eval buffer pduCksum = getUInt buffer 0 :=
  rfl

@[simp] theorem eval_readInt (offset : ℕ) :
    ByteReader.eval buffer (readInt offset) = getInt buffer offset := by
  unfold readInt getInt
  rw [ByteReader.eval_bind, ByteReader.eval_pure, eval_readUInt]

@[simp] theorem eval_pduCmd : ByteReader.eval buffer pduCmd = getInt buffer 4 :=
  eval_readInt buffer 4

@[simp] theorem eval_pduLen : ByteReader.eval buffer pduLen = getInt buffer 8 :=
  eval_readInt buffer 8

/-- The bytes after the checksum field of a packet of `len` bytes, added up. -/
def byteSum (len : ℕ) : ℕ :=
  ∑ j ∈ Finset.Ico 4 len, (buffer j).toNat

/-- The loop adds up the bytes it looks at. -/
theorem eval_sumBytes (count i sum : ℕ) (hsum : sum < 2 ^ 28) :
    ByteReader.eval buffer (sumBytes count i sum) =
      (sum + ∑ j ∈ Finset.Ico i (i + count), (buffer j).toNat) % 2 ^ 28 := by
  induction count generalizing i sum with
  | zero =>
    rw [sumBytes, ByteReader.eval_pure, Nat.add_zero, Finset.Ico_self, Finset.sum_empty,
      Nat.add_zero, Nat.mod_eq_of_lt hsum]
  | succ count ih =>
    have hlt : i < i + (count + 1) := Nat.lt_add_of_pos_right (Nat.succ_pos count)
    rw [sumBytes, ByteReader.eval_bind, ByteReader.eval_read,
      ih (i + 1) _ (Nat.mod_lt _ (by decide)), Nat.mod_add_mod,
      Finset.sum_eq_sum_Ico_succ_bot hlt, Nat.add_assoc, Nat.add_right_comm i 1 count,
      Nat.add_assoc i count 1]

/-- What `genpdu_cksum` computes. -/
theorem eval_genpduCksum (rlen : ℤ) :
    ByteReader.eval buffer (genpduCksum rlen) =
      if (sizeofGenericPdu : ℤ) ≤ rlen % 2 ^ 64 ∧ rlen ≠ getInt buffer 8 then
        (getUInt buffer 0 + 1) % 2 ^ 32
      else byteSum buffer (getInt buffer 8).toNat % 2 ^ 28 := by
  rw [genpduCksum, ByteReader.eval_bind, eval_pduLen]
  split_ifs with hcheck
  · rw [ByteReader.eval_bind, ByteReader.eval_pure, eval_pduCksum]
  · have hIco : Finset.Ico 4 (4 + (getInt buffer 8 - 4).toNat) =
        Finset.Ico 4 (getInt buffer 8).toNat := by
      ext j
      rw [Finset.mem_Ico, Finset.mem_Ico]
      omega
    rw [eval_sumBytes buffer _ 4 0 (by decide), Nat.zero_add, hIco, byteSum]

/-- The sum that is computed for a packet of `len` bytes, by the sender and by the receiver. -/
theorem eval_genpduCksum_of_len_eq {len : ℕ} (hlen : getInt buffer 8 = len) {rlen : ℤ}
    (hrlen : rlen = 0 ∨ rlen = len) :
    ByteReader.eval buffer (genpduCksum rlen) = byteSum buffer len % 2 ^ 28 := by
  have hcheck : ¬((sizeofGenericPdu : ℤ) ≤ rlen % 2 ^ 64 ∧ rlen ≠ getInt buffer 8) := by
    rintro ⟨hsize, hne⟩
    rcases hrlen with rfl | rfl
    · exact absurd hsize (by decide)
    · exact hne hlen.symm
  rw [eval_genpduCksum, if_neg hcheck, hlen, Int.toNat_natCast]

/-- What `genpdu_do_cmd` decides, for a table that represents a map. -/
theorem Represents.eval_genpduDoCmd {table : GenpduPrivateData Func} {r : Registry Func}
    (hrep : Represents table r) (rlen : ℤ) :
    ByteReader.eval buffer (genpduDoCmd table rlen) =
      if ByteReader.eval buffer (genpduCksum rlen) ≠ getUInt buffer 0 then .refused
      else r.lookup (getInt buffer 4) := by
  rw [genpduDoCmd, ByteReader.eval_bind, ByteReader.eval_bind, eval_pduCksum]
  split_ifs with hcksum
  · rfl
  · rw [hrep.eval_findHandler, eval_pduCmd]

/-- A packet whose checksum is wrong is refused, whatever the table holds. -/
theorem eval_genpduDoCmd_of_ne (table : GenpduPrivateData Func) {rlen : ℤ}
    (hne : ByteReader.eval buffer (genpduCksum rlen) ≠ getUInt buffer 0) :
    ByteReader.eval buffer (genpduDoCmd table rlen) = .refused := by
  rw [genpduDoCmd, ByteReader.eval_bind, ByteReader.eval_bind, eval_pduCksum, if_pos hne]
  rfl

end Eval

/-! ### Packed buffers -/

/-- The length field and the checksum of a buffer are those of a packet of `len` bytes. -/
structure Packed (buffer : ℕ → UInt8) (len : ℕ) : Prop where
  len_eq : getInt buffer 8 = len
  cksum_eq : getUInt buffer 0 = byteSum buffer len % 2 ^ 28

/-- The checksum does not depend on the checksum field. -/
theorem byteSum_putInt_zero (buffer : ℕ → UInt8) (value : ℤ) (len : ℕ) :
    byteSum (putInt buffer 0 value) len = byteSum buffer len := by
  refine Finset.sum_congr rfl fun j hj ↦ ?_
  rw [putInt_of_le (Finset.mem_Ico.mp hj).1]

/-- `genpdu_mkcksum` makes a packet of a buffer with a length. -/
theorem packed_genpduMkcksum {buffer : ℕ → UInt8} {len : ℕ} (hlen : getInt buffer 8 = len) :
    Packed (genpduMkcksum buffer) len := by
  have hcksum := eval_genpduCksum_of_len_eq buffer hlen (.inl rfl)
  refine ⟨?_, ?_⟩
  · rw [← hlen]
    exact getInt_congr fun k _ ↦ putInt_of_le (by omega) _
  · unfold genpduMkcksum
    rw [getUInt_putInt_self, byteSum_putInt_zero, hcksum]
    omega

/-- `genpdu_mkcksum` leaves a packet alone. -/
theorem Packed.genpduMkcksum_eq {buffer : ℕ → UInt8} {len : ℕ} (hpacked : Packed buffer len) :
    genpduMkcksum buffer = buffer := by
  refine putInt_eq_self ?_
  rw [eval_genpduCksum_of_len_eq buffer hpacked.len_eq (.inl rfl), hpacked.cksum_eq]
  omega

section Pack

variable (flag : Option ℕ) (pdu : ℕ → UInt8) (cmd : ℤ) {len : ℕ}

/-- `genpdu_pack` makes a packet. -/
theorem packed_genpduPack (hlen : len < 2 ^ 31) : Packed (genpduPack flag pdu cmd len) len :=
  packed_genpduMkcksum (getInt_putInt_self (by omega) (by omega))

/-- The checksum is written last, before everything else in the packet. -/
theorem genpduPack_of_le {j : ℕ} (hj : 4 ≤ j) :
    genpduPack flag pdu cmd len j = putInt (putInt (setFlag flag pdu) 4 cmd) 8 len j :=
  putInt_of_le hj _

theorem getUInt_genpduPack_cmd :
    getUInt (genpduPack flag pdu cmd len) 4 = (cmd % 2 ^ 32).toNat := by
  have hstore (k : ℕ) (hk : k < 4) : genpduPack flag pdu cmd len (4 + k) =
      putInt (setFlag flag pdu) 4 cmd (4 + k) := by
    rw [genpduPack_of_le flag pdu cmd (Nat.le_add_right 4 k), putInt_of_lt (by omega)]
  rw [getUInt_congr hstore, getUInt_putInt_self]

theorem getInt_genpduPack_cmd (hlo : -2 ^ 31 ≤ cmd) (hhi : cmd < 2 ^ 31) :
    getInt (genpduPack flag pdu cmd len) 4 = cmd := by
  unfold getInt
  rw [getUInt_genpduPack_cmd, Int.toNat_of_nonneg (by omega)]
  exact (Int.emod_bmod cmd (2 ^ 32)).trans (bmod_eq_self hlo hhi)

theorem getUInt_genpduPack_len :
    getUInt (genpduPack flag pdu cmd len) 8 = ((len : ℤ) % 2 ^ 32).toNat := by
  have hstore (k : ℕ) (_ : k < 4) : genpduPack flag pdu cmd len (8 + k) =
      putInt (putInt (setFlag flag pdu) 4 cmd) 8 len (8 + k) :=
    genpduPack_of_le flag pdu cmd (by omega)
  rw [getUInt_congr hstore, getUInt_putInt_self]

end Pack

/-- A packet that arrives whole leads to the handler that the map has for its command. -/
theorem Packed.eval_genpduDoCmd {buffer : ℕ → UInt8} {len : ℕ} (hpacked : Packed buffer len)
    {table : GenpduPrivateData Func} {r : Registry Func} (hrep : Represents table r) :
    ByteReader.eval buffer (genpduDoCmd table len) = r.lookup (getInt buffer 4) := by
  have hcksum : ByteReader.eval buffer (genpduCksum len) = getUInt buffer 0 :=
    (eval_genpduCksum_of_len_eq buffer hpacked.len_eq (.inr rfl)).trans hpacked.cksum_eq.symm
  rw [hrep.eval_genpduDoCmd, if_neg (not_not.mpr hcksum)]

/-- Whatever history built the handler table, its commands are distinct, it is not overfull and a
failed `genpdu_add` leaves it alone; a packet that was packed with a command leads to the handler
that the history registered for the command, or is refused if there is none; and packing it again
changes nothing. -/
theorem genpdu_round_trip (num : ℕ) (history : List (TableOp Func)) (flag : Option ℕ)
    (pdu : ℕ → UInt8) {cmd : ℤ} {len : ℕ} (hlo : -2 ^ 31 ≤ cmd) (hhi : cmd < 2 ^ 31)
    (hmax : len < 2 ^ 31) :
    let table := tableAfter num history
    let packed := genpduPack flag pdu cmd len
    (∀ i < table.realNum, ∀ j < table.realNum,
      (table.handler i).cmd = (table.handler j).cmd → i = j) ∧
    table.realNum ≤ table.num ∧
    (∀ cmd' func, (genpduAdd table cmd' func).1 < 0 → (genpduAdd table cmd' func).2 = table) ∧
    ByteReader.eval packed (genpduDoCmd table len) = (registryAfter num history).lookup cmd ∧
    (∀ i < table.realNum, (table.handler i).cmd = cmd →
      ByteReader.eval packed (genpduDoCmd table len) = .called cmd (table.handler i).func) ∧
    ((∀ i < table.realNum, (table.handler i).cmd ≠ cmd) →
      ByteReader.eval packed (genpduDoCmd table len) = .refused) ∧
    ∀ again : Option ℕ, (∀ value, again = some value → value % 2 ^ 32 = getUInt packed 12) →
      genpduPack again packed cmd len = packed := by
  intro table packed
  have hrep : Represents table (registryAfter num history) := represents_tableAfter num history
  have hpacked : Packed packed len := packed_genpduPack flag pdu cmd hmax
  have hdispatch : ByteReader.eval packed (genpduDoCmd table len) =
      (registryAfter num history).lookup cmd := by
    rw [hpacked.eval_genpduDoCmd hrep]
    exact congrArg _ (getInt_genpduPack_cmd flag pdu cmd hlo hhi)
  refine ⟨hrep.cmd_injOn, hrep.realNum_le, ?_, hdispatch, ?_, ?_, ?_⟩
  · intro cmd' func hfailed
    rw [hrep.genpduAdd_eq] at hfailed ⊢
    split_ifs at hfailed ⊢ with haccepts
    · exact absurd hfailed (Int.not_lt.mpr (Int.natCast_nonneg _))
    · rfl
  · intro i hi hcmd
    rw [hdispatch, Registry.lookup, if_pos ((hrep.mem_commands_iff cmd).mpr ⟨i, hi, hcmd⟩), ← hcmd,
      hrep.func_eq i hi]
  · intro hnone
    have hfree : cmd ∉ (registryAfter num history).commands := by
      rw [hrep.mem_commands_iff]
      rintro ⟨i, hi, hcmd⟩
      exact hnone i hi hcmd
    rw [hdispatch, Registry.lookup, if_neg hfree]
  · intro again hflag
    have hset : setFlag again packed = packed := by
      cases again with
      | none => rfl
      | some value =>
        refine putInt_eq_self ?_
        rw [← hflag value rfl]
        omega
    rw [genpduPack, hset, putInt_eq_self (getUInt_genpduPack_cmd flag pdu cmd).symm,
      putInt_eq_self (getUInt_genpduPack_len flag pdu cmd).symm, hpacked.genpduMkcksum_eq]

theorem genpdu_round_trip_registered :
    ByteReader.eval (genpduPack (some 3) (fun _ ↦ 200) (-5) 40)
      (genpduDoCmd (tableAfter 2 [.add (-5) (some 'a'), .add (-5) (some 'b'), .add 9 (some 'c')])
        (40 : ℕ)) = .called (-5) (some 'a') :=
  (genpdu_round_trip 2 [.add (-5) (some 'a'), .add (-5) (some 'b'), .add 9 (some 'c')] (some 3)
    (fun _ ↦ 200) (by decide) (by decide) (by decide)).2.2.2.1.trans (by decide)

/-! ### Corrupted packets -/

/-- The sum changes with every byte it covers: by less than 256, so also in 28 bits. -/
theorem byteSum_update_mod_ne {buffer : ℕ → UInt8} {len p : ℕ} (hlo : 4 ≤ p) (hhi : p < len)
    {value : UInt8} (hvalue : value ≠ buffer p) :
    byteSum (Function.update buffer p value) len % 2 ^ 28 ≠ byteSum buffer len % 2 ^ 28 := by
  have hmem : p ∈ Finset.Ico 4 len := Finset.mem_Ico.mpr ⟨hlo, hhi⟩
  have hnew := Finset.add_sum_erase _ (fun j ↦ (Function.update buffer p value j).toNat) hmem
  have hold := Finset.add_sum_erase _ (fun j ↦ (buffer j).toNat) hmem
  have hrest : ∑ j ∈ (Finset.Ico 4 len).erase p, (Function.update buffer p value j).toNat =
      ∑ j ∈ (Finset.Ico 4 len).erase p, (buffer j).toNat := by
    refine Finset.sum_congr rfl fun j hj ↦ ?_
    rw [Function.update_of_ne (Finset.ne_of_mem_erase hj)]
  have hne : value.toNat ≠ (buffer p).toNat := fun heq ↦ hvalue (UInt8.toNat_inj.mp heq)
  have hvalueLt := value.toNat_lt
  have hbyteLt := (buffer p).toNat_lt
  rw [hrest] at hnew
  simp only [Function.update_self] at hnew
  unfold byteSum
  omega

/-- The sum does not cover the checksum field. -/
theorem byteSum_update_of_lt {buffer : ℕ → UInt8} {p : ℕ} (hp : p < 4) (value : UInt8) (len : ℕ) :
    byteSum (Function.update buffer p value) len = byteSum buffer len := by
  refine Finset.sum_congr rfl fun j hj ↦ ?_
  have hj4 : 4 ≤ j := (Finset.mem_Ico.mp hj).1
  rw [Function.update_of_ne (by omega)]

/-- A packet with one byte changed fails the test of the checksum: a change in the checksum field is
compared with the old sum, one in the length field with the number of bytes received, and every
other one changes the sum. -/
theorem Packed.eval_genpduCksum_update_ne {buffer : ℕ → UInt8} {len : ℕ}
    (hpacked : Packed buffer len) (hlen : sizeofGenericPdu ≤ len) (hmax : len < 2 ^ 31) {p : ℕ}
    (hp : p < len) {value : UInt8} (hvalue : value ≠ buffer p) :
    ByteReader.eval (Function.update buffer p value) (genpduCksum len) ≠
      getUInt (Function.update buffer p value) 0 := by
  by_cases hfield : 8 ≤ p ∧ p < 12
  · have hlenNe : (len : ℤ) ≠ getInt (Function.update buffer p value) 8 := by
      rw [← hpacked.len_eq]
      intro heq
      exact getUInt_update_ne hfield.1 hfield.2 hvalue (getUInt_eq_of_getInt_eq heq.symm)
    have hwhole : (sizeofGenericPdu : ℤ) ≤ (len : ℤ) % 2 ^ 64 := by
      unfold sizeofGenericPdu at hlen ⊢
      omega
    have hword := getUInt_lt (Function.update buffer p value) 0
    rw [eval_genpduCksum, if_pos ⟨hwhole, hlenNe⟩]
    omega
  · have hlenEq : getInt (Function.update buffer p value) 8 = len := by
      rw [← hpacked.len_eq]
      exact congrArg (fun word : ℕ ↦ Int.bmod word (2 ^ 32))
        (getUInt_update_eq (by omega) value)
    rw [eval_genpduCksum_of_len_eq _ hlenEq (.inr rfl)]
    rcases Nat.lt_or_ge p 4 with hlt | hge
    · rw [byteSum_update_of_lt hlt, ← hpacked.cksum_eq]
      exact (getUInt_update_ne (Nat.zero_le p) (by omega) hvalue).symm
    · rw [getUInt_update_eq (.inr (by omega)), hpacked.cksum_eq]
      exact byteSum_update_mod_ne hge hp hvalue

/-- No corruption of a single byte of a packet gets through. -/
theorem genpduDoCmd_refuses_corrupted (table : GenpduPrivateData Func) (flag : Option ℕ)
    (pdu : ℕ → UInt8) (cmd : ℤ) {len : ℕ} (hlen : 16 ≤ len) (hmax : len < 2 ^ 20) {p : ℕ}
    (hp : p < len) {value : UInt8} (hvalue : value ≠ genpduPack flag pdu cmd len p) :
    ByteReader.eval (Function.update (genpduPack flag pdu cmd len) p value)
      (genpduDoCmd table len) = .refused := by
  have hpacked := packed_genpduPack flag pdu cmd (hmax.trans (by decide : 2 ^ 20 < 2 ^ 31))
  exact eval_genpduDoCmd_of_ne _ table
    (hpacked.eval_genpduCksum_update_ne hlen (hmax.trans (by decide)) hp hvalue)

theorem genpduDoCmd_refuses_corrupted_length :
    ByteReader.eval (Function.update (genpduPack none (fun _ ↦ 1) 7 20) 8 16)
      (genpduDoCmd (tableAfter 1 [.add 7 (some 'a')]) (20 : ℕ)) = .refused :=
  genpduDoCmd_refuses_corrupted _ none (fun _ ↦ 1) 7 (by decide : 16 ≤ 20) (by decide) (by decide)
    (by decide)

/-! ### The bytes that are read -/

section Reads

variable (buffer : ℕ → UInt8)

theorem reads_pduCksum : ByteReader.reads buffer pduCksum = [0, 1, 2, 3] :=
  rfl

theorem reads_readInt (offset : ℕ) : ByteReader.reads buffer (readInt offset) =
    [offset, offset + 1, offset + 2, offset + 3] := by
  unfold readInt
  rw [ByteReader.reads_bind, ByteReader.reads_pure, List.append_nil]
  rfl

/-- The loop looks at `count` consecutive bytes. -/
theorem reads_sumBytes (count i sum : ℕ) :
    ByteReader.reads buffer (sumBytes count i sum) = List.range' i count := by
  induction count generalizing i sum with
  | zero => rfl
  | succ count ih =>
    rw [sumBytes, ByteReader.reads_bind, ByteReader.reads_read, ih, List.range'_succ]
    rfl

/-- The search loop looks at the command only. -/
theorem mem_reads_findHandler (table : GenpduPrivateData Func) (count i : ℕ) {j : ℕ}
    (hj : j ∈ ByteReader.reads buffer (findHandler table count i)) : j < 8 := by
  induction count generalizing i with
  | zero => exact absurd hj List.not_mem_nil
  | succ count ih =>
    rw [findHandler, ByteReader.reads_bind, List.mem_append, pduCmd, reads_readInt] at hj
    rcases hj with hj | hj
    · simp only [List.mem_cons, List.not_mem_nil, or_false] at hj
      omega
    · split_ifs at hj with hcmd
      · exact absurd hj List.not_mem_nil
      · exact ih (i + 1) hj

/-- The bytes that `genpdu_cksum` looks at: the length field, and either the checksum field or the
bytes that the length field says. -/
theorem mem_reads_genpduCksum (rlen : ℤ) (j : ℕ) :
    j ∈ ByteReader.reads buffer (genpduCksum rlen) ↔
      8 ≤ j ∧ j < 12 ∨
        if (sizeofGenericPdu : ℤ) ≤ rlen % 2 ^ 64 ∧ rlen ≠ getInt buffer 8 then j < 4
        else 4 ≤ j ∧ (j : ℤ) < getInt buffer 8 := by
  rw [genpduCksum, ByteReader.reads_bind, List.mem_append, pduLen, reads_readInt, eval_readInt]
  refine or_congr ?_ ?_
  · simp only [List.mem_cons, List.not_mem_nil, or_false]
    omega
  · split_ifs with hcheck
    · rw [ByteReader.reads_bind, ByteReader.reads_pure, List.append_nil, reads_pduCksum]
      simp only [List.mem_cons, List.not_mem_nil, or_false]
      omega
    · rw [reads_sumBytes, List.mem_range'_1]
      omega

/-- The bytes that `genpdu_do_cmd` looks at. -/
theorem mem_reads_genpduDoCmd (table : GenpduPrivateData Func) (rlen : ℤ) (j : ℕ) :
    j ∈ ByteReader.reads buffer (genpduDoCmd table rlen) ↔
      j ∈ ByteReader.reads buffer (genpduCksum rlen) ∨ j < 4 ∨
        ByteReader.eval buffer (genpduCksum rlen) = getUInt buffer 0 ∧
          j ∈ ByteReader.reads buffer (findHandler table table.realNum 0) := by
  rw [genpduDoCmd, ByteReader.reads_bind, List.mem_append, ByteReader.reads_bind, List.mem_append,
    reads_pduCksum, eval_pduCksum]
  refine or_congr Iff.rfl (or_congr ?_ ?_)
  · simp only [List.mem_cons, List.not_mem_nil, or_false]
    omega
  · split_ifs with hcksum
    · simp only [ByteReader.reads_pure, List.not_mem_nil, false_iff, not_and]
      exact fun heq ↦ absurd heq hcksum
    · exact (and_iff_right (not_not.mp hcksum)).symm

end Reads

/-- What `genpdu_do_cmd` decides about a datagram depends on the bytes that were received only. -/
def ReadsReceivedOnly (table : GenpduPrivateData Func) (m : Received) : Prop :=
  (∀ j ∈ ByteReader.reads m.buffer (genpduDoCmd table m.len), j < m.len) ∧
    ∀ other : ℕ → UInt8, (∀ j < m.len, other j = m.buffer j) →
      ByteReader.eval other (genpduDoCmd table m.len) =
        ByteReader.eval m.buffer (genpduDoCmd table m.len)

/-- `genpdu_do_cmd` stays within the datagram exactly when a whole header was received, or the
length field was and says no more bytes than were received. -/
theorem readsReceivedOnly_iff (table : GenpduPrivateData Func) (m : Received) :
    ReadsReceivedOnly table m ↔
      sizeofGenericPdu ≤ m.len ∨ 12 ≤ m.len ∧ getInt m.buffer 8 ≤ m.len := by
  have hmax := m.len_le
  have hwhole : (sizeofGenericPdu : ℤ) ≤ (m.len : ℤ) % 2 ^ 64 ↔ sizeofGenericPdu ≤ m.len := by
    unfold sizeofGenericPdu
    omega
  constructor
  · rintro ⟨hreads, -⟩
    by_contra hshort
    rw [not_or] at hshort
    have hcksum {j : ℕ} (hj : 8 ≤ j ∧ j < 12 ∨ 4 ≤ j ∧ (j : ℤ) < getInt m.buffer 8) :
        j < m.len := by
      refine hreads j ((mem_reads_genpduDoCmd _ _ _ _).mpr (.inl ?_))
      rw [mem_reads_genpduCksum, if_neg fun hcheck ↦ hshort.1 (hwhole.mp hcheck.1)]
      exact hj
    have hlen : 11 < m.len := hcksum (.inl ⟨by decide, by decide⟩)
    refine hshort.2 ⟨hlen, Int.not_lt.mp fun hmore ↦ ?_⟩
    exact absurd (hcksum (.inr ⟨by omega, hmore⟩)) (Nat.lt_irrefl m.len)
  · intro hlen
    have hheader : 12 ≤ m.len := by
      unfold sizeofGenericPdu at hlen
      omega
    have hreads : ∀ j ∈ ByteReader.reads m.buffer (genpduDoCmd table m.len), j < m.len := by
      intro j hj
      rw [mem_reads_genpduDoCmd, mem_reads_genpduCksum] at hj
      rcases hj with (hfield | hsum) | hstored | hcmd
      · omega
      · split_ifs at hsum with hcheck
        · omega
        · rw [hwhole, not_and, not_not] at hcheck
          rcases hlen with hlen | hlen
          · have heq := hcheck hlen
            omega
          · omega
      · omega
      · have hcmd := mem_reads_findHandler m.buffer table _ _ hcmd.2
        omega
    refine ⟨hreads, fun other hagree ↦ ?_⟩
    exact ByteReader.eval_eq_of_agree m.buffer _ fun j hj ↦ hagree j (hreads j hj)

/-- A datagram of one byte that is received over an earlier packet with the same first byte. -/
def runtDatagram : Received where
  source := ⟨0, 0⟩
  len := 1
  len_pos := Nat.one_pos
  len_le := by decide
  buffer := genpduPack none (fun _ ↦ 0) 7 16

/-- The earlier packet is executed once more; over an empty buffer the same datagram is refused. -/
theorem not_readsReceivedOnly_runtDatagram :
    ¬ReadsReceivedOnly (tableAfter 1 [.add 7 (some 'a')]) runtDatagram ∧
      ByteReader.eval runtDatagram.buffer
        (genpduDoCmd (tableAfter 1 [.add 7 (some 'a')]) runtDatagram.len) = .called 7 (some 'a') ∧
      ByteReader.eval (Function.update (fun _ ↦ 0) 0 (runtDatagram.buffer 0))
        (genpduDoCmd (tableAfter 1 [.add 7 (some 'a')]) runtDatagram.len) = .refused := by
  have hcalled : ByteReader.eval runtDatagram.buffer
      (genpduDoCmd (tableAfter 1 [.add 7 (some 'a')]) runtDatagram.len) = .called 7 (some 'a') := by
    decide
  have hrefused : ByteReader.eval (Function.update (fun _ ↦ 0) 0 (runtDatagram.buffer 0))
      (genpduDoCmd (tableAfter 1 [.add 7 (some 'a')]) runtDatagram.len) = .refused := by
    decide
  refine ⟨fun honly ↦ ?_, hcalled, hrefused⟩
  have hsame := honly.2 (Function.update (fun _ ↦ 0) 0 (runtDatagram.buffer 0)) fun j hj ↦ by
    obtain rfl : j = 0 := Nat.lt_one_iff.mp hj
    exact Function.update_self _ _ _
  rw [hcalled, hrefused] at hsame
  exact absurd hsame (by decide)

end Katmai.Genpdu
