import Mathlib.Data.List.FinRange
import Katmai.Hdllio.PartitionScan

/-!
# Boot records and the chain they form

A boot record is a sector with its number. What the scan takes from it is the first record of data
and the first link, or a record that stands in for the one that is missing (`partSlot`,
`linkSlot`). `chain` follows the links of a disk for a number of records, and `bootRecords` is the
chain in the first extended partition of the master boot record that has a start sector. None of
this speaks of the object; `readBootRecord_eq` says that one round of `readChain` enters one boot
record of the chain.
-/

set_option autoImplicit false
set_option relaxedAutoImplicit false

namespace Katmai.Hdllio

variable {disk : Disk} {pd : Pd} {pe : Pte} {q : PartitionTable} {p : Partition} {i : ℕ}

/-! ### The records of a sector -/

/-- A record of data: not empty and not a link. -/
def isData (q : PartitionTable) (i : Fin 4) : Bool :=
  getNrSects (q i) != 0 && !isExtended (q i).sysInd && (q i).sysInd != 0

/-- A link to the next boot record. -/
def isLink (q : PartitionTable) (i : Fin 4) : Bool :=
  getNrSects (q i) != 0 && isExtended (q i).sysInd

/-- The first record of data. -/
@[irreducible] def dataSlot (q : PartitionTable) : Option (Fin 4) :=
  (List.finRange 4).find? (isData q)

/-- The first link. -/
@[irreducible] def extSlot (q : PartitionTable) : Option (Fin 4) :=
  (List.finRange 4).find? (isLink q)

/-- The record that `part_table` points to. -/
def partSlot (q : PartitionTable) : Fin 4 :=
  (dataSlot q).getD (spareSlot (extSlot q))

/-- The record that `ext_pointer` points to. -/
def linkSlot (q : PartitionTable) : Fin 4 :=
  (extSlot q).getD (spareSlot (some (partSlot q)))

theorem not_isLink_of_isData {i : Fin 4} (hdata : isData q i = true) : isLink q i = false := by
  simp only [isData, Bool.and_eq_true, Bool.not_eq_true'] at hdata
  simp [isLink, hdata.1.2]

theorem ne_spareSlot (i : Fin 4) : i ≠ spareSlot (some i) := by
  revert i
  decide

theorem partSlot_ne_linkSlot (q : PartitionTable) : partSlot q ≠ linkSlot q := by
  cases hlink : extSlot q with
  | none =>
    rw [linkSlot, hlink, Option.getD_none]
    exact ne_spareSlot _
  | some l =>
    rw [linkSlot, hlink, Option.getD_some]
    cases hdata : dataSlot q with
    | none =>
      rw [partSlot, hdata, hlink, Option.getD_none]
      exact (ne_spareSlot l).symm
    | some d =>
      rw [partSlot, hdata, Option.getD_some]
      rintro rfl
      rw [dataSlot] at hdata
      rw [extSlot] at hlink
      have hd : isData q d = true := List.find?_some hdata
      have hl : isLink q d = true := List.find?_some hlink
      rw [not_isLink_of_isData hd] at hl
      exact Bool.false_ne_true hl

theorem scanSlot_of_isLink {i : Fin 4} (hlink : isLink q i = true) :
    scanSlot q pe i = if pe.extPointer.isSome then pe else { pe with extPointer := some i } := by
  simp only [isLink, Bool.and_eq_true, bne_iff_ne] at hlink
  rw [scanSlot, if_pos hlink.1, if_pos hlink.2]

theorem scanSlot_of_isData {i : Fin 4} (hdata : isData q i = true) :
    scanSlot q pe i =
      if pe.partTable.isSome then pe
      else
        { pe with
          partTable := some i
          startSector := pe.startSector + getStartSect (q i)
          numOfSectors := getNrSects (q i) } := by
  simp only [isData, Bool.and_eq_true, Bool.not_eq_true', bne_iff_ne] at hdata
  rw [scanSlot, if_pos hdata.1.1, if_neg (by simp [hdata.1.2]), if_pos hdata.2]

theorem scanSlot_of_neither {i : Fin 4} (hlink : isLink q i = false)
    (hdata : isData q i = false) : scanSlot q pe i = pe := by
  unfold scanSlot
  split_ifs with hsize hext hfull htype hfull
  · rfl
  · simp [isLink, hext] at hlink
    exact absurd hlink hsize
  · rfl
  · simp only [isData, Bool.not_eq_true] at hdata hext
    simp [hext] at hdata
    exact absurd (hdata hsize) htype
  · rfl
  · rfl

/-- The loop over some of the records takes the first record of data and the first link among them
for the pointers that are still null. -/
theorem foldl_scanSlot (slots : List (Fin 4)) (pe : Pte) :
    slots.foldl (scanSlot q) pe =
      { pe with
        partTable := pe.partTable.or (slots.find? (isData q))
        extPointer := pe.extPointer.or (slots.find? (isLink q))
        startSector :=
          if pe.partTable.isSome then pe.startSector
          else pe.startSector + (slots.find? (isData q)).elim 0 fun i ↦ getStartSect (q i)
        numOfSectors :=
          if pe.partTable.isSome then pe.numOfSectors
          else (slots.find? (isData q)).elim pe.numOfSectors fun i ↦ getNrSects (q i) } := by
  induction slots generalizing pe with
  | nil => rcases pe with ⟨_ | _, _ | _, _⟩ <;> simp
  | cons i slots ih =>
    rw [List.foldl_cons, ih]
    rcases pe with ⟨part, ext, offset, buffer, start, size⟩
    cases hdata : isData q i with
    | true =>
      rw [scanSlot_of_isData hdata]
      cases part <;> simp [hdata, not_isLink_of_isData hdata]
    | false =>
      cases hlink : isLink q i with
      | true =>
        rw [scanSlot_of_isLink hlink]
        cases ext <;> simp [hdata, hlink]
      | false =>
        rw [scanSlot_of_neither hlink hdata]
        simp [hdata, hlink]

/-! ### The entry of a boot record -/

/-- A boot record: the number of its sector and the records in it. -/
structure BootRecord where
  sector : BitVec 32
  records : PartitionTable

/-- The number of the first sector of the data. -/
def BootRecord.start (b : BootRecord) : BitVec 32 :=
  b.sector + (dataSlot b.records).elim 0 fun i ↦ getStartSect (b.records i)

/-- The number of sectors of the data, if the boot record has data. -/
def BootRecord.size (b : BootRecord) : Option (BitVec 32) :=
  (dataSlot b.records).map fun i ↦ getNrSects (b.records i)

/-- The entry of `ptes` for a boot record. A boot record without data leaves the size `left` that
stands in the entry. -/
def BootRecord.pte (b : BootRecord) (left : BitVec 32) : Pte where
  partTable := some (partSlot b.records)
  extPointer := some (linkSlot b.records)
  offset := b.sector
  sectorbuffer := .heap b.records
  startSector := b.start
  numOfSectors := b.size.getD left

/-- The record with the link to the next boot record. -/
def BootRecord.link (b : BootRecord) : Partition :=
  b.records (linkSlot b.records)

theorem fillPointers_eq (pe : Pte) (hpart : pe.partTable = dataSlot q)
    (hext : pe.extPointer = extSlot q) :
    fillPointers pe =
      { pe with partTable := some (partSlot q), extPointer := some (linkSlot q) } := by
  obtain ⟨part, ext, offset, buffer, start, size⟩ := pe
  change part = dataSlot q at hpart
  change ext = extSlot q at hext
  rw [hpart, hext]
  cases hdata : dataSlot q with
  | none =>
    cases hlink : extSlot q with
    | none => simp [fillPointers, hdata, hlink, partSlot, linkSlot, spareSlot]
    | some l =>
      by_cases hzero : l = 0 <;>
        simp [fillPointers, hdata, hlink, partSlot, linkSlot, spareSlot, hzero]
  | some d =>
    cases hlink : extSlot q with
    | none =>
      by_cases hzero : d = 0 <;>
        simp [fillPointers, hdata, hlink, partSlot, linkSlot, spareSlot, hzero]
    | some l => simp [fillPointers, hdata, hlink, partSlot, linkSlot, spareSlot]

/-- The two loops over a boot record that has been read leave its entry. -/
theorem fillPointers_foldl_scanSlot (b : BootRecord) (left : BitVec 32) :
    fillPointers ((List.finRange 4).foldl (scanSlot b.records)
      { partTable := none
        extPointer := none
        offset := b.sector
        sectorbuffer := .heap b.records
        startSector := b.sector
        numOfSectors := left }) = b.pte left := by
  rw [foldl_scanSlot]
  simp only [Option.none_or]
  rw [← dataSlot, ← extSlot, fillPointers_eq (q := b.records)]
  · cases hdata : dataSlot b.records <;>
      simp [hdata, BootRecord.pte, BootRecord.start, BootRecord.size]
  · simp only
  · simp only

/-! ### Accesses in range -/

theorem ok_bind {α β : Type} (a : α) (f : α → Except Fault β) : (Except.ok a >>= f) = f a :=
  rfl

theorem Pd.pte_eq (hi : i < maximumParts) : pd.pte i = .ok (pd.ptes i) :=
  if_pos hi

theorem Pd.setPte_eq (hi : i < maximumParts) :
    pd.setPte i pe = .ok { pd with ptes := Function.update pd.ptes i pe } :=
  if_pos hi

/-- A boot record that the record `p` leads to, read for the entry with number `pno`. -/
def bootRecordOf (disk : Disk) (base : BitVec 32) (pno : ℕ) (p : Partition) : BootRecord where
  sector := base + getStartSect p
  records := disk.boot pno (base + getStartSect p)

/-- A round of the loop enters the boot record that `p` leads to, and goes on with its link. -/
theorem readBootRecord_eq (hroom : pd.partitions < maximumParts) :
    readBootRecord disk p pd =
      .ok ((bootRecordOf disk pd.extendedOffset pd.partitions p).link,
        { pd with
          partitions := pd.partitions + 1
          extendedOffset := if pd.extendedOffset = 0 then getStartSect p else pd.extendedOffset
          ptes := Function.update pd.ptes pd.partitions
            ((bootRecordOf disk pd.extendedOffset pd.partitions p).pte
              (pd.ptes pd.partitions).numOfSectors) }) := by
  have hscan := fillPointers_foldl_scanSlot
    (bootRecordOf disk pd.extendedOffset pd.partitions p) (pd.ptes pd.partitions).numOfSectors
  have hoffset (pd : Pd) (base : BitVec 32) :
      (if pd.extendedOffset = 0 then { pd with extendedOffset := base } else pd) =
        { pd with
          extendedOffset := if pd.extendedOffset = 0 then base else pd.extendedOffset } := by
    split_ifs <;> rfl
  simp only [bootRecordOf] at hscan
  simp only [readBootRecord, readPte, Pd.pte_eq hroom, Pd.setPte_eq hroom, ok_bind, hoffset,
    Function.update_self, Function.update_idem, Pd.records, hscan]
  rfl

end Katmai.Hdllio
