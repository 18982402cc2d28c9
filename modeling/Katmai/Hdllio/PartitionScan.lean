import Mathlib.Data.Int.Notation
import Mathlib.Data.Nat.Notation
import Mathlib.Logic.Function.Basic
import Mathlib.Tactic.Common

/-!
# The partition scan of the low-level disk object

`hdllOpen` reads the master boot record of a disk into the first four entries of the table `ptes`
and hands the first usable extended partition to `readExtended`, which follows the chain of boot
records in it. An access to `ptes` outside its `maximumParts` entries, a null pointer that is
followed and a loop that is still running when its fuel is used up are values of `Fault`.

A boot sector is its four partition records; `malloc` is taken to succeed, and the geometry, which
no record depends on, is left out. The bytes that a failed read leaves in a buffer are part of the
disk (`Disk.mbr`, `Disk.boot`).
-/

set_option autoImplicit false
set_option relaxedAutoImplicit false

namespace Katmai.Hdllio

/-- `MAXIMUM_PARTS` -/
def maximumParts : ℕ :=
  16

/-! ### Partition records -/

/-- `struct partition` -/
structure Partition where
  bootInd : BitVec 8
  head : BitVec 8
  sector : BitVec 8
  cyl : BitVec 8
  sysInd : BitVec 8
  endHead : BitVec 8
  endSector : BitVec 8
  endCyl : BitVec 8
  start4 : Fin 4 → BitVec 8
  size4 : Fin 4 → BitVec 8

/-- The four records of a boot sector, `pt_offset (b, 0)` to `pt_offset (b, 3)`. -/
abbrev PartitionTable := Fin 4 → Partition

/-- `IS_EXTENDED` -/
def isExtended (i : BitVec 8) : Bool :=
  i == 0x05 || i == 0x0f || i == 0x85

/-- `store4_little_endian` -/
def store4LittleEndian (val : BitVec 32) : Fin 4 → BitVec 8 :=
  fun i ↦ (val >>> (8 * i.val)).setWidth 8

/-- `read4_little_endian` -/
def read4LittleEndian (cp : Fin 4 → BitVec 8) : BitVec 32 :=
  (cp 0).setWidth 32 + ((cp 1).setWidth 32 <<< 8) + ((cp 2).setWidth 32 <<< 16) +
    ((cp 3).setWidth 32 <<< 24)

/-- The record that stands in for a missing one: the first, or the second if the first is taken. -/
def spareSlot (taken : Option (Fin 4)) : Fin 4 :=
  if taken = some 0 then 1 else 0

/-- `get_start_sect` -/
def getStartSect (p : Partition) : BitVec 32 :=
  read4LittleEndian p.start4

/-- `get_nr_sects` -/
def getNrSects (p : Partition) : BitVec 32 :=
  read4LittleEndian p.size4

/-- The record that `clear_partition` leaves. -/
def clearedPartition : Partition where
  bootInd := 0
  head := 0
  sector := 0
  cyl := 0
  sysInd := 0
  endHead := 0
  endSector := 0
  endCyl := 0
  start4 := store4LittleEndian 0
  size4 := store4LittleEndian 0

/-! ### The object and the disk -/

/-- What a `sectorbuffer` points to: the `MBRbuffer` of the object, or a sector of its own. -/
inductive SectorBuffer
  | mbr
  | heap (records : PartitionTable)

/-- `struct pte`. The two pointers point to a record of the sector buffer or are null. -/
structure Pte where
  partTable : Option (Fin 4)
  extPointer : Option (Fin 4)
  offset : BitVec 32
  sectorbuffer : SectorBuffer
  startSector : BitVec 32
  numOfSectors : BitVec 32

/-- `struct hd_lowlevel_io_pd_t`. The entries of `ptes` that exist are those below
`maximumParts`. -/
structure Pd where
  fd : ℤ
  partitions : ℕ
  extIndex : ℕ
  extendedOffset : BitVec 32
  mbrBuffer : PartitionTable
  ptes : ℕ → Pte

/-- A disk as `hdll_open` meets it. -/
structure Disk where
  /-- The result of `open` -/
  fd : ℤ
  /-- The master boot record is read in full. -/
  mbrReads : Bool
  /-- The master boot record, or what the attempt to read it leaves in the buffer -/
  mbr : PartitionTable
  /-- What the attempt to read a sector for an entry of `ptes` leaves in the new buffer -/
  boot : ℕ → BitVec 32 → PartitionTable

inductive Fault
  | outOfRange
  | nullPointer
  | outOfFuel
  deriving DecidableEq

/-- `pd->ptes[i]` -/
def Pd.pte (pd : Pd) (i : ℕ) : Except Fault Pte :=
  if i < maximumParts then .ok (pd.ptes i) else .error .outOfRange

/-- Stores into `pd->ptes[i]`. -/
def Pd.setPte (pd : Pd) (i : ℕ) (pe : Pte) : Except Fault Pd :=
  if i < maximumParts then .ok { pd with ptes := Function.update pd.ptes i pe }
  else .error .outOfRange

/-- The records in the sector buffer of an entry. -/
def Pd.records (pd : Pd) (pe : Pte) : PartitionTable :=
  match pe.sectorbuffer with
  | .mbr => pd.mbrBuffer
  | .heap records => records

/-- The record a pointer of an entry points to. -/
def Pd.follow (pd : Pd) (pe : Pte) (pointer : Option (Fin 4)) : Except Fault Partition :=
  match pointer with
  | none => .error .nullPointer
  | some n => .ok (pd.records pe n)

/-- `clear_partition (pre->ext_pointer)` for the entry with number `i` -/
def Pd.clearPartition (pd : Pd) (i : ℕ) : Except Fault Pd := do
  let pre ← pd.pte i
  match pre.extPointer with
  | none => .ok pd
  | some n =>
    match pre.sectorbuffer with
    | .mbr => .ok { pd with mbrBuffer := Function.update pd.mbrBuffer n clearedPartition }
    | .heap records =>
      pd.setPte i
        { pre with sectorbuffer := .heap (Function.update records n clearedPartition) }

/-- `get_partition_start` -/
def getPartitionStart (pd : Pd) (pe : Pte) : Except Fault (BitVec 32) := do
  let p ← pd.follow pe pe.partTable
  .ok (pe.offset + getStartSect p)

/-- `new_hd_lowlevel_io`. The buffers are not initialised. -/
def newHdLowlevelIo (mbrBuffer : PartitionTable) (ptes : ℕ → Pte) : Pd where
  fd := -1
  partitions := 4
  extIndex := 0
  extendedOffset := 0
  mbrBuffer := mbrBuffer
  ptes := ptes

/-! ### `read_extended` -/

/-- `read_pte` -/
def readPte (disk : Disk) (pd : Pd) (pno : ℕ) (offset : BitVec 32) : Except Fault Pd := do
  let pe ← pd.pte pno
  pd.setPte pno
    { pe with
      offset := offset
      sectorbuffer := .heap (disk.boot pno offset)
      partTable := none
      extPointer := none }

/-- One round of the loop over the four records `q` of a boot record. -/
def scanSlot (q : PartitionTable) (pe : Pte) (i : Fin 4) : Pte :=
  if getNrSects (q i) ≠ 0 then
    if isExtended (q i).sysInd then
      if pe.extPointer.isSome then pe else { pe with extPointer := some i }
    else if (q i).sysInd ≠ 0 then
      if pe.partTable.isSome then pe
      else
        { pe with
          partTable := some i
          startSector := pe.startSector + getStartSect (q i)
          numOfSectors := getNrSects (q i) }
    else pe
  else pe

/-- The pointers that are still null behind the loop get a record that is no link and no data. -/
def fillPointers (pe : Pte) : Pte :=
  let pe :=
    if pe.partTable.isNone then
      { pe with partTable := if pe.extPointer ≠ some 0 then some 0 else some 1 }
    else pe
  if pe.extPointer.isNone then
    { pe with extPointer := if pe.partTable ≠ some 0 then some 0 else some 1 }
  else pe

/-- The body of the loop of `read_extended` for the record `p`, with the record that comes next. -/
def readBootRecord (disk : Disk) (p : Partition) (pd : Pd) : Except Fault (Partition × Pd) := do
  let pe ← pd.pte pd.partitions
  let pe := { pe with startSector := pd.extendedOffset + getStartSect p }
  let pd ← pd.setPte pd.partitions pe
  let pd ← readPte disk pd pd.partitions pe.startSector
  let pd := if pd.extendedOffset = 0 then { pd with extendedOffset := getStartSect p } else pd
  let pe ← pd.pte pd.partitions
  let pe := fillPointers ((List.finRange 4).foldl (scanSlot (pd.records pe)) pe)
  let pd ← pd.setPte pd.partitions pe
  let p ← pd.follow pe pe.extPointer
  .ok (p, { pd with partitions := pd.partitions + 1 })

/-- One round of the loop behind the scan: whether the entry is reported as empty. -/
def omitsEmpty (pd : Pd) (i : ℕ) : Except Fault Bool := do
  let pe ← pd.pte i
  let p ← pd.follow pe pe.partTable
  if getNrSects p ≠ 0 then .ok false
  else if pd.partitions > 5 then .ok true
  else do
    let first ← pd.pte 4
    let p ← pd.follow first first.partTable
    .ok (p.sysInd ≠ 0)

/-- The loop of `read_extended` and the loop behind it. A table that is full ends both. -/
def readChain (disk : Disk) : ℕ → Partition → Pd → Except Fault Pd
  | 0, _, _ => .error .outOfFuel
  | fuel + 1, p, pd =>
    if isExtended p.sysInd then
      if pd.partitions ≥ maximumParts then pd.clearPartition (pd.partitions - 1)
      else do
        let (p, pd) ← readBootRecord disk p pd
        readChain disk fuel p pd
    else do
      let _ ← (List.range' 4 (pd.partitions - 4)).mapM (omitsEmpty pd)
      .ok pd

/-- `read_extended` -/
def readExtended (disk : Disk) (fuel : ℕ) (pd : Pd) (ext : ℕ) : Except Fault Pd := do
  let pd := { pd with extIndex := ext }
  let pex ← pd.pte ext
  let pd ← pd.setPte ext { pex with extPointer := pex.partTable }
  let p ← pd.follow pex pex.partTable
  if getStartSect p = 0 then .ok pd else readChain disk fuel p pd

/-! ### `hdll_open` and `hdll_close` -/

/-- `hdll_close` -/
def hdllClose (pd : Pd) : Pd :=
  if pd.fd ≥ 0 then { pd with fd := -1 } else pd

/-- One round of the loop that enters the records of the master boot record. -/
def enterMbr (pd : Pd) (i : Fin 4) : Except Fault Pd :=
  pd.setPte i
    { partTable := some i
      extPointer := none
      offset := 0
      sectorbuffer := .mbr
      startSector := getStartSect (pd.mbrBuffer i)
      numOfSectors := getNrSects (pd.mbrBuffer i) }

/-- One round of the loop that looks for an extended partition. -/
def scanMbr (disk : Disk) (fuel : ℕ) (pd : Pd) (i : Fin 4) : Except Fault Pd := do
  let pe ← pd.pte i
  let p ← pd.follow pe pe.partTable
  if isExtended p.sysInd then
    if pd.partitions ≠ 4 then .ok pd else readExtended disk fuel pd i
  else .ok pd

/-- `hdll_open`, with the value it returns -/
def hdllOpen (fuel : ℕ) (disk : Disk) (pd : Pd) : Except Fault (Bool × Pd) := do
  let pd := { hdllClose pd with fd := disk.fd }
  if pd.fd < 0 then .ok (false, pd)
  else do
    let pd := { pd with mbrBuffer := disk.mbr }
    if !disk.mbrReads then .ok (false, hdllClose pd)
    else do
      let pd ← (List.finRange 4).foldlM enterMbr pd
      let pd ← (List.finRange 4).foldlM (scanMbr disk fuel) pd
      .ok (true, pd)

end Katmai.Hdllio
