import Katmai.Hdllio.ChainScan

/-!
# The scan of a disk is total and finds the logical partitions

`WellFormedChain` is a chain of logical partitions as a partitioning program writes it: every boot
record has one record of data and, but for the last, one link to the next, and nothing else. For
such a chain `Disk.logical` is its boot records in order (`logical_eq_map_range`). With what
`hdllOpen` does on a new object for any disk this gives `hdllOpen_newHdLowlevelIo`: it ends without
a fault, whatever the disk holds, and shows a well-formed chain as it is.
-/

set_option autoImplicit false
set_option relaxedAutoImplicit false

namespace Katmai.Hdllio

variable {disk : Disk} {q : PartitionTable} {d l : Partition} {E : BitVec 32} {k : ℕ}
  {data link : ℕ → Partition}

/-! ### Boot records with one record of data -/

/-- A record of a data partition. -/
structure Partition.IsData (d : Partition) : Prop where
  size : getNrSects d ≠ 0
  type : d.sysInd ≠ 0
  not_extended : isExtended d.sysInd = false

/-- A link to another boot record. -/
structure Partition.IsLink (l : Partition) : Prop where
  size : getNrSects l ≠ 0
  extended : isExtended l.sysInd = true

/-- The boot record holds the data `d` and is otherwise zero. -/
def HoldsData (q : PartitionTable) (d : Partition) : Prop :=
  ∃ i, q i = d ∧ ∀ j, j ≠ i → q j = clearedPartition

/-- The boot record holds the data `d` and the link `l` and is otherwise zero. -/
def HoldsDataAndLink (q : PartitionTable) (d l : Partition) : Prop :=
  ∃ i j, i ≠ j ∧ q i = d ∧ q j = l ∧ ∀ m, m ≠ i → m ≠ j → q m = clearedPartition

theorem find?_finRange_eq_some {p : Fin 4 → Bool} {i : Fin 4} (hi : p i = true)
    (hunique : ∀ j, p j = true → j = i) : (List.finRange 4).find? p = some i := by
  cases hfind : (List.finRange 4).find? p with
  | none => exact absurd hi (List.find?_eq_none.mp hfind i (List.mem_finRange i))
  | some j => rw [hunique j (List.find?_some hfind)]

theorem dataSlot_eq_some {i : Fin 4} (hi : isData q i = true)
    (hunique : ∀ j, isData q j = true → j = i) : dataSlot q = some i := by
  rw [dataSlot]
  exact find?_finRange_eq_some hi hunique

theorem extSlot_eq_some {i : Fin 4} (hi : isLink q i = true)
    (hunique : ∀ j, isLink q j = true → j = i) : extSlot q = some i := by
  rw [extSlot]
  exact find?_finRange_eq_some hi hunique

theorem Partition.IsData.isData {i : Fin 4} (hd : d.IsData) (hi : q i = d) :
    isData q i = true := by
  simpa [Hdllio.isData, hi, hd.not_extended] using And.intro hd.size hd.type

theorem Partition.IsLink.isLink {i : Fin 4} (hl : l.IsLink) (hi : q i = l) :
    isLink q i = true := by
  simpa [Hdllio.isLink, hi, hl.extended] using hl.size

theorem isData_of_eq_cleared {i : Fin 4} (hi : q i = clearedPartition) : isData q i = false := by
  rw [isData, hi]
  rfl

theorem isLink_of_eq_cleared {i : Fin 4} (hi : q i = clearedPartition) : isLink q i = false := by
  rw [isLink, hi]
  rfl

/-- A boot record that holds data and a link: both are found. -/
theorem HoldsDataAndLink.slots (hq : HoldsDataAndLink q d l) (hd : d.IsData) (hl : l.IsLink) :
    ∃ i, dataSlot q = some i ∧ q i = d ∧ q (linkSlot q) = l := by
  obtain ⟨i, j, -, hi, hj, hzero⟩ := hq
  refine ⟨i, dataSlot_eq_some (hd.isData hi) fun m hm ↦ ?_, hi, ?_⟩
  · by_contra hmi
    rcases eq_or_ne m j with rfl | hmj
    · exact Bool.false_ne_true ((not_isLink_of_isData hm).symm.trans (hl.isLink hj))
    · rw [isData_of_eq_cleared (hzero m hmi hmj)] at hm
      exact Bool.false_ne_true hm
  · have hext : extSlot q = some j := extSlot_eq_some (hl.isLink hj) fun m hm ↦ by
      by_contra hmj
      rcases eq_or_ne m i with rfl | hmi
      · rw [not_isLink_of_isData (hd.isData hi)] at hm
        exact Bool.false_ne_true hm
      · rw [isLink_of_eq_cleared (hzero m hmi hmj)] at hm
        exact Bool.false_ne_true hm
    rw [linkSlot, hext, Option.getD_some, hj]

/-- A boot record that holds only data: it is found, and what stands in for the link is zero. -/
theorem HoldsData.slots (hq : HoldsData q d) (hd : d.IsData) :
    ∃ i, dataSlot q = some i ∧ q i = d ∧ q (linkSlot q) = clearedPartition := by
  obtain ⟨i, hi, hzero⟩ := hq
  have hdata : dataSlot q = some i := dataSlot_eq_some (hd.isData hi) fun m hm ↦ by
    by_contra hmi
    rw [isData_of_eq_cleared (hzero m hmi)] at hm
    exact Bool.false_ne_true hm
  have hpart : partSlot q = i := by rw [partSlot, hdata, Option.getD_some]
  exact ⟨i, hdata, hi, hzero _ fun heq ↦ partSlot_ne_linkSlot q (hpart.trans heq.symm)⟩

/-! ### Well-formed chains -/

/-- The sectors of the boot records of a chain: the links are relative to the first one. -/
def ebr (E : BitVec 32) (link : ℕ → Partition) : ℕ → BitVec 32
  | 0 => E
  | i + 1 => E + getStartSect (link i)

/-- The boot record with number `i` of the chain, read for its entry. -/
def recordAt (disk : Disk) (E : BitVec 32) (link : ℕ → Partition) (i : ℕ) : BootRecord where
  sector := ebr E link i
  records := disk.boot (4 + i) (ebr E link i)

/-- `k` boot records from sector `E` on, with the data `data i` and the links `link i`. -/
structure WellFormedChain (disk : Disk) (E : BitVec 32) (k : ℕ) (data link : ℕ → Partition) :
    Prop where
  isData : ∀ i < k, (data i).IsData
  isLink : ∀ i, i + 1 < k → (link i).IsLink
  inner : ∀ i, i + 1 < k → HoldsDataAndLink (recordAt disk E link i).records (data i) (link i)
  last : ∀ i, i + 1 = k → HoldsData (recordAt disk E link i).records (data i)

/-- The data of every boot record is found. -/
theorem WellFormedChain.dataSlot (hchain : WellFormedChain disk E k data link) {i : ℕ}
    (hi : i < k) : ∃ j, Hdllio.dataSlot (recordAt disk E link i).records = some j ∧
      (recordAt disk E link i).records j = data i := by
  rcases Nat.lt_or_eq_of_le hi with hinner | hlast
  · obtain ⟨j, hj, hdata, -⟩ :=
      (hchain.inner i hinner).slots (hchain.isData i hi) (hchain.isLink i hinner)
    exact ⟨j, hj, hdata⟩
  · obtain ⟨j, hj, hdata, -⟩ := (hchain.last i hlast).slots (hchain.isData i hi)
    exact ⟨j, hj, hdata⟩

/-- The links lead from a boot record of the chain to those behind it. -/
theorem chain_eq_map_range' (hchain : WellFormedChain disk E k data link) (n i room : ℕ)
    (hn : i + 1 + n = k) (hroom : n ≤ room) :
    chain disk E room (4 + (i + 1)) (recordAt disk E link i).link =
      (List.range' (i + 1) n).map (recordAt disk E link) := by
  induction n generalizing i room with
  | zero =>
    obtain ⟨-, -, -, hlink⟩ := (hchain.last i hn).slots (hchain.isData i (by omega))
    have hend : isExtended (recordAt disk E link i).link.sysInd = false := by
      rw [BootRecord.link, hlink]
      rfl
    cases room with
    | zero => rfl
    | succ room => rw [chain, if_neg (by simp [hend])]; rfl
  | succ n ih =>
    obtain ⟨room, rfl⟩ := Nat.exists_eq_add_one_of_ne_zero (Nat.ne_zero_of_lt hroom)
    have hinner : i + 1 < k := by omega
    obtain ⟨-, -, -, hlink⟩ := (hchain.inner i hinner).slots (hchain.isData i (by omega))
      (hchain.isLink i hinner)
    have hnext : (recordAt disk E link i).link = link i := hlink
    have hrecord : bootRecordOf disk E (4 + (i + 1)) (link i) = recordAt disk E link (i + 1) := rfl
    rw [hnext, chain, if_pos (hchain.isLink i hinner).extended, hrecord, List.range'_succ,
      List.map_cons]
    exact congrArg _ (ih (i + 1) room (by omega) (Nat.le_of_succ_le_succ hroom))

/-- The logical partitions of a disk with a well-formed chain are the boot records in order. -/
theorem logical_eq_map_range {e : Fin 4} (hreadable : disk.readable = true)
    (hext : isExtended (disk.mbr e).sysInd = true)
    (hunique : ∀ i, isExtended (disk.mbr i).sysInd = true → i = e)
    (hstart : getStartSect (disk.mbr e) ≠ 0)
    (hchain : WellFormedChain disk (getStartSect (disk.mbr e)) (k + 1) data link) (hk : k < 12) :
    disk.logical =
      (List.range (k + 1)).map (recordAt disk (getStartSect (disk.mbr e)) link) := by
  have hfind : (List.finRange 4).find? (fun i ↦ isUsable (disk.mbr i)) = some e :=
    find?_finRange_eq_some (by simpa [isUsable, hext] using hstart) fun i hi ↦
      hunique i (Bool.and_eq_true_iff.mp hi).1
  have hfirst : bootRecordOf disk 0 4 (disk.mbr e) =
      recordAt disk (getStartSect (disk.mbr e)) link 0 := by
    rw [bootRecordOf, recordAt, show (0 : BitVec 32) + getStartSect (disk.mbr e) =
      getStartSect (disk.mbr e) from BitVec.zero_add _]
    rfl
  have hrest := chain_eq_map_range' hchain k 0 11 (Nat.add_comm _ _) (Nat.le_of_lt_succ hk)
  rw [Disk.logical, if_pos hreadable, hfind]
  change chainFrom disk (disk.mbr e) = _
  rw [chainFrom, hfirst, hrest, List.range_eq_range', List.range'_succ]
  rfl

/-! ### The scan of any disk -/

/-- On a new object `hdllOpen` ends without a fault for every disk, so every access to `ptes` is in
range, with between 4 and `maximumParts` partitions. If the only extended record of the master boot
record heads a well-formed chain, the logical partitions are shown in its order. -/
theorem hdllOpen_newHdLowlevelIo (disk : Disk) (mbrBuffer : PartitionTable) (ptes : ℕ → Pte)
    (fuel : ℕ) (hfuel : 13 ≤ fuel) :
    ∃ pd, hdllOpen fuel disk (newHdLowlevelIo mbrBuffer ptes) = .ok (disk.readable, pd) ∧
      4 ≤ pd.partitions ∧ pd.partitions ≤ maximumParts ∧
      ∀ (e : Fin 4) (k : ℕ) (data link : ℕ → Partition), disk.readable = true →
        isExtended (disk.mbr e).sysInd = true →
        (∀ i, isExtended (disk.mbr i).sysInd = true → i = e) → getStartSect (disk.mbr e) ≠ 0 →
        1 ≤ k → k ≤ 12 → WellFormedChain disk (getStartSect (disk.mbr e)) k data link →
        pd.partitions = 4 + k ∧ ∀ i < k,
          (pd.ptes (4 + i)).startSector =
            ebr (getStartSect (disk.mbr e)) link i + getStartSect (data i) ∧
          getPartitionStart pd (pd.ptes (4 + i)) = .ok (pd.ptes (4 + i)).startSector ∧
          (pd.ptes (4 + i)).numOfSectors = getNrSects (data i) := by
  obtain ⟨pd, hopen, hopens⟩ := hdllOpen_new_opens disk mbrBuffer ptes hfuel
  have hle := length_logical_le disk
  refine ⟨pd, hopen, ?_, ?_, fun e k data link hreadable hext hunique hstart hone hk hchain ↦ ?_⟩
  · rw [hopens.partitions]
    exact Nat.le_add_right _ _
  · rw [hopens.partitions]
    exact Nat.add_le_add_left hle 4
  · obtain ⟨k, rfl⟩ := Nat.exists_eq_add_of_le' hone
    have hlogical := logical_eq_map_range hreadable hext hunique hstart hchain hk
    have hlength : disk.logical.length = k + 1 := by
      rw [hlogical, List.length_map, List.length_range]
    refine ⟨hopens.partitions.trans (congrArg _ hlength), fun i hi ↦ ?_⟩
    obtain ⟨j, hslot, hdata⟩ := hchain.dataSlot hi
    have hentry := hopens.logical i (hlength ▸ hi)
    simp only [hlogical, List.getElem_map, List.getElem_range] at hentry
    have hrecord := congrArg PartitionEntry.record hentry
    have hoffset := congrArg PartitionEntry.offset hentry
    have hstarts := congrArg PartitionEntry.startSector hentry
    have hsize := congrArg PartitionEntry.numOfSectors hentry
    simp only [Pd.entry, BootRecord.entry, BootRecord.start, BootRecord.size, partSlot, hslot,
      Option.getD_some, Option.elim_some, Option.map_some, hdata] at hrecord hoffset hstarts hsize
    refine ⟨hstarts, ?_, hsize⟩
    rw [getPartitionStart, Pd.follow_partTable hrecord, ok_bind, hoffset, hstarts]

/-! ### A disk with two logical partitions -/

theorem read4LittleEndian_store4LittleEndian (val : BitVec 32) :
    read4LittleEndian (store4LittleEndian val) = val := by
  apply BitVec.eq_of_toNat_eq
  have hlt := val.isLt
  simp only [read4LittleEndian, store4LittleEndian, BitVec.toNat_add, BitVec.toNat_shiftLeft,
    BitVec.toNat_setWidth, BitVec.toNat_ushiftRight, Nat.shiftLeft_eq, Nat.shiftRight_eq_div_pow]
  simp
  omega

/-- A record with a type, a start sector and a number of sectors. -/
def partitionOf (sysInd : BitVec 8) (start size : BitVec 32) : Partition :=
  { clearedPartition with
    sysInd := sysInd
    start4 := store4LittleEndian start
    size4 := store4LittleEndian size }

@[simp] theorem getStartSect_partitionOf (sysInd : BitVec 8) (start size : BitVec 32) :
    getStartSect (partitionOf sysInd start size) = start :=
  read4LittleEndian_store4LittleEndian start

@[simp] theorem getNrSects_partitionOf (sysInd : BitVec 8) (start size : BitVec 32) :
    getNrSects (partitionOf sysInd start size) = size :=
  read4LittleEndian_store4LittleEndian size

theorem partitionOf_isData {size : BitVec 32} (hsize : size ≠ 0) (start : BitVec 32) :
    (partitionOf 0x83 start size).IsData where
  size := by rwa [getNrSects_partitionOf]
  type := (by decide : (0x83 : BitVec 8) ≠ 0)
  not_extended := rfl

/-- A new object whose uninitialised entries all have the size `left`. -/
def newWith (left : BitVec 32) : Pd :=
  newHdLowlevelIo (fun _ ↦ clearedPartition) fun _ ↦
    { partTable := none
      extPointer := none
      offset := 0
      sectorbuffer := .mbr
      startSector := 0
      numOfSectors := left }

/-- A disk with an extended partition from sector 100 on that holds two partitions. -/
def twoLogicals : Disk where
  fd := 3
  mbrReads := true
  mbr i := if i.val = 1 then partitionOf 0x05 100 1000 else clearedPartition
  boot _ secno :=
    if secno = 100 then fun i ↦
      if i.val = 0 then partitionOf 0x83 1 50
      else if i.val = 1 then partitionOf 0x05 60 100
      else clearedPartition
    else fun i ↦ if i.val = 0 then partitionOf 0x83 1 70 else clearedPartition

/-- Its chain is well formed. -/
theorem twoLogicals_wellFormed :
    WellFormedChain twoLogicals (getStartSect (twoLogicals.mbr 1)) 2
      (fun i ↦ if i = 0 then partitionOf 0x83 1 50 else partitionOf 0x83 1 70)
      (fun _ ↦ partitionOf 0x05 60 100) where
  isData i hi := by
    split_ifs
    · exact partitionOf_isData (by decide) 1
    · exact partitionOf_isData (by decide) 1
  isLink _ _ := ⟨by rw [getNrSects_partitionOf]; decide, rfl⟩
  inner i hi := by
    obtain rfl : i = 0 := by omega
    refine ⟨0, 1, by decide, rfl, rfl, fun m hzero hone ↦ ?_⟩
    exact (if_neg fun h ↦ hzero (Fin.ext h)).trans (if_neg fun h ↦ hone (Fin.ext h))
  last i hi := by
    obtain rfl : i = 1 := by omega
    exact ⟨0, rfl, fun m hzero ↦ if_neg fun h ↦ hzero (Fin.ext h)⟩

/-- The two partitions are shown with their absolute start sectors. -/
theorem hdllOpen_twoLogicals :
    ∃ pd, hdllOpen 13 twoLogicals (newWith 0) = .ok (true, pd) ∧
      pd.partitions = 6 ∧ (pd.ptes 4).startSector = 101 ∧ (pd.ptes 5).startSector = 161 := by
  obtain ⟨pd, hopen, -, -, hchain⟩ := hdllOpen_newHdLowlevelIo twoLogicals _ _ 13 (Nat.le_refl 13)
  obtain ⟨hpartitions, hentries⟩ := hchain 1 2 _ _ rfl rfl (by decide)
    (by decide) (by decide) (by decide) twoLogicals_wellFormed
  exact ⟨pd, hopen, hpartitions, (hentries 0 (by decide)).1, (hentries 1 (by decide)).1⟩

end Katmai.Hdllio
