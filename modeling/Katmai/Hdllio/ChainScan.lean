import Katmai.Hdllio.BootRecord

/-!
# The scan enters the chain of boot records

`chain` follows the links from a record for a number of boot records, and `Disk.logical` is the
chain of a disk: from the first extended partition of the master boot record that has a start
sector, for as many boot records as `ptes` has room for. `Scans` says what a scan of a chain does to
the object, in terms of the entries it shows; `readChain_scans` and `hdllOpen_scans` find that the
loop and `hdllOpen` do it, with no access out of range, whatever the links are. An object that has
found logical partitions before never scans again (`hdllOpen_reopened`).
-/

set_option autoImplicit false
set_option relaxedAutoImplicit false

namespace Katmai.Hdllio

variable {disk : Disk} {pd pd' : Pd} {p : Partition} {b : BootRecord} {bs : List BootRecord}
  {base : BitVec 32} {room fuel : ℕ}

/-! ### The chain of a disk -/

/-- The boot records that the links lead to from the record `p`, at most `room` of them; the first
is read for the entry with number `pno`. -/
def chain (disk : Disk) (base : BitVec 32) : ℕ → ℕ → Partition → List BootRecord
  | 0, _, _ => []
  | room + 1, pno, p =>
    if isExtended p.sysInd then
      bootRecordOf disk base pno p ::
        chain disk base room (pno + 1) (bootRecordOf disk base pno p).link
    else []

/-- The chain in an extended partition `p`. Its first boot record is at the start of the partition,
and the links are relative to that. -/
def chainFrom (disk : Disk) (p : Partition) : List BootRecord :=
  bootRecordOf disk 0 4 p :: chain disk (getStartSect p) 11 5 (bootRecordOf disk 0 4 p).link

/-- A record that the scan follows. -/
def isUsable (p : Partition) : Bool :=
  isExtended p.sysInd && getStartSect p != 0

/-- The disk can be opened and its master boot record read. -/
def Disk.readable (disk : Disk) : Bool :=
  decide (0 ≤ disk.fd) && disk.mbrReads

/-- The boot records of the logical partitions. -/
def Disk.logical (disk : Disk) : List BootRecord :=
  if disk.readable then
    ((List.finRange 4).find? fun i ↦ isUsable (disk.mbr i)).elim [] fun i ↦
      chainFrom disk (disk.mbr i)
  else []

theorem length_chain_le (disk : Disk) (base : BitVec 32) (room pno : ℕ) (p : Partition) :
    (chain disk base room pno p).length ≤ room := by
  induction room generalizing pno p with
  | zero => exact Nat.le_refl 0
  | succ room ih =>
    rw [chain]
    split_ifs
    · exact Nat.succ_le_succ (ih _ _)
    · exact Nat.zero_le _

theorem length_logical_le (disk : Disk) : disk.logical.length ≤ 12 := by
  unfold Disk.logical
  split_ifs
  · cases (List.finRange 4).find? fun i ↦ isUsable (disk.mbr i) with
    | none => exact Nat.zero_le _
    | some i => exact Nat.succ_le_succ (length_chain_le _ _ _ _ _)
  · exact Nat.zero_le _

/-! ### The entries an object shows -/

/-- What the entry of a partition shows: the record it points to and its numbers. -/
@[ext] structure PartitionEntry where
  record : Option Partition
  offset : BitVec 32
  startSector : BitVec 32
  numOfSectors : BitVec 32

/-- The entry with number `i` -/
def Pd.entry (pd : Pd) (i : ℕ) : PartitionEntry where
  record := (pd.ptes i).partTable.map (pd.records (pd.ptes i))
  offset := (pd.ptes i).offset
  startSector := (pd.ptes i).startSector
  numOfSectors := (pd.ptes i).numOfSectors

/-- The entry of a boot record, where `left` is the size that stands there before. -/
def BootRecord.entry (b : BootRecord) (left : BitVec 32) : PartitionEntry where
  record := some (b.records (partSlot b.records))
  offset := b.sector
  startSector := b.start
  numOfSectors := b.size.getD left

/-- The entry of a record of the master boot record. -/
def mbrEntry (p : Partition) : PartitionEntry where
  record := some p
  offset := 0
  startSector := getStartSect p
  numOfSectors := getNrSects p

theorem Pd.follow_partTable {i : ℕ} (hrecord : (pd.entry i).record = some p) :
    pd.follow (pd.ptes i) (pd.ptes i).partTable = .ok p := by
  obtain ⟨n, hn, hp⟩ := Option.map_eq_some_iff.mp hrecord
  rw [hn, ← hp]
  rfl

/-- The logical entries have a sector of their own and two different records in it. -/
def Pd.Scanned (pd : Pd) : Prop :=
  ∀ i, 4 ≤ i → i < pd.partitions → ∃ records part ext,
    part ≠ ext ∧ (pd.ptes i).sectorbuffer = .heap records ∧
      (pd.ptes i).partTable = some part ∧ (pd.ptes i).extPointer = some ext

/-- A scan has entered the boot records `bs` behind the partitions that were there. -/
structure Scans (pd pd' : Pd) (bs : List BootRecord) : Prop where
  partitions : pd'.partitions = pd.partitions + bs.length
  scanned : pd'.Scanned
  kept : ∀ i < pd.partitions, pd'.entry i = pd.entry i
  entered : ∀ i (h : i < bs.length), pd'.entry (pd.partitions + i) =
    bs[i].entry (pd.ptes (pd.partitions + i)).numOfSectors
  rest : ∀ i, pd'.partitions ≤ i → pd'.ptes i = pd.ptes i

/-- The object behind a round of the loop that reads the boot record `b`. -/
def Pd.enter (pd : Pd) (base : BitVec 32) (b : BootRecord) : Pd :=
  { pd with
    partitions := pd.partitions + 1
    extendedOffset := base
    ptes := Function.update pd.ptes pd.partitions (b.pte (pd.ptes pd.partitions).numOfSectors) }

theorem Pd.enter_ptes_of_ne {i : ℕ} (hi : i ≠ pd.partitions) :
    (pd.enter base b).ptes i = pd.ptes i :=
  Function.update_of_ne hi _ _

theorem Pd.enter_ptes_self :
    (pd.enter base b).ptes pd.partitions = b.pte (pd.ptes pd.partitions).numOfSectors :=
  Function.update_self _ _ _

theorem Pd.enter_entry_of_ne {i : ℕ} (hi : i ≠ pd.partitions) :
    (pd.enter base b).entry i = pd.entry i := by
  simp only [Pd.entry, Pd.enter_ptes_of_ne hi]
  rfl

theorem Pd.enter_entry_self :
    (pd.enter base b).entry pd.partitions = b.entry (pd.ptes pd.partitions).numOfSectors := by
  simp [Pd.entry, Pd.enter_ptes_self, BootRecord.entry, BootRecord.pte, Pd.records]

theorem Pd.Scanned.enter (hscanned : pd.Scanned) : (pd.enter base b).Scanned := by
  intro i hfour hi
  rcases Nat.lt_succ_iff_lt_or_eq.mp hi with hlt | rfl
  · rw [Pd.enter_ptes_of_ne (Nat.ne_of_lt hlt)]
    exact hscanned i hfour hlt
  · rw [Pd.enter_ptes_self]
    exact ⟨b.records, _, _, partSlot_ne_linkSlot _, rfl, rfl, rfl⟩

theorem Scans.refl (hscanned : pd.Scanned) : Scans pd pd [] where
  partitions := rfl
  scanned := hscanned
  kept _ _ := rfl
  entered _ h := absurd h (Nat.not_lt_zero _)
  rest _ _ := rfl

/-- Entries that are entered behind a change that no entry shows. -/
theorem Scans.trans {pd₁ : Pd} (hfirst : Scans pd pd₁ []) (hscans : Scans pd₁ pd' bs) :
    Scans pd pd' bs where
  partitions := by rw [hscans.partitions, hfirst.partitions, List.length_nil, Nat.add_zero]
  scanned := hscans.scanned
  kept i hi := by
    rw [hscans.kept i (by rw [hfirst.partitions]; exact hi), hfirst.kept i hi]
  entered i hi := by
    have hentry := hscans.entered i hi
    rw [hfirst.partitions, List.length_nil, Nat.add_zero] at hentry
    rw [hentry, hfirst.rest _ (by rw [hfirst.partitions]; exact Nat.le_add_right _ _)]
  rest i hi := by
    rw [hscans.rest i hi, hfirst.rest i]
    rw [hscans.partitions] at hi
    exact Nat.le_of_add_right_le hi

theorem Scans.cons (hscans : Scans (pd.enter base b) pd' bs) : Scans pd pd' (b :: bs) where
  partitions := by
    rw [hscans.partitions, List.length_cons]
    exact Nat.add_right_comm _ _ _
  scanned := hscans.scanned
  kept i hi := by
    rw [hscans.kept i (Nat.lt_succ_of_lt hi), Pd.enter_entry_of_ne (Nat.ne_of_lt hi)]
  entered i hi := by
    cases i with
    | zero => exact (hscans.kept _ (Nat.lt_succ_self _)).trans Pd.enter_entry_self
    | succ i =>
      have hentry := hscans.entered i (Nat.lt_of_succ_lt_succ hi)
      have hindex : (pd.enter base b).partitions + i = pd.partitions + (i + 1) :=
        Nat.succ_add _ _
      rw [hindex, Pd.enter_ptes_of_ne (by omega)] at hentry
      exact hentry
  rest i hi := by
    rw [hscans.rest i hi, Pd.enter_ptes_of_ne]
    rw [hscans.partitions] at hi
    simp only [Pd.enter] at hi
    omega

/-! ### The loop -/

/-- The report on empty entries follows pointers that all entries have. -/
theorem mapM_omitsEmpty (hscanned : pd.Scanned) (hmax : pd.partitions ≤ maximumParts) :
    ∃ reports, (List.range' 4 (pd.partitions - 4)).mapM (omitsEmpty pd) = .ok reports := by
  have hone (i : ℕ) (hfour : 4 ≤ i) (hi : i < pd.partitions) :
      pd.pte i = .ok (pd.ptes i) ∧
        ∃ p, pd.follow (pd.ptes i) (pd.ptes i).partTable = .ok p := by
    obtain ⟨records, part, ext, -, -, hpart, -⟩ := hscanned i hfour hi
    exact ⟨Pd.pte_eq (Nat.lt_of_lt_of_le hi hmax), _, by rw [hpart]; rfl⟩
  have hempty (i : ℕ) (hi : i ∈ List.range' 4 (pd.partitions - 4)) :
      ∃ report, omitsEmpty pd i = .ok report := by
    rw [List.mem_range'_1] at hi
    obtain ⟨hpte, p, hp⟩ := hone i hi.1 (by omega)
    obtain ⟨hfirst, first, hfollow⟩ := hone 4 (Nat.le_refl 4) (by omega)
    simp only [omitsEmpty, hpte, hp, hfirst, hfollow, ok_bind]
    split_ifs <;> exact ⟨_, rfl⟩
  generalize List.range' 4 (pd.partitions - 4) = numbers at hempty ⊢
  induction numbers with
  | nil => exact ⟨[], rfl⟩
  | cons i numbers ih =>
    obtain ⟨report, hreport⟩ := hempty i List.mem_cons_self
    obtain ⟨reports, hreports⟩ := ih fun j hj ↦ hempty j (List.mem_cons_of_mem i hj)
    refine ⟨report :: reports, ?_⟩
    rw [List.mapM_cons, hreport, ok_bind, hreports, ok_bind]
    rfl

/-- The last entry of a full table shows the same after its link is cleared. -/
theorem clearPartition_scans (hscanned : pd.Scanned) (hfull : pd.partitions = maximumParts) :
    ∃ pd', pd.clearPartition (pd.partitions - 1) = .ok pd' ∧ Scans pd pd' [] := by
  have hlast : pd.partitions - 1 < maximumParts := by rw [hfull]; decide
  obtain ⟨records, part, ext, hne, hbuffer, hpart, hext⟩ :=
    hscanned (pd.partitions - 1) (by rw [hfull]; decide) (by omega)
  let pe := { pd.ptes (pd.partitions - 1) with
    extPointer := some ext
    sectorbuffer := .heap (Function.update records ext clearedPartition) }
  let pd' := { pd with ptes := Function.update pd.ptes (pd.partitions - 1) pe }
  have hself : pd'.ptes (pd.partitions - 1) = pe := Function.update_self _ _ _
  have hother (i : ℕ) (hi : i ≠ pd.partitions - 1) : pd'.ptes i = pd.ptes i :=
    Function.update_of_ne hi _ _
  refine ⟨pd', ?_, rfl, ?_, ?_, ?_, ?_⟩
  · rw [Pd.clearPartition, Pd.pte_eq hlast, ok_bind]
    simp only [hext, hbuffer]
    exact Pd.setPte_eq hlast
  · intro i hfour hi
    rcases eq_or_ne i (pd.partitions - 1) with rfl | hi'
    · rw [hself]
      exact ⟨_, part, ext, hne, rfl, hpart, rfl⟩
    · rw [hother i hi']
      exact hscanned i hfour hi
  · intro i hi
    rcases eq_or_ne i (pd.partitions - 1) with rfl | hi'
    · simp [Pd.entry, hself, pe, hpart, Pd.records, hbuffer, Function.update_of_ne hne]
    · simp only [Pd.entry, hother i hi']
      rfl
  · exact fun i hi ↦ absurd hi (Nat.not_lt_zero i)
  · intro i hi
    exact hother i (by simp only [pd'] at hi; omega)

theorem readChain_of_isExtended (hext : isExtended p.sysInd = true)
    (hroom : pd.partitions < maximumParts) :
    readChain disk (fuel + 1) p pd =
      readChain disk fuel (bootRecordOf disk pd.extendedOffset pd.partitions p).link
        (pd.enter (if pd.extendedOffset = 0 then getStartSect p else pd.extendedOffset)
          (bootRecordOf disk pd.extendedOffset pd.partitions p)) := by
  rw [readChain, if_pos hext, if_neg (Nat.not_le.mpr hroom), readBootRecord_eq hroom, ok_bind]
  rfl

theorem readChain_of_not_isExtended (hext : isExtended p.sysInd = false)
    (hscanned : pd.Scanned) (hmax : pd.partitions ≤ maximumParts) :
    readChain disk (fuel + 1) p pd = .ok pd := by
  obtain ⟨reports, hreports⟩ := mapM_omitsEmpty hscanned hmax
  rw [readChain, if_neg (by simp [hext]), hreports, ok_bind]

/-- The loop ends within as many rounds as the table has room for, and has entered the chain. -/
theorem readChain_scans (disk : Disk) (hscanned : pd.Scanned) (hbase : pd.extendedOffset = base)
    (hne : base ≠ 0) (hroom : pd.partitions + room = maximumParts) (hfuel : room < fuel) :
    ∃ pd', readChain disk fuel p pd = .ok pd' ∧
      Scans pd pd' (chain disk base room pd.partitions p) := by
  induction room generalizing fuel pd p with
  | zero =>
    obtain ⟨fuel, rfl⟩ := Nat.exists_eq_add_one_of_ne_zero (Nat.ne_zero_of_lt hfuel)
    cases hext : isExtended p.sysInd with
    | true =>
      obtain ⟨pd', hclear, hscans⟩ := clearPartition_scans hscanned hroom
      refine ⟨pd', ?_, hscans⟩
      rw [readChain, if_pos hext, if_pos (Nat.le_of_eq hroom.symm : maximumParts ≤ pd.partitions)]
      exact hclear
    | false =>
      exact ⟨pd, readChain_of_not_isExtended hext hscanned (Nat.le_of_eq hroom),
        Scans.refl hscanned⟩
  | succ room ih =>
    obtain ⟨fuel, rfl⟩ := Nat.exists_eq_add_one_of_ne_zero (Nat.ne_zero_of_lt hfuel)
    cases hext : isExtended p.sysInd with
    | true =>
      -- The base is fixed before this round, so the round leaves it.
      let b := bootRecordOf disk base pd.partitions p
      have hentered : (pd.enter base b).Scanned := hscanned.enter
      obtain ⟨pd', hread, hscans⟩ := ih (p := b.link) hentered rfl
        ((Nat.succ_add_eq_add_succ _ _).trans hroom) (Nat.lt_of_succ_lt_succ hfuel)
      refine ⟨pd', ?_, ?_⟩
      · rw [readChain_of_isExtended hext (by omega), hbase, if_neg hne, hread]
      · rw [chain, if_pos hext]
        exact hscans.cons
    | false =>
      refine ⟨pd, readChain_of_not_isExtended hext hscanned (by omega), ?_⟩
      rw [chain, if_neg (by simp [hext])]
      exact Scans.refl hscanned

/-! ### The master boot record -/

theorem Pd.scanned_of_partitions_eq_four (hfour : pd.partitions = 4) : pd.Scanned :=
  fun _ hle hlt ↦ absurd (Nat.lt_of_le_of_lt hle hlt) (by rw [hfour]; decide)

/-- The loop on an object that has found no logical partition yet. Its first round fixes the base of
the links. -/
theorem readChain_first (disk : Disk) (hfour : pd.partitions = 4) (hzero : pd.extendedOffset = 0)
    (hfuel : 13 ≤ fuel) (hext : isExtended p.sysInd = true) (hstart : getStartSect p ≠ 0) :
    ∃ pd', readChain disk fuel p pd = .ok pd' ∧ Scans pd pd' (chainFrom disk p) := by
  obtain ⟨fuel, rfl⟩ := Nat.exists_eq_add_of_le' hfuel
  have hroom : pd.partitions < maximumParts := by rw [hfour]; decide
  have hnext : (pd.enter (getStartSect p) (bootRecordOf disk 0 4 p)).partitions = 5 :=
    congrArg Nat.succ hfour
  have hscanned : (pd.enter (getStartSect p) (bootRecordOf disk 0 4 p)).Scanned :=
    (Pd.scanned_of_partitions_eq_four hfour).enter
  have hfuel : 11 < fuel + 12 := by omega
  obtain ⟨pd', hread, hscans⟩ := readChain_scans disk (p := (bootRecordOf disk 0 4 p).link)
    hscanned rfl hstart (by rw [hnext]; rfl) hfuel
  refine ⟨pd', ?_, ?_⟩
  · rw [readChain_of_isExtended hext hroom, hzero, hfour, if_pos rfl]
    exact hread
  · rw [hnext] at hscans
    exact hscans.cons

/-- `readExtended` on an object that has found no logical partition yet. -/
theorem readExtended_scans (disk : Disk) {ext : ℕ} (hfour : pd.partitions = 4)
    (hzero : pd.extendedOffset = 0)
    (hfuel : 13 ≤ fuel) (hlt : ext < 4) (hrecord : (pd.entry ext).record = some p)
    (hext : isExtended p.sysInd = true) :
    ∃ pd', readExtended disk fuel pd ext = .ok pd' ∧
      Scans pd pd' (if getStartSect p = 0 then [] else chainFrom disk p) ∧
      (getStartSect p = 0 → pd'.extendedOffset = 0) := by
  have hrange : ext < maximumParts := Nat.lt_trans hlt (by decide)
  let pex := pd.ptes ext
  let pd₁ := { pd with
    extIndex := ext
    ptes := Function.update pd.ptes ext { pex with extPointer := pex.partTable } }
  have hother (i : ℕ) (hi : i ≠ ext) : pd₁.ptes i = pd.ptes i := Function.update_of_ne hi _ _
  have hself : pd₁.ptes ext = { pex with extPointer := pex.partTable } := Function.update_self _ _ _
  have hscanned : pd₁.Scanned := Pd.scanned_of_partitions_eq_four hfour
  have hfirst : Scans pd pd₁ [] := by
    refine ⟨rfl, hscanned, fun i _ ↦ ?_, fun i hi ↦ absurd hi (Nat.not_lt_zero i), fun i hi ↦ ?_⟩
    · rcases eq_or_ne i ext with rfl | hi
      · simp only [Pd.entry, hself]
        rfl
      · simp only [Pd.entry, hother i hi]
        rfl
    · refine hother i (Nat.ne_of_gt (Nat.lt_of_lt_of_le hlt ?_))
      exact hfour ▸ hi
  have hrun : readExtended disk fuel pd ext =
      if getStartSect p = 0 then .ok pd₁ else readChain disk fuel p pd₁ := by
    have hfollow : pd₁.follow pex pex.partTable = .ok p := Pd.follow_partTable hrecord
    simp only [readExtended]
    rw [Pd.pte_eq hrange, ok_bind, Pd.setPte_eq hrange, ok_bind]
    change (pd₁.follow pex pex.partTable >>= _) = _
    rw [hfollow, ok_bind]
  rw [hrun]
  split_ifs with hstart
  · exact ⟨pd₁, rfl, hfirst, fun _ ↦ hzero⟩
  · obtain ⟨pd', hread, hscans⟩ :=
      readChain_first disk (show pd₁.partitions = 4 from hfour) hzero hfuel hext hstart
    exact ⟨pd', hread, hfirst.trans hscans, fun h ↦ absurd h hstart⟩

/-- Once there are logical partitions, the loop over the primary records changes nothing. -/
theorem foldlM_scanMbr_of_ne_four (disk : Disk) (fuel : ℕ) (slots : List (Fin 4))
    (hfour : pd.partitions ≠ 4)
    (hrecord : ∀ i : Fin 4, ∃ p, (pd.entry i).record = some p) :
    slots.foldlM (scanMbr disk fuel) pd = .ok pd := by
  induction slots with
  | nil => rfl
  | cons i slots ih =>
    obtain ⟨p, hp⟩ := hrecord i
    have hrange : (i : ℕ) < maximumParts := Nat.lt_trans i.isLt (by decide)
    have hround : scanMbr disk fuel pd i = .ok pd := by
      rw [scanMbr, Pd.pte_eq hrange, ok_bind, Pd.follow_partTable hp, ok_bind, if_pos hfour,
        ite_self]
    rw [List.foldlM_cons, hround, ok_bind, ih]

/-- The loop over the primary records enters the chain of the first usable one. -/
theorem foldlM_scanMbr_scans (disk : Disk) (slots : List (Fin 4))
    (hfour : pd.partitions = 4) (hzero : pd.extendedOffset = 0) (hfuel : 13 ≤ fuel)
    (hmbr : ∀ i : Fin 4, (pd.entry i).record = some (disk.mbr i)) :
    ∃ pd', slots.foldlM (scanMbr disk fuel) pd = .ok pd' ∧
      Scans pd pd' ((slots.find? fun i ↦ isUsable (disk.mbr i)).elim [] fun i ↦
        chainFrom disk (disk.mbr i)) ∧
      (slots.find? (fun i ↦ isUsable (disk.mbr i)) = none → pd'.extendedOffset = 0) := by
  induction slots generalizing pd with
  | nil => exact ⟨pd, rfl, Scans.refl (Pd.scanned_of_partitions_eq_four hfour), fun _ ↦ hzero⟩
  | cons i slots ih =>
    have hrange : (i : ℕ) < maximumParts := Nat.lt_trans i.isLt (by decide)
    have hround : scanMbr disk fuel pd i =
        if isExtended (disk.mbr i).sysInd then readExtended disk fuel pd i else .ok pd := by
      rw [scanMbr, Pd.pte_eq hrange, ok_bind, Pd.follow_partTable (hmbr i), ok_bind,
        if_neg (not_not.mpr hfour)]
    rw [List.foldlM_cons, hround]
    cases hext : isExtended (disk.mbr i).sysInd with
    | false =>
      rw [if_neg Bool.false_ne_true, ok_bind, List.find?_cons_of_neg (by simp [isUsable, hext])]
      exact ih hfour hzero hmbr
    | true =>
      obtain ⟨pd₁, hread, hscans, hoffset⟩ := readExtended_scans disk hfour hzero hfuel
        i.isLt (hmbr i) hext
      have hkept (j : Fin 4) : (pd₁.entry j).record = some (disk.mbr j) := by
        rw [hscans.kept j (by rw [hfour]; exact j.isLt), hmbr j]
      rw [if_pos rfl, hread, ok_bind]
      by_cases hstart : getStartSect (disk.mbr i) = 0
      · rw [if_pos hstart] at hscans
        obtain ⟨pd', hrest, hscans', hoffset'⟩ :=
          ih (hscans.partitions.trans hfour) (hoffset hstart) hkept
        rw [List.find?_cons_of_neg (by simp [isUsable, hstart])]
        exact ⟨pd', hrest, hscans.trans hscans', hoffset'⟩
      · rw [if_neg hstart] at hscans
        have hne : pd₁.partitions ≠ 4 := by
          rw [hscans.partitions, hfour, chainFrom, List.length_cons]
          omega
        refine ⟨pd₁, foldlM_scanMbr_of_ne_four disk fuel slots hne fun j ↦ ⟨_, hkept j⟩, ?_, ?_⟩
        · rw [List.find?_cons_of_pos (by simpa [isUsable, hext] using hstart)]
          exact hscans
        · intro hnone
          rw [List.find?_cons_of_pos (by simpa [isUsable, hext] using hstart)] at hnone
          exact absurd hnone (Option.some_ne_none i)

/-- The entry that `enterMbr` makes. -/
def primaryPte (mbr : PartitionTable) (i : Fin 4) : Pte where
  partTable := some i
  extPointer := none
  offset := 0
  sectorbuffer := .mbr
  startSector := getStartSect (mbr i)
  numOfSectors := getNrSects (mbr i)

theorem enterMbr_eq (pd : Pd) (i : Fin 4) :
    enterMbr pd i =
      .ok { pd with ptes := Function.update pd.ptes i (primaryPte pd.mbrBuffer i) } :=
  Pd.setPte_eq (Nat.lt_trans i.isLt (by decide))

/-- The loop that enters the primary records changes their entries and no others. -/
theorem foldlM_enterMbr (slots : List (Fin 4)) (pd : Pd) :
    ∃ ptes, slots.foldlM enterMbr pd = .ok { pd with ptes := ptes } ∧
      (∀ i ∈ slots, ptes i = primaryPte pd.mbrBuffer i) ∧
      ∀ j, (∀ i ∈ slots, j ≠ i.val) → ptes j = pd.ptes j := by
  induction slots generalizing pd with
  | nil => exact ⟨pd.ptes, rfl, fun _ h ↦ absurd h List.not_mem_nil, fun _ _ ↦ rfl⟩
  | cons i slots ih =>
    obtain ⟨ptes, hrun, hentered, hkept⟩ :=
      ih { pd with ptes := Function.update pd.ptes i (primaryPte pd.mbrBuffer i) }
    refine ⟨ptes, ?_, fun j hj ↦ ?_, fun j hj ↦ ?_⟩
    · rw [List.foldlM_cons, enterMbr_eq, ok_bind, hrun]
    · by_cases hmem : j ∈ slots
      · exact hentered j hmem
      · obtain rfl : j = i := (List.mem_cons.mp hj).resolve_right hmem
        rw [hkept j fun k hk heq ↦ hmem (Fin.val_injective heq ▸ hk)]
        exact Function.update_self _ _ _
    · rw [hkept j fun k hk ↦ hj k (List.mem_cons_of_mem i hk)]
      exact Function.update_of_ne (hj i List.mem_cons_self) _ _

/-! ### Opening a disk -/

/-- The object in which the master boot record has been entered. -/
structure Primary (disk : Disk) (pd pd' : Pd) : Prop where
  partitions : pd'.partitions = pd.partitions
  extendedOffset : pd'.extendedOffset = pd.extendedOffset
  entered : ∀ i : Fin 4, pd'.entry i = mbrEntry (disk.mbr i)
  kept : ∀ i, 4 ≤ i → pd'.ptes i = pd.ptes i

/-- A disk that cannot be read leaves the object as it was but for the descriptor and the buffer;
else the loop over the primary records runs on an object that shows them. -/
theorem hdllOpen_eq (fuel : ℕ) (disk : Disk) (pd : Pd) :
    (disk.readable = false ∧ ∃ fd mbr,
      hdllOpen fuel disk pd = .ok (false, { pd with fd := fd, mbrBuffer := mbr })) ∨
    (disk.readable = true ∧ ∃ pd₁, Primary disk pd pd₁ ∧
      hdllOpen fuel disk pd =
        ((List.finRange 4).foldlM (scanMbr disk fuel) pd₁ >>= fun pd ↦ .ok (true, pd))) := by
  have hclose : { hdllClose pd with fd := disk.fd } = { pd with fd := disk.fd } := by
    unfold hdllClose
    split_ifs <;> rfl
  by_cases hfd : disk.fd < 0
  · refine .inl ⟨by simp [Disk.readable, hfd], disk.fd, pd.mbrBuffer, ?_⟩
    rw [hdllOpen, hclose]
    exact if_pos hfd
  · cases hreads : disk.mbrReads with
    | false =>
      refine .inl ⟨by simp [Disk.readable, hreads], -1, disk.mbr, ?_⟩
      rw [hdllOpen, hclose]
      simp [hfd, hreads, hdllClose, Int.not_lt.mp hfd]
    | true =>
      obtain ⟨ptes, hrun, hentered, hkept⟩ := foldlM_enterMbr (List.finRange 4)
        { pd with fd := disk.fd, mbrBuffer := disk.mbr }
      refine .inr ⟨by simp [Disk.readable, hreads, Int.not_lt.mp hfd],
        { pd with fd := disk.fd, mbrBuffer := disk.mbr, ptes := ptes }, ⟨rfl, rfl, ?_, ?_⟩, ?_⟩
      · intro i
        simp only [Pd.entry, hentered i (List.mem_finRange i)]
        rfl
      · exact fun i hi ↦ hkept i fun j _ ↦ Nat.ne_of_gt (Nat.lt_of_lt_of_le j.isLt hi)
      · rw [hdllOpen, hclose]
        simp only [hfd, hreads, if_false, Bool.not_true, Bool.false_eq_true, hrun, ok_bind]

/-- What an open does to an object that has found no logical partition yet. -/
structure Opens (disk : Disk) (pd pd' : Pd) : Prop where
  partitions : pd'.partitions = 4 + disk.logical.length
  scanned : pd'.Scanned
  primary : disk.readable = true → ∀ i : Fin 4, pd'.entry i = mbrEntry (disk.mbr i)
  logical : ∀ i (h : i < disk.logical.length),
    pd'.entry (4 + i) = disk.logical[i].entry (pd.ptes (4 + i)).numOfSectors
  rest : ∀ i, pd'.partitions ≤ i → pd'.ptes i = pd.ptes i
  extendedOffset : disk.logical = [] → pd'.extendedOffset = 0

theorem hdllOpen_opens (disk : Disk) (hfour : pd.partitions = 4) (hzero : pd.extendedOffset = 0)
    (hfuel : 13 ≤ fuel) :
    ∃ pd', hdllOpen fuel disk pd = .ok (disk.readable, pd') ∧ Opens disk pd pd' := by
  rcases hdllOpen_eq fuel disk pd with ⟨hreadable, fd, mbr, hopen⟩ | ⟨hreadable, pd₁, hpd₁, hopen⟩
  · have hlogical : disk.logical = [] := if_neg (by simp [hreadable])
    rw [hreadable, hopen]
    refine ⟨_, rfl, ?_, Pd.scanned_of_partitions_eq_four hfour, ?_, ?_, fun _ _ ↦ rfl,
      fun _ ↦ hzero⟩
    · rw [hlogical]
      exact hfour
    · exact fun h ↦ absurd (hreadable.symm.trans h) Bool.false_ne_true
    · intro i hi
      rw [hlogical] at hi
      exact absurd hi (Nat.not_lt_zero i)
  · have hfour₁ : pd₁.partitions = 4 := hpd₁.partitions.trans hfour
    obtain ⟨pd', hrun, hscans, hoffset⟩ := foldlM_scanMbr_scans disk (List.finRange 4)
      hfour₁ (hpd₁.extendedOffset.trans hzero) hfuel
      fun i ↦ congrArg PartitionEntry.record (hpd₁.entered i)
    have hlogical : disk.logical =
        ((List.finRange 4).find? fun i ↦ isUsable (disk.mbr i)).elim [] fun i ↦
          chainFrom disk (disk.mbr i) := if_pos hreadable
    rw [← hlogical] at hscans
    rw [hreadable, hopen, hrun, ok_bind]
    have hpartitions : pd'.partitions = 4 + disk.logical.length :=
      hscans.partitions.trans (congrArg (· + _) hfour₁)
    refine ⟨pd', rfl, hpartitions, hscans.scanned, fun _ i ↦ ?_, fun i hi ↦ ?_, fun i hi ↦ ?_, ?_⟩
    · rw [hscans.kept i (by rw [hfour₁]; exact i.isLt), hpd₁.entered i]
    · have hentry := hscans.entered i hi
      rw [hfour₁, hpd₁.kept _ (Nat.le_add_right 4 i)] at hentry
      exact hentry
    · rw [hscans.rest i hi, hpd₁.kept i (by omega)]
    · intro hnil
      apply hoffset
      rw [hlogical] at hnil
      cases hfind : (List.finRange 4).find? fun i ↦ isUsable (disk.mbr i) with
      | none => rfl
      | some i =>
        rw [hfind] at hnil
        exact absurd hnil (List.cons_ne_nil _ _)

/-- A new object. -/
theorem hdllOpen_new_opens (disk : Disk) (mbrBuffer : PartitionTable) (ptes : ℕ → Pte)
    (hfuel : 13 ≤ fuel) :
    ∃ pd, hdllOpen fuel disk (newHdLowlevelIo mbrBuffer ptes) = .ok (disk.readable, pd) ∧
      Opens disk (newHdLowlevelIo mbrBuffer ptes) pd :=
  hdllOpen_opens disk rfl rfl hfuel

/-- An object that has found logical partitions keeps them, whatever disk is opened. -/
theorem hdllOpen_reopened (fuel : ℕ) (disk : Disk) (hfour : 4 < pd.partitions)
    (hscanned : pd.Scanned) :
    ∃ pd', hdllOpen fuel disk pd = .ok (disk.readable, pd') ∧
      pd'.partitions = pd.partitions ∧
      (disk.readable = true → ∀ i : Fin 4, pd'.entry i = mbrEntry (disk.mbr i)) ∧
      ∀ i, 4 ≤ i → i < pd.partitions → pd'.entry i = pd.entry i := by
  -- A logical entry has a sector of its own, so the new master boot record does not show in it.
  have hkept (pd' : Pd) (i : ℕ) (hle : 4 ≤ i) (hi : i < pd.partitions)
      (heq : pd'.ptes i = pd.ptes i) : pd'.entry i = pd.entry i := by
    obtain ⟨records, part, ext, -, hbuffer, hpart, -⟩ := hscanned i hle hi
    simp [Pd.entry, heq, Pd.records, hbuffer, hpart]
  rcases hdllOpen_eq fuel disk pd with ⟨hreadable, fd, mbr, hopen⟩ | ⟨hreadable, pd₁, hpd₁, hopen⟩
  · rw [hreadable, hopen]
    exact ⟨_, rfl, rfl, fun h ↦ absurd h Bool.false_ne_true,
      fun i hle hi ↦ hkept _ i hle hi rfl⟩
  · have hrun := foldlM_scanMbr_of_ne_four disk fuel (List.finRange 4)
      (by rw [hpd₁.partitions]; exact Nat.ne_of_gt hfour)
      fun i ↦ ⟨_, congrArg PartitionEntry.record (hpd₁.entered i)⟩
    rw [hreadable, hopen, hrun, ok_bind]
    exact ⟨pd₁, rfl, hpd₁.partitions, fun _ ↦ hpd₁.entered,
      fun i hle hi ↦ hkept pd₁ i hle hi (hpd₁.kept i hle)⟩

end Katmai.Hdllio
