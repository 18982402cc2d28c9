import Katmai.Hdllio.LogicalPartitions

/-!
# What an earlier open leaves behind

`hdllOpen` resets neither the number of partitions nor the base of the links, so an object that has
found logical partitions scans no chain again. `report` is what a caller sees of an open, and
`openAfter` opens a disk on an object that was opened before, with or without a close between. What
is reported does not depend on the earlier open exactly if the earlier disk has no extended
partition that is scanned, or its logical partitions are those of the later disk
(`openAfter_report_iff`).
-/

set_option autoImplicit false
set_option relaxedAutoImplicit false

namespace Katmai.Hdllio

variable {A B : Disk} {pd pd' : Pd} {fuel : ℕ} {opened closing : Bool}

/-! ### What a caller sees -/

/-- A partition entry: its type, its start sector and its number of sectors. -/
structure ShownPartition where
  type : Option (BitVec 8)
  startSector : BitVec 32
  numOfSectors : BitVec 32

/-- What an entry shows to a caller. -/
def PartitionEntry.shown (entry : PartitionEntry) : ShownPartition where
  type := entry.record.map Partition.sysInd
  startSector := entry.startSector
  numOfSectors := entry.numOfSectors

/-- The result of an open: the value it returns, the number of partitions and, if the disk is open,
their entries. -/
structure OpenReport where
  opened : Bool
  partitions : ℕ
  entries : List ShownPartition

def report (result : Bool × Pd) : OpenReport where
  opened := result.1
  partitions := result.2.partitions
  entries :=
    if result.1 then (List.range result.2.partitions).map fun i ↦ (result.2.entry i).shown else []

/-- Opens the disk `B` with an object that has opened the disk `A`. -/
def openAfter (fuel : ℕ) (A B : Disk) (closing : Bool) (pd : Pd) : Except Fault (Bool × Pd) := do
  let (_, pd) ← hdllOpen fuel A pd
  hdllOpen fuel B (if closing then hdllClose pd else pd)

/-- What is reported of `B` does not depend on the earlier open of `A`. -/
def HistoryFree (fuel : ℕ) (A B : Disk) : Prop :=
  ∀ (mbrBuffer : PartitionTable) (ptes : ℕ → Pte) (closing : Bool),
    (openAfter fuel A B closing (newHdLowlevelIo mbrBuffer ptes)).map report =
      (hdllOpen fuel B (newHdLowlevelIo mbrBuffer ptes)).map report

/-- No extended partition of the disk is scanned: it cannot be read, or its master boot record has
no extended record with a start sector. -/
def Disk.NoLogical (disk : Disk) : Prop :=
  disk.readable = true → ∀ i, isUsable (disk.mbr i) = false

/-- The type, the start sector and, if the boot record has data, the size of a logical partition. -/
def BootRecord.shown (b : BootRecord) : BitVec 8 × BitVec 32 × Option (BitVec 32) :=
  ((b.records (partSlot b.records)).sysInd, b.start, b.size)

theorem logical_eq_nil_iff (disk : Disk) : disk.logical = [] ↔ disk.NoLogical := by
  unfold Disk.logical Disk.NoLogical
  split_ifs with hreadable
  · simp only [hreadable, true_imp_iff]
    cases hfind : (List.finRange 4).find? fun i ↦ isUsable (disk.mbr i) with
    | none =>
      rw [List.find?_eq_none] at hfind
      exact iff_of_true rfl fun i ↦ Bool.eq_false_iff.mpr (hfind i (List.mem_finRange i))
    | some i =>
      refine iff_of_false (List.cons_ne_nil _ _) fun hall ↦ ?_
      have husable := List.find?_some hfind
      rw [hall i] at husable
      exact Bool.false_ne_true husable
  · exact iff_of_true rfl fun h ↦ absurd h hreadable

theorem report_eq_report_iff :
    report (opened, pd) = report (opened, pd') ↔
      pd.partitions = pd'.partitions ∧
        (opened = true → ∀ i < pd.partitions, (pd.entry i).shown = (pd'.entry i).shown) := by
  simp only [report, OpenReport.mk.injEq, true_and]
  refine and_congr_right fun hpartitions ↦ ?_
  rw [← hpartitions]
  cases opened with
  | false => simp
  | true => simp [List.map_inj_left]

/-- The size that stands in an entry shows only where the boot record has no data. -/
theorem shown_entry_eq_iff (a b : BootRecord) :
    (∀ left, (a.entry left).shown = (b.entry left).shown) ↔ a.shown = b.shown := by
  simp only [BootRecord.entry, PartitionEntry.shown, BootRecord.shown, ShownPartition.mk.injEq,
    Option.map_some, Option.some.injEq, Prod.mk.injEq]
  constructor
  · intro hall
    refine ⟨(hall 0).1, (hall 0).2.1, ?_⟩
    cases ha : a.size with
    | none =>
      cases hb : b.size with
      | none => rfl
      | some n =>
        have hleft := (hall (n + 1)).2.2
        rw [ha, hb] at hleft
        exact absurd hleft (by simp)
    | some m =>
      cases hb : b.size with
      | none =>
        have hleft := (hall (m + 1)).2.2
        rw [ha, hb] at hleft
        exact absurd hleft (by simp)
      | some n =>
        have hleft := (hall 0).2.2
        rw [ha, hb] at hleft
        exact congrArg some hleft
  · rintro ⟨htype, hstart, hsize⟩ left
    exact ⟨htype, hstart, by rw [hsize]⟩

/-! ### The second open -/

/-- What stands between the two opens changes the descriptor only. -/
theorem exists_fd_eq (closing : Bool) (pd : Pd) :
    ∃ fd, (if closing then hdllClose pd else pd) = { pd with fd := fd } := by
  unfold hdllClose
  split_ifs
  · exact ⟨_, rfl⟩
  · exact ⟨pd.fd, rfl⟩
  · exact ⟨pd.fd, rfl⟩

/-- Behind a disk without logical partitions the object is as good as new. -/
theorem openAfter_of_noLogical (B : Disk) (closing : Bool) (hfour : pd.partitions = 4)
    (hzero : pd.extendedOffset = 0) (hfuel : 13 ≤ fuel) (hA : A.logical = []) :
    ∃ pd₁ pd', openAfter fuel A B closing pd = .ok (B.readable, pd') ∧ Opens B pd₁ pd' ∧
      ∀ i, 4 ≤ i → pd₁.ptes i = pd.ptes i := by
  obtain ⟨pd₁, hopen, hopens⟩ := hdllOpen_opens A hfour hzero hfuel
  have hpartitions : pd₁.partitions = 4 := by rw [hopens.partitions, hA]; rfl
  obtain ⟨fd, hfd⟩ := exists_fd_eq closing pd₁
  obtain ⟨pd', hopen', hopens'⟩ := hdllOpen_opens B
    (show ({ pd₁ with fd := fd } : Pd).partitions = 4 from hpartitions)
    (hopens.extendedOffset hA) hfuel
  refine ⟨{ pd₁ with fd := fd }, pd', ?_, hopens', fun i hi ↦ hopens.rest i (by omega)⟩
  rw [openAfter, hopen, ok_bind]
  exact (congrArg (hdllOpen fuel B) hfd).trans hopen'

/-- Behind a disk with logical partitions they stay. -/
theorem openAfter_of_logical (B : Disk) (closing : Bool) (hfour : pd.partitions = 4)
    (hzero : pd.extendedOffset = 0) (hfuel : 13 ≤ fuel) (hA : A.logical ≠ []) :
    ∃ pd', openAfter fuel A B closing pd = .ok (B.readable, pd') ∧
      pd'.partitions = 4 + A.logical.length ∧
      (B.readable = true → ∀ i : Fin 4, pd'.entry i = mbrEntry (B.mbr i)) ∧
      ∀ i (h : i < A.logical.length),
        pd'.entry (4 + i) = A.logical[i].entry (pd.ptes (4 + i)).numOfSectors := by
  obtain ⟨pd₁, hopen, hopens⟩ := hdllOpen_opens A hfour hzero hfuel
  have hpos : 0 < A.logical.length := List.length_pos_of_ne_nil hA
  obtain ⟨fd, hfd⟩ := exists_fd_eq closing pd₁
  have hpartitions : 4 < ({ pd₁ with fd := fd } : Pd).partitions := by
    simp only [hopens.partitions]
    omega
  have hscanned : ({ pd₁ with fd := fd } : Pd).Scanned := hopens.scanned
  obtain ⟨pd', hopen', hlength, hprimary, hkept⟩ :=
    hdllOpen_reopened fuel B hpartitions hscanned
  refine ⟨pd', ?_, hlength.trans hopens.partitions, hprimary, fun i hi ↦ ?_⟩
  · rw [openAfter, hopen, ok_bind]
    exact (congrArg (hdllOpen fuel B) hfd).trans hopen'
  · rw [hkept (4 + i) (Nat.le_add_right 4 i) (by simp only [hopens.partitions]; omega)]
    exact hopens.logical i hi

/-- Two objects show the same entries if they show the same primary and logical ones. -/
theorem shown_eq_of_primary_of_logical (n : ℕ)
    (hprimary : ∀ i : Fin 4, (pd.entry i).shown = (pd'.entry i).shown)
    (hlogical : ∀ i < n, (pd.entry (4 + i)).shown = (pd'.entry (4 + i)).shown) :
    ∀ i < 4 + n, (pd.entry i).shown = (pd'.entry i).shown := by
  intro i hi
  rcases Nat.lt_or_ge i 4 with hlt | hge
  · exact hprimary ⟨i, hlt⟩
  · obtain ⟨j, rfl⟩ := Nat.exists_eq_add_of_le hge
    exact hlogical j (Nat.lt_of_add_lt_add_left hi)

theorem historyFree_of_noLogical (hfuel : 13 ≤ fuel) (hA : A.logical = []) :
    HistoryFree fuel A B := by
  intro mbrBuffer ptes closing
  obtain ⟨pd₁, pd, hopen, hopens, hkept⟩ := openAfter_of_noLogical B closing
    (show (newHdLowlevelIo mbrBuffer ptes).partitions = 4 from rfl) rfl hfuel hA
  obtain ⟨pd', hopen', hopens'⟩ := hdllOpen_new_opens B mbrBuffer ptes hfuel
  rw [hopen, hopen']
  refine congrArg Except.ok (report_eq_report_iff.mpr ⟨?_, fun hreadable ↦ ?_⟩)
  · rw [hopens.partitions, hopens'.partitions]
  · rw [hopens.partitions]
    refine shown_eq_of_primary_of_logical _ (fun i ↦ ?_) fun i hi ↦ ?_
    · rw [hopens.primary hreadable, hopens'.primary hreadable]
    · rw [hopens.logical i hi, hopens'.logical i hi, hkept _ (Nat.le_add_right 4 i)]

/-- Behind a disk with logical partitions the report is that of the later disk exactly if the
entries of the logical partitions agree. -/
theorem report_eq_iff_of_logical (hfour : pd.partitions = 4) (hzero : pd.extendedOffset = 0)
    (hfuel : 13 ≤ fuel) (hA : A.logical ≠ []) :
    (openAfter fuel A B closing pd).map report = (hdllOpen fuel B pd).map report ↔
      A.logical.length = B.logical.length ∧
        ∀ i (ha : i < A.logical.length) (hb : i < B.logical.length),
          (A.logical[i].entry (pd.ptes (4 + i)).numOfSectors).shown =
            (B.logical[i].entry (pd.ptes (4 + i)).numOfSectors).shown := by
  obtain ⟨pd₁, hopen, hpartitions, hprimary, hlogical⟩ :=
    openAfter_of_logical B closing hfour hzero hfuel hA
  obtain ⟨pd', hopen', hopens⟩ := hdllOpen_opens B hfour hzero hfuel
  rw [hopen, hopen']
  refine Iff.trans ⟨Except.ok.inj, congrArg Except.ok⟩ ?_
  rw [report_eq_report_iff, hpartitions, hopens.partitions, Nat.add_left_cancel_iff]
  refine and_congr_right fun hlength ↦ ⟨fun hshown i ha hb ↦ ?_, fun hshown hreadable ↦ ?_⟩
  · have hreadable : B.readable = true := by
      by_contra hnot
      rw [Disk.logical.eq_1 B, if_neg hnot] at hb
      exact Nat.not_lt_zero i hb
    rw [← hlogical i ha, ← hopens.logical i hb]
    exact hshown hreadable (4 + i) (Nat.add_lt_add_left ha 4)
  · refine shown_eq_of_primary_of_logical _ (fun i ↦ ?_) fun i hi ↦ ?_
    · rw [hprimary hreadable, hopens.primary hreadable]
    · rw [hlogical i hi, hopens.logical i (hlength ▸ hi)]
      exact hshown i hi (hlength ▸ hi)

theorem historyFree_iff_of_logical (hfuel : 13 ≤ fuel) (hA : A.logical ≠ []) :
    HistoryFree fuel A B ↔
      A.logical.map BootRecord.shown = B.logical.map BootRecord.shown := by
  constructor
  · intro hfree
    have hleft (left : BitVec 32) := (report_eq_iff_of_logical
      (show (newWith left).partitions = 4 from rfl) rfl hfuel hA).mp (hfree _ _ false)
    refine List.ext_getElem (by simp only [List.length_map, (hleft 0).1]) fun i ha hb ↦ ?_
    rw [List.length_map] at ha hb
    simp only [List.getElem_map]
    exact (shown_entry_eq_iff _ _).mp fun left ↦ (hleft left).2 i ha hb
  · intro hshown mbrBuffer ptes closing
    have hlength : A.logical.length = B.logical.length := by
      simpa only [List.length_map] using congrArg List.length hshown
    refine (report_eq_iff_of_logical rfl rfl hfuel hA).mpr ⟨hlength, fun i ha hb ↦ ?_⟩
    have hone := List.getElem_of_eq hshown (by rwa [List.length_map])
    simp only [List.getElem_map] at hone
    exact (shown_entry_eq_iff _ _).mpr hone _

/-- A disk without partitions. -/
def blankDisk : Disk where
  fd := 3
  mbrReads := true
  mbr _ := clearedPartition
  boot _ _ _ := clearedPartition

end Katmai.Hdllio
