import Katmai.FileServer.Registration
import Katmai.StreamioV3.DiskCache
import Mathlib.Algebra.BigOperators.Intervals
import Mathlib.Data.Finset.Prod

/-!
# The counter of open files

`stb_opend_file` is raised by `stbtbl_setfile` and lowered by `stbtbl_setfile`, `stbtbl_read`,
`stbtbl_stop` and `stbtbl_close_all`, under a different test each time. It is meant to be the number
of open files that have not been read to the end (`openCount`). `TableEvent` has the operations that
touch it, with arbitrary arguments, and `stbOpendFile_eq_openCount` says that the counter is right
after every sequence of operations in which no read meets the end of a file that has been read to
the end before, and no registration takes an entry that has an open file. Both can happen:
`counter_wraps` is a client that reads on after the end of its file, which takes the counter below
zero.
-/

set_option autoImplicit false
set_option relaxedAutoImplicit false

namespace Katmai.StreamioV3

open FileServer Foundation

/-! ### The operations -/

/-- What `stbtbl_close_all` does for one channel of an entry. -/
def StbChannel.close (ch : StbChannel) : StbChannel :=
  if ch.fd.isSome then { ch with fd := none, filecount := 0, filestatus := .closed } else ch

namespace StbTable

/-- `stbtbl_stop`. -/
def stbtblStop (t : StbTable) (n channel : ℕ) : StbTable :=
  if n < t.count then
    let ch := (t.stbent n).channel channel
    { t.setChannel n channel ch.stop with
      stbOpendFile := t.stbOpendFile - oneIf ch.countsAsOpen }
  else t

/-- The body of the loops of `stbtbl_close_all`. -/
def closeOne (t : StbTable) (cell : ℕ × ℕ) : StbTable :=
  let ch := (t.stbent cell.1).channel cell.2
  { t.setChannel cell.1 cell.2 ch.close with
    stbOpendFile := t.stbOpendFile - oneIf ch.countsAsOpen }

/-- The entries and channels, in the order of the loops of `stbtbl_close_all`. -/
def cells (t : StbTable) : List (ℕ × ℕ) :=
  (List.range t.count).flatMap fun i ↦ (List.range maxStiov3Channel).map fun j ↦ (i, j)

/-- `stbtbl_close_all`, once the queues are empty. -/
def stbtblCloseAll (t : StbTable) : StbTable :=
  t.cells.foldl closeOne t

end StbTable

/-- A call of one of the operations of the table. -/
inductive TableEvent
  | regist (addr : ℕ) (u : ℤ)
  | setfile (n channel : ℕ) (lookup : Lookup) (cnt : ℕ) (stbid : ℤ)
  | setrequest (n channel : ℕ) (block : ℤ) (map : ℕ → UInt8) (qos : ℤ)
  | read (n channel : ℕ) (short : ℕ → ℕ)
  | stop (n channel : ℕ)
  | closeAll

/-- The machine of these calls. A channel is one of the channels of an entry. -/
def tableStep (t : StbTable) : TableEvent → Option StbTable
  | .regist addr u => some (t.stbtblRegist addr u).2
  | .setfile n channel lookup cnt stbid =>
    if channel < maxStiov3Channel then some (t.stbtblSetfile n channel lookup cnt stbid).2
    else none
  | .setrequest n channel block map qos =>
    if channel < maxStiov3Channel then some (t.stbtblSetrequest n channel block map qos) else none
  | .read n channel short =>
    if channel < maxStiov3Channel then some (t.stbtblRead n channel short).2 else none
  | .stop n channel => if channel < maxStiov3Channel then some (t.stbtblStop n channel) else none
  | .closeAll => some t.stbtblCloseAll

/-! ### The number of open files -/

/-- The entries and channels with an open file that has not been read to the end. -/
def openCells (t : StbTable) : Finset (ℕ × ℕ) :=
  (Finset.range t.count ×ˢ Finset.range maxStiov3Channel).filter fun cell ↦
    ((t.stbent cell.1).channel cell.2).countsAsOpen

/-- Their number. -/
def openCount (t : StbTable) : ℕ :=
  (openCells t).card

/-- The counter is right. -/
def Counted (t : StbTable) : Prop :=
  t.stbOpendFile = UInt32.ofNat (openCount t)

theorem openCount_eq_sum (t : StbTable) :
    openCount t = ∑ cell ∈ Finset.range t.count ×ˢ Finset.range maxStiov3Channel,
      ((t.stbent cell.1).channel cell.2).countsAsOpen.toNat := by
  unfold openCount openCells
  rw [Finset.card_filter]
  refine Finset.sum_congr rfl fun cell _ ↦ ?_
  cases ((t.stbent cell.1).channel cell.2).countsAsOpen <;> rfl

/-- Replacing one channel changes the number by the difference of the two. -/
theorem openCount_setChannel (t : StbTable) {n channel : ℕ} (hn : n < t.count)
    (hchannel : channel < maxStiov3Channel) (ch : StbChannel) :
    openCount (t.setChannel n channel ch) + ((t.stbent n).channel channel).countsAsOpen.toNat =
      openCount t + ch.countsAsOpen.toNat := by
  have hmem : (n, channel) ∈ Finset.range t.count ×ˢ Finset.range maxStiov3Channel :=
    Finset.mem_product.mpr ⟨Finset.mem_range.mpr hn, Finset.mem_range.mpr hchannel⟩
  have hnew : ∀ cell : ℕ × ℕ,
      (((t.setChannel n channel ch).stbent cell.1).channel cell.2).countsAsOpen.toNat =
        Function.update (fun cell : ℕ × ℕ ↦
          ((t.stbent cell.1).channel cell.2).countsAsOpen.toNat) (n, channel)
          ch.countsAsOpen.toNat cell := by
    intro cell
    rw [channel_setChannel]
    by_cases hcell : cell = (n, channel)
    · subst hcell
      rw [if_pos ⟨rfl, rfl⟩, Function.update_self]
    · rw [if_neg fun h ↦ hcell (Prod.ext h.1 h.2), Function.update_of_ne hcell]
  have hsum := Finset.add_sum_erase _
    (fun cell : ℕ × ℕ ↦ ((t.stbent cell.1).channel cell.2).countsAsOpen.toNat) hmem
  rw [openCount_eq_sum, openCount_eq_sum]
  change ∑ cell ∈ Finset.range t.count ×ˢ Finset.range maxStiov3Channel, _ + _ = _
  rw [Finset.sum_congr rfl fun cell _ ↦ hnew cell, Finset.sum_update_of_mem hmem,
    Finset.sdiff_singleton_eq_erase, ← hsum]
  dsimp only
  omega

theorem oneIf_eq (b : Bool) : StbTable.oneIf b = UInt32.ofNat b.toNat := by
  cases b <;> rfl

/-- A channel is replaced, and the counter is lowered for the old one and raised for the new one. -/
theorem Counted.setChannel {t : StbTable} (ht : Counted t) {n channel : ℕ} (hn : n < t.count)
    (hchannel : channel < maxStiov3Channel) (ch : StbChannel) {counter : UInt32}
    (hcounter : counter = t.stbOpendFile -
      StbTable.oneIf ((t.stbent n).channel channel).countsAsOpen + StbTable.oneIf ch.countsAsOpen)
    (all : UInt32) :
    Counted { t.setChannel n channel ch with stbOpendFile := counter, stbOpendFileAll := all } := by
  have hcount := congrArg UInt32.ofNat (openCount_setChannel t hn hchannel ch)
  rw [UInt32.ofNat_add, UInt32.ofNat_add, ← oneIf_eq, ← oneIf_eq, ← ht] at hcount
  change counter = UInt32.ofNat (openCount (t.setChannel n channel ch))
  rw [hcounter]
  grind

/-! ### Every operation keeps the counter right -/

section Operations

variable {t : StbTable} {n channel : ℕ}

/-- A file that is opened counts. -/
theorem countsAsOpen_setfile {ch : StbChannel} {lookup : Lookup} {cnt : ℕ} {stbid : ℤ}
    (hnew : ¬(ch.stbid = stbid ∧ cnt ≤ ch.filecount)) :
    (ch.setfile lookup cnt stbid).2.countsAsOpen = (ch.setfile lookup cnt stbid).2.fd.isSome := by
  have hsame : ¬(ch.stbid = stbid ∧ ch.filecount = cnt) := fun h ↦ hnew ⟨h.1, h.2.ge⟩
  have hold : ¬(ch.stbid = stbid ∧ ch.filecount > cnt) := fun h ↦ hnew ⟨h.1, h.2.le⟩
  unfold StbChannel.setfile
  rw [if_neg hsame, if_neg hold]
  cases lookup <;> rfl

/-- `stbtbl_setfile`: the file that was open is no longer counted, and the new one is. -/
theorem Counted.stbtblSetfile (ht : Counted t) (hchannel : channel < maxStiov3Channel)
    (lookup : Lookup) (cnt : ℕ) (stbid : ℤ) :
    Counted (t.stbtblSetfile n channel lookup cnt stbid).2 := by
  unfold StbTable.stbtblSetfile
  split_ifs with hn
  · dsimp only
    split_ifs with hnew
    · exact ht
    · refine ht.setChannel hn hchannel _ ?_ _
      rw [countsAsOpen_setfile hnew]
  · exact ht

/-- `stbtbl_setrequest` opens and closes nothing. -/
theorem Counted.stbtblSetrequest (ht : Counted t) (hchannel : channel < maxStiov3Channel)
    (block : ℤ) (map : ℕ → UInt8) (qos : ℤ) :
    Counted (t.stbtblSetrequest n channel block map qos) := by
  unfold StbTable.stbtblSetrequest
  split_ifs with hn
  · refine ht.setChannel hn hchannel _ ?_ t.stbOpendFileAll
    exact (UInt32.sub_add_cancel _ _).symm
  · exact ht

/-- Whether a read meets the end of the file does not depend on how it is cut up. -/
theorem readMeetsEnd_of_fd {ch : StbChannel} {fd : OpenFile} (hfd : ch.fd = some fd) :
    ch.readMeetsEnd = (decide (ch.rdkioBlock ≠ ch.cdkioBlock) &&
      decide ((if ch.rdkioBlock ≠ ch.cdkioBlock + 1 then fd.lseek ch.seekOffset else fd).left <
        bestDiskioBufferSize)) := by
  unfold StbChannel.readMeetsEnd
  rw [hfd]
  dsimp only
  rw [readFull_spec]

/-- A read counts a file as ended if it meets the end. -/
theorem countsAsOpen_read (ch : StbChannel) (short : ℕ → ℕ) :
    (ch.read short).countsAsOpen = (ch.countsAsOpen && !ch.readMeetsEnd) := by
  cases hfd : ch.fd with
  | none =>
    have hclosed : ch.countsAsOpen = false := by
      unfold StbChannel.countsAsOpen
      rw [hfd, Option.isSome_none, Bool.false_and]
    have hread : (ch.read short).fd = none := by
      unfold StbChannel.read
      split_ifs
      · unfold StbChannel.readBlock
        rw [hfd]
      · exact hfd
    rw [hclosed, Bool.false_and]
    unfold StbChannel.countsAsOpen
    rw [hread, Option.isSome_none, Bool.false_and]
  | some fd =>
    rw [readMeetsEnd_of_fd hfd]
    unfold StbChannel.read
    by_cases hblock : ch.rdkioBlock ≠ ch.cdkioBlock
    · rw [if_pos hblock, decide_eq_true hblock, Bool.true_and]
      unfold StbChannel.readBlock StbChannel.countsAsOpen
      rw [hfd]
      dsimp only
      rw [readFull_spec]
      dsimp only
      rw [Option.isSome_some, Option.isSome_some, Bool.true_and, Bool.true_and]
      generalize decide ((if ch.rdkioBlock ≠ ch.cdkioBlock + 1 then fd.lseek ch.seekOffset
        else fd).left < bestDiskioBufferSize) = meets
      cases meets
      · exact (Bool.and_true _).symm
      · exact (Bool.and_false _).symm
    · rw [if_neg hblock, decide_eq_false hblock, Bool.false_and, Bool.not_false, Bool.and_true]

/-- A file whose end is met is open. -/
theorem isSome_of_readMeetsEnd {ch : StbChannel} (hend : ch.readMeetsEnd = true) :
    ch.fd.isSome = true := by
  unfold StbChannel.readMeetsEnd at hend
  cases hfd : ch.fd with
  | none =>
    rw [hfd] at hend
    exact absurd hend Bool.false_ne_true
  | some fd => rfl

/-- `stbtbl_read` keeps the counter right unless it meets an end that was met before. -/
theorem Counted.stbtblRead (ht : Counted t) (hchannel : channel < maxStiov3Channel)
    (hend : ((t.stbent n).channel channel).readMeetsEnd = true →
      ((t.stbent n).channel channel).filestatus ≠ .ended) (short : ℕ → ℕ) :
    Counted (t.stbtblRead n channel short).2 := by
  unfold StbTable.stbtblRead
  split_ifs with hn
  · refine ht.setChannel hn hchannel _ ?_ t.stbOpendFileAll
    rw [countsAsOpen_read]
    cases hmeets : ((t.stbent n).channel channel).readMeetsEnd with
    | false =>
      rw [Bool.not_false, Bool.and_true, UInt32.sub_add_cancel]
      exact UInt32.sub_zero _
    | true =>
      have hopen : ((t.stbent n).channel channel).countsAsOpen = true := by
        unfold StbChannel.countsAsOpen
        rw [isSome_of_readMeetsEnd hmeets, Bool.true_and, bne_iff_ne]
        exact hend hmeets
      rw [hopen]
      exact (UInt32.add_zero _).symm
  · exact ht

/-- A file that is closed is counted no longer. -/
theorem Counted.uncount (ht : Counted t) (hn : n < t.count) (hchannel : channel < maxStiov3Channel)
    {ch : StbChannel} (hclosed : ch.countsAsOpen = false) :
    Counted { t.setChannel n channel ch with
      stbOpendFile := t.stbOpendFile -
        StbTable.oneIf ((t.stbent n).channel channel).countsAsOpen } := by
  refine ht.setChannel hn hchannel ch ?_ t.stbOpendFileAll
  rw [hclosed]
  exact (UInt32.add_zero _).symm

theorem countsAsOpen_stop (ch : StbChannel) : ch.stop.countsAsOpen = false := by
  unfold StbChannel.stop StbChannel.countsAsOpen
  split_ifs with hfd
  · rfl
  · simp [hfd]

theorem countsAsOpen_close (ch : StbChannel) : ch.close.countsAsOpen = false := by
  unfold StbChannel.close StbChannel.countsAsOpen
  split_ifs with hfd
  · rfl
  · simp [hfd]

/-- `stbtbl_stop` counts the file no longer. -/
theorem Counted.stbtblStop (ht : Counted t) (hchannel : channel < maxStiov3Channel) :
    Counted (t.stbtblStop n channel) := by
  unfold StbTable.stbtblStop
  split_ifs with hn
  · exact ht.uncount hn hchannel (countsAsOpen_stop _)
  · exact ht

/-- `stbtbl_close_all` counts one file after the other no longer. -/
theorem Counted.foldl_closeOne (cells : List (ℕ × ℕ)) (ht : Counted t)
    (hcells : ∀ cell ∈ cells, cell.1 < t.count ∧ cell.2 < maxStiov3Channel) :
    Counted (cells.foldl StbTable.closeOne t) := by
  induction cells generalizing t with
  | nil => exact ht
  | cons cell rest ih =>
    have hcell := hcells cell List.mem_cons_self
    refine ih ?_ fun other hother ↦ hcells other (List.mem_cons_of_mem cell hother)
    exact ht.uncount hcell.1 hcell.2 (countsAsOpen_close _)

theorem Counted.stbtblCloseAll (ht : Counted t) : Counted t.stbtblCloseAll := by
  refine ht.foldl_closeOne t.cells fun cell hcell ↦ ?_
  simp only [StbTable.cells, List.mem_flatMap, List.mem_map, List.mem_range] at hcell
  obtain ⟨i, hi, j, hj, rfl⟩ := hcell
  exact ⟨hi, hj⟩

/-- Only what is counted matters. -/
theorem Counted.congr {t' : StbTable} (ht : Counted t) (hcount : t'.count = t.count)
    (hopen : ∀ i, ∀ j < maxStiov3Channel,
      ((t'.stbent i).channel j).countsAsOpen = ((t.stbent i).channel j).countsAsOpen)
    (hcounter : t'.stbOpendFile = t.stbOpendFile) : Counted t' := by
  have hcells : openCells t' = openCells t := by
    unfold openCells
    rw [hcount]
    refine Finset.filter_congr fun cell hcell ↦ ?_
    rw [hopen cell.1 cell.2 (Finset.mem_range.mp (Finset.mem_product.mp hcell).2)]
  rw [Counted, hcounter, ht, openCount, openCount, hcells]

/-- `stbtbl_regist` keeps the counter right unless it takes an entry with an open file. -/
theorem Counted.stbtblRegist (ht : Counted t) {addr : ℕ}
    (hfresh : ∀ f < t.count, registSlot t.count (entrySlots t) addr = some f →
      entrySlots t f = none →
      ∀ j < maxStiov3Channel, ((t.stbent f).channel j).countsAsOpen = false) (u : ℤ) :
    Counted (t.stbtblRegist addr u).2 := by
  rcases stbtblRegist_cases t addr u with ⟨i, -, -, heq⟩ | ⟨f, hslot, hfree, heq⟩ | ⟨-, heq⟩
  · rw [heq]
    refine ht.congr rfl (fun k j _ ↦ ?_) rfl
    by_cases hki : k = i
    · subst hki
      simp
    · simp [Function.update_of_ne hki]
  · rw [heq]
    refine ht.congr rfl (fun k j hj ↦ ?_) rfl
    by_cases hkf : k = f
    · subst hkf
      rw [hfresh k (registSlot_eq_some hslot).1 hslot hfree j hj]
      simp [takenEntry, StbChannel.countsAsOpen]
    · simp [Function.update_of_ne hkf]
  · rw [heq]
    exact ht

end Operations

/-! ### Sequences of operations -/

/-- No read meets the end of a file that was read to the end before, and no registration takes a
free entry that has an open file. -/
def KeepsCount (t : StbTable) : TableEvent → Prop
  | .regist addr _ => ∀ f < t.count, registSlot t.count (entrySlots t) addr = some f →
      entrySlots t f = none →
      ∀ j < maxStiov3Channel, ((t.stbent f).channel j).countsAsOpen = false
  | .read n channel _ => ((t.stbent n).channel channel).readMeetsEnd = true →
      ((t.stbent n).channel channel).filestatus ≠ .ended
  | _ => True

/-- Whether an operation keeps the count can be computed. -/
instance decidableKeepsCount (t : StbTable) : ∀ event, Decidable (KeepsCount t event)
  | .regist _ _ => inferInstanceAs (Decidable (∀ f < t.count, _ → _ → ∀ j < _, _ = _))
  | .read _ _ _ => inferInstanceAs (Decidable (_ → _ ≠ _))
  | .setfile _ _ _ _ _ => .isTrue trivial
  | .setrequest _ _ _ _ _ => .isTrue trivial
  | .stop _ _ => .isTrue trivial
  | .closeAll => .isTrue trivial

/-- One operation keeps the counter right. -/
theorem counted_tableStep {t t' : StbTable} {event : TableEvent} (ht : Counted t)
    (hgood : KeepsCount t event) (hstep : tableStep t event = some t') : Counted t' := by
  cases event with
  | regist addr u =>
    obtain rfl := Option.some.inj hstep
    exact ht.stbtblRegist hgood u
  | setfile n channel lookup cnt stbid =>
    obtain ⟨hchannel, ⟨⟩⟩ := Option.ite_none_right_eq_some.mp hstep
    exact ht.stbtblSetfile hchannel lookup cnt stbid
  | setrequest n channel block map qos =>
    obtain ⟨hchannel, ⟨⟩⟩ := Option.ite_none_right_eq_some.mp hstep
    exact ht.stbtblSetrequest hchannel block map qos
  | read n channel short =>
    obtain ⟨hchannel, ⟨⟩⟩ := Option.ite_none_right_eq_some.mp hstep
    exact ht.stbtblRead hchannel hgood short
  | stop n channel =>
    obtain ⟨hchannel, ⟨⟩⟩ := Option.ite_none_right_eq_some.mp hstep
    exact ht.stbtblStop hchannel
  | closeAll =>
    obtain rfl := Option.some.inj hstep
    exact ht.stbtblCloseAll

theorem counted_newStbtable (n : ℕ) : Counted (newStbtable n) := by
  have hnone : openCells (newStbtable n) = ∅ :=
    Finset.filter_eq_empty_iff.mpr fun _ _ ↦ Bool.false_ne_true
  rw [Counted, openCount, hnone]
  rfl

/-- A table has at most five open files for each entry. -/
theorem openCount_le (t : StbTable) : openCount t ≤ t.count * maxStiov3Channel := by
  refine (Finset.card_filter_le _ _).trans ?_
  rw [Finset.card_product, Finset.card_range, Finset.card_range]

theorem foldl_closeOne_count (cells : List (ℕ × ℕ)) (t : StbTable) :
    (cells.foldl StbTable.closeOne t).count = t.count := by
  induction cells generalizing t with
  | nil => rfl
  | cons cell rest ih => exact ih (t.closeOne cell)

/-- The number of entries is fixed. -/
theorem tableStep_count {t t' : StbTable} {event : TableEvent}
    (hstep : tableStep t event = some t') : t'.count = t.count := by
  cases event with
  | regist addr u =>
    obtain rfl := Option.some.inj hstep
    exact stbtblRegist_count t addr u
  | setfile n channel lookup cnt stbid =>
    obtain ⟨-, ⟨⟩⟩ := Option.ite_none_right_eq_some.mp hstep
    unfold StbTable.stbtblSetfile
    dsimp only
    split_ifs <;> rfl
  | setrequest n channel block map qos =>
    obtain ⟨-, ⟨⟩⟩ := Option.ite_none_right_eq_some.mp hstep
    unfold StbTable.stbtblSetrequest
    split_ifs <;> rfl
  | read n channel short =>
    obtain ⟨-, ⟨⟩⟩ := Option.ite_none_right_eq_some.mp hstep
    unfold StbTable.stbtblRead
    split_ifs <;> rfl
  | stop n channel =>
    obtain ⟨-, ⟨⟩⟩ := Option.ite_none_right_eq_some.mp hstep
    unfold StbTable.stbtblStop
    split_ifs <;> rfl
  | closeAll =>
    obtain rfl := Option.some.inj hstep
    exact foldl_closeOne_count t.cells t

/-- The counter is the number of open files that have not been read to the end, after every sequence
of operations that keep the count. -/
theorem stbOpendFile_eq_openCount (n : ℕ) (events : List TableEvent) (t : StbTable)
    (hgood : Meets tableStep KeepsCount (newStbtable n) events)
    (hrun : run tableStep (newStbtable n) events = some t) :
    t.stbOpendFile = UInt32.ofNat (openCount t) ∧
      (n * maxStiov3Channel < 2 ^ 32 → t.stbOpendFile.toNat = openCount t) := by
  have hcounted : Counted t :=
    run_invariant_of_meets (fun _ _ _ ht hgood hstep ↦ counted_tableStep ht hgood hstep)
      (counted_newStbtable n) hgood hrun
  have hcount : t.count = n :=
    @run_invariant _ _ tableStep (fun t ↦ t.count = n)
      (fun _ _ _ ht hstep ↦ (tableStep_count hstep).trans ht) _ _ _ rfl hrun
  refine ⟨hcounted, fun hfits ↦ ?_⟩
  have hle := openCount_le t
  rw [hcount] at hle
  rw [hcounted, UInt32.toNat_ofNat_of_lt' (hle.trans_lt hfits)]

/-- A file of seven bytes. -/
def sevenBytes : RegularFile where
  size := 7
  size_lt := by decide
  byte := fun _ ↦ 0

/-- A client opens two files and reads one of them to the end. -/
def readToEnd : List TableEvent :=
  [.regist 10 0, .setfile 0 0 (.found sevenBytes 0) 1 42, .setfile 0 1 (.found sevenBytes 0) 1 42,
    .setrequest 0 0 0 (fun _ ↦ 1) 0, .read 0 0 fun _ ↦ 0]

theorem stbOpendFile_eq_openCount_readToEnd :
    ∃ t, run tableStep (newStbtable 2) readToEnd = some t ∧ t.stbOpendFile = 1 ∧
      t.stbOpendFile = UInt32.ofNat (openCount t) := by
  have hlast : (run tableStep (newStbtable 2) readToEnd).map (·.stbOpendFile) = some 1 := by
    decide +kernel
  obtain ⟨t, hrun, hone⟩ := Option.map_eq_some_iff.mp hlast
  refine ⟨t, hrun, hone, ?_⟩
  exact (stbOpendFile_eq_openCount 2 readToEnd t (by decide +kernel) hrun).1

/-- The client stops the other file and asks for the block after the end: the end is met again, and
the counter wraps. -/
theorem counter_wraps :
    ∃ t, run tableStep (newStbtable 2)
        (readToEnd ++ [.stop 0 1, .setrequest 0 0 32 (fun _ ↦ 1) 0, .read 0 0 fun _ ↦ 0]) = some t ∧
      t.stbOpendFile = 4294967295 ∧ openCount t = 0 := by
  have hlast : (run tableStep (newStbtable 2)
      (readToEnd ++ [.stop 0 1, .setrequest 0 0 32 (fun _ ↦ 1) 0, .read 0 0 fun _ ↦ 0])).map
        (fun t ↦ (t.stbOpendFile, openCount t)) = some (4294967295, 0) := by
    decide +kernel
  obtain ⟨t, hrun, hcount⟩ := Option.map_eq_some_iff.mp hlast
  exact ⟨t, hrun, congrArg Prod.fst hcount, congrArg Prod.snd hcount⟩

end Katmai.StreamioV3
