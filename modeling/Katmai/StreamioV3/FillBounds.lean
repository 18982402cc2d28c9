import Katmai.StreamioV3.ServicePass

/-!
# The bytes that `stbtbl_fill` copies

A network block is 32768 bytes of the buffer of 1 MiB, and its packets cover 23 times 1425 bytes,
seven more. `stbtbl_fill` gives a packet the full length whenever the whole disk block has that many
packets, so that the last packet of a network block takes seven bytes of the next one, and the last
packet of the last network block seven bytes that are behind the buffer.

`fillCopies` are the copies that a sequence of calls makes. `fill_within_iff` says that after a read
of a block of the file they stay in the buffer exactly when the block is not the last of its disk
block or its last packet is not wanted.
-/

set_option autoImplicit false
set_option relaxedAutoImplicit false

namespace Katmai.StreamioV3

open Foundation StbTable StbChannel

/-- A `memcpy` of `len` bytes of the buffer of a channel from `offset` on. -/
structure BufferCopy where
  offset : ℤ
  len : ℕ
  deriving DecidableEq, Repr

/-- The bytes are in the buffer. -/
def BufferCopy.Within (copy : BufferCopy) : Prop :=
  0 ≤ copy.offset ∧ copy.offset + copy.len ≤ bestDiskioBufferSize

/-- The copy of packet `i`. -/
def StbChannel.packetCopy (ch : StbChannel) (i : ℕ) : BufferCopy :=
  ⟨32768 * ch.netioBlock + packetSize * i, ch.packetLen i⟩

/-- The `memcpy` of a call of `stbtbl_fill`, if it makes one. -/
def StbChannel.fillCopy (ch : StbChannel) (mapflag : Bool) : Option BufferCopy :=
  match ch.nextWanted (if mapflag then 0 else ch.mapi + 1) with
  | some i => if ch.packetLen i = 0 then none else some (ch.packetCopy i)
  | none => none

/-- The copies of a sequence of calls. -/
def StbChannel.fillCopies : List Bool → StbChannel → List BufferCopy
  | [], _ => []
  | mapflag :: rest, ch => (ch.fillCopy mapflag).toList ++ fillCopies rest (ch.fill mapflag).2

variable {ch : StbChannel}

/-! ### Single calls -/

/-- What a call hands out are the bytes that it copies. -/
theorem fill_of_fillCopy {mapflag : Bool} {copy : BufferCopy} (hnetio : 0 ≤ ch.netioBlock)
    (hcopy : ch.fillCopy mapflag = some copy) :
    (ch.fill mapflag).1.rc = copy.len ∧
      ∀ j, (ch.fill mapflag).1.data j = ch.buffer (copy.offset.toNat + j) := by
  unfold fillCopy at hcopy
  unfold StbChannel.fill
  dsimp only
  cases hnext : ch.nextWanted (if mapflag then 0 else ch.mapi + 1) with
  | none =>
    rw [hnext] at hcopy
    exact absurd hcopy.symm (Option.some_ne_none _)
  | some i =>
    simp only [hnext] at hcopy
    split_ifs at hcopy with hzero
    rw [Option.some_inj] at hcopy
    subst hcopy
    refine ⟨if_neg hzero, fun j ↦ ?_⟩
    have hplace : (32768 * ch.netioBlock).toNat + packetSize * i =
        (32768 * ch.netioBlock + packetSize * i : ℤ).toNat := by omega
    simp only [packetData, packetCopy, hplace]

/-- A call with a packet to send goes on behind it. -/
theorem fill_of_nextWanted {mapflag : Bool} {i : ℕ}
    (hnext : ch.nextWanted (if mapflag then 0 else ch.mapi + 1) = some i) :
    (ch.fill mapflag).2 = { ch with mapi := i } := by
  unfold StbChannel.fill
  simp only [hnext]

/-- A call changes nothing but the place in the map. -/
theorem exists_mapi_fill (ch : StbChannel) (mapflag : Bool) :
    ∃ mapi, (ch.fill mapflag).2 = { ch with mapi := mapi } := by
  unfold StbChannel.fill
  dsimp only
  cases ch.nextWanted (if mapflag then 0 else ch.mapi + 1) with
  | none => exact ⟨_, rfl⟩
  | some i => exact ⟨i, rfl⟩

/-! ### Sequences of calls -/

/-- The copies are copies of wanted packets. -/
theorem exists_packetCopy_of_mem {flags : List Bool} {copy : BufferCopy}
    (hmem : copy ∈ fillCopies flags ch) :
    ∃ i < packetCount, ch.map i ≠ 0 ∧ copy = ch.packetCopy i := by
  induction flags generalizing ch with
  | nil => exact absurd hmem List.not_mem_nil
  | cons mapflag rest ih =>
    rcases List.mem_append.mp hmem with hfirst | hlater
    · have hcopy : ch.fillCopy mapflag = some copy := Option.mem_toList.mp hfirst
      unfold fillCopy at hcopy
      cases hnext : ch.nextWanted (if mapflag then 0 else ch.mapi + 1) with
      | none =>
        rw [hnext] at hcopy
        exact absurd hcopy.symm (Option.some_ne_none _)
      | some i =>
        simp only [hnext] at hcopy
        split_ifs at hcopy
        have hmap := List.find?_some hnext
        exact ⟨i, (wanted_of_nextWanted hnext).2.1, of_decide_eq_true hmap,
          (Option.some_inj.mp hcopy).symm⟩
    · obtain ⟨mapi, hfill⟩ := exists_mapi_fill ch mapflag
      rw [hfill] at hlater
      obtain ⟨i, hi, hmap, heq⟩ := ih hlater
      exact ⟨i, hi, hmap, heq⟩

/-- A wanted packet that is not empty is copied, when calls go on for long enough. -/
theorem exists_flags_of_wanted {i : ℕ} (hi : i < packetCount) (hmap : ch.map i ≠ 0)
    (hlen : ch.packetLen i ≠ 0) (mapflag : Bool)
    (hstart : (if mapflag then 0 else ch.mapi + 1) ≤ i) :
    ∃ flags, ch.packetCopy i ∈ fillCopies (mapflag :: flags) ch := by
  induction hgap : i - (if mapflag then 0 else ch.mapi + 1) using Nat.strong_induction_on
    generalizing ch mapflag with
  | _ gap ih =>
    have hmem : i ∈ wanted ch.map (if mapflag then 0 else ch.mapi + 1) := by
      refine List.mem_filter.mpr ⟨List.mem_range'_1.mpr ⟨hstart, ?_⟩, decide_eq_true hmap⟩
      omega
    cases hnext : ch.nextWanted (if mapflag then 0 else ch.mapi + 1) with
    | none =>
      rw [wanted_of_nextWanted_none hnext] at hmem
      exact absurd hmem List.not_mem_nil
    | some k =>
      obtain ⟨hle, -, hwanted⟩ := wanted_of_nextWanted hnext
      rw [hwanted] at hmem
      rcases List.mem_cons.mp hmem with rfl | hbehind
      · -- the call comes to the packet
        refine ⟨[], List.mem_append_left _ (Option.mem_toList.mpr ?_)⟩
        unfold fillCopy
        simp only [hnext]
        exact if_neg hlen
      · -- it comes to an earlier one
        have hlt : k + 1 ≤ i := (List.mem_range'_1.mp (List.mem_filter.mp hbehind).1).1
        obtain ⟨flags, hflags⟩ :=
          @ih (i - (k + 1)) (by omega) { ch with mapi := k } hmap hlen false hlt rfl
        refine ⟨false :: flags, List.mem_append_right _ ?_⟩
        rw [fill_of_nextWanted hnext]
        exact hflags

/-! ### Within the buffer -/

/-- The last packet of the last network block of a full disk block runs past the buffer, and no
other. -/
theorem packetCopy_within_iff {block i : ℕ} (hnetio : ch.netioBlock = ((block % 32 : ℕ) : ℤ))
    (hlong : block % 32 = 31 → packetSize * packetCount ≤ ch.buflen) (hi : i < packetCount) :
    (ch.packetCopy i).Within ↔ ¬ (block % 32 = 31 ∧ i = 22) := by
  have hdisk : bestDiskioBufferSize = 1048576 := rfl
  have hsize : packetSize = 1425 := rfl
  have hcount : packetCount = 23 := rfl
  have hle := packetLen_le ch i
  have hlast : block % 32 = 31 → ch.packetLen i = packetSize := by
    intro hblock
    have hlong' := hlong hblock
    unfold packetLen
    rw [hsize] at hlong' ⊢
    rw [if_pos (by omega)]
  unfold BufferCopy.Within packetCopy
  rw [hnetio, hdisk, hsize]
  rw [hsize] at hle hlast
  rw [hcount] at hi
  dsimp only
  constructor
  · rintro ⟨-, hin⟩ ⟨hblock, rfl⟩
    rw [hlast hblock] at hin
    omega
  · intro hnot
    refine ⟨by omega, ?_⟩
    rcases Nat.lt_or_ge (block % 32) 31 with hlt | hge
    · omega
    · have hlt : i < 22 := by
        have hne : i ≠ 22 := fun h ↦ hnot ⟨by omega, h⟩
        omega
      omega

/-- The copies of all sequences of calls stay in the buffer exactly when that packet is not
wanted. -/
theorem fillCopies_within_iff {block : ℕ} (hnetio : ch.netioBlock = ((block % 32 : ℕ) : ℤ))
    (hlong : block % 32 = 31 → packetSize * packetCount ≤ ch.buflen) :
    (∀ flags, ∀ copy ∈ fillCopies flags ch, copy.Within) ↔
      ¬ (block % 32 = 31 ∧ ch.map 22 ≠ 0) := by
  constructor
  · rintro hwithin ⟨hblock, hmap⟩
    have hlen : ch.packetLen 22 ≠ 0 := by
      have hlong' := hlong hblock
      have hsize : packetSize = 1425 := rfl
      have hcount : packetCount = 23 := rfl
      unfold packetLen
      rw [hsize, hcount] at hlong'
      rw [hsize, if_pos (by omega)]
      decide
    obtain ⟨flags, hmem⟩ := exists_flags_of_wanted (by decide) hmap hlen true (Nat.zero_le 22)
    exact (packetCopy_within_iff hnetio hlong (by decide)).mp (hwithin _ _ hmem) ⟨hblock, rfl⟩
  · intro hnot flags copy hmem
    obtain ⟨i, hi, hmap, rfl⟩ := exists_packetCopy_of_mem hmem
    refine (packetCopy_within_iff hnetio hlong hi).mpr ?_
    rintro ⟨hblock, rfl⟩
    exact hnot ⟨hblock, hmap⟩

/-- After a read of a block of the open file, the buffer has 23 full packets if the block is the
last of its disk block. -/
theorem exists_block_of_run_read {count : ℕ} {events : List StbEvent} {n channel : ℕ}
    {short : ℕ → ℕ} {t : StbTable}
    (hrun : run stbStep (newStbtable count) (events ++ [.read n channel short]) = some t)
    (hblock : ((t.stbent n).channel channel).requestBlock <
      ((t.stbent n).channel channel).blockcnt) :
    ∃ block : ℕ, ((t.stbent n).channel channel).requestBlock = block ∧
      ((t.stbent n).channel channel).netioBlock = ((block % 32 : ℕ) : ℤ) ∧
      (block % 32 = 31 → packetSize * packetCount ≤ ((t.stbent n).channel channel).buflen) := by
  obtain ⟨ch, hch, hopen, hafter⟩ := channel_of_run_read hrun
  obtain ⟨fd, hfd⟩ := Option.isSome_iff_exists.mp hopen
  obtain ⟨block, -, hrequest⟩ := hch.request
  obtain ⟨fd', -, -, -, -, hholds⟩ := read_spec hch hfd hrequest.rdkioBlock_eq short
  have hsame := sameRequest_read ch short
  rw [hafter] at hblock ⊢
  rw [hsame.requestBlock_eq, hrequest.requestBlock_eq, hsame.blockcnt_eq,
    hch.blockcnt_eq fd hfd] at hblock
  refine ⟨block, hsame.requestBlock_eq.trans hrequest.requestBlock_eq,
    hsame.netioBlock_eq.trans hrequest.netioBlock_eq, fun hlast ↦ ?_⟩
  have hdisk : bestDiskioBufferSize = 1048576 := rfl
  have hsize : packetSize * packetCount = 32775 := rfl
  rw [hsize, hholds.buflen_eq, hdisk]
  unfold blockCount at hblock
  split_ifs at hblock <;> omega

/-- In every state that a table is in after a read of a block of the open file, the copies that
`stbtbl_fill` makes, however it is called, stay in the buffer exactly when the block is not the
last network block of its disk block, or the last packet is not wanted. -/
theorem fill_within_iff (count : ℕ) (events : List StbEvent) (n channel : ℕ) (short : ℕ → ℕ)
    {t : StbTable}
    (hrun : run stbStep (newStbtable count) (events ++ [.read n channel short]) = some t)
    (hblock : ((t.stbent n).channel channel).requestBlock <
      ((t.stbent n).channel channel).blockcnt) :
    (∀ flags, ∀ copy ∈ fillCopies flags ((t.stbent n).channel channel), copy.Within) ↔
      ¬ (((t.stbent n).channel channel).requestBlock % 32 = 31 ∧
        ((t.stbent n).channel channel).map 22 ≠ 0) := by
  obtain ⟨block, hrequest, hnetio, hlong⟩ := exists_block_of_run_read hrun hblock
  have hlast : (block : ℤ) % 32 = 31 ↔ block % 32 = 31 := by omega
  rw [fillCopies_within_iff hnetio hlong, hrequest, hlast]

/-- A file of 1 MiB, of which the first and the last network block are read. -/
def mebibyteFile : RegularFile :=
  ⟨1048576, by decide, fun j ↦ UInt8.ofNat j⟩

/-- A request for all packets of a block of that file. -/
def mebibyteRun (block : ℤ) : List StbEvent :=
  [.setfile 0 0 (.found mebibyteFile 0) 1 5, .setrequest 0 0 block (fun _ ↦ 1) 90]

/-- The packets of the first network block stay in the buffer. -/
theorem fill_within_first_block :
    ∃ t, run stbStep (newStbtable 1) (mebibyteRun 0 ++ [.read 0 0 fun _ ↦ 0]) = some t ∧
      ∀ flags, ∀ copy ∈ fillCopies flags ((t.stbent 0).channel 0), copy.Within := by
  refine ⟨_, rfl, ?_⟩
  exact (fill_within_iff 1 (mebibyteRun 0) 0 0 (fun _ ↦ 0) rfl (by decide)).mpr (by decide)

/-- The last packet of the last one does not. -/
theorem not_fill_within_last_block :
    ∃ t, run stbStep (newStbtable 1) (mebibyteRun 31 ++ [.read 0 0 fun _ ↦ 0]) = some t ∧
      ∃ flags, ∃ copy ∈ fillCopies flags ((t.stbent 0).channel 0),
        ¬ copy.Within := by
  refine ⟨_, rfl, ?_⟩
  obtain ⟨block, hrequest, hnetio, hlong⟩ :=
    exists_block_of_run_read (n := 0) (rfl : run stbStep (newStbtable 1)
      (mebibyteRun 31 ++ [.read 0 0 fun _ ↦ 0]) = some _) (by decide)
  have hlast : block = 31 := (Int.ofNat.inj hrequest).symm
  by_contra hwithin
  refine (fillCopies_within_iff hnetio hlong).mp (fun flags copy hmem ↦ ?_) ⟨by omega, by decide⟩
  by_contra hout
  exact hwithin ⟨flags, copy, hmem, hout⟩

end Katmai.StreamioV3
