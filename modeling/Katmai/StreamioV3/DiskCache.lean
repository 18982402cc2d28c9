import Katmai.Foundation.BlockCache
import Katmai.StreamioV3.StbTable

/-!
# The disk block in the buffer of a channel

`stbtbl_read` reads nothing if the requested disk block is the one in the buffer, and it does not
seek if the requested block is the one after it. The second is right only if the hidden offset of
the descriptor is at the end of the block in the buffer. `CacheOk` says that it is, or that both the
offset and that end are past the end of the file, and `cacheOk_stbStep` shows that every operation
of the table keeps this: a new file has offset `0` and the block number `-1`, a read leaves the
offset where it stopped, however short its single reads are.

`diskCache_coherent` is the result for every sequence of operations: after a read the buffer holds
the requested disk block of the open file, cut at the end of the file. A request that was made for
an earlier file may lie past the end of the present one, and then the buffer holds nothing
(`stale_request_reads_nothing`).
-/

set_option autoImplicit false
set_option relaxedAutoImplicit false

namespace Katmai.StreamioV3

open Foundation StbTable StbChannel

/-- The three numbers of a request are those of network block `block`. -/
structure RequestIs (requestBlock rdkioBlock netioBlock : ℤ) (block : ℕ) : Prop where
  requestBlock_eq : requestBlock = block
  rdkioBlock_eq : rdkioBlock = ((block / 32 : ℕ) : ℤ)
  netioBlock_eq : netioBlock = ((block % 32 : ℕ) : ℤ)

/-- What the operations of the table keep for every entry and channel: the request is for a block
whose offset is in range, and the block number, the buffer and the offset belong together. -/
structure CacheOk (ch : StbChannel) : Prop where
  blockcnt_le : ch.blockcnt ≤ 65536
  request : ∃ block : ℕ, block < 65536 ∧
    RequestIs ch.requestBlock ch.rdkioBlock ch.netioBlock block
  filesize_eq : ∀ fd, ch.fd = some fd → ch.filesize = fd.file.size
  blockcnt_eq : ∀ fd, ch.fd = some fd → ch.blockcnt = blockCount fd.file.size
  at_end : ∀ fd, ch.fd = some fd → fd.AtEndOf bestDiskioBufferSize ch.cdkioBlock
  holds : ∀ fd, ch.fd = some fd →
    ch.cdkioBlock = -1 ∨
      ∃ block : ℕ, ch.cdkioBlock = block ∧
        HoldsBlock bestDiskioBufferSize ch.buffer ch.buflen fd.file block

variable {ch : StbChannel}

theorem netioBlockPerDiskio_eq : netioBlockPerDiskio = 32 := by
  decide

theorem CacheOk.exists_rdkioBlock (hch : CacheOk ch) : ∃ block : ℕ, ch.rdkioBlock = block := by
  obtain ⟨request, -, hrequest⟩ := hch.request
  exact ⟨request / 32, hrequest.rdkioBlock_eq⟩

theorem blockCount_le (file : RegularFile) : blockCount file.size ≤ 65536 := by
  have hlt := file.size_lt
  unfold blockCount
  split_ifs <;> omega

/-! ### Reading a block -/

/-- The offset of a request is computed without overflow. -/
theorem seekOffset_eq (hch : CacheOk ch) {block : ℕ} (hblock : ch.rdkioBlock = block) :
    ch.seekOffset = ((block * bestDiskioBufferSize : ℕ) : ℤ) := by
  have hrange : ch.rdkioBlock < 2048 := by
    obtain ⟨request, hlt, hrequest⟩ := hch.request
    rw [hrequest.rdkioBlock_eq]
    omega
  have hsize : bestDiskioBufferSize = 1048576 := rfl
  unfold seekOffset
  rw [hblock, Int.bmod_eq_of_le] <;> rw [hsize] <;> omega

/-- A read leaves everything but the cache and the status of the file. -/
structure SameRequest (ch ch' : StbChannel) : Prop where
  stbid_eq : ch'.stbid = ch.stbid
  filecount_eq : ch'.filecount = ch.filecount
  filesize_eq : ch'.filesize = ch.filesize
  blockcnt_eq : ch'.blockcnt = ch.blockcnt
  err_eq : ch'.err = ch.err
  requestBlock_eq : ch'.requestBlock = ch.requestBlock
  rdkioBlock_eq : ch'.rdkioBlock = ch.rdkioBlock
  netioBlock_eq : ch'.netioBlock = ch.netioBlock
  map_eq : ch'.map = ch.map

theorem sameRequest_read (ch : StbChannel) (short : ℕ → ℕ) : SameRequest ch (ch.read short) := by
  unfold StbChannel.read
  split_ifs
  · unfold readBlock
    cases ch.fd with
    | none => exact ⟨rfl, rfl, rfl, rfl, rfl, rfl, rfl, rfl, rfl⟩
    | some fd => exact ⟨rfl, rfl, rfl, rfl, rfl, rfl, rfl, rfl, rfl⟩
  · exact ⟨rfl, rfl, rfl, rfl, rfl, rfl, rfl, rfl, rfl⟩

/-- After a read the buffer holds the requested block, and the offset is at its end. -/
theorem read_spec (hch : CacheOk ch) {fd : OpenFile} (hfd : ch.fd = some fd) {block : ℕ}
    (hblock : ch.rdkioBlock = block) (short : ℕ → ℕ) :
    ∃ fd', (ch.read short).fd = some fd' ∧ fd'.file = fd.file ∧
      (ch.read short).cdkioBlock = block ∧ fd'.AtEndOf bestDiskioBufferSize block ∧
      HoldsBlock bestDiskioBufferSize (ch.read short).buffer (ch.read short).buflen fd.file
        block := by
  by_cases hcached : ch.rdkioBlock ≠ ch.cdkioBlock
  · obtain ⟨hfile, hstart⟩ := atStartOf_seekBlock (hch.at_end fd hfd) (seekOffset_eq hch hblock)
    obtain ⟨hfile', hend, hholds⟩ := readFull_atStartOf hstart short ch.buffer rfl
    rw [hfile] at hfile' hholds
    have hread : ch.read short = ch.readBlock short := if_pos hcached
    have hseek : (if ch.rdkioBlock ≠ ch.cdkioBlock + 1 then fd.lseek ch.seekOffset else fd) =
        fd.seekBlock ch.cdkioBlock block ch.seekOffset := by
      rw [hblock]
      rfl
    rw [hread]
    unfold readBlock
    simp only [hfd, hseek]
    exact ⟨_, rfl, hfile', hblock, hend, hholds⟩
  · have hread : ch.read short = ch := if_neg hcached
    have hsame : ch.cdkioBlock = block := by omega
    rw [hread]
    refine ⟨fd, hfd, rfl, hsame, ?_, ?_⟩
    · have hend := hch.at_end fd hfd
      rwa [hsame] at hend
    · rcases hch.holds fd hfd with hnone | ⟨other, hother, hholds⟩
      · omega
      · have heq : other = block := by omega
        rwa [heq] at hholds

theorem CacheOk.read (hch : CacheOk ch) (hopen : ch.fd.isSome) (short : ℕ → ℕ) :
    CacheOk (ch.read short) := by
  obtain ⟨fd, hfd⟩ := Option.isSome_iff_exists.mp hopen
  obtain ⟨block, hblock⟩ := hch.exists_rdkioBlock
  obtain ⟨fd', hfd', hfile, hcdkio, hend, hholds⟩ := read_spec hch hfd hblock short
  have hsame := sameRequest_read ch short
  constructor
  · rw [hsame.blockcnt_eq]
    exact hch.blockcnt_le
  · obtain ⟨request, hlt, hrequest⟩ := hch.request
    refine ⟨request, hlt, ?_, ?_, ?_⟩
    · exact hsame.requestBlock_eq.trans hrequest.requestBlock_eq
    · exact hsame.rdkioBlock_eq.trans hrequest.rdkioBlock_eq
    · exact hsame.netioBlock_eq.trans hrequest.netioBlock_eq
  · intro other hother
    have heq : fd' = other := Option.some.inj (hfd'.symm.trans hother)
    rw [hsame.filesize_eq, ← heq, hfile]
    exact hch.filesize_eq fd hfd
  · intro other hother
    have heq : fd' = other := Option.some.inj (hfd'.symm.trans hother)
    rw [hsame.blockcnt_eq, ← heq, hfile]
    exact hch.blockcnt_eq fd hfd
  · intro other hother
    have heq : fd' = other := Option.some.inj (hfd'.symm.trans hother)
    rw [← heq, hcdkio]
    exact hend
  · intro other hother
    have heq : fd' = other := Option.some.inj (hfd'.symm.trans hother)
    rw [← heq, hfile]
    exact Or.inr ⟨block, hcdkio, hholds⟩

/-! ### The other operations -/

theorem cacheOk_newStbChannel : CacheOk newStbChannel where
  blockcnt_le := Nat.zero_le _
  request := ⟨0, by decide, rfl, rfl, rfl⟩
  filesize_eq := nofun
  blockcnt_eq := nofun
  at_end := nofun
  holds := nofun

/-- A newly opened file has offset `0` and no block in the buffer. -/
theorem CacheOk.openFile (hch : CacheOk ch) (lookup : Lookup) (cnt : ℕ) :
    CacheOk (ch.openFile lookup cnt) := by
  cases lookup with
  | noStat errno => exact ⟨hch.blockcnt_le, hch.request, nofun, nofun, nofun, nofun⟩
  | noOpen errno => exact ⟨hch.blockcnt_le, hch.request, nofun, nofun, nofun, nofun⟩
  | found file errno =>
    refine ⟨blockCount_le file, hch.request, ?_, ?_, ?_, ?_⟩
    · rintro fd ⟨⟩
      rfl
    · rintro fd ⟨⟩
      rfl
    · rintro fd ⟨⟩
      exact Or.inl rfl
    · rintro fd ⟨⟩
      exact Or.inl rfl

theorem CacheOk.setfile (hch : CacheOk ch) (lookup : Lookup) (cnt : ℕ) (stbid : ℤ) :
    CacheOk (ch.setfile lookup cnt stbid).2 := by
  have hstb : CacheOk { ch with stbid := stbid } :=
    ⟨hch.blockcnt_le, hch.request, hch.filesize_eq, hch.blockcnt_eq, hch.at_end, hch.holds⟩
  unfold StbChannel.setfile
  split_ifs
  · exact hch
  · exact hch
  · exact hstb.openFile lookup cnt

/-- The two parts of a requested block. -/
theorem requestIs_setrequest (ch : StbChannel) (block : ℕ) (map : ℕ → UInt8) (qos : ℤ) :
    RequestIs (ch.setrequest block map qos).requestBlock (ch.setrequest block map qos).rdkioBlock
      (ch.setrequest block map qos).netioBlock block where
  requestBlock_eq := rfl
  rdkioBlock_eq := by
    show (block : ℤ).tdiv netioBlockPerDiskio = _
    rw [netioBlockPerDiskio_eq, Int.tdiv_eq_ediv_of_nonneg (Int.natCast_nonneg block)]
    rfl
  netioBlock_eq := by
    show (block : ℤ).tmod netioBlockPerDiskio = _
    rw [netioBlockPerDiskio_eq, Int.tmod_eq_emod_of_nonneg (Int.natCast_nonneg block)]
    rfl

theorem CacheOk.setrequest (hch : CacheOk ch) {block : ℤ} (hblock : 0 ≤ block)
    (hlt : block < ch.blockcnt) (map : ℕ → UInt8) (qos : ℤ) :
    CacheOk (ch.setrequest block map qos) where
  blockcnt_le := hch.blockcnt_le
  request := by
    obtain ⟨request, rfl⟩ := Int.eq_ofNat_of_zero_le hblock
    have hle := hch.blockcnt_le
    exact ⟨request, by omega, requestIs_setrequest ch request map qos⟩
  filesize_eq := hch.filesize_eq
  blockcnt_eq := hch.blockcnt_eq
  at_end := hch.at_end
  holds := hch.holds

theorem CacheOk.fill (hch : CacheOk ch) (mapflag : Bool) : CacheOk (ch.fill mapflag).2 := by
  have hmapi : ∀ mapi, CacheOk { ch with mapi := mapi } := fun _ ↦
    ⟨hch.blockcnt_le, hch.request, hch.filesize_eq, hch.blockcnt_eq, hch.at_end, hch.holds⟩
  unfold StbChannel.fill
  simp only
  split
  · exact hmapi _
  · exact hmapi _

/-! ### Sequences of operations -/

/-- Every entry of the table is in order. -/
def TableOk (t : StbTable) : Prop :=
  ∀ n channel, CacheOk ((t.stbent n).channel channel)

/-- Replacing one channel of one entry leaves the others. -/
theorem channel_setChannel (t : StbTable) (n channel : ℕ) (ch : StbChannel) (n' channel' : ℕ) :
    ((t.setChannel n channel ch).stbent n').channel channel' =
      if n' = n ∧ channel' = channel then ch else (t.stbent n').channel channel' := by
  unfold StbTable.setChannel
  by_cases hn : n' = n
  · subst hn
    by_cases hchannel : channel' = channel
    · subst hchannel
      simp
    · simp [hchannel]
  · simp [hn]

theorem TableOk.setChannel {t : StbTable} (ht : TableOk t) (n channel : ℕ) (hch : CacheOk ch) :
    TableOk (t.setChannel n channel ch) := by
  intro n' channel'
  rw [channel_setChannel]
  split_ifs
  · exact hch
  · exact ht n' channel'

theorem cacheOk_stbStep {t t' : StbTable} {event : StbEvent} (ht : TableOk t)
    (hstep : stbStep t event = some t') : TableOk t' := by
  cases event with
  | setfile n channel lookup cnt stbid =>
    simp only [stbStep, Option.some.injEq] at hstep
    rw [← hstep]
    unfold stbtblSetfile
    simp only
    split_ifs
    · exact ht
    · exact ht.setChannel n channel ((ht n channel).setfile lookup cnt stbid)
    · exact ht
  | setrequest n channel block map qos =>
    simp only [stbStep] at hstep
    split_ifs at hstep with hblock
    cases hstep
    unfold stbtblSetrequest
    split_ifs
    · exact ht.setChannel n channel ((ht n channel).setrequest hblock.1 hblock.2 map qos)
    · exact ht
  | read n channel short =>
    simp only [stbStep] at hstep
    split_ifs at hstep with hopen
    cases hstep
    unfold stbtblRead
    rw [if_pos hopen.1]
    exact ht.setChannel n channel ((ht n channel).read hopen.2 short)
  | fill n channel mapflag =>
    simp only [stbStep, Option.some.injEq] at hstep
    rw [← hstep]
    unfold stbtblFill
    split_ifs
    · exact ht.setChannel n channel ((ht n channel).fill mapflag)
    · exact ht

/-- A truncated length as an integer. -/
theorem natCast_min_sub (bound size offset : ℕ) :
    ((min bound (size - offset) : ℕ) : ℤ) = min (bound : ℤ) (max 0 (size - offset)) := by
  omega

theorem tableOk_newStbtable (count : ℕ) : TableOk (newStbtable count) :=
  fun _ _ ↦ cacheOk_newStbChannel

/-- What a sequence of operations that ends with a read leaves in the channel that was read: the
read of a channel in order, with an open file. -/
theorem channel_of_run_read {count : ℕ} {events : List StbEvent} {n channel : ℕ} {short : ℕ → ℕ}
    {t : StbTable}
    (hrun : run stbStep (newStbtable count) (events ++ [.read n channel short]) = some t) :
    ∃ ch, CacheOk ch ∧ ch.fd.isSome ∧ (t.stbent n).channel channel = ch.read short := by
  obtain ⟨t₁, hbefore, hread⟩ := run_append_eq_some.mp hrun
  have ht₁ : TableOk t₁ :=
    run_invariant (fun s event s' hs hstep ↦ cacheOk_stbStep hs hstep) (tableOk_newStbtable count)
      hbefore
  obtain ⟨t₂, hstep, hdone⟩ := run_cons_eq_some.mp hread
  rw [run_nil, Option.some.injEq] at hdone
  subst hdone
  simp only [stbStep] at hstep
  split_ifs at hstep with hopen
  cases hstep
  refine ⟨(t₁.stbent n).channel channel, ht₁ n channel, hopen.2, ?_⟩
  unfold stbtblRead
  rw [if_pos hopen.1]
  exact (channel_setChannel t₁ n channel _ n channel).trans (if_pos ⟨rfl, rfl⟩)

/-- After every read of every sequence of operations on a table, whatever entries and channels they
are for and however short the single reads are, the buffer of the channel holds the requested disk
block of the open file, cut at the end of the file. -/
theorem diskCache_coherent (count : ℕ) (events : List StbEvent) (n channel : ℕ) (short : ℕ → ℕ)
    {t : StbTable}
    (hrun : run stbStep (newStbtable count) (events ++ [.read n channel short]) = some t) :
    ∃ fd, ((t.stbent n).channel channel).fd = some fd ∧
      ((t.stbent n).channel channel).filesize = fd.file.size ∧
      0 ≤ ((t.stbent n).channel channel).rdkioBlock ∧
      (((t.stbent n).channel channel).buflen : ℤ) =
        min (bestDiskioBufferSize : ℤ) (max 0 (fd.file.size -
          ((t.stbent n).channel channel).rdkioBlock * bestDiskioBufferSize)) ∧
      ∀ j < ((t.stbent n).channel channel).buflen, ((t.stbent n).channel channel).buffer j =
        fd.file.byte
          (((t.stbent n).channel channel).rdkioBlock.toNat * bestDiskioBufferSize + j) := by
  obtain ⟨ch, hch, hsome, hafter⟩ := channel_of_run_read hrun
  rw [hafter]
  obtain ⟨fd, hfd⟩ := Option.isSome_iff_exists.mp hsome
  obtain ⟨block, hblock⟩ := hch.exists_rdkioBlock
  obtain ⟨fd', hfd', hfile, -, -, hholds⟩ := read_spec hch hfd hblock short
  have hsame := sameRequest_read ch short
  rw [hsame.rdkioBlock_eq, hsame.filesize_eq, hblock]
  refine ⟨fd', hfd', ?_, Int.natCast_nonneg block, ?_, ?_⟩
  · rw [hfile]
    exact hch.filesize_eq fd hfd
  · rw [hfile, hholds.buflen_eq, natCast_min_sub, Int.natCast_mul]
  · intro j hj
    rw [hfile, Int.toNat_natCast]
    exact hholds.buffer_eq j hj

/-- A file of 3 MiB. -/
def longFile : RegularFile := ⟨3 * 1048576, by decide, fun j ↦ UInt8.ofNat j⟩

/-- A file of 100 bytes. -/
def shortFile : RegularFile := ⟨100, by decide, fun j ↦ UInt8.ofNat (j + 7)⟩

/-- A read of a file of 3 MiB from its third disk block on. -/
def thirdBlockRun : List StbEvent :=
  [.setfile 0 0 (.found longFile 0) 1 5, .setrequest 0 0 64 (fun _ ↦ 1) 90]

theorem diskCache_coherent_thirdBlock :
    ∃ t, run stbStep (newStbtable 1) (thirdBlockRun ++ [.read 0 0 fun _ ↦ 0]) = some t ∧
      ∃ fd, ((t.stbent 0).channel 0).fd = some fd ∧
        (((t.stbent 0).channel 0).buflen : ℤ) =
          min (bestDiskioBufferSize : ℤ) (max 0 (fd.file.size -
            ((t.stbent 0).channel 0).rdkioBlock * bestDiskioBufferSize)) := by
  refine ⟨_, rfl, ?_⟩
  obtain ⟨fd, hfd, -, -, hbuflen, -⟩ :=
    diskCache_coherent 1 thirdBlockRun 0 0 (fun _ ↦ 0) rfl
  exact ⟨fd, hfd, hbuflen⟩

/-- A request for a block of the long file that is still there when the short file is opened. -/
def staleRequestRun : List StbEvent :=
  thirdBlockRun ++ [.setfile 0 0 (.found shortFile 0) 2 5]

/-- The read of such a request finds nothing of the short file, and the length of what it reads is
not the difference that a block inside the file would give. -/
theorem stale_request_reads_nothing :
    ∃ t, run stbStep (newStbtable 1) (staleRequestRun ++ [.read 0 0 fun _ ↦ 0]) = some t ∧
      ∃ fd, ((t.stbent 0).channel 0).fd = some fd ∧ fd.file.size = 100 ∧
        ((t.stbent 0).channel 0).rdkioBlock = 2 ∧
        (((t.stbent 0).channel 0).buflen : ℤ) ≠ min (bestDiskioBufferSize : ℤ)
          (fd.file.size - ((t.stbent 0).channel 0).rdkioBlock * bestDiskioBufferSize) := by
  have hbefore := run_invariant (fun s event s' hs hstep ↦ cacheOk_stbStep hs hstep)
    (tableOk_newStbtable 1) (rfl : run stbStep (newStbtable 1) staleRequestRun = some _)
  obtain ⟨fd, hfd, hfile, -⟩ :=
    read_spec (hbefore 0 0) rfl (show _ = ((2 : ℕ) : ℤ) from rfl) fun _ ↦ 0
  have hsize : fd.file.size = 100 := by
    rw [hfile]
    rfl
  refine ⟨_, rfl, fd, hfd, hsize, rfl, ?_⟩
  rw [hsize]
  have hnegative : min (bestDiskioBufferSize : ℤ) (100 - 2 * bestDiskioBufferSize) < 0 := by decide
  exact Int.ne_of_gt (Int.lt_of_lt_of_le hnegative (Int.natCast_nonneg _))

end Katmai.StreamioV3
