import Katmai.Buffer.BufferQueue
import Katmai.StioEngine.PrefetchEngine

/-!
# What the ring of the prefetching engine holds

`Supplied` says that the ring holds a file from an offset on, block after block (`DataFrom`), and
that `prefetch_main` will go on where the ring ends: with the blocks of `pbc`, with the descriptor
behind them, or not at all at the end of the file. An iteration of `prefetch_main` keeps it
(`Supplied.publish`), and a reader that takes a buffer gets the next block, or the mark of the end
(`Supplied.take`).

`Follows` adds the rest of a block that `pre_read` keeps, and what a `pre_read` that is going on has
got. It is about any source of blocks that behaves as `Supplied` does, and says that `pre_read`
returns what a reader of the plain file returns (`Follows.beginRead`, `Follows.takeBlock`,
`Follows.endRead`).
-/

set_option autoImplicit false
set_option relaxedAutoImplicit false

namespace Katmai.StioEngine

open Foundation Buffer Engine

variable {file : RegularFile}

/-! ### Blocks of a file -/

/-- A block holds bytes of the file from `pos` on. -/
structure HoldsAt (file : RegularFile) (pos : ℕ) (block : Block) : Prop where
  rc_pos : 0 < block.rc
  inside : pos + block.rc.toNat ≤ file.size
  buffer_eq : ∀ j < block.rc.toNat, block.buffer j = file.byte (pos + j)

/-- The blocks of a list hold consecutive parts of the file, from one offset to another. -/
inductive DataFrom (file : RegularFile) : ℕ → List Block → ℕ → Prop
  | nil (pos : ℕ) : DataFrom file pos [] pos
  | cons {pos last : ℕ} {block : Block} {rest : List Block} (hblock : HoldsAt file pos block)
      (hrest : DataFrom file (pos + block.rc.toNat) rest last) :
      DataFrom file pos (block :: rest) last

/-- One more block. -/
theorem DataFrom.snoc {pos last : ℕ} {blocks : List Block} (hblocks : DataFrom file pos blocks last)
    {block : Block} (hblock : HoldsAt file last block) :
    DataFrom file pos (blocks ++ [block]) (last + block.rc.toNat) := by
  induction hblocks with
  | nil pos => exact .cons hblock (.nil _)
  | cons hfirst _ ih => exact .cons hfirst (ih hblock)

theorem bytesAt_append (buffer : ℕ → UInt8) (start first second : ℕ) :
    bytesAt buffer start first ++ bytesAt buffer (start + first) second =
      bytesAt buffer start (first + second) :=
  segment_append buffer start first second

@[simp] theorem length_bytesAt (buffer : ℕ → UInt8) (start n : ℕ) :
    (bytesAt buffer start n).length = n :=
  length_segment buffer start n

theorem bytesAt_congr {buffer other : ℕ → UInt8} {start start' n : ℕ}
    (heq : ∀ j < n, buffer (start + j) = other (start' + j)) :
    bytesAt buffer start n = bytesAt other start' n :=
  segment_congr heq

/-- The first bytes of a block. -/
theorem HoldsAt.bytesAt_eq {pos : ℕ} {block : Block} (hblock : HoldsAt file pos block) {n : ℕ}
    (hn : n ≤ block.rc.toNat) : bytesAt block.buffer 0 n = bytesAt file.byte pos n := by
  refine bytesAt_congr fun j hj ↦ ?_
  rw [Nat.zero_add]
  exact hblock.buffer_eq j (by omega)

/-- What `fio_read` gives at an offset inside the file. -/
theorem fioRead_inside {pos bsize : ℕ} (hbsize : 0 < bsize) (hpos : pos < file.size)
    (short : ℕ → ℕ) (buffer : ℕ → UInt8) :
    HoldsAt file pos
        ⟨(fioRead short (some ⟨file, pos⟩) buffer bsize).rlen,
          (fioRead short (some ⟨file, pos⟩) buffer bsize).buffer⟩ ∧
      (fioRead short (some ⟨file, pos⟩) buffer bsize).fd =
        some ⟨file, pos + (fioRead short (some ⟨file, pos⟩) buffer bsize).rlen.toNat⟩ := by
  have hleft : (⟨file, pos⟩ : OpenFile).left = file.size - pos := rfl
  simp only [fioRead, readFull_spec, hleft, Int.toNat_natCast]
  refine ⟨⟨?_, ?_, ?_⟩, trivial⟩
  · show (0 : ℤ) < ((min bsize (file.size - pos) : ℕ) : ℤ)
    omega
  · show pos + ((min bsize (file.size - pos) : ℕ) : ℤ).toNat ≤ file.size
    omega
  · intro j hj
    have hlt : j < min bsize (file.size - pos) := hj
    show copyInto buffer 0 (min bsize (file.size - pos)) (fun j ↦ file.byte (pos + j)) j = _
    rw [copyInto_of_mem (Nat.zero_le j) (by omega), Nat.sub_zero]

/-- At the end of the file it gives nothing. -/
theorem fioRead_end (short : ℕ → ℕ) (buffer : ℕ → UInt8) (bsize : ℕ) :
    (fioRead short (some ⟨file, file.size⟩) buffer bsize).rlen = 0 := by
  have hleft : (⟨file, file.size⟩ : OpenFile).left = 0 := Nat.sub_self _
  simp only [fioRead, readFull_spec, hleft, Nat.min_zero]
  rfl

/-! ### `prefetch_main` -/

/-- `prefetch_main` goes on at offset `tail`: from the start, with the descriptor, or with the
blocks in `pbc`. -/
def ProducerAt (file : RegularFile) (fd : Option OpenFile) (pbc : BufferCache Block) (tail : ℕ) :
    Producer → Prop
  | .stopped => False
  | .starting => tail = 0 ∧ fd = some ⟨file, 0⟩
  | .running false _ => fd = some ⟨file, tail⟩
  | .running true pbcOff =>
    pbcOff = tail ∧ (∃ offset, fd = some ⟨file, offset⟩) ∧
      ∃ last, DataFrom file tail pbc.queued last

/-- The ring holds the file from `head` on, and `prefetch_main` goes on behind it, or the ring ends
with the mark of the end of the file. -/
def Supplied (file : RegularFile) (fd : Option OpenFile) (bc pbc : BufferCache Block)
    (producer : Producer) (head : ℕ) : Prop :=
  ∃ data tail, DataFrom file head data tail ∧ tail ≤ file.size ∧
    ((bc.queued = data ∧ ProducerAt file fd pbc tail producer) ∨
      (producer = .stopped ∧ tail = file.size ∧ ∃ mark : Block, mark.rc ≤ 0 ∧
        bc.queued = data ++ [mark]))

/-- A block that is read from the descriptor. -/
theorem fileBlock_spec {tail bsize : ℕ} (hbsize : 0 < bsize) (htail : tail ≤ file.size)
    (short : ℕ → ℕ) (pbc : BufferCache Block) (pbcOff : ℕ) (buffer : ℕ → UInt8) :
    let next := fileBlock short (some ⟨file, tail⟩) pbc bsize pbcOff buffer
    (HoldsAt file tail next.block ∧
        ProducerAt file next.fd next.pbc (tail + next.block.rc.toNat)
          (.running next.usePrevData next.pbcOff)) ∨
      (next.block.rc ≤ 0 ∧ tail = file.size) := by
  intro next
  rcases Nat.lt_or_eq_of_le htail with hinside | rfl
  · left
    exact fioRead_inside hbsize hinside short buffer
  · right
    refine ⟨?_, rfl⟩
    show (fioRead short (some ⟨file, file.size⟩) buffer bsize).rlen ≤ 0
    rw [fioRead_end]

/-- An iteration of `prefetch_main` gets the next block of the file, or the mark of its end. -/
theorem nextBlock_spec {fd : Option OpenFile} {pbc : BufferCache Block} {tail bsize : ℕ}
    {usePrevData : Bool} {pbcOff : ℕ} (hbsize : 0 < bsize) (htail : tail ≤ file.size)
    (hpbc : ReadyOk pbc) (hproducer : ProducerAt file fd pbc tail (.running usePrevData pbcOff))
    (short : ℕ → ℕ) (buffer : ℕ → UInt8) :
    let next := nextBlock short fd pbc bsize usePrevData pbcOff buffer
    (HoldsAt file tail next.block ∧
        ProducerAt file next.fd next.pbc (tail + next.block.rc.toNat)
          (.running next.usePrevData next.pbcOff)) ∨
      (next.block.rc ≤ 0 ∧ tail = file.size) := by
  intro next
  cases usePrevData with
  | false =>
    obtain rfl : fd = some ⟨file, tail⟩ := hproducer
    exact fileBlock_spec hbsize htail short pbc pbcOff buffer
  | true =>
    obtain ⟨rfl, ⟨offset, rfl⟩, last, hdata⟩ := hproducer
    have hseek : fioSeek (some ⟨file, offset⟩) pbcOff = some ⟨file, pbcOff⟩ := by
      show some ((⟨file, offset⟩ : OpenFile).lseek pbcOff) = _
      rw [OpenFile.lseek, if_neg (Int.not_lt.mpr (Int.natCast_nonneg _)), Int.toNat_natCast]
    by_cases hready : pbc.bufReady = 0
    · have hnext : next =
          fileBlock short (some ⟨file, pbcOff⟩) pbc bsize pbcOff buffer := by
        show nextBlock short (some ⟨file, offset⟩) pbc bsize true pbcOff buffer = _
        simp only [nextBlock, BufferCache.bcConsumerTryRequest, hready, ne_eq, not_true_eq_false,
          if_false, if_true, hseek]
      rw [hnext]
      exact fileBlock_spec hbsize htail short pbc pbcOff buffer
    · rw [hpbc.queued_takeRear hready] at hdata
      obtain ⟨hblock, hrest⟩ : HoldsAt file pbcOff (pbc.dkbuf pbc.rear) ∧
          DataFrom file (pbcOff + (pbc.dkbuf pbc.rear).rc.toNat) pbc.takeRear.2.queued last := by
        cases hdata with
        | cons hblock hrest => exact ⟨hblock, hrest⟩
      have hnext : next =
          ⟨⟨(pbc.dkbuf pbc.rear).rc, copyInto buffer 0 (pbc.dkbuf pbc.rear).rc.toNat
            (pbc.dkbuf pbc.rear).buffer⟩, some ⟨file, offset⟩, pbc.takeRear.2, true,
            pbcOff + (pbc.dkbuf pbc.rear).rc.toNat⟩ := by
        show nextBlock short (some ⟨file, offset⟩) pbc bsize true pbcOff buffer = _
        simp only [nextBlock, BufferCache.bcConsumerTryRequest, ne_eq, hready, not_false_eq_true,
          if_true]
        exact if_pos hblock.rc_pos
      rw [hnext]
      refine Or.inl ⟨⟨hblock.rc_pos, hblock.inside, ?_⟩, rfl, ⟨offset, rfl⟩, last, hrest⟩
      intro j hj
      have hlt : j < (pbc.dkbuf pbc.rear).rc.toNat := hj
      show copyInto buffer 0 (pbc.dkbuf pbc.rear).rc.toNat (pbc.dkbuf pbc.rear).buffer j = _
      rw [copyInto_of_mem (Nat.zero_le j) (by omega), Nat.sub_zero]
      exact hblock.buffer_eq j hj

/-- An iteration of `prefetch_main` keeps the file supplied. -/
theorem Supplied.publish {fd : Option OpenFile} {bc pbc : BufferCache Block} {head bsize : ℕ}
    {usePrevData : Bool} {pbcOff : ℕ} (hbsize : 0 < bsize) (hbc : RingOk bc)
    (hfree : bc.bufFree ≠ 0) (hpbc : ReadyOk pbc)
    (hsupplied : Supplied file fd bc pbc (.running usePrevData pbcOff) head) (short : ℕ → ℕ)
    (buffer : ℕ → UInt8) :
    let next := nextBlock short fd pbc bsize usePrevData pbcOff buffer
    Supplied file next.fd (bc.publish next.block) next.pbc
      (if next.block.rc > 0 then .running next.usePrevData next.pbcOff else .stopped) head := by
  intro next
  obtain ⟨data, tail, hdata, htail, ⟨hqueued, hproducer⟩ | ⟨hstopped, -⟩⟩ := hsupplied
  · have hpublish := hbc.queued_publish hfree next.block
    rw [hqueued] at hpublish
    obtain ⟨hblock, hnext⟩ | ⟨hmark, hend⟩ :=
      nextBlock_spec hbsize htail hpbc hproducer short buffer
    · refine ⟨data ++ [next.block], _, hdata.snoc hblock, hblock.inside, Or.inl ⟨hpublish, ?_⟩⟩
      rw [if_pos hblock.rc_pos]
      exact hnext
    · refine ⟨data, tail, hdata, htail, Or.inr ⟨?_, hend, next.block, hmark, hpublish⟩⟩
      rw [if_neg (Int.not_lt.mpr hmark)]
  · cases hstopped

/-- What a reader gets from the ring: the next block, or the mark of the end of the file. -/
theorem Supplied.take {fd : Option OpenFile} {bc bc' pbc : BufferCache Block} {producer : Producer}
    {head : ℕ} (hsupplied : Supplied file fd bc pbc producer head) {block : Block}
    (hqueued : bc.queued = block :: bc'.queued) :
    (block.rc ≤ 0 ∧ head = file.size) ∨
      (HoldsAt file head block ∧
        Supplied file fd bc' pbc producer (head + block.rc.toNat)) := by
  obtain ⟨data, tail, hdata, htail,
    ⟨hdataEq, hproducer⟩ | ⟨hstopped, hend, mark, hmark, hdataEq⟩⟩ := hsupplied
  · right
    rw [hqueued] at hdataEq
    rw [← hdataEq] at hdata
    cases hdata with
    | cons hblock hrest =>
      exact ⟨hblock, bc'.queued, tail, hrest, htail, Or.inl ⟨rfl, hproducer⟩⟩
  · rw [hqueued] at hdataEq
    cases hdata with
    | nil pos =>
      left
      obtain ⟨rfl, -⟩ := List.cons.inj hdataEq
      exact ⟨hmark, hend⟩
    | cons hblock hrest =>
      right
      obtain ⟨rfl, hqueued'⟩ := List.cons.inj hdataEq
      exact ⟨hblock, _, tail, hrest, htail, Or.inr ⟨hstopped, hend, mark, hmark, hqueued'⟩⟩

/-! ### `pre_read` -/

/-- What `pre_read` changes before its loop. -/
theorem beginRead_eq (s : Engine) (len : ℕ) : ∃ tmpbsize tmpbidx r, r.len = len ∧
    s.beginRead len =
      { s with tmpbsize := tmpbsize, tmpbidx := tmpbidx, app := .reading r } := by
  unfold Engine.beginRead
  split_ifs <;> exact ⟨_, _, _, rfl, rfl⟩

/-- What an iteration of the loop of `pre_read` changes. -/
theorem takeBlock_eq (s : Engine) (r : Reading) (block : Block) :
    ∃ tmpbuff tmpbsize tmpbidx r', r'.len = r.len ∧ (r.rlen ≠ 0 → r'.rlen < r.rlen) ∧
      s.takeBlock r block =
        { s with
          tmpbuff := tmpbuff, tmpbsize := tmpbsize, tmpbidx := tmpbidx, app := .reading r' } := by
  unfold Engine.takeBlock
  split_ifs with hmark hlong
  · exact ⟨_, _, _, { r with rlen := 0 }, rfl, Nat.pos_of_ne_zero, rfl⟩
  · exact ⟨_, _, _, { r with got := r.got ++ bytesAt block.buffer 0 r.rlen, rlen := 0 }, rfl,
      Nat.pos_of_ne_zero, rfl⟩
  · refine ⟨_, _, _, { r with
      got := r.got ++ bytesAt block.buffer 0 block.rc.toNat
      rlen := r.rlen - block.rc.toNat }, rfl, fun hrlen ↦ ?_, rfl⟩
    show r.rlen - block.rc.toNat < r.rlen
    omega

/-- The step in which `pre_read` takes a block. -/
theorem engineStep_readTake {fs : String → Option RegularFile} {s s' : Engine} :
    engineStep fs s .readTake = some s' ↔
      ∃ r, s.app = .reading r ∧ r.rlen ≠ 0 ∧ s.bc.bufReady ≠ 0 ∧
        { s with bc := s.bc.takeRear.2.bcConsumerRelease }.takeBlock r (s.bc.dkbuf s.bc.rear) =
          s' := by
  by_cases hready : s.bc.bufReady = 0 <;> cases happ : s.app <;>
    simp [engineStep, happ, BufferCache.bcConsumerRequest, hready, BufferCache.takeRear]

/-- The step in which `pre_read` returns. -/
theorem engineStep_readEnd {fs : String → Option RegularFile} {s s' : Engine} :
    engineStep fs s .readEnd = some s' ↔
      ∃ r, s.app = .reading r ∧ r.rlen = 0 ∧ s.endRead r = s' := by
  cases happ : s.app <;> simp [engineStep, happ]

/-- The file from `pos` on: the rest of a block that `pre_read` keeps and then what is supplied, or
nothing, once the end of the file has been met. -/
def DataPath (file : RegularFile) (tmpbuff : ℕ → UInt8) (tmpbsize : ℤ) (tmpbidx : ℕ)
    (supply : ℕ → Prop) (pos : ℕ) : Prop :=
  (tmpbsize = -1 ∧ pos = file.size) ∨
    ∃ kept : ℕ, tmpbsize = kept ∧ pos + kept ≤ file.size ∧
      (∀ j < kept, tmpbuff (tmpbidx + j) = file.byte (pos + j)) ∧ supply (pos + kept)

/-- A `pre_read` that began at offset `start`, before or after the end of the file was met, and has
come to `pos`. -/
def ReadOk (file : RegularFile) (start : ℕ) (eof : Bool) (tmpbsize : ℤ) (r : Reading) (pos : ℕ) :
    Prop :=
  (eof = true ∧ tmpbsize = -1 ∧ r.failed = true ∧ r.rlen = 0 ∧ r.got = [] ∧ pos = start) ∨
    (eof = false ∧ r.failed = false ∧ pos = start + r.got.length ∧
      r.got = bytesAt file.byte start r.got.length ∧
      ((tmpbsize = -1 ∧ r.rlen = 0 ∧ r.got.length < r.len) ∨
        (0 ≤ tmpbsize ∧ r.rlen + r.got.length = r.len ∧ (r.rlen ≠ 0 → tmpbsize = 0))))

/-- The application, which is in the given `pre_read` or in none, is where a reader of the plain
file is that has come to `start`. -/
def Follows (file : RegularFile) (start : ℕ) (eof : Bool) (tmpbuff : ℕ → UInt8) (tmpbsize : ℤ)
    (tmpbidx : ℕ) (supply : ℕ → Prop) : Option Reading → Prop
  | some r => ∃ pos, DataPath file tmpbuff tmpbsize tmpbidx supply pos ∧
      ReadOk file start eof tmpbsize r pos
  | none => DataPath file tmpbuff tmpbsize tmpbidx supply start ∧ (eof = true ↔ tmpbsize = -1)

section Reads

variable {tmpbuff : ℕ → UInt8} {tmpbsize : ℤ} {tmpbidx start : ℕ} {eof : Bool}
  {supply supply' : ℕ → Prop} {current : Option Reading}

theorem DataPath.mono {pos : ℕ} (hpath : DataPath file tmpbuff tmpbsize tmpbidx supply pos)
    (hsupply : ∀ head, supply head → supply' head) :
    DataPath file tmpbuff tmpbsize tmpbidx supply' pos := by
  rcases hpath with hend | ⟨kept, hkept, hle, hbytes, hnext⟩
  · exact Or.inl hend
  · exact Or.inr ⟨kept, hkept, hle, hbytes, hsupply _ hnext⟩

/-- What keeps the file supplied does not disturb the reader. -/
theorem Follows.mono (hfollows : Follows file start eof tmpbuff tmpbsize tmpbidx supply current)
    (hsupply : ∀ head, supply head → supply' head) :
    Follows file start eof tmpbuff tmpbsize tmpbidx supply' current := by
  cases current with
  | some r =>
    obtain ⟨pos, hpath, hread⟩ := hfollows
    exact ⟨pos, hpath.mono hsupply, hread⟩
  | none => exact ⟨hfollows.1.mono hsupply, hfollows.2⟩

/-- The part of `pre_read` before its loop. -/
theorem Follows.beginRead {s : Engine} (len : ℕ) (habort : s.abortFlag = false)
    (hfollows : Follows file start eof s.tmpbuff s.tmpbsize s.tmpbidx supply none) :
    ∃ r, (s.beginRead len).app = .reading r ∧ r.len = len ∧
      Follows file start eof (s.beginRead len).tmpbuff (s.beginRead len).tmpbsize
        (s.beginRead len).tmpbidx supply (some r) := by
  obtain ⟨hpath, heof⟩ := hfollows
  unfold Engine.beginRead
  rcases hpath with ⟨hend, rfl⟩ | ⟨kept, hkept, hle, hbytes, hnext⟩
  · rw [if_pos (Or.inr (by omega))]
    exact ⟨_, rfl, rfl, file.size, Or.inl ⟨hend, rfl⟩,
      Or.inl ⟨heof.mpr hend, hend, rfl, rfl, rfl, rfl⟩⟩
  · have hnotEof : eof = false := by
      cases eof with
      | false => rfl
      | true =>
        have hbad := heof.mp rfl
        omega
    have hgoes : ¬ (s.abortFlag = true ∨ s.tmpbsize < 0) := by
      rintro (hflag | hnegative)
      · rw [habort] at hflag
        cases hflag
      · omega
    rw [if_neg hgoes]
    by_cases hlong : s.tmpbsize > len
    · rw [if_pos hlong]
      refine ⟨_, rfl, rfl, start + len, Or.inr ⟨kept - len, ?_, by omega, ?_, ?_⟩, Or.inr
        ⟨hnotEof, rfl, by rw [length_bytesAt], ?_, Or.inr ⟨?_, ?_, ?_⟩⟩⟩
      · show s.tmpbsize - len = ((kept - len : ℕ) : ℤ)
        omega
      · intro j hj
        show s.tmpbuff (s.tmpbidx + len + j) = file.byte (start + len + j)
        rw [Nat.add_assoc, Nat.add_assoc]
        exact hbytes (len + j) (by omega)
      · rw [show start + len + (kept - len) = start + kept by omega]
        exact hnext
      · rw [length_bytesAt]
        exact bytesAt_congr fun j hj ↦ hbytes j (by omega)
      · show 0 ≤ s.tmpbsize - len
        omega
      · rw [length_bytesAt, Nat.zero_add]
      · intro hrlen
        exact absurd rfl hrlen
    · rw [if_neg hlong]
      by_cases hsome : s.tmpbsize > 0
      · rw [if_pos hsome]
        have hkeptEq : s.tmpbsize.toNat = kept := by omega
        rw [hkeptEq]
        refine ⟨_, rfl, rfl, start + kept, Or.inr ⟨0, rfl, hle, nofun, hnext⟩, Or.inr
          ⟨hnotEof, rfl, by rw [length_bytesAt], ?_, Or.inr ⟨Int.le_refl 0, ?_, fun _ ↦ rfl⟩⟩⟩
        · rw [length_bytesAt]
          exact bytesAt_congr hbytes
        · rw [length_bytesAt]
          show len - kept + kept = len
          omega
      · rw [if_neg hsome]
        obtain rfl : kept = 0 := by omega
        exact ⟨_, rfl, rfl, start, Or.inr ⟨0, hkept, hle, nofun, hnext⟩, Or.inr
          ⟨hnotEof, rfl, rfl, rfl, Or.inr ⟨by show 0 ≤ s.tmpbsize; omega, rfl, fun _ ↦ hkept⟩⟩⟩

/-- An iteration of the loop of `pre_read`. -/
theorem Follows.takeBlock {s : Engine} {r : Reading} (hrlen : r.rlen ≠ 0) {block : Block}
    (hfollows : Follows file start eof s.tmpbuff s.tmpbsize s.tmpbidx supply (some r))
    (htake : ∀ head, supply head → (block.rc ≤ 0 ∧ head = file.size) ∨
      (HoldsAt file head block ∧ supply' (head + block.rc.toNat))) :
    ∃ r', (s.takeBlock r block).app = .reading r' ∧ r'.len = r.len ∧
      Follows file start eof (s.takeBlock r block).tmpbuff (s.takeBlock r block).tmpbsize
        (s.takeBlock r block).tmpbidx supply' (some r') := by
  obtain ⟨pos, hpath, ⟨-, -, -, hzero, -⟩ | ⟨hnotEof, hfailed, hpos, hgot, hrest⟩⟩ := hfollows
  · exact absurd hzero hrlen
  rcases hrest with ⟨-, hzero, -⟩ | ⟨-, hlen, hempty⟩
  · exact absurd hzero hrlen
  have htmp := hempty hrlen
  rcases hpath with ⟨hend, -⟩ | ⟨kept, hkept, hle, -, hnext⟩
  · omega
  obtain rfl : kept = 0 := by omega
  unfold Engine.takeBlock
  rcases htake _ hnext with ⟨hmark, hend⟩ | ⟨hblock, hnext'⟩
  · rw [if_pos hmark]
    exact ⟨_, rfl, rfl, file.size, Or.inl ⟨rfl, rfl⟩, Or.inr ⟨hnotEof, hfailed,
      by show file.size = start + r.got.length; omega, hgot,
      Or.inl ⟨rfl, rfl, by show r.got.length < r.len; omega⟩⟩⟩
  · have hrc := hblock.rc_pos
    have hinside := hblock.inside
    rw [Nat.add_zero] at hblock hinside hnext'
    rw [if_neg (by omega)]
    by_cases hlong : block.rc > r.rlen
    · rw [if_pos hlong]
      have hbytes := hblock.bytesAt_eq (n := r.rlen) (by omega)
      refine ⟨_, rfl, rfl, pos + r.rlen,
        Or.inr ⟨block.rc.toNat - r.rlen, ?_, by omega, ?_, ?_⟩,
        Or.inr ⟨hnotEof, hfailed, ?_, ?_, Or.inr ⟨?_, ?_, ?_⟩⟩⟩
      · show block.rc - r.rlen = ((block.rc.toNat - r.rlen : ℕ) : ℤ)
        omega
      · intro j hj
        show copyInto s.tmpbuff 0 (block.rc - r.rlen).toNat
          (fun j ↦ block.buffer (r.rlen + j)) (0 + j) = file.byte (pos + r.rlen + j)
        rw [copyInto_of_mem (Nat.zero_le _) (by omega), Nat.sub_zero, Nat.zero_add, Nat.add_assoc]
        exact hblock.buffer_eq (r.rlen + j) (by omega)
      · rw [show pos + r.rlen + (block.rc.toNat - r.rlen) = pos + block.rc.toNat by omega]
        exact hnext'
      · show pos + r.rlen = start + (r.got ++ bytesAt block.buffer 0 r.rlen).length
        rw [List.length_append, length_bytesAt]
        omega
      · show r.got ++ bytesAt block.buffer 0 r.rlen = bytesAt file.byte start
          (r.got ++ bytesAt block.buffer 0 r.rlen).length
        rw [List.length_append, length_bytesAt, ← bytesAt_append, ← hgot, hbytes, hpos]
      · show 0 ≤ block.rc - r.rlen
        omega
      · show 0 + (r.got ++ bytesAt block.buffer 0 r.rlen).length = r.len
        rw [List.length_append, length_bytesAt]
        omega
      · intro hzero
        exact absurd rfl hzero
    · rw [if_neg hlong]
      have hbytes := hblock.bytesAt_eq (le_refl block.rc.toNat)
      refine ⟨_, rfl, rfl, pos + block.rc.toNat, Or.inr ⟨0, hkept, by omega, nofun, hnext'⟩,
        Or.inr ⟨hnotEof, hfailed, ?_, ?_, Or.inr ⟨?_, ?_, fun _ ↦ htmp⟩⟩⟩
      · show pos + block.rc.toNat =
          start + (r.got ++ bytesAt block.buffer 0 block.rc.toNat).length
        rw [List.length_append, length_bytesAt]
        omega
      · show r.got ++ bytesAt block.buffer 0 block.rc.toNat = bytesAt file.byte start
          (r.got ++ bytesAt block.buffer 0 block.rc.toNat).length
        rw [List.length_append, length_bytesAt, ← bytesAt_append, ← hgot, hbytes, hpos]
      · show 0 ≤ s.tmpbsize
        omega
      · show r.rlen - block.rc.toNat + (r.got ++ bytesAt block.buffer 0 block.rc.toNat).length =
          r.len
        rw [List.length_append, length_bytesAt]
        omega

/-- `pre_read` returns what the reader of the plain file returns. -/
theorem Follows.endRead {plain : Plain} {r : Reading} (hrlen : r.rlen = 0)
    (hwant : plain.want = r.len)
    (hfollows : Follows file plain.pos plain.eof tmpbuff tmpbsize tmpbidx supply (some r)) :
    (plain.read file).log = plain.log ++
        [⟨plain.fname, r.len, if r.failed then -1 else r.got.length, r.got⟩] ∧
      Follows file (plain.read file).pos (plain.read file).eof tmpbuff tmpbsize tmpbidx supply
        none := by
  obtain ⟨pos, hpath, hread⟩ := hfollows
  unfold Plain.read
  rcases hread with ⟨heof, htmp, hfailed, -, hgot, rfl⟩ | ⟨heof, hfailed, hpos, hgot, hrest⟩
  · rw [if_pos heof, hfailed, hgot, hwant]
    exact ⟨rfl, hpath, fun _ ↦ htmp, fun _ ↦ heof⟩
  · have hn : min plain.want (file.size - plain.pos) = r.got.length := by
      rcases hrest with ⟨htmp, -, hless⟩ | ⟨htmp, hlen, -⟩ <;>
        rcases hpath with ⟨hend, hsize⟩ | ⟨kept, hkept, hle, -⟩ <;> omega
    have hmet : (decide (r.got.length < r.len) = true) ↔ tmpbsize = -1 := by
      rw [decide_eq_true_eq]
      rcases hrest with ⟨htmp, -, hless⟩ | ⟨htmp, hlen, -⟩ <;> omega
    rw [if_neg (by rw [heof]; decide), hfailed]
    rw [hwant] at hn
    simp only [hwant, hn]
    rw [← hgot, ← hpos]
    exact ⟨rfl, hpath, hmet⟩

end Reads

end Katmai.StioEngine
