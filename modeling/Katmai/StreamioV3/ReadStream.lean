import Katmai.StreamioV3.BlockDelivery

/-!
# `stiov3_read` reads a file as a stream

`internal_read` gives whole blocks, and `stiov3_read` is called with any length. A request below the
size of a block goes through `readbuffer`, which keeps what has not been asked for; a larger one
gets its blocks where it wants them; one call may do both.

`ReadsAt` says where a channel stands in the file: what is kept ends where the blocks that have been
read end, which is before the wanted block or at the end of the file. `partialRead_spec` says that
`stiov3_partial_read` moves on from there by what it returns, `stiov3Read_spec` that its loop gets
all that is wanted or left, and `stiov3_read_stream` that any calls after a `stiov3_reopen` or a
`stiov3_seek` read the file as a stream from the start of a block on.
-/

set_option autoImplicit false
set_option relaxedAutoImplicit false

namespace Katmai.StreamioV3

open Foundation

/-! ### The functions -/

/-- A channel with what `stiov3_read` keeps: `rdbuflen` bytes of `readbuffer` from `rdbufidx` on. -/
structure ReadChannel where
  channel : ClientChannel
  readbuffer : ℕ → UInt8
  rdbufidx : ℕ
  rdbuflen : ℤ

/-- What a read ends with: the return value, the buffer of its caller, and the channel. -/
structure ReadReturn where
  rc : ℤ
  buffer : ℕ → UInt8
  state : ReadChannel

/-- The bytes that a read returns. -/
def ReadReturn.bytes (r : ReadReturn) : List UInt8 :=
  segment r.buffer 0 r.rc.toNat

/-- `internal_read` with `&buffer[start]`, if all packets of the wanted block arrive: the return
value, the buffer and the channel. -/
def internalRead (file : RegularFile) (cl : ClientChannel) (buffer : ℕ → UInt8) (start : ℕ) :
    ℤ × (ℕ → UInt8) × ClientChannel :=
  if cl.blockwant ≥ cl.blockcnt then (-1, buffer, cl)
  else
    (cl.expectLen,
      copyInto buffer start cl.expectLen.toNat fun j ↦ file.byte (32768 * cl.blockwant + j),
      cl.endRead)

namespace ReadChannel

variable (s : ReadChannel)

/-- `stiov3_reopen`. -/
def stiov3Reopen : ReadChannel :=
  { s with channel := s.channel.stiov3Reopen, rdbufidx := 0, rdbuflen := 0 }

/-- `stiov3_seek`. -/
def stiov3Seek (pos : Int32) : ReadChannel :=
  { s with channel := s.channel.stiov3Seek pos.toInt, rdbufidx := 0, rdbuflen := 0 }

/-- `stiov3_partial_read` with `&buffer[start]`. -/
def stiov3PartialRead (file : RegularFile) (buffer : ℕ → UInt8) (start : ℕ) (len : ℤ) :
    ReadReturn :=
  if len ≤ 0 then ⟨len, buffer, s⟩
  else if 0 < s.rdbuflen then
    if s.rdbuflen ≤ len then
      { rc := s.rdbuflen
        buffer := copyInto buffer start s.rdbuflen.toNat fun j ↦ s.readbuffer (s.rdbufidx + j)
        state := { s with rdbuflen := 0, rdbufidx := 0 } }
    else
      { rc := len
        buffer := copyInto buffer start len.toNat fun j ↦ s.readbuffer (s.rdbufidx + j)
        state := { s with rdbuflen := s.rdbuflen - len, rdbufidx := s.rdbufidx + len.toNat } }
  else if len < 32768 then
    let block := internalRead file s.channel s.readbuffer 0
    let s := { s with channel := block.2.2, readbuffer := block.2.1 }
    if 0 < block.1 then
      if block.1 ≤ len then
        { rc := block.1, buffer := copyInto buffer start block.1.toNat s.readbuffer, state := s }
      else
        { rc := len
          buffer := copyInto buffer start len.toNat s.readbuffer
          state := { s with rdbuflen := block.1 - len, rdbufidx := len.toNat } }
    else ⟨block.1, buffer, s⟩
  else
    let block := internalRead file s.channel buffer start
    ⟨block.1, block.2.1, { s with channel := block.2.2 }⟩

/-- The loop of `stiov3_read`, for at most `fuel` turns. Its variables `rc` and `bs` are equal. -/
def stiov3ReadLoop (file : RegularFile) :
    ℕ → ReadChannel → (ℕ → UInt8) → ℕ → ℤ → ReadReturn
  | 0, s, buffer, bs, _ => ⟨bs, buffer, s⟩
  | fuel + 1, s, buffer, bs, explen =>
    if explen > 0 then
      let r := s.stiov3PartialRead file buffer bs explen
      if r.rc ≤ 0 then ⟨bs, r.buffer, r.state⟩
      else stiov3ReadLoop file fuel r.state r.buffer (bs + r.rc.toNat) (explen - r.rc)
    else ⟨bs, buffer, s⟩

/-- `stiov3_read`. Every turn but the last gets a byte. -/
def stiov3Read (file : RegularFile) (buffer : ℕ → UInt8) (len : ℤ) : ReadReturn :=
  stiov3ReadLoop file (len.toNat + 1) s buffer 0 len

end ReadChannel

/-! ### The place of a channel in the file -/

/-- `file` is open on the channel. -/
structure Opened (file : RegularFile) (cl : ClientChannel) : Prop where
  filesize_eq : cl.filesize = file.size
  blockcnt_eq : cl.blockcnt = blockCount file.size

/-- `stiov3_read` goes on at offset `pos` of `file`: it keeps the bytes from there to the end of the
last block that was read. -/
structure ReadsAt (file : RegularFile) (s : ReadChannel) (pos : ℕ) : Prop where
  opened : Opened file s.channel
  rdbuflen_nonneg : 0 ≤ s.rdbuflen
  pos_eq : pos + s.rdbuflen = (min (32768 * s.channel.blockwant) file.size : ℕ)
  kept : ∀ j : ℕ, j < s.rdbuflen → s.readbuffer (s.rdbufidx + j) = file.byte (pos + j)

section Reads

variable {file : RegularFile} {s : ReadChannel} {pos : ℕ}

/-- The blocks of a file are those that begin inside it. -/
theorem lt_blockCount {size block : ℕ} : block < blockCount size ↔ 32768 * block < size := by
  unfold blockCount
  split_ifs <;> omega

/-- What `internal_read` gives for a block of the file. -/
theorem internalRead_of_lt {cl : ClientChannel} (hcl : Opened file cl)
    (hlt : 32768 * cl.blockwant < file.size) (buffer : ℕ → UInt8) (start : ℕ) :
    internalRead file cl buffer start =
      ((blockLen file cl.blockwant : ℤ),
        copyInto buffer start (blockLen file cl.blockwant)
          fun j ↦ file.byte (32768 * cl.blockwant + j), cl.endRead) := by
  have hblock := lt_blockCount.mpr hlt
  unfold internalRead
  rw [if_neg (by rw [hcl.blockcnt_eq]; omega),
    expectLen_of_open hcl.filesize_eq hcl.blockcnt_eq hblock, Int.toNat_natCast]

/-- Past the last block `internal_read` refuses. -/
theorem internalRead_of_ge {cl : ClientChannel} (hcl : Opened file cl)
    (hge : file.size ≤ 32768 * cl.blockwant) (buffer : ℕ → UInt8) (start : ℕ) :
    internalRead file cl buffer start = (-1, buffer, cl) := by
  have hblock := lt_blockCount.not.mpr (Nat.not_lt.mpr hge)
  unfold internalRead
  rw [if_pos (by rw [hcl.blockcnt_eq]; omega)]

/-- A read returns the `n > 0` bytes of the file from `pos` on, at `&buffer[start]`, and moves on.
-/
structure Moves (file : RegularFile) (pos : ℕ) (buffer : ℕ → UInt8) (start n : ℕ)
    (r : ReadReturn) : Prop where
  rc_eq : r.rc = n
  n_pos : 0 < n
  inside : pos + n ≤ file.size
  buffer_eq : r.buffer = copyInto buffer start n fun j ↦ file.byte (pos + j)
  readsAt : ReadsAt file r.state (pos + n)

/-- Some of the kept bytes are returned. -/
theorem moves_of_kept (hs : ReadsAt file s pos) {n idx : ℕ} (hpos : 0 < n) (hn : n ≤ s.rdbuflen)
    (hidx : n < s.rdbuflen → idx = s.rdbufidx + n) (buffer : ℕ → UInt8) (start : ℕ) :
    Moves file pos buffer start n
      { rc := n
        buffer := copyInto buffer start n fun j ↦ s.readbuffer (s.rdbufidx + j)
        state := { s with rdbuflen := s.rdbuflen - n, rdbufidx := idx } } := by
  have hend := hs.pos_eq
  refine ⟨rfl, hpos, by omega, copyInto_congr fun j hj ↦ hs.kept j (by omega), hs.opened, ?_, ?_,
    ?_⟩
  · show 0 ≤ s.rdbuflen - n
    omega
  · show ((pos + n : ℕ) : ℤ) + (s.rdbuflen - n) =
      (min (32768 * s.channel.blockwant) file.size : ℕ)
    omega
  · intro j hj
    have hlt : j < s.rdbuflen - n := hj
    show s.readbuffer (idx + j) = file.byte (pos + n + j)
    rw [hidx (by omega), Nat.add_assoc, Nat.add_assoc]
    exact hs.kept (n + j) (by omega)

/-- With nothing kept, the channel is before the wanted block, or at the end of the file. -/
theorem ReadsAt.of_nothing_kept (hs : ReadsAt file s pos) (hnone : ¬ 0 < s.rdbuflen) :
    pos = min (32768 * s.channel.blockwant) file.size := by
  have hend := hs.pos_eq
  have hnonneg := hs.rdbuflen_nonneg
  omega

/-- A block has been read into `readbuffer` and nothing of it returned. -/
theorem readsAt_of_block (hs : ReadsAt file s pos) (hnone : ¬ 0 < s.rdbuflen)
    (hlt : pos < file.size) :
    ReadsAt file
      { channel := s.channel.endRead
        readbuffer := copyInto s.readbuffer 0 (blockLen file s.channel.blockwant)
          fun j ↦ file.byte (32768 * s.channel.blockwant + j)
        rdbufidx := 0
        rdbuflen := blockLen file s.channel.blockwant } pos := by
  have hpos := hs.of_nothing_kept hnone
  have hlen : blockLen file s.channel.blockwant = min 32768 (file.size - pos) := by
    unfold blockLen
    omega
  have hnext : s.channel.endRead.blockwant = s.channel.blockwant + 1 := rfl
  refine ⟨⟨hs.opened.filesize_eq, hs.opened.blockcnt_eq⟩, Int.natCast_nonneg _, ?_, ?_⟩
  · simp only [hnext]
    omega
  · intro j hj
    simp only at hj ⊢
    rw [copyInto_of_mem (Nat.zero_le _) (by omega)]
    congr 1
    omega

/-- `stiov3_partial_read` returns some of the bytes that follow, or meets the end of the file. -/
theorem partialRead_spec (hs : ReadsAt file s pos) {len : ℤ} (hlen : 0 < len)
    (buffer : ℕ → UInt8) (start : ℕ) :
    (pos = file.size ∧ s.stiov3PartialRead file buffer start len = ⟨-1, buffer, s⟩) ∨
      ∃ n : ℕ, n ≤ len ∧
        Moves file pos buffer start n (s.stiov3PartialRead file buffer start len) := by
  unfold ReadChannel.stiov3PartialRead
  rw [if_neg (by omega)]
  by_cases hsome : 0 < s.rdbuflen
  · right
    rw [if_pos hsome]
    by_cases hall : s.rdbuflen ≤ len
    · rw [if_pos hall]
      refine ⟨s.rdbuflen.toNat, by omega, ?_⟩
      have hall' : (s.rdbuflen.toNat : ℤ) = s.rdbuflen := Int.toNat_of_nonneg hs.rdbuflen_nonneg
      have hmoves : Moves file pos buffer start s.rdbuflen.toNat _ :=
        @moves_of_kept _ _ _ hs _ 0 (by omega) (by omega) (by omega) buffer start
      rwa [hall', Int.sub_self] at hmoves
    · rw [if_neg hall]
      refine ⟨len.toNat, by omega, ?_⟩
      have hlen' : (len.toNat : ℤ) = len := Int.toNat_of_nonneg (by omega)
      have hmoves : Moves file pos buffer start len.toNat _ :=
        moves_of_kept hs (by omega) (by omega) (fun _ ↦ rfl) buffer start
      rwa [hlen'] at hmoves
  · rw [if_neg hsome]
    have hnonneg := hs.rdbuflen_nonneg
    have hzero : s.rdbuflen = 0 := by omega
    have hpos := hs.of_nothing_kept hsome
    by_cases hend : file.size ≤ 32768 * s.channel.blockwant
    · left
      refine ⟨by omega, ?_⟩
      rw [internalRead_of_ge hs.opened hend, internalRead_of_ge hs.opened hend]
      split_ifs
      · rfl
      · rfl
    · right
      have hlt : 32768 * s.channel.blockwant < file.size := by omega
      have hblockLen : blockLen file s.channel.blockwant = min 32768 (file.size - pos) := by
        unfold blockLen
        omega
      have hblock := readsAt_of_block hs hsome (by omega)
      rw [internalRead_of_lt hs.opened hlt, internalRead_of_lt hs.opened hlt]
      set n := blockLen file s.channel.blockwant with hn
      by_cases hshort : len < 32768
      · rw [if_pos hshort]
        simp only
        rw [if_pos (show (0 : ℤ) < n by omega)]
        by_cases hwhole : (n : ℤ) ≤ len
        · rw [if_pos hwhole]
          refine ⟨n, hwhole, ?_⟩
          have hmoves : Moves file pos buffer start n _ :=
            @moves_of_kept _ _ _ hblock n s.rdbufidx (by omega) (Int.le_refl _) (by simp) buffer
              start
          simpa [hzero] using hmoves
        · rw [if_neg hwhole]
          refine ⟨len.toNat, by omega, ?_⟩
          have hlen' : (len.toNat : ℤ) = len := Int.toNat_of_nonneg (by omega)
          have hmoves : Moves file pos buffer start len.toNat _ :=
            @moves_of_kept _ _ _ hblock len.toNat len.toNat (by omega) (by simp only; omega)
              (by simp) buffer start
          simpa [hlen'] using hmoves
      · rw [if_neg hshort]
        have hstart : 32768 * s.channel.blockwant = pos := by omega
        have hnext : s.channel.endRead.blockwant = s.channel.blockwant + 1 := rfl
        refine ⟨n, by omega, rfl, by omega, by omega, by simp only [hstart], ?_⟩
        refine ⟨⟨hs.opened.filesize_eq, hs.opened.blockcnt_eq⟩, hnonneg, ?_, ?_⟩
        · simp only [hnext, hzero]
          omega
        · simp only [hzero]
          omega

/-- The loop of `stiov3_read` gets what is wanted, or all that is left. -/
theorem stiov3ReadLoop_spec (fuel : ℕ) (hs : ReadsAt file s pos) (buffer : ℕ → UInt8) (bs : ℕ)
    {explen : ℤ} (hfuel : explen.toNat < fuel) :
    (s.stiov3ReadLoop file fuel buffer bs explen).rc =
        (bs + min explen.toNat (file.size - pos) : ℕ) ∧
      (s.stiov3ReadLoop file fuel buffer bs explen).buffer =
        copyInto buffer bs (min explen.toNat (file.size - pos)) (fun j ↦ file.byte (pos + j)) ∧
      ReadsAt file (s.stiov3ReadLoop file fuel buffer bs explen).state
        (pos + min explen.toNat (file.size - pos)) := by
  induction fuel generalizing s pos buffer bs explen with
  | zero => omega
  | succ fuel ih =>
    have hstop (hzero : min explen.toNat (file.size - pos) = 0) :
        (⟨bs, buffer, s⟩ : ReadReturn).rc = (bs + min explen.toNat (file.size - pos) : ℕ) ∧
          (⟨bs, buffer, s⟩ : ReadReturn).buffer =
            copyInto buffer bs (min explen.toNat (file.size - pos)) (fun j ↦ file.byte (pos + j)) ∧
          ReadsAt file (⟨bs, buffer, s⟩ : ReadReturn).state
            (pos + min explen.toNat (file.size - pos)) := by
      rw [hzero]
      exact ⟨rfl, (copyInto_zero _ _ _).symm, hs⟩
    rw [ReadChannel.stiov3ReadLoop]
    by_cases hwant : explen > 0
    · rw [if_pos hwant]
      rcases partialRead_spec hs hwant buffer bs with ⟨hend, hrefused⟩ | ⟨n, hle, hmoves⟩
      · rw [hrefused]
        exact hstop (by omega)
      · have hpos := hmoves.n_pos
        have hinside := hmoves.inside
        have hfuel' : (explen - n).toNat < fuel := by omega
        obtain ⟨hrc, hbuffer, hnext⟩ := ih hmoves.readsAt
          (s.stiov3PartialRead file buffer bs explen).buffer (bs + n) hfuel'
        have hsum : n + min (explen - n).toNat (file.size - (pos + n)) =
            min explen.toNat (file.size - pos) := by omega
        simp only [hmoves.rc_eq, Int.toNat_natCast]
        rw [if_neg (by omega), ← hsum]
        refine ⟨by rw [hrc]; omega, ?_, ?_⟩
        · rw [hbuffer, hmoves.buffer_eq, ← copyInto_copyInto]
          refine copyInto_congr fun j _ ↦ ?_
          rw [Nat.add_assoc]
        · rw [← Nat.add_assoc]
          exact hnext
    · rw [if_neg hwant]
      exact hstop (by omega)

/-- `stiov3_read` gets what is wanted, or all that is left. -/
theorem stiov3Read_spec (hs : ReadsAt file s pos) (buffer : ℕ → UInt8) (len : ℤ) :
    (s.stiov3Read file buffer len).rc = (min len.toNat (file.size - pos) : ℕ) ∧
      (s.stiov3Read file buffer len).bytes =
        segment file.byte pos (min len.toNat (file.size - pos)) ∧
      ReadsAt file (s.stiov3Read file buffer len).state
        (pos + min len.toNat (file.size - pos)) := by
  obtain ⟨hrc, hbuffer, hnext⟩ :=
    stiov3ReadLoop_spec (len.toNat + 1) hs buffer 0 (Nat.lt_succ_self len.toNat)
  rw [Nat.zero_add] at hrc
  refine ⟨hrc, ?_, hnext⟩
  unfold ReadReturn.bytes ReadChannel.stiov3Read
  rw [hrc, hbuffer, Int.toNat_natCast]
  refine segment_congr fun j hj ↦ ?_
  rw [copyInto_of_mem (by omega) (by omega), Nat.sub_zero, Nat.zero_add]

/-! ### Sequences of reads -/

/-- A call of `stiov3_read`: the buffer and its length. -/
structure ReadCall where
  buffer : ℕ → UInt8
  len : ℤ

/-- `stiov3_read` as an object that answers calls with the bytes it returns. -/
def readCall (file : RegularFile) (s : ReadChannel) (call : ReadCall) :
    Option (List UInt8 × ReadChannel) :=
  some ((s.stiov3Read file call.buffer call.len).bytes,
    (s.stiov3Read file call.buffer call.len).state)

/-- The channel is at a place of the file from which these bytes are left. -/
def Left (file : RegularFile) (s : ReadChannel) (rest : List UInt8) : Prop :=
  ∃ pos, ReadsAt file s pos ∧ rest = file.bytesFrom pos

/-- A call reads the stream of the bytes that are left. -/
theorem readCall_refines (file : RegularFile) (s : ReadChannel) (rest : List UInt8)
    (call : ReadCall) (hs : Left file s rest) :
    ∃ t, readCall file s call = some ((readStream rest call.len.toNat).1, t) ∧
      Left file t (readStream rest call.len.toNat).2 := by
  obtain ⟨pos, hs, rfl⟩ := hs
  obtain ⟨-, hbytes, hnext⟩ := stiov3Read_spec hs call.buffer call.len
  refine ⟨_, ?_, _, hnext, ?_⟩
  · rw [readCall, hbytes, readStream, take_bytesFrom]
  · exact drop_bytesFrom file pos call.len.toNat

/-- What comes before the reads: `stiov3_reopen` or `stiov3_seek`. -/
inductive Restart
  | reopen
  | seek (pos : Int32)

/-- The call is made. -/
def ReadChannel.restart (s : ReadChannel) : Restart → ReadChannel
  | .reopen => s.stiov3Reopen
  | .seek pos => s.stiov3Seek pos

/-- The position of a seek is not negative. -/
def Restart.Nonneg : Restart → Prop
  | .reopen => True
  | .seek pos => 0 ≤ pos.toInt

/-- The start of the block at which the reads begin. -/
def Restart.offset : Restart → ℕ
  | .reopen => 0
  | .seek pos => 32768 * (pos.toInt / 32768).toNat

/-- After the restart the channel is at the start of a block. -/
theorem left_restart (hopened : Opened file s.channel) {restart : Restart}
    (hnonneg : restart.Nonneg) :
    Left file (s.restart restart) (file.bytesFrom restart.offset) := by
  have hat (cl : ClientChannel) (hcl : Opened file cl)
      (hblock : 32768 * cl.blockwant = restart.offset) :
      Left file { s with channel := cl, rdbufidx := 0, rdbuflen := 0 }
        (file.bytesFrom restart.offset) := by
    refine ⟨min restart.offset file.size, ⟨hcl, Int.le_refl 0, ?_, ?_⟩, (bytesFrom_min _ _).symm⟩
    · rw [← hblock]
      exact Int.add_zero _
    · intro j hj
      exact absurd hj (by simp)
  cases restart with
  | reopen => exact hat s.channel.stiov3Reopen ⟨hopened.filesize_eq, hopened.blockcnt_eq⟩ rfl
  | seek pos =>
    refine hat (s.channel.stiov3Seek pos.toInt) ⟨hopened.filesize_eq, hopened.blockcnt_eq⟩ ?_
    have hpos : 0 ≤ pos.toInt := hnonneg
    have hrange := pos.toInt_lt
    show 32768 * (pos.toInt.tdiv 32768 % 2 ^ 32).toNat = 32768 * (pos.toInt / 32768).toNat
    rw [Int.tdiv_eq_ediv_of_nonneg hpos, Int.emod_eq_of_lt] <;> omega

/-- With a file open, and whatever was read before: after a `stiov3_reopen` or a `stiov3_seek` to a
position that is not negative, any calls of `stiov3_read` return the file from the start of the
block of that position on, as much as they ask for in all; and a further call that returns less
than it is asked for has returned the last byte. -/
theorem stiov3_read_stream (hopened : Opened file s.channel) {restart : Restart}
    (hnonneg : restart.Nonneg) (calls : List ReadCall) :
    ∃ answers t, serve (readCall file) (s.restart restart) calls = some (answers, t) ∧
      answers.flatten =
        (file.bytesFrom restart.offset).take (calls.map fun call ↦ call.len.toNat).sum ∧
      ∀ call : ReadCall, (t.stiov3Read file call.buffer call.len).rc < call.len →
        answers.flatten ++ (t.stiov3Read file call.buffer call.len).bytes =
          file.bytesFrom restart.offset := by
  have hcalls : replies (fun rest (call : ReadCall) ↦ readStream rest call.len.toNat)
      (file.bytesFrom restart.offset) calls =
        replies readStream (file.bytesFrom restart.offset)
          (calls.map fun call ↦ call.len.toNat) := replies_comp _ _ _
  obtain ⟨t, hserve, hleft⟩ :=
    serve_of_refines (readCall_refines file) (left_restart hopened hnonneg) calls
  rw [hcalls] at hserve hleft
  refine ⟨_, t, hserve, flatten_replies_readStream _ _, fun call hshort ↦ ?_⟩
  obtain ⟨pos, hs, hrest⟩ := hleft
  obtain ⟨hrc, hbytes, -⟩ := stiov3Read_spec hs call.buffer call.len
  have hanswer : (t.stiov3Read file call.buffer call.len).bytes =
      (readStream (replies readStream (file.bytesFrom restart.offset)
        (calls.map fun call ↦ call.len.toNat)).2 call.len.toNat).1 := by
    rw [hbytes, hrest, readStream, take_bytesFrom]
  rw [hanswer]
  refine flatten_of_short_read _ _ ?_
  rw [← hanswer, hbytes, length_segment]
  omega

end Reads

/-- A file of two blocks, the second one short. -/
def shortBlockFile : RegularFile where
  size := 40000
  size_lt := by decide
  byte := fun j ↦ UInt8.ofNat (j / 7)

/-- A channel on which it is open, with bytes of some earlier block kept. -/
def shortBlockChannel : ReadChannel where
  channel := { tinySession.client with filesize := 40000, blockcnt := 2, blockwant := 7 }
  readbuffer := fun _ ↦ 1
  rdbufidx := 12
  rdbuflen := 9

/-- After a seek into the first block, a small request and one that goes past the end. -/
theorem stiov3_read_stream_shortBlock :
    ∃ answers t, serve (readCall shortBlockFile) (shortBlockChannel.restart (.seek 5))
        [⟨fun _ ↦ 0, 100⟩, ⟨fun _ ↦ 0, 60000⟩] = some (answers, t) ∧
      answers.flatten = (shortBlockFile.bytesFrom (Restart.seek 5).offset).take (100 + 60000) ∧
      ∀ call : ReadCall, (t.stiov3Read shortBlockFile call.buffer call.len).rc < call.len →
        answers.flatten ++ (t.stiov3Read shortBlockFile call.buffer call.len).bytes =
          shortBlockFile.bytesFrom (Restart.seek 5).offset := by
  have hopened : Opened shortBlockFile shortBlockChannel.channel := ⟨rfl, by decide⟩
  have hnonneg : (Restart.seek 5).Nonneg := show (0 : ℤ) ≤ Int32.toInt 5 by decide
  exact stiov3_read_stream hopened hnonneg [⟨fun _ ↦ 0, 100⟩, ⟨fun _ ↦ 0, 60000⟩]

end Katmai.StreamioV3
