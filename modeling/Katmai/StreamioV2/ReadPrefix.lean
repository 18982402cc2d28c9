import Katmai.StreamioV2.FetchDelivery

/-!
# What `cli_read` returns across aborts

`cli_read` hands out the block in the buffer piece by piece and asks `internal_read` for block
`ndcnt` when nothing is left of it. After an abort `internal_read` may fail. `cli_read` then returns
`-1`, but it has already counted the block: the next `internal_read` is for the block after it, and
the one that failed is never read (`failed_block_is_skipped`).

`meets_inOrder_iff` says that this is all that goes wrong. Over any calls after a `cli_openfile` or
a `cli_reopen`, the bytes returned are a prefix of the file with no block skipped or repeated
exactly when no block is read after a failure; and as long as no call fails, the whole file comes
and then `-1`. A failure shows in the state before the next call as a negative `blen`.
-/

set_option autoImplicit false
set_option relaxedAutoImplicit false

namespace Katmai.StreamioV2

open Foundation ClientLocal

/-! ### The calls -/

/-- How an `internal_read` ends: every packet of the block has come into the buffer, which held
`buffer`, or it fails and leaves `buffer`. -/
inductive Fetch
  | delivered (buffer : ℕ → UInt8)
  | failed (buffer : ℕ → UInt8)

/-- What `cli_read` ends with: the return value, the bytes in the buffer of its caller, and the
channel. -/
structure CliReturn where
  rc : ℤ
  bytes : List UInt8
  client : ClientLocal

namespace ClientLocal

variable (cl : ClientLocal)

/-- `internal_read`, called by `cli_read`. -/
def internalRead (file : RegularFile) : Fetch → ℤ × ClientLocal
  | .delivered buffer =>
    (cl.readLen,
      { cl.beginRead with
        buffer := copyInto buffer 0 cl.readLen.toNat fun j ↦
          file.byte (cl.ndcnt.toNat * cl.netBufsize + j) })
  | .failed buffer => (-1, { cl.beginRead with buffer := buffer })

/-- The last lines of `cli_read`. -/
def giveBytes (len : ℕ) : CliReturn :=
  if cl.blen > 0 then
    let rc : ℤ := if cl.blen ≥ len then len else cl.blen
    ⟨rc, segment cl.buffer cl.bidx.toNat rc.toNat, cl.takeBytes len⟩
  else ⟨-1, [], cl.takeBytes len⟩

/-- `cli_read`. -/
def cliRead (file : RegularFile) (len : ℕ) (fetch : Fetch) : CliReturn :=
  if cl.haveFile = false then ⟨-1, [], cl⟩
  else if cl.blen ≤ 0 then
    if cl.ndcnt ≥ cl.ndtotal then ⟨-1, [], cl⟩
    else
      let fetched := cl.internalRead file fetch
      (fetched.2.endRead fetched.1).giveBytes len
  else cl.giveBytes len

/-- `cli_abort`. -/
def cliAbort : ClientLocal :=
  { cl with abort := true }

end ClientLocal

/-- A channel and the bytes that `cli_read` has returned since the last `cli_openfile` or
`cli_reopen`. -/
structure Reader where
  client : ClientLocal
  returned : List UInt8

/-- A call of the application. -/
inductive ReadCall
  | read (len : ℕ) (fetch : Fetch)
  | abort

/-- The reader after a `cli_read`. -/
def Reader.read (s : Reader) (file : RegularFile) (len : ℕ) (fetch : Fetch) : Reader :=
  ⟨(s.client.cliRead file len fetch).client, s.returned ++ (s.client.cliRead file len fetch).bytes⟩

/-- One call. Without an abort `internal_read` does not return before it has the block. -/
def readStep (file : RegularFile) (s : Reader) : ReadCall → Option Reader
  | .read len (.delivered buffer) => some (s.read file len (.delivered buffer))
  | .read len (.failed buffer) =>
    if s.client.NeedsBlock ∧ s.client.abort = false then none
    else some (s.read file len (.failed buffer))
  | .abort => some { s with client := s.client.cliAbort }

/-- The call gets a block from `internal_read`. -/
def Gets (s : Reader) : ReadCall → Prop
  | .read _ (.delivered _) => s.client.NeedsBlock
  | _ => False

/-- After the call the bytes returned are a prefix of the file, and a block that it gets is the one
at which they ended. -/
def InOrder (file : RegularFile) (s : Reader) (call : ReadCall) : Prop :=
  (∀ s', readStep file s call = some s' → s'.returned <+: file.bytesFrom 0) ∧
    (Gets s call → (s.returned.length : ℤ) = s.client.ndcnt * s.client.netBufsize)

/-- No block is read after a failure. -/
def NotAfterFailure (s : Reader) (call : ReadCall) : Prop :=
  Gets s call → 0 ≤ s.client.blen

/-! ### The place of a channel in the file -/

/-- `file` is open on the channel. -/
structure HasFile (file : RegularFile) (cl : ClientLocal) : Prop where
  haveFile_eq : cl.haveFile = true
  fsize_eq : cl.fsize = file.size
  net_pos : 0 < cl.netBufsize
  ndtotal_eq : cl.ndtotal = blockTotal file.size cl.netBufsize

/-- `cli_read` goes on at offset `pos`: what is left in the buffer are the bytes from there to the
end of the block before `ndcnt`. -/
structure GoesOnAt (file : RegularFile) (cl : ClientLocal) (pos : ℕ) : Prop where
  hasFile : HasFile file cl
  blen_nonneg : 0 ≤ cl.blen
  bidx_nonneg : 0 ≤ cl.bidx
  pos_eq : ∃ n : ℕ, cl.ndcnt = n ∧ pos + cl.blen = (min (cl.netBufsize * n) file.size : ℕ)
  left : ∀ j : ℕ, j < cl.blen → cl.buffer (cl.bidx.toNat + j) = file.byte (pos + j)

/-- The last `internal_read` has failed, and `ndcnt` has passed `pos`. -/
structure PassedBy (file : RegularFile) (cl : ClientLocal) (pos : ℕ) : Prop where
  hasFile : HasFile file cl
  blen_neg : cl.blen < 0
  passed : ∃ n : ℕ, cl.ndcnt = n ∧ pos < cl.netBufsize * n

/-- The bytes returned are a prefix of the file, and the channel goes on behind them or has passed
them by. -/
def ReaderOk (file : RegularFile) (s : Reader) : Prop :=
  s.returned <+: file.bytesFrom 0 ∧
    (GoesOnAt file s.client s.returned.length ∨ PassedBy file s.client s.returned.length)

section Reads

variable {file : RegularFile} {cl : ClientLocal} {pos : ℕ}

/-- The blocks that begin inside the file are before `ndtotal`. -/
theorem size_le_of_blockTotal_le {size netBufsize b : ℕ} (hnet : 0 < netBufsize)
    (hle : blockTotal size netBufsize ≤ b) : size ≤ netBufsize * b := by
  have hdiv := Nat.div_add_mod size netBufsize
  have hmod := Nat.mod_lt size hnet
  unfold blockTotal at hle
  rw [Int.tdiv_eq_ediv_of_nonneg (Int.natCast_nonneg size),
    Int.tmod_eq_emod_of_nonneg (Int.natCast_nonneg size), ← Int.natCast_ediv,
    ← Int.natCast_emod] at hle
  have hblocks : size / netBufsize + (if size % netBufsize ≠ 0 then 1 else 0) ≤ b := by
    split_ifs at hle ⊢ <;> omega
  have hmul := Nat.mul_le_mul_left netBufsize hblocks
  rw [Nat.mul_add] at hmul
  split_ifs at hmul <;> omega

/-- The number of bytes that `internal_read` returns for a block of the file. -/
theorem readLen_of_hasFile (hfile : HasFile file cl) {n : ℕ} (hndcnt : cl.ndcnt = n)
    (hlt : cl.netBufsize * n < file.size) :
    cl.readLen = (min cl.netBufsize (file.size - cl.netBufsize * n) : ℕ) := by
  have hleft : cl.lenLeft = ((file.size - cl.netBufsize * n : ℕ) : ℤ) := by
    unfold lenLeft
    rw [hfile.fsize_eq, hndcnt, ← Int.natCast_mul, Nat.mul_comm]
    omega
  unfold readLen
  rw [hleft]
  split_ifs <;> omega

/-- The last lines of `cli_read` return what is left in the buffer, up to the wanted length. -/
theorem giveBytes_spec (hcl : GoesOnAt file cl pos) (len : ℕ) :
    (cl.giveBytes len).bytes = segment file.byte pos (min len cl.blen.toNat) ∧
      GoesOnAt file (cl.giveBytes len).client (pos + min len cl.blen.toNat) := by
  obtain ⟨hfile, hblen, hbidx, ⟨n, hndcnt, hpos⟩, hleft⟩ := hcl
  have hrc : (if cl.blen ≥ len then (len : ℤ) else cl.blen) = (min len cl.blen.toNat : ℕ) := by
    split_ifs <;> omega
  have hle : min len cl.blen.toNat ≤ cl.blen.toNat := Nat.min_le_right _ _
  unfold giveBytes takeBytes
  by_cases hsome : cl.blen > 0
  · simp only [if_pos hsome, hrc, Int.toNat_natCast]
    generalize min len cl.blen.toNat = rc at hle
    refine ⟨segment_congr fun j hj ↦ hleft j (by omega),
      ⟨hfile.haveFile_eq, hfile.fsize_eq, hfile.net_pos, hfile.ndtotal_eq⟩, ?_, ?_,
      ⟨n, hndcnt, ?_⟩, ?_⟩
    · show 0 ≤ cl.blen - rc
      omega
    · show 0 ≤ cl.bidx + rc
      omega
    · show ((pos + rc : ℕ) : ℤ) + (cl.blen - rc) = (min (cl.netBufsize * n) file.size : ℕ)
      omega
    · intro j hj
      have hlt : j < cl.blen - rc := hj
      show cl.buffer ((cl.bidx + rc).toNat + j) = file.byte (pos + rc + j)
      rw [show (cl.bidx + rc).toNat + j = cl.bidx.toNat + (rc + j) by omega, Nat.add_assoc]
      exact hleft (rc + j) (by omega)
  · have hzero : min len cl.blen.toNat = 0 := by omega
    rw [if_neg hsome, if_neg hsome, hzero]
    exact ⟨rfl, hfile, hblen, hbidx, ⟨n, hndcnt, hpos⟩, hleft⟩

/-- With nothing left, the channel is at the start of the block it needs, which is in the file. -/
theorem GoesOnAt.of_needsBlock (hcl : GoesOnAt file cl pos) (hneeds : cl.NeedsBlock) :
    cl.blen = 0 ∧ ∃ n : ℕ, cl.ndcnt = n ∧ pos = cl.netBufsize * n ∧ pos < file.size := by
  obtain ⟨-, hempty, hmore⟩ := hneeds
  have hblen := hcl.blen_nonneg
  obtain ⟨n, hndcnt, hpos⟩ := hcl.pos_eq
  rw [hndcnt, hcl.hasFile.ndtotal_eq] at hmore
  have hlt := lt_blockTotal hcl.hasFile.net_pos hmore
  exact ⟨by omega, n, hndcnt, by omega, by omega⟩

/-- A block has come. -/
theorem goesOnAt_of_delivered (hcl : GoesOnAt file cl pos) (hneeds : cl.NeedsBlock)
    (buffer : ℕ → UInt8) :
    GoesOnAt file
        ((cl.internalRead file (.delivered buffer)).2.endRead
          (cl.internalRead file (.delivered buffer)).1) pos ∧
      0 < (cl.internalRead file (.delivered buffer)).1 := by
  obtain ⟨hzero, n, hndcnt, rfl, hlt⟩ := hcl.of_needsBlock hneeds
  have hlen := readLen_of_hasFile hcl.hasFile hndcnt hlt
  have hnet := hcl.hasFile.net_pos
  have hsucc : cl.netBufsize * (n + 1) = cl.netBufsize * n + cl.netBufsize := Nat.mul_succ _ _
  refine ⟨⟨⟨hcl.hasFile.haveFile_eq, hcl.hasFile.fsize_eq, hnet, hcl.hasFile.ndtotal_eq⟩, ?_,
    Int.le_refl 0, ⟨n + 1, ?_, ?_⟩, ?_⟩, ?_⟩
  · show 0 ≤ cl.readLen
    omega
  · show cl.ndcnt + 1 = ((n + 1 : ℕ) : ℤ)
    omega
  · show ((cl.netBufsize * n : ℕ) : ℤ) + cl.readLen =
      (min (cl.netBufsize * (n + 1)) file.size : ℕ)
    omega
  · intro j hj
    have hj' : j < cl.readLen := hj
    show copyInto buffer 0 cl.readLen.toNat
      (fun j ↦ file.byte (cl.ndcnt.toNat * cl.netBufsize + j)) (0 + j) = _
    rw [copyInto_of_mem (Nat.zero_le _) (by omega), hndcnt, Int.toNat_natCast, Nat.zero_add,
      Nat.sub_zero, Nat.mul_comm]
  · show 0 < cl.readLen
    omega

/-- The `internal_read` for a block has failed, and `cli_read` has counted it. -/
theorem passedBy_of_failed (hfile : HasFile file cl) {n : ℕ} (hndcnt : cl.ndcnt = n)
    (hle : pos ≤ cl.netBufsize * n) (buffer : ℕ → UInt8) :
    PassedBy file
      ((cl.internalRead file (.failed buffer)).2.endRead
        (cl.internalRead file (.failed buffer)).1) pos := by
  have hsucc : cl.netBufsize * (n + 1) = cl.netBufsize * n + cl.netBufsize := Nat.mul_succ _ _
  have hnet := hfile.net_pos
  refine ⟨⟨hfile.haveFile_eq, hfile.fsize_eq, hnet, hfile.ndtotal_eq⟩, ?_, n + 1, ?_, ?_⟩
  · show (-1 : ℤ) < 0
    decide
  · show cl.ndcnt + 1 = ((n + 1 : ℕ) : ℤ)
    omega
  · show pos < cl.netBufsize * (n + 1)
    omega

/-- A negative `blen` gives nothing. -/
theorem giveBytes_of_passedBy (hcl : PassedBy file cl pos) (len : ℕ) :
    cl.giveBytes len = ⟨-1, [], cl⟩ := by
  have hneg := hcl.blen_neg
  unfold giveBytes takeBytes
  rw [if_neg (by omega), if_neg (by omega)]

/-! ### The calls keep the place -/

/-- `cli_read` of an open file gets a block if it needs one and ends with its last lines. -/
theorem cliRead_of_hasFile (hfile : HasFile file cl) (len : ℕ) (fetch : Fetch) :
    cl.cliRead file len fetch =
      if cl.NeedsBlock then
        ((cl.internalRead file fetch).2.endRead (cl.internalRead file fetch).1).giveBytes len
      else cl.giveBytes len := by
  unfold cliRead
  rw [if_neg (by rw [hfile.haveFile_eq]; decide)]
  by_cases hempty : cl.blen ≤ 0
  · rw [if_pos hempty]
    by_cases hpast : cl.ndcnt ≥ cl.ndtotal
    · have hno : ¬ cl.NeedsBlock := fun hneeds ↦ absurd hneeds.2.2 (Int.not_lt.mpr hpast)
      rw [if_pos hpast, if_neg hno]
      unfold giveBytes takeBytes
      rw [if_neg (Int.not_lt.mpr hempty), if_neg (Int.not_lt.mpr hempty)]
    · have hneeds : cl.NeedsBlock := ⟨hfile.haveFile_eq, hempty, Int.not_le.mp hpast⟩
      rw [if_neg hpast, if_pos hneeds]
  · have hno : ¬ cl.NeedsBlock := fun hneeds ↦ hempty hneeds.2.1
    rw [if_neg hempty, if_neg hno]

/-- A call of `cli_read` that finds what it needs returns the bytes that follow. -/
theorem goesOnAt_give {s : Reader} (hpre : s.returned <+: file.bytesFrom 0)
    (hcl : GoesOnAt file cl s.returned.length) (len : ℕ) :
    s.returned ++ (cl.giveBytes len).bytes <+: file.bytesFrom 0 ∧
      GoesOnAt file (cl.giveBytes len).client (s.returned ++ (cl.giveBytes len).bytes).length ∧
      (s.returned ++ (cl.giveBytes len).bytes).length =
        s.returned.length + min len cl.blen.toNat := by
  obtain ⟨hbytes, hnext⟩ := giveBytes_spec hcl len
  obtain ⟨n, -, hpos⟩ := hnext.pos_eq
  have hblen := hnext.blen_nonneg
  rw [hbytes, List.length_append, length_segment]
  exact ⟨isPrefix_append_segment hpre (by omega), hnext, rfl⟩

/-- A call of `cli_read` that finds `blen` negative returns nothing. -/
theorem ReaderOk.refuse {s : Reader} (hpre : s.returned <+: file.bytesFrom 0)
    (hcl : PassedBy file cl s.returned.length) (len : ℕ) :
    ReaderOk file ⟨(cl.giveBytes len).client, s.returned ++ (cl.giveBytes len).bytes⟩ := by
  rw [giveBytes_of_passedBy hcl, List.append_nil]
  exact ⟨hpre, Or.inr hcl⟩

theorem ReaderOk.hasFile {s : Reader} (hs : ReaderOk file s) : HasFile file s.client :=
  hs.2.elim GoesOnAt.hasFile PassedBy.hasFile

/-- `cli_read` keeps the place, unless it reads a block after a failure. -/
theorem ReaderOk.read {s : Reader} (hs : ReaderOk file s) (len : ℕ) (fetch : Fetch)
    (hkept : NotAfterFailure s (.read len fetch)) : ReaderOk file (s.read file len fetch) := by
  have hfile := hs.hasFile
  obtain ⟨hpre, hplace⟩ := hs
  unfold Reader.read
  rw [cliRead_of_hasFile hfile]
  by_cases hneeds : s.client.NeedsBlock
  · rw [if_pos hneeds]
    cases fetch with
    | delivered buffer =>
      have hnonneg : 0 ≤ s.client.blen := hkept hneeds
      rcases hplace with hgoes | hpassed
      · obtain ⟨hnext, hplace, -⟩ :=
          goesOnAt_give hpre (goesOnAt_of_delivered hgoes hneeds buffer).1 len
        exact ⟨hnext, Or.inl hplace⟩
      · exact absurd hpassed.blen_neg (Int.not_lt.mpr hnonneg)
    | failed buffer =>
      rcases hplace with hgoes | hpassed
      · obtain ⟨-, n, hndcnt, hpos, -⟩ := hgoes.of_needsBlock hneeds
        exact .refuse hpre (passedBy_of_failed hfile hndcnt hpos.le buffer) len
      · obtain ⟨n, hndcnt, hlt⟩ := hpassed.passed
        exact .refuse hpre (passedBy_of_failed hfile hndcnt hlt.le buffer) len
  · rw [if_neg hneeds]
    rcases hplace with hgoes | hpassed
    · obtain ⟨hnext, hplace, -⟩ := goesOnAt_give hpre hgoes len
      exact ⟨hnext, Or.inl hplace⟩
    · exact .refuse hpre hpassed len

/-- A call keeps the place, unless it reads a block after a failure. -/
theorem ReaderOk.step {s s' : Reader} (hs : ReaderOk file s) {call : ReadCall}
    (hkept : NotAfterFailure s call) (hstep : readStep file s call = some s') :
    ReaderOk file s' := by
  cases call with
  | read len fetch =>
    have hread := hs.read len fetch hkept
    cases fetch with
    | delivered buffer =>
      obtain rfl := Option.some.inj hstep
      exact hread
    | failed buffer =>
      simp only [readStep] at hstep
      split_ifs at hstep with hwaits
      obtain rfl := Option.some.inj hstep
      exact hread
  | abort =>
    obtain rfl := Option.some.inj hstep
    have hfile : HasFile file s.client.cliAbort :=
      ⟨hs.hasFile.haveFile_eq, hs.hasFile.fsize_eq, hs.hasFile.net_pos, hs.hasFile.ndtotal_eq⟩
    obtain ⟨hpre, hgoes | hpassed⟩ := hs
    · exact ⟨hpre, Or.inl ⟨hfile, hgoes.blen_nonneg, hgoes.bidx_nonneg, hgoes.pos_eq,
        hgoes.left⟩⟩
    · exact ⟨hpre, Or.inr ⟨hfile, hpassed.blen_neg, hpassed.passed⟩⟩

/-- A call is in order exactly when it does not read a block after a failure. -/
theorem ReaderOk.inOrder_iff {s : Reader} (hs : ReaderOk file s) (call : ReadCall) :
    InOrder file s call ↔ NotAfterFailure s call := by
  constructor
  · rintro ⟨-, hnext⟩ hgets
    by_contra hneg
    rcases hs.2 with hgoes | hpassed
    · exact hneg hgoes.blen_nonneg
    · obtain ⟨n, hndcnt, hlt⟩ := hpassed.passed
      have heq := hnext hgets
      rw [hndcnt, ← Int.natCast_mul, Nat.mul_comm] at heq
      omega
  · intro hkept
    refine ⟨fun s' hstep ↦ (hs.step hkept hstep).1, fun hgets ↦ ?_⟩
    have hneeds : s.client.NeedsBlock := by
      cases call with
      | read len fetch =>
        cases fetch with
        | delivered buffer => exact hgets
        | failed buffer => exact hgets.elim
      | abort => exact hgets.elim
    rcases hs.2 with hgoes | hpassed
    · obtain ⟨-, n, hndcnt, hpos, -⟩ := hgoes.of_needsBlock hneeds
      rw [hndcnt, ← Int.natCast_mul, Nat.mul_comm, hpos]
    · exact absurd hpassed.blen_neg (Int.not_lt.mpr (hkept hgets))

/-! ### Runs -/

/-- After `cli_reopen` nothing has been returned and the channel goes on at the start. -/
theorem readerOk_cliReopen (hfile : HasFile file cl) : ReaderOk file ⟨cl.cliReopen, []⟩ := by
  refine ⟨List.nil_prefix, Or.inl ⟨⟨hfile.haveFile_eq, hfile.fsize_eq, hfile.net_pos,
    hfile.ndtotal_eq⟩, Int.le_refl 0, Int.le_refl 0, ⟨0, rfl, ?_⟩, ?_⟩⟩
  · rw [Nat.mul_zero, Nat.zero_min]
    rfl
  · intro j hj
    exact absurd hj (by simp [cliReopen])

/-- A `cli_openfile` that has been answered leaves a channel that `cli_reopen` does not change. -/
theorem cliReopen_cliOpenfile (cl : ClientLocal) (fname : String) {filecnt : ℤ} {file : RegularFile}
    (hsize : 0 < file.size) (p : Parameter) :
    let opened := ((cl.cliOpenfile fname).response (.openOk filecnt file.size p.diskBufsize
      p.netBufsize p.disknetFact p.packetMap)).endReopen none
    HasFile file opened ∧ opened.cliReopen = opened := by
  intro opened
  have hopened : opened =
      { cl.cliOpenfile fname with
        needFilesize := false
        fsize := file.size
        needReopen := false
        diskBufsize := p.diskBufsize
        netBufsize := p.netBufsize
        disknetFact := p.disknetFact
        packetMap := p.packetMap
        haveFile := true
        ndtotal := blockTotal file.size p.netBufsize
        phase := .idle } := if_pos (Int.natCast_pos.mpr hsize)
  have hnet : 0 < p.netBufsize := Nat.lt_of_lt_of_le (by decide) p.net_ge
  rw [hopened]
  exact ⟨⟨rfl, rfl, hnet, rfl⟩, rfl⟩

/-- A call that reads and does not fail. -/
def Reads (call : ReadCall) : Prop :=
  ∃ len buffer, 0 < len ∧ call = .read len (.delivered buffer)

/-- With nothing left and no block needed, the whole file has been returned. -/
theorem GoesOnAt.size_le (hcl : GoesOnAt file cl pos) (hempty : cl.blen ≤ 0)
    (hno : ¬ cl.NeedsBlock) : file.size ≤ pos := by
  obtain ⟨n, hndcnt, hpos⟩ := hcl.pos_eq
  have hblen := hcl.blen_nonneg
  have hpast : blockTotal file.size cl.netBufsize ≤ n := by
    by_contra hmore
    refine hno ⟨hcl.hasFile.haveFile_eq, hempty, ?_⟩
    rw [hndcnt, hcl.hasFile.ndtotal_eq]
    omega
  have hsize := size_le_of_blockTotal_le hcl.hasFile.net_pos hpast
  omega

/-- A read that does not fail returns a byte at least, until the end of the file. -/
theorem read_delivered {s : Reader} (hpre : s.returned <+: file.bytesFrom 0)
    (hgoes : GoesOnAt file s.client s.returned.length) {len : ℕ} (hlen : 0 < len)
    (buffer : ℕ → UInt8) :
    let t := s.read file len (.delivered buffer)
    t.returned <+: file.bytesFrom 0 ∧ GoesOnAt file t.client t.returned.length ∧
      min file.size (s.returned.length + 1) ≤ t.returned.length := by
  intro t
  simp only [t, Reader.read, cliRead_of_hasFile hgoes.hasFile]
  by_cases hneeds : s.client.NeedsBlock
  · rw [if_pos hneeds]
    obtain ⟨hblock, hpos⟩ := goesOnAt_of_delivered hgoes hneeds buffer
    obtain ⟨hnext, hplace, hlength⟩ := goesOnAt_give hpre hblock len
    refine ⟨hnext, hplace, ?_⟩
    have hsome : 0 < ((s.client.internalRead file (.delivered buffer)).2.endRead
        (s.client.internalRead file (.delivered buffer)).1).blen := hpos
    omega
  · rw [if_neg hneeds]
    obtain ⟨hnext, hplace, hlength⟩ := goesOnAt_give hpre hgoes len
    refine ⟨hnext, hplace, ?_⟩
    by_cases hempty : s.client.blen ≤ 0
    · have hend := hgoes.size_le hempty hneeds
      omega
    · omega

/-- Reads that do not fail return a byte each at least, until the end of the file. -/
theorem run_of_reads {calls : List ReadCall} (hreads : ∀ call ∈ calls, Reads call) {s : Reader}
    (hpre : s.returned <+: file.bytesFrom 0)
    (hgoes : GoesOnAt file s.client s.returned.length) :
    ∃ t, run (readStep file) s calls = some t ∧ t.returned <+: file.bytesFrom 0 ∧
      GoesOnAt file t.client t.returned.length ∧
      min file.size (s.returned.length + calls.length) ≤ t.returned.length := by
  induction calls generalizing s with
  | nil => exact ⟨s, rfl, hpre, hgoes, Nat.min_le_right _ _⟩
  | cons call rest ih =>
    obtain ⟨len, buffer, hlen, rfl⟩ := hreads call List.mem_cons_self
    obtain ⟨hnext, hplace, hmore⟩ := read_delivered hpre hgoes hlen buffer
    obtain ⟨t, hrun, ht⟩ :=
      ih (fun later hlater ↦ hreads later (List.mem_cons_of_mem _ hlater)) hnext hplace
    refine ⟨t, run_cons_eq_some.mpr ⟨_, rfl, hrun⟩, ht.1, ht.2.1, ?_⟩
    have hrest := ht.2.2
    rw [List.length_cons]
    omega

/-- At the end of the file `cli_read` returns `-1`. -/
theorem cliRead_at_end (hcl : GoesOnAt file cl pos) (hend : file.size ≤ pos) (len : ℕ)
    (fetch : Fetch) : (cl.cliRead file len fetch).rc = -1 := by
  obtain ⟨n, hndcnt, hpos⟩ := hcl.pos_eq
  have hblen := hcl.blen_nonneg
  have hno : ¬ cl.NeedsBlock := by
    intro hneeds
    obtain ⟨-, n, -, -, hlt⟩ := hcl.of_needsBlock hneeds
    omega
  rw [cliRead_of_hasFile hcl.hasFile, if_neg hno, giveBytes, if_neg (by omega)]

/-- With a file open and rewound. In every run, after every call the bytes returned are a prefix of
the file and no block has been skipped or repeated exactly when no block is read after a failure.
And if no call fails, enough reads return the whole file, and every further read `-1`. -/
theorem meets_inOrder_iff (hfile : HasFile file cl) :
    (∀ calls, Meets (readStep file) (InOrder file) ⟨cl.cliReopen, []⟩ calls ↔
      Meets (readStep file) NotAfterFailure ⟨cl.cliReopen, []⟩ calls) ∧
    ∀ calls : List ReadCall, (∀ call ∈ calls, Reads call) → file.size ≤ calls.length →
      ∃ t, run (readStep file) ⟨cl.cliReopen, []⟩ calls = some t ∧
        t.returned = file.bytesFrom 0 ∧
        ∀ len fetch, (t.client.cliRead file len fetch).rc = -1 := by
  have hstart := readerOk_cliReopen hfile
  constructor
  · exact meets_iff_of_invariant (fun _ call hs ↦ hs.inOrder_iff call)
      (fun _ _ _ hs hkept hstep ↦ hs.step hkept hstep) hstart
  · intro calls hreads hlen
    have hgoes : GoesOnAt file cl.cliReopen 0 := by
      rcases hstart.2 with hgoes | hpassed
      · exact hgoes
      · exact absurd hpassed.blen_neg (by simp [cliReopen])
    obtain ⟨t, hrun, hpre, hplace, hall⟩ := run_of_reads hreads hstart.1 hgoes
    have hsize : (file.bytesFrom 0).length = file.size := length_segment _ _ _
    have hlength : t.returned.length = file.size := by
      have hle := hpre.length_le
      omega
    refine ⟨t, hrun, hpre.eq_of_length (by omega), fun len fetch ↦ ?_⟩
    exact cliRead_at_end hplace hlength.ge len fetch

end Reads

theorem hasFile_openedSession : HasFile twoBlockFile openedSession.client :=
  ⟨rfl, rfl, by decide, by decide⟩

theorem meets_inOrder_iff_twoBlocks :
    (∀ calls, Meets (readStep twoBlockFile) (InOrder twoBlockFile)
        ⟨openedSession.client.cliReopen, []⟩ calls ↔
      Meets (readStep twoBlockFile) NotAfterFailure ⟨openedSession.client.cliReopen, []⟩ calls) ∧
    ∀ calls : List ReadCall, (∀ call ∈ calls, Reads call) → twoBlockFile.size ≤ calls.length →
      ∃ t, run (readStep twoBlockFile) ⟨openedSession.client.cliReopen, []⟩ calls = some t ∧
        t.returned = twoBlockFile.bytesFrom 0 ∧
        ∀ len fetch, (t.client.cliRead twoBlockFile len fetch).rc = -1 :=
  meets_inOrder_iff hasFile_openedSession

/-- An abort, a failed read, and a read: the file begins with a 7, but the byte that
comes is the 9 of the second block. -/
theorem failed_block_is_skipped :
    HasFile twoBlockFile openedSession.client ∧
    ∃ t, run (readStep twoBlockFile) ⟨openedSession.client.cliReopen, []⟩
        [.abort, .read 1 (.failed fun _ ↦ 0), .read 1 (.delivered fun _ ↦ 0)] = some t ∧
      t.returned = [9] ∧ ¬ t.returned <+: twoBlockFile.bytesFrom 0 := by
  refine ⟨hasFile_openedSession, ?_⟩
  have hlast : (run (readStep twoBlockFile) ⟨openedSession.client.cliReopen, []⟩
      [.abort, .read 1 (.failed fun _ ↦ 0), .read 1 (.delivered fun _ ↦ 0)]).map
        Reader.returned = some [9] := by
    decide +kernel
  obtain ⟨t, hrun, hreturned⟩ := Option.map_eq_some_iff.mp hlast
  refine ⟨t, hrun, hreturned, fun hpre ↦ ?_⟩
  have hfirst := List.prefix_iff_eq_take.mp hpre
  rw [hreturned, take_bytesFrom] at hfirst
  exact absurd hfirst (by decide)

end Katmai.StreamioV2
