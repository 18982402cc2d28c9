import Katmai.Foundation.EventRun
import Katmai.StioEngine.PrefetchEngine

/-!
# The read position of `stio_engine`

Without prefetching, `pub_open`, `pub_read`, `pub_seek` and `pub_reset` work on a plain file through
`fio_*`, and `fp_pos` is kept beside the descriptor for `pub_read_pos`. It should be the offset of
the descriptor (`Tracked`).

Three places miss. `pub_seek` stores the return value of `fio_seek`, which is 1 and not a position.
`pub_reset` moves the descriptor and leaves `fp_pos`. And the read that `pub_read` makes after an
automatic repeat is not added. `meets_trackedAfter_iff` says exactly when all three do no harm
(`PosKept`).
-/

set_option autoImplicit false
set_option relaxedAutoImplicit false

namespace Katmai.StioEngine

open Foundation

/-! ### The engine -/

/-- The fields of `struct stio_engine_pd_t` for a plain file without plugin. -/
structure PubEngine where
  fd : Option OpenFile
  fsize : ℕ
  fpPos : ℤ
  repeatCnt : ℤ
  endOfPrefetch : Bool

/-- `new_stio_engine`. -/
def newPubEngine : PubEngine where
  fd := none
  fsize := 0
  fpPos := 0
  repeatCnt := 0
  endOfPrefetch := false

namespace PubEngine

variable (s : PubEngine)

/-- `fio_close`. -/
def fioClose : PubEngine :=
  if s.fd.isSome then { s with fd := none, fsize := 0 } else s

/-- `fio_open`, for a name under which `open` finds `file`, or nothing. -/
def fioOpen (file : Option RegularFile) : Bool × PubEngine :=
  match file with
  | none => (false, s.fioClose)
  | some file => (true, { s.fioClose with fd := some ⟨file, 0⟩, fsize := file.size })

/-- `pub_open`. -/
def pubOpen (file : Option RegularFile) : PubEngine :=
  let opened := s.fioOpen file
  if opened.1 then { opened.2 with fpPos := 0, endOfPrefetch := false, repeatCnt := 0 }
  else { opened.2 with fpPos := 0, endOfPrefetch := true }

/-- `fio_seek`: the descriptor afterwards and the return value. -/
def fioSeekRc (pos : ℤ) : ℤ × PubEngine :=
  match s.fd with
  | some fd => (1, { s with fd := some (fd.lseek pos) })
  | none => (0, s)

/-- `fio_reset`. -/
def fioReset : ℤ × PubEngine :=
  s.fioSeekRc 0

/-- `pub_seek`. -/
def pubSeek (pos : ℤ) : ℤ × PubEngine :=
  let sought := s.fioSeekRc pos
  if 0 ≤ sought.1 then (sought.1, { sought.2 with fpPos := sought.1 }) else sought

/-- `pub_reset`. -/
def pubReset : ℤ × PubEngine :=
  s.fioReset

/-- `pub_set_repeat`. -/
def pubSetRepeat (r : ℤ) : ℤ × PubEngine :=
  (s.repeatCnt, { s with repeatCnt := r })

/-- `pub_read_pos`. -/
def pubReadPos : ℤ :=
  s.fpPos

/-- `explen = len` in `fio_read`: a `size_t` as an `int`. -/
def explen (len : ℕ) : ℤ :=
  Int.bmod len (2 ^ 32)

/-- `pd->read (self, buffer, len)`, where `fio_read` does nothing for an `explen` that is not
positive. -/
def pdRead (short : ℕ → ℕ) (buffer : ℕ → UInt8) (len : ℕ) : FioRead :=
  fioRead short s.fd buffer (explen len).toNat

/-- `pub_read`: the return value, the buffer and the engine. The reads of the file, and those after
a repeat, are as short as `short` and `shortAgain` say. -/
def pubRead (short shortAgain : ℕ → ℕ) (buffer : ℕ → UInt8) (len : ℕ) :
    ℤ × (ℕ → UInt8) × PubEngine :=
  let first := s.pdRead short buffer len
  let s := { s with fd := first.fd }
  if first.rlen ≤ 0 then
    if -1 ≤ first.rlen ∧ s.repeatCnt ≠ 0 then
      let s := if 0 < s.repeatCnt then { s with repeatCnt := s.repeatCnt - 1 } else s
      let s := { s.pubReset.2 with fpPos := 0 }
      let again := s.pdRead shortAgain first.buffer len
      (again.rlen, again.buffer, { s with fd := again.fd })
    else (first.rlen, first.buffer, s)
  else (first.rlen, first.buffer, { s with fpPos := s.fpPos + first.rlen })

end PubEngine

/-! ### Runs -/

/-- A call of the application. `open` gives the file found under the name, if any. -/
inductive PosOp
  | openFile (file : Option RegularFile)
  | read (len : ℕ) (short shortAgain : ℕ → ℕ) (buffer : ℕ → UInt8)
  | seek (pos : ℤ)
  | reset
  | setRepeat (r : ℤ)

/-- One call. -/
def posStep (s : PubEngine) : PosOp → Option PubEngine
  | .openFile file => some (s.pubOpen file)
  | .read len short shortAgain buffer => some (s.pubRead short shortAgain buffer len).2.2
  | .seek pos => some (s.pubSeek pos).2
  | .reset => some s.pubReset.2
  | .setRepeat r => some (s.pubSetRepeat r).2

/-- `pub_read_pos` is the offset at which the open file is read next. -/
def Tracked (s : PubEngine) : Prop :=
  ∀ fd ∈ s.fd, s.pubReadPos = fd.offset

/-- After the call the position is tracked. -/
def TrackedAfter (s : PubEngine) (op : PosOp) : Prop :=
  ∀ s', posStep s op = some s' → Tracked s'

/-- With an open file: a seek is to position 1 (or is refused at offset 1), a reset is made at
offset 0, and no read that wants bytes of a non-empty file meets its end with a repeat set. -/
def PosKept (s : PubEngine) (op : PosOp) : Prop :=
  ∀ fd ∈ s.fd,
    match op with
    | .seek pos => pos = 1 ∨ pos < 0 ∧ fd.offset = 1
    | .reset => fd.offset = 0
    | .read len _ _ _ => ¬ (s.repeatCnt ≠ 0 ∧ 0 < PubEngine.explen len ∧ 0 < fd.file.size ∧
        fd.file.size ≤ fd.offset)
    | _ => True

section Lemmas

variable {s : PubEngine} {fd : OpenFile}

/-- What `fio_read` gets from an open file. -/
theorem pdRead_of_open (hfd : s.fd = some fd) (short : ℕ → ℕ) (buffer : ℕ → UInt8) (len : ℕ) :
    (s.pdRead short buffer len).rlen = (min (PubEngine.explen len).toNat fd.left : ℕ) ∧
      (s.pdRead short buffer len).fd =
        some { fd with offset := fd.offset + min (PubEngine.explen len).toNat fd.left } := by
  unfold PubEngine.pdRead
  generalize (PubEngine.explen len).toNat = want
  rw [hfd]
  simp only [fioRead, readFull_spec, and_self]

/-- Without an open file nothing is read and no file opened. -/
theorem pubRead_fd_of_none (hfd : s.fd = none) (short shortAgain : ℕ → ℕ) (buffer : ℕ → UInt8)
    (len : ℕ) : (s.pubRead short shortAgain buffer len).2.2.fd = none := by
  have hread : s.pdRead short buffer len = ⟨-1, buffer, none⟩ := by
    simp [PubEngine.pdRead, fioRead, hfd]
  unfold PubEngine.pubRead
  rw [hread]
  dsimp only
  split_ifs with hneg hrepeat hcount <;>
    simp [PubEngine.pubReset, PubEngine.fioReset, PubEngine.fioSeekRc, PubEngine.pdRead, fioRead]

/-- The descriptor after a seek in an open file. -/
theorem fioSeekRc_of_open (hfd : s.fd = some fd) (pos : ℤ) :
    s.fioSeekRc pos = (1, { s with fd := some (fd.lseek pos) }) := by
  unfold PubEngine.fioSeekRc
  rw [hfd]

/-- A read that gets bytes, or meets the end without a repeat, moves both positions alike. -/
theorem pubRead_of_no_repeat (hfd : s.fd = some fd) {short shortAgain : ℕ → ℕ}
    {buffer : ℕ → UInt8} {len : ℕ}
    (hplain : 0 < min (PubEngine.explen len).toNat fd.left ∨ s.repeatCnt = 0) :
    (s.pubRead short shortAgain buffer len).2.2 = { s with
      fd := some { fd with offset := fd.offset + min (PubEngine.explen len).toNat fd.left }
      fpPos := s.fpPos + (min (PubEngine.explen len).toNat fd.left : ℕ) } := by
  obtain ⟨hrlen, hnext⟩ := pdRead_of_open hfd short buffer len
  unfold PubEngine.pubRead
  dsimp only
  rw [hrlen, hnext]
  split_ifs with hneg hrepeat hcount
  · have hzero : min (PubEngine.explen len).toNat fd.left = 0 := by omega
    rcases hplain with hpos | hnone
    · omega
    · exact absurd hnone hrepeat.2
  · have hzero : min (PubEngine.explen len).toNat fd.left = 0 := by omega
    rcases hplain with hpos | hnone
    · omega
    · exact absurd hnone hrepeat.2
  · have hzero : min (PubEngine.explen len).toNat fd.left = 0 := by omega
    simp [hzero]
  · rfl

/-- A read that gets nothing with a repeat set starts the file again: the offset moves and `fp_pos`
is 0. -/
theorem pubRead_of_repeat (hfd : s.fd = some fd) (short shortAgain : ℕ → ℕ) (buffer : ℕ → UInt8)
    {len : ℕ} (hend : min (PubEngine.explen len).toNat fd.left = 0) (hrepeat : s.repeatCnt ≠ 0) :
    (s.pubRead short shortAgain buffer len).2.2.fd =
        some { fd with offset := min (PubEngine.explen len).toNat fd.file.size } ∧
      (s.pubRead short shortAgain buffer len).2.2.fpPos = 0 := by
  obtain ⟨hrlen, hnext⟩ := pdRead_of_open hfd short buffer len
  rw [hend] at hrlen hnext
  have hagain (t : PubEngine) (ht : t.fd = some fd) :
      (PubEngine.pdRead { t.pubReset.2 with fpPos := 0 } shortAgain
        (s.pdRead short buffer len).buffer len).fd =
          some { fd with offset := min (PubEngine.explen len).toNat fd.file.size } := by
    have hzero : ({ t.pubReset.2 with fpPos := 0 } : PubEngine).fd =
        some { fd with offset := 0 } := by
      rw [PubEngine.pubReset, PubEngine.fioReset, fioSeekRc_of_open ht]
      rfl
    rw [(pdRead_of_open hzero shortAgain _ len).2]
    simp [OpenFile.left]
  unfold PubEngine.pubRead
  dsimp only
  rw [hrlen, hnext, if_pos (by simp), if_pos ⟨by simp, hrepeat⟩]
  split_ifs with hcount
  · exact ⟨hagain _ rfl, rfl⟩
  · exact ⟨hagain _ rfl, rfl⟩

/-- In a state where the position is tracked, a call keeps it tracked exactly when it is within
`PosKept`. -/
theorem trackedAfter_iff (htracked : Tracked s) (op : PosOp) :
    TrackedAfter s op ↔ PosKept s op := by
  have hafter {t : PubEngine} (hstep : posStep s op = some t) :
      TrackedAfter s op ↔ Tracked t := by
    constructor
    · exact fun h ↦ h t hstep
    · intro h t' hstep'
      obtain rfl : t = t' := Option.some.inj (hstep.symm.trans hstep')
      exact h
  cases op with
  | openFile file =>
    rw [hafter rfl]
    refine iff_of_true ?_ fun _ _ ↦ trivial
    intro fd hfd
    cases file with
    | none =>
      simp only [PubEngine.pubOpen, PubEngine.fioOpen, PubEngine.fioClose] at hfd
      split_ifs at hfd with hopen <;> simp_all
    | some file =>
      obtain rfl : ⟨file, 0⟩ = fd := by simpa [PubEngine.pubOpen, PubEngine.fioOpen] using hfd
      rfl
  | setRepeat r =>
    rw [hafter rfl]
    exact iff_of_true htracked fun _ _ ↦ trivial
  | seek pos =>
    rw [hafter rfl]
    cases hfd : s.fd with
    | none => simp [Tracked, PosKept, PubEngine.pubSeek, PubEngine.fioSeekRc, hfd]
    | some fd =>
      simp only [Tracked, PosKept, PubEngine.pubSeek, fioSeekRc_of_open hfd, hfd,
        PubEngine.pubReadPos, OpenFile.lseek, Option.mem_def, Option.some.injEq, forall_eq']
      split_ifs with hone hneg <;> simp <;> omega
  | reset =>
    rw [hafter rfl]
    cases hfd : s.fd with
    | none =>
      simp [Tracked, PosKept, PubEngine.pubReset, PubEngine.fioReset, PubEngine.fioSeekRc, hfd]
    | some fd =>
      have hpos : s.fpPos = fd.offset := htracked fd hfd
      simp [Tracked, PosKept, PubEngine.pubReset, PubEngine.fioReset, fioSeekRc_of_open hfd, hfd,
        PubEngine.pubReadPos, OpenFile.lseek, hpos]
  | read len short shortAgain buffer =>
    rw [hafter rfl]
    cases hfd : s.fd with
    | none => simp [Tracked, PosKept, pubRead_fd_of_none hfd, hfd]
    | some fd =>
      have hpos : s.fpPos = fd.offset := htracked fd hfd
      have hleft : fd.left = fd.file.size - fd.offset := rfl
      by_cases hplain : 0 < min (PubEngine.explen len).toNat fd.left ∨ s.repeatCnt = 0
      · rw [pubRead_of_no_repeat hfd hplain]
        refine iff_of_true ?_ ?_
        · intro fd' hfd'
          obtain rfl := Option.some.inj hfd'
          simp only [PubEngine.pubReadPos, hpos]
          omega
        · intro fd' hfd'
          obtain rfl : fd = fd' := Option.some.inj (hfd.symm.trans hfd')
          rintro ⟨hrepeat, hwant, hsize, hend⟩
          rcases hplain with hgets | hnone
          · omega
          · exact hrepeat hnone
      · obtain ⟨hend, hrepeat⟩ := not_or.mp hplain
        have hzero : min (PubEngine.explen len).toNat fd.left = 0 := by omega
        obtain ⟨hnext, hpos'⟩ := pubRead_of_repeat hfd short shortAgain buffer hzero hrepeat
        simp only [Tracked, PosKept, hnext, hfd, PubEngine.pubReadPos, hpos', Option.mem_def,
          Option.some.injEq, forall_eq']
        clear hnext hpos'
        generalize PubEngine.explen len = explen at *
        omega

/-- In every run, `pub_read_pos` is the offset after every call exactly when every call is within
`PosKept`. -/
theorem meets_trackedAfter_iff (ops : List PosOp) :
    Meets posStep TrackedAfter newPubEngine ops ↔ Meets posStep PosKept newPubEngine ops :=
  meets_iff_of_invariant (fun _ op htracked ↦ trackedAfter_iff htracked op)
    (fun _ op s' htracked hkept hstep ↦ (trackedAfter_iff htracked op).mpr hkept s' hstep)
    (fun fd hfd ↦ absurd hfd (by simp [newPubEngine])) ops

end Lemmas

/-- A file of eight bytes. -/
def eightBytes : RegularFile where
  size := 8
  size_lt := by decide
  byte := fun _ ↦ 0

/-- After a seek to 3 the position is said to be 1. -/
theorem seek_untracked :
    ¬ Meets posStep TrackedAfter newPubEngine [.openFile (some eightBytes), .seek 3] := by
  intro hmeets
  have htracked := hmeets.2.1 _ rfl ⟨eightBytes, 3⟩ rfl
  exact absurd htracked (by decide)

end Katmai.StioEngine
