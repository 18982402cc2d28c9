import Katmai.Foundation.ByteStream
import Mathlib.Algebra.Group.Int.Defs
import Mathlib.Algebra.Group.Nat.Defs
import Mathlib.Data.Nat.Basic
import Mathlib.Order.Basic
import Mathlib.Tactic.Common

/-!
# Regular files read through a descriptor

A regular file has a size and bytes; an open descriptor adds the hidden offset at which the next
`read` starts. `read` may return fewer bytes than were asked for, but it returns `0` only at the end
of the file: how short it is is an argument, so that a statement for every argument is a statement
for every behaviour of `read`. `readLoop` is the loop that programs put around it, which reads on
until it has what it wants or meets the end of the file, and `readFull_spec` says what the loop
leaves in the buffer and where it leaves the offset, however short the single reads are.

Sizes are below `2 ^ 31`, the range of the 32-bit signed `off_t` of the programs.
-/

set_option autoImplicit false
set_option relaxedAutoImplicit false

namespace Katmai.Foundation

/-- A regular file whose size fits the signed 32-bit `off_t`. -/
structure RegularFile where
  size : ℕ
  size_lt : size < 2 ^ 31
  byte : ℕ → UInt8

/-- The bytes of a file from an offset on. -/
def RegularFile.bytesFrom (file : RegularFile) (offset : ℕ) : List UInt8 :=
  segment file.byte offset (file.size - offset)

/-- An open descriptor: the file and the offset of the next `read`. -/
structure OpenFile where
  file : RegularFile
  offset : ℕ

namespace OpenFile

/-- The number of bytes between the offset and the end of the file. -/
def left (fd : OpenFile) : ℕ :=
  fd.file.size - fd.offset

/-- The result of `read (fd, …, want)`: any positive number of bytes up to what is wanted and what
is left, chosen by `short`, and `0` if that is nothing. -/
def readCount (fd : OpenFile) (want short : ℕ) : ℕ :=
  if min want fd.left = 0 then 0 else 1 + short % min want fd.left

/-- `lseek (fd, offset, SEEK_SET)`, which fails for a negative offset. -/
def lseek (fd : OpenFile) (offset : ℤ) : OpenFile :=
  if offset < 0 then fd else { fd with offset := offset.toNat }

end OpenFile

/-- What `memcpy`, or a `read` into memory, of `len` bytes does to a buffer from position `start`
on. -/
def copyInto (buffer : ℕ → UInt8) (start len : ℕ) (source : ℕ → UInt8) : ℕ → UInt8 :=
  fun j ↦ if start ≤ j ∧ j < start + len then source (j - start) else buffer j

/-- What a loop of reads ends with: the number of bytes read, the buffer, the descriptor, and
whether the last `read` returned `0`. -/
structure ReadResult where
  rlen : ℕ
  buffer : ℕ → UInt8
  fd : OpenFile
  eof : Bool

/-- `while (want > 0 && (len = read (fd, &buffer[rlen], want)) > 0) { rlen += len; want -= len; }`,
for at most `fuel` reads; the `i`-th read from the end is as short as `short i` says. -/
def readLoop (short : ℕ → ℕ) : ℕ → OpenFile → (ℕ → UInt8) → ℕ → ℕ → ReadResult
  | 0, fd, buffer, rlen, _ => ⟨rlen, buffer, fd, false⟩
  | fuel + 1, fd, buffer, rlen, want =>
    if want = 0 then ⟨rlen, buffer, fd, false⟩
    else
      let len := fd.readCount want (short fuel)
      if len = 0 then ⟨rlen, buffer, fd, true⟩
      else
        readLoop short fuel { fd with offset := fd.offset + len }
          (copyInto buffer rlen len fun j ↦ fd.file.byte (fd.offset + j)) (rlen + len) (want - len)

/-- The loop for `want` bytes at the start of the buffer. Every read but the last gets a byte, so
`want + 1` reads are enough. -/
def readFull (short : ℕ → ℕ) (fd : OpenFile) (buffer : ℕ → UInt8) (want : ℕ) : ReadResult :=
  readLoop short (want + 1) fd buffer 0 want

/-! ### The bytes of a file -/

/-- Past the end of the file there are no bytes. -/
theorem bytesFrom_min (file : RegularFile) (offset : ℕ) :
    file.bytesFrom (min offset file.size) = file.bytesFrom offset := by
  rcases Nat.le_total offset file.size with hle | hle
  · rw [Nat.min_eq_left hle]
  · unfold RegularFile.bytesFrom
    rw [Nat.min_eq_right hle, Nat.sub_self, Nat.sub_eq_zero_of_le hle, segment_zero, segment_zero]

/-- The first bytes from an offset on. -/
theorem take_bytesFrom (file : RegularFile) (offset n : ℕ) :
    (file.bytesFrom offset).take n = segment file.byte offset (min n (file.size - offset)) :=
  take_segment file.byte offset _ n

/-- The bytes that follow those. -/
theorem drop_bytesFrom (file : RegularFile) (offset n : ℕ) :
    (file.bytesFrom offset).drop n = file.bytesFrom (offset + min n (file.size - offset)) := by
  unfold RegularFile.bytesFrom
  rw [drop_segment]
  rcases Nat.le_total n (file.size - offset) with hle | hle
  · rw [Nat.min_eq_left hle, Nat.sub_sub]
  · have hnone : file.size - (offset + min n (file.size - offset)) = 0 := by omega
    rw [Nat.sub_eq_zero_of_le hle, hnone, segment_zero, segment_zero]

/-- Bytes that follow a prefix of the file make a longer prefix. -/
theorem isPrefix_append_segment {file : RegularFile} {bytes : List UInt8}
    (hpre : bytes <+: file.bytesFrom 0) {n : ℕ} (hle : bytes.length + n ≤ file.size) :
    bytes ++ segment file.byte bytes.length n <+: file.bytesFrom 0 := by
  have hbytes : bytes = segment file.byte 0 bytes.length := by
    have htake := List.prefix_iff_eq_take.mp hpre
    rwa [take_bytesFrom, Nat.min_eq_left (by omega)] at htake
  have hmore : bytes ++ segment file.byte bytes.length n =
      segment file.byte 0 (bytes.length + n) := by
    rw [← segment_append, Nat.zero_add, ← hbytes]
  rw [hmore, List.prefix_iff_eq_take, length_segment, take_bytesFrom, Nat.min_eq_left (by omega)]

/-! ### Copies -/

theorem copyInto_of_mem {buffer source : ℕ → UInt8} {start len j : ℕ} (hle : start ≤ j)
    (hlt : j < start + len) : copyInto buffer start len source j = source (j - start) :=
  if_pos ⟨hle, hlt⟩

theorem copyInto_of_notMem {buffer source : ℕ → UInt8} {start len j : ℕ}
    (hj : j < start ∨ start + len ≤ j) : copyInto buffer start len source j = buffer j := by
  refine if_neg ?_
  omega

/-- A copy depends on the bytes that are copied. -/
theorem copyInto_congr {buffer source other : ℕ → UInt8} {start len : ℕ}
    (hagree : ∀ j < len, source j = other j) :
    copyInto buffer start len source = copyInto buffer start len other := by
  funext j
  by_cases hmem : start ≤ j ∧ j < start + len
  · rw [copyInto_of_mem hmem.1 hmem.2, copyInto_of_mem hmem.1 hmem.2, hagree _ (by omega)]
  · rw [copyInto_of_notMem (by omega), copyInto_of_notMem (by omega)]

@[simp] theorem copyInto_zero (buffer source : ℕ → UInt8) (start : ℕ) :
    copyInto buffer start 0 source = buffer := by
  funext j
  exact copyInto_of_notMem (by omega)

/-- Two copies of consecutive pieces of one source are one copy. -/
theorem copyInto_copyInto (buffer source : ℕ → UInt8) (start first second : ℕ) :
    copyInto (copyInto buffer start first source) (start + first) second
        (fun j ↦ source (first + j)) = copyInto buffer start (first + second) source := by
  funext j
  by_cases hsecond : start + first ≤ j ∧ j < start + first + second
  · rw [copyInto_of_mem hsecond.1 hsecond.2, copyInto_of_mem (by omega) (by omega)]
    congr 1
    omega
  · rw [copyInto_of_notMem (by omega)]
    by_cases hfirst : start ≤ j ∧ j < start + first
    · rw [copyInto_of_mem hfirst.1 hfirst.2, copyInto_of_mem (by omega) (by omega)]
    · rw [copyInto_of_notMem (by omega), copyInto_of_notMem (by omega)]

/-! ### The loop of reads -/

variable {fd : OpenFile}

theorem readCount_le (fd : OpenFile) (want short : ℕ) :
    fd.readCount want short ≤ min want fd.left := by
  unfold OpenFile.readCount
  split_ifs with hzero
  · exact Nat.zero_le _
  · have hmod := Nat.mod_lt short (Nat.pos_of_ne_zero hzero)
    omega

/-- `read` returns `0` only if nothing is wanted or nothing is left. -/
theorem readCount_eq_zero {want short : ℕ} :
    fd.readCount want short = 0 ↔ min want fd.left = 0 := by
  unfold OpenFile.readCount
  split_ifs with hzero
  · exact ⟨fun _ ↦ hzero, fun _ ↦ rfl⟩
  · constructor
    · intro hcount
      omega
    · intro hmin
      exact absurd hmin hzero

/-- Reading a file in a loop: the loop gets what it wants or all that is left, the bytes come from
the file in order, the offset moves by as much, and the end of the file is met exactly if less is
left than is wanted. -/
theorem readLoop_spec (short : ℕ → ℕ) (fuel : ℕ) (fd : OpenFile) (buffer : ℕ → UInt8)
    (rlen want : ℕ) (hfuel : want < fuel) :
    readLoop short fuel fd buffer rlen want =
      { rlen := rlen + min want fd.left
        buffer := copyInto buffer rlen (min want fd.left) fun j ↦ fd.file.byte (fd.offset + j)
        fd := { fd with offset := fd.offset + min want fd.left }
        eof := decide (fd.left < want) } := by
  induction fuel generalizing fd buffer rlen want with
  | zero => omega
  | succ fuel ih =>
    simp only [readLoop]
    split_ifs with hwant hlen
    · have hmin : min want fd.left = 0 := by omega
      rw [hmin, copyInto_zero, hwant]
      rfl
    · have hmin := readCount_eq_zero.mp hlen
      have hleft : fd.left < want := by omega
      rw [hmin, copyInto_zero, decide_eq_true hleft]
      rfl
    · set len := fd.readCount want (short fuel) with hlenDef
      have hle : len ≤ min want fd.left := readCount_le fd want (short fuel)
      have hleftNext : ({ fd with offset := fd.offset + len } : OpenFile).left = fd.left - len := by
        show fd.file.size - (fd.offset + len) = fd.file.size - fd.offset - len
        omega
      rw [ih _ _ _ _ (by omega), hleftNext]
      have hsum : len + min (want - len) (fd.left - len) = min want fd.left := by omega
      have heof : decide (fd.left - len < want - len) = decide (fd.left < want) := by
        rw [decide_eq_decide]
        omega
      simp only [copyInto_copyInto, heof, Nat.add_assoc, hsum]

/-- What `readFull` gives. -/
theorem readFull_spec (short : ℕ → ℕ) (fd : OpenFile) (buffer : ℕ → UInt8) (want : ℕ) :
    readFull short fd buffer want =
      { rlen := min want fd.left
        buffer := copyInto buffer 0 (min want fd.left) fun j ↦ fd.file.byte (fd.offset + j)
        fd := { fd with offset := fd.offset + min want fd.left }
        eof := decide (fd.left < want) } := by
  unfold readFull
  rw [readLoop_spec short _ fd buffer 0 want (Nat.lt_succ_self want), Nat.zero_add]

end Katmai.Foundation
