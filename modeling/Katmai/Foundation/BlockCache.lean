import Katmai.Foundation.PlainFile

/-!
# A buffer for one block of a file

A server that hands out a file in blocks of `size` bytes keeps the last block it has read, and saves
the `lseek` if the next block is the one after it. That is right as long as the hidden offset of the
descriptor is at the end of the block in the buffer (`AtEndOf`). At the end of the file the offset
stops short of the end of the block, but then there is nothing to be read any more, so what has to
hold is only that both are past the end of the file.

`atStartOf_seekBlock` says that the offset is then at the start of the wanted block, and
`readFull_atStartOf` that a loop of reads from there leaves the block in the buffer (`HoldsBlock`)
and the offset at its end.
-/

set_option autoImplicit false
set_option relaxedAutoImplicit false

namespace Katmai.Foundation

/-- The offset of a descriptor is at the start of block `block`, or nothing is there to be read. -/
def OpenFile.AtStartOf (fd : OpenFile) (size block : ℕ) : Prop :=
  fd.offset = block * size ∨ fd.file.size ≤ fd.offset ∧ fd.file.size ≤ block * size

/-- The offset of a descriptor is at the end of block `block`, as far as the file reaches. -/
def OpenFile.AtEndOf (fd : OpenFile) (size : ℕ) (block : ℤ) : Prop :=
  (fd.offset : ℤ) = (block + 1) * size ∨
    fd.file.size ≤ fd.offset ∧ (fd.file.size : ℤ) ≤ (block + 1) * size

/-- `lseek` to the offset of block `wanted`, unless the block in the buffer is the one before. -/
def OpenFile.seekBlock (fd : OpenFile) (cached wanted offset : ℤ) : OpenFile :=
  if wanted ≠ cached + 1 then fd.lseek offset else fd

/-- The first `buflen` bytes of a buffer are block `block` of a file. -/
structure HoldsBlock (size : ℕ) (buffer : ℕ → UInt8) (buflen : ℕ) (file : RegularFile)
    (block : ℕ) : Prop where
  buflen_eq : buflen = min size (file.size - block * size)
  buffer_eq : ∀ j < buflen, buffer j = file.byte (block * size + j)

variable {fd : OpenFile} {size block : ℕ}

/-- The offset from which a block that is not in the buffer is read. -/
theorem atStartOf_seekBlock {cached : ℤ} (hend : fd.AtEndOf size cached) {offset : ℤ}
    (hoffset : offset = ((block * size : ℕ) : ℤ)) :
    (fd.seekBlock cached block offset).file = fd.file ∧
      (fd.seekBlock cached block offset).AtStartOf size block := by
  unfold OpenFile.seekBlock
  split_ifs with hnext
  · have hseek : fd.lseek offset = { fd with offset := block * size } := by
      rw [OpenFile.lseek, hoffset, if_neg (Int.not_lt.mpr (Int.natCast_nonneg _))]
      rfl
    rw [hseek]
    exact ⟨rfl, Or.inl rfl⟩
  · have hsucc : cached + 1 = block := by omega
    rw [OpenFile.AtEndOf, hsucc] at hend
    refine ⟨rfl, ?_⟩
    unfold OpenFile.AtStartOf
    exact_mod_cast hend

/-- The number of bytes left at the start of a block. -/
theorem left_of_atStartOf (hstart : fd.AtStartOf size block) :
    fd.left = fd.file.size - block * size := by
  unfold OpenFile.left
  rcases hstart with heq | ⟨hpast, hblock⟩
  · rw [heq]
  · omega

/-- A loop of reads at the start of a block that wants at least the block. -/
theorem readFull_atStartOf (hstart : fd.AtStartOf size block) {want : ℕ} (short : ℕ → ℕ)
    (buffer : ℕ → UInt8)
    (hwant : min want (fd.file.size - block * size) = min size (fd.file.size - block * size)) :
    (readFull short fd buffer want).fd.file = fd.file ∧
      (readFull short fd buffer want).fd.AtEndOf size block ∧
      HoldsBlock size (readFull short fd buffer want).buffer (readFull short fd buffer want).rlen
        fd.file block := by
  rw [readFull_spec, left_of_atStartOf hstart, hwant]
  refine ⟨rfl, ?_, rfl, ?_⟩
  · have hnext : ((block : ℤ) + 1) * size = ((block * size + size : ℕ) : ℤ) := by
      rw [Int.natCast_add, Int.natCast_mul, Int.add_mul, Int.one_mul]
    unfold OpenFile.AtEndOf
    rw [hnext]
    show ((fd.offset + min size (fd.file.size - block * size) : ℕ) : ℤ) = _ ∨
      fd.file.size ≤ fd.offset + min size (fd.file.size - block * size) ∧ (fd.file.size : ℤ) ≤ _
    unfold OpenFile.AtStartOf at hstart
    omega
  · intro j hj
    have hlt : j < min size (fd.file.size - block * size) := hj
    show copyInto buffer 0 (min size (fd.file.size - block * size))
      (fun j ↦ fd.file.byte (fd.offset + j)) j = fd.file.byte (block * size + j)
    rw [copyInto_of_mem (Nat.zero_le j) (by omega), Nat.sub_zero]
    congr 1
    unfold OpenFile.AtStartOf at hstart
    omega

end Katmai.Foundation
