import Mathlib.Algebra.Group.Int.Defs
import Mathlib.Algebra.Group.Nat.Defs
import Mathlib.Logic.Function.Basic
import Katmai.Foundation.CallRun

/-!
# The window buffer of `rbmcast`

The window buffer is a ring of 256 slots. `rbm_get_free_win_buf` hands out the next slot to a sender
(sequence number 0) and to a receiver that has got the number it expects; a receiver that has got a
later number is given the slot at that distance. A full ring makes the sender wait and the receiver
report `RBMERR_BUFFER_FULL`.

So it should be (`FollowsLaw`). The code asks for `wb_cnt < RBM_MAX_WIN_BUFFER` where it means to
find the ring full. From an empty ring no slot is ever handed out in order
(`nothingHanded_replies`), and the law holds of a list of calls exactly when none of them asks for
such a slot (`followsLaw_iff`).
-/

set_option autoImplicit false
set_option relaxedAutoImplicit false

namespace Katmai.Rbmcast

open Foundation

/-- The codes `RBMERR_*`. -/
inductive RbmError
  | ok
  | bufferFull
  | bufferNotReady
  | duplicateSeq
  deriving DecidableEq, Repr

/-- `RBM_MAX_WIN_BUFFER`. -/
def maxWinBuffer : ℕ :=
  256

/-- The fields of `struct rbmcast_lib_pd_t` for the window, with the flags of the slots. `handed` is
a book that the code does not keep: the slots handed out in order. -/
structure WindowBuffer where
  ready : ℤ → Bool
  dataok : ℤ → Bool
  wbFront : ℕ
  wbRear : ℕ
  wbPtr : ℕ
  wbCnt : ℕ
  expectSeq : ℕ
  maxExpectSeq : ℕ
  errcode : RbmError
  handed : List ℤ

/-- `allocate_win_buffer`, for an object that has no buffer yet and gets the memory. -/
def allocateWinBuffer (pd : WindowBuffer) : WindowBuffer :=
  { pd with
    ready := fun _ ↦ false
    wbFront := 0
    wbRear := 0
    wbCnt := 0
    handed := [] }

/-- What a call gives: a slot, or `NULL`, or it waits in `pthread_cond_wait`. -/
inductive Handed
  | slot (j : ℤ)
  | null
  | waits
  deriving DecidableEq, Repr

/-- The next slot is handed out. -/
def WindowBuffer.nextSlot (pd : WindowBuffer) : Handed × WindowBuffer :=
  (.slot pd.wbRear,
    { pd with
      ready := Function.update pd.ready pd.wbRear false
      wbRear := (pd.wbRear + 1) % maxWinBuffer
      wbPtr := (pd.wbRear + 1) % maxWinBuffer
      wbCnt := pd.wbCnt + 1
      handed := pd.handed ++ [(pd.wbRear : ℤ)] })

/-- `rbm_get_free_win_buf`. The distance of a later number is an `int`. -/
def rbmGetFreeWinBuf (pd : WindowBuffer) (seq : ℕ) : Handed × WindowBuffer :=
  if seq ≠ 0 then
    if seq = pd.expectSeq then
      if pd.wbCnt < maxWinBuffer then (.null, { pd with errcode := .bufferFull })
      else pd.nextSlot
    else if seq > pd.maxExpectSeq then (.null, { pd with errcode := .bufferNotReady })
    else if seq < pd.expectSeq then (.null, { pd with errcode := .duplicateSeq })
    else
      let i := Int.bmod ((seq : ℤ) - pd.expectSeq) (2 ^ 32)
      let j := Int.tmod (pd.wbRear + i) maxWinBuffer
      if pd.dataok j then (.null, { pd with errcode := .duplicateSeq }) else (.slot j, pd)
  else if pd.wbCnt < maxWinBuffer then (.waits, pd)
  else pd.nextSlot

/-- What a call should do: the count is within the ring, and a call for the next slot gives it, a
new one, when the ring is not full, and otherwise reports that it is full, or waits. -/
def FollowsLaw (pd : WindowBuffer) (seq : ℕ) : Prop :=
  let result := rbmGetFreeWinBuf pd seq
  pd.wbCnt ≤ maxWinBuffer ∧
    (seq = 0 ∨ seq = pd.expectSeq →
      ((∃ j, result.1 = .slot j) ↔ pd.wbCnt < maxWinBuffer) ∧
      (∀ j, result.1 = .slot j → j = pd.wbRear ∧ j ∉ pd.handed) ∧
      ((result.1 = .waits ∨ result.1 = .null ∧ result.2.errcode = .bufferFull) ↔
        pd.wbCnt = maxWinBuffer))

section Calls

variable (pd : WindowBuffer) (seq : ℕ)

/-- As long as the ring is not full a call does not change the ring. -/
theorem wbCnt_rbmGetFreeWinBuf (hcnt : pd.wbCnt < maxWinBuffer) :
    (rbmGetFreeWinBuf pd seq).2.wbCnt = pd.wbCnt ∧
      (rbmGetFreeWinBuf pd seq).2.expectSeq = pd.expectSeq := by
  unfold rbmGetFreeWinBuf
  dsimp only
  split_ifs <;> exact ⟨rfl, rfl⟩

/-- A call for the next slot gives none as long as the ring is not full. -/
theorem rbmGetFreeWinBuf_ne_slot (hcnt : pd.wbCnt < maxWinBuffer)
    (hnext : seq = 0 ∨ seq = pd.expectSeq) (j : ℤ) : (rbmGetFreeWinBuf pd seq).1 ≠ .slot j := by
  unfold rbmGetFreeWinBuf
  by_cases hzero : seq = 0
  · rw [if_neg (not_not_intro hzero), if_pos hcnt]
    exact Handed.noConfusion
  · rw [if_pos hzero, if_pos (hnext.resolve_left hzero), if_pos hcnt]
    exact Handed.noConfusion

/-- As long as the ring is not full the law is met by the calls that are not for the next slot. -/
theorem followsLaw_iff_of_lt (hcnt : pd.wbCnt < maxWinBuffer) :
    FollowsLaw pd seq ↔ seq ≠ 0 ∧ seq ≠ pd.expectSeq := by
  rw [← not_or]
  constructor
  · rintro ⟨-, hlaw⟩ hnext
    obtain ⟨j, hj⟩ := (hlaw hnext).1.mpr hcnt
    exact rbmGetFreeWinBuf_ne_slot pd seq hcnt hnext j hj
  · exact fun hnot ↦ ⟨Nat.le_of_lt hcnt, fun hnext ↦ absurd hnext hnot⟩

end Calls

/-- The ring is empty, and the number that is expected is `expectSeq`. -/
def NothingHanded (expectSeq : ℕ) (pd : WindowBuffer) : Prop :=
  pd.wbCnt = 0 ∧ pd.expectSeq = expectSeq

theorem nothingHanded_allocateWinBuffer (pd : WindowBuffer) :
    NothingHanded pd.expectSeq (allocateWinBuffer pd) :=
  ⟨rfl, rfl⟩

/-- A call leaves an empty ring empty. -/
theorem nothingHanded_rbmGetFreeWinBuf {expectSeq : ℕ} (pd : WindowBuffer) (seq : ℕ)
    (hpd : NothingHanded expectSeq pd) :
    NothingHanded expectSeq (rbmGetFreeWinBuf pd seq).2 := by
  obtain ⟨hcnt, hexpect⟩ := hpd
  have hlt : pd.wbCnt < maxWinBuffer := by rw [hcnt]; decide
  obtain ⟨hcnt', hexpect'⟩ := wbCnt_rbmGetFreeWinBuf pd seq hlt
  exact ⟨hcnt'.trans hcnt, hexpect'.trans hexpect⟩

/-- Whatever the calls, the ring stays empty: no slot is ever handed out in order. -/
theorem nothingHanded_replies (pd : WindowBuffer) (calls : List ℕ) :
    NothingHanded pd.expectSeq (replies rbmGetFreeWinBuf (allocateWinBuffer pd) calls).2 :=
  replies_invariant (NothingHanded pd.expectSeq) nothingHanded_rbmGetFreeWinBuf
    (nothingHanded_allocateWinBuffer pd) calls

/-- From an empty ring every call of a list follows the law exactly when none of them is for the
next slot: not one of a sender, and not one of a receiver that has got the number it expects. -/
theorem followsLaw_iff (pd : WindowBuffer) (calls : List ℕ) :
    Along rbmGetFreeWinBuf FollowsLaw (allocateWinBuffer pd) calls ↔
      ∀ seq ∈ calls, seq ≠ 0 ∧ seq ≠ pd.expectSeq := by
  have hiff : ∀ s seq, NothingHanded pd.expectSeq s →
      (FollowsLaw s seq ↔ seq ≠ 0 ∧ seq ≠ pd.expectSeq) := by
    rintro s seq ⟨hcnt, hexpect⟩
    have hlt : s.wbCnt < maxWinBuffer := by rw [hcnt]; decide
    rw [followsLaw_iff_of_lt s seq hlt, hexpect]
  exact (along_iff_of_invariant (NothingHanded pd.expectSeq) hiff nothingHanded_rbmGetFreeWinBuf
    (nothingHanded_allocateWinBuffer pd) calls).trans (along_calls_iff _ calls)

/-- The window of `new_rbmcast`. -/
def newWindowBuffer : WindowBuffer where
  ready := fun _ ↦ false
  dataok := fun _ ↦ false
  wbFront := 0
  wbRear := 0
  wbPtr := 0
  wbCnt := 0
  expectSeq := 1
  maxExpectSeq := maxWinBuffer
  errcode := .ok
  handed := []

/-- The first call of a sender waits for a free slot while all 256 are free. -/
theorem not_followsLaw_first_send :
    (rbmGetFreeWinBuf (allocateWinBuffer newWindowBuffer) 0).1 = .waits ∧
      ¬ Along rbmGetFreeWinBuf FollowsLaw (allocateWinBuffer newWindowBuffer) [0] := by
  refine ⟨rfl, fun hlaw ↦ ?_⟩
  obtain ⟨j, hj⟩ := (hlaw.1.2 (.inl rfl)).1.mpr (by decide)
  exact Handed.noConfusion (hj : Handed.waits = .slot j)

end Katmai.Rbmcast
