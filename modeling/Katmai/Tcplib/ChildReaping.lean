import Katmai.Foundation.Inevitable
import Mathlib.Data.Finset.Card

/-!
# The `SIGCHLD` handler of the TCP library

`listen_main` forks a child for each connection, and `sigchild_handler` calls `waitpid` until its
result is negative. With `WNOHANG` the result is the number of a child that has exited, `0` when
there are children but none of them has exited, and `-1` when there are no children. The handler
takes the second of these for a child and asks again, so that it comes to an end exactly when no
child is still running (`inevitable_reaped_iff`).

The results of `waitpid` are the events of the handler: which of the children that have exited is
reported first is left open.
-/

set_option autoImplicit false
set_option relaxedAutoImplicit false

namespace Katmai.Tcplib

open Foundation

/-- The child processes, by their numbers: those that have exited and have not been reaped, and
those that are still running. -/
structure Children where
  exited : Finset ℕ
  running : Finset ℕ
  pos : ∀ pid ∈ exited, 0 < pid

namespace Children

/-- A child that has exited is reaped. -/
def reap (children : Children) (pid : ℕ) : Children where
  exited := children.exited.erase pid
  running := children.running
  pos other hother := children.pos other (Finset.mem_of_mem_erase hother)

/-- The children after a call `waitpid (0, &status, WNOHANG)` with this result, or `none` if the
call cannot have it. -/
def waitpid (children : Children) (result : ℤ) : Option Children :=
  if children.exited.Nonempty then
    if 0 < result ∧ result.toNat ∈ children.exited then some (children.reap result.toNat) else none
  else if children.running.Nonempty then
    if result = 0 then some children else none
  else if result = -1 then some children else none

end Children

/-- The handler: the children, the results of `waitpid` so far and whether it has returned. -/
structure Handler where
  children : Children
  results : List ℤ
  returned : Bool

/-- The handler at its start. -/
def sigchildHandler (children : Children) : Handler :=
  ⟨children, [], false⟩

/-- One test of the loop of `sigchild_handler`, `waitpid (0, &status, WNOHANG) >= 0`. -/
def Handler.step (handler : Handler) (result : ℤ) : Option Handler :=
  if handler.returned then none
  else
    (handler.children.waitpid result).map fun children ↦
      { children := children
        results := handler.results ++ [result]
        returned := !decide (result ≥ 0) }

/-- The handler has returned, every child that had exited has been reaped once, and those that were
running have not been waited for. -/
structure Reaped (children : Children) (handler : Handler) : Prop where
  returned_eq : handler.returned = true
  exited_eq : handler.children.exited = ∅
  running_eq : handler.children.running = children.running
  count_eq : ∀ pid ∈ children.exited, handler.results.count (pid : ℤ) = 1

/-! ### Results of `waitpid` -/

namespace Children

variable {children children' : Children} {result : ℤ}

theorem waitpid_of_mem {pid : ℕ} (hpid : pid ∈ children.exited) :
    children.waitpid pid = some (children.reap pid) := by
  have hpos := children.pos pid hpid
  rw [waitpid, if_pos ⟨pid, hpid⟩, if_pos ⟨by omega, hpid⟩]
  rfl

theorem waitpid_of_running (hexited : children.exited = ∅) (hrunning : children.running.Nonempty) :
    children.waitpid 0 = some children := by
  rw [waitpid, if_neg (by simp [hexited]), if_pos hrunning, if_pos rfl]

theorem waitpid_of_none (hexited : children.exited = ∅) (hrunning : children.running = ∅) :
    children.waitpid (-1) = some children := by
  rw [waitpid, if_neg (by simp [hexited]), if_neg (by simp [hrunning]), if_pos rfl]

/-- The three kinds of results. -/
theorem waitpid_cases (hwait : children.waitpid result = some children') :
    (∃ pid ∈ children.exited, result = pid ∧ children' = children.reap pid) ∨
      (children.exited = ∅ ∧ children.running.Nonempty ∧ result = 0 ∧ children' = children) ∨
      (children.exited = ∅ ∧ children.running = ∅ ∧ result = -1 ∧ children' = children) := by
  unfold waitpid at hwait
  split_ifs at hwait with hexited hpid hrunning hzero hminus
  · rw [Option.some.injEq] at hwait
    exact Or.inl ⟨result.toNat, hpid.2, by omega, hwait.symm⟩
  · rw [Option.some.injEq] at hwait
    exact Or.inr (Or.inl ⟨Finset.not_nonempty_iff_eq_empty.mp hexited, hrunning, hzero, hwait.symm⟩)
  · rw [Option.some.injEq] at hwait
    exact Or.inr (Or.inr ⟨Finset.not_nonempty_iff_eq_empty.mp hexited,
      Finset.not_nonempty_iff_eq_empty.mp hrunning, hminus, hwait.symm⟩)

/-- While a child is running, some result is not negative and leaves the child running. -/
theorem exists_waitpid_of_running (hrunning : children.running.Nonempty) :
    ∃ result children', children.waitpid result = some children' ∧ 0 ≤ result ∧
      children'.running = children.running := by
  rcases Finset.eq_empty_or_nonempty children.exited with hexited | ⟨pid, hpid⟩
  · exact ⟨0, children, waitpid_of_running hexited hrunning, Int.le_refl 0, rfl⟩
  · exact ⟨pid, children.reap pid, waitpid_of_mem hpid, Int.natCast_nonneg pid, rfl⟩

end Children

/-! ### The loop -/

variable {children : Children} {handler handler' : Handler} {result : ℤ}

theorem step_of_waitpid {children' : Children} (hreturned : handler.returned = false)
    (hwait : handler.children.waitpid result = some children') :
    handler.step result =
      some ⟨children', handler.results ++ [result], !decide (result ≥ 0)⟩ := by
  rw [Handler.step, hreturned, hwait]
  rfl

/-- While a child is running the handler need not come to its end. -/
theorem not_inevitable_of_running {P : Handler → Prop} (hP : ∀ handler, P handler →
    handler.returned = true) (hrunning : handler.children.running.Nonempty)
    (hreturned : handler.returned = false) : ¬Inevitable Handler.step P handler := by
  intro hinevitable
  induction hinevitable with
  | now hdone => exact absurd (hP _ hdone) (by simp [hreturned])
  | later hsome _ ih =>
    obtain ⟨result, children', hwait, hresult, hsame⟩ :=
      Children.exists_waitpid_of_running hrunning
    refine ih result _ (step_of_waitpid hreturned hwait) (hsame ▸ hrunning) ?_
    simp [hresult]

/-- The children that had exited and are not in the results are still to be reaped. -/
structure Reaping (children : Children) (handler : Handler) : Prop where
  running_eq : handler.children.running = ∅
  returned_imp : handler.returned = true → handler.children.exited = ∅
  count_eq : ∀ pid ∈ children.exited,
    handler.results.count (pid : ℤ) + (if pid ∈ handler.children.exited then 1 else 0) = 1

theorem reaping_start (hrunning : children.running = ∅) :
    Reaping children (sigchildHandler children) where
  running_eq := hrunning
  returned_imp hreturned := absurd hreturned Bool.false_ne_true
  count_eq pid hpid := by
    rw [sigchildHandler, if_pos hpid]
    rfl

/-- A child is reaped. -/
theorem Reaping.reap (hreaping : Reaping children handler) {pid : ℕ}
    (hpid : pid ∈ handler.children.exited) :
    Reaping children ⟨handler.children.reap pid, handler.results ++ [(pid : ℤ)], false⟩ where
  running_eq := hreaping.running_eq
  returned_imp hreturned := absurd hreturned Bool.false_ne_true
  count_eq other hother := by
    have hcount := hreaping.count_eq other hother
    simp only [Children.reap, List.count_append, List.count_singleton, Finset.mem_erase]
    by_cases heq : pid = other
    · subst heq
      rw [if_pos hpid] at hcount
      simpa using hcount
    · have hne : ((pid : ℤ) == (other : ℤ)) = false :=
        beq_false_of_ne fun hsame ↦ heq (Int.ofNat_inj.mp hsame)
      simpa [hne, Ne.symm heq] using hcount

/-- Without children the handler returns. -/
theorem Reaping.last (hreaping : Reaping children handler)
    (hexited : handler.children.exited = ∅) :
    Reaping children ⟨handler.children, handler.results ++ [-1], true⟩ where
  running_eq := hreaping.running_eq
  returned_imp _ := hexited
  count_eq pid hpid := by
    have hcount := hreaping.count_eq pid hpid
    rw [List.count_append, List.count_singleton, beq_false_of_ne (by omega)]
    simpa using hcount

/-- When the handler has returned, all children have been reaped. -/
theorem Reaping.reaped (hreaping : Reaping children handler) (hrunning : children.running = ∅)
    (hreturned : handler.returned = true) : Reaped children handler where
  returned_eq := hreturned
  exited_eq := hreaping.returned_imp hreturned
  running_eq := hreaping.running_eq.trans hrunning.symm
  count_eq pid hpid := by
    have hcount := hreaping.count_eq pid hpid
    rwa [hreaping.returned_imp hreturned, if_neg (Finset.notMem_empty pid)] at hcount

/-- The tests that are still to come when no child is running. -/
def testsLeft (handler : Handler) : ℕ :=
  handler.children.exited.card + if handler.returned then 0 else 1

/-- A test reaps a child or is the last. -/
theorem Reaping.step (hreaping : Reaping children handler)
    (hstep : handler.step result = some handler') :
    Reaping children handler' ∧ testsLeft handler' < testsLeft handler := by
  unfold Handler.step at hstep
  split_ifs at hstep with hreturned
  obtain ⟨children', hwait, rfl⟩ := Option.map_eq_some_iff.mp hstep
  rcases Children.waitpid_cases hwait with ⟨pid, hpid, rfl, rfl⟩ | hzero | hminus
  · have hcard := Finset.card_erase_lt_of_mem hpid
    refine ⟨hreaping.reap hpid, ?_⟩
    simp only [testsLeft, Children.reap, hreturned]
    simpa using hcard
  · exact absurd hreaping.running_eq hzero.2.1.ne_empty
  · obtain ⟨hexited, -, rfl, rfl⟩ := hminus
    refine ⟨hreaping.last hexited, ?_⟩
    simp [testsLeft, hreturned]

/-- Until the handler has returned there is a next test. -/
theorem Reaping.exists_step (hreaping : Reaping children handler)
    (hreturned : handler.returned = false) :
    ∃ result handler', handler.step result = some handler' := by
  rcases Finset.eq_empty_or_nonempty handler.children.exited with hexited | ⟨pid, hpid⟩
  · exact ⟨-1, _, step_of_waitpid hreturned
      (Children.waitpid_of_none hexited hreaping.running_eq)⟩
  · exact ⟨pid, _, step_of_waitpid hreturned (Children.waitpid_of_mem hpid)⟩

/-- The handler comes to its end, with every child that has exited reaped once and none of the
others waited for, exactly when no child is running. -/
theorem inevitable_reaped_iff (children : Children) :
    Inevitable Handler.step (Reaped children) (sigchildHandler children) ↔
      children.running = ∅ := by
  constructor
  · intro hinevitable
    by_contra hrunning
    exact not_inevitable_of_running (fun handler hreaped ↦ hreaped.returned_eq)
      (Finset.nonempty_iff_ne_empty.mpr hrunning) rfl hinevitable
  · intro hrunning
    refine inevitable_of_measure (Reaping children) testsLeft (fun handler hreaping ↦ ?_)
      (reaping_start hrunning)
    cases hreturned : handler.returned with
    | true => exact Or.inl (hreaping.reaped hrunning hreturned)
    | false =>
      exact Or.inr ⟨hreaping.exists_step hreturned, fun result handler' ↦ hreaping.step⟩

/-- One child has exited while another one is running. -/
theorem not_inevitable_reaped_two :
    ¬Inevitable Handler.step (Reaped ⟨{1}, {2}, by decide⟩)
      (sigchildHandler ⟨{1}, {2}, by decide⟩) := by
  refine not_inevitable_of_running (fun handler hreaped ↦ hreaped.returned_eq) ?_ rfl
  exact ⟨2, Finset.mem_singleton_self 2⟩

end Katmai.Tcplib
