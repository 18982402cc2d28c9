import Katmai.Genpdu.GenericPdu
import Mathlib.Data.Finset.Card
import Mathlib.Data.Finset.Range

/-!
# The handler table as a bounded map

What the table of `genpdu.c` is for is said by `Registry`: a finite map from commands to handlers
that takes at most a given number of commands and never replaces one (`Registry.register`). The
table built by any history of `genpdu_add`, `genpdu_addlist` and `genpdu_clear` represents the map
built by the same history (`represents_tableAfter`); from that follow the invariants of the table,
and that the search loop of `genpdu_do_cmd` is the lookup in the map
(`Represents.eval_findHandler`).
-/

set_option autoImplicit false
set_option relaxedAutoImplicit false

namespace Katmai.Genpdu

open Katmai.Foundation

variable {Func : Type}

/-! ### The abstract map -/

/-- Commands with their handlers. -/
structure Registry (Func : Type) where
  commands : Finset ℤ
  func : ℤ → Option Func

namespace Registry

/-- No command. -/
def empty : Registry Func where
  commands := ∅
  func := fun _ ↦ none

/-- A command can be added to a map that holds at most `capacity` commands. -/
def Accepts (capacity : ℕ) (r : Registry Func) (cmd : ℤ) : Prop :=
  cmd ∉ r.commands ∧ r.commands.card < capacity

instance (capacity : ℕ) (r : Registry Func) (cmd : ℤ) : Decidable (r.Accepts capacity cmd) :=
  inferInstanceAs (Decidable (_ ∧ _))

/-- The map with one more command. -/
def insert (r : Registry Func) (cmd : ℤ) (func : Option Func) : Registry Func where
  commands := Insert.insert cmd r.commands
  func := Function.update r.func cmd func

/-- A command is added if the map accepts it. -/
def register (capacity : ℕ) (r : Registry Func) (cmd : ℤ) (func : Option Func) : Registry Func :=
  if r.Accepts capacity cmd then r.insert cmd func else r

/-- The commands of a list are added up to the end of the list, a missing handler or a command
that is not accepted. -/
def registerList (capacity : ℕ) : Registry Func → List (GpCmdHandler Func) → Registry Func
  | r, [] => r
  | r, entry :: rest =>
    if entry.func ≠ none ∧ r.Accepts capacity entry.cmd then
      registerList capacity (r.insert entry.cmd entry.func) rest
    else r

/-- What a packet with a command leads to. -/
def lookup (r : Registry Func) (cmd : ℤ) : CmdResult Func :=
  if cmd ∈ r.commands then .called cmd (r.func cmd) else .refused

end Registry

/-! ### Histories -/

/-- An operation on the handler table. -/
inductive TableOp (Func : Type) where
  | add (cmd : ℤ) (func : Option Func)
  | addlist (list : List (GpCmdHandler Func))
  | clear

/-- An operation on the table of the program. -/
def TableOp.apply (table : GenpduPrivateData Func) : TableOp Func → GenpduPrivateData Func
  | .add cmd func => (genpduAdd table cmd func).2
  | .addlist list => (genpduAddlist table list).2
  | .clear => genpduClear table

/-- An operation on the abstract map. -/
def TableOp.applyRegistry (capacity : ℕ) (r : Registry Func) : TableOp Func → Registry Func
  | .add cmd func => r.register capacity cmd func
  | .addlist list => r.registerList capacity list
  | .clear => Registry.empty

/-- The table after a history of operations on a new table. -/
def tableAfter (num : ℕ) (history : List (TableOp Func)) : GenpduPrivateData Func :=
  history.foldl TableOp.apply (newGenpdu num)

/-- The abstract map after a history. -/
def registryAfter (num : ℕ) (history : List (TableOp Func)) : Registry Func :=
  history.foldl (TableOp.applyRegistry num) Registry.empty

/-! ### The table represents the map -/

/-- The handlers in use are the commands of the map, each once. -/
structure Represents (table : GenpduPrivateData Func) (r : Registry Func) : Prop where
  cmd_injOn : ∀ i < table.realNum, ∀ j < table.realNum,
    (table.handler i).cmd = (table.handler j).cmd → i = j
  commands_eq : r.commands = (Finset.range table.realNum).image fun i ↦ (table.handler i).cmd
  func_eq : ∀ i < table.realNum, r.func (table.handler i).cmd = (table.handler i).func
  realNum_le : table.realNum ≤ table.num

namespace Represents

variable {table : GenpduPrivateData Func} {r : Registry Func}

/-- A command of the map is the command of a handler in use. -/
theorem mem_commands_iff (hrep : Represents table r) (cmd : ℤ) :
    cmd ∈ r.commands ↔ ∃ i < table.realNum, (table.handler i).cmd = cmd := by
  rw [hrep.commands_eq, Finset.mem_image]
  simp only [Finset.mem_range]

theorem card_commands (hrep : Represents table r) : r.commands.card = table.realNum := by
  rw [hrep.commands_eq, Finset.card_image_of_injOn, Finset.card_range]
  intro i hi j hj heq
  exact hrep.cmd_injOn i (Finset.mem_range.mp hi) j (Finset.mem_range.mp hj) heq

/-- The table takes a command exactly when the map accepts it. -/
theorem genpduAdd_eq (hrep : Represents table r) (cmd : ℤ) (func : Option Func) :
    genpduAdd table cmd func =
      if r.Accepts table.num cmd then
        ((table.realNum : ℤ), { table with
          realNum := table.realNum + 1
          handler := Function.update table.handler table.realNum ⟨cmd, func⟩ })
      else (-1, table) := by
  have hany : ((List.range table.realNum).any fun i ↦ (table.handler i).cmd = cmd) = true ↔
      cmd ∈ r.commands := by
    rw [hrep.mem_commands_iff, List.any_eq_true]
    simp only [List.mem_range, decide_eq_true_eq]
  unfold genpduAdd
  by_cases hmem : cmd ∈ r.commands
  · rw [if_pos (hany.mpr hmem), if_neg fun haccepts ↦ haccepts.1 hmem]
  · rw [if_neg fun h ↦ hmem (hany.mp h)]
    by_cases hfull : table.num ≤ table.realNum
    · have hrefused : ¬r.Accepts table.num cmd :=
        fun haccepts ↦ absurd haccepts.2 (Nat.not_lt.mpr (hfull.trans hrep.card_commands.ge))
      rw [if_pos hfull, if_neg hrefused]
    · have haccepts : r.Accepts table.num cmd :=
        ⟨hmem, hrep.card_commands.trans_lt (Nat.not_le.mp hfull)⟩
      rw [if_neg hfull, if_pos haccepts]

/-- A command that is accepted is added at the end of the handlers in use. -/
theorem insert (hrep : Represents table r) {cmd : ℤ} (haccepts : r.Accepts table.num cmd)
    (func : Option Func) :
    Represents { table with
      realNum := table.realNum + 1
      handler := Function.update table.handler table.realNum ⟨cmd, func⟩ }
      (r.insert cmd func) := by
  have hcard := hrep.card_commands
  have hold {i : ℕ} (hi : i < table.realNum) :
      Function.update table.handler table.realNum ⟨cmd, func⟩ i = table.handler i :=
    Function.update_of_ne hi.ne _ _
  have hne {i : ℕ} (hi : i < table.realNum) : (table.handler i).cmd ≠ cmd :=
    fun heq ↦ haccepts.1 ((hrep.mem_commands_iff cmd).mpr ⟨i, hi, heq⟩)
  refine ⟨?_, ?_, ?_, ?_⟩
  · intro i hi j hj heq
    dsimp only at hi hj heq
    rcases Nat.lt_succ_iff_lt_or_eq.mp hi with hi | rfl <;>
      rcases Nat.lt_succ_iff_lt_or_eq.mp hj with hj | rfl
    · rw [hold hi, hold hj] at heq
      exact hrep.cmd_injOn i hi j hj heq
    · rw [hold hi, Function.update_self] at heq
      exact absurd heq (hne hi)
    · rw [hold hj, Function.update_self] at heq
      exact absurd heq.symm (hne hj)
    · rfl
  · dsimp only [Registry.insert]
    rw [hrep.commands_eq, Finset.range_add_one, Finset.image_insert, Function.update_self]
    congr 1
    refine Finset.image_congr fun i hi ↦ ?_
    rw [hold (Finset.mem_range.mp hi)]
  · intro i hi
    dsimp only [Registry.insert] at hi ⊢
    rcases Nat.lt_succ_iff_lt_or_eq.mp hi with hi | rfl
    · rw [hold hi, Function.update_of_ne (hne hi)]
      exact hrep.func_eq i hi
    · rw [Function.update_self, Function.update_self]
  · have hroom := haccepts.2
    rw [hcard] at hroom
    exact hroom

/-- `genpdu_add` keeps the representation. -/
theorem genpduAdd (hrep : Represents table r) (cmd : ℤ) (func : Option Func) :
    Represents (genpduAdd table cmd func).2 (r.register table.num cmd func) := by
  rw [hrep.genpduAdd_eq, Registry.register]
  by_cases haccepts : r.Accepts table.num cmd
  · rw [if_pos haccepts, if_pos haccepts]
    exact hrep.insert haccepts func
  · rw [if_neg haccepts, if_neg haccepts]
    exact hrep

/-- `genpdu_addlist` keeps the representation. -/
theorem genpduAddlist (list : List (GpCmdHandler Func)) (hrep : Represents table r) :
    Represents (genpduAddlist table list).2 (r.registerList table.num list) := by
  induction list generalizing table r with
  | nil => exact hrep
  | cons entry rest ih =>
    rw [Registry.registerList, Genpdu.genpduAddlist]
    by_cases hfunc : entry.func = none
    · rw [if_pos hfunc, if_neg fun h ↦ h.1 hfunc]
      exact hrep
    · have hadd := hrep.genpduAdd_eq entry.cmd entry.func
      rw [if_neg hfunc]
      by_cases haccepts : r.Accepts table.num entry.cmd
      · have hboth : entry.func ≠ none ∧ r.Accepts table.num entry.cmd := ⟨hfunc, haccepts⟩
        have hnonneg : ¬(table.realNum : ℤ) < 0 := Int.not_lt.mpr (Int.natCast_nonneg _)
        rw [if_pos haccepts] at hadd
        rw [hadd, if_pos hboth]
        dsimp only
        rw [if_neg hnonneg]
        exact ih (hrep.insert haccepts entry.func)
      · have hboth : ¬(entry.func ≠ none ∧ r.Accepts table.num entry.cmd) :=
          fun h ↦ haccepts h.2
        have hneg : (-1 : ℤ) < 0 := by decide
        rw [if_neg haccepts] at hadd
        rw [hadd, if_neg hboth]
        dsimp only
        rw [if_pos hneg]
        exact hrep

/-- `genpdu_clear` empties the map. -/
theorem genpduClear (table : GenpduPrivateData Func) :
    Represents (genpduClear table) Registry.empty where
  cmd_injOn := fun i hi ↦ absurd hi (Nat.not_lt_zero i)
  commands_eq := rfl
  func_eq := fun i hi ↦ absurd hi (Nat.not_lt_zero i)
  realNum_le := Nat.zero_le _

/-- The search loop from `i` on, after no handler before `i` had the command of the packet. -/
theorem eval_findHandler_from (hrep : Represents table r) (buffer : ℕ → UInt8) (count i : ℕ)
    (hcount : i + count = table.realNum)
    (hbefore : ∀ j < i, (table.handler j).cmd ≠ ByteReader.eval buffer pduCmd) :
    ByteReader.eval buffer (findHandler table count i) =
      r.lookup (ByteReader.eval buffer pduCmd) := by
  induction count generalizing i with
  | zero =>
    have hfree : ByteReader.eval buffer pduCmd ∉ r.commands := by
      rw [hrep.mem_commands_iff]
      rintro ⟨j, hj, hcmd⟩
      exact hbefore j (hj.trans_le hcount.ge) hcmd
    rw [findHandler, ByteReader.eval_pure, Registry.lookup, if_neg hfree]
  | succ count ih =>
    have hi : i < table.realNum := by omega
    rw [findHandler, ByteReader.eval_bind]
    by_cases hcmd : (table.handler i).cmd = ByteReader.eval buffer pduCmd
    · have hmem := (hrep.mem_commands_iff _).mpr ⟨i, hi, hcmd⟩
      rw [if_pos hcmd, ByteReader.eval_pure, Registry.lookup, if_pos hmem, ← hcmd,
        hrep.func_eq i hi]
    · rw [if_neg hcmd]
      refine ih (i + 1) (by omega) fun j hj ↦ ?_
      rcases Nat.lt_succ_iff_lt_or_eq.mp hj with hj | rfl
      · exact hbefore j hj
      · exact hcmd

/-- The search loop calls the handler that the map has for the command of the packet. -/
theorem eval_findHandler (hrep : Represents table r) (buffer : ℕ → UInt8) :
    ByteReader.eval buffer (findHandler table table.realNum 0) =
      r.lookup (ByteReader.eval buffer pduCmd) :=
  hrep.eval_findHandler_from buffer table.realNum 0 (Nat.zero_add _)
    fun j hj ↦ absurd hj (Nat.not_lt_zero j)

end Represents

/-! ### Whole histories -/

theorem genpduAdd_num (table : GenpduPrivateData Func) (cmd : ℤ) (func : Option Func) :
    (genpduAdd table cmd func).2.num = table.num := by
  unfold genpduAdd
  split_ifs <;> rfl

theorem genpduAddlist_num (table : GenpduPrivateData Func) (list : List (GpCmdHandler Func)) :
    (genpduAddlist table list).2.num = table.num := by
  induction list generalizing table with
  | nil => rfl
  | cons entry rest ih =>
    unfold genpduAddlist
    dsimp only
    split_ifs
    · rfl
    · exact genpduAdd_num table entry.cmd entry.func
    · exact (ih _).trans (genpduAdd_num table entry.cmd entry.func)

/-- No operation changes the size of the table. -/
theorem TableOp.apply_num (table : GenpduPrivateData Func) (op : TableOp Func) :
    (op.apply table).num = table.num := by
  cases op with
  | add cmd func => exact genpduAdd_num table cmd func
  | addlist list => exact genpduAddlist_num table list
  | clear => rfl

/-- One operation keeps the representation. -/
theorem Represents.apply {table : GenpduPrivateData Func} {r : Registry Func}
    (hrep : Represents table r) (op : TableOp Func) :
    Represents (op.apply table) (op.applyRegistry table.num r) := by
  cases op with
  | add cmd func => exact hrep.genpduAdd cmd func
  | addlist list => exact hrep.genpduAddlist list
  | clear => exact Represents.genpduClear table

/-- The table built by a history represents the map built by the same history. -/
theorem represents_tableAfter (num : ℕ) (history : List (TableOp Func)) :
    Represents (tableAfter num history) (registryAfter num history) := by
  have hfold (table : GenpduPrivateData Func) (r : Registry Func) (hnum : table.num = num)
      (hrep : Represents table r) : Represents (history.foldl TableOp.apply table)
        (history.foldl (TableOp.applyRegistry num) r) := by
    induction history generalizing table r with
    | nil => exact hrep
    | cons op rest ih =>
      have hstep := hrep.apply op
      rw [hnum] at hstep
      exact ih (op.apply table) (op.applyRegistry num r) ((op.apply_num table).trans hnum) hstep
  exact hfold (newGenpdu num) Registry.empty rfl (Represents.genpduClear (newGenpdu num))

end Katmai.Genpdu
