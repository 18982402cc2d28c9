import Katmai.Foundation.CallRun
import Mathlib.Data.Int.Notation
import Mathlib.Logic.Function.Basic

/-!
# Levels of messages

`lprintf` prints a message if its level has a stream in the table `plevel`, and `lprintf_mask` is to
put streams in and out of the table by the bits of a mask. Its loop counts down from the first level
where it should count up: the second round is at `plevel[-1]`, so that no call of `lprintf_mask`
comes back from the table (`lprintfMask_eq_none`). The flag `plevel_init` is read by every function
and set by none; each call starts from a table that is full.

An access to `plevel` at an index other than `0` to `9` goes wrong (`none`). Against the mask as the
state of a specification, the calls go as they should exactly when none of them is `lprintf_mask`
(`served_iff`).
-/

set_option autoImplicit false
set_option relaxedAutoImplicit false

namespace Katmai.Misclib

open Foundation

/-- The only stream that is put into the table. -/
inductive Stream
  | stderr
  deriving DecidableEq

/-- The static variables of `lprintf.c`; a null pointer is `none`. -/
structure Lprintf where
  plevel : ℤ → Option Stream
  plevelInit : Bool

/-- The variables when the program starts. -/
def newLprintf : Lprintf :=
  ⟨fun _ ↦ none, false⟩

/-- The calls: `lprintf` with the text its format makes of the arguments and what `vfprintf` will
return for it. -/
inductive LprintfCall
  | lprintfMask (mask : BitVec 32)
  | lprintf (level : ℤ) (text : String) (written : ℤ)

/-- What a call returns, and the text it prints. -/
inductive LprintfAnswer
  | mask (rc : BitVec 32)
  | silent (rc : ℤ)
  | printed (fp : Stream) (text : String) (rc : ℤ)
  deriving DecidableEq

namespace Lprintf

/-- `plevel[i]` is read. -/
def load (s : Lprintf) (i : ℤ) : Option (Option Stream) :=
  if 0 ≤ i ∧ i < 10 then some (s.plevel i) else none

/-- `plevel[i]` is assigned. -/
def store (s : Lprintf) (i : ℤ) (fp : Option Stream) : Option Lprintf :=
  if 0 ≤ i ∧ i < 10 then some { s with plevel := Function.update s.plevel i fp } else none

/-- The loop of `inititalize`, over the indices that are left. -/
def storeEach : List ℤ → Lprintf → Option Lprintf
  | [], s => some s
  | i :: rest, s => (s.store i (some .stderr)).bind (storeEach rest)

/-- `inititalize` -/
def inititalize (s : Lprintf) : Option Lprintf :=
  if s.plevelInit then some s else storeEach [0, 1, 2, 3, 4, 5, 6, 7, 8, 9] s

/-- The first statement of each function. -/
def prepare (s : Lprintf) : Option Lprintf :=
  if s.plevelInit then some s else s.inititalize

/-- The loop of `lprintf_mask` that puts the mask together, over the indices that are left. -/
def readMask (s : Lprintf) : List ℤ → BitVec 32 → Option (BitVec 32)
  | [], rc => some rc
  | i :: rest, rc =>
    (s.load i).bind fun fp ↦
      readMask s rest (if fp ≠ none then rc <<< 1 ||| 1#32 else rc <<< 1)

/-- The body of the second loop of `lprintf_mask`. -/
def setLevel (s : Lprintf) (i : ℤ) (v : BitVec 32) : Option Lprintf :=
  (s.load i).bind fun fp ↦
    if v &&& 1#32 ≠ 0#32 then if fp = none then s.store i (some .stderr) else some s
    else if fp ≠ none then s.store i none
    else some s

/-- The second loop of `lprintf_mask`, `for (i = 0, v = mask; i < 10; i--)`, from `i` on. -/
def setLevels (s : Lprintf) (i : ℤ) (v : BitVec 32) : Option Lprintf :=
  if i < 10 then
    if 0 ≤ i then (s.setLevel i v).bind fun s' ↦ setLevels s' (i - 1) (v.sshiftRight 1) else none
  else some s
termination_by (i + 1).toNat
decreasing_by all_goals omega

/-- `lprintf_mask` -/
def lprintfMask (s : Lprintf) (mask : BitVec 32) : Option (BitVec 32 × Lprintf) :=
  s.prepare.bind fun s ↦
    (s.readMask [9, 8, 7, 6, 5, 4, 3, 2, 1, 0] 0#32).bind fun rc ↦
      (s.setLevels 0 mask).map fun s ↦ (rc, s)

/-- `lprintf` -/
def lprintf (s : Lprintf) (level : ℤ) (text : String) (written : ℤ) :
    Option (LprintfAnswer × Lprintf) :=
  s.prepare.bind fun s ↦
    if level < 0 ∨ level > 9 then some (.silent 0, s)
    else
      (s.load level).map fun fp ↦
        match fp with
        | none => (.silent 0, s)
        | some fp => (.printed fp text written, s)

/-- A call of either function. -/
def call (s : Lprintf) : LprintfCall → Option (LprintfAnswer × Lprintf)
  | .lprintfMask mask => (s.lprintfMask mask).map fun result ↦ (.mask result.1, result.2)
  | .lprintf level text written => s.lprintf level text written

end Lprintf

/-- What the calls are to answer, with the mask in force as the state: `lprintf_mask` returns the
mask that was set before, and `lprintf` prints a message whose level has its bit in the mask. -/
def maskSpec (mask : BitVec 32) : LprintfCall → LprintfAnswer × BitVec 32
  | .lprintfMask new => (.mask (mask &&& 0x3FF#32), new)
  | .lprintf level text written =>
    (if (0 ≤ level ∧ level ≤ 9) ∧ mask.getLsbD level.toNat = true then
      .printed .stderr text written
    else .silent 0, mask)

/-- Every call comes back without an access outside the table and answers as it is to. -/
def Served (calls : List LprintfCall) : Prop :=
  ∃ s, serve Lprintf.call newLprintf calls = some ((replies maskSpec 0x3FF#32 calls).1, s)

/-! ### The table is filled -/

namespace Lprintf

variable {s : Lprintf}

/-- The loop puts the stream at all its indices and keeps it where it is. -/
theorem storeEach_eq {indices : List ℤ} (hrange : ∀ i ∈ indices, 0 ≤ i ∧ i < 10) (s : Lprintf) :
    ∃ s', storeEach indices s = some s' ∧ s'.plevelInit = s.plevelInit ∧
      ∀ i, i ∈ indices ∨ s.plevel i = some .stderr → s'.plevel i = some .stderr := by
  induction indices generalizing s with
  | nil => exact ⟨s, rfl, rfl, fun i hi ↦ hi.resolve_left List.not_mem_nil⟩
  | cons first rest ih =>
    rw [List.forall_mem_cons] at hrange
    obtain ⟨s', hrest, hinit, hfull⟩ :=
      ih hrange.2 { s with plevel := Function.update s.plevel first (some .stderr) }
    refine ⟨s', ?_, hinit, fun i hi ↦ hfull i ?_⟩
    · rw [storeEach, store, if_pos hrange.1, Option.bind_some, hrest]
    · by_cases heq : i = first
      · subst heq
        exact Or.inr (Function.update_self _ _ _)
      · rw [List.mem_cons, or_assoc] at hi
        exact (hi.resolve_left heq).imp_right (Function.update_of_ne heq _ _).trans

/-- As no function sets the flag, each starts with a table that is full. -/
theorem prepare_eq (hinit : s.plevelInit = false) :
    ∃ s', s.prepare = some s' ∧ s'.plevelInit = false ∧
      ∀ i, 0 ≤ i → i < 10 → s'.plevel i = some .stderr := by
  have hrange : ∀ i ∈ ([0, 1, 2, 3, 4, 5, 6, 7, 8, 9] : List ℤ), 0 ≤ i ∧ i < 10 := by decide
  obtain ⟨s', hstore, hinit', hfull⟩ := storeEach_eq hrange s
  refine ⟨s', ?_, hinit'.trans hinit, fun i hi hlt ↦ hfull i (Or.inl ?_)⟩
  · rw [prepare, inititalize, hinit]
    exact hstore
  · simp only [List.mem_cons, List.not_mem_nil, or_false]
    omega

/-- Every message of a level in the table is printed, whatever mask was asked for. -/
theorem lprintf_eq (hinit : s.plevelInit = false) (level : ℤ) (text : String) (written : ℤ) :
    ∃ s', s'.plevelInit = false ∧ s.lprintf level text written =
      some (if 0 ≤ level ∧ level ≤ 9 then .printed .stderr text written else .silent 0, s') := by
  obtain ⟨s', hprepare, hinit', hfull⟩ := prepare_eq hinit
  refine ⟨s', hinit', ?_⟩
  rw [lprintf, hprepare, Option.bind_some]
  by_cases hrange : 0 ≤ level ∧ level ≤ 9
  · rw [if_neg (by omega), if_pos hrange, load, if_pos (by omega),
      hfull level hrange.1 (by omega)]
    rfl
  · rw [if_pos (by omega), if_neg hrange]

/-! ### The loop that counts down -/

/-- The second round is in front of the table. -/
theorem setLevels_eq_none (s : Lprintf) (v : BitVec 32) : s.setLevels 0 v = none := by
  have hbelow (s' : Lprintf) : s'.setLevels (0 - 1) (v.sshiftRight 1) = none := by
    rw [setLevels, if_pos (by decide), if_neg (by decide)]
  rw [setLevels, if_pos (by decide), if_pos (by decide)]
  cases s.setLevel 0 v with
  | none => rfl
  | some s' => exact hbelow s'

/-- No call of `lprintf_mask` comes back. -/
theorem lprintfMask_eq_none (s : Lprintf) (mask : BitVec 32) : s.lprintfMask mask = none := by
  unfold lprintfMask
  simp only [setLevels_eq_none, Option.map_none, Option.bind_fun_none]

end Lprintf

/-! ### Runs -/

/-- The ten bits are set at first. -/
theorem initial_bits {n : ℕ} (hn : n < 10) : (0x3FF#32).getLsbD n = true := by
  have hall : ∀ n < 10, (0x3FF#32).getLsbD n = true := by decide
  exact hall n hn

/-- The calls do what they should exactly when none of them is `lprintf_mask`. -/
theorem served_iff (calls : List LprintfCall) :
    Served calls ↔ ∀ call ∈ calls, ∀ mask, call ≠ .lprintfMask mask := by
  -- while no mask is set, all bits are in force and the flag stays as it is
  have hstep : ∀ s mask call, (s.plevelInit = false ∧ mask = 0x3FF#32) →
      (∀ new, call ≠ LprintfCall.lprintfMask new) →
      ∃ s', Lprintf.call s call = some ((maskSpec mask call).1, s') ∧
        s'.plevelInit = false ∧ (maskSpec mask call).2 = 0x3FF#32 := by
    rintro s mask call ⟨hinit, rfl⟩ hgood
    cases call with
    | lprintfMask new => exact absurd rfl (hgood new)
    | lprintf level text written =>
      obtain ⟨s', hinit', heq⟩ := Lprintf.lprintf_eq hinit level text written
      refine ⟨s', heq.trans ?_, hinit', rfl⟩
      have hbits : (0 ≤ level ∧ level ≤ 9) ∧ (0x3FF#32).getLsbD level.toNat = true ↔
          0 ≤ level ∧ level ≤ 9 :=
        and_iff_left_of_imp fun hrange ↦ initial_bits (by omega)
      simp only [maskSpec, hbits]
  have hbad : ∀ s mask call, (s.plevelInit = false ∧ mask = 0x3FF#32) →
      (¬∀ new, call ≠ LprintfCall.lprintfMask new) →
      ∀ s', Lprintf.call s call ≠ some ((maskSpec mask call).1, s') := by
    intro s mask call _ hbad s' heq
    obtain ⟨new, rfl⟩ : ∃ new, call = .lprintfMask new := by
      by_contra hnot
      exact hbad fun new hnew ↦ hnot ⟨new, hnew⟩
    rw [Lprintf.call, Lprintf.lprintfMask_eq_none] at heq
    cases heq
  exact (serve_eq_replies_iff hstep hbad ⟨rfl, rfl⟩).trans (along_calls_iff _ _)

/-- The first mask that is set. -/
theorem not_served_mask : ¬Served [.lprintfMask 0#32] := by
  rintro ⟨s, hserve⟩
  rw [serve, Lprintf.call, Lprintf.lprintfMask_eq_none] at hserve
  cases hserve

end Katmai.Misclib
