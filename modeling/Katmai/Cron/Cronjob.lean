import Katmai.Foundation.BitMask

/-!
# The cron table: reading a line and looking up a time

`parseCronString` reads a line character by character. A field is collected in two masks, one of 64
bits for the minutes and one of 32 bits for the other fields, and is stored only when the character
behind its closing blank is read (`storeField`); behind the fifth field that character is read a
second time, as part of the command. A result of `none` stands for an undefined computation: an
`int` that overflows, a remainder by zero, a string longer than an `int` can say. A result of
`some none` is the return value 0, a line that is not accepted.

`cronjobAdd` puts a parsed line in front of the table; `cronjobCheckFirst` and `cronjobCheckNext` go
through the table and return the commands of the entries whose five masks all meet the time.
-/

set_option autoImplicit false
set_option relaxedAutoImplicit false

namespace Katmai.Cron

open Foundation

/-! ### Data -/

/-- The five masks of an entry or of a time. -/
structure FieldMasks where
  min : BitVec 64
  hour : BitVec 32
  day : BitVec 32
  mon : BitVec 32
  wday : BitVec 32
deriving DecidableEq, Repr

/-- An entry of the table. The link to the next entry is the list it stands in. -/
structure CronjobTableData extends FieldMasks where
  cmd : List Char
deriving DecidableEq, Repr

/-- The private data of a `struct cronjob_t`. -/
structure Cronjob where
  tbl : List CronjobTableData
  cktbl : FieldMasks
  findptr : List CronjobTableData
deriving DecidableEq, Repr

/-- The largest `int`, plus one. -/
def intLimit : ℕ := 2 ^ 31

/-! ### The parser -/

/-- The states of the parser: `0`, `1` (`*`), `2` (a number), `3` (`*/`), `4` (`n,`), `5` (`*/n`),
`6` and `-1`. -/
inductive ParseState
  | start
  | star
  | number
  | slash
  | comma
  | every
  | command
  | error
deriving DecidableEq, Repr

/-- The variables of `parse_cron_string` that outlive a round of its loop. -/
structure CronParser where
  state : ParseState
  newfield : Bool
  f : ℕ
  n : ℕ
  i64 : BitVec 64
  i32 : BitVec 32
  tbl : FieldMasks
deriving DecidableEq, Repr

def isBlank (c : Char) : Bool := c = ' ' || c = '\t'

def isDigit (c : Char) : Bool := '0' ≤ c && c ≤ '9'

/-- `(int) (str[i] - '0')`. -/
def digitValue (c : Char) : ℕ := c.toNat - '0'.toNat

/-- `n * 10 + digit`, undefined where an `int` overflows. -/
def appendDigit (n : ℕ) (c : Char) : Option ℕ :=
  if n * 10 + digitValue c < intLimit then some (n * 10 + digitValue c) else none

/-- The 64-bit mask of a number; the highest bit is not used. -/
def mask64 (n : ℕ) : BitVec 64 :=
  if n = 0 then 1 else if n < 32 then 1#64 <<< n else if n < 63 then 1#64 <<< n else 0

/-- The 32-bit mask of a number. -/
def mask32 (n : ℕ) : BitVec 32 :=
  if n = 0 then 1 else if n < 32 then 1#32 <<< n else 0

/-- The field that has been read is stored as the next one of the entry. -/
def storeField (p : CronParser) : CronParser :=
  let p := { p with newfield := false, f := p.f + 1 }
  match p.f with
  | 1 => { p with tbl := { p.tbl with min := p.i64 } }
  | 2 => { p with tbl := { p.tbl with hour := p.i32 } }
  | 3 => { p with tbl := { p.tbl with day := p.i32 } }
  | 4 => { p with tbl := { p.tbl with mon := p.i32 } }
  | 5 => { p with tbl := { p.tbl with wday := p.i32 }, state := .command }
  | _ => p

/-- State `0` once a finished field is stored: the masks are cleared and the character opens a new
field. -/
def openField (p : CronParser) (c : Char) : CronParser :=
  let p := { p with i32 := 0, i64 := 0 }
  if isBlank c then p
  else if c = '*' then { p with state := .star }
  else if isDigit c then { p with n := digitValue c, state := .number }
  else { p with state := .error }

/-- One round of the loop in the states before the command; `i` is the position of the character. -/
def readChar (p : CronParser) (i : ℕ) (c : Char) : Option CronParser :=
  match p.state with
  | .start =>
    let p := if p.newfield then storeField p else p
    some (if p.state = .command then p else openField p c)
  | .star =>
    some (if isBlank c then
        { p with i32 := 0xffffffff, i64 := 0x7fffffffffffffff, newfield := true, state := .start }
      else if c = '/' then { p with n := 0, state := .slash }
      else { p with state := .error })
  | .number =>
    let m32 := mask32 p.n
    let m64 := mask64 p.n
    if isBlank c then
      some { p with i64 := p.i64 ||| m64, i32 := p.i32 ||| m32, newfield := true, state := .start }
    else if isDigit c then (appendDigit p.n c).map fun n ↦ { p with n := n }
    else if c = ',' then
      some { p with i64 := p.i64 ||| m64, i32 := p.i32 ||| m32, state := .comma }
    else some p
  | .slash =>
    some (if isDigit c then { p with n := digitValue c, state := .every }
      else { p with state := .error })
  | .comma =>
    some (if isDigit c then { p with n := digitValue c, state := .number }
      else { p with state := .error })
  | .every =>
    if isBlank c then
      if p.n = 0 then none
      else
        -- The 32-bit mask is filled for `i < 32`, the position in the string.
        some { p with
          i32 := (sweep p.i32 (fun j ↦ j % p.n = 0 && i < 32) 63).1
          i64 := (sweep p.i64 (fun j ↦ j % p.n = 0) 63).1
          newfield := true
          state := .start }
    else if isDigit c then (appendDigit p.n c).map fun n ↦ { p with n := n }
    else some { p with state := .error }
  | .command => some p
  | .error => some p

/-- The loop over the string from position `i` on. The entry is complete at the first character of
the command. -/
def parseLoop (p : CronParser) (i : ℕ) : List Char → Option (Option CronjobTableData)
  | [] => some none
  | c :: rest =>
    if p.state = .error then some none
    else
      (readChar p i c).bind fun p ↦
        -- Behind the fifth field `i--` lets the same character be read in state `6`.
        if p.state = .command && !isBlank c then some (some { p.tbl with cmd := c :: rest })
        else parseLoop p (i + 1) rest

/-- The parser before the first character. The entry on the stack is not initialised; all its fields
are stored before it is used. -/
def CronParser.init : CronParser :=
  { state := .start, newfield := false, f := 0, n := 0, i64 := 0, i32 := 0, tbl := ⟨0, 0, 0, 0, 0⟩ }

/-- `parse_cron_string`. -/
def parseCronString (str : List Char) : Option (Option CronjobTableData) :=
  if str.length < intLimit then parseLoop .init 0 str else none

/-! ### The table -/

/-- `new_cronjob`. -/
def newCronjob : Cronjob :=
  { tbl := [], cktbl := ⟨0, 0, 0, 0, 0⟩, findptr := [] }

/-- `cronjob_add`, with its return value; memory is taken to be available. -/
def cronjobAdd (self : Cronjob) (str : List Char) : Option (Cronjob × ℤ) :=
  (parseCronString str).map fun
    | some tbl => ({ self with tbl := tbl :: self.tbl }, 1)
    | none => (self, 0)

/-- The loop of `cronjob_check_next` over the entries that are left. -/
def checkEntries (tbl : FieldMasks) :
    List CronjobTableData → List CronjobTableData × Option (List Char)
  | [] => ([], none)
  | ptr :: findptr =>
    if tbl.wday &&& ptr.wday = 0 then checkEntries tbl findptr
    else if tbl.mon &&& ptr.mon = 0 then checkEntries tbl findptr
    else if tbl.day &&& ptr.day = 0 then checkEntries tbl findptr
    else if tbl.hour &&& ptr.hour = 0 then checkEntries tbl findptr
    else if tbl.min &&& ptr.min = 0 then checkEntries tbl findptr
    else (findptr, some ptr.cmd)

/-- `cronjob_check_next`. -/
def cronjobCheckNext (self : Cronjob) : Cronjob × Option (List Char) :=
  let (findptr, cmd) := checkEntries self.cktbl self.findptr
  ({ self with findptr }, cmd)

/-- The fields of a `struct tm` that are looked at, in their valid ranges. -/
structure Tm where
  min : ℕ
  hour : ℕ
  mday : ℕ
  mon : ℕ
  wday : ℕ
  min_lt : min < 60
  hour_lt : hour < 24
  mday_pos : 1 ≤ mday
  mday_le : mday ≤ 31
  mon_lt : mon < 12
  wday_lt : wday < 7

/-- The masks of a time. -/
def Tm.masks (tm : Tm) : FieldMasks :=
  { min := 1#64 <<< tm.min, hour := 1#32 <<< tm.hour, day := 1#32 <<< tm.mday
    mon := 1#32 <<< (tm.mon + 1), wday := 1#32 <<< tm.wday }

/-- `cronjob_check_first`. -/
def cronjobCheckFirst (self : Cronjob) (tm : Tm) : Cronjob × Option (List Char) :=
  cronjobCheckNext { self with cktbl := tm.masks, findptr := self.tbl }

/-! ### Calls of a user -/

/-- Lines are added one after another. -/
def addLines (self : Cronjob) (lines : List (List Char)) : Option Cronjob :=
  lines.foldlM (fun self str ↦ (cronjobAdd self str).map Prod.fst) self

theorem length_checkEntries {tbl : FieldMasks} {findptr next : List CronjobTableData}
    {cmd : List Char} (hcheck : checkEntries tbl findptr = (next, some cmd)) :
    next.length < findptr.length := by
  induction findptr with
  | nil => simp [checkEntries] at hcheck
  | cons ptr findptr ih =>
    rw [checkEntries] at hcheck
    split_ifs at hcheck
    all_goals first
      | exact Nat.lt_succ_of_lt (ih hcheck)
      | skip
    obtain ⟨rfl, -⟩ := Prod.mk.inj hcheck
    simp

/-- What is left to do behind an answer, for the termination of `answersUntilNull`. -/
def remaining : Cronjob × Option (List Char) → ℕ
  | (_, none) => 0
  | (self, some _) => self.findptr.length + 1

theorem remaining_checkNext (self : Cronjob) :
    remaining (cronjobCheckNext self) < self.findptr.length + 1 := by
  unfold cronjobCheckNext
  rcases hcheck : checkEntries self.cktbl self.findptr with ⟨next, _ | cmd⟩
  · simp [remaining]
  · simpa [remaining] using length_checkEntries hcheck

/-- An answer and, until one is `NULL`, the answers of `cronjob_check_next` behind it. -/
def answersUntilNull : Cronjob × Option (List Char) → List (List Char)
  | (_, none) => []
  | (self, some cmd) => cmd :: answersUntilNull (cronjobCheckNext self)
termination_by answer => remaining answer
decreasing_by exact remaining_checkNext self

/-- The commands a table answers for a time. -/
def commandsAt (self : Cronjob) (tm : Tm) : List (List Char) :=
  answersUntilNull (cronjobCheckFirst self tm)

/-- An entry all of whose masks meet those of a time. -/
def FieldMasks.Meets (tbl ptr : FieldMasks) : Prop :=
  tbl.wday &&& ptr.wday ≠ 0 ∧ tbl.mon &&& ptr.mon ≠ 0 ∧ tbl.day &&& ptr.day ≠ 0 ∧
    tbl.hour &&& ptr.hour ≠ 0 ∧ tbl.min &&& ptr.min ≠ 0

instance (tbl ptr : FieldMasks) : Decidable (tbl.Meets ptr) :=
  inferInstanceAs (Decidable (_ ∧ _ ∧ _ ∧ _ ∧ _))

theorem checkEntries_cons (tbl : FieldMasks) (ptr : CronjobTableData)
    (findptr : List CronjobTableData) :
    checkEntries tbl (ptr :: findptr) =
      if tbl.Meets ptr.toFieldMasks then (findptr, some ptr.cmd) else checkEntries tbl findptr := by
  rw [checkEntries]
  split_ifs <;> simp_all [FieldMasks.Meets]

/-- All answers from a position on: the commands of the entries that meet the time. -/
theorem answersUntilNull_checkNext (self : Cronjob) :
    answersUntilNull (cronjobCheckNext self) =
      (self.findptr.filter fun ptr ↦ self.cktbl.Meets ptr.toFieldMasks).map
        CronjobTableData.cmd := by
  obtain ⟨tbl, cktbl, findptr⟩ := self
  induction findptr with
  | nil => simp [cronjobCheckNext, checkEntries, answersUntilNull]
  | cons ptr findptr ih =>
    by_cases hmeets : cktbl.Meets ptr.toFieldMasks
    · have hnext : cronjobCheckNext ⟨tbl, cktbl, ptr :: findptr⟩ =
          (⟨tbl, cktbl, findptr⟩, some ptr.cmd) := by
        simp [cronjobCheckNext, checkEntries_cons, hmeets]
      rw [hnext, answersUntilNull, ih]
      simp [hmeets]
    · have hnext : cronjobCheckNext ⟨tbl, cktbl, ptr :: findptr⟩ =
          cronjobCheckNext ⟨tbl, cktbl, findptr⟩ := by
        simp [cronjobCheckNext, checkEntries_cons, hmeets]
      rw [hnext, ih]
      simp [hmeets]

theorem commandsAt_eq (self : Cronjob) (tm : Tm) :
    commandsAt self tm =
      (self.tbl.filter fun ptr ↦ tm.masks.Meets ptr.toFieldMasks).map CronjobTableData.cmd :=
  answersUntilNull_checkNext _

end Katmai.Cron
