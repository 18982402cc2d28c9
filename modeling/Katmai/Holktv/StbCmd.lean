import Mathlib.Data.Int.Notation
import Mathlib.Data.Nat.Notation

/-!
# The commands of the set-top box

`hktvcmd_main` takes the datagrams of the master. The functions here say which bytes of the buffer
they read (`Handling.bufferReads`), which entries of `cmdlist` (`Handling.tableReads`), and what
they call. The loop that looks for the command starts at the index `-1`, which is before the table,
so that what stands in memory there is given as an entry `before`. What a function returns decides
about what is printed, and `hktvcmdMain` leaves out what it decides besides, the waiting time and
the end of the loop.
-/

set_option autoImplicit false
set_option relaxedAutoImplicit false

namespace Katmai.Holktv

variable {Func : Type}

/-! ### Commands -/

/-- `struct hktv_stbcmd_list_t` -/
structure StbCommand (Func : Type) where
  cmd : Int8
  function : Func

/-- The variables of the file; `cmdlist_idx` is the length of `cmdlist`. -/
structure StbCommands (Func : Type) where
  preFunction : Option Func
  postFunction : Option Func
  idleFunction : Option Func
  cmdlist : List (StbCommand Func)

/-- The variables before the first command is registered. -/
def StbCommands.empty : StbCommands Func where
  preFunction := none
  postFunction := none
  idleFunction := none
  cmdlist := []

/-- `MAXIMUM_HKTV_STB_CMD` -/
def maximumHktvStbCmd : ℕ :=
  50

/-- A character constant. -/
def charCode (c : Char) : Int8 :=
  Int8.ofInt c.toNat

/-- `hktvcmd_regist` -/
def hktvcmdRegist (s : StbCommands Func) (cmd : Int8) (func : Func) : StbCommands Func × ℤ :=
  if cmd = charCode '\r' then ({ s with preFunction := some func }, 1)
  else if cmd = charCode '\n' then ({ s with postFunction := some func }, 1)
  else if cmd = charCode '\x08' then ({ s with idleFunction := some func }, 1)
  else if s.cmdlist.any fun entry ↦ entry.cmd = cmd then (s, 0)
  else if s.cmdlist.length < maximumHktvStbCmd then
    ({ s with cmdlist := s.cmdlist ++ [{ cmd := cmd, function := func }] }, 1)
  else (s, 0)

/-- The variables after some calls of `hktvcmd_regist`. -/
def registered (calls : List (Int8 × Func)) : StbCommands Func :=
  calls.foldl (fun s call ↦ (hktvcmdRegist s call.1 call.2).1) StbCommands.empty

/-! ### Datagrams -/

/-- `sizeof buffer` -/
def cmdBufferSize : ℕ :=
  2000

/-- `buffer` -/
structure CmdBuffer where
  bytes : List Int8
  size : bytes.length = cmdBufferSize

/-- What is received, of which the length is positive. -/
structure CmdDatagram where
  bytes : List Int8
  length_pos : 0 < bytes.length
  length_le : bytes.length ≤ cmdBufferSize

/-- The buffer behind `recvms`. -/
def CmdBuffer.receive (buf : CmdBuffer) (data : CmdDatagram) : CmdBuffer where
  bytes := data.bytes ++ buf.bytes.drop data.bytes.length
  size := by
    have hle := data.length_le
    rw [List.length_append, List.length_drop, buf.size]
    omega

/-- A byte of the memory in a list, which all addresses that are used are in. -/
def byteAt (bytes : List Int8) (k : ℕ) : Int8 :=
  bytes[k]?.getD 0

/-- The digit for a number below `16` in `"%02x"`. -/
def hexDigit (n : ℕ) : Int8 :=
  if n < 10 then Int8.ofInt (48 + n) else Int8.ofInt (87 + n)

/-- `pdu->len - '0'` -/
def pduLen (bytes : List Int8) : ℤ :=
  (byteAt bytes 5).toInt - (charCode '0').toInt

/-- `sum & 0xff` in `MasterCMD_check` -/
def masterSum (bytes : List Int8) : ℕ :=
  let sum := (byteAt bytes 3).toInt + (byteAt bytes 4).toInt + (byteAt bytes 5).toInt
  let sum := (List.range (pduLen bytes).toNat).foldl
    (fun sum i ↦ sum + (byteAt bytes (6 + i)).toInt) sum
  (sum % 256).toNat

/-- `MasterCMD_check`, with the bytes of the buffer that it reads. -/
def masterCmdCheck (bytes : List Int8) : Bool × List ℕ :=
  if byteAt bytes 0 ≠ charCode '^' then (false, [5, 0])
  else
    let sum := masterSum bytes
    let reads := [5, 0, 3, 4, 5] ++ (List.range (pduLen bytes).toNat).map (6 + ·)
    if hexDigit (sum / 16) = byteAt bytes 1 then
      (hexDigit (sum % 16) == byteAt bytes 2, reads ++ [1, 2])
    else (false, reads ++ [1])

/-- The bytes that `"%s"` reads: up to the first zero, or all and more. -/
def printedBytes (bytes : List Int8) : List ℕ :=
  List.range (bytes.findIdx (· == 0) + 1)

/-- A function that is called. -/
inductive StbCall (Func : Type)
  | pre (func : Func)
  | handler (func : Func)
  | post (func : Func)
  deriving DecidableEq

/-- What is read and called for a datagram, and the buffer behind. -/
structure Handling (Func : Type) where
  bufferReads : List ℕ
  tableReads : List ℤ
  calls : List (StbCall Func)
  buffer : List Int8

/-- The loop over `cmdlist` from the index `i` on, with the entries from there on. -/
def findCommand (cmd : Int8) : ℤ → List (StbCommand Func) → List ℤ × Option Func
  | _, [] => ([], none)
  | i, entry :: rest =>
    if entry.cmd = cmd then ([i], some entry.function)
    else (i :: (findCommand cmd (i + 1) rest).1, (findCommand cmd (i + 1) rest).2)

/-- The part of `hktvcmd_main` for a datagram that is accepted. `returns` is what a function
returns. -/
def runCommand (returns : Func → ℤ) (before : StbCommand Func) (s : StbCommands Func)
    (bytes : List Int8) : Handling Func :=
  let len := pduLen bytes
  let bytes := if len > 0 then bytes.set (6 + len.toNat) 0 else bytes
  let found := findCommand (byteAt bytes 3) (-1) (before :: s.cmdlist)
  let rc := found.2.elim (-1) returns
  let post := if byteAt bytes 4 = charCode 'Y' then s.postFunction.toList.map .post else []
  { bufferReads :=
      [5, 3] ++ found.1.map (fun _ ↦ 3) ++ (if rc = -1 then [3] else []) ++ [4]
    tableReads := found.1
    calls := s.preFunction.toList.map .pre ++ found.2.toList.map .handler ++ post
    buffer := bytes }

/-- The body of the loop of `hktvcmd_main`, for the bytes of the buffer. -/
def hktvcmdMain (returns : Func → ℤ) (before : StbCommand Func) (s : StbCommands Func)
    (bytes : List Int8) : Handling Func :=
  if byteAt bytes 0 ≠ charCode '^' then
    { bufferReads := 0 :: printedBytes bytes, tableReads := [], calls := [], buffer := bytes }
  else
    let check := masterCmdCheck bytes
    if !check.1 then
      { bufferReads := 0 :: check.2 ++ printedBytes bytes, tableReads := [], calls := []
        buffer := bytes }
    else
      let accepted := runCommand returns before s bytes
      { accepted with bufferReads := 0 :: check.2 ++ accepted.bufferReads }

end Katmai.Holktv
