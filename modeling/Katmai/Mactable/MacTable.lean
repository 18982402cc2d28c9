import Katmai.Foundation.PieceRegex
import Katmai.Mactable.MacAddress
import Katmai.Misclib.Trim
import Mathlib.Algebra.Group.Nat.Defs
import Mathlib.Data.Int.Notation

/-!
# The table of IP and MAC addresses

A table has a fixed number of slots. `mctblAdd` puts a pair of addresses into the first free slot
unless the pair is there, `mctblVerify` asks `arp` for the MAC address of an entry, and
`mctblSaveTable` and `mctblLoadTable` write and read a text file with one line an entry. What `arp`
prints is an argument, `inet_aton` is a parameter, and opening files is taken to succeed.
-/

set_option autoImplicit false
set_option relaxedAutoImplicit false

namespace Katmai.Mactable

open Foundation Misclib

/-! ### The table -/

/-- `struct ipmac_table_t`; the address is in the order of its bytes, the first one highest. -/
structure IpmacTable where
  ip : BitVec 32
  mac : List (BitVec 8)
  inuse : Bool
  verified : Bool
  idx : ℤ
  deriving DecidableEq

/-- `struct mac_table_private_data_t`; `num` is the number of slots. -/
structure MacTable where
  usecnt : ℤ
  haveChanged : Bool
  ipmac : List IpmacTable
  deriving DecidableEq

/-- `mctbl_clear_all` -/
def mctblClearAll (self : MacTable) : MacTable :=
  { self with
    usecnt := 0
    ipmac := self.ipmac.map fun e ↦ { e with verified := false, inuse := false, idx := -1 } }

/-- `new_mac_table`; `have_changed` is not set, and has what was in the memory. -/
def newMacTable (n : ℕ) (haveChanged : Bool) : MacTable :=
  mctblClearAll
    { usecnt := 0
      haveChanged := haveChanged
      ipmac := List.replicate n
        { ip := 0, mac := List.replicate 6 0, inuse := false, verified := false, idx := 0 } }

/-- The loop of `mctbl_add` from slot `i` on, with the first free slot before it: whether the pair
is found, and the first free slot. -/
def addScan (inp : BitVec 32) (mac : List (BitVec 8)) :
    List IpmacTable → ℕ → Option ℕ → Bool × Option ℕ
  | [], _, f => (false, f)
  | e :: ipmac, i, f =>
    if !e.inuse then addScan inp mac ipmac (i + 1) (if f.isNone then some i else f)
    else if e.ip = inp ∧ e.mac = mac then (true, f)
    else addScan inp mac ipmac (i + 1) f

/-- `mctbl_add`, with `none` for a null pointer. -/
def mctblAdd (inetAton : List Char → Option (BitVec 32)) (self : MacTable)
    (ip : Option (List Char)) (mac : Option (List (BitVec 8))) : MacTable × Bool :=
  match ip, mac with
  | some ip, some mac =>
    match inetAton ip with
    | none => (self, false)
    | some inp =>
      match addScan inp mac self.ipmac 0 none with
      | (false, some f) =>
        ({ self with
            usecnt := self.usecnt + 1
            ipmac := self.ipmac.set f
              { ip := inp, mac := mac, inuse := true, verified := false, idx := -1 } }, true)
      | _ => (self, false)
  | _, _ => (self, false)

/-! ### Asking `arp` -/

/-- The address that `macstr_pack (str, NULL)` returns, or `none` for `NULL`. -/
def packedAddress (str : List Char) : Option (List (BitVec 8)) :=
  match macstrPack (str.length + 1) str [] with
  | .ok (true, mac) => some mac
  | _ => none

/-- `[\.0-9]`; in brackets the backslash stands for itself. -/
def isIpChar (c : Char) : Bool :=
  c == '\\' || c == '.' || ('0' ≤ c && c ≤ '9')

/-- `[:a-fA-F0-9]` -/
def isMacChar (c : Char) : Bool :=
  c == ':' || ('a' ≤ c && c ≤ 'f') || ('A' ≤ c && c ≤ 'F') || ('0' ≤ c && c ≤ '9')

/-- One given character. -/
def literal (c : Char) : Piece Char where
  accepts := (· == c)
  many := false

/-- `\(([\.0-9]+)\) +at +([:a-fA-F0-9]+) +`; the second group is piece 7. -/
def arpRegex : PieceRegex Char where
  startAnchor := false
  pieces :=
    [literal '(', { accepts := isIpChar, many := true }, literal ')',
      { accepts := (· == ' '), many := true }, literal 'a', literal 't',
      { accepts := (· == ' '), many := true }, { accepts := isMacChar, many := true },
      { accepts := (· == ' '), many := true }]
  endAnchor := false

/-- The second group of a line of `arp`, if the line matches and the group fits into `macstr`. -/
def usableText (line : List Char) : Option (List Char) :=
  let cmdstr := chomp (cString line)
  match arpRegex.search cmdstr with
  | none => none
  | some (start, lengths) =>
    let macstr := pieceText cmdstr start lengths 7
    if macstr.length ≥ 18 then none else some macstr

inductive VerifyFault
  | nullPointer
  deriving DecidableEq

/-- The loop over the lines of `arp`: the entry and `have_changed` behind it. -/
def verifyLines (e : IpmacTable) (haveChanged : Bool) :
    List (List Char) → Except VerifyFault (IpmacTable × Bool)
  | [] => .ok (e, haveChanged)
  | line :: lines =>
    match usableText line with
    | none => verifyLines e haveChanged lines
    | some macstr =>
      match packedAddress macstr with
      | none => .error .nullPointer
      | some mptr =>
        if mptr ≠ e.mac then .ok ({ e with mac := mptr, verified := true }, true)
        else .ok ({ e with verified := true }, haveChanged)

/-- `mctbl_verify`; `arp` is what the command prints, and `none` if it cannot be run. -/
def mctblVerify (arp : Option (List Char)) (self : MacTable) (n : ℤ) :
    Except VerifyFault MacTable :=
  if n < 0 then .ok self
  else
    match self.ipmac[n.toNat]?, arp with
    | some e, some output =>
      if !e.inuse then .ok self
      else do
        let (e, haveChanged) ← verifyLines e self.haveChanged (fgetsLines 512 output)
        .ok { self with ipmac := self.ipmac.set n.toNat e, haveChanged := haveChanged }
    | _, _ => .ok self

/-- `mctbl_verify_all` from slot `i` on, with `n` slots to come. -/
def mctblVerifyAll (arp : ℕ → Option (List Char)) : ℕ → ℕ → MacTable → Except VerifyFault MacTable
  | 0, _, self => .ok self
  | n + 1, i, self =>
    match self.ipmac[i]? with
    | some e =>
      if !e.inuse || e.verified then mctblVerifyAll arp n (i + 1) self
      else do
        let self ← mctblVerify (arp i) self i
        mctblVerifyAll arp n (i + 1) self
    | none => .ok self

/-! ### The file -/

/-- `inet_ntoa` -/
def inetNtoa (ip : BitVec 32) : List Char :=
  let byte (i : ℕ) : List Char := Nat.toDigits 10 ((ip.toNat / 256 ^ i) % 256)
  byte 3 ++ '.' :: byte 2 ++ '.' :: byte 1 ++ '.' :: byte 0

/-- `"%-18s %s\n"` -/
def saveLine (e : IpmacTable) : List Char :=
  let ip := inetNtoa e.ip
  ip ++ List.replicate (18 - ip.length) ' ' ++ ' ' :: macAddress e.mac ++ ['\n']

/-- `mctbl_save_table`: the table behind it, and what the file holds if it is written. -/
def mctblSaveTable (arp : ℕ → Option (List Char)) (self : MacTable) :
    Except VerifyFault (MacTable × Option (List Char)) := do
  let self ← mctblVerifyAll arp self.ipmac.length 0 self
  let entries := self.ipmac.filter (·.inuse)
  if entries.length = 0 then .ok (self, none) else .ok (self, some (entries.flatMap saveLine))

/-- `^([\.0-9]+)[ \t]+([:a-fA-F0-9]+)` -/
def loadRegex : PieceRegex Char where
  startAnchor := true
  pieces :=
    [{ accepts := isIpChar, many := true }, { accepts := isBlank, many := true },
      { accepts := isMacChar, many := true }]
  endAnchor := false

/-- The body of the loop of `mctbl_load_table`. -/
def loadLine (inetAton : List Char → Option (BitVec 32)) (self : MacTable) (line : List Char) :
    MacTable :=
  let buffer := rtrim (chomp (cString line))
  match buffer with
  | [] => self
  | c :: _ =>
    if c = '#' ∨ c = ';' then self
    else
      match loadRegex.search buffer with
      | none => self
      | some (start, lengths) =>
        let ip := pieceText buffer start lengths 0
        let mac := pieceText buffer start lengths 2
        if ip.length ≥ 16 then self
        else if mac.length ≥ 18 then self
        else (mctblAdd inetAton self (some ip) (packedAddress mac)).1

/-- `mctbl_load_table` -/
def mctblLoadTable (inetAton : List Char → Option (BitVec 32)) (self : MacTable)
    (file : List Char) : MacTable :=
  (fgetsLines 512 file).foldl (loadLine inetAton) { mctblClearAll self with haveChanged := false }

/-! ### The parser of addresses -/

theorem packedAddress_eq (str : List Char) : packedAddress str = readBytes 6 none str := by
  rw [packedAddress, macstrPack_eq (Nat.lt_succ_self _)]
  cases readBytes 6 none str <;> rfl

end Katmai.Mactable
