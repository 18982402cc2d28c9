import Katmai.FileServer.Datagram
import Katmai.Foundation.ByteReads

/-!
# The generic PDU

`genpdu.c` frames a command in a header of 16 bytes: the checksum (`unsigned`, offset 0), the
command (4), the total length (8) and a flag word (12). The sender fills in the header with
`genpdu_pack`; the receiver hands the datagram to `genpdu_do_cmd`, which recomputes the checksum
and calls the handler that the table has for the command.

The receiving functions are `ByteReader`s, so that the model says which bytes of the receive buffer
they look at: the number of bytes summed is taken from the length field of the packet, which is
compared with the number of bytes received only if a whole header was received.
-/

set_option autoImplicit false
set_option relaxedAutoImplicit false

namespace Katmai.Genpdu

open Katmai.FileServer Katmai.Foundation

/-! ### The packet -/

/-- `sizeof (struct generic_pdu_t)`. -/
def sizeofGenericPdu : ℕ := 16

/-- An `unsigned int` field. -/
def readUInt (offset : ℕ) : ByteReader ℕ := do
  let b₀ ← ByteReader.read offset
  let b₁ ← ByteReader.read (offset + 1)
  let b₂ ← ByteReader.read (offset + 2)
  let b₃ ← ByteReader.read (offset + 3)
  return b₀.toNat + 2 ^ 8 * b₁.toNat + 2 ^ 16 * b₂.toNat + 2 ^ 24 * b₃.toNat

/-- An `int` field. -/
def readInt (offset : ℕ) : ByteReader ℤ := do
  let word ← readUInt offset
  return Int.bmod word (2 ^ 32)

/-- `p->cksum`. -/
def pduCksum : ByteReader ℕ := readUInt 0

/-- `p->cmd`. -/
def pduCmd : ByteReader ℤ := readInt 4

/-- `p->len`. -/
def pduLen : ByteReader ℤ := readInt 8

/-- The loop of `genpdu_cksum`: `count` bytes from `i` on are added to `sum`, in 28 bits. -/
def sumBytes : (count i sum : ℕ) → ByteReader ℕ
  | 0, _, sum => return sum
  | count + 1, i, sum => do
    let b ← ByteReader.read i
    sumBytes count (i + 1) ((sum + b.toNat) % 2 ^ 28)

/-- `genpdu_cksum`. The comparison `rlen >= sizeof (struct generic_pdu_t)` is unsigned. -/
def genpduCksum (rlen : ℤ) : ByteReader ℕ := do
  let len ← pduLen
  if (sizeofGenericPdu : ℤ) ≤ rlen % 2 ^ 64 ∧ rlen ≠ len then
    let cksum ← pduCksum
    return (cksum + 1) % 2 ^ 32
  else
    sumBytes (len - 4).toNat 4 0

/-- `genpdu_mkcksum`. -/
def genpduMkcksum (pdu : ℕ → UInt8) : ℕ → UInt8 :=
  let cksum : ℕ := ByteReader.eval pdu (genpduCksum 0)
  putInt pdu 0 cksum

/-- The flag word is set if there is a flag callback: `flag` is what the callback returns, `none`
if there is none. -/
def setFlag (flag : Option ℕ) (pdu : ℕ → UInt8) : ℕ → UInt8 :=
  match flag with
  | some value => putInt pdu 12 value
  | none => pdu

/-- `genpdu_pack`. -/
def genpduPack (flag : Option ℕ) (pdu : ℕ → UInt8) (cmd len : ℤ) : ℕ → UInt8 :=
  genpduMkcksum (putInt (putInt (setFlag flag pdu) 4 cmd) 8 len)

/-! ### The handler table -/

/-- `struct gp_cmd_handler_t`. `Func` is the type of the handler functions; `none` is `NULL`. -/
structure GpCmdHandler (Func : Type) where
  cmd : ℤ
  func : Option Func
  deriving DecidableEq, Repr

/-- `struct genpdu_private_data_t`: an array of `num` handlers, the first `realNum` in use. -/
structure GenpduPrivateData (Func : Type) where
  num : ℕ
  realNum : ℕ
  handler : ℕ → GpCmdHandler Func

variable {Func : Type}

/-- `new_genpdu`. -/
def newGenpdu (num : ℕ) : GenpduPrivateData Func where
  num := num
  realNum := 0
  handler := fun _ ↦ ⟨0, none⟩

/-- `genpdu_add`: the index of the new handler, or -1. -/
def genpduAdd (self : GenpduPrivateData Func) (cmd : ℤ) (func : Option Func) :
    ℤ × GenpduPrivateData Func :=
  if (List.range self.realNum).any fun i ↦ (self.handler i).cmd = cmd then
    (-1, self)
  else if self.num ≤ self.realNum then
    (-1, self)
  else
    (self.realNum, { self with
      realNum := self.realNum + 1
      handler := Function.update self.handler self.realNum ⟨cmd, func⟩ })

/-- `genpdu_addlist`, which stops at a `NULL` function or a failed `genpdu_add`: the number of
handlers added. -/
def genpduAddlist (self : GenpduPrivateData Func) :
    List (GpCmdHandler Func) → ℕ × GenpduPrivateData Func
  | [] => (0, self)
  | entry :: rest =>
    if entry.func = none then (0, self)
    else
      let added := genpduAdd self entry.cmd entry.func
      if added.1 < 0 then (0, added.2)
      else
        let more := genpduAddlist added.2 rest
        (more.1 + 1, more.2)

/-- `genpdu_clear`. -/
def genpduClear (self : GenpduPrivateData Func) : GenpduPrivateData Func :=
  { self with realNum := 0 }

/-! ### Dispatch -/

/-- What `genpdu_do_cmd` does: it returns -1, or it stores the command for the caller and calls a
handler. -/
inductive CmdResult (Func : Type) where
  | refused
  | called (cmd : ℤ) (func : Option Func)
  deriving DecidableEq, Repr

/-- The search loop of `genpdu_do_cmd`, with `count` handlers to go from `i` on. -/
def findHandler (self : GenpduPrivateData Func) : (count i : ℕ) → ByteReader (CmdResult Func)
  | 0, _ => return .refused
  | count + 1, i => do
    let cmd ← pduCmd
    if (self.handler i).cmd = cmd then
      return .called cmd (self.handler i).func
    else
      findHandler self count (i + 1)

/-- `genpdu_do_cmd` on a datagram of `len` bytes. -/
def genpduDoCmd (self : GenpduPrivateData Func) (len : ℤ) : ByteReader (CmdResult Func) := do
  let cksum ← genpduCksum len
  let stored ← pduCksum
  if cksum ≠ stored then
    return .refused
  else
    findHandler self self.realNum 0

end Katmai.Genpdu
