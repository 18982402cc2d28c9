import Katmai.Foundation.CallRun
import Katmai.Foundation.LinkedCells
import Mathlib.Algebra.Group.Nat.Defs
import Mathlib.Data.Int.Notation
import Mathlib.Logic.Function.Basic

/-!
# The font dictionary of the page engine

A character is looked up in a linked list when it is read: `tteAdd2dict` walks along the list,
counts the nodes it passes and either counts one more use of the node of the character or links a
new one behind the last. `tteShowpageDict`, the part of `tte_showpage` before the first page, counts
the nodes again, allocates a list of as many pointers and goes through the nodes once more: those
used more than once become procedures.

Counters are ints, modulo `2 ^ 32`. A store behind the end of the list of pointers goes wrong
(`none`), as does a walk that is still running when its fuel is used up.
-/

set_option autoImplicit false
set_option relaxedAutoImplicit false

namespace Katmai.Ttpseng

open Foundation

/-- `++` on an int. -/
def incr (n : ℤ) : ℤ :=
  Int.bmod (n + 1) (2 ^ 32)

/-- `struct fontface_dict` -/
structure FontfaceDict where
  fontid : ℤ
  code : ℤ
  unicode : ℤ
  refcnt : ℤ
  next : Option ℕ

/-- What characters are told apart by. -/
structure GlyphKey where
  fontid : ℤ
  code : ℤ
  deriving DecidableEq

def FontfaceDict.key (node : FontfaceDict) : GlyphKey :=
  ⟨node.fontid, node.code⟩

/-- The arguments of `tte_add2dict`. -/
structure AddCall where
  fid : ℤ
  code : ℤ
  unicode : ℤ

def AddCall.key (call : AddCall) : GlyphKey :=
  ⟨call.fid, call.code⟩

/-- The static `dict`, with its address `0`. -/
def newDict : Cells FontfaceDict :=
  [some ⟨0, 0, 0, 0, none⟩]

/-! ### A character is added -/

/-- Where the loop of `tte_add2dict` stops: at the node of the character, or behind the last. -/
inductive DictPlace
  | found (ptr : ℕ)
  | behind (prev : ℕ)

/-- The loop of `tte_add2dict`, which has passed `prev` and counted `retval`. -/
def searchDict (call : AddCall) (cells : Cells FontfaceDict) :
    ℕ → ℕ → ℤ → Option (DictPlace × ℤ)
  | 0, _, _ => none
  | fuel + 1, prev, retval =>
    (cells.load (some prev)).bind fun last ↦
      match last.next with
      | none => some (.behind prev, retval)
      | some ptr =>
        (cells.load (some ptr)).bind fun node ↦
          if node.fontid = call.fid ∧ node.code = call.code then some (.found ptr, retval)
          else searchDict call cells fuel ptr (incr retval)

/-- `tte_add2dict` -/
def tteAdd2dict (cells : Cells FontfaceDict) (call : AddCall) :
    Option (ℤ × Cells FontfaceDict) :=
  (searchDict call cells (cells.length + 1) 0 0).bind fun place ↦
    match place.1 with
    | .found ptr =>
      (cells.update (some ptr) fun node ↦ { node with refcnt := incr node.refcnt }).map
        fun cells' ↦ (place.2, cells')
    | .behind prev =>
      ((cells.alloc ⟨call.fid, call.code, call.unicode, 1, none⟩).update (some prev)
        fun last ↦ { last with next := some cells.length }).map fun cells' ↦ (place.2, cells')

/-! ### The procedures are written -/

/-- A procedure `/gXXX`, with the number in its name and the arguments of `ttf2ps`. -/
structure Procedure where
  index : ℤ
  fontid : ℤ
  code : ℤ
  unicode : ℤ

/-- The procedure of a node with a number. -/
def FontfaceDict.procedure (node : FontfaceDict) (index : ℤ) : Procedure :=
  ⟨index, node.fontid, node.code, node.unicode⟩

/-- The variables of the second loop and the procedures it has written. -/
structure DictPage where
  i : ℤ
  fontsInDict : ℤ
  fontdcList : ℤ → Option ℕ
  procedures : List Procedure

/-- The loop that counts the nodes, with `fonts_use`. -/
def countFonts (cells : Cells FontfaceDict) : ℕ → Option ℕ → ℤ → Option ℤ
  | 0, _, _ => none
  | _ + 1, none, fontsUse => some fontsUse
  | fuel + 1, some fontdc, fontsUse =>
    (cells.load (some fontdc)).bind fun node ↦ countFonts cells fuel node.next (incr fontsUse)

/-- The body of the second loop at a node, without the store in `fontdc_list[i]`. -/
def DictPage.writeFont (page : DictPage) (fontdc : ℕ) (node : FontfaceDict) : DictPage :=
  if node.refcnt > 1 then
    { i := incr page.i
      fontsInDict := incr page.fontsInDict
      fontdcList := Function.update page.fontdcList page.i none
      procedures := page.procedures ++ [node.procedure page.i] }
  else
    { page with
      i := incr page.i
      fontdcList := Function.update page.fontdcList page.i (some fontdc) }

/-- The loop that writes the procedures, where `fontdc_list` has room for `size` pointers. -/
def writeFonts (cells : Cells FontfaceDict) (size : ℤ) :
    ℕ → Option ℕ → DictPage → Option DictPage
  | 0, _, _ => none
  | _ + 1, none, page => some page
  | fuel + 1, some fontdc, page =>
    (cells.load (some fontdc)).bind fun node ↦
      if 0 ≤ page.i ∧ page.i < size then
        writeFonts cells size fuel node.next (page.writeFont fontdc node)
      else none

/-- `tte_showpage` from `fonts_use = 0` to the end of the dictionary. The memory that is allocated
for `fontdc_list` held `memory`. -/
def tteShowpageDict (memory : ℤ → Option ℕ) (cells : Cells FontfaceDict) : Option DictPage :=
  (cells.load (some 0)).bind fun dict ↦
    (countFonts cells (cells.length + 1) dict.next 0).bind fun fontsUse ↦
      writeFonts cells fontsUse (cells.length + 1) dict.next ⟨0, 0, memory, []⟩

end Katmai.Ttpseng
