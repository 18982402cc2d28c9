import Katmai.Ttpseng.TextBuffer
import Mathlib.Data.Int.Notation

/-!
# The main loop of the page engine

`tteShowpage` goes through the entries of the text buffer, in the order in which `replay` visits
them. Characters wait in the line buffer `char_str` and are written out in front of what ends the
line or changes the pen. With `layout.wrap` an entry that does not fit is to be handled as a newline
first: the loop replaces the character by a newline and steps its index back.

A store behind the end of `char_str` is a `Fault`, as is a loop that is still running when its fuel
is used up. The coordinates and sizes of direct output are left out, and integers have no bound.
-/

set_option autoImplicit false
set_option relaxedAutoImplicit false

namespace Katmai.Ttpseng

/-- `MAXLINE` -/
def maxline : ℕ :=
  2049

/-- The settings that the loop reads. -/
structure Layout where
  wrap : Bool
  charPerLine : ℤ
  linePerPage : ℤ

/-- A byte in `char_str`, with the number of the entry it was stored for. -/
structure LineByte where
  token : ℕ
  byte : BitVec 8
  deriving DecidableEq

/-- Output for one entry. -/
inductive Drawing
  /-- A character of the font dictionary -/
  | glyph (c : BitVec 32)
  /-- A string at the direct coordinates -/
  | asciiText (str : List (BitVec 8))
  | rgbColor (c : BitVec 32)
  | line
  | box
  | selectFont (c : BitVec 32)
  | findFont (c : BitVec 32)
  deriving DecidableEq

/-- What the loop writes, with the numbers of the entries. `lineEnd` and `formFeed` write nothing:
they record which entry ends a line or a page, and whether the line end was inserted. -/
inductive Output
  | startPage (page : ℕ)
  | nextPage (page : ℕ)
  | asciiString (x y : ℕ) (str : List LineByte)
  | dictChar (token x y : ℕ) (c : BitVec 32)
  | drawing (token : ℕ) (d : Drawing)
  | lineEnd (token : ℕ) (inserted : Bool)
  | formFeed (token : ℕ)

/-- The variables of `tte_showpage`; `char_cnt` is the length of `charStr`. -/
structure PageState where
  xx : ℕ
  yy : ℕ
  rx : ℕ
  charStr : List LineByte
  slashCnt : ℕ
  lineCount : ℕ
  pageCount : ℕ
  needStartNewPage : Bool
  useDirectXy : BitVec 32
  out : List Output

inductive Fault
  | overflow
  | outOfFuel
  deriving DecidableEq

/-- The state in front of the loop. -/
def PageState.init : PageState where
  xx := 0
  yy := 0
  rx := 0
  charStr := []
  slashCnt := 0
  lineCount := 0
  pageCount := 0
  needStartNewPage := true
  useDirectXy := 0
  out := []

def PageState.write (st : PageState) (o : Output) : PageState :=
  { st with out := st.out ++ [o] }

/-- `char_str[char_cnt++] = byte` -/
def PageState.store (st : PageState) (i : ℕ) (byte : BitVec 8) : Except Fault PageState :=
  if st.charStr.length < maxline * 2 then
    .ok { st with charStr := st.charStr ++ [{ token := i, byte := byte }] }
  else .error .overflow

/-- The waiting text is written if there is any, and `char_cnt = slash_cnt = 0`. -/
def PageState.flushed (st : PageState) : PageState :=
  { st with
    out :=
      if st.charStr.isEmpty then st.out else st.out ++ [.asciiString st.xx st.yy st.charStr]
    charStr := []
    slashCnt := 0 }

/-- `write_ascii_string (xx, yy, char_str, char_cnt)`, which stores a zero behind the string, with
the assignments that follow all its calls in the loop. -/
def PageState.flush (st : PageState) : Except Fault PageState :=
  if st.charStr.length < maxline * 2 then .ok st.flushed else .error .overflow

/-- `write_next_page (++page_count)` with what follows it in the loop -/
def PageState.turnPage (st : PageState) : PageState :=
  { st.write (.nextPage (st.pageCount + 1)) with
    pageCount := st.pageCount + 1
    yy := 0
    needStartNewPage := true }

/-- The case `'\n'` -/
def newline (layout : Layout) (i : ℕ) (inserted : Bool) (st : PageState) :
    Except Fault PageState := do
  let st ← st.flush
  let st := { st.write (.lineEnd i inserted) with lineCount := st.lineCount + 1, yy := st.yy + 1 }
  let st := if (st.yy : ℤ) ≥ layout.linePerPage then st.turnPage else st
  .ok { st with xx := 0, rx := 0 }

/-- The case `'\f'` -/
def formFeed (i : ℕ) (st : PageState) : PageState :=
  { (st.write (.formFeed i)).turnPage with charStr := [], slashCnt := 0, xx := 0, rx := 0 }

/-- The loop of the case `'\t'`. At most seven rounds lead to the next tab stop. -/
def padTab (i : ℕ) : ℕ → PageState → Except Fault PageState
  | 0, _ => .error .outOfFuel
  | fuel + 1, st =>
    if st.rx % 8 ≠ 0 then do
      let st ← st.store i 0x20
      padTab i fuel { st with rx := st.rx + 1 }
    else .ok st

/-- A character that is escaped in a string. -/
def isEscaped (c : BitVec 32) : Bool :=
  c == 0x28 || c == 0x29 || c == 0x5c

/-- The string that a character stands for in a string of the output. -/
def escaped (c : BitVec 32) : List (BitVec 8) :=
  if isEscaped c then [0x5c, c.setWidth 8] else [c.setWidth 8]

/-- A character that is no command. -/
def showAscii (layout : Layout) (i : ℕ) (c : BitVec 32) (inserted : Bool) (st : PageState) :
    Except Fault PageState :=
  if st.useDirectXy ≠ 0 then .ok (st.write (.drawing i (.asciiText (escaped c))))
  else if c = 0x0a then newline layout i inserted st
  else if c = 0x0d then .ok st
  else if c = 0x0c then .ok (formFeed i st)
  else if c = 0x09 then do
    let st ← { st with rx := st.rx + 1 }.store i 0x20
    padTab i 8 st
  else if isEscaped c then do
    let st ← { st with rx := st.rx + 1, slashCnt := st.slashCnt + 1 }.store i 0x5c
    st.store i (c.setWidth 8)
  else { st with rx := st.rx + 1 }.store i (c.setWidth 8)

/-- What the cases of BIG5 characters and colours do first. -/
def flushText (st : PageState) : Except Fault PageState := do
  let column := st.xx + st.charStr.length - st.slashCnt
  let st ← st.flush
  .ok { st with xx := column }

/-- The case `TBCTYPE_BIG5` -/
def showBig5 (i : ℕ) (c : BitVec 32) (st : PageState) : Except Fault PageState := do
  let st ← flushText st
  if st.useDirectXy ≠ 0 then .ok (st.write (.drawing i (.glyph c)))
  else
    .ok { st.write (.dictChar i st.xx st.yy c) with xx := st.xx + 2, rx := st.rx + 2 }

/-- The case `TBCTYPE_COMMAND` -/
def showCommand (i : ℕ) (c : BitVec 32) (st : PageState) : PageState :=
  if c = 2 then st.write (.drawing i .line)
  else if c = 3 then st.write (.drawing i .box)
  else st

/-- The test for a line break in front of an entry. -/
def wraps (layout : Layout) (t : TxtbufContent) (st : PageState) : Bool :=
  st.useDirectXy == 0 && layout.wrap && t.v != 0x0d && t.v != 0x0a &&
    (t.type == .ascii &&
        decide ((st.xx + st.charStr.length : ℤ) - st.slashCnt > layout.charPerLine - 1) ||
      t.type == .big5 &&
        decide ((st.xx + st.charStr.length : ℤ) - st.slashCnt ≥ layout.charPerLine - 1))

/-- The start of a page, if one is due. -/
def openPage (st : PageState) : PageState :=
  if st.needStartNewPage then
    { st.write (.startPage st.pageCount) with needStartNewPage := false }
  else st

/-- The switch over the type of an entry. -/
def showCase (layout : Layout) (i : ℕ) (tp : TbcType) (c : BitVec 32) (inserted : Bool)
    (st : PageState) : Except Fault PageState :=
  match tp with
  | .command => .ok (showCommand i c st)
  | .setUseDirectXy => .ok { st with useDirectXy := c }
  | .setSeFont => .ok (st.write (.drawing i (.selectFont c)))
  | .setEFont => .ok (st.write (.drawing i (.findFont c)))
  | .setRgb => do
    let st ← flushText st
    .ok (st.write (.drawing i (.rgbColor c)))
  | .big5 => showBig5 i c st
  | .ascii => showAscii layout i c inserted st
  | _ => .ok st

/-- The body of the loop for the entry with number `i`, and whether the index is stepped back. -/
def showToken (layout : Layout) (i : ℕ) (t : TxtbufContent) (st : PageState) :
    Except Fault (PageState × Bool) := do
  let st := openPage st
  let back := wraps layout t st
  let c := if back then 0x0a else t.v
  let st ← showCase layout i t.type c back st
  .ok (st, back)

/-- The loop over the entries from number `i` on. -/
def showTokens (layout : Layout) : ℕ → ℕ → List TxtbufContent → PageState → Except Fault PageState
  | _, _, [], st => .ok st
  | 0, _, _ :: _, _ => .error .outOfFuel
  | fuel + 1, i, t :: rest, st => do
    let (st, back) ← showToken layout i t st
    if back then showTokens layout fuel i (t :: rest) st
    else showTokens layout fuel (i + 1) rest st

/-- What follows the loop: the rest of the text is written, and the last page if it is not empty. -/
def finish (st : PageState) : Except Fault PageState := do
  let written ← st.flush
  .ok (if st.charStr.length > 0 ∨ st.yy > 0 then written.turnPage else written)

/-- `tte_showpage` from the main loop on -/
def tteShowpage (layout : Layout) (fuel : ℕ) (tokens : List TxtbufContent) :
    Except Fault PageState := do
  let st ← showTokens layout fuel 0 tokens PageState.init
  finish st

end Katmai.Ttpseng
