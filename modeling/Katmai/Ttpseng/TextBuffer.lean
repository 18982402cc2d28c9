import Katmai.Foundation.LinkedCells
import Mathlib.Logic.Function.Basic

/-!
# The text buffer of the page engine

`ttePush` and `ttePushFloat` append an entry to a list of chunks, and `replay` is the traversal of
`tte_showpage`: all entries of every chunk but the last, and of the last those that are used. The
expression of `tte_push_float` that stores the type reads `txtbuf_current` and calls the allocator,
in an order that the language leaves open (`Evaluation`). When the allocator switches to a new
chunk, the two orders store the type into different chunks.
-/

set_option autoImplicit false
set_option relaxedAutoImplicit false

namespace Katmai.Ttpseng

open Foundation

/-- `PER_BUFFER_LEN` -/
def perBufferLen : ℕ :=
  4096

/-- The types of an entry, `TBCTYPE_ASCII` to `TBCTYPE_SETEFONT`. -/
inductive TbcType
  | ascii
  | big5
  | setRgb
  | command
  | setUseDirectXy
  | setDirectX
  | setDirectY
  | setDirectFs
  | setDirectFsy
  | setDirectCs
  | setDirectLs
  | setDirectVdir
  | setDgSx
  | setDgSy
  | setDgEx
  | setDgEy
  | setDgWidth
  | setSeFont
  | setEfSize
  | setEFont
  deriving DecidableEq

/-- `struct txtbuf_content_t`. The union of an `int` and a `float` is its 32 bits. -/
structure TxtbufContent where
  type : TbcType
  v : BitVec 32
  deriving DecidableEq

/-- `struct textfile_buffer`; the entries of `code` are those below `perBufferLen`. -/
structure TextfileBuffer where
  code : ℕ → TxtbufContent
  next : Option ℕ

/-- The memory of the chunks, with `txtbuf`, `txtbuf_current` and `txtbuf_idx`. -/
structure TextBuffer where
  chunks : Cells TextfileBuffer
  txtbuf : Option ℕ
  txtbufCurrent : Option ℕ
  txtbufIdx : ℕ

/-- The buffer before the first push. -/
def TextBuffer.empty : TextBuffer where
  chunks := []
  txtbuf := none
  txtbufCurrent := none
  txtbufIdx := 0

/-- What `malloc` leaves in the entries of a new chunk. -/
abbrev Malloc := ℕ → ℕ → TxtbufContent

/-- `txtbuf_allocate`. There is no result if a null pointer is followed. -/
def txtbufAllocate (malloc : Malloc) (b : TextBuffer) : Option (ℕ × TextBuffer) := do
  let ptr := b.chunks.length
  let chunks := b.chunks.alloc { code := malloc ptr, next := none }
  let b ←
    if b.txtbufCurrent.isNone then
      some { chunks := chunks, txtbuf := some ptr, txtbufCurrent := some ptr, txtbufIdx := 0 }
    else if b.txtbufIdx ≥ perBufferLen then do
      let chunks ← chunks.update b.txtbufCurrent fun chunk ↦ { chunk with next := some ptr }
      some { b with chunks := chunks, txtbufCurrent := some ptr, txtbufIdx := 0 }
    else some b
  some (b.txtbufIdx, { b with txtbufIdx := b.txtbufIdx + 1 })

/-- Stores the type of an entry. -/
def TextfileBuffer.setType (idx : ℕ) (sel : TbcType) (chunk : TextfileBuffer) : TextfileBuffer :=
  { chunk with code := Function.update chunk.code idx { chunk.code idx with type := sel } }

/-- Stores the value of an entry. -/
def TextfileBuffer.setValue (idx : ℕ) (v : BitVec 32) (chunk : TextfileBuffer) : TextfileBuffer :=
  { chunk with code := Function.update chunk.code idx { chunk.code idx with v := v } }

/-- The value that `tte_push` stores. -/
def pushedValue (key : BitVec 32) (sel : TbcType) : BitVec 32 :=
  if sel = .ascii then key &&& 0xff else key

/-- `tte_push` -/
def ttePush (malloc : Malloc) (b : TextBuffer) (key : BitVec 32) (sel : TbcType) :
    Option TextBuffer := do
  let (idx, b) ← txtbufAllocate malloc b
  let chunks ← b.chunks.update b.txtbufCurrent (TextfileBuffer.setType idx sel)
  let chunks ← chunks.update b.txtbufCurrent (TextfileBuffer.setValue idx (pushedValue key sel))
  some { b with chunks := chunks }

/-- The order in which `txtbuf_current->code[(idx = txtbuf_allocate ())]` is evaluated. -/
inductive Evaluation
  | pointerFirst
  | callFirst
  deriving DecidableEq

/-- `tte_push_float`, where `key` is the bits of the `float` -/
def ttePushFloat (malloc : Malloc) (order : Evaluation) (b : TextBuffer) (key : BitVec 32)
    (sel : TbcType) : Option TextBuffer := do
  let before := b.txtbufCurrent
  let (idx, b) ← txtbufAllocate malloc b
  let pointer := if order = .pointerFirst then before else b.txtbufCurrent
  let chunks ← b.chunks.update pointer (TextfileBuffer.setType idx sel)
  let chunks ← chunks.update b.txtbufCurrent (TextfileBuffer.setValue idx key)
  some { b with chunks := chunks }

/-- A call of `tte_push` or of `tte_push_float`. -/
inductive PushCall
  | push (key : BitVec 32) (sel : TbcType)
  | pushf (key : BitVec 32) (sel : TbcType)
  deriving DecidableEq

/-- The entry that a call is to append. -/
def PushCall.entry : PushCall → TxtbufContent
  | .push key sel => { type := sel, v := pushedValue key sel }
  | .pushf key sel => { type := sel, v := key }

def PushCall.run (malloc : Malloc) (order : Evaluation) (b : TextBuffer) :
    PushCall → Option TextBuffer
  | .push key sel => ttePush malloc b key sel
  | .pushf key sel => ttePushFloat malloc order b key sel

/-- A sequence of calls; `order n` is the order of evaluation in the call with number `n`. -/
def pushAll (malloc : Malloc) (order : ℕ → Evaluation) :
    ℕ → List PushCall → TextBuffer → Option TextBuffer
  | _, [], b => some b
  | n, call :: calls, b => (call.run malloc (order n) b).bind (pushAll malloc order (n + 1) calls)

/-- The entries that the two loops of `tte_showpage` visit from the chunk `ptr` on. -/
def replayFrom (b : TextBuffer) : ℕ → Option ℕ → Option (List TxtbufContent)
  | 0, _ => none
  | _ + 1, none => some []
  | fuel + 1, some ptr => do
    let chunk ← b.chunks.load (some ptr)
    let upto := if some ptr ≠ b.txtbufCurrent then perBufferLen else b.txtbufIdx
    let rest ← replayFrom b fuel chunk.next
    some ((List.range upto).map chunk.code ++ rest)

/-- The traversal of `tte_showpage`. A traversal of more chunks than there are would not end. -/
def replay (b : TextBuffer) : Option (List TxtbufContent) :=
  replayFrom b (b.chunks.length + 1) b.txtbuf

end Katmai.Ttpseng
