import Katmai.Foundation.BlockHash
import Mathlib.Algebra.Group.Nat.Defs

/-!
# MD5

`misclib/md5.c`. A context holds four registers, the number of bytes hashed so far in two words, and
a buffer of 128 bytes of which the first `buflen` are waiting for more. `md5_process_block` hashes
whole blocks of 64 bytes, with its sixty-four `OP`s written out; `md5_process_bytes` takes any
number of bytes; `md5_finish_ctx` appends the padding and the length.

A `memcpy` into the buffer that would leave it, and a block that would be read past the end of the
data, have no result.
-/

set_option autoImplicit false
set_option relaxedAutoImplicit false

namespace Katmai.Misclib

/-- `md5_uint32`. -/
abbrev Md5Uint32 := BitVec 32

/-- The names of the registers. -/
inductive Md5Reg
  | a | b | c | d
  deriving DecidableEq

/-- The registers. -/
structure Md5Regs where
  a : Md5Uint32
  b : Md5Uint32
  c : Md5Uint32
  d : Md5Uint32
  deriving DecidableEq

namespace Md5Regs

def get (r : Md5Regs) : Md5Reg → Md5Uint32
  | .a => r.a
  | .b => r.b
  | .c => r.c
  | .d => r.d

def set (r : Md5Regs) (name : Md5Reg) (w : Md5Uint32) : Md5Regs :=
  match name with
  | .a => { r with a := w }
  | .b => { r with b := w }
  | .c => { r with c := w }
  | .d => { r with d := w }

/-- `A += A_save` and so on. -/
def add (r save : Md5Regs) : Md5Regs :=
  ⟨r.a + save.a, r.b + save.b, r.c + save.c, r.d + save.d⟩

end Md5Regs

/-! ### One block -/

/-- `FF`. -/
def ff (b c d : Md5Uint32) : Md5Uint32 :=
  d ^^^ (b &&& (c ^^^ d))

/-- `FG`. -/
def fg (b c d : Md5Uint32) : Md5Uint32 :=
  ff d b c

/-- `FH`. -/
def fh (b c d : Md5Uint32) : Md5Uint32 :=
  b ^^^ c ^^^ d

/-- `FI`. -/
def fi (b c d : Md5Uint32) : Md5Uint32 :=
  c ^^^ (b ||| ~~~d)

/-- Which of the four macros an `OP` uses. -/
inductive Md5Fn
  | ff | fg | fh | fi
  deriving DecidableEq

def Md5Fn.apply : Md5Fn → Md5Uint32 → Md5Uint32 → Md5Uint32 → Md5Uint32
  | .ff => Misclib.ff
  | .fg => Misclib.fg
  | .fh => Misclib.fh
  | .fi => Misclib.fi

/-- `CYCLIC`. -/
def cyclic (w : Md5Uint32) (s : ℕ) : Md5Uint32 :=
  (w <<< s) ||| (w >>> (32 - s))

/-- The arguments of an `OP`. -/
structure Md5Op where
  f : Md5Fn
  a : Md5Reg
  b : Md5Reg
  c : Md5Reg
  d : Md5Reg
  k : ℕ
  s : ℕ
  t : Md5Uint32
  deriving DecidableEq

/-- `OP`. -/
def Md5Op.run (words : ℕ → Md5Uint32) (r : Md5Regs) (op : Md5Op) : Md5Regs :=
  let w := r.get op.a + (op.f.apply (r.get op.b) (r.get op.c) (r.get op.d) + words op.k + op.t)
  r.set op.a (cyclic w op.s + r.get op.b)

/-- The `OP`s of `md5_process_block` in their order. In the first sixteen, which also fill
`correct_words`, the word is the next one of the block. -/
def md5Ops : List Md5Op :=
   [⟨.ff, .a, .b, .c, .d, 0, 7, 0xd76aa478⟩, ⟨.ff, .d, .a, .b, .c, 1, 12, 0xe8c7b756⟩,
    ⟨.ff, .c, .d, .a, .b, 2, 17, 0x242070db⟩, ⟨.ff, .b, .c, .d, .a, 3, 22, 0xc1bdceee⟩,
    ⟨.ff, .a, .b, .c, .d, 4, 7, 0xf57c0faf⟩, ⟨.ff, .d, .a, .b, .c, 5, 12, 0x4787c62a⟩,
    ⟨.ff, .c, .d, .a, .b, 6, 17, 0xa8304613⟩, ⟨.ff, .b, .c, .d, .a, 7, 22, 0xfd469501⟩,
    ⟨.ff, .a, .b, .c, .d, 8, 7, 0x698098d8⟩, ⟨.ff, .d, .a, .b, .c, 9, 12, 0x8b44f7af⟩,
    ⟨.ff, .c, .d, .a, .b, 10, 17, 0xffff5bb1⟩, ⟨.ff, .b, .c, .d, .a, 11, 22, 0x895cd7be⟩,
    ⟨.ff, .a, .b, .c, .d, 12, 7, 0x6b901122⟩, ⟨.ff, .d, .a, .b, .c, 13, 12, 0xfd987193⟩,
    ⟨.ff, .c, .d, .a, .b, 14, 17, 0xa679438e⟩, ⟨.ff, .b, .c, .d, .a, 15, 22, 0x49b40821⟩,
    ⟨.fg, .a, .b, .c, .d, 1, 5, 0xf61e2562⟩, ⟨.fg, .d, .a, .b, .c, 6, 9, 0xc040b340⟩,
    ⟨.fg, .c, .d, .a, .b, 11, 14, 0x265e5a51⟩, ⟨.fg, .b, .c, .d, .a, 0, 20, 0xe9b6c7aa⟩,
    ⟨.fg, .a, .b, .c, .d, 5, 5, 0xd62f105d⟩, ⟨.fg, .d, .a, .b, .c, 10, 9, 0x02441453⟩,
    ⟨.fg, .c, .d, .a, .b, 15, 14, 0xd8a1e681⟩, ⟨.fg, .b, .c, .d, .a, 4, 20, 0xe7d3fbc8⟩,
    ⟨.fg, .a, .b, .c, .d, 9, 5, 0x21e1cde6⟩, ⟨.fg, .d, .a, .b, .c, 14, 9, 0xc33707d6⟩,
    ⟨.fg, .c, .d, .a, .b, 3, 14, 0xf4d50d87⟩, ⟨.fg, .b, .c, .d, .a, 8, 20, 0x455a14ed⟩,
    ⟨.fg, .a, .b, .c, .d, 13, 5, 0xa9e3e905⟩, ⟨.fg, .d, .a, .b, .c, 2, 9, 0xfcefa3f8⟩,
    ⟨.fg, .c, .d, .a, .b, 7, 14, 0x676f02d9⟩, ⟨.fg, .b, .c, .d, .a, 12, 20, 0x8d2a4c8a⟩,
    ⟨.fh, .a, .b, .c, .d, 5, 4, 0xfffa3942⟩, ⟨.fh, .d, .a, .b, .c, 8, 11, 0x8771f681⟩,
    ⟨.fh, .c, .d, .a, .b, 11, 16, 0x6d9d6122⟩, ⟨.fh, .b, .c, .d, .a, 14, 23, 0xfde5380c⟩,
    ⟨.fh, .a, .b, .c, .d, 1, 4, 0xa4beea44⟩, ⟨.fh, .d, .a, .b, .c, 4, 11, 0x4bdecfa9⟩,
    ⟨.fh, .c, .d, .a, .b, 7, 16, 0xf6bb4b60⟩, ⟨.fh, .b, .c, .d, .a, 10, 23, 0xbebfbc70⟩,
    ⟨.fh, .a, .b, .c, .d, 13, 4, 0x289b7ec6⟩, ⟨.fh, .d, .a, .b, .c, 0, 11, 0xeaa127fa⟩,
    ⟨.fh, .c, .d, .a, .b, 3, 16, 0xd4ef3085⟩, ⟨.fh, .b, .c, .d, .a, 6, 23, 0x04881d05⟩,
    ⟨.fh, .a, .b, .c, .d, 9, 4, 0xd9d4d039⟩, ⟨.fh, .d, .a, .b, .c, 12, 11, 0xe6db99e5⟩,
    ⟨.fh, .c, .d, .a, .b, 15, 16, 0x1fa27cf8⟩, ⟨.fh, .b, .c, .d, .a, 2, 23, 0xc4ac5665⟩,
    ⟨.fi, .a, .b, .c, .d, 0, 6, 0xf4292244⟩, ⟨.fi, .d, .a, .b, .c, 7, 10, 0x432aff97⟩,
    ⟨.fi, .c, .d, .a, .b, 14, 15, 0xab9423a7⟩, ⟨.fi, .b, .c, .d, .a, 5, 21, 0xfc93a039⟩,
    ⟨.fi, .a, .b, .c, .d, 12, 6, 0x655b59c3⟩, ⟨.fi, .d, .a, .b, .c, 3, 10, 0x8f0ccc92⟩,
    ⟨.fi, .c, .d, .a, .b, 10, 15, 0xffeff47d⟩, ⟨.fi, .b, .c, .d, .a, 1, 21, 0x85845dd1⟩,
    ⟨.fi, .a, .b, .c, .d, 8, 6, 0x6fa87e4f⟩, ⟨.fi, .d, .a, .b, .c, 15, 10, 0xfe2ce6e0⟩,
    ⟨.fi, .c, .d, .a, .b, 6, 15, 0xa3014314⟩, ⟨.fi, .b, .c, .d, .a, 13, 21, 0x4e0811a1⟩,
    ⟨.fi, .a, .b, .c, .d, 4, 6, 0xf7537e82⟩, ⟨.fi, .d, .a, .b, .c, 11, 10, 0xbd3af235⟩,
    ⟨.fi, .c, .d, .a, .b, 2, 15, 0x2ad7d2bb⟩, ⟨.fi, .b, .c, .d, .a, 9, 21, 0xeb86d391⟩]

/-- A word of a block, with the first byte as the lowest. -/
def wordAt (block : List UInt8) (k : ℕ) : Md5Uint32 :=
  BitVec.ofNat 32 ((block.getD (4 * k) 0).toNat + 2 ^ 8 * (block.getD (4 * k + 1) 0).toNat +
    2 ^ 16 * (block.getD (4 * k + 2) 0).toNat + 2 ^ 24 * (block.getD (4 * k + 3) 0).toNat)

/-- One round of the loop of `md5_process_block`. -/
def md5Block (save : Md5Regs) (block : List UInt8) : Md5Regs :=
  (md5Ops.foldl (Md5Op.run (wordAt block)) save).add save

/-- The loop of `md5_process_block`. -/
def md5Blocks : ℕ → Md5Regs → List UInt8 → Option Md5Regs
  | 0, r, _ => some r
  | n + 1, r, data =>
    if data.length < 64 then none
    else md5Blocks n (md5Block r (data.take 64)) (data.drop 64)

/-! ### The context -/

/-- `buffer` of a context. -/
abbrev Md5Buffer := { bytes : List UInt8 // bytes.length = 128 }

/-- `struct md5_ctx`. -/
structure Md5Ctx where
  regs : Md5Regs
  total0 : Md5Uint32
  total1 : Md5Uint32
  buflen : ℕ
  buffer : Md5Buffer

/-- `memcpy` into the buffer. -/
def Md5Buffer.memcpy (buffer : Md5Buffer) (offset : ℕ) (bytes : List UInt8) : Option Md5Buffer :=
  if h : offset + bytes.length ≤ 128 then
    some ⟨buffer.val.take offset ++ bytes ++ buffer.val.drop (offset + bytes.length), by
      simp only [List.length_append, List.length_take, List.length_drop, buffer.property]
      omega⟩
  else none

/-- `md5_init_ctx`, over the buffer as it is. -/
def md5InitCtx (buffer : Md5Buffer) : Md5Ctx where
  regs := ⟨0x67452301, 0xefcdab89, 0x98badcfe, 0x10325476⟩
  total0 := 0
  total1 := 0
  buflen := 0
  buffer := buffer

/-- `total[0] += len`, with the carry into `total[1]`. -/
def Md5Ctx.count (ctx : Md5Ctx) (len : ℕ) : Md5Ctx :=
  let total0 := ctx.total0 + BitVec.ofNat 32 len
  { ctx with
    total0 := total0
    total1 := if total0.toNat < len then ctx.total1 + 1 else ctx.total1 }

/-- `md5_process_block`. The loop ends when `words` has reached `endp`, and moves `words` on by
sixteen each time. -/
def md5ProcessBlock (data : List UInt8) (len : ℕ) (ctx : Md5Ctx) : Option Md5Ctx := do
  let regs ← md5Blocks ((len / 4 + 15) / 16) ctx.regs data
  return { ctx.count len with regs := regs }

/-- The first part of `md5_process_bytes`: `add` bytes go behind those that are in the buffer. Here
and below `n / 64 * 64` is `n & ~63`, and `n % 64` is `n & 63`. -/
def fillBuffer (ctx : Md5Ctx) (bytes : List UInt8) : Option Md5Ctx := do
  let filled ← ctx.buffer.memcpy ctx.buflen bytes
  let n := ctx.buflen + bytes.length
  let ctx := { ctx with buffer := filled, buflen := n }
  if n > 64 then
    let ctx ← md5ProcessBlock filled.val (n / 64 * 64) ctx
    let moved ← filled.memcpy 0 ((filled.val.drop (n / 64 * 64)).take (n % 64))
    return { ctx with buffer := moved, buflen := n % 64 }
  else
    return ctx

/-- The second part: whole blocks are hashed where they are. -/
def hashBlocks (data : List UInt8) (ctx : Md5Ctx) : Option (Md5Ctx × List UInt8) := do
  if data.length > 64 then
    let ctx ← md5ProcessBlock data (data.length / 64 * 64) ctx
    return (ctx, data.drop (data.length / 64 * 64))
  else
    return (ctx, data)

/-- The last part: what is left goes to the start of the buffer. -/
def keepRest (data : List UInt8) (ctx : Md5Ctx) : Option Md5Ctx := do
  if data.length > 0 then
    let kept ← ctx.buffer.memcpy 0 data
    return { ctx with buffer := kept, buflen := data.length }
  else
    return ctx

/-- `md5_process_bytes`. -/
def md5ProcessBytes (ctx : Md5Ctx) (buffer : List UInt8) : Option Md5Ctx := do
  if ctx.buflen ≠ 0 then
    let add := if 128 - ctx.buflen > buffer.length then buffer.length else 128 - ctx.buflen
    let ctx ← fillBuffer ctx (buffer.take add)
    let (ctx, rest) ← hashBlocks (buffer.drop add) ctx
    keepRest rest ctx
  else
    let (ctx, rest) ← hashBlocks buffer ctx
    keepRest rest ctx

/-- The bytes of a word. -/
def wordBytes (w : Md5Uint32) : List UInt8 :=
  [0, 1, 2, 3].map fun i ↦ UInt8.ofNat (w.toNat / 2 ^ (8 * i))

/-- `md5_read_ctx`. -/
def md5ReadCtx (r : Md5Regs) : List UInt8 :=
  wordBytes r.a ++ wordBytes r.b ++ wordBytes r.c ++ wordBytes r.d

/-- `fillbuf`. -/
def fillbuf : List UInt8 :=
  0x80 :: List.replicate 63 0

/-- `md5_finish_ctx`: the context that is left, and the digest. -/
def md5FinishCtx (ctx : Md5Ctx) : Option (Md5Ctx × List UInt8) := do
  let bytes := ctx.buflen
  let ctx := ctx.count bytes
  let pad := if bytes ≥ 56 then 64 + 56 - bytes else 56 - bytes
  let buffer ← ctx.buffer.memcpy bytes (fillbuf.take pad)
  let buffer ← buffer.memcpy (bytes + pad) (wordBytes (ctx.total0 <<< 3))
  let buffer ← buffer.memcpy (bytes + pad + 4)
    (wordBytes ((ctx.total1 <<< 3) ||| (ctx.total0 >>> 29)))
  let ctx ← md5ProcessBlock buffer.val (bytes + pad + 8) { ctx with buffer := buffer }
  return (ctx, md5ReadCtx ctx.regs)

/-- `md5sum`, with the buffer of the local context as it is on the stack. -/
def md5sum (stack : Md5Buffer) (buffer : List UInt8) : Option (List UInt8) := do
  let ctx ← md5ProcessBytes (md5InitCtx stack) buffer
  let (_, digest) ← md5FinishCtx ctx
  return digest

end Katmai.Misclib
