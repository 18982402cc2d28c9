import Katmai.Misclib.Md5
import Mathlib.Data.List.GetD

/-!
# The digest of a text in pieces

`md5` is the MD5 digest of a text: the text is padded to whole blocks, and `md5Compress` moves the
registers on with each of them in sixty-four equal steps.

The sixty-four `OP`s of the source are these steps with the registers renamed instead of moved
(`md5Block_eq`), and a context that was given a text in pieces holds it as a hash over blocks does
(`Md5Ctx.Holds`). So `md5_finish_ctx` gives the digest of the text whatever the pieces are, and no
store leaves the buffer (`md5FinishCtx_pieces`).
-/

set_option autoImplicit false
set_option relaxedAutoImplicit false

namespace Katmai.Misclib

open Katmai.Foundation

/-! ### The digest -/

/-- The function of a step. -/
def stepFn (i : ℕ) (x y z : Md5Uint32) : Md5Uint32 :=
  match i / 16 with
  | 0 => (x &&& y) ||| (~~~x &&& z)
  | 1 => (x &&& z) ||| (y &&& ~~~z)
  | 2 => x ^^^ y ^^^ z
  | _ => y ^^^ (x ||| ~~~z)

/-- The word of the block for a step. -/
def stepWord (i : ℕ) : ℕ :=
  match i / 16 with
  | 0 => i
  | 1 => (5 * i + 1) % 16
  | 2 => (3 * i + 5) % 16
  | _ => 7 * i % 16

/-- The rotation of a step. -/
def stepShift (i : ℕ) : ℕ :=
  match i / 16 with
  | 0 => [7, 12, 17, 22].getD (i % 4) 0
  | 1 => [5, 9, 14, 20].getD (i % 4) 0
  | 2 => [4, 11, 16, 23].getD (i % 4) 0
  | _ => [6, 10, 15, 21].getD (i % 4) 0

/-- The constants of the steps. -/
def stepTable : List Md5Uint32 :=
   [0xd76aa478, 0xe8c7b756, 0x242070db, 0xc1bdceee, 0xf57c0faf, 0x4787c62a,
    0xa8304613, 0xfd469501, 0x698098d8, 0x8b44f7af, 0xffff5bb1, 0x895cd7be,
    0x6b901122, 0xfd987193, 0xa679438e, 0x49b40821, 0xf61e2562, 0xc040b340,
    0x265e5a51, 0xe9b6c7aa, 0xd62f105d, 0x02441453, 0xd8a1e681, 0xe7d3fbc8,
    0x21e1cde6, 0xc33707d6, 0xf4d50d87, 0x455a14ed, 0xa9e3e905, 0xfcefa3f8,
    0x676f02d9, 0x8d2a4c8a, 0xfffa3942, 0x8771f681, 0x6d9d6122, 0xfde5380c,
    0xa4beea44, 0x4bdecfa9, 0xf6bb4b60, 0xbebfbc70, 0x289b7ec6, 0xeaa127fa,
    0xd4ef3085, 0x04881d05, 0xd9d4d039, 0xe6db99e5, 0x1fa27cf8, 0xc4ac5665,
    0xf4292244, 0x432aff97, 0xab9423a7, 0xfc93a039, 0x655b59c3, 0x8f0ccc92,
    0xffeff47d, 0x85845dd1, 0x6fa87e4f, 0xfe2ce6e0, 0xa3014314, 0x4e0811a1,
    0xf7537e82, 0xbd3af235, 0x2ad7d2bb, 0xeb86d391]

def md5Step (words : ℕ → Md5Uint32) (r : Md5Regs) (i : ℕ) : Md5Regs where
  a := r.d
  b := (r.a + (stepFn i r.b r.c r.d + words (stepWord i) + stepTable.getD i 0)).rotateLeft
    (stepShift i) + r.b
  c := r.b
  d := r.c

def md5Compress (r : Md5Regs) (block : List UInt8) : Md5Regs :=
  ((List.range 64).foldl (md5Step (wordAt block)) r).add r

def md5Init : Md5Regs :=
  ⟨0x67452301, 0xefcdab89, 0x98badcfe, 0x10325476⟩

/-- The low 64 bits of a number, with the first byte as the lowest. -/
def lowBytes (n : ℕ) : List UInt8 :=
  (List.range 8).map fun i ↦ UInt8.ofNat (n / 2 ^ (8 * i))

/-- A one bit, zeros up to the end of a block less eight bytes, and the length in bits. -/
def md5Padding (length : ℕ) : List UInt8 :=
  0x80 :: List.replicate ((119 - length % 64) % 64) 0 ++ lowBytes (8 * length)

/-- The MD5 digest of a text. -/
def md5 (text : List UInt8) : List UInt8 :=
  let padded := text ++ md5Padding text.length
  md5ReadCtx (absorb md5Compress 64 (padded.length / 64) md5Init padded)

example : md5 [0x61, 0x62, 0x63] = [0x90, 0x01, 0x50, 0x98, 0x3c, 0xd2, 0x4f, 0xb0,
    0xd6, 0x96, 0x3f, 0x7d, 0x28, 0xe1, 0x7f, 0x72] := by
  decide +kernel

/-! ### The steps of a block -/

theorem ff_eq (x y z : Md5Uint32) : ff x y z = (x &&& y) ||| (~~~x &&& z) := by
  apply BitVec.eq_of_getLsbD_eq
  intro i hi
  simp only [ff, BitVec.getLsbD_xor, BitVec.getLsbD_and, BitVec.getLsbD_or, BitVec.getLsbD_not, hi,
    decide_true, Bool.true_and]
  cases x.getLsbD i <;> cases y.getLsbD i <;> cases z.getLsbD i <;> rfl

theorem fg_eq (x y z : Md5Uint32) : fg x y z = (x &&& z) ||| (y &&& ~~~z) := by
  rw [fg, ff_eq, BitVec.and_comm z x, BitVec.and_comm (~~~z) y]

theorem cyclic_eq (w : Md5Uint32) {s : ℕ} (hs : s < 32) : cyclic w s = w.rotateLeft s := by
  rw [cyclic, BitVec.rotateLeft_eq_rotateLeftAux_of_lt hs, BitVec.rotateLeftAux]

/-- The macro of a step. -/
def stepMacro (i : ℕ) : Md5Fn :=
  match i / 16 with
  | 0 => .ff
  | 1 => .fg
  | 2 => .fh
  | _ => .fi

/-- The registers in the order in which a step of the source uses them. -/
def stepRegs (i : ℕ) : Md5Reg × Md5Reg × Md5Reg × Md5Reg :=
  match i % 4 with
  | 0 => (.a, .b, .c, .d)
  | 1 => (.d, .a, .b, .c)
  | 2 => (.c, .d, .a, .b)
  | _ => (.b, .c, .d, .a)

/-- The `OP` of a step. -/
def stepOp (i : ℕ) : Md5Op :=
  ⟨stepMacro i, (stepRegs i).1, (stepRegs i).2.1, (stepRegs i).2.2.1, (stepRegs i).2.2.2,
    stepWord i, stepShift i, stepTable.getD i 0⟩

theorem md5Ops_eq : md5Ops = (List.range 64).map stepOp := by
  decide +kernel

theorem stepMacro_apply (i : ℕ) : (stepMacro i).apply = stepFn i := by
  funext x y z
  unfold stepMacro stepFn
  split
  · exact ff_eq x y z
  · exact fg_eq x y z
  · rfl
  · rfl

theorem stepShift_lt (i : ℕ) : stepShift i < 32 := by
  have hmod : i % 4 < 4 := Nat.mod_lt _ (by decide)
  have hall (l : List ℕ) (hl : ∀ s ∈ l, s < 32) : l.getD (i % 4) 0 < 32 := by
    rcases Nat.lt_or_ge (i % 4) l.length with h | h
    · rw [List.getD_eq_getElem _ _ h]
      exact hl _ (List.getElem_mem h)
    · rw [List.getD_eq_default _ _ h]
      decide
  unfold stepShift
  split <;> exact hall _ (by decide)

/-- The registers as the step `i` of the source finds them. -/
def rolesAt (i : ℕ) (r : Md5Regs) : Md5Regs :=
  ⟨r.get (stepRegs i).1, r.get (stepRegs i).2.1, r.get (stepRegs i).2.2.1,
    r.get (stepRegs i).2.2.2⟩

/-- Renaming the registers in place of moving them. -/
theorem rolesAt_set (r : Md5Regs) (i : ℕ) (w : Md5Uint32) :
    rolesAt (i + 1) (r.set (stepRegs i).1 w) =
      ⟨(rolesAt i r).d, w, (rolesAt i r).b, (rolesAt i r).c⟩ := by
  have hcases : i % 4 = 0 ∧ (i + 1) % 4 = 1 ∨ i % 4 = 1 ∧ (i + 1) % 4 = 2 ∨
      i % 4 = 2 ∧ (i + 1) % 4 = 3 ∨ i % 4 = 3 ∧ (i + 1) % 4 = 0 := by omega
  unfold rolesAt stepRegs
  rcases hcases with ⟨h, hnext⟩ | ⟨h, hnext⟩ | ⟨h, hnext⟩ | ⟨h, hnext⟩
  all_goals
    rw [h, hnext]
    rfl

theorem rolesAt_run (words : ℕ → Md5Uint32) (r : Md5Regs) (i : ℕ) :
    rolesAt (i + 1) (Md5Op.run words r (stepOp i)) = md5Step words (rolesAt i r) i := by
  simp only [Md5Op.run, stepOp, stepMacro_apply, cyclic_eq _ (stepShift_lt i)]
  exact rolesAt_set r i _

theorem rolesAt_foldl (words : ℕ → Md5Uint32) (r : Md5Regs) (n : ℕ) :
    rolesAt n (((List.range n).map stepOp).foldl (Md5Op.run words) r) =
      (List.range n).foldl (md5Step words) r := by
  induction n with
  | zero => rfl
  | succ n ih =>
    rw [List.range_succ, List.map_append, List.foldl_append, List.foldl_append, ← ih]
    exact rolesAt_run words _ n

theorem md5Block_eq (r : Md5Regs) (block : List UInt8) :
    md5Block r block = md5Compress r block := by
  have hback (s : Md5Regs) : rolesAt 64 s = s := rfl
  have hroles := rolesAt_foldl (wordAt block) r 64
  rw [← md5Ops_eq, hback] at hroles
  rw [md5Block, md5Compress, hroles]

theorem md5Blocks_eq {n : ℕ} {data : List UInt8} (hn : n * 64 ≤ data.length) (r : Md5Regs) :
    md5Blocks n r data = some (absorb md5Compress 64 n r data) := by
  induction n generalizing r data with
  | zero => rfl
  | succ n ih =>
    rw [md5Blocks, if_neg (by omega), ih (by rw [List.length_drop]; omega), md5Block_eq, absorb]

/-! ### The context -/

/-- The number of bytes that the two words of `total` count. -/
def Md5Ctx.total (ctx : Md5Ctx) : ℕ :=
  ctx.total1.toNat * 2 ^ 32 + ctx.total0.toNat

theorem Md5Ctx.total_count (ctx : Md5Ctx) {len : ℕ} (hlen : len < 2 ^ 32) :
    (ctx.count len).total = (ctx.total + len) % 2 ^ 64 := by
  have h0 := ctx.total0.isLt
  have h1 := ctx.total1.isLt
  have hsum : (ctx.total0 + BitVec.ofNat 32 len).toNat = (ctx.total0.toNat + len) % 2 ^ 32 := by
    rw [BitVec.toNat_add, BitVec.toNat_ofNat, Nat.add_mod_mod]
  unfold Md5Ctx.total Md5Ctx.count
  dsimp only
  rw [hsum]
  split_ifs with hcarry
  · rw [BitVec.toNat_add]
    change (ctx.total1.toNat + 1) % 2 ^ 32 * 2 ^ 32 + _ = _
    omega
  · omega

/-- The registers have hashed the text up to the bytes that are kept, and the total has counted
what they have hashed. -/
structure Md5Ctx.Holds (ctx : Md5Ctx) (text kept : List UInt8) : Prop where
  absorbed : Absorbed md5Compress 64 md5Init text ctx.regs kept
  total : (ctx.total + kept.length) % 2 ^ 64 = text.length % 2 ^ 64

/-- Between two calls the bytes kept are in the buffer. -/
structure Md5Ctx.Waits (ctx : Md5Ctx) (text : List UInt8) : Prop where
  buflen_le : ctx.buflen ≤ 64
  holds : ctx.Holds text (ctx.buffer.val.take ctx.buflen)

variable {ctx : Md5Ctx} {text kept : List UInt8}

theorem Md5Buffer.memcpy_eq (buffer : Md5Buffer) (offset : ℕ) (bytes : List UInt8)
    (hle : offset + bytes.length ≤ 128) :
    ∃ filled, buffer.memcpy offset bytes = some filled ∧
      filled.val.take (offset + bytes.length) = buffer.val.take offset ++ bytes := by
  refine ⟨_, dif_pos hle, ?_⟩
  have hlength : (buffer.val.take offset ++ bytes).length = offset + bytes.length := by
    rw [List.length_append, List.length_take, buffer.property]
    omega
  exact (congrArg (List.take · _) hlength.symm).trans List.take_left

theorem Md5Ctx.Holds.append (h : ctx.Holds text kept) (more : List UInt8) :
    ctx.Holds (text ++ more) (kept ++ more) := by
  refine ⟨h.absorbed.append more, ?_⟩
  have htotal := h.total
  rw [List.length_append, List.length_append]
  omega

theorem md5ProcessBlock_eq (ctx : Md5Ctx) {n : ℕ} {data : List UInt8}
    (hn : n * 64 ≤ data.length) :
    md5ProcessBlock data (n * 64) ctx =
      some { ctx.count (n * 64) with regs := absorb md5Compress 64 n ctx.regs data } := by
  have hrounds : (n * 64 / 4 + 15) / 16 = n := by omega
  rw [md5ProcessBlock, hrounds, md5Blocks_eq hn]
  rfl

/-- Blocks at the front of what is kept are hashed. -/
theorem Md5Ctx.Holds.processBlock (h : ctx.Holds text kept) {n : ℕ} (data : List UInt8)
    (hkept : n * 64 ≤ kept.length) (hdata : n * 64 ≤ data.length)
    (hsame : data.take (n * 64) = kept.take (n * 64)) (hlen : n * 64 < 2 ^ 32) :
    ∃ ctx', md5ProcessBlock data (n * 64) ctx = some ctx' ∧ ctx'.buffer = ctx.buffer ∧
      ctx'.buflen = ctx.buflen ∧ ctx'.Holds text (kept.drop (n * 64)) := by
  have hregs : absorb md5Compress 64 n ctx.regs data = absorb md5Compress 64 n ctx.regs kept := by
    rw [← absorb_take md5Compress 64 hdata, hsame, absorb_take md5Compress 64 hkept]
  refine ⟨{ ctx.count (n * 64) with regs := absorb md5Compress 64 n ctx.regs kept },
    ?_, rfl, rfl, h.absorbed.absorb hkept, ?_⟩
  · rw [md5ProcessBlock_eq ctx hdata, hregs]
  · have htotal : (ctx.count (n * 64)).total = (ctx.total + n * 64) % 2 ^ 64 :=
      ctx.total_count hlen
    have hheld := h.total
    change ((ctx.count (n * 64)).total + _) % 2 ^ 64 = _
    rw [htotal, List.length_drop]
    omega

/-- The first part of `md5_process_bytes`. -/
theorem Md5Ctx.Waits.fillBuffer (h : ctx.Waits text) (bytes : List UInt8)
    (hle : ctx.buflen + bytes.length ≤ 128) :
    ∃ ctx', fillBuffer ctx bytes = some ctx' ∧ ctx'.Waits (text ++ bytes) ∧
      (ctx.buflen + bytes.length = 128 → ctx'.buflen = 0) := by
  obtain ⟨filled, hcopy, htake⟩ := ctx.buffer.memcpy_eq _ _ hle
  generalize hn : ctx.buflen + bytes.length = n at hle htake
  have hheld : ({ ctx with buffer := filled, buflen := n } : Md5Ctx).Holds (text ++ bytes)
      (filled.val.take n) := by
    rw [htake]
    exact ⟨(h.holds.append bytes).absorbed, (h.holds.append bytes).total⟩
  unfold Misclib.fillBuffer
  rw [hcopy, hn]
  by_cases hmore : n > 64
  · have hfloor : n / 64 * 64 ≤ n := Nat.div_mul_le_self n 64
    have hfilled : (filled.val.take n).length = n := by
      rw [List.length_take, filled.property]
      omega
    obtain ⟨ctx', hblock, -, -, hholds⟩ := hheld.processBlock (n := n / 64) filled.val
      (by rw [hfilled]; exact hfloor) (by rw [filled.property]; omega)
      (by rw [List.take_take, Nat.min_eq_left hfloor]) (by omega)
    have hrest : (filled.val.drop (n / 64 * 64)).take (n % 64) =
        (filled.val.take n).drop (n / 64 * 64) := by
      rw [List.drop_take]
      congr 1
      omega
    have hlength : ((filled.val.drop (n / 64 * 64)).take (n % 64)).length = n % 64 := by
      rw [List.length_take, List.length_drop, filled.property]
      omega
    obtain ⟨moved, hmove, hmoved⟩ := filled.memcpy_eq 0
      ((filled.val.drop (n / 64 * 64)).take (n % 64)) (by rw [hlength]; omega)
    rw [hlength, Nat.zero_add, List.take_zero, List.nil_append, hrest] at hmoved
    refine ⟨{ ctx' with buffer := moved, buflen := n % 64 }, ?_, ⟨?_, ?_⟩, ?_⟩
    · simp only [Option.bind_eq_bind, Option.bind_some, if_pos hmore, hblock, hmove,
        Option.pure_def]
    · exact Nat.le_of_lt (Nat.mod_lt n (by decide))
    · change Md5Ctx.Holds _ _ (moved.val.take (n % 64))
      rw [hmoved]
      exact ⟨hholds.absorbed, hholds.total⟩
    · rintro rfl
      rfl
  · refine ⟨{ ctx with buffer := filled, buflen := n }, ?_, ⟨?_, hheld⟩, ?_⟩
    · simp only [Option.bind_eq_bind, Option.bind_some, if_neg hmore, Option.pure_def]
    · exact Nat.le_of_not_lt hmore
    · intro hfull
      omega

/-- The second part: at most one block is left. -/
theorem Md5Ctx.Holds.hashBlocks (h : ctx.Holds text kept) (hlen : kept.length < 2 ^ 32) :
    ∃ ctx' rest, hashBlocks kept ctx = some (ctx', rest) ∧ rest.length ≤ 64 ∧
      ctx'.buflen = ctx.buflen ∧ ctx'.Holds text rest := by
  unfold Misclib.hashBlocks
  by_cases hmore : kept.length > 64
  · have hfloor : kept.length / 64 * 64 ≤ kept.length := Nat.div_mul_le_self _ 64
    obtain ⟨ctx', hblock, -, hbuflen, hholds⟩ :=
      h.processBlock kept hfloor hfloor rfl (Nat.lt_of_le_of_lt hfloor hlen)
    refine ⟨ctx', kept.drop (kept.length / 64 * 64), ?_, ?_, hbuflen, hholds⟩
    · simp only [if_pos hmore, hblock, Option.bind_eq_bind, Option.bind_some, Option.pure_def]
    · rw [List.length_drop]
      omega
  · exact ⟨ctx, kept, if_neg hmore, Nat.le_of_not_lt hmore, rfl, h⟩

/-- The last part. -/
theorem Md5Ctx.Holds.keepRest (h : ctx.Holds text kept) (hlen : kept.length ≤ 64)
    (hbuflen : ctx.buflen = 0) :
    ∃ ctx', keepRest kept ctx = some ctx' ∧ ctx'.Waits text := by
  unfold Misclib.keepRest
  by_cases hpos : kept.length > 0
  · obtain ⟨filled, hcopy, htake⟩ := ctx.buffer.memcpy_eq 0 kept (by omega)
    rw [Nat.zero_add, List.take_zero, List.nil_append] at htake
    refine ⟨{ ctx with buffer := filled, buflen := kept.length }, ?_, hlen, ?_⟩
    · simp only [if_pos hpos, hcopy, Option.bind_eq_bind, Option.bind_some, Option.pure_def]
    · change Md5Ctx.Holds _ _ (filled.val.take kept.length)
      rw [htake]
      exact ⟨h.absorbed, h.total⟩
  · have hnil : kept = [] := List.eq_nil_of_length_eq_zero (Nat.eq_zero_of_not_pos hpos)
    refine ⟨ctx, if_neg hpos, by omega, ?_⟩
    rw [hbuflen, List.take_zero, ← hnil]
    exact h

/-- A piece of less than `2 ^ 32` bytes. -/
theorem Md5Ctx.Waits.processBytes (h : ctx.Waits text) {piece : List UInt8}
    (hpiece : piece.length < 2 ^ 32) :
    ∃ ctx', md5ProcessBytes ctx piece = some ctx' ∧ ctx'.Waits (text ++ piece) := by
  unfold md5ProcessBytes
  by_cases hwaiting : ctx.buflen ≠ 0
  · rw [if_pos hwaiting]
    have hbuflen := h.buflen_le
    dsimp only
    generalize hadd : (if 128 - ctx.buflen > piece.length then piece.length
      else 128 - ctx.buflen) = add
    have hadd_le : add ≤ piece.length ∧ ctx.buflen + add ≤ 128 ∧
        (add = piece.length ∨ ctx.buflen + add = 128) := by
      split_ifs at hadd <;> omega
    have hlength : (piece.take add).length = add := by
      rw [List.length_take]
      omega
    obtain ⟨ctx1, hfill, hwaits, hempty⟩ := h.fillBuffer (piece.take add) (by omega)
    rw [hfill]
    simp only [Option.bind_eq_bind, Option.bind_some]
    rcases hadd_le.2.2 with hall | hfull
    · -- the whole piece has gone into the buffer
      refine ⟨ctx1, ?_, ?_⟩
      · rw [hall, List.drop_length]
        rfl
      · rwa [hall, List.take_length] at hwaits
    · have hzero := hempty (by omega)
      have hholds := hwaits.holds.append (piece.drop add)
      rw [hzero, List.take_zero, List.nil_append, List.append_assoc,
        List.take_append_drop] at hholds
      obtain ⟨ctx2, rest, hhash, hrest, hbuflen2, hholds2⟩ :=
        hholds.hashBlocks (by rw [List.length_drop]; omega)
      rw [hhash]
      exact hholds2.keepRest hrest (hbuflen2.trans hzero)
  · rw [if_neg hwaiting]
    have hzero : ctx.buflen = 0 := not_not.mp hwaiting
    have hholds := h.holds.append piece
    rw [hzero, List.take_zero, List.nil_append] at hholds
    obtain ⟨ctx2, rest, hhash, hrest, hbuflen2, hholds2⟩ := hholds.hashBlocks hpiece
    simp only [hhash, Option.bind_eq_bind, Option.bind_some]
    exact hholds2.keepRest hrest (hbuflen2.trans hzero)

/-! ### The padding -/

theorem ofNat_eq_ofNat_of_mod {m n : ℕ} (h : m % 2 ^ 8 = n % 2 ^ 8) :
    UInt8.ofNat m = UInt8.ofNat n := by
  rw [← UInt8.toNat_inj, UInt8.toNat_ofNat', UInt8.toNat_ofNat', h]

/-- The length in bits, from the number of bytes in two words. -/
theorem wordBytes_bits {low high : Md5Uint32} {n : ℕ}
    (hn : high.toNat * 2 ^ 32 + low.toNat = n % 2 ^ 64) :
    wordBytes (low <<< 3) ++ wordBytes ((high <<< 3) ||| (low >>> 29)) = lowBytes (8 * n) := by
  have hlow : (low <<< 3).toNat = 8 * low.toNat % 2 ^ 32 := by
    rw [BitVec.toNat_shiftLeft, Nat.shiftLeft_eq, Nat.mul_comm]
  have hhigh : ((high <<< 3) ||| (low >>> 29)).toNat =
      8 * high.toNat % 2 ^ 32 + low.toNat / 2 ^ 29 := by
    have hsmall : low.toNat / 2 ^ 29 < 2 ^ 3 := by
      have := low.isLt
      omega
    have hmul : 8 * high.toNat % 2 ^ 32 = 2 ^ 3 * (high.toNat % 2 ^ 29) := by omega
    rw [BitVec.toNat_or, BitVec.toNat_shiftLeft, BitVec.toNat_ushiftRight, Nat.shiftLeft_eq,
      Nat.shiftRight_eq_div_pow, Nat.mul_comm high.toNat, hmul,
      Nat.two_pow_add_eq_or_of_lt hsmall]
  have h0 := low.isLt
  have h1 := high.isLt
  have hrange : List.range 8 = [0, 1, 2, 3] ++ [0, 1, 2, 3].map (· + 4) := rfl
  rw [lowBytes, hrange, List.map_append, List.map_map, wordBytes, wordBytes, hlow, hhigh]
  congr 1
  · refine List.map_congr_left fun i hi ↦ ofNat_eq_ofNat_of_mod ?_
    simp only [List.mem_cons, List.not_mem_nil, or_false] at hi
    rcases hi with rfl | rfl | rfl | rfl <;> omega
  · refine List.map_congr_left fun i hi ↦ ofNat_eq_ofNat_of_mod ?_
    change _ = 8 * n / 2 ^ (8 * (i + 4)) % 2 ^ 8
    simp only [List.mem_cons, List.not_mem_nil, or_false] at hi
    rcases hi with rfl | rfl | rfl | rfl <;> omega

theorem length_wordBytes (w : Md5Uint32) : (wordBytes w).length = 4 :=
  rfl

/-- `md5_finish_ctx` gives the digest. -/
theorem Md5Ctx.Waits.finish (h : ctx.Waits text) :
    ∃ ctx', md5FinishCtx ctx = some (ctx', md5 text) := by
  have hbuflen := h.buflen_le
  have hkept : (ctx.buffer.val.take ctx.buflen).length = ctx.buflen := by
    rw [List.length_take, ctx.buffer.property]
    omega
  have hlen : ctx.buflen < 2 ^ 32 := by omega
  have hcount := ctx.total_count hlen
  have htotal := h.holds.total
  rw [hkept] at htotal
  obtain ⟨k, htext⟩ := h.holds.absorbed.length_eq
  rw [hkept] at htext
  unfold md5FinishCtx
  dsimp only
  generalize hpad : (if ctx.buflen ≥ 56 then 64 + 56 - ctx.buflen else 56 - ctx.buflen) = pad
  have hpad_pos : 1 ≤ pad ∧ pad ≤ 64 ∧ pad - 1 = (119 - text.length % 64) % 64 ∧
      (ctx.buflen + pad + 8 = 64 ∨ ctx.buflen + pad + 8 = 128) := by
    split_ifs at hpad <;> omega
  have hfill : fillbuf.take pad =
      0x80 :: List.replicate ((119 - text.length % 64) % 64) 0 := by
    obtain ⟨m, rfl⟩ := Nat.exists_eq_add_of_le' hpad_pos.1
    rw [← hpad_pos.2.2.1, fillbuf, List.take_succ_cons, List.take_replicate]
    congr 2
    omega
  have hpadding : fillbuf.take pad ++ wordBytes ((ctx.count ctx.buflen).total0 <<< 3) ++
      wordBytes (((ctx.count ctx.buflen).total1 <<< 3) |||
        ((ctx.count ctx.buflen).total0 >>> 29)) = md5Padding text.length := by
    rw [List.append_assoc, wordBytes_bits (hcount.trans htotal), hfill, md5Padding]
  have hfill_length : (fillbuf.take pad).length = pad := by
    rw [List.length_take, fillbuf, List.length_cons, List.length_replicate]
    omega
  obtain ⟨buffer1, hcopy1, htake1⟩ := ctx.buffer.memcpy_eq ctx.buflen (fillbuf.take pad) (by omega)
  obtain ⟨buffer2, hcopy2, htake2⟩ := buffer1.memcpy_eq (ctx.buflen + pad)
    (wordBytes ((ctx.count ctx.buflen).total0 <<< 3)) (by rw [length_wordBytes]; omega)
  obtain ⟨buffer3, hcopy3, htake3⟩ := buffer2.memcpy_eq (ctx.buflen + pad + 4)
    (wordBytes (((ctx.count ctx.buflen).total1 <<< 3) ||| ((ctx.count ctx.buflen).total0 >>> 29)))
    (by rw [length_wordBytes]; omega)
  rw [hfill_length] at htake1
  rw [length_wordBytes, htake1] at htake2
  rw [length_wordBytes, htake2, List.append_assoc, List.append_assoc, ← List.append_assoc
    (fillbuf.take pad), hpadding] at htake3
  -- the buffer now begins with what was kept and the padding, which are whole blocks
  obtain ⟨n, hn⟩ : ∃ n, ctx.buflen + pad + 8 = n * 64 :=
    hpad_pos.2.2.2.elim (fun h64 ↦ ⟨1, h64⟩) fun h128 ↦ ⟨2, h128⟩
  rw [Nat.add_assoc, hn] at htake3
  have hbuffer3 : n * 64 ≤ buffer3.val.length := by
    rw [buffer3.property]
    omega
  have hlength : (ctx.buffer.val.take ctx.buflen ++ md5Padding text.length).length = n * 64 := by
    rw [← htake3, List.length_take, Nat.min_eq_left hbuffer3]
  have hregs := (h.holds.absorbed.append (md5Padding text.length)).absorb
    (Nat.le_of_eq hlength.symm)
  rw [← hlength, List.drop_length] at hregs
  have hdigest : md5ReadCtx (absorb md5Compress 64 n ctx.regs buffer3.val) = md5 text := by
    rw [md5, ← hregs.eq_absorb (by decide), ← htake3, absorb_take md5Compress 64 hbuffer3]
  have hcopy1' : (ctx.count ctx.buflen).buffer.memcpy ctx.buflen (fillbuf.take pad) =
      some buffer1 := hcopy1
  simp only [hcopy1', hcopy2, hcopy3, Option.bind_eq_bind, Option.bind_some, hn, Option.pure_def]
  rw [md5ProcessBlock_eq _ hbuffer3]
  exact ⟨_, congrArg (fun digest ↦ some (_, digest)) hdigest⟩

/-! ### Whole texts -/

theorem length_md5 (text : List UInt8) : (md5 text).length = 16 := by
  simp only [md5, md5ReadCtx, List.length_append, length_wordBytes]

/-- A context that was given nothing yet. -/
theorem waits_md5InitCtx (stack : Md5Buffer) : (md5InitCtx stack).Waits [] := by
  have htotal : (md5InitCtx stack).total = 0 := by
    have hzero : (0 : Md5Uint32).toNat = 0 := rfl
    simp only [Md5Ctx.total, md5InitCtx, hzero, Nat.zero_mul]
  refine ⟨Nat.zero_le 64, Absorbed.start, ?_⟩
  rw [htotal]
  rfl

theorem Md5Ctx.Waits.foldlM (h : ctx.Waits text) {pieces : List (List UInt8)}
    (hpieces : ∀ piece ∈ pieces, piece.length < 2 ^ 32) :
    ∃ ctx', pieces.foldlM md5ProcessBytes ctx = some ctx' ∧
      ctx'.Waits (text ++ pieces.flatten) := by
  induction pieces generalizing ctx text with
  | nil => exact ⟨ctx, rfl, by rwa [List.flatten_nil, List.append_nil]⟩
  | cons piece rest ih =>
    obtain ⟨hpiece, hrest⟩ := List.forall_mem_cons.mp hpieces
    obtain ⟨first, hfirst, hwaits⟩ := h.processBytes hpiece
    obtain ⟨last, hlast, hwaits⟩ := ih hwaits hrest
    refine ⟨last, ?_, ?_⟩
    · rw [List.foldlM_cons, hfirst]
      exact hlast
    · rwa [List.flatten_cons, ← List.append_assoc]

/-- In whatever pieces a text comes, and whatever was in the buffer before, the digest is that of
the text. -/
theorem md5FinishCtx_pieces (stack : Md5Buffer) (pieces : List (List UInt8))
    (hpieces : ∀ piece ∈ pieces, piece.length < 2 ^ 32) :
    ∃ ctx ctx', pieces.foldlM md5ProcessBytes (md5InitCtx stack) = some ctx ∧
      md5FinishCtx ctx = some (ctx', md5 pieces.flatten) := by
  obtain ⟨ctx, hprocess, hwaits⟩ := (waits_md5InitCtx stack).foldlM hpieces
  obtain ⟨ctx', hfinish⟩ := hwaits.finish
  exact ⟨ctx, ctx', hprocess, hfinish⟩

/-- A stack of `0xff` and two pieces of `abc`. -/
theorem md5FinishCtx_pieces_abc :
    ∃ ctx ctx', [[0x61], [0x62, 0x63]].foldlM md5ProcessBytes
        (md5InitCtx ⟨List.replicate 128 0xff, List.length_replicate⟩) = some ctx ∧
      md5FinishCtx ctx = some (ctx', [0x90, 0x01, 0x50, 0x98, 0x3c, 0xd2, 0x4f, 0xb0,
        0xd6, 0x96, 0x3f, 0x7d, 0x28, 0xe1, 0x7f, 0x72]) := by
  have hmd5 : md5 [[0x61], [0x62, 0x63]].flatten = [0x90, 0x01, 0x50, 0x98, 0x3c, 0xd2, 0x4f, 0xb0,
      0xd6, 0x96, 0x3f, 0x7d, 0x28, 0xe1, 0x7f, 0x72] := by
    decide +kernel
  rw [← hmd5]
  exact md5FinishCtx_pieces ⟨List.replicate 128 0xff, List.length_replicate⟩ _ (by decide)

end Katmai.Misclib
