import Katmai.Foundation.CallRun
import Katmai.MiniFilexchg.FileExchange
import Katmai.Misclib.Md5Digest

/-!
# Digest objects

`md5sum/md5sum.c`. An object wraps a context of `md5.c`: `init` starts a text, `process` appends
bytes to it, `finish` gives the digest, and `md5` the digits of the digest, after a `finish` of its
own if there was none. The context is of no use behind a `finish`, but the flag `finished` keeps
only `md5` away from it. So the calls are answered as those of the text are when no `process` or
`finish` comes between a digest and the next `init` (`serve_eq_replies`).

`finish` and `md5` return a pointer into the object or one that the caller gave; an answer is what
is found there.
-/

set_option autoImplicit false
set_option relaxedAutoImplicit false

namespace Katmai.Md5sum

open Foundation Misclib

/-- `struct md5sum_private_data_t`. -/
structure PrivateData where
  ctx : Md5Ctx
  md : List UInt8
  msg : List UInt8
  finished : Bool

/-- The calls of an object. -/
inductive Call
  | init
  | process (buf : List UInt8)
  | finish
  | md5

namespace PrivateData

/-- `md5sum_init`. -/
def init (self : PrivateData) : PrivateData :=
  { self with ctx := md5InitCtx self.ctx.buffer, finished := false }

/-- `md5sum_process_bytes`. -/
def process (self : PrivateData) (buf : List UInt8) : Option PrivateData := do
  let ctx ← md5ProcessBytes self.ctx buf
  return { self with ctx := ctx }

/-- `md5sum_finish`. -/
def finish (self : PrivateData) : Option PrivateData := do
  let (ctx, md) ← md5FinishCtx self.ctx
  return { self with ctx := ctx, md := md, finished := true }

end PrivateData

/-- A digit of `%x`. -/
def hexDigit (n : ℕ) : UInt8 :=
  UInt8.ofNat (if n < 10 then 48 + n else 87 + n)

/-- The digits of `%02x`. -/
def hexDigits (byte : UInt8) : List UInt8 :=
  [hexDigit (byte.toNat / 16), hexDigit (byte.toNat % 16)]

/-- `sprintf (&msg[j], "%02x", byte)`, which also writes the byte that ends the string. -/
def printByte (msg : List UInt8) (j : ℕ) (byte : UInt8) : Option (List UInt8) :=
  if j + 3 ≤ msg.length then
    some (msg.take j ++ (hexDigits byte ++ [0]) ++ msg.drop (j + 3))
  else none

/-- The loop of `md5sum_md5`. -/
def printBytes : List UInt8 → ℕ → List UInt8 → Option (List UInt8)
  | [], _, msg => some msg
  | byte :: rest, j, msg => (printByte msg j byte).bind (printBytes rest (j + 2))

/-- The string at the start of a memory. -/
def stringAt (msg : List UInt8) : List UInt8 :=
  msg.takeWhile (· ≠ 0)

/-- `md5sum_md5`. -/
def PrivateData.md5 (self : PrivateData) : Option PrivateData := do
  let self ← (if self.finished then some self else self.finish)
  let msg ← printBytes self.md 0 self.msg
  return { self with msg := msg }

/-- One call, with what is found at the pointer it returns. -/
def call (self : PrivateData) : Call → Option (Option (List UInt8) × PrivateData)
  | .init => some (none, self.init)
  | .process buf => (self.process buf).map fun self ↦ (none, self)
  | .finish => self.finish.map fun self ↦ (some self.md, self)
  | .md5 => self.md5.map fun self ↦ (some (stringAt self.msg), self)

/-- `new_md5sum`, over the memory as `malloc` gives it. -/
def newMd5sum (ctx : Md5Ctx) (md : List UInt8) (msg : { bytes : List UInt8 // bytes.length = 33 })
    (finished : Bool) : PrivateData :=
  PrivateData.init ⟨ctx, md, msg.val, finished⟩

/-! ### The text of an object -/

/-- The bytes since the last `init`, and whether their digest was asked for. -/
structure Text where
  bytes : List UInt8
  finished : Bool

def Text.call (text : Text) : Call → Option (List UInt8) × Text
  | .init => (none, ⟨[], false⟩)
  | .process buf => (none, ⟨text.bytes ++ buf, text.finished⟩)
  | .finish => (some (Misclib.md5 text.bytes), ⟨text.bytes, true⟩)
  | .md5 => (some ((Misclib.md5 text.bytes).flatMap hexDigits), ⟨text.bytes, true⟩)

/-- Between a digest and the next `init` there is no `process` and no `finish`; the length of a
piece is an `unsigned long` of 32 bits. -/
def Text.Allows (text : Text) : Call → Prop
  | .process buf => text.finished = false ∧ buf.length < 2 ^ 32
  | .finish => text.finished = false
  | _ => True

instance (text : Text) : ∀ c, Decidable (text.Allows c)
  | .init => .isTrue trivial
  | .process _ => inferInstanceAs (Decidable (_ ∧ _))
  | .finish => inferInstanceAs (Decidable (_ = _))
  | .md5 => .isTrue trivial

/-- An object holds a text in its context, or the digest of the text. -/
structure PrivateData.Holds (pd : PrivateData) (text : Text) : Prop where
  length_msg : pd.msg.length = 33
  finished_eq : pd.finished = text.finished
  waits : text.finished = false → pd.ctx.Waits text.bytes
  digest : text.finished = true → pd.md = Misclib.md5 text.bytes

/-! ### The digits -/

theorem hexDigit_ne_zero {n : ℕ} (hn : n < 16) : hexDigit n ≠ 0 := by
  have hall : ∀ n < 16, hexDigit n ≠ 0 := by decide
  exact hall n hn

theorem hexDigits_ne_zero (byte : UInt8) : ∀ digit ∈ hexDigits byte, digit ≠ 0 := by
  have hbyte : byte.toNat < 256 := byte.toNat_lt
  simp only [hexDigits, List.forall_mem_cons]
  exact ⟨hexDigit_ne_zero (by omega), hexDigit_ne_zero (by omega), fun _ h ↦ nomatch h⟩

theorem length_flatMap_hexDigits (md : List UInt8) :
    (md.flatMap hexDigits).length = 2 * md.length := by
  induction md with
  | nil => rfl
  | cons byte rest ih =>
    rw [List.flatMap_cons, List.length_append, ih, List.length_cons, Nat.mul_succ, Nat.add_comm]
    rfl

theorem stringAt_append {front : List UInt8} (hfront : ∀ byte ∈ front, byte ≠ 0)
    (rest : List UInt8) : stringAt (front ++ 0 :: rest) = front := by
  have hkept : ∀ byte ∈ front, decide (byte ≠ 0) = true :=
    fun byte h ↦ decide_eq_true (hfront byte h)
  rw [stringAt, List.takeWhile_append_of_pos hkept, List.takeWhile_cons_of_neg (by decide),
    List.append_nil]

/-- Each round writes over the end of the string that the round before it has written. -/
theorem printBytes_cons {byte : UInt8} {md : List UInt8} {j : ℕ} {msg : List UInt8}
    (hmsg : j + 2 * md.length + 3 ≤ msg.length) :
    printBytes (byte :: md) j msg =
      some (msg.take j ++ (byte :: md).flatMap hexDigits ++
        0 :: msg.drop (j + 2 * md.length + 3)) := by
  have hprint : printByte msg j byte =
      some (msg.take j ++ (hexDigits byte ++ [0]) ++ msg.drop (j + 3)) :=
    if_pos (by omega)
  rw [printBytes, hprint, Option.bind_some]
  induction md generalizing byte j msg with
  | nil =>
    rw [printBytes, List.flatMap_cons, List.flatMap_nil, List.append_nil, List.length_nil,
      Nat.mul_zero, Nat.add_zero]
    simp only [List.append_assoc, List.cons_append, List.nil_append]
  | cons next md ih =>
    rw [List.length_cons] at hmsg
    have hfront : (msg.take j ++ hexDigits byte).length = j + 2 := by
      rw [List.length_append, List.length_take, Nat.min_eq_left (by omega)]
      rfl
    have hsplit : msg.take j ++ (hexDigits byte ++ [0]) ++ msg.drop (j + 3) =
        (msg.take j ++ hexDigits byte) ++ 0 :: msg.drop (j + 3) := by
      simp only [List.append_assoc, List.cons_append, List.nil_append]
    generalize hmsg' : msg.take j ++ (hexDigits byte ++ [0]) ++ msg.drop (j + 3) = msg'
    have hlength : msg'.length = msg.length := by
      rw [← hmsg', hsplit, List.length_append, hfront, List.length_cons, List.length_drop]
      omega
    have htake : msg'.take (j + 2) = msg.take j ++ hexDigits byte := by
      rw [← hmsg', hsplit, ← hfront, List.take_left]
    have hdrop : msg'.drop (j + 2 + 2 * md.length + 3) =
        msg.drop (j + 2 * (next :: md).length + 3) := by
      rw [← hmsg', hsplit, List.drop_append, hfront, List.drop_eq_nil_of_le (by omega),
        List.nil_append, show j + 2 + 2 * md.length + 3 - (j + 2) = 2 * md.length + 2 + 1 by omega,
        List.drop_succ_cons, List.drop_drop, List.length_cons]
      congr 1
      omega
    have hprint' : printByte msg' (j + 2) next =
        some (msg'.take (j + 2) ++ (hexDigits next ++ [0]) ++ msg'.drop (j + 2 + 3)) :=
      if_pos (by omega)
    rw [printBytes, hprint', Option.bind_some, ih (by omega) hprint', htake, hdrop,
      List.flatMap_cons (x := byte), List.append_assoc (msg.take j)]

/-! ### The calls -/

variable {self : PrivateData} {text : Text}

theorem holds_init (hmsg : self.msg.length = 33) : self.init.Holds ⟨[], false⟩ :=
  ⟨hmsg, rfl, fun _ ↦ waits_md5InitCtx self.ctx.buffer, fun h ↦ nomatch h⟩

theorem holds_newMd5sum (ctx : Md5Ctx) (md : List UInt8)
    (msg : { bytes : List UInt8 // bytes.length = 33 }) (finished : Bool) :
    (newMd5sum ctx md msg finished).Holds ⟨[], false⟩ :=
  holds_init msg.property

theorem PrivateData.Holds.process (h : self.Holds text) (hopen : text.finished = false)
    {buf : List UInt8} (hbuf : buf.length < 2 ^ 32) :
    ∃ self', self.process buf = some self' ∧ self'.Holds ⟨text.bytes ++ buf, text.finished⟩ := by
  obtain ⟨ctx, hprocess, hwaits⟩ := (h.waits hopen).processBytes hbuf
  refine ⟨{ self with ctx := ctx }, ?_, h.length_msg, h.finished_eq, fun _ ↦ hwaits, ?_⟩
  · rw [PrivateData.process, hprocess]
    rfl
  · exact fun hfinished ↦ absurd (hopen.symm.trans hfinished) Bool.false_ne_true

theorem PrivateData.Holds.finish (h : self.Holds text) (hopen : text.finished = false) :
    ∃ self', self.finish = some self' ∧ self'.md = Misclib.md5 text.bytes ∧
      self'.Holds ⟨text.bytes, true⟩ := by
  obtain ⟨ctx, hfinish⟩ := (h.waits hopen).finish
  refine ⟨{ self with ctx := ctx, md := Misclib.md5 text.bytes, finished := true }, ?_, rfl,
    h.length_msg, rfl, (fun h ↦ nomatch h), fun _ ↦ rfl⟩
  rw [PrivateData.finish, hfinish]
  rfl

/-- The object has a digest, its own or after `finish`, and prints it. -/
theorem PrivateData.Holds.md5 (h : self.Holds text) :
    ∃ self', self.md5 = some self' ∧
      stringAt self'.msg = (Misclib.md5 text.bytes).flatMap hexDigits ∧
      self'.Holds ⟨text.bytes, true⟩ := by
  obtain ⟨ready, hready, hmd, hholds⟩ : ∃ ready : PrivateData,
      (if self.finished then some self else self.finish) = some ready ∧
        ready.md = Misclib.md5 text.bytes ∧ ready.Holds ⟨text.bytes, true⟩ := by
    cases hfinished : text.finished with
    | false =>
      obtain ⟨self', hfinish, hmd, hholds⟩ := h.finish hfinished
      exact ⟨self', by rw [h.finished_eq, hfinished, if_neg Bool.false_ne_true, hfinish], hmd,
        hholds⟩
    | true =>
      refine ⟨self, by rw [h.finished_eq, hfinished, if_pos rfl], h.digest hfinished,
        h.length_msg, h.finished_eq.trans hfinished, (fun h ↦ nomatch h),
        fun _ ↦ h.digest hfinished⟩
  have hlength : ready.md.length = 16 := by rw [hmd, length_md5]
  obtain ⟨byte, rest, hcons⟩ := List.exists_cons_of_length_pos (by omega : 0 < ready.md.length)
  have hrest : rest.length = 15 := by
    rw [hcons, List.length_cons] at hlength
    omega
  have hprint : printBytes (byte :: rest) 0 ready.msg =
      some (ready.msg.take 0 ++ (byte :: rest).flatMap hexDigits ++
        0 :: ready.msg.drop (0 + 2 * rest.length + 3)) :=
    printBytes_cons (by rw [hrest, hholds.length_msg])
  rw [← hcons, List.take_zero, List.nil_append] at hprint
  generalize hmsg : ready.md.flatMap hexDigits ++ 0 :: ready.msg.drop (0 + 2 * rest.length + 3) =
    msg at hprint
  refine ⟨{ ready with msg := msg }, ?_, ?_, ?_, hholds.finished_eq, hholds.waits, hholds.digest⟩
  · rw [PrivateData.md5, hready]
    simp only [Option.bind_eq_bind, Option.bind_some, hprint, Option.pure_def]
  · rw [← hmsg, stringAt_append, hmd]
    exact fun digit hdigit ↦ (List.mem_flatMap.mp hdigit).elim fun byte hbyte ↦
      hexDigits_ne_zero byte digit hbyte.2
  · rw [← hmsg]
    simp only [List.length_append, length_flatMap_hexDigits, List.length_cons, List.length_drop,
      hholds.length_msg, hlength, hrest]

/-- One call. -/
theorem PrivateData.Holds.call (h : self.Holds text) {c : Call} (hc : text.Allows c) :
    ∃ self', Md5sum.call self c = some ((text.call c).1, self') ∧ self'.Holds (text.call c).2 := by
  cases c with
  | init => exact ⟨self.init, rfl, holds_init h.length_msg⟩
  | process buf =>
    obtain ⟨self', hprocess, hholds⟩ := h.process hc.1 hc.2
    exact ⟨self', by rw [Md5sum.call, hprocess, Option.map_some]; rfl, hholds⟩
  | finish =>
    obtain ⟨self', hfinish, hmd, hholds⟩ := h.finish hc
    exact ⟨self', by rw [Md5sum.call, hfinish, Option.map_some, hmd]; rfl, hholds⟩
  | md5 =>
    obtain ⟨self', hmd5, hstring, hholds⟩ := h.md5
    exact ⟨self', by rw [Md5sum.call, hmd5, Option.map_some, hstring]; rfl, hholds⟩

theorem PrivateData.Holds.serve (h : self.Holds text) {calls : List Call}
    (hcalls : Along Text.call Text.Allows text calls) :
    ∃ self', Foundation.serve Md5sum.call self calls =
        some ((replies Text.call text calls).1, self') ∧
      self'.Holds (replies Text.call text calls).2 := by
  have hstep (self : PrivateData) (text : Text) (c : Call) (h : self.Holds text)
      (hc : text.Allows c) :
      ∃ self', Md5sum.call self c = some ((text.call c).1, self') ∧ self'.Holds (text.call c).2 :=
    h.call hc
  exact serve_of_along hstep h hcalls

/-- MD5 as the digest of a file exchange. -/
def md5Digest : MiniFilexchg.Digest where
  sum := Misclib.md5
  length_sum := length_md5

theorem along_process (bytes : List UInt8) {pieces : List (List UInt8)}
    (hpieces : ∀ piece ∈ pieces, piece.length < 2 ^ 32) :
    Along Text.call Text.Allows ⟨bytes, false⟩ (pieces.map Call.process ++ [.finish]) := by
  induction pieces generalizing bytes with
  | nil => exact ⟨rfl, trivial⟩
  | cons piece rest ih =>
    obtain ⟨hpiece, hrest⟩ := List.forall_mem_cons.mp hpieces
    exact ⟨⟨rfl, hpiece⟩, ih (bytes ++ piece) hrest⟩

theorem replies_process (bytes : List UInt8) (pieces : List (List UInt8)) :
    (replies Text.call ⟨bytes, false⟩ (pieces.map Call.process ++ [.finish])).1 =
      pieces.map (fun _ ↦ none) ++ [some (Misclib.md5 (bytes ++ pieces.flatten))] := by
  induction pieces generalizing bytes with
  | nil => rw [List.flatten_nil, List.append_nil]; rfl
  | cons piece rest ih =>
    rw [List.map_cons, List.cons_append, replies, List.flatten_cons, ← List.append_assoc]
    exact congrArg (none :: ·) (ih (bytes ++ piece))

/-- A file exchange gives a new object the pieces it reads or writes, and asks for the digest. -/
theorem serve_md5Digest (ctx : Md5Ctx) (md : List UInt8)
    (msg : { bytes : List UInt8 // bytes.length = 33 }) (finished : Bool)
    {pieces : List (List UInt8)} (hpieces : ∀ piece ∈ pieces, piece.length < 2 ^ 32) :
    ∃ self, serve call (newMd5sum ctx md msg finished) (pieces.map Call.process ++ [.finish]) =
      some (pieces.map (fun _ ↦ none) ++ [some (md5Digest.sum pieces.flatten)], self) := by
  obtain ⟨self, hserve, -⟩ :=
    (holds_newMd5sum ctx md msg finished).serve (along_process [] hpieces)
  refine ⟨self, ?_⟩
  rw [replies_process, List.nil_append] at hserve
  exact hserve

end Katmai.Md5sum
