import Mathlib.Data.List.Basic
import Mathlib.Data.Vector.Basic
import Mathlib.Logic.Equiv.Defs
import Mathlib.Tactic.Common

/-!
# Packed structures in memory

A packed structure is its fields one behind another, with no gap: every byte pattern of the right
length is a value, and every value has one byte pattern. A `Layout` is such a correspondence. There
is one for a byte (`Layout.byte`), for two layouts behind each other (`Layout.pair`), for little
endian words (`Layout.word`), for arrays (`Layout.array`) and for a type that is the same as another
(`Layout.map`); a structure is a `map` of nested pairs.

A `read` that delivers fewer bytes than the structure has overwrites the front of its memory
(`overlay`); one that delivers all of them leaves the value that the bytes are
(`Layout.decode_overlay`).
-/

set_option autoImplicit false
set_option relaxedAutoImplicit false

namespace Katmai.Foundation

/-- The values of a type and the byte patterns of one length correspond. -/
structure Layout (α : Type*) where
  size : ℕ
  encode : α → List UInt8
  decode : List UInt8 → α
  length_encode : ∀ x, (encode x).length = size
  decode_encode : ∀ x, decode (encode x) = x
  encode_decode : ∀ bytes, bytes.length = size → encode (decode bytes) = bytes

/-- What reading the bytes into memory leaves there. -/
def overlay (memory bytes : List UInt8) : List UInt8 :=
  bytes ++ memory.drop bytes.length

namespace Layout

variable {α β : Type*}

@[simp] theorem take_encode_append (layout : Layout α) (x : α) (rest : List UInt8) :
    (layout.encode x ++ rest).take layout.size = layout.encode x := by
  rw [← layout.length_encode x, List.take_left]

@[simp] theorem drop_encode_append (layout : Layout α) (x : α) (rest : List UInt8) :
    (layout.encode x ++ rest).drop layout.size = rest := by
  rw [← layout.length_encode x, List.drop_left]

/-- Bytes of the whole structure leave the value that they are, whatever was in memory. -/
theorem decode_overlay (layout : Layout α) (before x : α) :
    layout.decode (overlay (layout.encode before) (layout.encode x)) = x := by
  have hlength : (layout.encode before).length ≤ (layout.encode x).length := by
    rw [layout.length_encode, layout.length_encode]
  rw [overlay, List.drop_eq_nil_of_le hlength, List.append_nil, layout.decode_encode]

/-- One byte. -/
def byte : Layout (BitVec 8) where
  size := 1
  encode x := [UInt8.ofBitVec x]
  decode bytes := (bytes.headD 0).toBitVec
  length_encode _ := rfl
  decode_encode _ := rfl
  encode_decode bytes hlength := by
    obtain ⟨b, rfl⟩ := List.length_eq_one_iff.mp hlength
    rfl

/-- Two structures behind each other. -/
def pair (first : Layout α) (second : Layout β) : Layout (α × β) where
  size := first.size + second.size
  encode x := first.encode x.1 ++ second.encode x.2
  decode bytes := (first.decode (bytes.take first.size), second.decode (bytes.drop first.size))
  length_encode x := by rw [List.length_append, first.length_encode, second.length_encode]
  decode_encode x := by
    rw [take_encode_append, drop_encode_append, first.decode_encode, second.decode_encode]
  encode_decode bytes hlength := by
    rw [first.encode_decode, second.encode_decode, List.take_append_drop]
    · rw [List.length_drop, hlength, Nat.add_sub_cancel_left]
    · rw [List.length_take, hlength, Nat.min_eq_left (Nat.le_add_right _ _)]

/-- The layout of a type that corresponds to another one. -/
def map (layout : Layout α) (e : α ≃ β) : Layout β where
  size := layout.size
  encode x := layout.encode (e.symm x)
  decode bytes := e (layout.decode bytes)
  length_encode x := layout.length_encode _
  decode_encode x := by rw [layout.decode_encode, e.apply_symm_apply]
  encode_decode bytes hlength := by rw [e.symm_apply_apply, layout.encode_decode bytes hlength]

/-- A low and a high half are a word. -/
def halves (m n : ℕ) : BitVec m × BitVec n ≃ BitVec (n + m) where
  toFun x := x.2 ++ x.1
  invFun w := (w.extractLsb' 0 m, w.extractLsb' m n)
  left_inv x := by
    refine Prod.ext ?_ ?_
    · ext i hi
      rw [BitVec.getElem_extractLsb', Nat.zero_add, BitVec.getLsbD_append, if_pos hi,
        BitVec.getLsbD_eq_getElem hi]
    · ext i hi
      rw [BitVec.getElem_extractLsb', BitVec.getLsbD_append, if_neg (by omega),
        Nat.add_sub_cancel_left, BitVec.getLsbD_eq_getElem hi]
  right_inv w := by
    ext i hi
    simp only [BitVec.getElem_append, BitVec.getElem_extractLsb']
    split
    · simp [BitVec.getLsbD_eq_getElem hi]
    · next hlow => simp [Nat.add_sub_cancel' (Nat.le_of_not_lt hlow), BitVec.getLsbD_eq_getElem hi]

/-- A word with its low half first. -/
def word {m n : ℕ} (low : Layout (BitVec m)) (high : Layout (BitVec n)) : Layout (BitVec (n + m)) :=
  (low.pair high).map (halves m n)

/-- The values of `n` structures behind each other. -/
def decodeAll (layout : Layout α) : ℕ → List UInt8 → List α
  | 0, _ => []
  | n + 1, bytes =>
    layout.decode (bytes.take layout.size) :: decodeAll layout n (bytes.drop layout.size)

theorem length_decodeAll (layout : Layout α) (n : ℕ) (bytes : List UInt8) :
    (layout.decodeAll n bytes).length = n := by
  induction n generalizing bytes with
  | zero => rfl
  | succ n ih => rw [decodeAll, List.length_cons, ih]

theorem length_flatMap_encode (layout : Layout α) (xs : List α) :
    (xs.flatMap layout.encode).length = xs.length * layout.size := by
  induction xs with
  | nil => rw [List.flatMap_nil, List.length_nil, List.length_nil, Nat.zero_mul]
  | cons x xs ih =>
    rw [List.flatMap_cons, List.length_append, ih, layout.length_encode, List.length_cons,
      Nat.succ_mul, Nat.add_comm]

theorem decodeAll_flatMap (layout : Layout α) (xs : List α) (rest : List UInt8) :
    layout.decodeAll xs.length (xs.flatMap layout.encode ++ rest) = xs := by
  induction xs with
  | nil => rfl
  | cons x xs ih =>
    rw [List.length_cons, decodeAll, List.flatMap_cons, List.append_assoc, take_encode_append,
      drop_encode_append, layout.decode_encode, ih]

theorem flatMap_decodeAll (layout : Layout α) (n : ℕ) {bytes : List UInt8}
    (hlength : bytes.length = n * layout.size) :
    (layout.decodeAll n bytes).flatMap layout.encode = bytes := by
  induction n generalizing bytes with
  | zero => rw [List.length_eq_zero_iff.mp (hlength.trans (Nat.zero_mul _))]; rfl
  | succ n ih =>
    rw [Nat.succ_mul] at hlength
    rw [decodeAll, List.flatMap_cons, layout.encode_decode, ih, List.take_append_drop]
    · rw [List.length_drop, hlength, Nat.add_sub_cancel]
    · rw [List.length_take, hlength, Nat.min_eq_left (Nat.le_add_left _ _)]

/-- An array. -/
def array (layout : Layout α) (n : ℕ) : Layout (List.Vector α n) where
  size := n * layout.size
  encode xs := xs.val.flatMap layout.encode
  decode bytes := ⟨layout.decodeAll n bytes, layout.length_decodeAll n bytes⟩
  length_encode xs := by rw [length_flatMap_encode, xs.property]
  decode_encode xs := by
    obtain ⟨xs, rfl⟩ := xs
    refine Subtype.ext ?_
    have hall := layout.decodeAll_flatMap xs []
    rwa [List.append_nil] at hall
  encode_decode _ hlength := layout.flatMap_decodeAll n hlength

end Layout

end Katmai.Foundation
