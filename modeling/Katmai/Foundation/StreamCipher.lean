import Mathlib.Data.List.Basic
import Mathlib.Logic.Function.Iterate

/-!
# Stream ciphers over memory

A stream cipher is given by a state and a function `next` that yields one keystream byte and the
following state. `crypt` exclusive-ors a text with the keystream from a state on. A text given in
pieces is crypted piece by piece (`crypt_append`), with the state advanced by the length of what
came before, and crypting twice gives the text back (`crypt_crypt`).

Code reads the text through one pointer and writes it through another, a byte at a time, and the
two areas may overlap. `cryptStep` is one byte of such a loop. As long as no byte is written before
it is read (`cryptStep_iterate_bytesAt`), the bytes written are those of `crypt`, and nothing else
in memory changes (`cryptStep_iterate_mem`). Writing at or below the place read from within one
area is such a case (`writesBehind_of_offset_le`), and so are two different areas
(`writesBehind_of_region_ne`).
-/

set_option autoImplicit false
set_option relaxedAutoImplicit false

namespace Katmai.Foundation

/-! ### The keystream -/

section Keystream

variable {σ : Type} (next : σ → UInt8 × σ)

/-- The cipher state after a number of keystream bytes. -/
def advance (state : σ) (count : ℕ) : σ :=
  (fun s ↦ (next s).2)^[count] state

/-- The text exclusive-or the keystream from a state on. -/
def crypt : σ → List UInt8 → List UInt8
  | _, [] => []
  | state, b :: text => ((next state).1 ^^^ b) :: crypt (next state).2 text

theorem advance_succ (state : σ) (count : ℕ) :
    advance next state (count + 1) = (next (advance next state count)).2 :=
  Function.iterate_succ_apply' _ _ _

theorem advance_add (state : σ) (m n : ℕ) :
    advance next (advance next state m) n = advance next state (m + n) := by
  rw [advance, advance, ← Function.iterate_add_apply, Nat.add_comm]
  rfl

@[simp] theorem length_crypt (state : σ) (text : List UInt8) :
    (crypt next state text).length = text.length := by
  induction text generalizing state with
  | nil => rfl
  | cons b text ih => exact congrArg (· + 1) (ih (next state).2)

/-- A text in two pieces is crypted piece by piece. -/
theorem crypt_append (state : σ) (front rest : List UInt8) :
    crypt next state (front ++ rest) =
      crypt next state front ++ crypt next (advance next state front.length) rest := by
  induction front generalizing state with
  | nil => rfl
  | cons b front ih => exact congrArg (_ :: ·) (ih (next state).2)

/-- Crypting twice from the same state gives the text back. -/
theorem crypt_crypt (state : σ) (text : List UInt8) :
    crypt next state (crypt next state text) = text := by
  induction text generalizing state with
  | nil => rfl
  | cons b text ih =>
    rw [crypt, crypt, ih, ← UInt8.xor_assoc, UInt8.xor_self, UInt8.zero_xor]

end Keystream

/-! ### Bytes in memory -/

/-- An address: an area of memory and an offset into it. -/
structure Pointer (ρ : Type) where
  region : ρ
  offset : ℕ
deriving DecidableEq

namespace Pointer

variable {ρ : Type}

/-- The address a number of bytes further on. -/
def add (p : Pointer ρ) (n : ℕ) : Pointer ρ :=
  { p with offset := p.offset + n }

@[simp] theorem add_zero (p : Pointer ρ) : p.add 0 = p :=
  rfl

@[simp] theorem add_add (p : Pointer ρ) (m n : ℕ) : (p.add m).add n = p.add (m + n) := by
  rw [add, add, add, Nat.add_assoc]

/-- Counting from the start of an area. -/
theorem start_add (r : ρ) (n : ℕ) : add ⟨r, 0⟩ n = ⟨r, n⟩ :=
  congrArg (mk r) (Nat.zero_add n)

theorem add_injective (p : Pointer ρ) : Function.Injective p.add :=
  fun _ _ h ↦ Nat.add_left_cancel (congrArg offset h)

end Pointer

section Memory

variable {ρ : Type}

/-- The bytes from an address on. -/
def bytesAt (mem : Pointer ρ → UInt8) (p : Pointer ρ) (n : ℕ) : List UInt8 :=
  (List.range n).map fun i ↦ mem (p.add i)

@[simp] theorem length_bytesAt (mem : Pointer ρ → UInt8) (p : Pointer ρ) (n : ℕ) :
    (bytesAt mem p n).length = n := by
  rw [bytesAt, List.length_map, List.length_range]

theorem bytesAt_succ (mem : Pointer ρ → UInt8) (p : Pointer ρ) (n : ℕ) :
    bytesAt mem p (n + 1) = bytesAt mem p n ++ [mem (p.add n)] := by
  rw [bytesAt, List.range_succ, List.map_append]
  rfl

theorem bytesAt_add (mem : Pointer ρ → UInt8) (p : Pointer ρ) (m n : ℕ) :
    bytesAt mem p (m + n) = bytesAt mem p m ++ bytesAt mem (p.add m) n := by
  induction n with
  | zero => exact (List.append_nil _).symm
  | succ n ih => rw [← Nat.add_assoc, bytesAt_succ, ih, bytesAt_succ, List.append_assoc, p.add_add]

theorem take_bytesAt (mem : Pointer ρ → UInt8) (p : Pointer ρ) {m n : ℕ} (h : m ≤ n) :
    (bytesAt mem p n).take m = bytesAt mem p m := by
  rw [← Nat.add_sub_of_le h, bytesAt_add, List.take_left' (length_bytesAt mem p m)]

theorem drop_bytesAt (mem : Pointer ρ → UInt8) (p : Pointer ρ) (m n : ℕ) :
    (bytesAt mem p n).drop m = bytesAt mem (p.add m) (n - m) := by
  rcases Nat.le_total m n with h | h
  · conv_lhs => rw [← Nat.add_sub_of_le h, bytesAt_add]
    exact List.drop_left' (length_bytesAt mem p m)
  · rw [Nat.sub_eq_zero_of_le h, List.drop_of_length_le (by rwa [length_bytesAt])]
    rfl

theorem bytesAt_congr {mem mem' : Pointer ρ → UInt8} {p q : Pointer ρ} {n : ℕ}
    (h : ∀ i < n, mem' (q.add i) = mem (p.add i)) : bytesAt mem' q n = bytesAt mem p n :=
  List.map_congr_left fun i hi ↦ h i (List.mem_range.mp hi)

/-- A byte of an area whose bytes are known. -/
theorem mem_eq_getD_of_bytesAt {mem : Pointer ρ → UInt8} {r : ρ} {n : ℕ} {bytes : List UInt8}
    (h : bytesAt mem ⟨r, 0⟩ n = bytes) {i : ℕ} (hi : i < n) (d : UInt8) :
    mem ⟨r, i⟩ = bytes.getD i d := by
  rw [← h, bytesAt, List.getD_eq_getElem?_getD, List.getElem?_map, List.getElem?_range hi]
  exact congrArg mem (Pointer.start_add r i).symm

/-- Copies bytes to an area that does not hold them. -/
def memcpy [DecidableEq ρ] (mem : Pointer ρ → UInt8) (dest source : Pointer ρ) (n : ℕ) :
    Pointer ρ → UInt8 :=
  fun p ↦ if p.region = dest.region ∧ dest.offset ≤ p.offset ∧ p.offset < dest.offset + n then
    mem (source.add (p.offset - dest.offset)) else mem p

variable [DecidableEq ρ]

/-- The bytes copied. -/
theorem memcpy_add (mem : Pointer ρ → UInt8) (dest source : Pointer ρ) {n i : ℕ} (hi : i < n) :
    memcpy mem dest source n (dest.add i) = mem (source.add i) := by
  rw [memcpy, if_pos ⟨rfl, Nat.le_add_right _ _, Nat.add_lt_add_left hi _⟩]
  exact congrArg (fun k ↦ mem (source.add k)) (Nat.add_sub_cancel_left _ _)

/-- Addresses below the place copied to keep their bytes. -/
theorem memcpy_of_offset_lt (mem : Pointer ρ → UInt8) (dest source p : Pointer ρ) (n : ℕ)
    (h : p.offset < dest.offset) : memcpy mem dest source n p = mem p :=
  if_neg fun hp ↦ Nat.not_le_of_lt h hp.2.1

/-- Other areas keep their bytes. -/
theorem memcpy_of_region_ne (mem : Pointer ρ → UInt8) (dest source p : Pointer ρ) (n : ℕ)
    (h : p.region ≠ dest.region) : memcpy mem dest source n p = mem p :=
  if_neg fun hp ↦ h hp.1

/-- Copying behind the first bytes of an area appends to them. -/
theorem bytesAt_memcpy (mem : Pointer ρ → UInt8) (r : ρ) (source : Pointer ρ) (k n : ℕ) :
    bytesAt (memcpy mem ⟨r, k⟩ source n) ⟨r, 0⟩ (k + n) =
      bytesAt mem ⟨r, 0⟩ k ++ bytesAt mem source n := by
  rw [bytesAt_add, Pointer.start_add]
  congr 1
  · refine bytesAt_congr fun i hi ↦ memcpy_of_offset_lt _ _ _ _ _ ?_
    rw [Pointer.start_add]
    exact hi
  · exact bytesAt_congr fun i hi ↦ memcpy_add _ _ _ hi

end Memory

/-! ### Crypting from one place to another -/

/-- What a cipher loop works on: the cipher state, the memory, and the addresses of the next byte
to read and of the next to write. -/
structure CryptState (σ ρ : Type) where
  cipher : σ
  mem : Pointer ρ → UInt8
  indata : Pointer ρ
  outdata : Pointer ρ

section CryptStep

variable {σ ρ : Type}

/-- In a loop over a number of bytes, no byte is written before it is read. -/
def WritesBehind (s : CryptState σ ρ) (n : ℕ) : Prop :=
  ∀ i j, i < j → j < n → s.outdata.add i ≠ s.indata.add j

/-- Writing over the bytes read, or below them. -/
theorem writesBehind_of_offset_le (s : CryptState σ ρ) (n : ℕ)
    (h : s.outdata.offset ≤ s.indata.offset) : WritesBehind s n := by
  intro i j hij _ heq
  have hoffset : s.outdata.offset + i = s.indata.offset + j := congrArg Pointer.offset heq
  exact absurd hoffset (by omega)

/-- Writing to another area. -/
theorem writesBehind_of_region_ne (s : CryptState σ ρ) (n : ℕ)
    (h : s.outdata.region ≠ s.indata.region) : WritesBehind s n := by
  intro i j _ _ heq
  have hregion : (s.outdata.add i).region = (s.indata.add j).region := congrArg _ heq
  exact h hregion

variable [DecidableEq ρ] (next : σ → UInt8 × σ)

/-- One byte of the loop. -/
def cryptStep (s : CryptState σ ρ) : CryptState σ ρ where
  cipher := (next s.cipher).2
  mem := Function.update s.mem s.outdata ((next s.cipher).1 ^^^ s.mem s.indata)
  indata := s.indata.add 1
  outdata := s.outdata.add 1

@[simp] theorem cryptStep_iterate_cipher (s : CryptState σ ρ) (n : ℕ) :
    ((cryptStep next)^[n] s).cipher = advance next s.cipher n := by
  induction n with
  | zero => rfl
  | succ n ih => rw [Function.iterate_succ_apply', cryptStep, ih, advance_succ]

theorem cryptStep_iterate_indata (s : CryptState σ ρ) (n : ℕ) :
    ((cryptStep next)^[n] s).indata = s.indata.add n := by
  induction n with
  | zero => rfl
  | succ n ih => rw [Function.iterate_succ_apply', cryptStep, ih, Pointer.add_add]

theorem cryptStep_iterate_outdata (s : CryptState σ ρ) (n : ℕ) :
    ((cryptStep next)^[n] s).outdata = s.outdata.add n := by
  induction n with
  | zero => rfl
  | succ n ih => rw [Function.iterate_succ_apply', cryptStep, ih, Pointer.add_add]

/-- The memory after one byte more. -/
theorem cryptStep_iterate_succ_mem (s : CryptState σ ρ) (n : ℕ) :
    ((cryptStep next)^[n + 1] s).mem =
      Function.update ((cryptStep next)^[n] s).mem (s.outdata.add n)
        ((next (advance next s.cipher n)).1 ^^^ ((cryptStep next)^[n] s).mem (s.indata.add n)) := by
  rw [Function.iterate_succ_apply', cryptStep, cryptStep_iterate_cipher,
    cryptStep_iterate_indata, cryptStep_iterate_outdata]

/-- The loop changes only the bytes it writes. -/
theorem cryptStep_iterate_mem (s : CryptState σ ρ) (n : ℕ) (p : Pointer ρ)
    (hp : ∀ i < n, p ≠ s.outdata.add i) : ((cryptStep next)^[n] s).mem p = s.mem p := by
  induction n with
  | zero => rfl
  | succ n ih =>
    rw [cryptStep_iterate_succ_mem, Function.update_of_ne (hp n n.lt_succ_self)]
    exact ih fun i hi ↦ hp i (Nat.lt_succ_of_lt hi)

/-- The loop writes the crypted text. -/
theorem cryptStep_iterate_bytesAt (s : CryptState σ ρ) (n : ℕ) (hbehind : WritesBehind s n) :
    bytesAt ((cryptStep next)^[n] s).mem s.outdata n =
      crypt next s.cipher (bytesAt s.mem s.indata n) := by
  induction n with
  | zero => rfl
  | succ n ih =>
    have hread : ((cryptStep next)^[n] s).mem (s.indata.add n) = s.mem (s.indata.add n) :=
      cryptStep_iterate_mem next s n _ fun i hi ↦ (hbehind i n hi n.lt_succ_self).symm
    have hfront : bytesAt ((cryptStep next)^[n + 1] s).mem s.outdata n =
        bytesAt ((cryptStep next)^[n] s).mem s.outdata n := by
      refine bytesAt_congr fun i hi ↦ ?_
      rw [cryptStep_iterate_succ_mem]
      exact Function.update_of_ne (fun h ↦ Nat.ne_of_lt hi (s.outdata.add_injective h)) _ _
    have hlast : ((cryptStep next)^[n + 1] s).mem (s.outdata.add n) =
        (next (advance next s.cipher n)).1 ^^^ s.mem (s.indata.add n) := by
      rw [cryptStep_iterate_succ_mem, Function.update_self, hread]
    rw [bytesAt_succ, bytesAt_succ, hfront, hlast, crypt_append, length_bytesAt,
      ih fun i j hij hj ↦ hbehind i j hij (Nat.lt_succ_of_lt hj)]
    rfl

end CryptStep

end Katmai.Foundation
