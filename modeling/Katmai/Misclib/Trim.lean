import Katmai.Foundation.TextLines

/-!
# Trimming

`chomp`, `rtrim`, `ltrim` and `strip_dos_eof` of `misclib`. A buffer is the string in it; the
functions return its length, which the list has as well.
-/

set_option autoImplicit false
set_option relaxedAutoImplicit false

namespace Katmai.Misclib

open Foundation

def isLineEnd (c : Char) : Bool :=
  c == '\r' || c == '\n'

def isBlank (c : Char) : Bool :=
  c == ' ' || c == '\t'

/-- `chomp` -/
def chomp (buffer : List Char) : List Char :=
  trimRight isLineEnd buffer buffer.length

/-- `rtrim` -/
def rtrim (buffer : List Char) : List Char :=
  trimRight isBlank buffer buffer.length

/-- The first loop of `ltrim`: the index of the first character that is no blank. -/
def firstNonBlank : List Char → ℕ
  | [] => 0
  | c :: buffer => if isBlank c then firstNonBlank buffer + 1 else 0

/-- `ltrim`: what is left is moved to the front. -/
def ltrim (buffer : List Char) : List Char :=
  let i := firstNonBlank buffer
  if i > 0 then buffer.drop i else buffer

/-- `strip_dos_eof` -/
def stripDosEof (buffer : List Char) : List Char :=
  if buffer.getLast? = some '\x1a' then buffer.dropLast else buffer

theorem chomp_eq (buffer : List Char) : chomp buffer = buffer.rdropWhile isLineEnd :=
  trimRight_eq_rdropWhile isLineEnd buffer

theorem rtrim_eq (buffer : List Char) : rtrim buffer = buffer.rdropWhile isBlank :=
  trimRight_eq_rdropWhile isBlank buffer

theorem ltrim_eq (buffer : List Char) : ltrim buffer = buffer.dropWhile isBlank := by
  have hdrop (buffer : List Char) :
      buffer.drop (firstNonBlank buffer) = buffer.dropWhile isBlank := by
    induction buffer with
    | nil => rfl
    | cons c buffer ih =>
      cases hc : isBlank c with
      | true =>
        rw [firstNonBlank, if_pos hc, List.drop_succ_cons, ih, List.dropWhile_cons_of_pos hc]
      | false =>
        rw [firstNonBlank, if_neg (by simp [hc]), List.drop_zero,
          List.dropWhile_cons_of_neg (by simp [hc])]
  rw [ltrim]
  split_ifs with hpos
  · exact hdrop buffer
  · rw [← hdrop, Nat.eq_zero_of_not_pos hpos, List.drop_zero]

/-- A string that does not end in a character of the class. -/
theorem rdropWhile_concat_of_not {drops : Char → Bool} {c : Char} (hc : drops c = false)
    (buffer : List Char) : (buffer ++ [c]).rdropWhile drops = buffer ++ [c] :=
  List.rdropWhile_concat_neg _ _ _ (by simp [hc])

end Katmai.Misclib
