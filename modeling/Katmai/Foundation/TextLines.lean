import Mathlib.Data.List.DropRight
import Mathlib.Data.List.Infix
import Mathlib.Data.Nat.Notation
import Mathlib.Tactic.Common

/-!
# Lines of a text

`textLines` splits a text into its lines, each with its line end. `fgetsLines` is what a program
gets that reads the text into a buffer of a fixed size; where no line is too long for the buffer, it
gets the lines (`fgetsLines_eq`). `trimRight` cuts off trailing characters of a class.
-/

set_option autoImplicit false
set_option relaxedAutoImplicit false

namespace Katmai.Foundation

variable {line rest text : List Char} {size n fuel : ℕ} {c : Char}

/-! ### Lines -/

/-- The lines of a text with their line ends; the last line may have none. -/
def textLines : List Char → List (List Char)
  | [] => []
  | c :: text =>
    if c = '\n' then [c] :: textLines text
    else
      match textLines text with
      | [] => [[c]]
      | line :: lines => (c :: line) :: lines

/-- What one call of `fgets` reads into a buffer with room for `n` characters, and what is left. -/
def fgetsLine : ℕ → List Char → List Char × List Char
  | 0, text => ([], text)
  | _ + 1, [] => ([], [])
  | n + 1, c :: text =>
    if c = '\n' then ([c], text) else (c :: (fgetsLine n text).1, (fgetsLine n text).2)

/-- The results of up to `fuel` calls, up to the end of the text. -/
def fgetsCalls (n : ℕ) : ℕ → List Char → List (List Char)
  | 0, _ => []
  | _, [] => []
  | fuel + 1, c :: text =>
    (fgetsLine n (c :: text)).1 :: fgetsCalls n fuel (fgetsLine n (c :: text)).2

/-- The results of all calls of `fgets (buffer, size, fp)` that are not `NULL`. -/
def fgetsLines (size : ℕ) (text : List Char) : List (List Char) :=
  fgetsCalls (size - 1) text.length text

/-- A string in a buffer ends at the first zero. -/
def cString (buffer : List Char) : List Char :=
  buffer.takeWhile (· != '\x00')

theorem cString_eq_self (hline : '\x00' ∉ line) : cString line = line := by
  refine List.takeWhile_eq_self_iff.mpr fun c hc ↦ bne_iff_ne.mpr ?_
  rintro rfl
  exact hline hc

theorem textLines_newline (text : List Char) :
    textLines ('\n' :: text) = ['\n'] :: textLines text := by
  rw [textLines, if_pos rfl]

/-- A line with its line end. -/
theorem textLines_line (hline : '\n' ∉ line) (rest : List Char) :
    textLines (line ++ '\n' :: rest) = (line ++ ['\n']) :: textLines rest := by
  induction line with
  | nil => exact textLines_newline rest
  | cons c line ih =>
    have hc : c ≠ '\n' := fun h ↦ hline (h ▸ List.mem_cons_self)
    rw [List.cons_append, textLines, if_neg hc, ih fun h ↦ hline (List.mem_cons_of_mem _ h)]
    rfl

/-- The last line, without a line end. -/
theorem textLines_last (hline : '\n' ∉ line) (hne : line ≠ []) : textLines line = [line] := by
  induction line with
  | nil => exact absurd rfl hne
  | cons c line ih =>
    have hc : c ≠ '\n' := fun h ↦ hline (h ▸ List.mem_cons_self)
    rw [textLines, if_neg hc]
    cases line with
    | nil => rfl
    | cons d line =>
      rw [ih (fun h ↦ hline (List.mem_cons_of_mem _ h)) (List.cons_ne_nil _ _)]

/-- The lines hold all of the text. -/
theorem flatten_textLines (text : List Char) : (textLines text).flatten = text := by
  induction text with
  | nil => rfl
  | cons c text ih =>
    rw [textLines]
    split_ifs with hc
    · rw [List.flatten_cons, ih]
      rfl
    · cases hrest : textLines text with
      | nil =>
        rw [← ih, hrest]
        rfl
      | cons line lines =>
        rw [← ih, hrest]
        rfl

/-- A text is empty, or a line with a line end and a text, or a line without one. -/
theorem line_cases (text : List Char) :
    (∃ line rest, '\n' ∉ line ∧ text = line ++ '\n' :: rest) ∨ '\n' ∉ text := by
  induction text with
  | nil => exact .inr List.not_mem_nil
  | cons c text ih =>
    by_cases hc : c = '\n'
    · exact .inl ⟨[], text, List.not_mem_nil, by rw [hc]; rfl⟩
    · have hcons {line : List Char} (hline : '\n' ∉ line) : '\n' ∉ c :: line := by
        rw [List.mem_cons, not_or]
        exact ⟨fun h ↦ hc h.symm, hline⟩
      rcases ih with ⟨line, rest, hline, rfl⟩ | htext
      · exact .inl ⟨c :: line, rest, hcons hline, rfl⟩
      · exact .inr (hcons htext)

/-! ### Reading lines -/

theorem fgetsLine_line (hline : '\n' ∉ line) (hle : line.length < n) (rest : List Char) :
    fgetsLine n (line ++ '\n' :: rest) = (line ++ ['\n'], rest) := by
  induction line generalizing n with
  | nil =>
    obtain ⟨n, rfl⟩ := Nat.exists_eq_add_one_of_ne_zero (Nat.ne_zero_of_lt hle)
    exact if_pos rfl
  | cons c line ih =>
    obtain ⟨n, rfl⟩ := Nat.exists_eq_add_one_of_ne_zero (Nat.ne_zero_of_lt hle)
    have hc : c ≠ '\n' := fun h ↦ hline (h ▸ List.mem_cons_self)
    rw [List.cons_append, fgetsLine, if_neg hc,
      ih (fun h ↦ hline (List.mem_cons_of_mem _ h)) (Nat.lt_of_succ_lt_succ hle)]
    rfl

theorem fgetsLine_last (hline : '\n' ∉ line) (hle : line.length ≤ n) :
    fgetsLine n line = (line, []) := by
  induction line generalizing n with
  | nil => cases n <;> rfl
  | cons c line ih =>
    obtain ⟨n, rfl⟩ := Nat.exists_eq_add_one_of_ne_zero (Nat.ne_zero_of_lt hle)
    have hc : c ≠ '\n' := fun h ↦ hline (h ▸ List.mem_cons_self)
    rw [fgetsLine, if_neg hc,
      ih (fun h ↦ hline (List.mem_cons_of_mem _ h)) (Nat.le_of_succ_le_succ hle)]

theorem fgetsCalls_nil (n fuel : ℕ) : fgetsCalls n fuel [] = [] := by
  cases fuel <;> rfl

theorem fgetsCalls_succ (hne : text ≠ []) :
    fgetsCalls n (fuel + 1) text =
      (fgetsLine n text).1 :: fgetsCalls n fuel (fgetsLine n text).2 := by
  cases text with
  | nil => exact absurd rfl hne
  | cons c text => rfl

theorem fgetsCalls_eq (hlines : ∀ line ∈ textLines text, line.length ≤ n)
    (hfuel : text.length ≤ fuel) : fgetsCalls n fuel text = textLines text := by
  induction fuel generalizing text with
  | zero =>
    rw [List.eq_nil_of_length_eq_zero (Nat.le_zero.mp hfuel)]
    rfl
  | succ fuel ih =>
    rcases line_cases text with ⟨line, rest, hline, rfl⟩ | hline
    · rw [textLines_line hline] at hlines ⊢
      have hfirst := hlines _ List.mem_cons_self
      rw [List.length_append, List.length_singleton] at hfirst
      rw [fgetsCalls_succ (by simp), fgetsLine_line hline hfirst]
      rw [List.length_append, List.length_cons] at hfuel
      have hrest : rest.length ≤ fuel := by omega
      exact congrArg _ (ih (fun l hl ↦ hlines l (List.mem_cons_of_mem _ hl)) hrest)
    · by_cases hne : text = []
      · rw [hne]
        rfl
      · rw [textLines_last hline hne] at hlines ⊢
        rw [fgetsCalls_succ hne, fgetsLine_last hline (hlines _ List.mem_cons_self),
          fgetsCalls_nil]

/-- Where every line fits into the buffer, the calls of `fgets` read the lines. -/
theorem fgetsLines_eq (hlines : ∀ line ∈ textLines text, line.length < size) :
    fgetsLines size text = textLines text :=
  fgetsCalls_eq (fun line hline ↦ Nat.le_sub_one_of_lt (hlines line hline)) le_rfl

/-- A line of which only the line end does not fit into the buffer. -/
theorem fgetsLine_full (hline : '\n' ∉ line) (rest : List Char) :
    fgetsLine line.length (line ++ '\n' :: rest) = (line, '\n' :: rest) := by
  induction line with
  | nil => rfl
  | cons c line ih =>
    have hc : c ≠ '\n' := fun h ↦ hline (h ▸ List.mem_cons_self)
    rw [List.cons_append, List.length_cons, fgetsLine, if_neg hc,
      ih fun h ↦ hline (List.mem_cons_of_mem _ h)]

/-- A line without its line end. -/
def withoutNewline (line : List Char) : List Char :=
  line.filter (· != '\n')

theorem withoutNewline_of_notMem (hline : '\n' ∉ line) : withoutNewline line = line := by
  refine List.filter_eq_self.mpr fun c hc ↦ bne_iff_ne.mpr ?_
  rintro rfl
  exact hline hc

theorem withoutNewline_concat (hline : '\n' ∉ line) :
    withoutNewline (line ++ ['\n']) = line := by
  rw [withoutNewline, List.filter_append]
  exact (List.append_nil _).trans (withoutNewline_of_notMem hline)

/-- Where every line fits into the buffer without its line end, the calls of `fgets` read the same
for a reader that ignores line ends. -/
theorem filterMap_fgetsCalls {β : Type*} {read : List Char → Option β} (hn : 0 < n)
    (hempty : read ['\n'] = none)
    (hend : ∀ line, '\n' ∉ line → read (line ++ ['\n']) = read line)
    (hlines : ∀ line ∈ textLines text, (withoutNewline line).length ≤ n)
    (hfuel : text.length ≤ fuel) :
    (fgetsCalls n fuel text).filterMap read = (textLines text).filterMap read := by
  induction fuel using Nat.strong_induction_on generalizing text with
  | h fuel ih =>
    rcases line_cases text with ⟨line, rest, hline, rfl⟩ | hline
    · rw [textLines_line hline] at hlines ⊢
      have hfirst := hlines _ List.mem_cons_self
      rw [withoutNewline_concat hline] at hfirst
      rw [List.length_append, List.length_cons] at hfuel
      obtain ⟨fuel, rfl⟩ := Nat.exists_eq_add_one_of_ne_zero (n := fuel) (by omega)
      have hrest : ∀ l ∈ textLines rest, (withoutNewline l).length ≤ n := fun l hl ↦
        hlines l (List.mem_cons_of_mem _ hl)
      rw [fgetsCalls_succ (by simp)]
      rcases Nat.lt_or_eq_of_le hfirst with hlt | heq
      · rw [fgetsLine_line hline hlt, List.filterMap_cons, List.filterMap_cons,
          ih fuel (Nat.lt_succ_self _) hrest (by omega)]
      · -- the line end is read by a call of its own
        obtain ⟨fuel, rfl⟩ := Nat.exists_eq_add_one_of_ne_zero (n := fuel) (by omega)
        have hnewline : fgetsLine n ([] ++ '\n' :: rest) = ([] ++ ['\n'], rest) :=
          fgetsLine_line List.not_mem_nil hn rest
        rw [List.nil_append, List.nil_append] at hnewline
        rw [← heq, fgetsLine_full hline, heq, fgetsCalls_succ (List.cons_ne_nil _ _), hnewline,
          List.filterMap_cons, List.filterMap_cons_none hempty, List.filterMap_cons,
          hend line hline, ih fuel (by omega) hrest (by omega)]
    · by_cases hne : text = []
      · rw [hne, fgetsCalls_nil]
        rfl
      · rw [textLines_last hline hne] at hlines ⊢
        have hfirst := hlines _ List.mem_cons_self
        rw [withoutNewline_of_notMem hline] at hfirst
        obtain ⟨fuel, rfl⟩ := Nat.exists_eq_add_one_of_ne_zero (n := fuel) fun hzero ↦ hne
          (List.eq_nil_of_length_eq_zero (by omega))
        rw [fgetsCalls_succ hne, fgetsLine_last hline hfirst, fgetsCalls_nil]

theorem filterMap_fgetsLines {β : Type*} {read : List Char → Option β} (hsize : 1 < size)
    (hempty : read ['\n'] = none)
    (hend : ∀ line, '\n' ∉ line → read (line ++ ['\n']) = read line)
    (hlines : ∀ line ∈ textLines text, (withoutNewline line).length < size) :
    (fgetsLines size text).filterMap read = (textLines text).filterMap read :=
  filterMap_fgetsCalls (by omega) hempty hend
    (fun line hline ↦ Nat.le_sub_one_of_lt (hlines line hline)) le_rfl

/-! ### Trailing characters -/

/-- The loop from the last character down that cuts the string at each character of a class and
stops at the first other one; the argument is `i + 1`. -/
def trimRight (drops : Char → Bool) (buffer : List Char) : ℕ → List Char
  | 0 => buffer
  | i + 1 =>
    match buffer[i]? with
    | some c => if drops c then trimRight drops (buffer.take i) i else buffer
    | none => buffer

theorem trimRight_eq_rdropWhile (drops : Char → Bool) (buffer : List Char) :
    trimRight drops buffer buffer.length = buffer.rdropWhile drops := by
  induction buffer using List.reverseRecOn with
  | nil => rfl
  | append_singleton buffer c ih =>
    rw [List.length_append, List.length_singleton, trimRight, List.getElem?_concat_length,
      List.rdropWhile_concat]
    simp only
    rw [List.take_left, ih]

end Katmai.Foundation
