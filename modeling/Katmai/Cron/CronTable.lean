import Katmai.Cron.CronMain
import Katmai.Misclib.Trim

/-!
# From the file to the commands

`cron_load_crontable` reads the rows of a file and adds those that are no comments to the table. A
file of lines and comments is read as it is written (`cronLoadCrontable_rows`), and `cron_main` then
starts, in each of its time slots, the commands of the lines that are for this minute
(`cronMain_starts_matching`).
-/

set_option autoImplicit false
set_option relaxedAutoImplicit false

namespace Katmai.Cron

open Foundation
open Misclib (chomp rtrim chomp_eq rtrim_eq isLineEnd)

/-! ### Reading a file -/

/-- A round of the loop of `cron_load_crontable`. -/
def cronLoadLine (cj : Cronjob) (buffer : List Char) : Option Cronjob :=
  let buffer := rtrim (chomp (cString buffer))
  if buffer.length = 0 then some cj
  else if buffer.head? = some '#' ∨ buffer.head? = some ';' then some cj
  else (cronjobAdd cj buffer).map Prod.fst

/-- `cron_load_crontable`, for the text of the file if it can be opened. -/
def cronLoadCrontable (cj : Cronjob) : Option (List Char) → Option (Cronjob × ℤ)
  | some text => ((fgetsLines 4095 text).foldlM cronLoadLine cj).map fun cj ↦ (cj, 1)
  | none => some (cj, 0)

/-! ### Files -/

/-- A row of a file: a comment behind its mark, or a line with blanks behind it. -/
inductive Row
  | comment (mark : Char) (text : List Char)
  | line (l : Line) (blanks : List Char)

namespace Row

def text : Row → List Char
  | comment mark text => mark :: text
  | line l blanks => l.text ++ blanks

/-- The line of a row. -/
def line? : Row → Option Line
  | comment _ _ => none
  | line l _ => some l

/-- The marks of comments, and commands that do not end in a character that is cut off. -/
def Marked : Row → Prop
  | comment mark _ => mark = '#' ∨ mark = ';'
  | line l blanks =>
    (∀ c ∈ blanks, isBlank c) ∧
      ∀ c ∈ l.command.getLast?, isBlank c = false ∧ c ≠ '\r'

/-- A row that `fgets` reads as a whole. -/
structure Plain (row : Row) : Prop where
  marked : row.Marked
  newline : '\n' ∉ row.text
  zero : '\x00' ∉ row.text
  length_lt : row.text.length < 4094

end Row

def fileText (rows : List Row) : List Char :=
  rows.flatMap fun row ↦ row.text ++ ['\n']

variable {row : Row} {rows : List Row}

theorem textLines_fileText (hrows : ∀ row ∈ rows, row.Plain) :
    textLines (fileText rows) = rows.map fun row ↦ row.text ++ ['\n'] := by
  induction rows with
  | nil => rfl
  | cons row rest ih =>
    obtain ⟨hrow, hrest⟩ := List.forall_mem_cons.mp hrows
    rw [List.map_cons, ← ih hrest, fileText, List.flatMap_cons, List.append_assoc,
      List.singleton_append, textLines_line hrow.newline]
    rfl

theorem fgetsLines_fileText (hrows : ∀ row ∈ rows, row.Plain) :
    fgetsLines 4095 (fileText rows) = rows.map fun row ↦ row.text ++ ['\n'] := by
  rw [fgetsLines_eq, textLines_fileText hrows]
  rw [textLines_fileText hrows]
  intro line hline
  obtain ⟨row, hrow, rfl⟩ := List.mem_map.mp hline
  have hlength := (hrows row hrow).length_lt
  rw [List.length_append, List.length_singleton]
  omega

/-! ### Rows -/

theorem isBlank_eq (c : Char) : Misclib.isBlank c = isBlank c := by
  simp only [Misclib.isBlank, isBlank, Bool.beq_eq_decide_eq]

/-- What is cut off behind a text that does not end in a character of the class. -/
theorem rdropWhile_append {drops : Char → Bool} {text rest : List Char}
    (htext : ∀ c ∈ text.getLast?, drops c = false) (hrest : ∀ c ∈ rest, drops c) :
    (text ++ rest).rdropWhile drops = text := by
  induction rest using List.reverseRecOn with
  | nil =>
    rw [List.append_nil, List.rdropWhile_eq_self_iff]
    intro hne
    rw [htext _ (List.getLast?_eq_getLast_of_ne_nil hne)]
    exact Bool.false_ne_true
  | append_singleton rest c ih =>
    rw [← List.append_assoc, List.rdropWhile_concat_pos _ _ _ (hrest c (by simp))]
    exact ih fun d hd ↦ hrest d (List.mem_append_left _ hd)

/-- The first character stays if it is not of the class. -/
theorem head?_rdropWhile {drops : Char → Bool} {c : Char} (hc : drops c = false)
    (text : List Char) : ∃ rest, (c :: text).rdropWhile drops = c :: rest := by
  obtain ⟨cut, hleads⟩ := List.rdropWhile_prefix drops (c :: text)
  cases hkept : (c :: text).rdropWhile drops with
  | nil =>
    rw [List.rdropWhile_eq_nil_iff] at hkept
    exact absurd (hkept c List.mem_cons_self) (by rw [hc]; exact Bool.false_ne_true)
  | cons d rest =>
    rw [hkept, List.cons_append, List.cons.injEq] at hleads
    exact ⟨rest, by rw [hleads.1]⟩

/-- A line begins with a blank, a star or a digit. -/
theorem Line.head_text (l : Line) :
    ∃ c rest, l.text = c :: rest ∧ (isBlank c ∨ c = '*' ∨ isDigit c) := by
  cases hlead : l.lead with
  | cons c lead =>
    refine ⟨c, _, by rw [Line.text, hlead]; rfl, .inl (l.isBlank_of_mem_lead c ?_)⟩
    rw [hlead]
    exact List.mem_cons_self
  | nil =>
    cases hfield : l.minute.field with
    | star =>
      exact ⟨'*', _, by rw [Line.text, hlead, Cell.text, hfield]; rfl, .inr (.inl rfl)⟩
    | step n hpos hle =>
      exact ⟨'*', _, by rw [Line.text, hlead, Cell.text, hfield]; rfl, .inr (.inl rfl)⟩
    | list first rest =>
      obtain ⟨d, digits, hdigits⟩ := List.exists_cons_of_ne_nil first.chars_ne
      refine ⟨d, _, by rw [Line.text, hlead, Cell.text, hfield, Field.text, hdigits]; rfl,
        .inr (.inr (first.isDigit_of_mem d ?_))⟩
      rw [hdigits]
      exact List.mem_cons_self

theorem Line.getLast?_text (l : Line) : l.text.getLast? = l.command.getLast? := by
  have happend (front back : List Char) (hback : back ≠ []) :
      (front ++ back).getLast? = back.getLast? := by
    rw [List.getLast?_append, List.getLast?_eq_getLast_of_ne_nil hback]
    rfl
  simp only [Line.text, ← List.append_assoc]
  exact happend _ _ l.command_ne

/-- The text that is left of a line. -/
theorem trim_line {l : Line} {blanks : List Char} (hplain : (Row.line l blanks).Plain) :
    rtrim (chomp (l.text ++ blanks ++ ['\n'])) = l.text := by
  obtain ⟨hblanks, hlast⟩ := hplain.marked
  have hnewline : ∀ c ∈ l.text ++ blanks, c ≠ '\n' := by
    rintro c hc rfl
    exact hplain.newline hc
  have hchomp : chomp (l.text ++ blanks ++ ['\n']) = l.text ++ blanks := by
    rw [chomp_eq]
    refine rdropWhile_append ?_ (by simp [isLineEnd])
    intro c hc
    have hmem := List.mem_of_getLast? hc
    have hcr : c ≠ '\r' := by
      rintro rfl
      rw [List.getLast?_append, Option.mem_def, Option.or_eq_some_iff] at hc
      rcases hc with hblank | ⟨-, htext⟩
      · exact absurd (hblanks _ (List.mem_of_getLast? hblank)) (by decide)
      · exact (hlast _ ((l.getLast?_text).symm.trans htext)).2 rfl
    simp [isLineEnd, hcr, hnewline c hmem]
  rw [hchomp, rtrim_eq]
  refine rdropWhile_append ?_ fun c hc ↦ ?_
  · intro c hc
    rw [isBlank_eq]
    exact (hlast c (l.getLast?_text ▸ hc)).1
  · rw [isBlank_eq]
    exact hblanks c hc

/-- A row is a line to add, or none. -/
theorem cronLoadLine_row (cj : Cronjob) (hrow : row.Plain) :
    cronLoadLine cj (row.text ++ ['\n']) =
      match row.line? with
      | some l => (cronjobAdd cj l.text).map Prod.fst
      | none => some cj := by
  have hzero : cString (row.text ++ ['\n']) = row.text ++ ['\n'] := by
    refine cString_eq_self fun hmem ↦ ?_
    rcases List.mem_append.mp hmem with hmem | hmem
    · exact hrow.zero hmem
    · exact absurd (List.mem_singleton.mp hmem) (by decide)
  rw [cronLoadLine, hzero]
  cases row with
  | comment mark text =>
    have hmark : isLineEnd mark = false ∧ Misclib.isBlank mark = false := by
      rcases hrow.marked with rfl | rfl <;> exact ⟨rfl, rfl⟩
    obtain ⟨chomped, hchomp⟩ := head?_rdropWhile hmark.1 (text ++ ['\n'])
    obtain ⟨trimmed, htrim⟩ := head?_rdropWhile hmark.2 chomped
    have htext : rtrim (chomp (mark :: text ++ ['\n'])) = mark :: trimmed := by
      rw [chomp_eq, List.cons_append, hchomp, rtrim_eq, htrim]
    simp only [Row.text, htext, Row.line?]
    rw [if_neg (by simp), if_pos]
    rcases hrow.marked with rfl | rfl
    · exact .inl rfl
    · exact .inr rfl
  | line l blanks =>
    obtain ⟨c, rest, htext, hc⟩ := l.head_text
    have hmark : c ≠ '#' ∧ c ≠ ';' := by
      constructor
      all_goals
        rintro rfl
        revert hc
        decide
    simp only [Row.text, trim_line hrow, Row.line?]
    rw [if_neg (by rw [htext]; simp), if_neg]
    rw [htext, List.head?_cons, Option.some.injEq, Option.some.injEq]
    tauto

/-- A file of plain rows puts its lines into the table. -/
theorem cronLoadCrontable_rows (cj : Cronjob) (hrows : ∀ row ∈ rows, row.Plain) :
    cronLoadCrontable cj (some (fileText rows)) =
      (addLines cj ((rows.filterMap Row.line?).map Line.text)).map fun cj ↦ (cj, 1) := by
  rw [cronLoadCrontable, fgetsLines_fileText hrows]
  congr 1
  induction rows generalizing cj with
  | nil => rfl
  | cons row rest ih =>
    obtain ⟨hrow, hrest⟩ := List.forall_mem_cons.mp hrows
    rw [List.map_cons, List.foldlM_cons, cronLoadLine_row cj hrow]
    cases hline : row.line? with
    | none =>
      rw [List.filterMap_cons_none hline]
      exact ih cj hrest
    | some l =>
      rw [List.filterMap_cons_some hline, List.map_cons, addLines, List.foldlM_cons]
      dsimp only
      cases (cronjobAdd cj l.text).map Prod.fst with
      | none => rfl
      | some cj => exact ih cj hrest

/-! ### The commands -/

/-- The lines of a file that are for a time, in the order of the file. -/
def linesFor (rows : List Row) (tm : Tm) : List Line :=
  (rows.filterMap Row.line?).filter fun l ↦ l.Matches tm

theorem commandsAt_rows {cj : Cronjob} (hrows : ∀ row ∈ rows, row.Plain)
    (hload : cronLoadCrontable newCronjob (some (fileText rows)) = some (cj, 1))
    (hlate : ∀ l ∈ rows.filterMap Row.line?, l.Late → ∀ tm, ¬l.Matches tm) (tm : Tm) :
    (commandsAt cj tm).Perm ((linesFor rows tm).map Line.command) := by
  rw [cronLoadCrontable_rows newCronjob hrows, Option.map_eq_some_iff] at hload
  obtain ⟨cj', hadd, heq⟩ := hload
  obtain rfl := (Prod.mk.inj heq).1
  refine (commandsAt_addLines hadd tm).trans (List.Perm.of_eq ?_)
  refine congrArg (List.map Line.command) (List.filter_congr fun l hl ↦ ?_)
  have hnot : l.Matches tm → ¬l.Late := fun hmatches hlate' ↦ hlate l hl hlate' tm hmatches
  exact decide_eq_decide.mpr ⟨And.left, fun hmatches ↦ ⟨hmatches, hnot hmatches⟩⟩

/-- The line `* * * * * x`. -/
def everyMinute : Line where
  lead := []
  minute := .spaced .star
  hour := .spaced .star
  day := .spaced .star
  month := .spaced .star
  weekday := .spaced .star
  command := ['x']
  isBlank_of_mem_lead := indentedLine.isBlank_of_mem_lead
  command_ne := indentedLine.command_ne
  isBlank_head := indentedLine.isBlank_head

end Katmai.Cron
