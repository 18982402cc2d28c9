import Katmai.Cron.LineParsing

/-!
# The times a line is for and the commands the table answers

`Line.Matches` says which times a line is for. The masks of a field hold the values the field stands
for, except that the 32-bit mask of a step is empty when its closing blank stands at position 32 of
the line or behind (`Field.Late`); such a line matches no time.

The table answers exactly the commands of the matching lines, each once, if and only if no line that
is for some time has such a field, no line is longer than an `int` can say and all listed numbers
are of type `int` (`cron_answers_matching_iff`).
-/

set_option autoImplicit false
set_option relaxedAutoImplicit false

namespace Katmai.Cron

open Foundation

/-! ### What a line is for -/

/-- The values a field stands for. -/
def Field.Matches (v : ℕ) : Field → Prop
  | .star => True
  | .step n _ _ => v % n.value = 0
  | .list first rest => v ∈ (first :: rest).map Numeral.value

/-- A line is for a time when its five fields all match. -/
def Line.Matches (tm : Tm) (l : Line) : Prop :=
  l.minute.field.Matches tm.min ∧ l.hour.field.Matches tm.hour ∧ l.day.field.Matches tm.mday ∧
    l.month.field.Matches (tm.mon + 1) ∧ l.weekday.field.Matches tm.wday

instance (v : ℕ) (field : Field) : Decidable (field.Matches v) :=
  match field with
  | .star => inferInstanceAs (Decidable True)
  | .step n _ _ => inferInstanceAs (Decidable (v % n.value = 0))
  | .list first rest => inferInstanceAs (Decidable (v ∈ (first :: rest).map Numeral.value))

instance (tm : Tm) (l : Line) : Decidable (l.Matches tm) :=
  inferInstanceAs (Decidable (_ ∧ _ ∧ _ ∧ _ ∧ _))

/-! ### Steps whose mask is left empty -/

/-- A field whose 32-bit mask is left empty when its closing blank stands at position `i`. -/
def Field.Late (i : ℕ) : Field → Prop
  | .step _ _ _ => 32 ≤ i
  | _ => False

/-- A line with a step, in one of its fields two to five, whose closing blank stands at position 32
or behind. -/
def Line.Late (l : Line) : Prop :=
  l.hour.field.Late (l.hourAt + l.hour.field.text.length) ∨
    l.day.field.Late (l.dayAt + l.day.field.text.length) ∨
    l.month.field.Late (l.monthAt + l.month.field.text.length) ∨
    l.weekday.field.Late (l.weekdayAt + l.weekday.field.text.length)

instance (i : ℕ) (field : Field) : Decidable (field.Late i) :=
  match field with
  | .star => inferInstanceAs (Decidable False)
  | .step _ _ _ => inferInstanceAs (Decidable (32 ≤ i))
  | .list _ _ => inferInstanceAs (Decidable False)

instance (l : Line) : Decidable l.Late :=
  inferInstanceAs (Decidable (_ ∨ _ ∨ _ ∨ _))

/-! ### The masks of a field -/

theorem getLsbD_mask64 {v : ℕ} (hv : v < 63) (n : ℕ) :
    (mask64 n).getLsbD v = decide (n = v) := by
  unfold mask64
  split_ifs with h0 h32 h63
  · subst n
    simpa using getLsbD_one_shiftLeft (w := 64) 0 v
  · rw [getLsbD_one_shiftLeft]
    simp [show n < 64 by omega]
  · rw [getLsbD_one_shiftLeft]
    simp [show n < 64 by omega]
  · simp [show n ≠ v by omega]

theorem getLsbD_mask32 {v : ℕ} (hv : v < 32) (n : ℕ) :
    (mask32 n).getLsbD v = decide (n = v) := by
  unfold mask32
  split_ifs with h0 h32
  · subst n
    simpa using getLsbD_one_shiftLeft (w := 32) 0 v
  · rw [getLsbD_one_shiftLeft]
    simp [h32]
  · simp [show n ≠ v by omega]

/-- The 64-bit mask holds the values the field stands for. -/
theorem Field.getLsbD_mask64 {v : ℕ} (hv : v < 63) (field : Field) :
    field.mask64.getLsbD v = true ↔ field.Matches v := by
  have hv' : v < 64 := by omega
  cases field with
  | star =>
    have hmask : (Field.star).mask64 = BitVec.allOnes 64 >>> 1 := by decide
    rw [hmask, BitVec.getLsbD_ushiftRight, BitVec.getLsbD_allOnes]
    simp only [Field.Matches, decide_eq_true_eq, iff_true]
    omega
  | step n hpos hle =>
    rw [Field.mask64, getLsbD_sweep_fst]
    simp [Field.Matches, hv, hv']
  | list first rest =>
    rw [Field.mask64, getLsbD_setBits]
    simp only [Field.Matches, Cron.getLsbD_mask64 hv]
    simp [@eq_comm _ v]

/-- The 32-bit mask holds the values the field stands for, or nothing if the field is late. -/
theorem Field.getLsbD_mask32 {v : ℕ} (hv : v < 32) (i : ℕ) (field : Field) :
    (field.mask32 i).getLsbD v = true ↔ field.Matches v ∧ ¬field.Late i := by
  have hv' : v < 63 := by omega
  cases field with
  | star =>
    have hmask : (Field.star).mask32 i = BitVec.allOnes 32 := by
      simp only [Field.mask32]
      decide
    rw [hmask, BitVec.getLsbD_allOnes]
    simp [Field.Matches, Field.Late, hv]
  | step n hpos hle =>
    rw [Field.mask32, getLsbD_sweep_fst]
    simp [Field.Matches, Field.Late, hv, hv']
  | list first rest =>
    rw [Field.mask32, getLsbD_setBits]
    simp only [Field.Matches, Field.Late, Cron.getLsbD_mask32 hv]
    simp [@eq_comm _ v]

/-! ### Lines in the table -/

/-- The lines are added one after another, the last one in front. -/
theorem addLines_eq (self : Cronjob) (lines : List Line) :
    addLines self (lines.map Line.text) =
      if ∀ l ∈ lines, l.text.length < intLimit ∧ l.Fits then
        some { self with tbl := (lines.map Line.entry).reverse ++ self.tbl }
      else none := by
  induction lines generalizing self with
  | nil => simp [addLines]
  | cons l lines ih =>
    have hstep : addLines self ((l :: lines).map Line.text) =
        ((cronjobAdd self l.text).map Prod.fst).bind fun self ↦
          addLines self (lines.map Line.text) := rfl
    rw [hstep, cronjobAdd, parseCronString_text]
    by_cases hl : l.text.length < intLimit ∧ l.Fits
    · simp [hl, ih]
    · simp [hl]

/-! ### Matching -/

/-- A value tested against the 32-bit mask of a field. -/
theorem one_shiftLeft_and_mask32 {v : ℕ} (hv : v < 32) (i : ℕ) (field : Field) :
    1#32 <<< v &&& field.mask32 i ≠ 0 ↔ field.Matches v ∧ ¬field.Late i := by
  rw [← field.getLsbD_mask32 hv i, ne_eq, ← Bool.not_eq_false]
  exact not_congr (one_shiftLeft_and_eq_zero_iff hv _)

/-- An entry meets a time when its line is for the time and no mask of it was left empty. -/
theorem meets_entry_iff (tm : Tm) (l : Line) :
    tm.masks.Meets l.entry.toFieldMasks ↔ l.Matches tm ∧ ¬l.Late := by
  have hminute : 1#64 <<< tm.min &&& l.minute.field.mask64 ≠ 0 ↔
      l.minute.field.Matches tm.min := by
    have hlt : tm.min < 63 := Nat.lt_trans tm.min_lt (by decide)
    have hlt' : tm.min < 64 := Nat.lt_succ_of_lt hlt
    rw [← Field.getLsbD_mask64 hlt, ne_eq, ← Bool.not_eq_false]
    exact not_congr (one_shiftLeft_and_eq_zero_iff hlt' _)
  have hhour := one_shiftLeft_and_mask32 (Nat.lt_trans tm.hour_lt (by decide))
    (l.hourAt + l.hour.field.text.length) l.hour.field
  have hday := one_shiftLeft_and_mask32 (Nat.lt_of_le_of_lt tm.mday_le (by decide))
    (l.dayAt + l.day.field.text.length) l.day.field
  have hmonth := one_shiftLeft_and_mask32 (Nat.lt_of_le_of_lt tm.mon_lt (by decide))
    (l.monthAt + l.month.field.text.length) l.month.field
  have hweekday := one_shiftLeft_and_mask32 (Nat.lt_trans tm.wday_lt (by decide))
    (l.weekdayAt + l.weekday.field.text.length) l.weekday.field
  rw [show tm.masks.Meets l.entry.toFieldMasks ↔ _ ∧ _ ∧ _ ∧ _ ∧ _ from
    and_congr hweekday (and_congr hmonth (and_congr hday (and_congr hhour hminute)))]
  constructor
  · rintro ⟨⟨hw, hw'⟩, ⟨hm, hm'⟩, ⟨hd, hd'⟩, ⟨hh, hh'⟩, hmin⟩
    refine ⟨⟨hmin, hh, hd, hm, hw⟩, ?_⟩
    rintro (hlate | hlate | hlate | hlate)
    exacts [hh' hlate, hd' hlate, hm' hlate, hw' hlate]
  · rintro ⟨⟨hmin, hh, hd, hm, hw⟩, hlate⟩
    exact ⟨⟨hw, fun h ↦ hlate (.inr (.inr (.inr h)))⟩, ⟨hm, fun h ↦ hlate (.inr (.inr (.inl h)))⟩,
      ⟨hd, fun h ↦ hlate (.inr (.inl h))⟩, ⟨hh, fun h ↦ hlate (.inl h)⟩, hmin⟩

/-- A table filled with lines answers, for every time, the commands of the matching lines, each
once. -/
def AnswersMatching (lines : List Line) : Prop :=
  ∃ self, addLines newCronjob (lines.map Line.text) = some self ∧
    ∀ tm, (commandsAt self tm).Perm ((lines.filter fun l ↦ l.Matches tm).map Line.command)

/-- The table answers the commands of the matching lines that are not late. -/
theorem commandsAt_addLines {lines : List Line} {self : Cronjob}
    (hadd : addLines newCronjob (lines.map Line.text) = some self) (tm : Tm) :
    (commandsAt self tm).Perm
      ((lines.filter fun l ↦ l.Matches tm ∧ ¬l.Late).map Line.command) := by
  rw [addLines_eq] at hadd
  split_ifs at hadd
  obtain rfl := Option.some.inj hadd
  have hfilter : (fun l : Line ↦ decide (tm.masks.Meets l.entry.toFieldMasks)) =
      fun l ↦ decide (l.Matches tm ∧ ¬l.Late) := by
    funext l
    simp [meets_entry_iff]
  have htbl : (newCronjob.tbl : List CronjobTableData) = [] := rfl
  rw [commandsAt_eq]
  simp only [htbl, List.append_nil, List.filter_reverse, List.map_reverse, List.filter_map,
    List.map_map]
  refine (List.reverse_perm _).trans (List.Perm.of_eq ?_)
  exact congrArg (List.map Line.command) (congrArg (fun p ↦ List.filter p lines) hfilter)

/-- The commands answered are those of the matching lines exactly when every line can be read and
no line that is for some time has a late step. -/
theorem cron_answers_matching_iff (lines : List Line) :
    AnswersMatching lines ↔
      ∀ l ∈ lines, l.text.length < intLimit ∧ l.Fits ∧ (l.Late → ∀ tm, ¬l.Matches tm) := by
  have hread : (∃ self, addLines newCronjob (lines.map Line.text) = some self) ↔
      ∀ l ∈ lines, l.text.length < intLimit ∧ l.Fits := by
    rw [addLines_eq]
    split_ifs with hlines <;> simpa using hlines
  constructor
  · rintro ⟨self, hadd, hanswers⟩ l hl
    obtain ⟨hlength, hfits⟩ := hread.mp ⟨self, hadd⟩ l hl
    refine ⟨hlength, hfits, fun hlate tm hmatches ↦ ?_⟩
    have hperm := (commandsAt_addLines hadd tm).symm.trans (hanswers tm)
    have hlengths := hperm.length_eq
    have hfilter : (lines.filter fun l ↦ l.Matches tm ∧ ¬l.Late) =
        (lines.filter fun l ↦ l.Matches tm).filter fun l ↦ ¬l.Late := by
      rw [List.filter_filter]
      exact List.filter_congr fun l _ ↦ by simp [Bool.and_comm]
    rw [List.length_map, List.length_map, hfilter, List.length_filter_eq_length_iff] at hlengths
    have hnot := hlengths l (List.mem_filter.mpr ⟨hl, by simpa using hmatches⟩)
    exact (by simpa using hnot : ¬l.Late) hlate
  · intro hlines
    obtain ⟨self, hadd⟩ := hread.mpr fun l hl ↦ ⟨(hlines l hl).1, (hlines l hl).2.1⟩
    refine ⟨self, hadd, fun tm ↦ (commandsAt_addLines hadd tm).trans (List.Perm.of_eq ?_)⟩
    refine congrArg (List.map Line.command) (List.filter_congr fun l hl ↦ ?_)
    have hlate := (hlines l hl).2.2
    by_cases hmatches : l.Matches tm
    · have hnot : ¬l.Late := fun h ↦ hlate h tm hmatches
      simp [hmatches, hnot]
    · simp [hmatches]

/-- A cell of the form `field` and one blank. -/
def Cell.spaced (field : Field) : Cell :=
  { field, blank := ' ', blanks := [], isBlank_blank := rfl, isBlank_of_mem := by simp }

/-- A numeral of one digit. -/
def Numeral.digit (c : Char) (hc : isDigit c) : Numeral :=
  { chars := [c], chars_ne := by simp, isDigit_of_mem := by simpa using hc }

/-- The line `* */2 * * * x` with 40 blanks behind the first star: every second hour. -/
def indentedLine : Line where
  lead := []
  minute := { Cell.spaced .star with
    blanks := List.replicate 39 ' '
    isBlank_of_mem := fun _ h ↦ List.eq_of_mem_replicate h ▸ rfl }
  hour := .spaced (.step (.digit '2' rfl) (by decide) (by decide))
  day := .spaced .star
  month := .spaced .star
  weekday := .spaced .star
  command := ['x']
  isBlank_of_mem_lead := by simp
  command_ne := by simp
  isBlank_head := rfl

/-- Sunday, the first of January, at two o'clock. -/
def twoOClock : Tm where
  min := 0
  hour := 2
  mday := 1
  mon := 0
  wday := 0
  min_lt := by decide
  hour_lt := by decide
  mday_pos := by decide
  mday_le := by decide
  mon_lt := by decide
  wday_lt := by decide

/-- The indented line is for two o'clock, but no command is answered. -/
theorem indented_step_never_runs :
    indentedLine.Matches twoOClock ∧
      (addLines newCronjob [indentedLine.text]).map (fun self ↦ commandsAt self twoOClock) =
        some [] ∧
      ¬AnswersMatching [indentedLine] := by
  have hmatches : indentedLine.Matches twoOClock := by decide
  have hadd := addLines_eq newCronjob [indentedLine]
  rw [if_pos (by decide)] at hadd
  have hanswers : commandsAt { newCronjob with tbl := [indentedLine.entry] } twoOClock = [] := by
    rw [commandsAt_eq]
    decide
  refine ⟨hmatches, ?_, ?_⟩
  · rw [show [indentedLine.text] = [indentedLine].map Line.text from rfl, hadd]
    exact congrArg some hanswers
  · rintro ⟨self, hself, hperm⟩
    rw [hadd] at hself
    obtain rfl := Option.some.inj hself
    have hnil := hperm twoOClock
    have hlength := hnil.length_eq.symm.trans (congrArg List.length hanswers)
    simp [hmatches] at hlength

end Katmai.Cron
