import Katmai.Cron.Cronjob
import Mathlib.Tactic.IntervalCases

/-!
# What the parser makes of a line of a cron table

`Line` is a line of a table: five fields, each `*`, `*/n` with `1 ≤ n ≤ 62` or a comma list of
numbers, behind any blanks and separated by blanks, and a command.

The parser is followed field by field: before a field it is `opened`, behind the blank that closes
the field it is `closed` with the masks of the field (`parseLoop_field`), and as the field is stored
only when the next character is read, this holds however many blanks follow (`parseLoop_cell`,
`parseLoop_lastCell`). Every line whose length and numbers are of type `int` becomes an entry
(`parseCronString_text`). The mask of a step in one of the fields two to five depends on where in
the line the blank stands that closes it.
-/

set_option autoImplicit false
set_option relaxedAutoImplicit false

namespace Katmai.Cron

open Foundation

/-! ### Lines -/

/-- A number in decimal digits, leading zeros allowed. -/
structure Numeral where
  chars : List Char
  chars_ne : chars ≠ []
  isDigit_of_mem : ∀ c ∈ chars, isDigit c

/-- The value of a string of digits read behind a number. -/
def valueFrom (n : ℕ) (digits : List Char) : ℕ :=
  digits.foldl (fun n c ↦ n * 10 + digitValue c) n

def Numeral.value (a : Numeral) : ℕ := valueFrom 0 a.chars

/-- A field of a line. -/
inductive Field
  | star
  | step (n : Numeral) (pos : 1 ≤ n.value) (le : n.value ≤ 62)
  | list (first : Numeral) (rest : List Numeral)

/-- The characters of a field. -/
def Field.text : Field → List Char
  | .star => ['*']
  | .step n _ _ => '*' :: '/' :: n.chars
  | .list first rest => first.chars ++ rest.flatMap fun n ↦ ',' :: n.chars

/-- A field with the blanks behind it. -/
structure Cell where
  field : Field
  blank : Char
  blanks : List Char
  isBlank_blank : isBlank blank
  isBlank_of_mem : ∀ c ∈ blanks, isBlank c

/-- A line of a cron table. -/
structure Line where
  lead : List Char
  minute : Cell
  hour : Cell
  day : Cell
  month : Cell
  weekday : Cell
  command : List Char
  isBlank_of_mem_lead : ∀ c ∈ lead, isBlank c
  command_ne : command ≠ []
  isBlank_head : isBlank (command.head command_ne) = false

/-- The characters of a field and of the blanks behind it. -/
def Cell.text (cell : Cell) : List Char :=
  cell.field.text ++ cell.blank :: cell.blanks

/-- The characters of a line. -/
def Line.text (l : Line) : List Char :=
  l.lead ++ (l.minute.text ++ (l.hour.text ++ (l.day.text ++ (l.month.text ++
    (l.weekday.text ++ l.command)))))

/-! ### What the code makes of a field -/

/-- The numbers a field lists. -/
def Field.numbers : Field → List ℕ
  | .star => []
  | .step _ _ _ => []
  | .list first rest => (first :: rest).map Numeral.value

/-- All listed numbers are values of type `int`. -/
def Field.Fits (field : Field) : Prop := ∀ n ∈ field.numbers, n < intLimit

/-- The 64-bit mask of a field. -/
def Field.mask64 : Field → BitVec 64
  | .star => 0x7fffffffffffffff
  | .step n _ _ => (sweep 0 (fun j ↦ j % n.value = 0) 63).1
  | .list first rest => setBits Cron.mask64 0 ((first :: rest).map Numeral.value)

/-- The 32-bit mask of a field whose closing blank stands at position `i`. -/
def Field.mask32 (i : ℕ) : Field → BitVec 32
  | .star => 0xffffffff
  | .step n _ _ => (sweep 0 (fun j ↦ j % n.value = 0 && i < 32) 63).1
  | .list first rest => setBits Cron.mask32 0 ((first :: rest).map Numeral.value)

/-! ### The parser on one field -/

/-- The parser before a field: `f` fields are stored. -/
def opened (f n : ℕ) (tbl : FieldMasks) : CronParser :=
  { state := .start, newfield := false, f, n, i64 := 0, i32 := 0, tbl }

/-- The parser behind the blank that closes a field. -/
def closed (f n : ℕ) (i64 : BitVec 64) (i32 : BitVec 32) (tbl : FieldMasks) : CronParser :=
  { state := .start, newfield := true, f, n, i64, i32, tbl }

/-- The parser in a number. -/
def inNumber (state : ParseState) (f n : ℕ) (i64 : BitVec 64) (i32 : BitVec 32)
    (tbl : FieldMasks) : CronParser :=
  { state, newfield := false, f, n, i64, i32, tbl }

theorem isBlank_iff {c : Char} : isBlank c = true ↔ c = ' ' ∨ c = '\t' := by
  simp [isBlank]

theorem isBlank_of_isDigit {c : Char} (hc : isDigit c) : isBlank c = false := by
  rw [Bool.eq_false_iff]
  intro hblank
  rcases isBlank_iff.mp hblank with rfl | rfl <;> exact absurd hc (by decide)

theorem ne_of_isDigit {c d : Char} (hc : isDigit c) (hd : isDigit d = false) : c ≠ d := by
  rintro rfl
  rw [hc] at hd
  cases hd

/-- A character that leaves the parser before the command moves the loop on. -/
theorem parseLoop_cons {p p' : CronParser} {i : ℕ} {c : Char} (rest : List Char)
    (hread : readChar p i c = some p') (hp : p.state ≠ .error) (hp' : p'.state ≠ .command) :
    parseLoop p i (c :: rest) = parseLoop p' (i + 1) rest := by
  rw [parseLoop, if_neg hp, hread]
  simp [hp']

/-- A character at which the computation becomes undefined. -/
theorem parseLoop_eq_none {p : CronParser} {i : ℕ} {c : Char} (rest : List Char)
    (hread : readChar p i c = none) (hp : p.state ≠ .error) :
    parseLoop p i (c :: rest) = none := by
  rw [parseLoop, if_neg hp, hread]
  rfl

/-- Blanks before a field are skipped. -/
theorem parseLoop_blanks (f n : ℕ) (tbl : FieldMasks) (i : ℕ) {blanks : List Char}
    (hblanks : ∀ c ∈ blanks, isBlank c) (rest : List Char) :
    parseLoop (opened f n tbl) i (blanks ++ rest) =
      parseLoop (opened f n tbl) (i + blanks.length) rest := by
  induction blanks generalizing i with
  | nil => rfl
  | cons c blanks ih =>
    have hc : isBlank c := hblanks c (by simp)
    have hread : readChar (opened f n tbl) i c = some (opened f n tbl) := by
      simp [readChar, opened, openField, hc]
    rw [List.cons_append, parseLoop_cons _ hread (by simp [opened]) (by simp [opened]),
      ih (i + 1) fun d hd ↦ hblanks d (by simp [hd]), List.length_cons]
    congr 1
    omega

/-! #### Numbers -/

theorem valueFrom_cons (n : ℕ) (c : Char) (digits : List Char) :
    valueFrom n (c :: digits) = valueFrom (n * 10 + digitValue c) digits := by
  simp [valueFrom]

theorem le_valueFrom (n : ℕ) (digits : List Char) : n ≤ valueFrom n digits := by
  induction digits generalizing n with
  | nil => exact Nat.le_refl n
  | cons c digits ih =>
    have hstep := ih (n * 10 + digitValue c)
    rw [valueFrom_cons]
    omega

/-- The digits behind the first one are read into the number while it is of type `int`. -/
theorem parseLoop_digits {state : ParseState} (hstate : state = .number ∨ state = .every)
    (f n : ℕ) (i64 : BitVec 64) (i32 : BitVec 32) (tbl : FieldMasks) (i : ℕ) {digits : List Char}
    (hdigits : ∀ c ∈ digits, isDigit c) (hn : n < intLimit) (rest : List Char) :
    parseLoop (inNumber state f n i64 i32 tbl) i (digits ++ rest) =
      if valueFrom n digits < intLimit then
        parseLoop (inNumber state f (valueFrom n digits) i64 i32 tbl) (i + digits.length) rest
      else none := by
  induction digits generalizing n i with
  | nil => simp [valueFrom, hn]
  | cons c digits ih =>
    have hc : isDigit c := hdigits c (by simp)
    have hread : readChar (inNumber state f n i64 i32 tbl) i c =
        (appendDigit n c).map fun n ↦ inNumber state f n i64 i32 tbl := by
      rcases hstate with rfl | rfl <;>
        simp [readChar, inNumber, hc, isBlank_of_isDigit hc]
    have hstates : state ≠ .error ∧ state ≠ .command := by
      rcases hstate with rfl | rfl <;> simp
    rw [valueFrom_cons]
    by_cases hfits : n * 10 + digitValue c < intLimit
    · have happend : appendDigit n c = some (n * 10 + digitValue c) := if_pos hfits
      rw [happend, Option.map_some] at hread
      rw [List.cons_append, parseLoop_cons _ hread hstates.1 hstates.2,
        ih _ (i + 1) (fun d hd ↦ hdigits d (by simp [hd])) hfits, List.length_cons,
        Nat.add_right_comm, Nat.add_assoc]
    · have happend : appendDigit n c = none := if_neg hfits
      have hlarge := le_valueFrom (n * 10 + digitValue c) digits
      rw [happend, Option.map_none] at hread
      rw [if_neg (by omega), List.cons_append, parseLoop_eq_none _ hread hstates.1]

theorem digitValue_lt {c : Char} (hc : isDigit c) : digitValue c < intLimit := by
  have hle : c.toNat ≤ '9'.toNat := by
    simp only [isDigit, Bool.and_eq_true, decide_eq_true_eq] at hc
    exact hc.2
  have hnine : '9'.toNat - '0'.toNat < intLimit := by decide
  have hsub : c.toNat - '0'.toNat ≤ '9'.toNat - '0'.toNat := Nat.sub_le_sub_right hle _
  exact Nat.lt_of_le_of_lt hsub hnine

/-- A number is read from any state in which a digit opens one. -/
theorem parseLoop_numeral {p : CronParser} {state : ParseState} {f i : ℕ} {i64 : BitVec 64}
    {i32 : BitVec 32} {tbl : FieldMasks} (hstate : state = .number ∨ state = .every)
    (hp : p.state ≠ .error)
    (hread : ∀ c, isDigit c → readChar p i c = some (inNumber state f (digitValue c) i64 i32 tbl))
    (a : Numeral) (rest : List Char) :
    parseLoop p i (a.chars ++ rest) =
      if a.value < intLimit then
        parseLoop (inNumber state f a.value i64 i32 tbl) (i + a.chars.length) rest
      else none := by
  obtain ⟨chars, hne, hdigits⟩ := a
  obtain ⟨c, digits, rfl⟩ := List.exists_cons_of_ne_nil hne
  have hc : isDigit c := hdigits c (by simp)
  have hcommand : (inNumber state f (digitValue c) i64 i32 tbl).state ≠ .command := by
    rcases hstate with rfl | rfl <;> simp [inNumber]
  have hvalue : Numeral.value ⟨c :: digits, hne, hdigits⟩ = valueFrom (digitValue c) digits := by
    simp [Numeral.value, valueFrom]
  rw [hvalue, List.cons_append, parseLoop_cons _ (hread c hc) hp hcommand,
    parseLoop_digits hstate f _ i64 i32 tbl (i + 1) (fun d hd ↦ hdigits d (by simp [hd]))
      (digitValue_lt hc), List.length_cons, Nat.add_right_comm, Nat.add_assoc]

/-- The rest of a comma list: every number read so far is put into the masks at the comma or blank
behind it. -/
theorem parseLoop_list (f n : ℕ) (i64 : BitVec 64) (i32 : BitVec 32) (tbl : FieldMasks) (i : ℕ)
    (numerals : List Numeral) {b : Char} (hb : isBlank b) (rest : List Char) :
    ∃ n', parseLoop (inNumber .number f n i64 i32 tbl) i
        ((numerals.flatMap fun a ↦ ',' :: a.chars) ++ b :: rest) =
      if ∀ a ∈ numerals, a.value < intLimit then
        parseLoop (closed f n' (setBits mask64 i64 (n :: numerals.map Numeral.value))
          (setBits mask32 i32 (n :: numerals.map Numeral.value)) tbl)
          (i + (numerals.flatMap fun a ↦ ',' :: a.chars).length + 1) rest
      else none := by
  induction numerals generalizing n i64 i32 i with
  | nil =>
    refine ⟨n, ?_⟩
    have hread : readChar (inNumber .number f n i64 i32 tbl) i b =
        some (closed f n (i64 ||| mask64 n) (i32 ||| mask32 n) tbl) := by
      simp [readChar, inNumber, closed, hb]
    rw [List.flatMap_nil, List.nil_append,
      parseLoop_cons _ hread (by simp [inNumber]) (by simp [closed])]
    simp [setBits]
  | cons a numerals ih =>
    obtain ⟨n', ih⟩ := ih a.value (i64 ||| mask64 n) (i32 ||| mask32 n) (i + 1 + a.chars.length)
    refine ⟨n', ?_⟩
    have hcomma : readChar (inNumber .number f n i64 i32 tbl) i ',' =
        some (inNumber .comma f n (i64 ||| mask64 n) (i32 ||| mask32 n) tbl) := by
      have hblank : isBlank ',' = false := by decide
      have hdigit : isDigit ',' = false := by decide
      simp [readChar, inNumber, hblank, hdigit]
    have hdigit : ∀ c, isDigit c →
        readChar (inNumber .comma f n (i64 ||| mask64 n) (i32 ||| mask32 n) tbl) (i + 1) c =
          some (inNumber .number f (digitValue c) (i64 ||| mask64 n) (i32 ||| mask32 n) tbl) := by
      intro c hc
      simp [readChar, inNumber, hc]
    have hsplit : ((a :: numerals).flatMap fun a ↦ ',' :: a.chars) ++ b :: rest =
        ',' :: (a.chars ++ ((numerals.flatMap fun a ↦ ',' :: a.chars) ++ b :: rest)) := by simp
    have hlength : i + ((a :: numerals).flatMap fun a ↦ ',' :: a.chars).length =
        i + 1 + a.chars.length + (numerals.flatMap fun a ↦ ',' :: a.chars).length := by
      simp only [List.flatMap_cons, List.cons_append, List.length_cons, List.length_append]
      omega
    rw [hsplit, hlength, parseLoop_cons _ hcomma (by simp [inNumber]) (by simp [inNumber]),
      parseLoop_numeral (.inl rfl) (by simp [inNumber]) hdigit, ih]
    by_cases ha : a.value < intLimit
    · simp [ha, setBits]
    · simp [ha]

/-! #### Fields -/

instance (field : Field) : Decidable field.Fits :=
  inferInstanceAs (Decidable (∀ n ∈ field.numbers, n < intLimit))

/-- The blank behind a step. -/
theorem readChar_every {p : CronParser} (hp : p.state = .every) (hn : p.n ≠ 0) (i : ℕ) {b : Char}
    (hb : isBlank b) :
    readChar p i b = some { p with
      i32 := (sweep p.i32 (fun j ↦ j % p.n = 0 && i < 32) 63).1
      i64 := (sweep p.i64 (fun j ↦ j % p.n = 0) 63).1
      newfield := true
      state := .start } := by
  rw [readChar, hp]
  simp only [hb, if_true, if_neg hn]

/-- A field is read with the blank that closes it. -/
theorem parseLoop_field (f n : ℕ) (tbl : FieldMasks) (i : ℕ) (field : Field) {b : Char}
    (hb : isBlank b) (rest : List Char) :
    ∃ n', parseLoop (opened f n tbl) i (field.text ++ b :: rest) =
      if field.Fits then
        parseLoop (closed f n' field.mask64 (field.mask32 (i + field.text.length)) tbl)
          (i + field.text.length + 1) rest
      else none := by
  have hstar : readChar (opened f n tbl) i '*' = some (inNumber .star f n 0 0 tbl) := by
    have hblank : isBlank '*' = false := by decide
    simp [readChar, opened, openField, inNumber, hblank]
  cases field with
  | star =>
    refine ⟨n, ?_⟩
    have hclose : readChar (inNumber .star f n 0 0 tbl) (i + 1) b =
        some (closed f n 0x7fffffffffffffff 0xffffffff tbl) := by
      simp [readChar, inNumber, closed, hb]
    rw [Field.text, List.singleton_append,
      parseLoop_cons _ hstar (by simp [opened]) (by simp [inNumber]),
      parseLoop_cons _ hclose (by simp [inNumber]) (by simp [closed])]
    simp [Field.Fits, Field.numbers, Field.mask64, Field.mask32]
  | step a hpos hle =>
    refine ⟨a.value, ?_⟩
    have hslash : readChar (inNumber .star f n 0 0 tbl) (i + 1) '/' =
        some (inNumber .slash f 0 0 0 tbl) := by
      have hblank : isBlank '/' = false := by decide
      simp [readChar, inNumber, hblank]
    have hdigit : ∀ c, isDigit c → readChar (inNumber .slash f 0 0 0 tbl) (i + 1 + 1) c =
        some (inNumber .every f (digitValue c) 0 0 tbl) := by
      intro c hc
      simp [readChar, inNumber, hc]
    have hvalue : a.value < intLimit := Nat.lt_of_le_of_lt hle (by decide)
    have hne : a.value ≠ 0 := by omega
    have hlength : i + (Field.step a hpos hle).text.length = i + 1 + 1 + a.chars.length := by
      simp only [Field.text, List.length_cons]
      omega
    have hclose : readChar (inNumber .every f a.value 0 0 tbl) (i + 1 + 1 + a.chars.length) b =
        some (closed f a.value (Field.step a hpos hle).mask64
          ((Field.step a hpos hle).mask32 (i + 1 + 1 + a.chars.length)) tbl) := by
      rw [readChar_every rfl hne _ hb]
      rfl
    rw [hlength, Field.text, List.cons_append, List.cons_append,
      parseLoop_cons _ hstar (by simp [opened]) (by simp [inNumber]),
      parseLoop_cons _ hslash (by simp [inNumber]) (by simp [inNumber]),
      parseLoop_numeral (.inr rfl) (by simp [inNumber]) hdigit, if_pos hvalue,
      parseLoop_cons _ hclose (by simp [inNumber]) (by simp [closed])]
    simp [Field.Fits, Field.numbers]
  | list first numerals =>
    have hdigit : ∀ c, isDigit c → readChar (opened f n tbl) i c =
        some (inNumber .number f (digitValue c) 0 0 tbl) := by
      intro c hc
      have hne : c ≠ '*' := ne_of_isDigit hc (by decide)
      simp [readChar, opened, openField, inNumber, hc, isBlank_of_isDigit hc, hne]
    obtain ⟨n', hlist⟩ := parseLoop_list f first.value 0 0 tbl (i + first.chars.length) numerals hb
      rest
    refine ⟨n', ?_⟩
    rw [Field.text, List.append_assoc, parseLoop_numeral (.inl rfl) (by simp [opened]) hdigit,
      hlist, List.length_append, Nat.add_assoc]
    by_cases hfirst : first.value < intLimit
    · simp [Field.Fits, Field.numbers, Field.mask64, Field.mask32, hfirst, Nat.add_assoc]
    · simp [Field.Fits, Field.numbers, hfirst]

/-- The masks of the `f`-th field stored. -/
def storedMask (f : ℕ) (i64 : BitVec 64) (i32 : BitVec 32) (tbl : FieldMasks) : FieldMasks :=
  match f with
  | 0 => { tbl with min := i64 }
  | 1 => { tbl with hour := i32 }
  | 2 => { tbl with day := i32 }
  | 3 => { tbl with mon := i32 }
  | _ => { tbl with wday := i32 }

/-- Whatever character follows, a finished field is stored first. -/
theorem parseLoop_closed {f : ℕ} (hf : f < 4) (n : ℕ) (i64 : BitVec 64) (i32 : BitVec 32)
    (tbl : FieldMasks) (i : ℕ) {rest : List Char} (hrest : rest ≠ []) :
    parseLoop (closed f n i64 i32 tbl) i rest =
      parseLoop (opened (f + 1) n (storedMask f i64 i32 tbl)) i rest := by
  obtain ⟨c, rest, rfl⟩ := List.exists_cons_of_ne_nil hrest
  have hread : readChar (closed f n i64 i32 tbl) i c =
      readChar (opened (f + 1) n (storedMask f i64 i32 tbl)) i c := by
    interval_cases f <;> rfl
  rw [parseLoop, parseLoop, hread]
  rfl

/-- A field and all blanks behind it, not the fifth field: what follows decides the result. -/
theorem parseLoop_cell {f : ℕ} (hf : f < 4) (tbl : FieldMasks) (i : ℕ) (cell : Cell)
    {rest : List Char} (hrest : rest ≠ []) {result : Option (Option CronjobTableData)}
    (hresult : ∀ n, parseLoop (opened (f + 1) n (storedMask f cell.field.mask64
      (cell.field.mask32 (i + cell.field.text.length)) tbl)) (i + cell.text.length) rest = result)
    (n : ℕ) :
    parseLoop (opened f n tbl) i (cell.text ++ rest) =
      if cell.field.Fits then result else none := by
  obtain ⟨n', hfield⟩ := parseLoop_field f n tbl i cell.field cell.isBlank_blank
    (cell.blanks ++ rest)
  have hlength : i + cell.text.length =
      i + cell.field.text.length + 1 + cell.blanks.length := by
    simp only [Cell.text, List.length_append, List.length_cons]
    omega
  have hnext := hresult n'
  rw [hlength] at hnext
  rw [Cell.text, List.append_assoc, List.cons_append, hfield,
    parseLoop_closed hf _ _ _ _ _ (by simp [hrest]),
    parseLoop_blanks _ _ _ _ cell.isBlank_of_mem, hnext]

/-- The command is the rest of the line from its first character that is no blank. -/
theorem parseLoop_command {p : CronParser} (hp : p.state = .command) (i : ℕ) {blanks : List Char}
    (hblanks : ∀ c ∈ blanks, isBlank c) {command : List Char} (hne : command ≠ [])
    (hhead : isBlank (command.head hne) = false) :
    parseLoop p i (blanks ++ command) = some (some { p.tbl with cmd := command }) := by
  induction blanks generalizing i with
  | nil =>
    obtain ⟨c, rest, rfl⟩ := List.exists_cons_of_ne_nil hne
    have hc : isBlank c = false := hhead
    simp [parseLoop, readChar, hp, hc]
  | cons c blanks ih =>
    have hc : isBlank c := hblanks c (by simp)
    have hih := ih (i + 1) fun d hd ↦ hblanks d (by simp [hd])
    rw [List.cons_append, parseLoop, ← hih]
    simp [readChar, hp, hc]

/-- Behind the fifth field the first character is read again, as the start of the command or as a
blank in front of it. -/
theorem parseLoop_lastCell (tbl : FieldMasks) (i : ℕ) (cell : Cell) {command : List Char}
    (hne : command ≠ []) (hhead : isBlank (command.head hne) = false) (n : ℕ) :
    parseLoop (opened 4 n tbl) i (cell.text ++ command) =
      if cell.field.Fits then
        some (some { tbl with
          wday := cell.field.mask32 (i + cell.field.text.length), cmd := command })
      else none := by
  have hstored (n : ℕ) (i64 : BitVec 64) (i32 : BitVec 32) (i : ℕ) {rest : List Char}
      (hrest : rest ≠ []) :
      parseLoop (closed 4 n i64 i32 tbl) i rest =
        parseLoop (storeField (closed 4 n i64 i32 tbl)) i rest := by
    obtain ⟨c, rest, rfl⟩ := List.exists_cons_of_ne_nil hrest
    rw [parseLoop, parseLoop]
    rfl
  obtain ⟨n', hfield⟩ := parseLoop_field 4 n tbl i cell.field cell.isBlank_blank
    (cell.blanks ++ command)
  rw [Cell.text, List.append_assoc, List.cons_append, hfield, hstored _ _ _ _ (by simp [hne]),
    parseLoop_command rfl _ cell.isBlank_of_mem hne hhead]
  rfl

/-! ### Whole lines -/

/-- The listed numbers of all five fields are values of type `int`. -/
def Line.Fits (l : Line) : Prop :=
  l.minute.field.Fits ∧ l.hour.field.Fits ∧ l.day.field.Fits ∧ l.month.field.Fits ∧
    l.weekday.field.Fits

instance (l : Line) : Decidable l.Fits :=
  inferInstanceAs (Decidable (_ ∧ _ ∧ _ ∧ _ ∧ _))

/-- The position of the first character of the hour field. -/
def Line.hourAt (l : Line) : ℕ := l.lead.length + l.minute.text.length

def Line.dayAt (l : Line) : ℕ := l.hourAt + l.hour.text.length

def Line.monthAt (l : Line) : ℕ := l.dayAt + l.day.text.length

def Line.weekdayAt (l : Line) : ℕ := l.monthAt + l.month.text.length

/-- The entry that is made of a line. -/
def Line.entry (l : Line) : CronjobTableData :=
  { min := l.minute.field.mask64
    hour := l.hour.field.mask32 (l.hourAt + l.hour.field.text.length)
    day := l.day.field.mask32 (l.dayAt + l.day.field.text.length)
    mon := l.month.field.mask32 (l.monthAt + l.month.field.text.length)
    wday := l.weekday.field.mask32 (l.weekdayAt + l.weekday.field.text.length)
    cmd := l.command }

/-- What the parser makes of a line. -/
theorem parseCronString_text (l : Line) :
    parseCronString l.text =
      if l.text.length < intLimit ∧ l.Fits then some (some l.entry) else none := by
  have hcell (cell : Cell) (rest : List Char) : cell.text ++ rest ≠ [] := by simp [Cell.text]
  have hlead : parseLoop .init 0 l.text = parseLoop (opened 0 0 ⟨0, 0, 0, 0, 0⟩) l.lead.length
      (l.minute.text ++ (l.hour.text ++ (l.day.text ++ (l.month.text ++
        (l.weekday.text ++ l.command))))) := by
    have hblanks := parseLoop_blanks 0 0 ⟨0, 0, 0, 0, 0⟩ 0 l.isBlank_of_mem_lead
      (l.minute.text ++ (l.hour.text ++ (l.day.text ++ (l.month.text ++
        (l.weekday.text ++ l.command)))))
    rw [Nat.zero_add] at hblanks
    exact hblanks
  -- The cells are put together from the last one on, each giving its continuation's result.
  have hcells := parseLoop_cell (by decide : 0 < 4) ⟨0, 0, 0, 0, 0⟩ l.lead.length l.minute
    (hcell l.hour _) (parseLoop_cell (by decide : 1 < 4) _ l.hourAt l.hour (hcell l.day _)
      (parseLoop_cell (by decide : 2 < 4) _ l.dayAt l.day (hcell l.month _)
        (parseLoop_cell (by decide : 3 < 4) _ l.monthAt l.month (hcell l.weekday _)
          (parseLoop_lastCell _ l.weekdayAt l.weekday l.command_ne l.isBlank_head)))) 0
  rw [parseCronString, hlead, hcells]
  unfold Line.Fits
  split_ifs <;> first | rfl | (exfalso; tauto)

end Katmai.Cron
