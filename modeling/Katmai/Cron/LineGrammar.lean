import Katmai.Cron.LineParsing

/-!
# The grammar of a line of a cron table

A line is five fields, each with blanks behind it, and a command (`IsLine`). A field is `*`, `*/`
and digits, or a comma list (`FieldText`). What may stand in a list is a parameter: numbers by the
grammar (`IsNumber`), but the parser also takes a digit with anything behind it that is neither a
blank nor a comma (`TakenForNumber`), because its state `2` has no branch for other characters.

`UndefinedLine` says which strings lead the parser into undefined arithmetic: up to five fields, and
at the start of the next one a number that is no `int`, or a step of zero with a blank behind it.

`parse_cron_string` counts in an `int`. A string is looked at as far as `(int) strlen` goes
(`visible`), and the command is copied from there to the end of the string.
-/

set_option autoImplicit false
set_option relaxedAutoImplicit false

namespace Katmai.Cron

/-! ### Fields -/

/-- Digits, at least one. -/
def IsNumber (s : List Char) : Prop :=
  s ≠ [] ∧ ∀ c ∈ s, isDigit c

/-- What the parser takes for a number of a list: a digit, and behind it no blank and no comma. -/
def TakenForNumber (s : List Char) : Prop :=
  ∃ c rest, s = c :: rest ∧ isDigit c ∧ ∀ d ∈ rest, isBlank d = false ∧ d ≠ ','

/-- A comma list. -/
inductive ListText (Item : List Char → Prop) : List Char → Prop
  | one {s : List Char} (hitem : Item s) : ListText Item s
  | cons {s t : List Char} (hitem : Item s) (hlist : ListText Item t) :
    ListText Item (s ++ ',' :: t)

/-- A field. -/
inductive FieldText (Item : List Char → Prop) : List Char → Prop
  | star : FieldText Item ['*']
  | step {digits : List Char} (hdigits : IsNumber digits) : FieldText Item ('*' :: '/' :: digits)
  | list {s : List Char} (hlist : ListText Item s) : FieldText Item s

/-! ### Lines -/

/-- Blanks. -/
def Blanks (s : List Char) : Prop :=
  ∀ c ∈ s, isBlank c

/-- A string is optional blanks, words with blanks behind each of them, and a rest. -/
def SplitsInto : List (List Char) → List Char → List Char → Prop
  | [], s, rest => ∃ blanks, s = blanks ++ rest ∧ Blanks blanks
  | word :: words, s, rest => ∃ blanks blank behind,
    s = blanks ++ (word ++ blank :: behind) ∧ Blanks blanks ∧ isBlank blank ∧
      SplitsInto words behind rest

/-- A command: it is not empty and starts at a character that is no blank. -/
def IsCommand (command : List Char) : Prop :=
  ∃ c rest, command = c :: rest ∧ isBlank c = false

/-- A line with its fields and its command. -/
structure IsLine (Item : List Char → Prop) (fields : List (List Char)) (command s : List Char) :
    Prop where
  length_eq : fields.length = 5
  fieldText : ∀ field ∈ fields, FieldText Item field
  splits : SplitsInto fields s command
  isCommand : IsCommand command

/-! ### Undefined arithmetic -/

/-- The value of the digits in a string. -/
def digitsIn (s : List Char) : ℕ :=
  valueFrom 0 (s.filter isDigit)

/-- A comma list that has something that is no `int` where the parser reads a number. -/
inductive OverflowingList : List Char → Prop
  | here {number rest : List Char} (hnumber : TakenForNumber number)
    (hlarge : intLimit ≤ digitsIn number) : OverflowingList (number ++ rest)
  | later {s t : List Char} (hitem : TakenForNumber s) (hlist : OverflowingList t) :
    OverflowingList (s ++ ',' :: t)

/-- The start of a field at which the parser's arithmetic is undefined. -/
inductive UndefinedField : List Char → Prop
  | list {s : List Char} (hlist : OverflowingList s) : UndefinedField s
  | step {digits rest : List Char} (hdigits : IsNumber digits)
    (hlarge : intLimit ≤ valueFrom 0 digits) : UndefinedField ('*' :: '/' :: (digits ++ rest))
  | zero {digits rest : List Char} {blank : Char} (hdigits : IsNumber digits)
    (hzero : valueFrom 0 digits = 0) (hblank : isBlank blank) :
    UndefinedField ('*' :: '/' :: (digits ++ blank :: rest))

/-- At most `count` fields, of which the last one leads into undefined arithmetic. -/
def UndefinedWithin (count : ℕ) (s : List Char) : Prop :=
  ∃ fields rest, fields.length < count ∧ (∀ field ∈ fields, FieldText TakenForNumber field) ∧
    SplitsInto fields s rest ∧ UndefinedField rest

/-- A line that leads the parser into undefined arithmetic. -/
def UndefinedLine (s : List Char) : Prop :=
  UndefinedWithin 5 s

/-! ### Strings of any length -/

/-- `len = strlen (str)`: the length of a string as an `int`. -/
def intLength (str : List Char) : ℤ :=
  (str.length : ℤ).bmod (2 ^ 32)

/-- The part of a string that the loop `for (i = 0; i < len; i++)` looks at. -/
def visible (str : List Char) : List Char :=
  str.take (intLength str).toNat

/-- `parse_cron_string` on a string of any length. -/
def parseAnyLength (str : List Char) : Option (Option CronjobTableData) :=
  (parseLoop .init 0 (visible str)).map fun result ↦ result.map fun tbl ↦
    { tbl with cmd := str.drop ((visible str).length - tbl.cmd.length) }

/-- `cronjob_add` on a string of any length; memory is taken to be available. -/
def cronjobAddAnyLength (self : Cronjob) (str : List Char) : Option (Cronjob × ℤ) :=
  (parseAnyLength str).map fun
    | some tbl => ({ self with tbl := tbl :: self.tbl }, 1)
    | none => (self, 0)

/-- The loop looks at the whole of a string whose length is an `int`. -/
theorem visible_eq {str : List Char} (hlen : str.length < intLimit) : visible str = str := by
  have hint : intLength str = str.length := by
    unfold intLimit at hlen
    exact Int.bmod_eq_of_le (by omega) (by omega)
  rw [visible, hint, Int.toNat_natCast, List.take_length]

/-- The command of an accepted line is an end of the string. -/
theorem cmd_suffix {p : CronParser} {i : ℕ} {s : List Char} {tbl : CronjobTableData}
    (hparse : parseLoop p i s = some (some tbl)) : tbl.cmd <:+ s := by
  induction s generalizing p i with
  | nil => cases hparse
  | cons c rest ih =>
    rw [parseLoop] at hparse
    split_ifs at hparse with herror
    · cases hparse
    · obtain ⟨p', -, hparse⟩ := Option.bind_eq_some_iff.mp hparse
      split_ifs at hparse with hcommand
      · obtain rfl := Option.some.inj (Option.some.inj hparse)
        exact List.suffix_rfl
      · exact (ih hparse).trans (List.suffix_cons c rest)

/-- On a string whose length is an `int` this is `parseCronString`. -/
theorem parseAnyLength_eq {str : List Char} (hlen : str.length < intLimit) :
    parseAnyLength str = parseCronString str := by
  rw [parseAnyLength, parseCronString, if_pos hlen, visible_eq hlen]
  rcases hparse : parseLoop .init 0 str with _ | _ | tbl
  · rfl
  · rfl
  · obtain ⟨front, hfront⟩ := cmd_suffix hparse
    have hdrop : str.drop (str.length - tbl.cmd.length) = tbl.cmd := by
      rw [← hfront]
      simp
    simp [hdrop]

/-! ### A string splits in one way -/

theorem Blanks.append {first second : List Char} (hfirst : Blanks first) (hsecond : Blanks second) :
    Blanks (first ++ second) :=
  fun c hc ↦ (List.mem_append.mp hc).elim (hfirst c) (hsecond c)

/-- Words: not empty, and without a blank. -/
def IsWord (word : List Char) : Prop :=
  word ≠ [] ∧ ∀ c ∈ word, isBlank c = false

theorem IsNumber.takenForNumber {s : List Char} (hnumber : IsNumber s) : TakenForNumber s := by
  obtain ⟨c, rest, rfl⟩ := List.exists_cons_of_ne_nil hnumber.1
  refine ⟨c, rest, rfl, hnumber.2 c List.mem_cons_self, fun d hd ↦ ?_⟩
  have hdigit := hnumber.2 d (List.mem_cons_of_mem c hd)
  exact ⟨isBlank_of_isDigit hdigit, ne_of_isDigit hdigit (by decide)⟩

theorem TakenForNumber.isWord {s : List Char} (htaken : TakenForNumber s) : IsWord s := by
  obtain ⟨c, rest, rfl, hc, hrest⟩ := htaken
  refine ⟨List.cons_ne_nil c rest, fun d hd ↦ ?_⟩
  rcases List.mem_cons.mp hd with rfl | hd
  · exact isBlank_of_isDigit hc
  · exact (hrest d hd).1

theorem ListText.mono {Item Item' : List Char → Prop} (himp : ∀ s, Item s → Item' s)
    {s : List Char} (hlist : ListText Item s) : ListText Item' s := by
  induction hlist with
  | one hitem => exact .one (himp _ hitem)
  | cons hitem _ ih => exact .cons (himp _ hitem) ih

theorem FieldText.mono {Item Item' : List Char → Prop} (himp : ∀ s, Item s → Item' s)
    {s : List Char} (hfield : FieldText Item s) : FieldText Item' s := by
  cases hfield with
  | star => exact .star
  | step hdigits => exact .step hdigits
  | list hlist => exact .list (hlist.mono himp)

theorem ListText.isWord {s : List Char} (hlist : ListText TakenForNumber s) : IsWord s := by
  induction hlist with
  | one hitem => exact hitem.isWord
  | cons hitem _ ih =>
    refine ⟨by simp, fun c hc ↦ ?_⟩
    rcases List.mem_append.mp hc with hc | hc
    · exact hitem.isWord.2 c hc
    · rcases List.mem_cons.mp hc with rfl | hc
      · decide
      · exact ih.2 c hc

/-- The fields the parser takes are words. -/
theorem FieldText.isWord {s : List Char} (hfield : FieldText TakenForNumber s) : IsWord s := by
  cases hfield with
  | star => exact ⟨List.cons_ne_nil _ _, fun c hc ↦ by rw [List.mem_singleton.mp hc]; decide⟩
  | step hdigits =>
    refine ⟨List.cons_ne_nil _ _, fun c hc ↦ ?_⟩
    rcases List.mem_cons.mp hc with rfl | hc
    · decide
    · rcases List.mem_cons.mp hc with rfl | hc
      · decide
      · exact isBlank_of_isDigit (hdigits.2 c hc)
  | list hlist => exact hlist.isWord

/-- Where a string that does not start with a blank begins, behind blanks. -/
theorem blanks_append_inj {first second s t : List Char} (hfirst : Blanks first)
    (hsecond : Blanks second) (hs : ∀ c ∈ s.head?, isBlank c = false)
    (ht : ∀ c ∈ t.head?, isBlank c = false) (heq : first ++ s = second ++ t) : s = t := by
  have hdrop (blanks rest : List Char) (hblanks : Blanks blanks)
      (hrest : ∀ c ∈ rest.head?, isBlank c = false) :
      (blanks ++ rest).dropWhile isBlank = rest := by
    induction blanks with
    | nil =>
      cases rest with
      | nil => rfl
      | cons c rest => exact List.dropWhile_cons_of_neg (by simp [hrest c rfl])
    | cons c blanks ih =>
      rw [List.cons_append, List.dropWhile_cons_of_pos (hblanks c List.mem_cons_self)]
      exact ih fun d hd ↦ hblanks d (List.mem_cons_of_mem c hd)
  rw [← hdrop first s hfirst hs, heq, hdrop second t hsecond ht]

/-- Where a word ends. -/
theorem word_append_inj {first second s t : List Char} {b b' : Char}
    (hfirst : ∀ c ∈ first, isBlank c = false) (hsecond : ∀ c ∈ second, isBlank c = false)
    (hb : isBlank b) (hb' : isBlank b') (heq : first ++ b :: s = second ++ b' :: t) :
    first = second ∧ s = t := by
  induction first generalizing second with
  | nil =>
    cases second with
    | nil => exact ⟨rfl, (List.cons.inj heq).2⟩
    | cons c second =>
      have hc := hsecond c List.mem_cons_self
      rw [← (List.cons.inj heq).1, hb] at hc
      exact Bool.noConfusion hc
  | cons c first ih =>
    cases second with
    | nil =>
      have hc := hfirst c List.mem_cons_self
      rw [(List.cons.inj heq).1, hb'] at hc
      exact Bool.noConfusion hc
    | cons d second =>
      obtain ⟨rfl, htail⟩ := List.cons.inj heq
      obtain ⟨rfl, hrest⟩ := ih (fun d hd ↦ hfirst d (List.mem_cons_of_mem c hd))
        (fun d hd ↦ hsecond d (List.mem_cons_of_mem c hd)) htail
      exact ⟨rfl, hrest⟩

/-- The words of a string are determined by their number. -/
theorem splitsInto_unique {words words' : List (List Char)} {s rest rest' : List Char}
    (hwords : ∀ word ∈ words, IsWord word) (hwords' : ∀ word ∈ words', IsWord word)
    (hlen : words.length = words'.length) (hsplits : SplitsInto words s rest)
    (hsplits' : SplitsInto words' s rest') : words = words' := by
  induction words generalizing words' s with
  | nil => exact (List.length_eq_zero_iff.mp hlen.symm).symm
  | cons word words ih =>
    obtain ⟨word', words', rfl⟩ := List.exists_cons_of_length_eq_add_one hlen.symm
    obtain ⟨blanks, b, behind, rfl, hblanks, hb, hsplits⟩ := hsplits
    obtain ⟨blanks', b', behind', heq, hblanks', hb', hsplits'⟩ := hsplits'
    have hword := hwords word List.mem_cons_self
    have hword' := hwords' word' List.mem_cons_self
    have hhead (w tail : List Char) (hw : IsWord w) :
        ∀ c ∈ (w ++ tail).head?, isBlank c = false := by
      obtain ⟨c, w, rfl⟩ := List.exists_cons_of_ne_nil hw.1
      intro d hd
      rw [List.cons_append, List.head?_cons, Option.mem_some_iff] at hd
      exact hd ▸ hw.2 c List.mem_cons_self
    have htail := blanks_append_inj hblanks hblanks' (hhead word _ hword) (hhead word' _ hword') heq
    obtain ⟨rfl, rfl⟩ := word_append_inj hword.2 hword'.2 hb hb' htail
    rw [ih (fun w hw ↦ hwords w (List.mem_cons_of_mem _ hw))
      (fun w hw ↦ hwords' w (List.mem_cons_of_mem _ hw)) (Nat.succ.inj hlen) hsplits hsplits']

/-- A longer string splits in the same way, with a longer rest. -/
theorem SplitsInto.append {words : List (List Char)} {s rest : List Char}
    (hsplits : SplitsInto words s rest) (more : List Char) :
    SplitsInto words (s ++ more) (rest ++ more) := by
  induction words generalizing s with
  | nil =>
    obtain ⟨blanks, rfl, hblanks⟩ := hsplits
    exact ⟨blanks, List.append_assoc blanks rest more, hblanks⟩
  | cons word words ih =>
    obtain ⟨blanks, b, behind, rfl, hblanks, hb, hsplits⟩ := hsplits
    exact ⟨blanks, b, behind ++ more, by simp, hblanks, hb, ih hsplits⟩

end Katmai.Cron
