import Katmai.Cron.LineGrammar

/-!
# The lines the parser accepts

The parser is compared with the grammar of `LineGrammar` in both directions. What one round of the
loop does is said once for every state (`### The rounds of the loop`). From the run to the text: an
induction over the characters that are left shows that a field is rejected, undefined or closed by a
blank, and what has been read of it then (`field_outcome`), and so for the fields of a line
(`fields_outcome`). From the text to the run: over a text of the grammar the loop goes on, or is
undefined before its end (`line_accepted`), and it is undefined where the text says so
(`line_undefined`).

Together, the arithmetic is undefined on exactly the strings of `UndefinedLine`
(`parseLoop_eq_none_iff`), and apart from these the parser accepts exactly the lines with
`TakenForNumber` in their lists (`parseLoop_eq_some_iff`). So `cronjob_add` follows the grammar
except on lines where a number is followed by something else (`cronjobAdd_grammar_iff`).
-/

set_option autoImplicit false
set_option relaxedAutoImplicit false

namespace Katmai.Cron

/-! ### The rounds of the loop -/

/-- The parser before a field: `k` fields are stored. -/
structure Before (k : ℕ) (p : CronParser) : Prop where
  state_eq : p.state = .start
  newfield_eq : p.newfield = false
  f_eq : p.f = k

/-- The parser behind the blank that closes a field, which is not stored yet. -/
structure Behind (k : ℕ) (p : CronParser) : Prop where
  state_eq : p.state = .start
  newfield_eq : p.newfield = true
  f_eq : p.f = k

/-- The parser in a field, with the number read so far. -/
structure Within (state : ParseState) (k n : ℕ) (p : CronParser) : Prop where
  state_eq : p.state = state
  newfield_eq : p.newfield = false
  f_eq : p.f = k
  n_eq : p.n = n

/-- The loop goes on with another parser at another place. -/
def Leads (p : CronParser) (i : ℕ) (s : List Char) (p' : CronParser) (t : List Char) : Prop :=
  ∃ j, parseLoop p i s = parseLoop p' j t

theorem Leads.trans {p p' p'' : CronParser} {i : ℕ} {s t u : List Char} (hfirst : Leads p i s p' t)
    (hsecond : ∀ j, Leads p' j t p'' u) : Leads p i s p'' u := by
  obtain ⟨j, hfirst⟩ := hfirst
  obtain ⟨j', hsecond⟩ := hsecond j
  exact ⟨j', hfirst.trans hsecond⟩

/-- A round that does not end the loop. -/
theorem leads_of_readChar {p p' : CronParser} {i : ℕ} {c : Char} (rest : List Char)
    (hread : readChar p i c = some p') (hp : p.state ≠ .error) (hp' : p'.state ≠ .command) :
    Leads p i (c :: rest) p' rest :=
  ⟨i + 1, parseLoop_cons rest hread hp hp'⟩

/-- Behind an error the loop returns `0`. -/
theorem parseLoop_error {p : CronParser} (hp : p.state = .error) (i : ℕ) (s : List Char) :
    parseLoop p i s = some none := by
  cases s with
  | nil => rfl
  | cons c rest => rw [parseLoop, if_pos hp]

/-- A round that ends in an error. -/
theorem parseLoop_reject {p : CronParser} (p' : CronParser) {i : ℕ} {c : Char} (rest : List Char)
    (hread : readChar p i c = some p') (hp : p.state ≠ .error) (hp' : p'.state = .error) :
    parseLoop p i (c :: rest) = some none := by
  rw [parseLoop_cons rest hread hp (by rw [hp']; decide), parseLoop_error hp']

section Rounds

variable {p : CronParser} {k n i : ℕ} {c : Char} (rest : List Char)

theorem Before.blank (hp : Before k p) (hc : isBlank c) :
    ∃ p', Before k p' ∧ Leads p i (c :: rest) p' rest := by
  obtain ⟨hstate, hnewfield, hf⟩ := hp
  refine ⟨{ p with i32 := 0, i64 := 0 }, ⟨hstate, hnewfield, hf⟩, leads_of_readChar rest ?_ ?_ ?_⟩
  · simp [readChar, hstate, hnewfield, openField, hc]
  · simp [hstate]
  · simp [hstate]

theorem Before.star (hp : Before k p) :
    ∃ p', Within .star k p.n p' ∧ Leads p i ('*' :: rest) p' rest := by
  obtain ⟨hstate, hnewfield, hf⟩ := hp
  refine ⟨{ p with i32 := 0, i64 := 0, state := .star }, ⟨rfl, hnewfield, hf, rfl⟩,
    leads_of_readChar rest ?_ (by simp [hstate]) (by simp)⟩
  have hblank : isBlank '*' = false := by decide
  simp [readChar, hstate, hnewfield, openField, hblank]

theorem Before.digit (hp : Before k p) (hc : isDigit c) :
    ∃ p', Within .number k (digitValue c) p' ∧ Leads p i (c :: rest) p' rest := by
  obtain ⟨hstate, hnewfield, hf⟩ := hp
  refine ⟨{ p with i32 := 0, i64 := 0, n := digitValue c, state := .number },
    ⟨rfl, hnewfield, hf, rfl⟩, leads_of_readChar rest ?_ (by simp [hstate]) (by simp)⟩
  have hstar : c ≠ '*' := ne_of_isDigit hc (by decide)
  simp [readChar, hstate, hnewfield, openField, isBlank_of_isDigit hc, hc, hstar]

theorem Before.other (hp : Before k p) (hblank : isBlank c = false) (hstar : c ≠ '*')
    (hdigit : isDigit c = false) : parseLoop p i (c :: rest) = some none := by
  obtain ⟨hstate, hnewfield, hf⟩ := hp
  refine parseLoop_reject { p with i32 := 0, i64 := 0, state := .error } rest ?_
    (by simp [hstate]) rfl
  simp [readChar, hstate, hnewfield, openField, hblank, hstar, hdigit]

/-- A round in state `1`. -/
theorem Within.star_round (hp : Within .star k n p) :
    (isBlank c = true ∧ ∃ p', Behind k p' ∧ Leads p i (c :: rest) p' rest) ∨
      (c = '/' ∧ ∃ p', Within .slash k 0 p' ∧ Leads p i (c :: rest) p' rest) ∨
      (isBlank c = false ∧ c ≠ '/' ∧ parseLoop p i (c :: rest) = some none) := by
  obtain ⟨hstate, hnewfield, hf, -⟩ := hp
  by_cases hblank : isBlank c = true
  · refine Or.inl ⟨hblank, { p with
      i32 := 0xffffffff, i64 := 0x7fffffffffffffff, newfield := true, state := .start },
      ⟨rfl, rfl, hf⟩, leads_of_readChar rest ?_ (by simp [hstate]) (by simp)⟩
    simp [readChar, hstate, hblank]
  · by_cases hslash : c = '/'
    · refine Or.inr (Or.inl ⟨hslash, { p with n := 0, state := .slash }, ⟨rfl, hnewfield, hf, rfl⟩,
        leads_of_readChar rest ?_ (by simp [hstate]) (by simp)⟩)
      have hnot : isBlank '/' = false := by decide
      simp [readChar, hstate, hslash, hnot]
    · refine Or.inr (Or.inr ⟨by simpa using hblank, hslash, ?_⟩)
      refine parseLoop_reject { p with state := .error } rest ?_ (by simp [hstate]) rfl
      simp [readChar, hstate, hblank, hslash]

/-- A round in the states in which a digit has to follow. -/
theorem Within.digit_round {state next : ParseState}
    (hstates : (state = .slash ∧ next = .every) ∨ (state = .comma ∧ next = .number))
    (hp : Within state k n p) :
    (isDigit c = true ∧
        ∃ p', Within next k (digitValue c) p' ∧ Leads p i (c :: rest) p' rest) ∨
      (isDigit c = false ∧ parseLoop p i (c :: rest) = some none) := by
  obtain ⟨hstate, hnewfield, hf, -⟩ := hp
  by_cases hdigit : isDigit c = true
  · refine Or.inl ⟨hdigit, { p with n := digitValue c, state := next },
      ⟨rfl, hnewfield, hf, rfl⟩, ?_⟩
    rcases hstates with ⟨rfl, rfl⟩ | ⟨rfl, rfl⟩
    · exact leads_of_readChar rest (by simp [readChar, hstate, hdigit]) (by simp [hstate]) (by simp)
    · exact leads_of_readChar rest (by simp [readChar, hstate, hdigit]) (by simp [hstate]) (by simp)
  · refine Or.inr ⟨by simpa using hdigit, ?_⟩
    rcases hstates with ⟨rfl, rfl⟩ | ⟨rfl, rfl⟩
    · exact parseLoop_reject { p with state := .error } rest
        (by simp [readChar, hstate, hdigit]) (by simp [hstate]) rfl
    · exact parseLoop_reject { p with state := .error } rest
        (by simp [readChar, hstate, hdigit]) (by simp [hstate]) rfl

/-- A digit behind a digit. -/
theorem Within.append_round {state : ParseState} (hstates : state = .number ∨ state = .every)
    (hp : Within state k n p) (hc : isDigit c) :
    (intLimit ≤ n * 10 + digitValue c ∧ parseLoop p i (c :: rest) = none) ∨
      (n * 10 + digitValue c < intLimit ∧
        ∃ p', Within state k (n * 10 + digitValue c) p' ∧ Leads p i (c :: rest) p' rest) := by
  obtain ⟨hstate, hnewfield, hf, hn⟩ := hp
  have hread : readChar p i c = (appendDigit n c).map fun n ↦ { p with n := n } := by
    rcases hstates with rfl | rfl <;> simp [readChar, hstate, hc, isBlank_of_isDigit hc, hn]
  have hnot : p.state ≠ .error ∧ p.state ≠ .command := by
    rw [hstate]
    rcases hstates with rfl | rfl <;> simp
  by_cases hfits : n * 10 + digitValue c < intLimit
  · have happend : appendDigit n c = some (n * 10 + digitValue c) := if_pos hfits
    rw [happend, Option.map_some] at hread
    exact Or.inr ⟨hfits, { p with n := n * 10 + digitValue c }, ⟨hstate, hnewfield, hf, rfl⟩,
      leads_of_readChar rest hread hnot.1 hnot.2⟩
  · have happend : appendDigit n c = none := if_neg hfits
    rw [happend, Option.map_none] at hread
    exact Or.inl ⟨by omega, parseLoop_eq_none rest hread hnot.1⟩

theorem Within.number_blank (hp : Within .number k n p) (hc : isBlank c) :
    ∃ p', Behind k p' ∧ Leads p i (c :: rest) p' rest := by
  obtain ⟨hstate, hnewfield, hf, -⟩ := hp
  refine ⟨{ p with
    i64 := p.i64 ||| mask64 p.n, i32 := p.i32 ||| mask32 p.n, newfield := true, state := .start },
    ⟨rfl, rfl, hf⟩, leads_of_readChar rest ?_ (by simp [hstate]) (by simp)⟩
  simp [readChar, hstate, hc]

theorem Within.number_comma (hp : Within .number k n p) :
    ∃ p', Within .comma k n p' ∧ Leads p i (',' :: rest) p' rest := by
  obtain ⟨hstate, hnewfield, hf, hn⟩ := hp
  refine ⟨{ p with
    i64 := p.i64 ||| mask64 p.n, i32 := p.i32 ||| mask32 p.n, state := .comma },
    ⟨rfl, hnewfield, hf, hn⟩, leads_of_readChar rest ?_ (by simp [hstate]) (by simp)⟩
  have hblank : isBlank ',' = false := by decide
  have hdigit : isDigit ',' = false := by decide
  simp [readChar, hstate, hblank, hdigit]

/-- State `2` has no branch for other characters: they are passed over. -/
theorem Within.number_other (hp : Within .number k n p) (hblank : isBlank c = false)
    (hdigit : isDigit c = false) (hcomma : c ≠ ',') : Leads p i (c :: rest) p rest := by
  obtain ⟨hstate, -, -, -⟩ := hp
  refine leads_of_readChar rest ?_ (by simp [hstate]) (by simp [hstate])
  simp [readChar, hstate, hblank, hdigit, hcomma]

/-- A blank in state `5`. -/
theorem Within.every_blank (hp : Within .every k n p) (hc : isBlank c) :
    (n = 0 ∧ parseLoop p i (c :: rest) = none) ∨
      (n ≠ 0 ∧ ∃ p', Behind k p' ∧ Leads p i (c :: rest) p' rest) := by
  obtain ⟨hstate, hnewfield, hf, hn⟩ := hp
  by_cases hzero : n = 0
  · refine Or.inl ⟨hzero, parseLoop_eq_none rest ?_ (by simp [hstate])⟩
    simp [readChar, hstate, hc, hn, hzero]
  · rw [← hn] at hzero
    have hread := readChar_every hstate hzero i hc
    refine Or.inr ⟨hn ▸ hzero, _, ?_, leads_of_readChar rest hread (by simp [hstate]) (by simp)⟩
    exact ⟨rfl, rfl, hf⟩

theorem Within.every_other (hp : Within .every k n p) (hblank : isBlank c = false)
    (hdigit : isDigit c = false) : parseLoop p i (c :: rest) = some none := by
  obtain ⟨hstate, -, -, -⟩ := hp
  refine parseLoop_reject { p with state := .error } rest ?_ (by simp [hstate]) rfl
  simp [readChar, hstate, hblank, hdigit]

/-- Behind a field that is not the fifth one, the parser is before the next one as soon as there is
another character. -/
theorem Behind.before (hp : Behind k p) (hk : k < 4) :
    ∃ p', Before (k + 1) p' ∧ ∀ i s, parseLoop p i s = parseLoop p' i s := by
  obtain ⟨hstate, hnewfield, hf⟩ := hp
  have hfields : (storeField p).state = .start ∧ (storeField p).newfield = false ∧
      (storeField p).f = k + 1 := by
    unfold storeField
    interval_cases k <;> simp [hf, hstate]
  refine ⟨storeField p, ⟨hfields.1, hfields.2.1, hfields.2.2⟩, fun i s ↦ ?_⟩
  cases s with
  | nil => rfl
  | cons c rest =>
    have hread : readChar p i c = readChar (storeField p) i c := by
      simp [readChar, hstate, hnewfield, hfields.1, hfields.2.1]
    rw [parseLoop, parseLoop, hread, hstate, hfields.1]

/-- Behind the fifth field the parser is before the command. -/
theorem Behind.command (hp : Behind 4 p) :
    ∃ p' : CronParser, p'.state = .command ∧ ∀ i s, parseLoop p i s = parseLoop p' i s := by
  obtain ⟨hstate, hnewfield, hf⟩ := hp
  have hcommand : (storeField p).state = .command := by
    unfold storeField
    simp [hf]
  refine ⟨storeField p, hcommand, fun i s ↦ ?_⟩
  cases s with
  | nil => rfl
  | cons c rest =>
    have hread : readChar p i c = readChar (storeField p) i c := by
      simp [readChar, hstate, hnewfield, hcommand]
    rw [parseLoop, parseLoop, hread, hstate, hcommand]
    rfl

/-- The parser with a number of fields still to read: before a field, or before the command. -/
def AtFields (count : ℕ) (p : CronParser) : Prop :=
  match count with
  | 0 => p.state = .command
  | count + 1 => Before (4 - count) p

/-- Behind a field, as soon as there is another character, there is one field less to read. -/
theorem Behind.atFields {count : ℕ} (hp : Behind (4 - count) p) (hcount : count ≤ 4) :
    ∃ p', AtFields count p' ∧ ∀ i s, parseLoop p i s = parseLoop p' i s := by
  cases count with
  | zero => exact hp.command
  | succ count =>
    obtain ⟨p', hp', hsame⟩ := hp.before (by omega)
    have hnext : 4 - (count + 1) + 1 = 4 - count := by omega
    rw [hnext] at hp'
    exact ⟨p', hp', hsame⟩

end Rounds

/-! ### The value of a number read so far -/

theorem digitsIn_concat (s : List Char) (c : Char) :
    digitsIn (s ++ [c]) = if isDigit c then digitsIn s * 10 + digitValue c else digitsIn s := by
  unfold digitsIn valueFrom
  rw [List.filter_append]
  by_cases hc : isDigit c = true <;> simp [hc]

theorem digitsIn_eq {s : List Char} (hdigits : ∀ c ∈ s, isDigit c) :
    digitsIn s = valueFrom 0 s := by
  rw [digitsIn, List.filter_eq_self.mpr hdigits]

theorem TakenForNumber.concat {s : List Char} (htaken : TakenForNumber s) {c : Char}
    (hblank : isBlank c = false) (hcomma : c ≠ ',') : TakenForNumber (s ++ [c]) := by
  obtain ⟨first, rest, rfl, hfirst, hrest⟩ := htaken
  refine ⟨first, rest ++ [c], rfl, hfirst, fun d hd ↦ ?_⟩
  rcases List.mem_append.mp hd with hd | hd
  · exact hrest d hd
  · rw [List.mem_singleton.mp hd]
    exact ⟨hblank, hcomma⟩

theorem IsNumber.concat {s : List Char} (hnumber : IsNumber s) {c : Char} (hc : isDigit c) :
    IsNumber (s ++ [c]) := by
  refine ⟨by simp, fun d hd ↦ ?_⟩
  rcases List.mem_append.mp hd with hd | hd
  · exact hnumber.2 d hd
  · rw [List.mem_singleton.mp hd]
    exact hc

theorem isNumber_singleton {c : Char} (hc : isDigit c) : IsNumber [c] :=
  ⟨List.cons_ne_nil c [], fun d hd ↦ by rw [List.mem_singleton.mp hd]; exact hc⟩

/-! ### From the run to the text -/

/-- What comes of a field, `whole` being its text from its start on and `s` what is left of it: the
loop returns `0`, or its arithmetic is undefined, or the field is closed by a blank. -/
def Outcome (Text Undefined : List Char → Prop) (k : ℕ) (whole : List Char) (p : CronParser) (i : ℕ)
    (s : List Char) : Prop :=
  parseLoop p i s = some none ∨ (parseLoop p i s = none ∧ Undefined whole) ∨
    ∃ text blank rest p', whole = text ++ blank :: rest ∧ Text text ∧ isBlank blank ∧
      Behind k p' ∧ Leads p i s p' rest

section Outcomes

variable {Text Undefined Text' Undefined' : List Char → Prop} {k n i : ℕ} {p p' : CronParser}
  {whole whole' s t : List Char}

/-- A round in the middle of a field. -/
theorem Outcome.of_leads (hleads : Leads p i s p' t)
    (houtcome : ∀ j, Outcome Text Undefined k whole p' j t) :
    Outcome Text Undefined k whole p i s := by
  obtain ⟨j, hj⟩ := hleads
  rcases houtcome j with hreject | ⟨hnone, hundefined⟩ |
    ⟨text, b, rest, q, hwhole, htext, hb, hq, hnext⟩
  · exact Or.inl (hj.trans hreject)
  · exact Or.inr (Or.inl ⟨hj.trans hnone, hundefined⟩)
  · obtain ⟨j', hj'⟩ := hnext
    exact Or.inr (Or.inr ⟨text, b, rest, q, hwhole, htext, hb, hq, j', hj.trans hj'⟩)

/-- The same outcome, seen from further in front. -/
theorem Outcome.map (hundefined : Undefined whole → Undefined' whole')
    (htext : ∀ text b rest, whole = text ++ b :: rest → Text text →
      ∃ text', whole' = text' ++ b :: rest ∧ Text' text')
    (houtcome : Outcome Text Undefined k whole p i s) :
    Outcome Text' Undefined' k whole' p i s := by
  rcases houtcome with hreject | ⟨hnone, hundef⟩ | ⟨text, b, rest, q, hwhole, ht, hb, hq, hnext⟩
  · exact Or.inl hreject
  · exact Or.inr (Or.inl ⟨hnone, hundefined hundef⟩)
  · obtain ⟨text', hwhole', ht'⟩ := htext text b rest hwhole ht
    exact Or.inr (Or.inr ⟨text', b, rest, q, hwhole', ht', hb, hq, hnext⟩)

/-- A comma list, from within a number and from behind a comma. -/
theorem list_outcome (k : ℕ) (s : List Char) :
    (∀ p i n number, Within .number k n p → TakenForNumber number → digitsIn number = n →
      n < intLimit →
        Outcome (ListText TakenForNumber) OverflowingList k (number ++ s) p i s) ∧
    ∀ p i n, Within .comma k n p →
      Outcome (ListText TakenForNumber) OverflowingList k s p i s := by
  induction s with
  | nil => exact ⟨fun _ _ _ _ _ _ _ _ ↦ Or.inl rfl, fun _ _ _ _ ↦ Or.inl rfl⟩
  | cons c rest ih =>
    obtain ⟨ihnumber, ihcomma⟩ := ih
    constructor
    · intro p i n number hp htaken hvalue hn
      have hassoc : number ++ c :: rest = (number ++ [c]) ++ rest := by simp
      by_cases hblank : isBlank c = true
      · obtain ⟨p', hp', hleads⟩ := hp.number_blank (i := i) rest hblank
        exact Or.inr (Or.inr ⟨number, c, rest, p', rfl, .one htaken, hblank, hp', hleads⟩)
      · have hblank' : isBlank c = false := by simpa using hblank
        by_cases hcomma : c = ','
        · subst hcomma
          obtain ⟨p', hp', hleads⟩ := hp.number_comma (i := i) rest
          refine Outcome.of_leads hleads fun j ↦ ?_
          refine (ihcomma p' j n hp').map (fun hover ↦ .later htaken hover) ?_
          rintro text b rest' rfl htext
          exact ⟨number ++ ',' :: text, by simp, .cons htaken htext⟩
        · have htaken' := htaken.concat hblank' hcomma
          by_cases hdigit : isDigit c = true
          · have hvalue' : digitsIn (number ++ [c]) = n * 10 + digitValue c := by
              rw [digitsIn_concat, if_pos hdigit, hvalue]
            rw [hassoc]
            rcases hp.append_round (i := i) rest (Or.inl rfl) hdigit with
              ⟨hlarge, hnone⟩ | ⟨hfits, p', hp', hleads⟩
            · exact Or.inr (Or.inl ⟨hnone, .here htaken' (by rw [hvalue']; exact hlarge)⟩)
            · exact Outcome.of_leads hleads fun j ↦
                ihnumber p' j _ (number ++ [c]) hp' htaken' hvalue' hfits
          · have hvalue' : digitsIn (number ++ [c]) = n := by
              rw [digitsIn_concat, if_neg hdigit, hvalue]
            rw [hassoc]
            exact Outcome.of_leads
              (hp.number_other (i := i) rest hblank' (by simpa using hdigit) hcomma)
              fun j ↦ ihnumber p j n (number ++ [c]) hp htaken' hvalue' hn
    · intro p i n hp
      rcases hp.digit_round (i := i) (c := c) rest (Or.inr ⟨rfl, rfl⟩) with
        ⟨hdigit, p', hp', hleads⟩ | ⟨-, hreject⟩
      · have hnumber := isNumber_singleton hdigit
        have hvalue : digitsIn [c] = digitValue c := by
          rw [digitsIn_eq hnumber.2]
          simp [valueFrom]
        exact Outcome.of_leads hleads fun j ↦
          ihnumber p' j _ [c] hp' hnumber.takenForNumber hvalue (digitValue_lt hdigit)
      · exact Or.inl hreject

/-- A step, from within its number. -/
theorem every_outcome (k : ℕ) (s : List Char) :
    ∀ p i n digits, Within .every k n p → IsNumber digits → valueFrom 0 digits = n →
      n < intLimit → Outcome (FieldText TakenForNumber) UndefinedField k
        ('*' :: '/' :: (digits ++ s)) p i s := by
  induction s with
  | nil => exact fun _ _ _ _ _ _ _ _ ↦ Or.inl rfl
  | cons c rest ih =>
    intro p i n digits hp hnumber hvalue hn
    by_cases hblank : isBlank c = true
    · rcases hp.every_blank (i := i) rest hblank with ⟨hzero, hnone⟩ | ⟨-, p', hp', hleads⟩
      · exact Or.inr (Or.inl ⟨hnone, .zero hnumber (hvalue.trans hzero) hblank⟩)
      · exact Or.inr (Or.inr ⟨'*' :: '/' :: digits, c, rest, p', rfl, .step hnumber, hblank, hp',
          hleads⟩)
    · by_cases hdigit : isDigit c = true
      · have hnumber' := hnumber.concat hdigit
        have hvalue' : valueFrom 0 (digits ++ [c]) = n * 10 + digitValue c := by
          rw [← hvalue]
          simp [valueFrom]
        have hassoc : digits ++ c :: rest = (digits ++ [c]) ++ rest := by simp
        rw [hassoc]
        rcases hp.append_round (i := i) rest (Or.inr rfl) hdigit with
          ⟨hlarge, hnone⟩ | ⟨hfits, p', hp', hleads⟩
        · exact Or.inr (Or.inl ⟨hnone, .step hnumber' (by rw [hvalue']; exact hlarge)⟩)
        · exact Outcome.of_leads hleads fun j ↦
            ih p' j _ (digits ++ [c]) hp' hnumber' hvalue' hfits
      · exact Or.inl (hp.every_other (i := i) rest (by simpa using hblank) (by simpa using hdigit))

/-- A field, from its start on. -/
theorem field_outcome (hp : Before k p) (i : ℕ) {c : Char} (hblank : isBlank c = false)
    (rest : List Char) :
    Outcome (FieldText TakenForNumber) UndefinedField k (c :: rest) p i (c :: rest) := by
  by_cases hstar : c = '*'
  · subst hstar
    obtain ⟨p', hp', hleads⟩ := hp.star (i := i) rest
    refine Outcome.of_leads hleads fun j ↦ ?_
    cases rest with
    | nil => exact Or.inl rfl
    | cons d rest =>
      rcases hp'.star_round (i := j) (c := d) rest with
        ⟨hd, q, hq, hleads'⟩ | ⟨rfl, q, hq, hleads'⟩ | ⟨-, -, hreject⟩
      · exact Or.inr (Or.inr ⟨['*'], d, rest, q, rfl, .star, hd, hq, hleads'⟩)
      · refine Outcome.of_leads hleads' fun j' ↦ ?_
        cases rest with
        | nil => exact Or.inl rfl
        | cons e rest =>
          rcases hq.digit_round (i := j') (c := e) rest (Or.inl ⟨rfl, rfl⟩) with
            ⟨he, q', hq', hleads''⟩ | ⟨-, hreject⟩
          · have hvalue : valueFrom 0 [e] = digitValue e := by simp [valueFrom]
            exact Outcome.of_leads hleads'' fun j'' ↦
              every_outcome k rest q' j'' _ [e] hq' (isNumber_singleton he) hvalue
                (digitValue_lt he)
          · exact Or.inl hreject
      · exact Or.inl hreject
  · by_cases hdigit : isDigit c = true
    · obtain ⟨p', hp', hleads⟩ := hp.digit (i := i) rest hdigit
      have hnumber := isNumber_singleton hdigit
      have hvalue : digitsIn [c] = digitValue c := by
        rw [digitsIn_eq hnumber.2]
        simp [valueFrom]
      refine Outcome.of_leads hleads fun j ↦ ?_
      refine ((list_outcome k rest).1 p' j _ [c] hp' hnumber.takenForNumber hvalue
        (digitValue_lt hdigit)).map .list fun text b rest' hwhole htext ↦ ?_
      exact ⟨text, hwhole, .list htext⟩
    · exact Or.inl (hp.other (i := i) rest hblank hstar (by simpa using hdigit))

/-- Blanks before a field are passed over. -/
theorem Before.blanks (hp : Before k p) {blanks : List Char} (hblanks : Blanks blanks) (i : ℕ)
    (s : List Char) : ∃ p', Before k p' ∧ Leads p i (blanks ++ s) p' s := by
  induction blanks generalizing p i with
  | nil => exact ⟨p, hp, i, rfl⟩
  | cons c blanks ih =>
    obtain ⟨p', hp', j, hj⟩ := hp.blank (i := i) (blanks ++ s) (hblanks c List.mem_cons_self)
    obtain ⟨p'', hp'', hleads⟩ := ih hp' (fun d hd ↦ hblanks d (List.mem_cons_of_mem c hd)) j
    obtain ⟨j', hj'⟩ := hleads
    exact ⟨p'', hp'', j', hj.trans hj'⟩

theorem exists_blanks (s : List Char) :
    ∃ blanks t, s = blanks ++ t ∧ Blanks blanks ∧ (t = [] ∨ IsCommand t) := by
  induction s with
  | nil => exact ⟨[], [], rfl, fun _ h ↦ absurd h List.not_mem_nil, Or.inl rfl⟩
  | cons c rest ih =>
    by_cases hc : isBlank c = true
    · obtain ⟨blanks, t, rfl, hblanks, ht⟩ := ih
      exact ⟨c :: blanks, t, rfl, List.forall_mem_cons.mpr ⟨hc, hblanks⟩, ht⟩
    · exact ⟨[], c :: rest, rfl, fun _ h ↦ absurd h List.not_mem_nil,
        Or.inr ⟨c, rest, rfl, by simpa using hc⟩⟩

/-- In front of the command the loop returns `0`, or an entry with the command. -/
theorem command_outcome (hp : p.state = .command) (i : ℕ) (s : List Char) :
    parseLoop p i s = some none ∨
      ∃ command tbl, SplitsInto [] s command ∧ IsCommand command ∧
        parseLoop p i s = some (some tbl) := by
  obtain ⟨blanks, t, rfl, hblanks, rfl | ⟨c, rest, rfl, hc⟩⟩ := exists_blanks s
  · refine Or.inl ?_
    rw [List.append_nil]
    induction blanks generalizing i with
    | nil => rfl
    | cons c blanks ih =>
      have hc := hblanks c List.mem_cons_self
      have hread : readChar p i c = some p := by simp [readChar, hp]
      rw [parseLoop, if_neg (by rw [hp]; decide), hread, Option.bind_some, if_neg (by simp [hc])]
      exact ih (i + 1) fun d hd ↦ hblanks d (List.mem_cons_of_mem c hd)
  · exact Or.inr ⟨c :: rest, _, ⟨blanks, rfl, hblanks⟩, ⟨c, rest, rfl, hc⟩,
      parseLoop_command hp i hblanks (List.cons_ne_nil c rest) hc⟩

/-- What comes of the last fields of a line: a result of the loop other than `0` shows in the
text. -/
theorem fields_outcome {count : ℕ} : ∀ {p : CronParser} (i : ℕ) (s : List Char), count ≤ 5 →
    AtFields count p →
      parseLoop p i s = some none ∨
      (parseLoop p i s = none ∧ UndefinedWithin count s) ∨
      ∃ fields command tbl, fields.length = count ∧
        (∀ field ∈ fields, FieldText TakenForNumber field) ∧ SplitsInto fields s command ∧
          IsCommand command ∧ parseLoop p i s = some (some tbl) := by
  induction count with
  | zero =>
    intro p i s _ hp
    rcases command_outcome hp i s with hreject | ⟨command, tbl, hsplits, hcommand, hsome⟩
    · exact Or.inl hreject
    · exact Or.inr (Or.inr ⟨[], command, tbl, rfl, fun _ h ↦ absurd h List.not_mem_nil, hsplits,
        hcommand, hsome⟩)
  | succ count ih =>
    intro p i s hcount hp
    obtain ⟨blanks, t, rfl, hblanks, ht⟩ := exists_blanks s
    obtain ⟨p', hp', j, hj⟩ := hp.blanks hblanks i t
    rw [hj]
    rcases ht with rfl | ⟨c, rest, rfl, hc⟩
    · exact Or.inl rfl
    · rcases field_outcome hp' j hc rest with hreject | ⟨hnone, hundef⟩ |
        ⟨text, b, behind, q, hwhole, htext, hb, hq, j', hj'⟩
      · exact Or.inl hreject
      · exact Or.inr (Or.inl ⟨hnone, [], c :: rest, Nat.succ_pos _,
          fun _ h ↦ absurd h List.not_mem_nil, ⟨blanks, rfl, hblanks⟩, hundef⟩)
      · obtain ⟨q', hq', hsame⟩ := hq.atFields (by omega)
        rw [hj', hsame, hwhole]
        rcases ih j' behind (by omega) hq' with hreject |
          ⟨hnone, fields, rest', hlen, hfields, hsplits, hundef⟩ |
          ⟨fields, command, tbl, hlen, hfields, hsplits, hcommand, hsome⟩
        · exact Or.inl hreject
        · exact Or.inr (Or.inl ⟨hnone, text :: fields, rest', Nat.succ_lt_succ hlen,
            List.forall_mem_cons.mpr ⟨htext, hfields⟩,
            ⟨blanks, b, behind, rfl, hblanks, hb, hsplits⟩, hundef⟩)
        · exact Or.inr (Or.inr ⟨text :: fields, command, tbl, congrArg (· + 1) hlen,
            List.forall_mem_cons.mpr ⟨htext, hfields⟩,
            ⟨blanks, b, behind, rfl, hblanks, hb, hsplits⟩, hcommand, hsome⟩)

end Outcomes

/-! ### From the text to the run -/

section Forward

variable {k n i : ℕ} {p : CronParser}

/-- The loop's arithmetic is undefined, or it goes on with a parser of some kind. -/
def Continues (Next : CronParser → Prop) (p : CronParser) (i : ℕ) (s t : List Char) : Prop :=
  parseLoop p i s = none ∨ ∃ p', Next p' ∧ Leads p i s p' t

theorem Continues.of_leads {Next : CronParser → Prop} {p' : CronParser} {s t u : List Char}
    (hleads : Leads p i s p' t) (hnext : ∀ j, Continues Next p' j t u) :
    Continues Next p i s u := by
  obtain ⟨j, hj⟩ := hleads
  rcases hnext j with hnone | ⟨q, hq, j', hj'⟩
  · exact Or.inl (hj.trans hnone)
  · exact Or.inr ⟨q, hq, j', hj.trans hj'⟩

theorem Continues.trans {Next Next' : CronParser → Prop} {s t u : List Char}
    (hfirst : Continues Next p i s t)
    (hsecond : ∀ p', Next p' → ∀ j, Continues Next' p' j t u) : Continues Next' p i s u := by
  rcases hfirst with hnone | ⟨p', hp', hleads⟩
  · exact Or.inl hnone
  · exact Continues.of_leads hleads (hsecond p' hp')

/-- Nothing continues a computation that is undefined behind it. -/
theorem Continues.eq_none {Next : CronParser → Prop} {s t : List Char}
    (hfirst : Continues Next p i s t) (hnext : ∀ p', Next p' → ∀ j, parseLoop p' j t = none) :
    parseLoop p i s = none := by
  rcases hfirst with hnone | ⟨p', hp', j, hj⟩
  · exact hnone
  · exact hj.trans (hnext p' hp' j)

/-- What follows the first digit of a number of a list: its digits are added up, and the result is
undefined if that is no `int`. -/
theorem number_forward {rest : List Char} (hrest : ∀ d ∈ rest, isBlank d = false ∧ d ≠ ',')
    (s : List Char) (hp : Within .number k n p) (hn : n < intLimit) (i : ℕ) :
    (intLimit ≤ valueFrom n (rest.filter isDigit) ∧ parseLoop p i (rest ++ s) = none) ∨
      (∃ m p', Within .number k m p' ∧ Leads p i (rest ++ s) p' s) ∧
        valueFrom n (rest.filter isDigit) < intLimit := by
  induction rest generalizing p n i with
  | nil => exact Or.inr ⟨⟨n, p, hp, i, rfl⟩, hn⟩
  | cons d rest ih =>
    obtain ⟨⟨hblank, hcomma⟩, hlater⟩ := List.forall_mem_cons.mp hrest
    by_cases hdigit : isDigit d = true
    · rw [List.filter_cons_of_pos hdigit, valueFrom_cons]
      rcases hp.append_round (i := i) (rest ++ s) (Or.inl rfl) hdigit with
        ⟨hlarge, hnone⟩ | ⟨hfits, p', hp', j, hj⟩
      · exact Or.inl ⟨hlarge.trans (le_valueFrom _ _), hnone⟩
      · rcases ih hlater hp' hfits j with ⟨hlarge, hnone⟩ | ⟨⟨m, q, hq, j', hj'⟩, hvalue⟩
        · exact Or.inl ⟨hlarge, hj.trans hnone⟩
        · exact Or.inr ⟨⟨m, q, hq, j', hj.trans hj'⟩, hvalue⟩
    · rw [List.filter_cons_of_neg hdigit]
      obtain ⟨j, hj⟩ := hp.number_other (i := i) (rest ++ s) hblank (by simpa using hdigit) hcomma
      rcases ih hlater hp hn j with ⟨hlarge, hnone⟩ | ⟨⟨m, q, hq, j', hj'⟩, hvalue⟩
      · exact Or.inl ⟨hlarge, hj.trans hnone⟩
      · exact Or.inr ⟨⟨m, q, hq, j', hj.trans hj'⟩, hvalue⟩

/-- The digits behind the first one of a step. -/
theorem digits_forward {digits : List Char} (hdigits : ∀ d ∈ digits, isDigit d) (s : List Char)
    (hp : Within .every k n p) (hn : n < intLimit) :
    (intLimit ≤ valueFrom n digits ∧ parseLoop p i (digits ++ s) = none) ∨
      ∃ p', Within .every k (valueFrom n digits) p' ∧ Leads p i (digits ++ s) p' s ∧
        valueFrom n digits < intLimit := by
  have hp' : p = inNumber .every k n p.i64 p.i32 p.tbl := by
    obtain ⟨state, newfield, f, m, i64, i32, tbl⟩ := p
    obtain ⟨rfl, rfl, rfl, rfl⟩ := hp
    rfl
  have hloop := parseLoop_digits (Or.inr rfl) k n p.i64 p.i32 p.tbl i hdigits hn s
  rw [← hp'] at hloop
  split_ifs at hloop with hvalue
  · exact Or.inr ⟨_, ⟨rfl, rfl, rfl, rfl⟩, ⟨_, hloop⟩, hvalue⟩
  · exact Or.inl ⟨not_lt.mp hvalue, hloop⟩

/-- A parser for which a digit opens a number of a list. -/
def OpensNumber (k : ℕ) (p : CronParser) : Prop :=
  ∀ i c rest, isDigit c → ∃ p', Within .number k (digitValue c) p' ∧ Leads p i (c :: rest) p' rest

theorem Before.opensNumber (hp : Before k p) : OpensNumber k p :=
  fun _ _ rest hc ↦ hp.digit rest hc

theorem Within.opensNumber (hp : Within .comma k n p) : OpensNumber k p := by
  intro i c rest hc
  rcases hp.digit_round (i := i) rest (Or.inr ⟨rfl, rfl⟩) with ⟨-, hopens⟩ | ⟨hnot, -⟩
  · exact hopens
  · rw [hc] at hnot
    exact Bool.noConfusion hnot

/-- Something taken for a number. -/
theorem item_forward {item : List Char} (hitem : TakenForNumber item) (s : List Char)
    (hp : OpensNumber k p) (i : ℕ) :
    (intLimit ≤ digitsIn item ∧ parseLoop p i (item ++ s) = none) ∨
      (∃ m p', Within .number k m p' ∧ Leads p i (item ++ s) p' s) ∧ digitsIn item < intLimit := by
  obtain ⟨c, rest, rfl, hc, hrest⟩ := hitem
  have hvalue : digitsIn (c :: rest) = valueFrom (digitValue c) (rest.filter isDigit) := by
    rw [digitsIn, List.filter_cons_of_pos hc, valueFrom_cons, Nat.zero_mul, Nat.zero_add]
  rw [hvalue]
  obtain ⟨p', hp', j, hj⟩ := hp i c (rest ++ s) hc
  rcases number_forward hrest s hp' (digitValue_lt hc) j with
    ⟨hlarge, hnone⟩ | ⟨⟨m, q, hq, j', hj'⟩, hfits⟩
  · exact Or.inl ⟨hlarge, hj.trans hnone⟩
  · exact Or.inr ⟨⟨m, q, hq, j', hj.trans hj'⟩, hfits⟩

theorem item_continues {item : List Char} (hitem : TakenForNumber item) (s : List Char)
    (hp : OpensNumber k p) (i : ℕ) :
    Continues (fun p' ↦ ∃ m, Within .number k m p') p i (item ++ s) s := by
  rcases item_forward hitem s hp i with ⟨-, hnone⟩ | ⟨⟨m, p', hp', hleads⟩, -⟩
  · exact Or.inl hnone
  · exact Or.inr ⟨p', ⟨m, hp'⟩, hleads⟩

/-- A comma list with the blank that closes it. -/
theorem list_continues {text : List Char} (htext : ListText TakenForNumber text) {b : Char}
    (hb : isBlank b) (rest : List Char) (hp : OpensNumber k p) (i : ℕ) :
    Continues (Behind k) p i (text ++ b :: rest) rest := by
  induction htext generalizing p i with
  | one hitem =>
    refine (item_continues hitem (b :: rest) hp i).trans ?_
    rintro p' ⟨m, hp'⟩ j
    exact Or.inr (hp'.number_blank rest hb)
  | cons hitem _ ih =>
    rw [List.append_assoc, List.cons_append]
    refine (item_continues hitem _ hp i).trans ?_
    rintro p' ⟨m, hp'⟩ j
    obtain ⟨q, hq, hleads⟩ := hp'.number_comma (i := j) _
    exact Continues.of_leads hleads fun j' ↦ ih hq.opensNumber j'

/-- A comma list with a number that is no `int`. -/
theorem list_undefined {s : List Char} (hlist : OverflowingList s) (hp : OpensNumber k p) (i : ℕ) :
    parseLoop p i s = none := by
  induction hlist generalizing p i with
  | here hnumber hlarge =>
    rcases item_forward hnumber _ hp i with ⟨-, hnone⟩ | ⟨-, hfits⟩
    · exact hnone
    · omega
  | later hitem _ ih =>
    refine (item_continues hitem _ hp i).eq_none ?_
    rintro p' ⟨m, hp'⟩ j
    obtain ⟨q, hq, j', hj'⟩ := hp'.number_comma (i := j) _
    exact hj'.trans (ih hq.opensNumber j')

/-- A step up to the end of its number. -/
theorem step_forward {digits : List Char} (hnumber : IsNumber digits) (s : List Char)
    (hp : Before k p) (i : ℕ) :
    (intLimit ≤ valueFrom 0 digits ∧ parseLoop p i ('*' :: '/' :: (digits ++ s)) = none) ∨
      (∃ p', Within .every k (valueFrom 0 digits) p' ∧
        Leads p i ('*' :: '/' :: (digits ++ s)) p' s) ∧ valueFrom 0 digits < intLimit := by
  obtain ⟨c, rest, rfl⟩ := List.exists_cons_of_ne_nil hnumber.1
  have hc := hnumber.2 c List.mem_cons_self
  have hvalue : valueFrom 0 (c :: rest) = valueFrom (digitValue c) rest := by
    rw [valueFrom_cons, Nat.zero_mul, Nat.zero_add]
  rw [hvalue]
  obtain ⟨p', hp', j, hj⟩ := hp.star (i := i) ('/' :: (c :: rest ++ s))
  rcases hp'.star_round (i := j) (c := '/') (c :: rest ++ s) with
    ⟨hblank, -⟩ | ⟨-, q, hq, j', hj'⟩ | ⟨-, hne, -⟩
  · exact absurd hblank (by decide)
  · rcases hq.digit_round (i := j') (c := c) (rest ++ s) (Or.inl ⟨rfl, rfl⟩) with
      ⟨-, q', hq', j'', hj''⟩ | ⟨hnot, -⟩
    · have hrest := fun d hd ↦ hnumber.2 d (List.mem_cons_of_mem c hd)
      have hloop := (hj.trans hj').trans hj''
      rcases digits_forward (i := j'') hrest s hq' (digitValue_lt hc) with
        ⟨hlarge, hnone⟩ | ⟨r, hr, ⟨l, hl⟩, hfits⟩
      · exact Or.inl ⟨hlarge, hloop.trans hnone⟩
      · exact Or.inr ⟨⟨r, hr, l, hloop.trans hl⟩, hfits⟩
    · rw [hc] at hnot
      exact Bool.noConfusion hnot
  · exact absurd rfl hne

/-- A field with the blank that closes it. -/
theorem field_continues {text : List Char} (htext : FieldText TakenForNumber text) {b : Char}
    (hb : isBlank b) (rest : List Char) (hp : Before k p) (i : ℕ) :
    Continues (Behind k) p i (text ++ b :: rest) rest := by
  cases htext with
  | star =>
    obtain ⟨p', hp', hleads⟩ := hp.star (i := i) (b :: rest)
    refine Continues.of_leads hleads fun j ↦ ?_
    rcases hp'.star_round (i := j) (c := b) rest with hclosed | ⟨rfl, -⟩ | ⟨hnot, -⟩
    · exact Or.inr hclosed.2
    · exact absurd hb (by decide)
    · rw [hb] at hnot
      exact Bool.noConfusion hnot
  | step hnumber =>
    rcases step_forward hnumber (b :: rest) hp i with ⟨-, hnone⟩ | ⟨⟨p', hp', hleads⟩, -⟩
    · exact Or.inl hnone
    · refine Continues.of_leads hleads fun j ↦ ?_
      rcases hp'.every_blank (i := j) rest hb with ⟨-, hnone⟩ | ⟨-, hclosed⟩
      · exact Or.inl hnone
      · exact Or.inr hclosed
  | list hlist => exact list_continues hlist hb rest hp.opensNumber i

/-- The start of a field at which the arithmetic is undefined. -/
theorem field_undefined {s : List Char} (hundef : UndefinedField s) (hp : Before k p) (i : ℕ) :
    parseLoop p i s = none := by
  cases hundef with
  | list hlist => exact list_undefined hlist hp.opensNumber i
  | step hnumber hlarge =>
    rcases step_forward hnumber _ hp i with ⟨-, hnone⟩ | ⟨-, hfits⟩
    · exact hnone
    · omega
  | zero hnumber hzero hb =>
    rcases step_forward hnumber _ hp i with ⟨-, hnone⟩ | ⟨⟨p', hp', j, hj⟩, -⟩
    · exact hnone
    · rcases hp'.every_blank (i := j) _ hb with ⟨-, hnone⟩ | ⟨hne, -⟩
      · exact hj.trans hnone
      · exact absurd hzero hne

/-- A field with the blanks around it leaves one field less to read. -/
theorem cell_continues {blanks text behind : List Char} {b : Char} (hblanks : Blanks blanks)
    (htext : FieldText TakenForNumber text) (hb : isBlank b) {count : ℕ} (hcount : count ≤ 4)
    (hp : AtFields (count + 1) p) (i : ℕ) :
    Continues (AtFields count) p i (blanks ++ (text ++ b :: behind)) behind := by
  obtain ⟨p', hp', hleads⟩ := Before.blanks hp hblanks i (text ++ b :: behind)
  refine Continues.of_leads hleads fun j ↦ (field_continues htext hb behind hp' j).trans ?_
  intro q hq j'
  obtain ⟨q', hq', hsame⟩ := hq.atFields hcount
  exact Or.inr ⟨q', hq', j', hsame j' behind⟩

/-- A line with undefined arithmetic in it. -/
theorem line_undefined {count : ℕ} (hcount : count ≤ 5) {s : List Char}
    (hundef : UndefinedWithin count s) (hp : AtFields count p) (i : ℕ) :
    parseLoop p i s = none := by
  obtain ⟨fields, rest, hlen, hfields, hsplits, hrest⟩ := hundef
  induction fields generalizing count s p i with
  | nil =>
    obtain ⟨count, rfl⟩ := Nat.exists_eq_add_one_of_ne_zero (Nat.ne_zero_of_lt hlen)
    obtain ⟨blanks, rfl, hblanks⟩ := hsplits
    obtain ⟨p', hp', j, hj⟩ := Before.blanks hp hblanks i rest
    exact hj.trans (field_undefined hrest hp' j)
  | cons field fields ih =>
    obtain ⟨count, rfl⟩ := Nat.exists_eq_add_one_of_ne_zero (Nat.ne_zero_of_lt hlen)
    obtain ⟨hfield, hlater⟩ := List.forall_mem_cons.mp hfields
    obtain ⟨blanks, b, behind, rfl, hblanks, hb, hsplits⟩ := hsplits
    refine (cell_continues hblanks hfield hb (Nat.le_of_succ_le_succ hcount) hp i).eq_none ?_
    intro p' hp' j
    exact ih (Nat.le_of_succ_le hcount) hp' j (Nat.lt_of_succ_lt_succ hlen) hlater hsplits

/-- A line that the parser takes. -/
theorem line_accepted {fields : List (List Char)} (hlen : fields.length ≤ 5)
    (hfields : ∀ field ∈ fields, FieldText TakenForNumber field) {s command : List Char}
    (hsplits : SplitsInto fields s command) (hcommand : IsCommand command)
    (hp : AtFields fields.length p) (i : ℕ) :
    parseLoop p i s = none ∨ ∃ tbl, parseLoop p i s = some (some tbl) := by
  induction fields generalizing s p i with
  | nil =>
    obtain ⟨blanks, rfl, hblanks⟩ := hsplits
    obtain ⟨c, rest, rfl, hc⟩ := hcommand
    exact Or.inr ⟨_, parseLoop_command hp i hblanks (List.cons_ne_nil c rest) hc⟩
  | cons field fields ih =>
    obtain ⟨hfield, hlater⟩ := List.forall_mem_cons.mp hfields
    obtain ⟨blanks, b, behind, rfl, hblanks, hb, hsplits⟩ := hsplits
    rcases cell_continues hblanks hfield hb (Nat.le_of_succ_le_succ hlen) hp i with
      hnone | ⟨p', hp', j, hj⟩
    · exact Or.inl hnone
    · rw [hj]
      exact ih (Nat.le_of_succ_le hlen) hlater hsplits hp' j

end Forward

/-! ### Whole strings -/

theorem atFields_init : AtFields 5 CronParser.init :=
  ⟨rfl, rfl, rfl⟩

/-- The parser's arithmetic is undefined on exactly the strings that say so. -/
theorem parseLoop_eq_none_iff (s : List Char) :
    parseLoop .init 0 s = none ↔ UndefinedLine s := by
  constructor
  · intro hnone
    rcases fields_outcome 0 s (Nat.le_refl 5) atFields_init with hreject | ⟨-, hundef⟩ |
      ⟨-, -, tbl, -, -, -, -, hsome⟩
    · rw [hreject] at hnone
      cases hnone
    · exact hundef
    · rw [hsome] at hnone
      cases hnone
  · exact fun hundef ↦ line_undefined (Nat.le_refl 5) hundef atFields_init 0

/-- Where its arithmetic is defined, the parser accepts the lines whose lists have at least a digit
at the start of every number, and no other string. -/
theorem parseLoop_eq_some_iff {s : List Char} (hdefined : ¬UndefinedLine s) :
    (∃ tbl, parseLoop .init 0 s = some (some tbl)) ↔
      ∃ fields command, IsLine TakenForNumber fields command s := by
  rw [← parseLoop_eq_none_iff] at hdefined
  constructor
  · rintro ⟨tbl, hsome⟩
    rcases fields_outcome 0 s (Nat.le_refl 5) atFields_init with hreject | ⟨hnone, -⟩ |
      ⟨fields, command, -, hlen, hfields, hsplits, hcommand, -⟩
    · rw [hreject] at hsome
      cases hsome
    · exact absurd hnone hdefined
    · exact ⟨fields, command, hlen, hfields, hsplits, hcommand⟩
  · rintro ⟨fields, command, hlen, hfields, hsplits, hcommand⟩
    exact (line_accepted (Nat.le_of_eq hlen) hfields hsplits hcommand
      (hlen ▸ atFields_init) 0).resolve_left hdefined

/-! ### The grammar -/

section Grammar

variable {Item : List Char → Prop} {fields fields' : List (List Char)}
  {command command' s : List Char}

/-- A line by the grammar is one the parser takes. -/
theorem IsLine.taken (hline : IsLine IsNumber fields command s) :
    IsLine TakenForNumber fields command s :=
  ⟨hline.length_eq,
    fun field hfield ↦ (hline.fieldText field hfield).mono fun _ ↦ IsNumber.takenForNumber,
    hline.splits, hline.isCommand⟩

/-- With more behind it a line is a line with the same fields. -/
theorem IsLine.append (hline : IsLine Item fields command s) (more : List Char) :
    IsLine Item fields (command ++ more) (s ++ more) := by
  obtain ⟨c, rest, hcommand, hc⟩ := hline.isCommand
  exact ⟨hline.length_eq, hline.fieldText, hline.splits.append more,
    c, rest ++ more, by rw [hcommand, List.cons_append], hc⟩

theorem IsLine.fields_unique (hline : IsLine TakenForNumber fields command s)
    (hline' : IsLine TakenForNumber fields' command' s) : fields = fields' :=
  splitsInto_unique (fun field hfield ↦ (hline.fieldText field hfield).isWord)
    (fun field hfield ↦ (hline'.fieldText field hfield).isWord)
    (hline.length_eq.trans hline'.length_eq.symm) hline.splits hline'.splits

/-- The fields of a line that the loop sees are those of the whole string. -/
theorem IsLine.fields_visible {str : List Char}
    (hline : IsLine TakenForNumber fields command (visible str))
    (hline' : IsLine TakenForNumber fields' command' str) : fields = fields' := by
  have hwhole := hline.append (str.drop (intLength str).toNat)
  rw [visible, List.take_append_drop] at hwhole
  exact hwhole.fields_unique hline'

/-- The return value tells whether the string has been parsed. -/
theorem cronjobAddAnyLength_cases (self : Cronjob) (str : List Char) :
    (parseLoop .init 0 (visible str) = none ∧ cronjobAddAnyLength self str = none) ∨
      (parseLoop .init 0 (visible str) = some none ∧
        cronjobAddAnyLength self str = some (self, 0)) ∨
      ∃ tbl job, parseLoop .init 0 (visible str) = some (some tbl) ∧
        cronjobAddAnyLength self str = some ({ self with tbl := job :: self.tbl }, 1) := by
  rcases hparse : parseLoop .init 0 (visible str) with _ | _ | tbl
  · exact Or.inl ⟨rfl, by simp [cronjobAddAnyLength, parseAnyLength, hparse]⟩
  · exact Or.inr (Or.inl ⟨rfl, by simp [cronjobAddAnyLength, parseAnyLength, hparse]⟩)
  · exact Or.inr (Or.inr ⟨tbl, _, rfl, by simp [cronjobAddAnyLength, parseAnyLength, hparse]; rfl⟩)

/-- For every string: `cronjob_add` returns `1` and puts one job in front if the string is a line of
the grammar, and else returns `0` and leaves the jobs as they are, exactly if its arithmetic is
defined, no line that it takes has anything but digits in the numbers of its lists, and, where the
length is no `int`, the part of the string that is looked at is a line if the whole of it is. -/
theorem cronjobAdd_grammar_iff (self : Cronjob) (str : List Char) :
    (∃ self' rc, cronjobAddAnyLength self str = some (self', rc) ∧
      ((∃ fields command, IsLine IsNumber fields command str) →
        rc = 1 ∧ ∃ job, self' = { self with tbl := job :: self.tbl }) ∧
      ((¬∃ fields command, IsLine IsNumber fields command str) → rc = 0 ∧ self' = self)) ↔
    ¬UndefinedLine (visible str) ∧
      (∀ fields command, IsLine TakenForNumber fields command (visible str) →
        ∀ field ∈ fields, FieldText IsNumber field) ∧
      ∀ fields command, IsLine IsNumber fields command str →
        ∃ shown, IsLine IsNumber fields shown (visible str) := by
  constructor
  · rintro ⟨self', rc, hadd, hyes, hno⟩
    have hdefined : ¬UndefinedLine (visible str) := by
      rw [← parseLoop_eq_none_iff]
      intro hnone
      simp [cronjobAddAnyLength, parseAnyLength, hnone] at hadd
    refine ⟨hdefined, fun fields command hline ↦ ?_, fun fields command hline ↦ ?_⟩
    · obtain ⟨tbl, htbl⟩ := (parseLoop_eq_some_iff hdefined).mpr ⟨fields, command, hline⟩
      rcases cronjobAddAnyLength_cases self str with ⟨hnone, -⟩ | ⟨hreject, -⟩ | ⟨-, job, -, hjob⟩
      · rw [htbl] at hnone
        cases hnone
      · rw [htbl] at hreject
        cases hreject
      · have hgrammar : ∃ fields command, IsLine IsNumber fields command str := by
          by_contra hnot
          rw [hjob, Option.some.injEq, Prod.mk.injEq] at hadd
          rw [(hno hnot).1] at hadd
          exact absurd hadd.2 (by decide)
        obtain ⟨fields', command', hline'⟩ := hgrammar
        rw [hline.fields_visible hline'.taken]
        exact hline'.fieldText
    · obtain ⟨rfl, -⟩ := hyes ⟨fields, command, hline⟩
      rcases cronjobAddAnyLength_cases self str with ⟨-, hnone⟩ | ⟨-, hreject⟩ | ⟨tbl, -, htbl, -⟩
      · rw [hnone] at hadd
        cases hadd
      · rw [hreject, Option.some.injEq, Prod.mk.injEq] at hadd
        exact absurd hadd.2 (by decide)
      · obtain ⟨fields', shown, hshown⟩ := (parseLoop_eq_some_iff hdefined).mp ⟨tbl, htbl⟩
        have hfields := hshown.fields_visible hline.taken
        subst hfields
        exact ⟨shown, hline.length_eq, hline.fieldText, hshown.splits, hshown.isCommand⟩
  · rintro ⟨hdefined, hdigits, hshown⟩
    have haccepted := parseLoop_eq_some_iff hdefined
    rcases cronjobAddAnyLength_cases self str with ⟨hnone, -⟩ | ⟨hreject, hadd⟩ |
      ⟨tbl, job, htbl, hadd⟩
    · exact absurd ((parseLoop_eq_none_iff _).mp hnone) hdefined
    · refine ⟨self, 0, hadd, fun hline ↦ ?_, fun _ ↦ ⟨rfl, rfl⟩⟩
      obtain ⟨fields, command, hline⟩ := hline
      obtain ⟨shown, hline⟩ := hshown fields command hline
      obtain ⟨tbl, htbl⟩ := haccepted.mpr ⟨fields, shown, hline.taken⟩
      rw [hreject] at htbl
      cases htbl
    · refine ⟨_, 1, hadd, fun _ ↦ ⟨rfl, job, rfl⟩, fun hnot ↦ ?_⟩
      obtain ⟨fields, command, hline⟩ := haccepted.mp ⟨tbl, htbl⟩
      have hgrammar : IsLine IsNumber fields command (visible str) :=
        ⟨hline.length_eq, hdigits fields command hline, hline.splits, hline.isCommand⟩
      have hwhole := hgrammar.append (str.drop (intLength str).toNat)
      rw [visible, List.take_append_drop] at hwhole
      exact absurd ⟨fields, _, hwhole⟩ hnot

/-- The characters of a field of the grammar. -/
theorem mem_of_fieldText {field : List Char} (hfield : FieldText IsNumber field) :
    ∀ c ∈ field, isDigit c ∨ c = '*' ∨ c = '/' ∨ c = ',' := by
  have hlist {s : List Char} (hs : ListText IsNumber s) : ∀ c ∈ s, isDigit c ∨ c = ',' := by
    induction hs with
    | one hitem => exact fun c hc ↦ Or.inl (hitem.2 c hc)
    | cons hitem _ ih =>
      intro c hc
      rcases List.mem_append.mp hc with hc | hc
      · exact Or.inl (hitem.2 c hc)
      · rcases List.mem_cons.mp hc with rfl | hc
        · exact Or.inr rfl
        · exact ih c hc
  intro c hc
  cases hfield with
  | star => exact Or.inr (Or.inl (List.mem_singleton.mp hc))
  | step hdigits =>
    rcases List.mem_cons.mp hc with rfl | hc
    · exact Or.inr (Or.inl rfl)
    · rcases List.mem_cons.mp hc with rfl | hc
      · exact Or.inr (Or.inr (Or.inl rfl))
      · exact Or.inl (hdigits.2 c hc)
  | list hs =>
    rcases hlist hs c hc with hdigit | hcomma
    · exact Or.inl hdigit
    · exact Or.inr (Or.inr (Or.inr hcomma))

/-- `1-5 * * * * c` is no line of the grammar, but becomes a job. -/
theorem range_is_accepted :
    (∃ self', cronjobAddAnyLength newCronjob "1-5 * * * * c".toList = some (self', 1)) ∧
      ¬∃ fields command, IsLine IsNumber fields command "1-5 * * * * c".toList := by
  have hadd : cronjobAddAnyLength newCronjob "1-5 * * * * c".toList =
      cronjobAdd newCronjob "1-5 * * * * c".toList := by
    rw [cronjobAddAnyLength, parseAnyLength_eq (by decide)]
    rfl
  refine ⟨⟨_, hadd.trans rfl⟩, ?_⟩
  rintro ⟨fields, command, hline⟩
  have htaken : IsLine TakenForNumber [['1', '-', '5'], ['*'], ['*'], ['*'], ['*']] ['c']
      "1-5 * * * * c".toList := by
    refine ⟨rfl, ?_, ?_, 'c', [], rfl, by decide⟩
    · have hfirst : FieldText TakenForNumber ['1', '-', '5'] :=
        .list (.one ⟨'1', ['-', '5'], rfl, by decide, by simp [isBlank]⟩)
      simp [hfirst, FieldText.star]
    · have hnone : Blanks [] := fun c hc ↦ absurd hc List.not_mem_nil
      have hblank : isBlank ' ' = true := by decide
      exact ⟨[], ' ', _, rfl, hnone, hblank, [], ' ', _, rfl, hnone, hblank, [], ' ', _, rfl,
        hnone, hblank, [], ' ', _, rfl, hnone, hblank, [], ' ', _, rfl, hnone, hblank, [], rfl,
        hnone⟩
  have hfields := hline.taken.fields_unique htaken
  subst hfields
  have hchars := mem_of_fieldText (hline.fieldText ['1', '-', '5'] (by simp)) '-' (by simp)
  exact absurd hchars (by decide)

end Grammar

end Katmai.Cron
