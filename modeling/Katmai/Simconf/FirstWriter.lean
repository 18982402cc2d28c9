import Katmai.Simconf.SimpleConfig

/-!
# The first line for a name counts

`lineDefinition` says what a line defines, without a buffer: the text up to a comment is split at
its first equals sign, and name and value are trimmed. The transformations of `scLoadLine` compute
it (`scLoadLine_eq`), so that loading a file inserts the definitions in their order, and what the
access functions answer is decided by the first definition of a name (`scLoad_answers`).
-/

set_option autoImplicit false
set_option relaxedAutoImplicit false

namespace Katmai.Simconf

open Foundation Misclib

/-! ### What a file defines -/

def trimmed (text : List Char) : List Char :=
  (text.dropWhile isBlank).rdropWhile isBlank

/-- The part of a line that counts: without line end, comment and one end-of-file mark. -/
def lineText (line : List Char) : List Char :=
  let text := (line.rdropWhile isLineEnd).takeWhile fun c ↦ c != '#' && c != ';'
  if text.getLast? = some '\x1a' then text.dropLast else text

/-- The name and the value that a line defines. -/
def lineDefinition (line : List Char) : Option (List Char × List Char) :=
  let var := (lineText line).takeWhile (· != '=')
  if '=' ∈ lineText line ∧ trimmed var ≠ [] then
    some (trimmed var, trimmed ((lineText line).drop (var.length + 1)))
  else none

/-- The definitions of a file, in the order of its lines. -/
def definitions (file : List Char) : List (List Char × List Char) :=
  (textLines file).filterMap lineDefinition

/-- The value of the first definition of a name, in letters of any case. -/
def definedValue (file var : List Char) : Option (List Char) :=
  ((definitions file).find? fun d ↦ d.1.map Char.toLower = var.map Char.toLower).map Prod.snd

/-- All digits. -/
def IsNumber (text : List Char) : Prop :=
  (∀ c ∈ text, c.isDigit = true) ∧ text ≠ []

/-- Four groups of digits with dots between them. -/
def IsAddress (text : List Char) : Prop :=
  ∃ a b c d, IsNumber a ∧ IsNumber b ∧ IsNumber c ∧ IsNumber d ∧
    text = a ++ '.' :: (b ++ '.' :: (c ++ '.' :: d))

/-- What the access functions answer for a name with a value, or without one. -/
structure Answers (self : SimconfT) (var : List Char) (value : Option (List Char)) : Prop where
  undefined : value = none → scVariableType self var = -1 ∧ scGetint self var = -1 ∧
    scGetip self var = none ∧ scGetstr self var = none
  number : ∀ text ∈ value, IsNumber text →
    scVariableType self var = Vartype.int.code ∧
    (Nat.ofDigitChars 10 text 0 < 2147483648 →
      scGetint self var = (Nat.ofDigitChars 10 text 0 : ℕ)) ∧
    scGetip self var = none ∧ scGetstr self var = none
  address : ∀ text ∈ value, IsAddress text →
    scVariableType self var = Vartype.ip.code ∧ scGetint self var = -1 ∧
    scGetip self var = some text ∧ scGetstr self var = some text
  string : ∀ text ∈ value, ¬IsNumber text → ¬IsAddress text →
    scVariableType self var = Vartype.string.code ∧ scGetint self var = -1 ∧
    scGetip self var = none ∧ scGetstr self var = some text

/-! ### Trimming around a character that stays -/

section Trimming

variable {α : Type*} {drops : α → Bool} {c : α}

theorem dropWhile_around (hc : drops c = false) (front rest : List α) :
    (front ++ c :: rest).dropWhile drops = front.dropWhile drops ++ c :: rest := by
  induction front with
  | nil => simp [hc]
  | cons d front ih =>
    cases hd : drops d with
    | true => simp [hd, ih]
    | false => simp [hd]

theorem rdropWhile_around (hc : drops c = false) (front rest : List α) :
    (front ++ c :: rest).rdropWhile drops = front ++ c :: rest.rdropWhile drops := by
  have hreverse : (front ++ c :: rest).reverse = rest.reverse ++ c :: front.reverse := by simp
  rw [List.rdropWhile, hreverse, dropWhile_around hc, List.rdropWhile]
  simp

/-- The two ends of a list can be trimmed in either order. -/
theorem rdropWhile_dropWhile_comm (drops : α → Bool) (l : List α) :
    (l.dropWhile drops).rdropWhile drops = (l.rdropWhile drops).dropWhile drops := by
  by_cases hall : ∀ c ∈ l, drops c = true
  · rw [List.dropWhile_eq_nil_iff.mpr hall, List.rdropWhile_eq_nil_iff.mpr hall]
    rfl
  · push Not at hall
    obtain ⟨c, hmem, hc⟩ := hall
    obtain ⟨front, rest, rfl⟩ := List.append_of_mem hmem
    have hkept : drops c = false := Bool.eq_false_iff.mpr hc
    rw [dropWhile_around hkept, rdropWhile_around hkept, rdropWhile_around hkept,
      dropWhile_around hkept]

end Trimming

/-! ### One line -/

variable {self : SimconfT} {line text var : List Char}

theorem stripComments_eq (buffer : List Char) :
    stripComments buffer = buffer.takeWhile fun c ↦ c != '#' && c != ';' := by
  induction buffer with
  | nil => rfl
  | cons c buffer ih =>
    by_cases hc : c = '#' ∨ c = ';'
    · rcases hc with rfl | rfl <;> simp [stripComments]
    · rw [not_or] at hc
      simp [stripComments, hc, ih]

/-- The text of a line, before its ends are trimmed in the buffer. -/
theorem stripped_line (hline : '\x00' ∉ line) :
    stripDosEof (stripComments (chomp (cString line))) = lineText line := by
  rw [cString_eq_self hline, chomp_eq, stripComments_eq, stripDosEof, lineText]

theorem splitAt_equals (hvar : '=' ∉ var) (rest : List Char) :
    (var ++ '=' :: rest).takeWhile (· != '=') = var ∧
      (var ++ '=' :: rest).findIdx? (· == '=') = some var.length := by
  have hne (c : Char) (hc : c ∈ var) : c ≠ '=' := fun heq ↦ hvar (heq ▸ hc)
  constructor
  · rw [List.takeWhile_append_of_pos fun c hc ↦ bne_iff_ne.mpr (hne c hc)]
    simp
  · rw [List.findIdx?_append, List.findIdx?_eq_none_iff.mpr fun c hc ↦ beq_false_of_ne (hne c hc)]
    simp [List.findIdx?_cons]

/-- The buffer of a line without an equals sign. -/
theorem findIdx?_trimmed (htext : '=' ∉ text) :
    ((text.dropWhile isBlank).rdropWhile isBlank).findIdx? (· == '=') = none := by
  rw [List.findIdx?_eq_none_iff]
  intro c hc
  have hmem : c ∈ text := (List.dropWhile_subset _) ((List.rdropWhile_prefix _ _).subset hc)
  exact beq_false_of_ne fun heq ↦ htext (heq ▸ hmem)

/-- A line is passed over, or adds what it defines. -/
theorem scLoadLine_eq (hline : '\x00' ∉ line) (self : SimconfT) :
    scLoadLine self line = (lineDefinition line).elim self fun d ↦ scAdd self d.1 d.2 := by
  rw [scLoadLine, stripped_line hline, rtrim_eq, ltrim_eq, lineDefinition]
  by_cases hequals : '=' ∈ lineText line
  · obtain ⟨var, rest, htext, hvar⟩ := List.eq_append_cons_of_mem hequals
    have hkept : isBlank '=' = false := by decide
    have hvar' : '=' ∉ var.dropWhile isBlank := fun h ↦ hvar (List.dropWhile_subset _ h)
    -- Trimming the line trims the name on its left and the value on its right.
    have hbuffer : ((lineText line).dropWhile isBlank).rdropWhile isBlank =
        var.dropWhile isBlank ++ '=' :: rest.rdropWhile isBlank := by
      rw [htext, dropWhile_around hkept, rdropWhile_around hkept]
    have hname : rtrim (var.dropWhile isBlank) = trimmed var := rtrim_eq _
    have hvalue : ltrim (rest.rdropWhile isBlank) = trimmed rest := by
      rw [ltrim_eq, ← rdropWhile_dropWhile_comm, trimmed]
    have hdrop (front : List Char) (c : Char) (rest : List Char) :
        (front ++ c :: rest).drop (front.length + 1) = rest := by
      simp [List.drop_append]
    rw [hbuffer]
    simp only [(splitAt_equals hvar' _).2, List.take_left, hdrop, hname, hvalue]
    simp only [htext, (splitAt_equals hvar rest).1, hdrop]
    rw [if_neg (by simp)]
    by_cases hnil : trimmed var = []
    · rw [if_pos (hnil ▸ rfl), if_neg fun h ↦ h.2 hnil]
      rfl
    · rw [if_neg (mt List.eq_nil_of_length_eq_zero hnil), if_pos ⟨htext ▸ hequals, hnil⟩]
      rfl
  · simp only [findIdx?_trimmed hequals, ite_self]
    rw [if_neg fun h ↦ hequals h.1]
    rfl

/-! ### All lines -/

variable {file : List Char}

theorem foldl_scLoadLine {lines : List (List Char)} (hlines : ∀ line ∈ lines, '\x00' ∉ line)
    (self : SimconfT) :
    (lines.foldl scLoadLine self).data =
      ((lines.filterMap lineDefinition).map fun d ↦ newData d.1 d.2).foldl (addNew foldedName)
        self.data := by
  induction lines generalizing self with
  | nil => rfl
  | cons line lines ih =>
    rw [List.foldl_cons, ih fun l hl ↦ hlines l (List.mem_cons_of_mem _ hl),
      scLoadLine_eq (hlines line List.mem_cons_self)]
    cases hdef : lineDefinition line with
    | none =>
      rw [List.filterMap_cons_none hdef]
      rfl
    | some d =>
      rw [List.filterMap_cons_some hdef, List.map_cons, List.foldl_cons, Option.elim_some,
        scAdd_data]

/-- The variable of a name is made from its first definition. -/
theorem scSearchVar_scLoad (hlength : ∀ line ∈ textLines file, line.length < 2048)
    (hzero : '\x00' ∉ file) (var : List Char) :
    scSearchVar (scLoad newSimconf file) var =
      ((definitions file).find? fun d ↦ d.1.map Char.toLower = var.map Char.toLower).map
        fun d ↦ newData d.1 d.2 := by
  have hlines (line : List Char) (hline : line ∈ textLines file) : '\x00' ∉ line :=
    fun h ↦ hzero (flatten_textLines file ▸ List.mem_flatten.mpr ⟨line, hline, h⟩)
  rw [scSearchVar_eq, scLoad, fgetsLines_eq hlength, foldl_scLoadLine hlines,
    lookup_foldl_addNew, lookup, lookup, List.find?_map]
  rfl

/-! ### Values -/

variable {val : List Char}

theorem spells_digits : digits.Spells text ↔ IsNumber text := by
  simp [Piece.Spells, digits, IsNumber]

theorem spells_dot : dot.Spells text ↔ text = ['.'] := by
  constructor
  · rintro ⟨hall, -, hone⟩
    obtain ⟨c, rfl⟩ := List.length_eq_one_iff.mp (hone rfl)
    rw [beq_iff_eq.mp (hall c List.mem_cons_self)]
  · rintro rfl
    simp [Piece.Spells, dot]

theorem spelledBy_dot {ps : List (Piece Char)} :
    SpelledBy (dot :: ps) text ↔ ∃ rest, text = '.' :: rest ∧ SpelledBy ps rest := by
  constructor
  · rintro ⟨front, rest, rfl, hdot, hrest⟩
    rw [spells_dot.mp hdot]
    exact ⟨rest, rfl, hrest⟩
  · rintro ⟨rest, rfl, hrest⟩
    exact ⟨['.'], rest, rfl, spells_dot.mpr rfl, hrest⟩

theorem spelledBy_last : SpelledBy [digits] text ↔ IsNumber text := by
  rw [← spells_digits]
  constructor
  · rintro ⟨front, rest, rfl, hfront, rfl⟩
    rwa [List.append_nil]
  · exact fun h ↦ ⟨text, [], (List.append_nil text).symm, h, rfl⟩

theorem search_number : (numberRegex.search val).isSome ↔ IsNumber val :=
  isSome_search_iff.trans spelledBy_last

theorem search_address : (addressRegex.search val).isSome ↔ IsAddress val := by
  refine isSome_search_iff.trans ?_
  constructor
  · rintro ⟨a, text, rfl, ha, htext⟩
    obtain ⟨text, rfl, b, text', rfl, hb, htext'⟩ := spelledBy_dot.mp htext
    obtain ⟨text, rfl, c, text'', rfl, hc, htext''⟩ := spelledBy_dot.mp htext'
    obtain ⟨d, rfl, hd⟩ := spelledBy_dot.mp htext''
    exact ⟨a, b, c, d, spells_digits.mp ha, spells_digits.mp hb, spells_digits.mp hc,
      spelledBy_last.mp hd, rfl⟩
  · rintro ⟨a, b, c, d, ha, hb, hc, hd, rfl⟩
    refine ⟨a, _, rfl, spells_digits.mpr ha, spelledBy_dot.mpr ⟨_, rfl, ?_⟩⟩
    refine ⟨b, _, rfl, spells_digits.mpr hb, spelledBy_dot.mpr ⟨_, rfl, ?_⟩⟩
    refine ⟨c, _, rfl, spells_digits.mpr hc, spelledBy_dot.mpr ⟨d, rfl, ?_⟩⟩
    exact spelledBy_last.mpr hd

theorem not_isNumber_of_isAddress (hval : IsAddress val) : ¬IsNumber val := by
  rintro ⟨hall, -⟩
  obtain ⟨a, b, c, d, -, -, -, -, rfl⟩ := hval
  exact absurd (hall '.' (by simp)) (by decide)

theorem newValue_number (hval : IsNumber val) : newValue val = .int (atoi val) := by
  have hmatch : matchedType val = .int := by
    simp [matchedType, vartype, search_number.mpr hval]
  rw [newValue, hmatch]

theorem newValue_address (hval : IsAddress val) : newValue val = .ip val := by
  have hnumber : (numberRegex.search val).isSome = false :=
    Bool.eq_false_iff.mpr fun h ↦ not_isNumber_of_isAddress hval (search_number.mp h)
  have hmatch : matchedType val = .ip := by
    simp [matchedType, vartype, hnumber, search_address.mpr hval]
  rw [newValue, hmatch]

theorem newValue_string (hnumber : ¬IsNumber val) (haddress : ¬IsAddress val) :
    newValue val = .string val := by
  have hnone : (numberRegex.search val).isSome = false :=
    Bool.eq_false_iff.mpr fun h ↦ hnumber (search_number.mp h)
  have hnone' : (addressRegex.search val).isSome = false :=
    Bool.eq_false_iff.mpr fun h ↦ haddress (search_address.mp h)
  have hmatch : matchedType val = .string := by
    simp [matchedType, vartype, hnone, hnone']
  rw [newValue, hmatch]

theorem bmod_of_lt {n : ℕ} (hlt : n < 2147483648) :
    ((min n 9223372036854775807 : ℕ) : ℤ).bmod 4294967296 = n := by
  rw [Nat.min_eq_left (Nat.le_of_lt_succ (Nat.lt_of_lt_of_le hlt (by decide)))]
  exact Int.bmod_eq_of_le (by omega) (by omega)

theorem atoi_of_lt (hval : IsNumber val) (hlt : Nat.ofDigitChars 10 val 0 < 2147483648) :
    atoi val = (Nat.ofDigitChars 10 val 0 : ℕ) := by
  unfold atoi
  rw [List.takeWhile_eq_self_iff.mpr hval.1, bmod_of_lt hlt]

/-- What the access functions answer for a variable that `sc_add` made, or for none. -/
theorem answers_of_search {value : Option (List Char)} (name : List Char)
    (hsearch : scSearchVar self var = value.map fun text ↦ newData name text) :
    Answers self var value := by
  constructor
  · rintro rfl
    simp [scVariableType, scGetint, scGetip, scGetstr, hsearch]
  · rintro text rfl hnumber
    have hdata : newData name text = { str := name, value := .int (atoi text) } :=
      congrArg (SimconfData.mk name) (newValue_number hnumber)
    rw [Option.map_some, hdata] at hsearch
    simp only [scVariableType, scGetint, scGetip, scGetstr, hsearch, VarValue.type, and_self,
      and_true, true_and]
    exact atoi_of_lt hnumber
  · rintro text rfl haddress
    have hdata : newData name text = { str := name, value := .ip text } :=
      congrArg (SimconfData.mk name) (newValue_address haddress)
    rw [Option.map_some, hdata] at hsearch
    simp only [scVariableType, scGetint, scGetip, scGetstr, hsearch, VarValue.type, and_self]
  · rintro text rfl hnumber haddress
    have hdata : newData name text = { str := name, value := .string text } :=
      congrArg (SimconfData.mk name) (newValue_string hnumber haddress)
    rw [Option.map_some, hdata] at hsearch
    simp only [scVariableType, scGetint, scGetip, scGetstr, hsearch, VarValue.type, and_self]

/-- For every file whose lines fit into the buffer: the access functions answer for every name what
its first definition says. -/
theorem scLoad_answers (hlength : ∀ line ∈ textLines file, line.length < 2048)
    (hzero : '\x00' ∉ file) (var : List Char) :
    Answers (scLoad newSimconf file) var (definedValue file var) := by
  have hsearch := scSearchVar_scLoad hlength hzero var
  rw [definedValue]
  cases hfind : (definitions file).find? fun d ↦ d.1.map Char.toLower = var.map Char.toLower with
  | none => exact answers_of_search [] (by rw [hsearch, hfind]; rfl)
  | some d => exact answers_of_search d.1 (by rw [hsearch, hfind]; rfl)

/-- A file with a comment, a name twice and an address. -/
theorem scLoad_answers_port :
    Answers
      (scLoad newSimconf
        [' ', 'P', 'o', 'r', 't', '=', '8', '0', ' ', '#', '1', '\r', '\n', 'p', 'o', 'r', 't', '=',
          '9'])
      ['P', 'O', 'R', 'T'] (some ['8', '0']) := by
  exact scLoad_answers (by decide) (by decide) ['P', 'O', 'R', 'T']

end Katmai.Simconf
