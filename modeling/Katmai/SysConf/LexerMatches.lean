import Katmai.SysConf.Lexer
import Mathlib.Data.Char
import Mathlib.Data.List.Basic
import Mathlib.Tactic.Common

/-!
# What the scanner takes

For every kind of character at the front of a text, the rule that is chosen and what it takes: a run
of blanks, a comment up to the end of its line, one line end, a word that is reserved or an
identifier, a number or a percentage, a character or a string in quotes, and else one character.
-/

set_option autoImplicit false
set_option relaxedAutoImplicit false

namespace Katmai.SysConf

open Katmai.Foundation

variable {c : Char} {text word rest other : Str} {rule : LexRule}

/-- A rule takes a word at the front of a text. -/
abbrev LexRule.Takes (rule : LexRule) (text word : Str) : Prop :=
  Foundation.Takes rule.patterns text word

/-! ### Classes of characters -/

theorem isDigit_of_isIdStart (hc : isIdStart c = true) : c.isDigit = false := by
  by_contra hdigit
  obtain ⟨hlow, hhigh⟩ := Char.isDigit_iff_toNat.mp (Bool.not_eq_false _ ▸ hdigit)
  change 48 ≤ c.toNat at hlow
  change c.toNat ≤ 57 at hhigh
  change (decide (c = '_') || (decide (c.val ≥ 'A'.val ∧ c.val ≤ 'Z'.val) ||
    decide (c.val ≥ 'a'.val) && decide (c.val ≤ 'z'.val))) = true at hc
  simp only [Bool.or_eq_true, Bool.and_eq_true, decide_eq_true_eq, ge_iff_le,
    UInt32.le_iff_toNat_le, Char.toNat_val] at hc
  rcases hc with rfl | ⟨hc, -⟩ | ⟨hc, -⟩
  · exact absurd hhigh (by decide)
  · exact absurd (hc.trans hhigh) (by decide)
  · exact absurd (hc.trans hhigh) (by decide)

/-- A character of a class is not one that is not of it. -/
theorem ne_of_class {p : Char → Bool} (hc : p c = true) {d : Char} (hd : p d = false) : c ≠ d := by
  rintro rfl
  rw [hc] at hd
  cases hd

theorem isIdRest_of_isIdStart (hc : isIdStart c = true) : isIdRest c = true := by
  simp only [isIdStart, isIdRest, Char.isAlphanum, Bool.or_eq_true, decide_eq_true_eq] at hc ⊢
  grind

theorem isIdStart_head_reserved : ∀ w ∈ reservedWords, ∃ c back, w = c :: back ∧
    isIdStart c = true ∧ ∀ d ∈ w, isIdRest d = true := by
  have hall : ∀ w ∈ reservedWords, (w.head?.any isIdStart && w.all isIdRest) = true := by decide
  intro w hw
  have hw := hall w hw
  cases w with
  | nil => cases hw
  | cons c back =>
    rw [Bool.and_eq_true, List.all_eq_true] at hw
    exact ⟨c, back, rfl, hw.1, hw.2⟩

/-! ### The rules that can take something -/

theorem spelled_only_cons {rs : List (Run Char)} :
    Spelled (only c :: rs) word ↔ ∃ back, word = c :: back ∧ Spelled rs back := by
  rw [only, spelled_one_cons]
  simp

theorem takes_wordRule {w : Str} : (wordRule w).Takes text word ↔ w <+: text ∧ word = w := by
  have hspelled (w word : Str) : Spelled (w.map only) word ↔ word = w := by
    induction w generalizing word with
    | nil => exact Iff.rfl
    | cons c w ih =>
      rw [List.map_cons, spelled_only_cons]
      simp only [ih]
      grind
  simp only [LexRule.Takes, Foundation.Takes, wordRule, List.mem_singleton, exists_eq_left,
    hspelled]
  grind

theorem takes_anyRule : anyRule.Takes text word ↔ ∃ c, word = [c] ∧ [c] <+: text ∧ c ≠ '\n' := by
  simp only [LexRule.Takes, Foundation.Takes, anyRule, List.mem_singleton, exists_eq_left,
    spelled_one_cons, spelled_nil, isDot]
  grind

/-- A reserved word starts like an identifier. -/
theorem not_takes_wordRule (hc : isIdStart c = false) {w : Str} (hw : w ∈ reservedWords) :
    ¬(wordRule w).Takes (c :: text) word := by
  rw [takes_wordRule]
  rintro ⟨hleads, -⟩
  obtain ⟨d, back, rfl, hd, -⟩ := isIdStart_head_reserved w hw
  rw [List.cons_prefix_cons] at hleads
  rw [hleads.1, hc] at hd
  cases hd

/-- The rules behind the one for the beginning of a line, without the last. -/
def innerRules : List LexRule :=
  [newlineRule, ignoreRule] ++ reservedWords.map wordRule ++
    [sqRule, percentRule, idRule, stringRule, digitRule]

theorem lateRules_eq : lateRules = innerRules ++ [anyRule] :=
  rfl

theorem length_of_anyRule {q : LexRule} (hq : q ∈ [anyRule]) (hother : q.Takes text other) :
    other.length = 1 := by
  rw [List.mem_singleton.mp hq] at hother
  obtain ⟨d, rfl, -⟩ := takes_anyRule.mp hother
  rfl

/-- The one rule that can start with a character, but for the last, takes its longest match. -/
theorem munch_sole (front back : List LexRule)
    (hfront : ∀ q ∈ front, mayStart q.patterns c = false)
    (hback : ∀ q ∈ back, mayStart q.patterns c = false)
    (htakes : rule.Takes (c :: text) (c :: word))
    (hlongest : ∀ other, rule.Takes (c :: text) other → other.length ≤ (c :: word).length) :
    munch LexRule.patterns (front ++ rule :: (back ++ [anyRule])) (c :: text) =
      some ((c :: word).length, rule) := by
  refine munch_eq htakes hlongest (fun q hq _ hother ↦ ?_) fun q hq other hother ↦ ?_
  · exact absurd hother (not_takes_of_mayStart (hfront q hq))
  · rcases List.mem_append.mp hq with hq | hq
    · exact absurd hother (not_takes_of_mayStart (hback q hq))
    · rw [length_of_anyRule hq hother]
      exact Nat.succ_le_succ (Nat.zero_le _)

/-! ### Blanks, comments and line ends -/

theorem takes_wsRule : wsRule.Takes text word ↔
    word <+: text ∧ word ≠ [] ∧ ∀ d ∈ word, isBlank d = true := by
  simp [LexRule.Takes, Foundation.Takes, wsRule]

theorem munch_blank (hne : word ≠ []) (hall : ∀ c ∈ word, isBlank c = true)
    (hstop : ∀ c ∈ rest.head?, isBlank c = false) :
    munch LexRule.patterns (lexRules false) (word ++ rest) = some (word.length, wsRule) := by
  obtain ⟨c, word, rfl⟩ := List.exists_cons_of_ne_nil hne
  have hc := hall c List.mem_cons_self
  have hback : ∀ q ∈ commentRule :: innerRules, mayStart q.patterns c = false := by
    simp only [isBlank, Bool.or_eq_true, decide_eq_true_eq] at hc
    rcases hc with rfl | rfl <;> decide
  exact munch_sole [] _ (fun q hq ↦ absurd hq List.not_mem_nil) hback
    (takes_wsRule.mpr ⟨List.prefix_append .., hne, hall⟩) fun other hother ↦
      length_le_of_stop (takes_wsRule.mp hother).1 (takes_wsRule.mp hother).2.2 hstop

/-- The text of a comment. -/
def IsComment (word : Str) : Prop :=
  (['/', '/'] <+: word ∨ ['#'] <+: word) ∧ '\n' ∉ word

theorem takes_commentRule : commentRule.Takes text word ↔ word <+: text ∧ IsComment word := by
  simp only [LexRule.Takes, Foundation.Takes, commentRule, IsComment, only, isDot,
    List.mem_cons, List.not_mem_nil, or_false, exists_eq_or_imp, exists_eq_left,
    spelled_one_cons, spelled_star, decide_eq_true_eq]
  refine and_congr_right fun _ ↦ ?_
  constructor
  · rintro (⟨_, _, rfl, rfl, _, back, rfl, rfl, hall⟩ | ⟨_, back, rfl, rfl, hall⟩)
    · refine ⟨.inl ⟨back, rfl⟩, fun hmem ↦ ?_⟩
      simp at hmem
      exact hall _ hmem rfl
    · refine ⟨.inr ⟨back, rfl⟩, fun hmem ↦ ?_⟩
      simp at hmem
      exact hall _ hmem rfl
  · rintro ⟨⟨back, rfl⟩ | ⟨back, rfl⟩, hnot⟩
    · exact .inl ⟨_, _, rfl, rfl, _, back, rfl, rfl, fun c hc h ↦ hnot (by simpa using h ▸ hc)⟩
    · exact .inr ⟨_, back, rfl, rfl, fun c hc h ↦ hnot (by simpa using h ▸ hc)⟩

theorem munch_comment (hcomment : IsComment word) (hstop : ∀ c ∈ rest.head?, c = '\n') :
    munch LexRule.patterns (lexRules false) (word ++ rest) = some (word.length, commentRule) := by
  have hlongest (other : Str) (hother : commentRule.Takes (word ++ rest) other) :
      other.length ≤ word.length := by
    obtain ⟨hleads, -, hdots⟩ := takes_commentRule.mp hother
    exact length_le_of_stop (p := isDot) hleads
      (fun c hc ↦ decide_eq_true (fun h ↦ hdots (h ▸ hc))) fun c hc ↦ by rw [hstop c hc]; rfl
  have htakes : commentRule.Takes (word ++ rest) word :=
    takes_commentRule.mpr ⟨List.prefix_append .., hcomment⟩
  obtain ⟨⟨back, rfl⟩ | ⟨back, rfl⟩, -⟩ := hcomment
  · exact munch_sole [wsRule] innerRules (by decide) (by decide) htakes
      hlongest
  · exact munch_sole [wsRule] innerRules (by decide) (by decide) htakes
      hlongest

theorem takes_newlineRule : newlineRule.Takes text word ↔ word <+: text ∧ word = ['\n'] := by
  simp [LexRule.Takes, Foundation.Takes, newlineRule, spelled_only_cons]

theorem takes_ignoreRule : ignoreRule.Takes text word ↔
    word <+: text ∧ (word = ['\x1a'] ∨ word = ['\r']) := by
  simp [LexRule.Takes, Foundation.Takes, ignoreRule, spelled_only_cons]

theorem munch_newline (rest : Str) :
    munch LexRule.patterns (lexRules false) ('\n' :: rest) = some (1, newlineRule) := by
  exact munch_sole earlyRules innerRules.tail (by decide) (by decide)
    (takes_newlineRule.mpr ⟨⟨rest, rfl⟩, rfl⟩) fun other hother ↦ by
      rw [(takes_newlineRule.mp hother).2]

theorem munch_ignored (hc : c = '\x1a' ∨ c = '\r') (rest : Str) :
    munch LexRule.patterns (lexRules false) (c :: rest) = some (1, ignoreRule) := by
  have hnot : (∀ q ∈ earlyRules ++ [newlineRule], mayStart q.patterns c = false) ∧
      ∀ q ∈ innerRules.tail.tail, mayStart q.patterns c = false := by
    rcases hc with rfl | rfl <;> decide
  have htakes : ignoreRule.Takes (c :: rest) [c] :=
    takes_ignoreRule.mpr ⟨⟨rest, rfl⟩, hc.imp (congrArg (fun d ↦ [d])) (congrArg fun d ↦ [d])⟩
  refine munch_sole (earlyRules ++ [newlineRule]) innerRules.tail.tail hnot.1 hnot.2 htakes
    fun other hother ↦ ?_
  rcases (takes_ignoreRule.mp hother).2 with rfl | rfl <;> exact Nat.le_refl 1

/-! ### Words and numbers -/

theorem takes_idRule : idRule.Takes text word ↔ word <+: text ∧ ∃ c back, word = c :: back ∧
    isIdStart c = true ∧ ∀ d ∈ back, isIdRest d = true := by
  simp [LexRule.Takes, Foundation.Takes, idRule]

/-- The rules that are neither for words nor the last cannot start with the first character of a
word. -/
theorem not_mayStart_of_isIdStart (hc : isIdStart c = true) :
    (∀ q ∈ earlyRules ++ [newlineRule, ignoreRule], mayStart q.patterns c = false) ∧
      ∀ q ∈ [sqRule, percentRule, stringRule, digitRule], mayStart q.patterns c = false := by
  have hne {d : Char} (hd : isIdStart d = false) : c ≠ d := ne_of_class hc hd
  have hblank : isBlank c = false := by
    simp [isBlank, hne (d := ' ') (by decide), hne (d := '\t') (by decide)]
  simp [earlyRules, mayStart, wsRule, commentRule, newlineRule, ignoreRule, sqRule, percentRule,
    stringRule, digitRule, Run.plus, Run.one, only, hblank, isDigit_of_isIdStart hc,
    hne (d := '/') (by decide), hne (d := '#') (by decide), hne (d := '\n') (by decide),
    hne (d := '\x1a') (by decide), hne (d := '\r') (by decide), hne (d := '\'') (by decide),
    hne (d := '"') (by decide)]

/-- A word is taken as a whole: by its own rule when it is reserved, and else as an identifier. -/
theorem munch_word (hc : isIdStart c = true) (hall : ∀ d ∈ word, isIdRest d = true)
    (hstop : ∀ d ∈ rest.head?, isIdRest d = false) :
    munch LexRule.patterns (lexRules false) (c :: word ++ rest) =
      some ((c :: word).length,
        if c :: word ∈ reservedWords then wordRule (c :: word) else idRule) := by
  obtain ⟨hearly, hlate⟩ := not_mayStart_of_isIdStart hc
  have hrest {other : Str} (hother : idRule.Takes (c :: word ++ rest) other) :
      other.length ≤ (c :: word).length := by
    obtain ⟨hleads, d, back, rfl, hd, hback⟩ := takes_idRule.mp hother
    refine length_le_of_stop hleads (fun e he ↦ ?_) hstop
    rcases List.mem_cons.mp he with rfl | he
    exacts [isIdRest_of_isIdStart hd, hback e he]
  -- a reserved word that is taken is part of the word
  have hreserved {w : Str} (hw : w ∈ reservedWords) {other : Str}
      (hother : (wordRule w).Takes (c :: word ++ rest) other) :
      other = w ∧ other.length ≤ (c :: word).length ∧
        (other.length = (c :: word).length → w = c :: word) := by
    obtain ⟨hleads, rfl⟩ := takes_wordRule.mp hother
    obtain ⟨-, -, -, -, hrestAll⟩ := isIdStart_head_reserved other hw
    have hle := length_le_of_stop hleads hrestAll hstop
    refine ⟨rfl, hle, fun hlen ↦ ?_⟩
    have hpre := List.prefix_of_prefix_length_le hleads (List.prefix_append _ _) hle
    exact hpre.eq_of_length hlen
  have hnone {q : LexRule} (hq : mayStart q.patterns c = false) (other : Str) :
      ¬q.Takes (c :: word ++ rest) other :=
    not_takes_of_mayStart hq
  split_ifs with hmem
  · obtain ⟨before, after, hwords, hnot⟩ := List.eq_append_cons_of_mem hmem
    have hrules : lexRules false = (earlyRules ++ [newlineRule, ignoreRule] ++
        before.map wordRule) ++ wordRule (c :: word) :: (after.map wordRule ++
          ([sqRule, percentRule] ++ idRule :: ([stringRule, digitRule] ++ [anyRule]))) := by
      rw [lexRules, if_neg (by decide), lateRules, hwords]
      simp
    rw [hrules]
    refine munch_eq (takes_wordRule.mpr ⟨List.prefix_append .., rfl⟩)
      (fun other hother ↦ (hreserved hmem hother).2.1) (fun q hq other hother ↦ ?_)
      fun q hq other hother ↦ ?_
    · rcases List.mem_append.mp hq with hq | hq
      · exact absurd hother (hnone (hearly q hq) other)
      · obtain ⟨w, hw, rfl⟩ := List.mem_map.mp hq
        obtain ⟨-, hle, heq⟩ := hreserved (hwords ▸ List.mem_append_left _ hw) hother
        exact Nat.lt_of_le_of_ne hle fun hlen ↦ hnot (heq hlen ▸ hw)
    · simp only [List.mem_append, List.mem_cons, List.mem_map, List.not_mem_nil, or_false] at hq
      rcases hq with ⟨w, hw, rfl⟩ | (rfl | rfl) | rfl | (rfl | rfl) | rfl
      · exact (hreserved (hwords ▸ by simp [hw]) hother).2.1
      · exact absurd hother (hnone (hlate _ (by simp)) other)
      · exact absurd hother (hnone (hlate _ (by simp)) other)
      · exact hrest hother
      · exact absurd hother (hnone (hlate _ (by simp)) other)
      · exact absurd hother (hnone (hlate _ (by simp)) other)
      · rw [length_of_anyRule List.mem_cons_self hother]
        exact Nat.succ_le_succ (Nat.zero_le _)
  · have hrules : lexRules false = (earlyRules ++ [newlineRule, ignoreRule] ++
        reservedWords.map wordRule ++ [sqRule, percentRule]) ++
          idRule :: ([stringRule, digitRule] ++ [anyRule]) := rfl
    rw [hrules]
    refine munch_eq (takes_idRule.mpr ⟨List.prefix_append .., c, word, rfl, hc, hall⟩)
      (fun other hother ↦ hrest hother) (fun q hq other hother ↦ ?_) fun q hq other hother ↦ ?_
    · rcases List.mem_append.mp hq with hq | hq
      · rcases List.mem_append.mp hq with hq | hq
        · exact absurd hother (hnone (hearly q hq) other)
        · obtain ⟨w, hw, rfl⟩ := List.mem_map.mp hq
          obtain ⟨-, hle, heq⟩ := hreserved hw hother
          exact Nat.lt_of_le_of_ne hle fun hlen ↦ hmem (heq hlen ▸ hw)
      · exact absurd hother (hnone (hlate q (by grind)) other)
    · rcases List.mem_append.mp hq with hq | hq
      · exact absurd hother (hnone (hlate q (by grind)) other)
      · rw [length_of_anyRule hq hother]
        exact Nat.succ_le_succ (Nat.zero_le _)

/-! ### Numbers -/

theorem takes_digitRule : digitRule.Takes text word ↔
    word <+: text ∧ word ≠ [] ∧ ∀ d ∈ word, d.isDigit = true := by
  simp [LexRule.Takes, Foundation.Takes, digitRule]

theorem takes_percentRule : percentRule.Takes text word ↔ word <+: text ∧
    ∃ digits, word = digits ++ ['%'] ∧ 1 ≤ digits.length ∧ digits.length ≤ 3 ∧
      ∀ d ∈ digits, d.isDigit = true := by
  have hsign (back : Str) : Spelled [only '%'] back ↔ back = ['%'] := by
    simp [spelled_only_cons]
  have hspelled (word : Str) : Spelled [⟨Char.isDigit, 1, some 3⟩, only '%'] word ↔
      ∃ digits, word = digits ++ ['%'] ∧ 1 ≤ digits.length ∧ digits.length ≤ 3 ∧
        ∀ d ∈ digits, d.isDigit = true := by
    rw [Spelled]
    simp only [hsign, Run.Admits, Option.mem_def, Option.some.injEq, forall_eq']
    constructor
    · rintro ⟨digits, _, rfl, ⟨hall, hleast, hmost⟩, rfl⟩
      exact ⟨digits, rfl, hleast, hmost, hall⟩
    · rintro ⟨digits, rfl, hleast, hmost, hall⟩
      exact ⟨digits, _, rfl, ⟨hall, hleast, hmost⟩, rfl⟩
  simp only [LexRule.Takes, Foundation.Takes, percentRule, List.mem_singleton, exists_eq_left,
    hspelled]

/-- A digit starts nothing but a number or a percentage. -/
theorem not_mayStart_of_isDigit (hc : c.isDigit = true) :
    (∀ q ∈ earlyRules ++ [newlineRule, ignoreRule, sqRule], mayStart q.patterns c = false) ∧
      (∀ q ∈ [idRule, stringRule], mayStart q.patterns c = false) ∧
        isIdStart c = false := by
  have hne {d : Char} (hd : d.isDigit = false) : c ≠ d := ne_of_class hc hd
  have hblank : isBlank c = false := by
    simp [isBlank, hne (d := ' ') (by decide), hne (d := '\t') (by decide)]
  have hstart : isIdStart c = false := by
    by_contra hstart
    rw [isDigit_of_isIdStart (Bool.not_eq_false _ ▸ hstart)] at hc
    cases hc
  simp [earlyRules, mayStart, wsRule, commentRule, newlineRule, ignoreRule, sqRule, idRule,
    stringRule, Run.plus, Run.one, Run.star, only, hblank, hstart,
    hne (d := '/') (by decide), hne (d := '#') (by decide), hne (d := '\n') (by decide),
    hne (d := '\x1a') (by decide), hne (d := '\r') (by decide), hne (d := '\'') (by decide),
    hne (d := '"') (by decide)]

/-- The rules behind `{id}` and those for words take nothing from a text that starts with a digit. -/
theorem not_takes_of_isDigit (hc : c.isDigit = true) {q : LexRule}
    (hq : q ∈ earlyRules ++ ([newlineRule, ignoreRule] ++ reservedWords.map wordRule ++ [sqRule]) ∨
      q ∈ [idRule, stringRule]) : ¬q.Takes (c :: text) other := by
  obtain ⟨hearly, hlate, hstart⟩ := not_mayStart_of_isDigit hc
  intro hother
  rcases hq with hq | hq
  · by_cases hword : q ∈ reservedWords.map wordRule
    · obtain ⟨w, hw, rfl⟩ := List.mem_map.mp hword
      exact not_takes_wordRule hstart hw hother
    · exact not_takes_of_mayStart (hearly q (by grind)) hother
  · exact not_takes_of_mayStart (hlate q hq) hother

/-- Digits without a percent sign that would make them a percentage are a number. -/
theorem munch_digits (hne : word ≠ []) (hall : ∀ d ∈ word, d.isDigit = true)
    (hstop : ∀ d ∈ rest.head?, d.isDigit = false ∧ (d = '%' → 3 < word.length)) :
    munch LexRule.patterns (lexRules false) (word ++ rest) = some (word.length, digitRule) := by
  obtain ⟨c, word, rfl⟩ := List.exists_cons_of_ne_nil hne
  have hc := hall c List.mem_cons_self
  have hrules : lexRules false = (earlyRules ++ ([newlineRule, ignoreRule] ++
      reservedWords.map wordRule ++ [sqRule]) ++ [percentRule] ++ [idRule, stringRule]) ++
        digitRule :: [anyRule] := rfl
  rw [hrules]
  refine munch_eq (takes_digitRule.mpr ⟨List.prefix_append .., hne, hall⟩) (fun other hother ↦ ?_)
    (fun q hq other hother ↦ ?_) fun q hq other hother ↦ ?_
  · obtain ⟨hleads, -, hdigits⟩ := takes_digitRule.mp hother
    exact length_le_of_stop hleads hdigits fun d hd ↦ (hstop d hd).1
  · rcases List.mem_append.mp hq with hq | hq
    · rcases List.mem_append.mp hq with hq | hq
      · exact absurd hother (not_takes_of_isDigit hc (.inl hq))
      · rw [List.mem_singleton.mp hq] at hother
        obtain ⟨hleads, digits, rfl, hleast, hmost, hdigits⟩ := takes_percentRule.mp hother
        obtain ⟨rfl, hhead⟩ := eq_of_stop hleads hdigits (by decide) hall
          fun d hd ↦ (hstop d hd).1
        exact absurd ((hstop '%' hhead).2 rfl) (Nat.not_lt.mpr hmost)
    · exact absurd hother (not_takes_of_isDigit hc (.inr hq))
  · rw [length_of_anyRule hq hother]
    exact Nat.succ_le_succ (Nat.zero_le _)

theorem munch_percent (hne : word ≠ []) (hall : ∀ d ∈ word, d.isDigit = true)
    (hlength : word.length ≤ 3) (rest : Str) :
    munch LexRule.patterns (lexRules false) (word ++ '%' :: rest) =
      some ((word ++ ['%']).length, percentRule) := by
  have hstop : ∀ d ∈ ('%' :: rest).head?, d.isDigit = false := by
    rintro d ⟨⟩
    decide
  have htakes : percentRule.Takes (word ++ '%' :: rest) (word ++ ['%']) :=
    takes_percentRule.mpr ⟨⟨rest, by simp⟩, word, rfl, List.length_pos_iff.mpr hne, hlength, hall⟩
  obtain ⟨c, word, rfl⟩ := List.exists_cons_of_ne_nil hne
  have hc := hall c List.mem_cons_self
  have hrules : lexRules false = (earlyRules ++ ([newlineRule, ignoreRule] ++
      reservedWords.map wordRule ++ [sqRule])) ++
        percentRule :: ([idRule, stringRule] ++ [digitRule] ++ [anyRule]) := rfl
  rw [hrules]
  refine munch_eq htakes (fun other hother ↦ ?_)
    (fun q hq other hother ↦ absurd hother (not_takes_of_isDigit hc (.inl hq)))
    fun q hq other hother ↦ ?_
  · obtain ⟨hleads, digits, rfl, -, -, hdigits⟩ := takes_percentRule.mp hother
    rw [(eq_of_stop hleads hdigits (by decide) hall hstop).1]
  · rw [List.length_append]
    rcases List.mem_append.mp hq with hq | hq
    · rcases List.mem_append.mp hq with hq | hq
      · exact absurd hother (not_takes_of_isDigit hc (.inr hq))
      · rw [List.mem_singleton.mp hq] at hother
        obtain ⟨hleads, -, hdigits⟩ := takes_digitRule.mp hother
        exact (length_le_of_stop hleads hdigits hstop).trans (Nat.le_add_right _ _)
    · rw [length_of_anyRule hq hother]
      exact Nat.succ_le_succ (Nat.zero_le _)

/-! ### Quotes and single characters -/

theorem takes_sqRule : sqRule.Takes text word ↔
    word <+: text ∧ ∃ c, word = ['\'', c, '\''] ∧ isSqCharacter c = true := by
  simp only [LexRule.Takes, Foundation.Takes, sqRule, List.mem_singleton, exists_eq_left,
    spelled_only_cons, spelled_one_cons, spelled_nil]
  grind

theorem munch_sq (hc : isSqCharacter c = true) (rest : Str) :
    munch LexRule.patterns (lexRules false) ('\'' :: c :: '\'' :: rest) = some (3, sqRule) := by
  exact munch_sole (earlyRules ++ [newlineRule, ignoreRule] ++ reservedWords.map wordRule)
    [percentRule, idRule, stringRule, digitRule] (by decide) (by decide)
    (takes_sqRule.mpr ⟨⟨rest, rfl⟩, c, rfl, hc⟩) fun other hother ↦ by
      obtain ⟨-, d, rfl, -⟩ := takes_sqRule.mp hother
      rfl

theorem takes_stringRule : stringRule.Takes text word ↔ word <+: text ∧
    ∃ body, word = '"' :: (body ++ ['"']) ∧ ∀ d ∈ body, d ≠ '"' ∧ d ≠ '\n' := by
  have hend (word : Str) : Spelled [.star fun c ↦ c ≠ '"' && c ≠ '\n', only '"'] word ↔
      ∃ body, word = body ++ ['"'] ∧ ∀ d ∈ body, d ≠ '"' ∧ d ≠ '\n' := by
    rw [Spelled]
    simp [spelled_only_cons, Run.Admits, Run.star]
  simp only [LexRule.Takes, Foundation.Takes, stringRule, List.mem_singleton, exists_eq_left,
    spelled_only_cons, hend]
  grind

theorem munch_string (hall : ∀ d ∈ word, d ≠ '"' ∧ d ≠ '\n') (rest : Str) :
    munch LexRule.patterns (lexRules false) ('"' :: word ++ '"' :: rest) =
      some (('"' :: word ++ ['"']).length, stringRule) := by
  have htakes (other : Str) : stringRule.Takes ('"' :: word ++ '"' :: rest) other ↔
      other = '"' :: word ++ ['"'] := by
    rw [takes_stringRule]
    constructor
    · rintro ⟨hleads, body, rfl, hbody⟩
      rw [List.cons_append, List.cons_prefix_cons] at hleads
      have hclass (w : Str) (hw : ∀ d ∈ w, d ≠ '"' ∧ d ≠ '\n') (d : Char) (hd : d ∈ w) :
          (d ≠ '"' && d ≠ '\n') = true := by simpa using hw d hd
      rw [(eq_of_stop hleads.2 (hclass body hbody) (by decide) (hclass word hall)
        (by rintro d ⟨⟩; decide)).1, List.cons_append]
    · rintro rfl
      exact ⟨⟨rest, by simp⟩, word, rfl, hall⟩
  exact munch_sole (earlyRules ++ [newlineRule, ignoreRule] ++ reservedWords.map wordRule ++
    [sqRule, percentRule, idRule]) [digitRule] (by decide) (by decide)
    ((htakes ('"' :: (word ++ ['"']))).mpr rfl) fun other hother ↦ by rw [(htakes _).mp hother]; rfl

/-- The one rule that can start with a character, if it takes nothing, leaves the character to the
last rule. -/
theorem munch_lone (front back : List LexRule)
    (hrules : lexRules false = front ++ rule :: (back ++ [anyRule]))
    (hfront : ∀ q ∈ front, mayStart q.patterns c = false)
    (hback : ∀ q ∈ back, mayStart q.patterns c = false) (hnone : ∀ other, ¬rule.Takes (c :: text) other)
    (hc : c ≠ '\n') :
    munch LexRule.patterns (lexRules false) (c :: text) = some (1, anyRule) := by
  have hsplit : lexRules false = (front ++ rule :: back) ++ anyRule :: [] := by
    rw [hrules, List.append_assoc]
    rfl
  rw [hsplit]
  refine munch_eq (takes_anyRule.mpr ⟨c, rfl, ⟨text, rfl⟩, hc⟩)
    (fun other hother ↦ (length_of_anyRule List.mem_cons_self hother).le)
    (fun q hq other hother ↦ ?_) fun q hq ↦ absurd hq List.not_mem_nil
  rcases List.mem_append.mp hq with hq | hq
  · exact absurd hother (not_takes_of_mayStart (hfront q hq))
  · rcases List.mem_cons.mp hq with rfl | hq
    · exact absurd hother (hnone other)
    · exact absurd hother (not_takes_of_mayStart (hback q hq))

theorem munch_slash (hnot : rest.head? ≠ some '/') :
    munch LexRule.patterns (lexRules false) ('/' :: rest) = some (1, anyRule) := by
  refine munch_lone [wsRule] innerRules rfl (by decide) (by decide)
    (fun other hother ↦ ?_) (by decide)
  obtain ⟨hleads, ⟨back, rfl⟩ | ⟨back, rfl⟩, -⟩ := takes_commentRule.mp hother
  · obtain ⟨more, hmore⟩ := hleads
    exact hnot (by rw [← (List.cons.inj hmore).2]; rfl)
  · exact absurd (List.cons_prefix_cons.mp hleads).1 (by decide)

theorem munch_quote (hnot : ∀ c back, rest = c :: '\'' :: back → isSqCharacter c = false) :
    munch LexRule.patterns (lexRules false) ('\'' :: rest) = some (1, anyRule) := by
  refine munch_lone (earlyRules ++ [newlineRule, ignoreRule] ++ reservedWords.map wordRule)
    [percentRule, idRule, stringRule, digitRule] rfl (by decide) (by decide)
    (fun other hother ↦ ?_) (by decide)
  obtain ⟨⟨more, hmore⟩, d, rfl, hd⟩ := takes_sqRule.mp hother
  rw [hnot d more (List.cons.inj hmore).2.symm] at hd
  cases hd

/-- A string that is closed in its line. -/
def IsClosed (text : Str) : Prop :=
  ∃ body back, text = body ++ '"' :: back ∧ ∀ d ∈ body, d ≠ '"' ∧ d ≠ '\n'

theorem munch_dquote (hnot : ¬IsClosed rest) :
    munch LexRule.patterns (lexRules false) ('"' :: rest) = some (1, anyRule) := by
  refine munch_lone (earlyRules ++ [newlineRule, ignoreRule] ++ reservedWords.map wordRule ++
    [sqRule, percentRule, idRule]) [digitRule] rfl (by decide) (by decide)
    (fun other hother ↦ ?_) (by decide)
  obtain ⟨⟨more, hmore⟩, body, rfl, hbody⟩ := takes_stringRule.mp hother
  refine hnot ⟨body, more, ?_, hbody⟩
  have htail := (List.cons.inj hmore).2
  rw [← htail]
  simp

/-- The characters that start nothing but themselves. -/
def isPunct (c : Char) : Bool :=
  !isBlank c && !isIdStart c && !c.isDigit && c ∉ ['/', '#', '\n', '\x1a', '\r', '\'', '"']

theorem munch_punct (hc : isPunct c = true) (rest : Str) :
    munch LexRule.patterns (lexRules false) (c :: rest) = some (1, anyRule) := by
  simp only [isPunct, Bool.and_eq_true, Bool.not_eq_true', decide_eq_true_eq, List.mem_cons,
    List.not_mem_nil, or_false, not_or] at hc
  obtain ⟨⟨⟨hblank, hstart⟩, hdigit⟩, hslash, hhash, hline, hsub, hcr, hquote, hdquote⟩ := hc
  have hnone : ∀ q ∈ earlyRules ++ [newlineRule, ignoreRule, sqRule, percentRule, idRule,
      stringRule, digitRule], mayStart q.patterns c = false := by
    simp [earlyRules, mayStart, wsRule, commentRule, newlineRule, ignoreRule, sqRule, percentRule,
      idRule, stringRule, digitRule, Run.plus, Run.one, only, *]
  have hrules : lexRules false = (earlyRules ++ innerRules) ++ anyRule :: [] := rfl
  rw [hrules]
  refine munch_eq (takes_anyRule.mpr ⟨c, rfl, ⟨rest, rfl⟩, hline⟩)
    (fun other hother ↦ (length_of_anyRule List.mem_cons_self hother).le)
    (fun q hq other hother ↦ ?_) fun q hq ↦ absurd hq List.not_mem_nil
  by_cases hword : q ∈ reservedWords.map wordRule
  · obtain ⟨w, hw, rfl⟩ := List.mem_map.mp hword
    exact absurd hother (not_takes_wordRule hstart hw)
  · refine absurd hother (not_takes_of_mayStart (hnone q ?_))
    simp only [innerRules, List.mem_append, hword, or_false] at hq
    simp only [List.mem_append, List.mem_cons, List.not_mem_nil, or_false] at hq ⊢
    tauto

end Katmai.SysConf
