import Katmai.SysConf.LexerMatches
import Mathlib.Data.List.Basic
import Mathlib.Tactic.Common

/-!
# The tokens of a configuration file

`Scans` is the lexical grammar of configuration files, one constructor for each kind of character
that a text can start with: what is skipped, the words, numbers and quotations with what must follow
them, and the characters that are tokens of their own. `yylex_eq_iff` says that the scanner returns
exactly these tokens. The lexemes of the grammar are those that the parser's actions see, with the
values that the rules leave in `yylval`.
-/

set_option autoImplicit false
set_option relaxedAutoImplicit false

namespace Katmai.SysConf

open Katmai.Foundation

variable {c : Char} {text word rest : Str} {s s' : Lexer} {lexed : Lexed} {rule : LexRule} {n : ℕ}

/-! ### The grammar -/

/-- What must be behind a lexeme so that it does not go on. -/
def Ends : ValueToken → Str → Str → Prop
  | .identifier, _, rest => ∀ d ∈ rest.head?, isIdRest d = false
  | .digit, yytext, rest =>
    ∀ d ∈ rest.head?, d.isDigit = false ∧ (d = '%' → 3 < yytext.length)
  | _, _, _ => True

/-- A slash or a quote that starts nothing longer. -/
def IsLone (c : Char) (rest : Str) : Prop :=
  c = '/' ∧ rest.head? ≠ some '/' ∨
    c = '\'' ∧ (∀ d back, rest = d :: '\'' :: back → isSqCharacter d = false) ∨
      c = '"' ∧ ¬IsClosed rest

/-- A text and its tokens. -/
inductive Scans : Str → List Token → Prop
  | done : Scans [] []
  | skipped {c : Char} {rest : Str} {tokens : List Token}
    (hc : c ∈ [' ', '\t', '\n', '\x1a', '\r']) (hrest : Scans rest tokens) :
    Scans (c :: rest) tokens
  | comment {word rest : Str} {tokens : List Token} (hcomment : IsComment word)
    (hstop : ∀ d ∈ rest.head?, d = '\n') (hrest : Scans rest tokens) : Scans (word ++ rest) tokens
  | reserved {word rest : Str} {tokens : List Token} (hword : word ∈ reservedWords)
    (hstop : ∀ d ∈ rest.head?, isIdRest d = false) (hrest : Scans rest tokens) :
    Scans (word ++ rest) (.reserved word :: tokens)
  | value {token : ValueToken} {rest : Str} {tokens : List Token} (lexeme : Lexeme token)
    (hends : Ends token lexeme.yytext rest) (hrest : Scans rest tokens) :
    Scans (lexeme.yytext ++ rest) (.value token lexeme.yylval :: tokens)
  | punct {c : Char} {rest : Str} {tokens : List Token} (hc : isPunct c = true ∨ IsLone c rest)
    (hrest : Scans rest tokens) : Scans (c :: rest) (.char c :: tokens)

/-! ### One match after another -/

/-- Every character starts something. -/
theorem exists_match (bol : Bool) (c : Char) (text : Str) :
    ∃ n rule, munch LexRule.patterns (lexRules bol) (c :: text) = some (n, rule) ∧ 1 ≤ n := by
  have hmem (q : LexRule) (hq : q ∈ lateRules) : q ∈ lexRules bol := by
    cases bol
    · exact List.mem_append_right _ hq
    · exact List.mem_append_right _ (List.mem_cons_of_mem _ hq)
  by_cases hc : c = '\n'
  · subst hc
    have htakes : newlineRule.Takes ('\n' :: text) ['\n'] := by
      simp [LexRule.Takes, Takes, newlineRule, spelled_only_cons]
    exact exists_munch (hmem newlineRule (by simp [lateRules])) htakes
  · exact exists_munch (hmem anyRule (List.mem_append_right _ (by simp)))
      (takes_anyRule.mpr ⟨c, rfl, ⟨text, rfl⟩, hc⟩)

/-- The token of a match. -/
def LexRule.token? (rule : LexRule) (yytext : Str) : Option Token :=
  match rule.action with
  | .token f => some (f yytext)
  | _ => none

/-- How many lines the action counts. -/
def LexRule.lines (rule : LexRule) : ℕ :=
  match rule.action with
  | .newline => 1
  | _ => 0

theorem eq_lineRule {bol : Bool} (hrule : rule ∈ lexRules bol) :
    bol = true ∧ rule = lineRule ∨ rule ∈ earlyRules ++ lateRules := by
  cases bol with
  | false => exact .inr hrule
  | true =>
    rcases List.mem_append.mp hrule with hrule | hrule
    · exact .inr (List.mem_append_left _ hrule)
    · rcases List.mem_cons.mp hrule with rfl | hrule
      · exact .inl ⟨rfl, rfl⟩
      · exact .inr (List.mem_append_right _ hrule)

theorem action_ne_copyLine (hrule : rule ∈ earlyRules ++ lateRules) : rule.action ≠ .copyLine := by
  simp only [earlyRules, lateRules, List.mem_append, List.mem_cons, List.mem_map,
    List.not_mem_nil, or_false] at hrule
  rcases hrule with (rfl | rfl) | ((rfl | rfl) | ⟨w, -, rfl⟩) | rfl | rfl | rfl | rfl | rfl | rfl <;>
    exact LexAction.noConfusion

theorem takes_lineRule : lineRule.Takes text word ↔ word <+: text ∧ ∀ d ∈ word, isDot d = true := by
  simp [LexRule.Takes, Takes, lineRule]

/-- What a match can do: at the beginning of a line it may copy the line and take nothing; else it
takes a word for which one of the other rules is chosen. -/
theorem lexStep_cases (hne : text ≠ []) (hstep : lexStep s text = some (lexed, s', rest)) :
    (s.bol = true ∧ rest = text ∧ (∃ w, w <+: text ∧ w ≠ [] ∧ (∀ d ∈ w, isDot d = true) ∧
        munch LexRule.patterns (lexRules s.bol) text = some (w.length, lineRule) ∧
        lexed = ⟨[], none, s.lineno, copyLinebuf w⟩ ∧ s' = ⟨s.lineno, copyLinebuf w, false⟩)) ∨
      ∃ rule ∈ earlyRules ++ lateRules, ∃ w ≠ [], text = w ++ rest ∧
        munch LexRule.patterns (lexRules s.bol) text = some (w.length, rule) ∧
        rule.Takes text w ∧
        lexed = ⟨w, rule.token? w, s.lineno + rule.lines, s.linebuf⟩ ∧
        s' = ⟨s.lineno + rule.lines, s.linebuf, w.getLast? = some '\n'⟩ := by
  obtain ⟨c, tail, rfl⟩ := List.exists_cons_of_ne_nil hne
  obtain ⟨n, rule, hmunch, hn⟩ := exists_match s.bol c tail
  obtain ⟨hrule, hle, htakes⟩ := takes_of_munch hmunch
  have hlength : ((c :: tail).take n).length = n := by
    rw [List.length_take, Nat.min_eq_left hle]
  have hw : (c :: tail).take n ≠ [] := by
    intro hnil
    rw [hnil] at hlength
    exact absurd hlength (by simp; omega)
  rw [lexStep, hmunch, Option.map_some, Option.some.injEq, Prod.mk.injEq, Prod.mk.injEq] at hstep
  obtain ⟨rfl, rfl, rfl⟩ := hstep
  rcases eq_lineRule hrule with ⟨hbol, rfl⟩ | hother
  · obtain ⟨hleads, hdots⟩ := takes_lineRule.mp htakes
    have hlast : (((c :: tail).take n).getLast? = some '\n') = False := by
      refine eq_false fun hlast ↦ ?_
      have hdot := hdots _ (List.mem_of_getLast? hlast)
      exact absurd hdot (by decide)
    refine .inl ⟨hbol, rfl, _, hleads, hw, hdots, by rw [hlength, hmunch], ?_, ?_⟩
    · simp [LexAction.run, lineRule, Lexer.setup, hw]
    · simp [LexAction.run, lineRule, Lexer.setup, hw, hlast]
  · refine .inr ⟨rule, hother, _, hw, ?_, by rw [hlength, hmunch], htakes, ?_, ?_⟩
    all_goals
      have hcopy := action_ne_copyLine hother
      cases haction : rule.action <;>
        simp_all [LexAction.run, Lexer.setup, LexRule.token?, LexRule.lines, List.take_append_drop]

theorem exists_lexStep (s : Lexer) (hne : text ≠ []) :
    ∃ lexed s' rest, lexStep s text = some (lexed, s', rest) := by
  obtain ⟨c, tail, rfl⟩ := List.exists_cons_of_ne_nil hne
  obtain ⟨n, rule, hmunch, -⟩ := exists_match s.bol c tail
  exact ⟨_, _, _, by rw [lexStep, hmunch, Option.map_some]⟩

/-- How many matches there can still be. -/
def matchesLeft (s : Lexer) (text : Str) : ℕ :=
  2 * text.length + if s.bol then 1 else 0

theorem matchesLeft_lt (hne : text ≠ []) (hstep : lexStep s text = some (lexed, s', rest)) :
    matchesLeft s' rest < matchesLeft s text := by
  rcases lexStep_cases hne hstep with ⟨hbol, rfl, w, -, -, -, -, -, rfl⟩ |
    ⟨rule, -, w, hw, rfl, -, -, -, rfl⟩
  · simp [matchesLeft, hbol]
  · have hpos := List.length_pos_iff.mpr hw
    simp only [matchesLeft, List.length_append]
    split_ifs <;> omega

/-- More fuel than matches changes nothing. -/
theorem lex_fuel {f g : ℕ} (hf : matchesLeft s text ≤ f) (hg : matchesLeft s text ≤ g) :
    lex f s text = lex g s text := by
  induction f generalizing g s text with
  | zero =>
    have hnil : text = [] := List.length_eq_zero_iff.mp (by unfold matchesLeft at hf; omega)
    subst hnil
    cases g <;> simp [lex]
  | succ f ih =>
    by_cases hne : text = []
    · subst hne
      cases g <;> simp [lex]
    · obtain ⟨lexed, s', rest, hstep⟩ := exists_lexStep s hne
      have hlt := matchesLeft_lt hne hstep
      obtain ⟨g, rfl⟩ : ∃ k, g = k + 1 := ⟨g - 1, by omega⟩
      simp only [lex, if_neg hne, hstep]
      rw [ih (by omega) (by omega : matchesLeft s' rest ≤ g)]

theorem lexAll_nil (s : Lexer) : lexAll s [] = [] :=
  rfl

theorem lexAll_cons (hne : text ≠ []) (hstep : lexStep s text = some (lexed, s', rest)) :
    lexAll s text = lexed :: lexAll s' rest := by
  have hlt := matchesLeft_lt hne hstep
  have hfuel : matchesLeft s text ≤ 2 * text.length + 1 := by
    unfold matchesLeft
    split_ifs <;> omega
  rw [lexAll, lex, if_neg hne, hstep]
  simp only [lexAll]
  rw [lex_fuel (by omega) (g := 2 * rest.length + 1)]
  unfold matchesLeft
  split_ifs <;> omega

/-! ### Tokens do not depend on the state -/

/-- The tokens of a text. -/
def tokensFrom (s : Lexer) (text : Str) : List Token :=
  (lexAll s text).filterMap Lexed.token

/-- The match of a rule that is chosen. -/
theorem lexStep_of_munch (hrule : rule ∈ earlyRules ++ lateRules) (hne : word ≠ [])
    (hmunch : munch LexRule.patterns (lexRules s.bol) (word ++ rest) =
      some (word.length, rule)) :
    ∃ lexed s', lexStep s (word ++ rest) = some (lexed, s', rest) ∧
      lexed.token = rule.token? word := by
  have htext : word ++ rest ≠ [] := List.append_ne_nil_of_left_ne_nil hne rest
  obtain ⟨lexed, s', rest', hstep⟩ := exists_lexStep s htext
  rcases lexStep_cases htext hstep with ⟨-, -, w, -, -, -, hline, -, -⟩ |
    ⟨rule', -, w, -, hsplit, hchosen, -, rfl, -⟩
  · rw [hmunch, Option.some.injEq, Prod.mk.injEq] at hline
    exact absurd (congrArg LexRule.action hline.2) (action_ne_copyLine hrule)
  · rw [hmunch, Option.some.injEq, Prod.mk.injEq] at hchosen
    obtain ⟨rfl, rfl⟩ := List.append_inj hsplit hchosen.1
    exact ⟨_, s', hstep, by rw [hchosen.2]⟩

/-- The next match in the middle of a line is the next at its beginning, but for the copying. -/
theorem tokensFrom_match (hne : word ≠ []) (hmunch : munch LexRule.patterns (lexRules false)
    (word ++ rest) = some (word.length, rule)) (s : Lexer) :
    ∃ s', tokensFrom s (word ++ rest) = (rule.token? word).toList ++ tokensFrom s' rest := by
  have htext : word ++ rest ≠ [] := List.append_ne_nil_of_left_ne_nil hne rest
  have hrule : rule ∈ earlyRules ++ lateRules := (takes_of_munch hmunch).1
  have hmatch {s : Lexer} (hs : munch LexRule.patterns (lexRules s.bol) (word ++ rest) =
      some (word.length, rule)) :
      ∃ s', tokensFrom s (word ++ rest) = (rule.token? word).toList ++ tokensFrom s' rest := by
    obtain ⟨lexed, s', hstep, htoken⟩ := lexStep_of_munch hrule hne hs
    refine ⟨s', ?_⟩
    rw [tokensFrom, lexAll_cons htext hstep, List.filterMap_cons, htoken]
    cases rule.token? word <;> rfl
  cases hbol : s.bol with
  | false => exact hmatch (by rw [hbol, hmunch])
  | true =>
    have hmiddle : (∃ n, munch LexRule.patterns (lexRules true) (word ++ rest) =
          some (n, lineRule)) ∨
        munch LexRule.patterns (lexRules true) (word ++ rest) =
          munch LexRule.patterns (lexRules false) (word ++ rest) :=
      munch_middle earlyRules lateRules lineRule (word ++ rest)
    rcases hmiddle with ⟨n, hline⟩ | hsame
    · obtain ⟨lexed, s', rest', hstep⟩ := exists_lexStep s htext
      rcases lexStep_cases htext hstep with ⟨-, rfl, w, -, -, -, -, rfl, rfl⟩ |
        ⟨rule', hrule', w, -, -, hchosen, -⟩
      · obtain ⟨s'', htokens⟩ := hmatch (s := ⟨s.lineno, copyLinebuf w, false⟩) hmunch
        refine ⟨s'', ?_⟩
        rw [tokensFrom, lexAll_cons htext hstep]
        exact htokens
      · rw [hbol] at hchosen
        rw [hline, Option.some.injEq, Prod.mk.injEq] at hchosen
        exact absurd (congrArg LexRule.action hchosen.2.symm) (action_ne_copyLine hrule')
    · exact hmatch (by rw [hbol, hsame, hmunch])

/-- The tokens of a text are the same at the beginning of a line and elsewhere. -/
theorem tokensFrom_congr (s s' : Lexer) (text : Str) : tokensFrom s text = tokensFrom s' text := by
  induction hlen : text.length using Nat.strong_induction_on generalizing text s s' with
  | h len ih =>
    by_cases hne : text = []
    · subst hne
      rfl
    · obtain ⟨c, tail, rfl⟩ := List.exists_cons_of_ne_nil hne
      obtain ⟨n, rule, hmunch, hn⟩ := exists_match false c tail
      obtain ⟨-, hle, -⟩ := takes_of_munch hmunch
      have hword : ((c :: tail).take n).length = n := by
        rw [List.length_take, Nat.min_eq_left hle]
      have hnil : (c :: tail).take n ≠ [] := List.ne_nil_of_length_pos (by omega)
      have hsplit : (c :: tail).take n ++ (c :: tail).drop n = c :: tail := List.take_append_drop ..
      rw [← hsplit] at hmunch ⊢
      obtain ⟨t, ht⟩ := tokensFrom_match hnil (by rw [hmunch, hword]) s
      obtain ⟨t', ht'⟩ := tokensFrom_match hnil (by rw [hmunch, hword]) s'
      rw [ht, ht']
      exact congrArg _ (ih _ (by rw [List.length_drop]; omega) t t' _ rfl)

/-- What a match adds to the tokens. -/
theorem yylex_match (hne : word ≠ []) (hmunch : munch LexRule.patterns (lexRules false)
    (word ++ rest) = some (word.length, rule)) :
    yylex (word ++ rest) = (rule.token? word).toList ++ yylex rest := by
  obtain ⟨s', htokens⟩ := tokensFrom_match hne hmunch newLexer
  exact htokens.trans (congrArg _ (tokensFrom_congr s' newLexer rest))

/-! ### The scanner and the grammar -/

/-- Blanks add no token, however many there are. -/
theorem yylex_blank (hc : isBlank c = true) (rest : Str) : yylex (c :: rest) = yylex rest := by
  have hrun (text : Str) (hne : text.takeWhile isBlank ≠ []) :
      yylex text = yylex (text.dropWhile isBlank) := by
    have hstop : ∀ d ∈ (text.dropWhile isBlank).head?, isBlank d = false := by
      intro d hd
      have hnot := List.head?_dropWhile_not isBlank text
      rwa [Option.mem_def.mp hd] at hnot
    have hmatch := yylex_match hne (munch_blank hne (fun d hd ↦ List.mem_takeWhile_imp hd) hstop)
    rwa [List.takeWhile_append_dropWhile] at hmatch
  rw [hrun (c :: rest) (by simp [hc]), List.dropWhile_cons_of_pos hc]
  by_cases hne : rest.takeWhile isBlank = []
  · have hall : rest.takeWhile isBlank ++ rest.dropWhile isBlank = rest :=
      List.takeWhile_append_dropWhile
    rw [hne, List.nil_append] at hall
    rw [hall]
  · exact (hrun rest hne).symm

/-- The rule that is chosen for a lexeme. -/
theorem munch_lexeme {token : ValueToken} (lexeme : Lexeme token)
    (hends : Ends token lexeme.yytext rest) :
    ∃ rule, munch LexRule.patterns (lexRules false) (lexeme.yytext ++ rest) =
        some (lexeme.yytext.length, rule) ∧ lexeme.yytext ≠ [] ∧
      rule.token? lexeme.yytext = some (.value token lexeme.yylval) := by
  obtain ⟨yytext, haccepted⟩ := lexeme
  cases token with
  | identifier =>
    obtain ⟨c, back, rfl, hc, hall, hnot⟩ := haccepted
    have hword : ∀ d ∈ back, isIdRest d = true := fun d hd ↦ by
      simpa [isIdRest, or_assoc] using hall d hd
    refine ⟨idRule, ?_, List.cons_ne_nil _ _, rfl⟩
    rw [munch_word (by simpa [isIdStart] using hc) hword hends, if_neg hnot]
  | digit =>
    obtain ⟨hne, hall⟩ := haccepted
    exact ⟨digitRule, munch_digits hne hall hends, hne, rfl⟩
  | qstring =>
    obtain ⟨body, rfl, hall⟩ := haccepted
    refine ⟨stringRule, ?_, List.cons_ne_nil _ _, rfl⟩
    have hmunch := munch_string hall rest
    rwa [← List.singleton_append (l := rest), ← List.append_assoc] at hmunch
  | sqCharacter =>
    obtain ⟨c, rfl, hlow, hhigh⟩ := haccepted
    have hc : isSqCharacter c = true := by
      rw [isSqCharacter, Bool.and_eq_true]
      exact ⟨decide_eq_true hlow, decide_eq_true hhigh⟩
    exact ⟨sqRule, munch_sq hc rest, List.cons_ne_nil _ _, rfl⟩
  | percent =>
    obtain ⟨digits, rfl, hleast, hmost, hall⟩ := haccepted
    refine ⟨percentRule, ?_, List.append_ne_nil_of_right_ne_nil _ (List.cons_ne_nil _ _), rfl⟩
    have hmunch := munch_percent (List.length_pos_iff.mp hleast) hall hmost rest
    rwa [← List.singleton_append (l := rest), ← List.append_assoc] at hmunch

/-- The scanner returns the tokens of the grammar. -/
theorem yylex_of_scans {tokens : List Token} (hscans : Scans text tokens) :
    yylex text = tokens := by
  induction hscans with
  | done => rfl
  | @skipped c rest tokens hc hrest ih =>
    have hblank (hc : isBlank c = true) := (yylex_blank hc rest).trans ih
    simp only [List.mem_cons, List.not_mem_nil, or_false] at hc
    rcases hc with rfl | rfl | rfl | hc
    · exact hblank (by decide)
    · exact hblank (by decide)
    · have hmunch : munch LexRule.patterns (lexRules false) (['\n'] ++ rest) =
          some (['\n'].length, newlineRule) := munch_newline rest
      exact (yylex_match (List.cons_ne_nil _ _) hmunch).trans ih
    · have hmunch : munch LexRule.patterns (lexRules false) ([c] ++ rest) =
          some ([c].length, ignoreRule) := munch_ignored hc rest
      exact (yylex_match (List.cons_ne_nil _ _) hmunch).trans ih
  | @comment word rest tokens hcomment hstop hrest ih =>
    rw [yylex_match (by rintro rfl; simp [IsComment] at hcomment)
      (munch_comment hcomment hstop), ih]
    rfl
  | @reserved word rest tokens hword hstop hrest ih =>
    obtain ⟨c, back, rfl, hc, hall⟩ := isIdStart_head_reserved word hword
    rw [yylex_match (List.cons_ne_nil _ _)
      (munch_word hc (fun d hd ↦ hall d (List.mem_cons_of_mem _ hd)) hstop), ih, if_pos hword]
    rfl
  | @value token rest tokens lexeme hends hrest ih =>
    obtain ⟨rule, hmunch, hne, htoken⟩ := munch_lexeme lexeme hends
    rw [yylex_match hne hmunch, htoken, ih]
    rfl
  | @punct c rest tokens hc hrest ih =>
    have hmunch : munch LexRule.patterns (lexRules false) ([c] ++ rest) =
        some ([c].length, anyRule) := by
      rcases hc with hc | ⟨rfl, hlone⟩ | ⟨rfl, hlone⟩ | ⟨rfl, hlone⟩
      exacts [munch_punct hc rest, munch_slash hlone, munch_quote hlone, munch_dquote hlone]
    rw [← List.singleton_append, yylex_match (List.cons_ne_nil _ _) hmunch, ih]
    rfl

theorem head?_dropWhile {p : Char → Bool} (text : Str) :
    ∀ d ∈ (text.dropWhile p).head?, p d = false := by
  intro d hd
  have hnot := List.head?_dropWhile_not p text
  rwa [Option.mem_def.mp hd] at hnot

/-- A word that is not reserved is an identifier. -/
theorem scans_word {tokens : List Token} (hc : isIdStart c = true)
    (hall : ∀ d ∈ word, isIdRest d = true) (hstop : ∀ d ∈ rest.head?, isIdRest d = false)
    (hrest : Scans rest tokens) : ∃ token, Scans (c :: word ++ rest) (token :: tokens) := by
  by_cases hmem : c :: word ∈ reservedWords
  · exact ⟨_, .reserved hmem hstop hrest⟩
  · have haccepted : ValueToken.identifier.Matches (c :: word) :=
      ⟨c, word, rfl, by simpa [isIdStart] using hc,
        fun d hd ↦ by simpa [isIdRest, or_assoc] using hall d hd, hmem⟩
    exact ⟨_, .value (⟨_, haccepted⟩ : Lexeme .identifier) hstop hrest⟩

/-- Digits are a number or, with a percent sign, a percentage. -/
theorem scans_digits (hne : word ≠ []) (hall : ∀ d ∈ word, d.isDigit = true)
    (hstop : ∀ d ∈ rest.head?, d.isDigit = false)
    (hscans : ∀ back, back.length ≤ rest.length → ∃ tokens, Scans back tokens) :
    ∃ tokens, Scans (word ++ rest) tokens := by
  by_cases hpercent : rest.head? = some '%' ∧ word.length ≤ 3
  · obtain ⟨back, rfl⟩ : ∃ back, rest = '%' :: back := by
      cases rest with
      | nil => cases hpercent.1
      | cons d back => exact ⟨back, by rw [Option.some.inj hpercent.1]⟩
    have haccepted : ValueToken.percent.Matches (word ++ ['%']) :=
      ⟨word, rfl, List.length_pos_iff.mpr hne, hpercent.2, hall⟩
    obtain ⟨tokens, hback⟩ := hscans back (Nat.le_succ _)
    have hword := Scans.value (⟨_, haccepted⟩ : Lexeme .percent) trivial hback
    rw [List.append_assoc, List.singleton_append] at hword
    exact ⟨_, hword⟩
  · obtain ⟨tokens, hrest⟩ := hscans rest (Nat.le_refl _)
    have hends : Ends .digit word rest := fun d hd ↦ ⟨hstop d hd, by
      rintro rfl
      exact Nat.lt_of_not_le fun hle ↦ hpercent ⟨hd, hle⟩⟩
    exact ⟨_, .value (⟨word, hne, hall⟩ : Lexeme .digit) hends hrest⟩

/-- Every text has tokens. -/
theorem exists_scans (text : Str) : ∃ tokens, Scans text tokens := by
  induction hlen : text.length using Nat.strong_induction_on generalizing text with
  | h len ih =>
    subst hlen
    cases text with
    | nil => exact ⟨[], .done⟩
    | cons c tail =>
      have hscans (back : Str) (hle : back.length ≤ tail.length) : ∃ tokens, Scans back tokens :=
        ih back.length (Nat.lt_succ_of_le hle) back rfl
      obtain ⟨tokens, htail⟩ := hscans tail (Nat.le_refl _)
      by_cases hskip : c ∈ [' ', '\t', '\n', '\x1a', '\r']
      · exact ⟨tokens, .skipped hskip htail⟩
      by_cases hcomment : c = '/' ∧ tail.head? = some '/' ∨ c = '#'
      · have hdot : isDot c = true := by
          rcases hcomment with ⟨rfl, -⟩ | rfl <;> rfl
        have hword : IsComment (c :: tail.takeWhile isDot) := by
          refine ⟨hcomment.imp ?_ fun h ↦ ⟨_, by rw [h]; rfl⟩, fun hmem ↦ ?_⟩
          · rintro ⟨rfl, hhead⟩
            cases tail with
            | nil => cases hhead
            | cons d back =>
              obtain rfl := Option.some.inj hhead
              exact ⟨back.takeWhile isDot, rfl⟩
          · rcases List.mem_cons.mp hmem with rfl | hmem
            · cases hdot
            · cases List.mem_takeWhile_imp hmem
        obtain ⟨tokens, hback⟩ := hscans (tail.dropWhile isDot) (List.length_dropWhile_le ..)
        have hline : ∀ d ∈ (tail.dropWhile isDot).head?, d = '\n' := fun d hd ↦ by
          simpa [isDot] using head?_dropWhile tail d hd
        have hall := Scans.comment hword hline hback
        rw [List.cons_append, List.takeWhile_append_dropWhile] at hall
        exact ⟨_, hall⟩
      rw [not_or, not_and] at hcomment
      by_cases hstart : isIdStart c = true
      · obtain ⟨tokens, hback⟩ := hscans (tail.dropWhile isIdRest)
          (List.length_dropWhile_le ..)
        obtain ⟨token, hword⟩ := scans_word hstart (fun d hd ↦ List.mem_takeWhile_imp hd)
          (head?_dropWhile tail) hback
        rw [List.cons_append, List.takeWhile_append_dropWhile] at hword
        exact ⟨_, hword⟩
      by_cases hdigit : c.isDigit = true
      · have hall : ∀ d ∈ c :: tail.takeWhile Char.isDigit, d.isDigit = true := by
          intro d hd
          rcases List.mem_cons.mp hd with rfl | hd
          exacts [hdigit, List.mem_takeWhile_imp hd]
        have hword := scans_digits (List.cons_ne_nil _ _) hall (head?_dropWhile tail)
          fun back hle ↦ hscans back (hle.trans (List.length_dropWhile_le ..))
        rwa [List.cons_append, List.takeWhile_append_dropWhile] at hword
      by_cases hquote : c = '\''
      · subst hquote
        by_cases hsq : ∃ d back, tail = d :: '\'' :: back ∧ isSqCharacter d = true
        · obtain ⟨d, back, rfl, hd⟩ := hsq
          rw [isSqCharacter, Bool.and_eq_true, decide_eq_true_eq, decide_eq_true_eq] at hd
          obtain ⟨tokens, hback⟩ := hscans back (by simp; omega)
          exact ⟨_, .value (⟨['\'', d, '\''], d, rfl, hd⟩ : Lexeme .sqCharacter) trivial hback⟩
        · refine ⟨_, .punct (.inr (.inr (.inl ⟨rfl, fun d back htail' ↦ ?_⟩))) htail⟩
          by_contra hd
          exact hsq ⟨d, back, htail', Bool.not_eq_false _ ▸ hd⟩
      by_cases hdquote : c = '"'
      · subst hdquote
        by_cases hclosed : IsClosed tail
        · obtain ⟨body, back, rfl, hbody⟩ := hclosed
          obtain ⟨tokens, hback⟩ := hscans back (by simp; omega)
          have hword := Scans.value (⟨_, body, rfl, hbody⟩ : Lexeme .qstring) trivial hback
          rw [List.cons_append, List.append_assoc] at hword
          exact ⟨_, hword⟩
        · exact ⟨_, .punct (.inr (.inr (.inr ⟨rfl, hclosed⟩))) htail⟩
      by_cases hslash : c = '/'
      · subst hslash
        exact ⟨_, .punct (.inr (.inl ⟨rfl, hcomment.1 rfl⟩)) htail⟩
      · refine ⟨_, .punct (.inl ?_) htail⟩
        simp_all [isPunct, isBlank]

/-- The scanner returns exactly the tokens of the grammar. -/
theorem yylex_eq_iff (text : Str) (tokens : List Token) :
    yylex text = tokens ↔ Scans text tokens := by
  refine ⟨?_, yylex_of_scans⟩
  rintro rfl
  obtain ⟨tokens, hscans⟩ := exists_scans text
  rwa [yylex_of_scans hscans]

end Katmai.SysConf
