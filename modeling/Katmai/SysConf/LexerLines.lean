import Katmai.SysConf.LexicalGrammar
import Mathlib.Data.List.Basic
import Mathlib.Data.List.Count
import Mathlib.Tactic.Common

/-!
# The line that an error is reported for

`yyerror` prints `lineno` and `linebuf`. The scanner copies a line when it is at the beginning of
it, unless the whole line is blank or a comment, and counts the line ends that it meets outside of
quotes. So where a token is returned, `linebuf` is the line of the token and `lineno` its number
(`yyerror_line`); only a line end between single quotes, which is a character like others, is not
counted, and leaves `linebuf` as it was.
-/

set_option autoImplicit false
set_option relaxedAutoImplicit false

namespace Katmai.SysConf

open Katmai.Foundation

variable {text word rest before after : Str} {s s' : Lexer} {lexed : Lexed} {rule : LexRule}
  {front back before' : List Lexed}

/-- The line around a place in a text. -/
def lineAt (before after : Str) : Str :=
  (before.reverse.takeWhile isDot).reverse ++ after.takeWhile isDot

/-- A line end between single quotes. -/
def Lexed.isQuotedLine (lexed : Lexed) : Bool :=
  lexed.yytext = ['\'', '\n', '\'']

/-- What the matches have taken. -/
def taken (front : List Lexed) : Str :=
  front.flatMap Lexed.yytext

/-! ### Line ends in a match -/

theorem count_of_isDot (hdots : ∀ d ∈ word, isDot d = true) : word.count '\n' = 0 :=
  List.count_eq_zero.mpr fun hmem ↦ absurd (hdots _ hmem) (by decide)

/-- A rule takes one line end that it counts, none, or one between quotes. -/
theorem newlines_of_takes (hrule : rule ∈ earlyRules ++ lateRules) (htakes : rule.Takes text word) :
    rule = newlineRule ∧ word = ['\n'] ∨
      rule.lines = 0 ∧ ((∀ d ∈ word, isDot d = true) ∨ word = ['\'', '\n', '\'']) := by
  have hclass {p : Char → Bool} (hp : p '\n' = false) {w : Str} (hall : ∀ d ∈ w, p d = true) :
      ∀ d ∈ w, isDot d = true := fun d hd ↦ by
    simpa [isDot] using ne_of_class (hall d hd) hp
  simp only [earlyRules, lateRules, List.mem_append, List.mem_cons, List.mem_map,
    List.not_mem_nil, or_false] at hrule
  rcases hrule with (rfl | rfl) | ((rfl | rfl) | ⟨w, hw, rfl⟩) | rfl | rfl | rfl | rfl | rfl | rfl
  · exact .inr ⟨rfl, .inl (hclass (by decide) (takes_wsRule.mp htakes).2.2)⟩
  · refine .inr ⟨rfl, .inl fun d hd ↦ ?_⟩
    have hne : d ≠ '\n' := fun h ↦ (takes_commentRule.mp htakes).2.2 (h ▸ hd)
    simpa [isDot] using hne
  · exact .inl ⟨rfl, (takes_newlineRule.mp htakes).2⟩
  · refine .inr ⟨rfl, .inl ?_⟩
    rcases (takes_ignoreRule.mp htakes).2 with rfl | rfl <;> simp [isDot]
  · obtain ⟨-, rfl⟩ := takes_wordRule.mp htakes
    obtain ⟨-, -, -, -, hall⟩ := isIdStart_head_reserved word hw
    exact .inr ⟨rfl, .inl (hclass (by decide) hall)⟩
  · obtain ⟨-, c, rfl, -⟩ := takes_sqRule.mp htakes
    refine .inr ⟨rfl, ?_⟩
    by_cases hc : c = '\n'
    · exact .inr (by rw [hc])
    · exact .inl (by simp [isDot, hc])
  · obtain ⟨-, digits, rfl, -, -, hall⟩ := takes_percentRule.mp htakes
    refine .inr ⟨rfl, .inl fun d hd ↦ ?_⟩
    rcases List.mem_append.mp hd with hd | hd
    · exact hclass (by decide) hall d hd
    · rw [List.mem_singleton.mp hd]
      rfl
  · obtain ⟨-, c, rest, rfl, hc, hall⟩ := takes_idRule.mp htakes
    refine .inr ⟨rfl, .inl fun d hd ↦ ?_⟩
    rcases List.mem_cons.mp hd with rfl | hd
    · exact hclass (by decide) (fun e he ↦ List.mem_singleton.mp he ▸ hc) d (List.mem_singleton_self d)
    · exact hclass (by decide) hall d hd
  · obtain ⟨-, body, rfl, hall⟩ := takes_stringRule.mp htakes
    refine .inr ⟨rfl, .inl fun d hd ↦ ?_⟩
    simp only [List.mem_cons, List.mem_append, List.not_mem_nil, or_false] at hd
    rcases hd with rfl | hd | rfl
    · rfl
    · simpa [isDot] using (hall d hd).2
    · rfl
  · exact .inr ⟨rfl, .inl (hclass (by decide) (takes_digitRule.mp htakes).2.2)⟩
  · obtain ⟨c, rfl, -, hc⟩ := takes_anyRule.mp htakes
    exact .inr ⟨rfl, .inl (by simpa [isDot] using hc)⟩

/-! ### The line at a place -/

/-- In the middle of a line a match leaves the line as it is. -/
theorem lineAt_append (hdots : ∀ d ∈ word, isDot d = true) (before after : Str) :
    lineAt (before ++ word) after = lineAt before (word ++ after) := by
  rw [lineAt, lineAt, List.reverse_append,
    List.takeWhile_append_of_pos (by simpa using hdots), List.takeWhile_append_of_pos hdots]
  simp

/-- Behind a line end the line is what follows. -/
theorem lineAt_newline (before after : Str) :
    lineAt (before ++ ['\n']) after = after.takeWhile isDot := by
  simp [lineAt, isDot]

/-- At the beginning of a line, the line is what follows. -/
def AtBeginning (before : Str) : Prop :=
  before = [] ∨ before.getLast? = some '\n'

theorem lineAt_of_atBeginning (hbegin : AtBeginning before) (after : Str) :
    lineAt before after = after.takeWhile isDot := by
  rcases hbegin with rfl | hlast
  · simp [lineAt]
  · obtain ⟨front, rfl⟩ := List.getLast?_eq_some_iff.mp hlast
    exact lineAt_newline front after

/-! ### What holds between the matches -/

/-- The scanner has taken `front` from the text and has `after` before it. -/
structure AtPlace (text : Str) (front : List Lexed) (s : Lexer) (after : Str) : Prop where
  text_eq : taken front ++ after = text
  lineno_eq : s.lineno + front.countP Lexed.isQuotedLine = 1 + (taken front).count '\n'
  bol : (∀ lexed ∈ front, lexed.isQuotedLine = false) → s.bol = true → AtBeginning (taken front)
  linebuf : (∀ lexed ∈ front, lexed.isQuotedLine = false) → s.bol = false →
    s.linebuf = copyLinebuf (lineAt (taken front) after) ∨ after.takeWhile isDot = []

theorem atPlace_newLexer (text : Str) : AtPlace text [] newLexer text :=
  ⟨rfl, rfl, fun _ _ ↦ .inl rfl, fun _ h ↦ nomatch h⟩

/-- What is chosen at the beginning of a line is not shorter than the line. -/
theorem line_le_of_munch {n : ℕ} (hmunch : munch LexRule.patterns (lexRules true) text =
    some (n, rule)) : (text.takeWhile isDot).length ≤ n := by
  have htakes : lineRule.Takes text (text.takeWhile isDot) :=
    takes_lineRule.mpr ⟨ List.takeWhile_prefix _, fun d hd ↦ List.mem_takeWhile_imp hd⟩
  obtain ⟨m, q, hm, hle⟩ := exists_munch
    (show lineRule ∈ lexRules true from List.mem_append_right _ List.mem_cons_self) htakes
  rw [hmunch, Option.some.injEq, Prod.mk.injEq] at hm
  exact hm.1 ▸ hle

/-- Characters of a line that are as long as it are the line. -/
theorem eq_takeWhile (hleads : word <+: text) (hdots : ∀ d ∈ word, isDot d = true)
    (hle : (text.takeWhile isDot).length ≤ word.length) : word = text.takeWhile isDot := by
  obtain ⟨rest, rfl⟩ := hleads
  rw [List.takeWhile_append_of_pos hdots] at hle ⊢
  rw [List.length_append] at hle
  rw [List.length_eq_zero_iff.mp (by omega : (rest.takeWhile isDot).length = 0), List.append_nil]

theorem AtPlace.copyLine (h : AtPlace text front s after) (hbol : s.bol = true)
    (hleads : word <+: after) (hdots : ∀ d ∈ word, isDot d = true)
    (hmunch : munch LexRule.patterns (lexRules s.bol) after = some (word.length, lineRule)) :
    AtPlace text (front ++ [⟨[], none, s.lineno, copyLinebuf word⟩])
      ⟨s.lineno, copyLinebuf word, false⟩ after := by
  have hline := eq_takeWhile hleads hdots (line_le_of_munch (hbol ▸ hmunch))
  have htaken : taken (front ++ [⟨[], none, s.lineno, copyLinebuf word⟩]) = taken front := by
    simp [taken]
  refine ⟨by rw [htaken, h.text_eq], ?_, (fun _ hfalse ↦ nomatch hfalse),
    fun hnone _ ↦ .inl ?_⟩
  · rw [htaken, List.countP_append]
    exact h.lineno_eq
  · have hbegin := h.bol (fun lexed hmem ↦ hnone lexed (List.mem_append_left _ hmem)) hbol
    rw [htaken, lineAt_of_atBeginning hbegin, ← hline]

/-- A match without a line end that takes something leaves the line as it is; at the beginning of a
line it takes the whole line. -/
theorem AtPlace.dots (h : AtPlace text front s (word ++ rest)) (hne : word ≠ [])
    (hdots : ∀ d ∈ word, isDot d = true)
    (hmunch : munch LexRule.patterns (lexRules s.bol) (word ++ rest) = some (word.length, rule))
    (token : Option Token) :
    AtPlace text (front ++ [⟨word, token, s.lineno, s.linebuf⟩]) ⟨s.lineno, s.linebuf, false⟩
      rest := by
  have htaken : taken (front ++ [⟨word, token, s.lineno, s.linebuf⟩]) = taken front ++ word := by
    simp [taken]
  have hquoted : Lexed.isQuotedLine ⟨word, token, s.lineno, s.linebuf⟩ = false := by
    refine decide_eq_false ?_
    rintro rfl
    exact absurd (hdots '\n' (by simp)) (by decide)
  refine ⟨by rw [htaken, List.append_assoc, h.text_eq], ?_, (fun _ hfalse ↦ nomatch hfalse),
    fun hnone _ ↦ ?_⟩
  · rw [htaken, List.countP_append, List.countP_singleton, hquoted, List.count_append,
      count_of_isDot hdots]
    exact h.lineno_eq
  · have hfront (lexed : Lexed) (hmem : lexed ∈ front) : lexed.isQuotedLine = false :=
      hnone lexed (List.mem_append_left _ hmem)
    have hline : (word ++ rest).takeWhile isDot = word ++ rest.takeWhile isDot :=
      List.takeWhile_append_of_pos hdots
    cases hbol : s.bol with
    | false =>
      rcases h.linebuf hfront hbol with hbuf | hempty
      · left
        rw [htaken, lineAt_append hdots, ← hbuf]
      · rw [hline] at hempty
        exact absurd (List.append_eq_nil_iff.mp hempty).1 hne
    | true =>
      right
      have hle := line_le_of_munch (hbol ▸ hmunch)
      rw [hline, List.length_append] at hle
      exact List.length_eq_zero_iff.mp (by omega)

theorem AtPlace.step (h : AtPlace text front s after) (hne : after ≠ [])
    (hstep : lexStep s after = some (lexed, s', rest)) :
    AtPlace text (front ++ [lexed]) s' rest := by
  rcases lexStep_cases hne hstep with ⟨hbol, rfl, w, hleads, -, hdots, hmunch, rfl, rfl⟩ |
    ⟨rule, hrule, w, hw, rfl, hmunch, htakes, rfl, rfl⟩
  · exact h.copyLine hbol hleads hdots hmunch
  have htaken : taken (front ++ [⟨w, rule.token? w, s.lineno + rule.lines, s.linebuf⟩]) =
      taken front ++ w := by
    simp [taken]
  rcases newlines_of_takes hrule htakes with ⟨rfl, rfl⟩ | ⟨hlines, hdots | rfl⟩
  · -- the beginning of a line again
    refine ⟨by rw [htaken, List.append_assoc, h.text_eq], ?_,
      fun _ _ ↦ .inr (by rw [htaken, List.getLast?_concat]), fun _ hfalse ↦ nomatch hfalse⟩
    have hlineno := h.lineno_eq
    rw [htaken, List.countP_append, List.count_append]
    simp [newlineRule, LexRule.lines, Lexed.isQuotedLine] at hlineno ⊢
    omega
  · have hlast : (w.getLast? = some '\n') = False := by
      refine eq_false fun hlast ↦ ?_
      exact absurd (hdots _ (List.mem_of_getLast? hlast)) (by decide)
    simp only [hlines, Nat.add_zero, hlast, decide_false]
    exact h.dots hw hdots hmunch _
  · have hquoted : Lexed.isQuotedLine ⟨['\'', '\n', '\''], rule.token? ['\'', '\n', '\''],
        s.lineno + rule.lines, s.linebuf⟩ = true := rfl
    have hvacuous {P : Prop} (hnone : ∀ lexed ∈ front ++ [⟨['\'', '\n', '\''],
        rule.token? ['\'', '\n', '\''], s.lineno + rule.lines, s.linebuf⟩],
        lexed.isQuotedLine = false) : P := by
      have hfalse := hnone _ (List.mem_append_right _ (List.mem_singleton_self _))
      rw [hquoted] at hfalse
      cases hfalse
    refine ⟨by rw [htaken, List.append_assoc, h.text_eq], ?_, fun hnone ↦ hvacuous hnone,
      fun hnone ↦ hvacuous hnone⟩
    have hlineno := h.lineno_eq
    rw [htaken, List.countP_append, List.count_append, List.countP_singleton, hquoted, hlines]
    simp at hlineno ⊢
    omega

/-! ### All matches -/

/-- Every match of a text is made at its place. -/
theorem AtPlace.exists_lexStep (h : AtPlace text before' s after)
    (hall : lexAll s after = front ++ lexed :: back) :
    ∃ s₁ after₁ s₂ rest, AtPlace text (before' ++ front) s₁ after₁ ∧ after₁ ≠ [] ∧
      lexStep s₁ after₁ = some (lexed, s₂, rest) := by
  have hne : after ≠ [] := by
    rintro rfl
    cases front <;> cases hall
  obtain ⟨first, s', rest, hstep⟩ := SysConf.exists_lexStep s hne
  rw [lexAll_cons hne hstep] at hall
  induction front generalizing before' s after first s' rest with
  | nil =>
    obtain ⟨rfl, -⟩ := List.cons.inj hall
    exact ⟨s, after, s', rest, by rwa [List.append_nil], hne, hstep⟩
  | cons head front ih =>
    obtain ⟨rfl, hrest⟩ := List.cons.inj hall
    have hne' : rest ≠ [] := by
      rintro rfl
      cases front <;> cases hrest
    obtain ⟨next, s'', rest', hstep'⟩ := SysConf.exists_lexStep s' hne'
    rw [lexAll_cons hne' hstep'] at hrest
    have hlater := ih (h.step hne hstep) hne' next s'' rest' hrest hstep'
    rwa [List.append_assoc] at hlater

/-- At the beginning of a line the line is copied before its first token is returned. -/
theorem bol_eq_false (htakes : rule.Takes after word) (hrule : rule ∈ earlyRules ++ lateRules)
    (hmunch : munch LexRule.patterns (lexRules s.bol) after = some (word.length, rule))
    (htoken : (rule.token? word).isSome) (hquoted : word ≠ ['\'', '\n', '\'']) :
    s.bol = false ∧ ∀ d ∈ word, isDot d = true := by
  have hdots : ∀ d ∈ word, isDot d = true := by
    rcases newlines_of_takes hrule htakes with ⟨rfl, -⟩ | ⟨-, hdots | hline⟩
    · cases htoken
    · exact hdots
    · exact absurd hline hquoted
  refine ⟨?_, hdots⟩
  by_contra hbol
  rw [Bool.not_eq_false] at hbol
  rw [hbol] at hmunch
  have hline : lineRule.Takes after (after.takeWhile isDot) :=
    takes_lineRule.mpr ⟨ List.takeWhile_prefix _, fun d hd ↦ List.mem_takeWhile_imp hd⟩
  rcases lt_of_munch hmunch hline with hearly | rfl | hlt
  · simp only [earlyRules, List.mem_cons, List.not_mem_nil, or_false] at hearly
    rcases hearly with rfl | rfl <;> cases htoken
  · cases htoken
  · obtain ⟨rest, rfl⟩ := htakes.1
    rw [List.takeWhile_append_of_pos hdots, List.length_append] at hlt
    omega

/-- Where a token is returned, `lineno` is the number of its line, but for the line ends that were
taken between quotes; and if there are none, `linebuf` is its line. -/
theorem yyerror_line (text : Str) {front back : List Lexed} {lexed : Lexed}
    (hall : lexAll newLexer text = front ++ lexed :: back) (htoken : lexed.token.isSome) :
    taken front ++ lexed.yytext <+: text ∧
      lexed.lineno + front.countP Lexed.isQuotedLine = 1 + (taken front).count '\n' ∧
      ((∀ other ∈ front ++ [lexed], other.isQuotedLine = false) →
        lexed.linebuf = copyLinebuf (lineAt (taken front) (text.drop (taken front).length))) := by
  obtain ⟨s, after, s', rest, hplace, hne, hstep⟩ := (atPlace_newLexer text).exists_lexStep hall
  rw [List.nil_append] at hplace
  rcases lexStep_cases hne hstep with ⟨-, -, w, -, -, -, -, rfl, -⟩ |
    ⟨rule, hrule, w, hw, rfl, hmunch, htakes, rfl, -⟩
  · cases htoken
  have hlines : rule.lines = 0 := by
    rcases newlines_of_takes hrule htakes with ⟨rfl, -⟩ | ⟨hlines, -⟩
    · cases htoken
    · exact hlines
  refine ⟨⟨rest, by rw [List.append_assoc, hplace.text_eq]⟩, by
    rw [hlines]; exact hplace.lineno_eq, fun hnone ↦ ?_⟩
  have hquoted : w ≠ ['\'', '\n', '\''] := by
    rintro rfl
    cases hnone _ (List.mem_append_right _ (List.mem_singleton_self _))
  obtain ⟨hbol, hdots⟩ := bol_eq_false htakes hrule hmunch htoken hquoted
  have hdrop : text.drop (taken front).length = w ++ rest := by
    rw [← hplace.text_eq, List.drop_left]
  rw [hdrop]
  refine (hplace.linebuf (fun other hmem ↦ hnone other (List.mem_append_left _ hmem))
    hbol).resolve_right fun hempty ↦ ?_
  rw [List.takeWhile_append_of_pos hdots] at hempty
  exact hw (List.append_eq_nil_iff.mp hempty).1

/-- The second token of the second line of a text with a comment. -/
theorem yyerror_line_second :
    ['a', ' ', '#', '\n', ' ', 'b', ' '] ++ ['='] <+: ['a', ' ', '#', '\n', ' ', 'b', ' ', '='] ∧
      (⟨['='], some (.char '='), 2, [' ', 'b', ' ', '=']⟩ : Lexed).linebuf =
        copyLinebuf (lineAt ['a', ' ', '#', '\n', ' ', 'b', ' '] ['=']) := by
  have hall : lexAll newLexer ['a', ' ', '#', '\n', ' ', 'b', ' ', '='] =
      [⟨[], none, 1, ['a', ' ', '#']⟩, ⟨['a'], some (.value .identifier (some ['a'])), 1,
        ['a', ' ', '#']⟩, ⟨[' '], none, 1, ['a', ' ', '#']⟩, ⟨['#'], none, 1, ['a', ' ', '#']⟩,
        ⟨['\n'], none, 2, ['a', ' ', '#']⟩, ⟨[], none, 2, [' ', 'b', ' ', '=']⟩,
        ⟨[' '], none, 2, [' ', 'b', ' ', '=']⟩,
        ⟨['b'], some (.value .identifier (some ['b'])), 2, [' ', 'b', ' ', '=']⟩,
        ⟨[' '], none, 2, [' ', 'b', ' ', '=']⟩] ++
        ⟨['='], some (.char '='), 2, [' ', 'b', ' ', '=']⟩ :: [] := by decide
  obtain ⟨hleads, -, hline⟩ := yyerror_line _ hall rfl
  exact ⟨hleads, hline (by decide)⟩

end Katmai.SysConf
