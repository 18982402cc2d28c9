import Katmai.Foundation.MaximalMunch
import Katmai.SysConf.Reductions
import Mathlib.Data.List.Basic

/-!
# The scanner of configuration files

`lexer.l`. The generated scanner takes the longest match of its rules, of several the first. One
rule is only for the beginning of a line: it matches the whole line, copies it for `yyerror`, gives
it back with `yyless (0)`, and since the match does not end in a line end the scanner is then no
more at the beginning of a line. The class between single quotes is written `[\a-zA-Z0-9]`, and
`\a` is the bell, so that the range from it holds the line end, the blank and the quotes.

The scanner is a state and a step that takes one match. `lexAll` makes the list of all matches, with
what `lineno` and `linebuf` are at each; the tokens among them are what `yylex` returns one after
another.
-/

set_option autoImplicit false
set_option relaxedAutoImplicit false

namespace Katmai.SysConf

open Katmai.Foundation

/-! ### The rules -/

/-- What `yylex` returns, and `yylval` where the rule sets it. -/
inductive Token
  | reserved (word : Str)
  | value (token : ValueToken) (yylval : Option Str)
  | char (c : Char)
  deriving DecidableEq

/-- The actions of the rules. -/
inductive LexAction
  | skip
  | copyLine
  | newline
  | token (f : Str → Token)

structure LexRule where
  patterns : List (List (Run Char))
  action : LexAction

/-- `[ \t]` -/
def isBlank (c : Char) : Bool :=
  c = ' ' || c = '\t'

/-- `.` -/
def isDot (c : Char) : Bool :=
  c ≠ '\n'

/-- `[_a-zA-Z]` -/
def isIdStart (c : Char) : Bool :=
  c = '_' || c.isAlpha

/-- `[\-_a-zA-Z0-9]` -/
def isIdRest (c : Char) : Bool :=
  c = '-' || c = '_' || c.isAlphanum

/-- `[\a-zA-Z0-9]` -/
def isSqCharacter (c : Char) : Bool :=
  7 ≤ c.toNat && c.toNat ≤ 'z'.toNat

/-- One given character. -/
def only (c : Char) : Run Char :=
  .one (· = c)

/-- `{ws}` -/
def wsRule : LexRule :=
  ⟨[[.plus isBlank]], .skip⟩

/-- `{comment}` -/
def commentRule : LexRule :=
  ⟨[[only '/', only '/', .star isDot], [only '#', .star isDot]], .skip⟩

/-- `^.*` -/
def lineRule : LexRule :=
  ⟨[[.star isDot]], .copyLine⟩

/-- `\n` -/
def newlineRule : LexRule :=
  ⟨[[only '\n']], .newline⟩

/-- `\x1a|\r` -/
def ignoreRule : LexRule :=
  ⟨[[only '\x1a'], [only '\r']], .skip⟩

/-- The rule of a reserved word. -/
def wordRule (word : Str) : LexRule :=
  ⟨[word.map only], .token fun _ ↦ .reserved word⟩

/-- `\'[\a-zA-Z0-9]\'` -/
def sqRule : LexRule :=
  ⟨[[only '\'', .one isSqCharacter, only '\'']], .token fun yytext ↦ .value .sqCharacter (some yytext)⟩

/-- `[0-9]{1,3}\%` -/
def percentRule : LexRule :=
  ⟨[[⟨Char.isDigit, 1, some 3⟩, only '%']], .token fun yytext ↦ .value .percent (some yytext)⟩

/-- `{id}` -/
def idRule : LexRule :=
  ⟨[[.one isIdStart, .star isIdRest]], .token fun yytext ↦ .value .identifier (some yytext)⟩

/-- `{string}` -/
def stringRule : LexRule :=
  ⟨[[only '"', .star fun c ↦ c ≠ '"' && c ≠ '\n', only '"']],
    .token fun yytext ↦ .value .qstring (qstringValue yytext)⟩

/-- `[0-9]+` -/
def digitRule : LexRule :=
  ⟨[[.plus Char.isDigit]], .token fun yytext ↦ .value .digit (some yytext)⟩

/-- `.` -/
def anyRule : LexRule :=
  ⟨[[.one isDot]], .token fun yytext ↦ .char (yytext.headD '\x00')⟩

/-- The rules before the one for the beginning of a line. -/
def earlyRules : List LexRule :=
  [wsRule, commentRule]

/-- The rules behind the one for the beginning of a line. -/
def lateRules : List LexRule :=
  [newlineRule, ignoreRule] ++ reservedWords.map wordRule ++
    [sqRule, percentRule, idRule, stringRule, digitRule, anyRule]

/-- The rules, at the beginning of a line or not. -/
def lexRules (bol : Bool) : List LexRule :=
  if bol then earlyRules ++ lineRule :: lateRules else earlyRules ++ lateRules

/-! ### The scanner -/

/-- `lineno`, `linebuf` as a string, and `yy_at_bol`. -/
structure Lexer where
  lineno : ℕ
  linebuf : Str
  bol : Bool
  deriving DecidableEq

/-- Before the first character. -/
def newLexer : Lexer where
  lineno := 1
  linebuf := []
  bol := true

/-- One match: the text that it takes from the input, the token, and what `yyerror` would print. -/
structure Lexed where
  yytext : Str
  token : Option Token
  lineno : ℕ
  linebuf : Str
  deriving DecidableEq

/-- `strncpy (linebuf, yytext, 511)`, as a string. -/
def copyLinebuf (yytext : Str) : Str :=
  (yytext.take 511).takeWhile (· ≠ '\x00')

/-- The action of a rule. -/
def LexAction.run (action : LexAction) (yytext : Str) (s : Lexer) : Lexed × Lexer :=
  match action with
  | .skip => (⟨yytext, none, s.lineno, s.linebuf⟩, s)
  | .copyLine =>
    let s := { s with linebuf := copyLinebuf yytext }
    (⟨[], none, s.lineno, s.linebuf⟩, s)
  | .newline =>
    let s := { s with lineno := s.lineno + 1 }
    (⟨yytext, none, s.lineno, s.linebuf⟩, s)
  | .token f => (⟨yytext, some (f yytext), s.lineno, s.linebuf⟩, s)

/-- `YY_RULE_SETUP` -/
def Lexer.setup (s : Lexer) (yytext : Str) : Lexer :=
  if yytext = [] then s else { s with bol := yytext.getLast? = some '\n' }

/-- One match, and the text behind what it takes. -/
def lexStep (s : Lexer) (text : Str) : Option (Lexed × Lexer × Str) :=
  (munch LexRule.patterns (lexRules s.bol) text).map fun (n, rule) ↦
    let yytext := text.take n
    let (lexed, s) := rule.action.run yytext (s.setup yytext)
    (lexed, s, text.drop lexed.yytext.length)

/-- At most `fuel` matches. -/
def lex : ℕ → Lexer → Str → List Lexed
  | 0, _, _ => []
  | fuel + 1, s, text =>
    if text = [] then []
    else
      match lexStep s text with
      | none => []
      | some (lexed, s, rest) => lexed :: lex fuel s rest

/-- All matches. -/
def lexAll (s : Lexer) (text : Str) : List Lexed :=
  lex (2 * text.length + 1) s text

/-- What `yylex` returns one after another. -/
def yylex (text : Str) : List Token :=
  (lexAll newLexer text).filterMap Lexed.token

end Katmai.SysConf
