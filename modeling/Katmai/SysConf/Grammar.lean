import Katmai.Foundation.SwitchFlags
import Katmai.SysConf.Store
import Mathlib.Logic.Function.Basic

/-!
# The grammar of `parser.y` and its actions

`sys_conf/parser.y` has no syntax tree. Its actions are executed while the parser reduces, and they
work on the store and on a few static variables: the flags `iftrue` and `ifevertrue`, the value and
the flag of the current `switch`, and a small stack for comma lists.

The derivations of the grammar are data types here, one constructor or field for every alternative
and every symbol with a value; a repetition (`variable_definitions`, `case_labels`, a comma list) is
a list, which the grammar demands to have at least one element. A production is reduced after the
symbols of its right-hand side have been reduced from left to right, and its own action comes last:
the functions named `reduce` execute the actions of a derivation in this order.

An action stops the program by `exit (0)`, or faults where the C program is undefined.
-/

set_option autoImplicit false
set_option relaxedAutoImplicit false

namespace Katmai.SysConf

open Foundation

/-! ### The state of the parser -/

/-- `MAX_INT_STK_LEN`. -/
def maxIntStkLen : ℕ := 64

/-- `struct generic_stack`: the member of the union that was stored last. -/
inductive GenericStack where
  | intval (value : ℤ)
  | str (value : Option Str)
  deriving DecidableEq

/-- What a configuration text works on: the store, `sstru`, and what has been printed. -/
structure Env where
  conf : Sysconf
  sstru : ℕ → ℤ × ℤ
  stderr : Str

/-- The static variables of the parser, and what it works on. `gstk` has the entries below `sp`, the
top of the stack first. -/
structure Parser where
  iftrue : Bool
  ifevertrue : Bool
  intstk : Bool
  swValue : ℤ
  swTf : Bool
  gstk : List GenericStack
  env : Env

/-- The parser when the program starts. -/
def Parser.start (env : Env) : Parser where
  iftrue := true
  ifevertrue := false
  intstk := true
  swValue := 0
  swTf := false
  gstk := []
  env := env

/-- Why an action does not return. -/
inductive Stop where
  | exit (env : Env)
  | fault

/-! ### `variable_definition` -/

/-- `comma_list_data`. An empty `QSTRING` has the value `NULL`. -/
inductive CommaListData where
  | number (commaListNumber : List Str)
  | string (commaListString : List (Option Str))

/-- `variable_statement`. -/
inductive VariableStatement where
  | digit (identifier value : Str)
  | qstring (identifier : Str) (value : Option Str)
  | flagOn (identifier : Str)
  | flagOff (identifier : Str)
  | list (identifier : Str) (commaListData : CommaListData)

/-- `variable_definition`. -/
inductive VariableDefinition where
  | assign (variableStatement : VariableStatement)
  | print (qstring : Option Str)
  | exit

/-- `push_int` and `push_str`: a full stack stays as it is. -/
def push (p : Parser) (value : GenericStack) : Parser :=
  if p.gstk.length < maxIntStkLen then { p with gstk := value :: p.gstk } else p

/-- A comma list: the rest of it is reduced before the action that pushes its first element. -/
def reduceCommaList {α : Type} (entry : α → GenericStack) : List α → Parser → Parser
  | [], p => p
  | first :: rest, p =>
    let p := reduceCommaList entry rest p
    if p.iftrue then push p (entry first) else p

/-- `comma_list_number`. -/
def reduceCommaListNumber : List Str → Parser → Parser :=
  reduceCommaList fun digit ↦ .intval (atoi digit)

/-- `comma_list_string`. -/
def reduceCommaListString : List (Option Str) → Parser → Parser :=
  reduceCommaList .str

/-- `comma_list_data`. -/
def CommaListData.reduce : CommaListData → Parser → Parser
  | .number list, p => { reduceCommaListNumber list p with intstk := true }
  | .string list, p => { reduceCommaListString list p with intstk := false }

/-- `pop_int`, for an entry that `push_int` has stored. -/
def GenericStack.popInt : GenericStack → Except Stop ℤ
  | .intval value => .ok value
  | .str _ => .error .fault

/-- `pop_str`, for an entry that `push_str` has stored. -/
def GenericStack.popStr : GenericStack → Except Stop (Option Str)
  | .intval _ => .error .fault
  | .str value => .ok value

/-- The action of `variable_statement` for a list: the stack is emptied from its top into the list
that is stored. -/
def storeList (identifier : Str) (p : Parser) : Except Stop Parser := do
  let len : ℤ := p.gstk.length
  let env ←
    if p.iftrue && p.intstk then do
      let list ← p.gstk.mapM GenericStack.popInt
      pure { p.env with conf := addentryIntlist p.env.conf identifier (some list) len }
    else if p.iftrue && !p.intstk then do
      let list ← p.gstk.mapM GenericStack.popStr
      pure { p.env with conf := addentryStrlist p.env.conf identifier (some list) len }
    else pure p.env
  pure { p with env := env, gstk := [] }

/-- An action that changes the store, if statements are executed at present. -/
def whenTrue (p : Parser) (f : Sysconf → Sysconf) : Parser :=
  if p.iftrue then { p with env := { p.env with conf := f p.env.conf } } else p

/-- `variable_statement`. -/
def VariableStatement.reduce : VariableStatement → Parser → Except Stop Parser
  | .digit identifier value, p => .ok (whenTrue p fun conf ↦ addentryInteger conf identifier value)
  | .qstring identifier value, p =>
    .ok (whenTrue p fun conf ↦ (addentryString conf identifier value).2)
  | .flagOn identifier, p => .ok (whenTrue p fun conf ↦ addentryFlagOn conf identifier)
  | .flagOff identifier, p => .ok (whenTrue p fun conf ↦ addentryFlagOff conf identifier)
  | .list identifier data, p => storeList identifier (data.reduce p)

/-- The loop of `print_statement`: the text with its escapes replaced. The flag is the variable `k`,
set behind a backslash. -/
def unescape : Bool → Str → Str
  | _, [] => []
  | true, c :: rest =>
    (if c = 'n' then ['\n'] else if c = 'r' then ['\r'] else if c = '\\' then ['\\'] else []) ++
      unescape false rest
  | false, c :: rest => if c = '\\' then unescape true rest else c :: unescape false rest

/-- `print_statement`. `strlen (NULL)` faults. -/
def printStatement (p : Parser) (qstring : Option Str) : Except Stop Parser :=
  if p.iftrue then
    match qstring with
    | none => .error .fault
    | some text =>
      .ok { p with env := { p.env with stderr := p.env.stderr ++ unescape false text } }
  else .ok p

/-- `exit_statement`. -/
def exitStatement (p : Parser) : Except Stop Parser :=
  if p.iftrue then .error (.exit p.env) else .ok p

/-- `variable_definition`. -/
def VariableDefinition.reduce : VariableDefinition → Parser → Except Stop Parser
  | .assign statement, p => statement.reduce p
  | .print qstring, p => printStatement p qstring
  | .exit, p => exitStatement p

/-- `variable_definitions`. -/
def reduceDefinitions (defs : List VariableDefinition) (p : Parser) : Except Stop Parser :=
  defs.foldlM (fun p d ↦ d.reduce p) p

/-! ### `ifstm_definition` -/

/-- `ifstm_definition`, with the identifiers of the conditions and the bodies. -/
inductive IfstmDefinition where
  | ifElifElse (c1 : Str) (b1 : List VariableDefinition) (c2 : Str)
    (b2 b3 : List VariableDefinition)
  | ifElse (c1 : Str) (b1 b3 : List VariableDefinition)
  | ifOnly (c1 : Str) (b1 : List VariableDefinition)

/-- `start_if_stm`. -/
def startIfStm (identifier : Str) (p : Parser) : Parser :=
  let iftrue := decide (sysconfInt p.env.conf identifier > 0)
  { p with iftrue := iftrue, ifevertrue := iftrue }

/-- `stop_if_stm`. -/
def stopIfStm (p : Parser) : Parser :=
  { p with iftrue := true }

/-- `start_elif_stm`. -/
def startElifStm (identifier : Str) (p : Parser) : Parser :=
  if !p.ifevertrue then
    let iftrue := decide (sysconfInt p.env.conf identifier > 0)
    { p with iftrue := iftrue, ifevertrue := iftrue }
  else { p with iftrue := false }

/-- `start_else_stm`. -/
def startElseStm (p : Parser) : Parser :=
  { p with iftrue := !p.ifevertrue }

/-- `stop_else_stm`. -/
def stopElseStm (p : Parser) : Parser :=
  { p with iftrue := true, ifevertrue := false }

/-- `ifstm_definition`. -/
def IfstmDefinition.reduce : IfstmDefinition → Parser → Except Stop Parser
  | .ifElifElse c1 b1 c2 b2 b3, p => do
    let p ← reduceDefinitions b1 (startIfStm c1 p)
    let p ← reduceDefinitions b2 (startElifStm c2 p)
    let p ← reduceDefinitions b3 (startElseStm p)
    pure (stopElseStm p)
  | .ifElse c1 b1 b3, p => do
    let p ← reduceDefinitions b1 (startIfStm c1 p)
    let p ← reduceDefinitions b3 (startElseStm p)
    pure (stopElseStm p)
  | .ifOnly c1 b1, p => do
    let p ← reduceDefinitions b1 (startIfStm c1 p)
    pure (stopIfStm p)

/-! ### `switch_definition` -/

/-- `case_statement`: labels, statements, and whether `break_stm` follows (`hasBreak`). -/
structure CaseStatement where
  caseLabels : List Str
  definitions : List VariableDefinition
  hasBreak : Bool

/-- `case_def_statement`: labels that stand before `default_label`, and the statements behind it.
`break_stm` always follows. -/
structure CaseDefStatement where
  caseLabels : List Str
  definitions : List VariableDefinition

/-- `switch_definition`: the identifier, and `case_statements`, of which the last may be a
`case_def_statement`. -/
structure SwitchDefinition where
  identifier : Str
  caseStatements : List CaseStatement
  caseDefStatement : Option CaseDefStatement

/-- `start_sw_stm`. -/
def startSwStm (identifier : Str) (p : Parser) : Parser :=
  { p with swValue := sysconfInt p.env.conf identifier, iftrue := false, swTf := false }

/-- `end_sw_stm`. -/
def endSwStm (p : Parser) : Parser :=
  { p with iftrue := true }

/-- `case_label`. -/
def caseLabel (digit : Str) (p : Parser) : Parser :=
  if p.swValue = atoi digit then { p with iftrue := true, swTf := true } else p

/-- `default_label`. -/
def defaultLabel (p : Parser) : Parser :=
  if !p.swTf then { p with iftrue := true } else p

/-- `break_stm`. -/
def breakStm (p : Parser) : Parser :=
  { p with iftrue := false }

/-- `case_labels`. -/
def reduceCaseLabels (caseLabels : List Str) (p : Parser) : Parser :=
  caseLabels.foldl (fun p digit ↦ caseLabel digit p) p

/-- `case_statement`. -/
def CaseStatement.reduce (statement : CaseStatement) (p : Parser) : Except Stop Parser := do
  let p ← reduceDefinitions statement.definitions (reduceCaseLabels statement.caseLabels p)
  pure (if statement.hasBreak then breakStm p else p)

/-- `case_def_statement`. -/
def CaseDefStatement.reduce (statement : CaseDefStatement) (p : Parser) : Except Stop Parser := do
  let p ← reduceDefinitions statement.definitions
    (defaultLabel (reduceCaseLabels statement.caseLabels p))
  pure (breakStm p)

/-- `switch_definition`. -/
def SwitchDefinition.reduce (d : SwitchDefinition) (p : Parser) : Except Stop Parser := do
  let p ← d.caseStatements.foldlM (fun p statement ↦ statement.reduce p)
    (startSwStm d.identifier p)
  let p ←
    match d.caseDefStatement with
    | some statement => statement.reduce p
    | none => pure p
  pure (endSwStm p)

/-! ### `full_definition` -/

/-- `statement_definition`. -/
inductive StatementDefinition where
  | definition (d : VariableDefinition)
  | ifstm (d : IfstmDefinition)
  | switch (d : SwitchDefinition)

/-- `statement_definition`. -/
def StatementDefinition.reduce : StatementDefinition → Parser → Except Stop Parser
  | .definition d, p => d.reduce p
  | .ifstm d, p => d.reduce p
  | .switch d, p => d.reduce p

/-- `tag_definition`: the quoted character, the flag of its rule, and the percentage. -/
structure TagDefinition where
  sqCharacter : Str
  flag : ℤ
  percent : Str

/-- `MAX_SPECIAL_STUDENT_RULES_ENTRY`. -/
def maxSpecialStudentRulesEntry : ℕ := 127

/-- `sysconf_add_special`. -/
def sysconfAddSpecial (env : Env) (key : Char) (flag pc : ℤ) : Env :=
  if key.toNat < maxSpecialStudentRulesEntry then
    { env with sstru := Function.update env.sstru key.toNat (flag, pc) }
  else env

/-- `add_tag_percent`: the percentage without its last character, from a copy of 9 characters. -/
def addTagPercent (env : Env) (d : TagDefinition) : Env :=
  let buffer := d.percent.take 9
  match d.sqCharacter[1]? with
  | some key =>
    if buffer.length > 0 then sysconfAddSpecial env key d.flag (atoi buffer.dropLast) else env
  | none => env

/-- `tag_definition`. -/
def TagDefinition.reduce (d : TagDefinition) (p : Parser) : Parser :=
  { p with env := addTagPercent p.env d }

/-- `full_definition`: the statements, and what may follow them: the tags of `special_definition`
and statements behind it. -/
structure FullDefinition where
  statements : List StatementDefinition
  special : Option (List TagDefinition × List VariableDefinition)

/-- `statement_definitions`. -/
def reduceStatements (statements : List StatementDefinition) (p : Parser) : Except Stop Parser :=
  statements.foldlM (fun p s ↦ s.reduce p) p

/-- `system_definition`. -/
def reduceSpecial (special : Option (List TagDefinition × List VariableDefinition)) (p : Parser) :
    Except Stop Parser :=
  match special with
  | some (tags, defs) => reduceDefinitions defs (tags.foldl (fun p tag ↦ tag.reduce p) p)
  | none => .ok p

/-- `yyparse` on an accepted text: what its actions make of what they work on. -/
def yyparse (text : FullDefinition) (env : Env) : Except Stop Env := do
  let p ← reduceStatements text.statements (Parser.start env)
  let p ← reduceSpecial text.special p
  pure p.env

end Katmai.SysConf
