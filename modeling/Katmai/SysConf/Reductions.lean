import Katmai.SysConf.Grammar

/-!
# The reductions of a configuration text

`Grammar` follows the derivation of a text. Here the same actions stand in one list, in the order in
which the parser reduces their productions, with what the parser gives them: the pointers that the
lexer left in `yylval`. A pointer may be `NULL`, and an action that hands one to a function of the C
library, or indexes it, faults (`deref`). `yyparse_eq_runReductions` says that the two views of a
text are the same run.

`lexer.l` stores a value for five kinds of tokens. A `Lexeme` is a text that the rule of a token
matches, and `Lexeme.yylval` is the pointer its action stores. An `AcceptedText` is a list of
reductions over lexemes that some derivation of the grammar reduces.
-/

set_option autoImplicit false
set_option relaxedAutoImplicit false

namespace Katmai.SysConf

/-! ### Reductions -/

/-- The tokens for which the lexer stores a value. -/
inductive ValueToken where
  | identifier
  | digit
  | qstring
  | sqCharacter
  | percent
  deriving DecidableEq

/-- `comma_list_data`, over any kind of token values. -/
inductive CommaList (α : ValueToken → Type) where
  | number (digits : List (α .digit))
  | string (qstrings : List (α .qstring))

/-- The productions with an action. A comma list is part of the statement it stands in. -/
inductive Reduction (α : ValueToken → Type) where
  | startSwStm (identifier : α .identifier)
  | endSwStm
  | defaultLabel
  | breakStm
  | caseLabel (digit : α .digit)
  | startIfStm (identifier : α .identifier)
  | stopIfStm
  | startElifStm (identifier : α .identifier)
  | startElseStm
  | stopElseStm
  | exitStatement
  | printStatement (qstring : α .qstring)
  | assignDigit (identifier : α .identifier) (value : α .digit)
  | assignQstring (identifier : α .identifier) (value : α .qstring)
  | assignFlagOn (identifier : α .identifier)
  | assignFlagOff (identifier : α .identifier)
  | assignList (identifier : α .identifier) (commaListData : CommaList α)
  | tagDefinition (sqCharacter : α .sqCharacter) (flag : ℤ) (percent : α .percent)
  | normalTag (sqCharacter : α .sqCharacter)

/-- A comma list with its token values replaced. -/
def CommaList.map {α β : ValueToken → Type} (f : ∀ token, α token → β token) :
    CommaList α → CommaList β
  | .number digits => .number (digits.map (f .digit))
  | .string qstrings => .string (qstrings.map (f .qstring))

/-- A reduction with its token values replaced. -/
def Reduction.map {α β : ValueToken → Type} (f : ∀ token, α token → β token) :
    Reduction α → Reduction β
  | .startSwStm identifier => .startSwStm (f _ identifier)
  | .endSwStm => .endSwStm
  | .defaultLabel => .defaultLabel
  | .breakStm => .breakStm
  | .caseLabel digit => .caseLabel (f _ digit)
  | .startIfStm identifier => .startIfStm (f _ identifier)
  | .stopIfStm => .stopIfStm
  | .startElifStm identifier => .startElifStm (f _ identifier)
  | .startElseStm => .startElseStm
  | .stopElseStm => .stopElseStm
  | .exitStatement => .exitStatement
  | .printStatement qstring => .printStatement (f _ qstring)
  | .assignDigit identifier value => .assignDigit (f _ identifier) (f _ value)
  | .assignQstring identifier value => .assignQstring (f _ identifier) (f _ value)
  | .assignFlagOn identifier => .assignFlagOn (f _ identifier)
  | .assignFlagOff identifier => .assignFlagOff (f _ identifier)
  | .assignList identifier data => .assignList (f _ identifier) (data.map f)
  | .tagDefinition sqCharacter flag percent =>
    .tagDefinition (f _ sqCharacter) flag (f _ percent)
  | .normalTag sqCharacter => .normalTag (f _ sqCharacter)

/-- The values that the actions see: pointers, of which `NULL` is `none`. -/
abbrev Pointers : ValueToken → Type :=
  fun _ ↦ Option Str

/-! ### Their actions -/

/-- A pointer that is handed to `strlen`, `atoi`, `strncpy` or `strcasecmp`, or indexed. -/
def deref : Option Str → Except Stop Str
  | some text => .ok text
  | none => .error .fault

/-- The actions of a comma list: the rest of it is reduced before its first element is pushed. -/
def pushAll (entry : Option Str → Except Stop GenericStack) :
    List (Option Str) → Parser → Except Stop Parser
  | [], p => .ok p
  | first :: rest, p => do
    let p ← pushAll entry rest p
    if p.iftrue then do
      let value ← entry first
      pure (push p value)
    else pure p

/-- What `comma_list_number` pushes. -/
def numberEntry (digit : Option Str) : Except Stop GenericStack :=
  (deref digit).map fun text ↦ .intval (atoi text)

/-- What `comma_list_string` pushes: the pointer, whatever it is. -/
def stringEntry (qstring : Option Str) : Except Stop GenericStack :=
  .ok (.str qstring)

/-- `comma_list_data`. -/
def CommaList.act : CommaList Pointers → Parser → Except Stop Parser
  | .number digits, p => (pushAll numberEntry digits p).map fun p ↦ { p with intstk := true }
  | .string qstrings, p => (pushAll stringEntry qstrings p).map fun p ↦ { p with intstk := false }

/-- A call that writes the store under a key, if statements are executed at present. -/
def storeUnder (identifier : Option Str) (p : Parser) (f : Sysconf → Str → Except Stop Sysconf) :
    Except Stop Parser :=
  if p.iftrue then do
    let key ← deref identifier
    let conf ← f p.env.conf key
    pure { p with env := { p.env with conf := conf } }
  else .ok p

/-- The action of a production. -/
def Reduction.act : Reduction Pointers → Parser → Except Stop Parser
  | .startSwStm identifier, p => (deref identifier).map fun key ↦ SysConf.startSwStm key p
  | .endSwStm, p => .ok (SysConf.endSwStm p)
  | .defaultLabel, p => .ok (SysConf.defaultLabel p)
  | .breakStm, p => .ok (SysConf.breakStm p)
  | .caseLabel digit, p => (deref digit).map fun text ↦ SysConf.caseLabel text p
  | .startIfStm identifier, p => (deref identifier).map fun key ↦ SysConf.startIfStm key p
  | .stopIfStm, p => .ok (SysConf.stopIfStm p)
  | .startElifStm identifier, p =>
    -- the identifier is looked up only if no branch has been taken
    if p.ifevertrue then .ok { p with iftrue := false }
    else (deref identifier).map fun key ↦ SysConf.startElifStm key p
  | .startElseStm, p => .ok (SysConf.startElseStm p)
  | .stopElseStm, p => .ok (SysConf.stopElseStm p)
  | .exitStatement, p => SysConf.exitStatement p
  | .printStatement qstring, p => SysConf.printStatement p qstring
  | .assignDigit identifier value, p => storeUnder identifier p fun conf key ↦
    (deref value).map fun text ↦ addentryInteger conf key text
  | .assignQstring identifier value, p => storeUnder identifier p fun conf key ↦
    .ok (addentryString conf key value).2
  | .assignFlagOn identifier, p =>
    storeUnder identifier p fun conf key ↦ .ok (addentryFlagOn conf key)
  | .assignFlagOff identifier, p =>
    storeUnder identifier p fun conf key ↦ .ok (addentryFlagOff conf key)
  | .assignList identifier data, p => do
    let p ← data.act p
    if p.iftrue then do
      let key ← deref identifier
      storeList key p
    else pure { p with gstk := [] }
  | .tagDefinition sqCharacter flag percent, p => do
    let tag ← deref sqCharacter
    let per ← deref percent
    pure { p with env := addTagPercent p.env ⟨tag, flag, per⟩ }
  | .normalTag sqCharacter, p =>
    (deref sqCharacter).map fun tag ↦ { p with env := addTagPercent p.env ⟨tag, 3, ['0', '%']⟩ }

/-- The pointers that an action hands to `strlen`, `atoi`, `strncpy` or `strcasecmp`, or indexes. A
string is stored as it is, and `addentry_string` compares its value with `NULL` first. -/
def Reduction.passed (p : Parser) : Reduction Pointers → List (Option Str)
  | .startSwStm identifier => [identifier]
  | .caseLabel digit => [digit]
  | .startIfStm identifier => [identifier]
  | .startElifStm identifier => if p.ifevertrue then [] else [identifier]
  | .printStatement qstring => if p.iftrue then [qstring] else []
  | .assignDigit identifier value => if p.iftrue then [identifier, value] else []
  | .assignQstring identifier value =>
    if p.iftrue then identifier :: value.toList.map some else []
  | .assignFlagOn identifier => if p.iftrue then [identifier] else []
  | .assignFlagOff identifier => if p.iftrue then [identifier] else []
  | .assignList identifier (.number digits) =>
    if p.iftrue then digits.reverse ++ [identifier] else []
  | .assignList identifier (.string _) => if p.iftrue then [identifier] else []
  | .tagDefinition sqCharacter _ percent => [sqCharacter, percent]
  | .normalTag sqCharacter => [sqCharacter]
  | _ => []

/-- The actions of a list of reductions. -/
def runReductions (rs : List (Reduction Pointers)) (p : Parser) : Except Stop Parser :=
  rs.foldlM (fun p r ↦ r.act p) p

theorem runReductions_nil (p : Parser) : runReductions [] p = .ok p :=
  rfl

theorem runReductions_cons (r : Reduction Pointers) (rs : List (Reduction Pointers)) (p : Parser) :
    runReductions (r :: rs) p = r.act p >>= runReductions rs :=
  rfl

theorem runReductions_append (front back : List (Reduction Pointers)) (p : Parser) :
    runReductions (front ++ back) p = runReductions front p >>= runReductions back :=
  List.foldlM_append

/-! ### The reductions of a derivation -/

/-- The reduction of `variable_definition`. -/
def VariableDefinition.reduction : VariableDefinition → Reduction Pointers
  | .assign (.digit identifier value) => .assignDigit (some identifier) (some value)
  | .assign (.qstring identifier value) => .assignQstring (some identifier) value
  | .assign (.flagOn identifier) => .assignFlagOn (some identifier)
  | .assign (.flagOff identifier) => .assignFlagOff (some identifier)
  | .assign (.list identifier (.number digits)) =>
    .assignList (some identifier) (.number (digits.map some))
  | .assign (.list identifier (.string qstrings)) =>
    .assignList (some identifier) (.string qstrings)
  | .print qstring => .printStatement qstring
  | .exit => .exitStatement

/-- The reductions of `variable_definitions`. -/
def definitionReductions (defs : List VariableDefinition) : List (Reduction Pointers) :=
  defs.map VariableDefinition.reduction

/-- The reductions of `ifstm_definition`. -/
def IfstmDefinition.reductions : IfstmDefinition → List (Reduction Pointers)
  | .ifElifElse c1 b1 c2 b2 b3 =>
    .startIfStm (some c1) :: (definitionReductions b1 ++
      .startElifStm (some c2) :: (definitionReductions b2 ++
        .startElseStm :: (definitionReductions b3 ++ [.stopElseStm])))
  | .ifElse c1 b1 b3 =>
    .startIfStm (some c1) :: (definitionReductions b1 ++
      .startElseStm :: (definitionReductions b3 ++ [.stopElseStm]))
  | .ifOnly c1 b1 => .startIfStm (some c1) :: (definitionReductions b1 ++ [.stopIfStm])

/-- The reductions of `case_labels`. -/
def labelReductions (caseLabels : List Str) : List (Reduction Pointers) :=
  caseLabels.map fun digit ↦ .caseLabel (some digit)

/-- The reductions of `case_statement`. -/
def CaseStatement.reductions (statement : CaseStatement) : List (Reduction Pointers) :=
  labelReductions statement.caseLabels ++ (definitionReductions statement.definitions ++
    if statement.hasBreak then [.breakStm] else [])

/-- The reductions of `case_def_statement`. -/
def CaseDefStatement.reductions (statement : CaseDefStatement) : List (Reduction Pointers) :=
  labelReductions statement.caseLabels ++
    .defaultLabel :: (definitionReductions statement.definitions ++ [.breakStm])

/-- The reductions of `switch_definition`. -/
def SwitchDefinition.reductions (d : SwitchDefinition) : List (Reduction Pointers) :=
  .startSwStm (some d.identifier) :: (d.caseStatements.flatMap CaseStatement.reductions ++
    (d.caseDefStatement.toList.flatMap CaseDefStatement.reductions ++ [.endSwStm]))

/-- The reductions of `statement_definition`. -/
def StatementDefinition.reductions : StatementDefinition → List (Reduction Pointers)
  | .definition d => [d.reduction]
  | .ifstm d => d.reductions
  | .switch d => d.reductions

/-- The reduction of `tag_definition`: the rule without a percentage has its own. -/
def TagDefinition.reduction (d : TagDefinition) : Reduction Pointers :=
  if d.flag = 3 ∧ d.percent = ['0', '%'] then .normalTag (some d.sqCharacter)
  else .tagDefinition (some d.sqCharacter) d.flag (some d.percent)

/-- The reductions of `system_definition`. -/
def specialReductions (special : Option (List TagDefinition × List VariableDefinition)) :
    List (Reduction Pointers) :=
  match special with
  | some (tags, defs) => tags.map TagDefinition.reduction ++ definitionReductions defs
  | none => []

/-- The reductions of `full_definition`. -/
def FullDefinition.reductions (text : FullDefinition) : List (Reduction Pointers) :=
  text.statements.flatMap StatementDefinition.reductions ++ specialReductions text.special

/-! ### The two views are the same run -/

theorem pushAll_eq {α : Type} {entry : Option Str → Except Stop GenericStack}
    {value : α → GenericStack} {pointer : α → Option Str}
    (hentry : ∀ a, entry (pointer a) = .ok (value a)) (list : List α) (p : Parser) :
    pushAll entry (list.map pointer) p = .ok (reduceCommaList value list p) := by
  induction list with
  | nil => rfl
  | cons first rest ih =>
    rw [List.map_cons, pushAll, ih, reduceCommaList]
    change (if (reduceCommaList value rest p).iftrue then _ else _) = _
    split_ifs
    · rw [hentry]
      rfl
    · rfl

theorem pushAll_numbers (digits : List Str) (p : Parser) :
    pushAll numberEntry (digits.map some) p =
      .ok (reduceCommaList (fun digit ↦ .intval (atoi digit)) digits p) :=
  pushAll_eq (fun _ ↦ rfl) digits p

theorem pushAll_strings (qstrings : List (Option Str)) (p : Parser) :
    pushAll stringEntry qstrings p = .ok (reduceCommaList .str qstrings p) := by
  have hpush : pushAll stringEntry (qstrings.map id) p = .ok (reduceCommaList .str qstrings p) :=
    pushAll_eq (fun _ ↦ rfl) qstrings p
  rwa [List.map_id] at hpush

/-- The action of a list, once its elements are on the stack. -/
theorem storeList_of_skipped (identifier : Str) {p : Parser} (hfalse : p.iftrue = false) :
    storeList identifier p = .ok { p with gstk := [] } := by
  simp [storeList, hfalse]
  rfl

/-- The action of a statement with a list. -/
theorem assignList_act_eq (identifier : Str) {data : CommaList Pointers} {p q : Parser}
    (hdata : data.act p = .ok q) :
    (Reduction.assignList (some identifier) data).act p = storeList identifier q := by
  rw [Reduction.act, hdata]
  change (if q.iftrue then storeList identifier q else .ok { q with gstk := [] }) = _
  split_ifs with htrue
  · rfl
  · exact (storeList_of_skipped identifier (by simpa using htrue)).symm

/-- A call that writes the store without a fault. -/
theorem storeUnder_eq (key : Str) (p : Parser) {f : Sysconf → Str → Except Stop Sysconf}
    {g : Sysconf → Sysconf} (hf : ∀ conf, f conf key = .ok (g conf)) :
    storeUnder (some key) p f = .ok (whenTrue p g) := by
  unfold storeUnder whenTrue
  split_ifs
  · rw [deref]
    change f p.env.conf key >>= _ = _
    rw [hf]
    rfl
  · rfl

/-- A simple statement. -/
theorem VariableDefinition.act_reduction (d : VariableDefinition) (p : Parser) :
    d.reduction.act p = d.reduce p := by
  cases d with
  | assign statement =>
    cases statement with
    | digit identifier value =>
      rw [VariableDefinition.reduction, Reduction.act, VariableDefinition.reduce,
        VariableStatement.reduce]
      exact storeUnder_eq identifier p fun _ ↦ rfl
    | qstring identifier value =>
      rw [VariableDefinition.reduction, Reduction.act, VariableDefinition.reduce,
        VariableStatement.reduce]
      exact storeUnder_eq identifier p fun _ ↦ rfl
    | flagOn identifier =>
      rw [VariableDefinition.reduction, Reduction.act, VariableDefinition.reduce,
        VariableStatement.reduce]
      exact storeUnder_eq identifier p fun _ ↦ rfl
    | flagOff identifier =>
      rw [VariableDefinition.reduction, Reduction.act, VariableDefinition.reduce,
        VariableStatement.reduce]
      exact storeUnder_eq identifier p fun _ ↦ rfl
    | list identifier data =>
      cases data with
      | number digits =>
        refine assignList_act_eq identifier ?_
        rw [CommaList.act, pushAll_numbers]
        rfl
      | string qstrings =>
        refine assignList_act_eq identifier ?_
        rw [CommaList.act, pushAll_strings]
        rfl
  | print qstring => rfl
  | exit => rfl

theorem runReductions_definitions (defs : List VariableDefinition) (p : Parser) :
    runReductions (definitionReductions defs) p = reduceDefinitions defs p := by
  rw [runReductions, definitionReductions, List.foldlM_map]
  simp only [VariableDefinition.act_reduction]
  rfl

/-- `start_elif_stm`. -/
theorem startElifStm_act_eq (identifier : Str) (p : Parser) :
    (Reduction.startElifStm (some identifier)).act p = .ok (startElifStm identifier p) := by
  rw [Reduction.act]
  cases htaken : p.ifevertrue <;> simp [startElifStm, htaken, deref, Except.map]

/-- `ifstm_definition`. -/
theorem IfstmDefinition.runReductions_eq (d : IfstmDefinition) (p : Parser) :
    runReductions d.reductions p = d.reduce p := by
  cases d with
  | ifElifElse c1 b1 c2 b2 b3 =>
    rw [IfstmDefinition.reductions, runReductions_cons]
    change runReductions _ (startIfStm c1 p) = _
    rw [runReductions_append, runReductions_definitions, IfstmDefinition.reduce]
    refine bind_congr fun p ↦ ?_
    rw [runReductions_cons, startElifStm_act_eq]
    change runReductions _ (startElifStm c2 p) = _
    rw [runReductions_append, runReductions_definitions]
    refine bind_congr fun p ↦ ?_
    rw [runReductions_cons]
    change runReductions _ (startElseStm p) = _
    rw [runReductions_append, runReductions_definitions]
    rfl
  | ifElse c1 b1 b3 =>
    rw [IfstmDefinition.reductions, runReductions_cons]
    change runReductions _ (startIfStm c1 p) = _
    rw [runReductions_append, runReductions_definitions, IfstmDefinition.reduce]
    refine bind_congr fun p ↦ ?_
    rw [runReductions_cons]
    change runReductions _ (startElseStm p) = _
    rw [runReductions_append, runReductions_definitions]
    rfl
  | ifOnly c1 b1 =>
    rw [IfstmDefinition.reductions, runReductions_cons]
    change runReductions _ (startIfStm c1 p) = _
    rw [runReductions_append, runReductions_definitions, IfstmDefinition.reduce]
    rfl

theorem runReductions_labels (caseLabels : List Str) (p : Parser) :
    runReductions (labelReductions caseLabels) p = .ok (reduceCaseLabels caseLabels p) := by
  induction caseLabels generalizing p with
  | nil => rfl
  | cons digit rest ih => exact ih _

/-- `case_statement`. -/
theorem CaseStatement.runReductions_eq (statement : CaseStatement) (p : Parser) :
    runReductions statement.reductions p = statement.reduce p := by
  rw [CaseStatement.reductions, runReductions_append, runReductions_labels]
  change runReductions _ (reduceCaseLabels statement.caseLabels p) = _
  rw [runReductions_append, runReductions_definitions, CaseStatement.reduce]
  refine bind_congr fun p ↦ ?_
  cases statement.hasBreak <;> rfl

/-- `case_def_statement`. -/
theorem CaseDefStatement.runReductions_eq (statement : CaseDefStatement) (p : Parser) :
    runReductions statement.reductions p = statement.reduce p := by
  rw [CaseDefStatement.reductions, runReductions_append, runReductions_labels]
  change runReductions _ (defaultLabel (reduceCaseLabels statement.caseLabels p)) = _
  rw [runReductions_append, runReductions_definitions, CaseDefStatement.reduce]
  rfl

/-- A list of parts, each of which has its reductions. -/
theorem runReductions_flatMap {α : Type} {reductions : α → List (Reduction Pointers)}
    {reduce : α → Parser → Except Stop Parser}
    (heq : ∀ a p, runReductions (reductions a) p = reduce a p) (parts : List α) (p : Parser) :
    runReductions (parts.flatMap reductions) p = parts.foldlM (fun p a ↦ reduce a p) p := by
  induction parts generalizing p with
  | nil => rfl
  | cons first rest ih =>
    rw [List.flatMap_cons, runReductions_append, heq, List.foldlM_cons]
    exact bind_congr ih

/-- `switch_definition`. -/
theorem SwitchDefinition.runReductions_eq (d : SwitchDefinition) (p : Parser) :
    runReductions d.reductions p = d.reduce p := by
  rw [SwitchDefinition.reductions, runReductions_cons]
  change runReductions _ (startSwStm d.identifier p) = _
  rw [runReductions_append, runReductions_flatMap CaseStatement.runReductions_eq,
    SwitchDefinition.reduce]
  refine bind_congr fun p ↦ ?_
  rw [runReductions_append, runReductions_flatMap CaseDefStatement.runReductions_eq]
  cases d.caseDefStatement with
  | none => rfl
  | some statement =>
    rw [Option.toList_some, List.foldlM_cons]
    simp only [List.foldlM_nil, bind_pure]
    rfl

/-- `statement_definition`. -/
theorem StatementDefinition.runReductions_eq (s : StatementDefinition) (p : Parser) :
    runReductions s.reductions p = s.reduce p := by
  cases s with
  | definition d =>
    rw [StatementDefinition.reductions, runReductions_cons, d.act_reduction]
    exact bind_pure (d.reduce p)
  | ifstm d => exact d.runReductions_eq p
  | switch d => exact d.runReductions_eq p

/-- `tag_definition`. -/
theorem TagDefinition.act_reduction (d : TagDefinition) (p : Parser) :
    d.reduction.act p = .ok (d.reduce p) := by
  unfold TagDefinition.reduction
  split_ifs with hnormal
  · obtain ⟨sqCharacter, flag, percent⟩ := d
    obtain ⟨rfl, rfl⟩ := hnormal
    rfl
  · rfl

theorem runReductions_tags (tags : List TagDefinition) (p : Parser) :
    runReductions (tags.map TagDefinition.reduction) p =
      .ok (tags.foldl (fun p tag ↦ tag.reduce p) p) := by
  induction tags generalizing p with
  | nil => rfl
  | cons tag rest ih =>
    rw [List.map_cons, runReductions_cons, tag.act_reduction]
    exact ih _

/-- `system_definition`. -/
theorem runReductions_special (special : Option (List TagDefinition × List VariableDefinition))
    (p : Parser) : runReductions (specialReductions special) p = reduceSpecial special p := by
  match special with
  | some (tags, defs) =>
    rw [specialReductions, runReductions_append, runReductions_tags]
    exact runReductions_definitions defs _
  | none => rfl

/-- The actions of an accepted text are those of its list of reductions. -/
theorem yyparse_eq_runReductions (text : FullDefinition) (env : Env) :
    yyparse text env = (runReductions text.reductions (Parser.start env)).map Parser.env := by
  rw [FullDefinition.reductions, runReductions_append,
    runReductions_flatMap StatementDefinition.runReductions_eq, yyparse]
  change reduceStatements text.statements (Parser.start env) >>= _ =
    (reduceStatements text.statements (Parser.start env) >>= _).map Parser.env
  cases reduceStatements text.statements (Parser.start env) with
  | error stop => rfl
  | ok p =>
    change reduceSpecial text.special p >>= _ = (runReductions _ p).map Parser.env
    rw [runReductions_special]
    cases reduceSpecial text.special p <;> rfl

/-! ### The stack between statements -/

section Stack

variable {p q : Parser}

/-- What an action that returns has returned on the way. -/
theorem bind_eq_ok {α β : Type} {x : Except Stop α} {f : α → Except Stop β} {b : β}
    (heq : x >>= f = .ok b) : ∃ a, x = .ok a ∧ f a = .ok b := by
  cases x with
  | error stop => cases heq
  | ok a => exact ⟨a, rfl, heq⟩

theorem map_eq_ok {α β : Type} {x : Except Stop α} {f : α → β} {b : β}
    (heq : x.map f = .ok b) : ∃ a, x = .ok a ∧ f a = b := by
  cases x with
  | error stop => cases heq
  | ok a => exact ⟨a, rfl, Except.ok.inj heq⟩

/-- The action of a list assignment leaves an empty stack. -/
theorem gstk_storeList {identifier : Str} (hstore : storeList identifier p = .ok q) :
    q.gstk = [] := by
  unfold storeList at hstore
  dsimp only at hstore
  split_ifs at hstore
  · obtain ⟨list, -, hstore⟩ := bind_eq_ok hstore
    rw [← Except.ok.inj hstore]
  · obtain ⟨list, -, hstore⟩ := bind_eq_ok hstore
    rw [← Except.ok.inj hstore]
  · rw [← Except.ok.inj hstore]

theorem gstk_storeUnder {identifier : Option Str} {f : Sysconf → Str → Except Stop Sysconf}
    (hstore : storeUnder identifier p f = .ok q) : q.gstk = p.gstk := by
  unfold storeUnder at hstore
  split_ifs at hstore
  · obtain ⟨key, -, hstore⟩ := bind_eq_ok hstore
    obtain ⟨conf, -, hpure⟩ := bind_eq_ok hstore
    rw [← Except.ok.inj hpure]
  · rw [← Except.ok.inj hstore]

/-- Between statements the stack is empty. -/
theorem gstk_act {r : Reduction Pointers} (hgstk : p.gstk = []) (hact : r.act p = .ok q) :
    q.gstk = [] := by
  rw [← hgstk]
  cases r with
  | startSwStm identifier =>
    obtain ⟨key, -, rfl⟩ := map_eq_ok hact
    rfl
  | endSwStm => rw [← Except.ok.inj hact]; rfl
  | defaultLabel =>
    rw [← Except.ok.inj hact, defaultLabel]
    split_ifs <;> rfl
  | breakStm => rw [← Except.ok.inj hact]; rfl
  | caseLabel digit =>
    obtain ⟨text, -, rfl⟩ := map_eq_ok hact
    unfold caseLabel
    split_ifs <;> rfl
  | startIfStm identifier =>
    obtain ⟨key, -, rfl⟩ := map_eq_ok hact
    rfl
  | stopIfStm => rw [← Except.ok.inj hact]; rfl
  | startElifStm identifier =>
    rw [Reduction.act] at hact
    split_ifs at hact
    · rw [← Except.ok.inj hact]
    · obtain ⟨key, -, rfl⟩ := map_eq_ok hact
      unfold startElifStm
      split_ifs <;> rfl
  | startElseStm => rw [← Except.ok.inj hact]; rfl
  | stopElseStm => rw [← Except.ok.inj hact]; rfl
  | exitStatement =>
    rw [Reduction.act, exitStatement] at hact
    split_ifs at hact
    rw [← Except.ok.inj hact]
  | printStatement qstring =>
    rw [Reduction.act] at hact
    unfold printStatement at hact
    split_ifs at hact
    · cases qstring with
      | none => cases hact
      | some text => rw [← Except.ok.inj hact]
    · rw [← Except.ok.inj hact]
  | assignDigit identifier value =>
    rw [Reduction.act] at hact
    exact gstk_storeUnder hact
  | assignQstring identifier value =>
    rw [Reduction.act] at hact
    exact gstk_storeUnder hact
  | assignFlagOn identifier =>
    rw [Reduction.act] at hact
    exact gstk_storeUnder hact
  | assignFlagOff identifier =>
    rw [Reduction.act] at hact
    exact gstk_storeUnder hact
  | assignList identifier data =>
    obtain ⟨p', -, hact⟩ := bind_eq_ok hact
    rw [hgstk]
    split_ifs at hact
    · obtain ⟨key, -, hact⟩ := bind_eq_ok hact
      exact gstk_storeList hact
    · rw [← Except.ok.inj hact]
  | tagDefinition sqCharacter flag percent =>
    obtain ⟨tag, -, hact⟩ := bind_eq_ok hact
    obtain ⟨per, -, hact⟩ := bind_eq_ok hact
    rw [← Except.ok.inj hact]
  | normalTag sqCharacter =>
    obtain ⟨tag, -, rfl⟩ := map_eq_ok hact
    rfl

theorem gstk_runReductions {rs : List (Reduction Pointers)} (hgstk : p.gstk = [])
    (hrun : runReductions rs p = .ok q) : q.gstk = [] := by
  induction rs generalizing p with
  | nil => rwa [← Except.ok.inj hrun]
  | cons r rest ih =>
    rw [runReductions_cons] at hrun
    obtain ⟨p', hact, hrest⟩ := bind_eq_ok hrun
    exact ih (gstk_act hgstk hact) hrest

end Stack

/-- A run faults exactly if the action of a production that the parser comes to does. -/
theorem runReductions_eq_fault_iff (rs : List (Reduction Pointers)) (p : Parser) :
    runReductions rs p = .error .fault ↔
      ∃ front r back q, rs = front ++ r :: back ∧ runReductions front p = .ok q ∧
        r.act q = .error .fault := by
  induction rs generalizing p with
  | nil => simp [runReductions_nil]
  | cons first rest ih =>
    rw [runReductions_cons]
    constructor
    · intro hfault
      cases hact : first.act p with
      | error stop =>
        rw [hact] at hfault
        exact ⟨[], first, rest, p, rfl, rfl, by rw [hact]; exact hfault⟩
      | ok p' =>
        rw [hact] at hfault
        obtain ⟨front, r, back, q, rfl, hrun, hr⟩ := (ih p').mp hfault
        refine ⟨first :: front, r, back, q, rfl, ?_, hr⟩
        rw [runReductions_cons, hact]
        exact hrun
    · rintro ⟨front, r, back, q, happend, hrun, hr⟩
      cases front with
      | nil =>
        rw [List.nil_append, List.cons.injEq] at happend
        rw [happend.1, Except.ok.inj hrun, hr]
        rfl
      | cons head front =>
        rw [List.cons_append, List.cons.injEq] at happend
        obtain ⟨rfl, rfl⟩ := happend
        rw [runReductions_cons] at hrun
        obtain ⟨p', hact, hrun⟩ := bind_eq_ok hrun
        rw [hact]
        exact (ih p').mpr ⟨front, r, back, q, rfl, hrun, hr⟩

/-! ### Lexemes -/

/-- The words that the lexer returns as tokens of their own. -/
def reservedWords : List Str :=
  ["if".toList, "else".toList, "else-if".toList, "on".toList, "off".toList,
    "special-student-rules".toList, "increase".toList, "lower".toList, "normal".toList,
    "switch".toList, "case".toList, "break".toList, "default".toList, "print".toList,
    "exit".toList]

/-- The texts that the rule of a token matches. In the class of characters between single quotes,
the range starts at `\a`. -/
def ValueToken.Matches : ValueToken → Str → Prop
  | .identifier, yytext => ∃ first rest, yytext = first :: rest ∧ (first = '_' ∨ first.isAlpha) ∧
    (∀ c ∈ rest, c = '-' ∨ c = '_' ∨ c.isAlphanum) ∧ yytext ∉ reservedWords
  | .digit, yytext => yytext ≠ [] ∧ ∀ c ∈ yytext, c.isDigit
  | .qstring, yytext =>
    ∃ body, yytext = '"' :: (body ++ ['"']) ∧ ∀ c ∈ body, c ≠ '"' ∧ c ≠ '\n'
  | .sqCharacter, yytext =>
    ∃ c : Char, yytext = ['\'', c, '\''] ∧ 7 ≤ c.toNat ∧ c.toNat ≤ 'z'.toNat
  | .percent, yytext => ∃ digits, yytext = digits ++ ['%'] ∧ 1 ≤ digits.length ∧
    digits.length ≤ 3 ∧ ∀ c ∈ digits, c.isDigit

/-- A text that the rule of a token matches. -/
structure Lexeme (token : ValueToken) where
  yytext : Str
  accepted : token.Matches yytext

/-- `strlen`. -/
def strlen (s : Str) : ℕ :=
  (s.takeWhile (· ≠ '\x00')).length

/-- What the rule of a quoted string stores: `NULL` for a string of length two, and else what is
between the quotes. With a zero byte behind the first quote the copy has no bound; the pointer is
not `NULL` then. -/
def qstringValue (yytext : Str) : Option Str :=
  if strlen yytext = 2 then none else some ((yytext.drop 1).take (strlen yytext - 2))

/-- `yylval`, as the rule of the token leaves it. -/
def Lexeme.yylval {token : ValueToken} (lexeme : Lexeme token) : Option Str :=
  if token = .qstring then qstringValue lexeme.yytext else some lexeme.yytext

/-- A text that the grammar accepts: its reductions, with the lexemes of their tokens, are those of
a derivation. -/
structure AcceptedText where
  reductions : List (Reduction Lexeme)
  derivation : ∃ text : FullDefinition,
    reductions.map (Reduction.map fun _ ↦ Lexeme.yylval) = text.reductions

/-- Lexemes as the actions see them. -/
def values (rs : List (Reduction Lexeme)) : List (Reduction Pointers) :=
  rs.map (Reduction.map fun _ ↦ Lexeme.yylval)

end Katmai.SysConf
