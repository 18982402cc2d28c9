import Katmai.SysConf.Branches
import Katmai.SysConf.Reductions

/-!
# Which token values are `NULL`

The lexer leaves a text of its own in `yylval` for every token with a value, except for a quoted
string of length two, for which it leaves `NULL` (`yylval_eq_none_iff`). The grammar lets a quoted
string stand in three places. An assignment and a list store the pointer, and what they call
compares it with `NULL` first; `print` hands it to `strlen`. So a `NULL` pointer is used exactly
when a `print` of the empty string is executed (`passed_nonNull_iff`).

`Reduction.passed` is tied to the actions by `act_eq_fault_iff`: between statements, an action
faults exactly if one of the pointers it passes on is `NULL`.
-/

set_option autoImplicit false
set_option relaxedAutoImplicit false

namespace Katmai.SysConf

/-! ### The pointers an action passes on -/

variable {p : Parser}

/-- The elements of a comma list of numbers of a skipped statement are not looked at. -/
theorem pushAll_of_skipped (entry : Option Str → Except Stop GenericStack)
    (list : List (Option Str)) (hfalse : p.iftrue = false) : pushAll entry list p = .ok p := by
  induction list with
  | nil => rfl
  | cons first rest ih =>
    rw [pushAll, ih]
    change (if p.iftrue then _ else _) = _
    rw [hfalse]
    rfl

/-- Pointers of which none is `NULL` are texts. -/
theorem exists_map_some {list : List (Option Str)} (hnone : none ∉ list) :
    ∃ texts : List Str, list = texts.map some := by
  induction list with
  | nil => exact ⟨[], rfl⟩
  | cons first rest ih =>
    rw [List.mem_cons, not_or] at hnone
    obtain ⟨texts, rfl⟩ := ih hnone.2
    obtain ⟨text, rfl⟩ := Option.ne_none_iff_exists'.mp (Ne.symm hnone.1)
    exact ⟨text :: texts, rfl⟩

/-- In a statement that is executed, a list with a `NULL` among its numbers faults. -/
theorem pushAll_numberEntry_fault {digits : List (Option Str)} (htrue : p.iftrue = true)
    (hgstk : p.gstk = []) (hnone : none ∈ digits) :
    pushAll numberEntry digits p = .error .fault := by
  induction digits with
  | nil => exact absurd hnone List.not_mem_nil
  | cons first rest ih =>
    rw [pushAll]
    by_cases hrest : none ∈ rest
    · rw [ih hrest]
      rfl
    · obtain ⟨texts, rfl⟩ := exists_map_some hrest
      have hfirst : first = none := ((List.mem_cons.mp hnone).resolve_right hrest).symm
      rw [hfirst, pushAll_numbers, reduceCommaList_eq _ texts htrue hgstk]
      change (if p.iftrue then _ else _) = _
      rw [htrue]
      rfl

/-- An assignment of a list that is executed faults exactly if its key or one of its numbers is
`NULL`. -/
theorem assignList_act_eq_fault_iff (identifier : Option Str) (data : CommaList Pointers)
    (htrue : p.iftrue = true) (hgstk : p.gstk = []) :
    (Reduction.assignList identifier data).act p = .error .fault ↔
      none ∈ (Reduction.assignList identifier data).passed p := by
  have hstored (key : Str) (d : CommaListData) :
      (VariableDefinition.assign (.list key d)).reduce p ≠ .error .fault := by
    rw [VariableDefinition.reduce_of_true _ htrue hgstk, VariableDefinition.exec]
    simp [Except.map]
  cases data with
  | number digits =>
    simp only [Reduction.passed, htrue, if_true, List.mem_append, List.mem_reverse,
      List.mem_singleton]
    by_cases hnone : none ∈ digits
    · simp only [hnone, true_or, iff_true]
      rw [Reduction.act, CommaList.act, pushAll_numberEntry_fault htrue hgstk hnone]
      rfl
    · obtain ⟨texts, rfl⟩ := exists_map_some hnone
      cases identifier with
      | none =>
        simp only [or_true, iff_true]
        rw [Reduction.act, CommaList.act, pushAll_numbers, reduceCommaList_eq _ texts htrue hgstk]
        change (if p.iftrue then _ else _) = _
        rw [htrue]
        rfl
      | some key =>
        have hact := VariableDefinition.act_reduction (.assign (.list key (.number texts))) p
        rw [VariableDefinition.reduction] at hact
        rw [hact]
        simp [hstored key (.number texts)]
  | string qstrings =>
    simp only [Reduction.passed, htrue, if_true, List.mem_singleton]
    cases identifier with
    | none =>
      simp only [iff_true]
      rw [Reduction.act, CommaList.act, pushAll_strings,
        reduceCommaList_eq _ qstrings htrue hgstk]
      change (if p.iftrue then _ else _) = _
      rw [htrue]
      rfl
    | some key =>
      have hact := VariableDefinition.act_reduction (.assign (.list key (.string qstrings))) p
      rw [VariableDefinition.reduction] at hact
      rw [hact]
      simp [hstored key (.string qstrings)]

/-- Between statements, an action faults exactly if one of the pointers it passes on is `NULL`. -/
theorem act_eq_fault_iff (r : Reduction Pointers) (hgstk : p.gstk = []) :
    r.act p = .error .fault ↔ none ∈ r.passed p := by
  cases r with
  | startSwStm identifier =>
    cases identifier <;> simp [Reduction.act, Reduction.passed, deref, Except.map]
  | endSwStm => simp [Reduction.act, Reduction.passed]
  | defaultLabel => simp [Reduction.act, Reduction.passed]
  | breakStm => simp [Reduction.act, Reduction.passed]
  | caseLabel digit => cases digit <;> simp [Reduction.act, Reduction.passed, deref, Except.map]
  | startIfStm identifier =>
    cases identifier <;> simp [Reduction.act, Reduction.passed, deref, Except.map]
  | stopIfStm => simp [Reduction.act, Reduction.passed]
  | startElifStm identifier =>
    cases identifier <;> cases htaken : p.ifevertrue <;>
      simp [Reduction.act, Reduction.passed, deref, Except.map, htaken]
  | startElseStm => simp [Reduction.act, Reduction.passed]
  | stopElseStm => simp [Reduction.act, Reduction.passed]
  | exitStatement =>
    cases htrue : p.iftrue <;> simp [Reduction.act, Reduction.passed, exitStatement, htrue]
  | printStatement qstring =>
    cases qstring <;> cases htrue : p.iftrue <;>
      simp [Reduction.act, Reduction.passed, printStatement, htrue]
  | assignDigit identifier value =>
    cases identifier <;> cases value <;> cases htrue : p.iftrue <;>
      simp [Reduction.act, Reduction.passed, storeUnder, deref, Except.map, bind, Except.bind, pure,
        Except.pure, htrue]
  | assignQstring identifier value =>
    cases identifier <;> cases value <;> cases htrue : p.iftrue <;>
      simp [Reduction.act, Reduction.passed, storeUnder, deref, bind, Except.bind, pure,
        Except.pure, htrue]
  | assignFlagOn identifier =>
    cases identifier <;> cases htrue : p.iftrue <;>
      simp [Reduction.act, Reduction.passed, storeUnder, deref, bind, Except.bind, pure,
        Except.pure, htrue]
  | assignFlagOff identifier =>
    cases identifier <;> cases htrue : p.iftrue <;>
      simp [Reduction.act, Reduction.passed, storeUnder, deref, bind, Except.bind, pure,
        Except.pure, htrue]
  | assignList identifier data =>
    cases htrue : p.iftrue with
    | true => exact assignList_act_eq_fault_iff identifier data htrue hgstk
    | false =>
      cases data <;>
        simp [Reduction.act, Reduction.passed, CommaList.act, pushAll_of_skipped _ _ htrue,
          Except.map, bind, Except.bind, pure, Except.pure, htrue]
  | tagDefinition sqCharacter flag percent =>
    cases sqCharacter <;> cases percent <;>
      simp [Reduction.act, Reduction.passed, deref, bind, Except.bind, pure, Except.pure]
  | normalTag sqCharacter =>
    cases sqCharacter <;> simp [Reduction.act, Reduction.passed, deref, Except.map]

/-! ### The values of lexemes -/

/-- The lexer leaves `NULL` for quoted strings of length two, and for no other token. -/
theorem yylval_eq_none_iff {token : ValueToken} (lexeme : Lexeme token) :
    lexeme.yylval = none ↔ token = .qstring ∧ strlen lexeme.yytext = 2 := by
  unfold Lexeme.yylval qstringValue
  by_cases hqstring : token = .qstring
  · simp [hqstring]
  · simp [hqstring]

/-- A token that is not a quoted string has a value. -/
theorem yylval_ne_none {token : ValueToken} (hother : token ≠ .qstring) (lexeme : Lexeme token) :
    none ≠ lexeme.yylval := by
  intro hnone
  exact hother ((yylval_eq_none_iff lexeme).mp hnone.symm).1

/-- A `print` that is executed, of a string for which the lexer has left `NULL`. -/
def PrintsEmpty (p : Parser) : Reduction Lexeme → Prop
  | .printStatement qstring => p.iftrue = true ∧ strlen qstring.yytext = 2
  | _ => False

/-- Whatever the lexemes of a production are, its action passes `NULL` on exactly if it is such a
`print`. -/
theorem none_mem_passed_iff (p : Parser) (r : Reduction Lexeme) :
    none ∈ (r.map fun _ ↦ Lexeme.yylval).passed p ↔ PrintsEmpty p r := by
  have hidentifier (lexeme : Lexeme .identifier) : none ≠ lexeme.yylval :=
    yylval_ne_none (by decide) lexeme
  have hdigit (lexeme : Lexeme .digit) : none ≠ lexeme.yylval :=
    yylval_ne_none (by decide) lexeme
  cases r with
  | startSwStm identifier => simp [Reduction.map, Reduction.passed, PrintsEmpty, hidentifier]
  | endSwStm => simp [Reduction.map, Reduction.passed, PrintsEmpty]
  | defaultLabel => simp [Reduction.map, Reduction.passed, PrintsEmpty]
  | breakStm => simp [Reduction.map, Reduction.passed, PrintsEmpty]
  | caseLabel digit => simp [Reduction.map, Reduction.passed, PrintsEmpty, hdigit]
  | startIfStm identifier => simp [Reduction.map, Reduction.passed, PrintsEmpty, hidentifier]
  | stopIfStm => simp [Reduction.map, Reduction.passed, PrintsEmpty]
  | startElifStm identifier =>
    cases htaken : p.ifevertrue <;>
      simp [Reduction.map, Reduction.passed, PrintsEmpty, hidentifier, htaken]
  | startElseStm => simp [Reduction.map, Reduction.passed, PrintsEmpty]
  | stopElseStm => simp [Reduction.map, Reduction.passed, PrintsEmpty]
  | exitStatement => simp [Reduction.map, Reduction.passed, PrintsEmpty]
  | printStatement qstring =>
    have hempty : none = qstring.yylval ↔ strlen qstring.yytext = 2 := by
      rw [eq_comm, yylval_eq_none_iff]
      exact and_iff_right rfl
    cases htrue : p.iftrue <;>
      simp [Reduction.map, Reduction.passed, PrintsEmpty, hempty, htrue]
  | assignDigit identifier value =>
    cases htrue : p.iftrue <;>
      simp [Reduction.map, Reduction.passed, PrintsEmpty, hidentifier, hdigit, htrue]
  | assignQstring identifier value =>
    cases htrue : p.iftrue <;>
      simp [Reduction.map, Reduction.passed, PrintsEmpty, hidentifier, htrue]
  | assignFlagOn identifier =>
    cases htrue : p.iftrue <;>
      simp [Reduction.map, Reduction.passed, PrintsEmpty, hidentifier, htrue]
  | assignFlagOff identifier =>
    cases htrue : p.iftrue <;>
      simp [Reduction.map, Reduction.passed, PrintsEmpty, hidentifier, htrue]
  | assignList identifier data =>
    have hnumbers (digits : List (Lexeme .digit)) : none ∉ digits.map Lexeme.yylval := by
      intro hmem
      obtain ⟨lexeme, -, hnone⟩ := List.mem_map.mp hmem
      exact hdigit lexeme hnone.symm
    cases data <;> cases htrue : p.iftrue <;>
      simp [Reduction.map, CommaList.map, Reduction.passed, PrintsEmpty, hidentifier, hnumbers,
        htrue]
  | tagDefinition sqCharacter flag percent =>
    have hsqCharacter : none ≠ sqCharacter.yylval := yylval_ne_none (by decide) sqCharacter
    have hpercent : none ≠ percent.yylval := yylval_ne_none (by decide) percent
    simp [Reduction.map, Reduction.passed, PrintsEmpty, hsqCharacter, hpercent]
  | normalTag sqCharacter =>
    have hsqCharacter : none ≠ sqCharacter.yylval := yylval_ne_none (by decide) sqCharacter
    simp [Reduction.map, Reduction.passed, PrintsEmpty, hsqCharacter]

/-! ### Whole texts -/

/-- The parser comes to a reduction of a text in the state `p`, its actions having worked on `env`
from the start. -/
def Reaches (text : AcceptedText) (env : Env) (p : Parser) (r : Reduction Lexeme) : Prop :=
  ∃ front back, text.reductions = front ++ r :: back ∧
    runReductions (values front) (Parser.start env) = .ok p

/-- From every store, the actions of an accepted text run into a `NULL` pointer exactly if a `print`
of an empty string is executed. -/
theorem runReductions_values_eq_fault_iff (text : AcceptedText) (env : Env) :
    runReductions (values text.reductions) (Parser.start env) = .error .fault ↔
      ∃ p r, Reaches text env p r ∧ PrintsEmpty p r := by
  rw [runReductions_eq_fault_iff]
  constructor
  · rintro ⟨front, r, back, p, happend, hrun, hact⟩
    obtain ⟨front, rest, hreductions, rfl, hrest⟩ := List.map_eq_append_iff.mp happend
    obtain ⟨r, back, rfl, rfl, rfl⟩ := List.map_eq_cons_iff.mp hrest
    rw [act_eq_fault_iff _ (gstk_runReductions rfl hrun), none_mem_passed_iff] at hact
    exact ⟨p, r, ⟨front, back, hreductions, hrun⟩, hact⟩
  · rintro ⟨p, r, ⟨front, back, hreductions, hrun⟩, hprints⟩
    refine ⟨values front, r.map fun _ ↦ Lexeme.yylval, values back, p, ?_, hrun, ?_⟩
    · rw [hreductions, values, List.map_append, List.map_cons]
      rfl
    · rwa [act_eq_fault_iff _ (gstk_runReductions rfl hrun), none_mem_passed_iff]

/-- `print "";`. -/
def printEmpty : AcceptedText where
  reductions := [.printStatement ⟨['"', '"'], [], rfl, by simp⟩]
  derivation := ⟨⟨[.definition (.print none)], none⟩, rfl⟩

end Katmai.SysConf
