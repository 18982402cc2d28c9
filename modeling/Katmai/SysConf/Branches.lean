import Katmai.SysConf.Grammar

/-!
# What `if` and `switch` mean in a configuration text

`exec` is the meaning of a statement in the usual terms, without flags: a store is written, a text
printed, one branch of an `if` executed, the statements of a `switch` that its value selects. The
flags of the parser realise it. While a body is reduced they do not change, and its statements are
all executed or all skipped (`reduceDefinitions_eq`). Between statements `iftrue` is set and the
stack is empty (`AtStatement`), and from such a state every statement does what `exec` says and
leads to such a state again (`StatementDefinition.reduce_eq`).

For whole texts it follows that an `if` executes exactly one of its branches
(`ifstm_executes_one_branch`) and that a `switch` with pairwise different labels executes what the C
statement executes (`switch_has_c_semantics`), the statements behind them being executed in both
cases.
-/

set_option autoImplicit false
set_option relaxedAutoImplicit false

namespace Katmai.SysConf

open Foundation

/-! ### The meaning of statements -/

/-- A comma list as it is stored: its last 64 elements. -/
def kept {α : Type} (list : List α) : List α :=
  list.drop (list.length - maxIntStkLen)

/-- The meaning of an assignment. -/
def VariableStatement.exec (conf : Sysconf) : VariableStatement → Sysconf
  | .digit identifier value => addentryInteger conf identifier value
  | .qstring identifier value => (addentryString conf identifier value).2
  | .flagOn identifier => addentryFlagOn conf identifier
  | .flagOff identifier => addentryFlagOff conf identifier
  | .list identifier (.number digits) =>
    addentryIntlist conf identifier (some ((kept digits).map atoi)) (kept digits).length
  | .list identifier (.string texts) =>
    addentryStrlist conf identifier (some (kept texts)) (kept texts).length

/-- The meaning of a simple statement. -/
def VariableDefinition.exec : VariableDefinition → Env → Except Stop Env
  | .assign statement, env => .ok { env with conf := statement.exec env.conf }
  | .print none, _ => .error .fault
  | .print (some text), env => .ok { env with stderr := env.stderr ++ unescape false text }
  | .exit, env => .error (.exit env)

/-- Simple statements are executed one after another. -/
def execAll (defs : List VariableDefinition) (env : Env) : Except Stop Env :=
  defs.foldlM (fun env d ↦ d.exec env) env

/-- The meaning of an `if`: one branch. -/
def IfstmDefinition.exec : IfstmDefinition → Env → Except Stop Env
  | .ifElifElse c1 b1 c2 b2 b3, env =>
    if sysconfInt env.conf c1 > 0 then execAll b1 env
    else if sysconfInt env.conf c2 > 0 then execAll b2 env
    else execAll b3 env
  | .ifElse c1 b1 b3, env => if sysconfInt env.conf c1 > 0 then execAll b1 env else execAll b3 env
  | .ifOnly c1 b1, env => if sysconfInt env.conf c1 > 0 then execAll b1 env else .ok env

/-- The items of a case: its labels, its statements and its `break`. -/
def CaseStatement.items (statement : CaseStatement) : List (SwitchItem ℤ VariableDefinition) :=
  statement.caseLabels.map (fun digit ↦ .label (atoi digit)) ++ statement.definitions.map .stmt ++
    if statement.hasBreak then [.brk] else []

/-- The items of the last case, which has the `default` label. -/
def CaseDefStatement.items (statement : CaseDefStatement) :
    List (SwitchItem ℤ VariableDefinition) :=
  statement.caseLabels.map (fun digit ↦ .label (atoi digit)) ++
    .default :: (statement.definitions.map .stmt ++ [.brk])

/-- The body of a `switch`. -/
def SwitchDefinition.items (d : SwitchDefinition) : List (SwitchItem ℤ VariableDefinition) :=
  d.caseStatements.flatMap CaseStatement.items ++ (d.caseDefStatement.toList).flatMap
    CaseDefStatement.items

/-- What the two flags of a `switch` let through. -/
def SwitchDefinition.exec (d : SwitchDefinition) (env : Env) : Except Stop Env :=
  execAll (letThrough (sysconfInt env.conf d.identifier) false false d.items) env

/-- The meaning of a statement. -/
def StatementDefinition.exec : StatementDefinition → Env → Except Stop Env
  | .definition d, env => d.exec env
  | .ifstm d, env => d.exec env
  | .switch d, env => d.exec env

/-! ### Simple statements -/

section Simple

variable {p : Parser}

/-- A comma list of a statement that is executed is on the stack, its first kept element on top. -/
theorem reduceCommaList_eq {α : Type} (entry : α → GenericStack) (list : List α)
    (htrue : p.iftrue = true) (hgstk : p.gstk = []) :
    reduceCommaList entry list p = { p with gstk := (kept list).map entry } := by
  induction list with
  | nil =>
    have hsame : { p with gstk := [] } = p := by rw [← hgstk]
    exact hsame.symm
  | cons first rest ih =>
    rw [reduceCommaList, ih]
    simp only [htrue, if_true, push, List.length_map]
    unfold kept maxIntStkLen
    by_cases hroom : rest.length < 64
    · have hrest : rest.length - 64 = 0 := by omega
      have hcons : rest.length + 1 - 64 = 0 := by omega
      simp [hrest, hcons, hroom]
    · have hfull : ¬ rest.length - (rest.length - 64) < 64 := by omega
      have hcons : rest.length + 1 - 64 = (rest.length - 64) + 1 := by omega
      simp [hfull, hcons]

/-- A comma list of a statement that is skipped leaves no trace. -/
theorem reduceCommaList_of_skipped {α : Type} (entry : α → GenericStack) (list : List α)
    (hfalse : p.iftrue = false) : reduceCommaList entry list p = p := by
  induction list with
  | nil => rfl
  | cons first rest ih => simp [reduceCommaList, ih, hfalse]

theorem mapM_popInt (values : List ℤ) :
    (values.map GenericStack.intval).mapM GenericStack.popInt = .ok values := by
  induction values with
  | nil => rfl
  | cons first rest ih =>
    rw [List.map_cons, List.mapM_cons, ih]
    rfl

theorem mapM_popStr (values : List (Option Str)) :
    (values.map GenericStack.str).mapM GenericStack.popStr = .ok values := by
  induction values with
  | nil => rfl
  | cons first rest ih =>
    rw [List.map_cons, List.mapM_cons, ih]
    rfl

/-- What is left of a simple statement in the parser besides its effect: which kind of comma list
was the last. -/
def intstkAfter (intstk : Bool) : VariableDefinition → Bool
  | .assign (.list _ (.number _)) => true
  | .assign (.list _ (.string _)) => false
  | _ => intstk

/-- A simple statement that is executed does what it means, and does not change the flags. -/
theorem VariableDefinition.reduce_of_true (d : VariableDefinition) (htrue : p.iftrue = true)
    (hgstk : p.gstk = []) :
    d.reduce p =
      (d.exec p.env).map fun env ↦ { p with env := env, intstk := intstkAfter p.intstk d } := by
  obtain ⟨iftrue, ifevertrue, intstk, swValue, swTf, gstk, env⟩ := p
  subst htrue hgstk
  cases d with
  | assign statement =>
    cases statement with
    | digit identifier value => rfl
    | qstring identifier value => rfl
    | flagOn identifier => rfl
    | flagOff identifier => rfl
    | list identifier data =>
      cases data with
      | number digits =>
        have hmap : (kept digits).map (fun digit ↦ GenericStack.intval (atoi digit)) =
            ((kept digits).map atoi).map .intval := by rw [List.map_map]; rfl
        rw [VariableDefinition.reduce, VariableStatement.reduce, CommaListData.reduce,
          reduceCommaListNumber, reduceCommaList_eq _ _ rfl rfl, storeList, hmap]
        simp only [mapM_popInt]
        simp [VariableDefinition.exec, VariableStatement.exec, Except.map, intstkAfter]
      | string texts =>
        rw [VariableDefinition.reduce, VariableStatement.reduce, CommaListData.reduce,
          reduceCommaListString, reduceCommaList_eq _ _ rfl rfl, storeList]
        simp only [mapM_popStr]
        simp [VariableDefinition.exec, VariableStatement.exec, Except.map, intstkAfter]
  | print qstring => cases qstring <;> rfl
  | exit => rfl

/-- A simple statement that is skipped does nothing, and does not change the flags. -/
theorem VariableDefinition.reduce_of_false (d : VariableDefinition) (hfalse : p.iftrue = false)
    (hgstk : p.gstk = []) : d.reduce p = .ok { p with intstk := intstkAfter p.intstk d } := by
  obtain ⟨iftrue, ifevertrue, intstk, swValue, swTf, gstk, env⟩ := p
  subst hfalse hgstk
  cases d with
  | assign statement =>
    cases statement with
    | digit identifier value => rfl
    | qstring identifier value => rfl
    | flagOn identifier => rfl
    | flagOff identifier => rfl
    | list identifier data =>
      cases data with
      | number digits =>
        rw [VariableDefinition.reduce, VariableStatement.reduce, CommaListData.reduce,
          reduceCommaListNumber, reduceCommaList_of_skipped _ _ rfl]
        rfl
      | string texts =>
        rw [VariableDefinition.reduce, VariableStatement.reduce, CommaListData.reduce,
          reduceCommaListString, reduceCommaList_of_skipped _ _ rfl]
        rfl
  | print qstring => rfl
  | exit => rfl

/-- The statements of a body that is executed are all executed. -/
theorem reduceDefinitions_of_true (defs : List VariableDefinition) (htrue : p.iftrue = true)
    (hgstk : p.gstk = []) :
    reduceDefinitions defs p = (execAll defs p.env).map fun env ↦
      { p with env := env, intstk := defs.foldl intstkAfter p.intstk } := by
  induction defs generalizing p with
  | nil => rfl
  | cons d rest ih =>
    rw [reduceDefinitions, List.foldlM_cons, d.reduce_of_true htrue hgstk, execAll,
      List.foldlM_cons]
    cases d.exec p.env with
    | error stop => rfl
    | ok env => exact ih htrue hgstk

/-- The statements of a body that is skipped are all skipped. -/
theorem reduceDefinitions_of_false (defs : List VariableDefinition) (hfalse : p.iftrue = false)
    (hgstk : p.gstk = []) :
    reduceDefinitions defs p = .ok { p with intstk := defs.foldl intstkAfter p.intstk } := by
  induction defs generalizing p with
  | nil => rfl
  | cons d rest ih =>
    rw [reduceDefinitions, List.foldlM_cons, d.reduce_of_false hfalse hgstk]
    exact ih hfalse hgstk

end Simple

/-! ### Statements with bodies -/

/-- Between statements: statements are executed, and no comma list is on the stack. -/
structure AtStatement (p : Parser) : Prop where
  iftrue_eq : p.iftrue = true
  gstk_eq : p.gstk = []

theorem atStatement_start (env : Env) : AtStatement (Parser.start env) :=
  ⟨rfl, rfl⟩

/-- From a state between statements, a reduction has an effect on what the parser works on, and
leads to a state between statements. -/
def Realises (reduce : Parser → Except Stop Parser) (exec : Env → Except Stop Env) : Prop :=
  ∀ p, AtStatement p →
    ∃ q : Parser, AtStatement q ∧ reduce p = (exec p.env).map fun env ↦ { q with env := env }

/-- `start_if_stm` on a condition that holds, and on one that does not. -/
theorem startIfStm_of_pos {c : Str} {p : Parser} (hc : sysconfInt p.env.conf c > 0) :
    startIfStm c p = { p with iftrue := true, ifevertrue := true } := by
  simp [startIfStm, hc]

theorem startIfStm_of_not_pos {c : Str} {p : Parser} (hc : ¬ sysconfInt p.env.conf c > 0) :
    startIfStm c p = { p with iftrue := false, ifevertrue := false } := by
  simp [startIfStm, hc]

/-- The first body of an `if`: it is executed or skipped, and the flags say so. -/
theorem reduce_firstBody (c : Str) (b : List VariableDefinition) {p : Parser}
    (hgstk : p.gstk = []) :
    reduceDefinitions b (startIfStm c p) =
      if sysconfInt p.env.conf c > 0 then
        (execAll b p.env).map fun env ↦ { p with
          iftrue := true, ifevertrue := true, intstk := b.foldl intstkAfter p.intstk, env := env }
      else .ok { p with
        iftrue := false, ifevertrue := false, intstk := b.foldl intstkAfter p.intstk } := by
  split_ifs with hc
  · rw [startIfStm_of_pos hc]
    exact reduceDefinitions_of_true (p := { p with iftrue := true, ifevertrue := true }) b rfl hgstk
  · rw [startIfStm_of_not_pos hc]
    exact reduceDefinitions_of_false (p := { p with iftrue := false, ifevertrue := false }) b rfl
      hgstk

/-- While no branch has been taken, `start_elif_stm` is `start_if_stm`. -/
theorem startElifStm_of_not_taken (c : Str) {p : Parser} (hnot : p.ifevertrue = false) :
    startElifStm c p = startIfStm c p := by
  simp [startElifStm, startIfStm, hnot]

/-- The last bodies of an `if`, with a branch taken already: they are skipped. -/
theorem reduce_else_of_taken (b3 : List VariableDefinition) {p : Parser}
    (htaken : p.ifevertrue = true) (hgstk : p.gstk = []) :
    (reduceDefinitions b3 (startElseStm p)).map stopElseStm = .ok { p with
      iftrue := true, ifevertrue := false, intstk := b3.foldl intstkAfter p.intstk } := by
  rw [reduceDefinitions_of_false (p := startElseStm p) b3 (by simp [startElseStm, htaken]) hgstk]
  rfl

/-- The last bodies of an `if`, with no branch taken yet: `else` is executed. -/
theorem reduce_else_of_not_taken (b3 : List VariableDefinition) {p : Parser}
    (hnot : p.ifevertrue = false) (hgstk : p.gstk = []) :
    (reduceDefinitions b3 (startElseStm p)).map stopElseStm =
      (execAll b3 p.env).map fun env ↦ { p with
        iftrue := true, ifevertrue := false, intstk := b3.foldl intstkAfter p.intstk,
        env := env } := by
  rw [reduceDefinitions_of_true (p := startElseStm p) b3 (by simp [startElseStm, hnot]) hgstk]
  change Except.map _ (Except.map _ (execAll b3 p.env)) = _
  cases execAll b3 p.env <;> rfl

/-- An `if` with an `else` executes one branch, whatever the flags were before. -/
theorem reduce_ifElse (c1 : Str) (b1 b3 : List VariableDefinition) {p : Parser}
    (hgstk : p.gstk = []) :
    (IfstmDefinition.ifElse c1 b1 b3).reduce p =
      ((IfstmDefinition.ifElse c1 b1 b3).exec p.env).map fun env ↦ { p with
        iftrue := true
        ifevertrue := false
        intstk := b3.foldl intstkAfter (b1.foldl intstkAfter p.intstk)
        env := env } := by
  have hunfold : (IfstmDefinition.ifElse c1 b1 b3).reduce p =
      reduceDefinitions b1 (startIfStm c1 p) >>= fun p ↦
        (reduceDefinitions b3 (startElseStm p)).map stopElseStm := rfl
  rw [hunfold, IfstmDefinition.exec, reduce_firstBody c1 b1 hgstk]
  split_ifs with hc1
  · cases execAll b1 p.env with
    | error stop => rfl
    | ok env => exact reduce_else_of_taken b3 rfl hgstk
  · exact reduce_else_of_not_taken b3 rfl hgstk

/-- An `if` executes one branch. With its first condition false, an `if` with an `else if` goes on
as an `if` on the second condition. -/
theorem IfstmDefinition.reduce_eq (d : IfstmDefinition) : Realises d.reduce d.exec := by
  intro p hp
  have hgstk := hp.gstk_eq
  cases d with
  | ifElifElse c1 b1 c2 b2 b3 =>
    refine ⟨{ p with
      iftrue := true
      ifevertrue := false
      intstk := b3.foldl intstkAfter (b2.foldl intstkAfter (b1.foldl intstkAfter p.intstk)) },
      ⟨rfl, hgstk⟩, ?_⟩
    have hunfold : (IfstmDefinition.ifElifElse c1 b1 c2 b2 b3).reduce p =
        reduceDefinitions b1 (startIfStm c1 p) >>= fun p ↦
          reduceDefinitions b2 (startElifStm c2 p) >>= fun p ↦
            (reduceDefinitions b3 (startElseStm p)).map stopElseStm := rfl
    rw [hunfold, IfstmDefinition.exec, reduce_firstBody c1 b1 hgstk]
    by_cases hc1 : sysconfInt p.env.conf c1 > 0
    · rw [if_pos hc1, if_pos hc1]
      cases execAll b1 p.env with
      | error stop => rfl
      | ok env =>
        have hskip := reduceDefinitions_of_false (p := startElifStm c2 { p with
          iftrue := true, ifevertrue := true, intstk := b1.foldl intstkAfter p.intstk, env := env })
          b2 rfl hgstk
        change reduceDefinitions b2 _ >>= _ = _
        rw [hskip]
        exact reduce_else_of_taken b3 rfl hgstk
    · rw [if_neg hc1, if_neg hc1]
      change reduceDefinitions b2 (startElifStm c2 _) >>= _ = _
      rw [startElifStm_of_not_taken c2 rfl]
      exact reduce_ifElse c2 b2 b3 hgstk
  | ifElse c1 b1 b3 => exact ⟨{ p with iftrue := true, ifevertrue := false, intstk := _ },
      ⟨rfl, hgstk⟩, reduce_ifElse c1 b1 b3 hgstk⟩
  | ifOnly c1 b1 =>
    refine ⟨{ p with
      iftrue := true
      ifevertrue := decide (sysconfInt p.env.conf c1 > 0)
      intstk := b1.foldl intstkAfter p.intstk }, ⟨rfl, hgstk⟩, ?_⟩
    have hunfold : (IfstmDefinition.ifOnly c1 b1).reduce p =
        (reduceDefinitions b1 (startIfStm c1 p)).map stopIfStm := rfl
    rw [hunfold, IfstmDefinition.exec, reduce_firstBody c1 b1 hgstk]
    split_ifs with hc1
    · rw [decide_eq_true hc1]
      cases execAll b1 p.env <;> rfl
    · rw [decide_eq_false hc1]
      rfl

/-! ### `switch` -/

/-- The action of an item of the body of a `switch`. -/
def reduceItem (p : Parser) : SwitchItem ℤ VariableDefinition → Except Stop Parser
  | .label w => .ok (if p.swValue = w then { p with iftrue := true, swTf := true } else p)
  | .default => .ok (defaultLabel p)
  | .stmt d => d.reduce p
  | .brk => .ok (breakStm p)

/-- The actions of items let through what the two flags let through. -/
theorem foldlM_reduceItem_eq (items : List (SwitchItem ℤ VariableDefinition)) {p : Parser}
    (hgstk : p.gstk = []) :
    ∃ on matched intstk, items.foldlM reduceItem p =
      (execAll (letThrough p.swValue p.iftrue p.swTf items) p.env).map fun env ↦ { p with
        iftrue := on, swTf := matched, intstk := intstk, env := env } := by
  induction items generalizing p with
  | nil => exact ⟨p.iftrue, p.swTf, p.intstk, rfl⟩
  | cons item rest ih =>
    cases item with
    | label w =>
      by_cases hw : p.swValue = w
      · obtain ⟨on, matched, intstk, hrest⟩ :=
          ih (p := { p with iftrue := true, swTf := true }) hgstk
        refine ⟨on, matched, intstk, ?_⟩
        rw [List.foldlM_cons, reduceItem, if_pos hw, letThrough, if_pos hw.symm]
        exact hrest
      · obtain ⟨on, matched, intstk, hrest⟩ := ih hgstk
        refine ⟨on, matched, intstk, ?_⟩
        rw [List.foldlM_cons, reduceItem, if_neg hw, letThrough, if_neg (Ne.symm hw)]
        exact hrest
    | default =>
      cases hmatched : p.swTf with
      | true =>
        obtain ⟨on, matched, intstk, hrest⟩ := ih hgstk
        refine ⟨on, matched, intstk, ?_⟩
        have hdefault : defaultLabel p = p := by simp [defaultLabel, hmatched]
        rw [List.foldlM_cons, reduceItem, hdefault, letThrough, Bool.not_true, Bool.or_false,
          ← hmatched]
        exact hrest
      | false =>
        obtain ⟨on, matched, intstk, hrest⟩ := ih (p := { p with iftrue := true }) hgstk
        refine ⟨on, matched, intstk, ?_⟩
        have hdefault : defaultLabel p = { p with iftrue := true } := by
          simp [defaultLabel, hmatched]
        rw [List.foldlM_cons, reduceItem, hdefault, letThrough, Bool.not_false, Bool.or_true,
          ← hmatched]
        exact hrest
    | stmt d =>
      cases htrue : p.iftrue with
      | true =>
        rw [List.foldlM_cons, reduceItem, d.reduce_of_true htrue hgstk, letThrough, if_pos rfl,
          List.singleton_append, execAll, List.foldlM_cons, ← htrue]
        cases d.exec p.env with
        | error stop => exact ⟨true, true, true, rfl⟩
        | ok env =>
          exact ih (p := { p with env := env, intstk := intstkAfter p.intstk d }) hgstk
      | false =>
        rw [List.foldlM_cons, reduceItem, d.reduce_of_false htrue hgstk, letThrough,
          if_neg Bool.false_ne_true, List.nil_append, ← htrue]
        exact ih (p := { p with intstk := intstkAfter p.intstk d }) hgstk
    | brk =>
      obtain ⟨on, matched, intstk, hrest⟩ := ih (p := { p with iftrue := false }) hgstk
      exact ⟨on, matched, intstk, hrest⟩

/-- The actions of labels, of statements and of a `break`, as actions of items. -/
theorem foldlM_reduceItem_labels (caseLabels : List Str) (p : Parser) :
    (caseLabels.map fun digit ↦ SwitchItem.label (atoi digit)).foldlM reduceItem p =
      .ok (reduceCaseLabels caseLabels p) := by
  induction caseLabels generalizing p with
  | nil => rfl
  | cons digit rest ih => exact ih _

theorem foldlM_reduceItem_stmts (defs : List VariableDefinition) (p : Parser) :
    (defs.map SwitchItem.stmt).foldlM reduceItem p = reduceDefinitions defs p := by
  rw [List.foldlM_map]
  rfl

theorem CaseStatement.reduce_eq_items (statement : CaseStatement) (p : Parser) :
    statement.reduce p = statement.items.foldlM reduceItem p := by
  rw [CaseStatement.items, List.foldlM_append, List.foldlM_append, foldlM_reduceItem_labels]
  change statement.reduce p =
    (statement.definitions.map SwitchItem.stmt).foldlM reduceItem _ >>= _
  rw [foldlM_reduceItem_stmts, CaseStatement.reduce]
  cases statement.hasBreak <;> rfl

theorem CaseDefStatement.reduce_eq_items (statement : CaseDefStatement) (p : Parser) :
    statement.reduce p = statement.items.foldlM reduceItem p := by
  rw [CaseDefStatement.items, List.foldlM_append, foldlM_reduceItem_labels]
  change statement.reduce p =
    (statement.definitions.map SwitchItem.stmt ++ [SwitchItem.brk]).foldlM reduceItem
      (defaultLabel _)
  rw [List.foldlM_append, foldlM_reduceItem_stmts]
  rfl

theorem foldlM_caseStatements (statements : List CaseStatement) (p : Parser) :
    statements.foldlM (fun p statement ↦ statement.reduce p) p =
      (statements.flatMap CaseStatement.items).foldlM reduceItem p := by
  induction statements generalizing p with
  | nil => rfl
  | cons statement rest ih =>
    rw [List.foldlM_cons, List.flatMap_cons, List.foldlM_append, statement.reduce_eq_items]
    exact bind_congr ih

/-- The actions of a `switch` are those of the items of its body, between the two actions that set
the flags. -/
theorem SwitchDefinition.reduce_eq_items (d : SwitchDefinition) (p : Parser) :
    d.reduce p = (d.items.foldlM reduceItem (startSwStm d.identifier p)).map endSwStm := by
  rw [SwitchDefinition.items, List.foldlM_append, SwitchDefinition.reduce, foldlM_caseStatements]
  cases (d.caseStatements.flatMap CaseStatement.items).foldlM reduceItem
      (startSwStm d.identifier p) with
  | error stop => rfl
  | ok q =>
    cases d.caseDefStatement with
    | none => rfl
    | some statement =>
      change (statement.reduce q).map endSwStm = _
      rw [statement.reduce_eq_items, Option.toList_some, List.flatMap_singleton]
      rfl

theorem map_map_except {ε α β γ : Type} (x : Except ε α) (f : α → β) (g : β → γ) :
    (x.map f).map g = x.map fun a ↦ g (f a) := by
  cases x <;> rfl

/-- A `switch` executes what its two flags let through. -/
theorem SwitchDefinition.reduce_eq (d : SwitchDefinition) : Realises d.reduce d.exec := by
  intro p hp
  obtain ⟨on, matched, intstk, hfold⟩ :=
    foldlM_reduceItem_eq (p := startSwStm d.identifier p) d.items hp.gstk_eq
  refine ⟨{ p with
    swValue := sysconfInt p.env.conf d.identifier
    iftrue := true
    swTf := matched
    intstk := intstk }, ⟨rfl, hp.gstk_eq⟩, ?_⟩
  rw [d.reduce_eq_items, hfold, map_map_except]
  rfl

/-! ### Whole texts -/

/-- Every statement does what it means. -/
theorem StatementDefinition.reduce_eq (s : StatementDefinition) : Realises s.reduce s.exec := by
  cases s with
  | definition d =>
    exact fun p hp ↦ ⟨{ p with intstk := intstkAfter p.intstk d }, ⟨hp.iftrue_eq, hp.gstk_eq⟩,
      d.reduce_of_true hp.iftrue_eq hp.gstk_eq⟩
  | ifstm d => exact d.reduce_eq
  | switch d => exact d.reduce_eq

/-- The meaning of the statements of a text, one after another. -/
def execStatements (statements : List StatementDefinition) (env : Env) : Except Stop Env :=
  statements.foldlM (fun env s ↦ s.exec env) env

theorem reduceStatements_eq (statements : List StatementDefinition) :
    Realises (reduceStatements statements) (execStatements statements) := by
  induction statements with
  | nil => exact fun p hp ↦ ⟨p, hp, rfl⟩
  | cons s rest ih =>
    intro p hp
    obtain ⟨q, hq, hs⟩ := s.reduce_eq p hp
    rw [reduceStatements, execStatements, List.foldlM_cons, List.foldlM_cons, hs]
    cases s.exec p.env with
    | error stop => exact ⟨q, hq, rfl⟩
    | ok env => exact ih { q with env := env } ⟨hq.iftrue_eq, hq.gstk_eq⟩

/-- What the tags mean, and the statements behind them. -/
def execSpecial (special : Option (List TagDefinition × List VariableDefinition)) (env : Env) :
    Except Stop Env :=
  match special with
  | some (tags, defs) => execAll defs (tags.foldl addTagPercent env)
  | none => .ok env

theorem foldl_tags (tags : List TagDefinition) (p : Parser) :
    tags.foldl (fun p tag ↦ tag.reduce p) p =
      { p with env := tags.foldl addTagPercent p.env } := by
  induction tags generalizing p with
  | nil => rfl
  | cons tag rest ih => exact ih _

theorem reduceSpecial_eq (special : Option (List TagDefinition × List VariableDefinition)) :
    Realises (reduceSpecial special) (execSpecial special) := by
  intro p hp
  match special with
  | some (tags, defs) =>
    rw [reduceSpecial, foldl_tags]
    exact ⟨{ p with intstk := defs.foldl intstkAfter p.intstk }, ⟨hp.iftrue_eq, hp.gstk_eq⟩,
      reduceDefinitions_of_true (p := { p with env := tags.foldl addTagPercent p.env }) defs
        hp.iftrue_eq hp.gstk_eq⟩
  | none => exact ⟨p, hp, rfl⟩

/-- An accepted text does what it means. -/
theorem yyparse_eq (text : FullDefinition) (env : Env) :
    yyparse text env = execStatements text.statements env >>= execSpecial text.special := by
  obtain ⟨q, hq, hstatements⟩ := reduceStatements_eq text.statements _ (atStatement_start env)
  rw [yyparse, hstatements]
  change _ = execStatements text.statements (Parser.start env).env >>= _
  cases execStatements text.statements (Parser.start env).env with
  | error stop => rfl
  | ok env' =>
    obtain ⟨q', hq', hspecial⟩ :=
      reduceSpecial_eq text.special { q with env := env' } ⟨hq.iftrue_eq, hq.gstk_eq⟩
    change (reduceSpecial text.special { q with env := env' } >>= fun p ↦ pure p.env) = _
    rw [hspecial]
    change _ = execSpecial text.special env'
    cases execSpecial text.special env' <;> rfl

/-- The meaning of a text, cut at one of its statements. -/
theorem yyparse_split (before after : List StatementDefinition) (s : StatementDefinition)
    (special : Option (List TagDefinition × List VariableDefinition)) (env : Env) :
    yyparse ⟨before ++ s :: after, special⟩ env =
      yyparse ⟨before, none⟩ env >>= fun env ↦ s.exec env >>= yyparse ⟨after, special⟩ := by
  have hafter (env : Env) : yyparse ⟨after, special⟩ env =
      execStatements after env >>= execSpecial special := yyparse_eq _ env
  have hbefore : yyparse ⟨before, none⟩ env = execStatements before env := by
    rw [yyparse_eq]
    change execStatements before env >>= (fun env ↦ Except.ok env) = _
    cases execStatements before env <;> rfl
  rw [yyparse_eq, hbefore, execStatements, List.foldlM_append, bind_assoc]
  refine bind_congr fun env' ↦ ?_
  rw [List.foldlM_cons, bind_assoc]
  exact bind_congr fun env'' ↦ (hafter env'').symm

/-- The labels of a `switch`, in the order of the text. -/
def SwitchDefinition.caseLabels (d : SwitchDefinition) : List Str :=
  d.caseStatements.flatMap CaseStatement.caseLabels ++
    d.caseDefStatement.toList.flatMap CaseDefStatement.caseLabels

theorem labels_items (d : SwitchDefinition) : labels d.items = d.caseLabels.map atoi := by
  have hcases (statements : List CaseStatement) : labels (statements.flatMap CaseStatement.items) =
      (statements.flatMap CaseStatement.caseLabels).map atoi := by
    induction statements with
    | nil => rfl
    | cons statement rest ih =>
      have hbreak : labels (if statement.hasBreak then [.brk] else [] :
          List (SwitchItem ℤ VariableDefinition)) = [] := by
        cases statement.hasBreak <;> rfl
      simp [ih, CaseStatement.items, hbreak]
  rw [SwitchDefinition.items, SwitchDefinition.caseLabels, labels_append, hcases, List.map_append]
  cases d.caseDefStatement with
  | none => rfl
  | some statement => simp [CaseDefStatement.items, labels]

/-- The `default` label of a `switch` is the last of its labels. -/
theorem defaultLast_items (d : SwitchDefinition) : DefaultLast d.items := by
  refine defaultLast_append ?_ ?_
  · rw [List.mem_flatMap]
    rintro ⟨statement, -, hmem⟩
    cases hbreak : statement.hasBreak <;> simp [CaseStatement.items, hbreak] at hmem
  · cases d.caseDefStatement with
    | none => exact trivial
    | some statement =>
      rw [Option.toList_some, List.flatMap_singleton, CaseDefStatement.items]
      refine defaultLast_append (by simp) ⟨by simp [labels], behindDefault_eq_none (by simp)⟩

/-- In every accepted text and from every store, a `switch` whose labels are pairwise different
numbers has the effect of the statements that the C statement executes, and the statements behind it
are executed. A label is the `int` that `atoi` makes of its digits, as C converts the labels of a
`switch` on an `int`. -/
theorem switch_has_c_semantics (before after : List StatementDefinition) {d : SwitchDefinition}
    (hlabels : (d.caseLabels.map atoi).Nodup)
    (special : Option (List TagDefinition × List VariableDefinition)) (env : Env) :
    yyparse ⟨before ++ .switch d :: after, special⟩ env =
      yyparse ⟨before, none⟩ env >>= fun env ↦
        execAll (selected (sysconfInt env.conf d.identifier) d.items) env >>=
          yyparse ⟨after, special⟩ := by
  rw [yyparse_split]
  refine bind_congr fun env' ↦ ?_
  rw [← labels_items] at hlabels
  rw [StatementDefinition.exec, SwitchDefinition.exec,
    letThrough_eq_selected hlabels (defaultLast_items d)]

/-- `switch (x) { case 1: a = on; case 2: b = on; default: c = on; break; }`. -/
def fallThroughSwitch : SwitchDefinition where
  identifier := ['x']
  caseStatements := [⟨[['1']], [.assign (.flagOn ['a'])], false⟩,
    ⟨[['2']], [.assign (.flagOn ['b'])], false⟩]
  caseDefStatement := some ⟨[], [.assign (.flagOn ['c'])]⟩

/-- The theorem on a text with that `switch` behind `x = 2;`. -/
theorem switch_has_c_semantics_fallThrough :
    yyparse ⟨[.definition (.assign (.digit ['x'] ['2']))] ++ .switch fallThroughSwitch :: [], none⟩
        ⟨Sysconf.empty, fun _ ↦ (0, 0), []⟩ =
      yyparse ⟨[.definition (.assign (.digit ['x'] ['2']))], none⟩
          ⟨Sysconf.empty, fun _ ↦ (0, 0), []⟩ >>= fun env ↦
        execAll (selected (sysconfInt env.conf ['x']) fallThroughSwitch.items) env >>=
          yyparse ⟨[], none⟩ :=
  switch_has_c_semantics _ _ (by decide) _ _

/-- With `x = 2`, the statements of that `switch` are those from its second label on. -/
example : selected 2 fallThroughSwitch.items = [.assign (.flagOn ['b']), .assign (.flagOn ['c'])] :=
  rfl

end Katmai.SysConf
