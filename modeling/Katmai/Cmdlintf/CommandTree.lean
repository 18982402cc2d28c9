import Katmai.Cmdlintf.CommandLine
import Katmai.Foundation.Trie
import Mathlib.Data.Int.Notation

/-!
# The command tree

Commands are paths of words in a tree. `cli_addcmd` goes down the tree word by word and adds the
nodes that are missing; `find_match_as_possible` goes down along a line as far as there are nodes,
and `external_execute` calls the function of the node that it has come to.

`valueAt_commandTree` says what is at a path after a sequence of calls: what the first call with a
path that begins so has put there. `dispatch_law` follows for the answers of `cli_addcmd` and for
every line that is executed. Words of a line count with their first 63 characters, and a command is
run only for its own type.
-/

set_option autoImplicit false
set_option relaxedAutoImplicit false

namespace Katmai.Cmdlintf

open Foundation

variable {φ : Type}

/-! ### The functions -/

/-- `command_t`, without the name, which is the key of the node, and the links. Functions are
`φ`. -/
structure Command (φ : Type) where
  isRmt : ℤ
  func : Option φ
  cmdType : ℤ
  doc : Option (List UInt8)
  nargs : ℤ

/-- The tree under `pdptr->cmdptr`. -/
abbrev CommandTree (φ : Type) : Type :=
  Trie (List UInt8) (Command φ)

/-- `memset (&pdptr->cmdptr, 0, sizeof (pdptr->cmdptr))` -/
def emptyTree : CommandTree φ :=
  .node ⟨0, none, 0, none, 0⟩ []

/-- The arguments of `cli_addcmd`. The path has words, of at most 63 characters each. -/
structure AddCall (φ : Type) where
  cmd : CString
  rmt : ℤ
  cmdfunc : Option φ
  doc : Option (List UInt8)
  args : ℤ
  cmdtype : ℤ
  some_word : lineWords cmd.chars ≠ []
  word_length : ∀ word ∈ lineWords cmd.chars, word.length ≤ 63

/-- A node on the way. -/
def AddCall.inner (call : AddCall φ) : Command φ :=
  ⟨call.rmt, none, call.cmdtype, none, 0⟩

/-- The node of the command. -/
def AddCall.leaf (call : AddCall φ) : Command φ :=
  { call.inner with doc := call.doc, func := call.cmdfunc, nargs := call.args }

/-- `cli_addcmd`, from a level on: what it returns, and the node with what is below it. -/
def addLevels (call : AddCall φ) (wds level : ℕ) (ptr : CommandTree φ) : ℤ × CommandTree φ :=
  if level ≤ wds then
    match nthword call.cmd.chars level with
    | none => (0, ptr)
    | some word =>
      match ptr.child word with
      | some q =>
        -- Duplicate Command
        if level = wds then (0, ptr)
        else
          let r := addLevels call wds (level + 1) q
          (r.1, ptr.setChild word r.2)
      | none =>
        if level = wds then (1, ptr.addChild word (.node call.leaf []))
        else
          let r := addLevels call wds (level + 1) (.node call.inner [])
          (r.1, ptr.addChild word r.2)
  else (0, ptr)
termination_by wds + 1 - level

/-- `cli_addcmd` -/
def cliAddcmd (t : CommandTree φ) (call : AddCall φ) : ℤ × CommandTree φ :=
  addLevels call (nofwords call.cmd.chars) 1 t

theorem le_nofwords_of_nthword {text word : List UInt8} {i : ℕ}
    (hword : nthword text i = some word) : i ≤ nofwords text := by
  cases i with
  | zero => exact Nat.zero_le _
  | succ n =>
    rw [nthword_succ, Option.map_eq_some_iff] at hword
    obtain ⟨_, hget, _⟩ := hword
    rw [nofwords_eq]
    exact (List.getElem?_eq_some_iff.mp hget).1

/-- The loop of `find_match_as_possible`: `*mcnt` and `fptr`, if they have been set. -/
def findMatchLoop (text : List UInt8) (i : ℕ) (ptr : CommandTree φ)
    (found : Option (ℕ × CommandTree φ)) : Option (ℕ × CommandTree φ) :=
  match _hword : nthword text i with
  | none => found
  | some word =>
    match ptr.child word with
    | none => found
    | some child => findMatchLoop text (i + 1) child (some (i, child))
termination_by nofwords text + 1 - i
decreasing_by
  have := le_nofwords_of_nthword _hword
  omega

/-- `find_match_as_possible` -/
def findMatchAsPossible (t : CommandTree φ) (text : List UInt8) : Option (ℕ × CommandTree φ) :=
  findMatchLoop text 1 t none

/-- What executing a line comes to: a text is printed, a function is called, or nothing is done. All
but the call return 1. -/
inductive Response (φ : Type)
  | prints (text : List UInt8)
  | calls (func : φ) (arg : Option (List UInt8))
  | ignores
  deriving DecidableEq, Repr

/-- `print ("%% %s: no such command\n", nthword (cmd, 1))`, which writes a null pointer out. -/
def noSuchCommand (cmd : List UInt8) : List UInt8 :=
  ascii "% " ++ (nthword cmd 1).getD (ascii "(null)") ++ ascii ": no such command\n"

/-- `print ("%% %s: Incomplete command.\n", cmd)` -/
def incompleteCommand (cmd : List UInt8) : List UInt8 :=
  ascii "% " ++ cmd ++ ascii ": Incomplete command.\n"

/-- `external_execute` -/
def externalExecute (t : CommandTree φ) (cmd : List UInt8) (cmdtype : ℤ) : Response φ :=
  match findMatchAsPossible t cmd with
  | none => .prints (noSuchCommand cmd)
  | some (i, command) =>
    match command.value.func with
    | none => .prints (incompleteCommand cmd)
    | some func =>
      if cmdtype = command.value.cmdType then .calls func (nthwordptr cmd (i + 1)) else .ignores

/-! ### Adding commands -/

section Adding

variable (call : AddCall φ)

/-- The path of a call. -/
def AddCall.path : List (List UInt8) :=
  lineWords call.cmd.chars

theorem AddCall.path_ne_nil : call.path ≠ [] :=
  call.some_word

theorem nthword_path (n : ℕ) : nthword call.cmd.chars (n + 1) = call.path[n]? := by
  rw [nthword_succ, AddCall.path]
  cases hword : (lineWords call.cmd.chars)[n]? with
  | none => rfl
  | some word =>
    exact congrArg some
      (List.take_of_length_le (call.word_length word (List.mem_of_getElem? hword)))

theorem nofwords_path : nofwords call.cmd.chars = call.path.length :=
  nofwords_eq _

/-- What `cli_addcmd` does below a node to which the first words of the path have led. -/
theorem addLevels_eq (n : ℕ) (hn : n < call.path.length) (ptr : CommandTree φ) :
    (ptr.IsNode (call.path.drop n) → addLevels call call.path.length (n + 1) ptr = (0, ptr)) ∧
      (¬ptr.IsNode (call.path.drop n) → addLevels call call.path.length (n + 1) ptr =
        (1, Trie.insertPath call.inner call.leaf (call.path.drop n) ptr)) := by
  induction hleft : call.path.length - n generalizing n ptr with
  | zero => omega
  | succ left ih =>
    have hdrop : call.path.drop n = call.path[n] :: call.path.drop (n + 1) :=
      List.drop_eq_getElem_cons hn
    have hword : nthword call.cmd.chars (n + 1) = some call.path[n] := by
      rw [nthword_path, List.getElem?_eq_getElem hn]
    have hlevel : n + 1 ≤ call.path.length := hn
    rw [hdrop, addLevels, if_pos hlevel, hword]
    cases hchild : ptr.child call.path[n] with
    | none =>
      refine ⟨fun hnode ↦ absurd hnode (Trie.not_isNode_cons hchild), fun _ ↦ ?_⟩
      by_cases hlast : n + 1 = call.path.length
      · have hnil : call.path.drop (n + 1) = [] := by rw [hlast, List.drop_length]
        simp only [hchild, if_pos hlast, Trie.insertPath, hnil, if_true]
      · have hmore : n + 1 < call.path.length := by omega
        have hsome : call.path.drop (n + 1) ≠ [] := by
          rw [ne_eq, List.drop_eq_nil_iff]
          omega
        have hbare : ¬(Trie.node call.inner []).IsNode (call.path.drop (n + 1)) := by
          rw [List.drop_eq_getElem_cons hmore]
          exact Trie.not_isNode_cons rfl
        have hdeeper := (ih (n + 1) hmore (.node call.inner []) (by omega)).2 hbare
        simp only [hchild, if_neg hlast, Trie.insertPath, hdeeper, if_neg hsome]
    | some q =>
      rw [Trie.isNode_cons_of_child hchild]
      by_cases hlast : n + 1 = call.path.length
      · have hnil : call.path.drop (n + 1) = [] := by rw [hlast, List.drop_length]
        rw [hnil]
        refine ⟨fun _ ↦ ?_, fun hnode ↦ absurd (Trie.isNode_nil q) hnode⟩
        simp only [hchild, if_pos hlast]
      · have hmore : n + 1 < call.path.length := by omega
        obtain ⟨hin, hout⟩ := ih (n + 1) hmore q (by omega)
        refine ⟨fun hnode ↦ ?_, fun hnode ↦ ?_⟩
        · simp only [hchild, if_neg hlast, hin hnode, Trie.setChild_self _ hchild]
        · simp only [hchild, if_neg hlast, Trie.insertPath, hout hnode]

/-- A path that is a node is refused. -/
theorem cliAddcmd_of_isNode {t : CommandTree φ} (hnode : t.IsNode call.path) :
    cliAddcmd t call = (0, t) := by
  have hpos : 0 < call.path.length := List.length_pos_iff.mpr call.path_ne_nil
  rw [cliAddcmd, nofwords_path]
  exact (addLevels_eq call 0 hpos t).1 hnode

/-- A path that is none is inserted. -/
theorem cliAddcmd_of_not_isNode {t : CommandTree φ} (hnode : ¬t.IsNode call.path) :
    cliAddcmd t call = (1, Trie.insertPath call.inner call.leaf call.path t) := by
  have hpos : 0 < call.path.length := List.length_pos_iff.mpr call.path_ne_nil
  rw [cliAddcmd, nofwords_path]
  exact (addLevels_eq call 0 hpos t).2 hnode

/-- What a call puts at a path: its command, or a node on the way. -/
def AddCall.commandAt (path : List (List UInt8)) : Option (Command φ) :=
  Trie.insertedValue call.inner call.leaf call.path path

/-- What was there before stays, whether the call is refused or not. -/
theorem valueAt_cliAddcmd (t : CommandTree φ) (path : List (List UInt8)) :
    (cliAddcmd t call).2.valueAt path = (t.valueAt path).or (call.commandAt path) := by
  have hinsert := Trie.valueAt_insertPath call.inner call.leaf t call.path path
  by_cases hnode : t.IsNode call.path
  · rw [Trie.insertPath_of_isNode call.inner call.leaf hnode] at hinsert
    rw [cliAddcmd_of_isNode call hnode]
    exact hinsert
  · rw [cliAddcmd_of_not_isNode call hnode]
    exact hinsert

end Adding

/-- The tree after a sequence of calls. -/
def commandTree (calls : List (AddCall φ)) : CommandTree φ :=
  calls.foldl (fun t call ↦ (cliAddcmd t call).2) emptyTree

/-- What is at a path of the tree is what the first call with it, or with a path that begins with
it, has put there. -/
theorem valueAt_commandTree (calls : List (AddCall φ)) {path : List (List UInt8)}
    (hpath : path ≠ []) :
    (commandTree calls).valueAt path = calls.findSome? (·.commandAt path) := by
  have hfold (t : CommandTree φ) :
      (calls.foldl (fun t call ↦ (cliAddcmd t call).2) t).valueAt path =
        (t.valueAt path).or (calls.findSome? (·.commandAt path)) := by
    induction calls generalizing t with
    | nil => simp
    | cons call calls ih =>
      rw [List.foldl_cons, ih, valueAt_cliAddcmd, Option.or_assoc, List.findSome?_cons]
      cases call.commandAt path <;> rfl
  have hempty : (emptyTree : CommandTree φ).valueAt path = none := by
    obtain ⟨k, rest, rfl⟩ := List.exists_cons_of_ne_nil hpath
    rfl
  rw [commandTree, hfold, hempty, Option.none_or]

/-- The paths of the tree are those with which the path of a call begins. -/
theorem isNode_commandTree (calls : List (AddCall φ)) {path : List (List UInt8)}
    (hpath : path ≠ []) :
    (commandTree calls).IsNode path ↔ ∃ earlier ∈ calls, path <+: earlier.path := by
  unfold Trie.IsNode
  rw [valueAt_commandTree calls hpath, ne_eq, List.findSome?_eq_none_iff]
  simp only [AddCall.commandAt, Trie.insertedValue]
  push Not
  refine exists_congr fun call ↦ and_congr_right fun _ ↦ ?_
  by_cases hbegins : path <+: call.path <;> simp [hbegins]

/-! ### Executing lines -/

section Executing

variable (t : CommandTree φ) (line : List UInt8)

/-- The words of a line as they are compared. -/
def lineKeys : List (List UInt8) :=
  (lineWords line).map (List.take 63)

/-- What is passed to a function behind the first `n` words of a line. -/
def argument (n : ℕ) : Option (List UInt8) :=
  if textFrom whitespace n line = [] then none else some (textFrom whitespace n line)

theorem argument_eq_none_iff (n : ℕ) : argument line n = none ↔ (lineWords line).length ≤ n := by
  rw [lineWords, ← textFrom_eq_nil_iff, argument]
  by_cases hnil : textFrom whitespace n line = []
  · rw [if_pos hnil]
    exact iff_of_true rfl hnil
  · rw [if_neg hnil]
    exact iff_of_false (Option.some_ne_none _) hnil

/-- It is the end of the line with the words behind the first `n`. -/
theorem argument_spec {n : ℕ} {text : List UInt8} (harg : argument line n = some text) :
    text <:+ line ∧ lineWords text = (lineWords line).drop n := by
  unfold argument at harg
  split_ifs at harg
  rw [← Option.some_inj.mp harg]
  exact ⟨textFrom_suffix n line, words_textFrom n line⟩

/-- From the node to which the first `n` words have led, the loop finds the longest match of the
others. -/
theorem findMatchLoop_eq (n : ℕ) (found : Option (ℕ × CommandTree φ)) :
    findMatchLoop line (n + 1) t found =
      (Trie.longestMatch ((lineKeys line).drop n) t).elim found
        fun deeper ↦ some (deeper.1 + n, deeper.2) := by
  induction hleft : (lineKeys line).length - n generalizing n t found with
  | zero =>
    have hnone : (lineKeys line)[n]? = none := List.getElem?_eq_none (by omega)
    have hdrop : (lineKeys line).drop n = [] := List.drop_eq_nil_of_le (by omega)
    rw [lineKeys, List.getElem?_map] at hnone
    rw [findMatchLoop, hdrop]
    split
    · rfl
    · rename_i word hword
      rw [nthword_succ, hnone] at hword
      exact absurd hword.symm (Option.some_ne_none word)
  | succ left ih =>
    have hlt : n < (lineKeys line).length := by omega
    have hget : nthword line (n + 1) = some (lineKeys line)[n] := by
      rw [nthword_succ, ← List.getElem?_map]
      exact List.getElem?_eq_getElem hlt
    rw [findMatchLoop, List.drop_eq_getElem_cons hlt, Trie.longestMatch]
    split
    · rename_i hnone
      rw [hget] at hnone
      exact absurd hnone (Option.some_ne_none _)
    · rename_i word hword
      rw [hget, Option.some_inj] at hword
      rw [← hword]
      cases hchild : t.child (lineKeys line)[n] with
      | none => rfl
      | some child =>
        dsimp only
        rw [ih child (n + 1) _ (by omega), Option.map_some, Option.elim_some]
        cases Trie.longestMatch ((lineKeys line).drop (n + 1)) child with
        | none => simp only [Option.elim_none, Nat.add_comm]
        | some deeper =>
          simp only [Option.elim_some, Nat.add_assoc, Nat.add_comm 1 n]

/-- `find_match_as_possible` finds the longest match. -/
theorem findMatchAsPossible_eq :
    findMatchAsPossible t line = Trie.longestMatch (lineKeys line) t := by
  rw [findMatchAsPossible, findMatchLoop_eq, List.drop_zero]
  cases Trie.longestMatch (lineKeys line) t <;> rfl

/-- What `external_execute` does with a line: it runs the function of the node that the longest
match leads to, if this has one and is of the type, with the text from the first unmatched word
on. -/
structure ExecuteLaw (cmdtype : ℤ) : Prop where
  runs : ∀ n found func, Trie.LongestMatch t (lineKeys line) n found →
    found.value.func = some func → cmdtype = found.value.cmdType →
      externalExecute t line cmdtype = .calls func (argument line n)
  otherType : ∀ n found func, Trie.LongestMatch t (lineKeys line) n found →
    found.value.func = some func → cmdtype ≠ found.value.cmdType →
      externalExecute t line cmdtype = .ignores
  incomplete : ∀ n found, Trie.LongestMatch t (lineKeys line) n found →
    found.value.func = none →
      externalExecute t line cmdtype = .prints (incompleteCommand line)
  unmatched : (∀ n found, ¬Trie.LongestMatch t (lineKeys line) n found) →
    externalExecute t line cmdtype = .prints (noSuchCommand line)

variable {t line}

theorem findMatchAsPossible_of_longestMatch {n : ℕ} {found : CommandTree φ}
    (hmatch : Trie.LongestMatch t (lineKeys line) n found) :
    findMatchAsPossible t line = some (n, found) := by
  rw [findMatchAsPossible_eq]
  exact Trie.longestMatch_eq_some_iff.mpr hmatch

theorem executeLaw (t : CommandTree φ) (line : List UInt8) (cmdtype : ℤ) :
    ExecuteLaw t line cmdtype where
  runs n found func hmatch hfunc htype := by
    simp only [externalExecute, findMatchAsPossible_of_longestMatch hmatch, hfunc, if_pos htype]
    rw [nthwordptr_succ, argument]
  otherType n found func hmatch hfunc htype := by
    simp only [externalExecute, findMatchAsPossible_of_longestMatch hmatch, hfunc, if_neg htype]
  incomplete n found hmatch hfunc := by
    simp only [externalExecute, findMatchAsPossible_of_longestMatch hmatch, hfunc]
  unmatched hnone := by
    have hfind : findMatchAsPossible t line = none := by
      rw [findMatchAsPossible_eq]
      by_contra hsome
      obtain ⟨⟨n, found⟩, hmatch⟩ := Option.ne_none_iff_exists'.mp hsome
      exact hnone n found (Trie.longestMatch_eq_some_iff.mp hmatch)
    simp only [externalExecute, hfind]

end Executing

/-! ### A tree with one command -/

section Single

variable {call : AddCall φ} {word : List UInt8}

theorem commandTree_singleton (hpath : call.path = [word]) :
    commandTree [call] = .node ⟨0, none, 0, none, 0⟩ [(word, .node call.leaf [])] := by
  have hnew : ¬(emptyTree : CommandTree φ).IsNode call.path := by
    rw [hpath]
    exact Trie.not_isNode_cons rfl
  rw [commandTree, List.foldl_cons, List.foldl_nil, cliAddcmd_of_not_isNode call hnew, hpath]
  rfl

/-- A line that begins with the command matches it. -/
theorem longestMatch_singleton (hpath : call.path = [word]) (rest : List (List UInt8)) :
    Trie.LongestMatch (commandTree [call]) (word :: rest) 1 (.node call.leaf []) := by
  have hnone : Trie.longestMatch rest (.node call.leaf [] : CommandTree φ) = none := by
    cases rest <;> rfl
  rw [← Trie.longestMatch_eq_some_iff, commandTree_singleton hpath]
  simp [Trie.longestMatch, Trie.child, Trie.children, lookup_cons, hnone]

end Single

/-! ### Whole sequences -/

/-- What `cli_addcmd` does after a sequence of calls: it returns 1 exactly when its path is no node
yet, and else 0, and leaves the tree as it is. -/
structure AddLaw (calls : List (AddCall φ)) (call : AddCall φ) : Prop where
  added : (cliAddcmd (commandTree calls) call).1 = 1 ↔
    ¬∃ earlier ∈ calls, call.path <+: earlier.path
  refused : (∃ earlier ∈ calls, call.path <+: earlier.path) →
    cliAddcmd (commandTree calls) call = (0, commandTree calls)

theorem addLaw (calls : List (AddCall φ)) (call : AddCall φ) : AddLaw calls call := by
  have hnode := isNode_commandTree calls call.path_ne_nil
  have hrefused : (∃ earlier ∈ calls, call.path <+: earlier.path) →
      cliAddcmd (commandTree calls) call = (0, commandTree calls) :=
    fun hearlier ↦ cliAddcmd_of_isNode call (hnode.mpr hearlier)
  refine ⟨⟨fun hone hearlier ↦ ?_, fun hnew ↦ ?_⟩, hrefused⟩
  · rw [hrefused hearlier] at hone
    exact absurd hone Int.zero_ne_one
  · rw [cliAddcmd_of_not_isNode call fun h ↦ hnew (hnode.mp h)]

/-- After every sequence of calls of `cli_addcmd`, the next one adds its path exactly when it is no
node yet; at each path is what the first call has put there whose path begins with it; and every
line is executed by the longest match. -/
theorem dispatch_law (calls : List (AddCall φ)) :
    (∀ call, AddLaw calls call) ∧
      (∀ path, path ≠ [] →
        (commandTree calls).valueAt path = calls.findSome? (·.commandAt path)) ∧
      ∀ (line : CString) (cmdtype : ℤ), ExecuteLaw (commandTree calls) line.chars cmdtype :=
  ⟨addLaw calls, fun _ hpath ↦ valueAt_commandTree calls hpath,
    fun line cmdtype ↦ executeLaw (commandTree calls) line.chars cmdtype⟩

/-- The command `show`, of the type 1. -/
def showCall : AddCall ℕ where
  cmd := ⟨ascii "show", by decide, by decide⟩
  rmt := 0
  cmdfunc := some 1
  doc := none
  args := 0
  cmdtype := 1
  some_word := by decide
  word_length := by decide

/-- A command with a name of 63 characters. -/
def longCall : AddCall ℕ where
  cmd := ⟨List.replicate 63 97, by decide, by decide⟩
  rmt := 0
  cmdfunc := some 2
  doc := none
  args := 0
  cmdtype := 1
  some_word := by decide
  word_length := by decide

/-- A line that has matched is not run with another type, and a word of 64 characters, which is no
path of the tree, runs the command with its first 63. -/
theorem not_dispatch_as_stated :
    (Trie.LongestMatch (commandTree [showCall]) (lineWords (ascii "show")) 1
        (.node showCall.leaf []) ∧
      externalExecute (commandTree [showCall]) (ascii "show") 0 = .ignores) ∧
    (¬(commandTree [longCall]).IsNode (lineWords (List.replicate 64 97)) ∧
      externalExecute (commandTree [longCall]) (List.replicate 64 97) 1 = .calls 2 none) := by
  have hshow : showCall.path = [ascii "show"] := by decide
  have hlong : longCall.path = [List.replicate 63 97] := by decide
  have hline : lineWords (List.replicate 64 97) = [List.replicate 64 97] := by decide
  refine ⟨⟨longestMatch_singleton hshow [], ?_⟩, ?_, ?_⟩
  · exact (executeLaw _ _ 0).otherType 1 _ 1 (longestMatch_singleton hshow []) rfl (by decide)
  · rw [hline, commandTree_singleton hlong]
    exact Trie.not_isNode_cons (by decide)
  · exact (executeLaw _ _ 1).runs 1 _ 2 (longestMatch_singleton hlong []) rfl rfl

end Katmai.Cmdlintf
