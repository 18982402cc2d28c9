import Katmai.SysConf.StoreMap
import Katmai.SysConf.TokenValues
import Mathlib.Data.List.TakeWhile

/-!
# Which list literals are stored as they are written

The elements of a comma list are pushed from the last to the first on a stack of 64 entries, and
popped from its top into the list that is stored, so the order of the text comes back. `push_int`
and `push_str` return `0` on a full stack, which no action looks at: of a longer literal the last 64
elements are stored (`assignList_stores_last`), and those in front of them are lost. So a literal is
stored as it is written exactly if it has at most 64 elements (`listLiteral_stored_iff`).
-/

set_option autoImplicit false
set_option relaxedAutoImplicit false

namespace Katmai.SysConf

/-! ### Literals -/

/-- What stands between the quotes of a quoted string. -/
def Lexeme.body (qstring : Lexeme .qstring) : Str :=
  (qstring.yytext.drop 1).dropLast

/-- A literal whose numbers fit in an `int`, or whose strings are C strings and not empty. -/
def CommaList.Proper : CommaList Lexeme → Prop
  | .number digits => ∀ digit ∈ digits, digitsValue digit.yytext < 2 ^ 31
  | .string qstrings => ∀ qstring ∈ qstrings, qstring.body ≠ [] ∧ '\x00' ∉ qstring.body

/-- The number of elements. -/
def CommaList.length : CommaList Lexeme → ℕ
  | .number digits => digits.length
  | .string qstrings => qstrings.length

/-- The literal without the elements that do not fit on the stack. -/
def CommaList.lastElements : CommaList Lexeme → CommaList Lexeme
  | .number digits => .number (kept digits)
  | .string qstrings => .string (kept qstrings)

/-- Under the key, the store has the elements of the literal in their order, and their number. -/
def CommaList.StoredUnder (conf : Sysconf) (key : Str) : CommaList Lexeme → Prop
  | .number digits => sysconfGetIntList conf key =
    (some (digits.map fun digit ↦ (digitsValue digit.yytext : ℤ)), (digits.length : ℤ))
  | .string qstrings => sysconfGetStrList conf key =
    (some (qstrings.map fun qstring ↦ some qstring.body), (qstrings.length : ℤ))

/-! ### The values of the elements -/

/-- A digit is none of the characters that `strtol` skips or takes for a sign. -/
theorem ne_of_isDigit {c other : Char} (hdigit : c.isDigit) (hother : other.isDigit = false) :
    c ≠ other := by
  rintro rfl
  rw [hdigit] at hother
  exact Bool.noConfusion hother

/-- The text of a number has nothing in front of its digits. -/
theorem strtol_digits {digits : Str} (hne : digits ≠ []) (hdigits : ∀ c ∈ digits, c.isDigit) :
    strtol digits = min (digitsValue digits : ℤ) (2 ^ 63 - 1) := by
  obtain ⟨first, rest, rfl⟩ := List.exists_cons_of_ne_nil hne
  have hfirst := hdigits first List.mem_cons_self
  have hspace : ¬isSpace first = true := by
    simp [isSpace, ne_of_isDigit hfirst]
  have hdrop : (first :: rest).dropWhile isSpace = first :: rest :=
    List.dropWhile_cons_of_neg hspace
  unfold strtol
  rw [hdrop]
  split
  · next heq => exact absurd (List.cons.inj heq).1 (ne_of_isDigit hfirst rfl)
  · next heq => exact absurd (List.cons.inj heq).1 (ne_of_isDigit hfirst rfl)
  · rfl

/-- The value of a number that fits in an `int`. -/
theorem atoi_digit (digit : Lexeme .digit) (hfits : digitsValue digit.yytext < 2 ^ 31) :
    atoi digit.yytext = digitsValue digit.yytext := by
  obtain ⟨hne, hdigits⟩ := digit.accepted
  rw [atoi, strtol_digits hne hdigits, Int.min_eq_left (by omega)]
  exact Int.bmod_eq_of_le (by omega) (by omega)

/-- A quoted string that is a C string and not empty has the text between its quotes as its
value. -/
theorem yylval_qstring (qstring : Lexeme .qstring) (hne : qstring.body ≠ [])
    (hzero : '\x00' ∉ qstring.body) : qstring.yylval = some qstring.body := by
  obtain ⟨body, hyytext, -⟩ := qstring.accepted
  have hbody : qstring.body = body := by
    rw [Lexeme.body, hyytext, List.drop_succ_cons, List.drop_zero, List.dropLast_concat]
  rw [hbody] at hne hzero ⊢
  have hall : ∀ c ∈ '"' :: (body ++ ['"']), decide (c ≠ '\x00') = true := by
    intro c hc
    rw [decide_eq_true_eq]
    rintro rfl
    simp [hzero] at hc
  have hlen : strlen qstring.yytext = body.length + 2 := by
    rw [hyytext, strlen, List.takeWhile_eq_self_iff.mpr hall]
    simp
  have hpos : body.length ≠ 0 := fun hempty ↦ hne (List.length_eq_zero_iff.mp hempty)
  rw [Lexeme.yylval, if_pos rfl, qstringValue, if_neg (by omega), hlen, hyytext]
  simp

/-! ### What is stored -/

/-- What the readers of a list find behind a call that has added it. -/
theorem readers_addCall (conf : Sysconf) (c : AddCall) :
    sysconfGetIntList (addCall conf c) c.key = (c.binding.list, c.binding.ivalue) ∧
      sysconfGetStrList (addCall conf c) c.key = (c.binding.slist, c.binding.ivalue) := by
  have hlookup := lookup_put conf c.key c.binding (foldCase c.key)
  rw [← addCall_eq_put, if_pos rfl, Option.map_eq_some_iff] at hlookup
  obtain ⟨entry, hentry, hbinding⟩ := hlookup
  rw [← sysconfEntry_eq] at hentry
  simp [sysconfGetIntList, sysconfGetStrList, hentry, ← hbinding, SysconfEntry.binding]

variable {p : Parser}

theorem map_kept {α β : Type} (f : α → β) (list : List α) :
    (kept list).map f = kept (list.map f) := by
  simp [kept, List.map_drop]

theorem mem_of_mem_kept {α : Type} {a : α} {list : List α} (hmem : a ∈ kept list) : a ∈ list :=
  List.mem_of_mem_drop hmem

/-- The literal as the derivations of the grammar have it. -/
def CommaList.toData : CommaList Lexeme → CommaListData
  | .number digits => .number (digits.map Lexeme.yytext)
  | .string qstrings => .string (qstrings.map Lexeme.yylval)

/-- The reduction of an assignment of a list, in both views. -/
theorem map_assignList (identifier : Lexeme .identifier) (data : CommaList Lexeme) :
    ((Reduction.assignList identifier data).map fun _ ↦ Lexeme.yylval) =
      (VariableDefinition.assign (.list identifier.yytext data.toData)).reduction := by
  cases data with
  | number digits =>
    have hvalues : digits.map Lexeme.yylval = (digits.map Lexeme.yytext).map some := by
      rw [List.map_map]
      rfl
    rw [Reduction.map, CommaList.map, hvalues]
    rfl
  | string qstrings => rfl

/-- A list assignment that is executed stores the last 64 elements of its literal. -/
theorem assignList_stores_last (identifier : Lexeme .identifier) (data : CommaList Lexeme)
    (htrue : p.iftrue = true) (hgstk : p.gstk = []) (hproper : data.Proper) :
    ∃ q, ((Reduction.assignList identifier data).map fun _ ↦ Lexeme.yylval).act p = .ok q ∧
      q.gstk = [] ∧ data.lastElements.StoredUnder q.env.conf identifier.yytext := by
  rw [map_assignList, VariableDefinition.act_reduction,
    VariableDefinition.reduce_of_true _ htrue hgstk]
  refine ⟨_, rfl, hgstk, ?_⟩
  cases data with
  | number digits =>
    have hatoi : (kept (digits.map Lexeme.yytext)).map atoi =
        (kept digits).map fun digit ↦ (digitsValue digit.yytext : ℤ) := by
      rw [← map_kept, List.map_map]
      exact List.map_congr_left fun digit hdigit ↦
        atoi_digit digit (hproper digit (mem_of_mem_kept hdigit))
    have hlen : (kept (digits.map Lexeme.yytext)).length = (kept digits).length := by
      rw [← map_kept, List.length_map]
    refine (readers_addCall p.env.conf (.addIntList identifier.yytext
      (some ((kept (digits.map Lexeme.yytext)).map atoi))
      (kept (digits.map Lexeme.yytext)).length)).1.trans ?_
    rw [AddCall.binding, hatoi, hlen]
  | string qstrings =>
    have htexts : kept (qstrings.map Lexeme.yylval) =
        (kept qstrings).map fun qstring ↦ some qstring.body := by
      rw [← map_kept]
      refine List.map_congr_left fun qstring hqstring ↦ ?_
      obtain ⟨hne, hzero⟩ := hproper qstring (mem_of_mem_kept hqstring)
      exact yylval_qstring qstring hne hzero
    have hadded := readers_addCall p.env.conf (.addStrList identifier.yytext
      (some (kept (qstrings.map Lexeme.yylval))) (kept (qstrings.map Lexeme.yylval)).length)
    refine hadded.2.trans ?_
    rw [AddCall.binding, htexts, List.length_map]

/-- If the store has the last elements of a literal, it has the literal if and only if these are all
of it. -/
theorem storedUnder_iff {conf : Sysconf} {key : Str} {data : CommaList Lexeme}
    (hlast : data.lastElements.StoredUnder conf key) :
    data.StoredUnder conf key ↔ data.length ≤ maxIntStkLen := by
  constructor
  · intro hstored
    cases data with
    | number digits =>
      have hlen := congrArg Prod.snd (hlast.symm.trans hstored)
      simp only [kept, List.length_drop] at hlen
      simp only [CommaList.length]
      omega
    | string qstrings =>
      have hlen := congrArg Prod.snd (hlast.symm.trans hstored)
      simp only [kept, List.length_drop] at hlen
      simp only [CommaList.length]
      omega
  · intro hlen
    have hall : data.lastElements = data := by
      cases data with
      | number digits =>
        have hnone : digits.length - maxIntStkLen = 0 := Nat.sub_eq_zero_of_le hlen
        rw [CommaList.lastElements, kept, hnone, List.drop_zero]
      | string qstrings =>
        have hnone : qstrings.length - maxIntStkLen = 0 := Nat.sub_eq_zero_of_le hlen
        rw [CommaList.lastElements, kept, hnone, List.drop_zero]
    rwa [hall] at hlast

/-- In every accepted text and from every store: when the parser comes to the assignment of a list
literal while statements are executed, the numbers of the literal fitting in an `int` or its strings
being C strings and not empty, the list under the key is afterwards the literal, in the order of the
text and with its length, and the stack is empty again, exactly if the literal has at most 64
elements. -/
theorem listLiteral_stored_iff (text : AcceptedText) (env : Env)
    {identifier : Lexeme .identifier} {data : CommaList Lexeme}
    (hreach : Reaches text env p (.assignList identifier data)) (htrue : p.iftrue = true)
    (hproper : data.Proper) :
    (∃ q, ((Reduction.assignList identifier data).map fun _ ↦ Lexeme.yylval).act p = .ok q ∧
        data.StoredUnder q.env.conf identifier.yytext ∧ q.gstk = []) ↔
      data.length ≤ 64 := by
  obtain ⟨front, back, -, hrun⟩ := hreach
  have hgstk : p.gstk = [] := gstk_runReductions rfl hrun
  obtain ⟨q, hact, hempty, hlast⟩ := assignList_stores_last identifier data htrue hgstk hproper
  rw [hact]
  constructor
  · rintro ⟨q', hq', hstored, -⟩
    rw [← Except.ok.inj hq'] at hstored
    exact (storedUnder_iff hlast).mp hstored
  · intro hlen
    exact ⟨q, rfl, (storedUnder_iff hlast).mpr hlen, hempty⟩

/-- The lexemes of a key and of a number. -/
def keyLexeme : Lexeme .identifier :=
  ⟨['k'], 'k', [], rfl, Or.inr rfl, by simp, by decide⟩

def zeroLexeme : Lexeme .digit :=
  ⟨['0'], by simp, by simp⟩

theorem yylval_keyLexeme : keyLexeme.yylval = some ['k'] :=
  rfl

theorem yylval_zeroLexeme : zeroLexeme.yylval = some ['0'] :=
  rfl

/-- `k = [0, …, 0];`, with a number of zeros. -/
def zeros (n : ℕ) : AcceptedText where
  reductions := [.assignList keyLexeme (.number (List.replicate n zeroLexeme))]
  derivation := ⟨⟨[.definition (.assign (.list ['k'] (.number (List.replicate n ['0']))))], none⟩,
    by simp [Reduction.map, CommaList.map, FullDefinition.reductions, specialReductions,
      StatementDefinition.reductions, VariableDefinition.reduction, yylval_keyLexeme,
      yylval_zeroLexeme]⟩

/-- The parser comes to that assignment at once. -/
theorem reaches_zeros (n : ℕ) (env : Env) : Reaches (zeros n) env (Parser.start env)
    (.assignList keyLexeme (.number (List.replicate n zeroLexeme))) :=
  ⟨[], [], rfl, rfl⟩

theorem proper_zeros (n : ℕ) : (CommaList.number (List.replicate n zeroLexeme)).Proper := by
  intro digit hdigit
  rw [List.eq_of_mem_replicate hdigit]
  decide

/-- The theorem on a literal with three elements. -/
theorem listLiteral_stored_iff_three :
    (∃ q, ((Reduction.assignList keyLexeme (.number (List.replicate 3 zeroLexeme))).map
        fun _ ↦ Lexeme.yylval).act (Parser.start ⟨Sysconf.empty, fun _ ↦ (0, 0), []⟩) = .ok q ∧
        (CommaList.number (List.replicate 3 zeroLexeme)).StoredUnder q.env.conf ['k'] ∧
          q.gstk = []) ↔
      (CommaList.number (List.replicate 3 zeroLexeme)).length ≤ 64 :=
  listLiteral_stored_iff (zeros 3) _ (reaches_zeros 3 _) rfl (proper_zeros 3)

/-- A literal with 65 elements is not stored as it is written. -/
theorem not_listLiteral_stored_sixtyFive :
    ∃ p, Reaches (zeros 65) ⟨Sysconf.empty, fun _ ↦ (0, 0), []⟩ p
        (.assignList keyLexeme (.number (List.replicate 65 zeroLexeme))) ∧ p.iftrue = true ∧
      (CommaList.number (List.replicate 65 zeroLexeme)).Proper ∧
      ∀ q, ((Reduction.assignList keyLexeme (.number (List.replicate 65 zeroLexeme))).map
        fun _ ↦ Lexeme.yylval).act p = .ok q →
        ¬(CommaList.number (List.replicate 65 zeroLexeme)).StoredUnder q.env.conf ['k'] := by
  refine ⟨_, reaches_zeros 65 _, rfl, proper_zeros 65, fun q hq hstored ↦ ?_⟩
  obtain ⟨q', hact, -, hlast⟩ :=
    assignList_stores_last (p := Parser.start ⟨Sysconf.empty, fun _ ↦ (0, 0), []⟩) keyLexeme
      (.number (List.replicate 65 zeroLexeme)) rfl rfl (proper_zeros 65)
  rw [hact] at hq
  rw [← Except.ok.inj hq] at hstored
  have hlen := (storedUnder_iff hlast).mp hstored
  rw [CommaList.length, List.length_replicate, maxIntStkLen] at hlen
  omega

end Katmai.SysConf
