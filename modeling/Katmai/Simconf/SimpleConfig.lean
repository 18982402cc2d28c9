import Katmai.Foundation.KeyedList
import Katmai.Foundation.PieceRegex
import Katmai.Misclib.Trim
import Mathlib.Data.Int.Notation

/-!
# Configuration files

A configuration is a list of variables, each with a number, a text or an address. `scLoad` reads a
file line by line, with one line in the buffer on which all of trimming and splitting works, and
`scAdd` puts a variable in front of the list unless there is one of its name. Memory is taken to be
enough, and the file to be there.
-/

set_option autoImplicit false
set_option relaxedAutoImplicit false

namespace Katmai.Simconf

open Foundation Misclib

/-- `enum vartype_t` -/
inductive Vartype
  | int
  | string
  | ip
  deriving DecidableEq

/-- The number of an enumerator. -/
def Vartype.code : Vartype → ℤ
  | .int => 1
  | .string => 2
  | .ip => 3

/-- What `value` points to, by the type of the variable. -/
inductive VarValue
  | int (n : ℤ)
  | string (text : List Char)
  | ip (text : List Char)
  deriving DecidableEq

def VarValue.type : VarValue → Vartype
  | .int _ => .int
  | .string _ => .string
  | .ip _ => .ip

/-- `struct simconf_data_t` -/
structure SimconfData where
  str : List Char
  value : VarValue
  deriving DecidableEq

/-- `struct simconf_t`, with the list that `pd.data` points to. -/
structure SimconfT where
  data : List SimconfData
  deriving DecidableEq

def newSimconf : SimconfT where
  data := []

/-! ### Variables -/

/-- `strcasecmp` gives zero. -/
def sameIgnoringCase (a b : List Char) : Bool :=
  a.map Char.toLower == b.map Char.toLower

/-- The loop of `sc_search_var`. -/
def searchFrom (var : List Char) : List SimconfData → Option SimconfData
  | [] => none
  | ptr :: data => if sameIgnoringCase ptr.str var then some ptr else searchFrom var data

/-- `sc_search_var` -/
def scSearchVar (self : SimconfT) (var : List Char) : Option SimconfData :=
  searchFrom var self.data

/-- `sc_variable_type` -/
def scVariableType (self : SimconfT) (var : List Char) : ℤ :=
  match scSearchVar self var with
  | none => -1
  | some ptr => ptr.value.type.code

/-- `sc_getint` -/
def scGetint (self : SimconfT) (var : List Char) : ℤ :=
  match scSearchVar self var with
  | some { str := _, value := .int n } => n
  | _ => -1

/-- `sc_getstr`, for every type but `VARTYPE_INT`. -/
def scGetstr (self : SimconfT) (var : List Char) : Option (List Char) :=
  match scSearchVar self var with
  | some { str := _, value := .string text } => some text
  | some { str := _, value := .ip text } => some text
  | _ => none

/-- `sc_getip` -/
def scGetip (self : SimconfT) (var : List Char) : Option (List Char) :=
  match scSearchVar self var with
  | some { str := _, value := .ip text } => some text
  | _ => none

/-- `[0-9]+` -/
def digits : Piece Char where
  accepts := Char.isDigit
  many := true

/-- `\.` -/
def dot : Piece Char where
  accepts := (· == '.')
  many := false

/-- `^[0-9]+$` -/
def numberRegex : PieceRegex Char where
  startAnchor := true
  pieces := [digits]
  endAnchor := true

/-- `^[0-9]+\.[0-9]+\.[0-9]+\.[0-9]+$` -/
def addressRegex : PieceRegex Char where
  startAnchor := true
  pieces := [digits, dot, digits, dot, digits, dot, digits]
  endAnchor := true

/-- The entries of `vartype` that have a regular expression. -/
def vartype : List (PieceRegex Char × Vartype) :=
  [(numberRegex, .int), (addressRegex, .ip)]

/-- The type of the first entry that matches; the last one has no regular expression. -/
def matchedType (val : List Char) : Vartype :=
  ((vartype.find? fun entry ↦ (entry.1.search val).isSome).map Prod.snd).getD .string

/-- `atoi` of a text that begins with a digit: `strtol` ends at the largest `long`, and the result
is cut to an `int`. -/
def atoi (val : List Char) : ℤ :=
  ((min (Nat.ofDigitChars 10 (val.takeWhile Char.isDigit) 0) 9223372036854775807 : ℕ) : ℤ).bmod
    4294967296

/-- The value of a new variable. -/
def newValue (val : List Char) : VarValue :=
  match matchedType val with
  | .int => .int (atoi val)
  | .ip => .ip val
  | .string => .string val

/-- `sc_add` -/
def scAdd (self : SimconfT) (var val : List Char) : SimconfT :=
  if scVariableType self var ≠ -1 then self
  else { self with data := { str := var, value := newValue val } :: self.data }

/-! ### Files -/

/-- `strip_comments` -/
def stripComments : List Char → List Char
  | [] => []
  | c :: buffer => if c = '#' ∨ c = ';' then [] else c :: stripComments buffer

/-- The body of the loop of `sc_load`. -/
def scLoadLine (self : SimconfT) (line : List Char) : SimconfT :=
  let buffer := rtrim (ltrim (stripDosEof (stripComments (chomp (cString line)))))
  if buffer.length = 0 then self
  else
    match buffer.findIdx? (· == '=') with
    | none => self
    | some i =>
      let var := rtrim (buffer.take i)
      let ptr := ltrim (buffer.drop (i + 1))
      if var.length = 0 then self else scAdd self var ptr

/-- `sc_load` -/
def scLoad (self : SimconfT) (file : List Char) : SimconfT :=
  (fgetsLines 2048 file).foldl scLoadLine self

/-! ### Searching and adding -/

/-- The name of a variable without letter case. -/
def foldedName (ptr : SimconfData) : List Char :=
  ptr.str.map Char.toLower

/-- A variable as `sc_add` makes it. -/
def newData (var val : List Char) : SimconfData where
  str := var
  value := newValue val

variable {self : SimconfT} {var val : List Char}

theorem scSearchVar_eq (self : SimconfT) (var : List Char) :
    scSearchVar self var = lookup foldedName (var.map Char.toLower) self.data := by
  rw [scSearchVar]
  induction self.data with
  | nil => rfl
  | cons ptr data ih =>
    have hsame : sameIgnoringCase ptr.str var = true ↔ foldedName ptr = var.map Char.toLower :=
      beq_iff_eq
    rw [searchFrom, lookup_cons, ih]
    exact if_congr hsame rfl rfl

theorem scVariableType_eq_iff :
    scVariableType self var = -1 ↔ scSearchVar self var = none := by
  rw [scVariableType]
  cases scSearchVar self var with
  | none => simp
  | some ptr => cases hvalue : ptr.value <;> simp [VarValue.type, Vartype.code, hvalue]

/-- `sc_add` is the insertion of a record whose key is new. -/
theorem scAdd_data (self : SimconfT) (var val : List Char) :
    (scAdd self var val).data = addNew foldedName self.data (newData var val) := by
  have hsearch :
      scSearchVar self var = lookup foldedName (foldedName (newData var val)) self.data :=
    scSearchVar_eq self var
  rw [scAdd, addNew, ← hsearch]
  cases hfound : scSearchVar self var with
  | none => rw [if_neg (not_not.mpr (scVariableType_eq_iff.mpr hfound)), if_neg (by simp), newData]
  | some ptr =>
    rw [if_pos (fun h ↦ ?_), if_pos (by simp)]
    rw [scVariableType_eq_iff, hfound] at h
    cases h

end Katmai.Simconf
