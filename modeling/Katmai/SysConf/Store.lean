import Katmai.Foundation.KeyedList
import Mathlib.Algebra.Group.Int.Defs
import Mathlib.Algebra.Group.Nat.Defs

/-!
# The configuration store of `sys_conf.c`

`sys_conf/sys_conf.c` keeps one record per key in a singly linked list. A record carries four
representations of its value: an integer, a string, a list of integers, a list of strings. New
records are put in front; a record that exists is written in place, through the pointer that
`addentry_string` returns. Keys are compared with `strcasecmp`.

Memory is taken to be there, and the strings that a caller passes are not the store's own.
-/

set_option autoImplicit false
set_option relaxedAutoImplicit false

namespace Katmai.SysConf

open Foundation

/-- The characters of a C string. -/
abbrev Str := List Char

/-! ### Functions of the C library -/

/-- What `strcasecmp` compares: the string with its letters in lower case. -/
def foldCase (s : Str) : Str :=
  s.map Char.toLower

/-- `isspace`. -/
def isSpace (c : Char) : Bool :=
  c = ' ' ∨ c = '\t' ∨ c = '\n' ∨ c = '\x0b' ∨ c = '\x0c' ∨ c = '\r'

/-- The value of the digits at the front of a string. -/
def digitsValue (s : Str) : ℕ :=
  (s.takeWhile Char.isDigit).foldl (fun n c ↦ 10 * n + (c.toNat - '0'.toNat)) 0

/-- `strtol (s, NULL, 10)`: blanks, a sign, digits; a value outside `long` becomes the bound it
passes. -/
def strtol (s : Str) : ℤ :=
  match s.dropWhile isSpace with
  | '-' :: digits => max (-(digitsValue digits : ℤ)) (-2 ^ 63)
  | '+' :: digits => min (digitsValue digits : ℤ) (2 ^ 63 - 1)
  | digits => min (digitsValue digits : ℤ) (2 ^ 63 - 1)

/-- `atoi`, which is `(int) strtol`. -/
def atoi (s : Str) : ℤ :=
  (strtol s).bmod (2 ^ 32)

/-! ### Records -/

/-- `struct sysconf_entry_t`. `none` is a `NULL` pointer. -/
structure SysconfEntry where
  key : Str
  ivalue : ℤ
  value : Option Str
  list : Option (List ℤ)
  slist : Option (List (Option Str))
  deriving DecidableEq

/-- The letters of a record's key do not count. -/
def SysconfEntry.folded (entry : SysconfEntry) : Str :=
  foldCase entry.key

/-- The list of records, from `sysconf_entry.next` on, and `sysconf_key_pointer`. A pointer to a
record is the number of records from it to the end, which does not change when others are put in
front. -/
structure Sysconf where
  entries : List SysconfEntry
  keyPointer : Option ℕ
  deriving DecidableEq

/-- The store when the program starts. -/
def Sysconf.empty : Sysconf :=
  ⟨[], none⟩

/-- `sysconf_ptr`: the record of a key, by its position in the list. -/
def sysconfPtr (conf : Sysconf) (key : Str) : Option ℕ :=
  position SysconfEntry.folded (foldCase key) conf.entries

/-- The record `sysconf_ptr` finds. -/
def sysconfEntry (conf : Sysconf) (key : Str) : Option SysconfEntry := do
  let i ← sysconfPtr conf key
  conf.entries[i]?

/-! ### Reading -/

/-- `sysconf_str` (`getstr`). -/
def sysconfStr (conf : Sysconf) (key : Str) : Option Str :=
  match sysconfEntry conf key with
  | some entry => entry.value
  | none => none

/-- `sysconf_int` (`getint`). -/
def sysconfInt (conf : Sysconf) (key : Str) : ℤ :=
  match sysconfEntry conf key with
  | some entry => entry.ivalue
  | none => -1

/-- `sysconf_get_int_list` (`intlist`): the list, and what is stored in `*len`. -/
def sysconfGetIntList (conf : Sysconf) (key : Str) : Option (List ℤ) × ℤ :=
  match sysconfEntry conf key with
  | some entry => (entry.list, entry.ivalue)
  | none => (none, 0)

/-- `sysconf_get_str_list` (`strlist`): the list, and what is stored in `*len`. -/
def sysconfGetStrList (conf : Sysconf) (key : Str) : Option (List (Option Str)) × ℤ :=
  match sysconfEntry conf key with
  | some entry => (entry.slist, entry.ivalue)
  | none => (none, 0)

/-- The record a key pointer points to. -/
def Sysconf.entryAt (conf : Sysconf) (pointer : ℕ) : Option SysconfEntry :=
  conf.entries[conf.entries.length - pointer]?

/-- `sysconf_get_first_key` (`first_key`). -/
def sysconfGetFirstKey (conf : Sysconf) : Option Str × Sysconf :=
  let pointer := if conf.entries = [] then none else some conf.entries.length
  match pointer with
  | none => (none, { conf with keyPointer := none })
  | some p => ((conf.entryAt p).map SysconfEntry.key, { conf with keyPointer := some p })

/-- `sysconf_get_next_key` (`next_key`). -/
def sysconfGetNextKey (conf : Sysconf) : Option Str × Sysconf :=
  match conf.keyPointer with
  | none => (none, conf)
  | some pointer =>
    if pointer - 1 = 0 then (none, { conf with keyPointer := none })
    else ((conf.entryAt (pointer - 1)).map SysconfEntry.key,
      { conf with keyPointer := some (pointer - 1) })

/-! ### Writing -/

/-- `strip_qstring`: what follows the first character, up to 4095 characters, without the last. -/
def stripQstring (qst : Str) : Str :=
  ((qst.drop 1).take 4095).dropLast

/-- What `addentry_string` makes of its second argument. -/
def storedString : Option Str → Option Str
  | none => none
  | some value =>
    if value.head? = some '"' then
      if (stripQstring value).length = 0 then none else some (stripQstring value)
    else some value

/-- `addentry_string`: the position of the record that is now the key's, and the store. -/
def addentryString (conf : Sysconf) (entry : Str) (value : Option Str) : ℕ × Sysconf :=
  let reset (ptr : SysconfEntry) : SysconfEntry :=
    { ptr with value := storedString value, ivalue := -1, list := none, slist := none }
  match sysconfPtr conf entry with
  | none =>
    let ptr := reset { key := entry, ivalue := 0, value := none, list := none, slist := none }
    (0, { conf with entries := ptr :: conf.entries })
  | some i => (i, { conf with entries := conf.entries.modify i reset })

/-- `addentry_string (key, NULL)`, and then stores through the pointer it returns. -/
def addentryWith (conf : Sysconf) (key : Str) (f : SysconfEntry → SysconfEntry) : Sysconf :=
  let (i, conf) := addentryString conf key none
  { conf with entries := conf.entries.modify i f }

/-- `addentry_int` (`addint_x`). -/
def addentryInt (conf : Sysconf) (entry : Str) (value : ℤ) : Sysconf :=
  addentryWith conf entry fun ptr ↦ { ptr with ivalue := value }

/-- `addentry_integer` (`addint`). -/
def addentryInteger (conf : Sysconf) (entry value : Str) : Sysconf :=
  addentryInt conf entry (atoi value)

/-- `addentry_flag_on` (`addflag_on`). -/
def addentryFlagOn (conf : Sysconf) (entry : Str) : Sysconf :=
  addentryWith conf entry fun ptr ↦ { ptr with ivalue := 1 }

/-- `addentry_flag_off` (`addflag_off`). -/
def addentryFlagOff (conf : Sysconf) (entry : Str) : Sysconf :=
  addentryWith conf entry fun ptr ↦ { ptr with ivalue := 0 }

/-- `addentry_intlist` (`add_int_list`). -/
def addentryIntlist (conf : Sysconf) (key : Str) (list : Option (List ℤ)) (len : ℤ) : Sysconf :=
  addentryWith conf key fun ptr ↦ { ptr with ivalue := len, list := list }

/-- `addentry_strlist` (`add_str_list`). -/
def addentryStrlist (conf : Sysconf) (key : Str) (list : Option (List (Option Str))) (len : ℤ) :
    Sysconf :=
  addentryWith conf key fun ptr ↦ { ptr with ivalue := len, slist := list }

/-- A call that writes the store. -/
inductive AddCall where
  | addint (key value : Str)
  | addintX (key : Str) (value : ℤ)
  | addstr (key : Str) (value : Option Str)
  | addflagOn (key : Str)
  | addflagOff (key : Str)
  | addIntList (key : Str) (list : Option (List ℤ)) (len : ℤ)
  | addStrList (key : Str) (list : Option (List (Option Str))) (len : ℤ)
  deriving DecidableEq

/-- A call through the function pointers of `struct sysconf_t`. -/
def addCall (conf : Sysconf) : AddCall → Sysconf
  | .addint key value => addentryInteger conf key value
  | .addintX key value => addentryInt conf key value
  | .addstr key value => (addentryString conf key value).2
  | .addflagOn key => addentryFlagOn conf key
  | .addflagOff key => addentryFlagOff conf key
  | .addIntList key list len => addentryIntlist conf key list len
  | .addStrList key list len => addentryStrlist conf key list len

end Katmai.SysConf
