import Katmai.Foundation.EventRun
import Mathlib.Data.Int.Notation
import Mathlib.Data.List.Nodup

/-!
# A regular expression and the strings of its groups

An object holds a compiled pattern and an array with the text of each group. Blocks of memory have
numbers: `released` lists those that were passed to `free`, and a pointer keeps the number of its
block when the block is released. `regcomp` and `regexec` are parameters; which allocation of
`rlRegex` fails is an argument, the other allocations are taken to succeed.
-/

set_option autoImplicit false
set_option relaxedAutoImplicit false

namespace Katmai.Regexlib

/-- `regcomp` gives the number of groups of a pattern, `regexec` the start and the end of each
group that takes part in a match. -/
structure Posix where
  regcomp : List Char → Option ℕ
  regexec : List Char → List Char → Option (ℕ → Option (ℕ × ℕ))

/-- A string that an element of `mstr` points to. -/
structure MatchString where
  id : ℕ
  text : List Char
  deriving DecidableEq

/-- `struct regexlib_private_data`: the numbers of the blocks that `regex`, `pmatch` and `mstr`
point to, the pattern and the number of groups in `preg`, and the elements of the array. -/
structure RegexlibT where
  regex : Option ℕ
  havePreg : Bool
  preg : List Char
  nsub : ℕ
  pmatch : Option ℕ
  mstr : Option ℕ
  mstrlen : ℕ
  strings : List (Option MatchString)
  next : ℕ
  released : List ℕ
  deriving DecidableEq

/-- `new_regex_lib` -/
def newRegexLib : RegexlibT where
  regex := none
  havePreg := false
  preg := []
  nsub := 0
  pmatch := none
  mstr := none
  mstrlen := 0
  strings := []
  next := 0
  released := []

/-- The blocks of the elements of an array. -/
def stringIds (strings : List (Option MatchString)) : List ℕ :=
  strings.filterMap fun entry ↦ entry.map MatchString.id

/-- `rl_cleanup`; `mstr` is the one pointer that is not set to `NULL`. -/
def rlCleanup (self : RegexlibT) : RegexlibT :=
  let self :=
    match self.mstr with
    | none => self
    | some id =>
      { self with
        mstrlen := 0
        released := self.released ++ (stringIds (self.strings.take self.mstrlen) ++ [id]) }
  { self with
    regex := none
    pmatch := none
    havePreg := false
    released := self.released ++ (self.regex.toList ++ self.pmatch.toList) }

/-- Which allocation of `rl_regex` fails. -/
inductive Memory
  | enough
  | noPmatch
  | noMstr
  deriving DecidableEq

/-- `rl_regex` -/
def rlRegex (posix : Posix) (self : RegexlibT) (str : List Char) (memory : Memory) :
    ℤ × RegexlibT :=
  let self := rlCleanup self
  match posix.regcomp str with
  | none => (-1, self)
  | some nsub =>
    let n := nsub + 1
    let self := { self with preg := str, nsub := nsub }
    match memory with
    | .noPmatch => (-1, rlCleanup { self with pmatch := none })
    | .noMstr =>
      (-1, rlCleanup { self with pmatch := some self.next, mstr := none, next := self.next + 1 })
    | .enough =>
      (n,
        { self with
          pmatch := some self.next
          mstr := some (self.next + 1)
          mstrlen := n
          strings := List.replicate n none
          regex := some (self.next + 2)
          havePreg := true
          next := self.next + 3 })

/-- The text of a group. -/
def groupText (str : List Char) (group : ℕ × ℕ) : List Char :=
  (str.drop group.1).take (group.2 - group.1)

/-- A new string for group `i`. The string that was there is not released: `free` is called only
where the pointer is `NULL`. -/
def storeGroup (str : List Char) (i : ℕ) (group : ℕ × ℕ) (self : RegexlibT) : RegexlibT :=
  { self with
    strings := self.strings.set i (some { id := self.next, text := groupText str group })
    next := self.next + 1 }

/-- The loop of `rl_exec` from group `i` on, with `n` groups to come. -/
def execGroups (str : List Char) (groups : ℕ → Option (ℕ × ℕ)) : ℕ → ℕ → RegexlibT → RegexlibT
  | 0, _, self => self
  | n + 1, i, self =>
    match groups i with
    | none => execGroups str groups n (i + 1) self
    | some group => execGroups str groups n (i + 1) (storeGroup str i group self)

/-- `rl_exec` -/
def rlExec (posix : Posix) (self : RegexlibT) (str : List Char) : ℤ × RegexlibT :=
  if !self.havePreg then (0, self)
  else
    match posix.regexec self.preg str with
    | none => (0, self)
    | some groups =>
      let n := self.nsub + 1
      (n, execGroups str groups n 0 self)

/-- `rl_var` -/
def rlVar (self : RegexlibT) (n : ℤ) : Option (List Char) :=
  if n < 0 ∨ n ≥ self.mstrlen then none
  else if self.mstr = none then none
  else (self.strings[n.toNat]?.join).map MatchString.text

inductive Call
  | regex (str : List Char) (memory : Memory)
  | exec (str : List Char)
  | cleanup
  deriving DecidableEq

def step (posix : Posix) (self : RegexlibT) : Call → Option RegexlibT
  | .regex str memory => some (rlRegex posix self str memory).2
  | .exec str => some (rlExec posix self str).2
  | .cleanup => some (rlCleanup self)

/-! ### Blocks that an object owns -/

variable {self : RegexlibT} {posix : Posix} {str : List Char}

/-- The blocks that `rl_cleanup` releases. -/
def owned (self : RegexlibT) : List ℕ :=
  (self.mstr.elim [] fun id ↦ stringIds (self.strings.take self.mstrlen) ++ [id]) ++
    (self.regex.toList ++ self.pmatch.toList)

theorem released_rlCleanup (self : RegexlibT) :
    (rlCleanup self).released = self.released ++ owned self := by
  cases hmstr : self.mstr with
  | none => simp [rlCleanup, owned, hmstr]
  | some id => simp [rlCleanup, owned, hmstr]

/-- Nothing is compiled, and nothing is there to be released but what `mstr` points to. -/
structure Idle (lib : RegexlibT) : Prop where
  regex : lib.regex = none
  pmatch : lib.pmatch = none
  havePreg : lib.havePreg = false
  mstrlen : lib.mstrlen = 0

/-- A pattern is compiled, and each block is the object's own. -/
structure Ready (lib : RegexlibT) : Prop where
  havePreg : lib.havePreg = true
  mstr : lib.mstr ≠ none
  mstrlen : lib.mstrlen = lib.nsub + 1
  length_strings : lib.strings.length = lib.mstrlen
  nodup : (lib.released ++ owned lib).Nodup
  owned_lt : ∀ id ∈ owned lib, id < lib.next

/-- What holds of every object whose blocks were released at most once. -/
structure Sound (lib : RegexlibT) : Prop where
  released_nodup : lib.released.Nodup
  released_lt : ∀ id ∈ lib.released, id < lib.next
  shape : Ready lib ∨ Idle lib ∧ ∀ id ∈ lib.mstr, id ∈ lib.released

theorem Idle.owned_eq (hidle : Idle self) : owned self = self.mstr.toList := by
  rw [owned, hidle.regex, hidle.pmatch, hidle.mstrlen]
  cases self.mstr <;> rfl

theorem sound_newRegexLib : Sound newRegexLib where
  released_nodup := List.nodup_nil
  released_lt _ hid := absurd hid List.not_mem_nil
  shape := .inr ⟨⟨rfl, rfl, rfl, rfl⟩, fun _ hid ↦ by cases hid⟩

/-! ### Cleaning up -/

theorem idle_rlCleanup (hlen : self.mstr = none → self.mstrlen = 0) : Idle (rlCleanup self) where
  regex := rfl
  pmatch := rfl
  havePreg := rfl
  mstrlen := by
    cases hmstr : self.mstr with
    | none => simp [rlCleanup, hmstr, hlen hmstr]
    | some id => simp [rlCleanup, hmstr]

theorem mstr_rlCleanup (self : RegexlibT) : (rlCleanup self).mstr = self.mstr := by
  cases hmstr : self.mstr <;> simp [rlCleanup, hmstr]

theorem next_rlCleanup (self : RegexlibT) : (rlCleanup self).next = self.next := by
  cases hmstr : self.mstr <;> simp [rlCleanup, hmstr]

end Katmai.Regexlib
