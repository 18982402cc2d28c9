import Katmai.Foundation.LinkedCells
import Katmai.Foundation.TextLines

/-!
# POP3-Agent: the list of servers

`read_config` releases the list and builds it again from the lines of the configuration file, each
cut up in place by `chomp`, `trim` and `split_2`. The next entry is put where `ptr` points to: at
`svlist` or at the link of the last entry (`LinkPtr`). `do_service` walks along the list and
follows, whether it has found an entry or not, the pointer at which the walk ends
(`selectServer`). The compiled patterns are those of the regular expression library.
-/

set_option autoImplicit false
set_option relaxedAutoImplicit false

namespace Katmai.SslLib

open Foundation

variable {Preg : Type}

/-! ### Lines -/

def isLineEnd (c : Char) : Bool :=
  c == '\r' || c == '\n'

/-- `is_blank` -/
def isBlank (c : Char) : Bool :=
  c == ' ' || c == '\t'

/-- `chomp` -/
def chomp (buf : List Char) : List Char :=
  trimRight isLineEnd buf buf.length

/-- `trim` -/
def trim (buf : List Char) : List Char :=
  let buf := trimRight isBlank buf buf.length
  let j := (buf.findIdx? fun c ↦ !isBlank c).getD 0
  if j ≠ 0 then buf.drop j else buf

/-- `stage` in `split_2`, from `0` to `3`. -/
inductive Stage
  | before
  | first
  | between
  | second
  deriving DecidableEq

/-- The variables of `split_2`; `p1` and `p2` are not set at first. -/
structure Split where
  buf : List Char
  p1 : Option ℕ
  p2 : Option ℕ
  stage : Stage

/-- The body of the loop of `split_2`, for `buf[i]` and `i`. -/
def Split.step (s : Split) (at_i : Char × ℕ) : Split :=
  let blank := isBlank at_i.1
  match s.stage with
  | .before => if !blank then { s with p1 := some at_i.2, stage := .first } else s
  | .first => if blank then { s with buf := s.buf.set at_i.2 '\x00', stage := .between } else s
  | .between => if !blank then { s with p2 := some at_i.2, stage := .second } else s
  | .second => if blank then { s with buf := s.buf.set at_i.2 '\x00' } else s

/-- The strings at `p1` and `p2`, if the last stage is reached. -/
def Split.strings (s : Split) : Option (List Char × List Char) :=
  if s.stage = .second then do
    let p1 ← s.p1
    let p2 ← s.p2
    some (cString (s.buf.drop p1), cString (s.buf.drop p2))
  else none

/-- `split_2`, with the strings that are found if it returns `1`. -/
def split2 (buf : List Char) : Option (List Char × List Char) :=
  (buf.zipIdx.foldl Split.step { buf := buf, p1 := none, p2 := none, stage := .before }).strings

/-- What a line of the file says: a pattern, a server and whether SSL is used. -/
structure Entry where
  user : List Char
  server : List Char
  useSsl : Bool
  deriving DecidableEq

/-- The protocol behind the colon; another one than these is not known. -/
def protocolSsl (pp : List Char) : Option Bool :=
  if pp = [] then some true
  else if pp.map Char.toLower = "pop3".toList then some false
  else if pp.map Char.toLower = "pop3s".toList then some true
  else none

/-- The strings of `split_2` as an entry; the second one is cut at a colon. -/
def splitEntry (p1 p2 : List Char) : Option Entry :=
  match p2.findIdx? (· == ':') with
  | none => some { user := p1, server := p2, useSsl := true }
  | some pp =>
    (protocolSsl (p2.drop (pp + 1))).map fun useSsl ↦
      { user := p1, server := p2.take pp, useSsl := useSsl }

/-- The part of the loop of `read_config` before `malloc`; `none` stands for `continue`. -/
def configEntry (buf : List Char) : Option Entry :=
  let buf := trim (chomp (cString buf))
  if buf[0]? = some '#' || buf[0]? = some ';' || buf[0]? = none then none
  else (split2 buf).bind fun p ↦ splitEntry p.1 p.2

/-! ### The list -/

/-- `struct server_list_t` -/
structure ServerNode (Preg : Type) where
  entry : Entry
  preg : Preg
  next : Option ℕ

/-- The memory of the entries, with `svlist`. -/
structure ServerList (Preg : Type) where
  cells : Cells (ServerNode Preg)
  svlist : Option ℕ

/-- The list before `read_config` is called. -/
def ServerList.empty : ServerList Preg where
  cells := []
  svlist := none

/-- What `ptr` points to: `svlist`, or the field `next` of an entry. -/
inductive LinkPtr
  | svlist
  | next (a : ℕ)

/-- `*ptr = p` -/
def ServerList.store (self : ServerList Preg) (ptr : LinkPtr) (p : ℕ) :
    Option (ServerList Preg) :=
  match ptr with
  | .svlist => some { self with svlist := some p }
  | .next a =>
    (self.cells.update (some a) fun node ↦ { node with next := some p }).map fun cells ↦
      { self with cells := cells }

/-- The part of the loop of `read_config` from `malloc` on. The program ends where the pattern does
not compile. -/
def addEntry (regcomp : List Char → Option Preg) (state : ServerList Preg × LinkPtr)
    (entry : Entry) : Option (ServerList Preg × LinkPtr) := do
  let preg ← regcomp entry.user
  let p := state.1.cells.length
  let node := { entry := entry, preg := preg, next := none }
  let self ← { state.1 with cells := state.1.cells.alloc node }.store state.2 p
  some (self, .next p)

/-- The loop of `read_config`. -/
def configLine (regcomp : List Char → Option Preg) (state : ServerList Preg × LinkPtr)
    (buf : List Char) : Option (ServerList Preg × LinkPtr) :=
  match configEntry buf with
  | none => some state
  | some entry => addEntry regcomp state entry

/-- `read_config`, on the contents of the file, if it can be opened. -/
def readConfig (regcomp : List Char → Option Preg) (self : ServerList Preg)
    (file : Option (List Char)) : Option (ServerList Preg) := do
  let cells ← releaseAll ServerNode.next (self.cells.length + 1) self.cells self.svlist
  let self := { cells := cells, svlist := none }
  match file with
  | none => some self
  | some text =>
    ((fgetsLines 511 text).foldlM (configLine regcomp) (self, .svlist)).map Prod.fst

/-! ### The selection -/

/-- `popserver`, before it is set to another server. -/
def defaultServer : List Char :=
  "dove.cc.ncu.edu.tw".toList

/-- The part of `do_service` from `p = svlist` on: `popserver` and `p->use_ssl`, which is read
before the connection is made and in the same way behind. There is no result where `p` is null. -/
def selectServer (regexec : Preg → List Char → Bool) (self : ServerList Preg) (user : List Char) :
    Option (List Char × Bool) := do
  let p ← seek ServerNode.next (fun node ↦ regexec node.preg user) self.cells
    (self.cells.length + 1) self.svlist
  let popserver ←
    if p.isSome then (self.cells.load p).map fun node ↦ node.entry.server
    else some defaultServer
  let node ← self.cells.load p
  some (popserver, node.entry.useSsl)

end Katmai.SslLib
