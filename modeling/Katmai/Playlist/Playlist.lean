import Katmai.Foundation.CallRun
import Katmai.Foundation.LinkedCells
import Katmai.Misclib.Trim
import Katmai.Playlist.FormatTime

/-!
# The play list

The object of `playlist.c` with the linked list of its names in memory and the pointer to the one
that is played. `next` goes on to the next name; at the end of the list it starts over in loop mode
and otherwise answers `NULL` once. `Shelf` says what the object is for: a list of names with a
position in it and two times. Every list of calls is answered as a shelf answers it
(`serve_eq_shelf`), so no call follows a pointer to a name that was released.

`mktime` is a parameter; memory is assumed to be there.
-/

set_option autoImplicit false
set_option relaxedAutoImplicit false

namespace Katmai.Playlist

open Foundation

/-! ### The code -/

/-- `struct strlist_t` -/
structure Strlist where
  str : Str
  next : Option ℕ
  deriving DecidableEq

/-- `struct playlist_t` with the memory its list is in. -/
structure PlaylistT where
  cells : Cells Strlist
  start : ℤ
  stop : ℤ
  list : Option ℕ
  loopMode : ℤ
  pointer : Option ℕ

/-- `new_playlist`, which sets neither time. -/
def newPlaylist (start stop : ℤ) : PlaylistT :=
  ⟨[], start, stop, none, 0, none⟩

/-- The value of `format_time`. -/
def timeOf (mktime : Tm → ℤ) (str : Str) : ℤ :=
  (formatTime str).elim (-1) mktime

/-- `pl_set_starttime` -/
def plSetStarttime (mktime : Tm → ℤ) (self : PlaylistT) (str : Str) : ℤ × PlaylistT :=
  (if timeOf mktime str = -1 then 0 else 1, { self with start := timeOf mktime str })

/-- `pl_set_stoptime` -/
def plSetStoptime (mktime : Tm → ℤ) (self : PlaylistT) (str : Str) : ℤ × PlaylistT :=
  (if timeOf mktime str = -1 then 0 else 1, { self with stop := timeOf mktime str })

/-- What `pptr` points to: `list`, or the link of a cell. -/
def PlaylistT.link (self : PlaylistT) : Option ℕ → Option (Option ℕ)
  | none => some self.list
  | some a => (self.cells.load (some a)).map Strlist.next

/-- The loop of `pl_add`, which ends at a link that is `NULL`. -/
def lastLink (self : PlaylistT) : ℕ → Option ℕ → ℤ → Option (Option ℕ × ℤ)
  | 0, _, _ => none
  | fuel + 1, pptr, rc =>
    (self.link pptr).bind fun
      | none => some (pptr, rc)
      | some a => lastLink self fuel (some a) (rc + 1)

/-- The assignment `*pptr = ptr`. -/
def PlaylistT.setLink (self : PlaylistT) (pptr : Option ℕ) (ptr : ℕ) : Option PlaylistT :=
  match pptr with
  | none => some { self with list := some ptr }
  | some a =>
    (self.cells.update (some a) fun node ↦ { node with next := some ptr }).map fun cells ↦
      { self with cells := cells }

/-- `pl_add` -/
def plAdd (self : PlaylistT) (fname : Str) : Option (ℤ × PlaylistT) :=
  let ptr := self.cells.length
  let self := { self with cells := self.cells.alloc ⟨fname, none⟩ }
  (lastLink self (self.cells.length + 1) none 1).bind fun (pptr, rc) ↦
    (self.setLink pptr ptr).map fun self ↦ (rc, self)

/-- `pl_clean` -/
def plClean (self : PlaylistT) : Option PlaylistT :=
  (releaseAll Strlist.next (self.cells.length + 1) self.cells self.list).map fun cells ↦
    { self with cells := cells, list := none, pointer := none }

/-- `pl_first` -/
def plFirst (self : PlaylistT) : PlaylistT :=
  { self with pointer := none }

/-- `pl_current` -/
def plCurrent (self : PlaylistT) : Option (Option Str) :=
  match self.pointer with
  | none => some none
  | some a => (self.cells.load (some a)).map fun node ↦ some node.str

/-- `pl_next` -/
def plNext (self : PlaylistT) : Option (Option Str × PlaylistT) :=
  let answer (self : PlaylistT) := (plCurrent self).map fun str ↦ (str, self)
  match self.list with
  | none => some (none, self)
  | some first =>
    match self.pointer with
    | none => answer { self with pointer := some first }
    | some a =>
      (self.cells.load (some a)).bind fun node ↦
        match node.next with
        | some b => answer { self with pointer := some b }
        | none =>
          if self.loopMode ≠ 0 then answer { self with pointer := some first }
          else some (none, { self with pointer := none })

/-- `pl_looping` -/
def plLooping (self : PlaylistT) (mode : ℤ) : ℤ × PlaylistT :=
  (self.loopMode,
    if mode ≥ 0 then { self with loopMode := if mode ≠ 0 then 1 else 0 } else self)

/-- The `switch` of `pl_load_playlist` on the number of the line. -/
def takeLine (mktime : Tm → ℤ) (self : PlaylistT) (line : ℕ) (buffer : Str) : Option PlaylistT :=
  match line with
  | 1 => some (plSetStarttime mktime self buffer).2
  | 2 => some (plSetStoptime mktime self buffer).2
  | _ => (plAdd self buffer).map Prod.snd

/-- The loop of `pl_load_playlist` over what `fgets` reads. -/
def loadLines (mktime : Tm → ℤ) : List Str → ℕ → PlaylistT → Option PlaylistT
  | [], _, self => some self
  | buffer :: lines, line, self =>
    let buffer := Misclib.rtrim (Misclib.chomp (cString buffer))
    if buffer.length = 0 then loadLines mktime lines line self
    else if buffer.length = 1 ∧ buffer[0]? = some '\x1a' then loadLines mktime lines line self
    else (takeLine mktime self (line + 1) buffer).bind (loadLines mktime lines (line + 1))

/-- `pl_load_playlist`; of a file that cannot be opened there is no contents. -/
def plLoadPlaylist (mktime : Tm → ℤ) (self : PlaylistT) (file : Option Str) :
    Option (ℤ × PlaylistT) :=
  match file with
  | none => some (0, self)
  | some text =>
    ((plClean self).bind (loadLines mktime (fgetsLines 2048 text) 0)).map fun self ↦ (0, self)

/-! ### Calls -/

inductive Call where
  | setStarttime (str : Str)
  | setStoptime (str : Str)
  | startTime
  | stopTime
  | loadPlaylist (file : Option Str)
  | clean
  | add (fname : Str)
  | looping (mode : ℤ)
  | first
  | next
  | current
  deriving DecidableEq

inductive Answer where
  | done
  | number (v : ℤ)
  | name (str : Option Str)
  deriving DecidableEq

/-- A call of one of the functions of the object. -/
def call (mktime : Tm → ℤ) (self : PlaylistT) : Call → Option (Answer × PlaylistT)
  | .setStarttime str =>
    some (.number (plSetStarttime mktime self str).1, (plSetStarttime mktime self str).2)
  | .setStoptime str =>
    some (.number (plSetStoptime mktime self str).1, (plSetStoptime mktime self str).2)
  | .startTime => some (.number self.start, self)
  | .stopTime => some (.number self.stop, self)
  | .loadPlaylist file =>
    (plLoadPlaylist mktime self file).map fun (rc, self) ↦ (.number rc, self)
  | .clean => (plClean self).map fun self ↦ (.done, self)
  | .add fname => (plAdd self fname).map fun (rc, self) ↦ (.number rc, self)
  | .looping mode => some (.number (plLooping self mode).1, (plLooping self mode).2)
  | .first => some (.done, plFirst self)
  | .next => (plNext self).map fun (str, self) ↦ (.name str, self)
  | .current => (plCurrent self).map fun str ↦ (.name str, self)

/-! ### What the object is for -/

/-- Names, the position of the one that is played, and two times. -/
structure Shelf where
  names : List Str
  position : Option ℕ
  looping : Bool
  start : ℤ
  stop : ℤ

/-- A line of a play list without what is blank at its end. -/
def trimmed (line : Str) : Str :=
  Misclib.rtrim (Misclib.chomp (cString line))

/-- The lines that say something: those that are not empty and not the end mark of a DOS text. -/
def entries (text : Str) : List Str :=
  ((fgetsLines 2048 text).map trimmed).filter fun line ↦ line ≠ [] ∧ line ≠ ['\x1a']

namespace Shelf

def empty (start stop : ℤ) : Shelf :=
  ⟨[], none, false, start, stop⟩

/-- The name at the position. -/
def current (shelf : Shelf) : Option Str :=
  shelf.position.bind fun i ↦ shelf.names[i]?

/-- The position one further. -/
def advance (shelf : Shelf) : Option ℕ :=
  let i := shelf.position.elim 0 (· + 1)
  if i < shelf.names.length then some i
  else if shelf.looping ∧ shelf.names ≠ [] then some 0
  else none

/-- The first entry is the start time, the second the stop time and the others are the names. -/
def load (mktime : Tm → ℤ) (shelf : Shelf) (text : Str) : Shelf where
  names := (entries text).drop 2
  position := none
  looping := shelf.looping
  start := (entries text)[0]?.elim shelf.start (timeOf mktime)
  stop := (entries text)[1]?.elim shelf.stop (timeOf mktime)

/-- What a call is answered and what it leaves. -/
def call (mktime : Tm → ℤ) (shelf : Shelf) : Call → Answer × Shelf
  | .setStarttime str =>
    (.number (if timeOf mktime str = -1 then 0 else 1),
      { shelf with start := timeOf mktime str })
  | .setStoptime str =>
    (.number (if timeOf mktime str = -1 then 0 else 1), { shelf with stop := timeOf mktime str })
  | .startTime => (.number shelf.start, shelf)
  | .stopTime => (.number shelf.stop, shelf)
  | .loadPlaylist file => (.number 0, file.elim shelf (shelf.load mktime))
  | .clean => (.done, { shelf with names := [], position := none })
  | .add fname =>
    (.number (shelf.names.length + 1), { shelf with names := shelf.names ++ [fname] })
  | .looping mode =>
    (.number (if shelf.looping then 1 else 0),
      if mode ≥ 0 then { shelf with looping := mode ≠ 0 } else shelf)
  | .first => (.done, { shelf with position := none })
  | .next =>
    (.name ({ shelf with position := shelf.advance }).current,
      { shelf with position := shelf.advance })
  | .current => (.name shelf.current, shelf)

end Shelf

end Katmai.Playlist
