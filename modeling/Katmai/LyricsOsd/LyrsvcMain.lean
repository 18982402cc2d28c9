import Mathlib.Data.Int.Notation
import Mathlib.Data.Nat.Notation

/-!
# The thread that draws the lyrics

The loop of `lyrsvc_main` draws two lines at once. In each round it reads the clock and takes each
line one step further (`lineStep`): the line waits for its time, then its parts are set up one after
the other (`prepare`) and drawn over from left to right (`stroke`). An access to an entry of `time`
or `jump` that does not exist has no result, and neither has a division by a time difference that is
zero. What is drawn where on the screen is not part of the model.
-/

set_option autoImplicit false
set_option relaxedAutoImplicit false

namespace Katmai.LyricsOsd

/-! ### Records -/

/-- The fields of `struct koklib_lyricspara_t` that the thread reads. -/
structure LyricsPara where
  division : ℕ
  time : Vector Int32 25
  jump : Vector Int8 25
  division_le : division ≤ 24

/-- What the size of the letters gives: the width `fw`, and the rounded quotient of a width, a time
and `osd_constant`. -/
structure Font where
  fw : ℤ
  round : ℤ → Int32 → ℤ

/-- `init_step` -/
def Font.initStep (font : Font) : ℤ :=
  font.fw.tdiv 3

/-- `prepare_time` -/
def prepareTime : Int32 :=
  280

/-- `old_lyr_clear_time` -/
def oldLyrClearTime : ℕ :=
  20

/-! ### One line -/

/-- `state[i]`, from `0` to `2`. -/
inductive LineState
  | waiting
  | preparing
  | drawing
  deriving DecidableEq

/-- The variables of one of the two lines. `later` is what `kok->get` has not returned yet. -/
structure Line where
  lyr : Option LyricsPara
  later : List LyricsPara
  state : LineState
  ii : ℕ
  division : ℕ
  range0 : ℤ
  range1 : ℤ
  fromX : ℤ
  toX : ℤ
  step : ℤ
  lstop : Bool

/-- What a step of a line does to the variables that the lines share. -/
inductive Signal
  | nothing
  | update
  | clear
  | ended (first : Bool)

/-- `step[i]`, unless the times are the same. -/
def stepWidth (font : Font) (width : ℤ) (later earlier : Int32) : Option ℤ :=
  let difference := later - earlier
  if difference = 0 then none
  else
    let step := font.round width difference
    some (if step < 1 then 1 else step)

/-- The loop over `j`, with `n` values of `ii[i] + j` left below `division[i]`. -/
def skipParts (para : LyricsPara) (ii : ℕ) : ℕ → ℕ → Option ℕ
  | 0, j => some j
  | n + 1, j => do
    let later ← para.time[ii + j]?
    let earlier ← para.time[ii]?
    if later ≤ earlier then skipParts para ii n (j + 1) else some j

/-- The part of case `1` that sets up the next part of the line. -/
def prepare (font : Font) (para : LyricsPara) (l : Line) : Option Line := do
  let left ← para.jump[l.ii]?
  let right ← para.jump[l.ii + 1]?
  let range0 := left.toInt * font.fw
  let range1 := right.toInt * font.fw
  let later ← para.time[l.ii + 1]?
  let earlier ← para.time[l.ii]?
  if later > earlier then do
    let step ← stepWidth font (range1 - range0) later earlier
    some { l with
      state := .drawing, range0 := range0, range1 := range1, fromX := range0, step := step
      toX := range0 + if step < font.initStep then font.initStep else step }
  else do
    let past ← skipParts para l.ii (l.division - (l.ii + 2)) 2
    let j := past - 1
    let r ← para.jump[l.ii + j]?
    let stop ← para.jump[l.ii + j + 1]?
    let r := r.toInt * font.fw
    let range1 := stop.toInt * font.fw
    let later ← para.time[l.ii + j + 1]?
    let earlier ← para.time[l.ii + j]?
    let step ← stepWidth font (range1 - r) later earlier
    some { l with
      state := .drawing, ii := l.ii + j, range0 := range0, range1 := range1, fromX := range0
      step := step
      toX := range0 + (if step < font.initStep then font.initStep else step) + (r - range0) }

/-- Case `2`. -/
def stroke (l : Line) : Line × Signal :=
  let toX := if l.toX > l.range1 then l.range1 else l.toX
  if l.fromX < l.range1 then
    ({ l with fromX := toX, toX := toX + l.step }, .update)
  else
    ({ l with ii := l.ii + 1, state := .preparing, fromX := toX, toX := toX + l.step }, .nothing)

/-- The body of the loop over `i`, at the time `tm`. -/
def lineStep (font : Font) (tm : Int32) (l : Line) : Option (Line × Signal) :=
  match l.state with
  | .waiting =>
    match l.lyr with
    | none => some ({ l with lstop := true }, .ended (!l.lstop))
    | some para => do
      let start ← para.time[0]?
      if start * 100 - 2500 ≤ tm then
        some ({ l with
          state := .preparing, division := para.division, ii := 0, range0 := 0, range1 := 0
          fromX := 0, toX := 0 }, .update)
      else some (l, .nothing)
  | .preparing =>
    if l.ii ≥ l.division then
      some ({ l with state := .waiting, lyr := l.later.head?, later := l.later.tail }, .clear)
    else do
      let para ← l.lyr
      let time ← para.time[l.ii]?
      if time * 100 - prepareTime > tm then some (l, .nothing)
      else (prepare font para l).map stroke
  | .drawing => some (stroke l)

/-! ### Both lines -/

/-- The variables of both lines together. -/
structure Shared where
  tcnt : ℕ
  update : Bool
  clear : ℕ
  terminate : Bool

def Shared.signal (s : Shared) : Signal → Shared
  | .nothing => s
  | .update => { s with update := true }
  | .clear => { s with clear := 1 }
  | .ended first =>
    let tcnt := if first then s.tcnt + 1 else s.tcnt
    { s with tcnt := tcnt, terminate := s.terminate || (tcnt == 2 && s.clear == 0) }

/-- What comes behind the two lines: the image is shown, or old lines are cleared. -/
def Shared.show (s : Shared) : Shared :=
  if s.update then { s with update := false, clear := 0 }
  else if s.clear ≠ 0 then
    if s.clear + 1 ≥ oldLyrClearTime then { s with clear := 0, update := true }
    else { s with clear := s.clear + 1 }
  else s

structure Lyrsvc where
  first : Line
  second : Line
  shared : Shared

/-- The loop, for the next reading of the clock. -/
def round (font : Font) (s : Lyrsvc) (tm : Int32) : Option Lyrsvc :=
  if s.shared.terminate then some s
  else do
    let (first, signal) ← lineStep font tm s.first
    let shared := s.shared.signal signal
    let (second, signal) ← lineStep font tm s.second
    let shared := shared.signal signal
    some { first := first, second := second, shared := shared.show }

/-- A line before the loop, with the records that `kok->get` returns for it. -/
def Line.start (records : List LyricsPara) : Line where
  lyr := records.head?
  later := records.tail
  state := .waiting
  ii := 0
  division := 0
  range0 := 0
  range1 := 0
  fromX := 0
  toX := 0
  step := 0
  lstop := false

/-- The variables before the loop. -/
def Lyrsvc.start (first second : List LyricsPara) : Lyrsvc where
  first := Line.start first
  second := Line.start second
  shared := { tcnt := 0, update := false, clear := 0, terminate := false }

/-- `lyrsvc_main`, for some readings of the clock. -/
def lyrsvcMain (font : Font) (first second : List LyricsPara) (clock : List Int32) :
    Option Lyrsvc :=
  clock.foldlM (round font) (Lyrsvc.start first second)

end Katmai.LyricsOsd
