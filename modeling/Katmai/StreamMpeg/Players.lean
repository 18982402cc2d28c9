import Katmai.Foundation.EventRun

/-!
# Two players and one device

`stream_mpeg.c` and `play_public.c`. The MPEG device is used by two threads: `playMPEG_main` plays a
file, and `playMPEG_public` fills the time between files with a film of its own. They agree by
`public_state`, which the thread that calls `stm_start`, `stm_stop`, `stm_set_public` and
`stm_open_public` writes as well.

Every access to a variable that threads share is a step, and `playersStep` lets the three threads
take their steps in any order. The thread services are taken at their word: a thread runs from its
start until its function has returned, and a stop returns after that. `pub_mutex` is left out, as is
what the waits on `pub_condi` wait for: a wait may return at any time, and tests again. So there are
more orders of the steps here than the threads have.
-/

set_option autoImplicit false
set_option relaxedAutoImplicit false

namespace Katmai.StreamMpeg

/-- `public_state`: `PMPPS_NULL`, `PMPPS_IDLE` and so on. -/
inductive PublicState
  | null
  | idle
  | start
  | stop
  | play
  deriving DecidableEq, Repr

/-- A thread that opens the device. -/
inductive Player
  | main
  | pub
  deriving DecidableEq, Repr

/-- What `playMPEG_main` does next: up to the call of `starting_play_mpeg`, the assignment and the
two tests in the loop there, `close` and `open` of the device, a round of its loop, and its end. -/
inductive MainPc
  | off
  | prepare
  | setStopPlaying
  | testIdle
  | testNull
  | deviceClose
  | deviceOpen
  | push
  | deviceEnd
  | testEnd
  | setStart
  | exit
  deriving DecidableEq, Repr

/-- What `playMPEG_public` does next: the `switch`, the case `PMPPS_START`, `PMPPS_STOP`,
`PMPPS_PLAY`. -/
inductive PublicPc
  | off
  | switch
  | startTestHave
  | startTestEnable
  | startClearStopPlaying
  | startOpen
  | startSetPlay
  | startSetIdle
  | stopClose
  | stopSetIdle
  | playRead
  | playSetStop
  | playPush
  | playTestStopPlaying
  | playTestEnable
  | playEndSetStop
  | playClearStopPlaying
  deriving DecidableEq, Repr

/-- What the thread that makes the calls does next. -/
inductive ControlPc
  | idle
  | startSetOnPlay
  | startThread
  | stopJoin
  | stopClearOnPlay
  | publicSetEnable (on : Bool)
  | publicStartThread
  | publicTestPlaying
  | publicSetStart
  | openTestHave
  | openSetStopPlaying
  | openTestIdle
  | openTestNull
  | openClearHave
  | openFile
  | openSetHave
  | openSetIdle
  deriving DecidableEq, Repr

/-- The variables the threads share, and who has the device open. -/
structure Players where
  main : MainPc
  pub : PublicPc
  control : ControlPc
  publicState : PublicState
  publicStopPlaying : Bool
  enablePublic : Bool
  havePublic : Bool
  onPlay : Bool
  opened : Option Player
  deriving DecidableEq, Repr

/-- `new_stream_mpeg`. -/
def newPlayers : Players where
  main := .off
  pub := .off
  control := .idle
  publicState := .null
  publicStopPlaying := false
  enablePublic := false
  havePublic := false
  onPlay := false
  opened := none

/-! ### The main player -/

/-- What becomes of a `playMPEG_main` that prepares, or of one round of its loop. -/
inductive MainTurn
  | again
  | leave
  | reset
  | noBuffer
  deriving DecidableEq, Repr

/-- A step of `playMPEG_main`. -/
def mainPlayerStep (s : Players) (turn : MainTurn) : Option Players :=
  match s.main with
  | .off => none
  | .prepare => some { s with main := if turn = .leave then .exit else .setStopPlaying }
  | .setStopPlaying => some { s with publicStopPlaying := true, main := .testIdle }
  | .testIdle => some { s with main := if s.publicState ≠ .idle then .testNull else .deviceClose }
  | .testNull => some { s with main := if s.publicState = .null then .deviceClose else .testIdle }
  | .deviceClose => some { s with opened := none, main := .deviceOpen }
  | .deviceOpen => some { s with opened := some .main, main := .push }
  | .push =>
    some { s with
      main := match turn with
        | .again => .push
        | .leave => .deviceEnd
        | .reset => .setStopPlaying
        | .noBuffer => .exit }
  | .deviceEnd => some { s with opened := none, main := .testEnd }
  | .testEnd => some { s with main := if s.publicState = .idle then .setStart else .exit }
  | .setStart => some { s with publicState := .start, main := .exit }
  | .exit => some { s with main := .off }

/-! ### The public player -/

/-- A step of `playMPEG_public`; `ended` says whether a `read` comes to the end of the film. -/
def publicPlayerStep (s : Players) (ended : Bool) : Option Players :=
  match s.pub with
  | .off => none
  | .switch =>
    some { s with
      pub := match s.publicState with
        | .start => .startTestHave
        | .stop => .stopClose
        | .play => .playRead
        | .idle => .switch
        | .null => .switch }
  | .startTestHave => some { s with pub := if s.havePublic then .startTestEnable else .startSetIdle }
  | .startTestEnable =>
    some { s with pub := if s.enablePublic then .startClearStopPlaying else .startSetIdle }
  | .startClearStopPlaying => some { s with publicStopPlaying := false, pub := .startOpen }
  | .startOpen => some { s with opened := some .pub, pub := .startSetPlay }
  | .startSetPlay => some { s with publicState := .play, pub := .switch }
  | .startSetIdle => some { s with publicState := .idle, pub := .switch }
  | .stopClose => some { s with opened := none, pub := .stopSetIdle }
  | .stopSetIdle => some { s with publicState := .idle, pub := .switch }
  | .playRead => some { s with pub := if ended then .playSetStop else .playPush }
  | .playSetStop => some { s with publicState := .stop, pub := .playTestStopPlaying }
  | .playPush => some { s with pub := .playTestStopPlaying }
  | .playTestStopPlaying =>
    some { s with pub := if s.publicStopPlaying then .playEndSetStop else .playTestEnable }
  | .playTestEnable => some { s with pub := if s.enablePublic then .switch else .playEndSetStop }
  | .playEndSetStop => some { s with publicState := .stop, pub := .playClearStopPlaying }
  | .playClearStopPlaying => some { s with publicStopPlaying := false, pub := .switch }

/-! ### The calls -/

/-- A call; `stm_open` and `stm_close` are `stm_stop` here. -/
inductive PlayersCall
  | start
  | stop
  | setPublic (on : Bool)
  | openPublic
  deriving DecidableEq, Repr

def callPc : PlayersCall → ControlPc
  | .start => .startSetOnPlay
  | .stop => .stopJoin
  | .setPublic on => .publicSetEnable on
  | .openPublic => .openTestHave

/-- `stm_is_playing`. -/
def Players.isPlaying (s : Players) : Bool :=
  s.onPlay && s.main ≠ .off

/-- A step of the thread that makes the calls; `ok` says whether `pthread_create` and `stio->open`
succeed. -/
def controlStep (s : Players) (ok : Bool) : Option Players :=
  match s.control with
  | .idle => none
  | .startSetOnPlay => some { s with onPlay := true, control := .startThread }
  | .startThread =>
    some { s with
      main := if s.main = .off ∧ ok then .prepare else s.main
      control := .idle }
  | .stopJoin => if s.main = .off then some { s with control := .stopClearOnPlay } else none
  | .stopClearOnPlay => some { s with onPlay := false, control := .idle }
  | .publicSetEnable on =>
    let enable := on && s.havePublic
    some { s with
      enablePublic := enable
      control := if enable then .publicStartThread else .idle }
  | .publicStartThread =>
    some { s with
      pub := if s.pub = .off ∧ ok then .switch else s.pub
      control := .publicTestPlaying }
  | .publicTestPlaying => some { s with control := if s.isPlaying then .idle else .publicSetStart }
  | .publicSetStart => some { s with publicState := .start, control := .idle }
  | .openTestHave => some { s with control := if s.havePublic then .openSetStopPlaying else .openFile }
  | .openSetStopPlaying => some { s with publicStopPlaying := true, control := .openTestIdle }
  | .openTestIdle =>
    some { s with control := if s.publicState ≠ .idle then .openTestNull else .openClearHave }
  | .openTestNull =>
    some { s with control := if s.publicState = .null then .openClearHave else .openTestIdle }
  | .openClearHave => some { s with havePublic := false, control := .openFile }
  | .openFile => some { s with control := if ok then .openSetHave else .idle }
  | .openSetHave => some { s with havePublic := true, control := .openSetIdle }
  | .openSetIdle => some { s with publicState := .idle, control := .idle }

/-! ### Interleavings -/

/-- Which thread moves. -/
inductive PlayersEvent
  | call (c : PlayersCall)
  | control (ok : Bool)
  | main (turn : MainTurn)
  | pub (ended : Bool)
  deriving DecidableEq, Repr

/-- A step of one of the threads. -/
def playersStep (s : Players) : PlayersEvent → Option Players
  | .call c => if s.control = .idle then some { s with control := callPc c } else none
  | .control ok => controlStep s ok
  | .main turn => mainPlayerStep s turn
  | .pub ended => publicPlayerStep s ended

end Katmai.StreamMpeg
