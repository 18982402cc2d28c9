import Mathlib.Data.Int.Notation
import Katmai.Foundation.EventRun

/-!
# A thread with start and stop

`thread_svc/thread_svc.c` runs a handler in a thread of its own, the worker, which one other thread
starts, stops, pauses and continues. The two talk through four flags: `have_thr`, `need_join`,
`terminate` and `in_wait`. Every assignment and every test of a flag is a step here, and so are the
calls of `pthread_create`, `pthread_join` and the other functions of the library; `svcStep` lets the
two threads take their steps in any order.

`WorkerPc` says what a worker does next in `thread_svc_main`, `ControlPc` what the controlling
thread does next. Workers are kept in the order in which `pthread_create` made them, each with the
number of times it was joined.
-/

set_option autoImplicit false
set_option relaxedAutoImplicit false

namespace Katmai.ThreadSvc

/-- What a worker does next: the two assignments of `have_thr = need_join = 1`, the tests of
`in_wait` with the mutex and the wait between them, the loop over `terminate` and the handler, and
the way out. -/
inductive WorkerPc
  | setNeedJoin
  | setHaveThr
  | testInWait
  | lock
  | testInWaitLocked
  | condWait
  | unlock
  | testTerminate
  | callHandler
  | clearHaveThr
  | threadExit
  | exited
  deriving DecidableEq, Repr

/-- A worker that was created, and how often it was joined. -/
structure Worker where
  pc : WorkerPc
  joins : ℕ
  deriving DecidableEq, Repr

/-- A call of the controlling thread. -/
inductive Call
  | start
  | stop
  | pause
  | conti
  | dispose
  deriving DecidableEq, Repr

/-- What the controlling thread does next. `thrsvc_dispose` calls `thrsvc_stop`, and that calls
`thrsvc_conti`: `disposing` tells for which of the two the call is, and a `conti` that belongs to a
stop carries it too. -/
inductive ControlPc
  | idle
  | startTestHaveThr
  | startTestNeedJoin
  | startClearNeedJoin
  | startJoin
  | startClearTerminate
  | startSetHaveThr
  | startCreate
  | startCreateFailed
  | stopTestHaveThr (disposing : Bool)
  | stopSetTerminate (disposing : Bool)
  | contiClearInWait (stopping : Option Bool)
  | contiTestHaveThr (stopping : Option Bool)
  | stopTestNeedJoin (disposing : Bool)
  | stopClearNeedJoin (disposing : Bool)
  | stopJoin (disposing : Bool)
  | pauseSetInWait
  | free
  | freed
  deriving DecidableEq, Repr

/-- The flags of `struct thread_svc_pd_t`, and the worker that holds its mutex. -/
structure Flags where
  haveThr : Bool
  needJoin : Bool
  terminate : Bool
  inWait : Bool
  mutex : Option ℕ
  deriving DecidableEq, Repr

/-- The object, the threads, and `stopped`: how many workers had been created when `thrsvc_stop`
returned last. `thr` is the worker that `pd->thr` names. -/
structure Service where
  flags : Flags
  thr : ℕ
  workers : List Worker
  control : ControlPc
  stopped : ℕ
  deriving DecidableEq, Repr

/-- `new_thread_svc`. -/
def newThreadSvc : Service where
  flags := ⟨false, false, false, false, none⟩
  thr := 0
  workers := []
  control := .idle
  stopped := 0

/-! ### The worker -/

/-- The next step of worker `i` in `thread_svc_main`; `rc` is what the handler returns if it is
called. A `pthread_cond_wait` may return without a signal. -/
def workerNext (f : Flags) (i : ℕ) (rc : ℤ) : WorkerPc → Option (WorkerPc × Flags)
  | .setNeedJoin => some (.setHaveThr, { f with needJoin := true })
  | .setHaveThr => some (.testInWait, { f with haveThr := true })
  | .testInWait => some (if f.inWait then .lock else .testTerminate, f)
  | .lock => if f.mutex = none then some (.testInWaitLocked, { f with mutex := some i }) else none
  | .testInWaitLocked =>
    some (if f.inWait then (.condWait, { f with mutex := none }) else (.unlock, f))
  | .condWait =>
    if f.mutex = none then some (.testInWaitLocked, { f with mutex := some i }) else none
  | .unlock => some (.testTerminate, { f with mutex := none })
  | .testTerminate => some (if f.terminate then .clearHaveThr else .callHandler, f)
  | .callHandler => some (if rc ≠ 0 then .clearHaveThr else .testTerminate, f)
  | .clearHaveThr => some (.threadExit, { f with haveThr := false })
  | .threadExit => some (.exited, f)
  | .exited => none

/-- A step of worker `i`. -/
def workerStep (s : Service) (i : ℕ) (rc : ℤ) : Option Service :=
  s.workers[i]?.bind fun w ↦ (workerNext s.flags i rc w.pc).map fun next ↦
    { s with flags := next.2, workers := s.workers.set i { w with pc := next.1 } }

/-! ### The controlling thread -/

/-- The return from `thrsvc_stop`, to the caller or to `thrsvc_dispose`. -/
def Service.returnStop (s : Service) (disposing : Bool) : Service :=
  { s with control := if disposing then .free else .idle, stopped := s.workers.length }

/-- `pthread_join (pd->thr, NULL)`, which returns when the worker has exited. -/
def Service.join (s : Service) : Option Service :=
  s.workers[s.thr]?.bind fun w ↦
    if w.pc = .exited then
      some { s with workers := s.workers.set s.thr { w with joins := w.joins + 1 } }
    else none

/-- The first step of a call. -/
def callPc : Call → ControlPc
  | .start => .startTestHaveThr
  | .stop => .stopTestHaveThr false
  | .pause => .pauseSetInWait
  | .conti => .contiClearInWait none
  | .dispose => .stopTestHaveThr true

/-- The next step of the controlling thread; `created` says whether `pthread_create` succeeds if it
is called. `pthread_cond_signal` has no effect that a wait without a signal does not have. -/
def controlStep (s : Service) (created : Bool) : Option Service :=
  match s.control with
  | .idle => none
  | .startTestHaveThr =>
    some { s with control := if s.flags.haveThr then .idle else .startTestNeedJoin }
  | .startTestNeedJoin =>
    some { s with
      control := if s.flags.needJoin then .startClearNeedJoin else .startClearTerminate }
  | .startClearNeedJoin =>
    some { s with flags := { s.flags with needJoin := false }, control := .startJoin }
  | .startJoin => s.join.map fun s ↦ { s with control := .startClearTerminate }
  | .startClearTerminate =>
    some { s with flags := { s.flags with terminate := false }, control := .startSetHaveThr }
  | .startSetHaveThr =>
    some { s with flags := { s.flags with haveThr := true }, control := .startCreate }
  | .startCreate =>
    some (if created then
      { s with
        thr := s.workers.length
        workers := s.workers ++ [⟨.setNeedJoin, 0⟩]
        control := .idle }
    else { s with control := .startCreateFailed })
  | .startCreateFailed =>
    some { s with flags := { s.flags with haveThr := false }, control := .idle }
  | .stopTestHaveThr disposing =>
    some { s with
      control := if s.flags.haveThr then .stopSetTerminate disposing
        else .stopTestNeedJoin disposing }
  | .stopSetTerminate disposing =>
    some { s with
      flags := { s.flags with terminate := true }
      control := .contiClearInWait (some disposing) }
  | .contiClearInWait stopping =>
    some { s with flags := { s.flags with inWait := false }, control := .contiTestHaveThr stopping }
  | .contiTestHaveThr stopping =>
    some { s with control := stopping.elim .idle .stopTestNeedJoin }
  | .stopTestNeedJoin disposing =>
    some (if s.flags.needJoin then { s with control := .stopClearNeedJoin disposing }
      else s.returnStop disposing)
  | .stopClearNeedJoin disposing =>
    some { s with flags := { s.flags with needJoin := false }, control := .stopJoin disposing }
  | .stopJoin disposing => s.join.map fun s ↦ s.returnStop disposing
  | .pauseSetInWait => some { s with flags := { s.flags with inWait := true }, control := .idle }
  | .free => some { s with control := .freed }
  | .freed => none

/-! ### Interleavings -/

/-- Which thread moves: the controlling thread makes a call or takes the next step of the one it is
in, or a worker takes a step. -/
inductive Event
  | call (c : Call)
  | control (created : Bool)
  | worker (i : ℕ) (rc : ℤ)
  deriving DecidableEq, Repr

/-- A step of one of the threads. -/
def svcStep (s : Service) : Event → Option Service
  | .call c => if s.control = .idle then some { s with control := callPc c } else none
  | .control created => controlStep s created
  | .worker i rc => workerStep s i rc

end Katmai.ThreadSvc
