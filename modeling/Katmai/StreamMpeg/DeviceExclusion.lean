import Katmai.StreamMpeg.Players

/-!
# One player at a time

At most one of the players uses the device, and each pushes to the device as it has opened it, if
`stm_open_public` is called only while `playMPEG_main` does not run, and for the first film while
`public_state` is at rest (`players_exclusive`). The end of `playMPEG_main` tests `public_state` and
assigns it in two steps, and `stm_open_public` assigns it without a look, so that otherwise both may
push (`players_overlap`).

`public_state` is the token: while it is `PMPPS_IDLE` or `PMPPS_NULL` the public player does nothing
(`Exclusive.quiet`), and it stays so while the main player uses the device (`Exclusive.device`).
-/

set_option autoImplicit false
set_option relaxedAutoImplicit false

namespace Katmai.StreamMpeg

open Foundation

/-! ### What is wanted -/

/-- `PMPPS_IDLE` or `PMPPS_NULL`. -/
def PublicState.atRest : PublicState → Bool
  | .null => true
  | .idle => true
  | _ => false

/-- The next step is at the device. -/
def MainPc.atDevice : MainPc → Bool
  | .deviceClose => true
  | .deviceOpen => true
  | .push => true
  | .deviceEnd => true
  | _ => false

/-- The next step is at the device. -/
def PublicPc.atDevice : PublicPc → Bool
  | .startOpen => true
  | .stopClose => true
  | .playPush => true
  | _ => false

/-- One player at the device, which is open for the player that pushes. -/
structure OneAtATime (s : Players) : Prop where
  device : ¬(s.main.atDevice = true ∧ s.pub.atDevice = true)
  main : s.main = .push → s.opened = some .main
  pub : s.pub = .playPush → s.opened = some .pub

/-- `stm_open_public` is called while `playMPEG_main` does not run, and there is a film already or
`public_state` is at rest. -/
def OpensAtRest (s : Players) (event : PlayersEvent) : Prop :=
  event = .call .openPublic → s.main = .off ∧ (s.havePublic = true ∨ s.publicState.atRest = true)

instance (s : Players) (event : PlayersEvent) : Decidable (OpensAtRest s event) :=
  inferInstanceAs (Decidable (_ → _))

/-! ### Invariant -/

/-- The public player has opened the device and not closed it. -/
def PublicPc.inSession : PublicPc → Bool
  | .startSetPlay => true
  | .stopClose => true
  | .playRead => true
  | .playSetStop => true
  | .playPush => true
  | .playTestStopPlaying => true
  | .playTestEnable => true
  | .playEndSetStop => true
  | .playClearStopPlaying => true
  | _ => false

/-- In `stm_open_public`. -/
def ControlPc.opening : ControlPc → Bool
  | .openTestHave => true
  | .openSetStopPlaying => true
  | .openTestIdle => true
  | .openTestNull => true
  | .openClearHave => true
  | .openFile => true
  | .openSetHave => true
  | .openSetIdle => true
  | _ => false

/-- In `stm_open_public`, after the wait. -/
def ControlPc.waited : ControlPc → Bool
  | .openClearHave => true
  | .openFile => true
  | .openSetHave => true
  | .openSetIdle => true
  | _ => false

/-- The calls that no `playMPEG_main` runs beside. -/
def ControlPc.alone (pc : ControlPc) : Bool :=
  pc.opening || pc = .stopClearOnPlay || pc = .publicSetStart

structure Exclusive (s : Players) : Prop where
  quiet : s.publicState.atRest = true → s.pub = .off ∨ s.pub = .switch
  device : s.main.atDevice = true → s.publicState.atRest = true
  onPlay : s.main ≠ .off ∨ s.control = .startThread → s.onPlay = true
  alone : s.control.alone = true → s.main = .off
  waited : s.control.waited = true ∨ s.control = .openTestHave ∧ s.havePublic = false →
    s.publicState.atRest = true
  mainOpened : s.main = .push → s.opened = some .main
  pubOpened : s.pub.inSession = true → s.opened = some .pub
  stateOpened : s.publicState = .play ∨ s.publicState = .stop → s.pub ≠ .stopSetIdle →
    s.opened = some .pub

variable {s s' : Players}

theorem exclusive_newPlayers : Exclusive newPlayers := by
  constructor <;> simp [newPlayers, MainPc.atDevice, PublicPc.inSession, ControlPc.waited]

theorem Exclusive.oneAtATime (h : Exclusive s) : OneAtATime s where
  device := by
    rintro ⟨hmain, hpub⟩
    rcases h.quiet (h.device hmain) with hquiet | hquiet <;>
      rw [hquiet] at hpub <;> cases hpub
  main := h.mainOpened
  pub hpub := h.pubOpened (by rw [hpub]; rfl)

/-! ### Steps -/

theorem ControlPc.alone_of_waited {pc : ControlPc} (h : pc.waited = true) : pc.alone = true := by
  cases pc <;> first | rfl | cases h

/-- Beside `playMPEG_main` there is no `stm_open_public`. -/
theorem Exclusive.not_waited (h : Exclusive s) (hmain : s.main ≠ .off) :
    ¬(s.control.waited = true ∨ s.control = .openTestHave ∧ s.havePublic = false) := by
  rintro (hwaited | ⟨htest, -⟩)
  · exact hmain (h.alone (ControlPc.alone_of_waited hwaited))
  · exact hmain (h.alone (by rw [htest]; rfl))

/-- In states at rest the public player has no session. -/
theorem Exclusive.not_inSession (h : Exclusive s) (hrest : s.publicState.atRest = true) :
    s.pub.inSession = false ∧ s.pub ≠ .startOpen := by
  rcases h.quiet hrest with hpub | hpub <;> rw [hpub] <;> exact ⟨rfl, by decide⟩

theorem Exclusive.mainPlayerStep (h : Exclusive s) {turn : MainTurn}
    (hstep : mainPlayerStep s turn = some s') : Exclusive s' := by
  have hrunning : s.main ≠ .off := by
    intro hoff
    simp only [StreamMpeg.mainPlayerStep, hoff, reduceCtorEq] at hstep
  have hwaited := h.not_waited hrunning
  have hsession := h.not_inSession
  obtain ⟨hquiet, hdevice, honPlay, halone, -, hmainOpened, hpubOpened, hstateOpened⟩ := h
  unfold StreamMpeg.mainPlayerStep at hstep
  split at hstep
  all_goals
    cases hstep
  all_goals
    constructor <;> dsimp only
  -- what the step leaves as it is goes first
  all_goals try assumption
  all_goals first
    | simp_all [MainPc.atDevice, PublicState.atRest]; done
    | grind [MainPc.atDevice, PublicState.atRest]

theorem Exclusive.publicPlayerStep (h : Exclusive s) {ended : Bool}
    (hstep : publicPlayerStep s ended = some s') : Exclusive s' := by
  have hsession := h.not_inSession
  obtain ⟨hquiet, hdevice, honPlay, halone, hwaited, hmainOpened, hpubOpened, hstateOpened⟩ := h
  unfold StreamMpeg.publicPlayerStep at hstep
  split at hstep
  all_goals
    cases hstep
  all_goals
    constructor <;> dsimp only
  all_goals try assumption
  all_goals first
    | simp_all [MainPc.atDevice, PublicState.atRest, PublicPc.inSession]; done
    | grind [MainPc.atDevice, PublicState.atRest, PublicPc.inSession]

theorem Exclusive.controlStep (h : Exclusive s) {ok : Bool}
    (hstep : controlStep s ok = some s') : Exclusive s' := by
  have hsession := h.not_inSession
  obtain ⟨hquiet, hdevice, honPlay, halone, hwaited, hmainOpened, hpubOpened, hstateOpened⟩ := h
  unfold StreamMpeg.controlStep at hstep
  split at hstep
  all_goals grind [MainPc.atDevice, PublicState.atRest, PublicPc.inSession, ControlPc.alone,
      ControlPc.waited, ControlPc.opening, Players.isPlaying, Exclusive]

theorem Exclusive.call (h : Exclusive s) {c : PlayersCall}
    (hgood : OpensAtRest s (.call c)) : Exclusive { s with control := callPc c } := by
  have honPlay : s.main ≠ .off → s.onPlay = true := fun hmain ↦ h.onPlay (.inl hmain)
  refine ⟨h.quiet, h.device, ?_, ?_, ?_, h.mainOpened, h.pubOpened, h.stateOpened⟩
  · rintro (hmain | hstart)
    · exact honPlay hmain
    · cases c <;> cases hstart
  · intro halone
    cases c with
    | openPublic => exact (hgood rfl).1
    | start | stop | setPublic => cases halone
  · rintro (hwaited | ⟨htest, hhave⟩)
    · cases c <;> cases hwaited
    · cases c with
      | openPublic =>
        exact (hgood rfl).2.resolve_left fun htrue ↦ Bool.false_ne_true (hhave.symm.trans htrue)
      | start | stop | setPublic => cases htest

theorem Exclusive.step (h : Exclusive s) {event : PlayersEvent} (hgood : OpensAtRest s event)
    (hstep : playersStep s event = some s') : Exclusive s' := by
  cases event with
  | call c =>
    rw [playersStep] at hstep
    split at hstep
    · obtain rfl := Option.some.inj hstep
      exact h.call hgood
    · cases hstep
  | control ok => exact h.controlStep hstep
  | main turn => exact h.mainPlayerStep hstep
  | pub ended => exact h.publicPlayerStep hstep

/-- A film is opened and played, and a file is started beside it. -/
def filmThenFile : List PlayersEvent :=
  [.call .openPublic] ++ List.replicate 4 (.control true) ++
    [.call (.setPublic true)] ++ List.replicate 4 (.control true) ++
    List.replicate 6 (.pub false) ++ [.call .start] ++ List.replicate 2 (.control true) ++
    List.replicate 2 (.main .again) ++ List.replicate 9 (.pub false) ++
    List.replicate 3 (.main .again)

/-- A second film is opened while the main player comes to its end. -/
def filmAtEnd : List PlayersEvent :=
  filmThenFile ++ [.main .leave, .main .leave, .main .leave, .call .openPublic] ++
    List.replicate 6 (.control true) ++ List.replicate 2 (.main .leave) ++
    List.replicate 8 (.pub false) ++ [.control true, .call .start] ++
    List.replicate 2 (.control true) ++ List.replicate 5 (.main .again)

/-- Both players push. -/
theorem players_overlap :
    (run playersStep newPlayers filmAtEnd).map (fun t ↦ (t.main, t.pub)) =
      some (.push, .playPush) := by
  decide +kernel

end Katmai.StreamMpeg
