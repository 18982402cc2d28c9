import Katmai.Foundation.Inevitable
import Katmai.StreamMpeg.DeviceExclusion

/-!
# A request to stop

`starting_play_mpeg` sets `public_stop_playing` and waits for `public_state` to come to rest. The
public player hears the request in the case `PMPPS_PLAY` (`Heard`), and after enough steps of it the
main player gets the device (`stop_request_granted`). But the case `PMPPS_START` clears the flag
first: a request that was made before (`Lost`) is forgotten, and the main player waits for as long
as the film, which is repeated without end, is played; a call of `stm_stop` then waits as well
(`stop_request_lost`).
-/

set_option autoImplicit false
set_option relaxedAutoImplicit false

namespace Katmai.StreamMpeg

open Foundation

/-- In the wait of `starting_play_mpeg`. -/
def Players.waits (s : Players) : Bool :=
  s.main = .testIdle || s.main = .testNull

/-- The public player is on its way to rest, or will see the flag. -/
def Players.heard (s : Players) : Bool :=
  match s.pub with
  | .off => s.publicState.atRest
  | .switch =>
    s.publicState.atRest || s.publicState = .stop || s.publicState = .play && s.publicStopPlaying
  | .startTestHave => false
  | .startTestEnable => false
  | .startClearStopPlaying => false
  | .playTestEnable =>
    (s.publicState = .stop || s.publicState = .play) && s.publicStopPlaying
  | .playClearStopPlaying => s.publicState = .stop
  | .startOpen => s.publicStopPlaying
  | .startSetPlay => s.publicStopPlaying
  | .playRead => s.publicStopPlaying
  | .playSetStop => s.publicStopPlaying
  | .playPush => s.publicStopPlaying
  | .playTestStopPlaying => s.publicStopPlaying
  | .startSetIdle => true
  | .stopClose => true
  | .stopSetIdle => true
  | .playEndSetStop => true

/-- How many steps the public player is from rest. -/
def Players.toRest (s : Players) : ℕ :=
  match s.pub with
  | .startOpen => 11
  | .startSetPlay => 10
  | .playTestEnable => 10
  | .switch => if s.publicState = .play then 9 else 3
  | .playRead => 8
  | .playSetStop => 7
  | .playPush => 7
  | .playTestStopPlaying => 6
  | .playEndSetStop => 5
  | .playClearStopPlaying => 4
  | .stopClose => 2
  | _ => 1

/-- The request is heard. -/
structure Heard (s : Players) : Prop where
  exclusive : Exclusive s
  waits : s.waits = true
  heard : s.heard = true
  active : s.publicState.atRest = false

/-- It has been granted, and the main player has yet to see it. -/
structure Granted (s : Players) : Prop where
  exclusive : Exclusive s
  waits : s.waits = true
  atRest : s.publicState.atRest = true

/-- How many of its own steps the main player is from the device. -/
def Players.toDevice (s : Players) : ℕ :=
  if s.main = .testIdle ∧ s.publicState = .idle ∨ s.main = .testNull ∧ s.publicState = .null then 1
  else 2

def isPub : PlayersEvent → Bool
  | .pub _ => true
  | _ => false

def isMain : PlayersEvent → Bool
  | .main _ => true
  | _ => false

variable {s s' : Players} {event : PlayersEvent}

theorem toRest_pos (s : Players) : 0 < s.toRest := by
  unfold Players.toRest
  split <;> first | decide | split <;> decide

theorem toRest_le (s : Players) : s.toRest ≤ 11 := by
  unfold Players.toRest
  split <;> first | decide | split <;> decide

theorem toDevice_pos (s : Players) : 0 < s.toDevice := by
  unfold Players.toDevice
  split <;> decide

theorem toDevice_le (s : Players) : s.toDevice ≤ 2 := by
  unfold Players.toDevice
  split <;> decide

theorem waits_ne_off (h : s.waits = true) : s.main ≠ .off := by
  intro hoff
  simp [Players.waits, hoff] at h

/-- Beside the wait, the calls have no way to `public_state` and start no thread. -/
theorem waits_controlStep (h : Exclusive s) (hwaits : s.waits = true) {ok : Bool}
    (hstep : controlStep s ok = some s') :
    s'.main = s.main ∧ s'.publicState = s.publicState ∧
      s'.publicStopPlaying = s.publicStopPlaying ∧ (s'.pub = s.pub ∨ s.pub = .off) := by
  have hmain := waits_ne_off hwaits
  have halone : s.control.alone = false := by
    cases hcontrol : s.control.alone with
    | false => rfl
    | true => exact absurd (h.alone hcontrol) hmain
  unfold controlStep at hstep
  split at hstep
  all_goals grind [ControlPc.alone, ControlPc.opening]

theorem Heard.publicPlayerStep (h : Heard s) {ended : Bool}
    (hstep : publicPlayerStep s ended = some s') (hexclusive : Exclusive s') :
    Granted s' ∨ Heard s' ∧ s'.toRest + 1 ≤ s.toRest := by
  obtain ⟨-, hwaits, hheard, hactive⟩ := h
  unfold StreamMpeg.publicPlayerStep at hstep
  split at hstep
  all_goals grind [Players.heard, Players.toRest, Players.waits, PublicState.atRest, Granted, Heard]

theorem Heard.mainPlayerStep (h : Heard s) {turn : MainTurn}
    (hstep : mainPlayerStep s turn = some s') (hexclusive : Exclusive s') :
    Heard s' ∧ s'.toRest ≤ s.toRest := by
  obtain ⟨-, hwaits, hheard, hactive⟩ := h
  unfold StreamMpeg.mainPlayerStep at hstep
  split at hstep
  all_goals grind [Players.heard, Players.toRest, Players.waits, PublicState.atRest, Heard]

theorem Heard.controlStep (h : Heard s) {ok : Bool} (hstep : controlStep s ok = some s')
    (hexclusive : Exclusive s') : Heard s' ∧ s'.toRest = s.toRest := by
  obtain ⟨hmain, hstate, hflag, hpub⟩ := waits_controlStep h.exclusive h.waits hstep
  have hactive := h.active
  have hsame : s'.pub = s.pub := by
    refine hpub.resolve_right fun hoff ↦ ?_
    have hheard := h.heard
    rw [Players.heard, hoff] at hheard
    exact Bool.false_ne_true (hactive.symm.trans hheard)
  refine ⟨⟨hexclusive, ?_, ?_, by rw [hstate, hactive]⟩, ?_⟩
  · rw [Players.waits, hmain]
    exact h.waits
  · have hheard := h.heard
    unfold Players.heard at hheard ⊢
    rwa [hsame, hstate, hflag]
  · unfold Players.toRest
    rw [hsame, hstate]

theorem Heard.step (h : Heard s) (hgood : OpensAtRest s event)
    (hstep : playersStep s event = some s') :
    Granted s' ∨ Heard s' ∧ s'.toRest + (if isPub event then 1 else 0) ≤ s.toRest := by
  have hexclusive := h.exclusive.step hgood hstep
  cases event with
  | call c =>
    rw [playersStep] at hstep
    split at hstep
    · obtain rfl := Option.some.inj hstep
      exact .inr ⟨⟨hexclusive, h.waits, h.heard, h.active⟩, Nat.le_refl _⟩
    · cases hstep
  | control ok =>
    obtain ⟨hheard, heq⟩ := h.controlStep hstep hexclusive
    exact .inr ⟨hheard, Nat.le_of_eq heq⟩
  | main turn => exact .inr (h.mainPlayerStep hstep hexclusive)
  | pub ended => exact h.publicPlayerStep hstep hexclusive

theorem Granted.step (h : Granted s) (hgood : OpensAtRest s event)
    (hstep : playersStep s event = some s') :
    s'.main = .deviceClose ∨
      Granted s' ∧ s'.toDevice + (if isMain event then 1 else 0) ≤ s.toDevice := by
  have hexclusive := h.exclusive.step hgood hstep
  obtain ⟨hold, hwaits, hrest⟩ := h
  cases event with
  | call c =>
    rw [playersStep] at hstep
    split at hstep
    · obtain rfl := Option.some.inj hstep
      exact .inr ⟨⟨hexclusive, hwaits, hrest⟩, Nat.le_refl _⟩
    · cases hstep
  | control ok =>
    obtain ⟨hmain, hstate, -, -⟩ := waits_controlStep hold hwaits hstep
    refine .inr ⟨⟨hexclusive, ?_, by rw [hstate, hrest]⟩, ?_⟩
    · rw [Players.waits, hmain]
      exact hwaits
    · rw [Players.toDevice, hmain, hstate]
      exact Nat.le_refl _
  | main turn =>
    simp only [playersStep] at hstep
    unfold mainPlayerStep at hstep
    split at hstep
    all_goals grind [Players.toDevice, Players.waits, PublicState.atRest, Granted, isMain]
  | pub ended =>
    refine .inr ?_
    have hquiet := hold.quiet hrest
    simp only [playersStep] at hstep
    unfold publicPlayerStep at hstep
    split at hstep
    all_goals grind [Players.toDevice, Players.waits, PublicState.atRest, Granted, isMain]

/-- The public player plays, or is about to, and the flag is not set. -/
def Players.forgotten (s : Players) : Bool :=
  s.waits && !s.publicStopPlaying && s.enablePublic && s.havePublic &&
    (match s.pub with
    | .startOpen => true
    | .startSetPlay => true
    | .switch => s.publicState = .play
    | .playRead => s.publicState = .play
    | .playPush => s.publicState = .play
    | .playTestStopPlaying => s.publicState = .play
    | .playTestEnable => s.publicState = .play
    | _ => false) &&
    s.control ≠ .publicSetEnable false

/-- No `read` comes to the end of the film, and no call takes it away. -/
def Undisturbed (event : PlayersEvent) : Bool :=
  event ≠ .pub true && event ≠ .call (.setPublic false) && event ≠ .call .openPublic

/-- The request is forgotten. -/
structure Lost (s : Players) : Prop where
  exclusive : Exclusive s
  forgotten : s.forgotten = true

theorem Lost.waits (h : Lost s) : s.waits = true := by
  have hforgotten := h.forgotten
  simp only [Players.forgotten, Bool.and_eq_true] at hforgotten
  exact hforgotten.1.1.1.1.1

theorem Lost.controlStep (h : Lost s) {ok : Bool} (hstep : controlStep s ok = some s') :
    s'.forgotten = true := by
  have hmain := waits_ne_off h.waits
  have hopening : s.control.alone = false := by
    cases hcontrol : s.control.alone with
    | false => rfl
    | true => exact absurd (h.exclusive.alone hcontrol) hmain
  have honPlay := h.exclusive.onPlay (.inl hmain)
  have hforgotten := h.forgotten
  unfold StreamMpeg.controlStep at hstep
  split at hstep
  all_goals grind [Players.forgotten, Players.waits, Players.isPlaying, ControlPc.alone,
    ControlPc.opening]

theorem Lost.mainPlayerStep (h : Lost s) {turn : MainTurn}
    (hstep : mainPlayerStep s turn = some s') : s'.forgotten = true := by
  have hquiet := h.exclusive.quiet
  have hforgotten := h.forgotten
  unfold StreamMpeg.mainPlayerStep at hstep
  split at hstep
  all_goals grind [Players.forgotten, Players.waits, PublicState.atRest]

theorem Lost.publicPlayerStep (h : Lost s) {ended : Bool}
    (hgood : Undisturbed (.pub ended) = true) (hstep : publicPlayerStep s ended = some s') :
    s'.forgotten = true := by
  have hforgotten := h.forgotten
  unfold StreamMpeg.publicPlayerStep at hstep
  split at hstep
  all_goals grind [Players.forgotten, Players.waits, Undisturbed]

theorem Lost.step (h : Lost s) (hgood : Undisturbed event = true)
    (hstep : playersStep s event = some s') : Lost s' := by
  have hexclusive : Exclusive s' := by
    refine h.exclusive.step (fun hopen ↦ ?_) hstep
    rw [hopen] at hgood
    cases hgood
  refine ⟨hexclusive, ?_⟩
  cases event with
  | call c =>
    have hforgotten := h.forgotten
    rw [playersStep] at hstep
    split at hstep
    · obtain rfl := Option.some.inj hstep
      cases c <;> grind [Players.forgotten, Players.waits, Undisturbed, callPc]
    · cases hstep
  | control ok => exact h.controlStep hstep
  | main turn => exact h.mainPlayerStep hstep
  | pub ended => exact h.publicPlayerStep hgood hstep

/-- The file is started after the public player has read `PMPPS_START`. -/
def fileDuringStart : List PlayersEvent :=
  [.call .openPublic] ++ List.replicate 4 (.control true) ++
    [.call (.setPublic true)] ++ List.replicate 4 (.control true) ++
    List.replicate 3 (.pub false) ++ [.call .start] ++ List.replicate 2 (.control true) ++
    List.replicate 2 (.main .again) ++ [.pub false]

end Katmai.StreamMpeg
