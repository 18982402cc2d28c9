import Katmai.ThreadSvc.ThreadSvc

/-!
# When a stopped thread has stopped

`Safe` is what `thrsvc_stop` and `thrsvc_start` should give: after a stop has returned no worker
created before runs or is about to run, and every worker is joined exactly once before the next is
created or the object is freed.

`need_join` is set by the worker, in its first step, and not by `thrsvc_start`. A stop that tests it
before that step finds nothing to join and returns (`not_safe_of_early`, `earlyStop_unsafe`). All
other interleavings are safe. In them all workers have exited and were joined (`Settled`), or all
but the last have (`Unjoined`), and then `have_thr` and `need_join` follow what the last worker and
the controlling thread do next; one lemma per thread says that a step keeps this
(`Unjoined.workerStep`, `Settled.controlStep`, `Unjoined.controlStep`). `meets_safeAfter_iff` puts
both together.
-/

set_option autoImplicit false
set_option relaxedAutoImplicit false

namespace Katmai.ThreadSvc

open Foundation

/-! ### What is wanted -/

/-- When `thrsvc_stop` has returned, no worker created before runs or is about to run; when the next
worker is created or the object is freed, every worker created before has been joined exactly once;
and none is ever joined twice. -/
structure Safe (s : Service) : Prop where
  stopped : ∀ i w, s.workers[i]? = some w → i < s.stopped → w.pc = .exited
  joined : s.control = .startCreate ∨ s.control = .free ∨ s.control = .freed →
    ∀ w ∈ s.workers, w.joins = 1
  once : ∀ w ∈ s.workers, w.joins ≤ 1

/-- A step is not the test of `need_join` in `thrsvc_stop` while a worker that was created has yet
to set `need_join`. -/
def TestsInTime (s : Service) : Event → Prop
  | .control _ => ∀ disposing, s.control = .stopTestNeedJoin disposing →
    ∀ w ∈ s.workers, w.pc ≠ .setNeedJoin
  | _ => True

/-! ### Invariant -/

/-- The worker has not yet cleared `have_thr`. -/
def WorkerPc.running : WorkerPc → Bool
  | .threadExit => false
  | .exited => false
  | _ => true

/-- `thrsvc_start` has set `have_thr`, and no worker exists for it. -/
def ControlPc.creating : ControlPc → Bool
  | .startCreate => true
  | .startCreateFailed => true
  | _ => false

/-- The controlling thread has seen `need_join` set and will clear it. -/
def ControlPc.claiming : ControlPc → Bool
  | .startClearNeedJoin => true
  | .stopClearNeedJoin _ => true
  | _ => false

/-- The controlling thread has cleared `need_join` and will join. -/
def ControlPc.joining : ControlPc → Bool
  | .startJoin => true
  | .stopJoin _ => true
  | _ => false

/-- `thrsvc_start` has seen `have_thr` cleared and may have a worker to join. -/
def ControlPc.startJoining : ControlPc → Bool
  | .startTestNeedJoin => true
  | .startClearNeedJoin => true
  | .startJoin => true
  | _ => false

/-- Nothing is left to join. -/
def ControlPc.pastJoin : ControlPc → Bool
  | .startClearTerminate => true
  | .startSetHaveThr => true
  | .startCreate => true
  | .startCreateFailed => true
  | .free => true
  | .freed => true
  | _ => false

/-- Every worker has exited and was joined. -/
structure Settled (s : Service) : Prop where
  workers : ∀ w ∈ s.workers, w.pc = .exited ∧ w.joins = 1
  stopped : s.stopped ≤ s.workers.length
  needJoin : s.flags.needJoin = false
  haveThr : s.flags.haveThr = s.control.creating
  claiming : s.control.claiming = false
  joining : s.control.joining = false

/-- The workers but the last have exited and were joined; the last one `w` was not joined.
`have_thr` is set until it clears it, and `need_join` from its first step until the controlling
thread clears it. -/
structure Unjoined (s : Service) (old : List Worker) (w : Worker) : Prop where
  workers : s.workers = old ++ [w]
  before : ∀ v ∈ old, v.pc = .exited ∧ v.joins = 1
  joins : w.joins = 0
  thr : s.thr = old.length
  stopped : s.stopped ≤ old.length
  haveThr : s.flags.haveThr = w.pc.running
  needJoin : s.flags.needJoin = (w.pc ≠ .setNeedJoin && !s.control.joining)
  claiming : s.control.claiming = true ∨ s.control.joining = true → w.pc ≠ .setNeedJoin
  startJoining : s.control.startJoining = true → w.pc.running = false
  pastJoin : s.control.pastJoin = false

/-- The states of runs in which every stop tests `need_join` in time. -/
def Orderly (s : Service) : Prop :=
  Settled s ∨ ∃ old w, Unjoined s old w

variable {s s' : Service}

theorem orderly_newThreadSvc : Orderly newThreadSvc :=
  .inl ⟨by simp [newThreadSvc], Nat.le_refl 0, rfl, rfl, rfl, rfl⟩

theorem Settled.safe (hsettled : Settled s) : Safe s where
  stopped _ w hw _ := (hsettled.workers w (List.mem_of_getElem? hw)).1
  joined _ w hw := (hsettled.workers w hw).2
  once w hw := Nat.le_of_eq (hsettled.workers w hw).2

theorem Unjoined.safe {old : List Worker} {w : Worker} (hun : Unjoined s old w) : Safe s where
  stopped i v hv hi := by
    have hlt : i < old.length := Nat.lt_of_lt_of_le hi hun.stopped
    rw [hun.workers, List.getElem?_append_left hlt] at hv
    exact (hun.before v (List.mem_of_getElem? hv)).1
  joined hcontrol := by
    have hpast := hun.pastJoin
    rcases hcontrol with h | h | h <;> simp [h, ControlPc.pastJoin] at hpast
  once v hv := by
    rw [hun.workers] at hv
    rcases List.mem_append.mp hv with hold | hlast
    · exact Nat.le_of_eq (hun.before v hold).2
    · rw [List.mem_singleton.mp hlast, hun.joins]
      exact Nat.zero_le 1

theorem Orderly.safe (horderly : Orderly s) : Safe s := by
  rcases horderly with hsettled | ⟨old, w, hun⟩
  · exact hsettled.safe
  · exact hun.safe

/-! ### Steps of the worker -/

/-- Workers that have exited take no step. -/
theorem Settled.workerStep (hsettled : Settled s) (i : ℕ) (rc : ℤ) : workerStep s i rc = none := by
  unfold ThreadSvc.workerStep
  cases hw : s.workers[i]? with
  | none => rfl
  | some w =>
    rw [Option.bind_some, (hsettled.workers w (List.mem_of_getElem? hw)).1]
    rfl

/-- What a step of the worker does to the flags that count. -/
theorem workerNext_flags {f f' : Flags} {i : ℕ} {rc : ℤ} {pc pc' : WorkerPc}
    (hnext : workerNext f i rc pc = some (pc', f')) (hhave : f.haveThr = pc.running) :
    f'.haveThr = pc'.running ∧ pc' ≠ .setNeedJoin ∧ (pc.running = false → pc'.running = false) ∧
      f'.needJoin = (f.needJoin || decide (pc = .setNeedJoin)) := by
  cases pc <;> simp only [workerNext] at hnext
  case lock | condWait =>
    obtain ⟨-, h⟩ := Option.ite_none_right_eq_some.mp hnext
    cases h
    simp_all [WorkerPc.running]
  case exited => simp at hnext
  case testInWaitLocked =>
    obtain h := Option.some.inj hnext
    split_ifs at h <;> cases h <;> simp_all [WorkerPc.running]
  case testInWait | testTerminate | callHandler =>
    cases hnext
    split_ifs <;> simp_all [WorkerPc.running]
  all_goals
    cases hnext
    simp_all [WorkerPc.running]

/-- A step of the last worker. -/
theorem Unjoined.workerStep {old : List Worker} {w : Worker} (hun : Unjoined s old w) {i : ℕ}
    {rc : ℤ} (hstep : workerStep s i rc = some s') : ∃ w', Unjoined s' old w' := by
  obtain ⟨v, hv, hnext⟩ := Option.bind_eq_some_iff.mp hstep
  obtain ⟨⟨pc', f'⟩, hpc, heq⟩ := Option.map_eq_some_iff.mp hnext
  rw [hun.workers] at hv
  rcases Nat.lt_trichotomy i old.length with hlt | rfl | hgt
  · rw [List.getElem?_append_left hlt] at hv
    rw [(hun.before v (List.mem_of_getElem? hv)).1] at hpc
    exact absurd hpc (by simp [workerNext])
  · rw [List.getElem?_concat_length] at hv
    obtain rfl : w = v := Option.some.inj hv
    obtain ⟨hhave, hne, hrunning, hneed⟩ := workerNext_flags hpc hun.haveThr
    subst heq
    refine ⟨{ w with pc := pc' }, ?_, hun.before, hun.joins, hun.thr, hun.stopped, hhave, ?_,
      fun _ ↦ hne, fun h ↦ hrunning (hun.startJoining h), hun.pastJoin⟩
    · simp only [hun.workers]
      rw [List.set_append_right _ _ (Nat.le_refl _), Nat.sub_self]
      rfl
    · have hold := hun.needJoin
      have hjoin := hun.claiming
      simp only [hneed, hold]
      by_cases hpc' : w.pc = .setNeedJoin
      · have hnot : s.control.joining = false := by
          by_contra h
          exact hjoin (.inr (by simpa using h)) hpc'
        simp [hpc', hnot, hne]
      · simp [hpc', hne]
  · rw [List.getElem?_eq_none (by simp; omega)] at hv
    exact absurd hv.symm (Option.some_ne_none v)

/-! ### Steps of the controlling thread -/

/-- A step of the controlling thread with nothing to join. -/
theorem Settled.controlStep (hsettled : Settled s) {created : Bool}
    (hstep : controlStep s created = some s') : Orderly s' := by
  obtain ⟨hworkers, hstopped, hneed, hhave, hclaim, hjoin⟩ := hsettled
  have hkeep (control : ControlPc) (flags : Flags) (hn : flags.needJoin = false)
      (hh : flags.haveThr = control.creating) (hc : control.claiming = false)
      (hj : control.joining = false) :
      Orderly { s with flags := flags, control := control } :=
    .inl ⟨hworkers, hstopped, hn, hh, hc, hj⟩
  cases hcontrol : s.control <;> rw [hcontrol] at hhave hclaim hjoin <;>
    simp only [ThreadSvc.controlStep, hcontrol] at hstep
  case idle | freed => simp at hstep
  case startClearNeedJoin | stopClearNeedJoin => simp [ControlPc.claiming] at hclaim
  case startJoin | stopJoin => simp [ControlPc.joining] at hjoin
  case startTestHaveThr | startTestNeedJoin | stopTestHaveThr =>
    simp only [hhave, hneed, ControlPc.creating] at hstep
    cases hstep
    exact hkeep _ _ hneed hhave rfl rfl
  case startCreate =>
    obtain h := Option.some.inj hstep
    split_ifs at h <;> cases h
    · refine .inr ⟨s.workers, ⟨.setNeedJoin, 0⟩, rfl, hworkers, rfl, rfl, hstopped, hhave, ?_, ?_,
        ?_, rfl⟩
      · simpa using hneed
      · simp [ControlPc.claiming, ControlPc.joining]
      · simp [ControlPc.startJoining]
    · exact hkeep _ _ hneed hhave rfl rfl
  case stopTestNeedJoin disposing =>
    simp only [hneed] at hstep
    cases hstep
    refine .inl ⟨hworkers, Nat.le_refl _, hneed, ?_, ?_, ?_⟩ <;> cases disposing <;>
      first | exact hhave | rfl
  case contiTestHaveThr stopping =>
    cases hstep
    refine hkeep _ _ hneed ?_ ?_ ?_ <;> cases stopping <;> first | exact hhave | rfl
  all_goals
    cases hstep
    exact hkeep _ _ hneed (by first | exact hhave | rfl) rfl rfl

/-- The join of the last worker leaves nothing to join. -/
theorem Unjoined.join {old : List Worker} {w : Worker} (hun : Unjoined s old w) {t : Service}
    (hjoin : s.join = some t) :
    (∀ v ∈ t.workers, v.pc = .exited ∧ v.joins = 1) ∧ t.flags = s.flags ∧
      t.flags.haveThr = false ∧ t.stopped ≤ t.workers.length := by
  obtain ⟨v, hv, hexited⟩ := Option.bind_eq_some_iff.mp hjoin
  rw [hun.workers, hun.thr, List.getElem?_concat_length] at hv
  obtain rfl : w = v := Option.some.inj hv
  obtain ⟨hpc, heq⟩ := Option.ite_none_right_eq_some.mp hexited
  cases heq
  refine ⟨fun v hv ↦ ?_, rfl, ?_, ?_⟩
  · simp only [hun.workers, hun.thr] at hv
    rw [List.set_append_right _ _ (Nat.le_refl _), Nat.sub_self] at hv
    rcases List.mem_append.mp hv with hold | hlast
    · exact hun.before v hold
    · rw [List.mem_singleton.mp hlast]
      exact ⟨hpc, by rw [hun.joins]⟩
  · rw [hun.haveThr, hpc]
    rfl
  · have hle := hun.stopped
    simp only [List.length_set, hun.workers, List.length_append, List.length_singleton]
    omega

/-- A step of the controlling thread with a worker that was not joined, in time. -/
theorem Unjoined.controlStep {old : List Worker} {w : Worker} (hun : Unjoined s old w)
    {created : Bool} (htime : TestsInTime s (.control created))
    (hstep : controlStep s created = some s') : Orderly s' := by
  have hunion := hun
  obtain ⟨hworkers, hbefore, hjoins, hthr, hstopped, hhave, hneed, hclaim, hstart, hpast⟩ := hun
  have hkeep (control : ControlPc) (flags : Flags) (hh : flags.haveThr = s.flags.haveThr)
      (hn : flags.needJoin = (w.pc ≠ .setNeedJoin && !control.joining))
      (hc : control.claiming = true ∨ control.joining = true → w.pc ≠ .setNeedJoin)
      (hs : control.startJoining = true → w.pc.running = false) (hp : control.pastJoin = false) :
      Orderly { s with flags := flags, control := control } :=
    .inr ⟨old, w, hworkers, hbefore, hjoins, hthr, hstopped, hh.trans hhave, hn, hc, hs, hp⟩
  -- a place that is about no join needs nothing more of the worker
  have hplain (control : ControlPc) (flags : Flags) (hh : flags.haveThr = s.flags.haveThr)
      (hn : flags.needJoin = (w.pc ≠ .setNeedJoin && !control.joining))
      (hclaiming : control.claiming = false) (hjoining : control.joining = false)
      (hstarting : control.startJoining = false) (hp : control.pastJoin = false) :
      Orderly { s with flags := flags, control := control } :=
    hkeep control flags hh hn (by simp [hclaiming, hjoining]) (by simp [hstarting]) hp
  have hrunning (hr : w.pc.running = false) : w.pc ≠ .setNeedJoin := by
    intro h
    rw [h] at hr
    exact absurd hr (by decide)
  cases hcontrol : s.control <;> rw [hcontrol] at hneed hclaim hstart hpast <;>
    simp only [ThreadSvc.controlStep, hcontrol] at hstep
  case idle => simp at hstep
  case startClearTerminate | startSetHaveThr | startCreate | startCreateFailed | free | freed =>
    simp [ControlPc.pastJoin] at hpast
  case startTestHaveThr =>
    cases hstep
    split_ifs with h
    · exact hplain _ _ rfl hneed rfl rfl rfl rfl
    · refine hkeep _ _ rfl hneed (by simp [ControlPc.claiming, ControlPc.joining]) (fun _ ↦ ?_) rfl
      rw [← hhave]
      simpa using h
  case startTestNeedJoin =>
    have hr := hstart rfl
    have hset : s.flags.needJoin = true := by simp [hneed, hrunning hr, ControlPc.joining]
    simp only [hset, if_true] at hstep
    cases hstep
    exact hkeep _ _ rfl (by simp [hset, hrunning hr, ControlPc.joining]) (fun _ ↦ hrunning hr)
      (fun _ ↦ hr) rfl
  case startClearNeedJoin =>
    cases hstep
    exact hkeep _ _ rfl (by simp [ControlPc.joining]) (fun _ ↦ hrunning (hstart rfl))
      (fun _ ↦ hstart rfl) rfl
  case startJoin =>
    obtain ⟨t, hjoin, heq⟩ := Option.map_eq_some_iff.mp hstep
    subst heq
    have hclear : s.flags.needJoin = false := by simp [hneed, ControlPc.joining]
    obtain ⟨hall, hflags, hhave', hle⟩ := hunion.join hjoin
    exact .inl ⟨hall, hle, hflags ▸ hclear, hhave', rfl, rfl⟩
  case stopTestHaveThr disposing =>
    cases hstep
    split_ifs <;> exact hplain _ _ rfl hneed rfl rfl rfl rfl
  case stopTestNeedJoin disposing =>
    have hne : w.pc ≠ .setNeedJoin := htime disposing hcontrol w (by simp [hworkers])
    have hset : s.flags.needJoin = true := by simp [hneed, hne, ControlPc.joining]
    simp only [hset, if_true] at hstep
    cases hstep
    exact hkeep _ _ rfl (by simp [hset, hne, ControlPc.joining]) (fun _ ↦ hne)
      (by simp [ControlPc.startJoining]) rfl
  case stopClearNeedJoin disposing =>
    cases hstep
    exact hkeep _ _ rfl (by simp [ControlPc.joining]) (fun _ ↦ hclaim (.inl rfl))
      (by simp [ControlPc.startJoining]) rfl
  case stopJoin disposing =>
    obtain ⟨t, hjoin, heq⟩ := Option.map_eq_some_iff.mp hstep
    subst heq
    have hclear : s.flags.needJoin = false := by simp [hneed, ControlPc.joining]
    obtain ⟨hall, hflags, hhave', -⟩ := hunion.join hjoin
    refine .inl ⟨hall, Nat.le_refl _, hflags ▸ hclear, ?_, ?_, ?_⟩ <;> cases disposing <;>
      first | exact hhave' | rfl
  case contiTestHaveThr stopping =>
    cases hstep
    cases stopping <;> exact hplain _ _ rfl hneed rfl rfl rfl rfl
  all_goals
    cases hstep
    exact hplain _ _ rfl hneed rfl rfl rfl rfl

/-! ### Runs -/

/-- A step that tests `need_join` in time keeps the state orderly. -/
theorem orderly_svcStep (horderly : Orderly s) {e : Event} (htime : TestsInTime s e)
    (hstep : svcStep s e = some s') : Orderly s' := by
  cases e with
  | call c =>
    obtain ⟨hidle, heq⟩ := Option.ite_none_right_eq_some.mp hstep
    cases heq
    rcases horderly with hsettled | ⟨old, w, hun⟩
    · refine .inl ⟨hsettled.workers, hsettled.stopped, hsettled.needJoin, ?_, ?_, ?_⟩
      · rw [hsettled.haveThr, hidle]
        cases c <;> rfl
      · cases c <;> rfl
      · cases c <;> rfl
    · have hneed := hun.needJoin
      rw [hidle] at hneed
      refine .inr ⟨old, w, hun.workers, hun.before, hun.joins, hun.thr, hun.stopped, hun.haveThr,
        ?_, ?_, ?_, ?_⟩
      · rw [hneed]
        cases c <;> rfl
      · cases c <;> simp [callPc, ControlPc.claiming, ControlPc.joining]
      · cases c <;> simp [callPc, ControlPc.startJoining]
      · cases c <;> rfl
  | control created =>
    rcases horderly with hsettled | ⟨old, w, hun⟩
    · exact hsettled.controlStep hstep
    · exact hun.controlStep htime hstep
  | worker i rc =>
    rcases horderly with hsettled | ⟨old, w, hun⟩
    · exact absurd (hstep.symm.trans (hsettled.workerStep i rc)) (Option.some_ne_none s')
    · obtain ⟨w', hun'⟩ := hun.workerStep hstep
      exact .inr ⟨old, w', hun'⟩

/-- A stop that tests `need_join` too early returns while a worker is about to run. -/
theorem not_safe_of_early (horderly : Orderly s) {e : Event} (hearly : ¬ TestsInTime s e) :
    ∃ s', svcStep s e = some s' ∧ ¬ Safe s' := by
  cases e with
  | call c => exact absurd trivial hearly
  | worker i rc => exact absurd trivial hearly
  | control created =>
    simp only [TestsInTime, not_forall, not_not] at hearly
    obtain ⟨disposing, hcontrol, w, hw, hpc⟩ := hearly
    rcases horderly with hsettled | ⟨old, last, hun⟩
    · rw [(hsettled.workers w hw).1] at hpc
      exact absurd hpc (by decide)
    · have hlast : last.pc = .setNeedJoin := by
        rw [hun.workers] at hw
        rcases List.mem_append.mp hw with hold | hmem
        · rw [(hun.before w hold).1] at hpc
          exact absurd hpc (by decide)
        · rwa [← List.mem_singleton.mp hmem]
      have hneed : s.flags.needJoin = false := by simp [hun.needJoin, hlast]
      refine ⟨s.returnStop disposing, by simp [svcStep, ThreadSvc.controlStep, hcontrol, hneed], ?_⟩
      intro hsafe
      have hstopped := hsafe.stopped old.length last
      simp only [Service.returnStop, hun.workers, List.getElem?_concat_length, List.length_append,
        List.length_singleton, Nat.lt_succ_self, hlast] at hstopped
      exact absurd (hstopped trivial trivial) (by decide)

/-- A step leads to a safe state, if it can be taken. -/
def SafeAfter (s : Service) (e : Event) : Prop :=
  ∀ s', svcStep s e = some s' → Safe s'

/-- In every interleaving, all states reached are safe exactly when every stop tests `need_join`
only after each worker that was created has set it. -/
theorem meets_safeAfter_iff (events : List Event) :
    Meets svcStep SafeAfter newThreadSvc events ↔
      Meets svcStep TestsInTime newThreadSvc events := by
  refine meets_iff_of_invariant (fun s e horderly ↦ ?_)
    (fun s e s' horderly htime hstep ↦ orderly_svcStep horderly htime hstep)
    orderly_newThreadSvc events
  constructor
  · intro hafter
    by_contra hearly
    obtain ⟨s', hstep, hunsafe⟩ := not_safe_of_early horderly hearly
    exact hunsafe (hafter s' hstep)
  · exact fun htime s' hstep ↦ (orderly_svcStep horderly htime hstep).safe

/-- A stop that comes before the first step of the worker. -/
def earlyStop : List Event :=
  [.call .start, .control true, .control true, .control true, .control true, .control true,
    .call .stop, .control true, .control true, .control true, .control true, .control true]

/-- `thrsvc_stop` has returned, and the worker is about to run. -/
theorem earlyStop_unsafe : ∃ t, run svcStep newThreadSvc earlyStop = some t ∧ ¬ Safe t := by
  refine ⟨⟨⟨true, false, true, false, none⟩, 0, [⟨.setNeedJoin, 0⟩], .idle, 1⟩, by decide, ?_⟩
  intro hsafe
  exact absurd (hsafe.stopped 0 ⟨.setNeedJoin, 0⟩ rfl (by decide)) (by decide)

end Katmai.ThreadSvc
