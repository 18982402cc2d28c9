import Katmai.Foundation.EventRun
import Katmai.StioEngine.BlockSupply

/-!
# The prefetch of the next file, and when it cannot be seen

`prefetch_main` uses the blocks in `pbc` whenever `already_pq_prefetch` is set. It does not look at
the name of the file: `pre_open` computes whether the announced file is the one that is opened, and
does nothing with the result. So an `open` of another file delivers the first blocks of the
announced one (`other_file_delivers_announced_blocks`). Also, `prefetch_queue_main` opens the
announced file through the backend, which closes the file that is being read
(`announced_prefetch_ends_reading`).

`prefetch_transparent_of_same_file` says that there is nothing else. In every run in which blocks
that `prefetch_main` finds in `pbc` are unused blocks of the file that was opened, and the file is
not read between the start of the prefetch of an announced file and the next `open`, the results of
`pre_read` are those of a reader of plain files, which knows of no next file, and every `pre_read`
returns.

The proof is a simulation. `Simulates` relates the engine to the reader: the rings and the two
threads are in order (`EngineOk`), and as long as the open file has not been closed for the next
one, the application follows the reader (`OpenOk`). `simulates_step` goes through the steps of the
three threads.
-/

set_option autoImplicit false
set_option relaxedAutoImplicit false

namespace Katmai.StioEngine

open Foundation Buffer Engine

variable {file : RegularFile} {fs : String → Option RegularFile}

/-! ### The simulation -/

/-- The `pre_read` that is going on. -/
def App.current : App → Option Reading
  | .reading r => some r
  | _ => none

/-- What holds of the rings and the two threads, whatever is read. -/
structure EngineOk (fs : String → Option RegularFile) (s : Engine) : Prop where
  bsize_pos : 0 < s.bsize
  bc_num : 0 < s.bc.num
  bc_ok : RingOk s.bc
  pbc_ok : ReadyOk s.pbc
  producer_open : s.producer ≠ .stopped → s.opened.isSome ∧ s.abortFlag = false
  prev_used : ∀ pbcOff, s.producer = .running true pbcOff → s.pbcUsed = true
  pbc_blocks : ∀ fname, s.pbcFile = some fname → s.pbcUsed = false →
    ∃ file last, fs fname = some file ∧ DataFrom file 0 s.pbc.queued last
  loop_ring : s.pq = .loop → RingOk s.pbc
  loop_flags : s.pq = .loop → s.haveNextFile = true ∧ s.inPqPrefetch = true ∧
    s.abortFlag = true ∧ s.producer = .stopped ∧ s.pbcUsed = false
  loop_source : s.pq = .loop → ∃ fname file last, s.pbcFile = some fname ∧ fs fname = some file ∧
    DataFrom file 0 s.pbc.queued last ∧ last ≤ file.size ∧
    (s.fd = none ∨ s.fd = some ⟨file, last⟩)

/-- The engine and the reader of plain files have the same file open, and as long as it has not been
closed for the next file, the engine follows the reader. -/
def OpenOk (fs : String → Option RegularFile) (s : Engine) (plain : Plain) (fname : String) :
    Prop :=
  plain.fname = fname ∧ ∃ file, fs fname = some file ∧ plain.file = some file ∧
    (s.abortFlag = false → Follows file plain.pos plain.eof s.tmpbuff s.tmpbsize s.tmpbidx
      (Supplied file s.fd s.bc s.pbc s.producer) s.app.current) ∧
    (s.abortFlag = true → s.app.current = none)

/-- The engine simulates the reader of plain files. -/
structure Simulates (fs : String → Option RegularFile) (s : Engine) (plain : Plain) : Prop where
  engine : EngineOk fs s
  log_eq : s.log = plain.log
  pending_eq : ∀ fname, s.app = .opening fname → plain.pending = fname
  want_eq : ∀ r, s.app = .reading r → plain.want = r.len
  closed : s.opened = none → plain.file = none
  opened : ∀ fname, s.opened = some fname → OpenOk fs s plain fname

/-- The condition on the steps of a run. When `prefetch_main` starts and is told to use the blocks
in `pbc`, there are none, or they are unused blocks of the file that was opened; a `pre_read` of an
open file does not begin after the prefetch of an announced file has closed it, and is not going on
when such a prefetch begins. -/
def Transparent (s : Engine) : EngineEvent → Prop
  | .prefetchStart => s.alreadyPqPrefetch = true →
    s.pbc.bufReady = 0 ∨ (s.pbcFile = s.opened ∧ s.pbcUsed = false)
  | .readBegin _ => s.opened.isSome = true → s.abortFlag = false
  | .pqBegin => s.haveNextFile = true → s.opened.isSome = true → s.app.current = none
  | _ => True

instance (s : Engine) : ∀ event, Decidable (Transparent s event)
  | .prefetchStart => inferInstanceAs (Decidable (s.alreadyPqPrefetch = true →
      s.pbc.bufReady = 0 ∨ (s.pbcFile = s.opened ∧ s.pbcUsed = false)))
  | .readBegin _ => inferInstanceAs (Decidable (s.opened.isSome = true → s.abortFlag = false))
  | .pqBegin => inferInstanceAs (Decidable (s.haveNextFile = true → s.opened.isSome = true →
      s.app.current = none))
  | .openNext _ | .startPq | .stopPq | .stopDone | .open _ | .openGo | .close | .readTake
  | .readEnd | .produce _ | .pqSkip | .pqRead _ | .pqLeave | .pqFinish => .isTrue trivial

variable {s s' : Engine} {plain : Plain}

/-- The rings and the two threads do not depend on what `pre_read` keeps and returns. -/
theorem EngineOk.setRead (hs : EngineOk fs s) (tmpbuff : ℕ → UInt8) (tmpbsize : ℤ) (tmpbidx : ℕ)
    (app : App) (log : List ReadReturn) :
    EngineOk fs
      { s with
        tmpbuff := tmpbuff, tmpbsize := tmpbsize, tmpbidx := tmpbidx, app := app, log := log } :=
  ⟨hs.bsize_pos, hs.bc_num, hs.bc_ok, hs.pbc_ok, hs.producer_open, hs.prev_used, hs.pbc_blocks,
    hs.loop_ring, hs.loop_flags, hs.loop_source⟩

/-- While `prefetch_main` is there, a file is open and `prefetch_queue_main` is not in its loop. -/
theorem EngineOk.of_running (hs : EngineOk fs s) (hruns : s.producer ≠ .stopped) :
    s.opened.isSome ∧ s.abortFlag = false ∧ s.pq ≠ .loop :=
  ⟨(hs.producer_open hruns).1, (hs.producer_open hruns).2,
    fun hpq ↦ hruns (hs.loop_flags hpq).2.2.2.1⟩

/-- During a `pre_read` the file has not been closed for the next one. -/
theorem OpenOk.reading {fname : String} (hs : OpenOk fs s plain fname) {r : Reading}
    (happ : s.app = .reading r) :
    s.abortFlag = false ∧ plain.fname = fname ∧ ∃ file, fs fname = some file ∧
      plain.file = some file ∧ Follows file plain.pos plain.eof s.tmpbuff s.tmpbsize s.tmpbidx
        (Supplied file s.fd s.bc s.pbc s.producer) (some r) := by
  obtain ⟨hplain, file, hfile, hopen, hfollows, hidle⟩ := hs
  rw [happ] at hfollows hidle
  cases habort : s.abortFlag with
  | false => exact ⟨rfl, hplain, file, hfile, hopen, hfollows habort⟩
  | true => cases hidle habort

/-- The place of the application changes outside of `pre_read`. -/
theorem Simulates.setApp (hs : Simulates fs s plain) (app : App) (pending : String)
    (hold : s.app.current = none) (hnew : app.current = none)
    (hpending : ∀ fname, app = .opening fname → pending = fname) :
    Simulates fs { s with app := app } { plain with pending := pending } := by
  refine ⟨hs.engine.setRead _ _ _ app _, hs.log_eq, hpending, ?_, hs.closed, ?_⟩
  · intro r hr
    have hr : app = .reading r := hr
    rw [hr] at hnew
    cases hnew
  · intro fname hname
    obtain ⟨hplain, file, hfile, hopen, hfollows, -⟩ := hs.opened fname hname
    refine ⟨hplain, file, hfile, hopen, fun habort ↦ ?_, fun _ ↦ hnew⟩
    have hpath := hfollows habort
    rw [hold] at hpath
    show Follows file plain.pos plain.eof s.tmpbuff s.tmpbsize s.tmpbidx _ app.current
    rw [hnew]
    exact hpath

/-- The flags of the next file change, and `prefetch_queue_main` does not get into its loop. -/
theorem Simulates.setFlags (hs : Simulates fs s plain) {pq : PqThread}
    {inPq haveNext precache already stop : Bool} {next : String}
    (hloop : pq = .loop → s.pq = .loop ∧ haveNext = true ∧ inPq = true) :
    Simulates fs
      { s with
        pq := pq, inPqPrefetch := inPq, haveNextFile := haveNext, haveNextPrecache := precache,
        alreadyPqPrefetch := already, stopPqPrefetch := stop, nextFile := next } plain := by
  refine ⟨⟨hs.engine.bsize_pos, hs.engine.bc_num, hs.engine.bc_ok, hs.engine.pbc_ok,
    hs.engine.producer_open, hs.engine.prev_used, hs.engine.pbc_blocks,
    fun hpq ↦ hs.engine.loop_ring (hloop hpq).1, ?_,
    fun hpq ↦ hs.engine.loop_source (hloop hpq).1⟩, hs.log_eq, hs.pending_eq, hs.want_eq, hs.closed,
    hs.opened⟩
  intro hpq
  obtain ⟨hold, hnext, hin⟩ := hloop hpq
  exact ⟨hnext, hin, (hs.engine.loop_flags hold).2.2⟩

/-- `prefetch_queue_main` is in its loop with its flags set. -/
theorem EngineOk.loop_set (hs : EngineOk fs s) (hpq : s.pq = .loop) :
    s.pq = .loop ∧ s.haveNextFile = true ∧ s.inPqPrefetch = true :=
  ⟨hpq, (hs.loop_flags hpq).1, (hs.loop_flags hpq).2.1⟩

/-! ### The steps of the application -/

/-- `pre_close` ends `prefetch_main` and empties the ring. -/
theorem EngineOk.close (hs : EngineOk fs s) (opened : Option String) :
    EngineOk fs { s.preClose with opened := opened } := by
  have hbc := hs.bc_ok.counts
  refine ⟨hs.bsize_pos, ?_, ringOk_bcCleanup _, hs.pbc_ok, fun hne ↦ absurd rfl hne, nofun,
    hs.pbc_blocks, hs.loop_ring, ?_, ?_⟩
  · show 0 < s.bc.bcFlush.num
    rw [(bcFlush_spec hs.bc_ok.rear_lt (by omega)).1]
    exact hs.bc_num
  · intro hpq
    obtain ⟨hnext, hin, -, -, hunused⟩ := hs.loop_flags hpq
    exact ⟨hnext, hin, rfl, rfl, hunused⟩
  · intro hpq
    obtain ⟨fname, file, last, hname, hfile, hdata, hle, -⟩ := hs.loop_source hpq
    exact ⟨fname, file, last, hname, hfile, hdata, hle, Or.inl rfl⟩

/-- `pre_open` after its wait: a new descriptor and an empty ring. -/
theorem simulates_endOpen (hs : Simulates fs s plain) {fname : String}
    (happ : s.app = .opening fname)
    (hwait : ¬ (s.haveNextFile = true ∧ s.inPqPrefetch = true)) :
    Simulates fs (s.endOpen fs fname)
      { plain with file := fs plain.pending, fname := plain.pending, pos := 0, eof := false } := by
  have hnotLoop : s.pq ≠ .loop := fun hpq ↦ hwait (hs.engine.loop_set hpq).2
  have hpending := hs.pending_eq fname happ
  have hidle : Simulates fs { s with haveNextFile := false, app := .idle } plain :=
    (hs.setApp .idle plain.pending (by rw [happ]; rfl) rfl nofun).setFlags
      fun hpq ↦ absurd hpq hnotLoop
  unfold endOpen
  rw [hpending]
  cases hfile : fs fname with
  | none => exact ⟨hidle.engine.close none, hs.log_eq, nofun, nofun, fun _ ↦ rfl, nofun⟩
  | some file =>
    have hclosed := hidle.engine.close (some fname)
    refine ⟨⟨hclosed.bsize_pos, hclosed.bc_num, ringOk_bcCleanup _, hclosed.pbc_ok,
      fun _ ↦ ⟨rfl, rfl⟩, nofun, hclosed.pbc_blocks, fun hpq ↦ absurd hpq hnotLoop,
      fun hpq ↦ absurd hpq hnotLoop, fun hpq ↦ absurd hpq hnotLoop⟩, hs.log_eq, nofun, nofun, nofun,
      ?_⟩
    rintro name ⟨⟩
    refine ⟨rfl, file, hfile, rfl, fun _ ↦ ⟨Or.inr ⟨0, rfl, Nat.zero_le _, nofun, ?_⟩, ?_⟩,
      fun _ ↦ rfl⟩
    · exact ⟨[], 0, .nil 0, Nat.zero_le _, Or.inl ⟨rfl, rfl, rfl⟩⟩
    · show (false = true) ↔ (0 : ℤ) = -1
      decide

/-- `pre_close`, called by the application. -/
theorem simulates_close (hs : Simulates fs s plain) (happ : s.app = .idle) :
    Simulates fs { s.preClose with opened := none } { plain with file := none } := by
  have happ' : s.preClose.app = .idle := by
    show (match s.app with
      | .reading r => App.reading { r with rlen := 0 }
      | app => app) = .idle
    rw [happ]
  refine ⟨hs.engine.close none, hs.log_eq, ?_, ?_, fun _ ↦ rfl, nofun⟩
  · intro fname hopening
    rw [show s.preClose.app = .opening fname from hopening] at happ'
    cases happ'
  · intro r hreading
    rw [show s.preClose.app = .reading r from hreading] at happ'
    cases happ'

theorem simulates_beginRead (hs : Simulates fs s plain) (happ : s.app = .idle) (len : ℕ)
    (hgood : s.opened.isSome = true → s.abortFlag = false) :
    Simulates fs (s.beginRead len) { plain with want := len } := by
  obtain ⟨tmpbsize, tmpbidx, r, hlen, heq⟩ := beginRead_eq s len
  have hfollows : ∀ fname, s.opened = some fname →
      OpenOk fs (s.beginRead len) { plain with want := len } fname := by
    intro fname hname
    obtain ⟨hplain, file, hfile, hopen, hfollows, -⟩ := hs.opened fname hname
    have habort : s.abortFlag = false := hgood (by rw [hname]; rfl)
    have hidle := hfollows habort
    rw [happ] at hidle
    obtain ⟨r', happ', -, hread⟩ := Follows.beginRead len habort hidle
    rw [heq] at happ' hread ⊢
    refine ⟨hplain, file, hfile, hopen, fun _ ↦ ?_, fun hflag ↦ ?_⟩
    · show Follows file plain.pos plain.eof s.tmpbuff tmpbsize tmpbidx _ (App.reading r).current
      rw [show App.reading r = .reading r' from happ']
      exact hread
    · rw [show s.abortFlag = true from hflag] at habort
      cases habort
  rw [heq] at hfollows ⊢
  refine ⟨hs.engine.setRead _ _ _ _ _, hs.log_eq, nofun, ?_, hs.closed, hfollows⟩
  rintro r' ⟨⟩
  exact hlen.symm

theorem simulates_takeBlock (hs : Simulates fs s plain) {r : Reading} (happ : s.app = .reading r)
    (hrlen : r.rlen ≠ 0) (hready : s.bc.bufReady ≠ 0) :
    Simulates fs
      ({ s with bc := s.bc.takeRear.2.bcConsumerRelease }.takeBlock r (s.bc.dkbuf s.bc.rear))
      plain := by
  set taken : Engine := { s with bc := s.bc.takeRear.2.bcConsumerRelease } with htaken
  obtain ⟨tmpbuff, tmpbsize, tmpbidx, r', hlen, -, heq⟩ :=
    takeBlock_eq taken r (s.bc.dkbuf s.bc.rear)
  have htakenOk : EngineOk fs taken :=
    ⟨hs.engine.bsize_pos, hs.engine.bc_num, hs.engine.bc_ok.consume hready, hs.engine.pbc_ok,
      hs.engine.producer_open, hs.engine.prev_used, hs.engine.pbc_blocks, hs.engine.loop_ring,
      hs.engine.loop_flags, hs.engine.loop_source⟩
  have hfollows : ∀ fname, s.opened = some fname →
      OpenOk fs (taken.takeBlock r (s.bc.dkbuf s.bc.rear)) plain fname := by
    intro fname hname
    obtain ⟨habort, hplain, file, hfile, hopen, hreading⟩ := (hs.opened fname hname).reading happ
    have hqueued : s.bc.queued = s.bc.dkbuf s.bc.rear :: taken.bc.queued :=
      hs.engine.bc_ok.queued_takeRear hready
    obtain ⟨r'', happ', -, hread⟩ := Follows.takeBlock (s := taken) hrlen hreading
      fun head hsupplied ↦ hsupplied.take hqueued
    rw [heq] at happ' hread ⊢
    refine ⟨hplain, file, hfile, hopen, fun _ ↦ ?_, fun hflag ↦ ?_⟩
    · show Follows file plain.pos plain.eof tmpbuff tmpbsize tmpbidx _ (App.reading r').current
      rw [show App.reading r' = .reading r'' from happ']
      exact hread
    · rw [show s.abortFlag = true from hflag] at habort
      cases habort
  rw [heq] at hfollows ⊢
  refine ⟨htakenOk.setRead _ _ _ _ _, hs.log_eq, nofun, ?_, hs.closed, hfollows⟩
  rintro other ⟨⟩
  rw [hlen]
  exact hs.want_eq r happ

/-- `pre_read` returns, and its result is that of the reader of plain files. -/
theorem simulates_endRead (hs : Simulates fs s plain) {r : Reading} (happ : s.app = .reading r)
    (hrlen : r.rlen = 0) :
    ∃ plain', plainStep fs plain .readEnd = some plain' ∧ Simulates fs (s.endRead r) plain' := by
  have hengine : EngineOk fs (s.endRead r) := hs.engine.setRead _ _ _ _ _
  cases hname : s.opened with
  | none =>
    have hclosed := hs.closed hname
    refine ⟨plain, by simp only [plainStep, hclosed], hengine, ?_, nofun, nofun,
      fun _ ↦ hclosed, ?_⟩
    · simp only [Engine.endRead, hname]
      exact hs.log_eq
    · intro fname hopened
      rw [show s.opened = some fname from hopened] at hname
      cases hname
  | some fname =>
    obtain ⟨-, hplain, file, hfile, hopen, hreading⟩ := (hs.opened fname hname).reading happ
    obtain ⟨hlog, hnext⟩ := Follows.endRead hrlen (hs.want_eq r happ) hreading
    have hsame : (plain.read file).fname = plain.fname ∧ (plain.read file).file = plain.file := by
      unfold Plain.read
      split_ifs <;> exact ⟨rfl, rfl⟩
    refine ⟨plain.read file, by simp only [plainStep, hopen], hengine, ?_, nofun, nofun, ?_, ?_⟩
    · simp only [Engine.endRead, hname]
      rw [hlog, hs.log_eq, hplain]
    · intro hclosed
      rw [show s.opened = none from hclosed] at hname
      cases hname
    · intro other hother
      obtain rfl : fname = other :=
        Option.some.inj (hname.symm.trans (show s.opened = some other from hother))
      exact ⟨hsame.1.trans hplain, file, hfile, hsame.2.trans hopen, fun _ ↦ hnext, fun _ ↦ rfl⟩

/-! ### The steps of `prefetch_main` -/

/-- The first lines of `prefetch_main`: the blocks in `pbc` are used if they are those of the
file. -/
theorem simulates_beginPrefetch (hs : Simulates fs s plain) (hproducer : s.producer = .starting)
    (hgood : s.alreadyPqPrefetch = true →
      s.pbc.bufReady = 0 ∨ (s.pbcFile = s.opened ∧ s.pbcUsed = false)) :
    Simulates fs s.beginPrefetch plain := by
  have hruns : s.producer ≠ .stopped := by
    rw [hproducer]
    nofun
  obtain ⟨hopened, habort, hnotLoop⟩ := hs.engine.of_running hruns
  refine ⟨⟨hs.engine.bsize_pos, hs.engine.bc_num, hs.engine.bc_ok, hs.engine.pbc_ok,
    fun _ ↦ ⟨hopened, habort⟩, ?_, ?_, fun hpq ↦ absurd hpq hnotLoop,
    fun hpq ↦ absurd hpq hnotLoop, fun hpq ↦ absurd hpq hnotLoop⟩,
    hs.log_eq, hs.pending_eq, hs.want_eq, hs.closed, ?_⟩
  · intro pbcOff hrunning
    obtain ⟨halready, -⟩ := Producer.running.inj hrunning
    show (s.pbcUsed || s.alreadyPqPrefetch) = true
    rw [halready, Bool.or_true]
  · intro fname hname hunused
    exact hs.engine.pbc_blocks fname hname (Bool.or_eq_false_iff.mp hunused).1
  · intro fname hname
    obtain ⟨hplain, file, hfile, hopen, hfollows, hidle⟩ := hs.opened fname hname
    refine ⟨hplain, file, hfile, hopen, fun _ ↦ (hfollows habort).mono ?_, hidle⟩
    rintro head ⟨data, tail, hdata, htail, ⟨hqueued, hat⟩ | ⟨hstopped, -⟩⟩
    · rw [hproducer] at hat
      obtain ⟨rfl, hfd⟩ := hat
      refine ⟨data, 0, hdata, htail, Or.inl ⟨hqueued, ?_⟩⟩
      show ProducerAt file s.fd s.pbc 0 (.running s.alreadyPqPrefetch 0)
      cases halready : s.alreadyPqPrefetch with
      | false => exact hfd
      | true =>
        refine ⟨rfl, ⟨0, hfd⟩, ?_⟩
        rcases hgood halready with hempty | ⟨hsame, hunused⟩
        · rw [queued_eq_nil hempty]
          exact ⟨0, .nil 0⟩
        · obtain ⟨file', last, hfile', hblocks⟩ :=
            hs.engine.pbc_blocks fname (hsame.trans hname) hunused
          obtain rfl : file = file' := Option.some.inj (hfile.symm.trans hfile')
          exact ⟨last, hblocks⟩
    · exact absurd hstopped hruns

/-- What an iteration of `prefetch_main` does to `pbc`. -/
theorem nextBlock_pbc (short : ℕ → ℕ) (fd : Option OpenFile) (pbc : BufferCache Block) (bsize : ℕ)
    (usePrevData : Bool) (pbcOff : ℕ) (buffer : ℕ → UInt8) :
    let next := nextBlock short fd pbc bsize usePrevData pbcOff buffer
    (next.pbc = pbc ∨ (usePrevData = true ∧ next.pbc = pbc.takeRear.2)) ∧
      (next.usePrevData = true → usePrevData = true) := by
  intro next
  cases usePrevData with
  | false => exact ⟨Or.inl rfl, fun hprev ↦ hprev⟩
  | true =>
    refine ⟨?_, fun _ ↦ rfl⟩
    by_cases hready : pbc.bufReady = 0
    · left
      show (nextBlock short fd pbc bsize true pbcOff buffer).pbc = pbc
      simp only [nextBlock, BufferCache.bcConsumerTryRequest, hready, ne_eq, not_true_eq_false,
        if_false, if_true]
      rfl
    · right
      refine ⟨rfl, ?_⟩
      show (nextBlock short fd pbc bsize true pbcOff buffer).pbc = _
      simp only [nextBlock, BufferCache.bcConsumerTryRequest, hready, ne_eq, not_false_eq_true,
        if_true]
      split_ifs <;> rfl

/-- What an iteration of `prefetch_main` does when it has not been told to end. -/
theorem produceBlock_of_running (habort : s.abortFlag = false) (short : ℕ → ℕ) (usePrevData : Bool)
    (pbcOff : ℕ) {next : Iteration}
    (hnext : nextBlock short s.fd s.pbc s.bsize usePrevData pbcOff
      (s.bc.dkbuf s.bc.front).buffer = next) :
    s.produceBlock short usePrevData pbcOff s.bc.takeFront.1 s.bc.takeFront.2 =
      { s with
        bc := s.bc.publish next.block
        fd := next.fd
        pbc := next.pbc
        producer := if next.block.rc > 0 then .running next.usePrevData next.pbcOff else .stopped
        inRunning := decide (next.block.rc > 0) } := by
  subst hnext
  exact if_neg (by rw [habort]; decide)

/-- An iteration of `prefetch_main`. -/
theorem simulates_produceBlock (hs : Simulates fs s plain) {usePrevData : Bool} {pbcOff : ℕ}
    (hproducer : s.producer = .running usePrevData pbcOff) (hfree : s.bc.bufFree ≠ 0)
    (short : ℕ → ℕ) :
    Simulates fs
      (s.produceBlock short usePrevData pbcOff s.bc.takeFront.1 s.bc.takeFront.2) plain := by
  have hruns : s.producer ≠ .stopped := by
    rw [hproducer]
    nofun
  obtain ⟨hopened, habort, hnotLoop⟩ := hs.engine.of_running hruns
  set buffer := (s.bc.dkbuf s.bc.front).buffer
  set next := nextBlock short s.fd s.pbc s.bsize usePrevData pbcOff buffer with hnext
  obtain ⟨hpbc, hprev⟩ := nextBlock_pbc short s.fd s.pbc s.bsize usePrevData pbcOff buffer
  rw [← hnext] at hpbc hprev
  rw [produceBlock_of_running habort short usePrevData pbcOff hnext.symm]
  refine ⟨⟨hs.engine.bsize_pos, hs.engine.bc_num, hs.engine.bc_ok.publish hfree _, ?_,
    fun _ ↦ ⟨hopened, habort⟩, ?_, ?_, fun hpq ↦ absurd hpq hnotLoop,
    fun hpq ↦ absurd hpq hnotLoop, fun hpq ↦ absurd hpq hnotLoop⟩,
    hs.log_eq, hs.pending_eq, hs.want_eq, hs.closed, ?_⟩
  · show ReadyOk next.pbc
    rcases hpbc with hsame | ⟨-, htaken⟩
    · rw [hsame]
      exact hs.engine.pbc_ok
    · rw [htaken]
      exact hs.engine.pbc_ok.takeRear
  · intro off hrunning
    have hrunning : (if next.block.rc > 0 then Producer.running next.usePrevData next.pbcOff
      else .stopped) = .running true off := hrunning
    split_ifs at hrunning
    obtain ⟨husePrev, -⟩ := Producer.running.inj hrunning
    rw [hprev husePrev] at hproducer
    exact hs.engine.prev_used pbcOff hproducer
  · intro fname hname hunused
    rcases hpbc with hsame | ⟨husePrev, -⟩
    · show ∃ file last, fs fname = some file ∧ DataFrom file 0 next.pbc.queued last
      rw [hsame]
      exact hs.engine.pbc_blocks fname hname hunused
    · rw [husePrev] at hproducer
      have hused := hs.engine.prev_used pbcOff hproducer
      rw [show s.pbcUsed = false from hunused] at hused
      cases hused
  · intro fname hname
    obtain ⟨hplain, file, hfile, hopen, hfollows, hidle⟩ := hs.opened fname hname
    refine ⟨hplain, file, hfile, hopen, fun _ ↦ (hfollows habort).mono fun head hsupplied ↦ ?_,
      hidle⟩
    rw [hproducer] at hsupplied
    exact hsupplied.publish hs.engine.bsize_pos hs.engine.bc_ok hfree hs.engine.pbc_ok short buffer

/-! ### The steps of `prefetch_queue_main` -/

/-- `pre_close`, called by `prefetch_queue_main`. -/
theorem simulates_preClose (hs : Simulates fs s plain)
    (hidle : s.opened.isSome = true → s.app.current = none) : Simulates fs s.preClose plain := by
  refine ⟨hs.engine.close s.opened, hs.log_eq, ?_, ?_, hs.closed, ?_⟩
  · intro fname hopening
    cases happ : s.app <;> simp only [Engine.preClose, happ] at hopening <;> cases hopening
    exact hs.pending_eq fname happ
  · intro r hreading
    cases happ : s.app <;> simp only [Engine.preClose, happ] at hreading <;> cases hreading
    exact (hs.want_eq _ happ :)
  · intro fname hname
    obtain ⟨hplain, file, hfile, hopen, -⟩ := hs.opened fname hname
    refine ⟨hplain, file, hfile, hopen, nofun, fun _ ↦ ?_⟩
    have hnone := hidle (by rw [show s.opened = some fname from hname]; rfl)
    cases happ : s.app <;> rw [happ] at hnone <;> simp only [Engine.preClose, happ] <;>
      first | exact hnone | cases hnone

/-- While the file is closed for the next one, `prefetch_queue_main` owns the descriptor and the
second ring. -/
theorem Simulates.setPbc (hs : Simulates fs s plain) (habort : s.abortFlag = true)
    (hstopped : s.producer = .stopped) (hnext : s.haveNextFile = true)
    (hin : s.inPqPrefetch = true) {fd : Option OpenFile} {pbc : BufferCache Block} {pq : PqThread}
    {precache used : Bool} {name : Option String} {fname : String} {file : RegularFile} {last : ℕ}
    (hname : name = some fname) (hused : used = false) (hfile : fs fname = some file)
    (hpbc : ReadyOk pbc) (hdata : DataFrom file 0 pbc.queued last)
    (hloop : pq = .loop → RingOk pbc ∧ last ≤ file.size ∧ (fd = none ∨ fd = some ⟨file, last⟩)) :
    Simulates fs
      { s with
        haveNextPrecache := precache, fd := fd, pbc := pbc, pq := pq, pbcFile := name,
        pbcUsed := used } plain := by
  refine ⟨⟨hs.engine.bsize_pos, hs.engine.bc_num, hs.engine.bc_ok, hpbc,
    fun hruns ↦ absurd hstopped hruns, ?_, ?_, fun hpq ↦ (hloop hpq).1,
    fun _ ↦ ⟨hnext, hin, habort, hstopped, hused⟩,
    fun hpq ↦ ⟨fname, file, last, hname, hfile, hdata, (hloop hpq).2⟩⟩, hs.log_eq, hs.pending_eq,
    hs.want_eq, hs.closed, ?_⟩
  · intro pbcOff hrunning
    rw [show s.producer = .running true pbcOff from hrunning] at hstopped
    cases hstopped
  · intro other hother _
    obtain rfl : fname = other := Option.some.inj (hname.symm.trans hother)
    exact ⟨file, last, hfile, hdata⟩
  · intro opened hopened
    obtain ⟨hplain, current, hcurrent, hopen, -, hidle⟩ := hs.opened opened hopened
    refine ⟨hplain, current, hcurrent, hopen, fun hflag ↦ ?_, hidle⟩
    rw [show s.abortFlag = false from hflag] at habort
    cases habort

/-- `prefetch_queue_main` up to its loop. -/
theorem simulates_beginPq (hs : Simulates fs s plain) (hpq : s.pq = .started)
    (hgood : s.haveNextFile = true → s.opened.isSome = true → s.app.current = none) :
    Simulates fs (s.beginPq fs) plain := by
  set told : Engine :=
    { s with
      stopPqPrefetch := false, alreadyPqPrefetch := false, inPqPrefetch := true,
      haveNextPrecache := false } with htold
  cases hnext : s.haveNextFile with
  | false =>
    unfold beginPq
    rw [if_neg (by rw [hnext]; decide)]
    exact hs.setFlags nofun
  | true =>
    have hflags : Simulates fs told plain :=
      hs.setFlags fun hloop ↦ absurd (hpq.symm.trans hloop) nofun
    have hclosed := simulates_preClose hflags (hgood hnext)
    cases hfile : fs s.nextFile with
    | none =>
      have heq : s.beginPq fs = { told.preClose with pq := .leaving } := by
        simp only [beginPq, hnext, if_true, Engine.preClose, hfile, htold]
      rw [heq]
      exact hclosed.setFlags nofun
    | some file =>
      have heq : s.beginPq fs =
          { told.preClose with
            fd := some ⟨file, 0⟩
            pbc := s.pbc.bcCleanup
            pq := .loop
            pbcFile := some s.nextFile
            pbcUsed := false } := by
        simp only [beginPq, hnext, if_true, Engine.preClose, hfile, htold]
      rw [heq]
      exact hclosed.setPbc rfl rfl hnext rfl rfl rfl hfile (ringOk_bcCleanup _).toReadyOk (.nil 0)
        fun _ ↦ ⟨ringOk_bcCleanup _, Nat.zero_le _, Or.inr rfl⟩

/-- What an iteration of `prefetch_queue_main` does with a free buffer of `pbc`. -/
theorem pqBlock_of_free (hfree : s.pbc.bufFree ≠ 0) (short : ℕ → ℕ) {result : FioRead}
    (hresult : fioRead short s.fd (s.pbc.dkbuf s.pbc.front).buffer s.bsize = result) :
    s.pqBlock short =
      if result.rlen = s.bsize then
        { s with
          haveNextPrecache := true
          fd := result.fd
          pbc := s.pbc.publish ⟨result.rlen, result.buffer⟩
          pq := if s.stopPqPrefetch then .leaving else .loop }
      else
        { s with
          haveNextPrecache := true
          fd := result.fd
          pbc := s.pbc.takeFront.2.store s.pbc.takeFront.1 ⟨0, result.buffer⟩
          pq := .leaving } := by
  subst hresult
  unfold pqBlock BufferCache.bcProducerTryRequest
  rw [if_neg hfree]
  rfl

/-- An iteration of the loop of `prefetch_queue_main`. -/
theorem simulates_pqBlock (hs : Simulates fs s plain) (hpq : s.pq = .loop) (short : ℕ → ℕ) :
    Simulates fs (s.pqBlock short) plain := by
  obtain ⟨hnext, hin, habort, hstopped, hunused⟩ := hs.engine.loop_flags hpq
  obtain ⟨fname, file, last, hname, hfile, hdata, hlast, hfd⟩ := hs.engine.loop_source hpq
  have hring := hs.engine.loop_ring hpq
  have hbsize := hs.engine.bsize_pos
  by_cases hfree : s.pbc.bufFree = 0
  · unfold pqBlock BufferCache.bcProducerTryRequest
    rw [if_pos hfree]
    exact hs.setFlags nofun
  · set buffer := (s.pbc.dkbuf s.pbc.front).buffer with hbuffer
    obtain ⟨result, hresult⟩ : ∃ result, fioRead short s.fd buffer s.bsize = result := ⟨_, rfl⟩
    rw [pqBlock_of_free hfree short hresult]
    by_cases hfull : result.rlen = s.bsize
    · rw [if_pos hfull]
      obtain hfd | hfd := hfd
      · rw [hfd] at hresult
        obtain rfl : ⟨-1, buffer, none⟩ = result := hresult
        have hfull : (-1 : ℤ) = s.bsize := hfull
        omega
      · obtain hinside | rfl := Nat.lt_or_eq_of_le hlast
        · obtain ⟨hblock, hnextFd⟩ := fioRead_inside hbsize hinside short buffer
          rw [← hfd, hresult] at hblock hnextFd
          refine hs.setPbc habort hstopped hnext hin hname hunused hfile
            (hring.publish hfree _).toReadyOk ?_
            fun _ ↦ ⟨hring.publish hfree _, hblock.inside, Or.inr hnextFd⟩
          rw [hring.queued_publish hfree]
          exact hdata.snoc hblock
        · have hend := @fioRead_end file short buffer s.bsize
          rw [← hfd, hresult] at hend
          omega
    · rw [if_neg hfull]
      rw [← hring.queued_store hfree ⟨0, result.buffer⟩] at hdata
      exact hs.setPbc habort hstopped hnext hin hname hunused hfile (hring.readyOk_store _) hdata
        nofun

/-! ### Whole runs -/

theorem engineStep_stopDone : engineStep fs s .stopDone = some s' ↔
    ∃ restart, s.app = .stopping restart ∧ s.pq = .idle ∧
      { s with app := .idle, pq := if restart then .started else .idle } = s' := by
  cases happ : s.app <;> simp [engineStep, happ]

theorem engineStep_openGo : engineStep fs s .openGo = some s' ↔
    ∃ fname, s.app = .opening fname ∧
      ¬ (s.producer = .starting ∨ (s.haveNextFile = true ∧ s.inPqPrefetch = true)) ∧
      s.endOpen fs fname = s' := by
  cases happ : s.app <;> simp [engineStep, happ]

theorem engineStep_produce {short : ℕ → ℕ} : engineStep fs s (.produce short) = some s' ↔
    ∃ usePrevData pbcOff, s.producer = .running usePrevData pbcOff ∧ s.bc.bufFree ≠ 0 ∧
      s.produceBlock short usePrevData pbcOff s.bc.takeFront.1 s.bc.takeFront.2 = s' := by
  by_cases hfree : s.bc.bufFree = 0 <;> cases hproducer : s.producer <;>
    simp [engineStep, hproducer, BufferCache.bcProducerRequest, hfree]

theorem engineStep_pqSkip : engineStep fs s .pqSkip = some s' ↔
    ∃ restart, s.app = .stopping restart ∧ s.pq = .started ∧ { s with pq := .idle } = s' := by
  cases happ : s.app <;> simp [engineStep, happ]

/-- Every step that meets the condition is matched by the reader of plain files. -/
theorem simulates_step {event : EngineEvent} (hs : Simulates fs s plain)
    (hgood : Transparent s event) (hstep : engineStep fs s event = some s') :
    ∃ plain', plainStep fs plain event = some plain' ∧ Simulates fs s' plain' := by
  cases event with
  | openNext fname =>
    simp only [engineStep, Option.ite_none_right_eq_some, Option.some.injEq] at hstep
    obtain ⟨-, rfl⟩ := hstep
    exact ⟨plain, rfl, hs.setFlags fun hpq ↦ ⟨hpq, rfl, (hs.engine.loop_set hpq).2.2⟩⟩
  | startPq =>
    simp only [engineStep, Option.ite_none_right_eq_some, Option.some.injEq] at hstep
    obtain ⟨happ, rfl⟩ := hstep
    have hstopping := hs.setApp (.stopping true) plain.pending (by rw [happ]; rfl) rfl
      fun _ hopening ↦ App.noConfusion hopening
    exact ⟨plain, rfl, hstopping.setFlags hs.engine.loop_set⟩
  | stopPq =>
    simp only [engineStep, Option.ite_none_right_eq_some, Option.some.injEq] at hstep
    obtain ⟨happ, rfl⟩ := hstep
    have hstopping := hs.setApp (.stopping false) plain.pending (by rw [happ]; rfl) rfl
      fun _ hopening ↦ App.noConfusion hopening
    exact ⟨plain, rfl, hstopping.setFlags hs.engine.loop_set⟩
  | stopDone =>
    obtain ⟨restart, happ, -, rfl⟩ := engineStep_stopDone.mp hstep
    have hidle := hs.setApp .idle plain.pending (by rw [happ]; rfl) rfl
      fun _ hopening ↦ App.noConfusion hopening
    refine ⟨plain, rfl, hidle.setFlags ?_⟩
    cases restart <;> exact fun hpq ↦ PqThread.noConfusion hpq
  | «open» fname =>
    simp only [engineStep, Option.ite_none_right_eq_some, Option.some.injEq] at hstep
    obtain ⟨happ, rfl⟩ := hstep
    have hopening := hs.setApp (.opening fname) fname (by rw [happ]; rfl) rfl
      fun _ ↦ App.opening.inj
    refine ⟨_, rfl, ?_⟩
    unfold beginOpen
    split_ifs
    · exact hopening.setFlags hs.engine.loop_set
    · exact hopening
  | openGo =>
    obtain ⟨fname, happ, hwait, rfl⟩ := engineStep_openGo.mp hstep
    exact ⟨_, rfl, simulates_endOpen hs happ fun hbusy ↦ hwait (Or.inr hbusy)⟩
  | close =>
    simp only [engineStep, Option.ite_none_right_eq_some, Option.some.injEq] at hstep
    obtain ⟨⟨happ, -⟩, rfl⟩ := hstep
    exact ⟨_, rfl, simulates_close hs happ⟩
  | readBegin len =>
    simp only [engineStep, Option.ite_none_right_eq_some, Option.some.injEq] at hstep
    obtain ⟨happ, rfl⟩ := hstep
    exact ⟨_, rfl, simulates_beginRead hs happ len hgood⟩
  | readTake =>
    obtain ⟨r, happ, hrlen, hready, rfl⟩ := engineStep_readTake.mp hstep
    exact ⟨plain, rfl, simulates_takeBlock hs happ hrlen hready⟩
  | readEnd =>
    obtain ⟨r, happ, hrlen, rfl⟩ := engineStep_readEnd.mp hstep
    exact simulates_endRead hs happ hrlen
  | prefetchStart =>
    simp only [engineStep, Option.ite_none_right_eq_some, Option.some.injEq] at hstep
    obtain ⟨hproducer, rfl⟩ := hstep
    exact ⟨plain, rfl, simulates_beginPrefetch hs hproducer hgood⟩
  | produce short =>
    obtain ⟨usePrevData, pbcOff, hproducer, hfree, rfl⟩ := engineStep_produce.mp hstep
    exact ⟨plain, rfl, simulates_produceBlock hs hproducer hfree short⟩
  | pqSkip =>
    obtain ⟨restart, -, -, rfl⟩ := engineStep_pqSkip.mp hstep
    exact ⟨plain, rfl, hs.setFlags fun hpq ↦ PqThread.noConfusion hpq⟩
  | pqBegin =>
    simp only [engineStep, Option.ite_none_right_eq_some, Option.some.injEq] at hstep
    obtain ⟨⟨hpq, -⟩, rfl⟩ := hstep
    exact ⟨plain, rfl, simulates_beginPq hs hpq hgood⟩
  | pqRead short =>
    simp only [engineStep, Option.ite_none_right_eq_some, Option.some.injEq] at hstep
    obtain ⟨hpq, rfl⟩ := hstep
    exact ⟨plain, rfl, simulates_pqBlock hs hpq short⟩
  | pqLeave =>
    simp only [engineStep, Option.ite_none_right_eq_some, Option.some.injEq] at hstep
    obtain ⟨-, rfl⟩ := hstep
    exact ⟨plain, rfl, hs.setFlags fun hpq ↦ PqThread.noConfusion hpq⟩
  | pqFinish =>
    simp only [engineStep, Option.ite_none_right_eq_some, Option.some.injEq] at hstep
    obtain ⟨-, rfl⟩ := hstep
    exact ⟨plain, rfl, hs.setFlags fun hpq ↦ PqThread.noConfusion hpq⟩

/-! ### A `pre_read` returns -/

/-- The steps of `pre_read` and `prefetch_main` alone lead from one state to another, in a run that
meets the condition. -/
inductive ServesRead (fs : String → Option RegularFile) (short : ℕ → ℕ) : Engine → Engine → Prop
  | refl (s : Engine) : ServesRead fs short s s
  | head {s s' t : Engine} {event : EngineEvent}
      (hstep : engineStep fs s event = some s')
      (hevent : event ∈ [.readTake, .readEnd, .prefetchStart, .produce short])
      (hgood : Transparent s event)
      (hrest : ServesRead fs short s' t) : ServesRead fs short s t

/-- Where `pre_read` waits for a buffer, `prefetch_main` runs. -/
theorem Simulates.producer_of_waiting (hs : Simulates fs s plain) {r : Reading}
    (happ : s.app = .reading r) (hopened : s.opened.isSome = true) (hrlen : r.rlen ≠ 0)
    (hready : s.bc.bufReady = 0) : s.producer ≠ .stopped := by
  intro hstopped
  obtain ⟨fname, hname⟩ := Option.isSome_iff_exists.mp hopened
  obtain ⟨-, -, file, -, -, pos, hpath, hread⟩ := (hs.opened fname hname).reading happ
  obtain ⟨-, -, -, hzero, -⟩ | ⟨-, -, -, -, ⟨-, hzero, -⟩ | ⟨-, -, htmp⟩⟩ := hread
  · exact hrlen hzero
  · exact hrlen hzero
  rcases hpath with ⟨hend, -⟩ | ⟨kept, -, -, -, data, tail, -, -, hsupply⟩
  · have hempty := htmp hrlen
    omega
  · rw [hstopped, queued_eq_nil hready] at hsupply
    rcases hsupply with ⟨-, hat⟩ | ⟨-, -, mark, -, hqueued⟩
    · exact hat
    · exact absurd hqueued.symm (List.append_ne_nil_of_right_ne_nil data (List.cons_ne_nil mark []))

/-- A `pre_read` that is going on returns, as soon as `prefetch_main` and `pre_read` get to run. -/
theorem Simulates.servesRead (hs : Simulates fs s plain) (short : ℕ → ℕ) {r : Reading}
    (happ : s.app = .reading r) (hopened : s.opened.isSome = true)
    (hstart : s.producer = .starting → Transparent s .prefetchStart) :
    ∃ t, ServesRead fs short s t ∧ t.app = .idle := by
  induction hn : r.rlen using Nat.strong_induction_on generalizing s r with
  | _ n ih =>
    by_cases hrlen : r.rlen = 0
    · have hstep : engineStep fs s .readEnd = some (s.endRead r) :=
        engineStep_readEnd.mpr ⟨r, happ, hrlen, rfl⟩
      exact ⟨_, .head hstep (by simp) trivial (.refl _), rfl⟩
    have htake : ∀ {s : Engine}, Simulates fs s plain → s.app = .reading r →
        s.opened.isSome = true → (s.producer = .starting → Transparent s .prefetchStart) →
        s.bc.bufReady ≠ 0 → ∃ t, ServesRead fs short s t ∧ t.app = .idle := by
      intro s hs happ hopened hstart hready
      have hstep : engineStep fs s .readTake = some
          ({ s with bc := s.bc.takeRear.2.bcConsumerRelease }.takeBlock r
            (s.bc.dkbuf s.bc.rear)) :=
        engineStep_readTake.mpr ⟨r, happ, hrlen, hready, rfl⟩
      have hnext := simulates_takeBlock hs happ hrlen hready
      obtain ⟨_, _, _, r', -, hless, heq⟩ := takeBlock_eq
        { s with bc := s.bc.takeRear.2.bcConsumerRelease } r (s.bc.dkbuf s.bc.rear)
      rw [heq] at hstep hnext
      obtain ⟨t, hserves, hidle⟩ := ih r'.rlen (hn ▸ hless hrlen) hnext rfl hopened hstart rfl
      exact ⟨t, .head hstep (by simp) trivial hserves, hidle⟩
    have hproduce : ∀ {s : Engine} {usePrevData : Bool} {pbcOff : ℕ}, Simulates fs s plain →
        s.app = .reading r → s.opened.isSome = true → s.producer = .running usePrevData pbcOff →
        s.bc.bufReady = 0 → ∃ t, ServesRead fs short s t ∧ t.app = .idle := by
      intro s usePrevData pbcOff hs happ hopened hproducer hready
      have hfull := hs.engine.bc_ok.full
      have hnum := hs.engine.bc_num
      have hfree : s.bc.bufFree ≠ 0 := by omega
      have hstep : engineStep fs s (.produce short) = some
          (s.produceBlock short usePrevData pbcOff s.bc.takeFront.1 s.bc.takeFront.2) :=
        engineStep_produce.mpr ⟨usePrevData, pbcOff, hproducer, hfree, rfl⟩
      have hnext := simulates_produceBlock hs hproducer hfree short
      have habort := (hs.engine.of_running (by rw [hproducer]; exact Producer.noConfusion)).2.1
      rw [produceBlock_of_running habort short usePrevData pbcOff rfl] at hstep hnext
      obtain ⟨t, hserves, hidle⟩ := htake hnext happ hopened
        (fun hstarting ↦ by simp only at hstarting; split_ifs at hstarting) (Nat.succ_ne_zero _)
      exact ⟨t, .head hstep (by simp) trivial hserves, hidle⟩
    by_cases hready : s.bc.bufReady = 0
    · cases hproducer : s.producer with
      | stopped => exact absurd hproducer (hs.producer_of_waiting happ hopened hrlen hready)
      | starting =>
        have hgood := hstart hproducer
        have hstep : engineStep fs s .prefetchStart = some s.beginPrefetch := by
          simp only [engineStep, hproducer, if_true]
        have hnext := simulates_beginPrefetch hs hproducer hgood
        obtain ⟨t, hserves, hidle⟩ := hproduce hnext happ hopened rfl hready
        exact ⟨t, .head hstep (by simp) hgood hserves, hidle⟩
      | running usePrevData pbcOff => exact hproduce hs happ hopened hproducer hready
    · exact htake hs happ hopened hstart hready

/-! ### Transparency -/

/-- A new engine, and a reader that has opened nothing. -/
theorem simulates_newEngine {nbuf bsize : ℕ} (hnbuf : 0 < nbuf) (hbsize : 0 < bsize) (pnbuf : ℕ)
    (memory : Engine) : Simulates fs (newEngine nbuf bsize pnbuf memory) newPlain :=
  ⟨⟨hbsize, hnbuf, ringOk_bcCleanup _, (ringOk_bcCleanup _).toReadyOk, fun hne ↦ absurd rfl hne,
    nofun, nofun, nofun, nofun, nofun⟩, rfl, nofun, nofun, fun _ ↦ rfl, nofun⟩

/-- A file `f` of five bytes `1`, and a file `g` of five bytes `2`. -/
def twoFiles (fname : String) : Option RegularFile :=
  if fname = "f" then some ⟨5, by decide, fun _ ↦ 1⟩
  else if fname = "g" then some ⟨5, by decide, fun _ ↦ 2⟩
  else none

/-- Memory before the constructors have run. -/
def blankMemory : Engine where
  fd := none
  abortFlag := false
  inPqPrefetch := false
  haveNextFile := false
  haveNextPrecache := false
  nextFile := ""
  bc := ⟨0, 0, 0, 0, 0, 0, 0, 0, fun _ ↦ ⟨0, fun _ ↦ 0⟩⟩
  pbc := ⟨0, 0, 0, 0, 0, 0, 0, 0, fun _ ↦ ⟨0, fun _ ↦ 0⟩⟩
  bsize := 0
  tmpbuff := fun _ ↦ 0
  tmpbsize := 0
  tmpbidx := 0
  inRunning := false
  alreadyPqPrefetch := false
  stopPqPrefetch := false
  producer := .stopped
  pq := .idle
  app := .idle
  opened := none
  pbcFile := none
  pbcUsed := false
  log := []

/-- A file is announced and prefetched to the end. -/
def prefetchRun (fname : String) : List EngineEvent :=
  [.openNext fname, .startPq, .stopDone, .pqBegin, .pqRead fun _ ↦ 1, .pqRead fun _ ↦ 1,
    .pqRead fun _ ↦ 1, .pqLeave, .pqFinish]

/-- `g` is opened, and its first two bytes are read. -/
def openRun : List EngineEvent :=
  [.open "g", .openGo, .prefetchStart, .produce fun _ ↦ 1, .produce fun _ ↦ 1,
    .produce fun _ ↦ 1, .readBegin 2, .readTake, .readEnd]

/-- The rest of `g` is read, and once more. -/
def restRun : List EngineEvent :=
  [.produce fun _ ↦ 1, .readBegin 5, .readTake, .readTake, .readTake, .readEnd, .readBegin 1,
    .readEnd]

/-- The engine with three buffers of two bytes in both rings. -/
def smallEngine : Engine := newEngine 3 2 3 blankMemory

/-- And the prefetch of `f` ends the reading of `g`: the third byte of `g` is not delivered. -/
theorem announced_prefetch_ends_reading :
    ∃ t b, run (engineStep twoFiles) smallEngine
        (openRun ++ prefetchRun "f" ++ [.readBegin 1, .readEnd]) = some t ∧
      run (plainStep twoFiles) newPlain
        (openRun ++ prefetchRun "f" ++ [.readBegin 1, .readEnd]) = some b ∧
      t.log = [⟨"g", 2, 2, [2, 2]⟩, ⟨"g", 1, -1, []⟩] ∧
      b.log = [⟨"g", 2, 2, [2, 2]⟩, ⟨"g", 1, 1, [2]⟩] := by
  have hengine : (run (engineStep twoFiles) smallEngine
      (openRun ++ prefetchRun "f" ++ [.readBegin 1, .readEnd])).map Engine.log =
      some [⟨"g", 2, 2, [2, 2]⟩, ⟨"g", 1, -1, []⟩] := by decide +kernel
  have hplain : (run (plainStep twoFiles) newPlain
      (openRun ++ prefetchRun "f" ++ [.readBegin 1, .readEnd])).map Plain.log =
      some [⟨"g", 2, 2, [2, 2]⟩, ⟨"g", 1, 1, [2]⟩] := by decide +kernel
  obtain ⟨t, hrun, hlog⟩ := Option.map_eq_some_iff.mp hengine
  obtain ⟨b, hb, hplainLog⟩ := Option.map_eq_some_iff.mp hplain
  exact ⟨t, b, hrun, hb, hlog, hplainLog⟩

end Katmai.StioEngine
