import Katmai.StioEngine.KeepBuffer
import Katmai.StioEngine.PrefetchTransparency

/-!
# The replay from the keep buffer

`prefetch_main` stores a block only into a buffer that it gets from `c_tryreq`, which hands out
buffers that are ready; no buffer of `kbc` ever is, so in every reachable state nothing is kept and
`kbuf_pos` is `0` (`keeps_nothing`). A first pass over a file is therefore one of the engine
without a keep buffer, and delivers the file (`FirstPass.delivered`).

`pre_reset` closes the file, and opens it again only after the prefetch of an announced file. After
a first pass there is nothing to replay and nothing to read: the second pass delivers nothing
(`second_pass_delivers_nothing`). The replay is faithful exactly for a file without bytes
(`keepBuffer_faithful_iff`).
-/

set_option autoImplicit false
set_option relaxedAutoImplicit false

namespace Katmai.StioEngine

open Foundation Buffer

/-! ### Nothing is ever kept -/

/-- No buffer of the keep buffer is ready, and `kbuf_pos` is where it was at first. -/
structure KeepsNothing (s : KeepEngine) : Prop where
  notReady : ∀ kbc, s.kbc = some kbc → kbc.bufReady = 0
  kbufPos : s.kbufPos = 0

section KeepsNothing

variable {fs : String → Option RegularFile} {s t : KeepEngine}

/-- Changes that leave the keep buffer as it is. -/
theorem KeepsNothing.congr (hs : KeepsNothing s) (hkbc : t.kbc = s.kbc)
    (hpos : t.kbufPos = s.kbufPos) : KeepsNothing t where
  notReady := hkbc.symm ▸ hs.notReady
  kbufPos := hpos.trans hs.kbufPos

/-- The next pass looks at the keep buffer from its first ready buffer. -/
theorem KeepsNothing.topReset (hs : KeepsNothing s) (hkbc : t.kbc = s.kbc.map (·.bcTopReset))
    (hpos : t.kbufPos = s.kbufPos) : KeepsNothing t where
  notReady := by
    intro kbc hsome
    rw [hkbc, Option.map_eq_some_iff] at hsome
    obtain ⟨before, hbefore, rfl⟩ := hsome
    exact hs.notReady before hbefore
  kbufPos := hpos.trans hs.kbufPos

theorem KeepsNothing.pubSetKeepBuffer (hs : KeepsNothing s) (nbuf : ℤ)
    (memory : BufferCache Block) : KeepsNothing (s.pubSetKeepBuffer nbuf memory) := by
  rw [KeepEngine.pubSetKeepBuffer]
  cases hkbc : s.kbc with
  | some kbc =>
    dsimp only
    split_ifs
    · exact ⟨fun _ hsome ↦ Option.some.inj hsome ▸ rfl, hs.kbufPos⟩
    · exact hs.congr hkbc.symm rfl
    · exact hs.congr hkbc.symm rfl
  | none =>
    dsimp only
    split_ifs
    · exact hs
    · exact hs
    · exact ⟨fun _ hsome ↦ Option.some.inj hsome ▸ rfl, hs.kbufPos⟩

theorem KeepsNothing.beginPrefetchMain (hs : KeepsNothing s) :
    KeepsNothing s.beginPrefetchMain := by
  rw [KeepEngine.beginPrefetchMain]
  cases s.enableKbuf with
  | off => exact hs.congr rfl rfl
  | store => exact hs.topReset rfl rfl
  | output => exact hs.topReset rfl rfl

/-- `c_tryreq` has no buffer to store a block in. -/
theorem KeepsNothing.storeKept (hs : KeepsNothing s) (block : Block) :
    KeepsNothing (s.storeKept block) := by
  rw [KeepEngine.storeKept]
  cases hkbc : s.kbc with
  | none => exact hs
  | some kbc =>
    have htry : kbc.bcConsumerTryRequest = (none, kbc) :=
      if_neg (not_not_intro (hs.notReady kbc hkbc))
    dsimp only
    rw [htry]
    exact hs.congr hkbc.symm rfl

theorem KeepsNothing.keepBlock (hs : KeepsNothing s) (block : Block) :
    KeepsNothing (s.keepBlock block) := by
  have hmoved : KeepsNothing { s with fpOff := s.fpOff + block.rc.toNat } := hs.congr rfl rfl
  rw [KeepEngine.keepBlock]
  dsimp only
  split_ifs
  · exact hs
  · exact hmoved.storeKept block
  · exact hmoved

theorem KeepsNothing.produceFile (hs : KeepsNothing s) (short : ℕ → ℕ) (usePrevData : Bool)
    (pbcOff slot : ℕ) (bc : BufferCache Block) :
    KeepsNothing (s.produceFile short usePrevData pbcOff slot bc) := by
  rw [KeepEngine.produceFile]
  split_ifs
  · exact hs.congr rfl rfl
  · refine KeepsNothing.keepBlock ?_ _
    exact hs.congr rfl rfl

/-- Without ready buffers a replay ends at once, and the block comes from the file. -/
theorem KeepsNothing.produceNext_eq (hs : KeepsNothing s) (short : ℕ → ℕ) (usePrevData : Bool)
    (pbcOff slot : ℕ) (bc : BufferCache Block) :
    ∃ kbcState, s.produceNext short usePrevData pbcOff slot bc =
      { s with kbcState := kbcState }.produceFile short usePrevData pbcOff slot bc := by
  rw [KeepEngine.produceNext]
  split_ifs
  · refine ⟨.finished, ?_⟩
    cases hkbc : s.kbc with
    | none => rfl
    | some kbc =>
      have htry : kbc.bcTopTryRequest = (none, kbc) :=
        if_neg (by rw [hs.notReady kbc hkbc]; exact Nat.not_lt_zero _)
      simp only [htry]
  · exact ⟨s.kbcState, rfl⟩

theorem KeepsNothing.produceNext (hs : KeepsNothing s) (short : ℕ → ℕ) (usePrevData : Bool)
    (pbcOff slot : ℕ) (bc : BufferCache Block) :
    KeepsNothing (s.produceNext short usePrevData pbcOff slot bc) := by
  obtain ⟨kbcState, hnext⟩ := hs.produceNext_eq short usePrevData pbcOff slot bc
  rw [hnext]
  refine KeepsNothing.produceFile ?_ short usePrevData pbcOff slot bc
  exact hs.congr rfl rfl

theorem keepStep_setKeepBuffer {nbuf : ℤ} {memory : BufferCache Block} :
    keepStep fs s (.setKeepBuffer nbuf memory) = some t ↔
      s.engine.app = .idle ∧ s.pubSetKeepBuffer nbuf memory = t := by
  simp [keepStep]

theorem keepStep_produce {short : ℕ → ℕ} :
    keepStep fs s (.engine (.produce short)) = some t ↔
      ∃ usePrevData pbcOff, s.engine.producer = .running usePrevData pbcOff ∧
        s.engine.bc.bufFree ≠ 0 ∧ s.produceNext short usePrevData pbcOff
          s.engine.bc.takeFront.1 s.engine.bc.takeFront.2 = t := by
  by_cases hfree : s.engine.bc.bufFree = 0 <;> cases hproducer : s.engine.producer <;>
    simp [keepStep, hproducer, BufferCache.bcProducerRequest, hfree]

/-- No step keeps anything. -/
theorem keepsNothing_step (event : KeepEvent) (hs : KeepsNothing s)
    (hstep : keepStep fs s event = some t) : KeepsNothing t := by
  cases event with
  | setKeepBuffer nbuf memory =>
    obtain ⟨-, rfl⟩ := keepStep_setKeepBuffer.mp hstep
    exact hs.pubSetKeepBuffer nbuf memory
  | reset =>
    obtain ⟨-, ⟨⟩⟩ := Option.ite_none_right_eq_some.mp hstep
    exact hs.congr rfl rfl
  | engine event =>
    cases event with
    | prefetchStart =>
      obtain ⟨-, ⟨⟩⟩ := Option.ite_none_right_eq_some.mp hstep
      exact hs.beginPrefetchMain
    | produce short =>
      obtain ⟨usePrevData, pbcOff, -, -, rfl⟩ := keepStep_produce.mp hstep
      exact hs.produceNext short usePrevData pbcOff _ _
    | _ =>
      obtain ⟨engine, -, rfl⟩ := Option.map_eq_some_iff.mp hstep
      exact hs.congr rfl rfl

end KeepsNothing

/-- In every run of the engine, whatever is set, opened, announced, read and reset, nothing is ever
kept. -/
theorem keeps_nothing (fs : String → Option RegularFile) (nbuf bsize pnbuf : ℕ)
    (memory : KeepEngine) (events : List KeepEvent) {s : KeepEngine}
    (hrun : run (keepStep fs) (newKeepEngine nbuf bsize pnbuf memory) events = some s) :
    KeepsNothing s :=
  run_invariant (fun _ event _ hs hstep ↦ keepsNothing_step event hs hstep)
    ⟨fun _ hsome ↦ absurd hsome (Option.some_ne_none _).symm, rfl⟩ hrun

/-! ### Passes -/

/-- What happens while one file is read: the steps of `prefetch_main` and of `pre_read`. -/
inductive PassEvent
  | prefetchStart
  | produce (short : ℕ → ℕ)
  | readBegin (len : ℕ)
  | readTake
  | readEnd

/-- The step of the engine. -/
def PassEvent.event : PassEvent → EngineEvent
  | .prefetchStart => .prefetchStart
  | .produce short => .produce short
  | .readBegin len => .readBegin len
  | .readTake => .readTake
  | .readEnd => .readEnd

/-- One step of a pass. -/
def passStep (fs : String → Option RegularFile) (s : KeepEngine) (event : PassEvent) :
    Option KeepEngine :=
  keepStep fs s (.engine event.event)

section Parts

variable {fs : String → Option RegularFile} {s t : KeepEngine}

/-- What happens to the keep buffer leaves the engine alone. -/
theorem keepBlock_eq (s : KeepEngine) (block : Block) :
    ∃ kbc kbufPos kbcState fpOff, s.keepBlock block =
      { s with kbc := kbc, kbufPos := kbufPos, kbcState := kbcState, fpOff := fpOff } := by
  rw [KeepEngine.keepBlock]
  dsimp only
  split_ifs
  · exact ⟨_, _, _, _, rfl⟩
  · rw [KeepEngine.storeKept]
    dsimp only
    split
    · exact ⟨_, _, _, _, rfl⟩
    · split
      · exact ⟨_, _, _, _, rfl⟩
      · exact ⟨_, _, _, _, rfl⟩
  · exact ⟨_, _, _, _, rfl⟩

/-- An iteration that does not replay does to the engine what it does without a keep buffer. -/
theorem produceFile_eq (s : KeepEngine) (short : ℕ → ℕ) (usePrevData : Bool) (pbcOff slot : ℕ)
    (bc : BufferCache Block) :
    ∃ kbc kbufPos kbcState fpOff, s.produceFile short usePrevData pbcOff slot bc =
      { s with
        engine := s.engine.produceBlock short usePrevData pbcOff slot bc
        kbc := kbc
        kbufPos := kbufPos
        kbcState := kbcState
        fpOff := fpOff } := by
  rw [KeepEngine.produceFile]
  split_ifs
  · exact ⟨_, _, _, _, rfl⟩
  · exact keepBlock_eq _ _

/-- At its start `prefetch_main` goes elsewhere in the file only to replay. -/
theorem beginPrefetchMain_engine (hseek : s.enableKbuf ≠ .output ∨ s.engine.fd = none) :
    s.beginPrefetchMain.engine = s.engine.beginPrefetch := by
  rw [KeepEngine.beginPrefetchMain]
  cases hmode : s.enableKbuf with
  | off => rfl
  | store => rfl
  | output =>
    have hfd : s.engine.fd = none := hseek.resolve_left (not_not_intro hmode)
    have hbegin : s.engine.beginPrefetch.fd = none := hfd
    dsimp only
    rw [hbegin]
    exact congrArg (fun fd ↦ { s.engine.beginPrefetch with fd := fd }) hbegin.symm

theorem beginPrefetchMain_flags : s.beginPrefetchMain.needReopen = s.needReopen ∧
    s.beginPrefetchMain.enableKbuf = s.enableKbuf := by
  rw [KeepEngine.beginPrefetchMain]
  cases s.enableKbuf with
  | off => exact ⟨rfl, rfl⟩
  | store => exact ⟨rfl, rfl⟩
  | output => exact ⟨rfl, rfl⟩

/-- In a pass with nothing to replay the engine does what it does without a keep buffer. -/
theorem passStep_engine {event : PassEvent} (hkeeps : KeepsNothing s)
    (hseek : s.enableKbuf ≠ .output ∨ s.engine.fd = none)
    (hstep : passStep fs s event = some t) :
    engineStep fs s.engine event.event = some t.engine ∧ t.needReopen = s.needReopen ∧
      t.enableKbuf = s.enableKbuf := by
  cases event with
  | prefetchStart =>
    obtain ⟨hstarting, ⟨⟩⟩ := Option.ite_none_right_eq_some.mp hstep
    rw [beginPrefetchMain_engine hseek]
    exact ⟨if_pos hstarting, beginPrefetchMain_flags⟩
  | produce short =>
    obtain ⟨usePrevData, pbcOff, hproducer, hfree, rfl⟩ := keepStep_produce.mp hstep
    obtain ⟨state, hnext⟩ := hkeeps.produceNext_eq short usePrevData pbcOff
      s.engine.bc.takeFront.1 s.engine.bc.takeFront.2
    obtain ⟨kbc, kbufPos, kbcState, fpOff, hfile⟩ := produceFile_eq { s with kbcState := state }
      short usePrevData pbcOff s.engine.bc.takeFront.1 s.engine.bc.takeFront.2
    rw [hnext, hfile]
    exact ⟨engineStep_produce.mpr ⟨usePrevData, pbcOff, hproducer, hfree, rfl⟩, rfl, rfl⟩
  | readBegin | readTake | readEnd =>
    obtain ⟨engine, hengine, rfl⟩ := Option.map_eq_some_iff.mp hstep
    exact ⟨hengine, rfl, rfl⟩

end Parts

/-! ### The first pass -/

section FirstPass

variable {fs : String → Option RegularFile} {file : RegularFile} {s t : KeepEngine}

/-- A reader of the plain file has delivered everything before its offset. -/
structure PlainAt (file : RegularFile) (plain : Plain) : Prop where
  file_eq : plain.file = some file
  delivered : plain.log.flatMap (·.bytes) = bytesAt file.byte 0 plain.pos

theorem PlainAt.read {plain : Plain} (hplain : PlainAt file plain) :
    PlainAt file (plain.read file) := by
  rw [Plain.read]
  split_ifs
  · refine ⟨hplain.file_eq, ?_⟩
    rw [List.flatMap_append, hplain.delivered]
    exact List.append_nil _
  · refine ⟨hplain.file_eq, ?_⟩
    have hnext := bytesAt_append file.byte 0 plain.pos (min plain.want (file.size - plain.pos))
    rw [Nat.zero_add] at hnext
    rw [List.flatMap_append, hplain.delivered, List.flatMap_singleton]
    exact hnext

/-- A step of a pass keeps what a reader of the plain file has delivered. -/
theorem PlainAt.step {plain plain' : Plain} (hplain : PlainAt file plain) (event : PassEvent)
    (hstep : plainStep fs plain event.event = some plain') : PlainAt file plain' := by
  cases event with
  | readBegin len =>
    obtain ⟨⟩ := hstep
    exact ⟨hplain.file_eq, hplain.delivered⟩
  | readEnd =>
    have hread : plainStep fs plain .readEnd = some (plain.read file) := by
      simp only [plainStep, hplain.file_eq]
    obtain ⟨⟩ := hread.symm.trans hstep
    exact hplain.read
  | prefetchStart | produce | readTake =>
    obtain ⟨⟩ := hstep
    exact hplain

/-- While a file is read for the first time the engine follows a reader of the plain file. -/
structure FirstPass (fs : String → Option RegularFile) (file : RegularFile) (s : KeepEngine) :
    Prop where
  keeps : KeepsNothing s
  needReopen : s.needReopen = false
  enableKbuf : s.enableKbuf ≠ .output
  abortFlag : s.engine.abortFlag = false
  alreadyPqPrefetch : s.engine.alreadyPqPrefetch = false
  opened : s.engine.opened.isSome
  plain : ∃ plain, Simulates fs s.engine plain ∧ PlainAt file plain

/-- A pass does not touch these flags. -/
theorem passEvent_flags {engine engine' : Engine} (event : PassEvent)
    (hstep : engineStep fs engine event.event = some engine') :
    engine'.abortFlag = engine.abortFlag ∧ engine'.opened = engine.opened ∧
      (engine.alreadyPqPrefetch = false → engine'.alreadyPqPrefetch = false) := by
  cases event with
  | prefetchStart =>
    obtain ⟨-, ⟨⟩⟩ := Option.ite_none_right_eq_some.mp hstep
    exact ⟨rfl, rfl, fun _ ↦ rfl⟩
  | produce short =>
    obtain ⟨usePrevData, pbcOff, -, -, rfl⟩ := engineStep_produce.mp hstep
    rw [Engine.produceBlock]
    split_ifs
    · exact ⟨rfl, rfl, id⟩
    · exact ⟨rfl, rfl, id⟩
  | readBegin len =>
    obtain ⟨-, ⟨⟩⟩ := Option.ite_none_right_eq_some.mp hstep
    rw [Engine.beginRead]
    split_ifs
    · exact ⟨rfl, rfl, id⟩
    · exact ⟨rfl, rfl, id⟩
    · exact ⟨rfl, rfl, id⟩
    · exact ⟨rfl, rfl, id⟩
  | readTake =>
    obtain ⟨r, -, -, -, rfl⟩ := engineStep_readTake.mp hstep
    rw [Engine.takeBlock]
    split_ifs
    · exact ⟨rfl, rfl, id⟩
    · exact ⟨rfl, rfl, id⟩
    · exact ⟨rfl, rfl, id⟩
  | readEnd =>
    obtain ⟨r, -, -, rfl⟩ := engineStep_readEnd.mp hstep
    exact ⟨rfl, rfl, id⟩

theorem FirstPass.step (hs : FirstPass fs file s) (event : PassEvent)
    (hstep : passStep fs s event = some t) : FirstPass fs file t := by
  obtain ⟨hengine, hneed, hmode⟩ := passStep_engine hs.keeps (.inl hs.enableKbuf) hstep
  obtain ⟨habort, hopened, halready⟩ := passEvent_flags event hengine
  obtain ⟨plain, hsim, hplain⟩ := hs.plain
  have hgood : Transparent s.engine event.event := by
    cases event with
    | prefetchStart => exact fun h ↦ absurd h (by rw [hs.alreadyPqPrefetch]; decide)
    | readBegin len => exact fun _ ↦ hs.abortFlag
    | produce | readTake | readEnd => exact trivial
  obtain ⟨plain', hplainStep, hsim'⟩ := simulates_step hsim hgood hengine
  exact
    { keeps := keepsNothing_step _ hs.keeps hstep
      needReopen := hneed.trans hs.needReopen
      enableKbuf := hmode ▸ hs.enableKbuf
      abortFlag := habort.trans hs.abortFlag
      alreadyPqPrefetch := halready hs.alreadyPqPrefetch
      opened := hopened ▸ hs.opened
      plain := ⟨plain', hsim', hplain.step event hplainStep⟩ }

/-- The reader is in no call and has met the end of the file. -/
def PassDone (s : KeepEngine) : Prop :=
  s.engine.app = .idle ∧ s.engine.tmpbsize < 0

/-- A first pass that has come to its end has delivered the file. -/
theorem FirstPass.delivered (hs : FirstPass fs file s) (hdone : PassDone s) :
    s.engine.log.flatMap (·.bytes) = bytesAt file.byte 0 file.size := by
  obtain ⟨plain, hsim, hplain⟩ := hs.plain
  obtain ⟨fname, hopened⟩ := Option.isSome_iff_exists.mp hs.opened
  obtain ⟨-, file', -, hfile', hfollows, -⟩ := hsim.opened fname hopened
  have hsame : file' = file := Option.some.inj (hfile'.symm.trans hplain.file_eq)
  have hpath := hfollows hs.abortFlag
  rw [hdone.1] at hpath
  rcases hpath.1 with ⟨-, hpos⟩ | ⟨kept, hkept, -⟩
  · rw [hsim.log_eq, hplain.delivered, hpos, hsame]
  · exact absurd hdone.2 (by rw [hkept]; omega)

end FirstPass

/-! ### The second pass -/

section SecondPass

variable {fs : String → Option RegularFile} {file : RegularFile} {s t : KeepEngine}
  {base : List ReadReturn} {engine engine' : Engine}

/-- No file is open, the ring holds at most marks of the end, and nothing has been delivered since
the results in `base`. -/
structure Quiet (base : List ReadReturn) (engine : Engine) : Prop where
  fd : engine.fd = none
  alreadyPqPrefetch : engine.alreadyPqPrefetch = false
  usePrevData : ∀ usePrevData pbcOff, engine.producer = .running usePrevData pbcOff →
    usePrevData = false
  ring : RingOk engine.bc
  blocks : ∀ block ∈ engine.bc.queued, block.rc ≤ 0
  tmpbsize : engine.tmpbsize ≤ 0
  got : ∀ r, engine.app = .reading r → r.got = []
  log : ∃ rest, engine.log = base ++ rest ∧ rest.flatMap (·.bytes) = []

/-- Without a file `prefetch_main` puts a mark of the end into the ring. -/
theorem produceBlock_of_closed (hfd : engine.fd = none) (short : ℕ → ℕ) (pbcOff : ℕ) :
    ∃ mark : Block, mark.rc = -1 ∧
      engine.produceBlock short false pbcOff engine.bc.takeFront.1 engine.bc.takeFront.2 =
        { engine with
          bc := engine.bc.publish mark
          producer := .stopped
          inRunning := false } := by
  rw [Engine.produceBlock]
  split_ifs
  · exact ⟨⟨-1, _⟩, rfl, rfl⟩
  · refine ⟨⟨-1, (engine.bc.takeFront.2.dkbuf engine.bc.takeFront.1).buffer⟩, rfl, ?_⟩
    rw [hfd]
    rfl

theorem Quiet.beginRead (hs : Quiet base engine) (len : ℕ) : Quiet base (engine.beginRead len) := by
  have htmp := hs.tmpbsize
  rw [Engine.beginRead]
  split_ifs with hfailed hmore hsome
  · refine { hs with got := ?_ }
    rintro r ⟨⟩
    rfl
  · exact absurd hmore (by omega)
  · exact absurd hsome (by omega)
  · refine { hs with got := ?_ }
    rintro r ⟨⟩
    rfl

theorem Quiet.endRead (hs : Quiet base engine) {r : Reading} (happ : engine.app = .reading r) :
    Quiet base (engine.endRead r) := by
  have hgot := hs.got r happ
  obtain ⟨rest, hlog, hrest⟩ := hs.log
  rw [Engine.endRead]
  refine { hs with got := fun _ hreading ↦ absurd hreading (by simp), log := ?_ }
  cases engine.opened with
  | none => exact ⟨rest, hlog, hrest⟩
  | some fname =>
    refine ⟨rest ++ [⟨fname, r.len, if r.failed then -1 else r.got.length, r.got⟩], ?_, ?_⟩
    · rw [hlog]
      exact List.append_assoc _ _ _
    · rw [List.flatMap_append, hrest, List.flatMap_singleton]
      exact hgot

/-- A step of a pass without a file delivers nothing. -/
theorem Quiet.step (hs : Quiet base engine) (event : PassEvent)
    (hstep : engineStep fs engine event.event = some engine') : Quiet base engine' := by
  cases event with
  | prefetchStart =>
    obtain ⟨-, ⟨⟩⟩ := Option.ite_none_right_eq_some.mp hstep
    refine { hs with alreadyPqPrefetch := rfl, usePrevData := ?_ }
    intro usePrevData pbcOff hrunning
    obtain ⟨⟩ := hrunning
    exact hs.alreadyPqPrefetch
  | produce short =>
    obtain ⟨usePrevData, pbcOff, hrunning, hfree, rfl⟩ := engineStep_produce.mp hstep
    obtain rfl := hs.usePrevData usePrevData pbcOff hrunning
    obtain ⟨mark, hmark, hproduced⟩ := produceBlock_of_closed hs.fd short pbcOff
    rw [hproduced]
    refine { hs with usePrevData := nofun, ring := hs.ring.publish hfree mark, blocks := ?_ }
    intro block hblock
    rw [hs.ring.queued_publish hfree mark, List.mem_append, List.mem_singleton] at hblock
    rcases hblock with hblock | rfl
    · exact hs.blocks block hblock
    · rw [hmark]
      decide
  | readBegin len =>
    obtain ⟨-, ⟨⟩⟩ := Option.ite_none_right_eq_some.mp hstep
    exact hs.beginRead len
  | readTake =>
    obtain ⟨r, happ, -, hready, rfl⟩ := engineStep_readTake.mp hstep
    have hqueue := hs.ring.toReadyOk.queued_takeRear hready
    have hblocks : ∀ block ∈ engine.bc.dkbuf engine.bc.rear :: engine.bc.takeRear.2.queued,
        block.rc ≤ 0 := hqueue ▸ hs.blocks
    obtain ⟨hfirst, hothers⟩ := List.forall_mem_cons.mp hblocks
    rw [Engine.takeBlock, if_pos hfirst]
    refine { hs with
      ring := hs.ring.consume hready
      blocks := hothers
      tmpbsize := show (-1 : ℤ) ≤ 0 by decide
      got := ?_ }
    intro r' hreading
    obtain ⟨⟩ := hreading
    exact hs.got r happ
  | readEnd =>
    obtain ⟨r, happ, -, rfl⟩ := engineStep_readEnd.mp hstep
    exact hs.endRead happ

/-- `pre_reset` after a first pass leaves no file open. -/
theorem FirstPass.quiet_preReset (hs : FirstPass fs file s) (happ : s.engine.app = .idle) :
    Quiet s.engine.log (s.preReset fs).engine where
  fd := by
    simp only [KeepEngine.preReset, hs.needReopen]
    rfl
  alreadyPqPrefetch := hs.alreadyPqPrefetch
  usePrevData := nofun
  ring := ringOk_bcCleanup _
  blocks := by
    intro block hblock
    rw [show (s.preReset fs).engine.bc.queued = [] from queued_eq_nil rfl] at hblock
    exact absurd hblock List.not_mem_nil
  tmpbsize := Int.le_refl 0
  got := by
    intro r hreading
    have hidle : (s.preReset fs).engine.app = .idle := by
      simp only [KeepEngine.preReset, Engine.preOpenStep1, Engine.preClose, happ]
    exact absurd (hidle.symm.trans hreading) (by simp)
  log := ⟨[], (List.append_nil _).symm, rfl⟩

/-- Whatever the file, after a first pass and a `reset` nothing is delivered. -/
theorem second_pass_delivers_nothing (hs : FirstPass fs file s) {reset : KeepEngine}
    (hreset : keepStep fs s .reset = some reset) (second : List PassEvent)
    (hsecond : run (passStep fs) reset second = some t) :
    (t.engine.log.drop s.engine.log.length).flatMap (·.bytes) = [] := by
  have hkeeps := keepsNothing_step .reset hs.keeps hreset
  obtain ⟨hguard, ⟨⟩⟩ := Option.ite_none_right_eq_some.mp hreset
  have hstep : ∀ s' event t', KeepsNothing s' ∧ Quiet s.engine.log s'.engine →
      passStep fs s' event = some t' → KeepsNothing t' ∧ Quiet s.engine.log t'.engine := by
    intro s' event t' hs' hstep
    have hengine := passStep_engine hs'.1 (.inr hs'.2.fd) hstep
    exact ⟨keepsNothing_step _ hs'.1 hstep, hs'.2.step event hengine.1⟩
  have hquiet := run_invariant hstep ⟨hkeeps, hs.quiet_preReset hguard.1⟩ hsecond
  obtain ⟨rest, hlog, hrest⟩ := hquiet.2.log
  rw [hlog, List.drop_left, hrest]

end SecondPass

/-! ### The replay -/

/-- The blocks of a file as `prefetch_main` reads them. -/
def fileBlocks (file : RegularFile) (bsize : ℕ) : List (List UInt8) :=
  (List.range ((file.size + bsize - 1) / bsize)).map fun i ↦
    bytesAt file.byte (i * bsize) (min bsize (file.size - i * bsize))

/-- The contents of the ready buffers of the keep buffer, in order. -/
def KeepEngine.keptBlocks (s : KeepEngine) : List (List UInt8) :=
  match s.kbc with
  | some kbc => kbc.queued.map fun block ↦ bytesAt block.buffer 0 block.rc.toNat
  | none => []

/-- What a keep buffer of `knbuf` blocks is for, after a first pass that has ended in `s` and at `t`
in the second: the first blocks are kept, `kbuf_pos` is how far they reach, and the second pass
delivers what the first has delivered. -/
structure ReplayFaithful (file : RegularFile) (bsize knbuf : ℕ) (s t : KeepEngine) : Prop where
  kept : s.keptBlocks = (fileBlocks file bsize).take knbuf
  kbufPos : s.kbufPos = ((fileBlocks file bsize).take knbuf).flatten.length
  replayed : (t.engine.log.drop s.engine.log.length).flatMap (·.bytes) =
    s.engine.log.flatMap (·.bytes)

/-- The keep buffer is made and enabled, and a file is opened. -/
def keepSetup (knbuf enable : ℕ) (memory memory' : BufferCache Block) (fname : String) :
    List KeepEvent :=
  [.setKeepBuffer knbuf memory, .setKeepBuffer (enable + 1) memory', .engine (.open fname),
    .engine .openGo]

theorem KeepsNothing.keptBlocks {s : KeepEngine} (hs : KeepsNothing s) : s.keptBlocks = [] := by
  rw [KeepEngine.keptBlocks]
  cases hkbc : s.kbc with
  | none => rfl
  | some kbc =>
    dsimp only
    rw [queued_eq_nil (hs.notReady kbc hkbc)]
    rfl

theorem fileBlocks_eq_nil {file : RegularFile} {bsize : ℕ} (hbsize : 0 < bsize) :
    fileBlocks file bsize = [] ↔ file.size = 0 := by
  rw [fileBlocks, List.map_eq_nil_iff, List.range_eq_nil, Nat.div_eq_zero_iff]
  omega

/-- Setting the keep buffer leaves the engine alone, and begins no replay. -/
theorem pubSetKeepBuffer_flags (s : KeepEngine) (nbuf : ℤ) (memory : BufferCache Block) :
    (s.pubSetKeepBuffer nbuf memory).engine = s.engine ∧
      (s.pubSetKeepBuffer nbuf memory).needReopen = s.needReopen ∧
      (s.enableKbuf ≠ .output → (s.pubSetKeepBuffer nbuf memory).enableKbuf ≠ .output) := by
  rw [KeepEngine.pubSetKeepBuffer]
  cases s.kbc with
  | some kbc =>
    dsimp only
    split_ifs
    · exact ⟨rfl, rfl, id⟩
    · exact ⟨rfl, rfl, fun _ ↦ by simp⟩
    · exact ⟨rfl, rfl, fun _ ↦ by simp⟩
  | none =>
    dsimp only
    split_ifs
    · exact ⟨rfl, rfl, id⟩
    · exact ⟨rfl, rfl, id⟩
    · exact ⟨rfl, rfl, fun _ ↦ by simp⟩

/-- A new engine that opens a file follows a reader of the plain file. -/
theorem newEngine_open {fs : String → Option RegularFile} {fname : String} {file : RegularFile}
    (hfile : fs fname = some file) {nbuf bsize : ℕ} (hnbuf : 0 < nbuf) (hbsize : 0 < bsize)
    (pnbuf : ℕ) (memory : Engine) {opening opened : Engine}
    (hopening : engineStep fs (newEngine nbuf bsize pnbuf memory) (.open fname) = some opening)
    (hopened : engineStep fs opening .openGo = some opened) :
    opened.abortFlag = false ∧ opened.alreadyPqPrefetch = false ∧ opened.opened.isSome ∧
      ∃ plain, Simulates fs opened plain ∧ PlainAt file plain := by
  obtain ⟨_, hplain, hsim⟩ := simulates_step
    (simulates_newEngine hnbuf hbsize pnbuf memory) (show Transparent _ (.open fname) from trivial)
    hopening
  obtain ⟨⟩ := hplain
  obtain ⟨_, hplain', hsim'⟩ :=
    simulates_step hsim (show Transparent _ .openGo from trivial) hopened
  obtain ⟨⟩ := hplain'
  obtain ⟨⟩ := hopening
  obtain ⟨name, hname, -, rfl⟩ := engineStep_openGo.mp hopened
  obtain rfl : fname = name := App.opening.inj hname
  simp only [Engine.endOpen, hfile] at hsim' ⊢
  exact ⟨rfl, rfl, rfl, _, hsim', rfl, rfl⟩

/-- An engine whose keep buffer is enabled and that has opened a file begins its first pass. -/
theorem firstPass_of_keepSetup {fs : String → Option RegularFile} {fname : String}
    {file : RegularFile} (hfile : fs fname = some file) {nbuf bsize : ℕ} (hnbuf : 0 < nbuf)
    (hbsize : 0 < bsize) {pnbuf knbuf enable : ℕ} {memory : KeepEngine}
    {kbcMemory kbcMemory' : BufferCache Block} {s : KeepEngine}
    (hopen : run (keepStep fs) (newKeepEngine nbuf bsize pnbuf memory)
      (keepSetup knbuf enable kbcMemory kbcMemory' fname) = some s) :
    FirstPass fs file s := by
  have hkeeps := keeps_nothing fs nbuf bsize pnbuf memory _ hopen
  obtain ⟨made, hmade, hopen⟩ := run_cons_eq_some.mp hopen
  obtain ⟨enabled, henabled, hopen⟩ := run_cons_eq_some.mp hopen
  obtain ⟨opening, hopening, hopen⟩ := run_cons_eq_some.mp hopen
  obtain ⟨opened, hopened, hopen⟩ := run_cons_eq_some.mp hopen
  obtain rfl : opened = s := Option.some.inj hopen
  obtain ⟨-, rfl⟩ := keepStep_setKeepBuffer.mp hmade
  obtain ⟨-, rfl⟩ := keepStep_setKeepBuffer.mp henabled
  obtain ⟨hengine, -, hmode⟩ := pubSetKeepBuffer_flags (newKeepEngine nbuf bsize pnbuf memory)
    knbuf kbcMemory
  obtain ⟨hengine', -, hmode'⟩ := pubSetKeepBuffer_flags
    ((newKeepEngine nbuf bsize pnbuf memory).pubSetKeepBuffer knbuf kbcMemory) (enable + 1)
    kbcMemory'
  obtain ⟨engine, hbegin, rfl⟩ := Option.map_eq_some_iff.mp hopening
  obtain ⟨engine', hgo, rfl⟩ := Option.map_eq_some_iff.mp hopened
  rw [hengine', hengine] at hbegin
  obtain ⟨habort, halready, hsome, hplain⟩ :=
    newEngine_open hfile hnbuf hbsize pnbuf memory.engine hbegin hgo
  refine ⟨hkeeps, rfl, ?_, habort, halready, hsome, hplain⟩
  dsimp only
  split_ifs
  · simp
  · exact hmode' (hmode (by simp [newKeepEngine]))

/-- For every file, every size of the rings and every interleaving of `prefetch_main` with the
reader, the keep buffer does what it is for exactly if the file has no bytes. -/
theorem keepBuffer_faithful_iff (fs : String → Option RegularFile) {fname : String}
    {file : RegularFile} (hfile : fs fname = some file) {nbuf bsize : ℕ} (hnbuf : 0 < nbuf)
    (hbsize : 0 < bsize) (pnbuf : ℕ) {knbuf : ℕ} (hknbuf : 3 ≤ knbuf) (enable : ℕ)
    (memory : KeepEngine) (kbcMemory kbcMemory' : BufferCache Block)
    (first second : List PassEvent) {opened s reset t : KeepEngine}
    (hopen : run (keepStep fs) (newKeepEngine nbuf bsize pnbuf memory)
      (keepSetup knbuf enable kbcMemory kbcMemory' fname) = some opened)
    (hfirst : run (passStep fs) opened first = some s) (hdone : PassDone s)
    (hreset : keepStep fs s .reset = some reset)
    (hsecond : run (passStep fs) reset second = some t) :
    ReplayFaithful file bsize knbuf s t ↔ file.size = 0 := by
  have hpass := run_invariant (fun _ event _ hs hstep ↦ FirstPass.step hs event hstep)
    (firstPass_of_keepSetup hfile hnbuf hbsize hopen) hfirst
  have hnothing := second_pass_delivers_nothing hpass hreset second hsecond
  constructor
  · intro hfaithful
    have htake := hpass.keeps.keptBlocks.symm.trans hfaithful.kept
    rcases List.take_eq_nil_iff.mp htake.symm with hzero | hnil
    · exact absurd hzero (by omega)
    · exact (fileBlocks_eq_nil hbsize).mp hnil
  · intro hempty
    have hblocks : fileBlocks file bsize = [] := (fileBlocks_eq_nil hbsize).mpr hempty
    have hdelivered := hpass.delivered hdone
    rw [hempty] at hdelivered
    refine ⟨?_, ?_, hnothing.trans hdelivered.symm⟩
    · rw [hpass.keeps.keptBlocks, hblocks, List.take_nil]
    · rw [hpass.keeps.kbufPos, hblocks, List.take_nil]
      rfl

/-- Memory before the constructors have run. -/
def blankKeepMemory : KeepEngine where
  engine := blankMemory
  kbc := none
  knbuf := 0
  enableKbuf := .off
  kbufPos := 0
  needReopen := false
  currentFile := ""
  kbcState := .unused
  fpOff := 0

/-- What a pass can be judged by: where the reader is, what it keeps, `kbuf_pos` and the results of
its reads. -/
def KeepEngine.outcome (s : KeepEngine) : App × ℤ × ℕ × List ReadReturn :=
  (s.engine.app, s.engine.tmpbsize, s.kbufPos, s.engine.log)

/-- An engine with three buffers of two bytes and a keep buffer of three opens `song`, reads it in a
first pass, is reset, and reads it in a second pass. -/
def twoPasses (fs : String → Option RegularFile) (first second : List PassEvent) :
    Option (KeepEngine × KeepEngine × KeepEngine × KeepEngine) := do
  let opened ← run (keepStep fs) (newKeepEngine 3 2 3 blankKeepMemory)
    (keepSetup 3 0 blankMemory.bc blankMemory.bc "song")
  let s ← run (passStep fs) opened first
  let reset ← keepStep fs s .reset
  let t ← run (passStep fs) reset second
  return (opened, s, reset, t)

theorem twoPasses_eq_some {fs : String → Option RegularFile} {first second : List PassEvent}
    {opened s reset t : KeepEngine} :
    twoPasses fs first second = some (opened, s, reset, t) ↔
      run (keepStep fs) (newKeepEngine 3 2 3 blankKeepMemory)
          (keepSetup 3 0 blankMemory.bc blankMemory.bc "song") = some opened ∧
        run (passStep fs) opened first = some s ∧ keepStep fs s .reset = some reset ∧
        run (passStep fs) reset second = some t := by
  simp only [twoPasses, Option.bind_eq_bind, Option.bind_eq_some_iff, Option.pure_def,
    Option.some.injEq, Prod.mk.injEq]
  constructor
  · rintro ⟨_, hopen, _, hfirst, _, hreset, _, hsecond, rfl, rfl, rfl, rfl⟩
    exact ⟨hopen, hfirst, hreset, hsecond⟩
  · rintro ⟨hopen, hfirst, hreset, hsecond⟩
    exact ⟨_, hopen, _, hfirst, _, hreset, _, hsecond, rfl, rfl, rfl, rfl⟩

/-- A file without bytes. -/
def emptyFile : RegularFile := ⟨0, Nat.two_pow_pos 31, fun _ ↦ 0⟩

/-- A pass over a file that has no bytes, or is not open. -/
def emptyPass : List PassEvent :=
  [.prefetchStart, .produce fun _ ↦ 0, .readBegin 1, .readTake, .readEnd]

/-- A file without bytes is replayed. -/
theorem keepBuffer_faithful_iff_emptyFile :
    ∃ opened s reset t, twoPasses (fun _ ↦ some emptyFile) emptyPass emptyPass =
      some (opened, s, reset, t) ∧ PassDone s ∧ PassDone t ∧
      ReplayFaithful emptyFile 2 3 s t := by
  have hfirst : (twoPasses (fun _ ↦ some emptyFile) emptyPass emptyPass).map
      (·.2.1.outcome) = some (.idle, -1, 0, [⟨"song", 1, 0, []⟩]) := by decide +kernel
  have hsecond : (twoPasses (fun _ ↦ some emptyFile) emptyPass emptyPass).map
      (·.2.2.2.outcome) = some (.idle, -1, 0, [⟨"song", 1, 0, []⟩, ⟨"song", 1, 0, []⟩]) := by
    decide +kernel
  obtain ⟨⟨opened, s, reset, t⟩, hrun, hs⟩ := Option.map_eq_some_iff.mp hfirst
  rw [hrun, Option.map_some, Option.some.injEq] at hsecond
  simp only [KeepEngine.outcome, Prod.mk.injEq] at hs hsecond
  have hdone : PassDone s := ⟨hs.1, by rw [hs.2.1]; decide⟩
  obtain ⟨hopen, hpass, hreset, hreplay⟩ := twoPasses_eq_some.mp hrun
  have hiff := keepBuffer_faithful_iff (fun _ ↦ some emptyFile) rfl (by decide) (by decide) 3
    (by decide) 0 blankKeepMemory blankMemory.bc blankMemory.bc emptyPass emptyPass hopen hpass
    hdone hreset hreplay
  exact ⟨opened, s, reset, t, hrun, hdone, ⟨hsecond.1, by rw [hsecond.2.1]; decide⟩,
    hiff.mpr rfl⟩

/-- A file of six bytes. -/
def songFile : RegularFile := ⟨6, by decide, fun i ↦ UInt8.ofNat (i + 1)⟩

/-- A pass that reads the six bytes, and the end of the file. -/
def songPass : List PassEvent :=
  [.prefetchStart, .produce fun _ ↦ 0, .produce fun _ ↦ 1, .produce fun _ ↦ 0, .readBegin 6,
    .readTake, .readTake, .readTake, .readEnd, .produce fun _ ↦ 0, .readBegin 1, .readTake,
    .readEnd]

/-- The first pass delivers the six bytes and keeps none of them, and the second pass, which finds
no open file, delivers nothing. -/
theorem not_keepBuffer_faithful :
    ∃ opened s reset t, twoPasses (fun _ ↦ some songFile) songPass emptyPass =
      some (opened, s, reset, t) ∧ PassDone s ∧ PassDone t ∧ s.kbufPos = 0 ∧
      s.engine.log = [⟨"song", 6, 6, [1, 2, 3, 4, 5, 6]⟩, ⟨"song", 1, 0, []⟩] ∧
      t.engine.log = s.engine.log ++ [⟨"song", 1, 0, []⟩] ∧
      ¬ ReplayFaithful songFile 2 3 s t := by
  have hfirst : (twoPasses (fun _ ↦ some songFile) songPass emptyPass).map (·.2.1.outcome) =
      some (.idle, -1, 0, [⟨"song", 6, 6, [1, 2, 3, 4, 5, 6]⟩, ⟨"song", 1, 0, []⟩]) := by
    decide +kernel
  have hsecond : (twoPasses (fun _ ↦ some songFile) songPass emptyPass).map (·.2.2.2.outcome) =
      some (.idle, -1, 0, [⟨"song", 6, 6, [1, 2, 3, 4, 5, 6]⟩, ⟨"song", 1, 0, []⟩,
        ⟨"song", 1, 0, []⟩]) := by
    decide +kernel
  obtain ⟨⟨opened, s, reset, t⟩, hrun, hs⟩ := Option.map_eq_some_iff.mp hfirst
  rw [hrun, Option.map_some, Option.some.injEq] at hsecond
  simp only [KeepEngine.outcome, Prod.mk.injEq] at hs hsecond
  refine ⟨opened, s, reset, t, hrun, ⟨hs.1, by rw [hs.2.1]; decide⟩,
    ⟨hsecond.1, by rw [hsecond.2.1]; decide⟩, hs.2.2.1, hs.2.2.2, ?_, fun hfaithful ↦ ?_⟩
  · rw [hsecond.2.2.2, hs.2.2.2]
    rfl
  · have hreplayed := hfaithful.replayed
    rw [hsecond.2.2.2, hs.2.2.2] at hreplayed
    exact absurd hreplayed (by decide)

end Katmai.StioEngine
