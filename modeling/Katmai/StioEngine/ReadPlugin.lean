import Katmai.StioEngine.ReadPosition

/-!
# The read plugin of `stio_engine`

A read plugin is called on every buffer that a read hands out, and with a null buffer when a file is
opened or started over. `pub_read`, the direct path, calls it on whatever the backend has given,
after an automatic repeat if there was one. `pre_read`, the prefetch path, calls it on a block that
it takes from the ring when the block has bytes.

The backend, the plugin and the blocks in the ring are arguments. `calls` is a book of the lengths
with which the plugin was called on a buffer. `pubRead_fileBackend` says that `pub_read` without a
plugin is the one of plain files, `preRead_calls_pos` that `pre_read` calls the plugin on nothing
but bytes, and `contained_iff` when a read that gives nothing leaves the plugin alone.
-/

set_option autoImplicit false
set_option relaxedAutoImplicit false

namespace Katmai.StioEngine

open Foundation

/-- What a plugin gives for a buffer: its return value, the buffer, and its state. -/
structure PluginOutput (σ : Type) where
  rc : ℤ
  buffer : ℕ → UInt8
  state : σ

/-- A read plugin with states `σ`: the call with a null buffer, and the call on a buffer of a length
that is given as an `int`, which may make an access that the machine traps. -/
structure ReadPlugin (σ : Type) where
  reset : σ → σ
  call : σ → (ℕ → UInt8) → ℤ → Option (PluginOutput σ)

/-- What a backend gives for a read: the return value, the buffer, and its state. -/
structure BackendRead (β : Type) where
  rc : ℤ
  buffer : ℕ → UInt8
  backend : β

/-- A backend: `pd->read` and `pd->reset`. -/
structure Backend (β : Type) where
  read : β → (ℕ → UInt8) → ℕ → BackendRead β
  reset : β → ℤ × β

section DirectPath

variable {σ β : Type}

/-- The fields of `struct stio_engine_pd_t` for the direct path, and the states of the backend and
of the plugin. -/
structure PluginEngine (σ β : Type) where
  backend : β
  fpPos : ℤ
  repeatCnt : ℤ
  plugin : σ

/-- `pub_read` up to the plugin: the result of the backend. -/
structure FinalRead (σ β : Type) where
  rc : ℤ
  buffer : ℕ → UInt8
  engine : PluginEngine σ β

/-- `pub_read`: the lengths with which the plugin was called on a buffer, and the return value, the
buffer and the engine. -/
structure PluginRead (σ β : Type) where
  calls : List ℤ
  result : Option (ℤ × (ℕ → UInt8) × PluginEngine σ β)

namespace PluginEngine

/-- `pub_reset`. -/
def pubReset (io : Backend β) (readPlugin : Option (ReadPlugin σ)) (s : PluginEngine σ β) :
    PluginEngine σ β :=
  let started := io.reset s.backend
  match readPlugin with
  | some plugin =>
    if started.1 > 0 then { s with backend := started.2, plugin := plugin.reset s.plugin }
    else { s with backend := started.2 }
  | none => { s with backend := started.2 }

/-- The reads of `pub_read`. -/
def finalRead (io : Backend β) (readPlugin : Option (ReadPlugin σ)) (s : PluginEngine σ β)
    (buffer : ℕ → UInt8) (len : ℕ) : FinalRead σ β :=
  let first := io.read s.backend buffer len
  let s := { s with backend := first.backend }
  if first.rc ≤ 0 then
    if -1 ≤ first.rc ∧ s.repeatCnt ≠ 0 then
      let s := if 0 < s.repeatCnt then { s with repeatCnt := s.repeatCnt - 1 } else s
      let s := { s.pubReset io readPlugin with fpPos := 0 }
      let again := io.read s.backend first.buffer len
      ⟨again.rc, again.buffer, { s with backend := again.backend }⟩
    else ⟨first.rc, first.buffer, s⟩
  else ⟨first.rc, first.buffer, { s with fpPos := s.fpPos + first.rc }⟩

/-- `pub_read`. -/
def pubRead (io : Backend β) (readPlugin : Option (ReadPlugin σ)) (s : PluginEngine σ β)
    (buffer : ℕ → UInt8) (len : ℕ) : PluginRead σ β :=
  let last := s.finalRead io readPlugin buffer len
  match readPlugin with
  | some plugin =>
    ⟨[last.rc], (plugin.call last.engine.plugin last.buffer last.rc).map fun out ↦
      (out.rc, out.buffer, { last.engine with plugin := out.state })⟩
  | none => ⟨[], some (last.rc, last.buffer, last.engine)⟩

end PluginEngine

/-- The backend of plain files, whose reads are as short as the next of two numbers says. -/
def fileBackend : Backend (Option OpenFile × (ℕ → ℕ) × (ℕ → ℕ)) where
  read := fun (fd, short, shortAgain) buffer len ↦
    let result := fioRead short fd buffer (PubEngine.explen len).toNat
    ⟨result.rlen, result.buffer, result.fd, shortAgain, shortAgain⟩
  reset := fun (fd, short, shortAgain) ↦
    match fd with
    | some fd => (1, some (fd.lseek 0), short, shortAgain)
    | none => (0, none, short, shortAgain)

/-- A read of the backend of plain files. -/
theorem fileBackend_read (s : PubEngine) (short shortAgain : ℕ → ℕ) (buffer : ℕ → UInt8)
    (len : ℕ) :
    fileBackend.read (s.fd, short, shortAgain) buffer len =
      ⟨(s.pdRead short buffer len).rlen, (s.pdRead short buffer len).buffer,
        (s.pdRead short buffer len).fd, shortAgain, shortAgain⟩ :=
  rfl

/-- Starting over without a plugin. -/
theorem pubReset_fileBackend (s : PubEngine) (short shortAgain : ℕ → ℕ) (plugin : σ)
    (fpPos repeatCnt : ℤ) :
    PluginEngine.pubReset fileBackend none ⟨(s.fd, short, shortAgain), fpPos, repeatCnt, plugin⟩ =
      ⟨(s.pubReset.2.fd, short, shortAgain), fpPos, repeatCnt, plugin⟩ := by
  rcases s with ⟨fd, fsize, pos, cnt, eop⟩
  cases fd with
  | none => rfl
  | some fd => rfl

/-- Starting over leaves the repeat count. -/
theorem repeatCnt_pubReset (s : PubEngine) : s.pubReset.2.repeatCnt = s.repeatCnt := by
  rcases s with ⟨fd, fsize, pos, cnt, eop⟩
  cases fd with
  | none => rfl
  | some fd => rfl

/-- Without a plugin, `pub_read` on the backend of plain files is `PubEngine.pubRead`. -/
theorem pubRead_fileBackend (s : PubEngine) (short shortAgain : ℕ → ℕ) (buffer : ℕ → UInt8)
    (len : ℕ) (plugin : σ) :
    (PluginEngine.pubRead fileBackend none ⟨(s.fd, short, shortAgain), s.fpPos, s.repeatCnt, plugin⟩
        buffer len).result =
      some ((s.pubRead short shortAgain buffer len).1, (s.pubRead short shortAgain buffer len).2.1,
        ⟨((s.pubRead short shortAgain buffer len).2.2.fd, shortAgain, shortAgain),
          (s.pubRead short shortAgain buffer len).2.2.fpPos,
          (s.pubRead short shortAgain buffer len).2.2.repeatCnt, plugin⟩) := by
  have hread := fileBackend_read s short shortAgain buffer len
  simp only [PluginEngine.pubRead, PluginEngine.finalRead, PubEngine.pubRead, hread]
  generalize s.pdRead short buffer len = first
  -- the state in which an automatic repeat starts over
  have hagain : ∀ repeatCnt : ℤ,
      (PluginEngine.pubReset fileBackend none
        ⟨(first.fd, shortAgain, shortAgain), s.fpPos, repeatCnt, plugin⟩) =
        ⟨({ s with fd := first.fd, repeatCnt := repeatCnt }.pubReset.2.fd, shortAgain, shortAgain),
          s.fpPos, repeatCnt, plugin⟩ :=
    fun repeatCnt ↦ pubReset_fileBackend { s with fd := first.fd, repeatCnt := repeatCnt }
      shortAgain shortAgain plugin s.fpPos repeatCnt
  by_cases hend : first.rlen ≤ 0
  · by_cases hrepeat : -1 ≤ first.rlen ∧ s.repeatCnt ≠ 0
    · by_cases hcount : 0 < s.repeatCnt
      · simp only [if_pos hend, if_pos hrepeat, if_pos hcount, hagain, repeatCnt_pubReset]
        rfl
      · simp only [if_pos hend, if_pos hrepeat, if_neg hcount, hagain, repeatCnt_pubReset]
        rfl
    · simp only [if_pos hend, if_neg hrepeat]
  · simp only [if_neg hend]

/-- The plugin is called on a buffer once, with the final result of the backend. -/
theorem calls_pubRead (io : Backend β) (plugin : ReadPlugin σ) (s : PluginEngine σ β)
    (buffer : ℕ → UInt8) (len : ℕ) :
    (s.pubRead io (some plugin) buffer len).calls =
      [(s.finalRead io (some plugin) buffer len).rc] :=
  rfl

end DirectPath

/-! ### The prefetch path -/

section PrefetchPath

variable {σ : Type}

/-- `struct disk_buffer_t`: the number of bytes, the buffer, and whether the file was started over
for this block. -/
structure PluginBlock where
  rc : ℤ
  buffer : ℕ → UInt8
  dbflag : Bool

/-- The fields that `pre_read` uses, and the state of the plugin. -/
structure PluginReader (σ : Type) where
  abortFlag : Bool
  tmpbuff : ℕ → UInt8
  tmpbsize : ℤ
  tmpbidx : ℕ
  plugin : σ

/-- `pre_read`: the lengths with which the plugin was called on a buffer, and the return value, the
bytes handed out and the reader. -/
structure PreRead (σ : Type) where
  calls : List ℤ
  result : Option (ℤ × List UInt8 × PluginReader σ)

namespace PluginReader

/-- The plugin on a block, which is reset first when the file was started over. -/
def blockOutput (readPlugin : Option (ReadPlugin σ)) (state : σ) (block : PluginBlock) :
    Option (PluginOutput σ) :=
  match readPlugin with
  | some plugin =>
    plugin.call (if block.dbflag then plugin.reset state else state) block.buffer block.rc
  | none => some ⟨block.rc, block.buffer, state⟩

/-- The call that is made for a block. -/
def blockCall (readPlugin : Option (ReadPlugin σ)) (block : PluginBlock) : List ℤ :=
  match readPlugin with
  | some _ => [block.rc]
  | none => []

/-- The loop of `pre_read`, which takes the blocks from the `k`-th on and still wants `rlen` bytes;
it has got `got`. -/
def preLoop (readPlugin : Option (ReadPlugin σ)) (blocks : ℕ → PluginBlock) (k rlen : ℕ)
    (s : PluginReader σ) (got : List UInt8) (calls : List ℤ) : PreRead σ :=
  if rlen = 0 then ⟨calls, some (got.length, got, s)⟩
  else if (blocks k).rc ≤ 0 then ⟨calls, some (got.length, got, { s with tmpbsize := -1 })⟩
  else
    match blockOutput readPlugin s.plugin (blocks k) with
    | none => ⟨calls ++ blockCall readPlugin (blocks k), none⟩
    | some out =>
      let calls := calls ++ blockCall readPlugin (blocks k)
      let s := { s with plugin := out.state }
      if out.rc ≤ 0 then ⟨calls, some (got.length, got, { s with tmpbsize := -1 })⟩
      else if out.rc > rlen then
        let got := got ++ bytesAt out.buffer 0 rlen
        ⟨calls, some (got.length, got,
          { s with
            tmpbidx := 0
            tmpbsize := out.rc - rlen
            tmpbuff := copyInto s.tmpbuff 0 (out.rc - rlen).toNat fun j ↦
              out.buffer (rlen + j) })⟩
      else
        preLoop readPlugin blocks (k + 1) (rlen - out.rc.toNat) s
          (got ++ bytesAt out.buffer 0 out.rc.toNat) calls
termination_by rlen
decreasing_by omega

/-- `pre_read`. -/
def preRead (readPlugin : Option (ReadPlugin σ)) (blocks : ℕ → PluginBlock) (s : PluginReader σ)
    (len : ℕ) : PreRead σ :=
  if s.abortFlag then ⟨[], some (-1, [], s)⟩
  else if s.tmpbsize < 0 then ⟨[], some (-1, [], s)⟩
  else if s.tmpbsize > len then
    ⟨[], some (len, bytesAt s.tmpbuff s.tmpbidx len,
      { s with tmpbidx := s.tmpbidx + len, tmpbsize := s.tmpbsize - len })⟩
  else if s.tmpbsize > 0 then
    preLoop readPlugin blocks 0 (len - s.tmpbsize.toNat) { s with tmpbsize := 0, tmpbidx := 0 }
      (bytesAt s.tmpbuff s.tmpbidx s.tmpbsize.toNat) []
  else preLoop readPlugin blocks 0 len s [] []

/-- The call for a block with bytes is on bytes. -/
theorem blockCall_pos (readPlugin : Option (ReadPlugin σ)) {block : PluginBlock} {calls : List ℤ}
    (hbytes : ¬ block.rc ≤ 0) (hcalls : ∀ n ∈ calls, 0 < n) :
    ∀ n ∈ calls ++ blockCall readPlugin block, 0 < n := by
  refine List.forall_mem_append.mpr ⟨hcalls, ?_⟩
  cases readPlugin with
  | none => exact fun _ h ↦ absurd h List.not_mem_nil
  | some plugin => exact List.forall_mem_singleton.mpr (Int.not_le.mp hbytes)

/-- The loop calls the plugin on nothing but bytes. -/
theorem preLoop_calls_pos (readPlugin : Option (ReadPlugin σ)) (blocks : ℕ → PluginBlock)
    (k rlen : ℕ) (s : PluginReader σ) (got : List UInt8) (calls : List ℤ)
    (hcalls : ∀ n ∈ calls, 0 < n) :
    ∀ n ∈ (preLoop readPlugin blocks k rlen s got calls).calls, 0 < n := by
  fun_induction preLoop readPlugin blocks k rlen s got calls with
  | case1 => exact hcalls
  | case2 => exact hcalls
  | case3 _ _ _ _ _ _ hbytes => exact blockCall_pos readPlugin hbytes hcalls
  | case4 _ _ _ _ _ _ hbytes => exact blockCall_pos readPlugin hbytes hcalls
  | case5 _ _ _ _ _ _ hbytes => exact blockCall_pos readPlugin hbytes hcalls
  | case6 _ _ _ _ _ _ hbytes _ _ _ _ _ _ ih => exact ih (blockCall_pos readPlugin hbytes hcalls)

/-- `pre_read` calls the plugin on nothing but bytes. -/
theorem preRead_calls_pos (readPlugin : Option (ReadPlugin σ)) (blocks : ℕ → PluginBlock)
    (s : PluginReader σ) (len : ℕ) : ∀ n ∈ (s.preRead readPlugin blocks len).calls, 0 < n := by
  have hnone : ∀ n ∈ ([] : List ℤ), 0 < n := fun _ h ↦ absurd h List.not_mem_nil
  unfold preRead
  split_ifs
  · exact hnone
  · exact hnone
  · exact hnone
  · exact preLoop_calls_pos readPlugin blocks _ _ _ _ _ hnone
  · exact preLoop_calls_pos readPlugin blocks _ _ _ _ _ hnone

/-- A block without bytes that a read finds first ends it: the plugin is not called, and nothing is
handed out. -/
theorem preRead_of_no_bytes (readPlugin : Option (ReadPlugin σ)) (blocks : ℕ → PluginBlock)
    (s : PluginReader σ) (len : ℕ) (hempty : s.tmpbsize ≤ 0) (hblock : (blocks 0).rc ≤ 0) :
    ∃ rc, rc ≤ 0 ∧ ∃ last, (s.preRead readPlugin blocks len) = ⟨[], some (rc, [], last)⟩ ∧
      last.plugin = s.plugin := by
  unfold preRead
  split_ifs with haborted hended hmore hsome
  · exact ⟨-1, by decide, s, rfl, rfl⟩
  · exact ⟨-1, by decide, s, rfl, rfl⟩
  · omega
  · omega
  · rw [preLoop]
    split_ifs
    · exact ⟨0, Int.le_refl 0, s, rfl, rfl⟩
    · exact ⟨0, Int.le_refl 0, { s with tmpbsize := -1 }, rfl, rfl⟩

end PluginReader

end PrefetchPath

/-! ### Read errors -/

section Errors

variable {σ β γ : Type} (plugin : ReadPlugin σ) (cipher : σ → γ)

/-- Read errors do not reach the plugin: when the backend's final result of a direct read is not
positive, the plugin is not called with a negative length, its cipher stays where it is, and the
caller gets nothing; and the same holds on the prefetch path, of a read that finds such a result
first. -/
structure ReadErrorsContained (io : Backend β) (s : PluginEngine σ β) (buffer : ℕ → UInt8)
    (len : ℕ) : Prop where
  direct : (s.finalRead io (some plugin) buffer len).rc ≤ 0 →
    (∀ n ∈ (s.pubRead io (some plugin) buffer len).calls, 0 ≤ n) ∧
      ∃ result, (s.pubRead io (some plugin) buffer len).result = some result ∧
        result.1 ≤ 0 ∧ cipher result.2.2.plugin = cipher s.plugin
  prefetch : ∀ (blocks : ℕ → PluginBlock) (reader : PluginReader σ) (want : ℕ),
    (∀ n ∈ (reader.preRead (some plugin) blocks want).calls, 0 ≤ n) ∧
      (reader.tmpbsize ≤ 0 → (blocks 0).rc ≤ 0 →
        ∃ result, (reader.preRead (some plugin) blocks want).result = some result ∧
          result.1 ≤ 0 ∧ cipher result.2.2.plugin = cipher reader.plugin)

/-- The call that `pub_read` makes at the end of the file, on no bytes, leaves the cipher where it
was before the read and returns nothing. -/
def HarmlessAtEnd (io : Backend β) (s : PluginEngine σ β) (buffer : ℕ → UInt8) (len : ℕ) : Prop :=
  let last := s.finalRead io (some plugin) buffer len
  ∃ out, plugin.call last.engine.plugin last.buffer 0 = some out ∧ out.rc ≤ 0 ∧
    cipher out.state = cipher s.plugin

/-- The prefetch path contains errors, whatever the plugin. -/
theorem preRead_contains (blocks : ℕ → PluginBlock) (reader : PluginReader σ) (want : ℕ) :
    (∀ n ∈ (reader.preRead (some plugin) blocks want).calls, 0 ≤ n) ∧
      (reader.tmpbsize ≤ 0 → (blocks 0).rc ≤ 0 →
        ∃ result, (reader.preRead (some plugin) blocks want).result = some result ∧
          result.1 ≤ 0 ∧ cipher result.2.2.plugin = cipher reader.plugin) := by
  refine ⟨fun n hn ↦ Int.le_of_lt (PluginReader.preRead_calls_pos _ blocks reader want n hn),
    fun hempty hblock ↦ ?_⟩
  obtain ⟨rc, hrc, last, hread, hplugin⟩ := PluginReader.preRead_of_no_bytes (some plugin) blocks
    reader want hempty hblock
  rw [hread]
  exact ⟨_, rfl, hrc, congrArg cipher hplugin⟩

/-- Whatever the plugin, read errors are contained exactly when the final result of the backend is
not negative and, at the end of the file, the plugin is harmless. -/
theorem contained_iff (io : Backend β) (s : PluginEngine σ β) (buffer : ℕ → UInt8) (len : ℕ) :
    ReadErrorsContained plugin cipher io s buffer len ↔
      0 ≤ (s.finalRead io (some plugin) buffer len).rc ∧
        ((s.finalRead io (some plugin) buffer len).rc = 0 →
          HarmlessAtEnd plugin cipher io s buffer len) := by
  -- on a read of no bytes the plugin's output is the result
  have hresult : (s.finalRead io (some plugin) buffer len).rc = 0 →
      (s.pubRead io (some plugin) buffer len).result =
        (plugin.call (s.finalRead io (some plugin) buffer len).engine.plugin
          (s.finalRead io (some plugin) buffer len).buffer 0).map fun out ↦
            (out.rc, out.buffer, { (s.finalRead io (some plugin) buffer len).engine with
              plugin := out.state }) := by
    intro hzero
    rw [← hzero]
    rfl
  constructor
  · intro hcontained
    have hnonneg : 0 ≤ (s.finalRead io (some plugin) buffer len).rc := by
      by_contra hneg
      obtain ⟨hcalls, -⟩ := hcontained.direct (Int.le_of_lt (Int.not_le.mp hneg))
      rw [calls_pubRead] at hcalls
      exact hneg (hcalls _ List.mem_cons_self)
    refine ⟨hnonneg, fun hzero ↦ ?_⟩
    obtain ⟨-, result, hsome, hrc, hcipher⟩ := hcontained.direct (Int.le_of_eq hzero)
    rw [hresult hzero] at hsome
    obtain ⟨out, hcall, rfl⟩ := Option.map_eq_some_iff.mp hsome
    exact ⟨out, hcall, hrc, hcipher⟩
  · rintro ⟨hnonneg, hharmless⟩
    refine ⟨fun hnone ↦ ?_, preRead_contains plugin cipher⟩
    have hzero := Int.le_antisymm hnone hnonneg
    obtain ⟨out, hcall, hrc, hcipher⟩ := hharmless hzero
    rw [calls_pubRead, hresult hzero, hcall]
    exact ⟨List.forall_mem_singleton.mpr hnonneg, _, rfl, hrc, hcipher⟩

end Errors

end Katmai.StioEngine
