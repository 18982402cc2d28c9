import Katmai.Foundation.EventRun
import Katmai.StioEngine.PrefetchTransparency

/-!
# `pre_read` reads the blocks as a stream

`pre_read` takes the blocks that `prefetch_main` publishes and is called with any length. It keeps
in `tmpbuff` what it has not been asked for, and `tmpbsize` is `-1` once it has met the block whose
`rc` is not positive. Here the blocks are arbitrary: `pending` are those still to be published.

`Place` relates the engine, between any two steps of a `pre_read`, to a stream that ends with a mark
(`MarkedStream`), and `pre_read_stream` says that `pre_read` returns what the reads of that stream
return. The length is a `size_t` and the number of bytes still wanted an `int`: for a length from
`2 ^ 31` on, `pre_read` returns at once (`huge_read_is_short`).
-/

set_option autoImplicit false
set_option relaxedAutoImplicit false

namespace Katmai.StioEngine

open Foundation Buffer Engine

/-! ### Steps -/

/-- `rlen = len`: a `size_t` as an `int`. -/
def rlenOf (len : ℕ) : ℤ :=
  Int.bmod len (2 ^ 32)

/-- The part of `pre_read` before its loop. -/
def Engine.beginPreRead (s : Engine) (len : ℕ) : Engine :=
  if s.abortFlag = true ∨ s.tmpbsize < 0 then { s with app := .reading ⟨len, 0, [], true⟩ }
  else if s.tmpbsize > len then
    { s with
      tmpbidx := s.tmpbidx + len
      tmpbsize := s.tmpbsize - len
      app := .reading ⟨len, 0, bytesAt s.tmpbuff s.tmpbidx len, false⟩ }
  else if s.tmpbsize > 0 then
    { s with
      tmpbidx := 0
      tmpbsize := 0
      app := .reading ⟨len, (rlenOf len - s.tmpbsize).toNat,
        bytesAt s.tmpbuff s.tmpbidx s.tmpbsize.toNat, false⟩ }
  else { s with app := .reading ⟨len, (rlenOf len).toNat, [], false⟩ }

/-- An engine and the blocks that `prefetch_main` has still to publish. -/
structure PreReader where
  engine : Engine
  pending : List Block

/-- What can happen next: a block is published, or a `pre_read` begins, takes a block, or
returns. -/
inductive PreReadEvent
  | publish
  | readBegin (len : ℕ)
  | readTake
  | readEnd

/-- One step. Publishing waits for a free buffer, and taking for a ready one. -/
def preReadStep (s : PreReader) : PreReadEvent → Option PreReader
  | .publish =>
    match s.pending with
    | [] => none
    | block :: rest =>
      if s.engine.bc.bufFree = 0 then none
      else some ⟨{ s.engine with bc := s.engine.bc.publish block }, rest⟩
  | .readBegin len =>
    if s.engine.app = .idle then some { s with engine := s.engine.beginPreRead len } else none
  | .readTake =>
    (engineStep (fun _ ↦ none) s.engine .readTake).map fun engine ↦ { s with engine := engine }
  | .readEnd =>
    (engineStep (fun _ ↦ none) s.engine .readEnd).map fun engine ↦ { s with engine := engine }

/-- An engine that has just opened `fname`, with the blocks that will be published. -/
def newPreReader (engine : Engine) (fname : String) (blocks : List Block) : PreReader :=
  ⟨{ engine with app := .idle, opened := some fname, log := [] }.preOpenStep1, blocks⟩

/-! ### What is returned -/

/-- The bytes of a block. -/
def Block.bytes (block : Block) : List UInt8 :=
  bytesAt block.buffer 0 block.rc.toNat

/-- The bytes that the calls have returned, one after another. -/
def PreReader.returned (s : PreReader) : List UInt8 :=
  s.engine.log.flatMap ReadReturn.bytes

/-- The number of bytes that the calls have asked for. -/
def PreReader.requested (s : PreReader) : ℕ :=
  (s.engine.log.map ReadReturn.len).sum

/-- The blocks that have not been taken, in their order. -/
def PreReader.supply (s : PreReader) : List Block :=
  s.engine.bc.queued ++ s.pending

/-- The answer of a call: its bytes, or none if it returns `-1`. -/
def ReadReturn.answer (r : ReadReturn) : Option (List UInt8) :=
  if r.rc < 0 then none else some r.bytes

/-- The length of a `pre_read` fits an `int`. -/
def LengthOk : PreReadEvent → Prop
  | .readBegin len => len < 2 ^ 31
  | _ => True

/-! ### The relation to a stream -/

/-- What is kept, and then the blocks up to the mark, are the bytes `rest`. -/
def Supplies (s : Engine) (supply : List Block) (rest : List UInt8) : Prop :=
  0 ≤ s.tmpbsize ∧ ∃ left mark, supply = left ++ [mark] ∧ (∀ block ∈ left, 0 < block.rc) ∧
    mark.rc ≤ 0 ∧
    rest = bytesAt s.tmpbuff s.tmpbidx s.tmpbsize.toNat ++ left.flatMap Block.bytes

/-- The mark has been taken, and no block is left. -/
def MarkMet (s : Engine) (supply : List Block) : Prop :=
  s.tmpbsize = -1 ∧ supply = []

/-- A `pre_read` of a stream is going on: it was refused, it has met the mark, or it has got the
first of the bytes that are left. -/
def Underway (s : Engine) (supply : List Block) (stream : MarkedStream UInt8) (r : Reading) :
    Prop :=
  (stream.ended = true ∧ MarkMet s supply ∧ r.failed = true ∧ r.rlen = 0 ∧ r.got = []) ∨
    (stream.ended = false ∧ r.failed = false ∧
      ((MarkMet s supply ∧ r.rlen = 0 ∧ r.got = stream.rest ∧ r.got.length < r.len) ∨
        ∃ rest, Supplies s supply rest ∧ stream.rest = r.got ++ rest ∧
          r.rlen + r.got.length = r.len ∧ (r.rlen ≠ 0 → s.tmpbsize = 0)))

/-- The engine is where a reader of the stream is. -/
def Place (s : Engine) (supply : List Block) (stream : MarkedStream UInt8) : App → Prop
  | .idle => (stream.ended = false ∧ Supplies s supply stream.rest) ∨
      (stream.ended = true ∧ MarkMet s supply)
  | .reading r => Underway s supply stream r
  | _ => False

/-- The stream `total` after the calls that have returned. -/
def PreReader.stream (s : PreReader) (total : List UInt8) :
    List (Option (List UInt8)) × MarkedStream UInt8 :=
  replies MarkedStream.read ⟨total, false⟩ (s.engine.log.map ReadReturn.len)

/-- The calls have returned what the reads of the stream return, and the engine is where they have
come to. -/
structure ReadsStream (total : List UInt8) (s : PreReader) : Prop where
  ring : RingOk s.engine.bc
  running : s.engine.abortFlag = false
  opened : s.engine.opened.isSome
  answers : s.engine.log.map ReadReturn.answer = (s.stream total).1
  place : Place s.engine s.supply (s.stream total).2 s.engine.app
  counts : ∀ r ∈ s.engine.log, r.rc = r.bytes.length ∨ r.rc = -1 ∧ r.bytes = []

section Steps

variable {s : Engine} {supply : List Block} {stream : MarkedStream UInt8}

/-- For a length that fits an `int`, nothing is lost in `rlen`. -/
theorem beginPreRead_eq {len : ℕ} (hlen : len < 2 ^ 31) : s.beginPreRead len = s.beginRead len := by
  have hrlen : rlenOf len = len := by
    unfold rlenOf
    rw [Int.bmod_eq_of_le] <;> omega
  have htmp (hpos : s.tmpbsize > 0) : ((len : ℤ) - s.tmpbsize).toNat = len - s.tmpbsize.toNat := by
    omega
  unfold beginPreRead beginRead
  rw [hrlen, Int.toNat_natCast]
  split_ifs with hends hlong hsome
  · rfl
  · rfl
  · rw [htmp hsome]
  · rfl

/-- A `pre_read` begins. -/
theorem place_beginRead (hplace : Place s supply stream .idle) (hrunning : s.abortFlag = false)
    (len : ℕ) :
    ∃ r, (s.beginRead len).app = .reading r ∧ r.len = len ∧
      Underway (s.beginRead len) supply stream r := by
  unfold beginRead
  rcases hplace with ⟨hopen, hnonneg, left, mark, hsupply, hleft, hmark, hrest⟩ |
    ⟨hended, hmet, hnone⟩
  · rw [if_neg (by rw [hrunning]; simp; exact hnonneg)]
    by_cases hlong : s.tmpbsize > len
    · rw [if_pos hlong]
      refine ⟨_, rfl, rfl, Or.inr ⟨hopen, rfl, Or.inr ⟨_, ⟨?_, left, mark, hsupply, hleft, hmark,
        rfl⟩, ?_, ?_, ?_⟩⟩⟩
      · show 0 ≤ s.tmpbsize - len
        omega
      · show stream.rest = bytesAt s.tmpbuff s.tmpbidx len ++
          (bytesAt s.tmpbuff (s.tmpbidx + len) (s.tmpbsize - len).toNat ++ left.flatMap Block.bytes)
        rw [← List.append_assoc, bytesAt_append, hrest]
        congr 2
        omega
      · rw [length_bytesAt, Nat.zero_add]
      · exact fun hzero ↦ absurd rfl hzero
    · rw [if_neg hlong]
      by_cases hsome : s.tmpbsize > 0
      · rw [if_pos hsome]
        refine ⟨_, rfl, rfl, Or.inr ⟨hopen, rfl, Or.inr ⟨left.flatMap Block.bytes,
          ⟨Int.le_refl 0, left, mark, hsupply, hleft, hmark, rfl⟩, hrest, ?_, fun _ ↦ rfl⟩⟩⟩
        rw [length_bytesAt]
        show len - s.tmpbsize.toNat + s.tmpbsize.toNat = len
        omega
      · rw [if_neg hsome]
        have hzero : s.tmpbsize = 0 := by omega
        refine ⟨_, rfl, rfl, Or.inr ⟨hopen, rfl, Or.inr ⟨stream.rest,
          ⟨hnonneg, left, mark, hsupply, hleft, hmark, hrest⟩, rfl, rfl, fun _ ↦ hzero⟩⟩⟩
  · rw [if_pos (Or.inr (by omega))]
    exact ⟨_, rfl, rfl, Or.inl ⟨hended, ⟨hmet, hnone⟩, rfl, rfl, rfl⟩⟩

/-- A `pre_read` takes a block. -/
theorem underway_takeBlock {r : Reading} {block : Block} (hrlen : r.rlen ≠ 0)
    (hway : Underway s (block :: supply) stream r) :
    ∃ r', (s.takeBlock r block).app = .reading r' ∧ r'.len = r.len ∧
      Underway (s.takeBlock r block) supply stream r' := by
  rcases hway with ⟨-, -, -, hzero, -⟩ | ⟨hopen, hfailed, ⟨-, hzero, -⟩ |
    ⟨rest, ⟨hnonneg, left, mark, hsupply, hleft, hmark, hrest⟩, hstream, hlen, hempty⟩⟩
  · exact absurd hzero hrlen
  · exact absurd hzero hrlen
  have htmp := hempty hrlen
  have hrest : rest = left.flatMap Block.bytes := by
    rw [hrest, htmp]
    rfl
  unfold takeBlock
  cases left with
  | nil =>
    obtain ⟨rfl, rfl⟩ := List.cons.inj hsupply
    rw [if_pos hmark]
    refine ⟨_, rfl, rfl, Or.inr ⟨hopen, hfailed, Or.inl ⟨⟨rfl, rfl⟩, rfl, ?_, ?_⟩⟩⟩
    · rw [hstream, hrest, List.flatMap_nil, List.append_nil]
    · show r.got.length < r.len
      omega
  | cons first left =>
    obtain ⟨rfl, htail⟩ := List.cons.inj hsupply
    have hpos : 0 < block.rc := hleft block List.mem_cons_self
    have hleft : ∀ later ∈ left, 0 < later.rc :=
      fun later hlater ↦ hleft later (List.mem_cons_of_mem block hlater)
    rw [List.flatMap_cons] at hrest
    rw [if_neg (by omega)]
    by_cases hlong : block.rc > r.rlen
    · rw [if_pos hlong]
      refine ⟨_, rfl, rfl, Or.inr ⟨hopen, hfailed, Or.inr ⟨bytesAt block.buffer r.rlen
        (block.rc.toNat - r.rlen) ++ left.flatMap Block.bytes,
        ⟨?_, left, mark, htail, hleft, hmark, ?_⟩, ?_, ?_, ?_⟩⟩⟩
      · show 0 ≤ block.rc - r.rlen
        omega
      · have hkept : (block.rc - r.rlen).toNat = block.rc.toNat - r.rlen := by omega
        simp only [hkept]
        refine congrArg (· ++ _) (bytesAt_congr fun j hj ↦ ?_)
        rw [copyInto_of_mem (Nat.zero_le _) (by omega), Nat.zero_add, Nat.sub_zero]
      · have hsplit : block.bytes =
            bytesAt block.buffer 0 r.rlen ++
              bytesAt block.buffer r.rlen (block.rc.toNat - r.rlen) := by
          have happend := bytesAt_append block.buffer 0 r.rlen (block.rc.toNat - r.rlen)
          rw [Nat.zero_add, Nat.add_sub_cancel' (by omega)] at happend
          exact happend.symm
        rw [hstream, hrest, hsplit, List.append_assoc, List.append_assoc]
      · simp only [List.length_append, length_bytesAt]
        omega
      · exact fun hzero ↦ absurd rfl hzero
    · rw [if_neg hlong]
      refine ⟨_, rfl, rfl, Or.inr ⟨hopen, hfailed, Or.inr ⟨left.flatMap Block.bytes,
        ⟨hnonneg, left, mark, htail, hleft, hmark, ?_⟩, ?_, ?_, fun _ ↦ htmp⟩⟩⟩
      · simp only [htmp]
        rfl
      · rw [hstream, hrest, List.append_assoc]
        rfl
      · simp only [List.length_append, length_bytesAt]
        omega

/-- A `pre_read` returns. -/
theorem place_endRead (fname : String) {r : Reading} (hrlen : r.rlen = 0)
    (hway : Underway s supply stream r) :
    (⟨fname, r.len, if r.failed then -1 else r.got.length, r.got⟩ : ReadReturn).answer =
        (stream.read r.len).1 ∧
      Place s supply (stream.read r.len).2 .idle ∧ (r.failed = true → r.got = []) := by
  unfold ReadReturn.answer MarkedStream.read
  rcases hway with ⟨hended, hmet, hfailed, -, hgot⟩ | ⟨hopen, hfailed, hway⟩
  · rw [hended, hfailed]
    exact ⟨rfl, Or.inr ⟨hended, hmet⟩, fun _ ↦ hgot⟩
  · have hnonneg : ¬ ((r.got.length : ℤ) < 0) := Int.not_lt.mpr (Int.natCast_nonneg _)
    simp only [hopen, hfailed, Bool.false_eq_true, if_false, hnonneg]
    refine ⟨?_, ?_, fun hbad ↦ absurd hbad (by decide)⟩
    · rcases hway with ⟨-, -, hgot, hless⟩ | ⟨rest, -, hstream, hlen, -⟩
      · rw [hgot, List.take_of_length_le (by rw [← hgot]; omega)]
      · rw [hstream, List.take_left' (by omega)]
    · rcases hway with ⟨hmet, -, hgot, hless⟩ | ⟨rest, hsupplies, hstream, hlen, -⟩
      · exact Or.inr ⟨decide_eq_true (by rw [← hgot]; exact hless), hmet⟩
      · refine Or.inl ⟨decide_eq_false ?_, ?_⟩
        · rw [hstream, List.length_append]
          omega
        · show Supplies s supply (stream.rest.drop r.len)
          rwa [hstream, List.drop_left' (by omega)]

end Steps

section Runs

variable {total : List UInt8} {s s' : PreReader}

/-- Between `open` and the first `pre_read` the whole stream is ahead. -/
theorem readsStream_newPreReader (engine : Engine) (fname : String) {data : List Block}
    {mark : Block} (hdata : ∀ block ∈ data, 0 < block.rc) (hmark : mark.rc ≤ 0) :
    ReadsStream (data.flatMap Block.bytes) (newPreReader engine fname (data ++ [mark])) where
  ring := ringOk_bcCleanup _
  running := rfl
  opened := rfl
  answers := rfl
  place := by
    refine Or.inl ⟨rfl, Int.le_refl 0, data, mark, ?_, hdata, hmark, rfl⟩
    show (engine.bc.bcCleanup).queued ++ (data ++ [mark]) = data ++ [mark]
    rw [queued_eq_nil rfl, List.nil_append]
  counts := nofun

/-- Publishing a block leaves the supply as it is. -/
theorem ReadsStream.publish (hs : ReadsStream total s)
    (hstep : preReadStep s .publish = some s') : ReadsStream total s' := by
  obtain ⟨engine, pending⟩ := s
  cases pending with
  | nil => cases hstep
  | cons block rest =>
    simp only [preReadStep] at hstep
    split_ifs at hstep with hfull
    obtain rfl := Option.some.inj hstep
    have hsupply :
        (engine.bc.publish block).queued ++ rest = engine.bc.queued ++ block :: rest := by
      rw [hs.ring.queued_publish hfull, List.append_assoc, List.singleton_append]
    refine ⟨hs.ring.publish hfull block, hs.running, hs.opened, hs.answers, ?_, hs.counts⟩
    have hplace := hs.place
    rw [PreReader.supply, ← hsupply] at hplace
    exact hplace

/-- A `pre_read` begins. -/
theorem ReadsStream.readBegin (hs : ReadsStream total s) {len : ℕ} (hlen : len < 2 ^ 31)
    (hstep : preReadStep s (.readBegin len) = some s') : ReadsStream total s' := by
  simp only [preReadStep] at hstep
  split_ifs at hstep with hidle
  obtain rfl := Option.some.inj hstep
  have hplace := hs.place
  rw [hidle] at hplace
  obtain ⟨r, happ, -, hway⟩ := place_beginRead hplace hs.running len
  obtain ⟨tmpbsize, tmpbidx, r', -, heq⟩ := beginRead_eq s.engine len
  rw [beginPreRead_eq hlen]
  rw [heq] at happ hway ⊢
  obtain rfl := App.reading.inj happ
  exact ⟨hs.ring, hs.running, hs.opened, hs.answers, hway, hs.counts⟩

/-- A `pre_read` takes a block. -/
theorem ReadsStream.readTake (hs : ReadsStream total s)
    (hstep : preReadStep s .readTake = some s') : ReadsStream total s' := by
  obtain ⟨engine, hengine, rfl⟩ := Option.map_eq_some_iff.mp hstep
  obtain ⟨r, happ, hrlen, hready, rfl⟩ := engineStep_readTake.mp hengine
  have hway := hs.place
  rw [happ, PreReader.supply, hs.ring.queued_takeRear hready] at hway
  set taken : Engine := { s.engine with bc := s.engine.bc.takeRear.2.bcConsumerRelease } with htaken
  obtain ⟨r', happ', -, hnext⟩ := underway_takeBlock (s := taken) hrlen hway
  obtain ⟨tmpbuff, tmpbsize, tmpbidx, r'', -, -, heq⟩ :=
    takeBlock_eq taken r (s.engine.bc.dkbuf s.engine.bc.rear)
  rw [heq] at happ' hnext ⊢
  obtain rfl := App.reading.inj happ'
  exact ⟨hs.ring.consume hready, hs.running, hs.opened, hs.answers, hnext, hs.counts⟩

/-- What a `pre_read` that returns adds to the log, and what the stream is after it. -/
theorem ReadsStream.log_endRead (hs : ReadsStream total s) (r : Reading) :
    ∃ fname, (s.engine.endRead r).log =
        s.engine.log ++ [⟨fname, r.len, if r.failed then -1 else r.got.length, r.got⟩] ∧
      PreReader.stream ⟨s.engine.endRead r, s.pending⟩ total =
        ((s.stream total).1 ++ [((s.stream total).2.read r.len).1],
          ((s.stream total).2.read r.len).2) := by
  obtain ⟨fname, hname⟩ := Option.isSome_iff_exists.mp hs.opened
  have hlog : (s.engine.endRead r).log =
      s.engine.log ++ [⟨fname, r.len, if r.failed then -1 else r.got.length, r.got⟩] := by
    unfold endRead
    rw [hname]
  refine ⟨fname, hlog, ?_⟩
  unfold PreReader.stream
  rw [hlog, List.map_append]
  exact replies_concat _ _ _

/-- A `pre_read` returns. -/
theorem ReadsStream.readEnd (hs : ReadsStream total s)
    (hstep : preReadStep s .readEnd = some s') : ReadsStream total s' := by
  obtain ⟨engine, hengine, rfl⟩ := Option.map_eq_some_iff.mp hstep
  obtain ⟨r, happ, hrlen, rfl⟩ := engineStep_readEnd.mp hengine
  obtain ⟨fname, hlog, hstream⟩ := hs.log_endRead r
  have hway := hs.place
  rw [happ] at hway
  obtain ⟨hanswer, hplace, hnil⟩ := place_endRead fname hrlen hway
  refine ⟨hs.ring, hs.running, hs.opened, ?_, ?_, ?_⟩
  · rw [hstream, hlog, List.map_append, hs.answers, ← hanswer]
    rfl
  · rw [hstream]
    exact hplace
  · intro entry hentry
    rw [hlog] at hentry
    rcases List.mem_append.mp hentry with hold | hnew
    · exact hs.counts entry hold
    · obtain rfl := List.mem_singleton.mp hnew
      cases hfailed : r.failed with
      | true => exact Or.inr ⟨rfl, hnil hfailed⟩
      | false => exact Or.inl rfl

/-- Every step keeps the relation to the stream. -/
theorem ReadsStream.step (hs : ReadsStream total s) {event : PreReadEvent}
    (hlen : LengthOk event) (hstep : preReadStep s event = some s') : ReadsStream total s' := by
  cases event with
  | publish => exact hs.publish hstep
  | readBegin len => exact hs.readBegin hlen hstep
  | readTake => exact hs.readTake hstep
  | readEnd => exact hs.readEnd hstep

/-- The bytes returned are the stream, as far as it has been asked for. -/
theorem ReadsStream.returned_eq (hs : ReadsStream total s) :
    s.returned = total.take s.requested := by
  have hstart : (⟨total, false⟩ : MarkedStream UInt8).Marked := nofun
  have hbytes : s.engine.log.map ReadReturn.bytes =
      (s.stream total).1.map fun answer ↦ answer.getD [] := by
    rw [← hs.answers, List.map_map]
    refine List.map_congr_left fun r hr ↦ ?_
    show r.bytes = (ReadReturn.answer r).getD []
    unfold ReadReturn.answer
    split_ifs with hneg
    · rcases hs.counts r hr with hcount | ⟨-, hnil⟩
      · omega
      · exact hnil
    · rfl
  rw [PreReader.returned, List.flatMap_def, hbytes]
  exact MarkedStream.flatten_replies hstart _

/-- After a call that was short, the mark has been taken and the whole stream returned. -/
theorem ReadsStream.of_short (hs : ReadsStream total s) {r : ReadReturn}
    (hr : r ∈ s.engine.log) (hshort : r.rc < r.len) :
    (s.stream total).2.ended = true ∧ s.returned = total := by
  have hstart : (⟨total, false⟩ : MarkedStream UInt8).Marked := nofun
  have hended : (s.stream total).2.ended = true := by
    by_contra hopen
    have hfull := MarkedStream.length_replies_of_not_ended (Bool.eq_false_of_not_eq_true hopen)
    rw [show (replies MarkedStream.read ⟨total, false⟩ (s.engine.log.map ReadReturn.len)).1 =
      s.engine.log.map ReadReturn.answer from hs.answers.symm, List.map_map, List.map_map,
      List.map_inj_left] at hfull
    have hlen : (ReadReturn.answer r).map List.length = some r.len := hfull r hr
    unfold ReadReturn.answer at hlen
    split_ifs at hlen with hneg
    · cases hlen
    · have hbytes : r.bytes.length = r.len := Option.some.inj hlen
      rcases hs.counts r hr with hcount | ⟨hcount, -⟩ <;> omega
  have hrest : total.drop s.requested = [] := by
    have hnil := hstart.replies (s.engine.log.map ReadReturn.len) hended
    rwa [MarkedStream.rest_replies hstart] at hnil
  refine ⟨hended, ?_⟩
  rw [hs.returned_eq, List.take_of_length_le (List.drop_eq_nil_iff.mp hrest)]

/-- Once the mark has been taken, a `pre_read` that is going on was refused, and no block is
left. -/
theorem ReadsStream.of_ended (hs : ReadsStream total s)
    (hended : (s.stream total).2.ended = true) :
    s.supply = [] ∧ ∀ r, s.engine.app = .reading r → r.failed = true ∧ r.rlen = 0 ∧ r.got = [] := by
  have hplace := hs.place
  cases happ : s.engine.app with
  | idle =>
    rw [happ] at hplace
    rcases hplace with ⟨hopen, -⟩ | ⟨-, -, hnone⟩
    · rw [hended] at hopen
      cases hopen
    · exact ⟨hnone, nofun⟩
  | reading r =>
    rw [happ] at hplace
    rcases hplace with ⟨-, ⟨-, hnone⟩, hfailed, hrlen, hgot⟩ | ⟨hopen, -⟩
    · refine ⟨hnone, ?_⟩
      rintro r' ⟨⟩
      exact ⟨hfailed, hrlen, hgot⟩
    · rw [hended] at hopen
      cases hopen
  | opening fname =>
    rw [happ] at hplace
    exact hplace.elim
  | stopping restart =>
    rw [happ] at hplace
    exact hplace.elim

/-- The log after more calls, all of which returned `-1`. -/
def Refuses (log log' : List ReadReturn) : Prop :=
  ∃ refused, log' = log ++ refused ∧ ∀ r ∈ refused, r.rc = -1 ∧ r.bytes = []

theorem Refuses.refl (log : List ReadReturn) : Refuses log log :=
  ⟨[], (List.append_nil log).symm, nofun⟩

theorem Refuses.trans {log log' log'' : List ReadReturn} (hfirst : Refuses log log')
    (hsecond : Refuses log' log'') : Refuses log log'' := by
  obtain ⟨first, rfl, hfirst⟩ := hfirst
  obtain ⟨second, rfl, hsecond⟩ := hsecond
  refine ⟨first ++ second, List.append_assoc _ _ _, fun r hr ↦ ?_⟩
  rcases List.mem_append.mp hr with hr | hr
  · exact hfirst r hr
  · exact hsecond r hr

/-- Once the mark has been taken, a step takes no block, and a call that returns is refused. -/
theorem ReadsStream.step_of_ended (hs : ReadsStream total s)
    (hended : (s.stream total).2.ended = true) {event : PreReadEvent} (hlen : LengthOk event)
    (hstep : preReadStep s event = some s') :
    (s'.stream total).2.ended = true ∧ s'.engine.bc = s.engine.bc ∧
      Refuses s.engine.log s'.engine.log := by
  obtain ⟨hnone, hrefused⟩ := hs.of_ended hended
  cases event with
  | publish =>
    have hpending : s.pending = [] := (List.append_eq_nil_iff.mp hnone).2
    simp only [preReadStep, hpending] at hstep
    cases hstep
  | readBegin len =>
    simp only [preReadStep] at hstep
    split_ifs at hstep with hidle
    obtain rfl := Option.some.inj hstep
    obtain ⟨tmpbsize, tmpbidx, r', -, heq⟩ := beginRead_eq s.engine len
    rw [beginPreRead_eq hlen, heq]
    exact ⟨hended, rfl, .refl _⟩
  | readTake =>
    obtain ⟨engine, hengine, rfl⟩ := Option.map_eq_some_iff.mp hstep
    obtain ⟨r, happ, hrlen, -⟩ := engineStep_readTake.mp hengine
    exact absurd (hrefused r happ).2.1 hrlen
  | readEnd =>
    obtain ⟨engine, hengine, rfl⟩ := Option.map_eq_some_iff.mp hstep
    obtain ⟨r, happ, hrlen, rfl⟩ := engineStep_readEnd.mp hengine
    obtain ⟨hfailed, -, hgot⟩ := hrefused r happ
    obtain ⟨fname, hlog, hstream⟩ := hs.log_endRead r
    have hread : (s.stream total).2.read r.len = (none, (s.stream total).2) := if_pos hended
    rw [hstream, hread, hlog, hfailed, hgot]
    refine ⟨hended, rfl, _, rfl, fun entry hentry ↦ ?_⟩
    obtain rfl := List.mem_singleton.mp hentry
    exact ⟨rfl, rfl⟩

/-- Once the mark has been taken, no block is taken any more, and every call returns `-1`. -/
theorem run_of_ended {later : List PreReadEvent} (hlens : ∀ event ∈ later, LengthOk event)
    (hs : ReadsStream total s) (hended : (s.stream total).2.ended = true)
    (hrun : run preReadStep s later = some s') :
    s'.engine.bc = s.engine.bc ∧ Refuses s.engine.log s'.engine.log := by
  induction later generalizing s with
  | nil =>
    obtain rfl := Option.some.inj hrun
    exact ⟨rfl, .refl _⟩
  | cons event rest ih =>
    obtain ⟨next, hstep, hrest⟩ := run_cons_eq_some.mp hrun
    have hlen := hlens event List.mem_cons_self
    obtain ⟨hended', hbc, hlog⟩ := hs.step_of_ended hended hlen hstep
    obtain ⟨hbc', hlog'⟩ :=
      ih (fun later hlater ↦ hlens later (List.mem_cons_of_mem event hlater)) (hs.step hlen hstep)
        hended' hrest
    exact ⟨hbc'.trans hbc, hlog.trans hlog'⟩

/-- Blocks with bytes, and then one without, are published in any way while `pre_read` is called
with lengths that fit an `int`. The bytes that the calls return are those of the blocks, in their
order, as many as were asked for in all. Once a call has returned less than it was asked for,
all of them have been returned and the last block has been taken, and from then on no block is taken
and every call returns `-1`. -/
theorem pre_read_stream (engine : Engine) (fname : String) {data : List Block} {mark : Block}
    (hdata : ∀ block ∈ data, 0 < block.rc) (hmark : mark.rc ≤ 0) {events : List PreReadEvent}
    (hlens : ∀ event ∈ events, LengthOk event) {t : PreReader}
    (hrun : run preReadStep (newPreReader engine fname (data ++ [mark])) events = some t) :
    t.returned = (data.flatMap Block.bytes).take t.requested ∧
      ∀ r ∈ t.engine.log, r.rc < r.len →
        t.returned = data.flatMap Block.bytes ∧ t.supply = [] ∧
          ∀ later t', (∀ event ∈ later, LengthOk event) → run preReadStep t later = some t' →
            t'.engine.bc = t.engine.bc ∧ Refuses t.engine.log t'.engine.log := by
  have ht : ReadsStream (data.flatMap Block.bytes) t :=
    run_invariant_of_meets (fun _ _ _ hs hlen hstep ↦ hs.step hlen hstep)
      (readsStream_newPreReader engine fname hdata hmark)
      (meets_of_forall (fun event hevent _ ↦ hlens event hevent) _) hrun
  refine ⟨ht.returned_eq, fun r hr hshort ↦ ?_⟩
  obtain ⟨hended, hall⟩ := ht.of_short hr hshort
  refine ⟨hall, (ht.of_ended hended).1, fun later t' hlater hrun' ↦ ?_⟩
  exact run_of_ended hlater ht hended hrun'

end Runs

/-- Two blocks with three bytes in all. -/
def threeBytes : List Block :=
  [⟨2, fun j ↦ UInt8.ofNat (j + 1)⟩, ⟨1, fun _ ↦ 3⟩]

/-- They are published and read with a request inside a block, one past the end, and one more. -/
def threeBytesRun : List PreReadEvent :=
  [.publish, .readBegin 1, .readTake, .readEnd, .publish, .publish, .readBegin 5, .readTake,
    .readTake, .readEnd, .readBegin 1, .readEnd]

theorem pre_read_stream_threeBytes :
    ∃ t, run preReadStep (newPreReader smallEngine "f" (threeBytes ++ [⟨0, fun _ ↦ 0⟩]))
        threeBytesRun = some t ∧
      t.engine.log.map ReadReturn.rc = [1, 2, -1] ∧
      t.returned = (threeBytes.flatMap Block.bytes).take t.requested ∧
      ∀ r ∈ t.engine.log, r.rc < r.len →
        t.returned = threeBytes.flatMap Block.bytes ∧ t.supply = [] ∧
          ∀ later t', (∀ event ∈ later, LengthOk event) → run preReadStep t later = some t' →
            t'.engine.bc = t.engine.bc ∧ Refuses t.engine.log t'.engine.log := by
  have hreturned : (run preReadStep (newPreReader smallEngine "f"
      (threeBytes ++ [⟨0, fun _ ↦ 0⟩])) threeBytesRun).map
        (fun t ↦ t.engine.log.map ReadReturn.rc) = some [1, 2, -1] := by
    decide +kernel
  obtain ⟨t, hrun, hlog⟩ := Option.map_eq_some_iff.mp hreturned
  have hdata : ∀ block ∈ threeBytes, 0 < block.rc := by
    simp [threeBytes]
  have hlens : ∀ event ∈ threeBytesRun, LengthOk event := by
    simp [threeBytesRun, LengthOk]
  exact ⟨t, hrun, hlog, pre_read_stream smallEngine "f" hdata (Int.le_refl 0) hlens hrun⟩

/-- A `pre_read` of `2 ^ 31` bytes returns nothing, although a block is ready. -/
theorem huge_read_is_short :
    ∃ t, run preReadStep (newPreReader smallEngine "f" (threeBytes ++ [⟨0, fun _ ↦ 0⟩]))
        [.publish, .readBegin (2 ^ 31), .readEnd] = some t ∧
      t.engine.log = [⟨"f", 2 ^ 31, 0, []⟩] ∧ t.engine.bc.bufReady = 1 := by
  have hreturned : (run preReadStep (newPreReader smallEngine "f"
      (threeBytes ++ [⟨0, fun _ ↦ 0⟩])) [.publish, .readBegin (2 ^ 31), .readEnd]).map
        (fun t ↦ (t.engine.log, t.engine.bc.bufReady)) = some ([⟨"f", 2 ^ 31, 0, []⟩], 1) := by
    decide +kernel
  obtain ⟨t, hrun, hlog⟩ := Option.map_eq_some_iff.mp hreturned
  exact ⟨t, hrun, congrArg Prod.fst hlog, congrArg Prod.snd hlog⟩

end Katmai.StioEngine
