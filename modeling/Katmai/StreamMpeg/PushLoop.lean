import Katmai.Foundation.EventRun

/-!
# From the stream to the device

Both threads of `stream_mpeg` read blocks of at most `FMP_BUFFER_SIZE` bytes from a `stio_engine`
and push them to the device in pieces, as large as the buffer that `get_buffer` gives. `playMPEG_main`
is done when the device has no buffer, `terminate` is set or the stream has ended; then the device
has all bytes that were read, up to the pieces that were not pushed (`mainPush_law`).

`playMPEG_public` drops the rest of the block when the device has no buffer, and keeps `bidx`. So
the next block is pushed from `bidx` on, and past the end of the buffer (`publicStep_misplaced`),
unless the buffer was missing for the first piece of a block (`publicPush_law`).
-/

set_option autoImplicit false
set_option relaxedAutoImplicit false

namespace Katmai.StreamMpeg

open Foundation

/-- `FMP_BUFFER_SIZE`. -/
def fmpBufferSize : ℕ :=
  32768

/-- What a player does next: the test of `terminate`, a round of the loop over `len`, a `read`. -/
inductive PushPc
  | test
  | push
  | read
  | done
  deriving DecidableEq

/-- The local variables of a player, and what it has pushed: for each piece the size of the buffer
of the device, and the bytes. -/
structure Pusher where
  pc : PushPc
  buffer : { bytes : List UInt8 // bytes.length = fmpBufferSize }
  len : ℕ
  bidx : ℕ
  pushed : List (ℕ × List UInt8)

/-- `terminate` as it is found, the size of the buffer that the device gives if it does, and the
bytes that `stio->read` gives; none are given at the end. -/
inductive PushEvent
  | test (terminate : Bool)
  | getBuffer (size : Option ℕ)
  | read (bytes : List UInt8)
  deriving DecidableEq

namespace Pusher

/-- The bytes that are to be pushed. -/
def waiting (s : Pusher) : List UInt8 :=
  (s.buffer.val.drop s.bidx).take s.len

/-- One round with a buffer of the device: the `memcpy`, which goes wrong (`none`) if it reads past
the end of `buffer`, `set_data_size` and `push`. -/
def pushPiece (s : Pusher) (size : ℕ) : Option Pusher :=
  let blen := if size < s.len then size else s.len
  if s.bidx + blen ≤ fmpBufferSize then
    some { s with
      len := s.len - blen
      bidx := if size < s.len then s.bidx + size else 0
      pushed := s.pushed ++ [(size, (s.buffer.val.drop s.bidx).take blen)] }
  else none

/-- The variables when the bytes are in the buffer. -/
def filled (s : Pusher) (bytes : List UInt8) (h : bytes.length ≤ fmpBufferSize) : Pusher :=
  { s with
    buffer := ⟨bytes ++ s.buffer.val.drop bytes.length, by
      rw [List.length_append, List.length_drop, s.buffer.property]
      omega⟩
    len := bytes.length }

/-- `len = stio->read (stio, buffer, FMP_BUFFER_SIZE)`. -/
def fill (s : Pusher) (bytes : List UInt8) : Option Pusher :=
  if h : bytes.length ≤ fmpBufferSize then some (s.filled bytes h) else none

end Pusher

/-- The loop of `playMPEG_main`. -/
def mainStep (s : Pusher) : PushEvent → Option Pusher
  | .test terminate =>
    if s.pc = .test then
      some { s with pc := if terminate then .done else if s.len > 0 then .push else .read }
    else none
  | .getBuffer none => if s.pc = .push then some { s with pc := .done } else none
  | .getBuffer (some size) =>
    if s.pc = .push then
      (s.pushPiece size).map fun s ↦ { s with pc := if s.len > 0 then .push else .read }
    else none
  | .read bytes =>
    if s.pc = .read then
      (s.fill bytes).map fun s ↦ { s with pc := if s.len ≤ 0 then .done else .test }
    else none

/-- The case `PMPPS_PLAY` of `playMPEG_public`, one time after the other. -/
def publicStep (s : Pusher) : PushEvent → Option Pusher
  | .test _ => none
  | .getBuffer none => if s.pc = .push then some { s with pc := .read } else none
  | .getBuffer (some size) =>
    if s.pc = .push then
      (s.pushPiece size).map fun s ↦ { s with pc := if s.len > 0 then .push else .read }
    else none
  | .read bytes =>
    if s.pc = .read then
      (s.fill bytes).map fun s ↦ { s with pc := if s.len > 0 then .push else .read }
    else none

/-- Nothing has been read yet; `bidx` is `0`. For `playMPEG_main`, which finds out the type of the
stream from the first block, this is the state before the `read` that is not in the loop. -/
def newPusher (stack : { bytes : List UInt8 // bytes.length = fmpBufferSize }) : Pusher :=
  ⟨.read, stack, 0, 0, []⟩

/-! ### Pieces -/

namespace Pusher

/-- The variables are inside the buffer, and pieces fit into the buffers of the device. -/
structure Within (s : Pusher) : Prop where
  range : s.bidx + s.len ≤ fmpBufferSize
  pieces : ∀ piece ∈ s.pushed, piece.2.length ≤ piece.1

/-- The bytes that the device has. -/
def sent (s : Pusher) : List UInt8 :=
  s.pushed.flatMap Prod.snd

variable {s : Pusher}

theorem length_waiting (h : s.Within) : s.waiting.length = s.len := by
  rw [waiting, List.length_take, List.length_drop, s.buffer.property]
  have hrange := h.range
  omega

/-- A piece is what is next. -/
theorem pushPiece_eq (h : s.Within) (size : ℕ) :
    ∃ s', s.pushPiece size = some s' ∧ s'.pc = s.pc ∧ s'.Within ∧
      s'.sent ++ s'.waiting = s.sent ++ s.waiting ∧
      (0 < s'.len → s'.bidx + s'.len = s.bidx + s.len) ∧ (s'.len = 0 → s'.bidx = 0) := by
  have hrange := h.range
  unfold pushPiece
  dsimp only
  by_cases hsize : size < s.len
  · rw [if_pos hsize, if_pos hsize, if_pos (by omega)]
    refine ⟨_, rfl, rfl, ⟨?_, ?_⟩, ?_, ?_, ?_⟩
    · dsimp only
      omega
    · intro piece hpiece
      rcases List.mem_append.mp hpiece with hold | hnew
      · exact h.pieces piece hold
      · rw [List.mem_singleton.mp hnew]
        exact List.length_take_le _ _
    · have hsplit : (s.buffer.val.drop s.bidx).take size ++
          ((s.buffer.val.drop s.bidx).drop size).take (s.len - size) = s.waiting := by
        rw [waiting, ← List.take_add]
        congr 1
        omega
      simp only [sent, List.flatMap_append, List.flatMap_cons, List.flatMap_nil, List.append_nil,
        List.append_assoc]
      rw [← hsplit, List.drop_drop, waiting]
    · dsimp only
      omega
    · dsimp only
      omega
  · rw [if_neg hsize, if_neg hsize, if_pos hrange]
    refine ⟨_, rfl, rfl, ⟨?_, ?_⟩, ?_, ?_, ?_⟩
    · dsimp only
      omega
    · intro piece hpiece
      rcases List.mem_append.mp hpiece with hold | hnew
      · exact h.pieces piece hold
      · rw [List.mem_singleton.mp hnew]
        exact Nat.le_trans (List.length_take_le _ _) (Nat.le_of_not_lt hsize)
    · simp only [sent, waiting, List.flatMap_append, List.flatMap_cons, List.flatMap_nil,
        List.append_nil, Nat.sub_self, List.take_zero]
    · dsimp only
      omega
    · exact fun _ ↦ rfl

theorem pushPiece_of_lt {size : ℕ} (hlen : fmpBufferSize < s.bidx + s.len)
    (hsize : s.len ≤ size) : s.pushPiece size = none := by
  unfold pushPiece
  dsimp only
  rw [if_neg (Nat.not_lt.mpr hsize), if_neg (by omega)]

theorem fill_eq_some {bytes : List UInt8} {s' : Pusher} (h : s.Within) (hbidx : s.bidx = 0)
    (hfill : s.fill bytes = some s') :
    s'.pc = s.pc ∧ s'.Within ∧ s'.sent = s.sent ∧ s'.waiting = bytes ∧ s'.bidx = 0 ∧
      s'.len = bytes.length := by
  unfold fill at hfill
  split at hfill
  · case isTrue hlength =>
    obtain rfl := Option.some.inj hfill
    refine ⟨rfl, ⟨?_, h.pieces⟩, rfl, ?_, hbidx, rfl⟩
    · change s.bidx + bytes.length ≤ fmpBufferSize
      rwa [hbidx, Nat.zero_add]
    · change ((bytes ++ s.buffer.val.drop bytes.length).drop s.bidx).take bytes.length = bytes
      rw [hbidx, List.drop_zero, List.take_left]
  · cases hfill

end Pusher

/-! ### The main player -/

variable {s s' : Pusher} {event : PushEvent}

/-- The bytes read so far. -/
def recordBytes (given : List UInt8) : PushEvent → List UInt8
  | .read bytes => given ++ bytes
  | _ => given

/-- The device has the bytes read so far, but for those that wait. -/
structure MainHolds (s : Pusher) (given : List UInt8) : Prop where
  within : s.Within
  given : s.sent ++ s.waiting = given
  read : s.pc = .read → s.len = 0
  bidx : s.pc = .read ∨ s.pc = .test → s.bidx = 0

theorem mainHolds_newPusher (stack : { bytes : List UInt8 // bytes.length = fmpBufferSize }) :
    MainHolds (newPusher stack) [] :=
  ⟨⟨Nat.zero_le _, fun _ h ↦ absurd h List.not_mem_nil⟩, rfl, fun _ ↦ rfl, fun _ ↦ rfl⟩

theorem MainHolds.step {given : List UInt8} (h : MainHolds s given)
    (hstep : mainStep s event = some s') : MainHolds s' (recordBytes given event) := by
  have hsafe := h.within
  cases event with
  | test terminate =>
    simp only [mainStep] at hstep
    split at hstep
    · case isTrue hpc =>
      obtain rfl := Option.some.inj hstep
      have hbidx := h.bidx (.inr hpc)
      refine ⟨⟨hsafe.range, hsafe.pieces⟩, h.given, ?_, fun _ ↦ hbidx⟩
      dsimp only
      split_ifs with hterminate hlen
      · simp
      · simp
      · exact fun _ ↦ Nat.eq_zero_of_not_pos hlen
    · cases hstep
  | getBuffer size =>
    cases size with
    | none =>
      simp only [mainStep] at hstep
      split at hstep
      · obtain rfl := Option.some.inj hstep
        exact ⟨⟨hsafe.range, hsafe.pieces⟩, h.given, by simp, by simp⟩
      · cases hstep
    | some size =>
      simp only [mainStep] at hstep
      split at hstep
      · obtain ⟨pushed, hpush, -, hwithin, hgiven, -, hbidx⟩ := s.pushPiece_eq hsafe size
        rw [hpush, Option.map_some] at hstep
        obtain rfl := Option.some.inj hstep
        refine ⟨⟨hwithin.range, hwithin.pieces⟩, hgiven.trans h.given, ?_, ?_⟩ <;> dsimp only
        · split_ifs with hlen
          · simp
          · exact fun _ ↦ Nat.eq_zero_of_not_pos hlen
        · split_ifs with hlen
          · simp
          · exact fun _ ↦ hbidx (Nat.eq_zero_of_not_pos hlen)
      · cases hstep
  | read bytes =>
    simp only [mainStep] at hstep
    split at hstep
    · case isTrue hpc =>
      obtain ⟨filled, hfill, rfl⟩ := Option.map_eq_some_iff.mp hstep
      obtain ⟨-, hwithin, hsent, hwaiting, hbidx, hlen⟩ :=
        Pusher.fill_eq_some hsafe (h.bidx (.inl hpc)) hfill
      have hnothing : s.waiting = [] := by
        rw [Pusher.waiting, h.read hpc, List.take_zero]
      have hgiven := h.given
      rw [hnothing, List.append_nil] at hgiven
      refine ⟨⟨hwithin.range, hwithin.pieces⟩, ?_, ?_, fun _ ↦ hbidx⟩
      · change filled.sent ++ filled.waiting = given ++ bytes
        rw [hsent, hwaiting, hgiven]
      · dsimp only
        split_ifs <;> simp
    · cases hstep

theorem MainHolds.run {given : List UInt8} (h : MainHolds s given) {events : List PushEvent}
    {t : Pusher} (hrun : Foundation.run mainStep s events = some t) :
    MainHolds t (events.foldl recordBytes given) := by
  have hmeets : Meets mainStep (fun _ _ ↦ True) s events :=
    meets_of_forall (fun _ _ _ ↦ trivial) s
  exact run_record_of_meets recordBytes (fun _ _ _ _ h _ hstep ↦ h.step hstep) h hmeets hrun

theorem isSome_mainStep (h : s.Within) (hpc : s.pc = .push) (size : ℕ) :
    (mainStep s (.getBuffer (some size))).isSome := by
  obtain ⟨pushed, hpush, -⟩ := s.pushPiece_eq h size
  rw [mainStep, if_pos hpc, hpush]
  rfl

theorem waiting_of_read_nil (hstep : mainStep s (.read []) = some s') : s'.waiting = [] := by
  simp only [mainStep] at hstep
  split at hstep
  · obtain ⟨filled, hfill, rfl⟩ := Option.map_eq_some_iff.mp hstep
    have hempty : s.fill [] = some (s.filled [] (Nat.zero_le _)) := dif_pos (Nat.zero_le _)
    obtain rfl := Option.some.inj (hempty.symm.trans hfill)
    exact List.take_zero
  · cases hstep

/-- In every run the bytes pushed are those read, in their order and in pieces that fit, up to those
that wait; no `memcpy` leaves the buffer; and none waits when the stream has ended. -/
theorem mainPush_law (stack : { bytes : List UInt8 // bytes.length = fmpBufferSize })
    (events : List PushEvent) (t : Pusher)
    (hrun : run mainStep (newPusher stack) events = some t) :
    t.sent ++ t.waiting = events.foldl recordBytes [] ∧
      (∀ piece ∈ t.pushed, piece.2.length ≤ piece.1) ∧
      (t.pc = .push → ∀ size, (mainStep t (.getBuffer (some size))).isSome) ∧
      (events.getLast? = some (.read []) → t.sent = events.foldl recordBytes []) := by
  have hholds := (mainHolds_newPusher stack).run hrun
  refine ⟨hholds.given, hholds.within.pieces, isSome_mainStep hholds.within, fun hlast ↦ ?_⟩
  obtain ⟨front, rfl⟩ := List.getLast?_eq_some_iff.mp hlast
  obtain ⟨s, -, hback⟩ := run_append_eq_some.mp hrun
  obtain ⟨s', hstep, hend⟩ := run_cons_eq_some.mp hback
  obtain rfl := Option.some.inj hend
  have hgiven := hholds.given
  rwa [waiting_of_read_nil hstep, List.append_nil] at hgiven

/-- Three bytes through buffers of two. -/
theorem mainPush_law_three :
    ∃ t, run mainStep (newPusher ⟨List.replicate fmpBufferSize 0, List.length_replicate⟩)
        [.read [1, 2, 3], .test false, .getBuffer (some 2), .getBuffer (some 2), .read []] =
      some t ∧ t.sent = [1, 2, 3] := by
  have hsome : (run mainStep (newPusher ⟨List.replicate fmpBufferSize 0, List.length_replicate⟩)
      [.read [1, 2, 3], .test false, .getBuffer (some 2), .getBuffer (some 2),
        .read []]).isSome = true := by
    decide +kernel
  obtain ⟨t, hrun⟩ := Option.isSome_iff_exists.mp hsome
  exact ⟨t, hrun, (mainPush_law ⟨List.replicate fmpBufferSize 0, List.length_replicate⟩
    [.read [1, 2, 3], .test false, .getBuffer (some 2), .getBuffer (some 2), .read []] t
    hrun).2.2.2 rfl⟩

/-! ### The public player -/

/-- The blocks read so far, without those for which the device had no buffer. -/
def recordBlocks (blocks : List (List UInt8)) : PushEvent → List (List UInt8)
  | .read bytes => blocks ++ [bytes]
  | .getBuffer none => blocks.dropLast
  | _ => blocks

/-- A buffer is missing only for the first piece of a block. -/
def MissingFirst (s : Pusher) (event : PushEvent) : Prop :=
  event = .getBuffer none → s.bidx = 0

instance (s : Pusher) (event : PushEvent) : Decidable (MissingFirst s event) :=
  inferInstanceAs (Decidable (_ → _))

/-- The device has the blocks, but for what waits of the last one. -/
structure PublicHolds (s : Pusher) (blocks : List (List UInt8)) : Prop where
  within : s.Within
  read : s.pc ≠ .push → s.bidx = 0 ∧ s.sent = blocks.flatten
  push : s.pc = .push → s.sent ++ s.waiting = blocks.flatten ∧
    ∃ front block, blocks = front ++ [block] ∧ block.length = s.bidx + s.len

theorem publicHolds_newPusher (stack : { bytes : List UInt8 // bytes.length = fmpBufferSize }) :
    PublicHolds (newPusher stack) [] :=
  ⟨⟨Nat.zero_le _, fun _ h ↦ absurd h List.not_mem_nil⟩, fun _ ↦ ⟨rfl, rfl⟩, fun h ↦ nomatch h⟩

/-- The block that has no buffer is not begun. -/
theorem PublicHolds.drop {blocks : List (List UInt8)} (h : PublicHolds s blocks)
    (hpc : s.pc = .push) (hbidx : s.bidx = 0) : s.sent = blocks.dropLast.flatten := by
  obtain ⟨hgiven, front, block, rfl, hlength⟩ := h.push hpc
  rw [hbidx, Nat.zero_add] at hlength
  rw [List.flatten_append, List.flatten_singleton] at hgiven
  have hwaiting := Pusher.length_waiting h.within
  rw [List.dropLast_concat]
  exact (List.append_inj' hgiven (hwaiting.trans hlength.symm)).1

theorem PublicHolds.step {blocks : List (List UInt8)} (h : PublicHolds s blocks)
    (hgood : MissingFirst s event) (hstep : publicStep s event = some s') :
    PublicHolds s' (recordBlocks blocks event) := by
  have hsafe := h.within
  cases event with
  | test terminate => cases hstep
  | getBuffer size =>
    cases size with
    | none =>
      simp only [publicStep] at hstep
      split at hstep
      · case isTrue hpc =>
        obtain rfl := Option.some.inj hstep
        have hbidx := hgood rfl
        exact ⟨⟨hsafe.range, hsafe.pieces⟩, fun _ ↦ ⟨hbidx, h.drop hpc hbidx⟩,
          fun hpush ↦ nomatch hpush⟩
      · cases hstep
    | some size =>
      simp only [publicStep] at hstep
      split at hstep
      · case isTrue hpc =>
        obtain ⟨hgiven, front, block, hblocks, hlength⟩ := h.push hpc
        obtain ⟨pushed, hpush, -, hwithin, hsent, hrange, hbidx⟩ := s.pushPiece_eq hsafe size
        rw [hpush, Option.map_some] at hstep
        obtain rfl := Option.some.inj hstep
        refine ⟨⟨hwithin.range, hwithin.pieces⟩, ?_, ?_⟩ <;> dsimp only
        · split_ifs with hlen
          · exact fun hne ↦ absurd rfl hne
          · have hzero := Nat.eq_zero_of_not_pos hlen
            refine fun _ ↦ ⟨hbidx hzero, ?_⟩
            have hwaiting : pushed.waiting = [] := by
              rw [Pusher.waiting, hzero, List.take_zero]
            rw [hwaiting, List.append_nil] at hsent
            exact hsent.trans hgiven
        · split_ifs with hlen
          · exact fun _ ↦ ⟨hsent.trans hgiven, front, block, hblocks,
              hlength.trans (hrange hlen).symm⟩
          · simp
      · cases hstep
  | read bytes =>
    simp only [publicStep] at hstep
    split at hstep
    · case isTrue hpc =>
      obtain ⟨filled, hfill, rfl⟩ := Option.map_eq_some_iff.mp hstep
      obtain ⟨hbidx, hsent⟩ := h.read (by simp [hpc])
      obtain ⟨-, hwithin, hsame, hwaiting, hbidx', hlen⟩ := Pusher.fill_eq_some hsafe hbidx hfill
      have hflatten : (blocks ++ [bytes]).flatten = blocks.flatten ++ bytes := by
        rw [List.flatten_append, List.flatten_singleton]
      refine ⟨⟨hwithin.range, hwithin.pieces⟩, ?_, ?_⟩ <;> dsimp only [recordBlocks]
      · split_ifs with hpos
        · exact fun hne ↦ absurd rfl hne
        · have hnil : bytes = [] := List.eq_nil_of_length_eq_zero (by omega)
          refine fun _ ↦ ⟨hbidx', ?_⟩
          rw [hflatten, hnil, List.append_nil]
          exact hsame.trans hsent
      · split_ifs with hpos
        · refine fun _ ↦ ⟨?_, blocks, bytes, rfl, by rw [hbidx', hlen, Nat.zero_add]⟩
          change filled.sent ++ filled.waiting = _
          rw [hsame, hwaiting, hsent, hflatten]
        · simp
    · cases hstep

theorem isSome_publicStep (h : s.Within) (hpc : s.pc = .push) (size : ℕ) :
    (publicStep s (.getBuffer (some size))).isSome := by
  obtain ⟨pushed, hpush, -⟩ := s.pushPiece_eq h size
  rw [publicStep, if_pos hpc, hpush]
  rfl

/-- In every run in which a buffer is missing only for first pieces, the device has the blocks read,
without those that had no buffer, up to what waits of the last; and no `memcpy` leaves the buffer. -/
theorem publicPush_law (stack : { bytes : List UInt8 // bytes.length = fmpBufferSize })
    (events : List PushEvent) (t : Pusher)
    (hgood : Meets publicStep MissingFirst (newPusher stack) events)
    (hrun : run publicStep (newPusher stack) events = some t) :
    t.sent ++ (if t.pc = .push then t.waiting else []) =
        (events.foldl recordBlocks []).flatten ∧
      (∀ piece ∈ t.pushed, piece.2.length ≤ piece.1) ∧
      (t.pc = .push → ∀ size, (publicStep t (.getBuffer (some size))).isSome) := by
  have hholds : PublicHolds t (events.foldl recordBlocks []) :=
    run_record_of_meets recordBlocks (fun _ _ _ _ h hgood hstep ↦ h.step hgood hstep)
      (publicHolds_newPusher stack) hgood hrun
  refine ⟨?_, hholds.within.pieces, isSome_publicStep hholds.within⟩
  split_ifs with hpc
  · exact (hholds.push hpc).1
  · rw [List.append_nil]
    exact (hholds.read hpc).2

/-- A second block without a buffer between two that have one. -/
theorem publicPush_law_three :
    ∃ t, run publicStep (newPusher ⟨List.replicate fmpBufferSize 0, List.length_replicate⟩)
        [.read [1, 2, 3], .getBuffer (some 2), .getBuffer (some 2), .read [4], .getBuffer none,
          .read [5], .getBuffer (some 1)] = some t ∧
      t.sent ++ (if t.pc = .push then t.waiting else []) = [1, 2, 3, 5] := by
  have hsome : (run publicStep (newPusher ⟨List.replicate fmpBufferSize 0, List.length_replicate⟩)
      [.read [1, 2, 3], .getBuffer (some 2), .getBuffer (some 2), .read [4], .getBuffer none,
        .read [5], .getBuffer (some 1)]).isSome = true := by
    decide +kernel
  obtain ⟨t, hrun⟩ := Option.isSome_iff_exists.mp hsome
  exact ⟨t, hrun, (publicPush_law ⟨List.replicate fmpBufferSize 0, List.length_replicate⟩
    [.read [1, 2, 3], .getBuffer (some 2), .getBuffer (some 2), .read [4], .getBuffer none,
      .read [5], .getBuffer (some 1)] t (by decide +kernel) hrun).1⟩

/-- A buffer is missing for a later piece: a full block that comes next is read past its end, if the
device then has a buffer for all of it. -/
theorem publicStep_misplaced (hpc : s.pc = .push) (hbidx : 0 < s.bidx) {bytes : List UInt8}
    (hbytes : bytes.length = fmpBufferSize) {size : ℕ} (hsize : fmpBufferSize ≤ size) :
    ∃ t, run publicStep s [.getBuffer none, .read bytes] = some t ∧ t.pc = .push ∧
      publicStep t (.getBuffer (some size)) = none := by
  have hle : bytes.length ≤ fmpBufferSize := Nat.le_of_eq hbytes
  have hfull : 0 < bytes.length := by
    rw [hbytes]
    decide
  have hread : publicStep { s with pc := .read } (.read bytes) =
      some { Pusher.filled { s with pc := .read } bytes hle with pc := .push } := by
    rw [publicStep, if_pos rfl, Pusher.fill, dif_pos hle, Option.map_some]
    exact congrArg (fun pc ↦ some { Pusher.filled { s with pc := .read } bytes hle with pc := pc })
      (if_pos hfull)
  refine ⟨{ Pusher.filled { s with pc := .read } bytes hle with pc := .push },
    run_cons_eq_some.mpr ⟨_, if_pos hpc, run_cons_eq_some.mpr ⟨_, hread, run_nil _⟩⟩, rfl, ?_⟩
  rw [publicStep, if_pos rfl, Pusher.pushPiece_of_lt, Option.map_none]
  · change fmpBufferSize < s.bidx + bytes.length
    omega
  · exact Nat.le_trans hle hsize

end Katmai.StreamMpeg
