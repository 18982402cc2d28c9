import Katmai.Ttpseng.TextBuffer

/-!
# The text buffer replays what was pushed

`Holds b entries` says that the chunks of a buffer are linked in order and that the used entries of
all of them are `entries`. The allocator hands out the place behind the last entry (`Room`), and a
push that stores through the current pointer appends its entry. A call of `ttePushFloat` whose
pointer is read before the allocator runs does the same where the chunk is not switched; where it
is, the type goes into the chunk before, or nowhere. The traversal visits the pushed entries for
every order of evaluation exactly if no call of `ttePushFloat` comes at such a place
(`pushAll_replays_iff`).
-/

set_option autoImplicit false
set_option relaxedAutoImplicit false

namespace Katmai.Ttpseng

open Foundation

variable {malloc : Malloc} {b b' : TextBuffer} {entries : List TxtbufContent} {idx : ℕ}
  {key v : BitVec 32} {sel : TbcType} {order : Evaluation} {orders : ℕ → Evaluation}

/-! ### The entries of a buffer -/

/-- The entries of the full chunks. -/
def fullEntries (full : List (ℕ × TextfileBuffer)) : List TxtbufContent :=
  full.flatMap fun item ↦ (List.range perBufferLen).map item.2.code

/-- The current chunk is the last one of a list of chunks, the others are full, and of the current
one `idx` entries are used. -/
structure Room (b : TextBuffer) (idx : ℕ) (full : List (ℕ × TextfileBuffer)) (t : ℕ)
    (last : TextfileBuffer) (entries : List TxtbufContent) : Prop where
  path : LinkPath TextfileBuffer.next b.chunks b.txtbuf (full ++ [(t, last)]) none
  current : b.txtbufCurrent = some t
  entries : entries = fullEntries full ++ (List.range idx).map last.code

/-- The buffer holds the entries. -/
def Holds (b : TextBuffer) (entries : List TxtbufContent) : Prop :=
  (b.txtbuf = none ∧ b.txtbufCurrent = none ∧ entries = []) ∨
    ∃ full t last, Room b b.txtbufIdx full t last entries ∧ 0 < b.txtbufIdx ∧
      b.txtbufIdx ≤ perBufferLen

theorem holds_empty : Holds TextBuffer.empty [] :=
  .inl ⟨rfl, rfl, rfl⟩

theorem length_fullEntries (full : List (ℕ × TextfileBuffer)) :
    (fullEntries full).length = full.length * perBufferLen := by
  induction full with
  | nil => exact (Nat.zero_mul _).symm
  | cons item full ih =>
    rw [fullEntries, List.flatMap_cons, List.length_append, List.length_map, List.length_range,
      ← fullEntries, ih, List.length_cons, Nat.succ_mul, Nat.add_comm]

theorem Room.length {full : List (ℕ × TextfileBuffer)} {t : ℕ} {last : TextfileBuffer}
    (hroom : Room b idx full t last entries) :
    entries.length = full.length * perBufferLen + idx := by
  rw [hroom.entries, List.length_append, length_fullEntries, List.length_map, List.length_range]

/-! ### The allocator -/

/-- A chunk as the allocator makes it. -/
def newChunk (malloc : Malloc) (ptr : ℕ) : TextfileBuffer where
  code := malloc ptr
  next := none

/-- The first chunk. -/
theorem allocate_first (malloc : Malloc) (hnone : b.txtbufCurrent = none) :
    ∃ b', txtbufAllocate malloc b = some (0, b') ∧
      Room b' 0 [] b.chunks.length (newChunk malloc b.chunks.length) [] ∧ b'.txtbufIdx = 1 := by
  refine ⟨_, by simp [txtbufAllocate, hnone]; rfl,
    ⟨⟨rfl, Cells.load_alloc_self _ _, rfl⟩, rfl, rfl⟩, rfl⟩

/-- A further chunk, behind the one that is full. -/
theorem allocate_switch (malloc : Malloc) {full : List (ℕ × TextfileBuffer)} {t : ℕ}
    {last : TextfileBuffer}
    (hroom : Room b perBufferLen full t last entries) (hfull : b.txtbufIdx = perBufferLen) :
    ∃ b', txtbufAllocate malloc b = some (0, b') ∧
      Room b' 0 (full ++ [(t, { last with next := some b.chunks.length })]) b.chunks.length
        (newChunk malloc b.chunks.length) entries ∧ b'.txtbufIdx = 1 := by
  obtain ⟨chunks, hupdate, hpath⟩ := hroom.path.allocLinked
    (f := fun chunk ↦ { chunk with next := some b.chunks.length })
    (newChunk malloc b.chunks.length) rfl rfl
  refine ⟨{ b with
    chunks := chunks
    txtbufCurrent := some b.chunks.length
    txtbufIdx := 1 }, ?_, ⟨?_, rfl, ?_⟩, rfl⟩
  · rw [newChunk, ← hroom.current] at hupdate
    have hsome : b.txtbufCurrent.isNone = false := by rw [hroom.current]; rfl
    simp only [txtbufAllocate, hsome, hfull, hupdate, ge_iff_le, Nat.le_refl, if_true,
      Bool.false_eq_true, if_false, Option.bind_eq_bind, Option.bind_some]
  · rw [List.append_cons] at hpath
    exact hpath
  · rw [hroom.entries, List.range_zero, List.map_nil, List.append_nil]
    simp only [fullEntries, List.flatMap_append, List.flatMap_singleton]

/-- A place in the current chunk. -/
theorem allocate_stay (malloc : Malloc) (hsome : b.txtbufCurrent ≠ none)
    (hlt : b.txtbufIdx < perBufferLen) :
    txtbufAllocate malloc b = some (b.txtbufIdx, { b with txtbufIdx := b.txtbufIdx + 1 }) := by
  have hisNone : b.txtbufCurrent.isNone = false := by
    cases hcurrent : b.txtbufCurrent with
    | none => exact absurd hcurrent hsome
    | some t => rfl
  simp only [txtbufAllocate, hisNone, Bool.false_eq_true, if_false, ge_iff_le, Nat.not_le.mpr hlt,
    Option.bind_eq_bind, Option.bind_some]

/-- The allocator hands out the place behind the last entry. -/
theorem Holds.allocate (malloc : Malloc) (hholds : Holds b entries) :
    ∃ idx b' full t last, txtbufAllocate malloc b = some (idx, b') ∧
      Room b' idx full t last entries ∧ b'.txtbufIdx = idx + 1 ∧ idx < perBufferLen := by
  rcases hholds with ⟨-, hnone, rfl⟩ | ⟨full, t, last, hroom, hpos, hle⟩
  · obtain ⟨b', halloc, hroom, hidx⟩ := allocate_first malloc hnone
    exact ⟨0, b', [], _, _, halloc, hroom, hidx, by decide⟩
  · rcases Nat.lt_or_eq_of_le hle with hlt | hfull
    · exact ⟨b.txtbufIdx, _, full, t, last, allocate_stay malloc (by simp [hroom.current]) hlt,
        ⟨hroom.path, hroom.current, hroom.entries⟩, rfl, hlt⟩
    · obtain ⟨b', halloc, hroom', hidx⟩ := allocate_switch malloc (hfull ▸ hroom) hfull
      exact ⟨0, b', _, _, _, halloc, hroom', hidx, by decide⟩

/-! ### The stores -/

/-- A store of the value at the place that was handed out appends an entry, whose type is what
stands there. -/
theorem Room.storeValue {full : List (ℕ × TextfileBuffer)} {t : ℕ} {last : TextfileBuffer}
    (hroom : Room b idx full t last entries) (hidx : b.txtbufIdx = idx + 1)
    (hlt : idx < perBufferLen) :
    ∃ chunks, b.chunks.update b.txtbufCurrent (TextfileBuffer.setValue idx v) = some chunks ∧
      Holds { b with chunks := chunks }
        (entries ++ [{ type := (last.code idx).type, v := v }]) := by
  obtain ⟨chunks, hupdate, hpath⟩ := hroom.path.touchAt (g := TextfileBuffer.setValue idx v)
    fun _ ↦ rfl
  rw [← hroom.current] at hupdate
  refine ⟨chunks, hupdate, .inr ⟨full, t, _, ⟨hpath, hroom.current, ?_⟩, ?_, ?_⟩⟩
  · have hself : (last.setValue idx v).code idx = { type := (last.code idx).type, v := v } :=
      Function.update_self _ _ _
    have hbefore : (List.range idx).map (last.setValue idx v).code =
        (List.range idx).map last.code := List.map_congr_left fun j hj ↦
      Function.update_of_ne (Nat.ne_of_lt (List.mem_range.mp hj)) _ _
    rw [hroom.entries, hidx, List.range_succ, List.map_append, hbefore, List.map_singleton, hself,
      List.append_assoc]
  · simp only [hidx]
    exact Nat.succ_pos idx
  · simp only [hidx]
    exact hlt

/-- A store of the type changes no entry. -/
theorem Room.storeType (sel : TbcType) {full : List (ℕ × TextfileBuffer)} {t : ℕ}
    {last : TextfileBuffer}
    (hroom : Room b idx full t last entries) :
    ∃ chunks, b.chunks.update b.txtbufCurrent (TextfileBuffer.setType idx sel) = some chunks ∧
      Room { b with chunks := chunks } idx full t (last.setType idx sel) entries := by
  obtain ⟨chunks, hupdate, hpath⟩ := hroom.path.touchAt (g := TextfileBuffer.setType idx sel)
    fun _ ↦ rfl
  rw [← hroom.current] at hupdate
  refine ⟨chunks, hupdate, hpath, hroom.current, ?_⟩
  rw [hroom.entries]
  refine congrArg _ (List.map_congr_left fun j hj ↦ Eq.symm ?_)
  exact Function.update_of_ne (Nat.ne_of_lt (List.mem_range.mp hj)) _ _

/-- Both stores through the current pointer append the entry. -/
theorem Room.store (sel : TbcType) (v : BitVec 32) {full : List (ℕ × TextfileBuffer)} {t : ℕ}
    {last : TextfileBuffer}
    (hroom : Room b idx full t last entries) (hidx : b.txtbufIdx = idx + 1)
    (hlt : idx < perBufferLen) :
    ∃ chunks₁ chunks,
      b.chunks.update b.txtbufCurrent (TextfileBuffer.setType idx sel) = some chunks₁ ∧
      chunks₁.update b.txtbufCurrent (TextfileBuffer.setValue idx v) = some chunks ∧
      Holds { b with chunks := chunks } (entries ++ [{ type := sel, v := v }]) := by
  obtain ⟨chunks₁, htype, hroom₁⟩ := hroom.storeType sel
  obtain ⟨chunks, hvalue, hholds⟩ := hroom₁.storeValue (v := v) hidx hlt
  have hstored : ((last.setType idx sel).code idx).type = sel := by simp [TextfileBuffer.setType]
  rw [hstored] at hholds
  exact ⟨chunks₁, chunks, htype, hvalue, hholds⟩

/-! ### The calls -/

theorem Holds.ttePush (hholds : Holds b entries) :
    ∃ b', Ttpseng.ttePush malloc b key sel = some b' ∧
      Holds b' (entries ++ [{ type := sel, v := pushedValue key sel }]) := by
  obtain ⟨idx, b₁, full, t, last, halloc, hroom, hidx, hlt⟩ := hholds.allocate malloc
  obtain ⟨chunks₁, chunks, htype, hvalue, hdone⟩ :=
    hroom.store sel (pushedValue key sel) hidx hlt
  refine ⟨{ b₁ with chunks := chunks }, ?_, hdone⟩
  simp only [Ttpseng.ttePush, halloc, Option.bind_eq_bind, Option.bind_some, htype, hvalue]

/-- With the call first the float writer appends its entry too. -/
theorem Holds.ttePushFloat_callFirst (malloc : Malloc) (key : BitVec 32) (sel : TbcType)
    (hholds : Holds b entries) :
    ∃ b', ttePushFloat malloc .callFirst b key sel = some b' ∧
      Holds b' (entries ++ [{ type := sel, v := key }]) := by
  obtain ⟨idx, b₁, full, t, last, halloc, hroom, hidx, hlt⟩ := hholds.allocate malloc
  obtain ⟨chunks₁, chunks, htype, hvalue, hdone⟩ :=
    hroom.store sel key hidx hlt
  refine ⟨{ b₁ with chunks := chunks }, ?_, hdone⟩
  have horder : (Evaluation.callFirst = Evaluation.pointerFirst) = False :=
    eq_false Evaluation.noConfusion
  simp only [ttePushFloat, halloc, Option.bind_eq_bind, Option.bind_some, horder, if_false, htype,
    hvalue]

/-- Where the chunk is not switched, the orders do the same. -/
theorem ttePushFloat_eq_callFirst (hholds : Holds b entries)
    (hinner : entries.length % perBufferLen ≠ 0) :
    ttePushFloat malloc order b key sel = ttePushFloat malloc .callFirst b key sel := by
  rcases hholds with ⟨-, -, rfl⟩ | ⟨full, t, last, hroom, hpos, hle⟩
  · exact absurd rfl hinner
  · have hlt : b.txtbufIdx < perBufferLen := by
      refine Nat.lt_of_le_of_ne hle fun hfull ↦ hinner ?_
      rw [hroom.length, hfull, Nat.add_mod_right, Nat.mul_mod_left]
    have halloc := allocate_stay malloc (by simp [hroom.current]) hlt
    simp only [ttePushFloat, halloc, Option.bind_eq_bind, Option.bind_some, ite_self]

/-- A store of a type into a full chunk changes entries, but not how many there are. -/
theorem Room.storeTypeBefore (sel : TbcType) {full : List (ℕ × TextfileBuffer)} {t a : ℕ}
    {last new : TextfileBuffer} (hroom : Room b 0 (full ++ [(t, last)]) a new entries) :
    ∃ chunks full' entries', b.chunks.update (some t) (TextfileBuffer.setType 0 sel) = some chunks ∧
      Room { b with chunks := chunks } 0 full' a new entries' ∧
      entries'.length = entries.length := by
  have hload : b.chunks.load (some t) = some last :=
    hroom.path.load_of_mem (show (t, last) ∈ full ++ [(t, last)] ++ [(a, new)] by simp)
  have hnodup := hroom.path.nodup
  rw [List.map_append, List.nodup_append] at hnodup
  have hne : a ≠ t := fun heq ↦ hnodup.2.2 t (by simp) a (by simp) heq.symm
  have hpath := hroom.path.touch (f := TextfileBuffer.setType 0 sel) (fun _ ↦ rfl) hload
  rw [List.map_append, List.map_singleton, touch_of_ne hne] at hpath
  refine ⟨_, _, _, Cells.update_of_load hload, ⟨hpath, hroom.current, rfl⟩, ?_⟩
  rw [hroom.entries]
  simp only [List.length_append, length_fullEntries, List.length_map]

/-- Where it is switched, the order that reads the pointer first follows a null pointer or leaves
the type of the new entry as it was allocated. -/
theorem Holds.ttePushFloat_pointerFirst (malloc : Malloc) (key : BitVec 32) (sel : TbcType)
    (hholds : Holds b entries)
    (houter : entries.length % perBufferLen = 0) :
    ttePushFloat malloc .pointerFirst b key sel = none ∨
    ∃ b' entries' ptr, ttePushFloat malloc .pointerFirst b key sel = some b' ∧
      entries'.length = entries.length ∧
      Holds b' (entries' ++ [{ type := (malloc ptr 0).type, v := key }]) := by
  rcases hholds with ⟨-, hnone, rfl⟩ | ⟨full, t, last, hroom, hpos, hle⟩
  · obtain ⟨b₁, halloc, -, -⟩ := allocate_first malloc hnone
    refine .inl ?_
    simp only [ttePushFloat, halloc, hnone, Option.bind_eq_bind, Option.bind_some, if_true]
    rfl
  · have hfull : b.txtbufIdx = perBufferLen := by
      rcases Nat.lt_or_eq_of_le hle with hlt | hfull
      · rw [hroom.length, Nat.mul_add_mod_self_right, Nat.mod_eq_of_lt hlt] at houter
        exact absurd houter (Nat.ne_of_gt hpos)
      · exact hfull
    obtain ⟨b₁, halloc, hroom₁, hidx⟩ := allocate_switch malloc (hfull ▸ hroom) hfull
    obtain ⟨chunks₁, full', entries', htype, hroom', hlength⟩ :=
      hroom₁.storeTypeBefore sel
    obtain ⟨chunks, hvalue, hdone⟩ := hroom'.storeValue (v := key) hidx (by decide)
    refine .inr ⟨_, entries', _, ?_, hlength, hdone⟩
    simp only [ttePushFloat, halloc, hroom.current, Option.bind_eq_bind, Option.bind_some, if_true,
      htype, hvalue]

/-! ### The traversal -/

/-- The traversal visits the entries of the chunks in order. -/
theorem replayFrom_eq {full : List (ℕ × TextfileBuffer)} {p : Option ℕ} {t : ℕ}
    {last : TextfileBuffer}
    (hpath : LinkPath TextfileBuffer.next b.chunks p (full ++ [(t, last)]) none)
    (hcurrent : b.txtbufCurrent = some t) {fuel : ℕ} (hfuel : full.length + 1 < fuel) :
    replayFrom b fuel p =
      some (fullEntries full ++ (List.range b.txtbufIdx).map last.code) := by
  have hnodup := hpath.nodup
  induction full generalizing p fuel with
  | nil =>
    obtain ⟨rfl, hload, hend⟩ := hpath
    obtain ⟨fuel, rfl⟩ := Nat.exists_eq_add_of_le' (hfuel : 2 ≤ fuel)
    have hnext : last.next = none := hend
    simp [replayFrom, hload, hnext, hcurrent, fullEntries]
  | cons item full ih =>
    obtain ⟨a, chunk⟩ := item
    obtain ⟨rfl, hload, hrest⟩ := hpath
    obtain ⟨fuel, rfl⟩ := Nat.exists_eq_add_one_of_ne_zero (Nat.ne_zero_of_lt hfuel)
    rw [List.cons_append, List.map_cons, List.nodup_cons] at hnodup
    have hne : a ≠ t := fun heq ↦ hnodup.1 (by simp [heq])
    have hother : (some a ≠ b.txtbufCurrent) = True :=
      eq_true fun heq ↦ hne (Option.some.inj (heq.trans hcurrent))
    have htail := ih hrest (Nat.lt_of_succ_lt_succ hfuel) hnodup.2
    simp only [replayFrom, hload, Option.bind_eq_bind, Option.bind_some, hother, if_true, htail]
    simp only [fullEntries, List.flatMap_cons, List.append_assoc]

/-- A buffer is traversed to its entries. -/
theorem Holds.replay (hholds : Holds b entries) : Ttpseng.replay b = some entries := by
  rcases hholds with ⟨hnull, -, rfl⟩ | ⟨full, t, last, hroom, -, -⟩
  · rw [Ttpseng.replay, hnull]
    rfl
  · have hlength := hroom.path.length_le
    rw [List.length_append, List.length_singleton] at hlength
    rw [Ttpseng.replay, replayFrom_eq hroom.path hroom.current (Nat.lt_succ_of_le hlength),
      hroom.entries]

/-! ### Sequences of calls -/

/-- The call is one of `tte_push_float`. -/
def PushCall.isFloat : PushCall → Bool
  | .push _ _ => false
  | .pushf _ _ => true

/-- The traversal visits what was pushed, whatever the orders of evaluation and whatever the new
chunks hold. -/
def Replays (calls : List PushCall) : Prop :=
  ∀ (malloc : Malloc) (order : ℕ → Evaluation), ∃ b,
    pushAll malloc order 0 calls TextBuffer.empty = some b ∧
      replay b = some (calls.map PushCall.entry)

/-- A call appends its entry if it has the order that calls first, or comes inside a chunk. -/
theorem Holds.run (malloc : Malloc) (order : Evaluation) (hholds : Holds b entries)
    (call : PushCall)
    (hsafe : call.isFloat = true → order = .callFirst ∨ entries.length % perBufferLen ≠ 0) :
    ∃ b', call.run malloc order b = some b' ∧ Holds b' (entries ++ [call.entry]) := by
  cases call with
  | push key sel => exact hholds.ttePush
  | pushf key sel =>
    have hcallFirst := hholds.ttePushFloat_callFirst malloc key sel
    rcases hsafe rfl with rfl | hinner
    · exact hcallFirst
    · rw [PushCall.run, ttePushFloat_eq_callFirst hholds hinner]
      exact hcallFirst

/-- A sequence of such calls appends their entries. -/
theorem Holds.pushAll (malloc : Malloc) (orders : ℕ → Evaluation) (n : ℕ)
    (calls : List PushCall) (hholds : Holds b entries) (hn : n = entries.length)
    (hsafe : ∀ i (h : i < calls.length), calls[i].isFloat = true →
      orders (n + i) = .callFirst ∨ (n + i) % perBufferLen ≠ 0) :
    ∃ b', Ttpseng.pushAll malloc orders n calls b = some b' ∧
      Holds b' (entries ++ calls.map PushCall.entry) := by
  induction calls generalizing b entries n with
  | nil => exact ⟨b, rfl, by simpa using hholds⟩
  | cons call calls ih =>
    obtain ⟨b₁, hrun, hholds₁⟩ := hholds.run malloc (orders n) call fun hfloat ↦
      hn ▸ hsafe 0 (Nat.zero_lt_succ _) hfloat
    obtain ⟨b', hrest, hholds'⟩ := ih hholds₁ (n := n + 1) (by simp [hn]) fun i hi hfloat ↦ by
      have hnext := hsafe (i + 1) (Nat.succ_lt_succ hi) hfloat
      rwa [← Nat.add_assoc, Nat.add_right_comm] at hnext
    refine ⟨b', ?_, by simpa using hholds'⟩
    rw [Ttpseng.pushAll, hrun, Option.bind_some, hrest]

theorem pushAll_append (n : ℕ) (first second : List PushCall) (b : TextBuffer) :
    Ttpseng.pushAll malloc orders n (first ++ second) b =
      (Ttpseng.pushAll malloc orders n first b).bind
        (Ttpseng.pushAll malloc orders (n + first.length) second) := by
  induction first generalizing n b with
  | nil => rfl
  | cons call first ih =>
    simp only [List.cons_append, Ttpseng.pushAll, List.length_cons]
    cases call.run malloc (orders n) b with
    | none => rfl
    | some b₁ => simp only [Option.bind_some, ih, Nat.add_right_comm, Nat.add_assoc]

/-- A call of the float writer at a place where the chunk is switched is not replayed, if its
pointer is read first and the new chunk holds another type. -/
theorem not_replays_of_pushf {first second : List PushCall}
    (houter : first.length % perBufferLen = 0) :
    ¬Replays (first ++ .pushf key sel :: second) := by
  intro hall
  -- The only call with this order is the one in question.
  let orders := fun i ↦ if i = first.length then Evaluation.pointerFirst else .callFirst
  have hothers (n i : ℕ) (hne : n + i ≠ first.length) :
      orders (n + i) = .callFirst ∨ (n + i) % perBufferLen ≠ 0 := .inl (if_neg hne)
  obtain ⟨other, hother⟩ : ∃ other : TbcType, other ≠ sel := by
    by_cases hsel : sel = .ascii
    · exact ⟨.big5, hsel ▸ TbcType.noConfusion⟩
    · exact ⟨.ascii, fun heq ↦ hsel heq.symm⟩
  let malloc : Malloc := fun _ _ ↦ { type := other, v := 0 }
  obtain ⟨b, hrun, hreplay⟩ := hall malloc orders
  obtain ⟨b₁, hfirst, hholds₁⟩ := holds_empty.pushAll malloc orders 0 first rfl
    fun i hi _ ↦ hothers 0 i (by omega)
  rw [List.nil_append] at hholds₁
  rw [pushAll_append, hfirst, Option.bind_some, Nat.zero_add, Ttpseng.pushAll, PushCall.run,
    show orders first.length = .pointerFirst from if_pos rfl] at hrun
  rcases hholds₁.ttePushFloat_pointerFirst malloc key sel
    (by rwa [List.length_map]) with hnone | ⟨b₂, entries, ptr, hsome, hlength, hholds₂⟩
  · rw [hnone] at hrun
    exact absurd hrun (by simp)
  · rw [List.length_map] at hlength
    obtain ⟨b', hsecond, hholds'⟩ := hholds₂.pushAll malloc orders (first.length + 1)
      second (by simp [hlength])
      fun i hi _ ↦ hothers _ i (by omega)
    rw [hsome, Option.bind_some, hsecond] at hrun
    rw [← Option.some.inj hrun, hholds'.replay, Option.some.injEq, List.map_append, List.map_cons,
      List.append_assoc] at hreplay
    have htail := (List.append_inj hreplay (by simpa using hlength)).2
    rw [List.singleton_append, List.cons.injEq] at htail
    exact hother (congrArg TxtbufContent.type htail.1)

/-- The traversal visits exactly the pushed entries in order, under every order of evaluation, if
and only if no call of `tte_push_float` comes when the number of entries before it is a multiple of
`PER_BUFFER_LEN`. -/
theorem pushAll_replays_iff (calls : List PushCall) :
    Replays calls ↔
      ∀ i (h : i < calls.length), calls[i].isFloat = true → i % perBufferLen ≠ 0 := by
  constructor
  · intro hall i hi hfloat houter
    cases hcall : calls[i] with
    | push key sel =>
      rw [hcall] at hfloat
      exact Bool.false_ne_true hfloat
    | pushf key sel =>
      have hsplit : calls = calls.take i ++ .pushf key sel :: calls.drop (i + 1) := by
        rw [← hcall, List.getElem_cons_drop, List.take_append_drop]
      rw [hsplit] at hall
      refine not_replays_of_pushf ?_ hall
      rw [List.length_take, Nat.min_eq_left (Nat.le_of_lt hi)]
      exact houter
  · intro hinner malloc order
    obtain ⟨b, hrun, hholds⟩ := holds_empty.pushAll malloc order 0 calls rfl fun i hi hfloat ↦ by
        rw [Nat.zero_add]
        exact .inr (hinner i hi hfloat)
    exact ⟨b, hrun, hholds.replay⟩

/-- A float that is pushed first is not replayed: the pointer that is read first is null. -/
theorem not_replays_float_first : ¬Replays [.pushf 0 .setDirectX] := by
  intro hall
  obtain ⟨b, hrun, -⟩ := hall (fun _ _ ↦ { type := .ascii, v := 0 }) fun _ ↦ .pointerFirst
  have hnone : (none : Option TextBuffer) = some b := hrun
  exact absurd hnone.symm (Option.some_ne_none b)

end Katmai.Ttpseng
