import Katmai.SslLib.Pop3Agent

/-!
# Segmentation of the client's stream

What the agent sees of its client should depend on the bytes that it is sent, not on how `read`
cuts them up or on what was in the buffer (`SegmentationFree`). It does not: the agent answers once
for every chunk, so that two bytes in one chunk and two bytes in two chunks are answered
differently, and of one byte it looks at what stands behind it in the buffer. The law holds for the
empty stream and for single bytes that begin no command (`segmentationFree_iff`). A `USER` line that
comes in one chunk is understood (`userPhase_line`).
-/

set_option autoImplicit false
set_option relaxedAutoImplicit false

namespace Katmai.SslLib

open Foundation

/-! ### The law -/

/-- The name in a line with `USER`. -/
def lineUser (line : List Char) : List Char :=
  (((line.drop 5).dropWhile (· == ' ')).takeWhile (!endsName ·)).take 17

/-- The name in the first line with `USER` and what follows the line, unless the client quits before
or does not end the line. -/
def userLine : List (List Char) → Option (List Char × List Char)
  | [] => none
  | line :: rest =>
    if line.getLast? ≠ some '\n' then none
    else if startsWith line "user ".toList then some (lineUser line, rest.flatten)
    else if startsWith line "quit".toList then none
    else userLine rest

/-- A buffer and a way to cut up the stream. -/
structure Run (stream : List Char) where
  buffer : Buffer
  chunks : List Chunk
  carries : (chunks.map Chunk.bytes).flatten = stream

def Run.view {stream : List Char} (connects : List Char → Bool) (run : Run stream) : Option View :=
  doService connects run.buffer run.chunks

/-- All runs of a stream have the same view of the client, with the name of its `USER` line, and the
server is sent this name and what follows the line. -/
def SegmentationFree (connects : List Char → Bool) (stream : List Char) : Prop :=
  ∃ view, (∀ run : Run stream, run.view connects = some view) ∧
    view.user = (userLine (textLines stream)).map Prod.fst ∧
    view.forwarded = (userLine (textLines stream)).elim [] fun found ↦
      if connects found.1 then userCommand found.1 ++ found.2 else []

/-! ### Buffers and chunks -/

variable {connects : List Char → Bool} {buf : Buffer} {chunks : List Chunk} {view : View} {c : Char}

/-- A buffer that holds a text and zeros behind it. -/
def Buffer.holding (text : List Char) (hle : text.length ≤ bufSize) : Buffer where
  bytes := text ++ List.replicate (bufSize - text.length) '\x00'
  size := by
    rw [List.length_append, List.length_replicate]
    omega

/-- A chunk of one byte. -/
def Chunk.single (c : Char) : Chunk where
  bytes := [c]
  ne_nil := List.cons_ne_nil _ _
  length_le := by
    rw [List.length_singleton, bufSize]
    omega

/-- A chunk of two bytes. -/
def Chunk.pair (c d : Char) : Chunk where
  bytes := [c, d]
  ne_nil := List.cons_ne_nil _ _
  length_le := by
    rw [List.length_cons, List.length_singleton, bufSize]
    omega

theorem flatten_singles (stream : List Char) :
    ((stream.map Chunk.single).map Chunk.bytes).flatten = stream := by
  induction stream with
  | nil => rfl
  | cons c stream ih => rw [List.map_cons, List.map_cons, List.flatten_cons, ih]; rfl

/-- The second byte of the buffer is a zero. -/
def Buffer.Blank (buf : Buffer) : Prop :=
  buf.bytes[1]? = some '\x00'

theorem blank_fill_single (hblank : buf.Blank) (c : Char) : (buf.fill (.single c)).Blank := by
  obtain ⟨bytes, hsize⟩ := buf
  cases bytes with
  | nil => cases hblank
  | cons d bytes => exact hblank

/-- A first byte in front of a zero begins no command. -/
theorem startsWith_of_blank (hblank : buf.Blank) (a b : Char) (word : List Char)
    (hb : b ≠ '\x00') : startsWith buf.bytes (a :: b :: word) = false := by
  refine Bool.eq_false_iff.mpr fun h ↦ hb ?_
  have hsecond := congrArg (·[1]?) (eq_of_beq h)
  rw [Buffer.Blank] at hblank
  simp only [List.getElem?_map, List.length_cons, List.getElem?_cons_succ,
    List.getElem?_cons_zero] at hsecond
  rw [List.getElem?_take_of_lt (by omega), hblank, Option.map_some, Option.some.injEq] at hsecond
  exact hsecond.symm

/-! ### Answers -/

/-- There is at most one answer to a chunk. -/
theorem length_answers_le (hphase : userPhase connects buf chunks = some view) :
    view.answers.length ≤ chunks.length := by
  induction chunks generalizing buf view with
  | nil =>
    rw [userPhase, Option.some.injEq] at hphase
    exact hphase ▸ Nat.le_refl 0
  | cons chunk rest ih =>
    rw [userPhase] at hphase
    split_ifs at hphase with huser hquit
    · obtain ⟨user, -, rfl⟩ := Option.map_eq_some_iff.mp hphase
      exact Nat.zero_le _
    · rw [Option.some.injEq] at hphase
      exact hphase ▸ Nat.succ_le_succ (Nat.zero_le _)
    · obtain ⟨later, hlater, rfl⟩ := Option.map_eq_some_iff.mp hphase
      exact Nat.succ_le_succ (ih hlater)

/-- Byte by byte, in front of a zero, every byte is an error. -/
theorem userPhase_singles (hblank : buf.Blank) (stream : List Char) :
    userPhase connects buf (stream.map Chunk.single) =
      some { answers := List.replicate stream.length pop3err, user := none, forwarded := [] } := by
  induction stream generalizing buf with
  | nil => rfl
  | cons c stream ih =>
    have hnext := blank_fill_single hblank c
    have huser : startsWith (buf.fill (.single c)).bytes "user ".toList = false :=
      startsWith_of_blank hnext 'u' 's' _ (by decide)
    have hquit : startsWith (buf.fill (.single c)).bytes "quit".toList = false :=
      startsWith_of_blank hnext 'q' 'u' _ (by decide)
    rw [List.map_cons, userPhase, huser, hquit, ih hnext]
    rfl

/-! ### A line in one chunk -/

theorem skipBlanks_append {l rest : List Char} {n : ℕ} (hsome : ∃ c ∈ l, c ≠ ' ')
    (hn : l.length ≤ n) : skipBlanks n (l ++ rest) = l.dropWhile (· == ' ') ++ rest := by
  induction l generalizing n with
  | nil =>
    obtain ⟨c, hc, -⟩ := hsome
    cases hc
  | cons c l ih =>
    obtain ⟨n, rfl⟩ := Nat.exists_eq_add_one_of_ne_zero (Nat.ne_zero_of_lt hn)
    by_cases hblank : c = ' '
    · subst hblank
      obtain ⟨d, hd, hne⟩ := hsome
      have hmem : d ∈ l := (List.mem_cons.mp hd).resolve_left hne
      exact ih ⟨d, hmem, hne⟩ (Nat.le_of_succ_le_succ hn)
    · have hkept : (c :: l).dropWhile (· == ' ') = c :: l :=
        List.dropWhile_cons_of_neg (by simpa using hblank)
      rw [hkept, List.cons_append, skipBlanks]
      exact fun _ heq ↦ hblank (List.cons.inj heq).1

/-- A name that ends within a text is read from the text alone. -/
theorem copyName_append {l : List Char} (hends : ∃ c ∈ l, endsName c = true) (rest : List Char)
    (n : ℕ) : copyName n (l ++ rest) = some ((l.takeWhile (!endsName ·)).take n) := by
  induction l generalizing n with
  | nil =>
    obtain ⟨c, hc, -⟩ := hends
    cases hc
  | cons c l ih =>
    cases n with
    | zero => rfl
    | succ n =>
      rw [List.cons_append, copyName]
      cases hc : endsName c with
      | true => simp [hc]
      | false =>
        obtain ⟨d, hd, hend⟩ := hends
        have hmem : d ∈ l := (List.mem_cons.mp hd).resolve_left fun h ↦ by
          rw [h, hc] at hend
          exact Bool.false_ne_true hend
        rw [if_neg Bool.false_ne_true, ih ⟨d, hmem, hend⟩, Option.map_some,
          List.takeWhile_cons_of_pos (by simp [hc]), List.take_succ_cons]

theorem strlen_append {line rest : List Char} (hline : '\x00' ∉ line) (hrest : '\x00' ∈ rest) :
    ∃ len, strlen (line ++ rest) = some len ∧ line.length ≤ len := by
  obtain ⟨k, hk⟩ : ∃ k, rest.findIdx? (· == '\x00') = some k := by
    rw [← Option.isSome_iff_exists, List.findIdx?_isSome, List.any_eq_true]
    exact ⟨_, hrest, rfl⟩
  have hnone : line.findIdx? (· == '\x00') = none := by
    refine List.findIdx?_eq_none_iff.mpr fun c hc ↦ beq_eq_false_iff_ne.mpr ?_
    rintro rfl
    exact hline hc
  refine ⟨k + line.length, ?_, Nat.le_add_left _ _⟩
  rw [strlen, List.findIdx?_append, hnone, hk]
  rfl

theorem eq_blank_of_toLower (hlower : c.toLower = ' ') : c = ' ' := by
  unfold Char.toLower at hlower
  split_ifs at hlower with hupper
  · have hnat := congrArg (fun c ↦ c.val.toNat) hlower
    have hlo : 65 ≤ c.val.toNat := UInt32.le_iff_toNat_le.mp hupper.1
    have hhi : c.val.toNat ≤ 90 := UInt32.le_iff_toNat_le.mp hupper.2
    have hshift : ('a'.val - 'A'.val).toNat = 32 := by decide
    have hsum : (c.val + ('a'.val - 'A'.val)).toNat = c.val.toNat + 32 := by
      rw [UInt32.toNat_add, hshift, Nat.mod_eq_of_lt (by omega)]
    have hblank : (' ' : Char).val.toNat = 32 := by decide
    simp only at hnat
    omega
  · exact hlower

/-- A line with `USER` has a blank in fifth place and ends behind it. -/
theorem drop_four_of_user {line : List Char} (huser : startsWith line "user ".toList = true)
    (hend : line.getLast? = some '\n') : line.drop 4 = ' ' :: line.drop 5 ∧ '\n' ∈ line.drop 5 := by
  have hwords := eq_of_beq huser
  have hlt : 4 < line.length := by
    have hlength := congrArg List.length hwords
    rw [List.length_map, List.length_take] at hlength
    have hfive : "user ".toList.length = 5 := by decide
    omega
  have hfifth := congrArg (·[4]?) hwords
  simp only [List.getElem?_map] at hfifth
  rw [List.getElem?_take_of_lt (by decide), List.getElem?_eq_getElem hlt, Option.map_some] at hfifth
  have hblank : (line)[4] = ' ' := eq_blank_of_toLower (Option.some.inj hfifth)
  have hdrop : line.drop 4 = ' ' :: line.drop 5 := by
    rw [List.drop_eq_getElem_cons hlt, hblank]
  refine ⟨hdrop, ?_⟩
  have hlast : (line.drop 4).getLast? = some '\n' := by
    rw [List.getLast?_drop, if_neg (by omega), hend]
  rw [hdrop] at hlast
  exact (List.mem_cons.mp (List.mem_of_getLast? hlast)).resolve_left (by decide)

/-- In a buffer with a zero behind it, a line with `USER` is searched for its name alone. -/
theorem scanUser_line {line rest : List Char} (huser : startsWith line "user ".toList = true)
    (hend : line.getLast? = some '\n') (hline : '\x00' ∉ line) (hrest : '\x00' ∈ rest) :
    scanUser (line ++ rest) = some (lineUser line) := by
  obtain ⟨len, hlen, hle⟩ := strlen_append hline hrest
  obtain ⟨hdrop, hmem⟩ := drop_four_of_user huser hend
  have hlong : 4 ≤ line.length := by
    by_contra hshort
    rw [List.drop_eq_nil_of_le (by omega)] at hdrop
    cases hdrop
  have hskip : skipBlanks (len - 4) ((line ++ rest).drop 4) =
      (line.drop 5).dropWhile (· == ' ') ++ rest := by
    rw [List.drop_append_of_le_length hlong, skipBlanks_append, hdrop]
    · rfl
    · exact ⟨'\n', hdrop ▸ List.mem_cons_of_mem _ hmem, by decide⟩
    · rw [List.length_drop]
      omega
  have hkept : '\n' ∈ (line.drop 5).dropWhile (· == ' ') := by
    have hsplit := List.takeWhile_append_dropWhile (p := (· == ' ')) (l := line.drop 5)
    rw [← hsplit, List.mem_append] at hmem
    refine hmem.resolve_left fun h ↦ ?_
    exact absurd (List.mem_takeWhile_imp h) (by decide)
  have hzero : cString (lineUser line) = lineUser line := by
    refine cString_eq_self fun h ↦ hline ?_
    have hsub := (List.take_sublist 17 _).trans ((List.takeWhile_sublist (!endsName ·)).trans
      (List.dropWhile_sublist (l := line.drop 5) (· == ' ')))
    exact List.mem_of_mem_drop (hsub.subset h)
  rw [scanUser, hlen]
  change (copyName 17 (skipBlanks (len - 4) ((line ++ rest).drop 4))).bind _ = _
  rw [hskip, copyName_append ⟨'\n', hkept, rfl⟩]
  exact congrArg some hzero

/-- A `USER` line in a chunk of its own is understood, if the buffer holds a zero behind it. -/
theorem userPhase_line {chunk : Chunk} (rest : List Chunk)
    (huser : startsWith chunk.bytes "user ".toList = true)
    (hend : chunk.bytes.getLast? = some '\n') (hline : '\x00' ∉ chunk.bytes)
    (hbuf : '\x00' ∈ buf.bytes.drop chunk.bytes.length) :
    userPhase connects buf (chunk :: rest) =
      some (relay connects (lineUser chunk.bytes) rest) := by
  have hstarts : startsWith (buf.fill chunk).bytes "user ".toList = true := by
    have hlength : "user ".toList.length ≤ chunk.bytes.length := by
      have hfive : "user ".toList.length = 5 := by decide
      by_contra hshort
      have hdrop := (drop_four_of_user huser hend).2
      rw [List.drop_eq_nil_of_le (by omega)] at hdrop
      cases hdrop
    rw [startsWith, Buffer.fill, List.take_append_of_le_length hlength]
    exact huser
  rw [userPhase, if_pos hstarts]
  exact congrArg (Option.map _) (scanUser_line huser hend hline hbuf)

/-! ### Single bytes -/

/-- The view of a run is that of the loop behind the greeting. -/
theorem view_eq_some_iff {stream : List Char} {run : Run stream} :
    run.view connects = some view ↔
      ∃ phase, userPhase connects run.buffer run.chunks = some phase ∧
        view = { phase with answers := pop3hello :: phase.answers } := by
  rw [Run.view, doService, Option.map_eq_some_iff]
  exact exists_congr fun phase ↦ and_congr_right fun _ ↦ eq_comm

theorem chunks_eq_nil (hcarries : (chunks.map Chunk.bytes).flatten = []) : chunks = [] := by
  cases chunks with
  | nil => rfl
  | cons chunk rest =>
    rw [List.map_cons, List.flatten_cons, List.append_eq_nil_iff] at hcarries
    exact absurd hcarries.1 chunk.ne_nil

/-- One byte is one chunk. -/
theorem chunks_eq_single (hcarries : (chunks.map Chunk.bytes).flatten = [c]) :
    chunks = [.single c] := by
  cases chunks with
  | nil => cases hcarries
  | cons chunk rest =>
    obtain ⟨bytes, hne, hle⟩ := chunk
    cases bytes with
    | nil => exact absurd rfl hne
    | cons d bytes =>
      simp only [List.map_cons, List.flatten_cons, List.cons_append, List.cons.injEq,
        List.append_eq_nil_iff] at hcarries
      obtain ⟨rfl, rfl, hrest⟩ := hcarries
      rw [chunks_eq_nil hrest]
      rfl

/-- What stands behind a single byte in the buffer. -/
theorem startsWith_fill_single (buf : Buffer) (c : Char) (a : Char) (word : List Char) :
    startsWith (buf.fill (.single c)).bytes (a :: word) =
      (c.toLower == a && startsWith (buf.bytes.drop 1) word) := by
  simp [startsWith, Buffer.fill, Chunk.single]

/-- A buffer of zeros. -/
def Buffer.zeros : Buffer :=
  .holding [] (Nat.zero_le _)

theorem blank_zeros : Buffer.zeros.Blank := by
  have hlt : 1 < bufSize := by
    rw [bufSize]
    omega
  exact List.getElem?_replicate_of_lt hlt

/-- A run byte by byte over a buffer of zeros. -/
def singlesRun (stream : List Char) : Run stream where
  buffer := .zeros
  chunks := stream.map Chunk.single
  carries := flatten_singles stream

theorem singlesRun_view (connects : List Char → Bool) (stream : List Char) :
    (singlesRun stream).view connects =
      some { answers := pop3hello :: List.replicate stream.length pop3err
             user := none
             forwarded := [] } :=
  view_eq_some_iff.mpr ⟨_, userPhase_singles blank_zeros stream, rfl⟩

/-- A single byte over a buffer with a text behind its first byte. -/
def staleRun (text : List Char) (hle : ('\x00' :: text).length ≤ bufSize) (c : Char) : Run [c] where
  buffer := .holding ('\x00' :: text) hle
  chunks := [.single c]
  carries := rfl

theorem startsWith_staleRun (a : Char) (text : List Char)
    (hle : ('\x00' :: text).length ≤ bufSize) (hlower : c.toLower = a)
    (htext : text.map Char.toLower = text) :
    startsWith ((staleRun text hle c).buffer.fill (.single c)).bytes (a :: text) = true := by
  have htail : (staleRun text hle c).buffer.bytes.drop 1 =
      text ++ List.replicate (bufSize - ('\x00' :: text).length) '\x00' := rfl
  rw [startsWith_fill_single, hlower, beq_self_eq_true, Bool.true_and, startsWith, htail,
    List.take_left, htext, beq_self_eq_true]

/-- No stream of two or more bytes is answered in the same way in one chunk and in two. -/
theorem not_segmentationFree_two (c d : Char) (rest : List Char) :
    ¬SegmentationFree connects (c :: d :: rest) := by
  rintro ⟨view, hall, -⟩
  have hsingles := (hall (singlesRun _)).symm.trans (singlesRun_view connects _)
  let paired : Run (c :: d :: rest) :=
    { buffer := .zeros
      chunks := .pair c d :: rest.map Chunk.single
      carries := congrArg ([c, d] ++ ·) (flatten_singles rest) }
  obtain ⟨phase, hphase, rfl⟩ := view_eq_some_iff.mp (hall paired)
  have hle := length_answers_le hphase
  have hcount := congrArg (fun view ↦ view.answers.length) (Option.some.inj hsingles)
  simp only [paired, List.length_cons, List.length_map, List.length_replicate] at hle hcount
  omega

/-- A single `u` may be followed by the rest of a command in the buffer. -/
theorem toLower_ne_u (hfree : SegmentationFree connects [c]) : c.toLower ≠ 'u' := by
  intro hlower
  obtain ⟨view, hall, -⟩ := hfree
  have hsingles := (hall (singlesRun [c])).symm.trans (singlesRun_view connects [c])
  have hle : ('\x00' :: "ser ".toList).length ≤ bufSize := by
    rw [bufSize]
    decide
  obtain ⟨phase, hphase, rfl⟩ := view_eq_some_iff.mp (hall (staleRun "ser ".toList hle c))
  have hstarts : startsWith ((staleRun "ser ".toList hle c).buffer.fill (.single c)).bytes
      "user ".toList = true := startsWith_staleRun 'u' _ hle hlower (by decide)
  change userPhase connects _ [.single c] = some phase at hphase
  rw [userPhase, if_pos hstarts] at hphase
  obtain ⟨user, -, rfl⟩ := Option.map_eq_some_iff.mp hphase
  exact Option.some_ne_none user (congrArg View.user (Option.some.inj hsingles))

/-- A single `q` may be followed by the rest of a command in the buffer. -/
theorem toLower_ne_q (hfree : SegmentationFree connects [c]) : c.toLower ≠ 'q' := by
  intro hlower
  obtain ⟨view, hall, -⟩ := hfree
  have hsingles := (hall (singlesRun [c])).symm.trans (singlesRun_view connects [c])
  have hle : ('\x00' :: "uit".toList).length ≤ bufSize := by
    rw [bufSize]
    decide
  obtain ⟨phase, hphase, rfl⟩ := view_eq_some_iff.mp (hall (staleRun "uit".toList hle c))
  have hstarts : startsWith ((staleRun "uit".toList hle c).buffer.fill (.single c)).bytes
      "quit".toList = true := startsWith_staleRun 'q' _ hle hlower (by decide)
  have hother : startsWith ((staleRun "uit".toList hle c).buffer.fill (.single c)).bytes
      "user ".toList = false := by
    refine (startsWith_fill_single _ c 'u' "ser ".toList).trans ?_
    rw [hlower]
    rfl
  change userPhase connects _ [.single c] = some phase at hphase
  rw [userPhase, hother, if_neg Bool.false_ne_true, if_pos hstarts, Option.some.injEq] at hphase
  subst hphase
  have hanswers : [pop3hello, pop3bye] = [pop3hello, pop3err] :=
    congrArg View.answers (Option.some.inj hsingles)
  exact absurd hanswers (by decide)

/-- A single byte that begins no command is an error in every run. -/
theorem segmentationFree_single (hu : c.toLower ≠ 'u') (hq : c.toLower ≠ 'q') :
    SegmentationFree connects [c] := by
  have hline : userLine (textLines [c]) = none := by
    have hlines : textLines [c] = [[c]] := by
      rw [textLines, textLines]
      split_ifs <;> rfl
    have huser : startsWith [c] "user ".toList = false := by
      simp [startsWith]
    have hquit : startsWith [c] "quit".toList = false := by
      simp [startsWith]
    rw [hlines, userLine, huser, hquit, if_neg Bool.false_ne_true, if_neg Bool.false_ne_true,
      userLine, ite_self]
  let phase : View := { answers := [pop3err], user := none, forwarded := [] }
  refine ⟨{ phase with answers := pop3hello :: phase.answers },
    fun run ↦ view_eq_some_iff.mpr ⟨phase, ?_, rfl⟩, ?_, ?_⟩
  · have huser : startsWith (run.buffer.fill (.single c)).bytes "user ".toList = false := by
      refine (startsWith_fill_single _ c 'u' "ser ".toList).trans ?_
      rw [beq_eq_false_iff_ne.mpr hu, Bool.false_and]
    have hquit : startsWith (run.buffer.fill (.single c)).bytes "quit".toList = false := by
      refine (startsWith_fill_single _ c 'q' "uit".toList).trans ?_
      rw [beq_eq_false_iff_ne.mpr hq, Bool.false_and]
    rw [chunks_eq_single run.carries, userPhase, huser, hquit]
    rfl
  · rw [hline]
    rfl
  · rw [hline]
    rfl

/-! ### All streams -/

/-- What the agent sees of a stream does not depend on how it is cut up and on what was in the
buffer if and only if the stream is empty or a single byte other than `u` and `q`, in either
case. -/
theorem segmentationFree_iff (connects : List Char → Bool) (stream : List Char) :
    SegmentationFree connects stream ↔
      stream = [] ∨ ∃ c, stream = [c] ∧ c.toLower ≠ 'u' ∧ c.toLower ≠ 'q' := by
  constructor
  · intro hfree
    match stream with
    | [] => exact .inl rfl
    | [c] => exact .inr ⟨c, rfl, toLower_ne_u hfree, toLower_ne_q hfree⟩
    | c :: d :: rest => exact absurd hfree (not_segmentationFree_two c d rest)
  · rintro (rfl | ⟨c, rfl, hu, hq⟩)
    · let phase : View := { answers := [], user := none, forwarded := [] }
      refine ⟨{ phase with answers := pop3hello :: phase.answers },
        fun run ↦ view_eq_some_iff.mpr ⟨phase, ?_, rfl⟩, rfl, rfl⟩
      rw [chunks_eq_nil run.carries, userPhase]
    · exact segmentationFree_single hu hq

/-- A user line is refused byte by byte, although it is taken in one chunk. -/
theorem not_segmentationFree_user :
    ¬SegmentationFree (fun _ ↦ true) "USER bob\r\n".toList :=
  not_segmentationFree_two _ _ _

end Katmai.SslLib
