import Katmai.Ftpclient.Getreply
import Mathlib.Data.List.Induction

/-!
# Lines of a reply

Of a line the test behind the inner loop sees the number in its first three characters and whether
its fourth one is a minus (`readText_code`, `readText_continuation`). Of a text it sees which line
is the last of the reply: the first one where it opens no reply of more lines, and else the first
one behind it that closes it (`endsIn_iff`).
-/

set_option autoImplicit false
set_option relaxedAutoImplicit false

namespace Katmai.Ftpclient

variable {s : Vars} {b : UInt8} {c : ℤ} {line text : List UInt8}

/-! ### One character -/

/-- The digits of an address change nothing that the test behind the inner loop sees. -/
theorem readDigits_kept (s : Vars) (c : ℤ) :
    (readDigits s c).dig = s.dig ∧ (readDigits s c).n = s.n ∧
      (readDigits s c).continuation = s.continuation ∧
      (readDigits s c).originalcode = s.originalcode ∧
      (readDigits s c).code =
        if s.dig < 4 ∧ isdigit c then s.code * 10 + (c - 48) else s.code := by
  unfold readDigits
  dsimp only
  split_ifs <;> exact ⟨rfl, rfl, rfl, rfl, rfl⟩

theorem keepChar_kept (s : Vars) (c : ℤ) :
    (keepChar s c).dig = s.dig ∧ (keepChar s c).n = (if s.n = 0 then c else s.n) ∧
      (keepChar s c).continuation = s.continuation ∧
      (keepChar s c).originalcode = s.originalcode ∧ (keepChar s c).code = s.code := by
  unfold keepChar
  dsimp only
  split_ifs <;> exact ⟨rfl, rfl, rfl, rfl, rfl⟩

theorem countLine_kept (s : Vars) (c : ℤ) :
    (countLine s c).dig = s.dig ∧ (countLine s c).n = s.n ∧
      (countLine s c).continuation =
        s.continuation + (if s.dig = 4 ∧ c = 45 then 1 else 0) ∧
      (countLine s c).originalcode = s.originalcode ∧
      (countLine s c).code =
        if s.dig = 4 ∧ c = 45 ∧ s.continuation ≠ 0 then 0 else s.code := by
  unfold countLine
  by_cases hdash : s.dig = 4 ∧ c = 45
  · rw [if_pos hdash, if_pos hdash]
    refine ⟨rfl, rfl, rfl, rfl, if_congr ?_ rfl rfl⟩
    exact ⟨fun h ↦ ⟨hdash.1, hdash.2, h⟩, fun h ↦ h.2.2⟩
  · rw [if_neg hdash, if_neg hdash, if_neg fun h ↦ hdash ⟨h.1, h.2.1⟩]
    exact ⟨rfl, rfl, rfl, rfl, rfl⟩

/-- A character, as far as the test sees it. -/
structure Reads (s : Vars) (c : ℤ) (s' : Vars) : Prop where
  dig : s'.dig = s.dig + 1
  n : s'.n = if s.n = 0 then c else s.n
  continuation : s'.continuation = s.continuation + if s.dig + 1 = 4 ∧ c = 45 then 1 else 0
  originalcode : s'.originalcode = s.originalcode
  code : s'.code =
    if s.dig + 1 = 4 ∧ c = 45 ∧ s.continuation ≠ 0 then 0
    else if s.dig + 1 < 4 ∧ isdigit c then s.code * 10 + (c - 48) else s.code

theorem reads_readChar (s : Vars) (c : ℤ) : Reads s c (readChar s c) := by
  obtain ⟨hdig, hn, hcont, horig, hcode⟩ := readDigits_kept { s with dig := s.dig + 1 } c
  obtain ⟨hdig', hn', hcont', horig', hcode'⟩ :=
    countLine_kept (readDigits { s with dig := s.dig + 1 } c) c
  obtain ⟨hdig'', hn'', hcont'', horig'', hcode''⟩ :=
    keepChar_kept (countLine (readDigits { s with dig := s.dig + 1 } c) c) c
  rw [hdig, hcont] at hcont'
  rw [hdig, hcont, hcode] at hcode'
  refine ⟨?_, ?_, hcont''.trans hcont', ?_, ?_⟩
  · rw [readChar, hdig'', hdig', hdig]
  · rw [readChar, hn'', hn', hn]
  · rw [readChar, horig'', horig', horig]
  · rw [readChar, hcode'', hcode']

/-! ### One line -/

/-- The number in the first three characters of a line. -/
def number (line : List UInt8) : ℤ :=
  ((line.take 3).filter fun b ↦ isdigit b.toNat).foldl
    (fun code b ↦ code * 10 + ((b.toNat : ℤ) - 48)) 0

/-- The fourth character is a minus. -/
def Dashed (text : List UInt8) : Prop :=
  text[3]? = some 45

instance (text : List UInt8) : Decidable (Dashed text) :=
  inferInstanceAs (Decidable (text[3]? = some 45))

/-- The variables behind the characters of a line. -/
def readText (s : Vars) (text : List UInt8) : Vars :=
  text.foldl (fun s b ↦ readChar s b.toNat) s

/-- The variables at the start of a line. -/
structure Fresh (s : Vars) : Prop where
  dig : s.dig = 0
  n : s.n = 0
  code : s.code = 0

theorem number_concat (line : List UInt8) (b : UInt8) :
    number (line ++ [b]) =
      if line.length < 3 ∧ isdigit b.toNat then number line * 10 + ((b.toNat : ℤ) - 48)
      else number line := by
  by_cases hshort : line.length < 3
  · have htake : (line ++ [b]).take 3 = line.take 3 ++ [b] := by
      rw [List.take_of_length_le (by rw [List.length_append, List.length_singleton]; omega),
        List.take_of_length_le (by omega)]
    rw [number, htake, List.filter_append, List.foldl_append]
    cases hdigit : isdigit b.toNat with
    | true =>
      have hkept : [b].filter (fun b ↦ isdigit b.toNat) = [b] := by simp [hdigit]
      rw [if_pos ⟨hshort, rfl⟩, hkept]
      rfl
    | false =>
      have hdropped : [b].filter (fun b ↦ isdigit b.toNat) = [] := by simp [hdigit]
      rw [if_neg (fun h ↦ Bool.false_ne_true h.2), hdropped]
      rfl
  · rw [if_neg fun h ↦ hshort h.1, number, List.take_append_of_le_length (by omega), number]

theorem dashed_concat (line : List UInt8) (b : UInt8) :
    Dashed (line ++ [b]) ↔ Dashed line ∨ line.length = 3 ∧ b = 45 := by
  rw [Dashed, Dashed]
  rcases Nat.lt_trichotomy line.length 3 with hlt | heq | hgt
  · rw [List.getElem?_eq_none (by rw [List.length_append, List.length_singleton]; omega),
      List.getElem?_eq_none (by omega)]
    simp
    omega
  · rw [← heq, List.getElem?_concat_length, List.getElem?_eq_none (Nat.le_refl _)]
    simp
  · rw [List.getElem?_append_left hgt]
    simp
    omega

/-- What the test sees of a line. -/
structure ReadsLine (s : Vars) (line : List UInt8) (s' : Vars) : Prop where
  dig : s'.dig = line.length
  continuation : s'.continuation = s.continuation + if Dashed line then 1 else 0
  originalcode : s'.originalcode = s.originalcode
  code : s'.code = if Dashed line ∧ s.continuation ≠ 0 then 0 else number line

theorem readText_concat (s : Vars) (line : List UInt8) (b : UInt8) :
    readText s (line ++ [b]) = readChar (readText s line) b.toNat := by
  rw [readText, List.foldl_concat, readText]

theorem readsLine_readText (hfresh : Fresh s) (line : List UInt8) :
    ReadsLine s line (readText s line) := by
  induction line using List.reverseRecOn with
  | nil => exact ⟨hfresh.dig, rfl, rfl, hfresh.code⟩
  | append_singleton line b ih =>
    obtain ⟨hdig, hcont, horig, hcode⟩ := ih
    have hchar := reads_readChar (readText s line) b.toNat
    have hb : ((b.toNat : ℕ) : ℤ) = 45 ↔ b = 45 :=
      ⟨fun h ↦ UInt8.toNat_inj.mp (Int.ofNat.inj h), fun h ↦ by rw [h]; rfl⟩
    have hdashed : Dashed line → 3 < line.length := by
      intro h
      by_contra hle
      rw [Dashed, List.getElem?_eq_none (by omega)] at h
      cases h
    have hdig' : (readText s (line ++ [b])).dig = (line ++ [b]).length := by
      rw [readText_concat, hchar.dig, hdig, List.length_append, List.length_singleton]
    have horig' : (readText s (line ++ [b])).originalcode = s.originalcode :=
      (congrArg _ (readText_concat s line b)).trans (hchar.originalcode.trans horig)
    by_cases hd : Dashed line
    · -- The fourth character is behind.
      have hlong := hdashed hd
      have hnew : Dashed (line ++ [b]) := (dashed_concat line b).mpr (.inl hd)
      refine ⟨hdig', ?_, horig', ?_⟩
      · rw [readText_concat, hchar.continuation, hdig, hcont, if_pos hd, if_pos hnew,
          if_neg fun h ↦ absurd h.1 (by omega), Nat.add_zero]
      · have hnumber : number (line ++ [b]) = number line := by
          rw [number_concat, if_neg fun h ↦ absurd h.1 (by omega)]
        rw [readText_concat, hchar.code, hdig,
          if_neg (c := line.length + 1 = 4 ∧ _) fun h ↦ absurd h.1 (by omega),
          if_neg (c := line.length + 1 < 4 ∧ _) fun h ↦ absurd h.1 (by omega), hcode, hnumber]
        exact if_congr (and_congr_left fun _ ↦ iff_of_true hd hnew) rfl rfl
    · by_cases hend : line.length = 3 ∧ b = 45
      · -- The fourth character is a minus.
        have hnew : Dashed (line ++ [b]) := (dashed_concat line b).mpr (.inr hend)
        have hnow : line.length + 1 = 4 ∧ ((b.toNat : ℕ) : ℤ) = 45 := ⟨by omega, hb.mpr hend.2⟩
        have hcont' : (readText s line).continuation = s.continuation := by
          rw [hcont, if_neg hd, Nat.add_zero]
        have hcode' : (readText s line).code = number line := by
          rw [hcode, if_neg fun h ↦ hd h.1]
        refine ⟨hdig', ?_, horig', ?_⟩
        · rw [readText_concat, hchar.continuation, hdig, hcont', if_pos hnow, if_pos hnew]
        · rw [readText_concat, hchar.code, hdig, hcont', hcode', number_concat,
            if_neg (c := line.length + 1 < 4 ∧ _) fun h ↦ absurd h.1 (by omega),
            if_neg (c := line.length < 3 ∧ _) fun h ↦ absurd h.1 (by omega)]
          exact if_congr ⟨fun h ↦ ⟨hnew, h.2.2⟩, fun h ↦ ⟨hnow.1, hnow.2, h.2⟩⟩ rfl rfl
      · -- The character is no minus in fourth place.
        have hnew : ¬Dashed (line ++ [b]) := fun h ↦ ((dashed_concat line b).mp h).elim hd hend
        have hnow : ¬(line.length + 1 = 4 ∧ ((b.toNat : ℕ) : ℤ) = 45) :=
          fun h ↦ hend ⟨by omega, hb.mp h.2⟩
        have hcode' : (readText s line).code = number line := by
          rw [hcode, if_neg fun h ↦ hd h.1]
        refine ⟨hdig', ?_, horig', ?_⟩
        · rw [readText_concat, hchar.continuation, hdig, hcont, if_neg hd, if_neg hnow,
            if_neg hnew]
        · rw [readText_concat, hchar.code, hdig, hcode', number_concat,
            if_neg fun h ↦ hnow ⟨h.1, h.2.1⟩, if_neg (c := Dashed _ ∧ _) fun h ↦ hnew h.1]
          exact if_congr (and_congr_left fun _ ↦ Nat.succ_lt_succ_iff) rfl rfl

theorem readText_cons (s : Vars) (b : UInt8) (line : List UInt8) :
    readText s (b :: line) = readText (readChar s b.toNat) line := by
  rw [readText, List.foldl_cons, readText]

/-- The first character of a line is kept. -/
theorem readText_n (hfresh : Fresh s) (hb : b ≠ 0) (line : List UInt8) :
    (readText s (b :: line)).n = b.toNat := by
  have hkept {s : Vars} (hn : s.n ≠ 0) : (readText s line).n = s.n := by
    induction line generalizing s with
    | nil => rfl
    | cons d line ih =>
      have hchar : (readChar s d.toNat).n = s.n := (reads_readChar s d.toNat).n.trans (if_neg hn)
      have hne : (readChar s d.toNat).n ≠ 0 := by rwa [hchar]
      rw [readText_cons, ih hne, hchar]
  have hfirst : (readChar s b.toNat).n = b.toNat :=
    (reads_readChar s b.toNat).n.trans (if_pos hfresh.n)
  have hne : (readChar s b.toNat).n ≠ 0 := by
    rw [hfirst]
    exact fun h ↦ hb (UInt8.toNat_inj.mp (Int.ofNat.inj h))
  rw [readText_cons, hkept hne, hfirst]

/-! ### The lines of a reply -/

/-- The line opens a reply of more lines. -/
def Opens (line : List UInt8) : Prop :=
  Dashed line ∧ number line ≠ 0

/-- The line is the last one of a reply of more lines with a number. -/
def Closes (k : ℤ) (line : List UInt8) : Prop :=
  number line = k ∧ ¬Dashed line

/-- The variables at the start of the first line. -/
structure Outside (s : Vars) : Prop extends Fresh s where
  continuation : s.continuation = 0
  originalcode : s.originalcode = 0

/-- The variables at the start of a later line of a reply with a number. -/
structure Inside (k : ℤ) (s : Vars) : Prop extends Fresh s where
  continuation : s.continuation ≠ 0
  originalcode : s.originalcode = k
  number_ne : k ≠ 0

theorem outside_startVars (self : FtpClient) : Outside (startVars self) :=
  ⟨⟨rfl, rfl, rfl⟩, rfl, rfl⟩

theorem continues_iff : continues s = true ↔ s.continuation ≠ 0 ∧ s.code ≠ s.originalcode := by
  simp [continues]

theorem fresh_nextLine (s : Vars) : Fresh (nextLine s) :=
  ⟨rfl, rfl, rfl⟩

theorem Outside.continues_iff (hs : Outside s) :
    continues (readText s line) = true ↔ Opens line := by
  obtain ⟨-, hcont, horig, hcode⟩ := readsLine_readText hs.toFresh line
  have hnumber : (readText s line).code = number line :=
    hcode.trans (if_neg fun h ↦ h.2 hs.continuation)
  rw [Ftpclient.continues_iff, hcont, horig, hnumber, hs.continuation, hs.originalcode, Opens]
  refine and_congr_left fun _ ↦ ?_
  by_cases hd : Dashed line
  · exact iff_of_true (by rw [if_pos hd]; decide) hd
  · exact iff_of_false (by rw [if_neg hd]; decide) hd

theorem Outside.nextLine (hs : Outside s) (hopens : Opens line) :
    Inside (number line) (nextLine (readText s line)) := by
  obtain ⟨-, hcont, horig, hcode⟩ := readsLine_readText hs.toFresh line
  rw [if_pos hopens.1] at hcont
  have hnumber : (readText s line).code = number line :=
    hcode.trans (if_neg fun h ↦ h.2 hs.continuation)
  refine ⟨fresh_nextLine _, ?_, ?_, hopens.2⟩
  · rw [Ftpclient.nextLine, hcont]
    exact Nat.succ_ne_zero _
  · rw [Ftpclient.nextLine, horig, hs.originalcode, hnumber]
    rfl

theorem Inside.continues_iff {k : ℤ} (hs : Inside k s) :
    continues (readText s line) = true ↔ ¬Closes k line := by
  obtain ⟨-, hcont, horig, hcode⟩ := readsLine_readText hs.toFresh line
  have hpos : (readText s line).continuation ≠ 0 := by
    have hne := hs.continuation
    rw [hcont]
    omega
  rw [Ftpclient.continues_iff, and_iff_right hpos, horig, hcode, hs.originalcode, Closes]
  by_cases hd : Dashed line
  · rw [if_pos ⟨hd, hs.continuation⟩]
    exact iff_of_true hs.number_ne.symm fun h ↦ h.2 hd
  · rw [if_neg fun h ↦ hd h.1, and_iff_left hd]

theorem Inside.nextLine {k : ℤ} (hs : Inside k s) (line : List UInt8) :
    Inside k (nextLine (readText s line)) := by
  obtain ⟨-, hcont, horig, -⟩ := readsLine_readText hs.toFresh line
  refine ⟨fresh_nextLine _, ?_, ?_, hs.number_ne⟩
  · have hne := hs.continuation
    rw [Ftpclient.nextLine, hcont]
    omega
  · rw [Ftpclient.nextLine, horig, hs.originalcode]
    exact if_neg hs.number_ne

/-! ### Texts -/

/-- Some line of the text ends the reply. -/
def EndsIn : Vars → List UInt8 → Prop
  | _, [] => False
  | s, b :: text =>
    if b = 10 then continues s = true → EndsIn (nextLine s) text
    else EndsIn (readChar s b.toNat) text

/-- The lines of a text that have a line end. -/
def completeLines : List UInt8 → List (List UInt8)
  | [] => []
  | b :: text =>
    if b = 10 then [] :: completeLines text
    else (completeLines text).modifyHead (b :: ·)

/-- A reply ends in the first of the lines, or is opened there and closed by a later one. -/
def EndsReply : List (List UInt8) → Prop
  | [] => False
  | first :: lines => Opens first → ∃ line ∈ lines, Closes (number first) line

theorem completeLines_line (hline : 10 ∉ line) (text : List UInt8) :
    completeLines (line ++ 10 :: text) = line :: completeLines text := by
  induction line with
  | nil => exact if_pos rfl
  | cons b line ih =>
    have hb : b ≠ 10 := fun h ↦ hline (h ▸ List.mem_cons_self)
    rw [List.cons_append, completeLines, if_neg hb, ih fun h ↦ hline (List.mem_cons_of_mem _ h)]
    rfl

theorem completeLines_last (hline : 10 ∉ line) : completeLines line = [] := by
  induction line with
  | nil => rfl
  | cons b line ih =>
    have hb : b ≠ 10 := fun h ↦ hline (h ▸ List.mem_cons_self)
    rw [completeLines, if_neg hb, ih fun h ↦ hline (List.mem_cons_of_mem _ h)]
    rfl

theorem endsIn_append (hline : 10 ∉ line) (text : List UInt8) :
    EndsIn s (line ++ text) ↔ EndsIn (readText s line) text := by
  induction line generalizing s with
  | nil => exact Iff.rfl
  | cons b line ih =>
    have hb : b ≠ 10 := fun h ↦ hline (h ▸ List.mem_cons_self)
    rw [List.cons_append, EndsIn, if_neg hb, ih fun h ↦ hline (List.mem_cons_of_mem _ h),
      readText_cons]

theorem endsIn_line (hline : 10 ∉ line) (text : List UInt8) :
    EndsIn s (line ++ 10 :: text) ↔
      (continues (readText s line) = true → EndsIn (nextLine (readText s line)) text) := by
  rw [endsIn_append hline, EndsIn, if_pos rfl]

theorem not_endsIn_last (hline : 10 ∉ line) : ¬EndsIn s line := by
  rw [← List.append_nil line, endsIn_append hline]
  exact id

theorem Inside.endsIn_iff {k : ℤ} (hs : Inside k s) (text : List UInt8) :
    EndsIn s text ↔ ∃ line ∈ completeLines text, Closes k line := by
  induction hn : text.length using Nat.strongRecOn generalizing s text with
  | ind n ih =>
    by_cases hmem : 10 ∈ text
    · obtain ⟨line, rest, rfl, hline⟩ := List.eq_append_cons_of_mem hmem
      have hshort : rest.length < n := by
        rw [← hn, List.length_append, List.length_cons]
        omega
      have hcons : (∃ l ∈ line :: completeLines rest, Closes k l) ↔
          Closes k line ∨ ∃ l ∈ completeLines rest, Closes k l := by
        simp
      rw [endsIn_line hline, completeLines_line hline, hcons, hs.continues_iff,
        ih _ hshort (hs.nextLine line) rest rfl]
      by_cases hcloses : Closes k line
      · exact iff_of_true (fun h ↦ absurd hcloses h) (.inl hcloses)
      · exact ⟨fun h ↦ .inr (h hcloses), fun h _ ↦ h.resolve_left hcloses⟩
    · rw [completeLines_last hmem]
      exact iff_of_false (not_endsIn_last hmem) fun ⟨_, h, _⟩ ↦ List.not_mem_nil h

theorem Outside.endsIn_iff (hs : Outside s) (text : List UInt8) :
    EndsIn s text ↔ EndsReply (completeLines text) := by
  by_cases hmem : 10 ∈ text
  · obtain ⟨line, rest, rfl, hline⟩ := List.eq_append_cons_of_mem hmem
    rw [endsIn_line hline, completeLines_line hline, EndsReply, hs.continues_iff]
    exact imp_congr_right fun hopens ↦ (hs.nextLine hopens).endsIn_iff rest
  · rw [completeLines_last hmem]
    exact iff_of_false (not_endsIn_last hmem) id

/-! ### Streams -/

theorem length_getc_le (input : List UInt8) : (getc input).2.length ≤ input.length := by
  cases input with
  | nil => exact Nat.le_refl _
  | cons b input => exact Nat.le_succ _

theorem length_negotiate_le (input : List UInt8) :
    (negotiate input).1.length ≤ input.length := by
  have hone := length_getc_le input
  have htwo := length_getc_le (getc input).2
  have hthree := length_getc_le (getc (getc input).2).2
  unfold negotiate
  dsimp only
  split_ifs
  · exact Nat.le_trans hthree (Nat.le_trans htwo hone)
  · exact Nat.le_trans htwo hone
  · exact hone

/-- A stream without telnet commands, as they are read. -/
def plainText : List UInt8 → List UInt8
  | [] => []
  | b :: input =>
    if b = 255 then plainText (negotiate input).1 else b :: plainText input
  termination_by input => input.length
  decreasing_by
    · exact Nat.lt_succ_of_le (length_negotiate_le input)
    · exact Nat.lt_succ_self _

theorem returns_iff_endsIn (input : List UInt8) (sent : List Sent) :
    (∃ r, Returns s input sent r) ↔ EndsIn s (plainText input) := by
  induction hn : input.length using Nat.strongRecOn generalizing s input sent with
  | ind n ih =>
    cases input with
    | nil =>
      rw [plainText]
      exact iff_of_false (fun ⟨r, h⟩ ↦ not_returns_eof s sent r h) id
    | cons b input =>
      have hshort : input.length < n := hn ▸ Nat.lt_succ_self _
      rw [plainText]
      by_cases hiac : b = 255
      · rw [if_pos hiac, hiac]
        simp only [returns_iac]
        exact ih _ (Nat.lt_of_le_of_lt (length_negotiate_le input) hshort) _ _ rfl
      · rw [if_neg hiac, EndsIn]
        by_cases hline : b = 10
        · rw [if_pos hline, hline]
          cases hcont : continues s with
          | true =>
            simp only [returns_continue hcont, forall_const]
            exact ih _ hshort _ _ rfl
          | false =>
            simp only [returns_finish hcont, exists_eq]
            exact iff_of_true trivial fun h ↦ absurd h Bool.false_ne_true
        · rw [if_neg hline]
          simp only [returns_char hline hiac]
          exact ih _ hshort _ _ rfl

/-- `getreply` ends on a stream if and only if the lines in it end a reply. -/
theorem getreply_ends_iff (self : FtpClient) (input : List UInt8) :
    (∃ r, Replies self input r) ↔ EndsReply (completeLines (plainText input)) :=
  (returns_iff_endsIn input []).trans ((outside_startVars self).endsIn_iff _)

end Katmai.Ftpclient
