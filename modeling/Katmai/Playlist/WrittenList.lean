import Katmai.Playlist.PlayOrder
import Mathlib.Data.List.GetD

/-!
# Play lists as they are written

A file with a start time, a stop time and names, a line each, is loaded as these times and names
whatever the object held before, and `next` then plays the names in their order: round and round in
loop mode, and otherwise with a `NULL` between two rounds (`load_then_next`).
-/

set_option autoImplicit false
set_option relaxedAutoImplicit false

namespace Katmai.Playlist

open Foundation

/-! ### Writing and loading -/

/-- A line that a play list can hold. -/
structure IsEntry (line : Str) : Prop where
  newline_notMem : '\n' ∉ line
  zero_notMem : '\x00' ∉ line
  ne_mark : line ≠ ['\x1a']
  last_kept : ∃ front c, line = front ++ [c] ∧ Misclib.isLineEnd c = false ∧
    Misclib.isBlank c = false
  length_lt : line.length < 2047

/-- The lines with their line ends. -/
def linesText (lines : List Str) : Str :=
  (lines.map (· ++ ['\n'])).flatten

theorem textLines_linesText {lines : List Str} (hlines : ∀ line ∈ lines, '\n' ∉ line) :
    textLines (linesText lines) = lines.map (· ++ ['\n']) := by
  induction lines with
  | nil => rfl
  | cons line lines ih =>
    obtain ⟨hline, hrest⟩ := List.forall_mem_cons.mp hlines
    have htext : linesText (line :: lines) = line ++ '\n' :: linesText lines := by
      simp [linesText]
    rw [htext, textLines_line hline, ih hrest, List.map_cons]

/-- An entry is read back without its line end. -/
theorem trimmed_entry {line : Str} (hline : IsEntry line) : trimmed (line ++ ['\n']) = line := by
  obtain ⟨front, c, rfl, hend, hblank⟩ := hline.last_kept
  have hzero : '\x00' ∉ front ++ [c] ++ ['\n'] := by
    rw [List.mem_append, not_or]
    exact ⟨hline.zero_notMem, by decide⟩
  rw [trimmed, cString_eq_self hzero, Misclib.chomp_eq, List.rdropWhile_concat_pos _ _ _ (by decide),
    Misclib.rdropWhile_concat_of_not hend, Misclib.rtrim_eq,
    Misclib.rdropWhile_concat_of_not hblank]

/-- The entries of a file are the lines that were written. -/
theorem entries_linesText {lines : List Str} (hlines : ∀ line ∈ lines, IsEntry line) :
    entries (linesText lines) = lines := by
  have htext := textLines_linesText fun line hline ↦ (hlines line hline).newline_notMem
  have hfgets : fgetsLines 2048 (linesText lines) = lines.map (· ++ ['\n']) := by
    rw [← htext]
    refine fgetsLines_eq fun line hline ↦ ?_
    rw [htext] at hline
    obtain ⟨entry, hentry, rfl⟩ := List.mem_map.mp hline
    have hlt := (hlines entry hentry).length_lt
    rw [List.length_append, List.length_singleton]
    omega
  have htrim : ((lines.map (· ++ ['\n'])).map trimmed) = lines := by
    rw [List.map_map]
    exact (List.map_congr_left fun line hline ↦ trimmed_entry (hlines line hline)).trans
      (List.map_id lines)
  rw [entries, hfgets, htrim, List.filter_eq_self]
  intro line hline
  obtain ⟨front, c, hfront, -, -⟩ := (hlines line hline).last_kept
  have hne : line ≠ [] := by
    rw [hfront]
    exact List.append_ne_nil_of_right_ne_nil _ (List.cons_ne_nil _ _)
  simpa using ⟨hne, (hlines line hline).ne_mark⟩

theorem mem_digits {n v : ℕ} {c : Char} (hc : c ∈ digits n v) :
    ∃ d < 10, c = Char.ofNat ('0'.toNat + d) := by
  induction n generalizing v with
  | zero => cases hc
  | succ n ih =>
    rcases List.mem_append.mp hc with hfront | hlast
    · exact ih hfront
    · exact ⟨v % 10, Nat.mod_lt v (by decide), List.mem_singleton.mp hlast⟩

theorem Tm.mem_text {tm : Tm} {c : Char} (hc : c ∈ tm.text) :
    c = '-' ∨ ∃ d < 10, c = Char.ofNat ('0'.toNat + d) := by
  simp only [Tm.text, List.mem_append, List.mem_cons] at hc
  rcases hc with hc | hc | hc | rfl | hc | hc
  · exact .inr (mem_digits hc)
  · exact .inr (mem_digits hc)
  · exact .inr (mem_digits hc)
  · exact .inl rfl
  · exact .inr (mem_digits hc)
  · exact .inr (mem_digits hc)

/-- A time is a line that a play list can hold. -/
theorem Tm.isEntry_text (tm : Tm) : IsEntry tm.text := by
  have hdigit : ∀ d < 10, Char.ofNat ('0'.toNat + d) ≠ '\n' ∧ Char.ofNat ('0'.toNat + d) ≠ '\x00' ∧
      Misclib.isLineEnd (Char.ofNat ('0'.toNat + d)) = false ∧
      Misclib.isBlank (Char.ofNat ('0'.toNat + d)) = false := by decide
  have hkept {c : Char} (hc : c ∈ tm.text) : c ≠ '\n' ∧ c ≠ '\x00' := by
    rcases Tm.mem_text hc with rfl | ⟨d, hd, rfl⟩
    · decide
    · exact ⟨(hdigit d hd).1, (hdigit d hd).2.1⟩
  refine ⟨fun hmem ↦ (hkept hmem).1 rfl, fun hmem ↦ (hkept hmem).2 rfl, ?_, ?_, ?_⟩
  · intro heq
    have hlength := tm.length_text
    rw [heq] at hlength
    exact absurd hlength (by decide)
  · refine ⟨digits 4 (tm.year + 1900) ++ (digits 2 (tm.mon + 1) ++ (digits 2 tm.mday ++
      ('-' :: (digits 2 tm.hour ++ digits 1 (tm.min / 10))))),
      Char.ofNat ('0'.toNat + tm.min % 10), ?_, (hdigit _ (Nat.mod_lt _ (by decide))).2.2⟩
    have hmin : digits 2 tm.min = digits 1 (tm.min / 10) ++ [Char.ofNat ('0'.toNat + tm.min % 10)] :=
      rfl
    simp [Tm.text, hmin]
  · rw [tm.length_text]
    decide

/-- A file with two times and names. -/
def fileText (start stop : Tm) (names : List Str) : Str :=
  linesText (start.text :: stop.text :: names)

theorem timeOf_text (mktime : Tm → ℤ) {tm : Tm} (htm : tm.Valid) :
    timeOf mktime tm.text = mktime tm := by
  rw [timeOf, formatTime_text htm, Option.elim_some]

/-- The shelf after a written file is loaded. -/
theorem Shelf.load_fileText (mktime : Tm → ℤ) (shelf : Shelf) {start stop : Tm} {names : List Str}
    (hstart : start.Valid) (hstop : stop.Valid) (hnames : ∀ name ∈ names, IsEntry name) :
    shelf.load mktime (fileText start stop names) =
      ⟨names, none, shelf.looping, mktime start, mktime stop⟩ := by
  have hentries : entries (fileText start stop names) = start.text :: stop.text :: names :=
    entries_linesText (List.forall_mem_cons.mpr ⟨start.isEntry_text,
      List.forall_mem_cons.mpr ⟨stop.isEntry_text, hnames⟩⟩)
  rw [Shelf.load, hentries, ← timeOf_text mktime hstart, ← timeOf_text mktime hstop]
  rfl

/-! ### Playing -/

/-- The answers of one round. -/
def cycle (names : List Str) (looping : Bool) : List (Option Str) :=
  if names = [] ∨ ¬looping then names.map some ++ [none] else names.map some

/-- The place in the round of the next answer. -/
def Shelf.turn (shelf : Shelf) : ℕ :=
  shelf.position.elim 0 (· + 1) % (cycle shelf.names shelf.looping).length

theorem cycle_getD {names : List Str} (looping : Bool) {i : ℕ} (hi : i < names.length) :
    i < (cycle names looping).length ∧ (cycle names looping).getD i none = names[i]? := by
  have hfront : (names.map some)[i]? = some names[i]? := by
    rw [List.getElem?_map, List.getElem?_eq_getElem hi, Option.map_some]
  have hlt : i < (names.map some).length := by rwa [List.length_map]
  rw [cycle, List.getD_eq_getElem?_getD]
  split_ifs
  · rw [List.getElem?_append_left hlt, hfront, List.length_append]
    exact ⟨Nat.lt_add_right _ hlt, rfl⟩
  · rw [hfront]
    exact ⟨hlt, rfl⟩

/-- `next` answers what is at the turn and goes on by one turn. -/
theorem Shelf.turn_next {shelf : Shelf} (hposition : ∀ i ∈ shelf.position, i < shelf.names.length) :
    ({ shelf with position := shelf.advance } : Shelf).current =
        (cycle shelf.names shelf.looping).getD shelf.turn none ∧
      ({ shelf with position := shelf.advance } : Shelf).turn =
        (shelf.turn + 1) % (cycle shelf.names shelf.looping).length ∧
      ∀ i ∈ shelf.advance, i < shelf.names.length := by
  have hle : shelf.position.elim 0 (· + 1) ≤ shelf.names.length := by
    cases hcase : shelf.position with
    | none => exact Nat.zero_le _
    | some i => exact hposition i hcase
  rw [Shelf.turn, Shelf.turn, Shelf.current, Shelf.advance]
  generalize shelf.position.elim 0 (· + 1) = i at hle
  by_cases hi : i < shelf.names.length
  · obtain ⟨hlt, hget⟩ := cycle_getD shelf.looping hi
    simp only [if_pos hi, Option.bind_some, Option.elim_some, Option.mem_some_iff, forall_eq']
    rw [Nat.mod_eq_of_lt hlt, hget]
    exact ⟨rfl, rfl, hi⟩
  · obtain rfl : i = shelf.names.length := le_antisymm hle (not_lt.mp hi)
    by_cases hlooping : shelf.looping ∧ shelf.names ≠ []
    · -- back to the first name
      have hpos : 0 < shelf.names.length := List.length_pos_of_ne_nil hlooping.2
      have hcycle : cycle shelf.names shelf.looping = shelf.names.map some :=
        if_neg fun hor ↦ hor.elim hlooping.2 fun hnot ↦ hnot hlooping.1
      simp only [if_neg hi, if_pos hlooping, Option.bind_some, Option.elim_some,
        Option.mem_some_iff, forall_eq']
      refine ⟨?_, ?_, hpos⟩
      · rw [hcycle, List.length_map, Nat.mod_self, ← (cycle_getD shelf.looping hpos).2, hcycle]
      · rw [hcycle, List.length_map, Nat.mod_self]
    · have hcycle : cycle shelf.names shelf.looping = shelf.names.map some ++ [none] :=
        if_pos (by tauto)
      have hlength : (shelf.names.map some ++ [none]).length = shelf.names.length + 1 := by simp
      simp only [if_neg hi, if_neg hlooping, Option.bind_none, Option.elim_none]
      rw [hcycle, hlength, Nat.mod_eq_of_lt (Nat.lt_succ_self _), Nat.mod_self, Nat.zero_mod]
      refine ⟨?_, rfl, by simp⟩
      rw [List.getD_append_right _ _ _ _ (by rw [List.length_map]), List.length_map, Nat.sub_self]
      rfl

/-- The answers to any number of calls of `next`. -/
theorem replies_next (mktime : Tm → ℤ) (n : ℕ) {shelf : Shelf}
    (hposition : ∀ i ∈ shelf.position, i < shelf.names.length) :
    (replies (Shelf.call mktime) shelf (List.replicate n .next)).1 =
      (List.range n).map fun k ↦ .name ((cycle shelf.names shelf.looping).getD
        ((shelf.turn + k) % (cycle shelf.names shelf.looping).length) none) := by
  induction n generalizing shelf with
  | zero => rfl
  | succ n ih =>
    obtain ⟨hanswer, hturn, hlt⟩ := shelf.turn_next hposition
    have hfirst : (shelf.turn + 0) % (cycle shelf.names shelf.looping).length = shelf.turn :=
      Nat.mod_mod _ _
    have hrest := @ih { shelf with position := shelf.advance } hlt
    rw [hturn] at hrest
    rw [List.replicate_succ, replies, List.range_succ_eq_map, List.map_cons, hfirst, List.map_map]
    refine congrArg₂ List.cons (congrArg Answer.name hanswer) (hrest.trans ?_)
    refine List.map_congr_left fun k _ ↦ ?_
    rw [Nat.mod_add_mod, Nat.add_assoc, Nat.add_comm 1 k]
    rfl

/-- After a written file is loaded the times are those written and the names are played in their
order, again and again. -/
theorem load_then_next (mktime : Tm → ℤ) (start0 stop0 : ℤ) (earlier : List Call) {mode : ℤ}
    (hmode : 0 ≤ mode) {start stop : Tm} (hstart : start.Valid) (hstop : stop.Valid)
    {names : List Str} (hnames : ∀ name ∈ names, IsEntry name) (n : ℕ) :
    (serve (call mktime) (newPlaylist start0 stop0)
        (earlier ++ .looping mode :: .loadPlaylist (some (fileText start stop names)) ::
          .startTime :: .stopTime :: List.replicate n .next)).map
        (fun result ↦ result.1.drop (earlier.length + 1)) =
      some (.number 0 :: .number (mktime start) :: .number (mktime stop) ::
        (List.range n).map fun k ↦
          .name ((cycle names (mode ≠ 0)).getD (k % (cycle names (mode ≠ 0)).length) none)) := by
  obtain ⟨pl, hserve, -⟩ := exists_serve mktime start0 stop0
    (earlier ++ .looping mode :: .loadPlaylist (some (fileText start stop names)) ::
      .startTime :: .stopTime :: List.replicate n .next)
  have hlength : (replies (Shelf.call mktime) (Shelf.empty start0 stop0) earlier).1.length =
    earlier.length := length_replies _ _
  rw [hserve, Option.map_some, replies_append]
  generalize (replies (Shelf.call mktime) (Shelf.empty start0 stop0) earlier).2 = shelf
  have hlooping : (shelf.call mktime (.looping mode)).2 =
      { shelf with looping := mode ≠ 0 } := if_pos hmode
  have hload : (({ shelf with looping := mode ≠ 0 } : Shelf).call mktime
      (.loadPlaylist (some (fileText start stop names)))).2 =
      ⟨names, none, mode ≠ 0, mktime start, mktime stop⟩ :=
    Shelf.load_fileText mktime _ hstart hstop hnames
  have hplay := @replies_next mktime n ⟨names, none, mode ≠ 0, mktime start, mktime stop⟩ (by simp)
  have hturn : (⟨names, none, mode ≠ 0, mktime start, mktime stop⟩ : Shelf).turn = 0 :=
    Nat.zero_mod _
  simp only [hturn, Nat.zero_add] at hplay
  rw [replies, hlooping, List.drop_append, hlength, List.drop_of_length_le (by omega),
    Nat.add_sub_cancel_left, List.nil_append, List.drop_succ_cons, List.drop_zero, replies, hload,
    ← hplay, replies, replies]
  rfl

/-- A list of two names with `mktime` in UTC, loaded over another name. -/
theorem load_then_next_twoNames :
    (serve (call fun tm ↦ if tm.hour = 8 then 1021624200 else 1021636800) (newPlaylist 0 0)
        [.add ['x'], .looping 0,
          .loadPlaylist (some (fileText ⟨102, 4, 17, 8, 30⟩ ⟨102, 4, 17, 12, 0⟩ [['a'], ['b']])),
          .startTime, .stopTime, .next, .next, .next, .next]).map
        (fun result ↦ result.1.drop 2) =
      some [.number 0, .number 1021624200, .number 1021636800, .name (some ['a']),
        .name (some ['b']), .name none, .name (some ['a'])] :=
  load_then_next (fun tm ↦ if tm.hour = 8 then 1021624200 else 1021636800) 0 0 [.add ['x']]
    (Int.le_refl 0) ⟨by decide, by decide, by decide, by decide, by decide, by decide⟩
    ⟨by decide, by decide, by decide, by decide, by decide, by decide⟩
    (by
      refine List.forall_mem_cons.mpr ⟨⟨by decide, by decide, by decide, ?_, by decide⟩,
        List.forall_mem_cons.mpr ⟨⟨by decide, by decide, by decide, ?_, by decide⟩, by simp⟩⟩
      · exact ⟨[], 'a', rfl, by decide, by decide⟩
      · exact ⟨[], 'b', rfl, by decide, by decide⟩) 4

end Katmai.Playlist
