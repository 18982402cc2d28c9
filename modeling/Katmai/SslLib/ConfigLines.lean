import Katmai.Foundation.Words
import Katmai.SslLib.ServerList

/-!
# The lines of the configuration file

A line is an entry if it has two words, begins no comment, and its second word is a server, alone or
with a colon and a known protocol (`lineEntry`). `read_config` cuts the line up where it stands, and
gets the same (`configEntry_eq`).
-/

set_option autoImplicit false
set_option relaxedAutoImplicit false

namespace Katmai.SslLib

open Foundation

/-! ### Entries -/

/-- The text of a line. -/
def lineText (line : List Char) : List Char :=
  (cString line).rdropWhile isLineEnd

def beginsComment (word : List Char) : Bool :=
  word.head? == some '#' || word.head? == some ';'

/-- The server and the protocol in `server[:protocol]`. -/
def targetEntry (user target : List Char) : Option Entry :=
  (protocolSsl ((target.dropWhile (· != ':')).drop 1)).map fun useSsl ↦
    { user := user, server := target.takeWhile (· != ':'), useSsl := useSsl }

/-- The entry with some words. -/
def wordsEntry : List (List Char) → Option Entry
  | user :: target :: _ => if beginsComment user then none else targetEntry user target
  | _ => none

/-- The entry of a line. -/
def lineEntry (line : List Char) : Option Entry :=
  wordsEntry (words isBlank (lineText line))

/-- The first two words. -/
def firstTwo : List (List Char) → Option (List Char × List Char)
  | first :: second :: _ => some (first, second)
  | _ => none

/-! ### Splitting -/

variable {s : Split} {text done rest word : List Char} {c : Char} {p1 p2 : Option ℕ} {n : ℕ}

/-- The characters at which nothing happens. -/
theorem foldl_step_stay (hstay : ∀ c ∈ text, ∀ i, s.step (c, i) = s) (n : ℕ) :
    (text.zipIdx n).foldl Split.step s = s := by
  induction text generalizing n with
  | nil => rfl
  | cons c text ih =>
    rw [List.zipIdx_cons, List.foldl_cons, hstay c List.mem_cons_self,
      ih fun d hd ↦ hstay d (List.mem_cons_of_mem _ hd)]

/-- A blank in the second word or behind is overwritten. -/
def cutBlank (c : Char) : Char :=
  if isBlank c then '\x00' else c

theorem foldl_step_second (done rest : List Char) :
    (rest.zipIdx done.length).foldl Split.step
        { buf := done ++ rest, p1 := p1, p2 := p2, stage := .second } =
      { buf := done ++ rest.map cutBlank, p1 := p1, p2 := p2, stage := .second } := by
  induction rest generalizing done with
  | nil => rfl
  | cons c rest ih =>
    have hstep : Split.step { buf := done ++ c :: rest, p1 := p1, p2 := p2, stage := .second }
        (c, done.length) =
          { buf := (done ++ [cutBlank c]) ++ rest, p1 := p1, p2 := p2, stage := .second } := by
      cases hc : isBlank c with
      | true => simp [Split.step, cutBlank, hc]
      | false => simp [Split.step, cutBlank, hc]
    have hlength : done.length + 1 = (done ++ [cutBlank c]).length := by
      rw [List.length_append, List.length_singleton]
    rw [List.zipIdx_cons, List.foldl_cons, hstep, hlength, ih, List.append_assoc, List.map_cons]
    rfl

/-- The string that is left of a text is its first word. -/
theorem cString_map_cutBlank (htext : '\x00' ∉ text) :
    cString (text.map cutBlank) = text.takeWhile fun c ↦ !isBlank c := by
  induction text with
  | nil => rfl
  | cons c text ih =>
    rw [List.mem_cons, not_or] at htext
    rw [List.map_cons, cString]
    cases hc : isBlank c with
    | true =>
      rw [cutBlank, if_pos hc, List.takeWhile_cons_of_neg (by simp),
        List.takeWhile_cons_of_neg (by simp [hc])]
    | false =>
      have hzero : (c != '\x00') = true := bne_iff_ne.mpr (Ne.symm htext.1)
      rw [cutBlank, if_neg (by simp [hc]), List.takeWhile_cons_of_pos (p := (· != '\x00')) hzero,
        List.takeWhile_cons_of_pos (by simp [hc])]
      exact congrArg _ (ih htext.2)

/-- A word and a zero behind it. -/
theorem cString_word (hword : '\x00' ∉ word) (rest : List Char) :
    cString (word ++ '\x00' :: rest) = word := by
  have hnot : ∀ c ∈ word, (c != '\x00') = true := fun c hc ↦ bne_iff_ne.mpr fun hzero ↦
    hword (hzero ▸ hc)
  rw [cString, List.takeWhile_append_of_pos hnot, List.takeWhile_cons_of_neg (by simp),
    List.append_nil]

/-! ### Stages -/

variable {blanks : List Char} {d : Char}

theorem foldl_between_blank (hblanks : ∀ c ∈ blanks, isBlank c = true) (n : ℕ) :
    (blanks.zipIdx n).foldl Split.step { buf := text, p1 := p1, p2 := p2, stage := .between } =
      { buf := text, p1 := p1, p2 := p2, stage := .between } :=
  foldl_step_stay (fun c hc i ↦ by simp [Split.step, hblanks c hc]) n

/-- From the blanks between the words on, with a second word. -/
theorem foldl_between_word (hblanks : ∀ c ∈ blanks, isBlank c = true) (hc : isBlank c = false)
    (done rest : List Char) :
    ((blanks ++ c :: rest).zipIdx done.length).foldl Split.step
        { buf := done ++ (blanks ++ c :: rest), p1 := p1, p2 := p2, stage := .between } =
      { buf := (done ++ blanks) ++ (c :: rest).map cutBlank, p1 := p1,
        p2 := some (done ++ blanks).length, stage := .second } := by
  have hstep (buf : List Char) (i : ℕ) :
      Split.step { buf := buf, p1 := p1, p2 := p2, stage := .between } (c, i) =
        Split.step { buf := buf, p1 := p1, p2 := some i, stage := .second } (c, i) := by
    simp [Split.step, hc]
  have hlater := @foldl_step_second p1 (some (done ++ blanks).length) (done ++ blanks) (c :: rest)
  rw [List.zipIdx_cons, List.foldl_cons] at hlater
  rw [List.zipIdx_append, List.foldl_append, foldl_between_blank hblanks, List.zipIdx_cons,
    List.foldl_cons, ← List.length_append, hstep, ← List.append_assoc]
  exact hlater

theorem foldl_first_word (hword : ∀ c ∈ word, isBlank c = false) (n : ℕ) :
    (word.zipIdx n).foldl Split.step { buf := text, p1 := p1, p2 := p2, stage := .first } =
      { buf := text, p1 := p1, p2 := p2, stage := .first } :=
  foldl_step_stay (fun c hc i ↦ by simp [Split.step, hword c hc]) n

/-- From the first word on, with a blank behind it. -/
theorem foldl_first_blank (hword : ∀ c ∈ word, isBlank c = false) (hd : isBlank d = true)
    (done rest : List Char) :
    ((word ++ d :: rest).zipIdx done.length).foldl Split.step
        { buf := done ++ (word ++ d :: rest), p1 := p1, p2 := p2, stage := .first } =
      (rest.zipIdx (done ++ (word ++ ['\x00'])).length).foldl Split.step
        { buf := (done ++ (word ++ ['\x00'])) ++ rest, p1 := p1, p2 := p2, stage := .between } := by
  have hstep : Split.step
      { buf := done ++ (word ++ d :: rest), p1 := p1, p2 := p2, stage := .first }
        (d, (done ++ word).length) =
      { buf := (done ++ (word ++ ['\x00'])) ++ rest, p1 := p1, p2 := p2, stage := .between } := by
    rw [← List.append_assoc]
    simp [Split.step, hd]
  have hlength : (done ++ word).length + 1 = (done ++ (word ++ ['\x00'])).length := by
    simp only [List.length_append, List.length_singleton]
    omega
  rw [List.zipIdx_append, List.foldl_append, foldl_first_word hword, List.zipIdx_cons,
    List.foldl_cons, ← List.length_append, hstep, hlength]

theorem foldl_before_blank (hblanks : ∀ c ∈ blanks, isBlank c = true) (n : ℕ) :
    (blanks.zipIdx n).foldl Split.step { buf := text, p1 := p1, p2 := p2, stage := .before } =
      { buf := text, p1 := p1, p2 := p2, stage := .before } :=
  foldl_step_stay (fun c hc i ↦ by simp [Split.step, hblanks c hc]) n

/-- From the start on, with a first word. -/
theorem foldl_before_word (hblanks : ∀ c ∈ blanks, isBlank c = true) (hc : isBlank c = false)
    (rest : List Char) :
    (blanks ++ c :: rest).zipIdx.foldl Split.step
        { buf := blanks ++ c :: rest, p1 := none, p2 := none, stage := .before } =
      ((c :: rest).zipIdx blanks.length).foldl Split.step
        { buf := blanks ++ c :: rest, p1 := some blanks.length, p2 := none, stage := .first } := by
  have hstep (buf : List Char) (i : ℕ) :
      Split.step { buf := buf, p1 := none, p2 := none, stage := .before } (c, i) =
        Split.step { buf := buf, p1 := some i, p2 := none, stage := .first } (c, i) := by
    simp [Split.step, hc]
  rw [List.zipIdx_append, List.foldl_append, foldl_before_blank hblanks, Nat.zero_add,
    List.zipIdx_cons, List.foldl_cons, List.foldl_cons, hstep]

/-- `split_2` finds the first two words. -/
theorem split2_eq (htext : '\x00' ∉ text) : split2 text = firstTwo (words isBlank text) := by
  rcases blank_or_exists isBlank text with hblank | ⟨blanks, c, rest, rfl, hblanks, hc⟩
  · rw [split2, foldl_before_blank hblank, words_of_blank hblank]
    rfl
  rw [words_blanks_append hblanks, split2, foldl_before_word hblanks hc]
  rcases blank_or_exists (fun c ↦ !isBlank c) rest with hword | ⟨word, d, rest, rfl, hword, hd⟩
  · have hrest : ∀ d ∈ rest, isBlank d = false := fun d hd ↦ by simpa using hword d hd
    rw [foldl_first_word (List.forall_mem_cons.mpr ⟨hc, hrest⟩), words_word hc hrest]
    rfl
  have hfirst : ∀ d ∈ word, isBlank d = false := fun d hd ↦ by simpa using hword d hd
  have hd' : isBlank d = true := by simpa using hd
  rw [words_word_append hc hfirst hd', ← List.cons_append,
    foldl_first_blank (List.forall_mem_cons.mpr ⟨hc, hfirst⟩) hd']
  have hzeros : '\x00' ∉ c :: word ∧ '\x00' ∉ rest := by
    simp only [List.mem_append, List.mem_cons, not_or] at htext ⊢
    exact ⟨⟨htext.2.1, htext.2.2.1⟩, htext.2.2.2.2⟩
  rcases blank_or_exists isBlank rest with hblank | ⟨blanks', e, last, rfl, hblanks', he⟩
  · rw [foldl_between_blank hblank, words_of_blank hblank]
    rfl
  rw [foldl_between_word hblanks' he, words_blanks_append hblanks', words_cons_of_not_blank he]
  have hlast : '\x00' ∉ e :: last := fun hmem ↦ hzeros.2 (List.mem_append_right _ hmem)
  have hsecond : cString ((e :: last).map cutBlank) = e :: last.takeWhile fun c ↦ !isBlank c := by
    rw [cString_map_cutBlank hlast, List.takeWhile_cons_of_pos (by simp [he])]
  change some (cString (List.drop blanks.length _), cString (List.drop _ _)) = _
  rw [List.drop_left, hsecond, List.append_assoc, List.append_assoc, List.drop_left,
    List.append_assoc, List.singleton_append, cString_word hzeros.1]
  rfl

/-! ### Lines -/

theorem trim_eq (buf : List Char) : trim buf = (buf.rdropWhile isBlank).dropWhile isBlank := by
  rw [trim, trimRight_eq_rdropWhile]
  rcases blank_or_exists isBlank (buf.rdropWhile isBlank) with hblank | ⟨blanks, c, rest, heq, h⟩
  · have hnil : buf.rdropWhile isBlank = [] := by
      by_contra hne
      exact List.rdropWhile_last_not isBlank buf hne (hblank _ (List.getLast_mem hne))
    rw [hnil]
    rfl
  · have hidx : (blanks ++ c :: rest).findIdx? (fun c ↦ !isBlank c) = some blanks.length := by
      have hnone : blanks.findIdx? (fun c ↦ !isBlank c) = none :=
        List.findIdx?_eq_none_iff.mpr fun d hd ↦ by rw [h.1 d hd]; rfl
      simp [List.findIdx?_append, hnone, List.findIdx?_cons, h.2]
    rw [heq, hidx, Option.getD_some, List.drop_left, List.dropWhile_append_of_pos h.1,
      List.dropWhile_cons_of_neg (by simp [h.2]), ite_not]
    split_ifs with hzero
    · rw [List.eq_nil_of_length_eq_zero hzero, List.nil_append]
    · rfl

/-- What is cut off is blank. -/
theorem words_trim (buf : List Char) : words isBlank (trim buf) = words isBlank buf := by
  have hblanks : ∀ c ∈ buf.rtakeWhile isBlank, isBlank c = true := fun c hc ↦
    List.mem_rtakeWhile_imp hc
  calc words isBlank (trim buf)
      = words isBlank (buf.rdropWhile isBlank) := by rw [trim_eq, words_dropWhile_blank]
    _ = words isBlank (buf.rdropWhile isBlank ++ buf.rtakeWhile isBlank) :=
        (words_append_blanks hblanks _).symm
    _ = words isBlank buf := by rw [List.rdropWhile_append_rtakeWhile]

theorem chomp_cString (line : List Char) : chomp (cString line) = lineText line :=
  trimRight_eq_rdropWhile isLineEnd _

theorem notMem_lineText (line : List Char) : '\x00' ∉ lineText line := by
  intro hmem
  have hstring := List.mem_takeWhile_imp ((List.rdropWhile_prefix _ _).mem hmem)
  exact absurd hstring (by decide)

/-- What is left of a line begins with its first word. -/
theorem trim_cases (buf : List Char) :
    (trim buf = [] ∧ words isBlank buf = []) ∨
      ∃ c rest word more, trim buf = c :: rest ∧ words isBlank buf = (c :: word) :: more := by
  rw [← words_trim]
  cases htrim : trim buf with
  | nil => exact .inl ⟨rfl, rfl⟩
  | cons c rest =>
    have hc : isBlank c = false := by
      have hhead := List.head?_dropWhile_not isBlank (buf.rdropWhile isBlank)
      rw [← trim_eq, htrim] at hhead
      simpa using hhead
    exact .inr ⟨c, rest, _, _, rfl, words_cons_of_not_blank hc rest⟩

/-- The second word is cut at the colon. -/
theorem splitEntry_eq (user target : List Char) :
    splitEntry user target = targetEntry user target := by
  rw [splitEntry, targetEntry]
  rcases blank_or_exists (· != ':') target with hnone | ⟨server, c, protocol, rfl, hserver, hc⟩
  · have hidx : target.findIdx? (· == ':') = none :=
      List.findIdx?_eq_none_iff.mpr fun d hd ↦ by simpa using hnone d hd
    rw [hidx, List.takeWhile_eq_self_iff.mpr hnone, List.dropWhile_eq_nil_iff.mpr hnone]
    rfl
  · have hidx : (server ++ c :: protocol).findIdx? (· == ':') = some server.length := by
      have hnone : server.findIdx? (· == ':') = none :=
        List.findIdx?_eq_none_iff.mpr fun d hd ↦ by simpa using hserver d hd
      have hcolon : c = ':' := by simpa using hc
      simp [List.findIdx?_append, hnone, List.findIdx?_cons, hcolon]
    have hdrop : (server ++ c :: protocol).drop (server.length + 1) = protocol := by simp
    rw [hidx, List.takeWhile_append_of_pos hserver, List.dropWhile_append_of_pos hserver,
      List.takeWhile_cons_of_neg (by simp [hc]), List.dropWhile_cons_of_neg (by simp [hc]),
      List.append_nil]
    simp only [hdrop, List.take_left, List.drop_succ_cons, List.drop_zero]

/-- `read_config` takes a line for the entry that it is. -/
theorem configEntry_eq (line : List Char) : configEntry line = lineEntry line := by
  have hzero : '\x00' ∉ trim (lineText line) := by
    rw [trim_eq]
    exact fun hmem ↦ notMem_lineText line ((List.rdropWhile_prefix _ _).mem
      ((List.dropWhile_suffix _).mem hmem))
  rw [configEntry, lineEntry, chomp_cString, split2_eq hzero, words_trim]
  rcases trim_cases (lineText line) with ⟨htrim, hwords⟩ | ⟨c, rest, word, more, htrim, hwords⟩
  · rw [htrim, hwords]
    rfl
  · rw [htrim, hwords]
    cases more with
    | nil => simp [firstTwo, wordsEntry]
    | cons target more =>
      by_cases hcomment : c = '#' ∨ c = ';'
      · have hbegins : beginsComment (c :: word) = true := by simpa [beginsComment] using hcomment
        simp [wordsEntry, hbegins, hcomment]
      · have hbegins : beginsComment (c :: word) = false := by
          simpa [beginsComment, not_or] using hcomment
        simp [firstTwo, wordsEntry, splitEntry_eq, hbegins, hcomment]

/-- The line end makes no difference. -/
theorem lineEntry_newline (line : List Char) : lineEntry (line ++ ['\n']) = lineEntry line := by
  have htext : lineText (line ++ ['\n']) = lineText line := by
    rw [lineText, lineText, cString, cString]
    rcases blank_or_exists (· != '\x00') line with hnone | ⟨before, c, rest, rfl, hbefore, hc⟩
    · rw [List.takeWhile_append_of_pos hnone, List.takeWhile_eq_self_iff.mpr hnone]
      exact List.rdropWhile_concat_pos isLineEnd line '\n' rfl
    · rw [List.append_assoc, List.takeWhile_append_of_pos hbefore,
        List.takeWhile_append_of_pos hbefore, List.cons_append,
        List.takeWhile_cons_of_neg (by simp [hc]), List.takeWhile_cons_of_neg (by simp [hc])]
  rw [lineEntry, lineEntry, htext]

end Katmai.SslLib
