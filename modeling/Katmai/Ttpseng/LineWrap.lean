import Katmai.Ttpseng.LineBuffer

/-!
# Line wrapping of the page engine

`expected` is what a page engine with line wrapping writes for a list of entries: their marks in
order, with a line end in front of each entry that does not fit on its line. `WrapsCorrectly` says
that the main loop ends and has written just that, and `WrapClean` that the loop meets no entry that
it mishandles: a BIG5 character at the end of a line, at which it stays, a tab across the end of a
line, a form feed on a full line, and entries that are written in front of the text that waits. The
two agree (`tteShowpage_wrapsCorrectly_iff`): the first entry that is mishandled leaves an output
that no later one repairs (`Grows`).
-/

set_option autoImplicit false
set_option relaxedAutoImplicit false

namespace Katmai.Ttpseng

variable {layout : Layout} {st st' : PageState} {t : TxtbufContent} {i fuel : ℕ} {line : Line}
  {tokens rest : List TxtbufContent} {inserted : Bool}

/-! ### Marks -/

/-- What an output shows of an entry. -/
inductive Mark
  | lineEnd (token : ℕ) (inserted : Bool)
  | formFeed (token : ℕ)
  | byte (b : LineByte)
  | drawing (token : ℕ) (d : Drawing)
  deriving DecidableEq

def Output.marks : Output → List Mark
  | .startPage _ => []
  | .nextPage _ => []
  | .asciiString _ _ str => str.map .byte
  | .dictChar i _ _ c => [.drawing i (.glyph c)]
  | .drawing i d => [.drawing i d]
  | .lineEnd i inserted => [.lineEnd i inserted]
  | .formFeed i => [.formFeed i]

def PageState.marks (st : PageState) : List Mark :=
  st.out.flatMap Output.marks

/-- What is written, and the text that waits. -/
def PageState.trace (st : PageState) : List Mark :=
  st.marks ++ st.charStr.map .byte

/-- The marks of the entry with number `i`, when it comes on a line. -/
def TxtbufContent.marks (t : TxtbufContent) (i : ℕ) (line : Line) : List Mark :=
  match t.type with
  | .ascii =>
    if line.direct then [.drawing i (.asciiText (escaped t.v))]
    else if t.v = 0x0a then [.lineEnd i false]
    else if t.v = 0x0d then []
    else if t.v = 0x0c then [.formFeed i]
    else (charBytes line.column t.v).map fun byte ↦ .byte { token := i, byte := byte }
  | .big5 => [.drawing i (.glyph t.v)]
  | .setRgb => [.drawing i (.rgbColor t.v)]
  | .command =>
    if t.v = 2 then [.drawing i .line] else if t.v = 3 then [.drawing i .box] else []
  | .setSeFont => [.drawing i (.selectFont t.v)]
  | .setEFont => [.drawing i (.findFont t.v)]
  | _ => []

/-- The columns that an entry takes on a line. -/
def TxtbufContent.width (t : TxtbufContent) (line : Line) : ℕ :=
  match t.type with
  | .ascii =>
    if line.direct = true ∨ t.v = 0x0a ∨ t.v = 0x0d ∨ t.v = 0x0c then 0
    else charColumns line.column t.v
  | .big5 => if line.direct then 0 else 2
  | _ => 0

/-- An entry fits on the line. -/
def Line.Fits (layout : Layout) (line : Line) (t : TxtbufContent) : Prop :=
  t.width line = 0 ∨ (line.column + t.width line : ℤ) ≤ layout.charPerLine

instance (layout : Layout) (line : Line) (t : TxtbufContent) : Decidable (line.Fits layout t) :=
  inferInstanceAs (Decidable (_ ∨ _))

/-- The marks of all entries in order, with a line end in front of exactly those that do not fit. -/
def expected (layout : Layout) : ℕ → Line → List TxtbufContent → List Mark
  | _, _, [] => []
  | i, line, t :: rest =>
    if line.Fits layout t then t.marks i line ++ expected layout (i + 1) (line.after t) rest
    else
      .lineEnd i true ::
        (t.marks i line.broken ++ expected layout (i + 1) (line.broken.after t) rest)

/-- A string of direct output fits into `dir_str`, with the zero behind its length. -/
def Mark.FitsDirStr : Mark → Prop
  | .drawing _ (.asciiText str) => str.length + 1 < 3
  | _ => True

/-- The loop ends, no string is longer than `dir_str`, and each entry is written once, in order,
with the line breaks that are due. -/
def WrapsCorrectly (layout : Layout) (tokens : List TxtbufContent) : Prop :=
  ∃ fuel st, tteShowpage layout fuel tokens = .ok st ∧ (∀ m ∈ st.marks, m.FitsDirStr) ∧
    st.marks = expected layout 0 Line.start tokens

/-! ### Entries that are handled -/

/-- The entry is written, or a page is ended, in front of the text that waits. -/
def Line.PassesText (line : Line) (t : TxtbufContent) : Prop :=
  match t.type with
  | .ascii => line.direct = true ∨ t.v = 0x0c
  | .command => t.v = 2 ∨ t.v = 3
  | .setSeFont | .setEFont => True
  | _ => False

/-- The loop handles the entry on the line. -/
structure Line.Handles (layout : Layout) (line : Line) (t : TxtbufContent) : Prop where
  inOrder : line.PassesText t → line.pending = 0
  dirStr : t.type = .ascii → line.direct = true → isEscaped t.v = false
  big5 : t.type = .big5 → line.direct = false → (line.column + 2 : ℤ) ≤ layout.charPerLine
  tab : t.type = .ascii → line.direct = false → t.v = 0x09 →
    layout.charPerLine ≤ line.column ∨
      (line.column + charColumns line.column t.v : ℤ) ≤ layout.charPerLine
  formFeed : t.type = .ascii → line.direct = false → t.v = 0x0c →
    (line.column : ℤ) < layout.charPerLine

/-- Every entry is handled, and the text in front of it fits into the line buffer. -/
def WrapClean (layout : Layout) : Line → List TxtbufContent → Prop
  | line, [] => line.CanFlush
  | line, t :: rest =>
    line.Handles layout t ∧
      if line.breaksBefore layout t then
        line.CanFlush ∧ line.broken.HasRoom t ∧ WrapClean layout (line.broken.after t) rest
      else line.HasRoom t ∧ WrapClean layout (line.after t) rest

theorem wrapClean_cons_of_break (hbreak : line.breaksBefore layout t = true) :
    WrapClean layout line (t :: rest) ↔ line.Handles layout t ∧ line.CanFlush ∧
      line.broken.HasRoom t ∧ WrapClean layout (line.broken.after t) rest := by
  rw [WrapClean, if_pos hbreak]

theorem wrapClean_cons_of_keep (hkeep : line.breaksBefore layout t = false) :
    WrapClean layout line (t :: rest) ↔ line.Handles layout t ∧
      line.HasRoom t ∧ WrapClean layout (line.after t) rest := by
  rw [WrapClean, if_neg (by simp [hkeep])]

/-- Where a line break comes in front of a character. -/
theorem breaksBefore_ascii_iff (hwrap : layout.wrap = true) (hascii : t.type = .ascii)
    (hdirect : line.direct = false) :
    line.breaksBefore layout t = true ↔
      t.v ≠ 0x0d ∧ t.v ≠ 0x0a ∧ layout.charPerLine ≤ line.column := by
  have hcolumn : (line.column : ℤ) > layout.charPerLine - 1 ↔ layout.charPerLine ≤ line.column := by
    omega
  simp [Line.breaksBefore, hwrap, hascii, hdirect, hcolumn, and_assoc]

theorem direct_of_breaksBefore (hbreak : line.breaksBefore layout t = true) :
    line.direct = false := by
  simp only [Line.breaksBefore, Bool.and_eq_true, Bool.not_eq_true'] at hbreak
  exact hbreak.1.1.1.1

theorem charColumns_pos (column : ℕ) (c : BitVec 32) : 0 < charColumns column c := by
  unfold charColumns
  split_ifs <;> omega

/-- Where it is handled, an entry has a line break in front of it exactly if it does not fit. -/
theorem Line.Handles.fits_iff (hhandles : line.Handles layout t) (hwrap : layout.wrap = true) :
    line.Fits layout t ↔ line.breaksBefore layout t = false := by
  obtain ⟨type, v⟩ := t
  cases hdirect : line.direct with
  | true =>
    have hwidth : TxtbufContent.width { type := type, v := v } line = 0 := by
      cases type <;> simp [TxtbufContent.width, hdirect]
    simp [Line.Fits, hwidth, Line.breaksBefore, hdirect]
  | false =>
    cases type with
    | ascii =>
      have hbreaks := breaksBefore_ascii_iff (t := { type := .ascii, v := v }) hwrap rfl hdirect
      rw [Bool.eq_false_iff, ne_eq, hbreaks, Line.Fits]
      by_cases hcontrol : v = 0x0a ∨ v = 0x0d ∨ v = 0x0c
      · have hfeed := hhandles.formFeed rfl hdirect
        simp only [TxtbufContent.width, hcontrol, or_true, if_true, true_or, true_iff]
        rcases hcontrol with rfl | rfl | rfl
        · exact fun h ↦ h.2.1 rfl
        · exact fun h ↦ h.1 rfl
        · exact fun h ↦ Int.not_lt.mpr h.2.2 (hfeed rfl)
      · obtain ⟨hnewline, hreturn, hfeed⟩ := not_or.mp hcontrol |>.imp_right not_or.mp
        have hpos := charColumns_pos line.column v
        have htab := hhandles.tab rfl hdirect
        have hone (hv : v ≠ 0x09) : charColumns line.column v = 1 := if_neg hv
        simp only [TxtbufContent.width, hdirect, hnewline, hreturn, hfeed, Bool.false_eq_true,
          or_self, if_false, ne_eq, not_false_eq_true, true_and]
        by_cases hv : v = 0x09
        · have := htab hv
          simp only at this
          omega
        · have := hone hv
          omega
    | big5 =>
      have hfits := hhandles.big5 rfl hdirect
      have hnot : ¬(line.column : ℤ) ≥ layout.charPerLine - 1 := by omega
      simp [Line.Fits, TxtbufContent.width, Line.breaksBefore, hdirect, hfits, hnot]
    | _ => simp [Line.Fits, TxtbufContent.width, Line.breaksBefore]

/-! ### What an iteration writes -/

@[simp] theorem marks_write (st : PageState) (o : Output) :
    (st.write o).marks = st.marks ++ o.marks := by
  simp [PageState.marks, PageState.write]

theorem marks_flushed (st : PageState) : st.flushed.marks = st.trace := by
  unfold PageState.trace PageState.marks PageState.flushed
  cases hempty : st.charStr with
  | nil => simp
  | cons b l => simp [Output.marks]

theorem trace_of_charStr_eq_nil (hempty : st.charStr = []) : st.trace = st.marks := by
  rw [PageState.trace, hempty, List.map_nil, List.append_nil]

theorem marks_turnPage (st : PageState) : st.turnPage.marks = st.marks :=
  (marks_write st (.nextPage (st.pageCount + 1))).trans (List.append_nil _)

theorem marks_openPage (st : PageState) : (openPage st).marks = st.marks := by
  unfold openPage
  split_ifs
  · exact (marks_write st (.startPage st.pageCount)).trans (List.append_nil _)
  · rfl

theorem trace_openPage (st : PageState) : (openPage st).trace = st.trace := by
  rw [PageState.trace, marks_openPage, PageState.trace]
  unfold openPage
  split_ifs <;> rfl

theorem marks_endLine (st : PageState) (inserted : Bool) :
    (st.endLine layout i inserted).marks = st.trace ++ [.lineEnd i inserted] := by
  have hwrite : (st.flushed.write (.lineEnd i inserted)).marks =
      st.trace ++ [.lineEnd i inserted] := by
    rw [marks_write, marks_flushed]
    rfl
  simp only [PageState.endLine]
  split_ifs
  · exact (marks_turnPage _).trans hwrite
  · exact hwrite

theorem charStr_endLine (st : PageState) (inserted : Bool) :
    (st.endLine layout i inserted).charStr = [] := by
  simp only [PageState.endLine]
  split_ifs <;> rfl

theorem trace_endLine (st : PageState) (inserted : Bool) :
    (st.endLine layout i inserted).trace = st.trace ++ [.lineEnd i inserted] := by
  rw [trace_of_charStr_eq_nil (charStr_endLine st inserted), marks_endLine]

theorem marks_formFeed (st : PageState) :
    (formFeed i st).marks = st.marks ++ [.formFeed i] :=
  (marks_turnPage _).trans (marks_write st (.formFeed i))

theorem marks_endText (st : PageState) : st.endText.marks = st.trace :=
  marks_flushed st

/-- What an iteration does at a character that is shown in the line or at direct coordinates. -/
theorem shown_direct (v : BitVec 32) (hdirect : st.useDirectXy ≠ 0) :
    st.shown layout i { type := .ascii, v := v } =
      st.write (.drawing i (.asciiText (escaped v))) :=
  if_pos hdirect

theorem shown_newline (hdirect : st.useDirectXy = 0) :
    st.shown layout i { type := .ascii, v := 0x0a } = st.endLine layout i false := by
  rw [PageState.shown, if_neg (not_not.mpr hdirect), if_pos rfl]

theorem shown_return (hdirect : st.useDirectXy = 0) :
    st.shown layout i { type := .ascii, v := 0x0d } = st := by
  rw [PageState.shown, if_neg (not_not.mpr hdirect), if_neg (by decide), if_pos rfl]

theorem shown_formFeed (hdirect : st.useDirectXy = 0) :
    st.shown layout i { type := .ascii, v := 0x0c } = formFeed i st := by
  rw [PageState.shown, if_neg (not_not.mpr hdirect), if_neg (by decide), if_neg (by decide),
    if_pos rfl]

theorem shown_char {v : BitVec 32} (hdirect : st.useDirectXy = 0) (hnewline : v ≠ 0x0a)
    (hreturn : v ≠ 0x0d) (hfeed : v ≠ 0x0c) :
    st.shown layout i { type := .ascii, v := v } = st.addChar i v := by
  rw [PageState.shown, if_neg (not_not.mpr hdirect), if_neg hnewline, if_neg hreturn,
    if_neg hfeed]

/-- What passes the waiting text is one mark that is no byte. -/
theorem Shows.marks_of_passesText (layout : Layout) (i : ℕ) (hshows : Shows line st)
    (hpasses : line.PassesText t) :
    ∃ m : Mark, (∀ b, m ≠ .byte b) ∧ (st.shown layout i t).marks = st.marks ++ [m] := by
  obtain ⟨type, v⟩ := t
  cases type with
  | ascii =>
    by_cases hdirect : st.useDirectXy = 0
    · have hline := hshows.useDirectXy_eq_zero_iff.mp hdirect
      obtain rfl : v = 0x0c := hpasses.resolve_left (by simp [hline])
      rw [shown_formFeed hdirect]
      exact ⟨_, fun _ ↦ Mark.noConfusion, marks_formFeed st⟩
    · rw [shown_direct v hdirect]
      exact ⟨_, fun _ ↦ Mark.noConfusion, marks_write _ _⟩
  | command =>
    simp only [PageState.shown, Ttpseng.showCommand]
    rcases (hpasses : v = 2 ∨ v = 3) with rfl | rfl
    · exact ⟨_, fun _ ↦ Mark.noConfusion, marks_write _ _⟩
    · exact ⟨_, fun _ ↦ Mark.noConfusion, marks_write _ _⟩
  | setSeFont => exact ⟨_, fun _ ↦ Mark.noConfusion, marks_write _ _⟩
  | setEFont => exact ⟨_, fun _ ↦ Mark.noConfusion, marks_write _ _⟩
  | _ => exact hpasses.elim

theorem charStr_endText (st : PageState) : st.endText.charStr = [] := rfl

/-- An output in front of which no text waits. -/
theorem trace_write_of_empty (hempty : st.charStr = []) (o : Output) :
    (st.write o).trace = st.trace ++ o.marks := by
  have hwritten : (st.write o).charStr = [] := hempty
  rw [trace_of_charStr_eq_nil hwritten, trace_of_charStr_eq_nil hempty, marks_write]

/-- An iteration that passes no waiting text adds the marks of its entry to the trace. -/
theorem Shows.trace_shown (hshows : Shows line st)
    (hinOrder : line.PassesText t → line.pending = 0) :
    (st.shown layout i t).trace = st.trace ++ t.marks i line := by
  have hempty (hpasses : line.PassesText t) : st.charStr = [] :=
    List.eq_nil_of_length_eq_zero (hshows.pending.trans (hinOrder hpasses))
  obtain ⟨type, v⟩ := t
  cases type with
  | ascii =>
    by_cases hdirect : st.useDirectXy = 0
    · have hline := hshows.useDirectXy_eq_zero_iff.mp hdirect
      simp only [TxtbufContent.marks, hline, Bool.false_eq_true, if_false]
      by_cases hnewline : v = 0x0a
      · subst hnewline
        rw [shown_newline hdirect, trace_endLine, if_pos rfl]
      · rw [if_neg hnewline]
        by_cases hreturn : v = 0x0d
        · subst hreturn
          rw [shown_return hdirect, if_pos rfl, List.append_nil]
        · rw [if_neg hreturn]
          by_cases hfeed : v = 0x0c
          · subst hfeed
            rw [shown_formFeed hdirect, if_pos rfl, trace_of_charStr_eq_nil rfl, marks_formFeed,
              trace_of_charStr_eq_nil (hempty (.inr rfl))]
          · rw [shown_char hdirect hnewline hreturn hfeed, if_neg hfeed, PageState.trace,
              PageState.trace, List.append_assoc, ← hshows.column]
            simp [PageState.addChar, PageState.marks]
    · have hline : line.direct = true := by
        rw [hshows.direct]
        simpa using hdirect
      rw [shown_direct v hdirect, trace_write_of_empty (hempty (.inl hline))]
      simp only [TxtbufContent.marks, hline, if_true]
      rfl
  | big5 =>
    simp only [PageState.shown]
    split_ifs
    · rw [trace_write_of_empty rfl, trace_of_charStr_eq_nil rfl, marks_endText]
      rfl
    · refine (trace_write_of_empty (charStr_endText st) (.dictChar i _ _ v)).trans ?_
      rw [trace_of_charStr_eq_nil rfl, marks_endText]
      rfl
  | setRgb =>
    refine (trace_write_of_empty (charStr_endText st) _).trans ?_
    rw [trace_of_charStr_eq_nil rfl, marks_endText]
    rfl
  | command =>
    simp only [PageState.shown, Ttpseng.showCommand, TxtbufContent.marks]
    by_cases hline : v = 2
    · rw [if_pos hline, if_pos hline]
      exact trace_write_of_empty (hempty (.inl hline)) _
    · rw [if_neg hline, if_neg hline]
      by_cases hbox : v = 3
      · rw [if_pos hbox, if_pos hbox]
        exact trace_write_of_empty (hempty (.inr hbox)) _
      · rw [if_neg hbox, if_neg hbox, List.append_nil]
  | setSeFont => exact trace_write_of_empty (hempty trivial) _
  | setEFont => exact trace_write_of_empty (hempty trivial) _
  | _ => exact (List.append_nil _).symm

theorem marks_shown_big5 (hbig5 : t.type = .big5) :
    (st.shown layout i t).marks = st.trace ++ [.drawing i (.glyph t.v)] := by
  simp only [PageState.shown, hbig5]
  split_ifs
  · rw [marks_write, marks_endText]
    rfl
  · refine (marks_write st.endText (.dictChar i _ _ t.v)).trans ?_
    rw [marks_endText]
    rfl

theorem Shows.marks_shown_tab (layout : Layout) (i : ℕ) (hshows : Shows line st)
    (hascii : t.type = .ascii) (hdirect : line.direct = false) (htab : t.v = 0x09) :
    (st.shown layout i t).marks = st.marks := by
  obtain ⟨type, v⟩ := t
  obtain rfl : type = .ascii := hascii
  obtain rfl : v = 0x09 := htab
  rw [shown_char (hshows.useDirectXy_eq_zero_iff.mpr hdirect) (by decide) (by decide) (by decide)]
  rfl

/-! ### Outputs stay -/

/-- What is written stays, and line breaks are inserted in front of entries from number `i` on. -/
def Grows (i : ℕ) (st st' : PageState) : Prop :=
  ∃ l, st'.out = st.out ++ l ∧ ∀ j, Output.lineEnd j true ∈ l → i ≤ j

theorem Grows.of_out_eq (hout : st'.out = st.out) : Grows i st st' :=
  ⟨[], by rw [hout, List.append_nil], fun _ hmem ↦ absurd hmem List.not_mem_nil⟩

theorem Grows.trans {st'' : PageState} (hfirst : Grows i st st') (hlast : Grows i st' st'') :
    Grows i st st'' := by
  obtain ⟨first, hout, hfirst⟩ := hfirst
  obtain ⟨last, hout', hlast⟩ := hlast
  refine ⟨first ++ last, by rw [hout', hout, List.append_assoc], fun j hmem ↦ ?_⟩
  exact (List.mem_append.mp hmem).elim (hfirst j) (hlast j)

theorem Grows.mono {j : ℕ} (hle : i ≤ j) (hgrows : Grows j st st') : Grows i st st' := by
  obtain ⟨l, hout, hlast⟩ := hgrows
  exact ⟨l, hout, fun k hmem ↦ hle.trans (hlast k hmem)⟩

theorem Grows.write (st : PageState) (o : Output) (ho : ∀ j, o = .lineEnd j true → i ≤ j) :
    Grows i st (st.write o) :=
  ⟨[o], rfl, fun j hmem ↦ ho j (List.mem_singleton.mp hmem).symm⟩

theorem Grows.flushed (st : PageState) : Grows i st st.flushed := by
  cases hempty : st.charStr.isEmpty with
  | true => exact .of_out_eq (by simp [PageState.flushed, hempty])
  | false =>
    refine ⟨[.asciiString st.xx st.yy st.charStr], by simp [PageState.flushed, hempty], ?_⟩
    exact fun j hmem ↦ Output.noConfusion (List.mem_singleton.mp hmem)

theorem Grows.turnPage (st : PageState) : Grows i st st.turnPage :=
  Grows.write st _ fun _ ↦ Output.noConfusion

theorem Grows.openPage (st : PageState) : Grows i st (openPage st) := by
  unfold Ttpseng.openPage
  split_ifs
  · exact Grows.write st _ fun _ ↦ Output.noConfusion
  · exact .of_out_eq rfl

theorem Grows.endLine (st : PageState) : Grows i st (st.endLine layout i inserted) := by
  have hline : Grows i st (st.flushed.write (.lineEnd i inserted)) := by
    refine (Grows.flushed st).trans (.write _ _ fun j heq ↦ ?_)
    exact (Output.lineEnd.inj heq).1.le
  simp only [PageState.endLine]
  split_ifs
  · exact hline.trans (.turnPage _)
  · exact hline

theorem Grows.shown (layout : Layout) (i : ℕ) (t : TxtbufContent) (st : PageState) :
    Grows i st (st.shown layout i t) := by
  have hwrite (st : PageState) (d : Drawing) : Grows i st (st.write (.drawing i d)) :=
    .write st _ fun _ ↦ Output.noConfusion
  obtain ⟨type, v⟩ := t
  cases type with
  | ascii =>
    simp only [PageState.shown]
    split_ifs
    · exact hwrite st _
    · exact .endLine st
    · exact .of_out_eq rfl
    · exact (Grows.write st (.formFeed i) fun _ ↦ Output.noConfusion).trans (.turnPage _)
    · exact .of_out_eq rfl
  | big5 =>
    simp only [PageState.shown]
    split_ifs
    · exact (Grows.flushed st).trans (hwrite st.endText _)
    · refine (Grows.flushed st).trans ?_
      exact Grows.write st.endText (.dictChar i _ _ v) fun _ ↦ Output.noConfusion
  | setRgb => exact (Grows.flushed st).trans (hwrite st.endText _)
  | command =>
    simp only [PageState.shown, showCommand]
    split_ifs
    · exact hwrite st _
    · exact hwrite st _
    · exact .of_out_eq rfl
  | setSeFont => exact hwrite st _
  | setEFont => exact hwrite st _
  | _ => exact .of_out_eq rfl

theorem Grows.marks (hgrows : Grows i st st') : ∃ l, st'.marks = st.marks ++ l := by
  obtain ⟨l, hout, -⟩ := hgrows
  exact ⟨l.flatMap Output.marks, by rw [PageState.marks, hout, List.flatMap_append]; rfl⟩

/-- No mark of an inserted line break is for an earlier entry. -/
theorem Grows.le_of_mem {l : List Mark} (hgrows : Grows i st st')
    (hmarks : st'.marks = st.marks ++ l) {j : ℕ} (hmem : Mark.lineEnd j true ∈ l) : i ≤ j := by
  obtain ⟨added, hout, hadded⟩ := hgrows
  have hl : l = added.flatMap Output.marks := by
    refine (List.append_right_inj st.marks).mp (hmarks.symm.trans ?_)
    rw [PageState.marks, hout, List.flatMap_append]
    rfl
  rw [hl, List.mem_flatMap] at hmem
  obtain ⟨o, ho, hmark⟩ := hmem
  cases o with
  | lineEnd k b =>
    obtain ⟨rfl, rfl⟩ := Mark.lineEnd.inj (List.mem_singleton.mp hmark)
    exact hadded _ ho
  | asciiString x y str =>
    obtain ⟨b, -, heq⟩ := List.mem_map.mp hmark
    exact Mark.noConfusion heq
  | startPage page => exact absurd hmark List.not_mem_nil
  | nextPage page => exact absurd hmark List.not_mem_nil
  | dictChar k x y c => exact Mark.noConfusion (List.mem_singleton.mp hmark)
  | drawing k d => exact Mark.noConfusion (List.mem_singleton.mp hmark)
  | formFeed k => exact Mark.noConfusion (List.mem_singleton.mp hmark)

/-- The strings of an entry that is handled, on any line with the same kind of output. -/
theorem Line.Handles.fitsDirStr {l : Line} (hhandles : line.Handles layout t)
    (hdirect : l.direct = line.direct) : ∀ m ∈ t.marks i l, m.FitsDirStr := by
  intro m hmem
  obtain ⟨type, v⟩ := t
  cases type with
  | ascii =>
    simp only [TxtbufContent.marks] at hmem
    by_cases hline : l.direct = true
    · rw [if_pos hline] at hmem
      obtain rfl := List.mem_singleton.mp hmem
      simp [Mark.FitsDirStr, escaped, hhandles.dirStr rfl (hdirect ▸ hline)]
    · rw [if_neg hline] at hmem
      split_ifs at hmem
      · obtain rfl := List.mem_singleton.mp hmem
        trivial
      · exact absurd hmem List.not_mem_nil
      · obtain rfl := List.mem_singleton.mp hmem
        trivial
      · obtain ⟨byte, -, rfl⟩ := List.mem_map.mp hmem
        trivial
  | command =>
    simp only [TxtbufContent.marks] at hmem
    split_ifs at hmem
    · obtain rfl := List.mem_singleton.mp hmem
      trivial
    · obtain rfl := List.mem_singleton.mp hmem
      trivial
    · exact absurd hmem List.not_mem_nil
  | big5 =>
    obtain rfl := List.mem_singleton.mp hmem
    trivial
  | setRgb =>
    obtain rfl := List.mem_singleton.mp hmem
    trivial
  | setSeFont =>
    obtain rfl := List.mem_singleton.mp hmem
    trivial
  | setEFont =>
    obtain rfl := List.mem_singleton.mp hmem
    trivial
  | _ => exact absurd hmem List.not_mem_nil

/-! ### Whole runs -/

/-- From a state in front of the entry with number `i`, the loop ends, and with it the page
engine. -/
def Produces (layout : Layout) (i : ℕ) (tokens : List TxtbufContent) (st st' : PageState) : Prop :=
  ∃ fuel, (showTokens layout fuel i tokens st >>= finish) = .ok st'

/-- The state behind the rest of the text. -/
def PageState.finished (st : PageState) : PageState :=
  if st.charStr.length > 0 ∨ st.yy > 0 then st.flushed.turnPage else st.flushed

theorem marks_finished (st : PageState) : st.finished.marks = st.trace := by
  unfold PageState.finished
  split_ifs
  · rw [marks_turnPage, marks_flushed]
  · exact marks_flushed st

theorem Grows.finished (st : PageState) : Grows i st st.finished := by
  unfold PageState.finished
  split_ifs
  · exact (Grows.flushed st).trans (.turnPage _)
  · exact .flushed st

theorem finish_eq_ok_iff :
    finish st = .ok st' ↔ st.charStr.length < maxline * 2 ∧ st' = st.finished := by
  by_cases hflush : st.charStr.length < maxline * 2
  · have hfinish : finish st = .ok st.finished := by
      rw [finish, PageState.flush, if_pos hflush]
      rfl
    rw [hfinish, Except.ok.injEq]
    exact ⟨fun heq ↦ ⟨hflush, heq.symm⟩, fun h ↦ h.2.symm⟩
  · rw [finish_overflow hflush]
    exact ⟨fun heq ↦ (by cases heq), fun h ↦ absurd h.1 hflush⟩

theorem Shows.produces_nil_iff (hshows : Shows line st) :
    Produces layout i [] st st' ↔ line.CanFlush ∧ st' = st.finished := by
  rw [hshows.canFlush_iff, ← finish_eq_ok_iff]
  constructor
  · rintro ⟨fuel, hrun⟩
    rw [showTokens] at hrun
    exact hrun
  · intro hfinish
    exact ⟨0, by rw [showTokens]; exact hfinish⟩

/-- A run is an iteration and the rest of the run. -/
theorem produces_cons_iff :
    Produces layout i (t :: rest) st st' ↔ ∃ next back, showToken layout i t st = .ok (next, back) ∧
      if back then Produces layout i (t :: rest) next st'
      else Produces layout (i + 1) rest next st' := by
  constructor
  · rintro ⟨fuel, hrun⟩
    cases fuel with
    | zero =>
      rw [showTokens] at hrun
      cases hrun
    | succ fuel =>
      cases hstep : showToken layout i t st with
      | error fault =>
        rw [showTokens, hstep] at hrun
        cases hrun
      | ok result =>
        obtain ⟨next, back⟩ := result
        rw [showTokens_of_showToken hstep] at hrun
        refine ⟨next, back, rfl, ?_⟩
        cases back with
        | true => exact ⟨fuel, hrun⟩
        | false => exact ⟨fuel, hrun⟩
  · rintro ⟨next, back, hstep, hrest⟩
    cases back with
    | true =>
      obtain ⟨fuel, hrun⟩ := hrest
      exact ⟨fuel + 1, by rw [showTokens_of_showToken hstep]; exact hrun⟩
    | false =>
      obtain ⟨fuel, hrun⟩ := hrest
      exact ⟨fuel + 1, by rw [showTokens_of_showToken hstep]; exact hrun⟩

theorem produces_of_error {fault : Fault} (hstep : showToken layout i t st = .error fault) :
    ¬Produces layout i (t :: rest) st st' := by
  rw [produces_cons_iff, hstep]
  rintro ⟨next, back, heq, -⟩
  cases heq

theorem Shows.produces_keep_iff (hshows : Shows line st)
    (hkeep : line.breaksBefore layout t = false) :
    Produces layout i (t :: rest) st st' ↔ line.HasRoom t ∧
      Produces layout (i + 1) rest ((Ttpseng.openPage st).shown layout i t) st' := by
  rcases hshows.showToken_keep (i := i) hkeep with ⟨hroom, hstep⟩ | ⟨hroom, hstep⟩
  · rw [produces_cons_iff, hstep]
    constructor
    · rintro ⟨next, back, heq, hrest⟩
      obtain ⟨rfl, rfl⟩ := Prod.mk.inj (Except.ok.inj heq)
      exact ⟨hroom, hrest⟩
    · rintro ⟨-, hrest⟩
      exact ⟨_, _, rfl, hrest⟩
  · exact iff_of_false (produces_of_error hstep) fun h ↦ hroom h.1

theorem Shows.produces_break_iff (hshows : Shows line st) (hascii : t.type = .ascii)
    (hbreak : line.breaksBefore layout t = true) :
    Produces layout i (t :: rest) st st' ↔ line.CanFlush ∧
      Produces layout i (t :: rest) ((Ttpseng.openPage st).endLine layout i true) st' := by
  rcases hshows.showToken_break (i := i) hascii hbreak with ⟨hflush, hstep⟩ | ⟨hflush, hstep⟩
  · rw [produces_cons_iff, hstep]
    constructor
    · rintro ⟨next, back, heq, hrest⟩
      obtain ⟨rfl, rfl⟩ := Prod.mk.inj (Except.ok.inj heq)
      exact ⟨hflush, hrest⟩
    · rintro ⟨-, hrest⟩
      exact ⟨_, _, rfl, hrest⟩
  · exact iff_of_false (produces_of_error hstep) fun h ↦ hflush h.1

/-- At a BIG5 character that does not fit, the loop stays. -/
theorem Shows.not_produces_stall (hshows : Shows line st) (hbig5 : t.type = .big5)
    (hbreak : line.breaksBefore layout t = true) : ¬Produces layout i (t :: rest) st st' := by
  rintro ⟨fuel, hrun⟩
  induction fuel generalizing line st with
  | zero =>
    rw [showTokens] at hrun
    cases hrun
  | succ fuel ih =>
    rcases hshows.showToken_stall (i := i) hbig5 hbreak with ⟨-, next, hstep, hnext⟩ | ⟨-, hstep⟩
    · rw [showTokens_of_showToken hstep, if_pos rfl] at hrun
      exact ih hnext (breaksBefore_stall hbig5 hbreak) hrun
    · exact produces_of_error hstep ⟨_, hrun⟩

/-- What two iterations leave that break the line in front of a character and show it. -/
def PageState.wrapped (st : PageState) (layout : Layout) (i : ℕ) (t : TxtbufContent) : PageState :=
  (openPage ((openPage st).endLine layout i true)).shown layout i t

theorem Grows.wrapped (st : PageState) : Grows i st (st.wrapped layout i t) := by
  have hline : Grows i st ((Ttpseng.openPage st).endLine layout i true) :=
    (Grows.openPage st).trans (.endLine _)
  exact hline.trans ((Grows.openPage _).trans (.shown layout i t _))

theorem breaksBefore_broken (hwidth : 2 ≤ layout.charPerLine) :
    line.broken.breaksBefore layout t = false := by
  have hascii : ¬((0 : ℕ) : ℤ) > layout.charPerLine - 1 := by omega
  have hbig5 : ¬((0 : ℕ) : ℤ) ≥ layout.charPerLine - 1 := by omega
  simp only [Line.breaksBefore, Line.broken, hascii, hbig5, decide_false, Bool.and_false,
    Bool.or_false]

theorem Shows.wrapped (hshows : Shows line st) :
    Shows (line.broken.after t) (st.wrapped layout i t) :=
  hshows.openPage.endLine.openPage.after layout i t

section Broken

variable (hwidth : 2 ≤ layout.charPerLine) (hshows : Shows line st)

include hwidth hshows

theorem Shows.produces_wrapped_iff (hascii : t.type = .ascii)
    (hbreak : line.breaksBefore layout t = true) :
    Produces layout i (t :: rest) st st' ↔ line.CanFlush ∧ line.broken.HasRoom t ∧
      Produces layout (i + 1) rest (st.wrapped layout i t) st' := by
  rw [hshows.produces_break_iff hascii hbreak,
    hshows.openPage.endLine.produces_keep_iff (breaksBefore_broken hwidth)]
  rfl

/-- A run writes behind what is written. -/
theorem Shows.grows (hrun : Produces layout i tokens st st') : Grows i st st' := by
  induction tokens generalizing i line st with
  | nil =>
    obtain ⟨-, rfl⟩ := hshows.produces_nil_iff.mp hrun
    exact .finished st
  | cons t rest ih =>
    cases hbreak : line.breaksBefore layout t with
    | false =>
      obtain ⟨-, hrest⟩ := (hshows.produces_keep_iff hbreak).mp hrun
      have hnext := ih (hshows.openPage.after layout i t) hrest
      exact (Grows.openPage st).trans ((Grows.shown layout i t _).trans (hnext.mono i.le_succ))
    | true =>
      rcases type_of_breaksBefore hbreak with hascii | hbig5
      · obtain ⟨-, -, hrest⟩ := (hshows.produces_wrapped_iff hwidth hascii hbreak).mp hrun
        have hnext := ih hshows.wrapped hrest
        exact (Grows.wrapped st).trans (hnext.mono i.le_succ)
      · exact absurd hrun (hshows.not_produces_stall hbig5 hbreak)

end Broken

theorem Shows.trace_wrapped (hshows : Shows line st)
    (hinOrder : line.broken.PassesText t → line.broken.pending = 0) :
    (st.wrapped layout i t).trace = st.trace ++ .lineEnd i true :: t.marks i line.broken := by
  rw [PageState.wrapped, hshows.openPage.endLine.openPage.trace_shown hinOrder, trace_openPage,
    trace_endLine, trace_openPage, List.append_assoc, List.singleton_append]

/-! ### The exact condition -/

section Exact

variable (hwrap : layout.wrap = true) (hwidth : 2 ≤ layout.charPerLine)

include hwrap in
theorem WrapClean.fitsDirStr (hclean : WrapClean layout line tokens) :
    ∀ m ∈ expected layout i line tokens, m.FitsDirStr := by
  induction tokens generalizing i line with
  | nil => exact fun m hmem ↦ absurd hmem List.not_mem_nil
  | cons t rest ih =>
    intro m hmem
    rw [expected] at hmem
    cases hbreak : line.breaksBefore layout t with
    | false =>
      obtain ⟨hhandles, -, hrest⟩ := (wrapClean_cons_of_keep hbreak).mp hclean
      rw [if_pos ((hhandles.fits_iff hwrap).mpr hbreak), List.mem_append] at hmem
      exact hmem.elim (hhandles.fitsDirStr rfl m) (ih hrest m)
    | true =>
      obtain ⟨hhandles, -, -, hrest⟩ := (wrapClean_cons_of_break hbreak).mp hclean
      have hfits : ¬line.Fits layout t := by simp [hhandles.fits_iff hwrap, hbreak]
      rw [if_neg hfits, List.mem_cons, List.mem_append] at hmem
      rcases hmem with rfl | hmem | hmem
      · trivial
      · exact hhandles.fitsDirStr (l := line.broken) rfl m hmem
      · exact ih hrest m hmem

include hwrap in
/-- An entry without a line break in front of it, in a run that has written what is expected. -/
theorem Shows.handles_of_keep (hshows : Shows line st) (hkeep : line.breaksBefore layout t = false)
    (hgrows : Grows (i + 1) (st.shown layout i t) st') (hstrings : ∀ m ∈ st'.marks, m.FitsDirStr)
    (hmarks : st'.marks = st.trace ++ expected layout i line (t :: rest)) :
    line.Handles layout t where
  inOrder hpasses := by
    by_contra hpending
    obtain ⟨m, hm, hshown⟩ := hshows.marks_of_passesText layout i hpasses
    obtain ⟨l, hl⟩ := hgrows.marks
    obtain ⟨b, text, htext⟩ := List.exists_cons_of_length_pos
      (hshows.pending.symm ▸ Nat.pos_of_ne_zero hpending)
    rw [hmarks, hshown, PageState.trace, htext, List.append_assoc, List.append_assoc] at hl
    exact hm b (List.cons.inj (List.append_cancel_left hl)).1.symm
  dirStr hascii hdirect := by
    have hfits : line.Fits layout t := .inl (by simp [TxtbufContent.width, hascii, hdirect])
    have hmem : Mark.drawing i (.asciiText (escaped t.v)) ∈ st'.marks := by
      rw [hmarks, expected, if_pos hfits]
      simp [TxtbufContent.marks, hascii, hdirect]
    have hlength := hstrings _ hmem
    by_contra hescaped
    rw [Mark.FitsDirStr, escaped, if_pos (by simpa using hescaped)] at hlength
    exact absurd hlength (Nat.lt_irrefl 3)
  big5 hbig5 hdirect := by
    by_contra hnot
    have hfits : ¬line.Fits layout t := by
      simpa [Line.Fits, TxtbufContent.width, hbig5, hdirect] using hnot
    obtain ⟨l, hl⟩ := hgrows.marks
    rw [marks_shown_big5 hbig5, hmarks, expected, if_neg hfits, List.append_assoc] at hl
    exact Mark.noConfusion (List.cons.inj (List.append_cancel_left hl)).1
  tab hascii hdirect htab := by
    by_contra hnot
    have hfits : ¬line.Fits layout t := by
      have hpos := charColumns_pos line.column t.v
      have hwidth : t.width line = charColumns line.column t.v := by
        simp [TxtbufContent.width, hascii, hdirect, htab]
      rw [Line.Fits, hwidth]
      omega
    have hshown := hshows.marks_shown_tab layout i hascii hdirect htab
    obtain ⟨l, hl⟩ := hgrows.marks
    have hcut : .lineEnd i true ∈ l := by
      rw [hshown, hmarks, expected, if_neg hfits, PageState.trace, List.append_assoc] at hl
      rw [← List.append_cancel_left hl]
      simp
    exact Nat.not_succ_le_self i (hgrows.le_of_mem hl hcut)
  formFeed hascii hdirect hfeed := by
    have hnot := mt (breaksBefore_ascii_iff hwrap hascii hdirect).mpr (Bool.eq_false_iff.mp hkeep)
    by_contra hfull
    exact hnot ⟨by rw [hfeed]; decide, by rw [hfeed]; decide, Int.not_lt.mp hfull⟩

include hwrap in
/-- An entry with a line break in front of it, in a run that has written what is expected. -/
theorem Line.handles_of_break (hascii : t.type = .ascii)
    (hbreak : line.breaksBefore layout t = true) (hgrows : Grows i (st.endLine layout i true) st')
    (hmarks : st'.marks = st.trace ++ expected layout i line (t :: rest)) :
    line.Handles layout t := by
  have hdirect := direct_of_breaksBefore hbreak
  have hfull := ((breaksBefore_ascii_iff hwrap hascii hdirect).mp hbreak).2.2
  have hfeed : t.v ≠ 0x0c := by
    intro hfeed
    have hfits : line.Fits layout t := .inl (by simp [TxtbufContent.width, hascii, hfeed])
    have hhead : t.marks i line = [.formFeed i] := by
      simp [TxtbufContent.marks, hascii, hdirect, hfeed]
    obtain ⟨l, hl⟩ := hgrows.marks
    rw [marks_endLine, hmarks, expected, if_pos hfits, hhead, List.append_assoc] at hl
    exact Mark.noConfusion (List.cons.inj (List.append_cancel_left hl)).1
  exact {
    inOrder := fun hpasses ↦ by
      rw [Line.PassesText, hascii] at hpasses
      exact absurd (hpasses.resolve_left (by simp [hdirect])) hfeed
    dirStr := fun _ h ↦ absurd (h.symm.trans hdirect) (by decide)
    big5 := fun h _ ↦ absurd (h.symm.trans hascii) (by decide)
    tab := fun _ _ _ ↦ .inl hfull
    formFeed := fun _ _ h ↦ absurd h hfeed }

include hwrap hwidth in
/-- Where every entry is handled, the loop ends and has written what is expected. -/
theorem WrapClean.exists_produces (hclean : WrapClean layout line tokens)
    (hshows : Shows line st) :
    ∃ st', Produces layout i tokens st st' ∧
      st'.marks = st.trace ++ expected layout i line tokens := by
  induction tokens generalizing i line st with
  | nil =>
    refine ⟨st.finished, hshows.produces_nil_iff.mpr ⟨hclean, rfl⟩, ?_⟩
    rw [marks_finished, expected, List.append_nil]
  | cons t rest ih =>
    cases hbreak : line.breaksBefore layout t with
    | false =>
      obtain ⟨hhandles, hroom, hrest⟩ := (wrapClean_cons_of_keep hbreak).mp hclean
      obtain ⟨st', hrun, hmarks⟩ := ih (i := i + 1) hrest (hshows.openPage.after layout i t)
      refine ⟨st', (hshows.produces_keep_iff hbreak).mpr ⟨hroom, hrun⟩, ?_⟩
      rw [hmarks, hshows.openPage.trace_shown hhandles.inOrder, trace_openPage, expected,
        if_pos ((hhandles.fits_iff hwrap).mpr hbreak), List.append_assoc]
    | true =>
      obtain ⟨hhandles, hflush, hroom, hrest⟩ := (wrapClean_cons_of_break hbreak).mp hclean
      have hdirect := direct_of_breaksBefore hbreak
      have hfits : ¬line.Fits layout t := by simp [hhandles.fits_iff hwrap, hbreak]
      rcases type_of_breaksBefore hbreak with hascii | hbig5
      · obtain ⟨st', hrun, hmarks⟩ :=
          ih (i := i + 1) hrest hshows.wrapped
        refine ⟨st', (hshows.produces_wrapped_iff hwidth hascii hbreak).mpr
          ⟨hflush, hroom, hrun⟩, ?_⟩
        rw [hmarks, hshows.trace_wrapped fun _ ↦ rfl, expected, if_neg hfits, List.append_assoc,
          List.cons_append]
      · refine absurd (.inr ?_) hfits
        simpa [TxtbufContent.width, hbig5, hdirect] using hhandles.big5 hbig5 hdirect

include hwrap hwidth in
/-- A run that has written what is expected met only entries that are handled. -/
theorem WrapClean.of_produces (hshows : Shows line st) (hrun : Produces layout i tokens st st')
    (hstrings : ∀ m ∈ st'.marks, m.FitsDirStr)
    (hmarks : st'.marks = st.trace ++ expected layout i line tokens) :
    WrapClean layout line tokens := by
  induction tokens generalizing i line st with
  | nil => exact (hshows.produces_nil_iff.mp hrun).1
  | cons t rest ih =>
    cases hbreak : line.breaksBefore layout t with
    | false =>
      obtain ⟨hroom, hrest⟩ := (hshows.produces_keep_iff hbreak).mp hrun
      have hnext := hshows.openPage.after layout i t
      have hgrows := hnext.grows hwidth hrest
      have hhandles : line.Handles layout t :=
        hshows.openPage.handles_of_keep hwrap hbreak hgrows hstrings
          ((trace_openPage st).symm ▸ hmarks)
      refine (wrapClean_cons_of_keep hbreak).mpr ⟨hhandles, hroom, ih hnext hrest ?_⟩
      rw [hmarks, hshows.openPage.trace_shown hhandles.inOrder, trace_openPage, expected,
        if_pos ((hhandles.fits_iff hwrap).mpr hbreak), List.append_assoc]
    | true =>
      rcases type_of_breaksBefore hbreak with hascii | hbig5
      · obtain ⟨hflush, hroom, hrest⟩ := (hshows.produces_wrapped_iff hwidth hascii hbreak).mp hrun
        have hnext : Shows (line.broken.after t) (st.wrapped layout i t) := hshows.wrapped
        have hhandles : line.Handles layout t := by
          refine Line.handles_of_break hwrap hascii hbreak ?_
            ((trace_openPage st).symm ▸ hmarks)
          refine (Grows.openPage _).trans ((Grows.shown layout i t _).trans ?_)
          exact (hnext.grows hwidth hrest).mono i.le_succ
        have hfits : ¬line.Fits layout t := by simp [hhandles.fits_iff hwrap, hbreak]
        refine (wrapClean_cons_of_break hbreak).mpr ⟨hhandles, hflush, hroom, ih hnext hrest ?_⟩
        rw [hmarks, hshows.trace_wrapped fun _ ↦ rfl, expected, if_neg hfits, List.append_assoc,
          List.cons_append]
      · exact absurd hrun (hshows.not_produces_stall hbig5 hbreak)

end Exact

end Katmai.Ttpseng
