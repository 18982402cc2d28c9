import Katmai.Ttpseng.ShowPage

/-!
# The line buffer of the page engine

`Line` is what the text in front of an entry amounts to: the column it ends in, the bytes of it that
wait for output, and whether output goes to direct coordinates. `Line.after` says what one entry
makes of it, and `Shows` that the variables of the loop agree with it. An iteration that inserts a
line break starts the line anew, and every other one takes the line to the next (`showToken_break`,
`showToken_keep`); it stores behind the end of the buffer exactly if there is no room for the bytes
of the entry (`Line.HasRoom`). `TextFits` puts these conditions together along the entries: it holds
exactly if no run of the loop stores behind the end (`tteShowpage_inBounds_iff`).
-/

set_option autoImplicit false
set_option relaxedAutoImplicit false

namespace Katmai.Ttpseng

variable {layout : Layout} {st st' : PageState} {t : TxtbufContent} {i fuel : ℕ}
  {c : BitVec 32} {inserted : Bool}

/-! ### The text in front of an entry -/

structure Line where
  column : ℕ
  pending : ℕ
  direct : Bool

/-- The line in front of the first entry. -/
def Line.start : Line where
  column := 0
  pending := 0
  direct := false

/-- The columns that a character takes from a column on. -/
def charColumns (column : ℕ) (c : BitVec 32) : ℕ :=
  if c = 0x09 then 8 - column % 8 else 1

/-- The bytes that a character takes in the buffer. -/
def charBytes (column : ℕ) (c : BitVec 32) : List (BitVec 8) :=
  if c = 0x09 then List.replicate (8 - column % 8) 0x20 else escaped c

/-- The line behind an entry in front of which no line break is inserted. -/
def Line.after (line : Line) (t : TxtbufContent) : Line :=
  match t.type with
  | .ascii =>
    if line.direct then line
    else if t.v = 0x0a ∨ t.v = 0x0c then { line with column := 0, pending := 0 }
    else if t.v = 0x0d then line
    else
      { line with
        column := line.column + charColumns line.column t.v
        pending := line.pending + (charBytes line.column t.v).length }
  | .big5 =>
    { line with column := if line.direct then line.column else line.column + 2, pending := 0 }
  | .setRgb => { line with pending := 0 }
  | .setUseDirectXy => { line with direct := t.v != 0 }
  | _ => line

/-- The line behind an inserted line break. -/
def Line.broken (line : Line) : Line :=
  { line with column := 0, pending := 0 }

/-- The test for a line break, on the line. -/
def Line.breaksBefore (layout : Layout) (line : Line) (t : TxtbufContent) : Bool :=
  !line.direct && layout.wrap && t.v != 0x0d && t.v != 0x0a &&
    (t.type == .ascii && decide ((line.column : ℤ) > layout.charPerLine - 1) ||
      t.type == .big5 && decide ((line.column : ℤ) ≥ layout.charPerLine - 1))

/-- The waiting text can be written: the buffer has room for the zero behind it. -/
def Line.CanFlush (line : Line) : Prop :=
  line.pending < maxline * 2

/-- The buffer has room for what the entry stores. -/
def Line.HasRoom (line : Line) (t : TxtbufContent) : Prop :=
  match t.type with
  | .ascii =>
    line.direct = true ∨ t.v = 0x0d ∨ t.v = 0x0c ∨ (t.v = 0x0a ∧ line.CanFlush) ∨
      (t.v ≠ 0x0a ∧ line.pending + (charBytes line.column t.v).length ≤ maxline * 2)
  | .big5 | .setRgb => line.CanFlush
  | _ => True

/-- The variables of the loop agree with the line. -/
structure Shows (line : Line) (st : PageState) : Prop where
  column : st.rx = line.column
  balance : st.xx + st.charStr.length = st.rx + st.slashCnt
  pending : st.charStr.length = line.pending
  direct : line.direct = (st.useDirectXy != 0)

theorem Shows.init : Shows Line.start PageState.init :=
  ⟨rfl, rfl, rfl, rfl⟩

theorem Shows.wraps_eq {line : Line} (hshows : Shows line st) :
    wraps layout t st = line.breaksBefore layout t := by
  have hcolumn : (st.xx + st.charStr.length : ℤ) - st.slashCnt = line.column := by
    have hbalance := hshows.balance
    have hrx := hshows.column
    omega
  have hdirect : (st.useDirectXy == 0) = !line.direct := by rw [hshows.direct, bne, Bool.not_not]
  rw [wraps, hcolumn, hdirect, Line.breaksBefore]

/-! ### Stores -/

theorem store_eq (st : PageState) (i : ℕ) (byte : BitVec 8)
    (hlt : st.charStr.length < maxline * 2) :
    st.store i byte = .ok { st with charStr := st.charStr ++ [{ token := i, byte := byte }] } :=
  if_pos hlt

theorem store_overflow (st : PageState) (i : ℕ) (byte : BitVec 8)
    (hge : ¬st.charStr.length < maxline * 2) :
    st.store i byte = .error .overflow :=
  if_neg hge

/-- The state behind the bytes of a character. -/
def PageState.addChar (st : PageState) (i : ℕ) (c : BitVec 32) : PageState :=
  { st with
    rx := st.rx + charColumns st.rx c
    slashCnt := st.slashCnt + if isEscaped c then 1 else 0
    charStr := st.charStr ++ (charBytes st.rx c).map fun byte ↦ { token := i, byte := byte } }

/-- The state behind `n` blanks of a tab. -/
def PageState.addBlanks (st : PageState) (i n : ℕ) : PageState :=
  { st with
    rx := st.rx + n
    charStr := st.charStr ++ List.replicate n { token := i, byte := 0x20 } }

theorem addBlanks_addBlanks (st : PageState) (i m n : ℕ) :
    (st.addBlanks i m).addBlanks i n = st.addBlanks i (m + n) := by
  simp [PageState.addBlanks, Nat.add_assoc]

/-- One blank is stored and the column counted, in either order. -/
theorem storeBlank_eq (hlt : st.charStr.length < maxline * 2) :
    { st with rx := st.rx + 1 }.store i 0x20 = .ok (st.addBlanks i 1) :=
  if_pos hlt

/-- The loop of a tab stores the blanks to the next tab stop, if the buffer has room for them. -/
theorem padTab_eq (n fuel : ℕ) (st : PageState) (hn : n = (8 - st.rx % 8) % 8) (hfuel : n < fuel)
    (hle : st.charStr.length ≤ maxline * 2) :
    padTab i fuel st =
      if st.charStr.length + n ≤ maxline * 2 then .ok (st.addBlanks i n)
      else .error .overflow := by
  obtain ⟨fuel, rfl⟩ := Nat.exists_eq_add_one_of_ne_zero (Nat.ne_zero_of_lt hfuel)
  induction n generalizing st fuel with
  | zero =>
    rw [padTab, if_neg (by omega), if_pos (by omega)]
    simp [PageState.addBlanks]
  | succ n ih =>
    obtain ⟨fuel, rfl⟩ := Nat.exists_eq_add_one_of_ne_zero
      (Nat.ne_zero_of_lt (Nat.lt_of_succ_lt_succ hfuel))
    rw [padTab, if_pos (by omega)]
    by_cases hlt : st.charStr.length < maxline * 2
    · have hlength : (st.addBlanks i 1).charStr.length = st.charStr.length + 1 := by
        simp [PageState.addBlanks]
      have hrest := ih (st.addBlanks i 1) (by simp only [PageState.addBlanks]; omega)
        (by omega) fuel (by omega)
      rw [store_eq st i 0x20 hlt]
      change padTab i (fuel + 1) (st.addBlanks i 1) = _
      rw [hrest, hlength, addBlanks_addBlanks, Nat.add_assoc, Nat.add_comm 1 n]
    · rw [store_overflow st i 0x20 hlt, if_neg (by omega)]
      rfl

theorem addChar_tab (st : PageState) (i : ℕ) :
    st.addChar i 0x09 = st.addBlanks i (8 - st.rx % 8) := by
  simp [PageState.addChar, PageState.addBlanks, charColumns, charBytes, isEscaped]

/-- A tab is stored as its blanks. -/
theorem showAscii_tab (hdirect : st.useDirectXy = 0) :
    showAscii layout i 0x09 inserted st =
      if st.charStr.length + (8 - st.rx % 8) ≤ maxline * 2 then .ok (st.addChar i 0x09)
      else .error .overflow := by
  rw [showAscii, if_neg (not_not.mpr hdirect), if_neg (by decide), if_neg (by decide),
    if_neg (by decide), if_pos rfl, addChar_tab]
  by_cases hlt : st.charStr.length < maxline * 2
  · have hlength : (st.addBlanks i 1).charStr.length = st.charStr.length + 1 := by
      simp [PageState.addBlanks]
    have hrx : (st.addBlanks i 1).rx = st.rx + 1 := rfl
    have hpad := padTab_eq (i := i) ((8 - (st.rx + 1) % 8) % 8) 8 (st.addBlanks i 1) (by rw [hrx])
      (Nat.mod_lt _ (by decide)) (by rw [hlength]; exact hlt)
    have htotal : 1 + (8 - (st.rx + 1) % 8) % 8 = 8 - st.rx % 8 := by omega
    rw [storeBlank_eq hlt]
    change padTab i 8 (st.addBlanks i 1) = _
    rw [hpad, hlength, addBlanks_addBlanks, Nat.add_assoc, htotal]
  · rw [store_overflow { st with rx := st.rx + 1 } i 0x20 hlt, if_neg (by omega)]
    rfl

/-- A character that ends no line is stored, if the buffer has room for its bytes. -/
theorem showAscii_char (hdirect : st.useDirectXy = 0) (hline : c ≠ 0x0a) (hreturn : c ≠ 0x0d)
    (hfeed : c ≠ 0x0c) :
    showAscii layout i c inserted st =
      if st.charStr.length + (charBytes st.rx c).length ≤ maxline * 2 then .ok (st.addChar i c)
      else .error .overflow := by
  by_cases htab : c = 0x09
  · rw [htab, showAscii_tab hdirect, charBytes, if_pos rfl, List.length_replicate]
  · rw [showAscii, if_neg (not_not.mpr hdirect), if_neg hline, if_neg hreturn, if_neg hfeed,
      if_neg htab, charBytes, if_neg htab]
    cases hescaped : isEscaped c with
    | true =>
      have hlength : (escaped c).length = 2 := by rw [escaped, if_pos hescaped]; rfl
      rw [if_pos rfl, hlength]
      by_cases hlt : st.charStr.length + 1 < maxline * 2
      · rw [store_eq { st with rx := st.rx + 1, slashCnt := st.slashCnt + 1 } i 0x5c
          (Nat.lt_of_succ_lt hlt), if_pos (Nat.succ_le_of_lt hlt)]
        refine (store_eq _ i (c.setWidth 8) (by simpa using hlt)).trans ?_
        rw [PageState.addChar, charColumns, if_neg htab, charBytes, if_neg htab, escaped]
        simp [hescaped]
      · rw [if_neg (fun h ↦ hlt (Nat.lt_of_succ_le h))]
        by_cases hfirst : st.charStr.length < maxline * 2
        · rw [store_eq { st with rx := st.rx + 1, slashCnt := st.slashCnt + 1 } i 0x5c hfirst]
          exact store_overflow _ i (c.setWidth 8) (by simpa using hlt)
        · rw [store_overflow { st with rx := st.rx + 1, slashCnt := st.slashCnt + 1 } i 0x5c hfirst]
          rfl
    | false =>
      have hlength : (escaped c).length = 1 := by rw [escaped, if_neg (by simp [hescaped])]; rfl
      rw [if_neg Bool.false_ne_true, hlength]
      by_cases hlt : st.charStr.length < maxline * 2
      · rw [store_eq { st with rx := st.rx + 1 } i (c.setWidth 8) hlt,
          if_pos (Nat.succ_le_of_lt hlt)]
        rw [PageState.addChar, charColumns, if_neg htab, charBytes, if_neg htab, escaped]
        simp [hescaped]
      · rw [store_overflow { st with rx := st.rx + 1 } i (c.setWidth 8) hlt,
          if_neg (fun h ↦ hlt (Nat.lt_of_succ_le h))]

/-- The bytes of a character are its columns and, if it is escaped, a backslash. -/
theorem length_charBytes (column : ℕ) (c : BitVec 32) :
    (charBytes column c).length = charColumns column c + if isEscaped c then 1 else 0 := by
  unfold charBytes charColumns
  by_cases htab : c = 0x09
  · rw [if_pos htab, if_pos htab, htab, List.length_replicate, if_neg (by decide),
      Nat.add_zero]
  · rw [if_neg htab, if_neg htab, escaped]
    split_ifs <;> rfl

/-! ### One iteration -/

/-- What the newline branch leaves. -/
def PageState.endLine (st : PageState) (layout : Layout) (i : ℕ) (inserted : Bool) : PageState :=
  let st := { st.flushed.write (.lineEnd i inserted) with
    lineCount := st.lineCount + 1
    yy := st.yy + 1 }
  let st := if (st.yy : ℤ) ≥ layout.linePerPage then st.turnPage else st
  { st with xx := 0, rx := 0 }

/-- What a flush in front of a character or a colour leaves. -/
def PageState.endText (st : PageState) : PageState :=
  { st.flushed with xx := st.xx + st.charStr.length - st.slashCnt }

/-- What an iteration leaves that inserts no line break and finds room for its stores. -/
def PageState.shown (st : PageState) (layout : Layout) (i : ℕ) (t : TxtbufContent) : PageState :=
  match t.type with
  | .ascii =>
    if st.useDirectXy ≠ 0 then st.write (.drawing i (.asciiText (escaped t.v)))
    else if t.v = 0x0a then st.endLine layout i false
    else if t.v = 0x0d then st
    else if t.v = 0x0c then formFeed i st
    else st.addChar i t.v
  | .big5 =>
    if st.useDirectXy ≠ 0 then st.endText.write (.drawing i (.glyph t.v))
    else
      { st.endText.write (.dictChar i st.endText.xx st.endText.yy t.v) with
        xx := st.endText.xx + 2
        rx := st.rx + 2 }
  | .setRgb => st.endText.write (.drawing i (.rgbColor t.v))
  | .command => showCommand i t.v st
  | .setUseDirectXy => { st with useDirectXy := t.v }
  | .setSeFont => st.write (.drawing i (.selectFont t.v))
  | .setEFont => st.write (.drawing i (.findFont t.v))
  | _ => st

theorem newline_eq (hflush : st.charStr.length < maxline * 2) :
    newline layout i inserted st = .ok (st.endLine layout i inserted) := by
  rw [newline, PageState.flush, if_pos hflush]
  rfl

theorem newline_overflow (hflush : ¬st.charStr.length < maxline * 2) :
    newline layout i inserted st = .error .overflow := by
  rw [newline, PageState.flush, if_neg hflush]
  rfl

theorem flushText_eq (hflush : st.charStr.length < maxline * 2) :
    flushText st = .ok st.endText := by
  rw [flushText, PageState.flush, if_pos hflush]
  rfl

theorem flushText_overflow (hflush : ¬st.charStr.length < maxline * 2) :
    flushText st = .error .overflow := by
  rw [flushText, PageState.flush, if_neg hflush]
  rfl

theorem showBig5_eq (hflush : st.charStr.length < maxline * 2) :
    showBig5 i c st = .ok (st.shown layout i { type := .big5, v := c }) := by
  rw [showBig5, flushText_eq hflush]
  change (if st.useDirectXy ≠ 0 then _ else _) = _
  simp only [PageState.shown]
  split_ifs <;> rfl

theorem Shows.useDirectXy_eq_zero_iff {line : Line} (hshows : Shows line st) :
    st.useDirectXy = 0 ↔ line.direct = false := by
  rw [hshows.direct]
  simp

theorem Shows.useDirectXy_ne_zero {line : Line} (hshows : Shows line st)
    (hline : line.direct = true) : st.useDirectXy ≠ 0 := by
  intro hzero
  rw [hshows.useDirectXy_eq_zero_iff.mp hzero] at hline
  exact Bool.false_ne_true hline

theorem Shows.canFlush_iff {line : Line} (hshows : Shows line st) :
    line.CanFlush ↔ st.charStr.length < maxline * 2 := by
  rw [Line.CanFlush, hshows.pending]

theorem showAscii_cases {line : Line} (hshows : Shows line st) (v : BitVec 32) :
    (line.HasRoom { type := .ascii, v := v } ∧
      showAscii layout i v false st = .ok (st.shown layout i { type := .ascii, v := v })) ∨
    (¬line.HasRoom { type := .ascii, v := v } ∧
      showAscii layout i v false st = .error .overflow) := by
  by_cases hdirect : st.useDirectXy = 0
  · have hline := hshows.useDirectXy_eq_zero_iff.mp hdirect
    by_cases hnewline : v = 0x0a
    · subst hnewline
      have hroom : line.HasRoom { type := .ascii, v := 0x0a } ↔ line.CanFlush := by
        simp [Line.HasRoom, hline]
      have hcase : showAscii layout i 0x0a false st = newline layout i false st := by
        rw [showAscii, if_neg (not_not.mpr hdirect), if_pos rfl]
      have hshow : st.shown layout i { type := .ascii, v := 0x0a } = st.endLine layout i false := by
        rw [PageState.shown, if_neg (not_not.mpr hdirect), if_pos rfl]
      rw [hroom, hshows.canFlush_iff, hcase, hshow]
      by_cases hflush : st.charStr.length < maxline * 2
      · exact .inl ⟨hflush, newline_eq hflush⟩
      · exact .inr ⟨hflush, newline_overflow hflush⟩
    · by_cases hreturn : v = 0x0d
      · refine .inl ⟨.inr (.inl hreturn), ?_⟩
        rw [showAscii, PageState.shown, if_neg (not_not.mpr hdirect), if_neg hnewline,
          if_pos hreturn,
          if_neg (not_not.mpr hdirect), if_neg hnewline, if_pos hreturn]
      · by_cases hfeed : v = 0x0c
        · refine .inl ⟨.inr (.inr (.inl hfeed)), ?_⟩
          rw [showAscii, PageState.shown, if_neg (not_not.mpr hdirect), if_neg hnewline,
            if_neg hreturn, if_pos hfeed, if_neg (not_not.mpr hdirect), if_neg hnewline,
            if_neg hreturn, if_pos hfeed]
        · have hroom : line.HasRoom { type := .ascii, v := v } ↔
              st.charStr.length + (charBytes st.rx v).length ≤ maxline * 2 := by
            rw [hshows.pending, hshows.column]
            simp only [Line.HasRoom, hline, hreturn, hfeed, hnewline, Bool.false_eq_true, false_or,
              false_and, ne_eq, not_false_eq_true, true_and]
          have hshow : st.shown layout i { type := .ascii, v := v } = st.addChar i v := by
            rw [PageState.shown, if_neg (not_not.mpr hdirect), if_neg hnewline, if_neg hreturn,
              if_neg hfeed]
          rw [hroom, showAscii_char hdirect hnewline hreturn hfeed, hshow]
          split_ifs with hfits
          · exact .inl ⟨hfits, rfl⟩
          · exact .inr ⟨hfits, rfl⟩
  · have hline : line.direct = true := by
      rw [hshows.direct]
      simpa using hdirect
    refine .inl ⟨.inl hline, ?_⟩
    rw [showAscii, PageState.shown, if_pos hdirect, if_pos hdirect]

/-- An iteration without a line break succeeds if there is room for its stores, and stores out of
range if not. -/
theorem showCase_cases (layout : Layout) (i : ℕ) {line : Line} (hshows : Shows line st)
    (t : TxtbufContent) :
    (line.HasRoom t ∧ showCase layout i t.type t.v false st = .ok (st.shown layout i t)) ∨
    (¬line.HasRoom t ∧ showCase layout i t.type t.v false st = .error .overflow) := by
  obtain ⟨type, v⟩ := t
  cases type with
  | ascii => exact showAscii_cases hshows v
  | big5 =>
    by_cases hflush : st.charStr.length < maxline * 2
    · exact .inl ⟨hshows.canFlush_iff.mpr hflush, showBig5_eq hflush⟩
    · refine .inr ⟨fun h ↦ hflush (hshows.canFlush_iff.mp h), ?_⟩
      simp only [showCase, showBig5, flushText_overflow hflush]
      rfl
  | setRgb =>
    by_cases hflush : st.charStr.length < maxline * 2
    · refine .inl ⟨hshows.canFlush_iff.mpr hflush, ?_⟩
      simp only [showCase, flushText_eq hflush]
      rfl
    · refine .inr ⟨fun h ↦ hflush (hshows.canFlush_iff.mp h), ?_⟩
      simp only [showCase, flushText_overflow hflush]
      rfl
  | _ => exact .inl ⟨trivial, rfl⟩

/-! ### The line behind an iteration -/

section Shows

variable {line : Line} (hshows : Shows line st)

include hshows

theorem Shows.write (o : Output) : Shows line (st.write o) :=
  ⟨hshows.column, hshows.balance, hshows.pending, hshows.direct⟩

theorem Shows.openPage : Shows line (Ttpseng.openPage st) := by
  unfold Ttpseng.openPage
  split_ifs
  · exact ⟨hshows.column, hshows.balance, hshows.pending, hshows.direct⟩
  · exact hshows

/-- A line that has ended is empty. -/
theorem Shows.of_empty (hrx : st'.rx = 0) (hxx : st'.xx = 0) (htext : st'.charStr = [])
    (hslash : st'.slashCnt = 0) (hdirect : st'.useDirectXy = st.useDirectXy) :
    Shows line.broken st' where
  column := hrx
  balance := by rw [hxx, htext, hrx, hslash, List.length_nil]
  pending := by rw [htext]; rfl
  direct := by rw [hdirect]; exact hshows.direct

theorem Shows.endLine : Shows line.broken (st.endLine layout i inserted) := by
  apply hshows.of_empty <;> dsimp only [PageState.endLine] <;> split_ifs <;> rfl

theorem Shows.formFeed : Shows line.broken (Ttpseng.formFeed i st) :=
  hshows.of_empty rfl rfl rfl rfl rfl

theorem Shows.endText : Shows { line with pending := 0 } st.endText where
  column := hshows.column
  balance := by
    have hbalance := hshows.balance
    simp only [PageState.endText, PageState.flushed, List.length_nil]
    omega
  pending := rfl
  direct := hshows.direct

theorem Shows.addChar (c : BitVec 32) :
    Shows { line with
      column := line.column + charColumns line.column c
      pending := line.pending + (charBytes line.column c).length } (st.addChar i c) where
  column := by simp only [PageState.addChar, hshows.column]
  balance := by
    have hbalance := hshows.balance
    have hlength := length_charBytes st.rx c
    simp only [PageState.addChar, List.length_append, List.length_map]
    omega
  pending := by
    simp only [PageState.addChar, List.length_append, List.length_map, hshows.pending,
      hshows.column]
  direct := hshows.direct

/-- A glyph in a line takes two columns. -/
theorem Shows.glyph (o : Output) :
    Shows { line with column := line.column + 2, pending := 0 }
      { st.endText.write o with xx := st.endText.xx + 2, rx := st.rx + 2 } where
  column := congrArg (· + 2) hshows.column
  balance := by
    have hbalance := hshows.balance
    simp only [PageState.endText, PageState.flushed, PageState.write, List.length_nil]
    omega
  pending := rfl
  direct := hshows.endText.direct

theorem Shows.showCommand (c : BitVec 32) : Shows line (Ttpseng.showCommand i c st) := by
  unfold Ttpseng.showCommand
  split_ifs
  · exact hshows.write _
  · exact hshows.write _
  · exact hshows

theorem Shows.after (layout : Layout) (i : ℕ) (t : TxtbufContent) :
    Shows (line.after t) (st.shown layout i t) := by
  obtain ⟨type, v⟩ := t
  have hdirect := hshows.useDirectXy_eq_zero_iff
  cases type with
  | ascii =>
    simp only [Line.after, PageState.shown]
    rcases Bool.eq_false_or_eq_true line.direct with hline | hline
    · rw [if_pos hline, if_pos (hshows.useDirectXy_ne_zero hline)]
      exact hshows.write _
    · rw [if_neg (by simp [hline]), if_neg (not_not.mpr (hdirect.mpr hline))]
      by_cases hnewline : v = 0x0a
      · rw [if_pos (.inl hnewline), if_pos hnewline]
        exact hshows.endLine
      · by_cases hfeed : v = 0x0c
        · rw [if_pos (.inr hfeed), if_neg hnewline, if_neg (by rw [hfeed]; decide), if_pos hfeed]
          exact hshows.formFeed
        · rw [if_neg (not_or.mpr ⟨hnewline, hfeed⟩), if_neg hnewline]
          by_cases hreturn : v = 0x0d
          · rw [if_pos hreturn, if_pos hreturn]
            exact hshows
          · rw [if_neg hreturn, if_neg hreturn, if_neg hfeed]
            exact hshows.addChar v
  | big5 =>
    simp only [Line.after, PageState.shown]
    rcases Bool.eq_false_or_eq_true line.direct with hline | hline
    · rw [if_pos hline, if_pos (hshows.useDirectXy_ne_zero hline)]
      exact hshows.endText.write _
    · rw [if_neg (by simp [hline]), if_neg (not_not.mpr (hdirect.mpr hline))]
      exact hshows.glyph _
  | setRgb => exact hshows.endText.write _
  | command => exact hshows.showCommand v
  | setUseDirectXy => exact ⟨hshows.column, hshows.balance, hshows.pending, rfl⟩
  | setSeFont => exact hshows.write _
  | setEFont => exact hshows.write _
  | _ => exact hshows

/-- An iteration that inserts no line break. -/
theorem Shows.showToken_keep (hkeep : line.breaksBefore layout t = false) :
    (line.HasRoom t ∧
      showToken layout i t st = .ok ((Ttpseng.openPage st).shown layout i t, false)) ∨
    (¬line.HasRoom t ∧ showToken layout i t st = .error .overflow) := by
  have hwraps : wraps layout t (Ttpseng.openPage st) = false := by
    rw [hshows.openPage.wraps_eq, hkeep]
  refine (showCase_cases layout i hshows.openPage t).imp ?_ ?_
  · rintro ⟨hroom, hcase⟩
    refine ⟨hroom, ?_⟩
    rw [showToken, hwraps, if_neg Bool.false_ne_true, hcase]
    rfl
  · rintro ⟨hroom, hcase⟩
    refine ⟨hroom, ?_⟩
    rw [showToken, hwraps, if_neg Bool.false_ne_true, hcase]
    rfl

/-- An iteration that inserts a line break in front of a character. -/
theorem Shows.showToken_break (hascii : t.type = .ascii)
    (hbreak : line.breaksBefore layout t = true) :
    (line.CanFlush ∧
      showToken layout i t st = .ok ((Ttpseng.openPage st).endLine layout i true, true)) ∨
    (¬line.CanFlush ∧ showToken layout i t st = .error .overflow) := by
  have hwraps : wraps layout t (Ttpseng.openPage st) = true := by
    rw [hshows.openPage.wraps_eq, hbreak]
  have hdirect : line.direct = false := by
    simp only [Line.breaksBefore, Bool.and_eq_true, Bool.not_eq_true'] at hbreak
    exact hbreak.1.1.1.1
  have hcase : showCase layout i t.type 0x0a true (Ttpseng.openPage st) =
      newline layout i true (Ttpseng.openPage st) := by
    rw [hascii, showCase, showAscii,
      if_neg (not_not.mpr (hshows.openPage.useDirectXy_eq_zero_iff.mpr hdirect)), if_pos rfl]
  rw [showToken, hwraps, if_pos rfl, hcase, hshows.openPage.canFlush_iff]
  by_cases hflush : (Ttpseng.openPage st).charStr.length < maxline * 2
  · rw [newline_eq hflush]
    exact .inl ⟨hflush, rfl⟩
  · rw [newline_overflow hflush]
    exact .inr ⟨hflush, rfl⟩

/-- In front of a BIG5 character the iteration draws a character instead and steps back. -/
theorem Shows.showToken_stall (hbig5 : t.type = .big5)
    (hbreak : line.breaksBefore layout t = true) :
    (line.CanFlush ∧ ∃ st', showToken layout i t st = .ok (st', true) ∧
      Shows { line with column := line.column + 2, pending := 0 } st') ∨
    (¬line.CanFlush ∧ showToken layout i t st = .error .overflow) := by
  have hwraps : wraps layout t (Ttpseng.openPage st) = true := by
    rw [hshows.openPage.wraps_eq, hbreak]
  have hdirect : line.direct = false := by
    simp only [Line.breaksBefore, Bool.and_eq_true, Bool.not_eq_true'] at hbreak
    exact hbreak.1.1.1.1
  have hline : line.after { type := .big5, v := 0x0a } =
      { line with column := line.column + 2, pending := 0 } := by
    simp [Line.after, hdirect]
  rcases showCase_cases layout i hshows.openPage { type := .big5, v := 0x0a }
    with ⟨hroom, hcase⟩ | ⟨hroom, hcase⟩
  · refine .inl ⟨hroom, _, ?_, hline ▸ hshows.openPage.after layout i _⟩
    rw [showToken, hwraps, if_pos rfl, hbig5]
    exact congrArg (· >>= _) hcase
  · refine .inr ⟨hroom, ?_⟩
    rw [showToken, hwraps, if_pos rfl, hbig5]
    exact congrArg (· >>= _) hcase

end Shows

/-! ### All iterations -/

/-- The text in front of every entry fits into the buffer, up to an entry at which the loop
stays. -/
def TextFits (layout : Layout) : Line → List TxtbufContent → Prop
  | line, [] => line.CanFlush
  | line, t :: rest =>
    if line.breaksBefore layout t then
      line.CanFlush ∧ (t.type = .ascii → line.broken.breaksBefore layout t = false →
        line.broken.HasRoom t ∧ TextFits layout (line.broken.after t) rest)
    else line.HasRoom t ∧ TextFits layout (line.after t) rest

/-- No run of the loop stores behind the end of the line buffer. -/
def InBounds (layout : Layout) (tokens : List TxtbufContent) : Prop :=
  ∀ fuel, tteShowpage layout fuel tokens ≠ .error .overflow

section Run

variable {line : Line} {rest : List TxtbufContent}

theorem textFits_cons_of_break (hbreak : line.breaksBefore layout t = true) :
    TextFits layout line (t :: rest) ↔
      line.CanFlush ∧ (t.type = .ascii → line.broken.breaksBefore layout t = false →
        line.broken.HasRoom t ∧ TextFits layout (line.broken.after t) rest) := by
  rw [TextFits, if_pos hbreak]

theorem textFits_cons_of_keep (hkeep : line.breaksBefore layout t = false) :
    TextFits layout line (t :: rest) ↔
      line.HasRoom t ∧ TextFits layout (line.after t) rest := by
  rw [TextFits, if_neg (by simp [hkeep])]

/-- Only characters are broken in front of. -/
theorem type_of_breaksBefore (hbreak : line.breaksBefore layout t = true) :
    t.type = .ascii ∨ t.type = .big5 := by
  simp only [Line.breaksBefore, Bool.and_eq_true, Bool.or_eq_true, beq_iff_eq] at hbreak
  exact hbreak.2.imp And.left And.left

/-- A character that is looked at again behind the line break. -/
theorem TextFits.broken (hfits : TextFits layout line (t :: rest)) (hascii : t.type = .ascii)
    (hbreak : line.breaksBefore layout t = true) : TextFits layout line.broken (t :: rest) := by
  rw [textFits_cons_of_break hbreak] at hfits
  cases hagain : line.broken.breaksBefore layout t with
  | false => exact (textFits_cons_of_keep hagain).mpr (hfits.2 hascii hagain)
  | true =>
    refine (textFits_cons_of_break hagain).mpr ⟨show 0 < maxline * 2 by decide, fun _ hkeep ↦ ?_⟩
    exact absurd (hkeep.symm.trans hagain) Bool.false_ne_true

/-- Behind the character that is drawn instead, a BIG5 character fits even less. -/
theorem breaksBefore_stall (hbig5 : t.type = .big5) (hbreak : line.breaksBefore layout t = true) :
    Line.breaksBefore layout { line with column := line.column + 2, pending := 0 } t = true := by
  simp only [Line.breaksBefore, hbig5, Bool.and_eq_true, Bool.or_eq_true, decide_eq_true_eq]
    at hbreak ⊢
  refine ⟨hbreak.1, .inr ⟨rfl, ?_⟩⟩
  rcases hbreak.2 with ⟨hascii, -⟩ | ⟨-, hcolumn⟩
  · exact absurd hascii (by decide)
  · push_cast
    omega

/-- A BIG5 character at which the loop stays. -/
theorem TextFits.stall (hbig5 : t.type = .big5) (hbreak : line.breaksBefore layout t = true) :
    TextFits layout { line with column := line.column + 2, pending := 0 } (t :: rest) := by
  have hagain := breaksBefore_stall hbig5 hbreak
  refine (textFits_cons_of_break hagain).mpr ⟨show 0 < maxline * 2 by decide, fun hascii ↦ ?_⟩
  rw [hbig5] at hascii
  exact TbcType.noConfusion hascii

theorem finish_ne_overflow (hflush : st.charStr.length < maxline * 2) :
    finish st ≠ .error .overflow := by
  rw [finish, PageState.flush, if_pos hflush]
  exact fun heq ↦ by cases heq

theorem finish_overflow (hflush : ¬st.charStr.length < maxline * 2) :
    finish st = .error .overflow := by
  rw [finish, PageState.flush, if_neg hflush]
  rfl

/-- The rest of a run, behind an iteration that has a result. -/
theorem showTokens_of_showToken {back : Bool} (hstep : showToken layout i t st = .ok (st', back)) :
    showTokens layout (fuel + 1) i (t :: rest) st =
      if back then showTokens layout fuel i (t :: rest) st'
      else showTokens layout fuel (i + 1) rest st' := by
  rw [showTokens, hstep]
  rfl

theorem showTokens_overflow (hstep : showToken layout i t st = .error .overflow) :
    showTokens layout (fuel + 1) i (t :: rest) st = .error .overflow := by
  rw [showTokens, hstep]
  rfl

/-- No store is out of range where the text fits. -/
theorem TextFits.run_ne_overflow (fuel i : ℕ) (tokens : List TxtbufContent) (line : Line)
    (st : PageState) (hshows : Shows line st) (hfits : TextFits layout line tokens) :
    (showTokens layout fuel i tokens st >>= finish) ≠ .error .overflow := by
  induction fuel generalizing i tokens line st with
  | zero =>
    cases tokens with
    | nil =>
      rw [showTokens]
      exact finish_ne_overflow (hshows.canFlush_iff.mp hfits)
    | cons t rest =>
      rw [showTokens]
      exact fun heq ↦ Fault.noConfusion (Except.error.inj heq)
  | succ fuel ih =>
    cases tokens with
    | nil =>
      rw [showTokens]
      exact finish_ne_overflow (hshows.canFlush_iff.mp hfits)
    | cons t rest =>
      cases hbreak : line.breaksBefore layout t with
      | false =>
        obtain ⟨hroom, hrest⟩ := (textFits_cons_of_keep hbreak).mp hfits
        rcases hshows.showToken_keep (i := i) hbreak with ⟨-, hstep⟩ | ⟨hnot, -⟩
        · rw [showTokens_of_showToken hstep, if_neg Bool.false_ne_true]
          exact ih _ _ _ _ (hshows.openPage.after layout i t) hrest
        · exact absurd hroom hnot
      | true =>
        have hflush := ((textFits_cons_of_break hbreak).mp hfits).1
        rcases type_of_breaksBefore hbreak with hascii | hbig5
        · rcases hshows.showToken_break (i := i) hascii hbreak with ⟨-, hstep⟩ | ⟨hnot, -⟩
          · rw [showTokens_of_showToken hstep, if_pos rfl]
            exact ih _ _ _ _ hshows.openPage.endLine (hfits.broken hascii hbreak)
          · exact absurd hflush hnot
        · rcases hshows.showToken_stall (i := i) hbig5 hbreak with
            ⟨-, st', hstep, hshows'⟩ | ⟨hnot, -⟩
          · rw [showTokens_of_showToken hstep, if_pos rfl]
            exact ih _ _ _ _ hshows' (TextFits.stall hbig5 hbreak)
          · exact absurd hflush hnot

/-- Where the text does not fit, a store is out of range. -/
theorem exists_run_overflow (i : ℕ) (tokens : List TxtbufContent) (line : Line)
    (st : PageState) (hshows : Shows line st) (hfits : ¬TextFits layout line tokens) :
    ∃ fuel, (showTokens layout fuel i tokens st >>= finish) = .error .overflow := by
  induction tokens generalizing i line st with
  | nil =>
    refine ⟨0, ?_⟩
    rw [showTokens]
    exact finish_overflow fun hflush ↦ hfits (hshows.canFlush_iff.mpr hflush)
  | cons t rest ih =>
    -- From a line on which the entry is shown at once, that is in front of it or behind a break.
    have hkeep (line : Line) (st : PageState) (hshows : Shows line st)
        (hkeep : line.breaksBefore layout t = false)
        (hfits : ¬(line.HasRoom t ∧ TextFits layout (line.after t) rest)) :
        ∃ fuel, (showTokens layout fuel i (t :: rest) st >>= finish) = .error .overflow := by
      rcases hshows.showToken_keep (i := i) hkeep with ⟨hroom, hstep⟩ | ⟨-, hstep⟩
      · obtain ⟨fuel, hrun⟩ := ih (i + 1) _ _ (hshows.openPage.after layout i t)
          fun hrest ↦ hfits ⟨hroom, hrest⟩
        refine ⟨fuel + 1, ?_⟩
        rw [showTokens_of_showToken hstep, if_neg Bool.false_ne_true]
        exact hrun
      · refine ⟨1, ?_⟩
        rw [showTokens_overflow hstep]
        rfl
    cases hbreak : line.breaksBefore layout t with
    | false =>
      exact hkeep line st hshows hbreak fun h ↦ hfits ((textFits_cons_of_keep hbreak).mpr h)
    | true =>
      rw [textFits_cons_of_break hbreak] at hfits
      rcases type_of_breaksBefore hbreak with hascii | hbig5
      · rcases hshows.showToken_break (i := i) hascii hbreak with ⟨hflush, hstep⟩ | ⟨-, hstep⟩
        · have hagain : line.broken.breaksBefore layout t = false := by
            by_contra hnot
            exact hfits ⟨hflush, fun _ h ↦ absurd h hnot⟩
          obtain ⟨fuel, hrun⟩ := hkeep line.broken _ hshows.openPage.endLine hagain
            fun h ↦ hfits ⟨hflush, fun _ _ ↦ h⟩
          refine ⟨fuel + 1, ?_⟩
          rw [showTokens_of_showToken hstep, if_pos rfl]
          exact hrun
        · refine ⟨1, ?_⟩
          rw [showTokens_overflow hstep]
          rfl
      · rcases hshows.showToken_stall (i := i) hbig5 hbreak with ⟨hflush, -⟩ | ⟨-, hstep⟩
        · refine absurd ⟨hflush, fun hascii ↦ ?_⟩ hfits
          rw [hbig5] at hascii
          exact TbcType.noConfusion hascii
        · refine ⟨1, ?_⟩
          rw [showTokens_overflow hstep]
          rfl

end Run

/-- Every store into `char_str` is in range, for any settings and any entries, exactly if the text
that waits in front of each entry fits. -/
theorem tteShowpage_inBounds_iff (layout : Layout) (tokens : List TxtbufContent) :
    InBounds layout tokens ↔ TextFits layout Line.start tokens := by
  constructor
  · intro hbounds
    by_contra hfits
    obtain ⟨fuel, hrun⟩ := exists_run_overflow 0 tokens Line.start PageState.init Shows.init hfits
    exact hbounds fuel hrun
  · exact fun hfits fuel ↦ hfits.run_ne_overflow fuel 0 tokens Line.start PageState.init Shows.init

/-- Tabs at tab stops, without wrapping, take eight bytes each. -/
theorem not_textFits_tabs (hwrap : layout.wrap = false) (n k : ℕ)
    (hmany : maxline * 2 ≤ 8 * (k + n)) :
    ¬TextFits layout { column := 8 * k, pending := 8 * k, direct := false }
      (List.replicate n { type := .ascii, v := 0x09 }) := by
  induction n generalizing k with
  | zero => exact Nat.not_lt.mpr hmany
  | succ n ih =>
    have hkeep : Line.breaksBefore layout { column := 8 * k, pending := 8 * k, direct := false }
        { type := .ascii, v := 0x09 } = false := by
      simp [Line.breaksBefore, hwrap]
    have hafter : Line.after { column := 8 * k, pending := 8 * k, direct := false }
        { type := .ascii, v := 0x09 } =
          { column := 8 * (k + 1), pending := 8 * (k + 1), direct := false } := by
      simp [Line.after, charColumns, charBytes, Nat.mul_add]
    rw [List.replicate_succ, textFits_cons_of_keep hkeep, hafter]
    exact fun hfits ↦ ih (k + 1) (by omega) hfits.2

/-- A line of 513 tabs. -/
theorem not_inBounds_tabs :
    ¬InBounds { wrap := false, charPerLine := 80, linePerPage := 60 }
      (List.replicate 513 { type := .ascii, v := 0x09 }) := by
  intro hbounds
  have hfits := not_textFits_tabs
    (rfl : Layout.wrap { wrap := false, charPerLine := 80, linePerPage := 60 } = false) 513 0
    (by decide)
  obtain ⟨fuel, hrun⟩ := exists_run_overflow 0 _ Line.start PageState.init Shows.init hfits
  exact hbounds fuel hrun

end Katmai.Ttpseng
