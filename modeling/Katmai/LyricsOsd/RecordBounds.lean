import Katmai.Foundation.PartialIteration
import Katmai.LyricsOsd.Visits

/-!
# Scheduling inside the record

A line with schedulable records takes every step at any time (`Line.Safe.lineStep`). If the clock is
at its last reading, a line comes to the end of each of its records unless it fails before, and then
the record was schedulable (`failsOr_records`). As each of the two lines goes on as if it were
alone, the loop stays inside the records if and only if all of them are schedulable
(`lyrsvcMain_safe_iff`).
-/

set_option autoImplicit false
set_option relaxedAutoImplicit false

namespace Katmai.LyricsOsd

open Foundation

variable {font : Font} {para : LyricsPara} {l l' : Line} {n : ℕ} {tm : Int32}

/-! ### Safety -/

/-- The part that is visited now, or next if one is being drawn. -/
def Line.position (l : Line) : ℕ :=
  if l.state = .drawing then l.ii + 1 else l.ii

/-- A line is in the middle of a record. -/
structure Line.Within (l : Line) (para : LyricsPara) : Prop where
  lyr : l.lyr = some para
  division : l.division = para.division
  visits : Visits para l.position

/-- All records of a line are schedulable. -/
structure Line.Safe (l : Line) : Prop where
  within : l.state ≠ .waiting → ∃ para, l.Within para
  lyr : ∀ para, l.lyr = some para → Schedulable para
  later : ∀ para ∈ l.later, Schedulable para

theorem stroke_fields (l : Line) :
    (stroke l).1.lyr = l.lyr ∧ (stroke l).1.later = l.later ∧
      (stroke l).1.division = l.division ∧ (stroke l).1.lstop = l.lstop ∧
        (stroke l).1.step = l.step := by
  rw [stroke]
  split_ifs <;> exact ⟨rfl, rfl, rfl, rfl, rfl⟩

/-- Drawing a part leads to the next visit. -/
theorem stroke_position (hstate : l.state = .drawing) :
    (stroke l).1.position = l.ii + 1 ∧ (stroke l).1.state ≠ .waiting := by
  by_cases hfrom : l.fromX < l.range1
  · simp [stroke, hfrom, Line.position, hstate]
  · simp [stroke, hfrom, Line.position]

theorem Line.Within.stroke (hwithin : l.Within para) (hstate : l.state = .drawing) :
    (stroke l).1.Within para := by
  obtain ⟨hlyr, -, hdivision, -⟩ := stroke_fields l
  refine ⟨hlyr.trans hwithin.lyr, hdivision.trans hwithin.division, ?_⟩
  have hvisits := hwithin.visits
  rw [(stroke_position hstate).1]
  rwa [Line.position, if_pos hstate] at hvisits

theorem Line.Safe.stroke (hsafe : l.Safe) (hstate : l.state = .drawing) :
    (LyricsOsd.stroke l).1.Safe := by
  obtain ⟨para, hwithin⟩ := hsafe.within (by rw [hstate]; decide)
  obtain ⟨hlyr, hlater, -⟩ := stroke_fields l
  exact ⟨fun _ ↦ ⟨para, hwithin.stroke hstate⟩, by rw [hlyr]; exact hsafe.lyr,
    by rw [hlater]; exact hsafe.later⟩

/-- The part that is due can be set up and drawn. -/
theorem Line.Safe.prepare (hsafe : l.Safe) (hwithin : l.Within para) (font : Font)
    (hstate : l.state = .preparing) (hii : l.ii < para.division) :
    ∃ l', LyricsOsd.prepare font para l = some l' ∧ (LyricsOsd.stroke l').1.Safe := by
  have hposition : l.position = l.ii := by
    rw [Line.position, hstate]
    rfl
  have hvisits : Visits para l.ii := hposition ▸ hwithin.visits
  obtain ⟨l', hrun⟩ := (hsafe.lyr para hwithin.lyr).prepare font hwithin.division hii hvisits
  obtain ⟨m, hprepared, -, hnext, -⟩ := hvisits.prepare hwithin.division hii hrun
  have hsafe' : l'.Safe := by
    refine ⟨fun _ ↦ ⟨para, hprepared.lyr.trans hwithin.lyr,
      hprepared.division.trans hwithin.division, ?_⟩, ?_, ?_⟩
    · rwa [Line.position, if_pos hprepared.state, hprepared.ii]
    · rw [hprepared.lyr]
      exact hsafe.lyr
    · rw [hprepared.later]
      exact hsafe.later
  exact ⟨l', hrun, hsafe'.stroke hprepared.state⟩

/-- A line with schedulable records takes every step, at any time. -/
theorem Line.Safe.lineStep (hsafe : l.Safe) (font : Font) (tm : Int32) :
    ∃ r, lineStep font tm l = some r ∧ r.1.Safe := by
  cases hstate : l.state with
  | waiting =>
    cases hlyr : l.lyr with
    | none =>
      refine ⟨({ l with lstop := true }, .ended (!l.lstop)), ?_, ?_⟩
      · rw [LyricsOsd.lineStep, hstate, hlyr]
      · exact ⟨fun h ↦ absurd hstate h, hsafe.lyr, hsafe.later⟩
    | some para =>
      obtain ⟨start, hstart, -⟩ := exists_time para (show 0 < 25 by omega)
      rw [LyricsOsd.lineStep, hstate, hlyr]
      simp only [hstart, Option.bind_eq_bind, Option.bind_some]
      split_ifs
      · refine ⟨_, rfl, fun _ ↦ ⟨para, rfl, rfl, fun _ k hk ↦ ?_⟩, fun para' heq ↦ ?_, hsafe.later⟩
        · exact absurd hk (Nat.not_lt_zero k)
        · exact hsafe.lyr para' (hlyr.trans heq)
      · exact ⟨_, rfl, hsafe⟩
  | preparing =>
    obtain ⟨para, hwithin⟩ := hsafe.within (by rw [hstate]; decide)
    rw [LyricsOsd.lineStep, hstate]
    dsimp only
    split_ifs with hend
    · refine ⟨_, rfl, fun h ↦ absurd rfl h, fun para' hpara' ↦ ?_, fun para' hpara' ↦ ?_⟩
      · exact hsafe.later para' (List.mem_of_mem_head? hpara')
      · exact hsafe.later para' (List.mem_of_mem_tail hpara')
    · have hii : l.ii < para.division := by
        have := hwithin.division
        omega
      have hle := para.division_le
      obtain ⟨time, htime, -⟩ := exists_time para (show l.ii < 25 by omega)
      simp only [hwithin.lyr, htime, Option.bind_eq_bind, Option.bind_some]
      split_ifs
      · exact ⟨_, rfl, hsafe⟩
      · obtain ⟨l', hrun, hsafe'⟩ := hsafe.prepare hwithin font hstate hii
        rw [hrun]
        exact ⟨_, rfl, hsafe'⟩
  | drawing =>
    rw [LyricsOsd.lineStep, hstate]
    exact ⟨_, rfl, hsafe.stroke hstate⟩

/-! ### Progress -/

/-- A step of a line when the clock is at its last reading. -/
def advance (font : Font) (l : Line) : Option Line :=
  (lineStep font Int32.maxValue l).map Prod.fst

/-- What is left to draw of a part. -/
def leftToDraw (l : Line) : ℕ :=
  if l.state = .drawing then
    (l.range1 - l.toX).toNat + (if l.fromX < l.range1 then 1 else 0) + 1
  else 0

/-- A part is drawn to its end. -/
theorem failsOr_drawn (font : Font) (hwithin : l.Within para) (hne : l.state ≠ .waiting)
    (hstep : 1 ≤ l.step) :
    FailsOr (advance font) (fun t ↦ t.Within para ∧ t.later = l.later ∧ t.state = .preparing ∧
      t.ii = l.position) l := by
  refine failsOr_of_measure
    (fun t ↦ t.Within para ∧ t.later = l.later ∧ t.state ≠ .waiting ∧
      t.position = l.position ∧ 1 ≤ t.step) leftToDraw (fun t ht ↦ ?_)
    ⟨hwithin, rfl, hne, rfl, hstep⟩
  obtain ⟨hwithin, hlater, hne, hposition, hstep⟩ := ht
  cases hstate : t.state with
  | waiting => exact absurd hstate hne
  | preparing =>
    rw [Line.position, hstate] at hposition
    exact .inl ⟨hwithin, hlater, rfl, hposition⟩
  | drawing =>
    refine .inr fun u hu ↦ ?_
    obtain rfl : (stroke t).1 = u := by
      rw [advance, lineStep, hstate] at hu
      exact Option.some.inj hu
    obtain ⟨-, hlater', -, -, hstep'⟩ := stroke_fields t
    obtain ⟨hposition', hne'⟩ := stroke_position hstate
    rw [Line.position, if_pos hstate] at hposition
    refine ⟨⟨hwithin.stroke hstate, hlater'.trans hlater, hne', hposition'.trans hposition,
      by rwa [hstep']⟩, ?_⟩
    by_cases hfrom : t.fromX < t.range1
    · by_cases hto : t.toX > t.range1
      · simp [leftToDraw, stroke, hstate, hfrom, hto]
        omega
      · simp [leftToDraw, stroke, hstate, hfrom, hto]
        split_ifs <;> omega
    · simp [leftToDraw, stroke, hstate, hfrom]

/-- A part is set up and drawn. -/
theorem failsOr_part (font : Font) (hwithin : l.Within para) (hstate : l.state = .preparing)
    (hii : l.ii < para.division) :
    FailsOr (advance font) (fun t ↦ t.Within para ∧ t.later = l.later ∧ t.state = .preparing ∧
      l.ii < t.ii ∧ (para.division ≤ t.ii → Schedulable para)) l := by
  refine .later fun u hu ↦ ?_
  have hle := para.division_le
  have hvisits : Visits para l.ii := by
    have hvisits := hwithin.visits
    rwa [Line.position, hstate] at hvisits
  have hadvance : advance font l = (prepare font para l).map fun l' ↦ (stroke l').1 := by
    obtain ⟨time, htime, -⟩ := exists_time para (show l.ii < 25 by omega)
    have hnotend : ¬l.ii ≥ l.division := by
      rw [hwithin.division]
      omega
    have hnot : ¬time * 100 - prepareTime > Int32.maxValue := by
      rw [gt_iff_lt, Int32.not_lt]
      exact Int32.le_maxValue _
    rw [advance, lineStep, hstate]
    simp only [hnotend, if_false, hwithin.lyr, htime, Option.bind_eq_bind, Option.bind_some, hnot,
      Option.map_map, Function.comp_def]
  rw [hadvance] at hu
  obtain ⟨l', hrun, rfl⟩ := Option.map_eq_some_iff.mp hu
  obtain ⟨m, hprepared, hm, hnext, hlast⟩ := hvisits.prepare hwithin.division hii hrun
  have hwithin' : l'.Within para := by
    refine ⟨hprepared.lyr.trans hwithin.lyr, hprepared.division.trans hwithin.division, ?_⟩
    rwa [Line.position, if_pos hprepared.state, hprepared.ii]
  obtain ⟨-, hlater, -, -, hstep⟩ := stroke_fields l'
  obtain ⟨hposition, hne⟩ := stroke_position hprepared.state
  have hdrawn := failsOr_drawn font (hwithin'.stroke hprepared.state) hne
    (by rw [hstep]; exact hprepared.step_pos)
  rw [hlater, hposition, hprepared.ii, hprepared.later] at hdrawn
  refine hdrawn.mono fun t ht ↦ ⟨ht.1, ht.2.1, ht.2.2.1, ?_, fun hend ↦ hlast ?_⟩
  · rw [ht.2.2.2]
    omega
  · rwa [ht.2.2.2] at hend

/-- The line goes on to its next record, and the one behind it is schedulable. -/
def Passed (l : Line) (para : LyricsPara) (t : Line) : Prop :=
  Schedulable para ∧ t.state = .waiting ∧ t.lyr = l.later.head? ∧ t.later = l.later.tail

theorem failsOr_parts (font : Font) (hwithin : l.Within para) (hstate : l.state = .preparing)
    (hlast : para.division ≤ l.ii → Schedulable para) :
    FailsOr (advance font) (Passed l para) l := by
  induction hleft : para.division - l.ii using Nat.strongRecOn generalizing l with
  | ind n ih =>
    by_cases hii : l.ii < para.division
    · refine (failsOr_part font hwithin hstate hii).trans fun t ht ↦ ?_
      obtain ⟨hwithin', hlater, hstate', hlt, hlast'⟩ := ht
      have hpassed := ih (para.division - t.ii) (by omega) hwithin' hstate' hlast' rfl
      unfold Passed at hpassed ⊢
      rwa [hlater] at hpassed
    · refine .later fun u hu ↦ .now ?_
      have hend : l.ii ≥ l.division := by
        rw [hwithin.division]
        omega
      rw [advance, lineStep, hstate] at hu
      simp only [hend, if_true, Option.map_some] at hu
      rw [← Option.some.inj hu]
      exact ⟨hlast (Nat.le_of_not_lt hii), rfl, rfl, rfl⟩

/-- A line that never fails has schedulable records. -/
theorem failsOr_records (font : Font) (records : List LyricsPara) (hstate : l.state = .waiting)
    (hlyr : l.lyr = records.head?) (hlater : l.later = records.tail) :
    FailsOr (advance font) (fun _ ↦ ∀ para ∈ records, Schedulable para) l := by
  induction records generalizing l with
  | nil => exact .now fun para hpara ↦ absurd hpara List.not_mem_nil
  | cons para records ih =>
    refine .later fun u hu ↦ ?_
    obtain ⟨start, hstart, -⟩ := exists_time para (show 0 < 25 by omega)
    have hstarted : start * 100 - 2500 ≤ Int32.maxValue := Int32.le_maxValue _
    rw [advance, lineStep, hstate, hlyr] at hu
    simp only [List.head?_cons, hstart, Option.bind_eq_bind, Option.bind_some, hstarted, if_true,
      Option.map_some] at hu
    have hu := Option.some.inj hu
    have hwithin : u.Within para := by
      rw [← hu]
      exact ⟨rfl, rfl, fun _ k hk ↦ absurd hk (Nat.not_lt_zero k)⟩
    have hparts := failsOr_parts font hwithin (by rw [← hu]) fun hend ↦ .inl (by
      rw [← hu] at hend
      exact Nat.le_zero.mp hend)
    refine hparts.trans fun t ht ↦ ?_
    have hrest : u.later = records := by rw [← hu, hlater, List.tail_cons]
    have hlater := ih ht.2.1 (by rw [ht.2.2.1, hrest]) (by rw [ht.2.2.2, hrest])
    exact hlater.mono fun _ hall ↦ List.forall_mem_cons.mpr ⟨ht.1, hall⟩

/-! ### Both lines -/

variable {s s' : Lyrsvc} {signal : Signal}

/-- A line without a record. -/
def Line.Ended (l : Line) : Prop :=
  l.state = .waiting ∧ l.lyr = none

/-- How many lines a signal reports as ended for the first time. -/
def Signal.count : Signal → ℕ
  | .ended true => 1
  | _ => 0

/-- Once it is marked as ended, a line stays as it is. -/
theorem advance_ended (font : Font) (hended : l.Ended) (hlstop : l.lstop = true) :
    advance font l = some l := by
  rw [advance, lineStep, hended.1, hended.2]
  simp [← hended.1, ← hended.2, ← hlstop]

theorem prepare_lstop (hrun : prepare font para l = some l') : l'.lstop = l.lstop := by
  rw [prepare] at hrun
  simp only [Option.bind_eq_bind, Option.bind_eq_some_iff] at hrun
  obtain ⟨left, -, right, -, later, -, earlier, -, hrun⟩ := hrun
  split_ifs at hrun
  · obtain ⟨step, -, hrun⟩ := Option.bind_eq_some_iff.mp hrun
    rw [← Option.some.inj hrun]
  · simp only [Option.bind_eq_some_iff] at hrun
    obtain ⟨past, -, r, -, stop, -, later2, -, earlier2, -, step, -, hrun⟩ := hrun
    rw [← Option.some.inj hrun]

theorem count_stroke (l : Line) : (stroke l).2.count = 0 := by
  rw [stroke]
  split_ifs <;> rfl

/-- Only a line without a record is marked as ended. -/
theorem lineStep_of_not_ended (hrun : lineStep font tm l = some (l', signal)) (hnot : ¬l.Ended) :
    l'.lstop = l.lstop ∧ signal.count = 0 := by
  have hstroke {l1 : Line} (heq : stroke l1 = (l', signal)) :
      l'.lstop = l1.lstop ∧ signal.count = 0 := by
    obtain ⟨-, -, -, hlstop, -⟩ := stroke_fields l1
    have hcount := count_stroke l1
    rw [heq] at hlstop hcount
    exact ⟨hlstop, hcount⟩
  rw [lineStep] at hrun
  cases hstate : l.state with
  | waiting =>
    cases hlyr : l.lyr with
    | none => exact absurd ⟨hstate, hlyr⟩ hnot
    | some para =>
      rw [hstate, hlyr] at hrun
      obtain ⟨start, -, hrun⟩ := Option.bind_eq_some_iff.mp hrun
      split_ifs at hrun
      · obtain ⟨rfl, rfl⟩ := Prod.mk.inj (Option.some.inj hrun)
        exact ⟨rfl, rfl⟩
      · obtain ⟨rfl, rfl⟩ := Prod.mk.inj (Option.some.inj hrun)
        exact ⟨rfl, rfl⟩
  | preparing =>
    rw [hstate] at hrun
    dsimp only at hrun
    split_ifs at hrun
    · obtain ⟨rfl, rfl⟩ := Prod.mk.inj (Option.some.inj hrun)
      exact ⟨rfl, rfl⟩
    · simp only [Option.bind_eq_bind, Option.bind_eq_some_iff] at hrun
      obtain ⟨para, -, time, -, hrun⟩ := hrun
      split_ifs at hrun
      · obtain ⟨rfl, rfl⟩ := Prod.mk.inj (Option.some.inj hrun)
        exact ⟨rfl, rfl⟩
      · obtain ⟨l1, hprepare, heq⟩ := Option.map_eq_some_iff.mp hrun
        rw [← prepare_lstop hprepare]
        exact hstroke heq
  | drawing =>
    rw [hstate] at hrun
    exact hstroke (Option.some.inj hrun)

theorem lineStep_lstop (hrun : lineStep font tm l = some (l', signal))
    (hended : l.lstop = true → l.Ended) :
    (l'.lstop = true → l'.Ended) ∧ l'.lstop.toNat = l.lstop.toNat + signal.count := by
  by_cases h : l.Ended
  · rw [lineStep, h.1, h.2] at hrun
    obtain ⟨rfl, rfl⟩ := Prod.mk.inj (Option.some.inj hrun)
    refine ⟨fun _ ↦ ⟨rfl, rfl⟩, ?_⟩
    cases l.lstop <;> rfl
  · obtain ⟨hlstop, hcount⟩ := lineStep_of_not_ended hrun h
    rw [hlstop, hcount]
    exact ⟨fun htrue ↦ absurd (hended htrue) h, rfl⟩

/-- `tcnt` counts the lines that have ended. -/
structure Lyrsvc.Counts (s : Lyrsvc) : Prop where
  tcnt : s.shared.tcnt = s.first.lstop.toNat + s.second.lstop.toNat
  first : s.first.lstop = true → s.first.Ended
  second : s.second.lstop = true → s.second.Ended
  terminate : s.shared.terminate = true → s.shared.tcnt = 2

theorem counts_start (first second : List LyricsPara) : (Lyrsvc.start first second).Counts :=
  ⟨rfl, fun h ↦ absurd h Bool.false_ne_true, fun h ↦ absurd h Bool.false_ne_true,
    fun h ↦ absurd h Bool.false_ne_true⟩

theorem tcnt_signal (shared : Shared) (signal : Signal) :
    (shared.signal signal).tcnt = shared.tcnt + signal.count := by
  cases signal with
  | ended first => cases first <;> rfl
  | _ => rfl

theorem terminate_signal {shared : Shared} (h : (shared.signal signal).terminate = true) :
    shared.terminate = true ∨ (shared.signal signal).tcnt = 2 := by
  cases signal with
  | ended first =>
    rcases Bool.or_eq_true_iff.mp h with hterminate | hboth
    · exact .inl hterminate
    · exact .inr (beq_iff_eq.mp (Bool.and_eq_true_iff.mp hboth).1)
  | _ => exact .inl h

theorem show_fields (shared : Shared) :
    shared.show.tcnt = shared.tcnt ∧ shared.show.terminate = shared.terminate := by
  rw [Shared.show]
  split_ifs <;> exact ⟨rfl, rfl⟩

/-- A round takes both lines one step further. -/
theorem round_cases (hrun : round font s tm = some s') :
    (s.shared.terminate = true ∧ s' = s) ∨
      (s.shared.terminate = false ∧ ∃ first second signal1 signal2,
        lineStep font tm s.first = some (first, signal1) ∧
        lineStep font tm s.second = some (second, signal2) ∧
        s' = { first := first, second := second,
               shared := ((s.shared.signal signal1).signal signal2).show }) := by
  rw [round] at hrun
  split_ifs at hrun with hterminate
  · exact .inl ⟨hterminate, (Option.some.inj hrun).symm⟩
  · simp only [Option.bind_eq_bind, Option.bind_eq_some_iff] at hrun
    obtain ⟨⟨first, signal1⟩, hfirst, ⟨second, signal2⟩, hsecond, heq⟩ := hrun
    exact .inr ⟨Bool.eq_false_iff.mpr hterminate, first, second, signal1, signal2, hfirst,
      hsecond, (Option.some.inj heq).symm⟩

theorem Lyrsvc.Counts.round (hcounts : s.Counts) (hrun : round font s tm = some s') :
    s'.Counts := by
  rcases round_cases hrun with
    ⟨-, rfl⟩ | ⟨hrunning, first, second, signal1, signal2, hfirst, hsecond, rfl⟩
  · exact hcounts
  · obtain ⟨hended1, hcount1⟩ := lineStep_lstop hfirst hcounts.first
    obtain ⟨hended2, hcount2⟩ := lineStep_lstop hsecond hcounts.second
    obtain ⟨hshow, hterminate⟩ := show_fields ((s.shared.signal signal1).signal signal2)
    have htcnt := hcounts.tcnt
    have hsum : ((s.shared.signal signal1).signal signal2).tcnt =
        first.lstop.toNat + second.lstop.toNat := by
      rw [tcnt_signal, tcnt_signal]
      omega
    refine ⟨hshow.trans hsum, hended1, hended2, fun h ↦ ?_⟩
    rw [hterminate] at h
    rw [hshow]
    rcases terminate_signal h with h1 | h2
    · rcases terminate_signal h1 with h0 | h1
      · rw [hrunning] at h0
        cases h0
      · -- the second line cannot end once more
        have hfirst1 := Bool.toNat_le first.lstop
        have hsecond1 := Bool.toNat_le second.lstop
        rw [hsum]
        rw [tcnt_signal] at h1
        omega
    · exact h2

/-- Each line goes on as if it were alone. -/
theorem Lyrsvc.Counts.advance (hcounts : s.Counts)
    (hrun : LyricsOsd.round font s Int32.maxValue = some s') :
    LyricsOsd.advance font s.first = some s'.first ∧
      LyricsOsd.advance font s.second = some s'.second := by
  rcases round_cases hrun with
    ⟨hterminate, rfl⟩ | ⟨-, first, second, signal1, signal2, hfirst, hsecond, rfl⟩
  · have htcnt := hcounts.terminate hterminate
    have hsum := hcounts.tcnt
    have hboth : s'.first.lstop = true ∧ s'.second.lstop = true := by
      cases hl1 : s'.first.lstop <;> cases hl2 : s'.second.lstop <;>
        simp [hl1, hl2] at hsum ⊢ <;> omega
    exact ⟨advance_ended font (hcounts.first hboth.1) hboth.1,
      advance_ended font (hcounts.second hboth.2) hboth.2⟩
  · rw [LyricsOsd.advance, LyricsOsd.advance, hfirst, hsecond]
    exact ⟨rfl, rfl⟩

theorem Lyrsvc.Counts.iterateSteps (hcounts : s.Counts)
    (hrun : (List.replicate n Int32.maxValue).foldlM (LyricsOsd.round font) s = some s') :
    Foundation.iterateSteps (LyricsOsd.advance font) n s.first = some s'.first ∧
      Foundation.iterateSteps (LyricsOsd.advance font) n s.second = some s'.second := by
  induction n generalizing s with
  | zero =>
    obtain rfl : s = s' := Option.some.inj hrun
    exact ⟨rfl, rfl⟩
  | succ n ih =>
    rw [List.replicate_succ, List.foldlM_cons] at hrun
    obtain ⟨s1, hround, hrest⟩ := Option.bind_eq_some_iff.mp hrun
    obtain ⟨hfirst, hsecond⟩ := hcounts.advance hround
    rw [Foundation.iterateSteps, Foundation.iterateSteps, hfirst, hsecond]
    exact ih (hcounts.round hround) hrest

/-! ### The loop -/

theorem safe_start {records : List LyricsPara} (hall : ∀ para ∈ records, Schedulable para) :
    (Line.start records).Safe :=
  ⟨fun h ↦ absurd rfl h, fun para hpara ↦ hall para (List.mem_of_mem_head? hpara),
    fun para hpara ↦ hall para (List.mem_of_mem_tail hpara)⟩

/-- With schedulable records every round is taken. -/
theorem isSome_rounds (hfirst : s.first.Safe) (hsecond : s.second.Safe) (clock : List Int32) :
    (clock.foldlM (round font) s).isSome := by
  induction clock generalizing s with
  | nil => rfl
  | cons tm clock ih =>
    rw [List.foldlM_cons, round]
    split_ifs
    · exact ih hfirst hsecond
    · obtain ⟨r1, hstep1, hsafe1⟩ := hfirst.lineStep font tm
      obtain ⟨r2, hstep2, hsafe2⟩ := hsecond.lineStep font tm
      rw [hstep1, hstep2]
      exact ih hsafe1 hsafe2

/-- The loop stays inside the records and divides by no time difference that is zero, whatever the
clock reads, if and only if all records are schedulable. -/
theorem lyrsvcMain_safe_iff (font : Font) (first second : List LyricsPara) :
    (∀ clock, (lyrsvcMain font first second clock).isSome) ↔
      ∀ para ∈ first ++ second, Schedulable para := by
  constructor
  · intro hsafe
    have hiterate (n : ℕ) :
        (iterateSteps (advance font) n (Line.start first)).isSome ∧
          (iterateSteps (advance font) n (Line.start second)).isSome := by
      obtain ⟨s', hrun⟩ := Option.isSome_iff_exists.mp (hsafe (List.replicate n Int32.maxValue))
      obtain ⟨h1, h2⟩ := (counts_start first second).iterateSteps hrun
      exact ⟨Option.isSome_of_eq_some h1, Option.isSome_of_eq_some h2⟩
    obtain ⟨-, -, -, hfirst⟩ :=
      (failsOr_records font first rfl rfl rfl).exists fun n ↦ (hiterate n).1
    obtain ⟨-, -, -, hsecond⟩ :=
      (failsOr_records font second rfl rfl rfl).exists fun n ↦ (hiterate n).2
    exact fun para hpara ↦ (List.mem_append.mp hpara).elim (hfirst para) (hsecond para)
  · intro hall clock
    exact isSome_rounds (safe_start fun para hpara ↦ hall para (List.mem_append_left _ hpara))
      (safe_start fun para hpara ↦ hall para (List.mem_append_right _ hpara)) clock

/-- A record with one part and no times but zero. -/
def flatPara : LyricsPara where
  division := 1
  time := Vector.replicate 25 0
  jump := Vector.replicate 25 0
  division_le := by omega

/-- The line with this record divides by zero in the second round. -/
theorem not_lyrsvcMain_safe :
    ¬∀ clock, (lyrsvcMain ⟨12, fun width time ↦ width / time.toInt⟩ [flatPara] []
      clock).isSome := by
  intro hsafe
  exact absurd (hsafe [0, 0]) (by decide)

end Katmai.LyricsOsd
