import Katmai.LyricsOsd.LyrsvcMain
import Mathlib.Data.List.Basic
import Mathlib.Order.Basic

/-!
# The parts of a record

A line visits those parts of its record at which a new greatest time is reached (`Visits`), and the
parts behind one are skipped as long as their times are no greater (`Skips`). Only the last visit
can go wrong: a part that is the last one is followed by two entries more than it has, and the time
behind the parts may be that of the last one. `Schedulable` says that neither happens
(`Visits.prepare`, `Schedulable.prepare`).
-/

set_option autoImplicit false
set_option relaxedAutoImplicit false

namespace Katmai.LyricsOsd

/-! ### The condition -/

/-- An entry of `time`. -/
def LyricsPara.timeAt (para : LyricsPara) (k : ℕ) : ℤ :=
  (para.time[k]?.getD 0).toInt

/-- Where the last part has a later time than those before it, the time behind it is later still, or
there are two more times and they differ; otherwise the time behind the last part differs from that
of the last part. -/
def Schedulable (para : LyricsPara) : Prop :=
  para.division = 0 ∨
    ((∀ k < para.division - 1, para.timeAt k < para.timeAt (para.division - 1)) →
      para.timeAt (para.division - 1) < para.timeAt para.division ∨
        para.division < 24 ∧ para.timeAt para.division ≠ para.timeAt (para.division + 1)) ∧
    ((∃ k < para.division - 1, para.timeAt (para.division - 1) ≤ para.timeAt k) →
      para.timeAt (para.division - 1) ≠ para.timeAt para.division)

/-- If it is a part, its time is later than all before. -/
def Visits (para : LyricsPara) (ii : ℕ) : Prop :=
  ii < para.division → ∀ k < ii, para.timeAt k < para.timeAt ii

/-! ### Setting up a part -/

variable {font : Font} {para : LyricsPara} {l l' : Line} {ii j m n : ℕ} {tm : Int32}

theorem exists_time (para : LyricsPara) {k : ℕ} (hk : k < 25) :
    ∃ time, para.time[k]? = some time ∧ time.toInt = para.timeAt k := by
  refine ⟨para.time[k], Vector.getElem?_eq_getElem hk, ?_⟩
  rw [LyricsPara.timeAt, Vector.getElem?_eq_getElem hk, Option.getD_some]

theorem exists_jump (para : LyricsPara) {k : ℕ} (hk : k < 25) : ∃ jump, para.jump[k]? = some jump :=
  ⟨para.jump[k], Vector.getElem?_eq_getElem hk⟩

/-- The parts that are skipped have no greater time, and the next one has. -/
theorem skipParts_eq (para : LyricsPara) (hend : ii + j + n ≤ 25) :
    ∃ past, skipParts para ii n j = some past ∧ j ≤ past ∧ past ≤ j + n ∧
      (∀ i, j ≤ i → i < past → para.timeAt (ii + i) ≤ para.timeAt ii) ∧
        (past < j + n → para.timeAt ii < para.timeAt (ii + past)) := by
  induction n generalizing j with
  | zero =>
    exact ⟨j, rfl, Nat.le_refl j, Nat.le_refl j, fun i h1 h2 ↦ absurd h2 (Nat.not_lt.mpr h1),
      fun h ↦ absurd h (Nat.lt_irrefl j)⟩
  | succ n ih =>
    obtain ⟨later, hlater, hlater'⟩ := exists_time para (show ii + j < 25 by omega)
    obtain ⟨earlier, hearlier, hearlier'⟩ := exists_time para (show ii < 25 by omega)
    have hskip : skipParts para ii (n + 1) j =
        if later ≤ earlier then skipParts para ii n (j + 1) else some j := by
      simp [skipParts, hlater, hearlier]
    rw [hskip]
    split_ifs with hle
    · rw [Int32.le_iff_toInt_le] at hle
      obtain ⟨past, hrun, hj, hpast, hall, hnext⟩ := ih (j := j + 1) (by omega)
      refine ⟨past, hrun, by omega, by omega, fun i h1 h2 ↦ ?_, fun h ↦ hnext (by omega)⟩
      rcases Nat.eq_or_lt_of_le h1 with rfl | hlt
      · omega
      · exact hall i hlt h2
    · rw [Int32.le_iff_toInt_le] at hle
      exact ⟨j, rfl, Nat.le_refl j, by omega, fun i h1 h2 ↦ absurd h2 (Nat.not_lt.mpr h1),
        fun _ ↦ by omega⟩

/-- The line with its next part set up, up to the last part that is skipped. -/
structure Prepared (l l' : Line) (m : ℕ) : Prop where
  lyr : l'.lyr = l.lyr
  later : l'.later = l.later
  division : l'.division = l.division
  lstop : l'.lstop = l.lstop
  state : l'.state = .drawing
  ii : l'.ii = m
  step_pos : 1 ≤ l'.step

/-- The step is at least one, unless the times are the same. -/
theorem stepWidth_cases (font : Font) (width : ℤ) (later earlier : Int32) :
    (later.toInt = earlier.toInt ∧ stepWidth font width later earlier = none) ∨
      (later.toInt ≠ earlier.toInt ∧ ∃ step, stepWidth font width later earlier = some step ∧
        1 ≤ step) := by
  have hzero : later - earlier = 0 ↔ later.toInt = earlier.toInt := by
    rw [Int32.sub_eq_iff_eq_add, Int32.zero_add, Int32.toInt_inj]
  by_cases heq : later.toInt = earlier.toInt
  · refine .inl ⟨heq, ?_⟩
    rw [stepWidth, if_pos (hzero.mpr heq)]
  · refine .inr ⟨heq, ?_⟩
    rw [stepWidth, if_neg (mt hzero.mp heq)]
    refine ⟨_, rfl, ?_⟩
    split_ifs with hlt
    · exact Int.le_refl 1
    · omega

/-- The entries of a part and of the one behind it. -/
theorem exists_span (para : LyricsPara) {k : ℕ} (hk : k < 24) :
    ∃ left right later earlier, para.jump[k]? = some left ∧ para.jump[k + 1]? = some right ∧
      para.time[k + 1]? = some later ∧ para.time[k]? = some earlier ∧
      (later > earlier ↔ para.timeAt k < para.timeAt (k + 1)) ∧
      (later.toInt = earlier.toInt ↔ para.timeAt k = para.timeAt (k + 1)) := by
  obtain ⟨left, hleft⟩ := exists_jump para (show k < 25 by omega)
  obtain ⟨right, hright⟩ := exists_jump para (show k + 1 < 25 by omega)
  obtain ⟨later, hlater, hlater'⟩ := exists_time para (show k + 1 < 25 by omega)
  obtain ⟨earlier, hearlier, hearlier'⟩ := exists_time para (show k < 25 by omega)
  refine ⟨left, right, later, earlier, hleft, hright, hlater, hearlier, ?_, ?_⟩
  · rw [gt_iff_lt, Int32.lt_iff_toInt_lt, hlater', hearlier']
  · rw [hlater', hearlier']
    exact eq_comm

/-- The next part is later. -/
theorem prepare_forward (font : Font) (hii : l.ii < 24)
    (htime : para.timeAt l.ii < para.timeAt (l.ii + 1)) :
    ∃ l', prepare font para l = some l' ∧ Prepared l l' l.ii := by
  obtain ⟨left, right, later, earlier, hleft, hright, hlater, hearlier, hgt, heq⟩ :=
    exists_span para hii
  have hne : later.toInt ≠ earlier.toInt := fun hsame ↦ absurd (heq.mp hsame) (by omega)
  obtain ⟨step, hstep, hpos⟩ := (stepWidth_cases font
    (right.toInt * font.fw - left.toInt * font.fw) later earlier).resolve_left
      (fun hsame ↦ hne hsame.1) |>.2
  rw [prepare, hleft, hright, hlater, hearlier]
  simp only [Option.bind_eq_bind, Option.bind_some, if_pos (hgt.mpr htime), hstep]
  exact ⟨_, rfl, rfl, rfl, rfl, rfl, rfl, rfl, hpos⟩

/-- The parts up to `m` are skipped. -/
structure Skips (para : LyricsPara) (ii m : ℕ) : Prop where
  lt : ii < m
  le : m ≤ max (ii + 1) (para.division - 1)
  skipped : ∀ k, ii < k → k ≤ m → para.timeAt k ≤ para.timeAt ii
  next : m + 1 < para.division → para.timeAt ii < para.timeAt (m + 1)

/-- The loop over the parts stops behind those that are skipped. -/
theorem exists_skips (htime : para.timeAt (ii + 1) ≤ para.timeAt ii) (hii : ii < para.division) :
    ∃ past, skipParts para ii (para.division - (ii + 2)) 2 = some past ∧ 2 ≤ past ∧
      Skips para ii (ii + (past - 1)) := by
  have hle := para.division_le
  have hend : ii + 2 + (para.division - (ii + 2)) ≤ 25 := by omega
  obtain ⟨past, hpast, hge, hpastle, hall, hnext⟩ := skipParts_eq para hend
  refine ⟨past, hpast, hge, by omega, by omega, fun k hk hkm ↦ ?_, fun hm ↦ ?_⟩
  · rcases Nat.eq_or_lt_of_le hk with rfl | hlt
    · exact htime
    · have hat := hall (k - ii) (by omega) (by omega)
      rwa [Nat.add_sub_cancel' (by omega)] at hat
  · have hat := hnext (by omega)
    rwa [show ii + past = ii + (past - 1) + 1 by omega] at hat

/-- The next part is not later. -/
theorem prepare_back (font : Font) (hdivision : l.division = para.division)
    (hii : l.ii < para.division) (htime : para.timeAt (l.ii + 1) ≤ para.timeAt l.ii) :
    ∃ m, Skips para l.ii m ∧
      ((m < 24 ∧ para.timeAt m ≠ para.timeAt (m + 1) ∧
          ∃ l', prepare font para l = some l' ∧ Prepared l l' m) ∨
        (¬(m < 24 ∧ para.timeAt m ≠ para.timeAt (m + 1)) ∧ prepare font para l = none)) := by
  have hle := para.division_le
  obtain ⟨past, hpast, hge, hskips⟩ := exists_skips htime hii
  have hmle := hskips.le
  obtain ⟨left, right, later, earlier, hleft, hright, hlater, hearlier, hgt, -⟩ :=
    exists_span para (show l.ii < 24 by omega)
  rw [← hdivision] at hpast
  refine ⟨l.ii + (past - 1), hskips, ?_⟩
  rw [prepare, hleft, hright, hlater, hearlier]
  simp only [Option.bind_eq_bind, Option.bind_some, if_neg (mt hgt.mp (Int.not_lt.mpr htime)),
    hpast]
  by_cases hlt : l.ii + (past - 1) < 24
  · obtain ⟨r, stop, later', earlier', hr, hstop, hlater', hearlier', -, heq⟩ :=
      exists_span para hlt
    simp only [hr, hstop, hlater', hearlier', Option.bind_some]
    rcases stepWidth_cases font (stop.toInt * font.fw - r.toInt * font.fw) later' earlier' with
      ⟨hsame, hnone⟩ | ⟨hne, step, hstep, hpos⟩
    · rw [hnone]
      exact .inr ⟨fun h ↦ h.2 (heq.mp hsame), rfl⟩
    · rw [hstep]
      exact .inl ⟨hlt, mt heq.mpr hne, _, rfl, rfl, rfl, rfl, rfl, rfl, rfl, hpos⟩
  · have hstop : para.jump[l.ii + (past - 1) + 1]? = none :=
      Vector.getElem?_eq_none (by omega)
    obtain ⟨r, hr⟩ := exists_jump para (show l.ii + (past - 1) < 25 by omega)
    rw [hr, Option.bind_some, hstop]
    exact .inr ⟨fun h ↦ hlt h.1, rfl⟩

/-! ### Visits -/

theorem Visits.le (hvisits : Visits para ii) (hii : ii < para.division) {k : ℕ} (hk : k ≤ ii) :
    para.timeAt k ≤ para.timeAt ii := by
  rcases Nat.eq_or_lt_of_le hk with rfl | hlt
  · exact Int.le_refl _
  · exact Int.le_of_lt (hvisits hii k hlt)

/-- A visit whose next part is later is followed by a visit. -/
theorem Visits.next (hvisits : Visits para ii) (hii : ii < para.division)
    (htime : para.timeAt ii < para.timeAt (ii + 1)) : Visits para (ii + 1) := by
  intro _ k hk
  have := hvisits.le hii (Nat.le_of_lt_succ hk)
  omega

/-- If it is the last part, the record is schedulable. -/
theorem Visits.schedulable (hvisits : Visits para ii) (hii : ii < para.division)
    (htime : para.timeAt ii < para.timeAt (ii + 1)) (hlast : para.division ≤ ii + 1) :
    Schedulable para := by
  have hd : para.division = ii + 1 := by omega
  refine .inr ?_
  rw [hd, Nat.add_sub_cancel]
  refine ⟨fun _ ↦ .inl htime, ?_⟩
  rintro ⟨k, hk, hkle⟩
  have := hvisits hii k hk
  omega

/-- The parts that are skipped are followed by a visit. -/
theorem Skips.visits (hskips : Skips para ii m) (hvisits : Visits para ii)
    (hii : ii < para.division) : Visits para (m + 1) := by
  intro hm k hk
  have hnext := hskips.next hm
  rcases Nat.lt_or_ge ii k with hk' | hk'
  · have := hskips.skipped k hk' (by omega)
    omega
  · have := hvisits.le hii hk'
    omega

/-- If they go up to the last part, and the times behind them differ, the record is schedulable. -/
theorem Skips.schedulable (hskips : Skips para ii m) (hvisits : Visits para ii)
    (hii : ii < para.division) (hlast : para.division ≤ m + 1) (hlt : m < 24)
    (hne : para.timeAt m ≠ para.timeAt (m + 1)) : Schedulable para := by
  have hlater := hskips.lt
  have hmle := hskips.le
  refine .inr ⟨fun hall ↦ ?_, ?_⟩
  · by_cases hd : para.division = ii + 1
    · have hm : m = para.division := by omega
      exact .inr ⟨hm ▸ hlt, hm ▸ hne⟩
    · have hm : m = para.division - 1 := by omega
      have := hall ii (by omega)
      have := hskips.skipped m hlater (Nat.le_refl m)
      rw [hm] at this
      omega
  · rintro ⟨k, hk, hkle⟩
    by_cases hd : para.division = ii + 1
    · have := hvisits hii k (by omega)
      rw [show ii = para.division - 1 by omega] at this
      omega
    · have hm : m = para.division - 1 := by omega
      rw [show para.division = m + 1 by omega, Nat.add_sub_cancel]
      exact hne

/-- What a part that was set up leads to: the next visit, and behind the last one the record is
known to be schedulable. -/
theorem Visits.prepare (hvisits : Visits para l.ii) (hdivision : l.division = para.division)
    (hii : l.ii < para.division) (hrun : LyricsOsd.prepare font para l = some l') :
    ∃ m, Prepared l l' m ∧ l.ii ≤ m ∧ Visits para (m + 1) ∧
      (para.division ≤ m + 1 → Schedulable para) := by
  have hle := para.division_le
  by_cases htime : para.timeAt l.ii < para.timeAt (l.ii + 1)
  · obtain ⟨l1, hrun1, hprepared⟩ := prepare_forward font (by omega) htime
    obtain rfl : l' = l1 := Option.some.inj (hrun.symm.trans hrun1)
    exact ⟨l.ii, hprepared, Nat.le_refl _, hvisits.next hii htime, hvisits.schedulable hii htime⟩
  · obtain ⟨m, hskips, ⟨hlt, hne, l1, hrun1, hprepared⟩ | ⟨-, hnone⟩⟩ :=
      prepare_back font hdivision hii (Int.not_lt.mp htime)
    · obtain rfl : l' = l1 := Option.some.inj (hrun.symm.trans hrun1)
      exact ⟨m, hprepared, Nat.le_of_lt hskips.lt, hskips.visits hvisits hii,
        fun hlast ↦ hskips.schedulable hvisits hii hlast hlt hne⟩
    · rw [hnone] at hrun
      cases hrun

/-- Every part of a schedulable record can be set up. -/
theorem Schedulable.prepare (hschedulable : Schedulable para) (font : Font)
    (hdivision : l.division = para.division) (hii : l.ii < para.division)
    (hvisits : Visits para l.ii) : ∃ l', LyricsOsd.prepare font para l = some l' := by
  have hle := para.division_le
  by_cases htime : para.timeAt l.ii < para.timeAt (l.ii + 1)
  · obtain ⟨l', hrun, -⟩ := prepare_forward font (by omega) htime
    exact ⟨l', hrun⟩
  · obtain ⟨m, hskips, ⟨-, -, l', hrun, -⟩ | ⟨hnot, -⟩⟩ :=
      prepare_back font hdivision hii (Int.not_lt.mp htime)
    · exact ⟨l', hrun⟩
    · refine absurd ?_ hnot
      have hlater := hskips.lt
      have hmle := hskips.le
      obtain ⟨hlast, hbefore⟩ := hschedulable.resolve_left (by omega)
      by_cases hd : para.division = l.ii + 1
      · have hm : m = para.division := by omega
        have hl : l.ii = para.division - 1 := by omega
        rw [hl, Nat.sub_add_cancel (by omega)] at htime
        rw [hl] at hvisits
        rw [hm]
        exact (hlast (hvisits (by omega))).resolve_left htime
      · have hskipped := hskips.skipped m hlater (Nat.le_refl m)
        refine ⟨by omega, ?_⟩
        by_cases hm : m + 1 < para.division
        · have := hskips.next hm
          omega
        · have hm' : m = para.division - 1 := by omega
          have hne := hbefore ⟨l.ii, by omega, hm' ▸ hskipped⟩
          rwa [← hm', show para.division = m + 1 by omega] at hne

end Katmai.LyricsOsd
