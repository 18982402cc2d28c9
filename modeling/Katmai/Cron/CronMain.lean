import Katmai.Cron.LineMatching
import Katmai.Foundation.CallRun
import Mathlib.Data.List.Range

/-!
# The times at which the table is looked up

`cron_main` of `cron/cron.c` looks the table up if the minute is a multiple of `timeslot`, starts a
thread for each command, and sleeps to the next such minute. A round takes time before and after the
sleep, and a signal that ends a `sleep` makes the loop around it sleep for the rest twice
(`sleepLoop_eq`).

Where `timeslot` divides 60, the loop looks the table up once in each of these minutes exactly if no
round loses as much time as to miss one (`cronMain_iff`); in no case does it look it up twice.
-/

set_option autoImplicit false
set_option relaxedAutoImplicit false

namespace Katmai.Cron

open Foundation

/-! ### The loop -/

/-- `localtime`, for each minute of the clock. -/
structure Calendar where
  tm : ℕ → Tm
  min_eq : ∀ minute, (tm minute).min = minute % 60

/-- What a round finds: the seconds from the first call of `time` to the second, the signals that end
a `sleep`, each with the seconds slept before it and in the `sleep` that follows it inside the loop,
and the seconds from the end of the last `sleep` to the next round. -/
structure Round where
  work : ℕ
  signals : List (ℕ × ℕ)
  late : ℕ

/-- `stime`. -/
def sleepTime (timeslot tmMin tmSec : ℕ) : ℕ :=
  (59 - tmMin) % timeslot * 60 + (60 - tmSec)

/-- The seconds in the loop `while ((stime = sleep (stime)) != 0) sleep (stime);`. -/
def sleepLoop (stime : ℕ) : List (ℕ × ℕ) → ℕ
  | [] => stime
  | (slept, inner) :: signals => slept + inner + sleepLoop (stime - slept) signals

/-- The second call of `time` in a round, and the time to sleep from then. -/
def Round.sleepFrom (cal : Calendar) (timeslot now : ℕ) (r : Round) : ℕ × ℕ :=
  let now := now + r.work
  (now, sleepTime timeslot (cal.tm (now / 60)).min (now % 60))

/-- One round at the second `now`: the minute and the commands that are started, if the table is
looked up, and the second of the next round. -/
def cronRound (cal : Calendar) (timeslot : ℕ) (cj : Cronjob) (now : ℕ) (r : Round) :
    Option (ℕ × List (List Char)) × ℕ :=
  let tm := cal.tm (now / 60)
  let (again, stime) := r.sleepFrom cal timeslot now
  (if tm.min % timeslot = 0 then some (now / 60, commandsAt cj tm) else none,
    again + sleepLoop stime r.signals + r.late)

/-- `cron_main`: the look-ups of some rounds from the second `now` on, and the second after them. -/
def cronMain (cal : Calendar) (timeslot : ℕ) (cj : Cronjob) (now : ℕ) (rounds : List Round) :
    List (ℕ × List (List Char)) × ℕ :=
  let (answers, stop) := replies (cronRound cal timeslot cj) now rounds
  (answers.reduceOption, stop)

/-! ### Time slots -/

/-- The next minute that is a multiple of `timeslot`. -/
def nextSlot (timeslot minute : ℕ) : ℕ :=
  (minute / timeslot + 1) * timeslot

/-- The minutes from `first` to before `last` that are multiples of `timeslot`. -/
def slots (timeslot first last : ℕ) : List ℕ :=
  (List.range' first (last - first)).filter fun minute ↦ minute % timeslot = 0

/-- The seconds that are slept twice. -/
def sleptTwice : List (ℕ × ℕ) → ℕ
  | [] => 0
  | (_, inner) :: signals => inner + sleptTwice signals

/-- The seconds by which a round comes late. -/
def Round.lateness (r : Round) : ℕ :=
  sleptTwice r.signals + r.late

/-- A `sleep` is ended before its time, and the `sleep` inside the loop takes no longer than it is
told. -/
def Interrupts : ℕ → List (ℕ × ℕ) → Prop
  | _, [] => True
  | stime, (slept, inner) :: signals =>
    slept < stime ∧ inner ≤ stime - slept ∧ Interrupts (stime - slept) signals

/-- The signals of a round end its sleeps. -/
def Round.Proper (cal : Calendar) (timeslot now : ℕ) (r : Round) : Prop :=
  Interrupts (r.sleepFrom cal timeslot now).2 r.signals

/-- The second call of `time` is before the next slot, and the next round in its first minute. -/
def Round.InTime (timeslot now : ℕ) (r : Round) : Prop :=
  (now + r.work) / 60 < nextSlot timeslot (now / 60) ∧ r.lateness < 60

variable {timeslot minute : ℕ}

theorem lt_nextSlot (hpos : 0 < timeslot) (minute : ℕ) : minute < nextSlot timeslot minute := by
  have hdiv := Nat.div_add_mod minute timeslot
  have hmod := Nat.mod_lt minute hpos
  rw [nextSlot, Nat.add_mul, Nat.one_mul, Nat.mul_comm]
  omega

theorem nextSlot_mono {first second : ℕ} (hle : first ≤ second) :
    nextSlot timeslot first ≤ nextSlot timeslot second :=
  Nat.mul_le_mul_right _ (Nat.add_le_add_right (Nat.div_le_div_right hle) 1)

theorem dvd_nextSlot (timeslot minute : ℕ) : timeslot ∣ nextSlot timeslot minute :=
  Dvd.intro_left _ rfl

/-- There is no slot before the next one. -/
theorem nextSlot_le {later : ℕ} (hpos : 0 < timeslot) (hlt : minute < later)
    (hdvd : timeslot ∣ later) : nextSlot timeslot minute ≤ later := by
  obtain ⟨k, rfl⟩ := hdvd
  have hk : minute / timeslot < k := (Nat.div_lt_iff_lt_mul hpos).mpr (by rwa [Nat.mul_comm])
  rw [nextSlot, Nat.mul_comm timeslot]
  exact Nat.mul_le_mul_right _ hk

/-- Where the hour is a number of slots, the loop sleeps to the next one. -/
theorem sleepTime_eq (hpos : 0 < timeslot) (hdvd : timeslot ∣ 60) (now : ℕ) :
    now + sleepTime timeslot (now / 60 % 60) (now % 60) = nextSlot timeslot (now / 60) * 60 := by
  generalize hm : now / 60 = m
  obtain ⟨q, hq⟩ := hdvd
  have hmod : m % 60 % timeslot = m % timeslot := Nat.mod_mod_of_dvd m ⟨q, hq⟩
  have hlt : m % 60 < 60 := Nat.mod_lt m (by decide)
  have hb : m % timeslot < timeslot := Nat.mod_lt m hpos
  have hdiv := Nat.div_add_mod (m % 60) timeslot
  rw [hmod] at hdiv
  have ha : m % 60 / timeslot < q := by
    rw [Nat.div_lt_iff_lt_mul hpos, Nat.mul_comm, ← hq]
    exact hlt
  obtain ⟨d, rfl⟩ := Nat.exists_eq_add_of_lt ha
  have hrest : (59 - m % 60) % timeslot = timeslot - 1 - m % timeslot := by
    have hsum : 59 - m % 60 = (timeslot - 1 - m % timeslot) + timeslot * d := by
      rw [Nat.mul_add, Nat.mul_add, Nat.mul_one] at hq
      omega
    rw [hsum, Nat.add_mul_mod_self_left]
    exact Nat.mod_eq_of_lt (by omega)
  have hm' := Nat.div_add_mod m timeslot
  rw [sleepTime, hrest, nextSlot, Nat.add_mul (m / timeslot), Nat.one_mul, Nat.mul_comm _ timeslot]
  omega

theorem sleepLoop_eq {stime : ℕ} {signals : List (ℕ × ℕ)} (h : Interrupts stime signals) :
    sleepLoop stime signals = stime + sleptTwice signals := by
  induction signals generalizing stime with
  | nil => rfl
  | cons signal signals ih =>
    obtain ⟨slept, inner⟩ := signal
    obtain ⟨hslept, -, hrest⟩ := h
    rw [sleepLoop, ih hrest, sleptTwice]
    omega

theorem slots_append {first mid last : ℕ} (hfirst : first ≤ mid) (hlast : mid ≤ last) :
    slots timeslot first last = slots timeslot first mid ++ slots timeslot mid last := by
  rw [slots, slots, slots, ← List.filter_append]
  congr 1
  rw [show last - first = (mid - first) + (last - mid) by omega, ← List.range'_append_1]
  congr 2
  omega

theorem slots_cons {last : ℕ} (hlt : minute < last) :
    slots timeslot minute last =
      (if minute % timeslot = 0 then [minute] else []) ++ slots timeslot (minute + 1) last := by
  rw [slots, slots, show last - minute = last - (minute + 1) + 1 by omega, List.range'_succ,
    List.filter_cons]
  split_ifs with hslot <;> simp_all

/-- The slots before the one that is next. -/
theorem slots_eq_iff (hpos : 0 < timeslot) {last : ℕ} (hlast : nextSlot timeslot minute ≤ last) :
    (if minute % timeslot = 0 then [minute] else []) = slots timeslot minute last ↔
      nextSlot timeslot minute = last := by
  have hlt := lt_nextSlot hpos minute
  have hnil : slots timeslot (minute + 1) last = [] ↔ nextSlot timeslot minute = last := by
    rw [slots, List.filter_eq_nil_iff]
    constructor
    · intro hnone
      by_contra hne
      refine hnone (nextSlot timeslot minute) ?_ ?_
      · rw [List.mem_range'_1]
        omega
      · exact decide_eq_true (Nat.mod_eq_zero_of_dvd (dvd_nextSlot timeslot minute))
    · intro heq later hlater hslot
      rw [List.mem_range'_1] at hlater
      have hle := nextSlot_le hpos hlater.1 (Nat.dvd_of_mod_eq_zero (of_decide_eq_true hslot))
      omega
  rw [slots_cons (Nat.lt_of_lt_of_le hlt hlast), List.self_eq_append_right, hnil]

/-! ### Rounds -/

variable {cal : Calendar} {cj : Cronjob} {now : ℕ} {r : Round}

theorem cronRound_snd (hpos : 0 < timeslot) (hdvd : timeslot ∣ 60)
    (hproper : r.Proper cal timeslot now) :
    (cronRound cal timeslot cj now r).2 =
      nextSlot timeslot ((now + r.work) / 60) * 60 + r.lateness := by
  have hsleep := sleepTime_eq hpos hdvd (now + r.work)
  change now + r.work + sleepLoop (r.sleepFrom cal timeslot now).2 r.signals + r.late = _
  rw [sleepLoop_eq hproper, Round.sleepFrom, cal.min_eq, Round.lateness]
  omega

/-- The minute of the next round. -/
theorem cronRound_minute (hpos : 0 < timeslot) (hdvd : timeslot ∣ 60)
    (hproper : r.Proper cal timeslot now) :
    (cronRound cal timeslot cj now r).2 / 60 =
      nextSlot timeslot ((now + r.work) / 60) + r.lateness / 60 := by
  rw [cronRound_snd hpos hdvd hproper]
  omega

theorem nextSlot_le_cronRound (hpos : 0 < timeslot) (hdvd : timeslot ∣ 60)
    (hproper : r.Proper cal timeslot now) :
    nextSlot timeslot (now / 60) ≤ (cronRound cal timeslot cj now r).2 / 60 := by
  have hmono : nextSlot timeslot (now / 60) ≤ nextSlot timeslot ((now + r.work) / 60) :=
    nextSlot_mono (Nat.div_le_div_right (Nat.le_add_right now r.work))
  rw [cronRound_minute hpos hdvd hproper]
  omega

/-- A round that is in time leads to the next slot, and no other does. -/
theorem inTime_iff (hpos : 0 < timeslot) (hdvd : timeslot ∣ 60)
    (hproper : r.Proper cal timeslot now) :
    nextSlot timeslot (now / 60) = (cronRound cal timeslot cj now r).2 / 60 ↔
      r.InTime timeslot now := by
  have hle : now / 60 ≤ (now + r.work) / 60 := Nat.div_le_div_right (Nat.le_add_right now r.work)
  have hmono : nextSlot timeslot (now / 60) ≤ nextSlot timeslot ((now + r.work) / 60) :=
    nextSlot_mono hle
  have hlt := lt_nextSlot hpos ((now + r.work) / 60)
  rw [cronRound_minute hpos hdvd hproper, Round.InTime]
  constructor
  · intro heq
    omega
  · rintro ⟨hwork, hlate⟩
    have hback : nextSlot timeslot ((now + r.work) / 60) ≤ nextSlot timeslot (now / 60) :=
      nextSlot_le hpos hwork (dvd_nextSlot timeslot (now / 60))
    omega

/-- The slot of a round. -/
theorem cronRound_fst (hdvd : timeslot ∣ 60) :
    (cronRound cal timeslot cj now r).1 =
      if now / 60 % timeslot = 0 then some (now / 60, commandsAt cj (cal.tm (now / 60)))
      else none := by
  rw [cronRound, cal.min_eq, Nat.mod_mod_of_dvd _ hdvd]

theorem cronMain_cons (rest : List Round) :
    cronMain cal timeslot cj now (r :: rest) =
      ((cronRound cal timeslot cj now r).1.toList ++
          (cronMain cal timeslot cj (cronRound cal timeslot cj now r).2 rest).1,
        (cronMain cal timeslot cj (cronRound cal timeslot cj now r).2 rest).2) := by
  rw [cronMain, replies, cronMain]
  cases (cronRound cal timeslot cj now r).1 <;> rfl

theorem map_fst_cronRound (hdvd : timeslot ∣ 60) :
    (cronRound cal timeslot cj now r).1.toList.map Prod.fst =
      if now / 60 % timeslot = 0 then [now / 60] else [] := by
  rw [cronRound_fst hdvd]
  split_ifs <;> rfl

theorem le_cronMain (hpos : 0 < timeslot) (hdvd : timeslot ∣ 60) {rounds : List Round}
    (hproper : Along (cronRound cal timeslot cj) (Round.Proper cal timeslot) now rounds) :
    now / 60 ≤ (cronMain cal timeslot cj now rounds).2 / 60 := by
  induction rounds generalizing now with
  | nil => exact Nat.le_refl _
  | cons r rest ih =>
    rw [cronMain_cons]
    have hnext : nextSlot timeslot (now / 60) ≤ (cronRound cal timeslot cj now r).2 / 60 :=
      nextSlot_le_cronRound hpos hdvd hproper.1
    have hlt := lt_nextSlot hpos (now / 60)
    exact Nat.le_trans (by omega) (ih hproper.2)

/-- Each slot is visited once at most, in the order of time. -/
theorem cronMain_sublist (hpos : 0 < timeslot) (hdvd : timeslot ∣ 60) {rounds : List Round}
    (hproper : Along (cronRound cal timeslot cj) (Round.Proper cal timeslot) now rounds) :
    ((cronMain cal timeslot cj now rounds).1.map Prod.fst).Sublist
      (slots timeslot (now / 60) ((cronMain cal timeslot cj now rounds).2 / 60)) := by
  induction rounds generalizing now with
  | nil => exact List.nil_sublist _
  | cons r rest ih =>
    have hnext : nextSlot timeslot (now / 60) ≤ (cronRound cal timeslot cj now r).2 / 60 :=
      nextSlot_le_cronRound hpos hdvd hproper.1
    have hlt := lt_nextSlot hpos (now / 60)
    rw [cronMain_cons, List.map_append, map_fst_cronRound hdvd,
      slots_append (Nat.le_trans (Nat.le_of_lt hlt) hnext) (le_cronMain hpos hdvd hproper.2)]
    refine List.Sublist.append ?_ (ih hproper.2)
    rw [slots_cons (Nat.lt_of_lt_of_le hlt hnext)]
    exact List.sublist_append_left _ _

/-- Lists that are within others one by one are these when they are together. -/
theorem append_eq_append_iff_of_sublist {α : Type} {first second first' second' : List α}
    (hfirst : first.Sublist first') (hsecond : second.Sublist second') :
    first ++ second = first' ++ second' ↔ first = first' ∧ second = second' := by
  constructor
  · intro heq
    have hlength := congrArg List.length heq
    rw [List.length_append, List.length_append] at hlength
    have hle := hfirst.length_le
    have hle' := hsecond.length_le
    exact ⟨hfirst.eq_of_length (by omega), hsecond.eq_of_length (by omega)⟩
  · rintro ⟨rfl, rfl⟩
    rfl

/-- The table is looked up in every slot, once, exactly if all rounds are in time. -/
theorem cronMain_slots_iff (hpos : 0 < timeslot) (hdvd : timeslot ∣ 60) {rounds : List Round}
    (hproper : Along (cronRound cal timeslot cj) (Round.Proper cal timeslot) now rounds) :
    (cronMain cal timeslot cj now rounds).1.map Prod.fst =
        slots timeslot (now / 60) ((cronMain cal timeslot cj now rounds).2 / 60) ↔
      Along (cronRound cal timeslot cj) (Round.InTime timeslot) now rounds := by
  induction rounds generalizing now with
  | nil =>
    refine iff_of_true ?_ trivial
    change [] = slots timeslot (now / 60) (now / 60)
    rw [slots, Nat.sub_self]
    rfl
  | cons r rest ih =>
    have hnext : nextSlot timeslot (now / 60) ≤ (cronRound cal timeslot cj now r).2 / 60 :=
      nextSlot_le_cronRound hpos hdvd hproper.1
    have hlt := lt_nextSlot hpos (now / 60)
    have hfirst : (if now / 60 % timeslot = 0 then [now / 60] else []).Sublist
        (slots timeslot (now / 60) ((cronRound cal timeslot cj now r).2 / 60)) := by
      rw [slots_cons (Nat.lt_of_lt_of_le hlt hnext)]
      exact List.sublist_append_left _ _
    rw [cronMain_cons, List.map_append, map_fst_cronRound hdvd,
      slots_append (Nat.le_trans (Nat.le_of_lt hlt) hnext) (le_cronMain hpos hdvd hproper.2),
      append_eq_append_iff_of_sublist hfirst (cronMain_sublist hpos hdvd hproper.2), ih hproper.2,
      slots_eq_iff hpos hnext, inTime_iff hpos hdvd hproper.1]
    rfl

/-- What is started in a slot that is visited. -/
theorem mem_cronMain {rounds : List Round} {answer : ℕ × List (List Char)}
    (hmem : answer ∈ (cronMain cal timeslot cj now rounds).1) :
    answer.2 = commandsAt cj (cal.tm answer.1) := by
  induction rounds generalizing now with
  | nil => exact absurd hmem List.not_mem_nil
  | cons r rest ih =>
    rw [cronMain_cons, List.mem_append, Option.mem_toList] at hmem
    rcases hmem with hfirst | hrest
    · rw [cronRound] at hfirst
      dsimp only at hfirst
      split at hfirst
      · rw [← Option.some.inj hfirst]
      · cases hfirst
    · exact ih hrest

/-- The table is looked up at most once in a slot, and in no other minute, and in every slot exactly
if all rounds are in time. -/
theorem cronMain_iff (cal : Calendar) (cj : Cronjob) (now : ℕ) (rounds : List Round)
    (hpos : 0 < timeslot) (hdvd : timeslot ∣ 60)
    (hproper : Along (cronRound cal timeslot cj) (Round.Proper cal timeslot) now rounds) :
    ((cronMain cal timeslot cj now rounds).1.map Prod.fst).Sublist
        (slots timeslot (now / 60) ((cronMain cal timeslot cj now rounds).2 / 60)) ∧
      ((cronMain cal timeslot cj now rounds).1.map Prod.fst =
          slots timeslot (now / 60) ((cronMain cal timeslot cj now rounds).2 / 60) ↔
        Along (cronRound cal timeslot cj) (Round.InTime timeslot) now rounds) :=
  ⟨cronMain_sublist hpos hdvd hproper, cronMain_slots_iff hpos hdvd hproper⟩

/-- Every minute at two o'clock on a Sunday. -/
def sundayMinutes : Calendar where
  tm minute :=
    { min := minute % 60, hour := 2, mday := 1, mon := 0, wday := 0
      min_lt := Nat.mod_lt _ (Nat.succ_pos 59), hour_lt := twoOClock.hour_lt
      mday_pos := twoOClock.mday_pos, mday_le := twoOClock.mday_le
      mon_lt := twoOClock.mon_lt, wday_lt := twoOClock.wday_lt }
  min_eq _ := rfl

/-- Slots of ten minutes: a signal 30 seconds into a sleep of ten minutes makes the loop miss the
slot 20. -/
theorem cronMain_iff_signal :
    (cronMain sundayMinutes 10 newCronjob 600 [⟨0, [(30, 570)], 0⟩, ⟨0, [], 0⟩]).1.map Prod.fst ≠
      slots 10 10 30 := by
  have hiff := (cronMain_iff sundayMinutes newCronjob 600 [⟨0, [(30, 570)], 0⟩, ⟨0, [], 0⟩]
    (by decide : 0 < 10) (by decide)
    ⟨⟨by decide, by decide, trivial⟩, trivial, trivial⟩).2
  intro heq
  have hlate := (hiff.mp heq).1.2
  exact absurd hlate (by decide)

end Katmai.Cron
