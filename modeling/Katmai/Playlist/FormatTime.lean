import Mathlib.Data.Char
import Mathlib.Data.List.Basic
import Mathlib.Tactic.Common
import Mathlib.Tactic.Ring

/-!
# The times of a play list

`format_time` reads `YYYYMMDD-HHMM` field by field, checks the range of each and hands the record to
`mktime`. `formatTime_eq_some_iff` says which strings it accepts and that it reads from each the
time that is written there: the days of a month are up to 31 for every month.
-/

set_option autoImplicit false
set_option relaxedAutoImplicit false

namespace Katmai.Playlist

abbrev Str := List Char

/-- The fields of `struct tm` that are set; `tm_sec` and `tm_isdst` are zero. -/
structure Tm where
  year : ℕ
  mon : ℕ
  mday : ℕ
  hour : ℕ
  min : ℕ
  deriving DecidableEq

/-! ### Reading -/

/-- `split`, without the zero at its end. -/
def split : List ℕ :=
  [4, 2, 2, 1, 2, 2]

/-- The loop over the digits of a field, with what is left of the string. -/
def readDigits : ℕ → Str → ℕ → Option (ℕ × Str)
  | 0, str, v => some (v, str)
  | _ + 1, [], _ => none
  | m + 1, c :: str, v =>
    if c > '9' ∨ c < '0' then none else readDigits m str (v * 10 + (c.toNat - '0'.toNat))

/-- A field: the one of width one is a `-`. -/
def readField (m : ℕ) (str : Str) : Option (ℕ × Str) :=
  if m = 1 then
    match str with
    | '-' :: str => some (0, str)
    | _ => none
  else readDigits m str 0

/-- The `switch` on the number of the field. -/
def setField (tm : Tm) (i v : ℕ) : Option Tm :=
  match i with
  | 0 => if v < 1900 then none else some { tm with year := v - 1900 }
  | 1 => if v < 1 ∨ 12 < v then none else some { tm with mon := v - 1 }
  | 2 => if v < 1 ∨ 31 < v then none else some { tm with mday := v }
  | 4 => if 23 < v then none else some { tm with hour := v }
  | 5 => if 59 < v then none else some { tm with min := v }
  | _ => some tm

/-- The loop over the fields. -/
def readFields : List ℕ → ℕ → Str → Tm → Option Tm
  | [], _, _, tm => some tm
  | m :: ms, i, str, tm =>
    (readField m str).bind fun (v, str) ↦ (setField tm i v).bind (readFields ms (i + 1) str)

/-- `format_time` up to the call of `mktime`. -/
def formatTime (str : Str) : Option Tm :=
  if str.length ≠ 13 then none else readFields split 0 str ⟨0, 0, 0, 0, 0⟩

/-! ### Writing -/

/-- A number with `n` digits. -/
def digits : ℕ → ℕ → Str
  | 0, _ => []
  | n + 1, v => digits n (v / 10) ++ [Char.ofNat ('0'.toNat + v % 10)]

/-- The time as a play list has it. -/
def Tm.text (tm : Tm) : Str :=
  digits 4 (tm.year + 1900) ++ (digits 2 (tm.mon + 1) ++ (digits 2 tm.mday ++
    ('-' :: (digits 2 tm.hour ++ digits 2 tm.min))))

/-- A time whose fields are in their ranges. -/
structure Tm.Valid (tm : Tm) : Prop where
  year_lt : tm.year < 8100
  mon_lt : tm.mon < 12
  mday_pos : 1 ≤ tm.mday
  mday_le : tm.mday ≤ 31
  hour_lt : tm.hour < 24
  min_lt : tm.min < 60

/-! ### The two agree -/

theorem length_digits (n v : ℕ) : (digits n v).length = n := by
  induction n generalizing v with
  | zero => rfl
  | succ n ih => rw [digits, List.length_append, ih, List.length_singleton]

/-- The first digit and the others. -/
theorem digits_succ {n d v : ℕ} (hd : d < 10) (hv : v < 10 ^ n) :
    digits (n + 1) (d * 10 ^ n + v) = Char.ofNat ('0'.toNat + d) :: digits n v := by
  induction n generalizing v with
  | zero =>
    rw [Nat.lt_one_iff.mp hv, digits, digits, digits, Nat.pow_zero, Nat.mul_one, Nat.add_zero,
      Nat.mod_eq_of_lt hd, List.nil_append]
  | succ n ih =>
    have hdiv : v / 10 < 10 ^ n := Nat.div_lt_of_lt_mul (by rwa [Nat.mul_comm, ← Nat.pow_succ])
    have hquot : (d * 10 ^ (n + 1) + v) / 10 = d * 10 ^ n + v / 10 := by
      rw [Nat.pow_succ, ← Nat.mul_assoc]
      omega
    have hrem : (d * 10 ^ (n + 1) + v) % 10 = v % 10 := by
      rw [Nat.pow_succ, ← Nat.mul_assoc]
      omega
    rw [digits, hquot, hrem, ih hdiv, List.cons_append]
    rfl

theorem digit_in_range {d : ℕ} (hd : d < 10) :
    ¬(Char.ofNat ('0'.toNat + d) > '9' ∨ Char.ofNat ('0'.toNat + d) < '0') ∧
      (Char.ofNat ('0'.toNat + d)).toNat - '0'.toNat = d := by
  revert d
  decide

theorem digit_of_in_range {c : Char} (hrange : ¬(c > '9' ∨ c < '0')) :
    c.toNat - '0'.toNat < 10 ∧ Char.ofNat ('0'.toNat + (c.toNat - '0'.toNat)) = c := by
  obtain ⟨hle, hge⟩ := not_or.mp hrange
  have hle : c.toNat ≤ '9'.toNat := not_lt.mp hle
  have hge : '0'.toNat ≤ c.toNat := not_lt.mp hge
  refine ⟨?_, by rw [Nat.add_sub_cancel' hge, Char.ofNat_toNat]⟩
  calc c.toNat - '0'.toNat ≤ '9'.toNat - '0'.toNat := Nat.sub_le_sub_right hle _
    _ < 10 := by decide

/-- The digits that are read are those of a number, and every number is read from its digits. -/
theorem readDigits_eq_some_iff {n w acc : ℕ} {str rest : Str} :
    readDigits n str acc = some (w, rest) ↔
      ∃ v < 10 ^ n, w = acc * 10 ^ n + v ∧ str = digits n v ++ rest := by
  induction n generalizing acc str with
  | zero =>
    simp only [readDigits, Option.some.injEq, Prod.mk.injEq, Nat.pow_zero, Nat.lt_one_iff,
      exists_eq_left, digits, List.nil_append, Nat.mul_one, Nat.add_zero]
    exact and_congr_left fun _ ↦ eq_comm
  | succ n ih =>
    cases str with
    | nil =>
      refine iff_of_false (by simp [readDigits]) ?_
      rintro ⟨v, -, -, hstr⟩
      have hlength := congrArg List.length hstr
      rw [List.length_append, length_digits] at hlength
      simp only [List.length_nil] at hlength
      omega
    | cons c str =>
      rw [readDigits]
      constructor
      · intro hread
        split_ifs at hread with hrange
        obtain ⟨hd, hc⟩ := digit_of_in_range hrange
        obtain ⟨v, hv, rfl, rfl⟩ := ih.mp hread
        refine ⟨(c.toNat - '0'.toNat) * 10 ^ n + v, ?_, ?_, ?_⟩
        · calc _ < (c.toNat - '0'.toNat) * 10 ^ n + 10 ^ n := Nat.add_lt_add_left hv _
            _ = (c.toNat - '0'.toNat + 1) * 10 ^ n := (Nat.succ_mul _ _).symm
            _ ≤ 10 * 10 ^ n := Nat.mul_le_mul_right _ hd
            _ = 10 ^ (n + 1) := by rw [Nat.pow_succ, Nat.mul_comm]
        · rw [Nat.pow_succ]
          ring
        · rw [digits_succ hd hv, hc, List.cons_append]
      · rintro ⟨v, hv, rfl, hstr⟩
        have hd : v / 10 ^ n < 10 := Nat.div_lt_of_lt_mul (by rwa [← Nat.pow_succ])
        have hlow : v % 10 ^ n < 10 ^ n := Nat.mod_lt v (Nat.pow_pos (by decide))
        rw [← Nat.div_add_mod' v (10 ^ n), digits_succ hd hlow, List.cons_append] at hstr
        obtain ⟨rfl, rfl⟩ := List.cons.inj hstr
        rw [if_neg (digit_in_range hd).1, (digit_in_range hd).2]
        refine ih.mpr ⟨v % 10 ^ n, hlow, ?_, rfl⟩
        conv_lhs => rw [← Nat.div_add_mod' v (10 ^ n)]
        rw [Nat.pow_succ]
        ring

/-- A field of digits that is read and set, before a field. -/
theorem readFields_cons_iff {m i : ℕ} {ms : List ℕ} {str : Str} {tm done : Tm} (hm : m ≠ 1) :
    readFields (m :: ms) i str tm = some done ↔
      ∃ v rest tm', v < 10 ^ m ∧ str = digits m v ++ rest ∧ setField tm i v = some tm' ∧
        readFields ms (i + 1) rest tm' = some done := by
  have hfield : readField m str = readDigits m str 0 := if_neg hm
  rw [readFields, hfield, Option.bind_eq_some_iff]
  constructor
  · rintro ⟨⟨w, rest⟩, hread, hset⟩
    obtain ⟨v, hv, hw, hstr⟩ := readDigits_eq_some_iff.mp hread
    obtain rfl : w = v := by rw [hw, Nat.zero_mul, Nat.zero_add]
    obtain ⟨tm', hset, hrest⟩ := Option.bind_eq_some_iff.mp hset
    exact ⟨w, rest, tm', hv, hstr, hset, hrest⟩
  · rintro ⟨v, rest, tm', hv, hstr, hset, hrest⟩
    refine ⟨(v, rest), readDigits_eq_some_iff.mpr ⟨v, hv, by rw [Nat.zero_mul, Nat.zero_add], hstr⟩,
      Option.bind_eq_some_iff.mpr ⟨tm', hset, hrest⟩⟩

/-- The field that is a `-`. -/
theorem readFields_dash_iff {ms : List ℕ} {str : Str} {tm done : Tm} :
    readFields (1 :: ms) 3 str tm = some done ↔
      ∃ rest, str = '-' :: rest ∧ readFields ms 4 rest tm = some done := by
  constructor
  · intro hread
    obtain ⟨⟨v, rest⟩, hdash, hrest⟩ := Option.bind_eq_some_iff.mp hread
    unfold readField at hdash
    rw [if_pos rfl] at hdash
    split at hdash
    · obtain ⟨rfl, rfl⟩ := Prod.mk.inj (Option.some.inj hdash)
      exact ⟨_, rfl, hrest⟩
    · cases hdash
  · rintro ⟨rest, rfl, hrest⟩
    exact hrest

theorem Tm.length_text (tm : Tm) : tm.text.length = 13 := by
  simp [Tm.text, length_digits]

/-- A string that is accepted is the time that is read from it, as it is written. -/
theorem eq_text_of_formatTime {str : Str} {tm : Tm} (hread : formatTime str = some tm) :
    tm.Valid ∧ str = tm.text := by
  unfold formatTime split at hread
  split_ifs at hread with hlength
  obtain ⟨y, _, tm1, hy, rfl, hyear, hread1⟩ := (readFields_cons_iff (by decide)).mp hread
  obtain ⟨mo, _, tm2, hmo, rfl, hmon, hread2⟩ := (readFields_cons_iff (by decide)).mp hread1
  obtain ⟨d, _, tm3, hd, rfl, hmday, hread3⟩ := (readFields_cons_iff (by decide)).mp hread2
  obtain ⟨_, rfl, hread4⟩ := readFields_dash_iff.mp hread3
  obtain ⟨h, _, tm5, hh, rfl, hhour, hread5⟩ := (readFields_cons_iff (by decide)).mp hread4
  obtain ⟨mi, rest, tm6, hmi, rfl, hmin, hread6⟩ := (readFields_cons_iff (by decide)).mp hread5
  -- no character is left
  obtain rfl : rest = [] := List.eq_nil_of_length_eq_zero (by
    simp only [List.length_append, List.length_cons, length_digits] at hlength
    omega)
  simp only [setField, Nat.reduceAdd, Option.ite_none_left_eq_some, Option.some.injEq, not_or,
    not_lt] at hyear hmon hmday hhour hmin
  obtain ⟨hyear, rfl⟩ := hyear
  obtain ⟨hmon, rfl⟩ := hmon
  obtain ⟨hmday, rfl⟩ := hmday
  obtain ⟨hhour, rfl⟩ := hhour
  obtain ⟨hmin, rfl⟩ := hmin
  obtain rfl := Option.some.inj hread6
  refine ⟨⟨?_, ?_, hmday.1, hmday.2, Nat.lt_succ_of_le hhour, Nat.lt_succ_of_le hmin⟩, ?_⟩
  · show y - 1900 < 8100
    omega
  · show mo - 1 < 12
    omega
  · rw [Tm.text, Nat.sub_add_cancel hyear, Nat.sub_add_cancel hmon.1, List.append_nil]

/-- A time that is written is read. -/
theorem formatTime_text {tm : Tm} (htm : tm.Valid) : formatTime tm.text = some tm := by
  obtain ⟨hyear, hmon, hpos, hmday, hhour, hmin⟩ := htm
  rw [formatTime, if_neg (by rw [Tm.length_text]; decide), Tm.text, split]
  have hset {i v : ℕ} {tm0 tm1 : Tm} {out : Prop} [Decidable out]
      (hfield : setField tm0 i v = if out then none else some tm1) (hin : ¬out) :
      setField tm0 i v = some tm1 := hfield.trans (if_neg hin)
  refine (readFields_cons_iff (by decide)).mpr
    ⟨tm.year + 1900, _, _, by omega, rfl, hset (by rw [setField]) (by omega), ?_⟩
  refine (readFields_cons_iff (by decide)).mpr
    ⟨tm.mon + 1, _, _, by omega, rfl, hset (by rw [setField]) (by omega), ?_⟩
  refine (readFields_cons_iff (by decide)).mpr
    ⟨tm.mday, _, _, by omega, rfl, hset (by rw [setField]) (by omega), ?_⟩
  refine readFields_dash_iff.mpr ⟨_, rfl, ?_⟩
  refine (readFields_cons_iff (by decide)).mpr
    ⟨tm.hour, _, _, by omega, rfl, hset (by rw [setField]) (by omega), ?_⟩
  refine (readFields_cons_iff (by decide)).mpr
    ⟨tm.min, [], _, by omega, (List.append_nil _).symm, hset (by rw [setField]) (by omega), ?_⟩
  rw [readFields, Nat.add_sub_cancel, Nat.add_sub_cancel]

/-- The strings that are accepted are the times in their ranges as they are written, and each is
read as the time it is. -/
theorem formatTime_eq_some_iff {str : Str} {tm : Tm} :
    formatTime str = some tm ↔ tm.Valid ∧ str = tm.text :=
  ⟨eq_text_of_formatTime, fun ⟨htm, hstr⟩ ↦ hstr ▸ formatTime_text htm⟩

end Katmai.Playlist
