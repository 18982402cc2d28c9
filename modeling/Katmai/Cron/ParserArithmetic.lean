import Katmai.Cron.LineLanguage

/-!
# The arithmetic of the parser

The operations of `parse_cron_string` that can be undefined are the remainders `j % n`, the sums
`n * 10 + digit` and the shifts. `parseArithmetic` lists those that a run of the loop performs, up
to the first one that is undefined. The shifts stand behind the guards `n < 32` and `n < 63` and are
always defined; the remainders and the sums have no guard. All of them are defined exactly if the
string is not one of `UndefinedLine` (`parseArithmetic_defined_iff`).
-/

set_option autoImplicit false
set_option relaxedAutoImplicit false

namespace Katmai.Cron

/-- An operation whose result may be undefined. -/
inductive Arithmetic
  /-- `j % n` -/
  | remainder (j n : ℕ)
  /-- `n * 10 + (int) (str[i] - '0')` -/
  | append (n : ℕ) (c : Char)
  /-- A shift to the left of a value of `width` bits. -/
  | shift (width count : ℕ)
  deriving DecidableEq

/-- The operation is defined: the divisor is not zero, the sum is an `int`, the count is less than
the width. -/
def Arithmetic.Defined : Arithmetic → Prop
  | .remainder _ n => n ≠ 0
  | .append n c => n * 10 + digitValue c < intLimit
  | .shift width count => count < width

/-- The shifts at the start of a round in state `2`. -/
def maskShifts (n : ℕ) : List Arithmetic :=
  if n = 0 then []
  else if n < 32 then [.shift 32 n, .shift 64 n]
  else if n < 63 then [.shift 64 n]
  else []

/-- The loop over the bits of the two masks in state `5`. -/
def sweepArithmetic (n : ℕ) : List Arithmetic :=
  (List.range 63).flatMap fun j ↦ [.remainder j n, .shift 64 1, .shift 32 1]

/-- The operations of one round of the loop. -/
def roundArithmetic (p : CronParser) (c : Char) : List Arithmetic :=
  match p.state with
  | .number => maskShifts p.n ++ if isBlank c then [] else if isDigit c then [.append p.n c] else []
  | .every =>
    if isBlank c then sweepArithmetic p.n else if isDigit c then [.append p.n c] else []
  | _ => []

/-- The operations of the loop over the string from position `i` on. -/
def parseArithmetic (p : CronParser) (i : ℕ) : List Char → List Arithmetic
  | [] => []
  | c :: rest =>
    if p.state = .error then []
    else
      roundArithmetic p c ++
        match readChar p i c with
        | none => []
        | some p =>
          if p.state = .command && !isBlank c then [] else parseArithmetic p (i + 1) rest

theorem maskShifts_defined (n : ℕ) : ∀ op ∈ maskShifts n, op.Defined := by
  intro op hop
  unfold maskShifts at hop
  split_ifs at hop with hzero hlow hhigh
  · exact absurd hop List.not_mem_nil
  · rcases List.mem_pair.mp hop with rfl | rfl
    · exact hlow
    · exact Nat.lt_trans hlow (by decide)
  · rw [List.mem_singleton.mp hop]
    exact Nat.lt_trans hhigh (by decide)
  · exact absurd hop List.not_mem_nil

theorem sweepArithmetic_defined_iff (n : ℕ) :
    (∀ op ∈ sweepArithmetic n, op.Defined) ↔ n ≠ 0 := by
  constructor
  · intro hall
    exact hall (.remainder 0 n) (List.mem_flatMap.mpr ⟨0, by decide, List.mem_cons_self⟩)
  · intro hne op hop
    obtain ⟨j, -, hop⟩ := List.mem_flatMap.mp hop
    simp only [List.mem_cons, List.not_mem_nil, or_false] at hop
    rcases hop with rfl | rfl | rfl
    · exact hne
    · exact (by decide : 1 < 64)
    · exact (by decide : 1 < 32)

/-- The operations of a round are defined exactly if the round has a result. -/
theorem roundArithmetic_defined_iff (p : CronParser) (i : ℕ) (c : Char) :
    (∀ op ∈ roundArithmetic p c, op.Defined) ↔ readChar p i c ≠ none := by
  have happend (f : ℕ → CronParser) : (appendDigit p.n c).map f ≠ none ↔
      (Arithmetic.append p.n c).Defined := by
    unfold appendDigit
    split_ifs with hfits
    · exact iff_of_true (Option.some_ne_none _) hfits
    · exact iff_of_false (fun hne ↦ hne rfl) hfits
  cases hstate : p.state with
  | number =>
    rw [roundArithmetic, hstate]
    simp only [List.mem_append, or_imp, forall_and, readChar, hstate]
    rw [and_iff_right (maskShifts_defined p.n)]
    split_ifs with hblank hdigit hcomma
    · simp
    · rw [happend, List.forall_mem_singleton]
    · simp
    · simp
  | every =>
    rw [roundArithmetic, hstate]
    simp only [readChar, hstate]
    split_ifs with hblank hzero hdigit
    · rw [sweepArithmetic_defined_iff]
      simp [hzero]
    · rw [sweepArithmetic_defined_iff]
      simp [hzero]
    · rw [happend, List.forall_mem_singleton]
    · simp
  | start => simp [roundArithmetic, readChar, hstate]
  | star => simp [roundArithmetic, readChar, hstate]
  | slash => simp [roundArithmetic, readChar, hstate]
  | comma => simp [roundArithmetic, readChar, hstate]
  | command => simp [roundArithmetic, readChar, hstate]
  | error => simp [roundArithmetic, readChar, hstate]

/-- The operations of the loop are defined exactly if the loop has a result. -/
theorem parseArithmetic_defined_iff_parseLoop (s : List Char) : ∀ (p : CronParser) (i : ℕ),
    (∀ op ∈ parseArithmetic p i s, op.Defined) ↔ parseLoop p i s ≠ none := by
  induction s with
  | nil =>
    intro p i
    exact iff_of_true (fun op hop ↦ absurd hop List.not_mem_nil) (Option.some_ne_none none)
  | cons c rest ih =>
    intro p i
    rw [parseArithmetic, parseLoop]
    split_ifs with herror
    · exact iff_of_true (fun op hop ↦ absurd hop List.not_mem_nil) (Option.some_ne_none none)
    · simp only [List.mem_append, or_imp, forall_and]
      rw [roundArithmetic_defined_iff p i c]
      cases hread : readChar p i c with
      | none => simp
      | some p' =>
        rw [Option.bind_some, and_iff_right (Option.some_ne_none p')]
        simp only []
        split_ifs with hcommand
        · exact iff_of_true (fun op hop ↦ absurd hop List.not_mem_nil) (Option.some_ne_none _)
        · exact ih p' (i + 1)

/-- For every string, of any length: all operations of `parse_cron_string` are defined exactly if
the part of the string that the loop looks at has no number that is no `int` where one is read, and
no step of zero with a blank behind it. -/
theorem parseArithmetic_defined_iff (str : List Char) :
    (∀ op ∈ parseArithmetic .init 0 (visible str), op.Defined) ↔ ¬UndefinedLine (visible str) := by
  rw [parseArithmetic_defined_iff_parseLoop, ne_eq, parseLoop_eq_none_iff]

/-- `*/0 ` divides by zero. -/
theorem step_of_zero_is_undefined :
    ¬∀ op ∈ parseArithmetic .init 0 (visible "*/0 ".toList), op.Defined := by
  rw [visible_eq (by decide)]
  intro hall
  exact hall (.remainder 0 0) (by decide) rfl

end Katmai.Cron
