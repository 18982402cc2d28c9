import Mathlib.Data.List.Basic
import Mathlib.Data.List.Infix
import Mathlib.Data.List.TakeWhile
import Mathlib.Tactic.Common

/-!
# Scanners that take the longest match

A rule of a scanner is a choice of patterns, a pattern a list of runs, a run a number of characters
of a class with bounds. `matchLengths` lists the lengths of all the prefixes of a text that a
pattern matches, so that `mem_matchLengths_iff` can say what they are. `munch` is the decision that
generated scanners take: of the rules of a list it chooses the one with the longest match, and of
several the first. `munch_eq` is how to show what it chooses, and `munch_middle` what one more rule
changes.
-/

set_option autoImplicit false
set_option relaxedAutoImplicit false

namespace Katmai.Foundation

variable {α ρ : Type*}

/-- Characters of a class, with the least and the greatest number of them. -/
structure Run (α : Type*) where
  accepts : α → Bool
  least : ℕ
  most : Option ℕ

namespace Run

/-- One character of a class. -/
def one (accepts : α → Bool) : Run α :=
  ⟨accepts, 1, some 1⟩

/-- Any number of characters of a class. -/
def star (accepts : α → Bool) : Run α :=
  ⟨accepts, 0, none⟩

/-- At least one character of a class. -/
def plus (accepts : α → Bool) : Run α :=
  ⟨accepts, 1, none⟩

/-- The words of the run. -/
def Admits (r : Run α) (word : List α) : Prop :=
  (∀ c ∈ word, r.accepts c = true) ∧ r.least ≤ word.length ∧ ∀ m ∈ r.most, word.length ≤ m

/-- The lengths that the run can have at the front of a text. -/
def counts (r : Run α) (text : List α) : List ℕ :=
  let here := (text.takeWhile r.accepts).length
  (List.range ((r.most.elim here (min here)) + 1)).filter fun n ↦ r.least ≤ n

theorem mem_counts_iff {r : Run α} {text : List α} {n : ℕ} :
    n ∈ r.counts text ↔ n ≤ text.length ∧ r.Admits (text.take n) := by
  have htake : n ≤ (text.takeWhile r.accepts).length ↔
      n ≤ text.length ∧ ∀ c ∈ text.take n, r.accepts c = true := by
    induction text generalizing n with
    | nil => cases n <;> simp
    | cons first rest ih =>
      cases n with
      | zero => simp
      | succ n =>
        cases hfirst : r.accepts first with
        | false => simp [hfirst]
        | true => simp [hfirst, ih]
  simp only [counts, Admits, List.mem_filter, List.mem_range, decide_eq_true_eq, Nat.lt_succ_iff]
  cases hmost : r.most with
  | none =>
    simp only [Option.elim_none, htake, List.length_take, Option.mem_def, reduceCtorEq,
      false_implies, implies_true, and_true]
    constructor
    · rintro ⟨⟨hn, hall⟩, hleast⟩
      exact ⟨hn, hall, by omega⟩
    · rintro ⟨hn, hall, hleast⟩
      exact ⟨⟨hn, hall⟩, by omega⟩
  | some m =>
    simp only [Option.elim_some, Nat.le_min, htake, List.length_take, Option.mem_def,
      Option.some.injEq, forall_eq']
    constructor
    · rintro ⟨⟨⟨hn, hall⟩, hm⟩, hleast⟩
      exact ⟨hn, hall, by omega, by omega⟩
    · rintro ⟨hn, hall, hleast, hm⟩
      exact ⟨⟨⟨hn, hall⟩, by omega⟩, by omega⟩

end Run

/-- The words of a pattern. -/
def Spelled : List (Run α) → List α → Prop
  | [], word => word = []
  | r :: rs, word => ∃ front back, word = front ++ back ∧ r.Admits front ∧ Spelled rs back

@[simp] theorem spelled_one_cons {p : α → Bool} {rs : List (Run α)} {word : List α} :
    Spelled (Run.one p :: rs) word ↔ ∃ c back, word = c :: back ∧ p c = true ∧ Spelled rs back := by
  constructor
  · rintro ⟨front, back, rfl, ⟨hall, hleast, hmost⟩, hback⟩
    obtain ⟨c, rfl⟩ := List.length_eq_one_iff.mp (Nat.le_antisymm (hmost 1 rfl) hleast)
    exact ⟨c, back, rfl, hall c List.mem_cons_self, hback⟩
  · rintro ⟨c, back, rfl, hc, hback⟩
    exact ⟨[c], back, rfl, ⟨by simpa [Run.one] using hc, Nat.le_refl 1, by simp [Run.one]⟩, hback⟩

@[simp] theorem spelled_nil {word : List α} : Spelled ([] : List (Run α)) word ↔ word = [] :=
  Iff.rfl

@[simp] theorem spelled_star {p : α → Bool} {word : List α} :
    Spelled [Run.star p] word ↔ ∀ c ∈ word, p c = true := by
  simp [Spelled, Run.Admits, Run.star]

@[simp] theorem spelled_plus {p : α → Bool} {word : List α} :
    Spelled [Run.plus p] word ↔ word ≠ [] ∧ ∀ c ∈ word, p c = true := by
  simp only [Spelled, Run.Admits, Run.plus, Nat.one_le_iff_ne_zero, ne_eq,
    List.length_eq_zero_iff]
  constructor
  · rintro ⟨front, back, rfl, ⟨hall, hne, -⟩, rfl⟩
    rw [List.append_nil]
    exact ⟨hne, hall⟩
  · rintro ⟨hne, hall⟩
    exact ⟨word, [], (List.append_nil word).symm, ⟨hall, hne, by simp⟩, rfl⟩

/-- The lengths of the prefixes of a text that a pattern matches. -/
def matchLengths : List (Run α) → List α → List ℕ
  | [], _ => [0]
  | r :: rs, text => (r.counts text).flatMap fun n ↦ (matchLengths rs (text.drop n)).map (n + ·)

/-- They are the lengths of the prefixes that are words of the pattern. -/
theorem mem_matchLengths_iff {rs : List (Run α)} {text : List α} {n : ℕ} :
    n ∈ matchLengths rs text ↔ n ≤ text.length ∧ Spelled rs (text.take n) := by
  induction rs generalizing text n with
  | nil =>
    simp only [matchLengths, List.mem_singleton, Spelled, List.take_eq_nil_iff]
    constructor
    · rintro rfl
      exact ⟨Nat.zero_le _, .inl rfl⟩
    · rintro ⟨hn, rfl | rfl⟩
      · rfl
      · exact Nat.le_zero.mp hn
  | cons r rs ih =>
    simp only [matchLengths, List.mem_flatMap, List.mem_map, Run.mem_counts_iff, ih, Spelled]
    constructor
    · rintro ⟨k, ⟨hk, hadmits⟩, m, ⟨hm, hspelled⟩, rfl⟩
      rw [List.length_drop] at hm
      exact ⟨by omega, text.take k, (text.drop k).take m, List.take_add, hadmits, hspelled⟩
    · rintro ⟨hn, front, back, htake, hadmits, hspelled⟩
      have hlength := congrArg List.length htake
      rw [List.length_take, Nat.min_eq_left hn, List.length_append] at hlength
      have htext : text = front ++ (back ++ text.drop n) := by
        rw [← List.append_assoc, ← htake, List.take_append_drop]
      have hfront : text.take front.length = front := by rw [htext, List.take_left]
      have hback : (text.drop front.length).take back.length = back := by
        rw [htext, List.drop_left, List.take_left]
      refine ⟨front.length, ⟨by omega, by rwa [hfront]⟩, back.length,
        ⟨by rw [List.length_drop]; omega, by rwa [hback]⟩, hlength.symm⟩

/-- The longest prefix of a text that one of the patterns matches. -/
def longestPrefix (patterns : List (List (Run α))) (text : List α) : Option ℕ :=
  (patterns.flatMap fun rs ↦ matchLengths rs text).max?

/-- A prefix of a text is a word of one of the patterns. -/
def Takes (patterns : List (List (Run α))) (text word : List α) : Prop :=
  word <+: text ∧ ∃ rs ∈ patterns, Spelled rs word

theorem takes_iff {patterns : List (List (Run α))} {text word : List α} :
    Takes patterns text word ↔
      word <+: text ∧ word.length ∈ patterns.flatMap fun rs ↦ matchLengths rs text := by
  simp only [Takes, List.mem_flatMap, mem_matchLengths_iff]
  refine and_congr_right fun hleads ↦ ?_
  have htake : text.take word.length = word := (List.prefix_iff_eq_take.mp hleads).symm
  simp only [htake, hleads.length_le, true_and]

/-- Whether a word of the patterns may start with the character. -/
def mayStart (patterns : List (List (Run α))) (c : α) : Bool :=
  patterns.any fun rs ↦ rs.head?.elim true fun r ↦ r.least = 0 || r.accepts c

theorem not_takes_of_mayStart {patterns : List (List (Run α))} {c : α} {text word : List α}
    (hnot : mayStart patterns c = false) : ¬Takes patterns (c :: text) word := by
  rintro ⟨hleads, rs, hrs, hspelled⟩
  have hstart := List.any_eq_false.mp hnot rs hrs
  cases rs with
  | nil => simp at hstart
  | cons r rs =>
    obtain ⟨front, back, rfl, ⟨hall, hleast, -⟩, -⟩ := hspelled
    simp only [List.head?_cons, Option.elim_some, Bool.or_eq_true, decide_eq_true_eq, not_or]
      at hstart
    cases front with
    | nil => exact hstart.1 (Nat.le_zero.mp hleast)
    | cons d front =>
      rw [List.cons_append, List.cons_prefix_cons] at hleads
      exact hstart.2 (hleads.1 ▸ hall d List.mem_cons_self)

/-- A prefix of characters of a class does not reach behind a character that is not of it. -/
theorem length_le_of_stop {p : α → Bool} {word front rest : List α}
    (hleads : word <+: front ++ rest) (hall : ∀ c ∈ word, p c = true)
    (hstop : ∀ c ∈ rest.head?, p c = false) : word.length ≤ front.length := by
  by_contra hlong
  obtain ⟨more, rfl⟩ := List.prefix_of_prefix_length_le (List.prefix_append front rest) hleads
    (by omega)
  obtain ⟨c, more, rfl⟩ := List.exists_cons_of_ne_nil (l := more) (by
    rintro rfl
    exact hlong (by rw [List.append_nil]))
  rw [List.prefix_append_right_inj] at hleads
  obtain ⟨tail, rfl⟩ := hleads
  have hc := hall c (by simp)
  rw [hstop c rfl] at hc
  cases hc

/-- Characters of a class with one behind them that is not of it are all that there are. -/
theorem eq_of_stop {p : α → Bool} {c : α} {word front rest : List α}
    (hleads : word ++ [c] <+: front ++ rest) (hword : ∀ d ∈ word, p d = true) (hc : p c = false)
    (hfront : ∀ d ∈ front, p d = true) (hstop : ∀ d ∈ rest.head?, p d = false) :
    word = front ∧ rest.head? = some c := by
  have hle := length_le_of_stop ((List.prefix_append word [c]).trans hleads) hword hstop
  obtain ⟨more, rfl⟩ := List.prefix_of_prefix_length_le
    ((List.prefix_append word [c]).trans hleads) (List.prefix_append front rest) hle
  rw [List.append_assoc, List.prefix_append_right_inj] at hleads
  cases more with
  | nil =>
    obtain ⟨tail, rfl⟩ := hleads
    exact ⟨(List.append_nil word).symm, rfl⟩
  | cons d more =>
    rw [List.cons_append, List.cons_prefix_cons] at hleads
    have hd := hfront d (by simp)
    rw [← hleads.1, hc] at hd
    cases hd

theorem longestPrefix_eq_none {patterns : List (List (Run α))} {text : List α}
    (hnone : ∀ word, ¬Takes patterns text word) : longestPrefix patterns text = none := by
  rw [longestPrefix, List.max?_eq_none_iff, List.eq_nil_iff_forall_not_mem]
  intro n hn
  obtain ⟨rs, hrs, hlen⟩ := List.mem_flatMap.mp hn
  obtain ⟨hle, hspelled⟩ := mem_matchLengths_iff.mp hlen
  exact hnone (text.take n) ⟨List.take_prefix n text, rs, hrs, hspelled⟩

theorem longestPrefix_eq_some_iff {patterns : List (List (Run α))} {text : List α} {n : ℕ} :
    longestPrefix patterns text = some n ↔
      (n ≤ text.length ∧ Takes patterns text (text.take n)) ∧
        ∀ word, Takes patterns text word → word.length ≤ n := by
  rw [longestPrefix, List.max?_eq_some_iff]
  have hmem {m : ℕ} : (m ∈ patterns.flatMap fun rs ↦ matchLengths rs text) ↔
      m ≤ text.length ∧ Takes patterns text (text.take m) := by
    simp only [List.mem_flatMap, mem_matchLengths_iff, Takes, List.take_prefix, true_and]
    grind
  rw [hmem]
  refine and_congr_right fun _ ↦ ⟨fun hmax word htakes ↦ ?_, fun hmax m hm ↦ ?_⟩
  · exact hmax _ (takes_iff.mp htakes).2
  · obtain ⟨hle, htakes⟩ := hmem.mp hm
    have hword := hmax _ htakes
    rwa [List.length_take, Nat.min_eq_left hle] at hword

/-- The first of the longest. -/
def firstLongest : List (ℕ × ρ) → Option (ℕ × ρ)
  | [] => none
  | x :: xs =>
    match firstLongest xs with
    | none => some x
    | some y => if x.1 < y.1 then some y else some x

theorem mem_of_firstLongest {xs : List (ℕ × ρ)} {x : ℕ × ρ} (hx : firstLongest xs = some x) :
    x ∈ xs := by
  induction xs with
  | nil => cases hx
  | cons first rest ih =>
    rw [firstLongest] at hx
    grind

theorem firstLongest_eq_none_iff {xs : List (ℕ × ρ)} : firstLongest xs = none ↔ xs = [] := by
  cases xs with
  | nil => simp [firstLongest]
  | cons first rest =>
    rw [firstLongest]
    grind

/-- One that is longer than those before it and not shorter than those behind it is chosen. -/
theorem firstLongest_eq {front back : List (ℕ × ρ)} {x : ℕ × ρ}
    (hfront : ∀ y ∈ front, y.1 < x.1) (hback : ∀ y ∈ back, y.1 ≤ x.1) :
    firstLongest (front ++ x :: back) = some x := by
  induction front with
  | nil =>
    rw [List.nil_append, firstLongest]
    cases hrest : firstLongest back with
    | none => rfl
    | some y => exact if_neg (Nat.not_lt.mpr (hback y (mem_of_firstLongest hrest)))
  | cons first front ih =>
    rw [List.cons_append, firstLongest, ih fun y hy ↦ hfront y (List.mem_cons_of_mem _ hy)]
    exact if_pos (hfront first List.mem_cons_self)

theorem le_of_firstLongest {xs : List (ℕ × ρ)} {x y : ℕ × ρ} (hx : firstLongest xs = some x)
    (hy : y ∈ xs) : y.1 ≤ x.1 := by
  induction xs generalizing x with
  | nil => cases hy
  | cons first rest ih =>
    have hnil : firstLongest rest = none ↔ rest = [] := firstLongest_eq_none_iff
    rw [firstLongest] at hx
    grind

/-- One more is chosen, and is not shorter than what would be chosen, or changes nothing. -/
theorem firstLongest_middle (front back : List (ℕ × ρ)) (x : ℕ × ρ) :
    (firstLongest (front ++ x :: back) = some x ∧
        ∀ y ∈ firstLongest (front ++ back), y.1 ≤ x.1) ∨
      firstLongest (front ++ x :: back) = firstLongest (front ++ back) := by
  induction front with
  | nil =>
    rw [List.nil_append, List.nil_append, firstLongest]
    grind
  | cons first front ih =>
    rw [List.cons_append, List.cons_append, firstLongest, firstLongest]
    rcases ih with ⟨hx, hall⟩ | hsame
    · rw [hx]
      dsimp only
      by_cases hlt : first.1 < x.1
      · left
        rw [if_pos hlt]
        refine ⟨rfl, fun y hy ↦ ?_⟩
        cases hrest : firstLongest (front ++ back) with
        | none => grind
        | some z =>
          have hz := hall z hrest
          grind
      · right
        cases hrest : firstLongest (front ++ back) with
        | none => exact if_neg hlt
        | some z =>
          have hz := hall z hrest
          rw [if_neg hlt]
          exact (if_neg (by omega)).symm
    · exact .inr (by rw [hsame])

/-- What is chosen behind one of the list is longer than it. -/
theorem lt_of_firstLongest {front back : List (ℕ × ρ)} {x y : ℕ × ρ}
    (hy : firstLongest (front ++ x :: back) = some y) : y ∈ front ∨ y = x ∨ x.1 < y.1 := by
  induction front with
  | nil =>
    rw [List.nil_append, firstLongest] at hy
    grind
  | cons first front ih =>
    rw [List.cons_append, firstLongest] at hy
    grind

section Munch

variable (patterns : ρ → List (List (Run α)))

/-- The matches of the rules. -/
def candidates (rules : List ρ) (text : List α) : List (ℕ × ρ) :=
  rules.filterMap fun r ↦ (longestPrefix (patterns r) text).map (·, r)

/-- The rule with the longest match, and of several the first, with the length of the match. -/
def munch (rules : List ρ) (text : List α) : Option (ℕ × ρ) :=
  firstLongest (candidates patterns rules text)

variable {patterns} {rules front back : List ρ} {text word : List α} {r : ρ} {n : ℕ}

theorem candidates_append : candidates patterns (front ++ back) text =
    candidates patterns front text ++ candidates patterns back text :=
  List.filterMap_append

theorem mem_candidates_iff {x : ℕ × ρ} : x ∈ candidates patterns rules text ↔
    x.2 ∈ rules ∧ longestPrefix (patterns x.2) text = some x.1 := by
  simp only [candidates, List.mem_filterMap, Option.map_eq_some_iff]
  constructor
  · rintro ⟨r, hr, n, hn, rfl⟩
    exact ⟨hr, hn⟩
  · rintro ⟨hr, hn⟩
    exact ⟨x.2, hr, x.1, hn, rfl⟩

/-- What is chosen is a rule with a match. -/
theorem takes_of_munch (hmunch : munch patterns rules text = some (n, r)) :
    r ∈ rules ∧ n ≤ text.length ∧ Takes (patterns r) text (text.take n) := by
  obtain ⟨hr, hn⟩ := mem_candidates_iff.mp (mem_of_firstLongest hmunch)
  exact ⟨hr, (longestPrefix_eq_some_iff.mp hn).1⟩

/-- A rule is chosen when its match is the longest, and longer than the matches of earlier rules. -/
theorem munch_eq (htakes : Takes (patterns r) text word)
    (hlongest : ∀ other, Takes (patterns r) text other → other.length ≤ word.length)
    (hfront : ∀ q ∈ front, ∀ other, Takes (patterns q) text other → other.length < word.length)
    (hback : ∀ q ∈ back, ∀ other, Takes (patterns q) text other → other.length ≤ word.length) :
    munch patterns (front ++ r :: back) text = some (word.length, r) := by
  have htake : text.take word.length = word := (List.prefix_iff_eq_take.mp htakes.1).symm
  have hword : longestPrefix (patterns r) text = some word.length :=
    longestPrefix_eq_some_iff.mpr ⟨⟨htakes.1.length_le, by rwa [htake]⟩, hlongest⟩
  have hlength {x : ℕ × ρ} {rules : List ρ} (hx : x ∈ candidates patterns rules text) :
      x.2 ∈ rules ∧ Takes (patterns x.2) text (text.take x.1) ∧
        (text.take x.1).length = x.1 := by
    obtain ⟨hmem, hsome⟩ := mem_candidates_iff.mp hx
    obtain ⟨⟨hle, htaken⟩, -⟩ := longestPrefix_eq_some_iff.mp hsome
    exact ⟨hmem, htaken, by rw [List.length_take, Nat.min_eq_left hle]⟩
  rw [munch, candidates_append, candidates, candidates, List.filterMap_cons, hword]
  refine firstLongest_eq (fun x hx ↦ ?_) fun x hx ↦ ?_
  · obtain ⟨hmem, htaken, hlen⟩ := hlength hx
    exact hlen ▸ hfront _ hmem _ htaken
  · obtain ⟨hmem, htaken, hlen⟩ := hlength hx
    exact hlen ▸ hback _ hmem _ htaken

/-- One more rule is chosen, or changes nothing. -/
theorem munch_middle (front back : List ρ) (r : ρ) (text : List α) :
    (∃ n, munch patterns (front ++ r :: back) text = some (n, r)) ∨
      munch patterns (front ++ r :: back) text = munch patterns (front ++ back) text := by
  rw [munch, munch, candidates_append, candidates_append]
  cases hr : longestPrefix (patterns r) text with
  | none =>
    right
    rw [show candidates patterns (r :: back) text = candidates patterns back text by
      rw [candidates, List.filterMap_cons, hr]; rfl]
  | some n =>
    rw [show candidates patterns (r :: back) text = (n, r) :: candidates patterns back text by
      rw [candidates, List.filterMap_cons, hr]; rfl]
    exact (firstLongest_middle _ _ (n, r)).imp (fun h ↦ ⟨n, h.1⟩) id

/-- What is chosen behind a rule that matches is longer than the match. -/
theorem lt_of_munch {q : ρ} (hmunch : munch patterns (front ++ r :: back) text = some (n, q))
    (htakes : Takes (patterns r) text word) : q ∈ front ∨ q = r ∨ word.length < n := by
  cases hr : longestPrefix (patterns r) text with
  | none =>
    rw [longestPrefix, List.max?_eq_none_iff] at hr
    exact absurd (takes_iff.mp htakes).2 (hr ▸ List.not_mem_nil)
  | some m =>
    have hcons : candidates patterns (r :: back) text = (m, r) :: candidates patterns back text := by
      rw [candidates, List.filterMap_cons, hr]
      rfl
    rw [munch, candidates_append, hcons] at hmunch
    rcases lt_of_firstLongest hmunch with hmem | heq | hlt
    · exact .inl (mem_candidates_iff.mp hmem).1
    · exact .inr (.inl (congrArg Prod.snd heq))
    · exact .inr (.inr (Nat.lt_of_le_of_lt ((longestPrefix_eq_some_iff.mp hr).2 word htakes) hlt))

/-- With a rule that matches, one is chosen, and its match is not shorter. -/
theorem exists_munch (hr : r ∈ rules) (htakes : Takes (patterns r) text word) :
    ∃ n q, munch patterns rules text = some (n, q) ∧ word.length ≤ n := by
  obtain ⟨m, hm⟩ : ∃ m, longestPrefix (patterns r) text = some m := by
    by_contra hnone
    rw [not_exists, ← Option.eq_none_iff_forall_ne_some, longestPrefix,
      List.max?_eq_none_iff] at hnone
    exact List.not_mem_nil (hnone ▸ (takes_iff.mp htakes).2)
  have hmem : (m, r) ∈ candidates patterns rules text := mem_candidates_iff.mpr ⟨hr, hm⟩
  obtain ⟨⟨n, q⟩, hmunch⟩ : ∃ x, munch patterns rules text = some x := by
    by_contra hnone
    rw [not_exists, ← Option.eq_none_iff_forall_ne_some, munch,
      firstLongest_eq_none_iff] at hnone
    exact List.not_mem_nil (hnone ▸ hmem)
  exact ⟨n, q, hmunch, ((longestPrefix_eq_some_iff.mp hm).2 word htakes).trans
    (le_of_firstLongest hmunch hmem)⟩

end Munch

end Katmai.Foundation
