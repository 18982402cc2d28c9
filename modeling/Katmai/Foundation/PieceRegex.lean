import Mathlib.Data.List.Basic
import Mathlib.Data.List.TakeWhile
import Mathlib.Algebra.Ring.Nat
import Mathlib.Tactic.Common

/-!
# Regular expressions without choice

A `PieceRegex` is a concatenation of pieces, each a class of characters or one or more characters of
a class, with optional anchors. `search` finds what a POSIX matcher finds in a text without line
ends: of all matches the leftmost, of these the longest, and of these the one whose first pieces are
as long as possible. A repeated piece behind which the rest of the pattern matches only where it has
taken all it can has one length (`matchesAt_many`). A pattern with both anchors matches the texts
that `SpelledBy` its pieces (`isSome_search_iff`).
-/

set_option autoImplicit false
set_option relaxedAutoImplicit false

namespace Katmai.Foundation

variable {α : Type*}

/-- A class of characters, or one or more characters of it. -/
structure Piece (α : Type*) where
  accepts : α → Bool
  many : Bool

structure PieceRegex (α : Type*) where
  startAnchor : Bool
  pieces : List (Piece α)
  endAnchor : Bool

/-- The lengths that a piece can have at the front of a text, the longest first. -/
def Piece.lengths (p : Piece α) (text : List α) : List ℕ :=
  let run := (text.takeWhile p.accepts).length
  if p.many then (List.range run).reverse.map (· + 1) else if 0 < run then [1] else []

/-- The lengths of the pieces of all matches at the front of a text. -/
def matchesAt (endAnchor : Bool) : List (Piece α) → List α → List (List ℕ)
  | [], text => if endAnchor && !text.isEmpty then [] else [[]]
  | p :: ps, text =>
    (p.lengths text).flatMap fun n ↦ (matchesAt endAnchor ps (text.drop n)).map (n :: ·)

/-- The first of the longest matches. -/
def longest : List (List ℕ) → Option (List ℕ)
  | [] => none
  | m :: ms =>
    match longest ms with
    | none => some m
    | some best => if m.sum < best.sum then some best else some m

/-- The start of the match, and the lengths of the pieces. -/
def PieceRegex.search (r : PieceRegex α) (text : List α) : Option (ℕ × List ℕ) :=
  (if r.startAnchor then [0] else List.range (text.length + 1)).findSome? fun start ↦
    (longest (matchesAt r.endAnchor r.pieces (text.drop start))).map (start, ·)

/-- The text of the piece with a number in a match. -/
def pieceText (text : List α) (start : ℕ) (lengths : List ℕ) (n : ℕ) : List α :=
  (text.drop (start + (lengths.take n).sum)).take (lengths.getD n 0)

/-! ### Matches at the front of a text -/

variable {p : Piece α} {ps : List (Piece α)} {front rest text : List α} {endAnchor : Bool}

/-- A character that is not of the class. -/
theorem matchesAt_of_not {c : α} (hc : p.accepts c = false) :
    matchesAt endAnchor (p :: ps) (c :: rest) = [] := by
  have hlengths : p.lengths (c :: rest) = [] := by
    simp [Piece.lengths, hc]
  rw [matchesAt, hlengths]
  rfl

/-- The characters of a class in front of one that is not of it. -/
theorem takeWhile_front (hfront : ∀ c ∈ front, p.accepts c = true)
    (hrest : ∀ c ∈ rest.head?, p.accepts c = false) :
    (front ++ rest).takeWhile p.accepts = front := by
  rw [List.takeWhile_append_of_pos hfront]
  cases rest with
  | nil => simp
  | cons c rest => simp [hrest c rfl]

/-- The lengths of a repeated piece. -/
theorem lengths_many (hmany : p.many = true) (hne : front ≠ [])
    (hfront : ∀ c ∈ front, p.accepts c = true) (hrest : ∀ c ∈ rest.head?, p.accepts c = false) :
    p.lengths (front ++ rest) =
      front.length :: (List.range (front.length - 1)).reverse.map (· + 1) := by
  obtain ⟨m, hm⟩ := Nat.exists_eq_add_one_of_ne_zero (mt List.eq_nil_of_length_eq_zero hne)
  simp only [Piece.lengths, hmany, if_true, takeWhile_front hfront hrest, hm, List.range_succ,
    List.reverse_append, List.reverse_singleton, List.singleton_append, List.map_cons,
    Nat.add_sub_cancel]

/-- A repeated piece whose rest matches only behind all characters of the class. -/
theorem matchesAt_many (hmany : p.many = true) (hne : front ≠ [])
    (hfront : ∀ c ∈ front, p.accepts c = true) (hrest : ∀ c ∈ rest.head?, p.accepts c = false)
    (hshort : ∀ n, 0 < n → n < front.length →
      matchesAt endAnchor ps (front.drop n ++ rest) = []) :
    matchesAt endAnchor (p :: ps) (front ++ rest) =
      (matchesAt endAnchor ps rest).map (front.length :: ·) := by
  have hnone : ((List.range (front.length - 1)).reverse.map (· + 1)).flatMap (fun n ↦
      (matchesAt endAnchor ps ((front ++ rest).drop n)).map (n :: ·)) = [] := by
    rw [List.flatMap_eq_nil_iff]
    intro n hn
    obtain ⟨k, hk, rfl⟩ := List.mem_map.mp hn
    have hlt : k < front.length - 1 := List.mem_range.mp (List.mem_reverse.mp hk)
    rw [List.drop_append_of_le_length (by omega), hshort (k + 1) k.succ_pos (by omega),
      List.map_nil]
  rw [matchesAt, lengths_many hmany hne hfront hrest, List.flatMap_cons, hnone, List.append_nil,
    List.drop_left]

theorem mem_of_longest {ms : List (List ℕ)} {best : List ℕ} (hbest : longest ms = some best) :
    best ∈ ms := by
  induction ms generalizing best with
  | nil => exact absurd hbest (by simp [longest])
  | cons m ms ih =>
    rw [longest] at hbest
    cases hrest : longest ms with
    | none =>
      rw [hrest] at hbest
      exact Option.some.inj hbest ▸ List.mem_cons_self
    | some other =>
      rw [hrest] at hbest
      simp only at hbest
      split_ifs at hbest
      · exact List.mem_cons_of_mem _ (ih (hrest.trans hbest))
      · exact Option.some.inj hbest ▸ List.mem_cons_self

theorem longest_cons_of_forall_le {m : List ℕ} {ms : List (List ℕ)}
    (hle : ∀ other ∈ ms, other.sum ≤ m.sum) : longest (m :: ms) = some m := by
  rw [longest]
  cases hrest : longest ms with
  | none => rfl
  | some best => exact if_neg (Nat.not_lt.mpr (hle best (mem_of_longest hrest)))

/-- The best match of a repeated piece at the end of a pattern takes all characters of its class. -/
theorem longest_matchesAt_last (hmany : p.many = true) (hne : front ≠ [])
    (hfront : ∀ c ∈ front, p.accepts c = true) (hrest : ∀ c ∈ rest.head?, p.accepts c = false) :
    longest (matchesAt false [p] (front ++ rest)) = some [front.length] := by
  have hlast (l : List ℕ) : l.flatMap (fun n ↦
      (matchesAt false [] ((front ++ rest).drop n)).map (n :: ·)) = l.map fun n ↦ [n] := by
    induction l with
    | nil => rfl
    | cons n l ih =>
      rw [List.flatMap_cons, ih]
      rfl
  rw [matchesAt, lengths_many hmany hne hfront hrest, hlast, List.map_cons]
  refine longest_cons_of_forall_le fun other hother ↦ ?_
  obtain ⟨n, hn, rfl⟩ := List.mem_map.mp hother
  obtain ⟨k, hk, rfl⟩ := List.mem_map.mp hn
  have hlt : k < front.length - 1 := List.mem_range.mp (List.mem_reverse.mp hk)
  simp only [List.sum_singleton]
  omega

theorem longest_map_cons (n : ℕ) (ms : List (List ℕ)) :
    longest (ms.map (n :: ·)) = (longest ms).map (n :: ·) := by
  induction ms with
  | nil => rfl
  | cons m ms ih =>
    rw [List.map_cons, longest, ih, longest]
    cases longest ms with
    | none => rfl
    | some best =>
      simp only [Option.map_some, List.sum_cons, Nat.add_lt_add_iff_left]
      split_ifs <;> rfl

/-- An expression that is anchored at the start matches there. -/
theorem search_of_startAnchor {r : PieceRegex α} {best : List ℕ} (hanchor : r.startAnchor = true)
    (hbest : longest (matchesAt r.endAnchor r.pieces text) = some best) :
    r.search text = some (0, best) := by
  rw [PieceRegex.search, if_pos hanchor, List.findSome?_cons, List.drop_zero, hbest,
    Option.map_some]

/-! ### Whole texts -/

/-- A text that a piece stands for. -/
def Piece.Spells (p : Piece α) (text : List α) : Prop :=
  (∀ c ∈ text, p.accepts c = true) ∧ text ≠ [] ∧ (p.many = false → text.length = 1)

/-- A text that the pieces stand for, one after the other. -/
def SpelledBy : List (Piece α) → List α → Prop
  | [], text => text = []
  | p :: ps, text => ∃ front rest, text = front ++ rest ∧ p.Spells front ∧ SpelledBy ps rest

theorem mem_lengths_iff {n : ℕ} :
    n ∈ p.lengths text ↔
      ∃ front rest, text = front ++ rest ∧ front.length = n ∧ p.Spells front := by
  have hrun : n ∈ p.lengths text ↔ 0 < n ∧ n ≤ (text.takeWhile p.accepts).length ∧
      (p.many = false → n = 1) := by
    cases hmany : p.many with
    | true =>
      simp only [Piece.lengths, hmany, if_true, List.mem_map, List.mem_reverse, List.mem_range]
      constructor
      · rintro ⟨k, hk, rfl⟩
        exact ⟨k.succ_pos, hk, by simp⟩
      · rintro ⟨hpos, hle, -⟩
        exact ⟨n - 1, by omega, by omega⟩
    | false =>
      simp only [Piece.lengths, hmany, Bool.false_eq_true, if_false]
      split_ifs with hpos
      · simp only [List.mem_singleton]
        exact ⟨by rintro rfl; exact ⟨Nat.one_pos, hpos, fun _ ↦ rfl⟩, fun h ↦ h.2.2 trivial⟩
      · simp only [List.not_mem_nil, false_iff]
        omega
  rw [hrun]
  constructor
  · rintro ⟨hpos, hle, hone⟩
    have hlength : ((text.takeWhile p.accepts).take n).length = n := by
      rw [List.length_take]
      omega
    refine ⟨(text.takeWhile p.accepts).take n,
      (text.takeWhile p.accepts).drop n ++ text.dropWhile p.accepts, ?_, hlength, ?_, ?_, ?_⟩
    · rw [← List.append_assoc, List.take_append_drop, List.takeWhile_append_dropWhile]
    · exact fun c hc ↦ List.mem_takeWhile_imp (List.mem_of_mem_take hc)
    · intro hnil
      rw [hnil, List.length_nil] at hlength
      omega
    · exact fun hmany ↦ hlength.trans (hone hmany)
  · rintro ⟨front, rest, rfl, rfl, haccepts, hne, hone⟩
    refine ⟨List.length_pos_iff.mpr hne, ?_, hone⟩
    rw [List.takeWhile_append_of_pos haccepts, List.length_append]
    omega

theorem matchesAt_ne_nil_iff : matchesAt true ps text ≠ [] ↔ SpelledBy ps text := by
  induction ps generalizing text with
  | nil => cases text <;> simp [matchesAt, SpelledBy]
  | cons p ps ih =>
    rw [matchesAt, ne_eq, List.flatMap_eq_nil_iff, SpelledBy]
    constructor
    · intro hmatches
      by_contra hnone
      refine hmatches fun n hn ↦ ?_
      obtain ⟨front, rest, rfl, rfl, hspells⟩ := mem_lengths_iff.mp hn
      rw [List.drop_left, List.map_eq_nil_iff]
      by_contra hrest
      exact hnone ⟨front, rest, rfl, hspells, ih.mp hrest⟩
    · rintro ⟨front, rest, rfl, hspells, hrest⟩ hall
      have hfront := hall front.length (mem_lengths_iff.mpr ⟨front, rest, rfl, rfl, hspells⟩)
      rw [List.drop_left] at hfront
      exact ih.mpr hrest (List.map_eq_nil_iff.mp hfront)

theorem longest_isSome_iff {ms : List (List ℕ)} : (longest ms).isSome ↔ ms ≠ [] := by
  cases ms with
  | nil => simp [longest]
  | cons m ms =>
    rw [longest]
    cases longest ms with
    | none => simp
    | some best =>
      simp only
      split_ifs <;> simp

/-- A pattern with both anchors matches the texts that its pieces stand for. -/
theorem isSome_search_iff :
    (PieceRegex.search { startAnchor := true, pieces := ps, endAnchor := true } text).isSome ↔
      SpelledBy ps text := by
  rw [← matchesAt_ne_nil_iff, ← longest_isSome_iff]
  simp [PieceRegex.search]

end Katmai.Foundation
