import Mathlib.Data.List.Basic
import Mathlib.Data.List.TakeWhile
import Mathlib.Data.Nat.Notation
import Mathlib.Tactic.Common

/-!
# Words of a text

A text is words with blanks between them, before them and behind them. `words` are its words, and
`textFrom n` is what is left of it from the word behind the first `n` on, which is nothing when
there are no more than `n` (`words_textFrom`, `textFrom_eq_nil_iff`).
-/

set_option autoImplicit false
set_option relaxedAutoImplicit false

namespace Katmai.Foundation

variable {α : Type*} {blank : α → Bool} {c : α} {text : List α}

/-- The words of a text. -/
def words (blank : α → Bool) (text : List α) : List (List α) :=
  (text.splitOnP blank).filter fun word ↦ !word.isEmpty

/-- The text from the word behind the first `n` on. -/
def textFrom (blank : α → Bool) : ℕ → List α → List α
  | 0, text => text.dropWhile blank
  | n + 1, text => textFrom blank n ((text.dropWhile blank).dropWhile fun c ↦ !blank c)

@[simp] theorem words_nil : words blank [] = [] :=
  rfl

theorem words_cons_of_blank (hc : blank c = true) (text : List α) :
    words blank (c :: text) = words blank text := by
  rw [words, List.splitOnP_cons_eq_if_modifyHead, if_pos hc]
  rfl

/-- The first piece of a text is what comes before the first blank. -/
theorem exists_splitOnP (blank : α → Bool) (text : List α) :
    ∃ pieces, text.splitOnP blank = (text.takeWhile fun c ↦ !blank c) :: pieces ∧
      pieces.filter (fun word ↦ !word.isEmpty) =
        words blank (text.dropWhile fun c ↦ !blank c) := by
  induction text with
  | nil => exact ⟨[], rfl, rfl⟩
  | cons c text ih =>
    obtain ⟨pieces, hsplit, hpieces⟩ := ih
    cases hc : blank c with
    | true =>
      refine ⟨text.splitOnP blank, ?_, ?_⟩
      · rw [List.splitOnP_cons_eq_if_modifyHead, if_pos hc,
          List.takeWhile_cons_of_neg (by simp [hc])]
      · rw [List.dropWhile_cons_of_neg (by simp [hc]), words_cons_of_blank hc]
        rfl
    | false =>
      refine ⟨pieces, ?_, ?_⟩
      · rw [List.splitOnP_cons_eq_if_modifyHead, if_neg (by simp [hc]), hsplit,
          List.takeWhile_cons_of_pos (by simp [hc])]
        rfl
      · rw [List.dropWhile_cons_of_pos (by simp [hc])]
        exact hpieces

theorem words_cons_of_not_blank (hc : blank c = false) (text : List α) :
    words blank (c :: text) =
      (c :: text.takeWhile fun c ↦ !blank c) :: words blank (text.dropWhile fun c ↦ !blank c) := by
  obtain ⟨pieces, hsplit, hpieces⟩ := exists_splitOnP blank text
  rw [words, List.splitOnP_cons_eq_if_modifyHead, if_neg (by simp [hc]), hsplit, ← hpieces]
  rfl

theorem words_dropWhile_blank (text : List α) :
    words blank (text.dropWhile blank) = words blank text := by
  induction text with
  | nil => rfl
  | cons c text ih =>
    cases hc : blank c with
    | true => rw [List.dropWhile_cons_of_pos hc, words_cons_of_blank hc, ih]
    | false => rw [List.dropWhile_cons_of_neg (by simp [hc])]

theorem ne_nil_of_mem_words {word : List α} (hmem : word ∈ words blank text) : word ≠ [] := by
  rintro rfl
  exact absurd (List.mem_filter.mp hmem).2 (by simp)

/-- A text without words is blank. -/
theorem dropWhile_blank_eq_nil_iff : text.dropWhile blank = [] ↔ words blank text = [] := by
  induction text with
  | nil => exact iff_of_true rfl rfl
  | cons c text ih =>
    cases hc : blank c with
    | true => rw [List.dropWhile_cons_of_pos hc, words_cons_of_blank hc, ih]
    | false =>
      rw [List.dropWhile_cons_of_neg (by simp [hc]), words_cons_of_not_blank hc]
      exact iff_of_false (List.cons_ne_nil _ _) (List.cons_ne_nil _ _)

/-- What is left without the first word. -/
theorem words_dropWhile_dropWhile (text : List α) :
    words blank ((text.dropWhile blank).dropWhile fun c ↦ !blank c) =
      (words blank text).drop 1 := by
  rw [← words_dropWhile_blank text]
  cases hrest : text.dropWhile blank with
  | nil => rfl
  | cons c rest =>
    have hc : blank c = false := by
      have hhead := List.head?_dropWhile_not blank text
      rw [hrest] at hhead
      simpa using hhead
    rw [words_cons_of_not_blank hc, List.dropWhile_cons_of_pos (by simp [hc])]
    rfl

/-- A text is blank, or it has a first character that is not. -/
theorem blank_or_exists (p : α → Bool) (text : List α) :
    (∀ c ∈ text, p c = true) ∨
      ∃ before c rest, text = before ++ c :: rest ∧ (∀ d ∈ before, p d = true) ∧ p c = false := by
  induction text with
  | nil => exact .inl fun c hc ↦ absurd hc List.not_mem_nil
  | cons c text ih =>
    cases hc : p c with
    | false => exact .inr ⟨[], c, text, rfl, fun d hd ↦ absurd hd List.not_mem_nil, hc⟩
    | true =>
      rcases ih with htext | ⟨before, d, rest, rfl, hbefore, hd⟩
      · exact .inl (List.forall_mem_cons.mpr ⟨hc, htext⟩)
      · exact .inr ⟨c :: before, d, rest, rfl, List.forall_mem_cons.mpr ⟨hc, hbefore⟩, hd⟩

theorem words_blanks_append (htext : ∀ c ∈ text, blank c = true) (rest : List α) :
    words blank (text ++ rest) = words blank rest := by
  rw [← words_dropWhile_blank, List.dropWhile_append_of_pos htext, words_dropWhile_blank]

theorem words_of_blank (htext : ∀ c ∈ text, blank c = true) : words blank text = [] := by
  rw [← List.append_nil text, words_blanks_append htext, words_nil]

/-- A text that begins with a word and has nothing behind it but a blank and some text. -/
theorem words_word_append (hc : blank c = false) {word : List α}
    (hword : ∀ d ∈ word, blank d = false) {b : α} (hb : blank b = true) (rest : List α) :
    words blank (c :: (word ++ b :: rest)) = (c :: word) :: words blank rest := by
  have hnot : ∀ d ∈ word, (!blank d) = true := fun d hd ↦ by rw [hword d hd]; rfl
  rw [words_cons_of_not_blank hc, List.takeWhile_append_of_pos hnot,
    List.takeWhile_cons_of_neg (by simp [hb]), List.append_nil, List.dropWhile_append_of_pos hnot,
    List.dropWhile_cons_of_neg (by simp [hb]), words_cons_of_blank hb]

theorem words_word (hc : blank c = false) {word : List α} (hword : ∀ d ∈ word, blank d = false) :
    words blank (c :: word) = [c :: word] := by
  have hnot : ∀ d ∈ word, (!blank d) = true := fun d hd ↦ by rw [hword d hd]; rfl
  rw [words_cons_of_not_blank hc, List.takeWhile_eq_self_iff.mpr hnot,
    List.dropWhile_eq_nil_iff.mpr hnot, words_nil]

/-- Blanks behind a text make no words. -/
theorem words_append_blanks {blanks : List α} (hblanks : ∀ c ∈ blanks, blank c = true)
    (text : List α) : words blank (text ++ blanks) = words blank text := by
  induction hlength : text.length using Nat.strong_induction_on generalizing text with
  | h n ih =>
    rcases blank_or_exists blank text with htext | ⟨before, c, rest, rfl, hbefore, hc⟩
    · rw [words_blanks_append htext, words_of_blank htext, words_of_blank hblanks]
    rw [List.append_assoc, words_blanks_append hbefore, words_blanks_append hbefore,
      List.cons_append]
    rcases blank_or_exists (fun d ↦ !blank d) rest with hword | ⟨word, d, rest, rfl, hword, hd⟩
    · have hrest : ∀ d ∈ rest, blank d = false := fun d hd ↦ by simpa using hword d hd
      rw [words_word hc hrest]
      cases blanks with
      | nil => rw [List.append_nil, words_word hc hrest]
      | cons b blanks =>
        have hb := List.forall_mem_cons.mp hblanks
        rw [words_word_append hc hrest hb.1, words_of_blank hb.2]
    · have hfirst : ∀ d ∈ word, blank d = false := fun d hd ↦ by simpa using hword d hd
      have hd' : blank d = true := by simpa using hd
      have hlt : rest.length < n := by
        rw [← hlength]
        simp only [List.length_append, List.length_cons]
        omega
      rw [List.append_assoc, List.cons_append, words_word_append hc hfirst hd',
        words_word_append hc hfirst hd', ih _ hlt rest rfl]

/-- The words of the text from the word behind the first `n` on. -/
theorem words_textFrom (n : ℕ) (text : List α) :
    words blank (textFrom blank n text) = (words blank text).drop n := by
  induction n generalizing text with
  | zero => exact words_dropWhile_blank text
  | succ n ih => rw [textFrom, ih, words_dropWhile_dropWhile, List.drop_drop, Nat.add_comm]

theorem textFrom_eq_nil_iff (n : ℕ) (text : List α) :
    textFrom blank n text = [] ↔ (words blank text).length ≤ n := by
  induction n generalizing text with
  | zero =>
    rw [textFrom, dropWhile_blank_eq_nil_iff, Nat.le_zero_eq, List.length_eq_zero_iff]
  | succ n ih =>
    rw [textFrom, ih, words_dropWhile_dropWhile, List.length_drop]
    omega

theorem textFrom_suffix (n : ℕ) (text : List α) : textFrom blank n text <:+ text := by
  induction n generalizing text with
  | zero => exact List.dropWhile_suffix _
  | succ n ih =>
    exact (ih _).trans ((List.dropWhile_suffix _).trans (List.dropWhile_suffix _))

end Katmai.Foundation
